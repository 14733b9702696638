import CookbookAtlas.Recipe.KeyPaths
import CookbookAtlas.Text.Basic

/-! Collections that a loop can run over: mappings whose values are all mappings, at the deepest
level where that holds. -/
namespace CookbookAtlas.Attribute

structure Collection where
  path : String
  values : Members

namespace Collection

def items (c : Collection) : List String := Members.keys c.values

def segments (c : Collection) : List String :=
  ((Text.splitOnChar '.' c.path.toList).filter fun s => !s.isEmpty).map String.ofList

end Collection

abbrev Sites := List (String × Datum)

def sizeSites (sites : Sites) : Nat := total (sites.map fun s => s.2.size)

def memberSites (path : String) (members : Members) : Sites :=
  members.map fun m => (path ++ "." ++ m.1, m.2)

theorem sizeSites_memberSites (path : String) (ms : Members) :
    sizeSites (memberSites path ms) = Datum.sizeMembers ms := by
  induction ms with
  | nil => rfl
  | cons m ms ih => obtain ⟨k, v⟩ := m; simpa [sizeSites, memberSites, Datum.sizeMembers] using ih

def mappingsFrom : Sites → List (String × Members)
  | [] => []
  | (path, .object members) :: rest =>
    (path, members) :: mappingsFrom (memberSites path members ++ rest)
  | (_, _) :: rest => mappingsFrom rest
termination_by sites => sizeSites sites
decreasing_by
  · have h := sizeSites_memberSites path members
    simp only [sizeSites, List.map_append, total_append, List.map_cons, total_cons, Datum.size] at *
    omega
  · simp only [sizeSites, List.map_cons, total_cons]
    exact Nat.lt_add_of_pos_left (Datum.one_le_size _)

/-- Adds the path of a mapping that is not empty, holds mappings only, and has no member among
the paths found below it. -/
def qualify (mapping : String × Members) (found : List String) : List String :=
  let (path, members) := mapping
  if !members.isEmpty && members.all (fun m => m.2.isMapping)
      && !members.any (fun m => found.contains (path ++ "." ++ m.1)) then path :: found
  else found

/-- Paths of the mappings that qualify; what is below a mapping is decided before it. -/
def qualifying (mappings : List (String × Members)) : List String := mappings.foldr qualify []

def collections (root : Datum) : List Collection :=
  let mappings := mappingsFrom root.members
  (mappings.filter fun m => (qualifying mappings).contains m.1).map fun m => ⟨m.1, m.2⟩

end CookbookAtlas.Attribute
