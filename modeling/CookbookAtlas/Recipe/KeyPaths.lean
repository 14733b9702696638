import CookbookAtlas.Datum.Basic
import CookbookAtlas.Total

/-! Dotted key paths of a data document, in document order and without repetition. The walk keeps
a list of values still to visit, so the depth of the document does not matter. -/
namespace CookbookAtlas.Recipe

def keyPath (above : Option String) (key : String) : String :=
  match above with
  | some path => path ++ "." ++ key
  | none => key

/-- A value to visit with its path; the document itself has none. -/
abbrev Visit := Option String × Datum

/-- What is visited after a value: members under their own paths, items under the value's. -/
def below (path : Option String) : Datum → List Visit
  | .object members => members.map fun m => (some (keyPath path m.1), m.2)
  | .array items => items.map fun v => (path, v)
  | _ => []

def note (found : List String) : Option String → List String
  | some path => if found.contains path then found else path :: found
  | none => found

def sizeVisits (visits : List Visit) : Nat := total (visits.map fun v => v.2.size)

theorem sizeVisits_below (path : Option String) (v : Datum) :
    sizeVisits (below path v) < v.size := by
  have items (vs : List Datum) : sizeVisits (vs.map fun v => (path, v)) = Datum.sizeItems vs := by
    induction vs with
    | nil => rfl
    | cons v vs ih => simpa [sizeVisits, Datum.sizeItems] using ih
  have members (ms : Members) :
      sizeVisits (ms.map fun m => (some (keyPath path m.1), m.2)) = Datum.sizeMembers ms := by
    induction ms with
    | nil => rfl
    | cons m ms ih => obtain ⟨k, v⟩ := m; simpa [sizeVisits, Datum.sizeMembers] using ih
  cases v with
  | object ms => rw [below, members, Datum.size]; omega
  | array vs => rw [below, items, Datum.size]; omega
  | _ => simp [below, sizeVisits, Datum.size]

/-- Paths of the values to visit; `found` holds those noted so far, last one first. -/
def keyPathsFrom (found : List String) : List Visit → List String
  | [] => found.reverse
  | (path, v) :: rest => keyPathsFrom (note found path) (below path v ++ rest)
termination_by visits => sizeVisits visits
decreasing_by
  have h := sizeVisits_below path v
  simp only [sizeVisits, List.map_append, total_append, List.map_cons, total_cons] at *
  omega

def keyPaths (v : Datum) : List String := keyPathsFrom [] [(none, v)]

end CookbookAtlas.Recipe
