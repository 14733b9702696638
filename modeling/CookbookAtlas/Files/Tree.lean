/-! File trees: directories and files by their place, which is the list of names on the way from
the root. The root itself is always a directory. -/
namespace CookbookAtlas.Files

abbrev Place := List String

inductive Entry
  | directory
  | file (bytes : List UInt8) (executable : Bool)
deriving DecidableEq

def Entry.isDirectory : Entry → Bool
  | .directory => true
  | .file _ _ => false

structure Tree where
  entries : List (Place × Entry)

namespace Tree

def empty : Tree := ⟨[]⟩

def lookup (place : Place) : List (Place × Entry) → Option Entry
  | [] => none
  | (k, e) :: rest => if k = place then some e else lookup place rest

def get? (t : Tree) (place : Place) : Option Entry :=
  if place = [] then some .directory else lookup place t.entries

def replace (place : Place) (entry : Entry) : List (Place × Entry) → List (Place × Entry)
  | [] => [(place, entry)]
  | (k, e) :: rest => if k = place then (k, entry) :: rest else (k, e) :: replace place entry rest

def put (t : Tree) (place : Place) (entry : Entry) : Tree :=
  if place = [] then t else ⟨replace place entry t.entries⟩

theorem lookup_replace (place other : Place) (entry : Entry) (entries : List (Place × Entry)) :
    lookup other (replace place entry entries) =
      if place = other then some entry else lookup other entries := by
  induction entries with
  | nil => simp [replace, lookup]
  | cons e rest ih =>
    obtain ⟨k, old⟩ := e
    by_cases hk : k = place
    · subst hk; by_cases h : k = other <;> simp [replace, lookup, h]
    · by_cases h : k = other
      · subst h; simp [replace, lookup, hk, Ne.symm hk]
      · simp [replace, lookup, hk, h, ih]

/-- A written entry is found at its place, and no other place changes. -/
theorem get?_put (t : Tree) {place : Place} (other : Place) (entry : Entry) (h : place ≠ []) :
    (t.put place entry).get? other = if place = other then some entry else t.get? other := by
  by_cases ho : other = []
  · subst ho; simp [get?, h]
  · simp [put, get?, h, ho, lookup_replace]

def remove (t : Tree) (place : Place) : Tree := ⟨t.entries.filter fun e => !place.isPrefixOf e.1⟩

def clear (t : Tree) (place : Place) : Tree :=
  ⟨t.entries.filter fun e => !(place.isPrefixOf e.1 && e.1 != place)⟩

def names (t : Tree) (place : Place) : List String :=
  (t.entries.filterMap fun e =>
    match e.1.getLast? with
    | some name => if e.1.dropLast = place then some name else none
    | none => none).mergeSort fun a b => decide (a ≤ b)

/-- Everything below a place, each with the names that lead there from it, in the order of a walk
that takes every directory's names in order. -/
def below (t : Tree) (place : Place) : List (Place × Entry) :=
  (t.entries.filterMap fun e =>
    if place.isPrefixOf e.1 && e.1 != place then some (e.1.drop place.length, e.2)
    else none).mergeSort
      fun a b => !decide (b.1 < a.1)

end Tree
end CookbookAtlas.Files
