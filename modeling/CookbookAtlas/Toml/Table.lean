import CookbookAtlas.Toml.Scalar

/-! Tables of TOML and the rules on defining them: no key twice, no table by two headers, and no
change to a table from outside that was written inline or by dotted keys. -/
namespace CookbookAtlas.Toml

inductive Origin
  | inline
  | header
  | implied
  | dotted
deriving DecidableEq

inductive Item
  | scalar (s : Scalar)
  | array (items : List Item)
  | table (origin : Origin) (members : List (String × Item))
  /-- Tables written one by one, each under its own header. -/
  | tables (elements : List (List (String × Item)))

abbrev Table := List (String × Item)

namespace Table

def get? : Table → String → Option Item
  | [], _ => none
  | (k, v) :: rest, key => if k = key then some v else get? rest key

def set : Table → String → Item → Table
  | [], key, item => [(key, item)]
  | (k, v) :: rest, key, item => if k = key then (k, item) :: rest else (k, v) :: set rest key item

/-- Writes a key, which must be new. Tables on the way are made, or go on if dotted keys made
them. -/
def insert (t : Table) : List String → Item → Option Table
  | [], _ => none
  | [key], item => if (t.get? key).isSome then none else some (t.set key item)
  | key :: next :: rest, item =>
    match t.get? key with
    | none => (insert [] (next :: rest) item).map fun sub => t.set key (.table .dotted sub)
    | some (.table origin sub) =>
      if origin = .dotted ∨ (origin = .implied ∧ rest ≠ []) then
        (insert sub (next :: rest) item).map fun sub => t.set key (.table origin sub)
      else none
    | some _ => none

/-- Goes to a table by the parts of a header and changes it. Tables on the way are made; of tables
written one by one the last is meant. -/
def change (f : Table → Option Table) (t : Table) : List String → Option Table
  | [] => f t
  | key :: rest =>
    match t.get? key with
    | none => (change f [] rest).map fun sub => t.set key (.table .implied sub)
    | some (.table origin sub) =>
      if origin = .inline then none
      else (change f sub rest).map fun sub => t.set key (.table origin sub)
    | some (.tables elements) =>
      match elements.getLast? with
      | some last => (change f last rest).map fun sub => t.set key (.tables (elements.dropLast ++ [sub]))
      | none => none
    | some _ => none

def defineHere (key : String) (t : Table) : Option Table :=
  match t.get? key with
  | none => some (t.set key (.table .header []))
  | some (.table .implied sub) => some (t.set key (.table .header sub))
  | some _ => none

/-- Takes note of the header of one more table of several. -/
def extendHere (key : String) (t : Table) : Option Table :=
  match t.get? key with
  | none => some (t.set key (.tables [[]]))
  | some (.tables elements) => some (t.set key (.tables (elements ++ [[]])))
  | some _ => none

def openHeader (t : Table) (path : List String) (several : Bool) : Option Table :=
  match path.getLast? with
  | none => none
  | some key => change (if several then extendHere key else defineHere key) t path.dropLast

end Table
end CookbookAtlas.Toml
