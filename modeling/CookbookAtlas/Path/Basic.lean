import CookbookAtlas.Text.Basic

/-! Paths. A path is kept as it was written; what it denotes is its list of components, in which
repeated separators and inner `.` vanish and a leading `.` stays. -/
namespace CookbookAtlas

structure Path where
  text : String
deriving DecidableEq

namespace Path

inductive Component
  | root
  | current
  | parent
  | name (text : String)
deriving DecidableEq

namespace Component

def text : Component → String
  | .root => "/"
  | .current => "."
  | .parent => ".."
  | .name s => s

/-- The component written by a field between separators, if the field is one. -/
def ofField? (field : List Char) : Option Component :=
  if field = [] ∨ field = ['.'] then none
  else if field = ['.', '.'] then some .parent
  else some (.name (String.ofList field))

def name? : Component → Option String
  | .name s => some s
  | _ => none

end Component

def chars (p : Path) : List Char := p.text.toList

def isAbsolute (p : Path) : Bool := p.chars.head? == some '/'

def fields (cs : List Char) : List (List Char) := Text.splitOnChar '/' cs

def lead (cs : List Char) : List Component :=
  if cs.head? = some '/' then [.root]
  else if (fields cs).head? = some ['.'] then [.current]
  else []

def components (p : Path) : List Component :=
  lead p.chars ++ (fields p.chars).filterMap Component.ofField?

def same (p q : Path) : Bool := p.components == q.components

/-- Puts `q` below `p`; an absolute `q` stands for itself. -/
def join (p q : Path) : Path :=
  if q.isAbsolute then q
  else if p.text.isEmpty || p.chars.getLast? == some '/' then ⟨p.text ++ q.text⟩
  else ⟨p.text ++ "/" ++ q.text⟩

def child (p : Path) (name : String) : Path := p.join ⟨name⟩

def ofComponents (cs : List Component) : Path :=
  cs.foldl (fun p c => p.join ⟨c.text⟩) ⟨""⟩

/-- Removes the component before each `..` and drops every `.`. The file tree is not asked. -/
def normalizeParts (cs : List Component) : List Component :=
  cs.foldl (fun done c =>
    match c with
    | .current => done
    | .parent => done.dropLast
    | c => done ++ [c]) []

def normalize (p : Path) : Path := ofComponents (normalizeParts p.components)

def fileName? (p : Path) : Option String := p.components.getLast?.bind Component.name?

/-- Splits a file name at its last point, unless the point starts it. -/
def splitName (name : String) : String × Option String :=
  match Text.splitLast? '.' name.toList with
  | some (before, ext) =>
    if before.isEmpty then (name, none) else (String.ofList before, some (String.ofList ext))
  | none => (name, none)

def fileStem? (p : Path) : Option String := p.fileName?.map fun n => (splitName n).1

def extension? (p : Path) : Option String := p.fileName?.bind fun n => (splitName n).2

/-- Length of the part that is never trimmed away: the root or a leading `.`. -/
def leadLength (cs : List Char) : Nat := (lead cs).length

def trimFields (reversed : List (List Char)) : List (List Char) :=
  reversed.dropWhile fun f => (Component.ofField? f).isNone

def joinFields (reversed : List (List Char)) : List Char := List.intercalate ['/'] reversed.reverse

/-- The path without its last component; nothing for the root and for the empty path. -/
def parent? (p : Path) : Option Path :=
  let cs := p.chars
  let kept := cs.take (leadLength cs)
  match trimFields (fields (cs.drop (leadLength cs))).reverse with
  | _ :: before => some ⟨String.ofList (kept ++ joinFields (trimFields before))⟩
  | [] => if kept = ['.'] then some ⟨""⟩ else none

/-- The path, its parent, the parent of that, up to `count` paths. -/
def ancestors (p : Path) : Nat → List Path
  | 0 => []
  | count + 1 =>
    match p.parent? with
    | some q => p :: q.ancestors count
    | none => [p]

end Path
end CookbookAtlas
