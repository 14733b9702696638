import CookbookAtlas.Failure
import CookbookAtlas.Files.Tree
import CookbookAtlas.Text.Utf8
import CookbookAtlas.Tool.Command

/-! The world a program runs in: the file tree with the directory it runs in, its environment,
and what it did that later steps depend on. -/
namespace CookbookAtlas

structure World where
  files : Files.Tree
  here : Files.Place
  environment : List (String × String)
  calls : List Tool.Command
  installed : List Path

abbrev Act := ExceptT Trouble (StateM World)

namespace World

/-- The value of an environment variable; a later setting wins. -/
def setting? (w : World) (name : String) : Option String :=
  (w.environment.reverse.find? fun p => p.1 == name).map Prod.snd

/-- Follows components from a place. Everything but the last name has to be a directory. -/
def follow (t : Files.Tree) (place : Files.Place) :
    List Path.Component → Except SystemFault Files.Place
  | [] => .ok place
  | .root :: rest => follow t [] rest
  | c :: rest =>
    match t.get? place with
    | none => .error .notFound
    | some (.file _ _) => .error .other
    | some .directory =>
      match c with
      | .parent => follow t place.dropLast rest
      | .name n => follow t (place ++ [n]) rest
      | _ => follow t place rest

def namesDirectory (p : Path) : Bool :=
  match (Path.fields p.chars).getLast? with
  | some [] | some ['.'] => true
  | _ => false

def place (w : World) (p : Path) : Except SystemFault Files.Place :=
  if p.text.isEmpty then .error .notFound else follow w.files w.here p.components

def entry (w : World) (p : Path) : Except SystemFault Files.Entry :=
  match w.place p with
  | .error fault => .error fault
  | .ok place =>
    match w.files.get? place with
    | none => .error .notFound
    | some (.file bytes executable) =>
      if namesDirectory p then .error .other else .ok (.file bytes executable)
    | some .directory => .ok .directory

def has (w : World) (p : Path) : Bool := (w.entry p).toOption.isSome

def isDirectory (w : World) (p : Path) : Bool := (w.entry p).toOption.any Files.Entry.isDirectory

def isFile (w : World) (p : Path) : Bool := (w.entry p).toOption.any fun e => !e.isDirectory

def bytes (w : World) (p : Path) : Except SystemFault (List UInt8) :=
  match w.entry p with
  | .error fault => .error fault
  | .ok .directory => .error .other
  | .ok (.file bytes _) => .ok bytes

def text (w : World) (p : Path) : Except SystemFault (List Char) :=
  match w.bytes p with
  | .error fault => .error fault
  | .ok bytes =>
    match Text.Utf8.decode? bytes with
    | some cs => .ok cs
    | none => .error .other

def names (w : World) (p : Path) : Except SystemFault (List String) :=
  match w.entry p, w.place p with
  | .ok .directory, .ok place => .ok (w.files.names place)
  | .ok (.file _ _), _ => .error .other
  | .error fault, _ | _, .error fault => .error fault

def childDirectories (w : World) (p : Path) : List Path :=
  match w.names p with
  | .ok names => (names.map p.child).filter w.isDirectory
  | .error _ => []

def filesBelow (w : World) (p : Path) : List Path :=
  match w.place p with
  | .error _ => []
  | .ok place =>
    (w.files.below place).filterMap fun e =>
      if e.2.isDirectory then none else some (e.1.foldl Path.child p)

def pathOf (place : Files.Place) : Path := ⟨"/" ++ String.intercalate "/" place⟩

/-- A path read from the directory the program runs in; the file tree is not asked. -/
def absolute (w : World) (p : Path) : Path := (pathOf w.here).join p

end World
end CookbookAtlas
