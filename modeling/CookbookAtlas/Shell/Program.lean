import CookbookAtlas.Shell.Utility

/-! Finding programs: files that may be executed, and the standard programs of a system. -/
namespace CookbookAtlas.Shell

inductive Program
  | utility (run : Utility)
  | shell
  | env
  /-- A script with what its first line says it is for: a program and an argument. -/
  | script (text : List Char) (interpreter : Option (List String))

inductive Found
  | missing
  | denied
  | program (p : Program)

namespace Program

def standardDirs : List String := ["/bin", "/usr/bin"]

def shells : List String := ["sh", "dash", "bash"]

def standard? (name : String) : Option Program :=
  if shells.contains name then some .shell
  else if name = "env" then some .env
  else (Utility.program? name).map .utility

def interpreterOf (text : List Char) : Option (List String) :=
  match text with
  | '#' :: '!' :: rest =>
    match Text.words (rest.takeWhile (· ≠ '\n')) with
    | [] => none
    | program :: args =>
      some (String.ofList program ::
        (if args.isEmpty then [] else [String.ofList (List.intercalate [' '] args)]))
  | _ => none

def ofFile (bytes : List UInt8) : Program :=
  let text := Text.Utf8.decodeLossy bytes
  .script text (interpreterOf text)

def atPath (w : World) (path : Path) : Found :=
  match w.entry path with
  | .ok (.file bytes true) => .program (ofFile bytes)
  | .ok _ => .denied
  | .error _ =>
    match path.parent?, path.fileName? with
    | some dir, some name =>
      if standardDirs.contains dir.text then
        match standard? name with
        | some p => .program p
        | none => .missing
      else .missing
    | _, _ => .missing

def isProgram : Found → Bool
  | .program _ => true
  | _ => false

/-- What a name leads to, searched for in the directories of `search` unless it is a path. -/
def find (w : World) (search : Option String) (name : String) : Found :=
  if name.isEmpty then .missing
  else if name.toList.contains '/' then atPath w ⟨name⟩
  else
    let dirs := ((search.getD "").splitOn ":").filter fun d => !d.isEmpty
    let found := dirs.map fun d => atPath w ((Path.mk d).child name)
    (found.find? isProgram).getD .missing

end Program
end CookbookAtlas.Shell
