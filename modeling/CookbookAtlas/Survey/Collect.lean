import CookbookAtlas.Locate.Declared
import CookbookAtlas.Recipe.File
import CookbookAtlas.Survey.Basic

/-! Collecting the files of cookbooks. Files that cannot be read or parsed are left out; there is
no survey at all when a heredoc's indent ends inside a character. -/
namespace CookbookAtlas.Survey

/-- Parses a file of the tree; bytes that are no UTF-8 are read as U+FFFD. -/
def parseFile (w : World) (limit : Nat) (path : Path) : Except Recipe.ParseFault Recipe.Parsed :=
  match w.bytes path with
  | .error fault => .error (.unreadable path fault)
  | .ok bytes => Recipe.parseSource ⟨Text.Utf8.decodeLossy bytes, path, limit⟩

def tryFile (w : World) (limit : Nat) (path : Path) : Option (Option Recipe.Parsed) :=
  match parseFile w limit path with
  | .ok parsed => some (some parsed)
  | .error .splitCharacter => none
  | .error _ => some none

def isCookbookRoot (w : World) (dir : Path) : Bool :=
  w.isFile (dir.child Locate.metadataScript) || w.isFile (dir.child Locate.metadataDocument)
    || w.isDirectory (dir.child "recipes")

/-- Directories of a cookbook in the order they are read, with the role of their files. -/
def layout : List (String × Role) :=
  [("attributes", .attributes), ("recipes", .recipe), ("resources", .provider),
    ("providers", .provider)]

def cookbookName (w : World) (dir : Path) : String :=
  (Locate.declaredName? w dir).getD (dir.fileName?.getD "")

def sources (w : World) (dir : Path) : List (Path × Role) :=
  let metadata := ([Locate.metadataScript, Locate.metadataDocument].map dir.child).filter w.isFile
  let listed := layout.flatMap fun (name, role) =>
    let sub := dir.child name
    if w.isDirectory sub then
      ((w.filesBelow sub).filter fun p => (Recipe.Format.ofPath? p).isSome).map fun p => (p, role)
    else []
  metadata.map (fun p => (p, .metadata)) ++ listed

def readSources (w : World) (limit : Nat) (cookbook : String) :
    List (Path × Role) → Option (List Entry)
  | [] => some []
  | (path, role) :: rest => do
    let parsed ← tryFile w limit path
    let entries ← readSources w limit cookbook rest
    return match parsed with
      | some parsed => ⟨path, cookbook, role, parsed⟩ :: entries
      | none => entries

def cookbookEntries (w : World) (limit : Nat) (dir : Path) : Option (List Entry) :=
  readSources w limit (cookbookName w dir) (sources w dir)

def roots (w : World) (dir : Path) : List Path :=
  if isCookbookRoot w dir then [dir] else (w.childDirectories dir).filter (isCookbookRoot w)

/-- Paths without those that lead where an earlier one does; `seen` are normalized. -/
def distinctFrom (seen : List Path) : List Path → List Path
  | [] => []
  | p :: rest =>
    if seen.contains p.normalize then distinctFrom seen rest
    else p :: distinctFrom (p.normalize :: seen) rest

def readCookbooks (w : World) (limit : Nat) : List Path → Option (List Entry)
  | [] => some []
  | dir :: rest => do
    let entries ← cookbookEntries w limit dir
    let more ← readCookbooks w limit rest
    return entries ++ more

def collect (w : World) (limit : Nat) (dirs : List Path) : Option (List Entry) :=
  readCookbooks w limit (distinctFrom [] (dirs.flatMap (roots w)))

def ofDirectories (w : World) (limit : Nat) (dirs : List Path) : Option Survey :=
  (collect w limit dirs).map ofEntries

end CookbookAtlas.Survey
