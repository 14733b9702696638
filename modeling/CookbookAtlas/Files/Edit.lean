import CookbookAtlas.Files.World

/-! Changes to the file tree: making, copying and removing directories. -/
namespace CookbookAtlas.World

/-- Follows components from a place and makes the directories that are missing on the way, up to
the first name that is a file. -/
def makeOnWay (t : Files.Tree) (place : Files.Place) : List Path.Component →
    Files.Tree × Option SystemFault
  | [] => (t, none)
  | .root :: rest => makeOnWay t [] rest
  | .current :: rest => makeOnWay t place rest
  | .parent :: rest => makeOnWay t place.dropLast rest
  | .name n :: rest =>
    match t.get? (place ++ [n]) with
    | some .directory => makeOnWay t (place ++ [n]) rest
    | some (.file _ _) => (t, some .other)
    | none => makeOnWay (t.put (place ++ [n]) .directory) (place ++ [n]) rest

def lastField? (p : Path) : Option (List Char) := (Path.fields p.chars).reverse.find? (!·.isEmpty)

def setFiles (t : Files.Tree) : Act Unit := modify fun w => { w with files := t }

/-- What makes a directory and those it is in. A directory that is missing is not made by a path
that ends in a `.`, though those above it are. Nothing is made where the directory that a path
starts from is gone. -/
def makeDirectory (w : World) (p : Path) : Files.Tree × Option SystemFault :=
  if !p.isAbsolute && w.files.get? w.here != some .directory then (w.files, some .notFound)
  else if lastField? p = some ['.'] then
    let (t, fault) := makeOnWay w.files w.here p.components.dropLast
    (t, fault.or (some .notFound))
  else makeOnWay w.files w.here p.components

def ensureDirectory (p : Path) : Act Unit := do
  let w ← get
  if w.has p then
    if w.isDirectory p then pure ()
    else throw (.of (.note s!"Path exists but is not a directory: {p.text}"))
  else
    let (t, fault) := makeDirectory w p
    setFiles t
    match fault with
    | none => pure ()
    | some fault => throw ((Trouble.of (.io fault)).during s!"Failed to create directory: {p.text}")

/-- Writes one entry of a copied tree. The file is emptied before it is written, so one that is
copied onto itself stays empty. -/
def copyEntry (source target : Path) (e : Files.Place × Files.Entry) : Act Unit := do
  let origin := e.1.foldl Path.child source
  let destination := e.1.foldl Path.child target
  let failed (fault : SystemFault) : Trouble :=
    (Trouble.of (.io fault)).during s!"Failed to copy file from {origin.text} to {destination.text}"
  match e.2 with
  | .directory => ensureDirectory destination
  | .file bytes executable =>
    let w ← get
    match w.place destination with
    | .ok place =>
      if w.isDirectory destination then throw (failed .other)
      else
        let onto := (w.place origin).toOption == some place
        setFiles (w.files.put place (.file (if onto then [] else bytes) executable))
    | .error fault => throw (failed fault)

def copyEntries (source target : Path) : List (Files.Place × Files.Entry) → Act Unit
  | [] => pure ()
  | e :: rest => do
    copyEntry source target e
    copyEntries source target rest

def copyDirectory (source target : Path) : Act Unit := do
  ensureDirectory target
  let w ← get
  match w.names source, w.place source with
  | .ok _, .ok place => copyEntries source target (w.files.below place)
  | .error fault, _ | _, .error fault =>
    throw ((Trouble.of (.io fault)).during s!"Failed to read directory: {source.text}")

/-- Removes a directory and everything in it; one that is not there is removed already. The root,
and a directory by a path that ends in `.` or `..`, can be emptied only. -/
def removeDirectory (p : Path) : Act Unit := do
  let w ← get
  let failed := (Trouble.of (.io .other)).during s!"Failed to remove directory: {p.text}"
  match w.entry p, w.place p with
  | .ok .directory, .ok place =>
    if place = [] ∨ lastField? p = some ['.'] ∨ lastField? p = some ['.', '.'] then do
      setFiles (w.files.clear place)
      throw failed
    else setFiles (w.files.remove place)
  | .ok (.file _ _), _ => throw failed
  | _, _ => pure ()

/-- Writes a file, after making the directories it is in. A file that cannot be written there is
not. -/
def writeFile (p : Path) (bytes : List UInt8) (executable : Bool) : Act Unit := do
  match p.parent? with
  | some dir => if dir.text.isEmpty then pure () else ensureDirectory dir
  | none => pure ()
  let w ← get
  match w.place p with
  | .ok place =>
    if w.isDirectory p then pure () else setFiles (w.files.put place (.file bytes executable))
  | .error _ => pure ()

def writeText (p : Path) (text : String) : Act Unit :=
  writeFile p (Text.Utf8.encode text.toList) false

end CookbookAtlas.World
