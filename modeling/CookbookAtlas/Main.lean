import CookbookAtlas.CommandLine.Run
import CookbookAtlas.Tool.Programs

/-! The command line program. It takes a picture of the files that a command may look at, runs the
command on the picture, and writes what has changed. -/
namespace CookbookAtlas
namespace Application

def depthLimit : Nat := 40

def placeOf (path : String) : Files.Place := (path.splitOn "/").filter fun part => !part.isEmpty

def pathText (place : Files.Place) : String := (World.pathOf place).text

/-- A file is taken for executable if it starts as a script does. -/
def entryOf (bytes : List UInt8) : Files.Entry := .file bytes ([35, 33].isPrefixOf bytes)

def addFile (t : Files.Tree) (place : Files.Place) : IO Files.Tree := do
  try
    let bytes ← IO.FS.readBinFile (pathText place)
    return t.put place (entryOf bytes.toList)
  catch _ => return t

def addDirectory : Nat → Files.Tree → Files.Place → IO Files.Tree
  | depth, t, place => do
    let base ← IO.currentDir
    let mut t := t.put place .directory
    try
      for e in (← (base / pathText place).readDir) do
        let inner := place ++ [e.fileName]
        if ← e.path.isDir then
          t := t.put inner .directory
          match depth with
          | 0 => pure ()
          | depth + 1 => t ← addDirectory depth t inner
        else t ← addFile t inner
      return t
    catch _ => return t

def addAncestors (t : Files.Tree) (place : Files.Place) : IO Files.Tree :=
  (List.range place.length).foldlM (fun t n => addDirectory 0 t (place.take n)) t

def picture (here : String) (i : CommandLine.Invocation) (environment : List (String × String)) :
    IO World := do
  let base : World := ⟨Files.Tree.empty, placeOf here, environment, [], []⟩
  let dir := placeOf ((base.absolute i.path).normalize).text
  let mut files ← addAncestors Files.Tree.empty dir
  files ← addAncestors files base.here
  files ← addDirectory depthLimit files dir
  files ← addDirectory depthLimit files dir.dropLast
  for name in [i.config?, base.setting? Settings.fileVariable,
    (Settings.defaultPath? base).map Path.text] do
    if let some text := name then
      if let .ok path := Settings.expandPath base text then
        files ← addFile files (placeOf (base.absolute path).text)
  return { base with files }

def remove (path : String) : IO Unit := do
  try IO.FS.removeFile path catch _ =>
    try IO.FS.removeDirAll path catch _ => pure ()

def writeBack (before after : Files.Tree) : IO Unit := do
  for (place, _) in before.entries do
    if (after.get? place).isNone then remove (pathText place)
  for (place, e) in after.entries do
    if before.get? place != some e then
      match e with
      | .directory => IO.FS.createDirAll (pathText place)
      | .file bytes _ => IO.FS.writeBinFile (pathText place) ⟨bytes.toArray⟩

def inherited : IO (List (String × String)) := do
  let names := ["HOME", "PATH", Settings.fileVariable]
  let values ← names.mapM fun name => return (name, ← IO.getEnv name)
  return values.filterMap fun (name, value) => value.map fun v => (name, v)

def usage : String :=
  "Usage: cbscan [OPTIONS] <deps|analyze|tree> [PATH]\n\n" ++
  "  deps     Show the dependency strategy and dependencies of a cookbook\n" ++
  "  analyze  Parse cookbook files and summarize the structural analysis\n" ++
  "  tree     Print the execution tree of a recipe\n"

def runCommand (i : CommandLine.Invocation) : IO UInt32 := do
  let stdout ← IO.getStdout
  let color := (← stdout.isTty) && (← IO.getEnv "NO_COLOR").isNone
  let world ← picture (← IO.currentDir).toString i (← inherited)
  let (outcome, after) := CommandLine.run Tool.Programs.runner color i world
  writeBack world.files after.files
  match outcome with
  | none => return 101
  | some o =>
    stdout.putStr o.stdout
    (← IO.getStderr).putStr o.stderr
    return o.exitCode.toUInt32

end Application
end CookbookAtlas

open CookbookAtlas in
def main (args : List String) : IO UInt32 := do
  match CommandLine.readArguments args with
  | .ok i => Application.runCommand i
  | .error .help => IO.print Application.usage; return 0
  | .error .version => IO.println "cbscan"; return 0
  | .error _ => IO.eprint Application.usage; return 2
