import CookbookAtlas.Files.Edit
import CookbookAtlas.Tool.Runner

/-! Runners that play a script: which tools there are, what each operation writes and creates,
and where it fails. -/
namespace CookbookAtlas.Tool

structure Script where
  tools : List String
  responses : List (String × String)
  failOn : Option String
  timeoutOn : Option String
  breakOn : Option String
  /-- Directories made in the output directory of `export` and `vendor`. -/
  directories : List String
  files : List (String × String)
  /-- Files that `install` writes where it runs. -/
  installed : List (String × String)

namespace Script

def makeDirectories (base : Path) : List String → Act Unit
  | [] => pure ()
  | dir :: rest => do
    World.ensureDirectory (base.child dir)
    makeDirectories base rest

def writeFiles (base : Path) : List (String × String) → Act Unit
  | [] => pure ()
  | (name, text) :: rest => do
    World.writeText (base.child name) text
    writeFiles base rest

/-- The directory that a call writes into: its last argument that is an absolute path. -/
def outputDir? (c : Command) : Option Path :=
  if c.operation = "export" ∨ c.operation = "vendor" then
    ((c.arguments.map Path.mk).filter Path.isAbsolute).getLast?
  else none

def run (s : Script) (c : Command) : Act Output := do
  let operation := c.operation
  let target := outputDir? c
  if s.failOn = some operation then
    throw (.ofFailure (.toolFailed c.program operation "simulated failure" (some 1)))
  if let some dir := target then
    World.ensureDirectory dir
    makeDirectories dir s.directories
  if s.timeoutOn = some operation then
    throw (.ofFailure (.toolTimeout c.program operation (c.timeout / 1000)))
  if s.breakOn = some operation then
    throw (.of (.note "runner broke"))
  if operation = "install" then
    writeFiles (c.workingDir.getD ⟨""⟩) s.installed
  if let some dir := target then
    writeFiles dir s.files
  return ⟨((s.responses.find? fun r => r.1 == operation).map Prod.snd).getD "", ""⟩

def runner (s : Script) : Runner := ⟨fun _ tool => s.tools.contains tool, s.run⟩

end Script
end CookbookAtlas.Tool
