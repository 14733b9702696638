import CookbookAtlas.Files.Edit
import CookbookAtlas.Strategy.Basic
import CookbookAtlas.Tool.Runner

/-! Dependencies by manifest: they are installed once, listed, and vendored into the cookbook. -/
namespace CookbookAtlas.Strategy

structure Manifest where
  cookbookDir : Path
  setup : Setup
deriving DecidableEq

namespace Manifest

def vendorDir (m : Manifest) : Path := m.cookbookDir.child m.setup.scratchDir

def name (m : Manifest) (w : World) : String := cookbookName w m.cookbookDir

/-- The dependencies that the metadata declares; their versions are the constraints. -/
def declared (m : Manifest) (w : World) : List Dependency.Spec :=
  match Locate.metadata w m.cookbookDir with
  | .ok (some metadata) =>
    metadata.depends.map fun (name, constraint) => ⟨name, constraint.getD "", none⟩
  | _ => []

def command (m : Manifest) (arguments : List String) : Tool.Command :=
  ⟨m.setup.tool, arguments, some m.cookbookDir, [], m.setup.timeout⟩

/-- Installs the dependencies, unless that succeeded before for the same directory. -/
def install (m : Manifest) (runner : Tool.Runner) : Act Unit := do
  let w ← get
  if w.installed.contains m.cookbookDir.normalize then pure ()
  else
    let _ ← runner.call (m.command ["install"])
    modify fun w => { w with installed := m.cookbookDir.normalize :: w.installed }

def listed (m : Manifest) (runner : Tool.Runner) : Act (List Dependency.Spec) := do
  let output ← runner.call (m.command ["list", "--format", "json"])
  match Dependency.readListing? output.stdout.toList with
  | some specs => return specs
  | none =>
    let fault := (Trouble.of .json).during Dependency.unexpectedListing
    throw (.ofFailure (.toolFailed m.setup.tool "list" fault.fullMessage none))

def fetch (m : Manifest) (runner : Tool.Runner) : Act (List Dependency.Spec) := do
  runner.require m.setup.tool
  m.install runner
  let specs ← m.listed runner
  World.removeDirectory m.vendorDir
  let _ ← runner.call (m.command ["vendor", m.vendorDir.text])
  return specs

def locate (m : Manifest) (w : World) (specs : List Dependency.Spec) : Found :=
  Found.ofDirectories w (specs.map fun spec => (spec, spec.identifier, some (m.vendorDir.child spec.name)))

end Manifest
end CookbookAtlas.Strategy
