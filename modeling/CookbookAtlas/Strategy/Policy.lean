import CookbookAtlas.Dependency.Closure
import CookbookAtlas.Files.Edit
import CookbookAtlas.Lock.Read
import CookbookAtlas.Strategy.Basic
import CookbookAtlas.Tool.Runner

/-! Dependencies by lock document: the policy is installed and exported, and the export is copied
beside the lock. -/
namespace CookbookAtlas.Strategy

def loadLock (w : World) (path : Path) : Except Trouble Lock.Registry :=
  match w.text path with
  | .error fault => .error ((Trouble.of (.io fault)).during s!"Cannot read lock file: {path.text}")
  | .ok cs =>
    match Lock.read cs with
    | .error fault => .error (.ofFailure (fault.failure path.text))
    | .ok registry => .ok { registry with baseDir := path.parent? }

structure Policy where
  cookbookDir : Path
  lockPath : Path
  policyDir : Path
  registry : Lock.Registry
  setup : Setup
deriving DecidableEq

def stagingDir : Path := ⟨"/.cookbook-staging"⟩

/-- Makes the staging directory, which has to be a new one. -/
def makeStaging : Act Unit := do
  let w ← get
  if w.has stagingDir then throw ((Trouble.of (.io .other)).during "Failed to create staging directory")
  else World.ensureDirectory stagingDir

/-- Runs `body` with a new staging directory, which is gone afterwards in any case. -/
def withStaging (body : Path → Act α) : Act α := do
  makeStaging
  fun w =>
    let (result, after) := (body stagingDir) w
    (result, ((World.removeDirectory stagingDir : Act Unit) after).2)

namespace Policy

def load (w : World) (cookbookDir lockPath : Path) (setup : Setup) : Except Trouble Policy :=
  match loadLock w lockPath with
  | .ok registry => .ok ⟨cookbookDir, lockPath, lockPath.parent?.getD ⟨""⟩, registry, setup⟩
  | .error t => .error t

def exportDir (p : Policy) : Path := p.policyDir.child p.setup.scratchDir

/-- The cookbook under analysis: the locked one whose source is its directory, else by
metadata. -/
def name (p : Policy) (w : World) : String :=
  match p.registry.lookupPath? p.cookbookDir with
  | some record => record.name
  | none => cookbookName w p.cookbookDir

/-- Whether anything else than the cookbook itself is locked. -/
def hasDependencies (p : Policy) (w : World) : Bool :=
  p.registry.records.any fun r => r.name != p.name w

def specOf (r : Lock.Record) : Dependency.Spec := ⟨r.name, r.version, some r.identifier⟩

/-- What the cookbook depends on by the lock; everything locked if the cookbook is not. -/
def dependencies (p : Policy) (w : World) : List Dependency.Spec :=
  let own := p.name w
  let records := if (p.registry.get? own).isSome then Dependency.dependenciesOf p.registry own
    else p.registry.records
  (records.filter fun r => r.name != own).map specOf

def command (p : Policy) (arguments : List String) : Tool.Command :=
  ⟨p.setup.tool, arguments, some p.policyDir, [], p.setup.timeout⟩

/-- Installs the policy if there is one beside the lock; the file to export from. -/
def install (p : Policy) (runner : Tool.Runner) : Act String := do
  let w ← get
  if w.isFile (p.policyDir.child policyName) then
    let _ ← runner.call (p.command ["install", policyName])
    return policyName
  else return lockName

def exportTo (p : Policy) (runner : Tool.Runner) (target : String) (staging : Path) : Act Path := do
  let staged := staging.child p.setup.scratchDir
  let _ ← runner.call (p.command ["export", target, staged.text, "--force"])
  return staged

/-- Replaces the export directory by what was exported to `staged`. -/
def takeExport (p : Policy) (staged : Path) : Act Unit := do
  World.removeDirectory p.exportDir
  tryCatch (World.copyDirectory staged p.exportDir) fun t =>
    throw (t.during s!"Failed to copy export into {p.exportDir.text}")

/-- Reads the lock again, which installing may have changed. -/
def reload (p : Policy) : Act Policy := do
  let w ← get
  match loadLock w p.lockPath with
  | .ok registry => return { p with registry }
  | .error t => throw t

/-- Takes over what was exported to `staged`: the policy as locked now, and its dependencies. -/
def adopt (p : Policy) (staged : Path) : Act (Policy × List Dependency.Spec) := do
  p.takeExport staged
  let p ← p.reload
  let w ← get
  return (p, p.dependencies w)

def fetch (p : Policy) (runner : Tool.Runner) : Act (Policy × List Dependency.Spec) := do
  runner.require p.setup.tool
  let target ← p.install runner
  withStaging fun staging => do
    let staged ← p.exportTo runner target staging
    p.adopt staged

def locate (p : Policy) (w : World) (specs : List Dependency.Spec) : Found :=
  let artifacts := p.exportDir.child "cookbook_artifacts"
  Found.ofDirectories w (specs.map fun spec =>
    let identifier := spec.identifier.or ((p.registry.get? spec.name).map Lock.Record.identifier)
    (spec, identifier, identifier.map fun id => artifacts.child (spec.name ++ "-" ++ id)))

end Policy
end CookbookAtlas.Strategy
