import CookbookAtlas.Settings.Basic
import CookbookAtlas.Strategy.Manifest
import CookbookAtlas.Strategy.Policy

/-! The strategy chosen for a cookbook directory. -/
namespace CookbookAtlas

inductive Strategy
  | policy (p : Strategy.Policy)
  | manifest (m : Strategy.Manifest)
deriving DecidableEq

namespace Strategy

def detect (w : World) (dir : Path) (settings : Settings) : Except Trouble Strategy :=
  match classify w dir settings.searchDepth with
  | some (.policy lock) =>
    match Policy.load w dir lock ⟨settings.chef, settings.timeout, settings.exportDir⟩ with
    | .ok p => .ok (.policy p)
    | .error t => .error t
  | some .manifest => .ok (.manifest ⟨dir, settings.berks, settings.timeout, settings.vendorDir⟩)
  | none => .error (.ofFailure (.noStrategy dir.text (expectedMarkers settings.searchDepth)))

def kindName : Strategy → String
  | .policy _ => "policyfile"
  | .manifest _ => "berkshelf"

/-- Whether what made the strategy serve its directory is there for another one. -/
def serves (s : Strategy) (w : World) (dir : Path) (depth : Nat) : Bool :=
  match s with
  | .policy _ => (findLock? w dir depth).isSome
  | .manifest _ => hasManifest w dir

def name (s : Strategy) (w : World) : String :=
  match s with
  | .policy p => p.name w
  | .manifest m => m.name w

def hasDependencies (s : Strategy) (w : World) : Bool :=
  match s with
  | .policy p => p.hasDependencies w
  | .manifest m => !(m.declared w).isEmpty

def declared (s : Strategy) (w : World) : List Dependency.Spec :=
  match s with
  | .policy p => p.dependencies w
  | .manifest m => m.declared w

def fetch (s : Strategy) (runner : Tool.Runner) : Act (Strategy × List Dependency.Spec) :=
  match s with
  | .policy p => do
    let (p, specs) ← p.fetch runner
    return (.policy p, specs)
  | .manifest m => do
    let specs ← m.fetch runner
    return (.manifest m, specs)

def locate (s : Strategy) (w : World) (specs : List Dependency.Spec) : Found :=
  match s with
  | .policy p => p.locate w specs
  | .manifest m => m.locate w specs

def scratchDir : Strategy → Path
  | .policy p => p.exportDir
  | .manifest m => m.vendorDir

def lockPath? : Strategy → Option Path
  | .policy p => some p.lockPath
  | .manifest _ => none

def cleanup (s : Strategy) : Act Unit := World.removeDirectory s.scratchDir

end Strategy
end CookbookAtlas
