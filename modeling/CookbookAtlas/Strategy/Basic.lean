import CookbookAtlas.Dependency.Spec
import CookbookAtlas.Locate.Declared

/-! Ways to get at the dependencies of a cookbook: by the lock document of a policy, or by the
manifest of the cookbook. -/
namespace CookbookAtlas.Strategy

def lockName : String := "Policyfile.lock.json"
def policyName : String := "Policyfile.rb"
def manifestName : String := "Berksfile"

structure Setup where
  tool : String
  timeout : Nat
  scratchDir : String
deriving DecidableEq

structure Located where
  name : String
  identifier : Option String
  path : Path
deriving DecidableEq

/-- Dependencies by whether their directory was found. -/
structure Found where
  resolved : List Located
  missing : List String
deriving DecidableEq

namespace Found

def empty : Found := ⟨[], []⟩

/-- Looks at the directory of each dependency, in order. -/
def ofDirectories (w : World) : List (Dependency.Spec × Option String × Option Path) → Found
  | [] => empty
  | (spec, identifier, dir) :: rest =>
    let found := ofDirectories w rest
    match dir.filter w.isDirectory with
    | some path => { found with resolved := ⟨spec.name, identifier, path⟩ :: found.resolved }
    | none => { found with missing := spec.name :: found.missing }

end Found

/-- Directories are counted with 64 bits, the first one included; a deeper search is none. -/
def isSearchable (depth : Nat) : Bool := decide (depth + 1 < Nat.pow 2 64)

/-- The lock document in a directory or in the nearest of `depth` directories above it. -/
def findLock? (w : World) (dir : Path) (depth : Nat) : Option Path :=
  ((((w.absolute dir).normalize).ancestors (depth + 1)).map fun d => d.child lockName).find? w.isFile

def hasManifest (w : World) (dir : Path) : Bool :=
  w.isFile (dir.child manifestName) && w.isFile (dir.child Locate.metadataScript)

inductive Kind
  | policy (lock : Path)
  | manifest
deriving DecidableEq

/-- The strategy for a directory; a lock document goes before a manifest. -/
def classify (w : World) (dir : Path) (depth : Nat) : Option Kind :=
  match findLock? w dir depth with
  | some lock => some (.policy lock)
  | none => if hasManifest w dir then some .manifest else none

def expectedMarkers (depth : Nat) : List String :=
  [s!"{lockName} (in the directory or up to {depth} parent levels)",
    s!"{manifestName} + {Locate.metadataScript}"]

/-- The cookbook in a directory: as declared, else by the directory's name. -/
def cookbookName (w : World) (dir : Path) : String :=
  (Locate.declaredName? w dir).getD (dir.fileName?.getD "")

end CookbookAtlas.Strategy
