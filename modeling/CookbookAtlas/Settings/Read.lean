import CookbookAtlas.Files.World
import CookbookAtlas.Settings.Basic
import CookbookAtlas.Toml.Document

/-! Settings files: where they are looked for and how they are read. Every key is optional, and
keys that are not known are passed over. -/
namespace CookbookAtlas.Settings

/-- The item at a key of a section, by name or by position in a section written as an array. -/
def item? (fields : List String) (part? : Option Toml.Item) (key : String) :
    Option (Option Toml.Item) :=
  match part? with
  | none => some none
  | some (.table _ members) => some (Toml.Table.get? members key)
  | some (.array items) => some (items[fields.idxOf key]?)
  | some (.scalar .moment) => some none
  | some (.tables elements) => some ((elements[fields.idxOf key]?).map (.table .header))
  | some _ => none

def textOr (fallback : String) : Option (Option Toml.Item) → Option String
  | some none => some fallback
  | some (some (.scalar (.string s))) => some s
  | _ => none

/-- A number that fits 64 bits, or `fallback` where it is left out. -/
def numberOr (fallback : Nat) : Option (Option Toml.Item) → Option Nat
  | some none => some fallback
  | some (some (.scalar (.int n))) =>
    if 0 ≤ n ∧ n < Int.ofNat (Nat.pow 2 64) then some n.toNat else none
  | _ => none

def toolFields : List String := ["chef", "berks", "timeout_secs"]
def lockFields : List String := ["search_depth"]
def workspaceFields : List String := ["export_dir", "vendor_dir"]
def analysisFields : List String := ["value_display_limit", "max_tree_depth"]

def ofTable? (t : Toml.Table) : Option Settings := do
  let base := standard
  let tools := item? toolFields (t.get? "tools")
  let lock := item? lockFields (t.get? "lockfile")
  let workspace := item? workspaceFields (t.get? "workspace")
  let analysis := item? analysisFields (t.get? "analysis")
  let chef ← textOr base.chef (tools "chef")
  let berks ← textOr base.berks (tools "berks")
  let timeoutSecs ← numberOr base.timeoutSecs (tools "timeout_secs")
  let searchDepth ← numberOr base.searchDepth (lock "search_depth")
  let exportDir ← textOr base.exportDir (workspace "export_dir")
  let vendorDir ← textOr base.vendorDir (workspace "vendor_dir")
  let displayLimit ← numberOr base.displayLimit (analysis "value_display_limit")
  let maxTreeDepth ← numberOr base.maxTreeDepth (analysis "max_tree_depth")
  return { chef, berks, timeoutSecs, searchDepth, exportDir, vendorDir, displayLimit, maxTreeDepth }

def ofFile (w : World) (path : Path) : Except Trouble Settings :=
  match w.text path with
  | .error fault =>
    .error ((Trouble.of (.io fault)).during s!"Failed to read config file: {path.text}")
  | .ok cs =>
    match (Toml.read? cs).bind ofTable? with
    | none => .error ((Trouble.of .toml).during s!"Failed to parse config file: {path.text}")
    | some s =>
      match s.check with
      | .ok () => .ok s
      | .error f => .error ((Trouble.ofFailure f).during s!"Invalid config in {path.text}")

def fileVariable : String := "CBSCAN_CONFIG"

def home? (w : World) : Option String := (w.setting? "HOME").filter fun h => !h.isEmpty

def defaultPath? (w : World) : Option Path :=
  (home? w).map fun home => ((⟨home⟩ : Path).child ".cbscan").child "config.toml"

end CookbookAtlas.Settings
