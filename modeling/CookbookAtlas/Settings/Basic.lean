import CookbookAtlas.Failure

/-! Settings of a run. -/
namespace CookbookAtlas

structure Settings where
  chef : String
  berks : String
  /-- Limit on every tool call, in seconds. -/
  timeoutSecs : Nat
  /-- How many directories upwards a lock document is looked for. -/
  searchDepth : Nat
  exportDir : String
  vendorDir : String
  /-- Longest attribute value that is displayed whole. -/
  displayLimit : Nat
  maxTreeDepth : Nat
deriving DecidableEq

namespace Settings

def standard : Settings where
  chef := "chef"
  berks := "berks"
  timeoutSecs := 300
  searchDepth := 5
  exportDir := "policy-export"
  vendorDir := "berks-cookbooks"
  displayLimit := 80
  maxTreeDepth := 64

def timeout (s : Settings) : Nat := s.timeoutSecs * 1000

def isPlainName (value : String) : Bool :=
  !value.isEmpty && !value.toList.contains '/' && !value.toList.contains '\\' && value != ".."

def notPlain (key value : String) : Failure :=
  .config s!"{key} must be a plain directory name, got '{value}'"

def check (s : Settings) : Except Failure Unit :=
  if s.timeoutSecs = 0 then .error (.config "tools.timeout_secs must be greater than zero")
  else if !isPlainName s.exportDir then .error (notPlain "workspace.export_dir" s.exportDir)
  else if !isPlainName s.vendorDir then .error (notPlain "workspace.vendor_dir" s.vendorDir)
  else .ok ()

end Settings
end CookbookAtlas
