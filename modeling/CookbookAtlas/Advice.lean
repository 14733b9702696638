import CookbookAtlas.Failure

/-! Advice for the user: a failure with details and with a suggestion what to do. -/
namespace CookbookAtlas

structure Advice where
  failure : Failure
  suggestion : Option String
  details : Option String
deriving DecidableEq

namespace Advice

/-- Details of a failed tool are at most this many lines of what it wrote. -/
def detailLines : Nat := 10

def toolHint (tool : String) : String :=
  if tool = "berks" then "Install Berkshelf ('gem install berkshelf') or Chef Workstation"
  else "Install Chef Workstation from https://www.chef.io/downloads"

def ofFailure (f : Failure) : Advice :=
  match f with
  | .noStrategy _ expected =>
    ⟨f, some ("Add one of the following to the cookbook: " ++ String.intercalate ", " expected),
      some ("cbscan needs a Policyfile.lock.json (in the cookbook or up to a few parent " ++
        "directories) or a Berksfile next to metadata.rb to find dependencies")⟩
  | .toolNotFound tool =>
    ⟨f, some (toolHint tool),
      some "External tools must be available in PATH before dependencies can be fetched"⟩
  | .toolFailed _ _ stderr _ =>
    ⟨f, some ("Run the command manually in the cookbook directory to see the full output, " ++
        "or omit --fetch to analyze local cookbooks only"),
      some (String.intercalate "\n" ((Text.linesOf stderr).take detailLines))⟩
  | .toolTimeout _ _ _ =>
    ⟨f, some ("Raise [tools] timeout_secs in the cbscan config, " ++
        "or check network access to the supermarket"),
      some "The external tool was stopped after the timeout elapsed; no retry was attempted"⟩
  | .malformedLock _ _ =>
    ⟨f, some "Regenerate the lock file with 'chef install' and try again",
      some "The lock document must contain 'cookbook_locks' and 'solution_dependencies'"⟩
  | .recipeNotFound _ =>
    ⟨f, some ("Check the --recipe value; use 'cookbook::recipe' or a bare cookbook name " ++
      "for its default recipe"), none⟩
  | .cookbookNotFound _ =>
    ⟨f, some "Check the cookbook name, or pass --fetch so dependencies are materialized first", none⟩
  | .config _ => ⟨f, some "Check the TOML syntax of your cbscan config file", none⟩
  | .fileSystem _ _ | .other _ => ⟨f, none, none⟩

def ofSystem (suggestion text : String) : Advice :=
  ⟨.fileSystem "file access" "unknown", some suggestion, some text⟩

def numbered (n : Nat) : List Cause → List String
  | [] => []
  | c :: cs => s!"\n  {n}: {c.message}" :: numbered (n + 1) cs

def accountOf (t : Trouble) : String :=
  if t.causes.isEmpty then t.message
  else t.message ++ "\n\nCaused by:" ++ String.join (numbered 1 t.causes)

def ofTrouble (t : Trouble) : Advice :=
  match t.failure?, t.system? with
  | some f, _ => ofFailure f
  | none, some (.permissionDenied, text) =>
    ofSystem "Check file ownership and permissions of the cookbook tree" text
  | none, some (.notFound, text) =>
    ofSystem "Check that the cookbook path exists and is spelled correctly" text
  | none, _ => ⟨.other (accountOf t), none, none⟩

def text (a : Advice) : String :=
  a.failure.message
    ++ (match a.details with | some details => "\nDetails: " ++ details | none => "")
    ++ (match a.suggestion with | some suggestion => "\nSuggestion: " ++ suggestion | none => "")

end Advice
end CookbookAtlas
