import CookbookAtlas.Advice
import CookbookAtlas.CommandLine.Format
import CookbookAtlas.CommandLine.Report
import CookbookAtlas.CommandLine.Usage
import CookbookAtlas.Execution.Build
import CookbookAtlas.Execution.Render
import CookbookAtlas.Settings.Expand

/-! The commands: each starts a session, works on it, cleans up, and prints. -/
namespace CookbookAtlas.CommandLine

structure Context where
  runner : Tool.Runner
  settings : Settings
  color : Bool

/-- What a command prints; nothing when a heredoc's indent ends inside a character, or when no
session can be started. -/
abbrev Printed := Option String

def openSession (c : Context) (i : Invocation) (requireStrategy : Bool) : Act (Option Session) := do
  if Session.isStartable (← get) i.path c.settings then
    return some (← Session.start i.path c.runner c.settings ⟨i.fetch, requireStrategy⟩)
  else return none

def runDeps (c : Context) (i : Invocation) : Act Printed := do
  ExceptT.mk (pure (checkFormat i.format ["text", "json"]))
  let some session ← openSession c i true | return none
  let report := DependencyReport.ofSession session
  session.cleanup
  return some (if i.format = "json" then line (Json.pretty report.datum) else report.text c.color)

def runAnalyze (c : Context) (i : Invocation) : Act Printed := do
  ExceptT.mk (pure (checkFormat i.format ["text", "json"]))
  let some session ← openSession c i false | return none
  match session.survey (← get) c.settings with
  | none => return none
  | some survey =>
    let report := SurveyReport.ofSession session survey
    session.cleanup
    return some (if i.format = "json" then line (Json.pretty report.datum) else report.text c.color)

def readRecipe (text : String) : Except Trouble RecipeName :=
  match RecipeName.read text.toList with
  | .ok name => .ok name
  | .error fault => .error (.ofFailure (.other fault.message))

def checkTree (i : Invocation) : Except Trouble Unit := do
  checkFormat i.format ["tree", "json"]
  if let some recipe := i.recipe? then
    let _ ← readRecipe recipe
  if i.depth? = some 0 then throw (.ofFailure (.other "--depth must be greater than 0"))

/-- The tree of the recipe asked for, by default that of the session's cookbook. -/
def sessionTree (c : Context) (i : Invocation) (session : Session) (w : World) :
    Except Trouble (Option Execution.Node) := do
  let name ← readRecipe (i.recipe?.getD session.name)
  match session.survey w c.settings with
  | none => return none
  | some survey =>
    let plan : Execution.Plan :=
      ⟨w, survey, session.searchDirs w, c.settings.maxTreeDepth, c.settings.displayLimit⟩
    return plan.tree (← plan.entry name)

def treeText (i : Invocation) (n : Execution.Node) : String :=
  let text := if i.format = "json" then Json.pretty n.datum else n.render i.depth?
  line (String.ofList (Text.trimRight text.toList))

def runTree (c : Context) (i : Invocation) : Act Printed := do
  ExceptT.mk (pure (checkTree i))
  let some session ← openSession c i false | return none
  match sessionTree c i session (← get) with
  | .error t => do
    session.cleanup
    throw t
  | .ok none => return none
  | .ok (some node) => do
    session.cleanup
    return some (treeText i node)

def runSubcommand (c : Context) (i : Invocation) : Act Printed :=
  match i.subcommand with
  | .deps => runDeps c i
  | .analyze => runAnalyze c i
  | .tree => runTree c i

def perform (runner : Tool.Runner) (color : Bool) (i : Invocation) : Act Printed := do
  let settings ← ExceptT.mk (pure (Settings.load (← get) i.config?))
  runSubcommand ⟨runner, settings, color⟩ i

def troubleText (color : Bool) (t : Trouble) : String :=
  let advice := Advice.ofTrouble t
  line (styled color .fault "error" ++ ": " ++ advice.failure.message)
    ++ (match advice.details with
      | some details => line (styled color .warning "details" ++ ": " ++ details)
      | none => "")
    ++ (match advice.suggestion with
      | some suggestion => line (styled color .good "suggestion" ++ ": " ++ suggestion)
      | none => "")

structure Outcome where
  exitCode : Nat
  stdout : String
  stderr : String
deriving DecidableEq

def run (runner : Tool.Runner) (color : Bool) (i : Invocation) (w : World) :
    Option Outcome × World :=
  match (perform runner color i).run.run w with
  | (.ok printed, w) => (printed.map fun text => ⟨0, text, ""⟩, w)
  | (.error t, w) => (some ⟨1, "", troubleText color t⟩, w)

end CookbookAtlas.CommandLine
