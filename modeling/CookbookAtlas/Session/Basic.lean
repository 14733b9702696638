import CookbookAtlas.Strategy.Choice
import CookbookAtlas.Survey.Collect

/-! One run over a cookbook directory: choose a strategy, fetch dependencies if asked, work on
what is there, clean up. -/
namespace CookbookAtlas

structure Session where
  cookbookDir : Path
  name : String
  strategy : Option Strategy
  dependencies : List Dependency.Spec
  found : Strategy.Found
  fetchFailed : Bool

namespace Session

structure Options where
  fetch : Bool
  /-- Refuse a directory that no strategy serves. -/
  requireStrategy : Bool
deriving DecidableEq

def openDirectory (dir : Path) : Act Path := do
  let w ← get
  match w.entry dir, w.place dir with
  | .ok _, .ok place => return World.pathOf place
  | .error fault, _ | _, .error fault =>
    throw ((Trouble.of (.io fault)).within (.failure (.fileSystem "open cookbook directory" dir.text)))

def chooseStrategy (dir : Path) (settings : Settings) (options : Options) : Act (Option Strategy) :=
  do
  let w ← get
  match Strategy.detect w dir settings with
  | .ok s => return some s
  | .error t =>
    match t.failure? with
    | some (.noStrategy _ _) =>
      if !options.fetch && !options.requireStrategy then return none else throw t
    | _ => throw t

/-- Removes what fetching wrote; that it cannot be removed is no matter. -/
def cleanup (s : Session) : Act Unit :=
  match s.strategy with
  | some strategy => tryCatch strategy.cleanup fun _ => pure ()
  | none => pure ()

/-- The session after its strategy has fetched. When the tool fails the session goes on with what
is declared. -/
def fetch (s : Session) (strategy : Strategy) (runner : Tool.Runner) : Act Session :=
  tryCatch (do
    let (strategy, specs) ← strategy.fetch runner
    let w ← get
    return { s with strategy := some strategy, dependencies := specs, found := strategy.locate w specs })
  fun t => do
    if t.isToolFailure then
      let w ← get
      return { s with dependencies := strategy.declared w, fetchFailed := true }
    else throw t

/-- Whether a session can be started at all, be it to fail: where there is a directory, the search
for its lock has to be one. -/
def isStartable (w : World) (dir : Path) (settings : Settings) : Bool :=
  Strategy.isSearchable settings.searchDepth || !w.has dir

/-- Starts a session; one that cannot fetch for another reason than its tool cleans up. -/
def start (dir : Path) (runner : Tool.Runner) (settings : Settings) (options : Options) :
    Act Session := do
  let cookbookDir ← openDirectory dir
  let strategy ← chooseStrategy cookbookDir settings options
  let w ← get
  let name := match strategy with
    | some strategy => strategy.name w
    | none => Strategy.cookbookName w cookbookDir
  let session : Session := ⟨cookbookDir, name, strategy, [], .empty, false⟩
  match strategy with
  | none => return session
  | some strategy =>
    if options.fetch then
      tryCatch (session.fetch strategy runner) fun t => do
        session.cleanup
        throw t
    else return { session with dependencies := strategy.declared w }

def strategyName (s : Session) : String := (s.strategy.map Strategy.kindName).getD "none"

/-- Directories in which cookbooks are looked for: the cookbook, its siblings, and what was
fetched. -/
def searchDirs (s : Session) (w : World) : List Path :=
  let siblings := if Survey.isCookbookRoot w s.cookbookDir then s.cookbookDir.parent?.toList else []
  s.cookbookDir :: (siblings ++ s.found.resolved.map Strategy.Located.path)

def survey (s : Session) (w : World) (settings : Settings) : Option Survey :=
  Survey.ofDirectories w settings.displayLimit (s.searchDirs w)

end Session
end CookbookAtlas
