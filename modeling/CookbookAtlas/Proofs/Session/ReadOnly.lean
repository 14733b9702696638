import CookbookAtlas.CommandLine.Run
import CookbookAtlas.Proofs.Files.Removal

/-! What a run that does not fetch changes. Opening its session changes nothing; ending the session
sweeps the directory that the strategy would have fetched into, whoever made that directory. -/
namespace CookbookAtlas

open Act

namespace Session

/-- The strategy that a session over a directory works with. -/
def ServedBy (w : World) (dir : Path) (settings : Settings) (s : Strategy) : Prop :=
  ∃ place, w.place dir = .ok place ∧ Strategy.detect w (World.pathOf place) settings = .ok s

theorem openDirectory_ends (w : World) (dir : Path) :
    Ends (openDirectory dir) w fun r w' =>
      w' = w ∧ ∀ opened, r = .ok opened →
      ∃ place, w.place dir = .ok place ∧ opened = World.pathOf place := by
  apply Ends.get
  split
  case h_1 e place hentry hplace =>
    refine .pure ⟨rfl, fun opened hopened => ⟨place, hplace, ?_⟩⟩
    cases hopened
    rfl
  all_goals exact .throw ⟨rfl, fun opened hopened => nomatch hopened⟩

theorem chooseStrategy_ends (w : World) (dir : Path) (settings : Settings) (options : Options) :
    Ends (chooseStrategy dir settings options) w fun r w' =>
      w' = w ∧ ∀ chosen, r = .ok chosen →
        ∀ s, chosen = some s ↔ Strategy.detect w dir settings = .ok s := by
  apply Ends.get
  cases hdetect : Strategy.detect w dir settings with
  | ok strategy =>
    refine .pure ⟨rfl, fun chosen hchosen s => ?_⟩
    cases hchosen
    simp
  | error t =>
    have hfails : Ends (throw t) w fun r w' =>
        w' = w ∧ ∀ chosen : Option Strategy, r = .ok chosen → ∀ s, chosen = some s ↔ Except.error t = .ok s :=
      .throw ⟨rfl, fun chosen hchosen => nomatch hchosen⟩
    dsimp only
    split
    · split
      · refine .pure ⟨rfl, fun chosen hchosen s => ?_⟩
        cases hchosen
        simp
      · exact hfails
    · exact hfails

theorem start_ends (w : World) (dir : Path) (runner : Tool.Runner) (settings : Settings)
    {options : Options} (hfetch : options.fetch = false) :
    Ends (start dir runner settings options) w fun r w' =>
      w' = w ∧ ∀ session, r = .ok session → ∀ s, session.strategy = some s ↔
        ServedBy w dir settings s := by
  refine .bind ((openDirectory_ends w dir).weaken ?_)
  rintro (t | opened) w ⟨rfl, hopened⟩
  · exact ⟨rfl, fun session hsession => nomatch hsession⟩
  obtain ⟨place, hplace, rfl⟩ := hopened opened rfl
  have hserved : ∀ s, ServedBy w dir settings s ↔
      Strategy.detect w (World.pathOf place) settings = .ok s := by
    intro s
    simp [ServedBy, hplace]
  refine .bind ((chooseStrategy_ends w (World.pathOf place) settings options).weaken ?_)
  rintro (t | chosen) w ⟨rfl, hchosen⟩
  · exact ⟨rfl, fun session hsession => nomatch hsession⟩
  apply Ends.get
  cases chosen with
  | none =>
    refine .pure ⟨rfl, fun session hsession s => ?_⟩
    cases hsession
    exact (hchosen none rfl s).trans (hserved s).symm
  | some strategy =>
    dsimp only
    rw [if_neg (by simp [hfetch])]
    refine .pure ⟨rfl, fun session hsession s => ?_⟩
    cases hsession
    exact (hchosen (some strategy) rfl s).trans (hserved s).symm

theorem cleanup_ends (w : World) (session : Session) :
    Ends session.cleanup w fun r w' =>
      r = .ok () ∧ match session.strategy with
        | some s => w.Swept s.scratchDir w'
        | none => w' = w := by
  unfold cleanup
  cases session.strategy with
  | none => exact .pure ⟨rfl, rfl⟩
  | some strategy =>
    refine .tryCatch ((World.removeDirectory_ends w strategy.scratchDir).weaken ?_)
    rintro (t | ⟨⟩) w' hswept
    · exact .pure ⟨rfl, hswept⟩
    · exact ⟨rfl, hswept⟩

end Session

namespace CommandLine

/-- What a command leaves: the world it found, or that world with the directory of a strategy that
serves it swept. The directory is swept whenever the command has something to print. -/
structure Tidy (serves : Strategy → Prop) (w : World) (r : Except Trouble Printed) (w' : World) :
    Prop where
  changed : w' = w ∨ ∃ s, serves s ∧ w.Swept s.scratchDir w'
  printed : ∀ text, r = .ok (some text) → ∀ s, serves s → w.Swept s.scratchDir w'

theorem tidy_of_error (serves : Strategy → Prop) (w : World) (t : Trouble) :
    Tidy serves w (.error t) w :=
  ⟨.inl rfl, fun _ h => nomatch h⟩

theorem tidy_of_none (serves : Strategy → Prop) (w : World) : Tidy serves w (.ok none) w :=
  ⟨.inl rfl, fun _ h => nomatch h⟩

theorem tidy_cleanup {serves : Strategy → Prop} (w : World) {session : Session}
    (hserves : ∀ s, session.strategy = some s ↔ serves s) (e : Except Trouble Printed) :
    Ends (do session.cleanup; ExceptT.mk (pure e)) w (Tidy serves w) := by
  refine .bind ((session.cleanup_ends w).weaken ?_)
  rintro r w' ⟨rfl, hswept⟩
  cases hstrategy : session.strategy with
  | none =>
    rw [hstrategy] at hswept hserves
    refine .lift ⟨.inl hswept, fun _ _ s hs => ?_⟩
    exact nomatch (hserves s).2 hs
  | some strategy =>
    rw [hstrategy] at hswept hserves
    refine .lift ⟨.inr ⟨strategy, (hserves strategy).1 rfl, hswept⟩, fun _ _ s hs => ?_⟩
    obtain rfl : strategy = s := Option.some.inj ((hserves s).2 hs)
    exact hswept

section Commands

variable (c : Context) {i : Invocation} (w : World)

theorem openSession_ends (hfetch : i.fetch = false) (requireStrategy : Bool) :
    Ends (openSession c i requireStrategy) w fun r w' =>
      w' = w ∧ ∀ session, r = .ok (some session) →
        ∀ s, session.strategy = some s ↔ Session.ServedBy w i.path c.settings s := by
  apply Ends.get
  split
  · refine .bind ((Session.start_ends w i.path c.runner c.settings hfetch).weaken ?_)
    rintro (t | session) w ⟨rfl, hsession⟩
    · exact ⟨rfl, fun _ h => nomatch h⟩
    · refine .pure ⟨rfl, fun opened hopened => ?_⟩
      cases hopened
      exact hsession session rfl
  · exact .pure ⟨rfl, fun _ h => nomatch h⟩

/-- A command that checks its arguments, opens a session and works on it is tidy if its work is. -/
theorem tidy_command (hfetch : i.fetch = false) {check : Except Trouble Unit}
    {requireStrategy : Bool} {work : Session → Act Printed}
    (hwork : ∀ session, (∀ s, session.strategy = some s ↔ Session.ServedBy w i.path c.settings s) →
      Ends (work session) w (Tidy (Session.ServedBy w i.path c.settings) w)) :
    Ends (do
        ExceptT.mk (pure check)
        let some session ← openSession c i requireStrategy | return none
        work session) w
      (Tidy (Session.ServedBy w i.path c.settings) w) := by
  refine .bind (.lift ?_)
  cases check with
  | error t => exact tidy_of_error _ w t
  | ok _ =>
    refine .bind ((openSession_ends c w hfetch requireStrategy).weaken ?_)
    rintro (t | opened) w ⟨rfl, hopened⟩
    · exact tidy_of_error _ w t
    · cases opened with
      | none => exact .pure (tidy_of_none _ w)
      | some session => exact hwork session (hopened session rfl)

theorem runDeps_tidy (hfetch : i.fetch = false) :
    Ends (runDeps c i) w (Tidy (Session.ServedBy w i.path c.settings) w) := by
  refine tidy_command c w hfetch fun session hserves => ?_
  exact tidy_cleanup w hserves (.ok (some _))

theorem runAnalyze_tidy (hfetch : i.fetch = false) :
    Ends (runAnalyze c i) w (Tidy (Session.ServedBy w i.path c.settings) w) := by
  refine tidy_command c w hfetch fun session hserves => .get ?_
  split
  · exact .pure (tidy_of_none _ w)
  · exact tidy_cleanup w hserves (.ok (some _))

theorem runTree_tidy (hfetch : i.fetch = false) :
    Ends (runTree c i) w (Tidy (Session.ServedBy w i.path c.settings) w) := by
  refine tidy_command c w hfetch fun session hserves => .get ?_
  split
  · exact tidy_cleanup w hserves (.error _)
  · exact .pure (tidy_of_none _ w)
  · exact tidy_cleanup w hserves (.ok (some _))

theorem runSubcommand_tidy (hfetch : i.fetch = false) :
    Ends (runSubcommand c i) w (Tidy (Session.ServedBy w i.path c.settings) w) := by
  unfold runSubcommand
  cases i.subcommand with
  | deps => exact runDeps_tidy c w hfetch
  | analyze => exact runAnalyze_tidy c w hfetch
  | tree => exact runTree_tidy c w hfetch

end Commands

def Invocation.ServedBy (i : Invocation) (w : World) (s : Strategy) : Prop :=
  ∃ settings, Settings.load w i.config? = .ok settings ∧ Session.ServedBy w i.path settings s

theorem perform_tidy (runner : Tool.Runner) (color : Bool) {i : Invocation} (w : World)
    (hfetch : i.fetch = false) :
    Ends (perform runner color i) w (Tidy (i.ServedBy w) w) := by
  apply Ends.get
  refine .bind (.lift ?_)
  cases hload : Settings.load w i.config? with
  | error t => exact tidy_of_error _ w t
  | ok settings =>
    have hserves : i.ServedBy w = Session.ServedBy w i.path settings := by
      funext s
      simp [Invocation.ServedBy, hload]
    rw [hserves]
    exact runSubcommand_tidy ⟨runner, settings, color⟩ w hfetch

/-- A run leaves what its act leaves. Where it exits with zero the act has printed. -/
theorem run_eq (runner : Tool.Runner) (color : Bool) (i : Invocation) (w : World) :
    (run runner color i w).2 = ((perform runner color i).run.run w).2 ∧
    ∀ o, (run runner color i w).1 = some o → o.exitCode = 0 →
      ∃ text, ((perform runner color i).run.run w).1 = .ok (some text) := by
  unfold run
  obtain ⟨r, w'⟩ := (perform runner color i).run.run w
  cases r with
  | error t =>
    refine ⟨rfl, fun o ho hexit => ?_⟩
    obtain rfl : _ = o := Option.some.inj ho
    exact absurd hexit Nat.one_ne_zero
  | ok printed =>
    refine ⟨rfl, fun o ho _ => ?_⟩
    obtain ⟨text, rfl, -⟩ := Option.map_eq_some_iff.1 ho
    exact ⟨text, rfl⟩

/-- A run that does not fetch changes nothing but the scratch directory of the strategy it chose: a
directory of that name is emptied, always when the run succeeds, though the run has not made it.
Where there is no such directory the run is read-only. -/
theorem run_without_fetch (runner : Tool.Runner) (color : Bool) {i : Invocation} (w : World)
    (hfetch : i.fetch = false) :
    ((∀ s place, i.ServedBy w s → ¬ w.DirectoryAt s.scratchDir place) →
    (run runner color i w).2 = w) ∧ ((run runner color i w).2 = w ∨
      ∃ s place, i.ServedBy w s ∧ w.DirectoryAt s.scratchDir place ∧
        w.Emptied place (run runner color i w).2) ∧
    (∀ o, (run runner color i w).1 = some o → o.exitCode = 0 →
      ∀ s place, i.ServedBy w s → w.DirectoryAt s.scratchDir place →
        w.Emptied place (run runner color i w).2) := by
  obtain ⟨hchanged, hprinted⟩ := (perform_tidy runner color w hfetch).after
  obtain ⟨hworld, hexit⟩ := run_eq runner color i w
  rw [← hworld] at hchanged hprinted
  have hemptied : (run runner color i w).2 = w ∨
      ∃ s place, i.ServedBy w s ∧ w.DirectoryAt s.scratchDir place ∧
        w.Emptied place (run runner color i w).2 := by
    rcases hchanged with hsame | ⟨s, hs, hswept⟩
    · exact .inl hsame
    · by_cases hdir : ∃ place, w.DirectoryAt s.scratchDir place
      · obtain ⟨place, hplace⟩ := hdir
        exact .inr ⟨s, place, hs, hplace, hswept.emptied place hplace⟩
      · exact .inl (hswept.unchanged (not_exists.1 hdir))
  refine ⟨fun hnone => ?_, hemptied, fun o ho hzero s place hs hplace => ?_⟩
  · rcases hemptied with hsame | ⟨s, place, hs, hplace, -⟩
    · exact hsame
    · exact absurd hplace (hnone s place hs)
  · obtain ⟨text, htext⟩ := hexit o ho hzero
    exact (hprinted text htext s hs).emptied place hplace

section Vendored

/-- A cookbook with a manifest whose vendor directory is there before any run. -/
def vendored : World where
  files := ⟨[(["web"], .directory), (["web", "Berksfile"], .file [] false),
    (["web", "metadata.rb"], .file [] false), (["web", "berks-cookbooks"], .directory),
    (["web", "berks-cookbooks", "nginx"], .directory)]⟩
  here := []
  environment := []
  calls := []
  installed := []

def idle : Tool.Runner := ⟨fun _ _ => false, fun _ => pure ⟨"", ""⟩⟩

def depsOfWeb : Invocation :=
  ⟨.deps, .start, { Given.start with values := [(.path, "web")], hasOperand := true }⟩

def webManifest : Strategy :=
  .manifest ⟨⟨"/web"⟩, Settings.standard.berks, Settings.standard.timeout, Settings.standard.vendorDir⟩

theorem depsOfWeb_served : depsOfWeb.ServedBy vendored webManifest :=
  ⟨Settings.standard, rfl, ["web"], rfl, rfl⟩

theorem vendored_directoryAt :
    vendored.DirectoryAt webManifest.scratchDir ["web", "berks-cookbooks"] :=
  ⟨rfl, rfl⟩

theorem vendored_emptied :
    depsOfWeb.fetch = false ∧ depsOfWeb.ServedBy vendored webManifest ∧
    vendored.DirectoryAt webManifest.scratchDir ["web", "berks-cookbooks"] ∧
    (run idle false depsOfWeb vendored).1.map Outcome.exitCode = some 0 ∧
    vendored.Emptied ["web", "berks-cookbooks"] (run idle false depsOfWeb vendored).2 := by
  have hexit : (run idle false depsOfWeb vendored).1.map Outcome.exitCode = some 0 := by
    decide +kernel
  obtain ⟨o, ho, hzero⟩ := Option.map_eq_some_iff.1 hexit
  exact ⟨rfl, depsOfWeb_served, vendored_directoryAt, hexit,
    (run_without_fetch idle false vendored rfl).2.2 o ho hzero _ _ depsOfWeb_served vendored_directoryAt⟩

theorem deps_removes_vendored :
    readArguments ["deps", "web"] = .ok depsOfWeb ∧ depsOfWeb.fetch = false ∧
    vendored.files.get? ["web", "berks-cookbooks", "nginx"] = some .directory ∧
    (run idle false depsOfWeb vendored).2.files.get? ["web", "berks-cookbooks", "nginx"] = none :=
  ⟨rfl, by decide +kernel⟩

end Vendored

end CommandLine
end CookbookAtlas
