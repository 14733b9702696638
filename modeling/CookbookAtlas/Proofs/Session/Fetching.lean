import CookbookAtlas.Proofs.Session.ReadOnly
import CookbookAtlas.Proofs.Strategy.Export
import CookbookAtlas.Tool.Script

/-! What comes of a session that fetches. A tool that ran and failed leaves a session with what is
declared; any other trouble ends it; a success sorts the dependencies by whether they are where they
are expected. However the run that opened the session ends, the scratch directory is gone. -/
namespace CookbookAtlas

open World Act Dependency

/-- The outermost known failure is that of a tool that ran and failed, or ran too long. -/
def Trouble.ByTool (t : Trouble) : Prop :=
  (∃ tool operation output code, t.failure? = some (.toolFailed tool operation output code)) ∨
  ∃ tool operation seconds, t.failure? = some (.toolTimeout tool operation seconds)

theorem Trouble.isToolFailure_iff (t : Trouble) : t.isToolFailure = true ↔ t.ByTool := by
  unfold isToolFailure ByTool
  cases t.failure? with
  | none => simp
  | some f => cases f <;> simp [Failure.isToolFailure]

namespace Strategy

/-- Where a dependency is expected once it is fetched; nowhere if its identifier is not known. -/
def expectedDir? (s : Strategy) (spec : Spec) : Option Path :=
  match s with
  | .policy p =>
    (spec.identifier.or ((p.registry.get? spec.name).map Lock.Record.identifier)).map fun id =>
      (p.exportDir.child "cookbook_artifacts").child (spec.name ++ "-" ++ id)
  | .manifest m => some (m.vendorDir.child spec.name)

/-- The dependency has a directory where it is expected. -/
def isInPlace (s : Strategy) (w : World) (spec : Spec) : Bool :=
  (s.expectedDir? spec).any w.isDirectory

theorem ofDirectories_sorts (w : World) (asked : List (Spec × Option String × Option Path)) :
    (Found.ofDirectories w asked).resolved.map (fun l => (l.name, some l.path)) =
      (asked.filter fun a => a.2.2.any w.isDirectory).map (fun a => (a.1.name, a.2.2)) ∧
    (Found.ofDirectories w asked).missing =
      (asked.filter fun a => !a.2.2.any w.isDirectory).map (fun a => a.1.name) := by
  induction asked with
  | nil => exact ⟨rfl, rfl⟩
  | cons a rest ih =>
    obtain ⟨spec, identifier, dir⟩ := a
    cases dir with
    | none => simp [Found.ofDirectories, ih]
    | some path =>
      cases hdir : w.isDirectory path <;> simp [Found.ofDirectories, hdir, ih, Option.filter]

/-- Dependencies are resolved or missing by whether they are in place, in the order asked for. -/
theorem locate_sorts (s : Strategy) (w : World) (specs : List Spec) :
    (s.locate w specs).resolved.map (fun l => (l.name, some l.path)) =
      (specs.filter (s.isInPlace w)).map (fun spec => (spec.name, s.expectedDir? spec)) ∧
    (s.locate w specs).missing = (specs.filter fun spec => !s.isInPlace w spec).map Spec.name := by
  cases s with
  | policy p =>
    obtain ⟨hresolved, hmissing⟩ := ofDirectories_sorts w (specs.map fun spec =>
      let identifier := spec.identifier.or ((p.registry.get? spec.name).map Lock.Record.identifier)
      (spec, identifier, identifier.map fun id =>
        (p.exportDir.child "cookbook_artifacts").child (spec.name ++ "-" ++ id)))
    rw [List.filter_map, List.map_map] at hresolved hmissing
    exact ⟨hresolved, hmissing⟩
  | manifest m =>
    obtain ⟨hresolved, hmissing⟩ := ofDirectories_sorts w (specs.map fun spec =>
      (spec, spec.identifier, some (m.vendorDir.child spec.name)))
    rw [List.filter_map, List.map_map] at hresolved hmissing
    exact ⟨hresolved, hmissing⟩

section Fetch

variable {runner : Tool.Runner} {w w' : World} {specs : List Spec}

theorem Policy.fetch_renews {p p' : Policy}
    (h : (p.fetch runner).run.run w = (.ok (p', specs), w')) :
    p' = { p with registry := p'.registry } := by
  obtain ⟨_, _, -, h⟩ := ok_of_bind h
  obtain ⟨_, _, -, h⟩ := ok_of_bind h
  obtain ⟨_, _, -, h, -⟩ := ok_of_withStaging h
  obtain ⟨_, _, -, h⟩ := ok_of_bind h
  obtain ⟨_, u, -, h⟩ := ok_of_bind h
  obtain ⟨q, u', hreload, h⟩ := ok_of_bind h
  have hq := (Policy.reload_ends (p := p) u).after
  rw [hreload] at hq
  obtain rfl : q = p' := congrArg Prod.fst (Except.ok.inj (Prod.mk.inj h).1)
  exact (hq.2 q rfl).2

theorem fetch_scratchDir {s s' : Strategy}
    (h : (s.fetch runner).run.run w = (.ok (s', specs), w')) : s'.scratchDir = s.scratchDir := by
  cases s with
  | policy p =>
    obtain ⟨⟨p', found⟩, u, hfetch, h⟩ := ok_of_bind h
    obtain rfl : .policy p' = s' := congrArg Prod.fst (Except.ok.inj (Prod.mk.inj h).1)
    have hp' := Policy.fetch_renews hfetch
    change p'.exportDir = p.exportDir
    rw [hp']
    rfl
  | manifest m =>
    obtain ⟨found, u, -, h⟩ := ok_of_bind h
    obtain rfl : .manifest m = s' := congrArg Prod.fst (Except.ok.inj (Prod.mk.inj h).1)
    rfl

end Fetch
end Strategy

namespace Session

variable {w w₁ : World} {dir : Path} {settings : Settings} {s : Strategy} {runner : Tool.Runner}

theorem fetch_run (session : Session) (s : Strategy) (runner : Tool.Runner) (w : World) :
    (session.fetch s runner).run.run w =
      match (s.fetch runner).run.run w with
      | (.ok (s', specs), w₁) =>
        (.ok { session with strategy := some s', dependencies := specs, found := s'.locate w₁ specs }, w₁)
      | (.error t, w₁) =>
        (if t.isToolFailure then .ok { session with dependencies := s.declared w₁, fetchFailed := true }
          else .error t, w₁) := by
  rw [fetch, run_tryCatch, run_bind]
  generalize (s.fetch runner).run.run w = fetched
  obtain ⟨r, w₁⟩ := fetched
  cases r with
  | ok result => rfl
  | error t =>
    dsimp only
    cases t.isToolFailure <;> rfl

theorem cleanup_run {session : Session} (h : session.strategy = some s) (w : World) :
    session.cleanup.run.run w = (.ok (), ((removeDirectory s.scratchDir).run.run w).2) := by
  rw [cleanup, h]
  dsimp only
  rw [run_tryCatch, Strategy.cleanup]
  generalize (removeDirectory s.scratchDir).run.run w = removed
  obtain ⟨r, w'⟩ := removed
  cases r <;> rfl

theorem openDirectory_run (hhas : w.has dir = true) {place : Files.Place}
    (hplace : w.place dir = .ok place) :
    (openDirectory dir).run.run w = (.ok (pathOf place), w) := by
  cases hentry : w.entry dir with
  | error fault => simp [World.has, hentry, Except.toOption] at hhas
  | ok e =>
    rw [openDirectory, run_get, hentry, hplace]
    rfl

theorem chooseStrategy_run (hdetect : Strategy.detect w dir settings = .ok s) (options : Options) :
    (chooseStrategy dir settings options).run.run w = (.ok (some s), w) := by
  rw [chooseStrategy, run_get, hdetect]
  rfl

def opened (w : World) (place : Files.Place) (s : Strategy) : Session :=
  ⟨pathOf place, s.name w, some s, [], .empty, false⟩

/-- A session over a directory that a strategy serves fetches, and cleans up where it cannot go
on. -/
theorem start_run (hhas : w.has dir = true) {place : Files.Place} (hplace : w.place dir = .ok place)
    (hdetect : Strategy.detect w (pathOf place) settings = .ok s) (runner : Tool.Runner)
    (requireStrategy : Bool) :
    (start dir runner settings ⟨true, requireStrategy⟩).run.run w =
      match ((opened w place s).fetch s runner).run.run w with
      | (.ok session, w₁) => (.ok session, w₁)
      | (.error t, w₁) => (.error t, ((removeDirectory s.scratchDir).run.run w₁).2) := by
  rw [start, run_bind, openDirectory_run hhas hplace]
  dsimp only
  rw [run_bind, chooseStrategy_run hdetect]
  dsimp only
  rw [run_get, if_pos rfl, run_tryCatch]
  have hopened : (⟨pathOf place, s.name w, some s, [], .empty, false⟩ : Session) =
      opened w place s := rfl
  rw [hopened]
  generalize ((opened w place s).fetch s runner).run.run w = fetched
  obtain ⟨r, w₁⟩ := fetched
  cases r with
  | ok session => rfl
  | error t =>
    dsimp only
    rw [run_bind, cleanup_run rfl]
    rfl

/-- Cleaning the session up removes the directory. -/
structure Cleanable (session : Session) (scratch : Path) (w : World) : Prop where
  strategy : ∃ s, session.strategy = some s ∧ s.scratchDir = scratch
  removed : ((removeDirectory scratch).run.run w).1 = .ok ()

theorem start_cleanable (hhas : w.has dir = true) (hserved : ServedBy w dir settings s)
    (requireStrategy : Bool)
    (hremoved : ((removeDirectory s.scratchDir).run.run ((s.fetch runner).run.run w).2).1 =
    .ok ()) : Ends (start dir runner settings ⟨true, requireStrategy⟩) w fun r w' =>
      match r with
      | .ok session => session.Cleanable s.scratchDir w'
      | .error _ => w'.has s.scratchDir = false := by
  obtain ⟨place, hplace, hdetect⟩ := hserved
  constructor
  rw [start_run hhas hplace hdetect, fetch_run]
  cases hfetch : (s.fetch runner).run.run w with
  | mk r w₁ =>
    rw [hfetch] at hremoved
    cases r with
    | ok result =>
      obtain ⟨s', specs⟩ := result
      exact ⟨⟨s', rfl, Strategy.fetch_scratchDir hfetch⟩, hremoved⟩
    | error t =>
      cases htool : t.isToolFailure with
      | true =>
        dsimp only
        rw [htool]
        exact ⟨⟨s, rfl, rfl⟩, hremoved⟩
      | false =>
        dsimp only
        rw [htool]
        exact (removeDirectory_gone w₁ s.scratchDir).after hremoved

end Session

namespace CommandLine

/-- The scratch directory is gone, if there is a result at all. -/
def Cleaned (scratch : Path) (r : Except Trouble Printed) (w : World) : Prop :=
  r ≠ .ok none → w.has scratch = false

theorem cleaned_cleanup {w : World} {session : Session} {scratch : Path}
    (h : session.Cleanable scratch w) (e : Except Trouble Printed) :
    Ends (do session.cleanup; ExceptT.mk (pure e)) w (Cleaned scratch) := by
  obtain ⟨⟨s, hs, rfl⟩, hremoved⟩ := h
  constructor
  rw [run_bind, Session.cleanup_run hs]
  exact fun _ => (removeDirectory_gone w s.scratchDir).after hremoved

/-- What the arguments of an invocation are checked for before anything else. -/
def Invocation.check (i : Invocation) : Except Trouble Unit :=
  match i.subcommand with
  | .deps | .analyze => checkFormat i.format ["text", "json"]
  | .tree => checkTree i

section Fetching

variable {c : Context} {i : Invocation} {w : World} {s : Strategy}

/-- A command that fetches, on a session it can clean up, cleans up if its work does. -/
theorem cleaned_command (hfetch : i.fetch = true) (hhas : w.has i.path = true)
    (hserved : Session.ServedBy w i.path c.settings s)
    (hremoved : ((removeDirectory s.scratchDir).run.run ((s.fetch c.runner).run.run w).2).1 = .ok ())
    {check : Except Trouble Unit} (hcheck : check = .ok ()) {requireStrategy : Bool}
    {work : Session → Act Printed} (hwork : ∀ session w₁, session.Cleanable s.scratchDir w₁ →
      Ends (work session) w₁ (Cleaned s.scratchDir)) :
    Ends (do
        ExceptT.mk (pure check)
        let some session ← openSession c i requireStrategy | return none
        work session) w (Cleaned s.scratchDir) := by
  refine .bind (.lift ?_)
  rw [hcheck]
  refine .bind (.get ?_)
  split
  · refine .bind ?_
    rw [hfetch]
    refine (Session.start_cleanable hhas hserved requireStrategy hremoved).weaken ?_
    rintro (t | session) w₁ hstarted
    · exact fun _ => hstarted
    · exact .pure (hwork session w₁ hstarted)
  · exact .pure (.pure fun h => absurd rfl h)

theorem runSubcommand_cleaned (hfetch : i.fetch = true) (hhas : w.has i.path = true)
    (hserved : Session.ServedBy w i.path c.settings s)
    (hremoved : ((removeDirectory s.scratchDir).run.run ((s.fetch c.runner).run.run w).2).1 =
    .ok ()) (hcheck : i.check = .ok ()) : Ends (runSubcommand c i) w (Cleaned s.scratchDir) := by
  unfold Invocation.check at hcheck
  unfold runSubcommand
  cases hsub : i.subcommand with
  | deps =>
    rw [hsub] at hcheck
    refine cleaned_command hfetch hhas hserved hremoved hcheck fun session w₁ hsession => ?_
    exact cleaned_cleanup hsession (.ok (some _))
  | analyze =>
    rw [hsub] at hcheck
    refine cleaned_command hfetch hhas hserved hremoved hcheck fun session w₁ hsession => .get ?_
    split
    · exact .pure fun h => absurd rfl h
    · exact cleaned_cleanup hsession (.ok (some _))
  | tree =>
    rw [hsub] at hcheck
    refine cleaned_command hfetch hhas hserved hremoved hcheck fun session w₁ hsession => .get ?_
    split
    · exact cleaned_cleanup hsession (.error _)
    · exact .pure fun h => absurd rfl h
    · exact cleaned_cleanup hsession (.ok (some _))

/-- A run that fetches and comes to an end has removed the scratch directory. -/
theorem run_cleaned {settings : Settings} (hload : Settings.load w i.config? = .ok settings)
    (hfetch : i.fetch = true) (hhas : w.has i.path = true)
    (hserved : Session.ServedBy w i.path settings s) {runner : Tool.Runner}
    (hremoved : ((removeDirectory s.scratchDir).run.run ((s.fetch runner).run.run w).2).1 = .ok ())
    (hcheck : i.check = .ok ()) {color : Bool} {o : Outcome} {w' : World}
    (hrun : run runner color i w = (some o, w')) : w'.has s.scratchDir = false := by
  have hcleaned := (runSubcommand_cleaned (c :=
    ⟨runner, settings, color⟩) hfetch hhas hserved hremoved hcheck).after
  have hperform : (perform runner color i).run.run w =
      (runSubcommand ⟨runner, settings, color⟩ i).run.run w := by
    rw [perform, run_get, hload]
    rfl
  rw [← hperform] at hcleaned
  unfold run at hrun
  cases hended : (perform runner color i).run.run w with
  | mk r u =>
    rw [hended] at hrun hcleaned
    cases r with
    | error t =>
      obtain ⟨-, rfl⟩ := Prod.mk.inj hrun
      exact hcleaned (fun h => nomatch h)
    | ok printed =>
      obtain ⟨hprinted, rfl⟩ := Prod.mk.inj hrun
      refine hcleaned fun h => ?_
      rw [Except.ok.inj h] at hprinted
      cases hprinted

/-- What comes of fetching decides what comes of the session. Where the tool ran and failed, the
session has what is declared and looks nowhere; where anything else went wrong, there is no session
and no scratch directory; else the dependencies are sorted, in their order, into those that are in
place and those that are missing. A run that fetches leaves no scratch directory in any case. -/
theorem fetch_decides_session {w₁ : World} {dir : Path} {settings : Settings} {runner : Tool.Runner}
    {outcome : Except Trouble (Strategy × List Spec)} (hhas : w.has dir = true)
    (hserved : Session.ServedBy w dir settings s)
    (hfetch : (s.fetch runner).run.run w = (outcome, w₁))
    (hremoved : ((removeDirectory s.scratchDir).run.run w₁).1 = .ok ()) :
    (∀ t, outcome = .error t → t.ByTool → ∀ requireStrategy, ∃ session,
      (Session.start dir runner settings ⟨true, requireStrategy⟩).run.run w = (.ok session, w₁) ∧
      session.fetchFailed = true ∧ session.found.resolved = [] ∧ session.found.missing = [] ∧
      session.dependencies = s.declared w₁) ∧
    (∀ t, outcome = .error t → ¬ t.ByTool → ∀ requireStrategy, ∃ w',
      (Session.start dir runner settings ⟨true, requireStrategy⟩).run.run w = (.error t, w') ∧
      w'.has s.scratchDir = false) ∧
    (∀ s' specs, outcome = .ok (s', specs) → ∀ requireStrategy, ∃ session,
      (Session.start dir runner settings ⟨true, requireStrategy⟩).run.run w = (.ok session, w₁) ∧
      session.fetchFailed = false ∧ session.dependencies = specs ∧
      session.found.resolved.map (fun l => (l.name, some l.path)) =
        (specs.filter (s'.isInPlace w₁)).map (fun spec => (spec.name, s'.expectedDir? spec)) ∧
      session.found.missing = (specs.filter fun spec => !s'.isInPlace w₁ spec).map Spec.name) ∧
    ∀ (i : Invocation) color o w', i.path = dir → i.fetch = true → i.check = .ok () →
      Settings.load w i.config? = .ok settings → run runner color i w = (some o, w') →
      w'.has s.scratchDir = false := by
  have ⟨place, hplace, hdetect⟩ := hserved
  have hstart := Session.start_run hhas hplace hdetect runner
  simp only [Session.fetch_run, hfetch] at hstart
  refine ⟨?_, ?_, ?_, ?_⟩
  · rintro t rfl htool requireStrategy
    rw [← Trouble.isToolFailure_iff] at htool
    simp only [htool, if_true] at hstart
    exact ⟨_, hstart requireStrategy, rfl, rfl, rfl, rfl⟩
  · rintro t rfl htool requireStrategy
    rw [← Trouble.isToolFailure_iff] at htool
    simp only [htool] at hstart
    exact ⟨_, hstart requireStrategy, (removeDirectory_gone w₁ s.scratchDir).after hremoved⟩
  · rintro s' specs rfl requireStrategy
    exact ⟨_, hstart requireStrategy, rfl, rfl, Strategy.locate_sorts s' w₁ specs⟩
  · rintro i color o w' rfl hask hcheck hload hrun
    exact run_cleaned hload hask hhas hserved (by rw [hfetch]; exact hremoved) hcheck hrun

end Fetching

section Sample

/-- A tool that lists two dependencies and vendors one of them. -/
def vendoring : Tool.Runner :=
  Tool.Script.runner
    { tools := ["berks"]
      responses := [("list", "\x7b\"cookbooks\":[\x7b\"name\":\"nginx\"\x7d,\x7b\"name\":\"apt\"\x7d]\x7d")]
      failOn := none
      timeoutOn := none
      breakOn := none
      directories := ["nginx"]
      files := []
      installed := [] }

def fetchOfWeb : Invocation :=
  ⟨.deps, .start, { Given.start with values := [(.path, "web"), (.fetch, "")], hasOperand := true }⟩

def listed : List Spec := [⟨"nginx", "", none⟩, ⟨"apt", "", none⟩]

theorem webManifest_served : Session.ServedBy vendored ⟨"web"⟩ Settings.standard webManifest :=
  ⟨["web"], rfl, rfl⟩

def afterVendoring : World := ((webManifest.fetch vendoring).run.run vendored).2

theorem web_fetched : (webManifest.fetch vendoring).run.run vendored =
    (.ok (webManifest, listed), afterVendoring) := by
  refine Prod.ext (ok_of_toOption ?_) rfl
  decide +kernel

theorem web_removable :
    ((removeDirectory webManifest.scratchDir).run.run afterVendoring).1 = .ok () := by
  apply ok_of_toOption
  decide +kernel

/-- A tool that vendors one of the two dependencies it lists leaves the other one missing, and a
tool that is missing ends the session; neither leaves a scratch directory. -/
theorem web_fetch_outcomes :
    (∃ session, (Session.start ⟨"web"⟩ vendoring Settings.standard ⟨true, true⟩).run.run vendored =
        (.ok session, afterVendoring) ∧
      session.fetchFailed = false ∧ session.found.missing = ["apt"] ∧
      session.found.resolved.map (fun l => (l.name, some l.path)) =
        [("nginx", some ⟨"/web/berks-cookbooks/nginx"⟩)]) ∧
    (∃ o w', run vendoring false fetchOfWeb vendored = (some o, w') ∧ o.exitCode = 0 ∧
      w'.has webManifest.scratchDir = false) ∧
    ∃ w', (Session.start ⟨"web"⟩ idle Settings.standard ⟨true, true⟩).run.run vendored =
        (.error (.ofFailure (.toolNotFound "berks")), w') ∧
      w'.has webManifest.scratchDir = false := by
  refine ⟨?_, ?_, ?_⟩
  · obtain ⟨session, hstart, hfine, -, hresolved, hmissing⟩ :=
      (fetch_decides_session (by decide) webManifest_served web_fetched web_removable).2.2.1 _ _ rfl true
    refine ⟨session, hstart, hfine, ?_, ?_⟩
    · rw [hmissing]
      decide +kernel
    · rw [hresolved]
      decide +kernel
  · have hexit : (run vendoring false fetchOfWeb vendored).1.map Outcome.exitCode = some 0 := by
      decide +kernel
    obtain ⟨o, ho, hzero⟩ := Option.map_eq_some_iff.1 hexit
    refine ⟨o, _, Prod.ext ho rfl, hzero, ?_⟩
    exact (fetch_decides_session (by decide) webManifest_served web_fetched web_removable).2.2.2
      fetchOfWeb false o _
      rfl rfl rfl rfl (Prod.ext ho rfl)
  · have hother : ¬ Trouble.ByTool (.ofFailure (.toolNotFound "berks")) := by
      rw [← Trouble.isToolFailure_iff]
      decide
    exact (fetch_decides_session (by decide) webManifest_served rfl rfl).2.1 _ rfl hother true

end Sample
end CommandLine
end CookbookAtlas
