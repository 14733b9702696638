import CookbookAtlas.Proofs.Tool.Runner
import CookbookAtlas.Strategy.Manifest

/-! The calls that a manifest makes along the life of a process. Installing is asked for until it
has succeeded once for a cookbook directory, and never again; a step that fails is the last one; and
what is fetched has been listed and vendored. -/
namespace CookbookAtlas.Strategy
namespace Manifest

open List Tool Dependency

def installCall (m : Manifest) : Command := m.command ["install"]

def listCall (m : Manifest) : Command := m.command ["list", "--format", "json"]

def vendorCall (m : Manifest) : Command := m.command ["vendor", m.vendorDir.text]

/-- The directory under which an installation is remembered. -/
def key (m : Manifest) : Path := m.cookbookDir.normalize

/-- The installation that is still to be made before anything is listed. -/
def pending (m : Manifest) (w : World) : List Command :=
  if m.key ∈ w.installed then [] else [m.installCall]

def unreadable (m : Manifest) : Trouble :=
  .ofFailure (.toolFailed m.setup.tool "list"
    ((Trouble.of .json).during unexpectedListing).fullMessage none)

section Steps

variable {runner : Runner}

theorem install_run (m : Manifest) (runner : Runner) (w : World) :
    (m.install runner).run.run w =
      if m.key ∈ w.installed then (.ok (), w)
      else match (runner.call m.installCall).run.run w with
        | (.ok _, u) => (.ok (), { u with installed := m.key :: u.installed })
        | (.error t, u) => (.error t, u) := by
  rw [install, Act.run_get]
  by_cases hkey : m.key ∈ w.installed
  · rw [if_pos hkey, if_pos (by simpa [key] using hkey)]
    rfl
  · have hcall : m.command ["install"] = m.installCall := rfl
    rw [if_neg hkey, if_neg (by simpa [key] using hkey), Act.run_bind, hcall]
    generalize (runner.call m.installCall).run.run w = called
    obtain ⟨r, u⟩ := called
    cases r <;> rfl

theorem install_ok_iff {m : Manifest} {w : World} (hkey : m.key ∉ w.installed) :
    ((m.install runner).run.run w).1 = .ok () ↔
      ∃ output, ((runner.call m.installCall).run.run w).1 = .ok output := by
  rw [install_run, if_neg hkey]
  generalize (runner.call m.installCall).run.run w = called
  obtain ⟨r, u⟩ := called
  cases r <;> simp

theorem install_ends (hout : runner.Outside) (m : Manifest) (w : World) :
    Act.Ends (m.install runner) w fun r u =>
      u.calls = w.calls ++ m.pending w ∧
      match r with
      | .ok () => ∀ d, d ∈ u.installed ↔ d ∈ w.installed ∨ d = m.key
      | .error _ => m.key ∉ w.installed ∧ u.installed = w.installed := by
  constructor
  rw [install_run, pending]
  by_cases hkey : m.key ∈ w.installed
  · rw [if_pos hkey, if_pos hkey]
    refine ⟨by simp, fun d => ⟨.inl, ?_⟩⟩
    rintro (hd | rfl)
    · exact hd
    · exact hkey
  · rw [if_neg hkey, if_neg hkey]
    obtain ⟨hcalls, hinstalled⟩ := (Runner.call_noted hout m.installCall w).after
    generalize (runner.call m.installCall).run.run w = called at hcalls hinstalled ⊢
    obtain ⟨r, u⟩ := called
    cases r with
    | error t => exact ⟨hcalls, hkey, hinstalled⟩
    | ok output =>
      refine ⟨hcalls, fun d => ?_⟩
      change u.installed = w.installed at hinstalled
      change d ∈ m.key :: u.installed ↔ _
      rw [mem_cons, hinstalled, or_comm]

theorem listed_ends (hout : runner.Outside) (m : Manifest) (w : World) :
    Act.Ends (m.listed runner) w fun _ w' => w'.calls = w.calls ++ [m.listCall] ∧
    w'.installed = w.installed := by
  refine .bind ((Runner.call_noted hout m.listCall w).weaken ?_)
  rintro (t | output) w' h
  · exact h
  · dsimp only
    split
    · exact .pure h
    · exact .throw h

theorem listed_run (m : Manifest) (runner : Runner) (w : World) :
    (m.listed runner).run.run w =
      match (runner.call m.listCall).run.run w with
      | (.ok output, v) =>
        match readListing? output.stdout.toList with
        | some specs => (.ok specs, v)
        | none => (.error m.unreadable, v)
      | (.error t, v) => (.error t, v) := by
  have hcall : m.command ["list", "--format", "json"] = m.listCall := rfl
  rw [listed, Act.run_bind, hcall]
  generalize (runner.call m.listCall).run.run w = called
  obtain ⟨r, v⟩ := called
  cases r with
  | error t => rfl
  | ok output =>
    dsimp only
    cases readListing? output.stdout.toList <;> rfl

section Spared

variable {m : Manifest} {place : Files.Place}

theorem install_spares (h : runner.Spares m.installCall place) (w : World) :
    Act.Ends (m.install runner) w fun _ w' =>
      ∀ other, place <+: other → w'.files.get? other = w.files.get? other := by
  apply Act.Ends.get
  split
  · exact .pure fun _ _ => rfl
  · refine .bind ((Runner.call_spares h w).weaken ?_)
    rintro (t | output) w' hkept
    · exact hkept
    · exact ⟨hkept⟩

theorem listed_spares (h : runner.Spares m.listCall place) (w : World) :
    Act.Ends (m.listed runner) w fun _ w' =>
      ∀ other, place <+: other → w'.files.get? other = w.files.get? other := by
  refine .bind ((Runner.call_spares h w).weaken ?_)
  rintro (t | output) w' hkept
  · exact hkept
  · dsimp only
    split
    · exact .pure hkept
    · exact .throw hkept

end Spared

theorem removeDirectory_rest (p : Path) (w : World) :
    Act.Ends (World.removeDirectory p) w fun _ w' => w'.calls = w.calls ∧
    w'.installed = w.installed := by
  refine (World.removeDirectory_ends w p).weaken fun r w' hswept => ?_
  by_cases hdir : ∃ place, w.DirectoryAt p place
  · obtain ⟨place, hplace⟩ := hdir
    rw [(hswept.emptied place hplace).rest]
    exact ⟨rfl, rfl⟩
  · rw [hswept.unchanged (not_exists.1 hdir)]
    exact ⟨rfl, rfl⟩

/-- What is left to do once the dependencies are listed. -/
def vendor (m : Manifest) (runner : Runner) (specs : List Spec) : Act (List Spec) := do
  World.removeDirectory m.vendorDir
  let _ ← runner.call m.vendorCall
  return specs

theorem vendor_ends (hout : runner.Outside) (m : Manifest) (specs : List Spec) (w : World) :
    Act.Ends (m.vendor runner specs) w fun r w' =>
      w'.installed = w.installed ∧
      ∃ later, (later = [] ∨ later = [m.vendorCall]) ∧ w'.calls = w.calls ++ later ∧
        ∀ specs', r = .ok specs' → later = [m.vendorCall] := by
  refine .bind ((removeDirectory_rest m.vendorDir w).weaken ?_)
  rintro (t | ⟨⟩) w₁ ⟨hcalls, hinstalled⟩
  · exact ⟨hinstalled, [], .inl rfl, by simp [hcalls], fun _ h => nomatch h⟩
  · refine .bind ((Runner.call_noted hout m.vendorCall w₁).weaken ?_)
    rw [hcalls, hinstalled]
    rintro (t | output) w₂ ⟨hcalls, hinstalled⟩
    · exact ⟨hinstalled, [m.vendorCall], .inr rfl, hcalls, fun _ h => nomatch h⟩
    · exact .pure ⟨hinstalled, [m.vendorCall], .inr rfl, hcalls, fun _ _ => rfl⟩

theorem fetch_run (m : Manifest) (runner : Runner) (w : World) :
    (m.fetch runner).run.run w =
      if runner.available w m.setup.tool then
        match (m.install runner).run.run w with
        | (.error t, u) => (.error t, u)
        | (.ok (), u) =>
          match (m.listed runner).run.run u with
          | (.error t, v) => (.error t, v)
          | (.ok specs, v) => (m.vendor runner specs).run.run v
      else (.error (.ofFailure (.toolNotFound m.setup.tool)), w) := by
  rw [fetch, Act.run_bind, Runner.require_run]
  by_cases hthere : runner.available w m.setup.tool = true
  · rw [if_pos hthere, if_pos hthere]
    dsimp only
    rw [Act.run_bind]
    generalize (m.install runner).run.run w = installed
    obtain ⟨r, u⟩ := installed
    cases r with
    | error t => rfl
    | ok _ =>
      dsimp only
      rw [Act.run_bind]
      generalize (m.listed runner).run.run u = listing
      obtain ⟨r, v⟩ := listing
      cases r <;> rfl
  · rw [if_neg hthere, if_neg hthere]

end Steps

structure Fetching where
  manifest : Manifest
  runner : Runner
  before : World

namespace Fetching

variable (f : Fetching)

def result : Except Trouble (List Spec) := ((f.manifest.fetch f.runner).run.run f.before).1

def after : World := ((f.manifest.fetch f.runner).run.run f.before).2

def issued : List Command := f.after.calls.drop f.before.calls.length

def HasTool : Prop := f.runner.available f.before f.manifest.setup.tool = true

def Installs : Prop :=
  f.manifest.installCall ∈ f.issued ∧
  ∃ output, ((f.runner.call f.manifest.installCall).run.run f.before).1 = .ok output

/-- The tool is there and a step before the vendoring fails, which is the last of these calls. -/
inductive Stops : Trouble → List Command → Prop
  | install {t : Trouble} {u : World} (hthere : f.HasTool) (hnew : f.manifest.key ∉ f.before.installed)
    (h : (f.runner.call f.manifest.installCall).run.run f.before = (.error t, u)) :
    Stops t [f.manifest.installCall]
  | list {t : Trouble} {u v : World} (hthere : f.HasTool)
    (hinstall : (f.manifest.install f.runner).run.run f.before = (.ok (), u))
    (h : (f.runner.call f.manifest.listCall).run.run u = (.error t, v)) :
    Stops t (f.manifest.pending f.before ++ [f.manifest.listCall])
  | unreadable {output : Output} {u v : World} (hthere : f.HasTool)
    (hinstall : (f.manifest.install f.runner).run.run f.before = (.ok (), u))
    (hlist : (f.runner.call f.manifest.listCall).run.run u = (.ok output, v))
    (h : readListing? output.stdout.toList = none) :
    Stops f.manifest.unreadable (f.manifest.pending f.before ++ [f.manifest.listCall])

variable {f}

theorem issued_of_calls {calls : List Command} (h : f.after.calls = f.before.calls ++ calls) :
    f.issued = calls := by
  rw [issued, h, drop_left]

theorem run_of_tool (hthere : f.HasTool) :
    (f.manifest.fetch f.runner).run.run f.before =
      match (f.manifest.install f.runner).run.run f.before with
      | (.error t, u) => (.error t, u)
      | (.ok (), u) =>
        match (f.manifest.listed f.runner).run.run u with
        | (.error t, v) => (.error t, v)
        | (.ok specs, v) => (f.manifest.vendor f.runner specs).run.run v := by
  rw [fetch_run]
  exact if_pos hthere

theorem installCall_ne (m : Manifest) :
    m.installCall ≠ m.listCall ∧ m.installCall ≠ m.vendorCall := by
  simp [installCall, listCall, vendorCall, command]

/-- How a fetch goes: it finds no tool, or it installs what is pending, and where that does not fail
it lists, and then it may vendor. -/
theorem course (hout : f.runner.Outside) :
    (¬ f.HasTool ∧ f.after = f.before ∧ ∃ t, f.result = .error t) ∨
    (f.HasTool ∧ ∃ r u, (f.manifest.install f.runner).run.run f.before = (r, u) ∧
      match r with
      | .error t => f.result = .error t ∧ f.after = u
      | .ok () => f.after.installed = u.installed ∧
        ∃ later, (later = [] ∨ later = [f.manifest.vendorCall]) ∧
          f.after.calls = u.calls ++ f.manifest.listCall :: later ∧
          ∀ specs, f.result = .ok specs → later = [f.manifest.vendorCall]) := by
  unfold result after
  by_cases hthere : f.HasTool
  · right
    refine ⟨hthere, ?_⟩
    have hrun := run_of_tool hthere
    cases hinstall : (f.manifest.install f.runner).run.run f.before with
    | mk r u =>
      rw [hinstall] at hrun
      refine ⟨r, u, rfl, ?_⟩
      cases r with
      | error t =>
        rw [hrun]
        exact ⟨rfl, rfl⟩
      | ok _ =>
        dsimp only at hrun ⊢
        have hlisted := (listed_ends hout f.manifest u).after
        cases hlist : (f.manifest.listed f.runner).run.run u with
        | mk r v =>
          rw [hlist] at hrun hlisted
          obtain ⟨hcalls, hinstalled⟩ := hlisted
          cases r with
          | error t =>
            rw [hrun]
            exact ⟨hinstalled, [], .inl rfl, hcalls, fun specs h => nomatch h⟩
          | ok specs =>
            obtain ⟨hkept, later, hlater, hvendored, hok⟩ := (vendor_ends hout f.manifest specs v).after
            dsimp only at hrun hcalls
            rw [hrun]
            refine ⟨hkept.trans hinstalled, later, hlater, ?_, hok⟩
            rw [hvendored, hcalls, append_assoc]
            rfl
  · left
    have hrun := (fetch_run f.manifest f.runner f.before).trans (if_neg hthere)
    rw [hrun]
    exact ⟨hthere, rfl, _, rfl⟩

/-- A fetch that has its tool asks for an installation exactly if none is remembered. -/
theorem install_mem_issued_iff (hout : f.runner.Outside) (hthere : f.HasTool) :
    f.manifest.installCall ∈ f.issued ↔ f.manifest.key ∉ f.before.installed := by
  obtain ⟨hlist, hvendor⟩ := installCall_ne f.manifest
  have hpending : f.manifest.installCall ∈ f.manifest.pending f.before ↔
      f.manifest.key ∉ f.before.installed := by
    unfold pending
    split <;> simp_all
  rcases course hout with ⟨hmissing, -⟩ | ⟨-, r, u, hinstall, hrest⟩
  · exact absurd hthere hmissing
  have hcalls := (install_ends hout f.manifest f.before).after.1
  rw [hinstall] at hcalls
  cases r with
  | error t =>
    rw [issued_of_calls (by rw [hrest.2]; exact hcalls)]
    exact hpending
  | ok _ =>
    obtain ⟨-, later, hlater, hafter, -⟩ := hrest
    dsimp only at hcalls
    rw [hcalls, append_assoc] at hafter
    rw [issued_of_calls hafter, mem_append, hpending]
    rcases hlater with rfl | rfl <;> simp [hlist, hvendor]

/-- What is remembered after a fetch: what was before, and what the fetch has installed. -/
theorem mem_installed_after (hout : f.runner.Outside) (d : Path) :
    d ∈ f.after.installed ↔ d ∈ f.before.installed ∨ d = f.manifest.key ∧ f.Installs := by
  by_cases hthere : f.HasTool
  case neg =>
    rcases course hout with ⟨-, hafter, -⟩ | ⟨hthere', -⟩
    · have hnone : f.issued = [] := issued_of_calls (by rw [hafter]; simp)
      simp [hafter, Installs, hnone]
    · exact absurd hthere' hthere
  have hinstalls : f.Installs ↔ f.manifest.key ∉ f.before.installed ∧
      ((f.manifest.install f.runner).run.run f.before).1 = .ok () := by
    unfold Installs
    rw [install_mem_issued_iff hout hthere]
    exact and_congr_right fun hkey => (install_ok_iff hkey).symm
  rcases course hout with ⟨hmissing, -⟩ | ⟨-, r, u, hinstall, hrest⟩
  · exact absurd hthere hmissing
  have hcalled := (install_ends hout f.manifest f.before).after.2
  rw [hinstall] at hcalled hinstalls
  cases r with
  | error t =>
    rw [hrest.2, hcalled.2]
    simp [hinstalls]
  | ok _ =>
    rw [hrest.1, hcalled d, hinstalls]
    by_cases hkey : f.manifest.key ∈ f.before.installed
    · simp only [hkey, not_true, false_and, and_false, or_false, or_iff_left_iff_imp]
      rintro rfl
      exact hkey
    · simp [hkey]

theorem issued_of_ok (hout : f.runner.Outside) {specs : List Spec} (h : f.result = .ok specs) :
    f.issued = f.manifest.pending f.before ++ [f.manifest.listCall, f.manifest.vendorCall] := by
  rcases course hout with ⟨-, -, t, hfailed⟩ | ⟨-, r, u, hinstall, hrest⟩
  · rw [hfailed] at h
    cases h
  have hcalls := (install_ends hout f.manifest f.before).after.1
  rw [hinstall] at hcalls
  cases r with
  | error t =>
    rw [hrest.1] at h
    cases h
  | ok _ =>
    obtain ⟨-, later, -, hafter, hvendored⟩ := hrest
    dsimp only at hcalls
    rw [hvendored specs h, hcalls, append_assoc] at hafter
    exact issued_of_calls hafter

/-- Nothing has changed where the tool changes nothing before it vendors. -/
def Undone (f : Fetching) : Prop :=
  ∀ place, (∀ c ∈ [f.manifest.installCall, f.manifest.listCall], f.runner.Spares c place) →
    ∀ other, place <+: other → f.after.files.get? other = f.before.files.get? other

theorem stopped_installing (hout : f.runner.Outside) (hthere : f.HasTool) {t : Trouble} {u : World}
    (hinstall : (f.manifest.install f.runner).run.run f.before = (.error t, u)) :
    f.result = .error t ∧ f.issued = f.manifest.pending f.before ∧ f.Undone := by
  have hrun : (f.manifest.fetch f.runner).run.run f.before = (.error t, u) := by
    rw [run_of_tool hthere, hinstall]
  have hafter : f.after = u := by rw [after, hrun]
  have hcalls := (install_ends hout f.manifest f.before).after.1
  rw [hinstall] at hcalls
  refine ⟨by rw [result, hrun], issued_of_calls (by rw [hafter]; exact hcalls),
    fun place hspares other hother => ?_⟩
  have hkept := (install_spares (hspares f.manifest.installCall (by simp)) f.before).after other hother
  rw [hinstall] at hkept
  rw [hafter]
  exact hkept

theorem stopped_listing (hout : f.runner.Outside) (hthere : f.HasTool) {t : Trouble} {u v : World}
    (hinstall : (f.manifest.install f.runner).run.run f.before = (.ok (), u))
    (hlist : (f.manifest.listed f.runner).run.run u = (.error t, v)) :
    f.result = .error t ∧ f.issued = f.manifest.pending f.before ++ [f.manifest.listCall] ∧
    f.Undone := by
  have hrun : (f.manifest.fetch f.runner).run.run f.before = (.error t, v) := by
    rw [run_of_tool hthere, hinstall]
    dsimp only
    rw [hlist]
  have hafter : f.after = v := by rw [after, hrun]
  have hcalls := (install_ends hout f.manifest f.before).after.1
  have hlisted := (listed_ends hout f.manifest u).after.1
  rw [hinstall] at hcalls
  rw [hlist] at hlisted
  dsimp only at hcalls hlisted
  refine ⟨by rw [result, hrun], issued_of_calls ?_, fun place hspares other hother => ?_⟩
  · rw [hafter, hlisted, hcalls, append_assoc]
  · have hkept := (install_spares (hspares f.manifest.installCall (by simp)) f.before).after other hother
    have hkept' := (listed_spares (hspares f.manifest.listCall (by simp)) u).after other hother
    rw [hinstall] at hkept
    rw [hlist] at hkept'
    rw [hafter]
    exact hkept'.trans hkept

theorem stopped (hout : f.runner.Outside) {t : Trouble} {calls : List Command}
    (h : f.Stops t calls) : f.result = .error t ∧ f.issued = calls ∧ f.Undone := by
  cases h with
  | @install t u hthere hnew hfail =>
    have hpending : f.manifest.pending f.before = [f.manifest.installCall] := if_neg hnew
    have hinstall : (f.manifest.install f.runner).run.run f.before = (.error t, u) := by
      rw [install_run, if_neg hnew, hfail]
    rw [← hpending]
    exact stopped_installing hout hthere hinstall
  | @list t u v hthere hinstall hfail =>
    have hlist : (f.manifest.listed f.runner).run.run u = (.error t, v) := by rw [listed_run, hfail]
    exact stopped_listing hout hthere hinstall hlist
  | @unreadable output u v hthere hinstall houtput hfail =>
    have hlist : (f.manifest.listed f.runner).run.run u = (.error f.manifest.unreadable, v) := by
      rw [listed_run, houtput]
      dsimp only
      rw [hfail]
    exact stopped_listing hout hthere hinstall hlist

/-- Fetches that follow one another in a process. What is remembered as installed goes from each to
the next; everything else may have changed in between. -/
inductive Process : List Path → List Fetching → Prop
  | nil {installed : List Path} : Process installed []
  | cons {installed : List Path} {f : Fetching} {fs : List Fetching} (hbefore : f.before.installed = installed)
    (hrest : Process f.after.installed fs) : Process installed (f :: fs)

/-- What a fetch finds installed is what was at first and what the fetches before it
have installed. -/
theorem mem_installed_before {installed : List Path} {past future : List Fetching}
    (h : Process installed (past ++ f :: future)) (hout : ∀ g ∈ past, g.runner.Outside) (d : Path) :
    d ∈ f.before.installed ↔ d ∈ installed ∨ ∃ g ∈ past, g.manifest.key = d ∧ g.Installs := by
  induction past generalizing installed with
  | nil =>
    cases h with
    | cons hbefore hrest => simp [hbefore]
  | cons g past ih =>
    cases h with
    | cons hbefore hrest =>
      have hlater := ih hrest fun g' hg' => hout g' (mem_cons_of_mem _ hg')
      rw [hlater, mem_installed_after (hout g mem_cons_self), hbefore]
      simp only [mem_cons, exists_eq_or_imp, or_assoc, @eq_comm _ d]

/-- In a process that starts with nothing installed, a fetch that has its tool asks for an
installation exactly if none before it has installed for the same directory. A step that fails ends
its fetch, before the vendor directory is touched; and what is fetched has been listed and then
vendored. -/
theorem installs_until_done {fs : List Fetching} (hprocess : Process [] fs)
    (hout : ∀ f ∈ fs, f.runner.Outside) : (∀ past f future, fs = past ++ f :: future → f.HasTool →
      (f.manifest.installCall ∈ f.issued ↔
      ¬ ∃ g ∈ past, g.manifest.key = f.manifest.key ∧ g.Installs)) ∧
    ∀ f ∈ fs,
      (∀ t calls, f.Stops t calls → f.result = .error t ∧ f.issued = calls ∧ f.Undone) ∧
      ∀ specs, f.result = .ok specs →
        f.issued = f.manifest.pending f.before ++ [f.manifest.listCall, f.manifest.vendorCall] := by
  constructor
  · rintro past f future rfl hthere
    have hpast : ∀ g ∈ past, g.runner.Outside := fun g hg => hout g (mem_append_left _ hg)
    rw [install_mem_issued_iff (hout f (by simp)) hthere, mem_installed_before hprocess hpast]
    simp
  · intro f hf
    exact ⟨fun t calls h => stopped (hout f hf) h, fun specs h => issued_of_ok (hout f hf) h⟩

section Sample

def berks (fails : Bool) : Runner where
  available _ _ := true
  run c := ExceptT.mk (pure (if fails then .error (.ofFailure (.toolFailed c.program c.operation "" none))
    else .ok ⟨if c.operation = "list" then "\x7b\x7d" else "", ""⟩))

def bare : World := ⟨⟨[(["web"], .directory)]⟩, [], [], [], []⟩

def failing : Fetching := ⟨⟨⟨"/web"⟩, ⟨"berks", 1000, "vendor"⟩⟩, berks true, bare⟩

def installing : Fetching := { failing with runner := berks false, before := failing.after }

/-- A fetch for the same directory, which is written in another way. -/
def skipping : Fetching := ⟨⟨⟨"/web/."⟩, ⟨"berks", 1000, "vendor"⟩⟩, berks false, installing.after⟩

theorem berks_outside (fails : Bool) : (berks fails).Outside := fun _ _ => rfl

/-- An installation is asked for until it succeeds: twice where it fails at first, and not a third
time. -/
theorem web_installed_once :
    failing.Stops (.ofFailure (.toolFailed "berks" "install" "" none)) [failing.manifest.installCall] ∧
    failing.issued = [failing.manifest.installCall] ∧ failing.Undone ∧
    installing.manifest.installCall ∈ installing.issued ∧ installing.Installs ∧
    skipping.manifest.key = installing.manifest.key ∧
    skipping.manifest.installCall ∉ skipping.issued ∧
    skipping.issued = [skipping.manifest.listCall, skipping.manifest.vendorCall] := by
  have hprocess : Process [] [failing, installing, skipping] :=
    .cons rfl (.cons rfl (.cons rfl .nil))
  have hout : ∀ f ∈ [failing, installing, skipping], f.runner.Outside := by
    simp [failing, installing, skipping, berks_outside]
  obtain ⟨hasked, hended⟩ := installs_until_done hprocess hout
  have hstops : failing.Stops (.ofFailure (.toolFailed "berks" "install" "" none))
      [failing.manifest.installCall] :=
    .install rfl (by decide) rfl
  obtain ⟨-, hissued, hundone⟩ := (hended failing (by simp)).1 _ _ hstops
  have hfirst : ¬ failing.Installs := by
    rintro ⟨-, output, houtput⟩
    cases houtput
  have hsecond : installing.manifest.installCall ∈ installing.issued := by
    rw [hasked [failing] installing [skipping] rfl rfl]
    simp [hfirst]
  have hinstalls : installing.Installs := ⟨hsecond, _, rfl⟩
  have hkey : skipping.manifest.key = installing.manifest.key := by decide
  have hthird : skipping.manifest.installCall ∉ skipping.issued := by
    rw [hasked [failing, installing] skipping [] rfl rfl, not_not]
    exact ⟨installing, by simp, hkey.symm, hinstalls⟩
  have hok : skipping.result = .ok [] := Act.ok_of_toOption (by decide +kernel)
  have hpending : skipping.manifest.pending skipping.before = [] := by decide +kernel
  have hcalls := (hended skipping (by simp)).2 [] hok
  rw [hpending] at hcalls
  exact ⟨hstops, hissued, hundone, hsecond, hinstalls, hkey, hthird, hcalls⟩

end Sample

end Fetching
end Manifest
end CookbookAtlas.Strategy
