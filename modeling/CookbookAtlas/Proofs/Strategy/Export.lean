import CookbookAtlas.Proofs.Dependency.Closure
import CookbookAtlas.Proofs.Tool.Runner
import CookbookAtlas.Strategy.Policy

/-! Getting the dependencies of a policy onto disk. The tool exports to a staging directory, and
the export directory is replaced only when it is done: a tool that fails changes nothing there,
and after a success nothing of an earlier export is left. -/
namespace CookbookAtlas

open List Files World Act Tool Dependency

open Lock (Registry Record)
open Relation (TransGen)

variable {other : Place} {p : Strategy.Policy} {r : Registry} {v w : World}

/-- What the lock makes a cookbook need: the locked cookbooks that locked cookbooks lead to from
it, or all of them if it is not locked; never itself. -/
def Lock.Registry.Needs (r : Registry) (own : String) (record : Record) : Prop :=
  r.get? record.name = some record ∧ record.name ≠ own ∧
  ((r.get? own).isSome → TransGen r.LockedStep own record.name)

namespace Strategy

theorem keyed_of_loadLock {path : Path} (h : loadLock w path = .ok r) : r.Keyed := by
  unfold loadLock at h
  split at h
  · cases h
  · split at h
    · cases h
    · rename_i registry hread
      cases h
      have hkeyed := Registry.keyed_of_read hread
      exact ⟨hkeyed.cookbooks_sorted, hkeyed.record_name, hkeyed.edges_sorted, hkeyed.edge_cookbook⟩

/-- What can be loaded is loaded from any world where the lock reads the same. -/
theorem loadLock_of_text {u : World} {path : Path}
    (h : ∀ cs, u.text path = .ok cs → v.text path = .ok cs)
    (hload : loadLock u path = .ok r) : loadLock v path = .ok r := by
  unfold loadLock at hload ⊢
  cases htext : u.text path with
  | error fault => simp [htext] at hload
  | ok cs =>
    rw [h cs htext]
    rwa [htext] at hload

section Staging

theorem stagingDir_straight : stagingDir.Straight :=
  ⟨⟨"/"⟩, ".cookbook-staging", by decide, by decide, by decide⟩

@[simp] theorem spot_stagingDir (w : World) : w.spot stagingDir = [".cookbook-staging"] := by
  have hnames : stagingDir.names = [".cookbook-staging"] := by decide
  rw [World.spot, World.base, if_pos (by decide), hnames]
  rfl

variable {place : Place}

/-- What lies below a place that is not in the staging directory is not there either. -/
theorem not_staged (hne : place ≠ []) (hapart : ¬ [".cookbook-staging"] <+: place)
    (hother : place <+: other) : ¬ [".cookbook-staging"] <+: other := by
  intro hstaged
  rcases prefix_or_prefix_of_prefix hstaged hother with hin | hout
  · exact hapart hin
  · rcases prefix_cons_iff.1 hout with rfl | ⟨up, rfl, hup⟩
    · exact hne rfl
    · rw [prefix_nil.1 hup] at hapart
      exact hapart (prefix_refl _)

/-- Making the staging directory leaves other places alone, and there is nothing in it. -/
theorem makeStaging_ends (hne : place ≠ []) (hapart : ¬ [".cookbook-staging"] <+: place)
    (w : World) : Ends makeStaging w fun r w' => w.Keeps place w' ∧
      (r = .ok () → w.files.Proper → ∀ rel, rel ≠ [] →
      w'.files.get? (".cookbook-staging" :: rel) = none) := by
  apply Ends.get
  by_cases hhas : w.has stagingDir = true
  · rw [if_pos hhas]
    exact .throw ⟨.refl w place, fun h => (nomatch h)⟩
  · rw [if_neg hhas]
    refine (ensureDirectory_ends w stagingDir_straight).weaken ?_
    rintro r w' ⟨hextended, -, -⟩
    have honly : ∀ other, other ≠ w.spot stagingDir → w'.files.get? other = w.files.get? other := by
      intro other hother
      refine hextended.kept other fun pre hpre hpne he => absurd ?_ hother
      have hall : pre = stagingDir.names := by
        rcases prefix_cons_iff.1 hpre with hnil | ⟨up, rfl, hup⟩
        · exact absurd hnil hpne
        · rw [prefix_nil.1 hup]
          rfl
      rw [he, hall]
      rfl
    rw [spot_stagingDir] at honly
    refine ⟨⟨fun other hother => honly other ?_, hextended.proper, by rw [hextended.rest]⟩,
      fun _ hw rel hrel => ?_⟩
    · rintro rfl
      exact not_staged hne hapart hother (prefix_refl _)
    · have hnone : w.files.get? [".cookbook-staging"] = none := by
        by_contra hsome
        obtain ⟨e, he⟩ := Option.ne_none_iff_exists'.1 hsome
        have hentry := entry_of_get? hw stagingDir_straight (by rw [spot_stagingDir]; exact he)
        simp [World.has, hentry, Except.toOption] at hhas
      rw [honly _ (by simpa using hrel)]
      exact hw.none_under hnone (cons_prefix_cons.2 ⟨rfl, nil_prefix⟩)

/-- What is not in the staging directory is still there when that is removed. -/
theorem removeStaging_ends (w : World) (hother : ¬ [".cookbook-staging"] <+: other) :
    Ends (removeDirectory stagingDir) w fun _ w' => w'.files.get? other = w.files.get? other := by
  refine (removeDirectory_ends w stagingDir).weaken fun r w' hswept => ?_
  by_cases hdir : ∃ place, w.DirectoryAt stagingDir place
  · obtain ⟨place, hplace⟩ := hdir
    have hspot : place = w.spot stagingDir :=
      ((place_iff stagingDir_straight.text_ne stagingDir_straight.up stagingDir_straight.names_ne).1 hplace.1).1
    rw [spot_stagingDir] at hspot
    exact (hswept.emptied place hplace).outside other (hspot ▸ hother)
  · rw [hswept.unchanged (not_exists.1 hdir)]

/-- A body that is run with a staging directory: the directory is made before and removed after
it, whatever comes of it. -/
theorem withStaging_run {α : Type} (body : Path → Act α) (w : World) :
    (withStaging body).run.run w =
      match makeStaging.run.run w with
      | (.ok (), w₁) =>
        (((body stagingDir).run.run w₁).1,
          ((removeDirectory stagingDir).run.run ((body stagingDir).run.run w₁).2).2)
      | (.error t, w₁) => (.error t, w₁) := by
  rw [withStaging, run_bind]
  generalize makeStaging.run.run w = made
  obtain ⟨r, w₁⟩ := made
  cases r <;> rfl

theorem ok_of_withStaging {α : Type} {body : Path → Act α} {w' : World} {a : α}
    (h : (withStaging body).run.run w = (.ok a, w')) :
    ∃ w₁ w₂, makeStaging.run.run w = (.ok (), w₁) ∧ (body stagingDir).run.run w₁ = (.ok a, w₂) ∧
      w' = ((removeDirectory stagingDir).run.run w₂).2 := by
  rw [withStaging_run] at h
  cases hmade : makeStaging.run.run w with
  | mk r w₁ =>
    rw [hmade] at h
    cases r with
    | ok made =>
      obtain ⟨hresult, rfl⟩ := Prod.mk.inj h
      exact ⟨w₁, _, rfl, Prod.ext hresult rfl, rfl⟩
    | error t => cases (Prod.mk.inj h).1

end Staging
end Strategy

namespace Strategy.Policy

theorem load_eq_ok_iff {cookbookDir lockPath : Path} {setup : Setup} :
    load w cookbookDir lockPath setup = .ok p ↔
      loadLock w lockPath = .ok p.registry ∧
      p = ⟨cookbookDir, lockPath, lockPath.parent?.getD ⟨""⟩, p.registry, setup⟩ := by
  unfold load
  cases loadLock w lockPath with
  | error t => simp
  | ok registry =>
    constructor
    · intro h
      cases h
      exact ⟨rfl, rfl⟩
    · rintro ⟨hregistry, hp⟩
      obtain rfl := Except.ok.inj hregistry
      exact congrArg Except.ok hp.symm

theorem mem_considered_iff (h : r.Keyed) {own : String} {record : Record} :
    record ∈ (if (r.get? own).isSome then dependenciesOf r own else r.records) ↔
      r.get? record.name = some record ∧
      ((r.get? own).isSome → TransGen r.LockedStep own record.name) := by
  by_cases hown : (r.get? own).isSome = true
  · rw [if_pos hown, mem_dependenciesOf_iff h]
    simp [hown]
  · rw [if_neg hown, h.mem_records_iff]
    simp [hown]

/-- The dependencies that are told are those that the lock makes the cookbook need. -/
theorem mem_dependencies_iff (h : p.registry.Keyed) (w : World) {spec : Spec} :
    spec ∈ p.dependencies w ↔ ∃ record, p.registry.Needs (p.name w) record ∧
    spec = specOf record := by
  unfold dependencies Registry.Needs
  rw [mem_map]
  refine exists_congr fun record => ?_
  rw [mem_filter, mem_considered_iff h, bne_iff_ne, eq_comm]
  tauto

theorem nodup_dependencies (h : p.registry.Keyed) (w : World) :
    ((p.dependencies w).map Spec.name).Nodup := by
  have hnodup : ∀ records : List Record, (records.map Record.name).Nodup →
      (((records.filter fun r => r.name != p.name w).map specOf).map Spec.name).Nodup := by
    intro records hrecords
    rw [map_map]
    exact hrecords.sublist (filter_sublist.map Record.name)
  apply hnodup
  split
  · rw [map_name_dependenciesOf h]
    exact nodup_closureFrom h.cookbooks_sorted.nodup _
  · exact h.nodup_records

section Fetch

variable (p : Policy) (runner : Runner)

def installCall : Command := p.command ["install", policyName]

def exportCall (target : String) : Command :=
  p.command ["export", target, (stagingDir.child p.setup.scratchDir).text, "--force"]

def toolCalls : List Command := p.installCall :: [policyName, lockName].map p.exportCall

/-- The runner leaves a place alone when the policy calls its tool. -/
structure Leaves (place : Place) : Prop where
  outside : runner.Outside
  spares : ∀ c ∈ p.toolCalls, runner.Spares c place
  orderly : ∀ c ∈ p.toolCalls, runner.Orderly c

variable {p runner} in
theorem Leaves.call_keeps {place : Place} (h : p.Leaves runner place) {c : Command}
    (hc : c ∈ p.toolCalls) (w : World) : Ends (runner.call c) w fun _ w' => w.Keeps place w' :=
  Runner.call_keeps h.outside (h.spares c hc) (h.orderly c hc) w

/-- What there is to export from: a policy that the tool has installed, or the lock if there is no
policy beside it. -/
inductive Installed (w : World) : String → World → Prop
  | policy {output : Output} {w₁ : World} (hpolicy : w.isFile (p.policyDir.child policyName) = true)
    (h : (runner.call p.installCall).run.run w = (.ok output, w₁)) : Installed w policyName w₁
  | lock (hpolicy : w.isFile (p.policyDir.child policyName) = false) : Installed w lockName w

/-- The tool does its work: it is there, it installs, and when it is asked to export in `before`,
it leaves `after`. -/
def Exported (w before after : World) : Prop :=
  runner.available w p.setup.tool = true ∧
  ∃ target installed output, p.Installed runner w target installed ∧
    makeStaging.run.run installed = (.ok (), before) ∧
    (runner.call (p.exportCall target)).run.run before = (.ok output, after)

/-- The tool is missing, or fails to install or to export. -/
inductive ToolFails (w : World) : Trouble → Prop
  | missing (h : runner.available w p.setup.tool = false) :
    ToolFails w (.ofFailure (.toolNotFound p.setup.tool))
  | installing {t : Trouble} {w₁ : World} (hthere : runner.available w p.setup.tool = true)
    (hpolicy : w.isFile (p.policyDir.child policyName) = true)
    (h : (runner.call p.installCall).run.run w = (.error t, w₁)) : ToolFails w t
  | exporting {t : Trouble} {target : String} {w₁ w₂ w₃ : World}
    (hthere : runner.available w p.setup.tool = true) (hinstalled : p.Installed runner w target w₁)
    (hstaging : makeStaging.run.run w₁ = (.ok (), w₂))
    (h : (runner.call (p.exportCall target)).run.run w₂ = (.error t, w₃)) : ToolFails w t

theorem install_run (w : World) :
    (p.install runner).run.run w =
      if w.isFile (p.policyDir.child policyName) then
        (((runner.call p.installCall).run.run w).1.map fun _ => policyName,
          ((runner.call p.installCall).run.run w).2)
      else (.ok lockName, w) := by
  change (if w.isFile (p.policyDir.child policyName) = true then _ else _ : Act String).run.run w =
    _
  split
  · rw [run_bind, installCall]
    generalize (runner.call (p.command ["install", policyName])).run.run w = called
    obtain ⟨r, w₁⟩ := called
    cases r <;> rfl
  · rfl

theorem exportTo_run (target : String) (w : World) :
    (p.exportTo runner target stagingDir).run.run w =
      (((runner.call (p.exportCall target)).run.run w).1.map fun _ => stagingDir.child p.setup.scratchDir,
        ((runner.call (p.exportCall target)).run.run w).2) := by
  rw [exportTo, run_bind, exportCall]
  generalize (runner.call (p.command _)).run.run w = called
  obtain ⟨r, w₁⟩ := called
  cases r <;> rfl

variable {p runner} in
theorem install_eq_ok_iff {w w₁ : World} {target : String} :
    (p.install runner).run.run w = (.ok target, w₁) ↔ p.Installed runner w target w₁ := by
  rw [install_run]
  constructor
  · intro h
    split at h
    · rename_i hpolicy
      cases hcall : (runner.call p.installCall).run.run w with
      | mk r after =>
        rw [hcall] at h
        obtain ⟨hr, rfl⟩ := Prod.mk.inj h
        cases r with
        | error t => cases hr
        | ok output =>
          cases hr
          exact .policy hpolicy hcall
    · rename_i hpolicy
      cases h
      exact .lock (by simpa using hpolicy)
  · rintro (⟨hpolicy, h⟩ | hpolicy)
    · rw [if_pos hpolicy, h]
      rfl
    · rw [if_neg (by simp [hpolicy])]

variable {p runner} in
theorem call_of_exportTo {w w₁ : World} {target : String} {staged : Path}
    (h : (p.exportTo runner target stagingDir).run.run w = (.ok staged, w₁)) :
    staged = stagingDir.child p.setup.scratchDir ∧
      ∃ output, (runner.call (p.exportCall target)).run.run w = (.ok output, w₁) := by
  rw [exportTo_run] at h
  cases hcall : (runner.call (p.exportCall target)).run.run w with
  | mk r after =>
    rw [hcall] at h
    obtain ⟨hr, rfl⟩ := Prod.mk.inj h
    cases r with
    | error t => cases hr
    | ok output =>
      cases hr
      exact ⟨rfl, output, rfl⟩

variable {p runner} {place : Place} {w : World}

theorem Installed.keeps {target : String} {w₁ : World} (hinstalled : p.Installed runner w target w₁)
    (h : p.Leaves runner place) : (target = policyName ∨ target = lockName) ∧ w.Keeps place w₁ := by
  cases hinstalled with
  | policy hpolicy hcall =>
    have hkeeps := (h.call_keeps mem_cons_self w).after
    rw [hcall] at hkeeps
    exact ⟨.inl rfl, hkeeps⟩
  | lock hpolicy => exact ⟨.inr rfl, .refl w place⟩

theorem Leaves.export_keeps (h : p.Leaves runner place) {target : String}
    (htarget : target = policyName ∨ target = lockName) (w : World) :
    w.Keeps place ((runner.call (p.exportCall target)).run.run w).2 := by
  refine (h.call_keeps (c := p.exportCall target) ?_ w).after
  rcases htarget with rfl | rfl <;> simp [toolCalls]

theorem fetch_run (p : Policy) (runner : Runner) (w : World) :
    (p.fetch runner).run.run w =
      if runner.available w p.setup.tool then
        match (p.install runner).run.run w with
        | (.ok target, w₁) =>
          (withStaging fun staging => p.exportTo runner target staging >>= p.adopt).run.run w₁
        | (.error t, w₁) => (.error t, w₁)
      else (.error (.ofFailure (.toolNotFound p.setup.tool)), w) := by
  rw [fetch, run_bind, Runner.require_run]
  by_cases hthere : runner.available w p.setup.tool = true
  · rw [if_pos hthere, if_pos hthere]
    dsimp only
    rw [run_bind]
    generalize (p.install runner).run.run w = installed
    obtain ⟨r, w₁⟩ := installed
    cases r <;> rfl
  · rw [if_neg hthere, if_neg hthere]

/-- Up to the export nothing happens at other places, and the staging directory is empty. -/
theorem staged_keeps (h : p.Leaves runner place) (hne : place ≠ [])
    (hapart : ¬ [".cookbook-staging"] <+: place)
    {target : String} {w₁ w₂ : World} (hinstalled : p.Installed runner w target w₁)
    (hstaging : makeStaging.run.run w₁ = (.ok (), w₂)) :
    (target = policyName ∨ target = lockName) ∧ w.Keeps place w₂ ∧
    (w.files.Proper → ∀ rel, rel ≠ [] → w₂.files.get? (".cookbook-staging" :: rel) = none) := by
  obtain ⟨htarget, hkeeps⟩ := hinstalled.keeps h
  have hmade := (makeStaging_ends hne hapart w₁).after
  rw [hstaging] at hmade
  exact ⟨htarget, hkeeps.trans hmade.1, fun hw => hmade.2 rfl (hkeeps.proper hw)⟩

/-- A failing tool leaves other places than the staging directory alone. -/
theorem fetch_of_toolFails (h : p.Leaves runner place) (hne : place ≠ [])
    (hapart : ¬ [".cookbook-staging"] <+: place) {t : Trouble} (hfails : p.ToolFails runner w t) :
    ∃ w', (p.fetch runner).run.run w = (.error t, w') ∧
      ∀ other, place <+: other → w'.files.get? other = w.files.get? other := by
  rw [fetch_run]
  cases hfails with
  | missing hmissing => exact ⟨w, by simp [hmissing], fun _ _ => rfl⟩
  | @installing t w₁ hthere hpolicy hfail =>
    have hkeeps := (h.call_keeps mem_cons_self w).after
    rw [hfail] at hkeeps
    rw [if_pos hthere, install_run, if_pos hpolicy, hfail]
    exact ⟨w₁, rfl, hkeeps.kept⟩
  | @exporting t target w₁ w₂ w₃ hthere hinstalled hstaging hfail =>
    obtain ⟨htarget, hkeeps, -⟩ := staged_keeps h hne hapart hinstalled hstaging
    have hcalled := h.export_keeps htarget w₂
    rw [hfail] at hcalled
    rw [if_pos hthere, install_eq_ok_iff.mpr hinstalled]
    dsimp only
    rw [withStaging_run, hstaging]
    dsimp only
    rw [run_bind, exportTo_run, hfail]
    refine ⟨_, rfl, fun other hother => ?_⟩
    have hdropped := (removeStaging_ends w₃ (not_staged hne hapart hother)).after
    exact hdropped.trans ((hkeeps.trans hcalled).kept other hother)

/-- Where getting the dependencies succeeds, the tool has done its work and the export has been
taken over. -/
theorem exported_of_fetch {p' : Policy} {specs : List Spec} {w' : World}
    (hfetch : (p.fetch runner).run.run w = (.ok (p', specs), w')) :
    ∃ before after told, p.Exported runner w before after ∧
      (p.adopt (stagingDir.child p.setup.scratchDir)).run.run after = (.ok (p', specs), told) ∧
      w' = ((removeDirectory stagingDir).run.run told).2 := by
  obtain ⟨_, w₀, hrequire, hfetch⟩ := ok_of_bind hfetch
  obtain ⟨hthere, rfl⟩ : runner.available w p.setup.tool = true ∧ w = w₀ := by
    rw [Runner.require_run] at hrequire
    obtain ⟨hr, hw⟩ := Prod.mk.inj hrequire
    refine ⟨?_, hw⟩
    by_contra hmissing
    rw [if_neg hmissing] at hr
    cases hr
  obtain ⟨target, w₁, hinstall, hfetch⟩ := ok_of_bind hfetch
  obtain ⟨before, told, hstaging, hbody, hw'⟩ := ok_of_withStaging hfetch
  obtain ⟨staged, after, htool, hadopt⟩ := ok_of_bind hbody
  obtain ⟨rfl, output, hcall⟩ := call_of_exportTo htool
  have hinstalled := install_eq_ok_iff.mp hinstall
  exact ⟨before, after, told, ⟨hthere, target, w₁, output, hinstalled, hstaging, hcall⟩, hadopt, hw'⟩

/-- The export directory is replaced by what was staged, and beside it there are new directories
at most. -/
theorem takeExport_ends (hv : v.files.Proper) (hexport : p.exportDir.Straight) {staged : Path}
    (hstaged : staged.Straight) (hin : ¬ v.spot staged <+: v.spot p.exportDir)
    (hout : ∀ rel, ¬ v.spot p.exportDir <+: v.spot staged ++ rel) :
    Ends (p.takeExport staged) v fun r u => r = .ok () →
      v.files.get? (v.spot staged) = some .directory ∧
      (∀ rel, u.files.get? (v.spot p.exportDir ++ rel) = v.files.get? (v.spot staged ++ rel)) ∧
      (∀ other, ¬ v.spot p.exportDir <+: other → u.files.get? other = v.files.get? other ∨
        v.files.get? other = none ∧ u.files.get? other = some .directory) ∧
      u = { v with files := u.files } := by
  refine .bind ((removeDirectory_straight hv hexport).weaken ?_)
  rintro (t | ⟨⟩) v₁ hremoved
  · exact fun h => (nomatch h)
  obtain ⟨hget, hv₁, hrest⟩ := hremoved rfl
  have hspot : ∀ q, v₁.spot q = v.spot q := fun q => by rw [hrest]; rfl
  have hgone : v₁.files.get? (v₁.spot p.exportDir) = none := by
    rw [hspot, hget, if_pos (prefix_refl _)]
  have hstill : ∀ rel, v₁.files.get? (v.spot staged ++ rel) =
      v.files.get? (v.spot staged ++ rel) := by
    intro rel
    rw [hget, if_neg (hout rel)]
  refine .tryCatch ((copyDirectory_ends hv₁ hstaged hexport (by rwa [hspot, hspot]) hgone).weaken ?_)
  rintro (t | ⟨⟩) u hcopied
  · exact .throw fun h => (nomatch h)
  rw [hspot, hspot] at hcopied
  obtain ⟨hdir, hcontent, helse, hu⟩ := hcopied rfl
  refine fun _ => ⟨?_, fun rel => ?_, fun other hother => ?_, by rw [hu, hrest]⟩
  · simpa using (hstill []).symm.trans (by simpa using hdir)
  · rw [hcontent, hstill]
  · have hsame : v₁.files.get? other = v.files.get? other := by rw [hget, if_neg hother]
    rw [← hsame]
    exact helse other hother

theorem reload_ends (w : World) :
    Ends p.reload w fun r w' => w' = w ∧ ∀ p', r = .ok p' →
      loadLock w p.lockPath = .ok p'.registry ∧ p' = { p with registry := p'.registry } := by
  apply Ends.get
  cases hload : loadLock w p.lockPath with
  | error t => exact .throw ⟨rfl, fun p' h => (nomatch h)⟩
  | ok registry =>
    refine .pure ⟨rfl, fun p' h => ?_⟩
    obtain rfl := Except.ok.inj h
    exact ⟨rfl, rfl⟩

/-- What is taken over is what was staged, and the policy as it was locked before. -/
theorem adopt_ends (hv : v.files.Proper) (hexport : p.exportDir.Straight)
    (hlock : p.lockPath.Straight)
    (hbeside : v.spot p.exportDir <+: v.spot p.lockPath → v.spot p.exportDir = v.spot p.lockPath)
    {staged : Path} (hstaged : staged.Straight) (hin : ¬ v.spot staged <+: v.spot p.exportDir)
    (hout : ∀ rel, ¬ v.spot p.exportDir <+: v.spot staged ++ rel) :
    Ends (p.adopt staged) v fun r u => ∀ p' specs, r = .ok (p', specs) →
      (∀ rel, u.files.get? (v.spot p.exportDir ++ rel) = v.files.get? (v.spot staged ++ rel)) ∧
      loadLock v p.lockPath = .ok p'.registry ∧ p' = { p with registry := p'.registry } ∧
      specs = p'.dependencies u := by
  refine .bind ((takeExport_ends hv hexport hstaged hin hout).weaken ?_)
  rintro (t | ⟨⟩) u htaken
  · exact fun p' specs h => (nomatch h)
  obtain ⟨hdir, hcontent, helse, hu⟩ := htaken rfl
  have hspot : u.spot p.lockPath = v.spot p.lockPath := by rw [hu]; rfl
  -- a lock that can be read is not the export, and was there before it
  have hfile : ∀ bytes executable,
      u.files.get? (u.spot p.lockPath) = some (.file bytes executable) →
      v.files.get? (v.spot p.lockPath) = some (.file bytes executable) := by
    intro bytes executable hread
    rw [hspot] at hread
    by_cases hpre : v.spot p.exportDir <+: v.spot p.lockPath
    · have hexported : u.files.get? (v.spot p.exportDir) = v.files.get? (v.spot staged) := by
        simpa using hcontent []
      rw [← hbeside hpre, hexported, hdir] at hread
      cases hread
    · rcases helse _ hpre with hsame | ⟨-, hnew⟩
      · rw [← hsame, hread]
      · rw [hnew] at hread
        cases hread
  refine .bind ((reload_ends u).weaken ?_)
  rintro (t | q) u' ⟨rfl, hloaded⟩
  · exact fun p' specs h => (nomatch h)
  obtain ⟨hregistry, hq⟩ := hloaded q rfl
  refine .get (.pure fun p' specs h => ?_)
  obtain ⟨rfl, rfl⟩ := Prod.mk.inj (Except.ok.inj h)
  refine ⟨hcontent, ?_, hq, rfl⟩
  exact loadLock_of_text (fun cs htext => text_of_file hv hlock hfile htext) hregistry

theorem beside_of_load {w₀ : World} (hload : load w₀ p.cookbookDir p.lockPath p.setup = .ok p)
    (hlock : p.lockPath.Straight) (hname : Path.IsName p.setup.scratchDir) :
    p.exportDir.Straight ∧
    ∀ w : World, w.spot p.exportDir <+: w.spot p.lockPath →
    w.spot p.exportDir = w.spot p.lockPath := by
  obtain ⟨dir, file, hpath, hfile, hup⟩ := hlock
  obtain ⟨q, hparent, hq⟩ := Path.parent?_child dir hfile
  have hdir : p.policyDir = q := by
    rw [(load_eq_ok_iff.1 hload).2, hpath, hparent]
    rfl
  refine ⟨⟨q, p.setup.scratchDir, by rw [exportDir, hdir], hname, by rw [hq]; exact hup⟩,
    fun w hpre => ?_⟩
  rw [exportDir, hdir, hpath, spot_child w q hname, spot_child w dir hfile, spot_congr w hq] at hpre ⊢
  exact hpre.eq_of_length (by simp)

/-- The policy to go on with: the one that was got, or the one there was. -/
def next (p : Policy) : Except Trouble (Policy × List Spec) → Policy
  | .ok (p', _) => p'
  | .error _ => p

/-- Acts with a policy that is kept in a variable, where it stays after a failure. -/
abbrev Held := ExceptT Trouble (StateM (World × Policy))

namespace Held

def ofAct {α : Type} (x : Act α) : Held α := fun s => ((x s.1).1, ((x s.1).2, s.2))

/-- Reads the lock again, assigns what was read, and tells the dependencies by it. -/
def relock : Held (List Spec) := do
  let (w, p) ← get
  match loadLock w p.lockPath with
  | .error t => throw t
  | .ok registry =>
    set (w, { p with registry })
    let (w, p) ← get
    return p.dependencies w

def withStaging {α : Type} (body : Path → Held α) : Held α := do
  ofAct makeStaging
  fun s =>
    let (result, after) := (body stagingDir) s
    (result, (((removeDirectory stagingDir : Act Unit) after.1).2, after.2))

def exportAs (p : Policy) (runner : Runner) (target : String) (staging : Path) :
    Held (List Spec) := do
  let staged ← ofAct (p.exportTo runner target staging)
  ofAct (p.takeExport staged)
  relock

def fetchAs (p : Policy) (runner : Runner) : Held (List Spec) := do
  ofAct (runner.require p.setup.tool)
  let target ← ofAct (p.install runner)
  withStaging (exportAs p runner target)

def fetch (runner : Runner) : Held (List Spec) := do
  let s ← get
  fetchAs s.2 runner

/-- The variable is assigned exactly when the act that returns the policy succeeds. -/
def Follows (p : Policy) (x : Held (List Spec)) (y : Act (Policy × List Spec)) : Prop :=
  ∀ w, x.run.run (w, p) =
    ((y.run.run w).1.map Prod.snd, ((y.run.run w).2, p.next (y.run.run w).1))

theorem Follows.bind {α : Type} {f : α → Held (List Spec)}
    {g : α → Act (Policy × List Spec)} (h : ∀ a, Follows p (f a) (g a)) (x : Act α) :
    Follows p (ofAct x >>= f) (x >>= g) := by
  intro w
  have hfirst : (ofAct x).run.run (w, p) = ((x.run.run w).1, ((x.run.run w).2, p)) := rfl
  rw [ExceptT.run_bind, StateT.run_bind, hfirst, run_bind]
  obtain ⟨r, w₁⟩ := x.run.run w
  cases r with
  | ok a => exact h a w₁
  | error t => rfl

theorem run_get {α : Type} (f : World × Policy → Held α) (s : World × Policy) :
    (get >>= f).run.run s = (f s).run.run s := rfl

theorem follows_relock (p : Policy) :
    Follows p relock (p.reload >>= fun q => do let w ← get; return (q, q.dependencies w)) := by
  intro w
  have hread : ∀ f : World → Act Policy, (get >>= f).run.run w = (f w).run.run w := fun _ => rfl
  rw [run_bind, relock, run_get, Policy.reload, hread]
  dsimp only
  cases loadLock w p.lockPath <;> rfl

theorem Follows.withStaging {x : Path → Held (List Spec)}
    {y : Path → Act (Policy × List Spec)} (h : Follows p (x stagingDir) (y stagingDir)) :
    Follows p (withStaging x) (Strategy.withStaging y) := by
  refine Follows.bind (fun _ w => ?_) makeStaging
  have hbody := h w
  change ((x stagingDir) (w, p)) = (((y stagingDir) w).1.map Prod.snd,
    (((y stagingDir) w).2, p.next ((y stagingDir) w).1)) at hbody
  change (((x stagingDir) (w, p)).1,
    (((removeDirectory stagingDir : Act Unit) ((x stagingDir) (w, p)).2.1).2,
    ((x stagingDir) (w, p)).2.2)) = _
  rw [hbody]
  rfl

theorem follows_exportAs (p : Policy) (runner : Runner) (target : String) (staging : Path) :
    Follows p (exportAs p runner target staging) (p.exportTo runner target staging >>= p.adopt) :=
  .bind (fun staged => .bind (fun _ => follows_relock p) (p.takeExport staged)) _

theorem follows_fetchAs (p : Policy) (runner : Runner) :
    Follows p (fetchAs p runner) (p.fetch runner) := by
  rw [fetchAs, Policy.fetch]
  refine .bind (fun _ => .bind (fun target => .withStaging ?_) (p.install runner)) _
  exact follows_exportAs p runner target stagingDir

theorem follows_fetch (p : Policy) (runner : Runner) :
    Follows p (fetch runner) (p.fetch runner) := by
  intro w
  rw [fetch, run_get]
  exact follows_fetchAs p runner w

end Held

/-- A tool that is missing or fails to install or to export makes getting the dependencies fail,
with its own trouble; the export directory and the policy are left as they were. After a success
the export directory holds what the tool wrote to the staging directory, where nothing was before,
and nothing else; the policy is the one that the tool left locked; and the dependencies are what
the lock makes the cookbook need. -/
theorem fetch_replaces_or_fails {w₀ : World}
    (hload : load w₀ p.cookbookDir p.lockPath p.setup = .ok p)
    (hlock : p.lockPath.Straight) (hname : Path.IsName p.setup.scratchDir) (hfiles : w.files.Proper)
    (hrunner : p.Leaves runner (w.spot p.exportDir))
    (hapart : ¬ w.spot stagingDir <+: w.spot p.exportDir) :
    (∀ t, p.ToolFails runner w t → ∃ w', (p.fetch runner).run.run w = (.error t, w') ∧
      (Held.fetch runner).run.run (w, p) = (.error t, (w', p)) ∧
      ∀ rel, w'.files.get? (w.spot p.exportDir ++ rel) = w.files.get? (w.spot p.exportDir ++ rel)) ∧
    ∀ p' specs w', (p.fetch runner).run.run w = (.ok (p', specs), w') →
      (Held.fetch runner).run.run (w, p) = (.ok specs, (w', p')) ∧
      ∃ before after told, p.Exported runner w before after ∧
        (∀ rel, before.files.get? (w.spot (stagingDir.child p.setup.scratchDir) ++ rel) = none) ∧
        (∀ rel, w'.files.get? (w.spot p.exportDir ++ rel) =
          after.files.get? (w.spot (stagingDir.child p.setup.scratchDir) ++ rel)) ∧
        load after p.cookbookDir p.lockPath p.setup = .ok p' ∧
        w' = ((removeDirectory stagingDir).run.run told).2 ∧
        (specs.map Spec.name).Nodup ∧
        ∀ spec, spec ∈ specs ↔ ∃ record, p'.registry.Needs (p'.name told) record ∧
        spec = specOf record := by
  obtain ⟨hexport, hbeside⟩ := beside_of_load hload hlock hname
  have hne := w.spot_ne_nil hexport
  rw [spot_stagingDir] at hapart
  constructor
  · intro t hfails
    obtain ⟨w', hfetch, hkept⟩ := fetch_of_toolFails hrunner hne hapart hfails
    have hheld := Held.follows_fetch p runner w
    rw [hfetch] at hheld
    exact ⟨w', hfetch, hheld, fun rel => hkept _ (prefix_append _ rel)⟩
  · intro p' specs w' hfetch
    have hheld := Held.follows_fetch p runner w
    rw [hfetch] at hheld
    refine ⟨hheld, ?_⟩
    obtain ⟨before, after, told, hexported, hadopt, rfl⟩ := exported_of_fetch hfetch
    have hstaged : (stagingDir.child p.setup.scratchDir).Straight := stagingDir_straight.child hname
    have hspot : w.spot (stagingDir.child p.setup.scratchDir) =
        [".cookbook-staging", p.setup.scratchDir] := by
      rw [spot_child w stagingDir hname, spot_stagingDir]
      rfl
    have ⟨_, target, installed, output, hinstalled, hstaging, hcall⟩ := hexported
    obtain ⟨htarget, hkeeps, hempty⟩ := staged_keeps hrunner hne hapart hinstalled hstaging
    have hcalled := hrunner.export_keeps htarget before
    rw [hcall] at hcalled
    have hafter := hkeeps.trans hcalled
    have hin : ¬ after.spot (stagingDir.child p.setup.scratchDir) <+: after.spot p.exportDir := by
      rw [hafter.spot, hafter.spot, hspot]
      exact fun hpre => hapart ((cons_prefix_cons.2 ⟨rfl, nil_prefix⟩).trans hpre)
    have hout : ∀ rel, ¬ after.spot p.exportDir <+:
        after.spot (stagingDir.child p.setup.scratchDir) ++ rel := by
      intro rel hpre
      rw [hafter.spot, hafter.spot, hspot] at hpre
      exact not_staged hne hapart hpre (cons_prefix_cons.2 ⟨rfl, nil_prefix⟩)
    have hadopted := (adopt_ends (hafter.proper hfiles) hexport hlock (hbeside after) hstaged hin hout).after
    rw [hadopt, hafter.spot, hafter.spot] at hadopted
    obtain ⟨hcontent, hregistry, hp', hspecs⟩ := hadopted p' specs rfl
    have hkeyed := keyed_of_loadLock hregistry
    refine ⟨before, after, told, hexported, fun rel => ?_, fun rel => ?_, ?_, rfl, ?_, fun spec => ?_⟩
    · rw [hspot]
      exact hempty hfiles _ (by simp)
    · have hdropped := (removeStaging_ends told (not_staged hne hapart (prefix_append _ rel))).after
      rw [hdropped, hcontent]
    · refine load_eq_ok_iff.2 ⟨hregistry, ?_⟩
      rw [hp', (load_eq_ok_iff.1 hload).2]
    · rw [hspecs]
      exact nodup_dependencies hkeyed told
    · rw [hspecs]
      exact mem_dependencies_iff hkeyed told

end Fetch

section Sample

/-- A lock of two cookbooks: one for the directory of the lock, and one that it needs. -/
def sampleLock : List Char :=
  "\x7b\"cookbook_locks\":\x7b\"base\":\x7b\"version\":\"1\",\"identifier\":\"1f\"\x7d,".toList
    ++ "\"web\":\x7b\"version\":\"2\",\"identifier\":\"2e\",\"source\":\".\"\x7d\x7d,".toList
    ++ "\"solution_dependencies\":\x7b\"dependencies\":\x7b\"web (2)\":[[\"base\",\"= 1\"]]\x7d\x7d\x7d".toList

def stale : World where
  files := ⟨[(["app"], .directory), (["app", policyName], .file [] false),
    (["app", lockName], .file (Text.Utf8.encode sampleLock) false),
    (["app", "export"], .directory), (["app", "export", "old"], .file [] false)]⟩
  here := []
  environment := []
  calls := []
  installed := []

def sample : Policy where
  cookbookDir := ⟨"/app"⟩
  lockPath := ⟨"/app/Policyfile.lock.json"⟩
  policyDir := ⟨"/app"⟩
  registry :=
    ⟨none, [("base", ⟨"base", "1", "1f", .remote none none⟩), ("web", ⟨"web", "2", "2e", .localPath ⟨"."⟩⟩)],
      [("web", ⟨"web", "2", [⟨"base", "= 1", some "1f", some "1"⟩]⟩)], some ⟨"/app"⟩⟩
  setup := ⟨"chef", 1000, "export"⟩

def withNew (t : Tree) : Tree :=
  (t.put [".cookbook-staging", "export"] .directory).put [".cookbook-staging", "export",
    "new"] (.file [] false)

def exporter : Runner where
  available _ _ := true
  run _ := do
    let w ← get
    if w.files.get? [".cookbook-staging"] = some .directory ∧
      w.files.get? [".cookbook-staging", "export"] = none then
      setFiles (withNew w.files)
      return ⟨"", ""⟩
    else return ⟨"", ""⟩

def failingAt (operation : String) : Runner where
  available _ _ := true
  run c :=
    if c.operation = operation then throw (.ofFailure (.toolFailed c.program c.operation "" none))
    else return ⟨"", ""⟩

theorem sample_loaded :
    load stale sample.cookbookDir sample.lockPath sample.setup = .ok sample := by
  apply ok_of_toOption
  decide +kernel

theorem sample_straight : sample.lockPath.Straight :=
  ⟨⟨"/app"⟩, lockName, by decide, by decide, by decide⟩

theorem stale_proper : stale.files.Proper := ⟨by decide, by decide, by decide⟩

theorem spot_sample : stale.spot sample.exportDir = ["app", "export"] := by decide

theorem get?_withNew (t : Tree) (h : ["app", "export"] <+: other) :
    (withNew t).get? other = t.get? other := by
  obtain ⟨rel, rfl⟩ := h
  rw [withNew, Tree.get?_put _ _ _ (by simp), if_neg (by simp), Tree.get?_put _ _ _ (by simp),
    if_neg (by simp)]

theorem proper_withNew {t : Tree} (h : t.Proper)
    (hstaging : t.get? [".cookbook-staging"] = some .directory)
    (hnew : t.get? [".cookbook-staging", "export"] = none) : (withNew t).Proper := by
  have hmade : (t.put [".cookbook-staging", "export"] .directory).Proper :=
    h.put hstaging (by decide) (.inl rfl)
  have hnone : t.get? [".cookbook-staging", "export", "new"] = none :=
    h.none_under hnew (prefix_append [".cookbook-staging", "export"] ["new"])
  have hdir : (t.put [".cookbook-staging", "export"] .directory).get? [".cookbook-staging", "export"] =
      some .directory := by
    rw [Tree.get?_put _ _ _ (by simp), if_pos rfl]
  refine hmade.put hdir (by decide) (.inr ?_)
  rw [Tree.get?_put _ _ _ (by simp), if_neg (by simp)]
  change t.get? [".cookbook-staging", "export", "new"] ≠ _
  simp [hnone]

theorem exporter_leaves : sample.Leaves exporter ["app", "export"] := by
  have hrun : ∀ c w, ((exporter.run c).run.run w).2 = w ∨
      (w.files.get? [".cookbook-staging"] = some .directory ∧
      w.files.get? [".cookbook-staging", "export"] = none) ∧
      ((exporter.run c).run.run w).2 = { w with files := withNew w.files } := by
    intro c w
    have hends : Ends (exporter.run c) w fun _ w' => w' = w ∨
        (w.files.get? [".cookbook-staging"] = some .directory ∧
          w.files.get? [".cookbook-staging", "export"] = none) ∧ w' = { w with files := withNew w.files } := by
      apply Ends.get
      split
      · rename_i hready
        exact .bind (.setFiles (.pure (.inr ⟨hready, rfl⟩)))
      · exact .pure (.inl rfl)
    exact hends.after
  refine ⟨fun c w => ?_, fun c _ w other hother => ?_, fun c _ w hw => ?_⟩
  · rcases hrun c w with h | ⟨-, h⟩ <;> rw [h]
  · rcases hrun c w with h | ⟨-, h⟩ <;> rw [h]
    exact get?_withNew w.files hother
  · rcases hrun c w with h | ⟨⟨hstaging, hnew⟩, h⟩ <;> rw [h]
    · exact hw
    · exact proper_withNew hw hstaging hnew

theorem failingAt_leaves (operation : String) :
    sample.Leaves (failingAt operation) ["app", "export"] := by
  have hrun : ∀ c w, (((failingAt operation).run c).run.run w).2 = w := by
    intro c w
    simp only [failingAt]
    split <;> rfl
  refine ⟨fun c w => ?_, fun c _ w other _ => ?_, fun c _ w hw => ?_⟩
  · rw [hrun]
  · rw [hrun]
  · rwa [hrun]

theorem stale_policy : stale.isFile (sample.policyDir.child policyName) = true := by decide +kernel

/-- A tool that exports replaces the earlier export by its own; one that fails to install, or to
export what it has installed, leaves it. -/
theorem stale_replaced_or_left :
    (∃ p' specs w', (sample.fetch exporter).run.run stale = (.ok (p', specs), w') ∧
      ∃ before after, sample.Exported exporter stale before after ∧
        ∀ rel, w'.files.get? (["app", "export"] ++ rel) =
          after.files.get? ([".cookbook-staging", "export"] ++ rel)) ∧
    ∀ operation ∈ ["install", "export"], ∃ t w', sample.ToolFails (failingAt operation) stale t ∧
      (Held.fetch (failingAt operation)).run.run (stale, sample) = (.error t, (w', sample)) ∧
      ∀ rel, w'.files.get? (["app", "export"] ++ rel) = stale.files.get? (["app", "export"] ++ rel) := by
  have hapart : ¬ stale.spot stagingDir <+: stale.spot sample.exportDir := by
    rw [spot_stagingDir, spot_sample]
    decide
  have hstaged : stale.spot (stagingDir.child sample.setup.scratchDir) =
      [".cookbook-staging", "export"] := by decide
  constructor
  · have hok : ((sample.fetch exporter).run.run stale).1.toOption.isSome = true := by decide +kernel
    cases hfetch : (sample.fetch exporter).run.run stale with
    | mk r w' =>
      rw [hfetch] at hok
      cases r with
      | error t => cases hok
      | ok result =>
        obtain ⟨p', specs⟩ := result
        have hdone := (fetch_replaces_or_fails sample_loaded sample_straight (by decide)
          stale_proper (by rw [spot_sample]; exact exporter_leaves) hapart).2 p' specs w' hfetch
        obtain ⟨-, before, after, told, hexported, -, hcontent, -⟩ := hdone
        rw [spot_sample, hstaged] at hcontent
        exact ⟨p', specs, w', rfl, before, after, hexported, hcontent⟩
  · intro operation hoperation
    have hfails : ∃ t, sample.ToolFails (failingAt operation) stale t := by
      rcases mem_pair.mp hoperation with rfl | rfl
      · exact ⟨.ofFailure (.toolFailed "chef" "install" "" none), .installing rfl stale_policy rfl⟩
      · exact ⟨.ofFailure (.toolFailed "chef" "export" "" none),
          .exporting rfl (.policy stale_policy rfl) rfl rfl⟩
    obtain ⟨t, hfails⟩ := hfails
    obtain ⟨w', -, hheld, hkept⟩ :=
      (fetch_replaces_or_fails sample_loaded sample_straight (by decide)
      stale_proper (by rw [spot_sample]; exact failingAt_leaves operation) hapart).1 t hfails
    rw [spot_sample] at hkept
    exact ⟨t, w', hfails, hheld, hkept⟩

end Sample

end Strategy.Policy
end CookbookAtlas
