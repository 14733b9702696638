import CookbookAtlas.Dependency.Closure
import CookbookAtlas.Proofs.Dependency.Direct
import Mathlib.Logic.Relation

/-! What the closure of a cookbook holds: the locked cookbooks that a path of dependencies leads
to, in the order in which a recursive depth-first tour first visits them. -/
namespace CookbookAtlas

open List
variable {g : Dependency.Graph} {fresh work : List String} {r : Lock.Registry} {n name : String}
namespace Dependency

open Relation (ReflTransGen TransGen)

/-- A tour of names: those visited, in the order of the first visit, and those left. -/
structure Tour (fresh : List String) where
  order : List String
  left : List String
  left_sublist : left.Sublist fresh

/-- Visits `names` one after the other. A name that is still fresh is reported, and everything
that `next` leads to from it is visited before the rest of `names`. -/
def visit (next : String → List String) (fresh : List String) : List String → Tour fresh
  | [] => ⟨[], fresh, .refl _⟩
  | name :: rest =>
    if _h : name ∈ fresh then
      match visit next (fresh.erase name) (next name) with
      | ⟨below, left, hleft⟩ =>
        match visit next left rest with
        | ⟨after, left', hleft'⟩ =>
          ⟨name :: (below ++ after), left', (hleft'.trans hleft).trans erase_sublist⟩
    else visit next fresh rest
termination_by names => (fresh.length, names.length)
decreasing_by
  · have := length_erase_of_mem _h
    have := length_pos_of_mem _h
    exact Prod.Lex.left _ _ (by omega)
  · have := hleft.length_le
    have := length_erase_of_mem _h
    have := length_pos_of_mem _h
    exact Prod.Lex.left _ _ (by omega)
  · exact Prod.Lex.right _ (by simp)

/-- The work list visits what the recursion visits, before the rest of its work. -/
theorem closureFrom_append (g : Graph) (fresh names work : List String) :
    closureFrom g fresh (names ++ work) =
      (visit g.direct fresh names).order ++
      closureFrom g (visit g.direct fresh names).left work := by
  fun_induction visit g.direct fresh names generalizing work with
  | case1 fresh => rfl
  | case2 fresh name rest hfresh below left hleft hbelow after left' hleft' hafter ih_below ih_after =>
    have hinner := ih_below (rest ++ work)
    have houter := ih_after work
    rw [hbelow] at hinner
    rw [hafter] at houter
    rw [cons_append, closureFrom, if_pos hfresh, hinner, houter]
    simp
  | case3 fresh name rest hstale ih =>
    rw [cons_append, closureFrom, if_neg hstale, ih work]

/-- Repeated names change nothing: a name visited before is no longer fresh. -/
theorem visit_firstMentions {next next' : String → List String}
    (hnext : ∀ name, next name = firstMentions [] (next' name))
    (hnodup : fresh.Nodup) (known names : List String) (hknown : ∀ n ∈ known, n ∉ fresh) :
    visit next fresh (firstMentions known names) = visit next' fresh names := by
  fun_induction visit next' fresh names generalizing known with
  | case1 fresh => rw [firstMentions, visit]
  | case2 fresh name rest hfresh below left hleft hbelow after left' hleft' hafter ih_below ih_after =>
    have hnew : name ∉ known := fun h => hknown name h hfresh
    have hinner := ih_below (hnodup.erase name) [] (by simp)
    -- neither the known names nor `name` are left after the names below `name`
    have hleft_known : ∀ n ∈ known ++ [name], n ∉ left := by
      intro n hn hmem
      rcases mem_append.mp hn with hn | hn
      · exact hknown n hn (mem_of_mem_erase (hleft.subset hmem))
      · have hname : n = name := by simpa using hn
        exact hnodup.not_mem_erase (hname ▸ hleft.subset hmem)
    have houter := ih_after ((hnodup.erase name).sublist hleft) (known ++ [name]) hleft_known
    rw [← hnext, hbelow] at hinner
    rw [hafter] at houter
    rw [firstMentions, if_neg hnew, visit, dif_pos hfresh, hinner]
    simp only [houter]
  | case3 fresh name rest hstale ih =>
    by_cases hk : name ∈ known
    · rw [firstMentions, if_pos hk]
      exact ih hnodup known hknown
    · rw [firstMentions, if_neg hk, visit, dif_neg hstale]
      refine ih hnodup (known ++ [name]) fun n hn => ?_
      rcases mem_append.mp hn with hn | hn
      · exact hknown n hn
      · have hname : n = name := by simpa using hn
        exact hname ▸ hstale

def Graph.FreshStep (g : Graph) (fresh : List String) (a b : String) : Prop :=
  b ∈ g.direct a ∧ b ∈ fresh

theorem Graph.FreshStep.of_erase {a b : String} (h : g.FreshStep (fresh.erase name) a b) :
    g.FreshStep fresh a b :=
  ⟨h.1, mem_of_mem_erase h.2⟩

/-- A path from the work leads to `name`, or its part after the last `name` starts at one of the
dependencies of `name` or at other work. -/
theorem reach_erase {start : String} (hstart : start ∈ name :: work) (hfresh : start ∈ fresh)
    (h : ReflTransGen (g.FreshStep fresh) start n) :
    n = name ∨ ∃ w ∈ g.direct name ++ work, w ∈ fresh.erase name ∧
      ReflTransGen (g.FreshStep (fresh.erase name)) w n := by
  induction h with
  | refl =>
    by_cases hs : start = name
    · exact .inl hs
    · have hwork : start ∈ work := (mem_cons.mp hstart).resolve_left hs
      exact .inr ⟨start, mem_append_right _ hwork, (mem_erase_of_ne hs).mpr hfresh, .refl⟩
  | @tail b c _ hstep ih =>
    by_cases hc : c = name
    · exact .inl hc
    · have hcfresh : c ∈ fresh.erase name := (mem_erase_of_ne hc).mpr hstep.2
      rcases ih with rfl | ⟨w, hw, hwfresh, hpath⟩
      · exact .inr ⟨c, mem_append_left _ hstep.1, hcfresh, .refl⟩
      · exact .inr ⟨w, hw, hwfresh, hpath.tail ⟨hstep.1, hcfresh⟩⟩

theorem mem_closureFrom : n ∈ closureFrom g fresh work ↔
    ∃ w ∈ work, w ∈ fresh ∧ ReflTransGen (g.FreshStep fresh) w n := by
  fun_induction closureFrom g fresh work with
  | case1 fresh => simp
  | case2 fresh name work hfresh ih =>
    rw [mem_cons, ih]
    constructor
    · rintro (rfl | ⟨w, hw, hwfresh, hpath⟩)
      · exact ⟨n, mem_cons_self, hfresh, .refl⟩
      · have hpath' : ReflTransGen (g.FreshStep fresh) w n :=
          ReflTransGen.mono (fun _ _ h => Graph.FreshStep.of_erase h) _ _ hpath
        rcases mem_append.mp hw with hw | hw
        · exact ⟨name, mem_cons_self, hfresh, hpath'.head ⟨hw, mem_of_mem_erase hwfresh⟩⟩
        · exact ⟨w, mem_cons_of_mem _ hw, mem_of_mem_erase hwfresh, hpath'⟩
    · rintro ⟨w, hw, hwfresh, hpath⟩
      exact reach_erase hw hwfresh hpath
  | case3 fresh name work hstale ih =>
    rw [ih]
    constructor
    · rintro ⟨w, hw, hrest⟩
      exact ⟨w, mem_cons_of_mem _ hw, hrest⟩
    · rintro ⟨w, hw, hwfresh, hpath⟩
      rcases mem_cons.mp hw with rfl | hw
      · exact absurd hwfresh hstale
      · exact ⟨w, hw, hwfresh, hpath⟩

theorem mem_fresh_of_mem_closureFrom (h : n ∈ closureFrom g fresh work) : n ∈ fresh := by
  obtain ⟨w, _, hw, hpath⟩ := mem_closureFrom.mp h
  rcases hpath.cases_tail with rfl | ⟨_, _, hstep⟩
  · exact hw
  · exact hstep.2

theorem nodup_closureFrom (h : fresh.Nodup) (work : List String) :
    (closureFrom g fresh work).Nodup := by
  fun_induction closureFrom g fresh work with
  | case1 fresh => exact .nil
  | case2 fresh name work hfresh ih =>
    refine nodup_cons.mpr ⟨fun hmem => ?_, ih (h.erase name)⟩
    exact h.not_mem_erase (mem_fresh_of_mem_closureFrom hmem)
  | case3 fresh name work hstale ih => exact ih h

end Dependency

namespace Lock
namespace Registry

/-- A dependency of one cookbook on another that is locked. -/
def LockedStep (r : Registry) (a b : String) : Prop := b ∈ r.targets a ∧ (r.get? b).isSome

def names (r : Registry) : List String := r.cookbooks.keys

theorem isSome_get?_iff_mem_names : (r.get? name).isSome ↔ name ∈ r.names :=
  Table.isSome_get?_iff

theorem Keyed.map_name_filterMap (h : r.Keyed) {names : List String}
    (hnames : ∀ n ∈ names, n ∈ r.names) : (names.filterMap r.get?).map Record.name = names := by
  induction names with
  | nil => rfl
  | cons name rest ih =>
    have hsome : (r.get? name).isSome := isSome_get?_iff_mem_names.mpr (hnames name mem_cons_self)
    obtain ⟨record, hrecord⟩ := Option.isSome_iff_exists.mp hsome
    rw [filterMap_cons_some hrecord, map_cons, h.name_of_get? hrecord,
      ih fun n hn => hnames n (mem_cons_of_mem _ hn)]

end Registry
end Lock

namespace Dependency

open Lock (Registry Record)
open Relation (ReflTransGen TransGen)

theorem freshStep_names_iff (h : r.Keyed) {a b : String} :
    (Graph.ofRegistry r).FreshStep r.names a b ↔ r.LockedStep a b := by
  rw [Graph.FreshStep, Registry.LockedStep, Graph.direct_ofRegistry h, mem_firstMentions,
    Registry.isSome_get?_iff_mem_names]
  simp

/-- A name is in the closure exactly if a path of locked cookbooks leads to it. -/
theorem mem_closure_iff (h : r.Keyed) {start : String} :
    n ∈ (Graph.ofRegistry r).closure r.names start ↔ TransGen r.LockedStep start n := by
  have hstep : (Graph.ofRegistry r).FreshStep r.names = r.LockedStep := by
    funext a b
    exact propext (freshStep_names_iff h)
  rw [Graph.closure, mem_closureFrom, TransGen.head'_iff, hstep]
  constructor
  · rintro ⟨w, hw, hlocked, hpath⟩
    exact ⟨w, (freshStep_names_iff h).mp ⟨hw, hlocked⟩, hpath⟩
  · rintro ⟨w, hfirst, hpath⟩
    obtain ⟨hw, hlocked⟩ := (freshStep_names_iff h).mpr hfirst
    exact ⟨w, hw, hlocked, hpath⟩

theorem closure_eq_visit (h : r.Keyed) (start : String) :
    (Graph.ofRegistry r).closure r.names start =
    (visit r.targets r.names (r.targets start)).order := by
  have htour := visit_firstMentions (Graph.direct_ofRegistry h) h.cookbooks_sorted.nodup [] (r.targets start)
    (by simp)
  have happend := closureFrom_append (Graph.ofRegistry r) r.names ((Graph.ofRegistry r).direct start) []
  rw [append_nil, closureFrom, append_nil, Graph.direct_ofRegistry h] at happend
  rw [Graph.closure, Graph.direct_ofRegistry h, happend]
  exact congrArg Tour.order htour

theorem map_name_dependenciesOf (h : r.Keyed) (start : String) :
    (dependenciesOf r start).map Record.name = (Graph.ofRegistry r).closure r.names start :=
  h.map_name_filterMap fun _ hn => mem_fresh_of_mem_closureFrom hn

theorem mem_dependenciesOf_iff (h : r.Keyed) {start : String} {record : Record} :
    record ∈ dependenciesOf r start ↔
      r.get? record.name = some record ∧ TransGen r.LockedStep start record.name := by
  rw [← mem_closure_iff h]
  constructor
  · intro hmem
    obtain ⟨name, hname, hget⟩ := mem_filterMap.mp hmem
    have he : record.name = name := h.name_of_get? hget
    rw [he]
    exact ⟨hget, hname⟩
  · rintro ⟨hget, hmem⟩
    exact mem_filterMap.mpr ⟨record.name, hmem, hget⟩

/-- Every registry that is read is keyed, and in every keyed registry the dependencies of a
cookbook are of distinct names, are those that a path of at least one step leads to on which every
cookbook after the start is locked, and stand in the order in which a depth-first tour of the
document's lists first visits them. -/
theorem dependenciesOf_reachable :
    (∀ cs r, Lock.read cs = .ok r → r.Keyed) ∧
    ∀ r : Registry, r.Keyed → ∀ start : String,
      ((dependenciesOf r start).map Record.name).Nodup ∧
      (∀ record, record ∈ dependenciesOf r start ↔
        r.get? record.name = some record ∧ TransGen r.LockedStep start record.name) ∧
      (dependenciesOf r start).map Record.name = (visit r.targets r.names (r.targets start)).order := by
  refine ⟨fun cs r hread => Registry.keyed_of_read hread, fun r h start => ⟨?_, ?_, ?_⟩⟩
  · rw [map_name_dependenciesOf h]
    exact nodup_closureFrom h.cookbooks_sorted.nodup _
  · exact fun record => mem_dependenciesOf_iff h
  · rw [map_name_dependenciesOf h, closure_eq_visit h]

def sampleRecord (name : String) : String × Record :=
  (name, ⟨name, "1.0.0", name, .remote none none⟩)

def sampleEdge (name : String) (targets : List String) : String × Lock.Edge :=
  (name, ⟨name, "1.0.0", targets.map fun t => ⟨t, Lock.anyVersion, none, none⟩⟩)

/-- A cycle through the start, a loop, a diamond, a repeated edge, and a cookbook that only an
unlocked one depends on. -/
def sampleRegistry : Registry where
  policyName := none
  cookbooks := ["a", "b", "c", "d", "e"].map sampleRecord
  edges := [sampleEdge "a" ["b", "c", "b", "ghost"], sampleEdge "b" ["b", "d"],
    sampleEdge "c" ["d"], sampleEdge "d" ["a"], sampleEdge "ghost" ["e"]]
  baseDir := none

theorem sampleRegistry_keyed : sampleRegistry.Keyed := ⟨by decide, by decide, by decide, by decide⟩

theorem sampleRegistry_order :
    (visit sampleRegistry.targets sampleRegistry.names (sampleRegistry.targets "a")).order =
    ["b", "d", "a", "c"] := by
  have hnames : sampleRegistry.names = ["a", "b", "c", "d", "e"] := rfl
  have ha : sampleRegistry.targets "a" = ["b", "c", "b", "ghost"] := by decide
  have hb : sampleRegistry.targets "b" = ["b", "d"] := by decide
  have hc : sampleRegistry.targets "c" = ["d"] := by decide
  have hd : sampleRegistry.targets "d" = ["a"] := by decide
  simp [hnames, visit, ha, hb, hc, hd]

/-- The start is among its own dependencies, and what lies behind an unlocked name is not. -/
theorem sampleRegistry_dependencies : sampleRegistry.Keyed ∧
    ((dependenciesOf sampleRegistry "a").map Record.name).Nodup ∧
    (∀ record, record ∈ dependenciesOf sampleRegistry "a" ↔ sampleRegistry.get? record.name =
      some record ∧ TransGen sampleRegistry.LockedStep "a" record.name) ∧
    (dependenciesOf sampleRegistry "a").map Record.name = ["b", "d", "a", "c"] := by
  obtain ⟨hnodup, hmem, horder⟩ :=
    dependenciesOf_reachable.2 sampleRegistry sampleRegistry_keyed "a"
  exact ⟨sampleRegistry_keyed, hnodup, hmem, horder.trans sampleRegistry_order⟩

end Dependency
end CookbookAtlas
