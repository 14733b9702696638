import CookbookAtlas.Proofs.Execution.Progress
import Mathlib.Data.List.Nodup
import Mathlib.Order.WellFounded

/-! Includes that lead back. However the includes of recipes lead to one another, a build comes to
an end: each file is expanded once, a second include of it is a circular leaf, and no way down the
tree passes more recipes than the depth limit allows. -/
namespace CookbookAtlas.Execution
namespace Plan

open List Recipe

open Recipe (Item)
open Relation (ReflTransGen)

/-- The file that a static include names, if it is found. -/
def resolve? (p : Plan) (r : Reference) : Option Path :=
  r.recipe?.bind (Locate.recipeFile? p.world p.dirs)

section Include

variable {p : Plan} {visited : List Path} {depth : Nat} {r : Reference}

/-- A file is expanded the first time that it is found within the depth limit. -/
theorem expandInclude_eq_inr_iff {path : Path} : p.expandInclude visited depth r = .inr path ↔
    p.resolve? r = some path ∧ depth ≤ p.maxDepth ∧ path.normalize ∉ visited := by
  rw [expandInclude, resolve?]
  cases hname : r.recipe? with
  | none => simp
  | some name =>
    by_cases hdepth : p.maxDepth < depth
    · simp [hdepth]
    · cases hfile : Locate.recipeFile? p.world p.dirs name with
      | none => simp [hdepth, hfile]
      | some file =>
        by_cases hseen : file.normalize ∈ visited
        · have hnot : ¬(file = path ∧ depth ≤ p.maxDepth ∧ path.normalize ∉ visited) := by
            rintro ⟨rfl, _, hnew⟩
            exact hnew hseen
          simpa [hdepth, hfile, hseen] using fun heq => by simpa [heq] using hnot
        · have hlimit : depth ≤ p.maxDepth := Nat.le_of_not_lt hdepth
          simp only [hdepth, if_false, contains_iff_mem, hseen, Option.bind_some, hfile,
            Sum.inr.injEq, Option.some.injEq, hlimit, true_and]
          constructor
          · rintro rfl
            exact ⟨rfl, hseen⟩
          · exact And.left

/-- The leaf for an include is circular exactly if its file is found within the depth limit, but
not for the first time. -/
theorem kind_of_expandInclude {leaf : Info} (h : p.expandInclude visited depth r = .inl leaf) :
    leaf.kind ≠ .recipe ∧ (leaf.kind = .circular ↔
      ∃ path, p.resolve? r = some path ∧ depth ≤ p.maxDepth ∧ path.normalize ∈ visited) := by
  rw [expandInclude] at h
  rw [resolve?]
  cases hname : r.recipe? with
  | none =>
    rw [hname] at h
    cases h
    simp [includeLeaf, Info.placed, Info.plain]
  | some name =>
    rw [hname] at h
    by_cases hdepth : p.maxDepth < depth
    · simp only [hdepth, if_true, Sum.inl.injEq] at h
      subst h
      simp [includeLeaf, Info.placed, Info.plain, Nat.not_le.mpr hdepth]
    · cases hfile : Locate.recipeFile? p.world p.dirs name with
      | none =>
        simp only [hdepth, if_false, hfile, Sum.inl.injEq] at h
        subst h
        simp [includeLeaf, Info.placed, Info.plain, hfile]
      | some file =>
        by_cases hseen : file.normalize ∈ visited
        · simp only [hdepth, if_false, hfile, contains_iff_mem, hseen, if_true, Sum.inl.injEq] at h
          subst h
          simp [Info.placed, Info.plain, hfile, hseen, Nat.le_of_not_lt hdepth]
        · simp [hdepth, hfile, hseen] at h

end Include

theorem recipeInfo_injective : Function.Injective recipeInfo := by
  intro path other h
  have hfile : (recipeInfo path).file = (recipeInfo other).file := by rw [h]
  exact Option.some.inj hfile

/-- One of the ways leads to the recipe of the file, by whatever path. -/
def Expanded (trails : List Trail) (file : Path) : Prop :=
  ∃ t ∈ trails, ∃ path, t.here = recipeInfo path ∧ path.normalize = file.normalize

theorem kind_resourceNode (p : Plan) (r : Resource) :
    (p.resourceNode r).info.kind = if r.custom then .customResource else .resource := rfl

theorem kind_resourceNode_ne (p : Plan) (r : Resource) :
    (p.resourceNode r).info.kind ≠ .recipe ∧ (p.resourceNode r).info.kind ≠ .circular := by
  rw [kind_resourceNode]
  split <;> simp

namespace Build

variable {p : Plan}

theorem soFar_close {b : Build p.draft} {parent : Open} {outer : List Open}
    (houter : b.outer = parent :: outer) :
    (⟨b.visited, { parent with done := close p.draft b.top :: parent.done }, outer⟩ : Build p.draft).soFar =
      b.soFar := by
  simp [soFar, houter, plug, close_draft]

/-- The tree of a draft stays as it is, or one node comes under the innermost container. -/
theorem Turn.grows {b next : Build p.draft} (h : Turn b next) : next.soFar = b.soFar ∨
    ∃ info, next.soFar.trails = b.soFar.trails ++ [⟨b.spine, info⟩] ∧
      (info.kind = .circular → ∃ r rest, b.top.rest = .inclusion r :: rest) := by
  cases h with
  | close hrest houter => exact .inl (soFar_close houter)
  | @resource r rest _ =>
    exact .inr ⟨_, trails_add b rest _, fun hkind => absurd hkind (kind_resourceNode_ne p.draft r).2⟩
  | refused hrest _ => exact .inr ⟨_, trails_add b _ _, fun _ => ⟨_, _, hrest⟩⟩
  | block hrest =>
    rw [soFar_enter]
    exact .inr ⟨_, trails_add b _ _, fun hkind => by simp [blockInfo, Info.plain] at hkind⟩
  | recipe hrest _ _ =>
    rw [soFar_enter]
    exact .inr ⟨_, trails_add b _ _,
      fun hkind => by simp [recipeInfo, Info.placed, Info.plain] at hkind⟩

/-- Every open container knows its include depth, which is within the limit. -/
def Deep (limit : Nat) : List Open → Prop
  | [] => True
  | o :: outer =>
    o.depth = Trail.includeDepth ⟨spineOf outer, o.info⟩ ∧ o.depth ≤ limit ∧ Deep limit outer

/-- A node under the innermost container has its depth, a recipe one more. -/
theorem Deep.includeDepth {limit : Nat} {b : Build p} (h : Deep limit (b.top :: b.outer))
    (info : Info) :
    Trail.includeDepth ⟨b.spine, info⟩ = b.top.depth + if info.kind = .recipe then 1 else 0 := by
  rw [spine, spineOf_cons, Trail.includeDepth_snoc, h.1]

/-- What holds of a draft at every moment: the files expanded are those of the recipes in the tree,
each of them once, and all ways are within the depth limit. -/
structure Sound (b : Build p.draft) : Prop where
  files : ∃ paths : List Path, recipesOn b.soFar.trails = paths.map recipeInfo ∧
    paths.map Path.normalize = b.visited.reverse
  nodup : b.visited.Nodup
  depths : Deep p.maxDepth (b.top :: b.outer)
  within : ∀ t ∈ b.soFar.trails, t.includeDepth ≤ p.maxDepth

namespace Sound

variable {b : Build p.draft}

theorem start (entry : Path) (items : List Item) : (Build.start p.draft entry items).Sound where
  files := ⟨[entry], rfl, rfl⟩
  nodup := pairwise_singleton _ _
  depths := ⟨rfl, Nat.zero_le _, trivial⟩
  within t ht := by
    rw [trails_start, mem_singleton] at ht
    rw [ht, Trail.includeDepth_root]
    exact Nat.zero_le _

theorem expanded_iff (h : b.Sound) {file : Path} :
    Expanded b.soFar.trails file ↔ file.normalize ∈ b.visited := by
  obtain ⟨paths, hrecipes, hvisited⟩ := h.files
  have hmem : ∀ path, (∃ t ∈ b.soFar.trails, t.here = recipeInfo path) ↔ path ∈ paths := by
    intro path
    have hin : recipeInfo path ∈ recipesOn b.soFar.trails ↔
        ∃ t ∈ b.soFar.trails, t.here = recipeInfo path := by
      simp [recipesOn, recipeInfo, Info.placed, Info.plain]
    rw [← hin, hrecipes, mem_map_of_injective recipeInfo_injective]
  rw [← mem_reverse, ← hvisited, mem_map]
  constructor
  · rintro ⟨t, ht, path, hhere, hsame⟩
    exact ⟨path, (hmem path).mp ⟨t, ht, hhere⟩, hsame⟩
  · rintro ⟨path, hpath, hsame⟩
    obtain ⟨t, ht, hhere⟩ := (hmem path).mpr hpath
    exact ⟨t, ht, path, hhere, hsame⟩

theorem within_add (h : b.Sound) (rest : List Item) {info : Info}
    (hdepth : b.top.depth + (if info.kind = .recipe then 1 else 0) ≤ p.maxDepth) :
    ∀ t ∈ (b.add rest (.leaf info)).soFar.trails, t.includeDepth ≤ p.maxDepth := by
  intro t ht
  rw [trails_add, mem_append, mem_singleton] at ht
  rcases ht with ht | rfl
  · exact h.within t ht
  · rw [h.depths.includeDepth]
    exact hdepth

theorem add (h : b.Sound) (rest : List Item) {info : Info} (hkind : info.kind ≠ .recipe) :
    (b.add rest (.leaf info)).Sound where
  files := by
    have hnone : recipesOn [⟨b.spine, info⟩] = [] := by simp [recipesOn, hkind]
    rw [trails_add, recipesOn_append, hnone, append_nil]
    exact h.files
  nodup := h.nodup
  depths := h.depths
  within := h.within_add rest (by simpa [hkind] using h.depths.2.1)

theorem enter_block (h : b.Sound) (rest children : List Item) (heading : Heading) :
    (b.enter rest ⟨blockInfo heading children, [], children, b.top.depth⟩).Sound := by
  have hkind : (blockInfo heading children).kind ≠ .recipe := by simp [blockInfo, Info.plain]
  have hadd := h.add rest hkind
  refine ⟨?_, h.nodup, ⟨?_, h.depths.2.1, h.depths⟩, ?_⟩
  · rw [soFar_enter]
    exact hadd.files
  · have hdepth := h.depths.includeDepth (blockInfo heading children)
    rw [if_neg hkind] at hdepth
    exact hdepth.symm
  · rw [soFar_enter]
    exact hadd.within

theorem enter_recipe (h : b.Sound) (rest items : List Item) {path : Path}
    (hnew : path.normalize ∉ b.visited) (hdepth : b.top.depth + 1 ≤ p.maxDepth) :
    ({ b with visited := path.normalize :: b.visited }.enter rest
      ⟨recipeInfo path, [], items, b.top.depth + 1⟩ : Build p.draft).Sound := by
  have hsame : ({ b with visited := path.normalize :: b.visited }.enter rest
      ⟨recipeInfo path, [], items, b.top.depth + 1⟩ : Build p.draft).soFar =
        (b.add rest (.leaf (recipeInfo path))).soFar := by
    rw [soFar_enter]
    rfl
  refine ⟨?_, nodup_cons.mpr ⟨hnew, h.nodup⟩, ⟨?_, hdepth, h.depths⟩, ?_⟩
  · obtain ⟨paths, hrecipes, hvisited⟩ := h.files
    refine ⟨paths ++ [path], ?_, ?_⟩
    · rw [hsame, trails_add, recipesOn_append, hrecipes, map_append]
      rfl
    · rw [map_append, hvisited]
      exact reverse_cons.symm
  · exact (h.depths.includeDepth (recipeInfo path)).symm
  · rw [hsame]
    exact h.within_add rest hdepth

theorem turn {next : Build p.draft} (h : b.Sound) (hturn : Turn b next) : next.Sound := by
  cases hturn with
  | close _ houter =>
    have hdepths := h.depths
    rw [houter] at hdepths
    refine ⟨?_, h.nodup, hdepths.2.2, ?_⟩
    · rw [soFar_close houter]
      exact h.files
    · rw [soFar_close houter]
      exact h.within
  | @resource r rest _ => exact h.add rest (kind_resourceNode_ne p.draft r).1
  | @refused _ rest _ _ hinclude => exact h.add rest (kind_of_expandInclude hinclude).1
  | @block heading children rest _ => exact h.enter_block rest children heading
  | @recipe _ rest items _ _ hinclude _ =>
    obtain ⟨_, hdepth, hnew⟩ := expandInclude_eq_inr_iff.mp hinclude
    exact h.enter_recipe rest items hnew hdepth

end Sound
end Build

theorem Reached.sound {p : Plan} {entry : Path} {b : Build p.draft} (h : p.draft.Reached entry b) :
    b.Sound :=
  h.induction (fun items _ => .start entry items) fun _ _ hsound hturn => hsound.turn hturn

namespace Build

variable {p : Plan}

theorem trails_prefix_of_run {b : Build p.draft} {d : Node} (h : b.run = some d) :
    b.soFar.trails <+: d.trails := by
  fun_induction run b with
  | case1 b hstep => cases h
  | case2 b root hstep =>
    cases h
    exact soFar_of_finished hstep ▸ prefix_rfl
  | case3 b next hstep ih =>
    have hnext := ih h
    rcases (turn_of_leads hstep).grows with hsame | ⟨info, hgrown, _⟩
    · rwa [hsame] at hnext
    · rw [hgrown] at hnext
      exact (prefix_append _ _).trans hnext

/-- Every node that is still to come is added by one turn, when what stands before it is built. -/
theorem exists_turn_of_run {b : Build p.draft} {d : Node} {before after : List Trail} {t : Trail}
    (h : b.run = some d) (hsplit : d.trails = before ++ t :: after)
    (hfront : b.soFar.trails <+: before) :
    ∃ last next, ReflTransGen (fun b next => Leads next b) b last ∧ Turn last next ∧
      last.soFar.trails = before ∧ next.soFar.trails = before ++ [t] := by
  fun_induction run b with
  | case1 b hstep => cases h
  | case2 b root hstep =>
    cases h
    have hlength := hfront.length_le
    rw [soFar_of_finished hstep, hsplit, length_append, length_cons] at hlength
    omega
  | case3 b next hstep ih =>
    have hturn := turn_of_leads hstep
    rcases hturn.grows with hsame | ⟨info, hgrown, _⟩
    · rw [← hsame] at hfront
      obtain ⟨last, following, hreach, hrest⟩ := ih h hfront
      exact ⟨last, following, hreach.head hstep, hrest⟩
    · have hnext : next.soFar.trails <+: before ++ t :: after := hsplit ▸ trails_prefix_of_run h
      obtain ⟨between, rfl⟩ := hfront
      rw [hgrown, append_assoc, prefix_append_right_inj] at hnext
      cases between with
      | nil =>
        have hhead : t = ⟨b.spine, info⟩ := (cons_prefix_cons.mp hnext).1.symm
        refine ⟨b, next, .refl, hturn, by simp, ?_⟩
        rw [hgrown, hhead, append_nil]
      | cons first between =>
        have hhead : (⟨b.spine, info⟩ : Trail) = first := (cons_prefix_cons.mp hnext).1
        have hlater : next.soFar.trails <+: b.soFar.trails ++ first :: between := by
          rw [hgrown, hhead]
          exact ⟨between, by simp⟩
        obtain ⟨last, following, hreach, hrest⟩ := ih h hlater
        exact ⟨last, following, hreach.head hstep, hrest⟩

/-- The node for an include is circular exactly if the include is within the depth limit and its
file is expanded in the tree so far. -/
theorem Turn.circular_iff {b next : Build p.draft} (h : Turn b next) (hsound : b.Sound)
    {r : Reference} {rest : List Item} (hrest : b.top.rest = .inclusion r :: rest) :
    ∃ info, next.soFar.trails = b.soFar.trails ++ [⟨b.spine, info⟩] ∧
      (info.kind = .circular ↔ ∃ path, p.resolve? r = some path ∧
        Trail.includeDepth ⟨b.spine, recipeInfo path⟩ ≤ p.maxDepth ∧
        Expanded b.soFar.trails path) := by
  have hdepth : ∀ path, Trail.includeDepth ⟨b.spine, recipeInfo path⟩ = b.top.depth + 1 :=
    fun path => hsound.depths.includeDepth (recipeInfo path)
  simp only [hdepth, hsound.expanded_iff]
  cases h with
  | close hempty _ => simp [hempty] at hrest
  | resource hother | block hother => simp [hother] at hrest
  | refused hother hinclude =>
    rw [hother] at hrest
    cases hrest
    exact ⟨_, trails_add b _ _, (kind_of_expandInclude hinclude).2⟩
  | @recipe _ _ _ path hother hinclude _ =>
    rw [hother] at hrest
    cases hrest
    obtain ⟨hfile, _, hnew⟩ := expandInclude_eq_inr_iff.mp hinclude
    rw [soFar_enter]
    refine ⟨_, trails_add b _ _, ?_⟩
    constructor
    · intro hkind
      simp [recipeInfo, Info.placed, Info.plain] at hkind
    · rintro ⟨other, hother, _, hseen⟩
      have hsame : path = other := Option.some.inj (hfile.symm.trans hother)
      exact absurd (hsame ▸ hseen) hnew

end Build

/-- The build of `entry` comes to the include `r` inside the containers `above`, when the tree
before it is built. -/
def Meets (p : Plan) (entry : Path) (before : List Trail) (above : List Info) (r : Reference) :
    Prop :=
  ∃ b : Build p.draft, p.draft.Reached entry b ∧ b.soFar.trails = before ∧ b.spine = above ∧
    ∃ rest, b.top.rest = .inclusion r :: rest

/-- The include `r`, inside the containers `above`, is within the depth limit, and its file is
expanded in the tree before it. -/
def Repeats (p : Plan) (before : List Trail) (above : List Info) (r : Reference) : Prop :=
  ∃ path, p.resolve? r = some path ∧ Trail.includeDepth ⟨above, recipeInfo path⟩ ≤ p.maxDepth ∧
    Expanded before path

section Draft

variable {p : Plan} {entry : Path} {d : Node} (h : p.draft.tree entry = some d)
include h

theorem trails_draft_root : ∃ others, d.trails = ⟨[], recipeInfo entry⟩ :: others := by
  obtain ⟨items, _, hrun⟩ := run_start_of_tree h
  obtain ⟨others, hothers⟩ := Build.trails_prefix_of_run hrun
  exact ⟨others, hothers.symm⟩

theorem recipes_draft :
    ∃ others : List Path, (d.ofKind .recipe).map Node.info = (entry :: others).map recipeInfo ∧
    ((entry :: others).map Path.normalize).Nodup := by
  obtain ⟨below, hbelow⟩ := trails_draft_root h
  obtain ⟨b, hreached, _, _, rfl⟩ := Reached.of_draft h
  obtain ⟨paths, hrecipes, hvisited⟩ := hreached.sound.files
  rw [← recipesOn_trails]
  have hroot : recipesOn b.soFar.trails = recipeInfo entry :: recipesOn below := by
    rw [hbelow]
    rfl
  rw [hroot] at hrecipes
  cases paths with
  | nil => cases hrecipes
  | cons first others =>
    have hfirst : entry = first := recipeInfo_injective (List.cons.inj hrecipes).1
    subst hfirst
    refine ⟨others, hroot.trans hrecipes, ?_⟩
    rw [hvisited]
    exact nodup_reverse.mpr hreached.sound.nodup

theorem circular_iff_of_meets {before : List Trail} {above : List Info} {r : Reference}
    (hmeets : p.Meets entry before above r) :
    ∃ info after, d.trails = before ++ ⟨above, info⟩ :: after ∧
      (info.kind = .circular ↔ p.Repeats before above r) := by
  obtain ⟨b, hreached, rfl, rfl, rest, hrest⟩ := hmeets
  have hrun : b.run = some d := hreached.run_eq.trans h
  rw [Build.run] at hrun
  split at hrun
  · cases hrun
  · rename_i root hstep
    rw [(Build.of_finished hstep).1] at hrest
    cases hrest
  · rename_i next hstep
    obtain ⟨info, hgrown, hkind⟩ := (Build.turn_of_leads hstep).circular_iff hreached.sound hrest
    obtain ⟨after, hafter⟩ := Build.trails_prefix_of_run hrun
    refine ⟨info, after, ?_, hkind⟩
    rw [← hafter, hgrown, append_assoc, singleton_append]

theorem meets_of_circular {before after : List Trail} {t : Trail}
    (hsplit : d.trails = before ++ t :: after)
    (hkind : t.here.kind = .circular) : ∃ r, p.Meets entry before t.above r := by
  obtain ⟨others, hroot⟩ := trails_draft_root h
  obtain ⟨items, hitems, hrun⟩ := run_start_of_tree h
  rw [hsplit] at hroot
  have hfront : (Build.start p.draft entry items).soFar.trails <+: before := by
    cases before with
    | nil =>
      have ht : t = ⟨[], recipeInfo entry⟩ := (List.cons.inj hroot).1
      simp [ht, recipeInfo, Info.placed, Info.plain] at hkind
    | cons first before =>
      have hfirst : first = ⟨[], recipeInfo entry⟩ := (List.cons.inj hroot).1
      rw [Build.trails_start, hfirst]
      exact ⟨before, rfl⟩
  obtain ⟨last, next, hreach, hturn, hbefore, hnext⟩ := Build.exists_turn_of_run hrun hsplit hfront
  rcases hturn.grows with hsame | ⟨info, hgrown, hinclude⟩
  · rw [hsame, hbefore] at hnext
    simp at hnext
  · rw [hgrown, hbefore] at hnext
    have ht : t = ⟨last.spine, info⟩ := by simpa using hnext.symm
    subst ht
    obtain ⟨r, rest, hrest⟩ := hinclude hkind
    exact ⟨r, last, ⟨items, hitems, hreach⟩, hbefore, rfl, rest, hrest⟩

end Draft

theorem exists_tree (p : Plan) (entry : Path) :
    (∃ path, p.items path = none) ∨ ∃ t, p.tree entry = some t := by
  rw [tree]
  cases hitems : p.items entry with
  | none => exact .inl ⟨entry, hitems⟩
  | some items =>
    obtain ⟨last, _, ⟨root, _, hrun⟩ | ⟨hstuck, _⟩⟩ := Build.exists_last (Build.start p entry items)
    · exact .inr ⟨root, hrun⟩
    · obtain ⟨_, _, path, _, _, hpath⟩ := Build.of_stuck hstuck
      exact .inl ⟨path, hpath⟩

theorem includeDepth_le_of_tree {p : Plan} {entry : Path} {t : Node} (h : p.tree entry = some t)
    {trail : Trail} (htrail : trail ∈ t.trails) : trail.includeDepth ≤ p.maxDepth := by
  rw [tree_eq_draft] at h
  obtain ⟨d, hd, rfl⟩ := Option.map_eq_some_iff.mp h
  obtain ⟨b, hreached, _, _, rfl⟩ := Reached.of_draft hd
  obtain ⟨original, horiginal, hcopied⟩ := exists_original _ htrail
  rw [hcopied.includeDepth]
  exact hreached.sound.within original horiginal

/-- However includes lead back, no build goes on for ever, and a tree comes out unless a file cannot
be told. Before loop bodies are copied, no file is expanded twice, the entry included, and the
circular leaves are exactly the includes within the depth limit whose file is expanded before them.
Every way down the tree passes at most as many recipes below the root as the limit allows. -/
theorem tree_expands_once (p : Plan) (entry : Path) :
    (∀ states : ℕ → Build p, ∃ i, ¬Build.Leads (states (i + 1)) (states i)) ∧
    ((∃ path, p.items path = none) ∨ ∃ t, p.tree entry = some t) ∧
    p.tree entry = (p.draft.tree entry).map (Node.withLoops p.survey.collections) ∧
    (∀ d, p.draft.tree entry = some d →
      (∃ others, (d.ofKind .recipe).map Node.info = (entry :: others).map recipeInfo ∧
        ((entry :: others).map Path.normalize).Nodup) ∧
      (∀ before above r, p.Meets entry before above r → ∃ info after,
        d.trails = before ++ ⟨above, info⟩ :: after ∧
        (info.kind = .circular ↔ p.Repeats before above r)) ∧
      ∀ before t after, d.trails = before ++ t :: after → t.here.kind = .circular →
        ∃ r, p.Meets entry before t.above r) ∧
    ∀ t, p.tree entry = some t → ∀ trail ∈ t.trails, trail.includeDepth ≤ p.maxDepth := by
  have hends : ∀ states : ℕ → Build p, ∃ i, ¬Build.Leads (states (i + 1)) (states i) := by
    have hwf : IsWellFounded (Build p) Build.Leads := ⟨⟨fun b => Build.acc b.visited b.top b.outer⟩⟩
    exact fun states => WellFounded.not_rel_apply_succ states
  refine ⟨hends, exists_tree p entry, tree_eq_draft p entry, ?_,
    fun t ht _ => includeDepth_le_of_tree ht⟩
  intro d hd
  refine ⟨recipes_draft hd, fun before above r hmeets => circular_iff_of_meets hd hmeets, ?_⟩
  intro before t after hsplit hkind
  exact meets_of_circular hd hsplit hkind

def detourEntry : Path := ⟨"/a/recipes/default.rb"⟩
def detourFile : Path := ⟨"/a/recipes/detour.rb"⟩
def middleFile : Path := ⟨"/a/recipes/middle.rb"⟩
def lastFile : Path := ⟨"/a/recipes/last.rb"⟩

def detourInclude : Reference := ⟨detourEntry, 1, .includeRecipe, "a::detour", false⟩
def directInclude : Reference := ⟨detourEntry, 2, .includeRecipe, "a::middle", false⟩
def middleInclude : Reference := ⟨detourFile, 1, .includeRecipe, "a::middle", false⟩
def lastInclude : Reference := ⟨middleFile, 1, .includeRecipe, "a::last", false⟩

/-- A recipe that includes another one twice, first on a detour. -/
def detourPlan : Plan where
  world := ⟨⟨[(["a"], .directory), (["a", "recipes"], .directory),
    (["a", "recipes", "default.rb"], .file [] false),
    (["a", "recipes", "detour.rb"], .file [] false),
    (["a", "recipes", "middle.rb"], .file [] false),
    (["a", "recipes", "last.rb"], .file [] false)]⟩, [], [], [], []⟩
  survey := ⟨[⟨detourEntry, "a", .recipe, ⟨[], [.inclusion detourInclude, .inclusion directInclude], []⟩⟩,
    ⟨detourFile, "a", .recipe, ⟨[], [.inclusion middleInclude], []⟩⟩,
    ⟨middleFile, "a", .recipe, ⟨[], [.inclusion lastInclude], []⟩⟩,
    ⟨lastFile, "a", .recipe, ⟨[], [], []⟩⟩], .null, []⟩
  dirs := [⟨"/a"⟩]
  maxDepth := 2
  limit := 80

def detourTree : Node :=
  .mk (recipeInfo detourEntry)
    [.mk (recipeInfo detourFile)
      [.mk (recipeInfo middleFile) [.leaf (includeLeaf .truncated "a::last" lastInclude)]],
    .leaf ((Info.plain .circular "a::middle").placed middleFile none)]

theorem detourPlan_items :
    detourPlan.items detourEntry = some [.inclusion detourInclude, .inclusion directInclude] ∧
    detourPlan.items detourFile = some [.inclusion middleInclude] ∧
    detourPlan.items middleFile = some [.inclusion lastInclude] := ⟨rfl, rfl, rfl⟩

theorem detourPlan_tree : detourPlan.tree detourEntry = some detourTree := by
  obtain ⟨hentry, hdetour, hmiddle⟩ := detourPlan_items
  have hlimit : detourPlan.maxDepth = 2 := rfl
  have hname : detourInclude.recipe? = some ⟨⟨"a"⟩, "detour"⟩ := by decide +kernel
  have hname₁ : directInclude.recipe? = some ⟨⟨"a"⟩, "middle"⟩ := by decide +kernel
  have hname₂ : middleInclude.recipe? = some ⟨⟨"a"⟩, "middle"⟩ := by decide +kernel
  have hname₃ : lastInclude.recipe? = some ⟨⟨"a"⟩, "last"⟩ := by decide +kernel
  have hfile : Locate.recipeFile? detourPlan.world detourPlan.dirs ⟨⟨"a"⟩, "detour"⟩ =
      some detourFile := by
    decide +kernel
  have hfile' : Locate.recipeFile? detourPlan.world detourPlan.dirs ⟨⟨"a"⟩, "middle"⟩ =
      some middleFile := by
    decide +kernel
  have hnew : detourFile.normalize ≠ detourEntry.normalize := by decide +kernel
  have hnew₁ : middleFile.normalize ≠ detourFile.normalize := by decide +kernel
  have hnew₂ : middleFile.normalize ≠ detourEntry.normalize := by decide +kernel
  have hsame : detourPlan.finished = id := funext fun nodes => by
    rw [finished, show detourPlan.survey.collections = [] from rfl, funext expandLoop_nil, map_id']
    rfl
  rw [tree_recursion, recursiveTree, hentry, detourTree]
  simp [nodesOf, nodeOf, hname, hname₁, hname₂, hname₃, hlimit, hfile, hfile', hnew, hnew₁, hnew₂,
    hdetour, hmiddle, hsame, RecipeName.text]

/-- The second include of a file that was expanded on a detour is circular. -/
theorem detourPlan_expands_once : detourPlan.tree detourEntry = some detourTree ∧
    (∃ others, (detourTree.ofKind .recipe).map Node.info = (detourEntry :: others).map recipeInfo ∧
      ((detourEntry :: others).map Path.normalize).Nodup) ∧
    (∃ before r, detourPlan.Meets detourEntry before [recipeInfo detourEntry] r ∧
      detourPlan.Repeats before [recipeInfo detourEntry] r) ∧
    ∀ trail ∈ detourTree.trails, trail.includeDepth ≤ 2 := by
  obtain ⟨_, _, _, hdraft, hdepth⟩ := tree_expands_once detourPlan detourEntry
  obtain ⟨honce, hmeets, hcircular⟩ := hdraft detourTree detourPlan_tree
  refine ⟨detourPlan_tree, honce, ?_, hdepth detourTree detourPlan_tree⟩
  have hsplit : ∃ before, detourTree.trails = before ++
      [⟨[recipeInfo detourEntry], (Info.plain .circular "a::middle").placed middleFile none⟩] :=
    ⟨_ :: _ :: _ :: [_], rfl⟩
  obtain ⟨before, hbefore⟩ := hsplit
  obtain ⟨r, hr⟩ := hcircular before _ [] hbefore rfl
  obtain ⟨info, after, hafter, hkind⟩ := hmeets _ _ r hr
  refine ⟨before, r, hr, hkind.mp ?_⟩
  rw [hbefore, append_cancel_left_eq] at hafter
  have hinfo : (Info.plain .circular "a::middle").placed middleFile none = info :=
    congrArg Trail.here (List.cons.inj hafter).1
  rw [← hinfo]
  rfl

end Plan
end CookbookAtlas.Execution
