import CookbookAtlas.Proofs.Attribute.Namesakes
import CookbookAtlas.Proofs.Attribute.Repetition
import CookbookAtlas.Proofs.Execution.Once

/-! Recipes within reach. A build follows every include of a recipe that is expanded above the depth
limit. Along a chain of includes no longer than the limit all recipes are expanded, unless one of
them was first met at the limit: it is not expanded again, and its own includes are cut off. -/
namespace CookbookAtlas

open List

/-- A survey of files whose assigned mappings have each key once, and whose attributes have no point
in a key. -/
structure Survey.Plain (s : Survey) (entries : List Survey.Entry) : Prop where
  made : s = .ofEntries entries
  keyed : ∀ e ∈ entries, ∀ a ∈ e.parsed.assignments, ∀ v ∈ a.value, v.isKeyed = true
  plainKeys : Attribute.PlainKeys s.attributes

theorem Survey.Plain.values_ne_nil {s : Survey} {entries : List Survey.Entry}
    (h : s.Plain entries) : ∀ c ∈ s.collections, c.values ≠ [] := by
  obtain ⟨rfl, hkeyed, hplain⟩ := h
  have hassigned : ∀ a ∈ entries.flatMap fun e => e.parsed.assignments,
      ∀ v ∈ a.value, v.isKeyed = true := by
    intro a ha
    obtain ⟨e, he, hmem⟩ := mem_flatMap.mp ha
    exact hkeyed e he a hmem
  exact fun c hc => Attribute.values_ne_nil (Attribute.isKeyed_tree hassigned) hplain hc

namespace Recipe

mutual
def Item.inclusions : Item → List Reference
  | .resource _ => []
  | .inclusion r => [r]
  | .block _ children => inclusionsIn children

def inclusionsIn : List Item → List Reference
  | [] => []
  | item :: rest => item.inclusions ++ inclusionsIn rest
end

end Recipe

namespace Execution
namespace Plan

open Recipe (Item)

variable {chain : List Path} {d : Node} {entry file next : Path} {p : Plan}

def included (p : Plan) (items : List Item) : List Path :=
  (Recipe.inclusionsIn items).filterMap p.resolve?

/-- The recipe in `file` has a static include that names the recipe in `next`. -/
def Includes (p : Plan) (file next : Path) : Prop :=
  ∃ items, p.items file = some items ∧ next ∈ p.included items

@[simp] theorem included_nil (p : Plan) : p.included [] = [] := rfl

@[simp] theorem included_resource (p : Plan) (r : Recipe.Resource) (rest : List Item) :
    p.included (.resource r :: rest) = p.included rest := by
  simp [included, Recipe.inclusionsIn, Recipe.Item.inclusions]

theorem mem_included_inclusion {r : Recipe.Reference} {rest : List Item} :
    next ∈ p.included (.inclusion r :: rest) ↔
    p.resolve? r = some next ∨ next ∈ p.included rest := by
  simp [included, Recipe.inclusionsIn, Recipe.Item.inclusions]

theorem mem_included_block {h : Recipe.Heading} {children rest : List Item} :
    next ∈ p.included (.block h children :: rest) ↔
    next ∈ p.included children ∨ next ∈ p.included rest := by
  simp [included, Recipe.inclusionsIn, Recipe.Item.inclusions]

theorem Includes.of_normalize {path : Path} (h : p.Includes file next)
    (hentry : p.survey.entry? file ≠ none)
    (hsame : path.normalize = file.normalize) : p.Includes path next := by
  have hlookup : p.survey.entry? path = p.survey.entry? file := by
    rw [Survey.entry?, hsame, Survey.entry?]
  obtain ⟨items, hitems, hnext⟩ := h
  refine ⟨items, ?_, hnext⟩
  rw [Plan.items] at hitems ⊢
  rw [hlookup]
  cases hfound : p.survey.entry? file with
  | none => exact absurd hfound hentry
  | some entry => simpa [hfound] using hitems

/-- One of the open containers at the given include depth has an include of the file left. -/
def Waits (p : Plan) (stack : List Open) (depth : Nat) (file : Path) : Prop :=
  ∃ o ∈ stack, o.depth = depth ∧ file ∈ p.included o.rest

theorem waits_cons {o : Open} {stack : List Open} {depth : Nat} :
    p.Waits (o :: stack) depth file ↔
    (o.depth = depth ∧ file ∈ p.included o.rest) ∨ p.Waits stack depth file := by
  simp [Waits]

namespace Build

variable {p : Plan} {b next : Build p.draft}

/-- An include at the given depth that is expanded, or waits. -/
def Settled (b : Build p.draft) (depth : Nat) (file : Path) : Prop :=
  file.normalize ∈ b.visited ∨ p.Waits (b.top :: b.outer) depth file

/-- Above the depth limit an include that waits is expanded when its turn comes. -/
theorem Settled.turn {depth : Nat} (h : b.Settled depth file) (hdepth : depth < p.maxDepth)
    (hturn : Turn b next) : next.Settled depth file := by
  rw [Settled, waits_cons] at h
  cases hturn with
  | close hrest houter =>
    rw [hrest, houter] at h
    rcases h with hseen | ⟨_, hnone⟩ | hwaits
    · exact .inl hseen
    · simp at hnone
    · rw [waits_cons] at hwaits
      exact .inr (waits_cons.mpr hwaits)
  | resource hrest =>
    rw [hrest, included_resource] at h
    exact h.imp_right waits_cons.mpr
  | refused hrest hinclude =>
    rw [hrest, mem_included_inclusion] at h
    rcases h with hseen | ⟨hsame, hfile | hwaits⟩ | hwaits
    · exact .inl hseen
    · by_contra hnot
      have hnew : file.normalize ∉ b.visited := fun hseen => hnot (.inl hseen)
      have hexpanded := expandInclude_eq_inr_iff.mpr ⟨hfile, hsame ▸ hdepth, hnew⟩
      exact absurd (hinclude.symm.trans hexpanded) (by simp)
    · exact .inr (waits_cons.mpr (.inl ⟨hsame, hwaits⟩))
    · exact .inr (waits_cons.mpr (.inr hwaits))
  | block hrest =>
    rw [hrest, mem_included_block] at h
    refine h.imp_right fun hwaits => waits_cons.mpr ?_
    rcases hwaits with ⟨hsame, hinner | hwaits⟩ | hwaits
    · exact .inl ⟨hsame, hinner⟩
    · exact .inr (waits_cons.mpr (.inl ⟨hsame, hwaits⟩))
    · exact .inr (waits_cons.mpr (.inr hwaits))
  | @recipe _ _ _ path hrest hinclude _ =>
    rw [hrest, mem_included_inclusion] at h
    rcases h with hseen | ⟨hsame, hfile | hwaits⟩ | hwaits
    · exact .inl (mem_cons_of_mem _ hseen)
    · have hpath : path = file := Option.some.inj ((expandInclude_eq_inr_iff.mp hinclude).1.symm.trans hfile)
      exact .inl (hpath ▸ mem_cons_self)
    · exact .inr (waits_cons.mpr (.inr (waits_cons.mpr (.inl ⟨hsame, hwaits⟩))))
    · exact .inr (waits_cons.mpr (.inr (waits_cons.mpr (.inr hwaits))))

/-- A way to a recipe was there before, or leads to the recipe that the turn opens. -/
theorem Turn.mem_trails_cases (h : Turn b next) (hsound : b.Sound) {t : Trail}
    (ht : t ∈ next.soFar.trails) (hhere : t.here = recipeInfo file) : t ∈ b.soFar.trails ∨
      p.items file = some next.top.rest ∧ next.top.depth = t.includeDepth := by
  have hkind : t.here.kind = .recipe := by rw [hhere]; rfl
  cases h with
  | close hrest houter =>
    rw [soFar_close houter] at ht
    exact .inl ht
  | @resource r rest hrest =>
    rcases mem_append.mp (trails_add b rest _ ▸ ht) with ht | ht
    · exact .inl ht
    · rw [mem_singleton.mp ht] at hkind
      exact absurd hkind (kind_resourceNode_ne p.draft r).1
  | @refused r rest leaf hrest hinclude =>
    rcases mem_append.mp (trails_add b rest leaf ▸ ht) with ht | ht
    · exact .inl ht
    · rw [mem_singleton.mp ht] at hkind
      exact absurd hkind (kind_of_expandInclude hinclude).1
  | block hrest =>
    rw [soFar_enter, trails_add, mem_append, mem_singleton] at ht
    rcases ht with ht | rfl
    · exact .inl ht
    · simp [blockInfo, Info.plain] at hkind
  | @recipe r rest items path hrest hinclude hitems =>
    rw [soFar_enter, trails_add, mem_append, mem_singleton] at ht
    rcases ht with ht | rfl
    · exact .inl ht
    · have hpath : path = file := recipeInfo_injective hhere
      subst hpath
      exact .inr ⟨hitems, (hsound.depths.includeDepth (recipeInfo path)).symm⟩

/-- Every include of a recipe above the depth limit is settled. -/
def Covered (b : Build p.draft) : Prop :=
  ∀ t ∈ b.soFar.trails, ∀ file next, t.here = recipeInfo file → t.includeDepth < p.maxDepth →
    p.Includes file next → b.Settled t.includeDepth next

theorem Covered.start {items : List Item} (hitems : p.items entry = some items) :
    (Build.start p.draft entry items).Covered := by
  intro t ht file next hhere _ hincludes
  rw [trails_start, mem_singleton] at ht
  subst ht
  have hfile : entry = file := recipeInfo_injective hhere
  obtain ⟨own, hown, hnext⟩ := hincludes
  have hsame : own = items := Option.some.inj (hown.symm.trans (hfile ▸ hitems))
  exact .inr (waits_cons.mpr (.inl ⟨rfl, hsame ▸ hnext⟩))

theorem Covered.turn (h : b.Covered) (hsound : b.Sound) (hturn : Turn b next) : next.Covered := by
  intro t ht file target hhere hdepth hincludes
  rcases hturn.mem_trails_cases hsound ht hhere with hold | ⟨hitems, htop⟩
  · exact (h t hold file target hhere hdepth hincludes).turn hdepth hturn
  · obtain ⟨own, hown, htarget⟩ := hincludes
    have hsame : own = next.top.rest := Option.some.inj (hown.symm.trans hitems)
    exact .inr (waits_cons.mpr (.inl ⟨htop, hsame ▸ htarget⟩))

end Build

theorem Reached.covered {b : Build p.draft} (h : p.draft.Reached entry b) : b.Covered := by
  have hboth : b.Sound ∧ b.Covered := h.induction (motive := fun b => b.Sound ∧ b.Covered)
    (fun items hitems => ⟨.start entry items, .start hitems⟩)
    fun _ _ hinv hturn => ⟨hinv.1.turn hturn, hinv.2.turn hinv.1 hturn⟩
  exact hboth.2

/-- Once a draft is finished, no include of a recipe above the depth limit is left out. -/
theorem expanded_of_includes (h : p.draft.tree entry = some d) {t : Trail} (ht : t ∈ d.trails)
    (hhere : t.here = recipeInfo file) (hdepth : t.includeDepth < p.maxDepth)
    (hincludes : p.Includes file next) : Expanded d.trails next := by
  obtain ⟨b, hreached, hrest, houter, rfl⟩ := Reached.of_draft h
  rcases hreached.covered t ht file next hhere hdepth hincludes with hseen | ⟨o, ho, _, hwaits⟩
  · exact hreached.sound.expanded_iff.mpr hseen
  · rw [houter, mem_singleton] at ho
    rw [ho, hrest] at hwaits
    simp at hwaits

/-- What is expanded for `file` does not lead on to `next`: it stands at the depth limit, or the
file is unknown to the survey and was read by another path, without that include. -/
def StopsAt (p : Plan) (trails : List Trail) (file next : Path) : Prop :=
  ∃ t ∈ trails, ∃ path, t.here = recipeInfo path ∧ path.normalize = file.normalize ∧
    (t.includeDepth = p.maxDepth ∨ p.survey.entry? file = none ∧ ¬p.Includes path next)

/-- One include further: the next recipe is expanded, unless the build stops before it. -/
theorem expanded_or_stopsAt (h : p.draft.tree entry = some d) (hfile : Expanded d.trails file)
    (hincludes : p.Includes file next) : Expanded d.trails next ∨ p.StopsAt d.trails file next := by
  obtain ⟨t, ht, path, hhere, hsame⟩ := hfile
  by_cases hlimit : t.includeDepth = p.maxDepth
  · exact .inr ⟨t, ht, path, hhere, hsame, .inl hlimit⟩
  have hwithin : t.includeDepth ≤ p.maxDepth := by
    obtain ⟨b, hreached, _, _, rfl⟩ := Reached.of_draft h
    exact hreached.sound.within t ht
  by_cases hpath : p.Includes path next
  · exact .inl (expanded_of_includes h ht hhere (Nat.lt_of_le_of_ne hwithin hlimit) hpath)
  · have hentry : p.survey.entry? file = none := by
      by_contra hknown
      exact hpath (hincludes.of_normalize hknown hsame)
    exact .inr ⟨t, ht, path, hhere, hsame, .inr ⟨hentry, hpath⟩⟩

/-- All along a chain from an expanded recipe, the next one is expanded or the build stops. -/
theorem expanded_along (h : p.draft.tree entry = some d) (hfile : Expanded d.trails file)
    (hchain : (file :: chain).IsChain p.Includes) :
    Expanded d.trails ((file :: chain).getLast (cons_ne_nil _ _)) ∨
      ∃ before stop next after, file :: chain = before ++ stop :: next :: after ∧
      p.StopsAt d.trails stop next := by
  induction chain generalizing file with
  | nil => exact .inl hfile
  | cons next rest ih =>
    obtain ⟨hincludes, hrest⟩ := isChain_cons_cons.mp hchain
    rcases expanded_or_stopsAt h hfile hincludes with hnext | hstops
    · rcases ih hnext hrest with hlast | ⟨before, stop, following, after, hsplit, hstops⟩
      · exact .inl (by simpa using hlast)
      · exact .inr ⟨file :: before, stop, following, after, by rw [hsplit, cons_append], hstops⟩
    · exact .inr ⟨[], file, next, rest, rfl, hstops⟩

section Copies

variable {p : Plan} {d : Node} (hvalues : ∀ c ∈ p.survey.collections, c.values ≠ [])
include hvalues

theorem Expanded.withLoops (h : Expanded d.trails file) :
    Expanded (d.withLoops p.survey.collections).trails file := by
  obtain ⟨s, hs, path, hhere, hsame⟩ := h
  obtain ⟨t, ht, hcopied⟩ := exists_copy hvalues d hs
  exact ⟨t, ht, path, (hcopied.here (by rw [hhere]; rfl)).trans hhere, hsame⟩

theorem StopsAt.withLoops (h : p.StopsAt d.trails file next) :
    p.StopsAt (d.withLoops p.survey.collections).trails file next := by
  obtain ⟨s, hs, path, hhere, hsame, hwhy⟩ := h
  obtain ⟨t, ht, hcopied⟩ := exists_copy hvalues d hs
  refine ⟨t, ht, path, (hcopied.here (by rw [hhere]; rfl)).trans hhere, hsame, ?_⟩
  rw [hcopied.includeDepth]
  exact hwhy

end Copies

/-- The last recipe of a chain of includes from the entry is expanded, or the build stops at a
recipe on the way, behind the entry. -/
def Follows (p : Plan) (trails : List Trail) (entry : Path) (chain : List Path) : Prop :=
  Expanded trails ((entry :: chain).getLast (cons_ne_nil _ _)) ∨
    ∃ before stop next after, chain = before ++ stop :: next :: after ∧ p.StopsAt trails stop next

theorem Follows.withLoops (h : p.Follows d.trails entry chain)
    (hvalues : ∀ c ∈ p.survey.collections, c.values ≠ []) :
    p.Follows (d.withLoops p.survey.collections).trails entry chain := by
  rcases h with hlast | ⟨before, stop, next, after, hsplit, hstops⟩
  · exact .inl (hlast.withLoops hvalues)
  · exact .inr ⟨before, stop, next, after, hsplit, hstops.withLoops hvalues⟩

/-- A build stops at no recipe of a chain within the depth limit but one met at the limit before. -/
theorem follows_draft (hd : p.draft.tree entry = some d)
    (hchain : (entry :: chain).IsChain p.Includes)
    (hlength : chain.length ≤ p.maxDepth) : p.Follows d.trails entry chain := by
  obtain ⟨others, hroot⟩ := trails_draft_root hd
  have hentry : (⟨[], recipeInfo entry⟩ : Trail) ∈ d.trails := hroot ▸ mem_cons_self
  cases chain with
  | nil => exact .inl ⟨_, hentry, entry, rfl, rfl⟩
  | cons first rest =>
    obtain ⟨hincludes, hrest⟩ := isChain_cons_cons.mp hchain
    have hdepth : Trail.includeDepth ⟨[], recipeInfo entry⟩ < p.maxDepth := by
      rw [Trail.includeDepth_root]
      exact Nat.lt_of_lt_of_le (Nat.zero_lt_succ _) hlength
    have hfirst := expanded_of_includes hd hentry rfl hdepth hincludes
    exact (expanded_along hd hfirst hrest).imp_left fun hlast => by simpa using hlast

/-- A recipe that a chain of includes reaches within the depth limit is expanded, unless a recipe on
the way, behind the entry, was first met on a longer chain that ends at the limit. So it is before
loop bodies are copied, and after, if every collection has an item, as in a plain survey. -/
theorem chain_followed (p : Plan) (entry : Path) (chain : List Path)
    (hchain : (entry :: chain).IsChain p.Includes) (hlength : chain.length ≤ p.maxDepth) :
    ((∃ path, p.items path = none) ∨ ∃ t, p.tree entry = some t) ∧
    p.tree entry = (p.draft.tree entry).map (Node.withLoops p.survey.collections) ∧
    ∀ d, p.draft.tree entry = some d → p.Follows d.trails entry chain ∧
      ((∀ c ∈ p.survey.collections, c.values ≠ []) →
        p.Follows (d.withLoops p.survey.collections).trails entry chain) ∧
      ∀ entries, p.survey.Plain entries →
      p.Follows (d.withLoops p.survey.collections).trails entry chain := by
  refine ⟨exists_tree p entry, tree_eq_draft p entry, fun d hd => ?_⟩
  have hdraft := follows_draft hd hchain hlength
  exact ⟨hdraft, hdraft.withLoops, fun entries hplain => hdraft.withLoops hplain.values_ne_nil⟩

theorem detour_chain : [detourEntry, middleFile, lastFile].IsChain detourPlan.Includes := by
  have hmiddle : detourPlan.resolve? directInclude = some middleFile := by decide +kernel
  have hlast : detourPlan.resolve? lastInclude = some lastFile := by decide +kernel
  obtain ⟨hentry, _, hitems⟩ := detourPlan_items
  refine .cons_cons ⟨_, hentry, ?_⟩ (.cons_cons ⟨_, hitems, ?_⟩ (.singleton _))
  · exact mem_included_inclusion.mpr (.inr (mem_included_inclusion.mpr (.inl hmiddle)))
  · exact mem_included_inclusion.mpr (.inl hlast)

theorem detour_not_expanded : ¬Expanded detourTree.trails lastFile := by
  have hentry : detourEntry.normalize ≠ lastFile.normalize := by decide +kernel
  have hdetour : detourFile.normalize ≠ lastFile.normalize := by decide +kernel
  have hmiddle : middleFile.normalize ≠ lastFile.normalize := by decide +kernel
  have htrails : detourTree.trails.map Trail.here = [recipeInfo detourEntry, recipeInfo detourFile,
      recipeInfo middleFile, includeLeaf .truncated "a::last" lastInclude,
      (Info.plain .circular "a::middle").placed middleFile none] := rfl
  rintro ⟨t, ht, path, hhere, hsame⟩
  have hmem := htrails ▸ mem_map_of_mem (f := Trail.here) ht
  rw [hhere] at hmem
  simp only [mem_cons, not_mem_nil, or_false, recipeInfo_injective.eq_iff] at hmem
  rcases hmem with rfl | rfl | rfl | hleaf | hleaf
  · exact hentry hsame
  · exact hdetour hsame
  · exact hmiddle hsame
  · simpa [recipeInfo, includeLeaf, Info.placed, Info.plain] using congrArg Info.kind hleaf
  · simpa [recipeInfo, Info.placed, Info.plain] using congrArg Info.kind hleaf

/-- A recipe two includes away is left out at depth limit two, since the recipe between was first
met on a detour. -/
theorem detour_leaves_out : detourPlan.tree detourEntry = some detourTree ∧
    [detourEntry, middleFile, lastFile].IsChain detourPlan.Includes ∧
    [middleFile, lastFile].length ≤ detourPlan.maxDepth ∧ ¬Expanded detourTree.trails lastFile :=
  ⟨detourPlan_tree, detour_chain, le_refl 2, detour_not_expanded⟩

theorem detour_stops : [detourEntry, middleFile, lastFile].IsChain detourPlan.Includes ∧
    detourPlan.StopsAt detourTree.trails middleFile lastFile ∧
    detourPlan.Follows (detourTree.withLoops detourPlan.survey.collections).trails detourEntry
      [middleFile, lastFile] := by
  obtain ⟨_, _, hdraft⟩ := chain_followed detourPlan detourEntry [middleFile,
    lastFile] detour_chain (le_refl 2)
  obtain ⟨hfollows, hloops, -⟩ := hdraft detourTree detourPlan_tree
  refine ⟨detour_chain, ?_, hloops (by simp [detourPlan])⟩
  rcases hfollows with hlast | ⟨before, stop, next, after, hsplit, hstops⟩
  · exact absurd hlast detour_not_expanded
  · cases before with
    | nil =>
      obtain ⟨rfl, hnext⟩ := List.cons.inj hsplit
      obtain ⟨rfl, _⟩ := List.cons.inj hnext
      exact hstops
    | cons first before =>
      have hlength := congrArg List.length hsplit
      simp at hlength
      omega

end Plan
end Execution
end CookbookAtlas
