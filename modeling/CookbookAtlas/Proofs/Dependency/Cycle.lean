import CookbookAtlas.Dependency.Cycle
import CookbookAtlas.Proofs.Dependency.Closure
import Mathlib.Data.List.Chain
import Mathlib.Data.List.Nodup

/-! Cycles of dependencies. The search answers with a closed path along dependencies on which only
the two ends are the same name, and it answers with nothing exactly when no name depends on itself,
directly or not. -/
namespace CookbookAtlas.Dependency

open List

open Relation (TransGen)

variable {g : Graph} {path : List String} {name : String}

namespace Graph

/-- Graphs as they come about: name by name and dependency by dependency. -/
inductive Built : Graph → Prop
  | empty : Built Graph.empty
  | ensureNode {g : Graph} (name : String) : Built g → Built (g.ensureNode name)
  | add {g : Graph} (source target constraint : String) : Built g →
    Built (g.add source target constraint)

theorem Built.foldl {α : Type} {step : Graph → α → Graph}
    (hstep : ∀ g x, g.Built → (step g x).Built) (h : g.Built)
    (xs : List α) : (xs.foldl step g).Built := by
  induction xs generalizing g with
  | nil => exact h
  | cons x xs ih => exact ih (hstep g x h)

theorem built_ofRegistry (r : Lock.Registry) : (ofRegistry r).Built := by
  have hnodes : (r.records.foldl (fun g record => g.ensureNode record.name) Graph.empty).Built :=
    Built.foldl (fun _ record h => h.ensureNode record.name) .empty r.records
  have hedge : ∀ (g : Graph) (edge : Lock.Edge), g.Built → (g.addEdge edge).Built := fun _ edge h =>
    Built.foldl (fun _ t h => h.add edge.cookbook t.name t.constraint) h edge.dependencies
  exact Built.foldl hedge hnodes (r.edges.map Prod.snd)

theorem nodes_add (g : Graph) (source target constraint : String) :
    (g.add source target constraint).nodes = ((g.ensureNode source).ensureNode target).nodes := by
  rw [add]
  split <;> rfl

theorem links_ensureNode (g : Graph) (name : String) : (g.ensureNode name).links = g.links := by
  by_cases h : name ∈ g.nodes <;> simp [ensureNode, h]

theorem mem_links_add {source target constraint : String} {l : Link}
    (h : l ∈ (g.add source target constraint).links) :
    l ∈ g.links ∨ l = ⟨source, target, constraint⟩ := by
  rw [add] at h
  split at h
  · exact .inl (by simpa only [links_ensureNode] using h)
  · simpa only [links_ensureNode, mem_append, mem_singleton] using h

theorem Built.source_mem (h : g.Built) : ∀ l ∈ g.links, l.source ∈ g.nodes := by
  induction h with
  | empty => simp [Graph.empty]
  | ensureNode name _ ih =>
    intro l hl
    rw [links_ensureNode] at hl
    exact (mem_nodes_ensureNode ..).mpr (.inl (ih l hl))
  | add source target constraint _ ih =>
    intro l hl
    rw [nodes_add, mem_nodes_ensureNode, mem_nodes_ensureNode]
    rcases mem_links_add hl with hl | rfl
    · exact .inl (.inl (ih l hl))
    · exact .inl (.inr rfl)

def DependsOn (g : Graph) (a b : String) : Prop := ∃ l ∈ g.links, l.source = a ∧ l.target = b

theorem mem_direct_iff {a b : String} : b ∈ g.direct a ↔ g.DependsOn a b := by
  simp [direct, DependsOn]

/-- A closed path along dependencies on which no name but the first one comes again. -/
structure IsCycle (g : Graph) (path : List String) : Prop where
  two_le_length : 2 ≤ path.length
  ends_eq : path.head? = path.getLast?
  follows : path.IsChain g.DependsOn
  distinct : path.dropLast.Nodup

def Ends (g : Graph) (name : String) : Prop := Acc (fun b a => g.DependsOn a b) name

theorem ends_of_direct (h : ∀ d ∈ g.direct name, g.Ends d) : g.Ends name :=
  .intro name fun d hd => h d (mem_direct_iff.mpr hd)

theorem Ends.not_transGen (h : g.Ends name) : ¬TransGen g.DependsOn name name := by
  induction h with
  | intro name _ ih =>
    intro hcycle
    obtain ⟨next, hstep, hback⟩ := TransGen.head'_iff.mp hcycle
    -- the same cycle, entered one step later
    exact ih next hstep (TransGen.tail' hback hstep)

theorem Built.ends_of_not_mem (h : g.Built) (hname : name ∉ g.nodes) : g.Ends name := by
  refine .intro name fun d hd => ?_
  obtain ⟨l, hl, rfl, -⟩ := hd
  exact absurd (h.source_mem l hl) hname

theorem IsCycle.transGen (h : g.IsCycle path) : ∃ name, TransGen g.DependsOn name name := by
  obtain ⟨hlength, hends, hfollows, -⟩ := h
  rcases path with _ | ⟨name, _ | ⟨next, rest⟩⟩
  · simp at hlength
  · simp at hlength
  · obtain ⟨hstep, hrest⟩ := isChain_cons_cons.mp hfollows
    have hlast : (next :: rest).getLast (by simp) = name := by
      rw [List.head?_cons, List.getLast?_cons_cons, List.getLast?_eq_some_getLast (by simp)] at hends
      exact (Option.some.inj hends).symm
    exact ⟨name, TransGen.head' hstep (relationReflTransGen_of_exists_isChain_cons rest hrest hlast)⟩

end Graph

theorem takeWhile_append_isPrefix (h : name ∈ path) :
    path.takeWhile (· ≠ name) ++ [name] <+: path := by
  induction path with
  | nil => simp at h
  | cons first path ih =>
    by_cases hfirst : first = name
    · simp [hfirst]
    · have hlater : name ∈ path := (mem_cons.mp h).resolve_left (Ne.symm hfirst)
      simpa [hfirst] using ih hlater

/-- A path of distinct names that goes on to a name it has met closes a cycle. -/
theorem isCycle_closedPath {last : String}
    (hfollows : (last :: path).IsChain fun b a => g.DependsOn a b)
    (hdistinct : (last :: path).Nodup) (hmet : name ∈ last :: path)
    (hstep : g.DependsOn last name) : g.IsCycle (closedPath (last :: path) name) := by
  have hpart := takeWhile_append_isPrefix hmet
  have hhead : ((last :: path).takeWhile (· ≠ name) ++ [name]).head? = some last := by
    by_cases h : last = name <;> simp [h]
  rw [closedPath]
  generalize (last :: path).takeWhile (· ≠ name) = walked at hpart hhead
  refine ⟨by simp, by simp [List.getLast?_cons], ?_, ?_⟩
  · have hwalked : (walked ++ [name]).reverse.IsChain g.DependsOn := by
      rw [isChain_reverse]
      exact hfollows.prefix hpart
    refine hwalked.append (.singleton name) fun a ha b hb => ?_
    rw [List.getLast?_reverse, hhead] at ha
    obtain rfl : last = a := by simpa using ha
    obtain rfl : name = b := by simpa using hb
    exact hstep
  · rw [dropLast_concat]
    exact nodup_reverse.mpr (hdistinct.sublist hpart.sublist)

/-- The dependencies still to follow from each name of a path, last name first: those of a name
that are not among them lead to no cycle, and once the name itself does not, the same is true of
the rest of the path. -/
def Owed (g : Graph) : List String → List (List String) → Prop
  | [], [] => True
  | name :: path, deps :: pending =>
    (∀ d ∈ deps, d ∈ g.direct name) ∧ (∀ d ∈ g.direct name, d ∈ deps ∨ g.Ends d) ∧
      (g.Ends name → Owed g path pending)
  | _, _ => False

/-- A search on its way: the names met are on the path or lead to no cycle. -/
structure Searching (g : Graph) (unmet path : List String) (pending : List (List String)) :
    Prop where
  follows : path.IsChain fun b a => g.DependsOn a b
  distinct : path.Nodup
  met : ∀ name, name ∉ unmet → name ∈ path ∨ g.Ends name
  owed : Owed g path pending

section
variable {g : Graph} {unmet path more : List String} {rest : List (List String)} {name : String}

theorem Owed.drop (h : Owed g path ((name :: more) :: rest)) (hname : g.Ends name) :
    Owed g path (more :: rest) := by
  cases path with
  | nil => exact h.elim
  | cons last path =>
    obtain ⟨hdeps, hdirect, hrest⟩ := h
    refine ⟨fun d hd => hdeps d (mem_cons_of_mem _ hd), fun d hd => ?_, hrest⟩
    rcases hdirect d hd with hd | hends
    · rcases mem_cons.mp hd with rfl | hd
      · exact .inr hname
      · exact .inl hd
    · exact .inr hends

theorem Owed.step (h : Owed g path ((name :: more) :: rest)) :
    ∃ last before, path = last :: before ∧ g.DependsOn last name := by
  cases path with
  | nil => exact h.elim
  | cons last path => exact ⟨last, path, rfl, Graph.mem_direct_iff.mp (h.1 name mem_cons_self)⟩

theorem met_erase (hmet : ∀ n, n ∉ unmet → n ∈ path ∨ g.Ends n) :
    ∀ n, n ∉ unmet.erase name → n ∈ name :: path ∨ g.Ends n := by
  intro n hn
  by_cases hname : n = name
  · exact .inl (by simp [hname])
  · have hunmet : n ∉ unmet := fun hmem => hn ((mem_erase_of_ne hname).mpr hmem)
    exact (hmet n hunmet).imp_left (mem_cons_of_mem _)

theorem Searching.leave (h : Searching g unmet path ([] :: rest)) :
    ∃ last, path = last :: path.tail ∧ g.Ends last ∧ Searching g unmet path.tail rest := by
  obtain ⟨hfollows, hdistinct, hmet, howed⟩ := h
  cases path with
  | nil => exact howed.elim
  | cons last path =>
    obtain ⟨-, hdirect, hrest⟩ := howed
    have hends : g.Ends last := Graph.ends_of_direct fun d hd => (hdirect d hd).resolve_left
      (by simp)
    refine ⟨last, rfl, hends, hfollows.tail, hdistinct.tail, fun n hn => ?_, hrest hends⟩
    rcases hmet n hn with hpath | hn
    · rcases mem_cons.mp hpath with rfl | hpath
      · exact .inr hends
      · exact .inl hpath
    · exact .inr hn

theorem Searching.enter (h : Searching g unmet path ((name :: more) :: rest))
    (hpath : name ∉ path) :
    Searching g (unmet.erase name) (name :: path) (g.direct name :: more :: rest) := by
  have hfollows : (name :: path).IsChain fun b a => g.DependsOn a b := by
    obtain ⟨last, before, rfl, hstep⟩ := h.owed.step
    exact isChain_cons_cons.mpr ⟨hstep, h.follows⟩
  exact ⟨hfollows, nodup_cons.mpr ⟨hpath, h.distinct⟩, met_erase h.met, fun d hd => hd,
    fun d hd => .inl hd, h.owed.drop⟩

theorem Searching.skip (h : Searching g unmet path ((name :: more) :: rest)) (hpath : name ∉ path)
    (hunmet : name ∉ unmet) : Searching g unmet path (more :: rest) :=
  { h with owed := h.owed.drop ((h.met name hunmet).resolve_left hpath) }

theorem Searching.close (h : Searching g unmet path ((name :: more) :: rest))
    (hpath : name ∈ path) : g.IsCycle (closedPath path name) := by
  obtain ⟨last, before, rfl, hstep⟩ := h.owed.step
  exact isCycle_closedPath h.follows h.distinct hpath hstep

end

section
variable {g : Graph} {unmet path left cycle : List String} {pending : List (List String)}

theorem Searching.isCycle (h : Searching g unmet path pending)
    (hsearch : search g unmet path pending = .inl cycle) : g.IsCycle cycle := by
  fun_induction search g unmet path pending with
  | case1 unmet path => cases hsearch
  | case2 unmet path rest ih =>
    obtain ⟨-, -, -, hrest⟩ := h.leave
    exact ih hrest hsearch
  | case3 unmet path name more rest hpath =>
    obtain rfl := Sum.inl.inj hsearch
    exact h.close hpath
  | case4 unmet path name more rest hpath hunmet ih => exact ih (h.enter hpath) hsearch
  | case5 unmet path name more rest hpath hunmet ih => exact ih (h.skip hpath hunmet) hsearch

/-- A search without a cycle leaves every name of its path, and all names that it has met lead to no
cycle. -/
theorem Searching.ends (h : Searching g unmet path pending)
    (hsearch : search g unmet path pending = .inr left) :
    (∀ name ∈ path, g.Ends name) ∧ ∀ name, name ∉ left → g.Ends name := by
  fun_induction search g unmet path pending with
  | case1 unmet path =>
    obtain rfl := Sum.inr.inj hsearch
    cases path with
    | nil => exact ⟨by simp, fun name hname => (h.met name hname).resolve_left (by simp)⟩
    | cons last path => exact h.owed.elim
  | case2 unmet path rest ih =>
    obtain ⟨last, hpath, hlast, hrest⟩ := h.leave
    obtain ⟨hbefore, hmet⟩ := ih hrest hsearch
    refine ⟨fun name hname => ?_, hmet⟩
    rw [hpath] at hname
    rcases mem_cons.mp hname with rfl | hname
    · exact hlast
    · exact hbefore name hname
  | case3 unmet path name more rest hpath => cases hsearch
  | case4 unmet path name more rest hpath hunmet ih =>
    obtain ⟨hends, hmet⟩ := ih (h.enter hpath) hsearch
    exact ⟨fun n hn => hends n (mem_cons_of_mem _ hn), hmet⟩
  | case5 unmet path name more rest hpath hunmet ih => exact ih (h.skip hpath hunmet) hsearch

theorem searching_start (hmet : ∀ name, name ∉ unmet → g.Ends name) (start : String) :
    Searching g (unmet.erase start) [start] [g.direct start] :=
  ⟨.singleton start, by simp, met_erase fun name hname => .inr (hmet name hname),
    fun d hd => hd, fun d hd => .inl hd,
    fun _ => trivial⟩

theorem isCycle_of_cycleFrom {starts : List String} (hmet : ∀ name, name ∉ unmet → g.Ends name)
    (h : cycleFrom g unmet starts = some cycle) : g.IsCycle cycle := by
  fun_induction cycleFrom g unmet starts with
  | case1 unmet => cases h
  | case2 unmet start starts hstart found hsearch =>
    obtain rfl := Option.some.inj h
    exact (searching_start hmet start).isCycle hsearch
  | case3 unmet start starts hstart left hsearch ih =>
    exact ih ((searching_start hmet start).ends hsearch).2 h
  | case4 unmet start starts hstart ih => exact ih hmet h

theorem ends_of_cycleFrom {starts : List String} (hmet : ∀ name, name ∉ unmet → g.Ends name)
    (h : cycleFrom g unmet starts = none) : ∀ name ∈ starts, g.Ends name := by
  fun_induction cycleFrom g unmet starts with
  | case1 unmet => simp
  | case2 unmet start starts hstart found hsearch => cases h
  | case3 unmet start starts hstart left hsearch ih =>
    obtain ⟨hpath, hleft⟩ := (searching_start hmet start).ends hsearch
    exact forall_mem_cons.mpr ⟨hpath start mem_cons_self, ih hleft h⟩
  | case4 unmet start starts hstart ih => exact forall_mem_cons.mpr ⟨hmet start hstart, ih hmet h⟩

end

/-- Every graph of a registry is built step by step, and in every graph that is, the search finds
nothing exactly when no name depends on itself, directly or not. What it finds is a closed path
along dependencies on which only the two ends are the same name. -/
theorem cycle?_finds_cycles :
    (∀ r, (Graph.ofRegistry r).Built) ∧
    ∀ g : Graph, g.Built →
      (g.cycle? = none ↔ ¬∃ name, TransGen g.DependsOn name name) ∧
      ∀ path, g.cycle? = some path → g.IsCycle path := by
  refine ⟨Graph.built_ofRegistry, fun g h => ?_⟩
  have hoff : ∀ name, name ∉ g.nodes → g.Ends name := fun name => h.ends_of_not_mem
  refine ⟨⟨?_, ?_⟩, fun path hpath => isCycle_of_cycleFrom hoff hpath⟩
  · rintro hnone ⟨name, hcycle⟩
    have hends : g.Ends name := by
      by_cases hnode : name ∈ g.nodes
      · exact ends_of_cycleFrom hoff hnone name hnode
      · exact hoff name hnode
    exact hends.not_transGen hcycle
  · intro hacyclic
    cases hfound : g.cycle? with
    | none => rfl
    | some path => exact absurd (isCycle_of_cycleFrom hoff hfound).transGen hacyclic

/-- A diamond from `a` to `d` that is searched first; from `e` one way leads to the diamond, the
other one into a cycle that does not lead back to `e`. -/
def windingRegistry : Lock.Registry where
  policyName := none
  cookbooks := ["a", "b", "c", "d", "e", "f", "g"].map sampleRecord
  edges := [sampleEdge "a" ["b", "c"], sampleEdge "b" ["d"], sampleEdge "c" ["d"],
    sampleEdge "e" ["a", "f"], sampleEdge "f" ["g"], sampleEdge "g" ["f"]]
  baseDir := none

theorem windingRegistry_cycle :
    (Graph.ofRegistry windingRegistry).cycle? = some ["f", "g", "f"] := by
  have hnodes : (Graph.ofRegistry windingRegistry).nodes = ["a", "b", "c", "d", "e", "f", "g"] := by
    decide +kernel
  have ha : (Graph.ofRegistry windingRegistry).direct "a" = ["b", "c"] := by decide +kernel
  have hb : (Graph.ofRegistry windingRegistry).direct "b" = ["d"] := by decide +kernel
  have hc : (Graph.ofRegistry windingRegistry).direct "c" = ["d"] := by decide +kernel
  have hd : (Graph.ofRegistry windingRegistry).direct "d" = [] := by decide +kernel
  have he : (Graph.ofRegistry windingRegistry).direct "e" = ["a", "f"] := by decide +kernel
  have hf : (Graph.ofRegistry windingRegistry).direct "f" = ["g"] := by decide +kernel
  have hg : (Graph.ofRegistry windingRegistry).direct "g" = ["f"] := by decide +kernel
  simp [Graph.cycle?, cycleFrom, search, hnodes, ha, hb, hc, hd, he, hf, hg, closedPath]

theorem windingRegistry_searched : (Graph.ofRegistry windingRegistry).Built ∧
    (Graph.ofRegistry windingRegistry).cycle? = some ["f", "g", "f"] ∧
    (Graph.ofRegistry windingRegistry).IsCycle ["f", "g", "f"] ∧
    ∃ name, TransGen (Graph.ofRegistry windingRegistry).DependsOn name name := by
  have hbuilt := cycle?_finds_cycles.1 windingRegistry
  obtain ⟨hnone, hpath⟩ := cycle?_finds_cycles.2 _ hbuilt
  refine ⟨hbuilt, windingRegistry_cycle, hpath _ windingRegistry_cycle, ?_⟩
  by_contra hacyclic
  have hcycle := hnone.mpr hacyclic
  rw [windingRegistry_cycle] at hcycle
  cases hcycle

end CookbookAtlas.Dependency
