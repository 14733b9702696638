import CookbookAtlas.Proofs.Execution.Once

/-! The shape of finished trees. Each container expands the loops among its own children when it is
closed, after the containers inside it. So in a finished tree no loop over a known collection is
left as a conditional, and what stands below a loop is one copy of its body for each item. -/
namespace CookbookAtlas.Execution

open List

open Attribute (Collection)
open Recipe (Item)

variable {info : Info} {n : Node}

/-- Whether a segment of the path of a collection is part of a name. -/
def Matches (name : String) (c : Collection) : Prop :=
  ∃ segment ∈ c.segments, segment.toList <:+: name.toList

/-- `c` is the first of the collections that match a name. -/
def FirstMatch (collections : List Collection) (name : String) (c : Collection) : Prop :=
  ∃ before after, collections = before ++ c :: after ∧ Matches name c ∧
    ∀ d ∈ before, ¬Matches name d

section
variable {collections : List Collection} {name : String} {c : Collection}

theorem any_hasPart_iff :
    (c.segments.any fun segment => Text.hasPart name segment) = true ↔ Matches name c := by
  simp [Matches, Text.hasPart_iff]

theorem matchCollection?_eq_some_iff :
    matchCollection? collections name = some c ↔ FirstMatch collections name c := by
  rw [matchCollection?, List.find?_eq_some_iff_append]
  simp only [any_hasPart_iff, FirstMatch, Bool.not_eq_true', ← Bool.not_eq_true]
  constructor
  · rintro ⟨hmatch, before, after, hsplit, hbefore⟩
    exact ⟨before, after, hsplit, hmatch, hbefore⟩
  · rintro ⟨before, after, hsplit, hmatch, hbefore⟩
    exact ⟨hmatch, before, after, hsplit, hbefore⟩

theorem matchCollection?_eq_none_iff :
    matchCollection? collections name = none ↔ ∀ c ∈ collections, ¬Matches name c := by
  simp only [matchCollection?, List.find?_eq_none, any_hasPart_iff]

end

/-- A node has one loop item for each member of a collection, in its order and with the member's
value, and all items have the same children. -/
def RunsOver (n : Node) (c : Collection) : Prop :=
  ∃ body, List.Forall₂ (fun member item => item.info.kind = .loopItem ∧ item.info.name = member.1 ∧
    item.info.values = some member.2 ∧ item.children = body) c.values n.children

theorem runsOver_loopNode (info : Info) (body : List Node) (c : Collection) :
    RunsOver (loopNode info body c) c := by
  refine ⟨body, ?_⟩
  rw [loopNode, Node.children, forall₂_map_right_iff]
  exact forall₂_same.mpr fun member _ => ⟨rfl, rfl, rfl, rfl⟩

def LoopFree (collections : List Collection) (info : Info) : Prop :=
  info.kind = .conditional → loopMark.toList <:+: info.name.toList →
    ∀ c ∈ collections, ¬Matches info.name c

structure WellShaped (collections : List Collection) (t : Node) : Prop where
  root : t.info.kind = .recipe
  terminal : ∀ n ∈ t.preorder, n.info.kind.isTerminal = true → n.children = []
  items : ∀ n ∈ t.preorder, ∀ child ∈ n.children, child.info.kind = .loopItem → n.info.kind = .loop
  loops : ∀ n ∈ t.preorder, n.info.kind = .loop →
    ∃ c, FirstMatch collections n.info.name c ∧ RunsOver n c
  loopFree : ∀ n ∈ t.preorder, LoopFree collections n.info

@[elab_as_elim]
theorem Node.induction {motive : Node → Prop}
    (mk : ∀ info children, (∀ child ∈ children, motive child) → motive (.mk info children))
    (n : Node) : motive n := by
  cases n with
  | mk info children => exact mk info children fun child _ => Node.induction mk child

theorem mem_preorderAll {ns : List Node} {m : Node} :
    m ∈ Node.preorderAll ns ↔ ∃ n ∈ ns, m ∈ n.preorder := by
  induction ns with
  | nil => simp [Node.preorderAll]
  | cons n ns ih => simp [Node.preorderAll, ih]

theorem mem_preorder {children : List Node} {m : Node} :
    m ∈ (Node.mk info children).preorder ↔
    m = .mk info children ∨ ∃ child ∈ children, m ∈ child.preorder := by
  rw [Node.preorder, mem_cons, mem_preorderAll]

/-- What a finished tree asks of a node and its children. -/
structure Fit (collections : List Collection) (n : Node) : Prop where
  terminal : n.info.kind.isTerminal = true → n.children = []
  items : ∀ child ∈ n.children, child.info.kind = .loopItem → n.info.kind = .loop
  loop : n.info.kind = .loop → ∃ c, FirstMatch collections n.info.name c ∧ RunsOver n c
  loopFree : ∀ child ∈ n.children, LoopFree collections child.info

def Whole (collections : List Collection) (n : Node) : Prop := ∀ m ∈ n.preorder, Fit collections m

section
variable {collections : List Collection}

theorem whole_mk {children : List Node} : Whole collections (.mk info children) ↔
    Fit collections (.mk info children) ∧ ∀ child ∈ children, Whole collections child := by
  simp only [Whole, mem_preorder]
  constructor
  · intro h
    exact ⟨h _ (.inl rfl), fun child hchild m hm => h m (.inr ⟨child, hchild, hm⟩)⟩
  · rintro ⟨hself, hchildren⟩ m (rfl | ⟨child, hchild, hm⟩)
    · exact hself
    · exact hchildren child hchild m hm

theorem Whole.loopFree (h : Whole collections n) (hroot : LoopFree collections n.info) :
    ∀ m ∈ n.preorder, LoopFree collections m.info := by
  induction n using Node.induction with
  | mk info children ih =>
    obtain ⟨hself, hchildren⟩ := whole_mk.mp h
    intro m hm
    rcases mem_preorder.mp hm with rfl | ⟨child, hchild, hm⟩
    · exact hroot
    · exact ih child hchild (hchildren child hchild) (hself.loopFree child hchild) m hm

theorem Fit.leaf (hkind : info.kind ≠ .loop) : Fit collections (.leaf info) where
  terminal _ := rfl
  items _ hchild := absurd hchild not_mem_nil
  loop h := absurd h hkind
  loopFree _ hchild := absurd hchild not_mem_nil

/-- A node whose loops are expanded stays as it is, or it is a loop over the first collection that
matches its name. -/
theorem expandLoop_spec (collections : List Collection) (n : Node) :
    expandLoop collections n = n ∧ LoopFree collections n.info ∨
      n.info.kind = .conditional ∧ ∃ c, FirstMatch collections n.info.name c ∧
        expandLoop collections n = loopNode n.info n.children c := by
  rw [expandLoop]
  split
  · rename_i hcond
    cases hmatch : matchCollection? collections n.info.name with
    | some c => exact .inr ⟨hcond.1, c, matchCollection?_eq_some_iff.mp hmatch, rfl⟩
    | none => exact .inl ⟨rfl, fun _ _ => matchCollection?_eq_none_iff.mp hmatch⟩
  · rename_i hcond
    refine .inl ⟨rfl, fun hkind hmark => absurd ⟨hkind, ?_⟩ hcond⟩
    exact (Text.hasPart_iff _ _).mpr hmark

/-- A node that can still become a loop: all is fit, and it is neither a loop nor an item yet. -/
structure Ready (collections : List Collection) (n : Node) : Prop where
  whole : Whole collections n
  notLoop : n.info.kind ≠ .loop
  notItem : n.info.kind ≠ .loopItem

theorem Ready.leaf (hkind : info.kind.isTerminal = true) : Ready collections (.leaf info) := by
  have hloop : info.kind ≠ .loop := by
    intro h
    simp [h, Kind.isTerminal] at hkind
  have hitem : info.kind ≠ .loopItem := by
    intro h
    simp [h, Kind.isTerminal] at hkind
  exact ⟨whole_mk.mpr ⟨.leaf hloop, by simp⟩, hloop, hitem⟩

/-- The items of a loop have the children of the conditional, which were finished before. -/
theorem whole_loopItem {body : List Node} (hbody : ∀ child ∈ body, Whole collections child)
    (hitems : ∀ child ∈ body, child.info.kind ≠ .loopItem)
    (hloopFree : ∀ child ∈ body, LoopFree collections child.info)
    (member : String × Datum) : Whole collections (loopItem body member) := by
  refine whole_mk.mpr ⟨⟨by simp [Node.info, Info.plain, Kind.isTerminal], ?_, ?_, hloopFree⟩, hbody⟩
  · intro child hchild hkind
    exact absurd hkind (hitems child hchild)
  · simp [Node.info, Info.plain]

theorem whole_loopNode (h : Whole collections n) (hkind : n.info.kind = .conditional)
    {c : Collection} (hc : FirstMatch collections n.info.name c) :
    Whole collections (loopNode n.info n.children c) := by
  obtain ⟨info, body⟩ := n
  rw [Node.info] at hkind hc
  obtain ⟨hself, hbody⟩ := whole_mk.mp h
  have hitems : ∀ child ∈ body, child.info.kind ≠ .loopItem := by
    intro child hchild hitem
    have hloop : info.kind = .loop := hself.items child hchild hitem
    rw [hkind] at hloop
    cases hloop
  refine whole_mk.mpr ⟨⟨by simp [Node.info, Info.plain, Kind.isTerminal], fun _ _ _ => rfl, fun _ => ?_, ?_⟩, ?_⟩
  · exact ⟨c, hc, runsOver_loopNode info body c⟩
  · intro child hchild
    obtain ⟨member, -, rfl⟩ := mem_map.mp hchild
    intro h
    simp [loopItem, Node.info, Info.plain] at h
  · intro child hchild
    obtain ⟨member, -, rfl⟩ := mem_map.mp hchild
    exact whole_loopItem hbody hitems hself.loopFree member

/-- What becomes of a finished child when the container around it is closed. -/
theorem Ready.expandLoop (h : Ready collections n) : Whole collections (expandLoop collections n) ∧
    LoopFree collections (expandLoop collections n).info ∧
    (expandLoop collections n).info.kind ≠ .loopItem := by
  rcases expandLoop_spec collections n with ⟨heq, hloopFree⟩ | ⟨hkind, c, hc, heq⟩
  · rw [heq]
    exact ⟨h.whole, hloopFree, h.notItem⟩
  · rw [heq]
    refine ⟨whole_loopNode h.whole hkind hc, fun hcond => ?_, ?_⟩
    · simp [loopNode, Node.info, Info.plain] at hcond
    · simp [loopNode, Node.info, Info.plain]

end

namespace Plan

section
variable {p : Plan}

/-- The leaf for an include that is not expanded is of a terminal kind. -/
theorem isTerminal_of_expandInclude {visited : List Path} {depth : Nat} {r : Recipe.Reference}
    {leaf : Info}
    (h : p.expandInclude visited depth r = .inl leaf) : leaf.kind.isTerminal = true := by
  rw [expandInclude] at h
  split at h
  · cases h
    rfl
  · split at h
    · cases h
      rfl
    · split at h
      · cases h
        rfl
      · split at h
        · cases h
          rfl
        · cases h

namespace Build

/-- An open container is a recipe or a conditional, and what is done in it is ready. -/
def OpenReady (collections : List Collection) (o : Open) : Prop :=
  (o.info.kind = .recipe ∨ o.info.kind = .conditional) ∧ ∀ n ∈ o.done, Ready collections n

theorem OpenReady.empty {collections : List Collection}
    (hkind : info.kind = .recipe ∨ info.kind = .conditional)
    (items : List Item) (depth : Nat) : OpenReady collections ⟨info, [], items, depth⟩ :=
  ⟨hkind, fun _ hn => absurd hn not_mem_nil⟩

theorem OpenReady.done {collections : List Collection} {o : Open} (h : OpenReady collections o)
    (hn : Ready collections n)
    (rest : List Item) : OpenReady collections { o with done := n :: o.done, rest := rest } := by
  refine ⟨h.1, fun m hm => ?_⟩
  rcases mem_cons.mp hm with rfl | hm
  · exact hn
  · exact h.2 m hm

/-- Closing a container gives a node that is ready for the container around it. -/
theorem OpenReady.close {o : Open} (h : OpenReady p.survey.collections o) :
    Ready p.survey.collections (close p o) := by
  obtain ⟨hkind, hdone⟩ := h
  have hexpanded : ∀ child ∈ o.done.reverse.map (expandLoop p.survey.collections),
      Whole p.survey.collections child ∧ LoopFree p.survey.collections child.info ∧
      child.info.kind ≠ .loopItem := by
    intro child hchild
    obtain ⟨n, hn, rfl⟩ := mem_map.mp hchild
    exact (hdone n (mem_reverse.mp hn)).expandLoop
  have hloop : o.info.kind ≠ .loop := by
    rcases hkind with hkind | hkind <;> simp [hkind]
  have hitem : o.info.kind ≠ .loopItem := by
    rcases hkind with hkind | hkind <;> simp [hkind]
  refine ⟨whole_mk.mpr ⟨⟨?_, ?_, fun h => absurd h hloop, fun child hchild => (hexpanded child hchild).2.1⟩, ?_⟩,
    hloop, hitem⟩
  · intro hterminal
    rcases hkind with hkind | hkind <;> simp [Node.info, hkind, Kind.isTerminal] at hterminal
  · intro child hchild hbad
    exact absurd hbad (hexpanded child hchild).2.2
  · exact fun child hchild => (hexpanded child hchild).1

def AllReady (b : Build p) : Prop := ∀ o ∈ b.top :: b.outer, OpenReady p.survey.collections o

section
variable {b : Build p}

theorem AllReady.add (h : b.AllReady) (rest : List Item) (hn : Ready p.survey.collections n) :
    (b.add rest n).AllReady := by
  intro o ho
  rcases mem_cons.mp ho with rfl | ho
  · exact (h b.top mem_cons_self).done hn rest
  · exact h o (mem_cons_of_mem _ ho)

theorem AllReady.enter (h : b.AllReady) (rest items : List Item) (depth : Nat)
    (hkind : info.kind = .recipe ∨ info.kind = .conditional) :
    (b.enter rest ⟨info, [], items, depth⟩).AllReady := by
  intro o ho
  rcases mem_cons.mp ho with rfl | ho
  · exact .empty hkind items depth
  · rcases mem_cons.mp ho with rfl | ho
    · exact h b.top mem_cons_self
    · exact h o (mem_cons_of_mem _ ho)

theorem AllReady.turn {next : Build p} (h : b.AllReady) (hturn : Turn b next) : next.AllReady := by
  cases hturn with
  | close hrest houter =>
    rename_i parent outer
    intro o ho
    rcases mem_cons.mp ho with rfl | ho
    · exact (h parent (by simp [houter])).done (h b.top mem_cons_self).close parent.rest
    · exact h o (by simp [houter, ho])
  | resource hrest =>
    rename_i r rest
    refine h.add rest (.leaf ?_)
    have hkind := kind_resourceNode p r
    rw [resourceNode, Node.leaf, Node.info] at hkind
    rw [hkind]
    split <;> rfl
  | refused hrest hinclude => exact h.add _ (.leaf (isTerminal_of_expandInclude hinclude))
  | block hrest => exact h.enter _ _ _ (.inr rfl)
  | recipe hrest hinclude hitems =>
    exact AllReady.enter (b := { b with visited := _ }) h _ _ _ (.inl rfl)

theorem allReady_start (entry : Path) (items : List Item) : (start p entry items).AllReady := by
  intro o ho
  obtain rfl : o = _ := mem_singleton.mp ho
  exact .empty (.inl rfl) items 0

end
end Build

/-- A tree is the closed outermost container of a state that its build goes through. -/
theorem exists_closed {entry : Path} {t : Node} (h : p.tree entry = some t) :
    ∃ b, p.Reached entry b ∧ b.outer = [] ∧ t = Build.close p b.top := by
  obtain ⟨last, hreached, hstep⟩ := Reached.exists_finished h
  obtain ⟨-, houter, hroot⟩ := Build.of_finished hstep
  exact ⟨last, hreached, houter, hroot⟩

theorem Reached.allReady {entry : Path} {b : Build p} (h : p.Reached entry b) : b.AllReady :=
  h.induction (fun items _ => Build.allReady_start entry items) fun _ _ hready hturn =>
    hready.turn hturn

/-- In every tree the root is a recipe, terminal nodes have no children, items stand under loops
only, every loop runs over the first collection that matches its name, with one body for all its
items, and no conditional is left that should be a loop. -/
theorem tree_wellShaped {entry : Path} {t : Node} (h : p.tree entry = some t) :
    WellShaped p.survey.collections t := by
  have hroot : t.info.kind = .recipe := by
    obtain ⟨items, nodes, -, rfl, -⟩ := tree_yields h
    rfl
  obtain ⟨b, hreached, -, rfl⟩ := exists_closed h
  have hwhole := (hreached.allReady b.top mem_cons_self).close.whole
  have hrootFree : LoopFree p.survey.collections (Build.close p b.top).info := by
    intro hkind
    rw [hroot] at hkind
    cases hkind
  exact ⟨hroot, fun n hn => (hwhole n hn).terminal, fun n hn => (hwhole n hn).items,
    fun n hn => (hwhole n hn).loop, hwhole.loopFree hrootFree⟩

end

def gridRecipe : Path := ⟨"/a/recipes/default.rb"⟩
def rackHeading : Recipe.Heading := ⟨.eachLoop, "racks.each", 1, ["rack"]⟩
def hostHeading : Recipe.Heading := ⟨.eachLoop, "hosts.each", 2, ["host"]⟩
def hostInclude : Recipe.Reference := ⟨gridRecipe, 3, .includeRecipe, "a::#{host}", true⟩

def rackCollection : Collection := ⟨"grid.racks", [("upper", .null), ("lower", .null)]⟩
def hostCollection : Collection := ⟨"grid.hosts", [("left", .null), ("right", .null)]⟩

/-- A loop inside a loop, each over a collection of its own. -/
def gridPlan : Plan where
  world := ⟨⟨[]⟩, [], [], [], []⟩
  survey := ⟨[⟨gridRecipe, "a", .recipe,
    ⟨[], [.block rackHeading [.block hostHeading [.inclusion hostInclude]]], []⟩⟩],
    .null, [hostCollection, rackCollection]⟩
  dirs := []
  maxDepth := 1
  limit := 80

def gridTree : Node :=
  .mk (recipeInfo gridRecipe)
    [loopNode (blockInfo rackHeading [.block hostHeading [.inclusion hostInclude]])
      [loopNode (blockInfo hostHeading [.inclusion hostInclude])
        [.leaf (includeLeaf .unresolved "a::#{host}" hostInclude)] hostCollection] rackCollection]

theorem gridPlan_tree : gridPlan.tree gridRecipe = some gridTree := by
  have hitems : gridPlan.items gridRecipe =
      some [.block rackHeading [.block hostHeading [.inclusion hostInclude]]] := rfl
  have hdynamic : hostInclude.recipe? = none := by decide +kernel
  rw [tree_recursion, recursiveTree, hitems]
  simp only [nodesOf, nodeOf, hdynamic, Option.bind_eq_bind, Option.bind_some, Option.pure_def]
  rfl

theorem gridTree_wellShaped : gridPlan.tree gridRecipe = some gridTree ∧
    (gridTree.ofKind .loop).map (fun n => n.info.name) = ["racks.each", "hosts.each",
    "hosts.each"] ∧ WellShaped [hostCollection, rackCollection] gridTree :=
  ⟨gridPlan_tree, by decide +kernel, tree_wellShaped gridPlan_tree⟩

end Plan
end CookbookAtlas.Execution
