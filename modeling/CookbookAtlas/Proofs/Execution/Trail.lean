import CookbookAtlas.Proofs.Execution.Draft

/-! Ways from the root of a tree down to its nodes, and the recipes on them. Expanding the loops of
a tree copies the bodies of loops, but on every way to a copy stand as many recipes as before. -/
namespace CookbookAtlas.Execution

open List

open Attribute (Collection)

/-- The way to a node: the nodes above it, from the root down, and the node itself. -/
structure Trail where
  above : List Info
  here : Info

namespace Trail

def path (t : Trail) : List Info := t.above ++ [t.here]

def recipes (t : Trail) : Nat := t.path.countP fun i => i.kind == .recipe

def includeDepth (t : Trail) : Nat := t.path.tail.countP fun i => i.kind == .recipe

def under (info : Info) (t : Trail) : Trail := ⟨info :: t.above, t.here⟩

@[simp] theorem includeDepth_root (info : Info) : includeDepth ⟨[], info⟩ = 0 := rfl

@[simp] theorem includeDepth_under (info : Info) (t : Trail) :
    (t.under info).includeDepth = t.recipes := rfl

/-- A node under another one is as deep as that one, one deeper if it is a recipe. -/
theorem includeDepth_snoc (above : List Info) (parent info : Info) :
    includeDepth ⟨above ++ [parent], info⟩ =
      includeDepth ⟨above, parent⟩ + if info.kind = .recipe then 1 else 0 := by
  have hne : above ++ [parent] ≠ [] := by simp
  simp only [includeDepth, path, tail_append_of_ne_nil hne, countP_append]
  by_cases h : info.kind = .recipe <;> simp [h]

end Trail

mutual
def Node.trails : Node → List Trail
  | .mk info children => ⟨[], info⟩ :: (trailsAll children).map (Trail.under info)

def trailsAll : List Node → List Trail
  | [] => []
  | n :: rest => n.trails ++ trailsAll rest
end

theorem trailsAll_append (xs ys : List Node) :
    trailsAll (xs ++ ys) = trailsAll xs ++ trailsAll ys := by
  induction xs with
  | nil => rfl
  | cons n xs ih => rw [cons_append, trailsAll, ih, trailsAll, append_assoc]

theorem trails_snoc (info : Info) (xs : List Node) (n : Node) :
    (Node.mk info (xs ++ [n])).trails =
    (Node.mk info xs).trails ++ n.trails.map (Trail.under info) := by
  simp [Node.trails, trailsAll_append, trailsAll]

theorem mem_trails {info : Info} {children : List Node} {t : Trail} :
    t ∈ (Node.mk info children).trails ↔
    t = ⟨[], info⟩ ∨ ∃ s ∈ trailsAll children, s.under info = t := by
  rw [Node.trails, mem_cons, mem_map]

theorem mem_trailsAll {ns : List Node} {t : Trail} : t ∈ trailsAll ns ↔ ∃ n ∈ ns, t ∈ n.trails := by
  induction ns with
  | nil => simp [trailsAll]
  | cons n ns ih => simp [trailsAll, ih]

mutual
theorem map_here_trails (n : Node) : n.trails.map Trail.here = n.preorder.map Node.info := by
  match n with
  | .mk info children =>
    have hrest := map_here_trailsAll children
    simpa [Node.trails, Node.preorder, Node.info, Trail.under, Function.comp_def] using hrest

theorem map_here_trailsAll (ns : List Node) :
    (trailsAll ns).map Trail.here = (Node.preorderAll ns).map Node.info := by
  match ns with
  | [] => rfl
  | n :: rest => simp [trailsAll, Node.preorderAll, map_here_trails, map_here_trailsAll]
end

def recipesOn (trails : List Trail) : List Info :=
  (trails.map Trail.here).filter fun i => i.kind == .recipe

theorem recipesOn_append (xs ys : List Trail) :
    recipesOn (xs ++ ys) = recipesOn xs ++ recipesOn ys := by
  simp [recipesOn]

theorem recipesOn_trails (n : Node) : recipesOn n.trails = (n.ofKind .recipe).map Node.info := by
  rw [recipesOn, map_here_trails, Node.ofKind, filter_map]
  rfl

/-- A node either stays or becomes a loop: a conditional, with its children copied under
each item. -/
theorem expandLoop_cases (collections : List Collection) (n : Node) : expandLoop collections n = n ∨
    n.info.kind = .conditional ∧
    ∃ c ∈ collections, expandLoop collections n = loopNode n.info n.children c := by
  rw [expandLoop]
  split
  · rename_i hcond
    split
    · rename_i c hc
      exact .inr ⟨hcond.1, c, mem_of_find?_eq_some hc, rfl⟩
    · exact .inl rfl
  · exact .inl rfl

theorem mem_trails_loopNode {info : Info} {body : List Node} {c : Collection} {t : Trail} :
    t ∈ (loopNode info body c).trails ↔
      t = ⟨[], (loopNode info body c).info⟩ ∨ ∃ member ∈ c.values,
        t = Trail.under (loopNode info body c).info ⟨[], (loopItem body member).info⟩ ∨
        ∃ s ∈ trailsAll body, t = (s.under (loopItem body member).info).under (loopNode info body c).info := by
  rw [loopNode, mem_trails, Node.info]
  refine or_congr_right ?_
  simp only [mem_trailsAll, mem_map]
  constructor
  · rintro ⟨s, ⟨_, ⟨member, hmember, rfl⟩, hs⟩, rfl⟩
    refine ⟨member, hmember, ?_⟩
    rcases mem_trails.mp hs with rfl | ⟨u, hu, rfl⟩
    · exact .inl rfl
    · exact .inr ⟨u, mem_trailsAll.mp hu, rfl⟩
  · rintro ⟨member, hmember, rfl | ⟨u, hu, rfl⟩⟩
    · exact ⟨_, ⟨_, ⟨member, hmember, rfl⟩, mem_trails.mpr (.inl rfl)⟩, rfl⟩
    · exact ⟨_, ⟨_, ⟨member, hmember, rfl⟩, mem_trails.mpr (.inr ⟨u, mem_trailsAll.mpr hu, rfl⟩)⟩, rfl⟩

/-- A way to a copy: it passes as many recipes, and if the original is a recipe it leads to the same
one. -/
structure Trail.Copied (s t : Trail) : Prop where
  recipes : t.recipes = s.recipes
  includeDepth : t.includeDepth = s.includeDepth
  here : s.here.kind = .recipe → t.here = s.here

namespace Trail.Copied

theorem refl (t : Trail) : Copied t t := ⟨rfl, rfl, fun _ => rfl⟩

theorem trans {s t u : Trail} (h : Copied s t) (h' : Copied t u) : Copied s u where
  recipes := h'.recipes.trans h.recipes
  includeDepth := h'.includeDepth.trans h.includeDepth
  here hs := by
    have ht : t.here = s.here := h.here hs
    rw [← ht]
    exact h'.here (ht ▸ hs)

theorem under {s t : Trail} (h : Copied s t) (info : Info) :
    Copied (s.under info) (t.under info) where
  recipes := by
    have hpath : ∀ u : Trail, (u.under info).recipes = u.recipes + if info.kind = .recipe then 1
        else 0 := by
      intro u
      by_cases hkind : info.kind = .recipe <;> simp [Trail.recipes, path, Trail.under, hkind]
    rw [hpath, hpath, h.recipes]
  includeDepth := h.recipes
  here := h.here

end Trail.Copied

section Loops

variable {info : Info} {body : List Node} (hkind : info.kind = .conditional) (c : Collection)
include hkind

theorem copied_loop : Trail.Copied ⟨[], info⟩ ⟨[], (loopNode info body c).info⟩ where
  recipes := by simp [Trail.recipes, Trail.path, loopNode, Node.info, Info.plain, hkind]
  includeDepth := rfl
  here h := by simp [hkind] at h

theorem copied_loopItem (member : String × Datum) :
    Trail.Copied ⟨[], info⟩ (Trail.under (loopNode info body c).info ⟨[], (loopItem body member).info⟩) where
  recipes := by
    simp [Trail.recipes, Trail.path, Trail.under, loopNode, loopItem, Node.info, Info.plain, hkind]
  includeDepth := by simp [Trail.recipes, Trail.path, loopItem, Node.info, Info.plain]
  here h := by simp [hkind] at h

theorem copied_body (member : String × Datum) (t : Trail) : Trail.Copied (t.under info)
    ((t.under (loopItem body member).info).under (loopNode info body c).info) where
  recipes := by
    simp [Trail.recipes, Trail.path, Trail.under, loopNode, loopItem, Node.info, Info.plain, hkind]
  includeDepth := by
    simp [Trail.path, Trail.under, Trail.includeDepth, loopItem, Node.info, Info.plain]
  here _ := rfl

end Loops

section Copies

variable {collections : List Collection}

theorem exists_original_of_expandLoop {n : Node} {t : Trail}
    (h : t ∈ (expandLoop collections n).trails) : ∃ s ∈ n.trails, s.Copied t := by
  rcases expandLoop_cases collections n with heq | ⟨hkind, c, _, heq⟩
  · exact ⟨t, heq ▸ h, .refl t⟩
  · obtain ⟨info, body⟩ := n
    rw [Node.info] at hkind
    rw [heq, Node.info, Node.children, mem_trails_loopNode] at h
    rcases h with rfl | ⟨member, _, rfl | ⟨s, hs, rfl⟩⟩
    · exact ⟨_, mem_trails.mpr (.inl rfl), copied_loop hkind c⟩
    · exact ⟨_, mem_trails.mpr (.inl rfl), copied_loopItem hkind c member⟩
    · exact ⟨_, mem_trails.mpr (.inr ⟨s, hs, rfl⟩), copied_body hkind c member s⟩

theorem exists_copy_in_expandLoop (hvalues : ∀ c ∈ collections, c.values ≠ []) {n : Node}
    {s : Trail} (h : s ∈ n.trails) : ∃ t ∈ (expandLoop collections n).trails, s.Copied t := by
  rcases expandLoop_cases collections n with heq | ⟨hkind, c, hc, heq⟩
  · exact ⟨s, heq.symm ▸ h, .refl s⟩
  · obtain ⟨info, body⟩ := n
    rw [Node.info] at hkind
    obtain ⟨member, hmember⟩ := exists_mem_of_ne_nil _ (hvalues c hc)
    rw [heq, Node.info, Node.children]
    rcases mem_trails.mp h with rfl | ⟨u, hu, rfl⟩
    · exact ⟨_, mem_trails_loopNode.mpr (.inl rfl), copied_loop hkind c⟩
    · exact ⟨_, mem_trails_loopNode.mpr (.inr ⟨member, hmember, .inr ⟨u, hu, rfl⟩⟩),
        copied_body hkind c member u⟩

mutual
theorem exists_original (n : Node) {t : Trail} (h : t ∈ (n.withLoops collections).trails) :
    ∃ s ∈ n.trails, s.Copied t := by
  match n with
  | .mk info children =>
    rw [Node.withLoops] at h
    rcases mem_trails.mp h with rfl | ⟨u, hu, rfl⟩
    · exact ⟨_, mem_trails.mpr (.inl rfl), .refl _⟩
    · obtain ⟨s, hs, hcopied⟩ := exists_originalAll children hu
      exact ⟨_, mem_trails.mpr (.inr ⟨s, hs, rfl⟩), hcopied.under info⟩

theorem exists_originalAll (ns : List Node) {t : Trail}
    (h : t ∈ trailsAll (withLoopsAll collections ns)) : ∃ s ∈ trailsAll ns, s.Copied t := by
  match ns with
  | [] => simp [withLoopsAll, trailsAll] at h
  | n :: rest =>
    rw [withLoopsAll, trailsAll, mem_append] at h
    rcases h with h | h
    · obtain ⟨u, hu, hloop⟩ := exists_original_of_expandLoop h
      obtain ⟨s, hs, hcopied⟩ := exists_original n hu
      exact ⟨s, mem_append_left _ hs, hcopied.trans hloop⟩
    · obtain ⟨s, hs, hcopied⟩ := exists_originalAll rest h
      exact ⟨s, mem_append_right _ hs, hcopied⟩
end

mutual
theorem exists_copy (hvalues : ∀ c ∈ collections, c.values ≠ []) (n : Node) {s : Trail}
    (h : s ∈ n.trails) : ∃ t ∈ (n.withLoops collections).trails, s.Copied t := by
  match n with
  | .mk info children =>
    rw [Node.withLoops]
    rcases mem_trails.mp h with rfl | ⟨u, hu, rfl⟩
    · exact ⟨_, mem_trails.mpr (.inl rfl), .refl _⟩
    · obtain ⟨t, ht, hcopied⟩ := exists_copyAll hvalues children hu
      exact ⟨_, mem_trails.mpr (.inr ⟨t, ht, rfl⟩), hcopied.under info⟩

theorem exists_copyAll (hvalues : ∀ c ∈ collections, c.values ≠ []) (ns : List Node) {s : Trail}
    (h : s ∈ trailsAll ns) : ∃ t ∈ trailsAll (withLoopsAll collections ns), s.Copied t := by
  match ns with
  | [] => simp [trailsAll] at h
  | n :: rest =>
    rw [withLoopsAll, trailsAll]
    rcases mem_append.mp h with h | h
    · obtain ⟨u, hu, hcopied⟩ := exists_copy hvalues n h
      obtain ⟨t, ht, hloop⟩ := exists_copy_in_expandLoop hvalues hu
      exact ⟨t, mem_append_left _ ht, hcopied.trans hloop⟩
    · obtain ⟨t, ht, hcopied⟩ := exists_copyAll hvalues rest h
      exact ⟨t, mem_append_right _ ht, hcopied⟩
end

end Copies

end CookbookAtlas.Execution
