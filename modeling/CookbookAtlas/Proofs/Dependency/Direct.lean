import CookbookAtlas.Dependency.Graph
import CookbookAtlas.Proofs.Lock.Keyed

/-! Direct dependencies in the graph of a registry: what the edge of a cookbook lists, in the
order of the list, each name at its first mention. -/
namespace CookbookAtlas

open List Lock

/-- The names that the edge of a cookbook lists, in the order of the document. -/
def Lock.Registry.targets (r : Registry) (name : String) : List String :=
  match r.edge? name with
  | some edge => edge.dependencies.map Target.name
  | none => []

namespace Dependency

def firstMentions (known : List String) : List String → List String
  | [] => []
  | name :: rest =>
    if name ∈ known then firstMentions known rest
    else name :: firstMentions (known ++ [name]) rest

theorem mem_firstMentions {known names : List String} {n : String} :
    n ∈ firstMentions known names ↔ n ∈ names ∧ n ∉ known := by
  induction names generalizing known with
  | nil => simp [firstMentions]
  | cons name rest ih =>
    by_cases hk : name ∈ known
    · simp only [firstMentions, hk, if_true, ih, mem_cons]
      constructor
      · rintro ⟨hn, hnk⟩
        exact ⟨.inr hn, hnk⟩
      · rintro ⟨rfl | hn, hnk⟩
        · exact absurd hk hnk
        · exact ⟨hn, hnk⟩
    · simp only [firstMentions, hk, if_false, mem_cons, ih, mem_append, not_mem_nil, or_false]
      constructor
      · rintro (rfl | ⟨hn, hnk⟩)
        · exact ⟨.inl rfl, hk⟩
        · exact ⟨.inr hn, fun h => hnk (.inl h)⟩
      · rintro ⟨rfl | hn, hnk⟩
        · exact .inl rfl
        · by_cases he : n = name
          · exact .inl he
          · exact .inr ⟨hn, fun h => h.elim hnk he⟩

namespace Graph

theorem hasLink_iff (g : Graph) (source target : String) :
    g.hasLink source target = true ↔ target ∈ g.direct source := by
  simp [hasLink, direct]

@[simp] theorem direct_ensureNode (g : Graph) (node name : String) :
    (g.ensureNode node).direct name = g.direct name := by
  by_cases h : node ∈ g.nodes <;> simp [ensureNode, h, direct]

theorem direct_add (g : Graph) (source target constraint name : String) :
    (g.add source target constraint).direct name =
      g.direct name ++ if source = name then firstMentions (g.direct name) [target] else [] := by
  have hlink : ((g.ensureNode source).ensureNode target).hasLink source target = true ↔
      target ∈ g.direct source := by
    rw [hasLink_iff, direct_ensureNode, direct_ensureNode]
  by_cases hmem : target ∈ g.direct source
  · simp only [add, hlink.mpr hmem, if_true, direct_ensureNode]
    by_cases hs : source = name
    · subst hs
      simp [firstMentions, hmem]
    · simp [hs]
  · have hno : ((g.ensureNode source).ensureNode target).hasLink source target = false :=
      Bool.eq_false_iff.mpr fun h => hmem (hlink.mp h)
    have hdirect : (g.add source target constraint).direct name =
        ((g.ensureNode source).ensureNode target).direct name ++ if source = name then [target]
        else [] := by
      simp only [add, hno, Bool.false_eq_true, if_false, direct, filterMap_append]
      by_cases hs : source = name <;> simp [hs]
    rw [hdirect, direct_ensureNode, direct_ensureNode]
    by_cases hs : source = name
    · subst hs
      simp [firstMentions, hmem]
    · simp [hs]

theorem direct_addEdge (g : Graph) (edge : Edge) (name : String) :
    (g.addEdge edge).direct name = g.direct name ++ if edge.cookbook = name then
      firstMentions (g.direct name) (edge.dependencies.map Target.name) else [] := by
  rw [addEdge]
  induction edge.dependencies generalizing g with
  | nil => simp [firstMentions]
  | cons t rest ih =>
    rw [foldl_cons, ih, direct_add]
    by_cases hs : edge.cookbook = name
    · by_cases ht : t.name ∈ g.direct name <;> simp [hs, firstMentions, ht]
    · simp [hs]

theorem direct_addEdges_of_ne {edges : List Edge} {name : String}
    (h : ∀ e ∈ edges, e.cookbook ≠ name)
    (g : Graph) : (edges.foldl addEdge g).direct name = g.direct name := by
  induction edges generalizing g with
  | nil => rfl
  | cons e edges ih =>
    have he : e.cookbook ≠ name := h e mem_cons_self
    rw [foldl_cons, ih fun e' he' => h e' (mem_cons_of_mem _ he'), direct_addEdge]
    simp [he]

theorem direct_addEdges {t : Table Edge} (hnodup : t.keys.Nodup)
    (hname : ∀ e ∈ t, e.2.cookbook = e.1) (g : Graph) {name : String} (hg : g.direct name = []) :
    ((t.map Prod.snd).foldl addEdge g).direct name = firstMentions [] (match t.get? name with
      | some edge => edge.dependencies.map Target.name
      | none => []) := by
  induction t generalizing g with
  | nil => simpa [Table.get?, firstMentions] using hg
  | cons first t ih =>
    obtain ⟨k, edge⟩ := first
    have hcons : k ∉ Table.keys t ∧ (Table.keys t).Nodup := nodup_cons.mp hnodup
    have hedge : edge.cookbook = k := hname (k, edge) mem_cons_self
    have hrest : ∀ e ∈ t, e.2.cookbook = e.1 := fun e he => hname e (mem_cons_of_mem _ he)
    rw [map_cons, foldl_cons]
    by_cases hk : k = name
    · have hothers : ∀ e ∈ t.map Prod.snd, e.cookbook ≠ name := by
        intro e he heq
        obtain ⟨entry, hentry, rfl⟩ := mem_map.mp he
        rw [hrest entry hentry, ← hk] at heq
        exact hcons.1 (heq ▸ mem_map_of_mem hentry)
      rw [direct_addEdges_of_ne hothers, direct_addEdge, hg]
      simp [Table.get?, hedge, hk]
    · have hsame : (g.addEdge edge).direct name = [] := by simp [direct_addEdge, hg, hedge, hk]
      rw [ih hcons.2 hrest _ hsame]
      simp [Table.get?, hk]

/-- The direct dependencies of a cookbook are those its edge lists, each at its first mention. -/
theorem direct_ofRegistry {r : Registry} (h : r.Keyed) (name : String) :
    (ofRegistry r).direct name = firstMentions [] (r.targets name) := by
  have hnodes : ∀ (records : List Record) (g : Graph),
      (records.foldl (fun g record => g.ensureNode record.name) g).direct name = g.direct name := by
    intro records
    induction records with
    | nil => exact fun _ => rfl
    | cons record records ih => exact fun g => by rw [foldl_cons, ih, direct_ensureNode]
  exact direct_addEdges h.edges_sorted.nodup h.edge_cookbook _ (hnodes r.records empty)

end Graph
end Dependency
end CookbookAtlas
