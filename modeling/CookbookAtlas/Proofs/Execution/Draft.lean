import CookbookAtlas.Proofs.Execution.Recursion

/-! The tree of a recipe before loop bodies are copied. The pass over the children of a container
that is closed can as well be made once, over the whole tree: a build that knows no collections
takes the same steps, and expanding the loops of its tree gives the tree of the recipe. -/
namespace CookbookAtlas.Execution

open Attribute (Collection)

mutual
def Node.withLoops (collections : List Collection) : Node → Node
  | .mk info children => .mk info (withLoopsAll collections children)

def withLoopsAll (collections : List Collection) : List Node → List Node
  | [] => []
  | n :: rest => expandLoop collections (n.withLoops collections) :: withLoopsAll collections rest
end

theorem withLoopsAll_eq_map (collections : List Collection) (ns : List Node) :
    withLoopsAll collections ns = ns.map fun n =>
    expandLoop collections (n.withLoops collections) := by
  induction ns with
  | nil => rfl
  | cons n ns ih => rw [withLoopsAll, ih, List.map_cons]

@[simp] theorem expandLoop_nil (n : Node) : expandLoop [] n = n := by
  rw [expandLoop]
  split <;> rfl

namespace Plan

def draft (p : Plan) : Plan := { p with survey := { p.survey with collections := [] } }

theorem draft_items (p : Plan) : p.draft.items = p.items := rfl

theorem draft_expandInclude (p : Plan) : p.draft.expandInclude = p.expandInclude := rfl

namespace Build

variable {p : Plan}

def openWithLoops (p : Plan) (o : Open) : Open :=
  { o with done := o.done.map (Node.withLoops p.survey.collections) }

def withLoops (b : Build p.draft) : Build p :=
  ⟨b.visited, openWithLoops p b.top, b.outer.map (openWithLoops p)⟩

theorem close_draft (o : Open) : close p.draft o = .mk o.info o.done.reverse := by
  have hsame : expandLoop p.draft.survey.collections = id := funext expandLoop_nil
  rw [close, hsame, List.map_id]

theorem close_openWithLoops (o : Open) :
    close p (openWithLoops p o) = (close p.draft o).withLoops p.survey.collections := by
  rw [close_draft, close, Node.withLoops, withLoopsAll_eq_map]
  simp [openWithLoops, Function.comp_def]

theorem step_withLoops (b : Build p.draft) :
    b.withLoops.step = b.step.map (Sum.map (Node.withLoops p.survey.collections) withLoops) := by
  obtain ⟨visited, ⟨info, done, rest, depth⟩, outer⟩ := b
  match rest, outer with
  | [], [] =>
    have hclose := close_openWithLoops (p := p) ⟨info, done, [], depth⟩
    simp only [step, withLoops, openWithLoops, List.map_nil, Option.map_some, Sum.map_inl] at hclose ⊢
    rw [hclose]
  | [], parent :: outer =>
    have hclose := close_openWithLoops (p := p) ⟨info, done, [], depth⟩
    simp only [step, withLoops, openWithLoops, List.map_cons, Option.map_some, Sum.map_inr] at hclose ⊢
    rw [hclose]
  | .resource r :: rest, outer | .block h children :: rest, outer => rfl
  | .inclusion r :: rest, outer =>
    simp only [step, withLoops, openWithLoops, draft_expandInclude]
    cases hinclude : p.expandInclude visited (depth + 1) r with
    | inl leaf => rfl
    | inr path =>
      dsimp only
      rw [draft_items]
      cases p.items path <;> rfl

theorem run_withLoops (b : Build p.draft) :
    b.withLoops.run = b.run.map (Node.withLoops p.survey.collections) := by
  have hstep := step_withLoops b
  fun_induction run b with
  | case1 b h =>
    rw [h] at hstep
    exact run_stuck hstep
  | case2 b root h =>
    rw [h] at hstep
    exact run_finished hstep
  | case3 b next h ih =>
    rw [h] at hstep
    rw [run_of_leads hstep]
    exact ih (step_withLoops next)

end Build

theorem tree_eq_draft (p : Plan) (entry : Path) :
    p.tree entry = (p.draft.tree entry).map (Node.withLoops p.survey.collections) := by
  rw [tree, tree, draft_items]
  cases p.items entry with
  | none => rfl
  | some items => exact Build.run_withLoops (Build.start p.draft entry items)

end Plan
end CookbookAtlas.Execution
