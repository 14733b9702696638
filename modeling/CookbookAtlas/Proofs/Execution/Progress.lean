import CookbookAtlas.Proofs.Execution.Trail
import Mathlib.Logic.Relation

/-! A build under way. The open containers and what is done in them make up the tree so far. A
turn closes a container, which leaves the tree of a draft as it is, or takes one item, which adds
one node at the end of the tree. -/
namespace CookbookAtlas.Execution

open List

open Recipe (Item)
open Relation (ReflTransGen)

namespace Plan
namespace Build

variable {p : Plan}

/-- A node put in as the last child of the innermost of the containers. -/
def plug : List Open → Node → Node
  | [], n => n
  | o :: outer, n => plug outer (.mk o.info (o.done.reverse ++ [n]))

/-- What the containers stand for, from the outermost in. -/
def spineOf (outer : List Open) : List Info := (outer.map Open.info).reverse

@[simp] theorem spineOf_cons (o : Open) (outer : List Open) :
    spineOf (o :: outer) = spineOf outer ++ [o.info] := by
  simp [spineOf]

/-- A node that grows at its end makes the tree around it grow at its end. -/
theorem trails_plug (outer : List Open) {n grown : Node} {more : List Trail}
    (h : grown.trails = n.trails ++ more) :
    (plug outer grown).trails = (plug outer n).trails ++ more.map fun t =>
    ⟨spineOf outer ++ t.above, t.here⟩ := by
  induction outer generalizing n grown more with
  | nil => simpa [plug, spineOf] using h
  | cons o outer ih =>
    have hchild : (Node.mk o.info (o.done.reverse ++ [grown])).trails =
        (Node.mk o.info (o.done.reverse ++ [n])).trails ++ more.map (Trail.under o.info) := by
      rw [trails_snoc, trails_snoc, h, map_append, append_assoc]
    rw [plug, plug, ih hchild, map_map]
    congr 1
    exact map_congr_left fun t _ => by simp [Trail.under]

def soFar (b : Build p) : Node := plug b.outer (.mk b.top.info b.top.done.reverse)

def spine (b : Build p) : List Info := spineOf (b.top :: b.outer)

theorem trails_add (b : Build p) (rest : List Item) (info : Info) :
    (b.add rest (.leaf info)).soFar.trails = b.soFar.trails ++ [⟨b.spine, info⟩] := by
  have hgrown : (Node.mk b.top.info (.leaf info :: b.top.done).reverse).trails =
      (Node.mk b.top.info b.top.done.reverse).trails ++ [⟨[b.top.info], info⟩] := by
    rw [reverse_cons, trails_snoc]
    rfl
  have hplug := trails_plug b.outer hgrown
  rw [map_singleton] at hplug
  rw [spine, spineOf_cons]
  exact hplug

theorem trails_start (p : Plan) (entry : Path) (items : List Item) :
    (start p entry items).soFar.trails = [⟨[], recipeInfo entry⟩] := rfl

theorem soFar_enter (b : Build p) (rest items : List Item) (info : Info) (depth : Nat) :
    (b.enter rest ⟨info, [], items, depth⟩).soFar = (b.add rest (.leaf info)).soFar := by
  simp [soFar, enter, add, plug, Node.leaf]

/-- What one step can do, other than finishing the root. -/
inductive Turn : Build p → Build p → Prop
  | close {b : Build p} {parent : Open} {outer : List Open} : b.top.rest = [] →
    b.outer = parent :: outer →
      Turn b ⟨b.visited, { parent with done := Build.close p b.top :: parent.done }, outer⟩
  | resource {b : Build p} {r : Recipe.Resource} {rest : List Item} : b.top.rest =
    .resource r :: rest →
      Turn b (b.add rest (p.resourceNode r))
  | refused {b : Build p} {r : Recipe.Reference} {rest : List Item} {leaf : Info} :
      b.top.rest = .inclusion r :: rest →
      p.expandInclude b.visited (b.top.depth + 1) r = .inl leaf →
      Turn b (b.add rest (.leaf leaf))
  | block {b : Build p} {h : Recipe.Heading} {children rest : List Item} : b.top.rest =
    .block h children :: rest →
      Turn b (b.enter rest ⟨blockInfo h children, [], children, b.top.depth⟩)
  | recipe {b : Build p} {r : Recipe.Reference} {rest items : List Item} {path : Path} :
      b.top.rest = .inclusion r :: rest →
      p.expandInclude b.visited (b.top.depth + 1) r = .inr path →
      p.items path = some items →
      Turn b ({ b with visited := path.normalize :: b.visited }.enter rest
        ⟨recipeInfo path, [], items, b.top.depth + 1⟩)

theorem turn_of_leads {b next : Build p} (h : Leads next b) : Turn b next := by
  rw [Leads, step] at h
  split at h
  · cases h
  · rename_i parent outer hrest houter
    cases h
    exact .close hrest houter
  · rename_i r rest hrest
    cases h
    exact .resource hrest
  · rename_i heading children rest hrest
    cases h
    exact .block hrest
  · rename_i r rest hrest
    split at h
    · rename_i leaf hinclude
      cases h
      exact .refused hrest hinclude
    · rename_i path hinclude
      obtain ⟨items, hitems, hnext⟩ := Option.map_eq_some_iff.mp h
      cases hnext
      exact .recipe hrest hinclude hitems

theorem of_finished {b : Build p} {root : Node} (h : b.step = some (.inl root)) :
    b.top.rest = [] ∧ b.outer = [] ∧ root = close p b.top := by
  rw [step] at h
  split at h
  · rename_i hrest houter
    cases h
    exact ⟨hrest, houter, rfl⟩
  · cases h
  · cases h
  · cases h
  · split at h
    · cases h
    · obtain ⟨_, _, hnext⟩ := Option.map_eq_some_iff.mp h
      cases hnext

theorem soFar_of_finished {b : Build p.draft} {root : Node} (h : b.step = some (.inl root)) :
    b.soFar = root := by
  obtain ⟨_, houter, hroot⟩ := of_finished h
  rw [hroot, close_draft, soFar, houter, plug]

theorem of_stuck {b : Build p} (h : b.step = none) :
    ∃ r rest path, b.top.rest = .inclusion r :: rest ∧
    p.expandInclude b.visited (b.top.depth + 1) r = .inr path ∧ p.items path = none := by
  rw [step] at h
  split at h
  · cases h
  · cases h
  · cases h
  · cases h
  · rename_i r rest hrest
    split at h
    · cases h
    · rename_i path hinclude
      exact ⟨r, rest, path, hrest, hinclude, Option.map_eq_none_iff.mp h⟩

theorem exists_last (b : Build p) : ∃ last, ReflTransGen (fun b next => Leads next b) b last ∧
    ((∃ root, last.step = some (.inl root) ∧ b.run = some root) ∨
    (last.step = none ∧ b.run = none)) := by
  fun_induction run b with
  | case1 b h => exact ⟨b, .refl, .inr ⟨h, rfl⟩⟩
  | case2 b root h => exact ⟨b, .refl, .inl ⟨root, h, rfl⟩⟩
  | case3 b next h ih =>
    obtain ⟨last, hreach, hend⟩ := ih
    exact ⟨last, hreach.head h, hend⟩

end Build

/-- A tree comes out of the build that starts with the items of its recipe. -/
theorem run_start_of_tree {p : Plan} {entry : Path} {t : Node} (h : p.tree entry = some t) :
    ∃ items, p.items entry = some items ∧ (Build.start p entry items).run = some t := by
  rw [tree] at h
  cases hitems : p.items entry with
  | none => simp [hitems] at h
  | some items =>
    rw [hitems] at h
    exact ⟨items, rfl, h⟩

def Reached (p : Plan) (entry : Path) (b : Build p) : Prop :=
  ∃ items, p.items entry = some items ∧
    ReflTransGen (fun b next => Build.Leads next b) (Build.start p entry items) b

namespace Reached

variable {p : Plan} {entry : Path}

/-- What holds at the start and is kept by every turn holds all along. -/
theorem induction {motive : Build p → Prop}
    (start : ∀ items, p.items entry = some items → motive (Build.start p entry items))
    (turn : ∀ b next, motive b → Build.Turn b next → motive next) {b : Build p}
    (h : p.Reached entry b) : motive b := by
  obtain ⟨items, hitems, hreach⟩ := h
  induction hreach with
  | refl => exact start items hitems
  | tail _ hleads ih => exact turn _ _ ih (Build.turn_of_leads hleads)

theorem run_eq {b : Build p} (h : p.Reached entry b) : b.run = p.tree entry := by
  obtain ⟨items, hitems, hreach⟩ := h
  rw [tree, hitems]
  induction hreach with
  | refl => rfl
  | tail _ hleads ih => rw [← Build.run_of_leads hleads, ih]

theorem exists_finished {t : Node} (h : p.tree entry = some t) :
    ∃ b, p.Reached entry b ∧ b.step = some (.inl t) := by
  obtain ⟨items, hitems, hstart⟩ := run_start_of_tree h
  obtain ⟨last, hreach, ⟨root, hstep, hrun⟩ | ⟨_, hrun⟩⟩ :=
    Build.exists_last (Build.start p entry items)
  · obtain rfl : root = t := Option.some.inj (hrun.symm.trans hstart)
    exact ⟨last, ⟨items, hitems, hreach⟩, hstep⟩
  · rw [hrun] at hstart
    cases hstart

theorem of_draft {d : Node} (h : p.draft.tree entry = some d) :
    ∃ b, p.draft.Reached entry b ∧ b.top.rest = [] ∧ b.outer = [] ∧ b.soFar = d := by
  obtain ⟨last, hreached, hstep⟩ := exists_finished h
  obtain ⟨hrest, houter, -⟩ := Build.of_finished hstep
  exact ⟨last, hreached, hrest, houter, Build.soFar_of_finished hstep⟩

end Reached

end Plan
end CookbookAtlas.Execution
