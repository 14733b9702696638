import CookbookAtlas.Dependency.Graph
import CookbookAtlas.Total

/-! The first dependency cycle, found depth first. -/
namespace CookbookAtlas.Dependency

def pendingSize (pending : List (List String)) : Nat := total (pending.map fun p => p.length + 1)

/-- The part of a path from `name` on, closed by `name`. -/
def closedPath (path : List String) (name : String) : List String :=
  (path.takeWhile (· ≠ name) ++ [name]).reverse ++ [name]

/-- Follows dependencies: `unmet` are the names not yet met, `path` leads to the name being
followed (last one first), and `pending` has for each name on it the dependencies still to
follow. The result is a cycle, or the names that were never met. -/
def search (g : Graph) (unmet path : List String) (pending : List (List String)) :
    List String ⊕ List String :=
  match pending with
  | [] => .inr unmet
  | [] :: rest => search g unmet path.tail rest
  | (name :: more) :: rest =>
    if name ∈ path then .inl (closedPath path name)
    else if name ∈ unmet then search g (unmet.erase name) (name :: path) (g.direct name :: more :: rest)
    else search g unmet path (more :: rest)
termination_by (unmet.length, pendingSize pending)
decreasing_by
  · exact Prod.Lex.right _ (by simp [pendingSize])
  · rename_i h
    have := List.length_erase_of_mem h
    have := List.length_pos_of_mem h
    exact Prod.Lex.left _ _ (by omega)
  · exact Prod.Lex.right _ (by simp [pendingSize])

def cycleFrom (g : Graph) (unmet : List String) : List String → Option (List String)
  | [] => none
  | start :: starts =>
    if start ∈ unmet then
      match search g (unmet.erase start) [start] [g.direct start] with
      | .inl cycle => some cycle
      | .inr unmet => cycleFrom g unmet starts
    else cycleFrom g unmet starts

def Graph.cycle? (g : Graph) : Option (List String) := cycleFrom g g.nodes g.nodes

end CookbookAtlas.Dependency
