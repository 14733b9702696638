import CookbookAtlas.Dependency.Graph

/-! The locked cookbooks reachable from a cookbook, in order of first visit. -/
namespace CookbookAtlas.Dependency

/-- Visits the names of `work` depth first. A name is reported when it is still in `fresh`; any
other name was visited before or is not locked, and is not followed. -/
def closureFrom (g : Graph) (fresh : List String) : List String → List String
  | [] => []
  | name :: work =>
    if name ∈ fresh then name :: closureFrom g (fresh.erase name) (g.direct name ++ work)
    else closureFrom g fresh work
termination_by work => (fresh.length, work.length)
decreasing_by
  · rename_i h
    have := List.length_erase_of_mem h
    have := List.length_pos_of_mem h
    exact Prod.Lex.left _ _ (by omega)
  · exact Prod.Lex.right _ (by simp)

def Graph.closure (g : Graph) (locked : List String) (name : String) : List String :=
  closureFrom g locked (g.direct name)

def Graph.dependencies (g : Graph) (r : Lock.Registry) (name : String) : List Lock.Record :=
  (g.closure (r.cookbooks.map Prod.fst) name).filterMap r.get?

def dependenciesOf (r : Lock.Registry) (name : String) : List Lock.Record :=
  (Graph.ofRegistry r).dependencies r name

end CookbookAtlas.Dependency
