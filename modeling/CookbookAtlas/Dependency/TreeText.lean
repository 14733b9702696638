import CookbookAtlas.Dependency.Graph

/-! The dependencies below a cookbook as a tree of lines. -/
namespace CookbookAtlas.Dependency

def branchMark (last : Bool) : String := if last then "└── " else "├── "
def branchIndent (last : Bool) : String := if last then "    " else "│   "

/-- Lines of siblings. A name no longer `free` is on the branch already: a line under it tells
so, and it is not followed. -/
def treeLines (g : Graph) (free : List String) (indent : String) : List String → List String
  | [] => []
  | name :: rest =>
    let last := rest.isEmpty
    let below := indent ++ branchIndent last
    (indent ++ branchMark last ++ name) ::
      ((if name ∈ free then treeLines g (free.erase name) below (g.direct name)
        else [below ++ branchMark true ++ "(circular reference)"])
        ++ treeLines g free indent rest)
termination_by names => (free.length, names.length)
decreasing_by
  · rename_i h
    have := List.length_erase_of_mem h
    have := List.length_pos_of_mem h
    exact Prod.Lex.left _ _ (by omega)
  · exact Prod.Lex.right _ (by simp)

def Graph.treeText (g : Graph) (root : String) : String :=
  String.join ((root :: treeLines g (g.nodes.erase root) "" (g.direct root)).map (· ++ "\n"))

end CookbookAtlas.Dependency
