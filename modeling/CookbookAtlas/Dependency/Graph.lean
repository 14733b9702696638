import CookbookAtlas.Lock.Basic

/-! The graph of cookbook dependencies. Names stand in order of first mention, edges in order of
insertion. -/
namespace CookbookAtlas.Dependency

structure Link where
  source : String
  target : String
  constraint : String
deriving DecidableEq

structure Graph where
  nodes : List String
  links : List Link
deriving DecidableEq

namespace Graph

def empty : Graph := ⟨[], []⟩

def ensureNode (g : Graph) (name : String) : Graph :=
  if name ∈ g.nodes then g else { g with nodes := g.nodes ++ [name] }

@[simp] theorem mem_nodes_ensureNode (g : Graph) (name other : String) :
    other ∈ (g.ensureNode name).nodes ↔ other ∈ g.nodes ∨ other = name := by
  by_cases h : name ∈ g.nodes
  · simp only [ensureNode, h, if_true]
    exact ⟨Or.inl, fun ho => ho.elim id fun e => e ▸ h⟩
  · simp [ensureNode, h]

def hasLink (g : Graph) (source target : String) : Bool :=
  g.links.any fun l => l.source == source && l.target == target

/-- Records a dependency; the first constraint given for a pair stays. -/
def add (g : Graph) (source target constraint : String) : Graph :=
  let g := (g.ensureNode source).ensureNode target
  if g.hasLink source target then g
  else { g with links := g.links ++ [⟨source, target, constraint⟩] }

def direct (g : Graph) (name : String) : List String :=
  g.links.filterMap fun l => if l.source = name then some l.target else none

def addEdge (g : Graph) (edge : Lock.Edge) : Graph :=
  edge.dependencies.foldl (fun g t => g.add edge.cookbook t.name t.constraint) g

def ofRegistry (r : Lock.Registry) : Graph :=
  let nodes := r.records.foldl (fun g record => g.ensureNode record.name) empty
  (r.edges.map Prod.snd).foldl addEdge nodes

end Graph
end CookbookAtlas.Dependency
