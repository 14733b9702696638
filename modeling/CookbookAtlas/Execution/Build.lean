import CookbookAtlas.Execution.DisplayName
import CookbookAtlas.Execution.Expansion
import CookbookAtlas.Locate.Basic
import CookbookAtlas.Recipe.Inclusion
import CookbookAtlas.Survey.Collect

/-! Building the tree of what a recipe executes. Includes are followed where they stand, up to a
depth, and each recipe file is expanded once. One step takes one item, or closes the innermost
container; blocks and included recipes are kept on one stack of open containers, so neither
nests calls. -/
namespace CookbookAtlas.Execution

structure Plan where
  world : World
  survey : Survey
  dirs : List Path
  maxDepth : Nat
  /-- Display limit for files that the survey does not have. -/
  limit : Nat

namespace Plan

def items (p : Plan) (path : Path) : Option (List Recipe.Item) :=
  match p.survey.entry? path with
  | some entry => some entry.parsed.execution
  | none =>
    (Survey.tryFile p.world p.limit path).map fun parsed => (parsed.map (·.execution)).getD []

def recipeInfo (path : Path) : Info := (Info.plain .recipe (displayName path)).placed path none

def resourceNode (p : Plan) (r : Recipe.Resource) : Node :=
  let info := (Info.plain (if r.custom then .customResource else .resource) r.displayName).placed
    r.file (some r.line)
  let provider := if r.custom then
      (ProviderName.read r.resourceType.toList).toOption.bind (Locate.providerFile? p.world p.dirs)
    else none
  .leaf { info with provider, resource := some r }

def itemFile? : Recipe.Item → Option Path
  | .resource r | .inclusion r => some r.file
  | .block _ _ => none

def blockInfo (h : Recipe.Heading) (children : List Recipe.Item) : Info :=
  { Info.plain .conditional h.condition with line := some h.line, file := children.findSome? itemFile? }

def includeLeaf (kind : Kind) (name : String) (r : Recipe.Reference) : Info :=
  (Info.plain kind name).placed r.file (some r.line)

/-- An include that stands at include depth `depth`: the file to expand, or the leaf that stands
for it. -/
def expandInclude (p : Plan) (visited : List Path) (depth : Nat) (r : Recipe.Reference) :
    Info ⊕ Path :=
  match r.recipe? with
  | none => .inl (includeLeaf .unresolved r.target r)
  | some name =>
    if p.maxDepth < depth then .inl (includeLeaf .truncated name.text r)
    else match Locate.recipeFile? p.world p.dirs name with
      | none => .inl { includeLeaf .unresolved name.text r with
          suggestions := suggestions p.survey.recipeNames name.text }
      | some path =>
        if visited.contains path.normalize then .inl ((Info.plain .circular name.text).placed path none)
        else .inr path

theorem depth_le_of_expandInclude {p : Plan} {visited : List Path} {depth : Nat}
    {r : Recipe.Reference}
    {path : Path} (h : p.expandInclude visited depth r = .inr path) : depth ≤ p.maxDepth := by
  unfold expandInclude at h
  split at h
  · cases h
  · split at h
    · cases h
    · omega

/-- A container whose children are being built: those done, last one first, and what is left. -/
structure Open where
  info : Info
  done : List Node
  rest : List Recipe.Item
  /-- Include depth of the recipe that the container belongs to. -/
  depth : Nat

/-- A build under way: normalized paths of the files expanded so far, the innermost open
container, and the containers around it. -/
structure Build (p : Plan) where
  visited : List Path
  top : Open
  outer : List Open

namespace Build

variable {p : Plan}

def add (b : Build p) (rest : List Recipe.Item) (n : Node) : Build p :=
  { b with top := { b.top with done := n :: b.top.done, rest } }

def enter (b : Build p) (rest : List Recipe.Item) (inner : Open) : Build p :=
  { b with top := inner, outer := { b.top with rest } :: b.outer }

/-- A container's node, with its loops over known collections expanded. -/
def close (p : Plan) (o : Open) : Node :=
  .mk o.info (o.done.reverse.map (expandLoop p.survey.collections))

/-- One step: the finished root, or the next state; nothing if a file cannot be told. -/
def step (b : Build p) : Option (Node ⊕ Build p) :=
  match b.top.rest, b.outer with
  | [], [] => some (.inl (close p b.top))
  | [], parent :: outer =>
    some (.inr { b with top := { parent with done := close p b.top :: parent.done }, outer })
  | .resource r :: rest, _ => some (.inr (b.add rest (p.resourceNode r)))
  | .block h children :: rest, _ =>
    some (.inr (b.enter rest ⟨blockInfo h children, [], children, b.top.depth⟩))
  | .inclusion r :: rest, _ =>
    match p.expandInclude b.visited (b.top.depth + 1) r with
    | .inl info => some (.inr (b.add rest (.leaf info)))
    | .inr path => (p.items path).map fun items =>
        .inr ({ b with visited := path.normalize :: b.visited }.enter rest
          ⟨recipeInfo path, [], items, b.top.depth + 1⟩)

def Leads (next b : Build p) : Prop := b.step = some (.inr next)

/-- A build comes to an end if it does once the items of its innermost container are taken. -/
theorem acc_of_rest (items : List Recipe.Item) (visited : List Path) (info : Info)
    (done : List Node) (depth : Nat) (outer : List Open)
    (h : ∀ visited done, Acc Leads (⟨visited, ⟨info, done, [], depth⟩, outer⟩ : Build p)) :
    Acc Leads (⟨visited, ⟨info, done, items, depth⟩, outer⟩ : Build p) := by
  match items with
  | [] => exact h visited done
  | .resource r :: rest =>
    refine ⟨_, fun next hn => ?_⟩
    cases hn
    exact acc_of_rest rest _ _ _ depth outer h
  | .block heading children :: rest =>
    refine ⟨_, fun next hn => ?_⟩
    cases hn
    refine acc_of_rest children _ _ _ depth _ fun visited' done' => ⟨_, fun next hn => ?_⟩
    cases hn
    exact acc_of_rest rest _ _ _ depth outer h
  | .inclusion r :: rest =>
    refine ⟨_, fun next hn => ?_⟩
    simp only [Leads, step] at hn
    split at hn
    · cases hn
      exact acc_of_rest rest _ _ _ depth outer h
    · rename_i path hpath
      obtain ⟨own, hown, hnext⟩ := Option.map_eq_some_iff.mp hn
      cases hnext
      have hdepth := depth_le_of_expandInclude hpath
      refine acc_of_rest own _ _ _ (depth + 1) _ fun visited' done' => ⟨_, fun next hn => ?_⟩
      cases hn
      exact acc_of_rest rest _ _ _ depth outer h
termination_by (p.maxDepth - depth, Recipe.sizeItems items)
decreasing_by
  all_goals first
    | exact Prod.Lex.left _ _ (by omega)
    | exact Prod.Lex.right _ (by simp only [Recipe.sizeItems, Recipe.Item.size]; omega)

/-- Every build comes to an end: an include is expanded only below the depth limit. -/
theorem acc (visited : List Path) (top : Open) (outer : List Open) :
    Acc Leads (⟨visited, top, outer⟩ : Build p) := by
  induction outer generalizing visited top with
  | nil =>
    refine acc_of_rest top.rest visited top.info top.done top.depth [] fun visited' done' =>
      ⟨_, fun next hn => ?_⟩
    cases hn
  | cons parent outer ih =>
    refine acc_of_rest top.rest visited top.info top.done top.depth (parent :: outer)
      fun visited' done' => ⟨_, fun next hn => ?_⟩
    cases hn
    exact ih _ _

instance : WellFoundedRelation (Build p) where
  rel := Leads
  wf := ⟨fun b => acc b.visited b.top b.outer⟩

def run (b : Build p) : Option Node :=
  match _h : b.step with
  | none => none
  | some (.inl root) => some root
  | some (.inr next) => run next
termination_by b
decreasing_by exact _h

def start (p : Plan) (entry : Path) (items : List Recipe.Item) : Build p :=
  ⟨[entry.normalize], ⟨recipeInfo entry, [], items, 0⟩, []⟩

end Build

def tree (p : Plan) (entry : Path) : Option Node :=
  match p.items entry with
  | none => none
  | some items => (Build.start p entry items).run

def entry (p : Plan) (name : RecipeName) : Except Trouble Path :=
  match Locate.recipeFile? p.world p.dirs name with
  | some path => .ok path
  | none => .error (.ofFailure (.recipeNotFound name.text))

end Plan
end CookbookAtlas.Execution
