import CookbookAtlas.Execution.Build
import Mathlib.Data.List.Forall2

/-! The tree of a recipe by plain recursion over its items. The stack of open containers builds
the same tree: taking the items of a container leaves behind exactly the nodes of the recursion,
with the same files expanded on the way. -/
namespace CookbookAtlas.Execution
namespace Plan

open Option Recipe

open Recipe (Item sizeItems)

/-- The children of a finished container: conditionals over a known collection become loops. -/
def finished (p : Plan) (nodes : List Node) : List Node :=
  nodes.map (expandLoop p.survey.collections)

mutual
/-- The node of one item of a recipe at include depth `depth`, and the files expanded after it.
Nothing comes out if a file cannot be told. -/
def nodeOf (p : Plan) (depth : Nat) (visited : List Path) : Item → Option (Node × List Path)
  | .resource r => some (p.resourceNode r, visited)
  | .block h children => do
    let (inner, visited) ← nodesOf p depth visited children
    return (.mk (blockInfo h children) (p.finished inner), visited)
  | .inclusion r =>
    match r.recipe? with
    | none => some (.leaf (includeLeaf .unresolved r.target r), visited)
    | some name =>
      if p.maxDepth < depth + 1 then some (.leaf (includeLeaf .truncated name.text r), visited)
      else match Locate.recipeFile? p.world p.dirs name with
        | none => some (.leaf { includeLeaf .unresolved name.text r with
            suggestions := suggestions p.survey.recipeNames name.text }, visited)
        | some path =>
          if path.normalize ∈ visited then
            some (.leaf ((Info.plain .circular name.text).placed path none), visited)
          else do
            let own ← p.items path
            let (inner, visited) ← nodesOf p (depth + 1) (path.normalize :: visited) own
            return (.mk (recipeInfo path) (p.finished inner), visited)
termination_by item => (p.maxDepth - depth, 2 * item.size)
decreasing_by
  · exact Prod.Lex.right _ (by simp only [Item.size]; omega)
  · exact Prod.Lex.left _ _ (by omega)

/-- The nodes of the items of one container, one after the other. -/
def nodesOf (p : Plan) (depth : Nat) (visited : List Path) :
    List Item → Option (List Node × List Path)
  | [] => some ([], visited)
  | item :: rest => do
    let (node, visited) ← nodeOf p depth visited item
    let (nodes, visited) ← nodesOf p depth visited rest
    return (node :: nodes, visited)
termination_by items => (p.maxDepth - depth, 2 * sizeItems items + 1)
decreasing_by
  · exact Prod.Lex.right _ (by simp only [sizeItems]; omega)
  · have h : 0 < item.size := by cases item <;> simp only [Item.size] <;> omega
    exact Prod.Lex.right _ (by simp only [sizeItems]; omega)
end

/-- The tree of the recipe in the file `entry`, by recursion. -/
def recursiveTree (p : Plan) (entry : Path) : Option Node := do
  let items ← p.items entry
  let (nodes, _) ← nodesOf p 0 [entry.normalize] items
  return .mk (recipeInfo entry) (p.finished nodes)

namespace Build

variable {p : Plan}

theorem run_of_leads {next b : Build p} (h : Leads next b) : b.run = next.run := by
  rw [run]
  split
  · rename_i h'; simp [Leads, h'] at h
  · rename_i h'; simp [Leads, h'] at h
  · rename_i next' h'
    have he : next' = next := by simpa [Leads, h'] using h
    rw [he]

theorem run_finished {b : Build p} {root : Node} (h : b.step = some (.inl root)) :
    b.run = some root := by
  rw [run]
  split <;> simp_all

theorem run_stuck {b : Build p} (h : b.step = none) : b.run = none := by
  rw [run]
  split <;> simp_all

/-- A container whose items are taken becomes a child of the container around it. -/
theorem run_close (visited : List Path) (o parent : Open) (outer : List Open) (ho : o.rest = []) :
    (⟨visited, o, parent :: outer⟩ : Build p).run =
      (⟨visited, { parent with done := close p o :: parent.done }, outer⟩ : Build p).run :=
  run_of_leads (by simp [Leads, step, ho])

theorem run_leaf {visited : List Path} {info leaf : Info} {done : List Node} {r : Reference}
    {rest : List Item} {depth : Nat} {outer : List Open}
    (h : p.expandInclude visited (depth + 1) r = .inl leaf) :
    (⟨visited, ⟨info, done, .inclusion r :: rest, depth⟩, outer⟩ : Build p).run =
      (⟨visited, ⟨info, .leaf leaf :: done, rest, depth⟩, outer⟩ : Build p).run :=
  run_of_leads (by simp [Leads, step, h, add])

mutual
theorem run_item (visited : List Path) (info : Info) (done : List Node) (item : Item)
    (rest : List Item) (depth : Nat) (outer : List Open) :
    (⟨visited, ⟨info, done, item :: rest, depth⟩, outer⟩ : Build p).run =
      (nodeOf p depth visited item).bind fun r =>
        (⟨r.2, ⟨info, r.1 :: done, rest, depth⟩, outer⟩ : Build p).run := by
  match item with
  | .resource r =>
    rw [nodeOf, bind_some]
    exact run_of_leads rfl
  | .block h children =>
    have hopen : (⟨visited, ⟨info, done, .block h children :: rest, depth⟩, outer⟩ : Build p).run =
        (⟨visited, ⟨blockInfo h children, [], children, depth⟩, ⟨info, done, rest, depth⟩ :: outer⟩ :
          Build p).run := run_of_leads rfl
    rw [hopen, run_items, nodeOf]
    cases nodesOf p depth visited children with
    | none => rfl
    | some built =>
      simp [run_close, close, finished]
  | .inclusion r =>
    -- the tests come in the order in which an include is expanded
    rw [nodeOf]
    cases hr : r.recipe? with
    | none =>
      rw [run_leaf (by rw [expandInclude, hr])]
      rfl
    | some name =>
      by_cases hd : p.maxDepth < depth + 1
      · rw [run_leaf (by simp only [expandInclude, hr, if_pos hd]; rfl)]
        simp [hd]
      · cases hf : Locate.recipeFile? p.world p.dirs name with
        | none =>
          rw [run_leaf (by simp only [expandInclude, hr, if_neg hd, hf]; rfl)]
          simp [hd, hf]
        | some path =>
          by_cases hv : path.normalize ∈ visited
          · have hc : visited.contains path.normalize = true := by simpa using hv
            rw [run_leaf (by simp only [expandInclude, hr, if_neg hd, hf, hc, if_pos]; rfl)]
            simp [hd, hf, hv]
          · have hc : p.expandInclude visited (depth + 1) r = .inr path := by
              simp [expandInclude, hr, hd, hf, hv]
            cases ho : p.items path with
            | none =>
              rw [run_stuck (by simp [step, hc, ho])]
              simp [hd, hf, hv, ho]
            | some own =>
              have hopen : (⟨visited, ⟨info, done, .inclusion r :: rest, depth⟩, outer⟩ : Build p).run =
                  (⟨path.normalize :: visited, ⟨recipeInfo path, [], own, depth + 1⟩,
                    ⟨info, done, rest, depth⟩ :: outer⟩ : Build p).run :=
                run_of_leads (by simp [Leads, step, hc, ho, enter])
              rw [hopen, run_items]
              cases hn : nodesOf p (depth + 1) (path.normalize :: visited) own with
              | none => simp [hd, hf, hv, ho, hn]
              | some built => simp [hd, hf, hv, ho, hn, run_close, close, finished]
termination_by (p.maxDepth - depth, 2 * item.size)
decreasing_by
  · exact Prod.Lex.right _ (by simp only [Item.size]; omega)
  · exact Prod.Lex.left _ _ (by omega)

/-- Taking the items of the innermost container leaves their nodes in it. -/
theorem run_items (visited : List Path) (info : Info) (done : List Node) (items : List Item)
    (depth : Nat) (outer : List Open) :
    (⟨visited, ⟨info, done, items, depth⟩, outer⟩ : Build p).run =
      (nodesOf p depth visited items).bind fun r =>
        (⟨r.2, ⟨info, r.1.reverse ++ done, [], depth⟩, outer⟩ : Build p).run := by
  match items with
  | [] => simp [nodesOf]
  | item :: rest =>
    rw [run_item, nodesOf]
    cases nodeOf p depth visited item with
    | none => rfl
    | some first =>
      obtain ⟨node, visited⟩ := first
      have ih := run_items visited info (node :: done) rest depth outer
      simp only [bind_some, ih]
      cases hn : nodesOf p depth visited rest with
      | none | some others => simp [hn]
termination_by (p.maxDepth - depth, 2 * sizeItems items + 1)
decreasing_by
  · exact Prod.Lex.right _ (by simp only [sizeItems]; omega)
  · have h : 0 < item.size := by cases item <;> simp only [Item.size] <;> omega
    exact Prod.Lex.right _ (by simp only [sizeItems]; omega)
end

end Build

theorem expandLoop_of_kind {collections : List Attribute.Collection} {n : Node}
    (h : n.info.kind ≠ .conditional) : expandLoop collections n = n := by
  simp [expandLoop, h]

/-- `Yields p item n`: the item `item` of an expanded recipe stands in the tree as the child `n`.
Below a block and below an expanded include, the children stand for the items one by one. -/
inductive Yields (p : Plan) : Item → Node → Prop
  | resource (r : Resource) : Yields p (.resource r) (p.resourceNode r)
  | block {h : Heading} {children : List Item} {nodes : List Node} :
      List.Forall₂ (Yields p) children nodes →
      Yields p (.block h children) (expandLoop p.survey.collections (.mk (blockInfo h children) nodes))
  | leaf {r : Reference} {info : Info} :
      info.kind = .unresolved ∨ info.kind = .truncated ∨ info.kind = .circular →
      Yields p (.inclusion r) (.leaf info)
  | recipe {r : Reference} {path : Path} {own : List Item} {nodes : List Node} :
      p.items path = some own → List.Forall₂ (Yields p) own nodes →
      Yields p (.inclusion r) (.mk (recipeInfo path) nodes)

/-- A leaf for an include stays as it is when its container is finished. -/
theorem Yields.finishedLeaf {p : Plan} {r : Reference} {info : Info}
    (h : info.kind = .unresolved ∨ info.kind = .truncated ∨ info.kind = .circular) :
    Yields p (.inclusion r) (expandLoop p.survey.collections (.leaf info)) := by
  rw [expandLoop_of_kind]
  · exact .leaf h
  · simp only [Node.leaf, Node.info]
    rcases h with h | h | h <;> simp [h]

mutual
theorem yields_nodeOf {p : Plan} {depth : Nat} {visited after : List Path} {item : Item} {n : Node}
    (h : nodeOf p depth visited item = some (n, after)) :
    Yields p item (expandLoop p.survey.collections n) := by
  match item with
  | .resource r =>
    rw [nodeOf] at h
    cases h
    rw [expandLoop_of_kind
      (by simp only [resourceNode, Node.leaf, Node.info]; split <;> simp [Info.placed, Info.plain])]
    exact .resource r
  | .block heading children =>
    rw [nodeOf] at h
    obtain ⟨⟨inner, after'⟩, hinner, hn⟩ := bind_eq_some_iff.mp h
    cases hn
    exact .block (yields_nodesOf hinner)
  | .inclusion r =>
    rw [nodeOf] at h
    split at h
    · cases h
      exact .finishedLeaf (.inl rfl)
    · split at h
      · cases h
        exact .finishedLeaf (.inr (.inl rfl))
      · split at h
        · cases h
          exact .finishedLeaf (.inl rfl)
        · split at h
          · cases h
            exact .finishedLeaf (.inr (.inr rfl))
          · obtain ⟨own, hown, h⟩ := bind_eq_some_iff.mp h
            obtain ⟨⟨inner, after'⟩, hinner, hn⟩ := bind_eq_some_iff.mp h
            cases hn
            rw [expandLoop_of_kind (by simp [Node.info, recipeInfo, Info.placed, Info.plain])]
            exact .recipe hown (yields_nodesOf hinner)
termination_by (p.maxDepth - depth, 2 * item.size)
decreasing_by
  · exact Prod.Lex.right _ (by simp only [Item.size]; omega)
  · exact Prod.Lex.left _ _ (by omega)

theorem yields_nodesOf {p : Plan} {depth : Nat} {visited after : List Path} {items : List Item}
    {nodes : List Node} (h : nodesOf p depth visited items = some (nodes, after)) :
    List.Forall₂ (Yields p) items (p.finished nodes) := by
  match items with
  | [] =>
    rw [nodesOf] at h
    cases h
    exact .nil
  | item :: rest =>
    rw [nodesOf] at h
    obtain ⟨⟨node, visited'⟩, hnode, h⟩ := bind_eq_some_iff.mp h
    obtain ⟨⟨others, after'⟩, hrest, hn⟩ := bind_eq_some_iff.mp h
    cases hn
    exact .cons (yields_nodeOf hnode) (yields_nodesOf hrest)
termination_by (p.maxDepth - depth, 2 * sizeItems items + 1)
decreasing_by
  · exact Prod.Lex.right _ (by simp only [sizeItems]; omega)
  · have hpos : 0 < item.size := by cases item <;> simp only [Item.size] <;> omega
    exact Prod.Lex.right _ (by simp only [sizeItems]; omega)
end

theorem tree_recursion (p : Plan) (entry : Path) : p.tree entry = p.recursiveTree entry := by
  rw [tree, recursiveTree]
  cases hi : p.items entry with
  | none => rfl
  | some items =>
    have hrun := Build.run_items (p := p) [entry.normalize] (recipeInfo entry) [] items 0 []
    change (Build.start p entry items).run = _
    rw [Build.start, hrun]
    cases hn : nodesOf p 0 [entry.normalize] items with
    | none => simp [hn]
    | some built =>
      obtain ⟨nodes, visited⟩ := built
      have hroot : (⟨visited, ⟨recipeInfo entry, nodes.reverse, [], 0⟩, []⟩ : Build p).run =
          some (.mk (recipeInfo entry) (p.finished nodes)) :=
        Build.run_finished (by simp [Build.step, Build.close, finished])
      simp [hn, hroot]

theorem tree_yields {p : Plan} {entry : Path} {t : Node} (h : p.tree entry = some t) :
    ∃ items nodes, p.items entry = some items ∧ t = .mk (recipeInfo entry) nodes ∧
      List.Forall₂ (Yields p) items nodes := by
  rw [tree_recursion] at h
  obtain ⟨items, hitems, h⟩ := bind_eq_some_iff.mp h
  obtain ⟨⟨nodes, after⟩, hnodes, ht⟩ := bind_eq_some_iff.mp h
  cases ht
  exact ⟨items, p.finished nodes, hitems, rfl, yields_nodesOf hnodes⟩

/-- The builder with one stack of open containers gives the tree of the plain recursion, and in it
every item of every expanded recipe stands as exactly one child, in the order of the source. -/
theorem tree_eq_recursiveTree (p : Plan) (entry : Path) :
    p.tree entry = p.recursiveTree entry ∧
      ∀ t, p.tree entry = some t → ∃ items nodes, p.items entry = some items ∧
        t = .mk (recipeInfo entry) nodes ∧ List.Forall₂ (Yields p) items nodes :=
  ⟨tree_recursion p entry, fun _ h => tree_yields h⟩

def sampleRecipe : Path := ⟨"/a/recipes/default.rb"⟩
def sampleOther : Path := ⟨"/a/recipes/b.rb"⟩
def sampleHeading : Heading := ⟨.eachLoop, "xs.each", 1, ["x"]⟩
def sampleBody : List Item := [.inclusion ⟨sampleRecipe, 2, .includeRecipe, "a", false⟩]

/-- A recipe that includes itself inside a loop over a known collection, and then another one. -/
def sampleItems : List Item :=
  [.block sampleHeading sampleBody, .inclusion ⟨sampleRecipe, 4, .includeRecipe, "a::b", false⟩]

def sampleCollection : Attribute.Collection := ⟨"xs", [("k", .null)]⟩

def samplePlan : Plan where
  world := ⟨⟨[(["a"], .directory), (["a", "recipes"], .directory),
    (["a", "recipes", "default.rb"], .file [] false), (["a", "recipes", "b.rb"], .file [] false)]⟩,
    [], [], [], []⟩
  survey := ⟨[⟨sampleRecipe, "a", .recipe, ⟨[], sampleItems, []⟩⟩, ⟨sampleOther, "a", .recipe, ⟨[], [], []⟩⟩],
    .null, [sampleCollection]⟩
  dirs := [⟨"/a"⟩]
  maxDepth := 1
  limit := 80

def sampleTree : Node :=
  .mk (recipeInfo sampleRecipe)
    [loopNode (blockInfo sampleHeading sampleBody)
      [.leaf ((Info.plain .circular "a::default").placed sampleRecipe none)] sampleCollection,
      .mk (recipeInfo sampleOther) []]

theorem samplePlan_tree : samplePlan.tree sampleRecipe = some sampleTree := by
  have hself : samplePlan.items sampleRecipe = some sampleItems := rfl
  have hother : samplePlan.items sampleOther = some [] := rfl
  have hlimit : samplePlan.maxDepth = 1 := rfl
  have hname : Reference.recipe? ⟨sampleRecipe, 2, .includeRecipe, "a", false⟩ =
      some ⟨⟨"a"⟩, "default"⟩ := by decide +kernel
  have hname' : Reference.recipe? ⟨sampleRecipe, 4, .includeRecipe, "a::b", false⟩ =
      some ⟨⟨"a"⟩, "b"⟩ := by decide +kernel
  have hfile : Locate.recipeFile? samplePlan.world samplePlan.dirs ⟨⟨"a"⟩, "default"⟩ =
      some sampleRecipe := by
    decide +kernel
  have hfile' : Locate.recipeFile? samplePlan.world samplePlan.dirs ⟨⟨"a"⟩, "b"⟩ =
      some sampleOther := by
    decide +kernel
  have hnew : sampleOther.normalize ≠ sampleRecipe.normalize := by decide +kernel
  have hcircular : nodesOf samplePlan 0 [sampleRecipe.normalize] sampleBody =
      some ([.leaf ((Info.plain .circular "a::default").placed sampleRecipe none)],
      [sampleRecipe.normalize]) := by
    simp [sampleBody, nodesOf, nodeOf, hname, hlimit, hfile, RecipeName.text]
  have hinclude : nodeOf samplePlan 0 [sampleRecipe.normalize]
      (.inclusion ⟨sampleRecipe, 4, .includeRecipe, "a::b", false⟩) =
      some (.mk (recipeInfo sampleOther) [], [sampleOther.normalize, sampleRecipe.normalize]) := by
    simp [nodesOf, nodeOf, hname', hlimit, hfile', hnew, hother, finished]
  have hblock : nodeOf samplePlan 0 [sampleRecipe.normalize] (.block sampleHeading sampleBody) =
      some (.mk (blockInfo sampleHeading sampleBody)
        [.leaf ((Info.plain .circular "a::default").placed sampleRecipe none)],
        [sampleRecipe.normalize]) := by
    rw [nodeOf, hcircular]
    rfl
  rw [tree_recursion, recursiveTree, hself]
  simp only [sampleItems, nodesOf, hblock, hinclude, bind_eq_bind, bind_some, pure_def]
  rfl

/-- The recursion and the correspondence on a recipe with a circular include inside a loop. -/
theorem samplePlan_yields : samplePlan.tree sampleRecipe = some sampleTree ∧
    ∃ items nodes, samplePlan.items sampleRecipe = some items ∧
      sampleTree = .mk (recipeInfo sampleRecipe) nodes ∧
      List.Forall₂ (Yields samplePlan) items nodes :=
  ⟨samplePlan_tree, (tree_eq_recursiveTree samplePlan sampleRecipe).2 _ samplePlan_tree⟩

end Plan
end CookbookAtlas.Execution
