import CookbookAtlas.Execution.Render

/-! The walks over a tree as loops over a stack, whose top is its first entry. A turn of a loop
takes off one entry and puts the children of its node in its place. -/
namespace CookbookAtlas.Execution

open List

namespace Node

theorem countAll_append (ns ms : List Node) : countAll (ns ++ ms) = countAll ns + countAll ms := by
  induction ns with
  | nil => simp [countAll]
  | cons n ns ih => simp [countAll, ih, Nat.add_assoc]

theorem countAll_reverse (ns : List Node) : countAll ns.reverse = countAll ns := by
  induction ns with
  | nil => rfl
  | cons n ns ih => simp [countAll, countAll_append, ih, Nat.add_comm]

theorem count_eq (n : Node) : n.count = countAll n.children + 1 := by
  cases n with
  | mk info children => rw [count, Node.children, Nat.add_comm]

theorem preorder_eq (n : Node) : n.preorder = n :: preorderAll n.children := by
  cases n with
  | mk info children => rw [preorder, Node.children]

theorem preorderAll_append (ns ms : List Node) :
    preorderAll (ns ++ ms) = preorderAll ns ++ preorderAll ms := by
  induction ns with
  | nil => simp [preorderAll]
  | cons n ns ih => simp [preorderAll, ih]

/-- Counts the nodes of a stack. The children go on it in their order, so the last is next. -/
def countLoop (stack : List Node) (counted : Nat) : Nat :=
  match stack with
  | [] => counted
  | n :: rest => countLoop (n.children.reverse ++ rest) (counted + 1)
termination_by countAll stack
decreasing_by simp [countAll, countAll_append, countAll_reverse, count_eq]

theorem countLoop_eq (stack : List Node) (counted : Nat) :
    countLoop stack counted = counted + countAll stack := by
  fun_induction countLoop stack counted with
  | case1 counted => simp [countAll]
  | case2 counted n rest ih =>
    rw [ih, countAll_append, countAll_reverse, countAll, count_eq]
    omega

theorem count_eq_loop (n : Node) : n.count = countLoop [n] 0 := by
  simp [countLoop_eq, countAll]

/-- The first node with a property that comes to the top of the stack. -/
def findLoop (wanted : Node → Bool) : List Node → Option Node
  | [] => none
  | n :: rest => if wanted n then some n else findLoop wanted (n.children ++ rest)
termination_by stack => countAll stack
decreasing_by simp [countAll, countAll_append, count_eq]

theorem findLoop_eq (wanted : Node → Bool) (stack : List Node) :
    findLoop wanted stack = (preorderAll stack).find? wanted := by
  fun_induction findLoop wanted stack with
  | case1 => rfl
  | case2 n rest h => simp [preorderAll, preorder_eq, h]
  | case3 n rest h ih =>
    simp only [preorderAll_append] at ih
    simp [preorderAll, preorder_eq, h, ih]

theorem find?_eq_loop (n : Node) (name : String) :
    n.find? name = findLoop (fun m => m.info.name == name) [n] := by
  simp [findLoop_eq, preorderAll, find?]

end Node

/-- What a loop does with an entry: what it writes down, and what goes on the stack with each child,
told whether the child is the last. With none the children are left out. -/
structure Walk (γ β : Type) where
  note : Node → γ → List β
  below : Node → γ → Option (Bool → γ)

def siblingEntries {γ : Type} (place : Bool → γ) : List Node → List (Node × γ)
  | [] => []
  | n :: rest => (n, place rest.isEmpty) :: siblingEntries place rest

def stackCount {γ : Type} (stack : List (Node × γ)) : Nat := Node.countAll (stack.map Prod.fst)

theorem map_fst_siblingEntries {γ : Type} (place : Bool → γ) (ns : List Node) :
    (siblingEntries place ns).map Prod.fst = ns := by
  induction ns with
  | nil => rfl
  | cons n ns ih => simp [siblingEntries, ih]

namespace Walk

section
variable {γ β : Type} (w : Walk γ β)

def pushed (n : Node) (x : γ) : List (Node × γ) :=
  match w.below n x with
  | none => []
  | some place => siblingEntries place n.children

theorem stackCount_pushed (n : Node) (x : γ) (rest : List (Node × γ)) :
    stackCount (w.pushed n x ++ rest) < stackCount ((n, x) :: rest) := by
  simp only [stackCount, map_append, map_cons, Node.countAll_append, Node.countAll, Node.count_eq n]
  rw [pushed]
  split
  · simp [Node.countAll]
  · rw [map_fst_siblingEntries]
    omega

def loop (stack : List (Node × γ)) (noted : List β) : List β :=
  match stack with
  | [] => noted
  | (n, x) :: rest => loop (w.pushed n x ++ rest) (noted ++ w.note n x)
termination_by stackCount stack
decreasing_by exact w.stackCount_pushed n x rest

mutual
/-- The same walk as a recursion over the tree. -/
def visit (x : γ) : Node → List β
  | .mk info children =>
    w.note (.mk info children) x ++
      match w.below (.mk info children) x with
      | none => []
      | some place => visitAll place children

def visitAll (place : Bool → γ) : List Node → List β
  | [] => []
  | n :: rest => visit (place rest.isEmpty) n ++ visitAll place rest
end

mutual
/-- What a node adds to the notes while its entry and those below it come and go. -/
theorem loop_cons (n : Node) (x : γ) (rest : List (Node × γ)) (noted : List β) :
    w.loop ((n, x) :: rest) noted = w.loop rest (noted ++ w.visit x n) := by
  match n with
  | .mk info children =>
    rw [loop, pushed, visit]
    cases w.below (.mk info children) x with
    | none => simp
    | some place =>
      have hbelow := loop_siblings children place rest (noted ++ w.note (.mk info children) x)
      rw [append_assoc] at hbelow
      exact hbelow

theorem loop_siblings (ns : List Node) (place : Bool → γ) (rest : List (Node × γ))
    (noted : List β) :
    w.loop (siblingEntries place ns ++ rest) noted =
    w.loop rest (noted ++ w.visitAll place ns) := by
  match ns with
  | [] => simp [siblingEntries, visitAll]
  | n :: ns =>
    rw [siblingEntries, cons_append, loop_cons n, loop_siblings ns, visitAll, append_assoc]
end

theorem loop_singleton (n : Node) (x : γ) : w.loop [(n, x)] [] = w.visit x n := by
  rw [loop_cons, loop, nil_append]

end

def depths : Walk Nat Nat where
  note _ depth := [depth]
  below _ depth := some fun _ => depth + 1

mutual
theorem visit_depths (depth : Nat) (n : Node) : depths.visit depth n = n.depthsFrom depth := by
  match n with
  | .mk info children =>
    have hbelow := visitAll_depths (depth + 1) children
    rw [visit, Node.depthsFrom, ← hbelow]
    rfl

theorem visitAll_depths (depth : Nat) (ns : List Node) :
    depths.visitAll (fun _ => depth) ns = Node.depthsOfAll depth ns := by
  match ns with
  | [] => rfl
  | n :: rest => rw [visitAll, visit_depths depth n, visitAll_depths depth rest, Node.depthsOfAll]
end

theorem depths_eq_loop (n : Node) : n.depths = depths.loop [(n, 0)] [] := by
  rw [loop_singleton, visit_depths, Node.depths]

/-- The nodes of a kind in the order in which they come to the top. -/
def selecting (wanted : Node → Bool) : Walk Unit Node where
  note n _ := if wanted n then [n] else []
  below _ _ := some fun _ => ()

mutual
theorem visit_selecting (wanted : Node → Bool) (n : Node) :
    (selecting wanted).visit () n = n.preorder.filter wanted := by
  match n with
  | .mk info children =>
    have hbelow := visitAll_selecting wanted children
    rw [visit, Node.preorder, filter_cons, ← hbelow]
    by_cases h : wanted (.mk info children) = true <;> simp [selecting, h]

theorem visitAll_selecting (wanted : Node → Bool) (ns : List Node) :
    (selecting wanted).visitAll (fun _ => ()) ns = (Node.preorderAll ns).filter wanted := by
  match ns with
  | [] => rfl
  | n :: rest =>
    rw [visitAll, visit_selecting wanted n, visitAll_selecting wanted rest, Node.preorderAll,
      filter_append]
end

theorem ofKind_eq_loop (n : Node) (kind : Kind) :
    n.ofKind kind = (selecting fun m => m.info.kind == kind).loop [(n, ())] [] := by
  rw [loop_singleton, visit_selecting, Node.ofKind]

/-- Where a node stands in a rendering. -/
structure Place where
  indent : String
  last : Bool
  depth : Nat

/-- The root has neither a mark nor an indent below it. -/
def Place.lead (p : Place) : String := if p.depth = 0 then "" else p.indent ++ mark p.last
def Place.below (p : Place) : String := if p.depth = 0 then "" else p.indent ++ indentBelow p.last

def rendering (limit : Option Nat) : Walk Place String where
  note n p :=
    [p.lead ++ n.info.label
      ++ if isCut limit p.depth n.children then s!" [{Node.countLoop [n] 0 - 1} more]" else ""]
  below n p :=
    if isCut limit p.depth n.children then none else some fun last => ⟨p.below, last, p.depth + 1⟩

theorem note_rendering (limit : Option Nat) (info : Info) (children : List Node) (p : Place) :
    (rendering limit).note (.mk info children) p =
    [p.lead ++ lineText limit p.depth info children] := by
  have hcount : Node.countLoop [.mk info children] 0 - 1 = Node.countAll children := by
    rw [← Node.count_eq_loop, Node.count]
    omega
  simp only [rendering, lineText, hcount, Node.info, Node.children]
  split <;> simp [String.append_assoc, toString]

mutual
theorem visit_rendering (limit : Option Nat) (p : Place) (n : Node) :
    (rendering limit).visit p n = n.lines limit p.depth p.lead p.below := by
  match n with
  | .mk info children =>
    have hbelow := visitAll_rendering limit p.below p.depth children
    rw [visit, note_rendering, Node.lines, ← hbelow]
    by_cases h : isCut limit p.depth children = true <;> simp [rendering, Node.children, h]

theorem visitAll_rendering (limit : Option Nat) (indent : String) (depth : Nat) (ns : List Node) :
    (rendering limit).visitAll (fun last => ⟨indent, last, depth + 1⟩) ns =
      siblingLines limit (depth + 1) indent ns := by
  match ns with
  | [] => rfl
  | n :: rest =>
    rw [visitAll, visit_rendering limit _ n, visitAll_rendering limit indent depth rest, siblingLines]
    simp [Place.lead, Place.below]
end

theorem render_eq_loop (n : Node) (limit : Option Nat) :
    n.render limit =
      String.join (((rendering limit).loop [(n, ⟨"", true, 0⟩)] []).map (· ++ "\n")) := by
  rw [loop_singleton, visit_rendering, Node.render]
  rfl

end Walk
end CookbookAtlas.Execution
