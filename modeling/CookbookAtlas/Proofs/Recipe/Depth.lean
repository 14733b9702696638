import CookbookAtlas.Proofs.Recipe.Moves
import CookbookAtlas.Recipe.Parse

/-! The depth of blocks. What decides about the closing of blocks is the role of each open block: a
statement pushes roles, takes them off, or leaves them. An `end` at the start of a statement takes
off one block, with its arm if it is a `case`, and a statement that leaves blocks open pushes as
many. Other statements leave the blocks as they are, also where an `end` stands further behind. -/
namespace CookbookAtlas.Recipe

open List

/-- What an open block is for the closing of blocks. -/
inductive Role
  /-- Closes together with the `case` below it. -/
  | arm
  | caseOf
  | other
deriving DecidableEq

def Shape.role : Shape → Role
  | .conditional _ true => .arm
  | .caseOf _ => .caseOf
  | _ => .other

namespace Assembly
variable {a b : Assembly} {s : Source} {word : String}

def Chain.role : Chain → Role
  | .arm => .arm
  | .caseOf => .caseOf
  | _ => .other

def depth (a : Assembly) : Nat := a.frames.countP fun frame => !isArm frame

def roles (a : Assembly) : List Role := a.frames.map fun frame => frame.shape.role

theorem isArm_iff (frame : Frame) : isArm frame = true ↔ frame.shape.role = .arm := by
  obtain ⟨shape, items⟩ := frame
  cases shape with
  | conditional heading arm => cases arm <;> simp [isArm, Shape.role]
  | _ => simp [isArm, Shape.role]

theorem depth_eq (a : Assembly) : a.depth = a.roles.countP fun role => role != .arm := by
  rw [depth, roles, countP_map]
  refine countP_congr fun frame _ => ?_
  have h := isArm_iff frame
  by_cases harm : isArm frame = true <;> simp_all

section
variable (a : Assembly)

@[simp] theorem roles_addFact (fact : Fact) : (a.addFact fact).roles = a.roles := rfl

@[simp] theorem roles_addItems (items : List Item) : (a.addItems items).roles = a.roles := by
  obtain ⟨frames, old, facts⟩ := a
  cases frames <;> rfl

@[simp] theorem roles_addResource (r : Resource) : (a.addResource r).roles = a.roles := by
  rw [addResource, roles_addItems, roles_addFact]

theorem map_role_amendResource (key value : String) (frames : List Frame) :
    (amendResource key value frames).map (fun frame => frame.shape.role) =
      frames.map fun frame => frame.shape.role := by
  induction frames with
  | nil => rfl
  | cons frame rest ih =>
    obtain ⟨shape, items⟩ := frame
    cases shape with
    | resource call start => simp [amendResource, Shape.role]
    | _ => simp only [amendResource, map_cons, ih]

@[simp] theorem roles_addProperty (key value : String) :
    (a.addProperty key value).roles = a.roles :=
  map_role_amendResource key value a.frames

@[simp] theorem roles_push (shape : Shape) : (a.push shape).roles = shape.role :: a.roles := rfl

/-- A block that goes into the block around it leaves the other blocks open. -/
theorem roles_absorb (s : Source) (frame : Frame) (stop : Nat) (guard : Option String) :
    (absorb s a frame stop guard).roles = a.roles := by
  rw [absorb]
  split
  · exact roles_addResource a _
  · exact roles_addItems a _
  · exact roles_addItems a _
  · exact roles_addItems a _
  · split
    · exact roles_addProperty a _ _
    · rfl
  · rfl

theorem roles_pop (s : Source) (stop : Nat) (guard : Option String) :
    (a.pop s stop guard).roles = a.roles.tail := by
  obtain ⟨frames, items, facts⟩ := a
  cases frames with
  | nil => rfl
  | cons frame rest => exact roles_absorb ⟨rest, items, facts⟩ s frame stop guard

theorem head_roles : a.frames.head?.any isArm = true ↔ a.roles.head? = some .arm := by
  obtain ⟨frames, items, facts⟩ := a
  cases frames with
  | nil => simp [roles]
  | cons frame rest => simp [roles, isArm_iff]

theorem roles_close (s : Source) (stop : Nat) (guard : Option String) :
    (a.close s stop guard).roles = if a.roles.head? = some .arm then a.roles.tail.tail
    else a.roles.tail := by
  rw [close]
  by_cases harm : a.frames.head?.any isArm = true
  · rw [if_pos harm, if_pos ((head_roles a).mp harm), roles_pop, roles_pop]
  · rw [if_neg harm, if_neg (mt (head_roles a).mpr harm), roles_pop]

theorem roles_fillers (filler : Shape) (count : Nat) :
    ((List.replicate count filler).foldl push a).roles =
    List.replicate count filler.role ++ a.roles := by
  induction count generalizing a with
  | zero => rfl
  | succ count ih =>
    rw [replicate_succ, foldl_cons, ih, roles_push, replicate_succ', append_assoc]
    rfl

theorem role_opener (s : Source) (toks : Statement) : (opener s toks).1.role ≠ .arm := by
  rw [opener]
  repeat' split
  all_goals simp [Shape.role]

theorem role_innerOpener (toks : Statement) : (innerOpener toks).role = .other := by
  rcases innerOpener_cases toks with h | ⟨key, start, h⟩ <;> rw [h] <;> rfl

theorem roles_openBlocks (s : Source) (toks : Statement) (count : Nat) :
    ∃ pushed, (a.openBlocks s toks count).roles = pushed ++ a.roles ∧ pushed.length = count + 1 ∧
    .arm ∉ pushed := by
  have hpushed : ∀ (primary filler : Shape) (b : Assembly), primary.role ≠ .arm →
      filler.role ≠ .arm →
      b.roles = a.roles → ∃ pushed, ((List.replicate count filler).foldl push (b.push primary)).roles =
        pushed ++ a.roles ∧ pushed.length = count + 1 ∧ .arm ∉ pushed := by
    intro primary filler b hprimary hfiller hb
    refine ⟨List.replicate count filler.role ++ [primary.role], ?_, by simp, ?_⟩
    · rw [roles_fillers, roles_push, hb, append_assoc, singleton_append]
    · simp [hprimary.symm, hfiller.symm]
  rw [openBlocks]
  cases a.setting with
  | inCapture => exact hpushed _ _ a (by simp [Shape.role]) (by simp [Shape.role]) rfl
  | inResource => exact hpushed _ _ a (by simp [role_innerOpener]) (by simp [Shape.role]) rfl
  | normal =>
    cases hfact : (opener s toks).2 with
    | none =>
      simp only [hfact]
      exact hpushed _ _ a (role_opener s toks) (by simp [Shape.role]) rfl
    | some fact =>
      simp only [hfact]
      exact hpushed _ _ (a.addFact fact) (role_opener s toks) (by simp [Shape.role]) rfl

theorem roles_property (s : Source) (toks : Statement) : (a.property s toks).roles = a.roles := by
  rw [property]
  repeat' split
  all_goals simp

theorem roles_resourceLine (s : Source) (toks main guard : List Token) :
    (resourceLine s a toks main guard).roles = a.roles := by
  rw [resourceLine]
  split <;> simp

theorem roles_foldl {α : Type} (f : Assembly → α → Assembly) (hf : ∀ a x, (f a x).roles = a.roles)
    (xs : List α) : (xs.foldl f a).roles = a.roles := by
  induction xs generalizing a with
  | nil => rfl
  | cons x xs ih => rw [foldl_cons, ih, hf]

theorem roles_addInclude (s : Source) (line : Nat) (guard : List Token) (r : Reference) :
    (addInclude s line guard a r).roles = a.roles := by
  rw [addInclude, roles_addItems, roles_addFact]

theorem roles_plain (s : Source) (toks : Statement) : (a.plain s toks).roles = a.roles := by
  simp only [plain]
  split
  · exact roles_foldl a _ (fun b r => roles_addInclude b s _ _ r) _
  split
  · exact roles_foldl a _ (fun b r => roles_addFact b _) _
  split
  · exact roles_foldl a _ (fun b r => roles_addFact b _) _
  split
  · exact roles_addFact a _
  · exact roles_resourceLine a s _ _ _

/-- A statement that is neither an `end` nor a clause pushes as many blocks as it leaves open. -/
theorem roles_ordinary (s : Source) (toks : Statement) : ∃ pushed,
    (a.ordinary s toks).roles = pushed ++ a.roles ∧ pushed.length = (balance toks).toNat ∧
    .arm ∉ pushed := by
  rw [ordinary]
  split
  · rename_i count hbalance
    rw [hbalance]
    exact roles_openBlocks a s toks count
  · rename_i hclosed
    have hbalance : (balance toks).toNat = 0 := Int.toNat_of_nonpos (balance_nonpos hclosed)
    refine ⟨[], ?_, by simp [hbalance], by simp⟩
    cases a.setting with
    | inCapture => rfl
    | inResource => exact roles_property a s toks
    | normal => exact roles_plain a s toks

theorem head_roles_of_chain (h : a.chain ≠ .other) : a.roles.head? = some a.chain.role := by
  obtain ⟨frames, items, facts⟩ := a
  cases frames with
  | nil => exact absurd rfl h
  | cons frame rest =>
    obtain ⟨shape, inner⟩ := frame
    cases shape with
    | conditional heading arm =>
      cases arm with
      | true => rfl
      | false =>
        simp only [chain, Bool.false_eq_true, if_false, roles, map_cons, List.head?_cons, Shape.role]
        split <;> rfl
    | caseOf heading => rfl
    | _ => exact absurd rfl h

theorem arm_of_clauseKind {chain : Chain} {kind : BlockKind} {arm : Bool}
    (h : clauseKind? word chain = some (kind, arm)) :
    chain ≠ .other ∧ arm = (chain != .ifChain) := by
  cases chain <;> grind [clauseKind?, clauseKind?.armKind?]

/-- The head of a clause takes the place of the block before it, or is the first arm of a `case`. -/
theorem roles_clause {head : List Token} (h : a.clause? s word head = some b) :
    b.roles = a.roles ∨ a.roles.head? = some .caseOf ∧ b.roles = .arm :: a.roles := by
  obtain ⟨⟨kind, arm⟩, hkind, rfl⟩ := Option.map_eq_some_iff.mp h
  obtain ⟨hother, rfl⟩ := arm_of_clauseKind hkind
  have hhead := head_roles_of_chain a hother
  by_cases hcase : a.chain = .caseOf
  · right
    simp only [hcase, if_true, roles_push]
    exact ⟨by rw [hhead, hcase]; rfl, rfl⟩
  · left
    have hrole : (Shape.conditional (heading s kind head) (a.chain != .ifChain)).role = a.chain.role := by
      cases hchain : a.chain with
      | ifChain | arm => rfl
      | caseOf => exact absurd hchain hcase
      | other => exact absurd hchain hother
    obtain ⟨rest, hroles⟩ := List.head?_eq_some_iff.mp hhead
    simp only [hcase, if_false, roles_push, roles_pop, hrole, hroles, tail_cons]

end

def Seated : List Role → Prop
  | [] => True
  | role :: rest => (role = .arm → rest.head? = some .caseOf) ∧ Seated rest

theorem Seated.tail {roles : List Role} (h : Seated roles) : Seated roles.tail := by
  cases roles with
  | nil => trivial
  | cons role rest => exact h.2

theorem Seated.append {roles : List Role} (h : Seated roles) (pushed : List Role)
    (harm : .arm ∉ pushed) : Seated (pushed ++ roles) := by
  induction pushed with
  | nil => exact h
  | cons role pushed ih =>
    rw [mem_cons, not_or] at harm
    exact ⟨fun hrole => absurd hrole.symm harm.1, ih harm.2⟩

theorem Seated.clause {head : List Token} (h : Seated a.roles)
    (hclause : a.clause? s word head = some b) : Seated b.roles := by
  rcases roles_clause a hclause with hroles | ⟨hcase, hroles⟩
  · rwa [hroles]
  · rw [hroles]
    exact ⟨fun _ => hcase, h⟩

theorem Seated.statement (h : Seated a.roles) (toks : Statement) :
    Seated (a.statement s toks).roles := by
  fun_induction Assembly.statement s a toks with
  | case1 a => exact h
  | case2 a first rest word hend =>
    rw [roles_close]
    split
    · exact h.tail.tail
    · exact h.tail
  | case3 a first rest word hend hclause hsetting hnone => exact h
  | case4 a first rest word hend hclause hsetting next hnext ih => exact ih (h.clause hnext)
  | case5 a first rest word hend hclause hsetting
  | case6 a first rest word hend hclause hrescue => exact h
  | case7 a first rest word hend hclause hrescue =>
    obtain ⟨pushed, hroles, -, harm⟩ := roles_ordinary a s (first :: rest)
    rw [hroles]
    exact h.append pushed harm

/-- Reading a list of statements from `a`, the statement `toks` is taken in `b`. -/
inductive Meets (s : Source) : Assembly → List Statement → Assembly → Statement → Prop
  | here (a : Assembly) (toks : Statement) (list : List Statement) : Meets s a (toks :: list) a toks
  /-- What follows the head of a clause on its line is taken after that head. -/
  | behind {a next b : Assembly} {word : String} {taken toks : Statement} {list : List Statement}
    (hclause : isClause word = true) (hword : taken.head?.bind Token.ident? = some word)
    (hsetting : a.setting = .normal) (hnext : a.clause? s word (splitClause word taken).1 = some next)
    (h : Meets s next [(splitClause word taken).2] b toks) : Meets s a (taken :: list) b toks
  | later {a b : Assembly} {taken toks : Statement} {list : List Statement}
    (h : Meets s (a.statement s taken) list b toks) : Meets s a (taken :: list) b toks

theorem Meets.seated {list : List Statement} {toks : Statement} (hmeets : Meets s a list b toks)
    (h : Seated a.roles) : Seated b.roles := by
  induction hmeets with
  | here a toks list => exact h
  | behind hclause hword hsetting hnext _ ih => exact ih (h.clause hnext)
  | later _ ih => exact ih (h.statement _)

theorem depth_close (h : Seated a.roles) (stop : Nat) (guard : Option String) :
    (a.close s stop guard).depth = a.depth - 1 := by
  rw [depth_eq, depth_eq, roles_close]
  cases hroles : a.roles with
  | nil => rfl
  | cons role rest =>
    rw [hroles] at h
    by_cases harm : role = .arm
    · -- below an arm there is its `case`, and both close
      have hcase := h.1 harm
      cases rest with
      | nil => cases hcase
      | cons below rest =>
        obtain rfl : below = .caseOf := Option.some.inj hcase
        simp [harm]
    · simp [harm]

theorem depth_ordinary (s : Source) (a : Assembly) (toks : Statement) :
    (a.ordinary s toks).depth = a.depth + (balance toks).toNat := by
  obtain ⟨pushed, hroles, hlength, harm⟩ := roles_ordinary a s toks
  have hall : pushed.countP (fun role => role != .arm) = pushed.length := by
    rw [countP_eq_length]
    intro role hrole
    simpa using ne_of_mem_of_not_mem hrole harm
  rw [depth_eq, depth_eq, hroles, countP_append, hall, hlength, Nat.add_comm]

def continuations : List String := ["elsif", "else", "when", "in", "rescue", "ensure"]

/-- Whether the change of depth between two states is the balance of a statement. -/
def Tracks (toks : Statement) (a b : Assembly) : Prop :=
  (b.depth : Int) = max 0 (a.depth + balance toks)

/-- An `end` at the start of a statement closes one block, whatever follows it; any other statement
opens the blocks that it leaves open and closes none. So the depth follows the balance unless a
statement with a leading `end` has more to close or opens blocks again, or one without it has blocks
to close. -/
theorem depth_after_statement (s : Source) (list : List Statement) (a : Assembly) (first : Token)
    (rest : List Token) (hmeets : Meets s start list a (first :: rest))
    (hfirst : ∀ word ∈ continuations, first.ident? ≠ some word) :
    (a.statement s (first :: rest)).depth =
        (if first.ident? = some "end" then a.depth - 1 else a.depth + (balance (first :: rest)).toNat) ∧
      (Tracks (first :: rest) a (a.statement s (first :: rest)) ↔
        if first.ident? = some "end" then
          balance (first :: rest) = -1 ∨ a.depth ≤ 1 ∧ a.depth + balance (first :: rest) ≤ 0
        else 0 ≤ balance (first :: rest) ∨ a.depth = 0) := by
  have hseated : Seated a.roles := hmeets.seated trivial
  have hword : ∀ word : String, word ≠ "" →
      (first.ident?.getD "" = word ↔ first.ident? = some word) := by
    intro word hne
    cases first.ident? with
    | none => simp [hne.symm]
    | some found => simp
  simp only [continuations, forall_mem_cons, not_mem_nil, false_implies, implies_true,
    and_true] at hfirst
  obtain ⟨helsif, helse, hwhen, hin, hrescue, hensure⟩ := hfirst
  have hdepth : (a.statement s (first :: rest)).depth =
      if first.ident? = some "end" then a.depth - 1
      else a.depth + (balance (first :: rest)).toNat := by
    rw [statement]
    by_cases hend : first.ident? = some "end"
    · rw [if_pos ((hword "end" (by simp)).mpr hend), if_pos hend]
      exact depth_close hseated _ _
    · have hclause : isClause (first.ident?.getD "") = false := by
        simp [isClause, hword, helsif, helse, hwhen, hin]
      rw [if_neg (mt (hword "end" (by simp)).mp hend), if_neg hend]
      simp only [hclause, hword, hrescue, hensure, ne_eq, String.reduceEq, not_false_eq_true,
        or_self, if_false, Bool.false_eq_true]
      exact depth_ordinary s a (first :: rest)
  refine ⟨hdepth, ?_⟩
  rw [Tracks, hdepth]
  split <;> omega

def wordAt (line start : Nat) (text : String) : Token :=
  ⟨.ident text, line, start, start + text.length⟩

/-- A `case` inside an `if`, and two `end`s in one statement. -/
def nestedCase : Source := ⟨"if x\ncase y\nwhen z then w\nend end\n".toList, ⟨"default.rb"⟩, 80⟩

def nestedCaseLines : List Statement :=
  [[wordAt 1 0 "if", wordAt 1 3 "x"], [wordAt 2 5 "case", wordAt 2 10 "y"],
    [wordAt 3 12 "when", wordAt 3 17 "z", wordAt 3 19 "then", wordAt 3 24 "w"],
    [wordAt 4 26 "end", wordAt 4 30 "end"]]

theorem nestedCase_depth :
    (Token.scan? nestedCase.chars).map statements = some nestedCaseLines ∧
      (start.run nestedCase (nestedCaseLines.take 3)).depth = 2 ∧
      (start.run nestedCase nestedCaseLines).depth = 1 ∧
      ¬Tracks [wordAt 4 26 "end", wordAt 4 30 "end"] (start.run nestedCase (nestedCaseLines.take 3))
        (start.run nestedCase nestedCaseLines) := by
  have hbefore : (start.run nestedCase (nestedCaseLines.take 3)).depth = 2 := by decide +kernel
  have hmeets : Meets nestedCase start nestedCaseLines (start.run nestedCase (nestedCaseLines.take 3))
      [wordAt 4 26 "end", wordAt 4 30 "end"] := .later (.later (.later (.here _ _ _)))
  obtain ⟨hdepth, htracks⟩ := depth_after_statement nestedCase nestedCaseLines _ _ _ hmeets
    (by decide)
  have hend : (wordAt 4 26 "end").ident? = some "end" := rfl
  rw [if_pos hend, hbefore] at hdepth htracks
  exact ⟨by decide +kernel, hbefore, hdepth, fun h => absurd (htracks.mp h) (by decide +kernel)⟩

/-- An `end` behind other tokens is in the balance of its statement, but closes nothing. -/
def trailingEnd : Source := ⟨"if a\n  b end\n".toList, ⟨"default.rb"⟩, 80⟩

theorem trailingEnd_untracked : ¬∀ (s : Source) (tokens : List Token) (a : Assembly) (first : Token)
    (rest : List Token), Token.scan? s.chars = some tokens →
    Meets s start (statements tokens) a (first :: rest) →
    (∀ word ∈ continuations, first.ident? ≠ some word) →
    Tracks (first :: rest) a (a.statement s (first :: rest)) := by
  intro h
  let newline (line start : Nat) : Token := ⟨.newline, line, start, start + 1⟩
  let opening : Statement := [wordAt 1 0 "if", wordAt 1 3 "a"]
  let tokens : List Token :=
    opening ++ [newline 1 4, wordAt 2 7 "b", wordAt 2 9 "end", newline 2 12]
  have hscan : Token.scan? trailingEnd.chars = some tokens := by decide +kernel
  have hlines : statements tokens = [opening, [wordAt 2 7 "b", wordAt 2 9 "end"]] := by
    decide +kernel
  have hmeets : Meets trailingEnd start (statements tokens) (start.statement trailingEnd opening)
      [wordAt 2 7 "b", wordAt 2 9 "end"] := hlines ▸ .later (.here _ _ _)
  have htracks := h trailingEnd tokens _ _ _ hscan hmeets (by decide)
  rw [Tracks] at htracks
  exact absurd htracks (by decide +kernel)

end Assembly
end CookbookAtlas.Recipe
