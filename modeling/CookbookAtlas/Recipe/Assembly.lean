import CookbookAtlas.Recipe.Call

/-! Assembling the execution order. Statements are taken one after the other on a stack of open
blocks: an opener pushes a block, `end` closes the innermost one into the block around it. -/
namespace CookbookAtlas.Recipe

inductive Shape
  | resource (call : Resource) (start : Nat)
  /-- A control-flow block; an arm of a `case` closes together with it. -/
  | conditional (heading : Heading) (arm : Bool)
  | caseOf (heading : Heading)
  /-- A block whose items belong to the block around it. -/
  | transparent
  | definition
  /-- Control flow inside a resource; properties still apply. -/
  | scope
  /-- A block inside a resource, kept as the text of a property. -/
  | captured (key : Option String) (start : Nat)

structure Frame where
  shape : Shape
  items : List Item

/-- Blocks open innermost first, items of the file itself, and facts in order of discovery. -/
structure Assembly where
  frames : List Frame
  items : List Item
  facts : List Fact

inductive Setting
  | normal
  | inResource
  | inCapture
deriving DecidableEq

namespace Assembly

def start : Assembly := ⟨[], [], []⟩

def settingOf : List Frame → Setting
  | [] => .normal
  | frame :: rest =>
    match frame.shape with
    | .captured _ _ => .inCapture
    | .resource _ _ => .inResource
    | .scope => settingOf rest
    | _ => .normal

def setting (a : Assembly) : Setting := settingOf a.frames

def push (a : Assembly) (shape : Shape) : Assembly := { a with frames := ⟨shape, []⟩ :: a.frames }

def addFact (a : Assembly) (fact : Fact) : Assembly := { a with facts := a.facts ++ [fact] }

def addItems (a : Assembly) (items : List Item) : Assembly :=
  match a.frames with
  | [] => { a with items := a.items ++ items }
  | frame :: rest => { a with frames := { frame with items := frame.items ++ items } :: rest }

@[simp] theorem addItems_nil (a : Assembly) : a.addItems [] = a := by
  obtain ⟨frames, items, facts⟩ := a
  cases frames <;> simp [addItems]

@[simp] theorem addItems_addItems (a : Assembly) (xs ys : List Item) :
    (a.addItems xs).addItems ys = a.addItems (xs ++ ys) := by
  obtain ⟨frames, items, facts⟩ := a
  cases frames <;> simp [addItems]

@[simp] theorem addItems_setFacts (a : Assembly) (facts : List Fact) (xs : List Item) :
    ({ a with facts := facts } : Assembly).addItems xs = { a.addItems xs with facts := facts } := by
  obtain ⟨frames, items, old⟩ := a
  cases frames <;> rfl

@[simp] theorem setting_addItems (a : Assembly) (xs : List Item) :
    (a.addItems xs).setting = a.setting := by
  obtain ⟨frames, items, facts⟩ := a
  cases frames <;> rfl

def addResource (a : Assembly) (r : Resource) : Assembly :=
  (a.addFact (.resource r)).addItems [.resource r]

def amendResource (key value : String) : List Frame → List Frame
  | [] => []
  | frame :: rest =>
    match frame.shape with
    | .resource call start =>
      { frame with shape := .resource (call.addProperty key value) start } :: rest
    | _ => frame :: amendResource key value rest

def addProperty (a : Assembly) (key value : String) : Assembly :=
  { a with frames := amendResource key value a.frames }

/-- The innermost block, already taken off the stack, goes into the block around it. -/
def absorb (s : Source) (a : Assembly) (frame : Frame) (stop : Nat) (guard : Option String) :
    Assembly :=
  match frame.shape with
  | .resource call start =>
    let call := { call with raw := String.ofList (Text.slice s.chars start stop) }
    a.addResource (match guard with
      | some text => call.addProperty "guard" text
      | none => call)
  | .conditional heading _ | .caseOf heading => a.addItems [.block heading frame.items]
  | .transparent => a.addItems frame.items
  | .captured (some key) start =>
    if isKnownProperty key then a.addProperty key (s.between start stop) else a
  | _ => a

def pop (s : Source) (a : Assembly) (stop : Nat) (guard : Option String) : Assembly :=
  match a.frames with
  | [] => a
  | frame :: rest => absorb s { a with frames := rest } frame stop guard

def isArm : Frame → Bool
  | ⟨.conditional _ arm, _⟩ => arm
  | _ => false

/-- Takes an `end`: the innermost block closes, and with an arm its `case`. -/
def close (s : Source) (a : Assembly) (stop : Nat) (guard : Option String) : Assembly :=
  let closed := a.pop s stop guard
  if a.frames.head?.any isArm then closed.pop s stop none else closed

def dropTail : List Token → List Token
  | [] => []
  | t :: rest =>
    let kept := (rest.reverse.dropWhile fun t => t.isWord "then" || t.isWord "do").reverse
    t :: kept

def heading (s : Source) (kind : BlockKind) (toks : List Token) : Heading :=
  ⟨kind, s.line (dropTail toks), (toks.head?.map Token.line).getD 0, []⟩

/-- The block that an opener outside resources pushes, and the fact it yields. -/
def opener (s : Source) (toks : Statement) : Shape × Option Fact :=
  let word := (toks.head?.bind Token.ident?).getD ""
  if word = "if" then (.conditional (heading s .ifBlock toks) false, none)
  else if word = "unless" then (.conditional (heading s .unlessBlock toks) false, none)
  else if word = "while" then (.conditional (heading s .whileLoop toks) false, none)
  else if word = "until" then (.conditional (heading s .untilLoop toks) false, none)
  else if word = "for" then (.conditional (heading s .forLoop toks) false, none)
  else if word = "case" then (.caseOf (heading s .caseBlock toks), none)
  else if word = "begin" then (.transparent, none)
  else if word = "def" ∨ word = "class" ∨ word = "module" then (.definition, none)
  else match assignment? s toks with
    | some a => (.transparent, some (.assignment a))
    | none =>
      match blockDo? toks with
      | none => (.transparent, none)
      | some (head, parameters) =>
        match resourceCall? s head true with
        | some call => (.resource call ((toks.head?.map Token.start).getD 0), none)
        | none =>
          match eachCall? head with
          | some each =>
            let condition := s.text each.receiver ++ "." ++ each.method
            (.conditional ⟨.eachLoop, condition, (toks.head?.map Token.line).getD 0, parameters⟩ false, none)
          | none => (.transparent, none)

def innerOpener (toks : Statement) : Shape :=
  match toks with
  | [] => .scope
  | first :: rest =>
    if !first.ident?.any isKeyword && (blockDo? toks).isSome then
      .captured first.ident? ((rest.head?.map Token.start).getD first.start)
    else .scope

/-- Takes a statement that leaves `count + 1` blocks open. -/
def openBlocks (s : Source) (a : Assembly) (toks : Statement) (count : Nat) : Assembly :=
  let start := (toks.head?.map Token.start).getD 0
  let (primary, filler, fact) := match a.setting with
    | .inCapture => (Shape.captured none start, Shape.captured none start, none)
    | .inResource => (innerOpener toks, Shape.captured none start, none)
    | .normal =>
      let (shape, fact) := opener s toks
      (shape, Shape.transparent, fact)
  let noted := match fact with
    | some fact => a.addFact fact
    | none => a
  (List.replicate count filler).foldl push (noted.push primary)

def property (s : Source) (a : Assembly) (toks : Statement) : Assembly :=
  match (splitModifier 0 none toks).1 with
  | [] => a
  | first :: rest =>
    match first.ident? with
    | none => a
    | some key =>
      if (rest.head?.map Token.kind).any Token.Kind.isAssignment
        then a.addProperty key (s.text (rest.drop 1))
      else if isKnownProperty key then a.addProperty key (s.text (stripParens rest))
      else a

def splitFirstDo (prev : Option Token.Kind) : List Token → Option (List Token × List Token)
  | [] => none
  | t :: rest =>
    if t.isWord "do" ∧ !isMember prev then some ([], rest)
    else (splitFirstDo (some t.kind) rest).map fun p => (t :: p.1, p.2)

def inlineProperty (s : Source) (r : Resource) (after : List Token) : Resource :=
  match after.getLast?, after.dropLast with
  | some last, key :: value =>
    match key.ident? with
    | some word =>
      if last.isWord "end" && isKnownProperty word
        then r.addProperty word (s.text (stripParens value)) else r
    | none => r
  | _, _ => r

def guarded (s : Source) (line : Nat) (guard : List Token) (item : Item) : Item :=
  match guard.head?.bind Token.ident? with
  | some word =>
    if word = "if" then .block ⟨.ifBlock, s.line guard, line, []⟩ [item]
    else if word = "unless" then .block ⟨.unlessBlock, s.line guard, line, []⟩ [item]
    else item
  | none => item

def addInclude (s : Source) (line : Nat) (guard : List Token) (a : Assembly) (r : Reference) :
    Assembly :=
  (a.addFact (.reference r)).addItems [guarded s line guard (.inclusion r)]

def resourceLine (s : Source) (a : Assembly) (toks main guard : List Token) : Assembly :=
  let inline := splitFirstDo none main
  let head := (inline.map Prod.fst).getD main
  match resourceCall? s head inline.isSome with
  | none => a
  | some call =>
    let call := match inline with
      | some (_, after) => inlineProperty s call after
      | none => call
    let call := { call with raw := s.text toks }
    a.addResource (if guard.isEmpty then call else call.addProperty "guard" (s.line guard))

def plain (s : Source) (a : Assembly) (toks : Statement) : Assembly :=
  let (main, guard) := splitModifier 0 none toks
  let word := (main.head?.bind Token.ident?).getD ""
  let line := (main.head?.map Token.line).getD 0
  if word = "include_recipe" then (references s .includeRecipe main).foldl (addInclude s line guard) a
  else if word = "require" then
    (references s .require main).foldl (fun a r => a.addFact (.reference r)) a
  else if word = "require_relative" then
    (references s .requireRelative main).foldl (fun a r => a.addFact (.reference r)) a
  else match assignment? s main with
    | some assignment => a.addFact (.assignment assignment)
    | none => resourceLine s a toks main guard

inductive Chain
  | ifChain
  | arm
  | caseOf
  | other
deriving DecidableEq

def chain (a : Assembly) : Chain :=
  match a.frames with
  | [] => .other
  | frame :: _ =>
    match frame.shape with
    | .conditional heading arm =>
      if arm then .arm
      else if heading.kind = .ifBlock ∨ heading.kind = .unlessBlock ∨ heading.kind = .elsifBlock
        then .ifChain
      else .other
    | .caseOf _ => .caseOf
    | _ => .other

/-- Block kind of a clause and whether it is an arm, if the clause continues the chain. -/
def clauseKind? (word : String) (chain : Chain) : Option (BlockKind × Bool) :=
  match chain with
  | .ifChain =>
    if word = "elsif" then some (.elsifBlock, false)
    else if word = "else" then some (.elseBlock, false)
    else none
  | .arm | .caseOf => armKind? word
  | .other => none
where
  armKind? (word : String) : Option (BlockKind × Bool) :=
    if word = "else" then some (.elseBlock, true)
    else if word = "when" ∨ word = "in" then some (.whenArm, true)
    else none

def splitClause (word : String) (toks : Statement) : List Token × List Token :=
  if word = "else" then (toks.take 1, toks.drop 1)
  else
    let head := toks.takeWhile fun t => !t.isWord "then"
    (head, toks.drop (head.length + 1))

/-- Takes the head of a clause; nothing if it continues no chain. -/
def clause? (s : Source) (a : Assembly) (word : String) (head : List Token) : Option Assembly :=
  (clauseKind? word a.chain).map fun (kind, arm) =>
    let stop := (head.head?.map Token.start).getD 0
    let closed := if a.chain = .caseOf then a else a.pop s stop none
    closed.push (.conditional (heading s kind head) arm)

def isClause (word : String) : Bool :=
  word == "elsif" || word == "else" || word == "when" || word == "in"

def endGuard? (s : Source) (rest : List Token) : Option String :=
  match rest with
  | t :: _ => if t.isWord "if" || t.isWord "unless" then some (s.line rest) else none
  | [] => none

def ordinary (s : Source) (a : Assembly) (toks : Statement) : Assembly :=
  match balance toks with
  | .ofNat (count + 1) => a.openBlocks s toks count
  | _ =>
    match a.setting with
    | .inCapture => a
    | .inResource => a.property s toks
    | .normal => a.plain s toks

/-- Takes one statement. What follows a clause on its line is a statement of its own. -/
def statement (s : Source) (a : Assembly) (toks : Statement) : Assembly :=
  match toks with
  | [] => a
  | first :: rest =>
    let word := first.ident?.getD ""
    if word = "end" then a.close s first.stop (endGuard? s rest)
    else if isClause word then
      if a.setting = .normal then
        match a.clause? s word (splitClause word (first :: rest)).1 with
        | none => a
        | some next => statement s next (splitClause word (first :: rest)).2
      else a
    else if word = "rescue" ∨ word = "ensure" then a
    else a.ordinary s (first :: rest)
termination_by toks.length
decreasing_by
  simp only [splitClause]
  split
  · simp
  · simp only [List.length_drop, List.length_cons]; omega

def run (s : Source) (a : Assembly) (statements : List Statement) : Assembly :=
  statements.foldl (statement s) a

def closeAll (s : Source) (stop : Nat) : Nat → Assembly → Assembly
  | 0, a => a
  | n + 1, a => closeAll s stop n (a.pop s stop none)

def finish (s : Source) (a : Assembly) : Assembly :=
  closeAll s (Text.byteLength s.chars) a.frames.length a

end Assembly
end CookbookAtlas.Recipe
