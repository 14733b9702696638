import CookbookAtlas.Recipe.Statement

/-! Questions about one statement: how many blocks it leaves open, where its block parameters,
modifiers and arguments are. -/
namespace CookbookAtlas.Recipe

def keywords : List String :=
  ["and", "begin", "break", "case", "class", "def", "do", "else", "elsif", "end", "ensure",
    "false", "for", "if", "in", "module", "next", "nil", "not", "or", "redo", "rescue", "retry",
    "return", "self", "super", "then", "true", "undef", "unless", "until", "when", "while",
    "yield"]

def isKeyword (word : String) : Bool := keywords.contains word

/-- Whether a word at this place, after a token of kind `prev`, is a member name. -/
def isMember (prev : Option Token.Kind) : Bool := prev.any Token.Kind.isAccess

/-- Whether a keyword at this place opens a block and is no modifier. -/
def opensHere : Option Token.Kind → Bool
  | none | some .assign | some (.opAssign _) | some .leftParen | some .leftBracket | some .comma
  | some .fatArrow => true
  | _ => false

/-- Whether the tokens after `def` give the body behind an `=`. A mark that touches the name
before it belongs to the name. -/
def endlessFrom (prev : Token) (depth : Nat) : List Token → Bool
  | [] => false
  | t :: rest =>
    if t.kind = .assign ∧ depth = 0 then decide (prev.stop < t.start)
    else
      let depth := if t.kind = .leftParen then depth + 1 else if t.kind = .rightParen then depth - 1
        else depth
      endlessFrom t depth rest

def isEndless : Statement → Bool
  | [] => false
  | t :: rest => endlessFrom t 0 rest

def openers : List String := ["if", "unless", "while", "until", "case", "begin"]

def isLoopHead (word : String) : Bool := word == "while" || word == "until" || word == "for"

/-- Sum over the rest of a statement; `skipDo` says that the next `do` belongs to a loop head. -/
def balanceFrom (endless skipDo : Bool) (prev : Option Token.Kind) : List Token → Int
  | [] => 0
  | t :: rest =>
    let step (change : Int) (skip : Bool) : Int :=
      change + balanceFrom endless skip (some t.kind) rest
    match if isMember prev then none else t.ident? with
    | none => step 0 skipDo
    | some word =>
      if word = "end" then step (-1) skipDo
      else if word = "do" then (if skipDo then step 0 false else step 1 false)
      else if openers.contains word && opensHere prev then step 1 skipDo
      else if prev.isNone && (word == "for" || word == "class" || word == "module") then step 1 skipDo
      else if prev.isNone && word == "def" && !endless then step 1 skipDo
      else step 0 skipDo

def balance (toks : Statement) : Int :=
  let skipDo := (toks.head?.bind Token.ident?).any isLoopHead
  balanceFrom (isEndless toks) skipDo none toks

theorem balance_pos {toks : Statement} {count : Nat} (h : balance toks = .ofNat (count + 1)) :
    0 < balance toks := by
  rw [h]
  exact Int.natCast_pos.mpr (Nat.succ_pos count)

theorem balance_nonpos {toks : Statement} (h : ∀ count : Nat, balance toks ≠ .ofNat (count + 1)) :
    balance toks ≤ 0 := by
  have hcount := h ((balance toks).toNat - 1)
  rw [Int.ofNat_eq_natCast] at hcount
  omega

/-- The tokens before and after the last `do` outside brackets. -/
def splitDo (depth : Nat) (prev : Option Token.Kind) : List Token → Option (List Token × List Token)
  | [] => none
  | t :: rest =>
    match splitDo (t.kind.depthAfter depth) (some t.kind) rest with
    | some (before, after) => some (t :: before, after)
    | none => if depth = 0 ∧ t.isWord "do" ∧ !isMember prev then some ([], rest) else none

def blockParameters? (toks : List Token) : Option (List String) :=
  match toks with
  | [] => some []
  | first :: rest =>
    match rest.getLast? with
    | some last =>
      if first.kind = .pipe ∧ last.kind = .pipe then some (rest.dropLast.filterMap Token.ident?) else none
    | none => none

def blockDo? (toks : Statement) : Option (List Token × List String) :=
  match splitDo 0 none toks with
  | some (head, after) => (blockParameters? after).map (head, ·)
  | none => none

def modifiers : List String := ["if", "unless", "while", "until", "rescue"]

def isModifier (prev : Option Token.Kind) (t : Token) : Bool :=
  prev.isSome && !opensHere prev && !isMember prev && t.ident?.any modifiers.contains

/-- The tokens before the first modifier outside brackets, and those from it on. -/
def splitModifier (depth : Nat) (prev : Option Token.Kind) : List Token → List Token × List Token
  | [] => ([], [])
  | t :: rest =>
    if depth = 0 ∧ isModifier prev t then ([], t :: rest)
    else
      let (main, guard) := splitModifier (t.kind.depthAfter depth) (some t.kind) rest
      (t :: main, guard)

/-- Pieces between commas outside brackets; `current` holds an open piece, last token first. -/
def argumentsFrom (depth : Nat) (current : List Token) : List Token → List (List Token)
  | [] => if current.isEmpty then [] else [current.reverse]
  | t :: rest =>
    if depth = 0 ∧ t.kind = .comma then
      if current.isEmpty then argumentsFrom 0 [] rest
      else current.reverse :: argumentsFrom 0 [] rest
    else argumentsFrom (t.kind.depthAfter depth) (t :: current) rest

def arguments (toks : List Token) : List (List Token) := argumentsFrom 0 [] toks

def inParens (toks : List Token) : Bool :=
  match toks with
  | first :: rest => first.kind == .leftParen && (rest.getLast?.map Token.kind) == some .rightParen
  | [] => false

def stripParens (toks : List Token) : List Token :=
  if inParens toks then (toks.drop 1).dropLast else toks

/-- The last `.each…` call outside brackets: tokens before its point, method, tokens after. -/
def splitEach (depth : Nat) : List Token → Option (List Token × String × List Token)
  | [] => none
  | t :: rest =>
    match splitEach (t.kind.depthAfter depth) rest with
    | some (before, method, after) => some (t :: before, method, after)
    | none =>
      if depth = 0 ∧ (t.kind = .dot ∨ t.kind = .safeNavigation) then
        match rest with
        | m :: after =>
          match m.ident? with
          | some method => if "each".toList.isPrefixOf method.toList then some ([], method, after) else none
          | none => none
        | [] => none
      else none

def afterAssignment (toks : List Token) : List Token :=
  (toks.reverse.takeWhile fun t => !t.kind.isAssignment).reverse

structure EachCall where
  receiver : List Token
  method : String

def eachCall? (head : List Token) : Option EachCall :=
  match splitEach 0 head with
  | some (before, method, after) =>
    let receiver := afterAssignment before
    if (after.isEmpty || inParens after) && !receiver.isEmpty then some ⟨receiver, method⟩ else none
  | none => none

end CookbookAtlas.Recipe
