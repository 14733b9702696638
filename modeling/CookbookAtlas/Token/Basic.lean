/-! Tokens of the recipe language. A token carries the line of its first character and its
span in UTF-8 bytes. -/
namespace CookbookAtlas
namespace Token

inductive Kind
  /-- Identifier or keyword; may end in `?` or `!` and start with `@` or `$`. -/
  | ident (name : String)
  | constant (name : String)
  | symbol (name : String)
  | label (name : String)
  /-- String literal; interpolations stand in it as written. -/
  | string (value : String) (interpolated : Bool)
  | words (items : List String)
  | regex (body : String)
  | number (text : String)
  | leftParen
  | rightParen
  | leftBracket
  | rightBracket
  | leftBrace
  | rightBrace
  | comma
  | dot
  | safeNavigation
  | doubleColon
  | pipe
  | semicolon
  | newline
  | fatArrow
  | assign
  | opAssign (op : String)
  | op (op : String)
deriving DecidableEq

end Token

structure Token where
  kind : Token.Kind
  line : Nat
  start : Nat
  stop : Nat
deriving DecidableEq

namespace Token

def Kind.ident? : Kind → Option String
  | .ident name => some name
  | _ => none

def ident? (t : Token) : Option String := t.kind.ident?

def isWord (t : Token) (word : String) : Bool := t.kind == .ident word

def isNewline (t : Token) : Bool := t.kind == .newline

def Kind.isOpening : Kind → Bool
  | .leftParen | .leftBracket | .leftBrace => true
  | _ => false

def Kind.isClosing : Kind → Bool
  | .rightParen | .rightBracket | .rightBrace => true
  | _ => false

/-- Bracket depth after a token of the given kind; a surplus closing bracket counts for nothing. -/
def Kind.depthAfter (k : Kind) (depth : Nat) : Nat :=
  if k.isOpening then depth + 1 else if k.isClosing then depth - 1 else depth

/-- `.`, `&.` or `::`: what follows is a member of what stands before. -/
def Kind.isAccess : Kind → Bool
  | .dot | .safeNavigation | .doubleColon => true
  | _ => false

def Kind.isAssignment : Kind → Bool
  | .assign | .opAssign _ => true
  | _ => false

def valueWords : List String :=
  ["if", "unless", "when", "and", "or", "not", "return", "while", "until"]

def Kind.awaitsValue : Kind → Bool
  | .newline | .semicolon | .leftParen | .leftBracket | .leftBrace | .comma | .fatArrow
  | .assign | .opAssign _ | .op _ | .pipe | .label _ => true
  | .ident word => valueWords.contains word
  | _ => false

/-- Whether a value is expected after the last token, or at the start. -/
def expectsValue (last : Option Kind) : Bool := last.all Kind.awaitsValue

end Token
end CookbookAtlas
