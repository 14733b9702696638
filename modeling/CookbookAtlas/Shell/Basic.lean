import CookbookAtlas.Text.Basic

/-! Shell scripts as data: words made of pieces, and commands made of words. -/
namespace CookbookAtlas.Shell

/-- A piece of a word. What a quoted piece stands for is neither split nor matched with files. -/
inductive Piece
  | text (quoted : Bool) (text : List Char)
  /-- The value of a parameter; for `${x:-y}` the text is `x:-y`. -/
  | parameter (quoted : Bool) (text : List Char)
  | output (quoted : Bool) (script : List Char)
  | number (quoted : Bool) (expression : List Char)
deriving DecidableEq

abbrev Word := List Piece

def plain? : Word → Option (List Char)
  | [] => some []
  | .text false cs :: rest => (plain? rest).map (cs ++ ·)
  | _ => none

def unquoted : Word → List Char
  | [] => []
  | .text _ cs :: rest => cs ++ unquoted rest
  | .parameter _ cs :: rest => '$' :: cs ++ unquoted rest
  | _ :: rest => unquoted rest

def Piece.isQuoted : Piece → Bool
  | .text quoted _ | .parameter quoted _ | .output quoted _ | .number quoted _ => quoted

inductive Direction
  | read
  | write
  | append
  | duplicate
  | here
deriving DecidableEq

structure Redirect where
  descriptor : Nat
  direction : Direction
  target : Word
deriving DecidableEq

inductive Command
  | simple (line : Nat) (assignments : List (String × Word)) (words : List Word)
  | redirected (line : Nat) (command : Command) (redirects : List Redirect)
  | pipe (parts : List Command)
  | negated (command : Command)
  | both (first second : Command)
  | either (first second : Command)
  | group (body : List Command)
  /-- A group whose changes to the shell are forgotten. -/
  | subshell (body : List Command)
  | choice (condition body otherwise : List Command)
  | loop (wanted : Bool) (condition body : List Command)
  | each (name : String) (words : List Word) (body : List Command)
  | select (word : Word) (arms : List (List Word × List Command))
  | define (name : String) (body : Command)

end CookbookAtlas.Shell
