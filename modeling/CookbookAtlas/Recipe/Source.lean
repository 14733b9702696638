import CookbookAtlas.Path.Basic
import CookbookAtlas.Token.Basic

/-! A source text with the file it came from, and the texts of its tokens. -/
namespace CookbookAtlas.Recipe

open Text

structure Source where
  chars : List Char
  file : Path
  displayLimit : Nat

namespace Source

def between (s : Source) (start stop : Nat) : String :=
  String.ofList (trim (slice s.chars start stop))

def text (s : Source) (toks : List Token) : String :=
  match toks.head?, toks.getLast? with
  | some first, some last => s.between first.start last.stop
  | _, _ => ""

def line (s : Source) (toks : List Token) : String := collapsed (s.text toks)

end Source

def display (limit : Nat) (raw : String) : String :=
  let shown := collapse raw.toList
  if shown.length ≤ limit then String.ofList shown
  else String.ofList (shown.take limit ++ ['.', '.', '.'])

end CookbookAtlas.Recipe
