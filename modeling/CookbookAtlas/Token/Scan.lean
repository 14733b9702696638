import CookbookAtlas.Token.Lexeme

/-! Cutting a source text into tokens. Comments and skipped blocks leave no token, and the
body of a heredoc becomes the value of the string token that opened it. -/
namespace CookbookAtlas.Token

/-- A position in a source text: bytes passed, current line, and whether a line starts here. -/
structure Place where
  offset : Nat
  line : Nat
  fresh : Bool

namespace Place

def start : Place := ⟨0, 1, true⟩

def next (p : Place) (c : Char) : Place :=
  ⟨p.offset + c.utf8Size, if c = '\n' then p.line + 1 else p.line, c == '\n'⟩

def past (p : Place) (cs : List Char) : Place := cs.foldl next p

end Place

/-- State between two lexemes; tokens are kept last one first. -/
structure Scan where
  place : Place
  tokens : List Token
  pending : List Heredoc

namespace Scan

def start : Scan := ⟨Place.start, [], []⟩

def last (s : Scan) : Option Kind := s.tokens.head?.map Token.kind

def take (s : Scan) (lexeme : Lexeme) (text : List Char) : Scan :=
  let place := s.place.past text
  let tokens := match lexeme.kind with
    | some kind => ⟨kind, s.place.line, s.place.offset, place.offset⟩ :: s.tokens
    | none => s.tokens
  ⟨place, tokens, s.pending ++ lexeme.heredoc.toList⟩

def fill (tokens : List Token) (start : Nat) (kind : Kind) : List Token :=
  tokens.map fun t => if t.start = start then { t with kind := kind } else t

/-- Reads the bodies of the pending heredocs in the order of their openers; gives the tokens
and the number of characters read. -/
def readBodies? (tokens : List Token) : List Heredoc → List Char → Option (List Token × Nat)
  | [], _ => some (tokens, 0)
  | h :: rest, cs =>
    match h.readContent? cs with
    | none => none
    | some content =>
      let filled := fill tokens h.start (.string (String.ofList content.value) content.interpolated)
      match readBodies? filled rest (cs.drop content.width) with
      | none => none
      | some (tokens, width) => some (tokens, content.width + width)

end Scan

/-- Scans the rest of a text; nothing comes out if a heredoc's indent cannot be removed. -/
def scanFrom (s : Scan) : List Char → Option (List Token)
  | [] => some s.tokens.reverse
  | c :: cs =>
    let lexeme := readLexeme s.last s.place.fresh s.place.offset c cs
    let t := s.take lexeme (c :: cs.take lexeme.width)
    let rest := cs.drop lexeme.width
    if lexeme.kind = some .newline ∧ !t.pending.isEmpty then
      match Scan.readBodies? t.tokens t.pending rest with
      | none => none
      | some (tokens, width) =>
        scanFrom ⟨t.place.past (rest.take width), tokens, []⟩ (rest.drop width)
    else scanFrom t rest
termination_by cs => cs.length
decreasing_by all_goals simp only [List.length_drop, List.length_cons]; omega

def scan? (source : List Char) : Option (List Token) := scanFrom Scan.start source

end CookbookAtlas.Token
