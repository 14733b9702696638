/-! Tokens of a YAML stream, and the place that reading has come to. -/
namespace CookbookAtlas.Yaml

inductive Token
  | streamEnd
  /-- `%YAML`, with the two parts of the version. -/
  | versionDirective (major minor : List Char)
  | tagDirective (handle lead : List Char)
  | documentStart
  | documentEnd
  | blockSequenceStart
  | blockMappingStart
  | blockEnd
  | flowSequenceStart
  | flowSequenceEnd
  | flowMappingStart
  | flowMappingEnd
  | blockEntry
  | flowEntry
  | key
  | value
  | alias (name : List Char)
  | anchor (name : List Char)
  | tag (handle suffix : List Char)
  | scalar (text : List Char) (plain : Bool)
deriving DecidableEq

def isBreak (c : Char) : Bool :=
  c == '\n' || c == '\r' || c.toNat == 0x85 || c.toNat == 0x2028 || c.toNat == 0x2029

def isBlank (c : Char) : Bool := c == ' ' || c == '\t'

structure Cursor where
  rest : List Char
  index : Nat
  line : Nat
  column : Nat
deriving DecidableEq

namespace Cursor

def start (cs : List Char) : Cursor := ⟨cs, 0, 0, 0⟩

def advance (c : Cursor) (n : Nat) : Cursor := ⟨c.rest.drop n, c.index + n, c.line, c.column + n⟩

def skip (c : Cursor) : Cursor := c.advance 1

def breakText : List Char → List Char × Nat
  | '\r' :: '\n' :: _ => (['\n'], 2)
  | c :: _ => if c.toNat == 0x2028 || c.toNat == 0x2029 then ([c], 1) else (['\n'], 1)
  | [] => ([], 0)

def skipLine (c : Cursor) : Cursor :=
  match c.rest with
  | d :: _ =>
    if isBreak d then
      let width := (breakText c.rest).2
      ⟨c.rest.drop width, c.index + width, c.line + 1, 0⟩
    else c
  | [] => c

def lineText (c : Cursor) : List Char :=
  if c.rest.head?.any isBreak then (breakText c.rest).1 else []

def atEnd (c : Cursor) : Bool := c.rest.isEmpty
def atBreak (c : Cursor) : Bool := c.rest.head?.any isBreak
def atBlank (c : Cursor) : Bool := c.rest.head?.any isBlank
def sees (c : Cursor) (d : Char) : Bool := c.rest.head? == some d

/-- Whether the character `n` places on is a blank, a break or the end. -/
def gapAt (c : Cursor) (n : Nat) : Bool :=
  match c.rest.drop n with
  | d :: _ => isBlank d || isBreak d
  | [] => true

def atMarker (c : Cursor) (mark : Char) : Bool :=
  c.column == 0 && c.rest.take 3 == [mark, mark, mark] && c.gapAt 3

def atAnyMarker (c : Cursor) : Bool := c.atMarker '-' || c.atMarker '.'

def toLineEnd (c : Cursor) : Cursor := c.advance (c.rest.takeWhile fun d => !isBreak d).length

def skipBlanks (c : Cursor) : Cursor := c.advance (c.rest.takeWhile isBlank).length

end Cursor
end CookbookAtlas.Yaml
