import CookbookAtlas.Text.Basic

/-! Heredocs: string literals whose body stands on the lines after the one that opens them. -/
namespace CookbookAtlas.Token

open Text

structure Heredoc where
  /-- Offset of the string token that the body belongs to. -/
  start : Nat
  terminator : List Char
  /-- The common indent of the body is removed. -/
  squiggly : Bool
  /-- The terminator may be indented. -/
  dash : Bool
  raw : Bool

namespace Heredoc

def isTerminator (h : Heredoc) (line : List Char) : Bool :=
  if h.squiggly || h.dash then trim line == h.terminator else trimRight line == h.terminator

/-- Body lines, last one first, and the number of characters up to the end of the terminator
line; `line` holds the characters of an open line, last one first. -/
def readLines (h : Heredoc) (line : List Char) (done : List (List Char)) (width : Nat) :
    List Char → List (List Char) × Nat
  | [] =>
    if line.isEmpty || h.isTerminator line.reverse then (done, width)
    else (line.reverse :: done, width)
  | c :: cs =>
    if c = '\n' then
      if h.isTerminator line.reverse then (done, width + 1)
      else h.readLines [] (line.reverse :: done) (width + 1) cs
    else h.readLines (c :: line) done (width + 1) cs

def indentOf (line : List Char) : Nat := byteLength (line.takeWhile isBlank)

def commonIndent (lines : List (List Char)) : Nat :=
  (((lines.filter fun l => !(trim l).isEmpty).map indentOf).min?).getD 0

/-- A line without its first `indent` bytes; nothing if the cut falls inside a character. -/
def dedentLine? (indent : Nat) (line : List Char) : Option (List Char) :=
  if indent ≤ byteLength line then cutBytes? indent line else some (trimLeft line)

def dedent? (lines : List (List Char)) : Option (List (List Char)) :=
  lines.mapM (dedentLine? (commonIndent lines))

structure Content where
  value : List Char
  interpolated : Bool
  width : Nat

def readContent? (h : Heredoc) (cs : List Char) : Option Content :=
  let (reversed, width) := h.readLines [] [] 0 cs
  let lines := reversed.reverse
  let body := if h.squiggly then dedent? lines else some lines
  body.map fun lines =>
    let value := List.intercalate ['\n'] lines
    ⟨value, !h.raw && occursIn ['#', '\x7b'] value, width⟩

end Heredoc
end CookbookAtlas.Token
