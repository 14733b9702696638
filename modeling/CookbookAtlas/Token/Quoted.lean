import CookbookAtlas.Text.Basic

/-! Bodies of delimited literals: strings, symbols, word lists and patterns. One reader serves
every delimiter; escapes and interpolation are switched on by the kind of literal. -/
namespace CookbookAtlas.Token

/-- Where in a literal the reader stands: in its text, or in an interpolation with its depth of
braces and the quotation mark of an open string. -/
inductive Zone
  | text (nesting : Nat)
  | code (nesting depth : Nat) (mark : Option Char)

structure Delimiters where
  opening : Option Char
  closing : Char
  escapes : Bool

/-- A body read so far, last character first, and the number of characters consumed. -/
structure Body where
  reversed : List Char
  interpolated : Bool
  width : Nat

namespace Body

def empty : Body := ⟨[], false, 0⟩

def push (b : Body) (c : Char) : Body :=
  { b with reversed := c :: b.reversed, width := b.width + 1 }

def skip (b : Body) : Body := { b with width := b.width + 1 }

/-- Consumes two characters that stand for the given ones. -/
def pushEscape (b : Body) (cs : List Char) : Body :=
  { b with reversed := cs.reverse ++ b.reversed, width := b.width + 2 }

def interpolate (b : Body) : Body := { b.push '#' with interpolated := true }

def value (b : Body) : List Char := b.reversed.reverse

end Body

def escapedChar : Char → Char
  | 'n' => '\n'
  | 't' => '\t'
  | 's' => ' '
  | '0' => '\x00'
  | c => c

/-- What a backslash and the character after it stand for. -/
def Delimiters.unescape (d : Delimiters) (c : Char) : List Char :=
  if d.escapes then [escapedChar c]
  else if c = d.closing ∨ c = '\\' then [c]
  else ['\\', c]

/-- Zone after an unescaped character of an interpolation. -/
def codeZone (nesting depth : Nat) (mark : Option Char) (c : Char) : Zone :=
  match mark with
  | some q => if c = q then .code nesting depth none else .code nesting depth mark
  | none =>
    if c = '"' ∨ c = '\'' then .code nesting depth (some c)
    else if c = '\x7b' then .code nesting (depth + 1) none
    else if c = '\x7d' then
      if depth ≤ 1 then .text nesting else .code nesting (depth - 1) none
    else .code nesting depth none

/-- Reads up to and with the closing delimiter, or to the end of the text. -/
def readBody (d : Delimiters) (b : Body) : Zone → List Char → Body
  | _, [] => b
  | .text nesting, c :: cs =>
    if c = '\\' then
      match cs with
      | [] => b.skip
      | e :: rest => readBody d (b.pushEscape (d.unescape e)) (.text nesting) rest
    else if c = '#' ∧ d.escapes ∧ cs.head? = some '\x7b' then
      readBody d b.interpolate (.code nesting 0 none) cs
    else if some c = d.opening then readBody d (b.push c) (.text (nesting + 1)) cs
    else if c = d.closing then
      if nesting = 0 then b.skip else readBody d (b.push c) (.text (nesting - 1)) cs
    else readBody d (b.push c) (.text nesting) cs
  | .code nesting depth mark, c :: cs =>
    if c = '\\' ∧ mark.isSome then
      match cs with
      | [] => b.push c
      | e :: rest => readBody d ((b.push c).push e) (.code nesting depth mark) rest
    else readBody d (b.push c) (codeZone nesting depth mark c) cs

def readDelimited (d : Delimiters) (cs : List Char) : Body := readBody d Body.empty (.text 0) cs

def readQuoted (mark : Char) (escapes : Bool) (cs : List Char) : Body :=
  readDelimited ⟨none, mark, escapes⟩ cs

end CookbookAtlas.Token
