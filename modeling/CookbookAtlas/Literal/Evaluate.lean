import CookbookAtlas.Literal.Number
import CookbookAtlas.Token.Basic

/-! Static values of literals: strings without interpolation, symbols, numbers, `true`, `false`,
`nil`, word lists, and arrays and hashes of these. One token is taken at a time on a stack of
open containers. -/
namespace CookbookAtlas.Literal

def nestingLimit : Nat := 128

inductive Frame
  /-- An array that expects a value or its end; items last one first. -/
  | arrayNext (items : List Datum)
  | arrayAfter (items : List Datum)
  | hashNext (members : Members)
  | hashMark (members : Members) (key : String)
  | hashItem (members : Members) (key : String)
  | hashAfter (members : Members)

structure State where
  frames : List Frame
  negative : Bool
  result : Option Datum

namespace State

def start : State := ⟨[], false, none⟩

def expectsValue (s : State) : Bool :=
  match s.frames with
  | [] => s.result.isNone
  | .arrayNext _ :: _ | .hashItem _ _ :: _ => true
  | _ => false

def value (s : State) (v : Datum) : Option State :=
  match s.frames with
  | [] => if s.result.isNone then some { s with result := some v } else none
  | .arrayNext items :: rest => some { s with frames := .arrayAfter (v :: items) :: rest }
  | .hashItem members key :: rest =>
    some { s with frames := .hashAfter (members.insert key v) :: rest }
  | _ => none

def valueStep (s : State) (kind : Token.Kind) : Option State :=
  if nestingLimit < s.frames.length then none
  else match kind with
    | .string text false => s.value (.string text)
    | .symbol name => s.value (.string name)
    | .number text => (number? text false).bind s.value
    | .op op => if op = "-" then some { s with negative := true } else none
    | .ident word =>
      if word = "true" then s.value (.bool true)
      else if word = "false" then s.value (.bool false)
      else if word = "nil" then s.value .null
      else none
    | .words items => s.value (.array (items.map .string))
    | .leftBracket => some { s with frames := .arrayNext [] :: s.frames }
    | .leftBrace => some { s with frames := .hashNext [] :: s.frames }
    | _ => none

def keyStep (s : State) (members : Members) (rest : List Frame) (kind : Token.Kind) :
    Option State :=
  match kind with
  | .label name => some { s with frames := .hashItem members name :: rest }
  | .string text false => some { s with frames := .hashMark members text :: rest }
  | .symbol name => some { s with frames := .hashMark members name :: rest }
  | .number text => some { s with frames := .hashMark members text :: rest }
  | _ => none

def close (s : State) (rest : List Frame) (v : Datum) : Option State :=
  { s with frames := rest }.value v

def step (s : State) (kind : Token.Kind) : Option State :=
  if s.negative then
    match kind with
    | .number text => (number? text true).bind { s with negative := false }.value
    | _ => none
  else match s.frames with
    | .arrayNext items :: rest =>
      if kind = .rightBracket then s.close rest (.array items.reverse) else s.valueStep kind
    | .arrayAfter items :: rest =>
      if kind = .comma then some { s with frames := .arrayNext items :: rest }
      else if kind = .rightBracket then s.close rest (.array items.reverse)
      else none
    | .hashNext members :: rest =>
      if kind = .rightBrace then s.close rest (.object members) else s.keyStep members rest kind
    | .hashMark members key :: rest =>
      if kind = .fatArrow ∨ kind = .op ":" then some { s with frames := .hashItem members key :: rest }
      else none
    | .hashItem _ _ :: _ => s.valueStep kind
    | .hashAfter members :: rest =>
      if kind = .comma then some { s with frames := .hashNext members :: rest }
      else if kind = .rightBrace then s.close rest (.object members)
      else none
    | [] => if s.result.isNone then s.valueStep kind else none

def run (s : State) : List Token.Kind → Option State
  | [] => some s
  | kind :: rest =>
    match s.step kind with
    | none => none
    | some t => t.run rest

end State

def evaluateKinds? (kinds : List Token.Kind) : Option Datum :=
  match State.start.run (kinds.filter (· != .newline)) with
  | some ⟨[], false, result⟩ => result
  | _ => none

/-- The value of tokens that form one literal; line breaks count for nothing. -/
def evaluate? (tokens : List Token) : Option Datum := evaluateKinds? (tokens.map Token.kind)

end CookbookAtlas.Literal
