import CookbookAtlas.Datum.Basic
import CookbookAtlas.Decimal.Read
import CookbookAtlas.Text.Class

/-! JSON documents as they are written: numbers and strings keep what only some readers check
(range, paired surrogates), and a repeated member stays repeated. -/
namespace CookbookAtlas.Json

structure NumberText where
  negative : Bool
  whole : List Char
  fraction : Option (List Char)
  exponent : Option (Bool × List Char)

/-- A string literal; `paired` fails when an escaped surrogate stands alone. -/
structure StringText where
  text : String
  paired : Bool

inductive Doc
  | null
  | bool (value : Bool)
  | number (text : NumberText)
  | string (text : StringText)
  | array (items : List Doc)
  | object (members : List (StringText × Doc))

/-- A significand of at most 64 bits; further digits only raise the exponent or are dropped. -/
structure Significand where
  value : Nat
  exponent : Int
  full : Bool

def Significand.push (s : Significand) (c : Char) : Significand :=
  let next := s.value * 10 + Decimal.digitValue c
  if s.full || next ≥ Nat.pow 2 64 then { s with exponent := s.exponent + 1, full := true }
  else { s with value := next }

/-- Takes a digit after the point: one that no longer fits is dropped. -/
def Significand.pushFraction (s : Significand) (c : Char) : Significand :=
  let next := s.value * 10 + Decimal.digitValue c
  if s.full || next ≥ Nat.pow 2 64 then { s with full := true }
  else { s with value := next, exponent := s.exponent - 1 }

/-- Divides by ten to the `n` in steps that the table of powers covers. -/
def scaleDown (f : Float) (n : Nat) : Nat → Float
  | 0 => f
  | fuel + 1 =>
    if n ≤ 308 then f / Decimal.powerOfTen n
    else if f == 0.0 then f
    else scaleDown (f / Decimal.powerOfTen 308) (n - 308) fuel

/-- The significand times ten to the exponent with one rounding per step; nothing if it
overflows. -/
def scaled? (significand : Nat) (exponent : Int) : Option Float :=
  let f := significand.toUInt64.toFloat
  match exponent with
  | .ofNat n =>
    if n ≤ 308 then
      let g := f * Decimal.powerOfTen n
      if g.isInf then none else some g
    else if significand = 0 then some f else none
  | .negSucc n => some (scaleDown f (n + 1) (n / 308 + 2))

/-- Exponents are held in 31 bits; `none` stands for one that does not fit. -/
def exponentOf? (digits : List Char) : Option Nat :=
  let n := Decimal.ofDigits digits
  if n < Nat.pow 2 31 then some n else none

def addExponent (a b : Int) : Int := max (-2147483648) (min 2147483647 (a + b))

def signed (negative : Bool) (f : Float) : Float := if negative then -f else f

namespace NumberText

def float? (n : NumberText) : Option Float :=
  let start := n.whole.foldl Significand.push ⟨0, 0, false⟩
  let s := (n.fraction.getD []).foldl Significand.pushFraction { start with full := false }
  match n.exponent with
  | none => (scaled? s.value s.exponent).map (signed n.negative)
  | some (negative, digits) =>
    match exponentOf? digits with
    | some e => (scaled? s.value (addExponent s.exponent (if negative then -e else e))).map (signed n.negative)
    | none => if s.value ≠ 0 && !negative then none else some (signed n.negative 0.0)

/-- The number meant, if it is in range: integers that fit 64 bits stay integers. -/
def number? (n : NumberText) : Option Number :=
  let whole := Decimal.ofDigits n.whole
  if n.fraction.isNone && n.exponent.isNone && whole < Nat.pow 2 64 then
    if !n.negative then some (.int whole)
    else if whole = 0 then some (.float (-0.0 : Float).toBits)
    else if whole ≤ Nat.pow 2 63 then some (.int (-(whole : Int)))
    else some (.float (-(whole.toUInt64.toFloat)).toBits)
  else n.float?.map fun f => .float f.toBits

end NumberText

def StringText.text? (s : StringText) : Option String := if s.paired then some s.text else none

def nestingLimit : Nat := 127

mutual
def Doc.datum? (depth : Nat) : Doc → Option Datum
  | .null => some .null
  | .bool b => some (.bool b)
  | .number n => n.number?.map .number
  | .string s => s.text?.map .string
  | .array items => if depth = 0 then none else (itemsDatum? (depth - 1) items).map .array
  | .object members =>
    if depth = 0 then none
    else (membersDatum? (depth - 1) members).map fun ms => .object (Members.ofPairs ms)

def itemsDatum? (depth : Nat) : List Doc → Option (List Datum)
  | [] => some []
  | d :: rest =>
    match d.datum? depth, itemsDatum? depth rest with
    | some v, some vs => some (v :: vs)
    | _, _ => none

def membersDatum? (depth : Nat) : List (StringText × Doc) → Option (List (String × Datum))
  | [] => some []
  | (k, d) :: rest =>
    match k.text?, d.datum? depth, membersDatum? depth rest with
    | some key, some v, some vs => some ((key, v) :: vs)
    | _, _, _ => none
end

end CookbookAtlas.Json
