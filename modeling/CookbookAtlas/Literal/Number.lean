import CookbookAtlas.Datum.Basic
import CookbookAtlas.Decimal.Read
import CookbookAtlas.Text.Class

/-! Number literals. Underscores count for nothing; what then reads as a signed 64-bit decimal
integer is one, what reads as a finite decimal float is one, and nothing else is a number. -/
namespace CookbookAtlas.Literal

open Text

/-- The integer written by decimal digits, if it fits 64 bits with its sign. -/
def integer? (digits : List Char) (negative : Bool) : Option Int :=
  if digits.isEmpty || !digits.all isAsciiDigit then none
  else
    let n : Int := Decimal.ofDigits digits
    let value := if negative then -n else n
    if Number.leastInt ≤ value ∧ value ≤ Number.greatestInt then some value else none

/-- Whether a minus sign stands first, and what comes after the sign if there is one. -/
def takeSign : List Char → Bool × List Char
  | '-' :: cs => (true, cs)
  | '+' :: cs | cs => (false, cs)

/-- Digits around an optional point, then an optional exponent, which may have a sign. -/
def float? (text : List Char) : Option Float :=
  let (whole, rest) := text.span isAsciiDigit
  let (fraction, rest) := match rest with
    | '.' :: cs => cs.span isAsciiDigit
    | cs => ([], cs)
  let exponent : Option Int := match rest with
    | [] => some 0
    | c :: cs =>
      let (negative, digits) := takeSign cs
      let n : Int := Decimal.ofDigits digits
      if (c = 'e' ∨ c = 'E') ∧ !digits.isEmpty ∧ digits.all isAsciiDigit then
        some (if negative then -n else n)
      else none
  if whole.isEmpty && fraction.isEmpty then none
  else exponent.map fun e => Decimal.nearest (whole ++ fraction) (e - fraction.length)

def number? (text : String) (negative : Bool) : Option Datum :=
  let clean := text.toList.filter (· != '_')
  let (negative, unsigned) := takeSign (if negative then '-' :: clean else clean)
  match integer? unsigned negative with
  | some n => some (.number (.int n))
  | none =>
    match float? unsigned with
    | some f =>
      let value := if negative then -f else f
      if value.isFinite then some (.number (.float value.toBits)) else none
    | none => none

end CookbookAtlas.Literal
