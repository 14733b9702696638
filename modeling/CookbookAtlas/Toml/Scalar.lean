import CookbookAtlas.Json.Reader
import CookbookAtlas.Text.Basic

/-! Unquoted values of TOML: booleans, integers, floats, dates and times. Only integers keep what
they stand for. -/
namespace CookbookAtlas.Toml

open Text

inductive Scalar
  | string (text : String)
  | int (value : Int)
  | float
  | bool (value : Bool)
  | moment
deriving DecidableEq

def digits? (isDigit : Char → Bool) (cs : List Char) : Option (List Char) :=
  let groups := splitOnChar '_' cs
  if groups.all fun g => !g.isEmpty && g.all isDigit then some groups.flatten else none

def decimal? (cs : List Char) : Option (List Char) :=
  match digits? isAsciiDigit cs with
  | some ds => if decide (1 < ds.length) && ds.head? == some '0' then none else some ds
  | none => none

def splitSign : List Char → Bool × List Char
  | '+' :: cs => (false, cs)
  | '-' :: cs => (true, cs)
  | cs => (false, cs)

def radix? (base : Nat) (cs : List Char) : Option Int :=
  let isDigit (c : Char) : Bool := (Json.hexValue? c).any (· < base)
  (digits? isDigit cs).map fun ds =>
    Int.ofNat (ds.foldl (fun n c => n * base + (Json.hexValue? c).getD 0) 0)

def int? : List Char → Option Int
  | '0' :: 'x' :: cs => radix? 16 cs
  | '0' :: 'o' :: cs => radix? 8 cs
  | '0' :: 'b' :: cs => radix? 2 cs
  | cs =>
    let (negative, body) := splitSign cs
    (decimal? body).map fun ds =>
      if negative then -Int.ofNat (Decimal.ofDigits ds) else Int.ofNat (Decimal.ofDigits ds)

def isExponent (cs : List Char) : Bool := (digits? isAsciiDigit (splitSign cs).2).isSome

/-- A whole number with a fraction, an exponent or both. -/
def isFloat (cs : List Char) : Bool :=
  let body := (splitSign cs).2
  if body == "inf".toList || body == "nan".toList then true else
    let number := body.takeWhile fun c => c != 'e' && c != 'E'
    let exponent := body.drop number.length
    let exponentOk := match exponent with
      | [] => true
      | _ :: rest => isExponent rest
    match splitFirst? ['.'] number with
    | some (whole, fraction) =>
      (decimal? whole).isSome && (digits? isAsciiDigit fraction).isSome && exponentOk
    | none => (decimal? number).isSome && !exponent.isEmpty && exponentOk

def field? (width : Nat) (cs : List Char) : Option Nat :=
  if cs.length == width && cs.all isAsciiDigit then some (Decimal.ofDigits cs) else none

def isLeapYear (y : Nat) : Bool := (y % 4 == 0 && y % 100 != 0) || y % 400 == 0

def daysIn (y m : Nat) : Nat :=
  if m = 2 then (if isLeapYear y then 29 else 28)
  else if m = 4 ∨ m = 6 ∨ m = 9 ∨ m = 11 then 30 else 31

def isDate (cs : List Char) : Bool :=
  match splitOnChar '-' cs with
  | [y, m, d] =>
    match field? 4 y, field? 2 m, field? 2 d with
    | some y, some m, some d =>
      decide (1 ≤ m) && decide (m ≤ 12) && decide (1 ≤ d) && decide (d ≤ daysIn y m)
    | _, _, _ => false
  | _ => false

def isSeconds (cs : List Char) : Bool :=
  match splitFirst? ['.'] cs with
  | some (whole, fraction) =>
    (field? 2 whole).any (· ≤ 60) && !fraction.isEmpty && fraction.all isAsciiDigit
  | none => (field? 2 cs).any (· ≤ 60)

def isMinutes (h m : List Char) : Bool := (field? 2 h).any (· ≤ 23) && (field? 2 m).any (· ≤ 59)

def isTime (cs : List Char) : Bool :=
  match splitOnChar ':' cs with
  | [h, m] => isMinutes h m
  | [h, m, s] => isMinutes h m && isSeconds s
  | _ => false

def isOffset (cs : List Char) : Bool :=
  match splitOnChar ':' cs with
  | [h, m] => isMinutes h m
  | _ => false

def isZonedTime (cs : List Char) : Bool :=
  let time := cs.takeWhile fun c => isAsciiDigit c || c == ':' || c == '.'
  match cs.drop time.length with
  | [] | ['Z'] | ['z'] => isTime time
  | sign :: offset => (sign == '+' || sign == '-') && isTime time && isOffset offset

def isMoment (cs : List Char) : Bool :=
  let date := cs.take 10
  match cs.drop 10 with
  | [] => isDate date || isTime cs
  | mark :: time =>
    (isDate date && (mark == 'T' || mark == 't' || mark == ' ') && isZonedTime time) || isTime cs

def isScalarChar (c : Char) : Bool :=
  isAsciiAlphanumeric c || c == '_' || c == '+' || c == '-' || c == '.' || c == ':'

/-- The text of an unquoted value: a date and its time may have one blank between them. -/
def scalarText (cs : List Char) : List Char :=
  let first := cs.takeWhile isScalarChar
  match cs.drop first.length with
  | ' ' :: rest =>
    if isDate first && rest.head?.any isAsciiDigit then first ++ ' ' :: rest.takeWhile isScalarChar
    else first
  | _ => first

def isHeld (n : Int) : Bool :=
  decide (-Int.ofNat (Nat.pow 2 127) ≤ n) && decide (n < Int.ofNat (Nat.pow 2 128))

def scalarOf? (cs : List Char) : Option Scalar :=
  if cs == "true".toList then some (.bool true)
  else if cs == "false".toList then some (.bool false)
  else match int? cs with
    | some n => if isHeld n then some (.int n) else none
    | none => if isFloat cs then some .float else if isMoment cs then some .moment else none

end CookbookAtlas.Toml
