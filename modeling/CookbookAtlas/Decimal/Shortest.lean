/-! The shortest decimal digits that read back as a given binary64 float, found by exact
arithmetic: on grids of 1, 2, … digits the two neighbours of the value are tried, and the
first grid with a point in the rounding interval wins. -/
namespace CookbookAtlas.Decimal

/-- A positive float as `mantissa * 2 ^ exponent`; `narrow` says that the gap below it is half
the gap above it. -/
structure Binary where
  mantissa : Nat
  exponent : Int
  narrow : Bool

def Binary.ofBits (bits : UInt64) : Binary :=
  let fraction : Nat := bits.toNat % Nat.pow 2 52
  let biased : Nat := bits.toNat / Nat.pow 2 52 % 2048
  if biased = 0 then ⟨fraction, -1074, false⟩
  else ⟨fraction + Nat.pow 2 52, Int.ofNat biased - 1075, decide (fraction = 0) && decide (biased ≠ 1)⟩

structure Interval where
  value : Nat
  low : Nat
  high : Nat
  denominator : Nat
  closed : Bool

def Binary.interval (b : Binary) : Interval :=
  let scale := Nat.pow 2 (b.exponent - 2).toNat
  { value := 4 * b.mantissa * scale
    low := (4 * b.mantissa - if b.narrow then 1 else 2) * scale
    high := (4 * b.mantissa + 2) * scale
    denominator := Nat.pow 2 (2 - b.exponent).toNat
    closed := b.mantissa % 2 = 0 }

def Interval.holds (i : Interval) (point : Nat) : Bool :=
  if i.closed then i.low ≤ point && point ≤ i.high else i.low < point && point < i.high

def Interval.times (i : Interval) (n : Nat) : Interval :=
  { i with value := i.value * n, low := i.low * n, high := i.high * n }

/-- How many places the value lies below one, counted up to `fuel`. -/
def placesBelowOne (value denominator : Nat) : Nat → Nat
  | 0 => 0
  | fuel + 1 =>
    if denominator ≤ value then 0 else 1 + placesBelowOne (value * 10) denominator fuel

/-- The `k` for which the value is at least `10 ^ (k - 1)` and below `10 ^ k`. -/
def Interval.magnitude (i : Interval) : Int :=
  let whole := i.value / i.denominator
  if whole = 0 then 1 - (placesBelowOne i.value i.denominator 400 : Int)
  else ((Nat.toDigits 10 whole).length : Int)

/-- The point of the grid with step `10 ^ place` that stands for the value, if one does. -/
def Interval.gridPoint? (i : Interval) (place : Int) : Option Nat :=
  let scaled := i.times (Nat.pow 10 (-place).toNat)
  let step := scaled.denominator * Nat.pow 10 place.toNat
  let below := scaled.value / step
  let above := below + 1
  match scaled.holds (below * step), scaled.holds (above * step) with
  | true, true =>
    let down := scaled.value - below * step
    let up := above * step - scaled.value
    if down < up then some below
    else if up < down then some above
    else some (if below % 2 = 0 then below else above)
  | true, false => some below
  | false, true => some above
  | false, false => none

def Interval.search (i : Interval) (magnitude : Int) (count : Nat) : Nat → Nat × Int
  | 0 => (i.value / i.denominator, 0)
  | fuel + 1 =>
    let place := magnitude - count
    match i.gridPoint? place with
    | some n => (n, place)
    | none => i.search magnitude (count + 1) fuel

/-- Digits without zeros at their end, and how many zeros were dropped. -/
def dropZeros (n : Nat) : Nat → Nat × Nat
  | 0 => (n, 0)
  | fuel + 1 =>
    if n ≠ 0 && n % 10 = 0 then
      let (m, k) := dropZeros (n / 10) fuel
      (m, k + 1)
    else (n, 0)

/-- Shortest digits `d` and exponent `e` with `d * 10 ^ e` reading back as the magnitude of
a finite float other than zero. -/
def shortest (bits : UInt64) : Nat × Int :=
  let i := (Binary.ofBits bits).interval
  let (n, place) := i.search i.magnitude 1 17
  let (m, zeros) := dropZeros n 20
  (m, place + zeros)

end CookbookAtlas.Decimal
