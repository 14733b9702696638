/-! Reading decimal numbers as binary64 floats. -/
namespace CookbookAtlas.Decimal

def digitValue (c : Char) : Nat := c.toNat - '0'.toNat

def ofDigits (digits : List Char) : Nat :=
  digits.foldl (fun n c => 10 * n + digitValue c) 0

/-- Exponents past this bound give zero or infinity for every significand of the text. -/
def exponentBound (digits : List Char) : Int := 400 + digits.length

def nearest (digits : List Char) (exponent : Int) : Float :=
  let significand := ofDigits digits
  if significand = 0 then 0.0
  else if exponent > 400 then 1.0 / 0.0
  else if exponent < -(exponentBound digits) then 0.0
  else match exponent with
    | .ofNat e => Float.ofScientific significand false e
    | .negSucc e => Float.ofScientific significand true (e + 1)

def powerOfTen (n : Nat) : Float := Float.ofScientific 1 false n

end CookbookAtlas.Decimal
