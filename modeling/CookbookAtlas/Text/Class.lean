import CookbookAtlas.Text.Range.Alphabetic
import CookbookAtlas.Text.Range.Blank
import CookbookAtlas.Text.Range.Decimal
import CookbookAtlas.Text.Range.Numeric
import CookbookAtlas.Text.Range.Uppercase

/-! Character classes of Unicode text. ASCII is decided on its own, so a statement about
ASCII characters never meets a table; past ASCII the range tables decide. -/
namespace CookbookAtlas.Text

def inRanges (ranges : List (Nat × Nat)) (n : Nat) : Bool :=
  ranges.any fun r => decide (r.1 ≤ n) && decide (n ≤ r.2)

def isAscii (c : Char) : Bool := decide (c.toNat < 128)

def isAsciiDigit (c : Char) : Bool := decide ('0' ≤ c) && decide (c ≤ '9')

def isAsciiLower (c : Char) : Bool := decide ('a' ≤ c) && decide (c ≤ 'z')

def isAsciiUpper (c : Char) : Bool := decide ('A' ≤ c) && decide (c ≤ 'Z')

def isAsciiAlphabetic (c : Char) : Bool := isAsciiLower c || isAsciiUpper c

def isAsciiAlphanumeric (c : Char) : Bool := isAsciiAlphabetic c || isAsciiDigit c

def isAlphabetic (c : Char) : Bool :=
  if isAscii c then isAsciiAlphabetic c else inRanges alphabeticRanges c.toNat

def isAlphanumeric (c : Char) : Bool :=
  if isAscii c then isAsciiAlphanumeric c
  else inRanges alphabeticRanges c.toNat || inRanges numericRanges c.toNat

def isUppercase (c : Char) : Bool :=
  if isAscii c then isAsciiUpper c else inRanges uppercaseRanges c.toNat

/-- White space: among ASCII the space and the controls from tab to carriage return. -/
def isBlank (c : Char) : Bool :=
  if isAscii c then c == ' ' || (decide ('\t' ≤ c) && decide (c ≤ '\r'))
  else inRanges blankRanges c.toNat

def isDecimal (c : Char) : Bool :=
  if isAscii c then isAsciiDigit c else inRanges decimalRanges c.toNat

theorem isBlank_space : isBlank ' ' = true := rfl

end CookbookAtlas.Text
