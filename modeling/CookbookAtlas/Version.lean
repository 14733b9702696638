import CookbookAtlas.Decimal.Read
import CookbookAtlas.Text.Basic

/-! The suffixes by which a cookbook directory tells its version or its content. -/
namespace CookbookAtlas.Version

open Text

def isPart (cs : List Char) : Bool :=
  !cs.isEmpty && cs.all isAsciiDigit && (cs.length == 1 || cs.head? != some '0')
    && decide (Decimal.ofDigits cs < Nat.pow 2 64)

def isLabelChar (c : Char) : Bool := isAsciiAlphanumeric c || c == '-'

def isBuildLabel (cs : List Char) : Bool := !cs.isEmpty && cs.all isLabelChar

/-- A label of a pre-release; one of digits only has no leading zero. -/
def isReleaseLabel (cs : List Char) : Bool :=
  isBuildLabel cs && !(cs.all isAsciiDigit && decide (1 < cs.length) && cs.head? == some '0')

def isTail (cs : List Char) : Bool :=
  match cs with
  | [] => true
  | '-' :: rest =>
    match splitFirst? ['+'] rest with
    | some (release, build) =>
      (splitOnChar '.' release).all isReleaseLabel && (splitOnChar '.' build).all isBuildLabel
    | none => (splitOnChar '.' rest).all isReleaseLabel
  | '+' :: build => (splitOnChar '.' build).all isBuildLabel
  | _ => false

def isSemantic (cs : List Char) : Bool :=
  let core := cs.takeWhile fun c => isAsciiDigit c || c == '.'
  let parts := splitOnChar '.' core
  parts.length == 3 && parts.all isPart && isTail (cs.drop core.length)

def isDotted (cs : List Char) : Bool :=
  (splitOnChar '.' cs).all fun field => !field.isEmpty && field.all isDecimal

def isLowerHex (c : Char) : Bool :=
  isAsciiDigit c || (decide ('a' ≤ c) && decide (c ≤ 'f'))

def isDigest (cs : List Char) : Bool :=
  decide (7 ≤ cs.length) && decide (cs.length ≤ 64) && cs.all isLowerHex

def isSuffix (cs : List Char) : Bool := isSemantic cs || isDotted cs || isDigest cs

end CookbookAtlas.Version
