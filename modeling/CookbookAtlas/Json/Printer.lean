import CookbookAtlas.Datum.Basic
import CookbookAtlas.Decimal.Shortest

/-! JSON text of a value: compact, or spread over lines with two spaces of indent. -/
namespace CookbookAtlas.Json

def hexDigit (n : Nat) : Char :=
  if n < 10 then Char.ofNat ('0'.toNat + n) else Char.ofNat ('a'.toNat + (n - 10))

def hexDigits (n : Nat) : Nat → List Char
  | 0 => []
  | width + 1 => hexDigits (n / 16) width ++ [hexDigit (n % 16)]

/-- Quotation marks, backslashes and control characters are escaped, nothing else. -/
def escapeChar (c : Char) : List Char :=
  if c = '"' then ['\\', '"']
  else if c = '\\' then ['\\', '\\']
  else if c = '\n' then ['\\', 'n']
  else if c = '\r' then ['\\', 'r']
  else if c = '\t' then ['\\', 't']
  else if c = '\x08' then ['\\', 'b']
  else if c = '\x0c' then ['\\', 'f']
  else if c.toNat < 32 then '\\' :: 'u' :: hexDigits c.toNat 4
  else [c]

def quote (s : String) : String :=
  "\"" ++ String.ofList (s.toList.flatMap escapeChar) ++ "\""

def exponentText (e : Int) : String := if 0 ≤ e then "+" ++ toString e else toString e

/-- Text of a finite float: positional when the point stands among the first sixteen places or
at most five zeros follow it, otherwise with an exponent. -/
def floatText (bits : UInt64) : String :=
  let sign := if bits.toNat / Nat.pow 2 63 = 1 then "-" else ""
  if bits.toNat % Nat.pow 2 63 = 0 then sign ++ "0.0"
  else
    let (n, e) := Decimal.shortest bits
    let digits := Nat.toDigits 10 n
    let count : Int := digits.length
    let point := count + e
    let text :=
      if 0 ≤ e && point ≤ 16 then
        digits ++ List.replicate e.toNat '0' ++ ['.', '0']
      else if 0 < point && point ≤ 16 then
        digits.take point.toNat ++ '.' :: digits.drop point.toNat
      else if -5 < point && point ≤ 0 then
        '0' :: '.' :: List.replicate (-point).toNat '0' ++ digits
      else
        let mantissa := match digits with
          | [d] => [d]
          | d :: ds => d :: '.' :: ds
          | [] => []
        mantissa ++ 'e' :: (exponentText (point - 1)).toList
    sign ++ String.ofList text

def numberText : Number → String
  | .int n => toString n
  | .float bits => floatText bits

mutual
def compact : Datum → String
  | .null => "null"
  | .bool b => if b then "true" else "false"
  | .number n => numberText n
  | .string s => quote s
  | .array items => "[" ++ String.intercalate "," (compactItems items) ++ "]"
  | .object members => "\x7b" ++ String.intercalate "," (compactMembers members) ++ "\x7d"

def compactItems : List Datum → List String
  | [] => []
  | v :: rest => compact v :: compactItems rest

def compactMembers : List (String × Datum) → List String
  | [] => []
  | (k, v) :: rest => (quote k ++ ":" ++ compact v) :: compactMembers rest
end

def indentText (depth : Nat) : String := String.ofList (List.replicate (2 * depth) ' ')

/-- Parts on lines of their own between two brackets; nothing between them if there are none. -/
def spread (opening closing : String) (depth : Nat) (parts : List String) : String :=
  if parts.isEmpty then opening ++ closing
  else
    let line := "\n" ++ indentText (depth + 1)
    opening ++ line ++ String.intercalate ("," ++ line) parts ++ "\n" ++ indentText depth ++ closing

mutual
def prettyAt (depth : Nat) : Datum → String
  | .null => "null"
  | .bool b => if b then "true" else "false"
  | .number n => numberText n
  | .string s => quote s
  | .array items => spread "[" "]" depth (prettyItems (depth + 1) items)
  | .object members => spread "\x7b" "\x7d" depth (prettyMembers (depth + 1) members)

def prettyItems (depth : Nat) : List Datum → List String
  | [] => []
  | v :: rest => prettyAt depth v :: prettyItems depth rest

def prettyMembers (depth : Nat) : List (String × Datum) → List String
  | [] => []
  | (k, v) :: rest => (quote k ++ ": " ++ prettyAt depth v) :: prettyMembers depth rest
end

def pretty (v : Datum) : String := prettyAt 0 v

end CookbookAtlas.Json
