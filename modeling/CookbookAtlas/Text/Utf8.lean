/-! UTF-8: bytes of a text, and the text of bytes, read strictly or with U+FFFD for every
broken sequence. -/
namespace CookbookAtlas.Text
namespace Utf8

def encode (cs : List Char) : List UInt8 := cs.flatMap String.utf8EncodeChar

def isTail (n : Nat) : Bool := decide (0x80 ≤ n) && decide (n ≤ 0xBF)

/-- Whether `n` may follow the first byte `b` of a sequence of three or four. -/
def isSecond (b n : Nat) : Bool :=
  let least := if b = 0xE0 then 0xA0 else if b = 0xF0 then 0x90 else 0x80
  let greatest := if b = 0xED then 0x9F else if b = 0xF4 then 0x8F else 0xBF
  decide (least ≤ n) && decide (n ≤ greatest)

/-- The last byte of a sequence whose bytes before it stand for `high`, the `used`-th after the
first. -/
def readLast (high used : Nat) : List UInt8 → Option Char × Nat
  | [] => (none, used - 1)
  | d :: _ =>
    if isTail d.toNat then (some (Char.ofNat (high * 64 + d.toNat % 64)), used)
    else (none, used - 1)

/-- The character of a sequence that starts with `b`, nothing if it is broken, and the number of
bytes taken after `b`. -/
def readChar (b : Nat) (rest : List UInt8) : Option Char × Nat :=
  if b < 0x80 then (some (Char.ofNat b), 0)
  else if 0xC2 ≤ b ∧ b ≤ 0xDF then readLast (b % 32) 1 rest
  else if 0xE0 ≤ b ∧ b ≤ 0xEF then
    match rest with
    | c :: rest =>
      if isSecond b c.toNat then readLast (b % 16 * 64 + c.toNat % 64) 2 rest else (none, 0)
    | [] => (none, 0)
  else if 0xF0 ≤ b ∧ b ≤ 0xF4 then
    match rest with
    | c :: rest =>
      if isSecond b c.toNat then
        match rest with
        | d :: rest =>
          if isTail d.toNat then
            readLast ((b % 8 * 64 + c.toNat % 64) * 64 + d.toNat % 64) 3 rest
          else (none, 1)
        | [] => (none, 1)
      else (none, 0)
    | [] => (none, 0)
  else (none, 0)

/-- The characters of a byte sequence, nothing in place of each broken one. -/
def units : List UInt8 → List (Option Char)
  | [] => []
  | b :: rest =>
    let (c, width) := readChar b.toNat rest
    c :: units (rest.drop width)
termination_by bytes => bytes.length
decreasing_by simp only [List.length_drop, List.length_cons]; omega

def decode? (bytes : List UInt8) : Option (List Char) := (units bytes).mapM id

def decodeLossy (bytes : List UInt8) : List Char := (units bytes).map (·.getD '�')

end Utf8
end CookbookAtlas.Text
