import CookbookAtlas.Json.Doc

/-! Reading JSON text. The text is cut into symbols; a stack of open containers then takes one
symbol at a time, so a document of any depth is read in one pass over its symbols. -/
namespace CookbookAtlas.Json

inductive Symbol
  | openBracket
  | closeBracket
  | openBrace
  | closeBrace
  | comma
  | colon
  | leaf (value : Doc)

def hexValue? (c : Char) : Option Nat :=
  if '0' ≤ c ∧ c ≤ '9' then some (c.toNat - '0'.toNat)
  else if 'a' ≤ c ∧ c ≤ 'f' then some (c.toNat - 'a'.toNat + 10)
  else if 'A' ≤ c ∧ c ≤ 'F' then some (c.toNat - 'A'.toNat + 10)
  else none

def hexUnit? (a b c d : Char) : Option Nat :=
  match hexValue? a, hexValue? b, hexValue? c, hexValue? d with
  | some a, some b, some c, some d => some (((a * 16 + b) * 16 + c) * 16 + d)
  | _, _, _, _ => none

def simpleEscape? : Char → Option Char
  | '"' => some '"'
  | '\\' => some '\\'
  | '/' => some '/'
  | 'b' => some '\x08'
  | 'f' => some '\x0c'
  | 'n' => some '\n'
  | 'r' => some '\r'
  | 't' => some '\t'
  | _ => none

/-- A string body read so far: its characters last one first, and how many were consumed. -/
structure StringScan where
  reversed : List Char
  paired : Bool
  width : Nat

def StringScan.push (s : StringScan) (c : Char) (width : Nat) : StringScan :=
  { s with reversed := c :: s.reversed, width := s.width + width }

def StringScan.broken (s : StringScan) (width : Nat) : StringScan :=
  { s with paired := false, width := s.width + width }

def isHighSurrogate (n : Nat) : Bool := 0xD800 ≤ n && n ≤ 0xDBFF
def isLowSurrogate (n : Nat) : Bool := 0xDC00 ≤ n && n ≤ 0xDFFF

def readString (s : StringScan) : List Char → Option StringScan
  | [] => none
  | '"' :: _ => some { s with width := s.width + 1 }
  | '\\' :: 'u' :: a :: b :: c :: d :: '\\' :: 'u' :: e :: f :: g :: h :: cs =>
    match hexUnit? a b c d with
    | none => none
    | some n =>
      if isHighSurrogate n then
        match hexUnit? e f g h with
        | none => none
        | some m =>
          if isLowSurrogate m then
            readString (s.push (Char.ofNat ((n - 0xD800) * 1024 + (m - 0xDC00) + 0x10000)) 12) cs
          else readString (s.broken 6) ('\\' :: 'u' :: e :: f :: g :: h :: cs)
      else if isLowSurrogate n then readString (s.broken 6) ('\\' :: 'u' :: e :: f :: g :: h :: cs)
      else readString (s.push (Char.ofNat n) 6) ('\\' :: 'u' :: e :: f :: g :: h :: cs)
  | '\\' :: 'u' :: a :: b :: c :: d :: cs =>
    match hexUnit? a b c d with
    | none => none
    | some n =>
      if isHighSurrogate n || isLowSurrogate n then readString (s.broken 6) cs
      else readString (s.push (Char.ofNat n) 6) cs
  | '\\' :: c :: cs =>
    match simpleEscape? c with
    | none => none
    | some d => readString (s.push d 2) cs
  | c :: cs => if c.toNat < 32 || c = '\\' then none else readString (s.push c 1) cs

def spanDigits (cs : List Char) : List Char × List Char := cs.span Text.isAsciiDigit

/-- The fraction of a number, `none` if a point stands without digits. -/
def readFraction? : List Char → Option (Option (List Char) × List Char)
  | '.' :: cs =>
    let (digits, rest) := spanDigits cs
    if digits.isEmpty then none else some (some digits, rest)
  | cs => some (none, cs)

def exponentDigits? (negative : Bool) (cs : List Char) :
    Option (Option (Bool × List Char) × List Char) :=
  let (digits, rest) := spanDigits cs
  if digits.isEmpty then none else some (some (negative, digits), rest)

def readExponent? : List Char → Option (Option (Bool × List Char) × List Char)
  | c :: '+' :: cs =>
    if c = 'e' ∨ c = 'E' then exponentDigits? false cs else some (none, c :: '+' :: cs)
  | c :: '-' :: cs =>
    if c = 'e' ∨ c = 'E' then exponentDigits? true cs else some (none, c :: '-' :: cs)
  | c :: cs => if c = 'e' ∨ c = 'E' then exponentDigits? false cs else some (none, c :: cs)
  | [] => some (none, [])

/-- An unsigned number and how many characters it has. A leading zero stands alone. -/
def readNumber? (negative : Bool) (cs : List Char) : Option (NumberText × Nat) :=
  let (whole, rest) := spanDigits cs
  if whole.isEmpty || (whole.length > 1 && whole.head? = some '0') then none
  else match readFraction? rest with
    | none => none
    | some (fraction, rest) =>
      match readExponent? rest with
      | none => none
      | some (exponent, _) =>
        let point := match fraction with
          | some digits => digits.length + 1
          | none => 0
        let power := match exponent with
          | some (_, digits) => digits.length
          | none => 0
        let mark := match exponent, rest with
          | some _, _ :: '+' :: _ | some _, _ :: '-' :: _ => 2
          | some _, _ => 1
          | none, _ => 0
        some (⟨negative, whole, fraction, exponent⟩, whole.length + point + mark + power)

def readSymbol? (c : Char) (cs : List Char) : Option (Symbol × Nat) :=
  if c = '[' then some (.openBracket, 0)
  else if c = ']' then some (.closeBracket, 0)
  else if c = '\x7b' then some (.openBrace, 0)
  else if c = '\x7d' then some (.closeBrace, 0)
  else if c = ',' then some (.comma, 0)
  else if c = ':' then some (.colon, 0)
  else if c = '"' then
    (readString ⟨[], true, 0⟩ cs).map fun s =>
      (.leaf (.string ⟨String.ofList s.reversed.reverse, s.paired⟩), s.width)
  else if c = '-' then
    (readNumber? true cs).map fun p => (.leaf (.number p.1), p.2)
  else if Text.isAsciiDigit c then
    (readNumber? false (c :: cs)).map fun p => (.leaf (.number p.1), p.2 - 1)
  else if ['n', 'u', 'l', 'l'].isPrefixOf (c :: cs) then some (.leaf .null, 3)
  else if ['t', 'r', 'u', 'e'].isPrefixOf (c :: cs) then some (.leaf (.bool true), 3)
  else if ['f', 'a', 'l', 's', 'e'].isPrefixOf (c :: cs) then some (.leaf (.bool false), 4)
  else none

def isSpace (c : Char) : Bool := c == ' ' || c == '\n' || c == '\t' || c == '\r'

def symbolsFrom (done : List Symbol) : List Char → Option (List Symbol)
  | [] => some done.reverse
  | c :: cs =>
    if isSpace c then symbolsFrom done cs
    else match readSymbol? c cs with
      | none => none
      | some (symbol, width) => symbolsFrom (symbol :: done) (cs.drop width)
termination_by cs => cs.length
decreasing_by all_goals simp [List.length_drop]; try omega

def symbols? (cs : List Char) : Option (List Symbol) := symbolsFrom [] cs

/-- What an open container expects next. -/
inductive Frame
  | arrayStart
  | arrayItem (items : List Doc)
  | arrayAfter (items : List Doc)
  | objectStart
  | objectKey (members : List (StringText × Doc))
  | objectColon (members : List (StringText × Doc)) (key : StringText)
  | objectItem (members : List (StringText × Doc)) (key : StringText)
  | objectAfter (members : List (StringText × Doc))

/-- Open containers, innermost first, and the document once it is complete. -/
structure State where
  frames : List Frame
  result : Option Doc

def State.value (s : State) (v : Doc) : Option State :=
  match s.frames, s.result with
  | [], none => some { s with result := some v }
  | .arrayStart :: rest, _ => some { s with frames := .arrayAfter [v] :: rest }
  | .arrayItem items :: rest, _ => some { s with frames := .arrayAfter (v :: items) :: rest }
  | .objectItem members key :: rest, _ =>
    some { s with frames := .objectAfter ((key, v) :: members) :: rest }
  | .objectStart :: rest, _ =>
    match v with
    | .string key => some { s with frames := .objectColon [] key :: rest }
    | _ => none
  | .objectKey members :: rest, _ =>
    match v with
    | .string key => some { s with frames := .objectColon members key :: rest }
    | _ => none
  | _, _ => none

def State.expectsValue (s : State) : Bool :=
  match s.frames, s.result with
  | [], none | .arrayStart :: _, _ | .arrayItem _ :: _, _ | .objectItem _ _ :: _, _ => true
  | _, _ => false

def State.step (s : State) : Symbol → Option State
  | .leaf v => s.value v
  | .openBracket =>
    if s.expectsValue then some { s with frames := .arrayStart :: s.frames } else none
  | .openBrace =>
    if s.expectsValue then some { s with frames := .objectStart :: s.frames } else none
  | .closeBracket =>
    match s.frames with
    | .arrayStart :: rest => { s with frames := rest }.value (.array [])
    | .arrayAfter items :: rest => { s with frames := rest }.value (.array items.reverse)
    | _ => none
  | .closeBrace =>
    match s.frames with
    | .objectStart :: rest => { s with frames := rest }.value (.object [])
    | .objectAfter members :: rest => { s with frames := rest }.value (.object members.reverse)
    | _ => none
  | .comma =>
    match s.frames with
    | .arrayAfter items :: rest => some { s with frames := .arrayItem items :: rest }
    | .objectAfter members :: rest => some { s with frames := .objectKey members :: rest }
    | _ => none
  | .colon =>
    match s.frames with
    | .objectColon members key :: rest => some { s with frames := .objectItem members key :: rest }
    | _ => none

def State.run (s : State) : List Symbol → Option State
  | [] => some s
  | symbol :: rest =>
    match s.step symbol with
    | none => none
    | some t => t.run rest

def readDoc? (cs : List Char) : Option Doc :=
  match symbols? cs with
  | none => none
  | some symbols =>
    match State.run ⟨[], none⟩ symbols with
    | some ⟨[], result⟩ => result
    | _ => none

def read? (text : String) : Option Datum :=
  (readDoc? text.toList).bind (Doc.datum? nestingLimit)

end CookbookAtlas.Json
