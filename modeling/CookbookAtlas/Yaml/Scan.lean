import CookbookAtlas.Yaml.Scalar

/-! Cutting a YAML stream into tokens. A key is seen for one only at the colon after it, so the
scanner remembers where one may have started and inserts the tokens before it. -/
namespace CookbookAtlas.Yaml

/-- A place where a key may have started. -/
structure KeyStart where
  possible : Bool
  /-- Something has to be a key here. -/
  required : Bool
  number : Nat
  index : Nat
  line : Nat
  column : Nat
deriving DecidableEq

def KeyStart.none : KeyStart := ⟨false, false, 0, 0, 0, 0⟩

structure Scanner where
  cursor : Cursor
  tokens : Array Token
  /-- Column of the innermost block, -1 outside all of them. -/
  indent : Int
  indents : List Int
  /-- One possible key for each open flow collection and one for the block around them. -/
  keys : List KeyStart
  flow : Nat
  keyAllowed : Bool

namespace Scanner

/-- A byte order mark in front is skipped, but takes up its column. -/
def start (cs : List Char) : Scanner :=
  let mark := if cs.head?.any (·.toNat == 0xFEFF) then 1 else 0
  ⟨(Cursor.start cs).advance mark, #[], -1, [], [.none], 0, true⟩

def add (s : Scanner) (t : Token) : Scanner := { s with tokens := s.tokens.push t }

def insertAt (s : Scanner) (n : Nat) (t : Token) : Scanner :=
  { s with tokens := s.tokens.insertIdxIfInBounds n t }

def inFlow (s : Scanner) : Bool := decide (0 < s.flow)

/-- Skips blanks, comments and line breaks. A tab is no blank where a key may start. -/
def skipSpace : Nat → Scanner → Scanner
  | 0, s => s
  | fuel + 1, s =>
    let blanks := s.cursor.rest.takeWhile fun d => d == ' ' ||
      ((s.inFlow || !s.keyAllowed) && d == '\t')
    let c := s.cursor.advance blanks.length
    let c := if c.sees '#' then c.toLineEnd else c
    if c.atBreak then
      skipSpace fuel { s with cursor := c.skipLine, keyAllowed := s.keyAllowed || !s.inFlow }
    else { s with cursor := c }

/-- Gives up keys that have not been seen for one on their line or within 1024 characters. -/
def dropStale (s : Scanner) : Option Scanner :=
  let stale (k : KeyStart) : Bool :=
    k.possible && (decide (k.line < s.cursor.line) || decide (k.index + 1024 < s.cursor.index))
  if s.keys.any fun k => stale k && k.required then none
  else some { s with keys := s.keys.map fun k => if stale k then { k with possible := false }
    else k }

def unroll (s : Scanner) (column : Int) : Scanner :=
  if s.inFlow then s else close s s.indents
where
  close (s : Scanner) : List Int → Scanner
    | [] => s
    | outer :: rest =>
      if s.indent > column then close { s.add .blockEnd with indent := outer, indents := rest } rest
      else s

/-- Opens a block at a column that is indented more than the innermost; its token goes before the
token `number` if that is given. -/
def roll (s : Scanner) (column : Nat) (number : Option Nat) (t : Token) : Scanner :=
  if !s.inFlow && decide (s.indent < column) then
    let s := match number with
      | some n => s.insertAt n t
      | none => s.add t
    { s with indents := s.indent :: s.indents, indent := column }
  else s

def removeKey (s : Scanner) : Option Scanner :=
  match s.keys with
  | [] => some s
  | k :: rest =>
    if k.possible && k.required then none
    else some { s with keys := { k with possible := false } :: rest }

def saveKey (s : Scanner) : Option Scanner :=
  if s.keyAllowed then
    s.removeKey.map fun s =>
      let k : KeyStart := ⟨true, !s.inFlow && s.indent == s.cursor.column, s.tokens.size,
        s.cursor.index, s.cursor.line, s.cursor.column⟩
      { s with keys := k :: s.keys.tail }
  else some s

def allow (s : Scanner) (allowed : Bool) : Scanner := { s with keyAllowed := allowed }

def take (s : Scanner) (n : Nat) (t : Token) : Scanner :=
  { s.add t with cursor := s.cursor.advance n }

def openFlow (s : Scanner) (t : Token) : Option Scanner :=
  s.saveKey.map fun s => ({ s with keys := .none :: s.keys, flow := s.flow + 1 }.allow true).take 1 t

def closeFlow (s : Scanner) (t : Token) : Option Scanner :=
  s.removeKey.map fun s =>
    let s := if s.inFlow then { s with flow := s.flow - 1, keys := s.keys.tail } else s
    (s.allow false).take 1 t

def blockEntry (s : Scanner) : Option Scanner :=
  if !s.inFlow && !s.keyAllowed then none
  else (s.roll s.cursor.column none .blockSequenceStart).removeKey.map fun s =>
    (s.allow true).take 1 .blockEntry

def explicitKey (s : Scanner) : Option Scanner :=
  if !s.inFlow && !s.keyAllowed then none
  else (s.roll s.cursor.column none .blockMappingStart).removeKey.map fun s =>
    (s.allow (!s.inFlow)).take 1 .key

def valueMark (s : Scanner) : Option Scanner :=
  match s.keys with
  | k :: rest =>
    if k.possible then
      let s := (s.insertAt k.number .key).roll k.column (some k.number) .blockMappingStart
      some (({ s with keys := { k with possible := false } :: rest }.allow false).take 1 .value)
    else withoutKey s
  | [] => withoutKey s
where
  withoutKey (s : Scanner) : Option Scanner :=
    if !s.inFlow && !s.keyAllowed then none
    else some (((s.roll s.cursor.column none .blockMappingStart).allow (!s.inFlow)).take 1 .value)

/-- A marker or a directive starts at the margin and closes every block. -/
def atMargin (s : Scanner) : Option Scanner := (s.unroll (-1)).removeKey.map fun s => s.allow false

def isWordChar (c : Char) : Bool := Text.isAsciiAlphanumeric c || c == '_' || c == '-'

def endsName (c : Char) : Bool := "?:,]\x7d%@".toList.contains c || c.toNat == 96

def name? (s : Scanner) : Option (List Char) :=
  let name := (s.cursor.rest.drop 1).takeWhile isWordChar
  let after := s.cursor.rest.drop (name.length + 1)
  if !name.isEmpty && (after.head?.all fun c => isBlank c || isBreak c || endsName c) then some name
  else none

def anchorOrAlias (s : Scanner) (t : List Char → Token) : Option Scanner :=
  s.saveKey.bind fun s => s.name?.map fun name => (s.allow false).take (name.length + 1) (t name)

def isUriChar (c : Char) : Bool := isWordChar c || ";/?:@&=+$.!~*'()%".toList.contains c

def tagParts? (cs : List Char) : Option (List Char × List Char × Nat) :=
  match cs with
  | '!' :: '<' :: rest =>
    let uri := rest.takeWhile fun c => isUriChar c || c == ',' || c == '[' || c == ']'
    if !uri.isEmpty && (rest.drop uri.length).head? == some '>' then some ([], uri, uri.length + 3)
      else none
  | '!' :: rest =>
    let word := rest.takeWhile isWordChar
    if (rest.drop word.length).head? == some '!' then
      let suffix := (rest.drop (word.length + 1)).takeWhile isUriChar
      if suffix.isEmpty then none else some ('!' :: word ++ ['!'], suffix,
        word.length + 2 + suffix.length)
    else
      let suffix := rest.takeWhile isUriChar
      some (['!'], suffix, suffix.length + 1)
  | _ => none

def tagToken (s : Scanner) : Option Scanner :=
  s.saveKey.bind fun s =>
    match tagParts? s.cursor.rest with
    | some (handle, suffix, n) =>
      let ended := s.cursor.gapAt n || (s.inFlow && (s.cursor.rest.drop n).head? == some ',')
      if ended then some ((s.allow false).take n (.tag handle suffix)) else none
    | none => none

def directive (s : Scanner) : Option Scanner :=
  s.atMargin.bind fun s =>
    let line := (s.cursor.rest.drop 1).takeWhile fun c => !isBreak c
    let words := (Text.words line).takeWhile fun w => w.head? != some '#'
    let after := { s with cursor := s.cursor.toLineEnd }
    match words with
    | [['Y', 'A', 'M', 'L'], version] =>
      match Text.splitOnChar '.' version with
      | [major, minor] =>
        if !major.isEmpty && !minor.isEmpty && (major ++ minor).all Text.isAsciiDigit then
          some (after.add (.versionDirective major minor))
        else none
      | _ => none
    | [['T', 'A', 'G'], handle, lead] =>
      if handle.head? == some '!' && handle.getLast? == some '!'
        then some (after.add (.tagDirective handle lead))
      else none
    | _ => none

def quoted (s : Scanner) (single : Bool) : Option Scanner :=
  s.saveKey.bind fun s =>
    (readQuoted single (s.cursor.rest.length + 1) s.cursor.skip []).map fun (text, c) =>
      { (s.allow false).add (.scalar text false) with cursor := c }

def plain (s : Scanner) : Option Scanner :=
  s.saveKey.bind fun s =>
    (readPlain s.inFlow (s.indent + 1).toNat (s.cursor.rest.length + 1) .none s.cursor []).map
      fun (text, c, crossed) => { (s.allow crossed).add (.scalar text true) with cursor := c }

def block (s : Scanner) (literal : Bool) : Option Scanner :=
  s.removeKey.bind fun s =>
    (readBlock literal s.indent s.cursor.skip).map fun (text, c) =>
      { (s.allow true).add (.scalar text false) with cursor := c }

def startsPlain (s : Scanner) (c : Char) : Bool :=
  let indicator := "-?:,[]\x7b\x7d#&*!|>'\"%@".toList.contains c || c.toNat == 96
  !(isBlank c || isBreak c || indicator) ||
    (c == '-' && !(s.cursor.rest.drop 1).head?.any isBlank) ||
    (!s.inFlow && (c == '?' || c == ':') && !s.cursor.gapAt 1)

def finish (s : Scanner) : Option Scanner :=
  (s.unroll (-1)).removeKey.map fun s => (s.allow false).add .streamEnd

def fetch (s : Scanner) (c : Char) : Option Scanner :=
  let gap := s.cursor.gapAt 1
  if s.cursor.column == 0 && c == '%' then s.directive
  else if s.cursor.atMarker '-' then s.atMargin.map fun s => s.take 3 .documentStart
  else if s.cursor.atMarker '.' then s.atMargin.map fun s => s.take 3 .documentEnd
  else match c with
    | '[' => s.openFlow .flowSequenceStart
    | '\x7b' => s.openFlow .flowMappingStart
    | ']' => s.closeFlow .flowSequenceEnd
    | '\x7d' => s.closeFlow .flowMappingEnd
    | ',' => s.removeKey.map fun s => (s.allow true).take 1 .flowEntry
    | '*' => s.anchorOrAlias .alias
    | '&' => s.anchorOrAlias .anchor
    | '!' => s.tagToken
    | '\'' => s.quoted true
    | '"' => s.quoted false
    | c =>
      if c == '-' && gap then s.blockEntry
      else if c == '?' && (s.inFlow || gap) then s.explicitKey
      else if c == ':' && (s.inFlow || gap) then s.valueMark
      else if (c == '|' || c == '>') && !s.inFlow then s.block (c == '|')
      else if s.startsPlain c then s.plain
      else none

def loop : Nat → Scanner → Option (List Token)
  | 0, _ => none
  | fuel + 1, s =>
    match (skipSpace (s.cursor.rest.length + 1) s).dropStale with
    | none => none
    | some s =>
      let s := s.unroll s.cursor.column
      match s.cursor.rest with
      | [] => s.finish.map fun s => s.tokens.toList
      | c :: _ =>
        match s.fetch c with
        | some s => loop fuel s
        | none => none

end Scanner

def isPrintable (c : Char) : Bool :=
  let n := c.toNat
  c == '\t' || c == '\n' || c == '\r' || n == 0x85 ||
    (decide (0x20 ≤ n) && decide (n ≤ 0x7E)) || (decide (0xA0 ≤ n) && decide (n ≤ 0xD7FF)) ||
    (decide (0xE000 ≤ n) && decide (n ≤ 0xFFFD)) || decide (0x10000 ≤ n)

def tokens? (cs : List Char) : Option (List Token) :=
  if cs.all isPrintable then Scanner.loop (cs.length + 2) (.start cs) else none

end CookbookAtlas.Yaml
