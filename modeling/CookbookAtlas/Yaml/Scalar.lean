import CookbookAtlas.Json.Reader
import CookbookAtlas.Text.Basic
import CookbookAtlas.Yaml.Token

/-! Scalars: quoted, plain, and block. A scalar may go over several lines; single line breaks in
it become blanks. -/
namespace CookbookAtlas.Yaml

structure Gap where
  blanks : List Char
  first : List Char
  more : List Char
  crossed : Bool
deriving DecidableEq

namespace Gap

def none : Gap := ⟨[], [], [], false⟩

def text (g : Gap) : List Char :=
  if g.crossed then
    if g.first.head? = some '\n' then (if g.more.isEmpty then [' '] else g.more)
    else g.first ++ g.more
  else g.blanks

end Gap

/-- Reads a gap. Tabs may not stand for indentation up to `indent`. -/
def readGap (indent : Nat) : Nat → Gap → Cursor → Option (Gap × Cursor)
  | 0, _, _ => none
  | fuel + 1, g, c =>
    if c.atBlank then
      if g.crossed && decide (c.column < indent) && c.sees '\t' then none
      else readGap indent fuel (if g.crossed then g
        else { g with blanks := g.blanks ++ c.rest.take 1 }) c.skip
    else if c.atBreak then
      readGap indent fuel
        (if g.crossed then { g with more := g.more ++ c.lineText }
          else ⟨[], c.lineText, g.more, true⟩) c.skipLine
    else some (g, c)

def hexNumber? (cs : List Char) : Option Nat :=
  if cs.all fun c => (Json.hexValue? c).isSome then
    some (cs.foldl (fun n c => n * 16 + (Json.hexValue? c).getD 0) 0)
  else none

def codeChar? (n : Nat) : Option Char :=
  if (0xD800 ≤ n ∧ n ≤ 0xDFFF) ∨ 0x10FFFF < n then none else some (Char.ofNat n)

/-- The character that an escape stands for, and the length of the escape. -/
def escape? : List Char → Option (Char × Nat)
  | '0' :: _ => some ('\x00', 1)
  | 'a' :: _ => some ('\x07', 1)
  | 'b' :: _ => some ('\x08', 1)
  | 't' :: _ | '\t' :: _ => some ('\t', 1)
  | 'n' :: _ => some ('\n', 1)
  | 'v' :: _ => some ('\x0b', 1)
  | 'f' :: _ => some ('\x0c', 1)
  | 'r' :: _ => some ('\r', 1)
  | 'e' :: _ => some ('\x1b', 1)
  | ' ' :: _ => some (' ', 1)
  | '"' :: _ => some ('"', 1)
  | '/' :: _ => some ('/', 1)
  | '\\' :: _ => some ('\\', 1)
  | 'N' :: _ => some ('\u0085', 1)
  | '_' :: _ => some ('\u00a0', 1)
  | 'L' :: _ => some ('\u2028', 1)
  | 'P' :: _ => some ('\u2029', 1)
  | 'x' :: cs => coded 2 cs
  | 'u' :: cs => coded 4 cs
  | 'U' :: cs => coded 8 cs
  | _ => none
where
  coded (width : Nat) (cs : List Char) : Option (Char × Nat) :=
    let digits := cs.take width
    if digits.length = width then
      ((hexNumber? digits).bind codeChar?).map fun c => (c, width + 1)
    else none

/-- The text after an opening quote, and the place after the closing one. -/
def readQuoted (single : Bool) : Nat → Cursor → List Char → Option (List Char × Cursor)
  | 0, _, _ => none
  | fuel + 1, c, acc =>
    if c.atAnyMarker then none
    else match c.rest with
      | [] => none
      | d :: rest =>
        if single && d == '\'' && rest.head? == some '\'' then
          readQuoted single fuel (c.advance 2) (acc ++ ['\''])
        else if d = (if single then '\'' else '"') then some (acc, c.skip)
        else if !single && d == '\\' then
          if rest.head?.any isBreak then
            match readGap 0 (rest.length + 1) { Gap.none with crossed := true } c.skip.skipLine with
            | some (g, c) => readQuoted single fuel c (acc ++ g.text)
            | none => none
          else match escape? rest with
            | some (e, width) => readQuoted single fuel (c.advance (width + 1)) (acc ++ [e])
            | none => none
        else if isBlank d || isBreak d then
          match readGap 0 (rest.length + 2) Gap.none c with
          | some (g, c) => readQuoted single fuel c (acc ++ g.text)
          | none => none
        else readQuoted single fuel c.skip (acc ++ [d])

def isFlowIndicator (c : Char) : Bool :=
  c == ',' || c == '[' || c == ']' || c == '\x7b' || c == '\x7d'

/-- Characters up to a gap or an indicator that ends a plain scalar, nothing for a colon that may
not stand in a flow collection. -/
def plainRun (flow : Bool) : List Char → Option (List Char)
  | [] => some []
  | c :: cs =>
    if isBlank c || isBreak c then some []
    else if flow && c == ':' && cs.head?.any fun d => isFlowIndicator d || d == '?' then none
    else if c == ':' && (cs.head?.all fun d => isBlank d || isBreak d) then some []
    else if flow && isFlowIndicator c then some []
    else (plainRun flow cs).map (c :: ·)

/-- The text of a plain scalar, the place after it, and whether a line ended right before that. -/
def readPlain (flow : Bool) (indent : Nat) : Nat → Gap → Cursor → List Char →
    Option (List Char × Cursor × Bool)
  | 0, _, _, _ => none
  | fuel + 1, g, c, acc =>
    if c.atAnyMarker || c.sees '#' then some (acc, c, g.crossed)
    else match plainRun flow c.rest with
      | none => none
      | some run =>
        let acc := if run.isEmpty then acc else acc ++ g.text ++ run
        let g := if run.isEmpty then g else Gap.none
        let c := c.advance run.length
        if c.atBlank || c.atBreak then
          match readGap indent (c.rest.length + 1) g c with
          | some (g, c) =>
            if !flow && decide (c.column < indent) then some (acc, c, g.crossed)
            else readPlain flow indent fuel g c acc
          | none => none
        else some (acc, c, g.crossed)

inductive Chomp
  | strip
  | clip
  | keep
deriving DecidableEq

/-- The header after `|` or `>`: chomping, indentation (zero if not given), and the rest. -/
def blockHeader? (cs : List Char) : Option (Chomp × Nat × List Char) :=
  let chomp? : List Char → Option (Chomp × List Char)
    | '+' :: rest => some (.keep, rest)
    | '-' :: rest => some (.strip, rest)
    | _ => none
  let digit? : List Char → Option (Nat × List Char)
    | c :: rest => if Text.isAsciiDigit c then some (c.toNat - '0'.toNat, rest) else none
    | [] => none
  match chomp? cs with
  | some (chomp, rest) =>
    match digit? rest with
    | some (0, _) => none
    | some (n, rest) => some (chomp, n, rest)
    | none => some (chomp, 0, rest)
  | none =>
    match digit? cs with
    | some (0, _) => none
    | some (n, rest) =>
      match chomp? rest with
      | some (chomp, rest) => some (chomp, n, rest)
      | none => some (.clip, n, rest)
    | none => some (.clip, 0, cs)

/-- Blank lines of a block scalar whose indentation is `indent`, or is found here if that is zero:
their breaks, the indentation, and the place of the next line's text. -/
def blockBreaks (least indent : Nat) :
    Nat → Nat → List Char → Cursor → Option (List Char × Nat × Cursor)
  | 0, _, _, _ => none
  | fuel + 1, widest, breaks, c =>
    let spaces := (c.rest.takeWhile (· = ' ')).length
    let c := c.advance (if indent = 0 then spaces else min spaces (indent - c.column))
    let widest := max widest c.column
    if (decide (indent = 0) || decide (c.column < indent)) && c.sees '\t' then none
    else if c.atBreak then blockBreaks least indent fuel widest (breaks ++ c.lineText) c.skipLine
    else some (breaks, if indent = 0 then max widest least else indent, c)

/-- Lines of a block scalar. `lead` is the break before the next line and `breaks` those of the
blank lines after it. -/
def blockLines (literal : Bool) (indent : Nat) : Nat → Cursor → (acc lead breaks : List Char) →
    (blankBefore : Bool) → Option (List Char × List Char × List Char × Cursor)
  | 0, _, _, _, _, _ => none
  | fuel + 1, c, acc, lead, breaks, blankBefore =>
    if c.column = indent ∧ !c.atEnd then
      let blank := c.atBlank
      let joint := if !literal && lead.head? == some '\n' && !blankBefore && !blank then
          (if breaks.isEmpty then [' '] else [])
        else lead
      let line := c.rest.takeWhile fun d => !isBreak d
      let next := c.advance line.length
      match blockBreaks 1 indent (next.rest.length + 1) 0 [] next.skipLine with
      | some (more, _, after) =>
        blockLines literal indent fuel after (acc ++ joint ++ breaks ++ line) next.lineText more blank
      | none => none
    else some (acc, lead, breaks, c)

def readBlock (literal : Bool) (parent : Int) (c : Cursor) : Option (List Char × Cursor) :=
  match blockHeader? c.rest with
  | none => none
  | some (chomp, increment, rest) =>
    let c := (c.advance (c.rest.length - rest.length)).skipBlanks
    let c := if c.sees '#' then c.toLineEnd else c
    if !c.atEnd && !c.atBreak then none
    else
      let c := c.skipLine
      let least := (max (parent + 1) 1).toNat
      let indent := if increment = 0 then 0 else (max parent 0).toNat + increment
      match blockBreaks least indent (c.rest.length + 1) 0 [] c with
      | none => none
      | some (breaks, indent, c) =>
        match blockLines literal indent (c.rest.length + 1) c [] [] breaks false with
        | none => none
        | some (text, lead, breaks, c) =>
          let tail := match chomp with
            | .strip => []
            | .clip => lead
            | .keep => lead ++ breaks
          some (text ++ tail, c)

end CookbookAtlas.Yaml
