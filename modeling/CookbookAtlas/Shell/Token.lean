import CookbookAtlas.Shell.Basic

/-! Cutting a script into words, redirections and marks. -/
namespace CookbookAtlas.Shell

open Text

inductive Token
  | word (line : Nat) (word : Word)
  /-- A redirection; one of a here-document brings its text. -/
  | redirect (descriptor : Nat) (direction : Direction) (text : Option Word)
  | mark (text : String)
deriving DecidableEq

def isNameChar (c : Char) : Bool := isAsciiAlphanumeric c || c == '_'

def isBackquote (c : Char) : Bool := c.toNat == 96

def isSpecial (c : Char) : Bool := "@*#?$!-".toList.contains c

def isMeta (c : Char) : Bool := " \t\n;&|<>()".toList.contains c

/-- Text up to the bracket that closes one already open, and what follows it. -/
def enclosed (opening closing : Char) (depth : Nat) (quote : Option Char) :
    List Char → Option (List Char × List Char)
  | [] => none
  | '\\' :: c :: cs =>
    if quote = some '\'' then
      let quote := if c = '\'' then none else quote
      (enclosed opening closing depth quote cs).map fun (a, b) => ('\\' :: c :: a, b)
    else (enclosed opening closing depth quote cs).map fun (a, b) => ('\\' :: c :: a, b)
  | c :: cs =>
    let next (depth : Nat) (quote : Option Char) :=
      (enclosed opening closing depth quote cs).map fun (a, b) => (c :: a, b)
    match quote with
    | some q => next depth (if c = q then none else some q)
    | none =>
      if c = '\'' ∨ c = '"' then next depth (some c)
      else if c = opening then next (depth + 1) none
      else if c = closing then
        match depth with
        | 0 => some ([], cs)
        | depth + 1 => next depth none
      else next depth none

def backquoted : List Char → Option (List Char × List Char)
  | [] => none
  | '\\' :: c :: cs =>
    (backquoted cs).map fun (a, b) =>
      (if isBackquote c || c == '\\' || c == '$' then c :: a else '\\' :: c :: a, b)
  | c :: cs =>
    if isBackquote c then some ([], cs) else (backquoted cs).map fun (a, b) => (c :: a, b)

def dollar (quoted : Bool) (cs : List Char) : Piece × List Char :=
  let literal := (Piece.text quoted ['$'], cs)
  match cs with
  | '(' :: '(' :: rest =>
    match enclosed '(' ')' 0 none rest with
    | some (expression, ')' :: rest) => (.number quoted expression, rest)
    | _ => literal
  | '(' :: rest =>
    match enclosed '(' ')' 0 none rest with
    | some (script, rest) => (.output quoted script, rest)
    | none => literal
  | '\x7b' :: rest =>
    match enclosed '\x7b' '\x7d' 0 none rest with
    | some (text, rest) => (.parameter quoted text, rest)
    | none => literal
  | c :: rest =>
    if isAsciiDigit c || isSpecial c then (.parameter quoted [c], rest)
    else if isNameChar c then (.parameter quoted (cs.takeWhile isNameChar), cs.dropWhile isNameChar)
    else literal
  | [] => literal

/-- Pieces between double quotes, up to `stop` if there is one. -/
def quotedPieces (stop : Option Char) : Nat → List Char → Option (List Piece × List Char)
  | 0, _ => none
  | _, [] => if stop.isNone then some ([], []) else none
  | fuel + 1, c :: cs =>
    let go (piece : Piece) (rest : List Char) :=
      (quotedPieces stop fuel rest).map fun (pieces, rest) => (piece :: pieces, rest)
    if some c = stop then some ([], cs)
    else if c = '\\' then
      match cs with
      | '\n' :: rest => quotedPieces stop fuel rest
      | d :: rest =>
        if d == '$' || d == '\\' || isBackquote d || (d == '"' && stop.isSome) then go (.text true [d]) rest
        else go (.text true ['\\', d]) rest
      | [] => go (.text true ['\\']) []
    else if c = '$' then
      let (piece, rest) := dollar true cs
      go piece rest
    else if isBackquote c then
      match backquoted cs with
      | some (script, rest) => go (.output true script) rest
      | none => none
    else go (.text true [c]) cs

/-- Pieces of a word, up to what ends it. Where `whole` is set only the end of the text does. -/
def wordPieces (whole : Bool) : Nat → List Char → Option (List Piece × List Char)
  | 0, _ => none
  | _, [] => some ([], [])
  | fuel + 1, c :: cs =>
    let go (before : List Piece) (rest : List Char) :=
      (wordPieces whole fuel rest).map fun (pieces, rest) => (before ++ pieces, rest)
    if !whole && isMeta c then some ([], c :: cs)
    else if c = '\\' then
      match cs with
      | '\n' :: rest => go [] rest
      | d :: rest => go [.text true [d]] rest
      | [] => go [.text true ['\\']] []
    else if c = '\'' then
      let text := cs.takeWhile (· ≠ '\'')
      if text.length < cs.length then go [.text true text] (cs.drop (text.length + 1)) else none
    else if c = '"' then
      match quotedPieces (some '"') fuel cs with
      | some ([.parameter true ['@']], rest) => go [.parameter true ['@']] rest
      | some (pieces, rest) => go (.text true [] :: pieces) rest
      | none => none
    else if c = '$' then
      let (piece, rest) := dollar false cs
      go [piece] rest
    else if isBackquote c then
      match backquoted cs with
      | some (script, rest) => go [.output false script] rest
      | none => none
    else go [.text false [c]] cs

def wordOf (cs : List Char) : Word :=
  ((wordPieces true (cs.length + 1) cs).map Prod.fst).getD [.text true cs]

def quotedWordOf (cs : List Char) : Word :=
  ((quotedPieces none (cs.length + 1) cs).map Prod.fst).getD [.text true cs]

/-- Lines of a here-document up to its last line, and what follows it. -/
def hereLines (dropTabs : Bool) (last : List Char) :
    List (List Char) → List (List Char) × List (List Char)
  | [] => ([], [])
  | line :: rest =>
    let line := if dropTabs then line.dropWhile (· = '\t') else line
    if line = last then ([], rest)
    else
      let (body, rest) := hereLines dropTabs last rest
      (line :: body, rest)

/-- Takes the text of a here-document out of the script: its word, and the script without it. The
text starts on the line below. -/
def hereText (dropTabs : Bool) (delimiter : Word) (cs : List Char) : Word × List Char :=
  let line := cs.takeWhile (· ≠ '\n')
  let (body, rest) := hereLines dropTabs (unquoted delimiter)
    (splitOnChar '\n' (cs.drop (line.length + 1)))
  let text := body.flatMap (· ++ ['\n'])
  (if delimiter.any Piece.isQuoted then [.text true text] else quotedWordOf text,
    line ++ '\n' :: List.intercalate ['\n'] rest)

def angle? (descriptor : Option Nat) : List Char → Option (Nat × Direction × Bool × List Char)
  | '<' :: '<' :: '-' :: cs => some (descriptor.getD 0, .here, true, cs)
  | '<' :: '<' :: cs => some (descriptor.getD 0, .here, false, cs)
  | '<' :: '&' :: cs => some (descriptor.getD 0, .duplicate, false, cs)
  | '<' :: cs => some (descriptor.getD 0, .read, false, cs)
  | '>' :: '>' :: cs => some (descriptor.getD 1, .append, false, cs)
  | '>' :: '&' :: cs => some (descriptor.getD 1, .duplicate, false, cs)
  | '>' :: '|' :: cs | '>' :: cs => some (descriptor.getD 1, .write, false, cs)
  | _ => none

def redirection? (cs : List Char) : Option (Nat × Direction × Bool × List Char) :=
  match cs with
  | c :: rest => if isAsciiDigit c then angle? (some (c.toNat - '0'.toNat)) rest else angle? none cs
  | [] => none

def markOf? : List Char → Option (String × List Char)
  | '\n' :: cs => some ("\n", cs)
  | ';' :: ';' :: cs => some (";;", cs)
  | ';' :: cs => some (";", cs)
  | '&' :: '&' :: cs => some ("&&", cs)
  | '&' :: cs => some ("&", cs)
  | '|' :: '|' :: cs => some ("||", cs)
  | '|' :: cs => some ("|", cs)
  | '(' :: cs => some ("(", cs)
  | ')' :: cs => some (")", cs)
  | _ => none

def isSpace (c : Char) : Bool := c == ' ' || c == '\t'

def tokensFrom : Nat → Nat → List Char → Option (List Token)
  | 0, _, _ => none
  | _, _, [] => some []
  | fuel + 1, line, c :: cs =>
    if isSpace c then tokensFrom fuel line cs
    else if c = '#' then tokensFrom fuel line (cs.dropWhile (· ≠ '\n'))
    else if c = '\\' ∧ cs.head? = some '\n' then tokensFrom fuel (line + 1) (cs.drop 1)
    else match markOf? (c :: cs) with
    | some (text, rest) =>
      (tokensFrom fuel (if c = '\n' then line + 1 else line) rest).map (.mark text :: ·)
    | none =>
      match redirection? (c :: cs) with
      | some (descriptor, .here, dropTabs, rest) =>
        match wordPieces false (cs.length + 2) (rest.dropWhile isSpace) with
        | some (delimiter, rest) =>
          let (word, rest) := hereText dropTabs delimiter rest
          (tokensFrom fuel line rest).map (.redirect descriptor .here (some word) :: ·)
        | none => none
      | some (descriptor, direction, _, rest) =>
        (tokensFrom fuel line rest).map (.redirect descriptor direction none :: ·)
      | none =>
        match wordPieces false (cs.length + 2) (c :: cs) with
        | some (word, rest) =>
          let below := ((c :: cs).length - rest.length)
          let crossed := ((c :: cs).take below).count '\n'
          (tokensFrom fuel (line + crossed) rest).map (.word line word :: ·)
        | none => none

def tokens? (cs : List Char) : Option (List Token) := tokensFrom (2 * cs.length + 2) 1 cs

end CookbookAtlas.Shell
