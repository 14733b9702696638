import CookbookAtlas.Token.Basic
import CookbookAtlas.Token.Heredoc
import CookbookAtlas.Token.Quoted

/-! The next lexeme of a text: a token, or text that leaves none. A lexeme owns its first
character and a number of characters after it. -/
namespace CookbookAtlas.Token

open Text

structure Lexeme where
  kind : Option Kind
  /-- Characters after the first one. -/
  width : Nat
  heredoc : Option Heredoc := none

namespace Lexeme

def skip (width : Nat) : Lexeme := ⟨none, width, none⟩

def token (kind : Kind) (width : Nat) : Lexeme := ⟨some kind, width, none⟩

end Lexeme

/-- Characters up to and with the line that starts with `=end`. -/
def commentWidth (fresh ending : Bool) (width : Nat) : List Char → Nat
  | [] => width
  | c :: cs =>
    let ending := ending || (fresh && ['=', 'e', 'n', 'd'].isPrefixOf (c :: cs))
    if c = '\n' then
      if ending then width + 1 else commentWidth true false (width + 1) cs
    else commentWidth false ending (width + 1) cs

def isWordChar (c : Char) : Bool := isAlphanumeric c || c == '_'

def wordSigil : List Char → List Char
  | c :: d :: _ =>
    if c = '@' ∨ c = '$' then (if d = '@' then [c, d] else [c]) else []
  | [c] => if c = '@' ∨ c = '$' then [c] else []
  | [] => []

/-- `?` or `!` after a name, unless it starts an operator or a choice. -/
def wordMark : List Char → List Char
  | c :: cs =>
    if c = '?' then
      (if cs.head? = some '=' ∨ cs.head? = some ':' then [] else [c])
    else if c = '!' then (if cs.head? = some '=' then [] else [c])
    else []
  | [] => []

def readWord (cs : List Char) : List Char :=
  let sigil := wordSigil cs
  let rest := cs.drop sigil.length
  let body := rest.takeWhile isWordChar
  sigil ++ body ++ wordMark (rest.drop body.length)

def readNumber : List Char → List Char
  | [] => []
  | c :: cs =>
    if isAsciiAlphanumeric c || c == '_' || (c == '.' && cs.head?.any isAsciiDigit) then
      c :: readNumber cs
    else []

def operators : List String :=
  ["**=", "<=>", "===", "...", "||=", "&&=", "<<=", ">>=", "==", "!=", "=~", "!~", ">=", "<=",
    "&&", "||", "<<", ">>", "**", "+=", "-=", "*=", "/=", "%=", "|=", "&=", "^=", "..", "->",
    "+", "-", "*", "/", "%", "<", ">", "!", "&", "^", "~", "?", ":"]

def comparisons : List String := ["==", "!=", ">=", "<=", "==="]

def operatorKind (op : String) : Kind :=
  if 1 < op.length && op.toList.getLast? == some '=' && !comparisons.contains op then .opAssign op
  else .op op

/-- An operator, or a single character that nothing else claims. -/
def readOperator (c : Char) (cs : List Char) : Lexeme :=
  match operators.find? fun op => op.toList.isPrefixOf (c :: cs) with
  | some op => .token (operatorKind op) (op.length - 1)
  | none => .token (.op (String.ofList [c])) 0

def isPercentLetter (c : Char) : Bool :=
  c == 'w' || c == 'W' || c == 'i' || c == 'I' || c == 'q' || c == 'Q' || c == 'r'

def isPercentMark (c : Char) : Bool :=
  c == '(' || c == '[' || c == '\x7b' || c == '<' || c == '|' || c == '!'

def closingOf : Char → Char
  | '(' => ')'
  | '[' => ']'
  | '\x7b' => '\x7d'
  | '<' => '>'
  | c => c

def percentAhead (last : Option Kind) (cs : List Char) : Bool :=
  (expectsValue last || (last.bind Kind.ident?).isSome) &&
    match cs with
    | c :: d :: _ => if isPercentLetter c then isPercentMark d || d == '/' else isPercentMark c
    | [c] => isPercentMark c
    | [] => false

def flagsWidth (cs : List Char) : Nat := (cs.takeWhile isAsciiAlphabetic).length

def stringKind (b : Body) : Kind := .string (String.ofList b.value) b.interpolated

/-- A `%` literal with the given letter, opened by `mark`; `before` counts the characters
between the `%` and the body. -/
def readPercentBody (letter mark : Char) (before : Nat) (cs : List Char) : Lexeme :=
  let closing := closingOf mark
  let opening := if mark = closing then none else some mark
  let escapes := letter == 'Q' || letter == 'W' || letter == 'I' || letter == 'r'
  let body := readDelimited ⟨opening, closing, escapes⟩ cs
  let width := before + body.width
  if letter = 'r' then
    .token (.regex (String.ofList body.value)) (width + flagsWidth (cs.drop body.width))
  else if letter = 'q' ∨ letter = 'Q' then .token (stringKind body) width
  else .token (.words ((words body.value).map String.ofList)) width

def readPercent : List Char → Lexeme
  | c :: d :: cs =>
    if isPercentLetter c then readPercentBody c d 2 cs else readPercentBody 'Q' c 1 (d :: cs)
  | [c] => readPercentBody 'Q' c 1 []
  | [] => .token (.op "%") 0

def heredocFlag : List Char → List Char
  | c :: _ => if c = '~' ∨ c = '-' then [c] else []
  | [] => []

def heredocAhead (last : Option Kind) (cs : List Char) : Bool :=
  let named := match cs.drop (heredocFlag cs).length with
    | c :: rest =>
      isAsciiUpper c || c == '_' ||
        ((c == '\'' || c == '"') && rest.head?.any fun d => isAsciiAlphabetic d || d == '_')
    | [] => false
  let placed := expectsValue last ||
    match last with
    | some (.ident _) | some (.constant _) => true
    | _ => false
  named && placed

def heredocMark : List Char → List Char
  | c :: _ => if c = '\'' ∨ c = '"' then [c] else []
  | [] => []

/-- The opener of a heredoc, read from the text after `<<`. -/
def readHeredoc (start : Nat) (cs : List Char) : Lexeme :=
  let flag := heredocFlag cs
  let afterFlag := cs.drop flag.length
  let mark := heredocMark afterFlag
  let afterMark := afterFlag.drop mark.length
  let terminator := afterMark.takeWhile isWordChar
  let closed := !mark.isEmpty && (afterMark.drop terminator.length).head? == mark.head?
  let width := 1 + flag.length + mark.length + terminator.length + (if closed then 1 else 0)
  ⟨some (.string "" false), width,
    some ⟨start, terminator, flag == ['~'], flag == ['-'], mark == ['\'']⟩⟩

/-- A word with the text after it: a label, a constant or an identifier. -/
def readName (cs : List Char) : Lexeme :=
  let word := readWord cs
  let rest := cs.drop word.length
  let plain := word.head? != some '@' && word.head? != some '$' && word.getLast? != some '?'
  if rest.head? = some ':' ∧ (rest.drop 1).head? ≠ some ':' ∧ plain then
    .token (.label (String.ofList word)) word.length
  else if word.head?.any isUppercase then .token (.constant (String.ofList word)) (word.length - 1)
  else .token (.ident (String.ofList word)) (word.length - 1)

def readColon (cs : List Char) : Lexeme :=
  match cs with
  | c :: rest =>
    if c = ':' then .token .doubleColon 1
    else if c = '"' ∨ c = '\'' then
      let body := readQuoted c (c == '"') rest
      .token (.symbol (String.ofList body.value)) (1 + body.width)
    else if isAlphabetic c || c == '_' then
      let word := readWord cs
      .token (.symbol (String.ofList word)) word.length
    else readOperator ':' cs
  | [] => readOperator ':' cs

def bracketKind? : Char → Option Kind
  | '(' => some .leftParen
  | ')' => some .rightParen
  | '[' => some .leftBracket
  | ']' => some .rightBracket
  | '\x7b' => some .leftBrace
  | '\x7d' => some .rightBrace
  | ',' => some .comma
  | ';' => some .semicolon
  | _ => none

def readPunctuation (c : Char) (cs : List Char) : Lexeme :=
  match bracketKind? c with
  | some kind => .token kind 0
  | none =>
    let next := cs.head?
    if c = '&' ∧ next = some '.' then .token .safeNavigation 1
    else if c = '.' ∧ next ≠ some '.' then .token .dot 0
    else if c = '=' ∧ next = some '>' then .token .fatArrow 1
    else if c = '=' ∧ next ≠ some '=' ∧ next ≠ some '~' then .token .assign 0
    else if c = '|' ∧ next ≠ some '|' ∧ next ≠ some '=' then .token .pipe 0
    else readOperator c cs

/-- A quotation mark other than the single one opens a literal with escapes. -/
def isRichMark (c : Char) : Bool := c == '"' || c.toNat == 96

/-- The lexeme that starts with `c`, where `last` is the kind of the token before it, `fresh`
says that `c` starts a line, and `start` is the offset of `c`. -/
def readLexeme (last : Option Kind) (fresh : Bool) (start : Nat) (c : Char) (cs : List Char) :
    Lexeme :=
  if fresh && "=begin".toList.isPrefixOf (c :: cs)
    then .skip (commentWidth true false 0 (c :: cs) - 1)
  else if fresh && "__END__".toList.isPrefixOf (c :: cs) then .skip cs.length
  else if c = ' ' ∨ c = '\t' ∨ c = '\r' then .skip 0
  else if c = '\\' ∧ cs.head? = some '\n' then .skip 1
  else if c = '\n' then .token .newline 0
  else if c = '#' then .skip (cs.takeWhile (· != '\n')).length
  else if isRichMark c then
    let body := readQuoted c true cs
    .token (stringKind body) body.width
  else if c = '\'' then
    let body := readQuoted c false cs
    .token (.string (String.ofList body.value) false) body.width
  else if c = '%' ∧ percentAhead last cs then readPercent cs
  else if c = '<' ∧ cs.head? = some '<' ∧ heredocAhead last (cs.drop 1)
    then readHeredoc start (cs.drop 1)
  else if c = '/' ∧ expectsValue last then
    let body := readQuoted c true cs
    .token (.regex (String.ofList body.value)) (body.width + flagsWidth (cs.drop body.width))
  else if c = ':' then readColon cs
  else if isAsciiDigit c then
    let number := readNumber (c :: cs)
    .token (.number (String.ofList number)) (number.length - 1)
  else if isAlphabetic c || c == '_' || c == '@' || c == '$' then readName (c :: cs)
  else readPunctuation c cs

end CookbookAtlas.Token
