import CookbookAtlas.Json.Reader

/-! The lexical side of TOML: blanks, comments, line ends, quoted text and keys. Readers take the
rest of a document and give what they read with what follows. -/
namespace CookbookAtlas.Toml

def isBlank (c : Char) : Bool := c == ' ' || c == '\t'

def skipBlank (cs : List Char) : List Char := cs.dropWhile isBlank

/-- Control characters, which stand nowhere in a document but for tabs and line ends. -/
def isControl (c : Char) : Bool := (decide (c.toNat < 32) && c != '\t') || c.toNat == 127

/-- What follows a comment, if there is one; nothing if it holds a control character. -/
def skipComment : List Char → Option (List Char)
  | '#' :: cs =>
    match cs.dropWhile fun c => !isControl c with
    | [] => some []
    | '\n' :: rest | '\r' :: '\n' :: rest => some ('\n' :: rest)
    | _ => none
  | cs => some cs

/-- What follows a line end; the end of the document ends a line. -/
def lineEnd? : List Char → Option (List Char)
  | [] => some []
  | '\n' :: rest | '\r' :: '\n' :: rest => some rest
  | _ => none

/-- Drops blanks, comments and line ends; `fuel` bounds the number of lines. -/
def skipLines : Nat → List Char → Option (List Char)
  | 0, _ => none
  | fuel + 1, cs =>
    match skipComment (skipBlank cs) with
    | none => none
    | some [] => some []
    | some rest =>
      match lineEnd? rest with
      | some next => skipLines fuel next
      | none => some rest

def scalar? (digits : List Char) : Option Char :=
  match digits.mapM Json.hexValue? with
  | some values =>
    let n := values.foldl (fun n d => n * 16 + d) 0
    if n < 0xD800 ∨ (0xDFFF < n ∧ n < 0x110000) then some (Char.ofNat n) else none
  | none => none

/-- The character of an escape and the number of characters it takes after the backslash. -/
def escape? : List Char → Option (Char × Nat)
  | 'b' :: _ => some ('\x08', 1)
  | 't' :: _ => some ('\t', 1)
  | 'n' :: _ => some ('\n', 1)
  | 'f' :: _ => some ('\x0c', 1)
  | 'r' :: _ => some ('\r', 1)
  | 'e' :: _ => some ('\x1b', 1)
  | '"' :: _ => some ('"', 1)
  | '\\' :: _ => some ('\\', 1)
  | 'x' :: cs => if 2 ≤ cs.length then (scalar? (cs.take 2)).map (·, 3) else none
  | 'u' :: cs => if 4 ≤ cs.length then (scalar? (cs.take 4)).map (·, 5) else none
  | 'U' :: cs => if 8 ≤ cs.length then (scalar? (cs.take 8)).map (·, 9) else none
  | _ => none

/-- A basic string after its opening quote; `done` is held last character first. -/
def basic (done : List Char) : List Char → Option (String × List Char)
  | [] => none
  | c :: cs =>
    if c = '"' then some (String.ofList done.reverse, cs)
    else if c = '\\' then
      match escape? cs with
      | some (d, width) => basic (d :: done) (cs.drop width)
      | none => none
    else if isControl c then none
    else basic (c :: done) cs
termination_by cs => cs.length
decreasing_by
  · simp only [List.length_drop, List.length_cons]; omega
  · simp

def literal (done : List Char) : List Char → Option (String × List Char)
  | [] => none
  | c :: cs =>
    if c = '\'' then some (String.ofList done.reverse, cs)
    else if isControl c then none
    else literal (c :: done) cs

/-- The first line end after opening quotes is no part of the text. -/
def dropFirstLineEnd : List Char → List Char
  | '\n' :: rest | '\r' :: '\n' :: rest => rest
  | cs => cs

/-- Number of characters of a line end at the start of a text. -/
def lineEndWidth : List Char → Nat
  | '\n' :: _ => 1
  | '\r' :: '\n' :: _ => 2
  | _ => 0

/-- Number of characters from a backslash at the end of a line up to the next text, nothing if
something else follows it on the line. -/
def foldWidth? (cs : List Char) : Option Nat :=
  let blanks := (cs.takeWhile isBlank).length
  if lineEndWidth (cs.drop blanks) = 0 then none
  else some (cs.takeWhile fun c => isBlank c || c == '\n' || c == '\r').length

/-- Closing quotes of a text over several lines: up to two more stand for themselves. -/
def closing? (quote : Char) (cs : List Char) : Option (Nat × List Char) :=
  let quotes := (cs.takeWhile (· == quote)).length
  if quotes < 3 then none else
    let extra := min (quotes - 3) 2
    some (extra, cs.drop (extra + 3))

/-- A text over several lines after its opening quotes. In a `basic` one backslashes count. -/
def multiline (quote : Char) (done : List Char) : List Char → Option (String × List Char)
  | [] => none
  | c :: cs =>
    match closing? quote (c :: cs) with
    | some (extra, rest) => some (String.ofList (List.replicate extra quote ++ done).reverse, rest)
    | none =>
      if c = '\\' ∧ quote = '"' then
        match foldWidth? cs, escape? cs with
        | some width, _ => multiline quote done (cs.drop width)
        | none, some (d, width) => multiline quote (d :: done) (cs.drop width)
        | none, none => none
      else if c = '\n' then multiline quote (c :: done) cs
      else if c = '\r' ∧ cs.head? = some '\n' then multiline quote done cs
      else if isControl c then none
      else multiline quote (c :: done) cs
termination_by cs => cs.length
decreasing_by all_goals (simp only [List.length_drop, List.length_cons]; omega)

def quoted? : List Char → Option (String × List Char)
  | '"' :: '"' :: '"' :: cs => multiline '"' [] (dropFirstLineEnd cs)
  | '\'' :: '\'' :: '\'' :: cs => multiline '\'' [] (dropFirstLineEnd cs)
  | '"' :: cs => basic [] cs
  | '\'' :: cs => literal [] cs
  | _ => none

def isBareKey (c : Char) : Bool := Text.isAsciiAlphanumeric c || c == '_' || c == '-'

def keyPart? : List Char → Option (String × List Char)
  | '"' :: cs => basic [] cs
  | '\'' :: cs => literal [] cs
  | cs =>
    let name := cs.takeWhile isBareKey
    if name.isEmpty then none else some (String.ofList name, cs.drop name.length)

/-- The parts of a dotted key, with what follows it and its blanks. -/
def key? : Nat → List Char → Option (List String × List Char)
  | 0, _ => none
  | fuel + 1, cs =>
    match keyPart? (skipBlank cs) with
    | none => none
    | some (part, rest) =>
      match skipBlank rest with
      | '.' :: rest => (key? fuel rest).map fun k => (part :: k.1, k.2)
      | rest => some ([part], rest)

end CookbookAtlas.Toml
