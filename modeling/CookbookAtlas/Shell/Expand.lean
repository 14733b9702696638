import CookbookAtlas.Shell.Machine
import CookbookAtlas.Shell.Token

/-! Fields of a command: splitting at blanks, and patterns matched with files. -/
namespace CookbookAtlas.Shell

open Text

structure Splitting where
  done : List (List Mark)
  current : Option (List Mark)

namespace Splitting

def start : Splitting := ⟨[], none⟩

def close (s : Splitting) : Splitting :=
  match s.current with
  | some field => ⟨s.done ++ [field], none⟩
  | none => s

def add (s : Splitting) (marks : List Mark) : Splitting :=
  { s with current := some (s.current.getD [] ++ marks) }

def addSplit (s : Splitting) : List Char → Splitting
  | [] => s
  | c :: cs =>
    if c == ' ' || c == '\t' || c == '\n' then addSplit s.close cs else addSplit (s.add [(false, c)]) cs

def addApart (s : Splitting) : List String → Splitting
  | [] => s
  | [v] => s.add (v.toList.map fun c => (true, c))
  | v :: vs => addApart (s.add (v.toList.map fun c => (true, c))).close vs

def addText (s : Splitting) (quoted split : Bool) (cs : List Char) : Splitting :=
  if quoted then s.add (cs.map fun c => (true, c))
  else if split then s.addSplit cs
  else s.add (cs.map fun c => (false, c))

def fields (s : Splitting) : List (List Mark) := s.close.done

def joined (s : Splitting) : List Mark := List.intercalate [(false, ' ')] s.fields

end Splitting

def slashed : List Mark → List (List Mark)
  | [] => [[]]
  | (q, c) :: marks =>
    match slashed marks with
    | part :: parts => if c = '/' then [] :: part :: parts else ((q, c) :: part) :: parts
    | [] => [[(q, c)]]

def matching (w : World) (base : List Char) (part : List Mark) : List (List Char) :=
  if isWild part then
    let dir : Path := ⟨if base.isEmpty then "." else String.ofList base⟩
    (((w.names dir).toOption.getD []).map String.toList).filter fun name =>
      fits part name && (name.head? != some '.' || part.head?.map Prod.snd == some '.')
  else
    let name := markText part
    let path := base ++ name
    if name.isEmpty || w.has ⟨String.ofList path⟩ then [name] else []

def pathsFrom (w : World) (base : List Char) : List (List Mark) → List (List Char)
  | [] => [base]
  | [part] => (matching w base part).map (base ++ ·)
  | part :: parts =>
    (matching w base part).flatMap fun name => pathsFrom w (base ++ name ++ ['/']) parts

def globbed (w : World) (field : List Mark) : List String :=
  let literal := [String.ofList (markText field)]
  if isWild field then
    match pathsFrom w [] (slashed field) with
    | [] => literal
    | paths => paths.map String.ofList
  else literal

/-- What is done with the value of a parameter, by what stands after its name. -/
inductive Change
  | keep
  | length
  /-- `-`, `=`, `+` and `?`; with a colon an empty value counts as none. -/
  | fallback (blankToo : Bool) (action : Char) (word : List Char)
  | cut (atEnd longest : Bool) (pattern : List Char)
deriving DecidableEq

def changeOf : List Char → Change
  | ':' :: c :: word => .fallback true c word
  | '%' :: '%' :: p => .cut true true p
  | '%' :: p => .cut true false p
  | '#' :: '#' :: p => .cut false true p
  | '#' :: p => .cut false false p
  | c :: word => .fallback false c word
  | [] => .keep

def parameterParts : List Char → List Char × Change
  | ['#'] => (['#'], .keep)
  | '#' :: name => (name, .length)
  | c :: rest =>
    if isSpecial c then ([c], changeOf rest)
    else if isAsciiDigit c then
      ((c :: rest).takeWhile isAsciiDigit, changeOf ((c :: rest).dropWhile isAsciiDigit))
    else ((c :: rest).takeWhile isNameChar, changeOf ((c :: rest).dropWhile isNameChar))
  | [] => ([], .keep)

/-- A value without the part at one end that matches a pattern. -/
def cutValue (atEnd longest : Bool) (pattern : List Mark) (value : List Char) : List Char :=
  let sizes := List.range (value.length + 1)
  let sizes := if longest then sizes.reverse else sizes
  match sizes.find? fun n =>
      fits pattern (if atEnd then value.drop (value.length - n) else value.take n) with
  | some n => if atEnd then value.take (value.length - n) else value.drop n
  | none => value

inductive Symbol
  | number (n : Int)
  | sign (text : String)
deriving DecidableEq

def twoSigns : List String := ["==", "!=", "<=", ">=", "&&", "||"]

def symbols (m : Machine) : Nat → List Char → List Symbol
  | 0, _ | _, [] => []
  | fuel + 1, c :: cs =>
    if isAsciiDigit c then
      let digits := (c :: cs).takeWhile isAsciiDigit
      .number (((String.ofList digits).toNat?).getD 0) :: symbols m fuel (cs.drop (digits.length - 1))
    else if isNameChar c then
      let name := (c :: cs).takeWhile isNameChar
      .number (((m.get? (String.ofList name)).bind String.toInt?).getD 0) ::
        symbols m fuel (cs.drop (name.length - 1))
    else if isBlank c || c == '$' then symbols m fuel cs
    else
      let pair := String.ofList (c :: cs.take 1)
      if twoSigns.contains pair then .sign pair :: symbols m fuel (cs.drop 1)
      else .sign (String.ofList [c]) :: symbols m fuel cs

def rank : String → Option Nat
  | "||" => some 1
  | "&&" => some 2
  | "==" | "!=" => some 3
  | "<" | ">" | "<=" | ">=" => some 4
  | "+" | "-" => some 5
  | "*" | "/" | "%" => some 6
  | _ => none

def truth (b : Bool) : Int := if b then 1 else 0

def combine (sign : String) (a b : Int) : Int :=
  match sign with
  | "+" => a + b
  | "-" => a - b
  | "*" => a * b
  | "/" => a.tdiv b
  | "%" => a.tmod b
  | "==" => truth (a == b)
  | "!=" => truth (a != b)
  | "<" => truth (a < b)
  | ">" => truth (a > b)
  | "<=" => truth (a ≤ b)
  | ">=" => truth (a ≥ b)
  | "&&" => truth (a != 0 && b != 0)
  | _ => truth (a != 0 || b != 0)

mutual

def operand : Nat → List Symbol → Int × List Symbol
  | 0, ss => (0, ss)
  | _, .number n :: ss => (n, ss)
  | fuel + 1, .sign "-" :: ss =>
    let (n, ss) := operand fuel ss
    (-n, ss)
  | fuel + 1, .sign "!" :: ss =>
    let (n, ss) := operand fuel ss
    (truth (n == 0), ss)
  | fuel + 1, .sign "(" :: ss =>
    let (n, ss) := climb fuel 0 ss
    (n, ss.drop 1)
  | _, ss => (0, ss)

/-- The value of operands joined by signs of at least rank `least`. -/
def climb : Nat → Nat → List Symbol → Int × List Symbol
  | 0, _, ss => (0, ss)
  | fuel + 1, least, ss =>
    let (a, ss) := operand fuel ss
    climbRest fuel least a ss

def climbRest : Nat → Nat → Int → List Symbol → Int × List Symbol
  | 0, _, a, ss => (a, ss)
  | fuel + 1, least, a, .sign text :: ss =>
    match rank text with
    | some r =>
      if least ≤ r then
        let (b, rest) := climb fuel (r + 1) ss
        climbRest fuel least (combine text a b) rest
      else (a, .sign text :: ss)
    | none => (a, .sign text :: ss)
  | _, _, a, ss => (a, ss)

end

def calculate (m : Machine) (expression : List Char) : Int :=
  let ss := symbols m (expression.length + 1) expression
  (climb (4 * ss.length + 4) 0 ss).1

end CookbookAtlas.Shell
