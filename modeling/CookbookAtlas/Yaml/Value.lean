import CookbookAtlas.Toml.Scalar
import CookbookAtlas.Yaml.Node

/-! What a YAML document stands for. Plain scalars are read as null, booleans and numbers where
they look like one; keys are always text. -/
namespace CookbookAtlas.Yaml

def isNull (text : String) : Bool := ["null", "Null", "NULL", "~"].contains text

def bool? (text : String) : Option Bool :=
  if ["true", "True", "TRUE"].contains text then some true
  else if ["false", "False", "FALSE"].contains text then some false
  else none

def digitsOf? (base : Nat) (cs : List Char) : Option Nat :=
  if !cs.isEmpty && cs.all fun c => (Json.hexValue? c).any (· < base) then
    some (cs.foldl (fun n c => n * base + (Json.hexValue? c).getD 0) 0)
  else none

/-- A number without its sign: in hexadecimal, octal, binary or decimal digits. More than one
digit with a zero in front is no number. -/
def magnitude? (cs : List Char) : Option Nat :=
  match cs with
  | '0' :: 'x' :: rest => digitsOf? 16 rest
  | '0' :: 'o' :: rest => digitsOf? 8 rest
  | '0' :: 'b' :: rest => digitsOf? 2 rest
  | '0' :: _ :: _ => none
  | cs => digitsOf? 10 cs

def int? (cs : List Char) : Option Int :=
  let (negative, body) := match cs with
    | '+' :: rest => (false, rest)
    | '-' :: rest => (true, rest)
    | cs => (false, cs)
  match magnitude? body with
  | some n =>
    if negative then (if n ≤ Nat.pow 2 127 then some (-(n : Int)) else none)
    else if n < Nat.pow 2 128 then some n
    else none
  | none => none

def isInfinite (cs : List Char) : Bool := [".inf", ".Inf", ".INF"].contains (String.ofList cs)

/-- A decimal number as text of sign, digits, and exponent of ten. -/
def decimal? (cs : List Char) : Option (Bool × List Char × Int) :=
  let (negative, body) := Toml.splitSign cs
  let number := body.takeWhile fun c => c != 'e' && c != 'E'
  let exponent := match body.drop number.length with
    | [] => some 0
    | _ :: rest =>
      let (down, digits) := Toml.splitSign rest
      (digitsOf? 10 digits).map fun n => if down then -(n : Int) else (n : Int)
  let whole := number.takeWhile (· ≠ '.')
  let fraction := number.drop (whole.length + 1)
  let digits := whole ++ fraction
  match exponent with
  | some e =>
    if !digits.isEmpty && digits.all Text.isAsciiDigit
      then some (negative, digits, e - fraction.length) else none
  | none => none

def float? (cs : List Char) : Option Datum :=
  let unsigned := match cs with
    | '+' :: rest => rest
    | cs => cs
  if cs.head? == some '+' && unsigned.head?.any (fun c => c == '+' || c == '-') then none
  else if isInfinite unsigned || (cs.head? == some '-' && isInfinite cs.tail) ||
      [".nan", ".NaN", ".NAN"].contains (String.ofList cs) then some .null
  else match decimal? unsigned with
    | some (negative, digits, e) =>
      let x := Decimal.nearest digits e
      if x.isFinite then some (.number (.float (if negative then -x else x).toBits)) else none
    | none => none

def isNumbered (cs : List Char) : Bool :=
  let body := (Toml.splitSign cs).2
  decide (1 < body.length) && body.head? == some '0' && body.tail.all Text.isAsciiDigit

def intDatum? (n : Int) : Option Datum :=
  if Number.leastInt ≤ n ∧ n ≤ Number.greatestUnsigned then some (.number (.int n)) else none

/-- A plain scalar; integers wider than data may have are refused. -/
def plainValue? (cs : List Char) : Option Datum :=
  let text := String.ofList cs
  if cs.isEmpty || isNull text then some .null
  else match bool? text with
    | some b => some (.bool b)
    | none =>
      match int? cs with
      | some n => intDatum? n
      | none =>
        if isNumbered cs then some (.string text)
        else some ((float? cs).getD (.string text))

def core (name : String) : List Char := ("tag:yaml.org,2002:" ++ name).toList

/-- A scalar by its tag. Tags of the document's own are refused. -/
def scalarValue? (tag : Option (List Char)) (text : List Char) (plain : Bool) : Option Datum :=
  match tag with
  | none => if plain then plainValue? text else some (.string (String.ofList text))
  | some tag =>
    if tag.head? == some '!' then none
    else if tag == core "bool" then (bool? (String.ofList text)).map .bool
    else if tag == core "int" then (int? text).bind intDatum?
    else if tag == core "float" then float? text
    else if tag == core "null" then (if isNull (String.ofList text) then some .null else none)
    else some (.string (String.ofList text))

/-- What an anchor was put on: its text if that is a scalar, and its value. Both are missing while
the node is still being read. -/
structure Anchored where
  name : List Char
  text : Option (List Char)
  value : Option Datum

def Anchored.find? (name : List Char) (known : List Anchored) : Option Anchored :=
  known.find? fun a => a.name == name

mutual
def height : Datum → Nat
  | .array items => 1 + heightItems items
  | .object members => 1 + heightMembers members
  | _ => 0

def heightItems : List Datum → Nat
  | [] => 0
  | v :: vs => max (height v) (heightItems vs)

def heightMembers : List (String × Datum) → Nat
  | [] => 0
  | (_, v) :: rest => max (height v) (heightMembers rest)
end

def remember (known : List Anchored) (marks : Marks) (text : Option (List Char))
    (value : Option Datum) : List Anchored :=
  match marks.anchor with
  | some name => ⟨name, text, value⟩ :: known
  | none => known

def keyText? (known : List Anchored) : Node → Option (String × List Anchored)
  | .scalar marks text plain =>
    some (String.ofList text, remember known marks (some text) (scalarValue? marks.tag text plain))
  | .alias name =>
    ((Anchored.find? name known).bind fun a => a.text).map fun text => (String.ofList text, known)
  | _ => none

def isUntagged (marks : Marks) : Bool := marks.tag.all fun t => t.head? != some '!'

mutual

/-- The value of a node in which collections nest at most `depth` deep, and the anchors known
after it. -/
def value? (depth : Nat) (known : List Anchored) : Node → Option (Datum × List Anchored)
  | .alias name =>
    match (Anchored.find? name known).bind fun a => a.value with
    | some v => if height v ≤ depth then some (v, known) else none
    | none => none
  | .scalar marks text plain =>
    (scalarValue? marks.tag text plain).map fun v => (v, remember known marks (some text) (some v))
  | .sequence marks items =>
    match depth with
    | 0 => none
    | depth + 1 =>
      if isUntagged marks then
        (values? depth (remember known marks none none) items).map fun (vs, known) =>
          (.array vs, remember known marks none (some (.array vs)))
      else none
  | .mapping marks entries =>
    match depth with
    | 0 => none
    | depth + 1 =>
      if isUntagged marks then
        (members? depth (remember known marks none none) [] entries).map fun (ms, known) =>
          (.object ms, remember known marks none (some (.object ms)))
      else none

def values? (depth : Nat) (known : List Anchored) : List Node → Option (List Datum × List Anchored)
  | [] => some ([], known)
  | n :: ns =>
    match value? depth known n with
    | none => none
    | some (v, known) => (values? depth known ns).map fun (vs, known) => (v :: vs, known)

/-- Members written one after the other; a key given twice keeps its place and its last value. -/
def members? (depth : Nat) (known : List Anchored) (done : Members) :
    List (Node × Node) → Option (Members × List Anchored)
  | [] => some (done, known)
  | (k, v) :: rest =>
    match keyText? known k with
    | none => none
    | some (key, known) =>
      match value? depth known v with
      | none => none
      | some (v, known) => members? depth known (done.insert key v) rest

end

def nestingLimit : Nat := 128

def read? (cs : List Char) : Option Datum :=
  match (tokens? cs).bind document? with
  | some n => (value? nestingLimit [] n).map Prod.fst
  | none => none

end CookbookAtlas.Yaml
