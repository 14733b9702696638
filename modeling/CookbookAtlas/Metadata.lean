import CookbookAtlas.Json.Record
import CookbookAtlas.Text.Basic

/-! Cookbook metadata: the declared name, version and dependencies. The script form is read line
by line and understands literal calls only; the JSON form is a record. -/
namespace CookbookAtlas

open Text

structure Metadata where
  name : Option String
  version : Option String
  /-- Cookbooks depended on, each with its constraint if it has one. -/
  depends : List (String × Option String)
deriving DecidableEq

namespace Metadata

def empty : Metadata := ⟨none, none, []⟩

def isQuote (c : Char) : Bool := c == '\'' || c == '"'

/-- A quoted text that holds something, and what follows it. Either quote closes it. -/
def quoted? : List Char → Option (String × List Char)
  | [] => none
  | c :: cs =>
    let body := cs.takeWhile fun c => !isQuote c
    match cs.dropWhile fun c => !isQuote c with
    | _ :: rest => if isQuote c && !body.isEmpty then some (String.ofList body, rest) else none
    | [] => none

def dropParen : List Char → List Char
  | '(' :: cs | cs => cs

def call? (word : String) (line : List Char) : Option (String × List Char) :=
  match after? word.toList (trimLeft line) with
  | some rest => quoted? (trimLeft (dropParen (trimLeft rest)))
  | none => none

def constraint? (rest : List Char) : Option String :=
  match trimLeft rest with
  | ',' :: cs => (quoted? (trimLeft cs)).map Prod.fst
  | _ => none

def addDepends (m : Metadata) (line : List Char) : Metadata :=
  match call? "depends" line with
  | some (cookbook, rest) => { m with depends := m.depends ++ [(cookbook, constraint? rest)] }
  | none => m

def addVersion (m : Metadata) (line : List Char) : Metadata :=
  match m.version, call? "version" line with
  | none, some (version, _) => { m with version := some version }
  | _, _ => m.addDepends line

def addLine (m : Metadata) (line : List Char) : Metadata :=
  if (trimLeft line).head? = some '#' then m
  else match m.name, call? "name" line with
    | none, some (name, _) => { m with name := some name }
    | _, _ => m.addVersion line

def ofScript (cs : List Char) : Metadata := (lines cs).foldl addLine empty

def fieldNames : List String := ["name", "version", "dependencies"]

def decodeMembers : Json.Decoder Members := fun depth doc =>
  match doc with
  | .object _ => (doc.datum? depth).map Datum.members
  | _ => none

def decode : Json.Decoder Metadata := fun depth doc => do
  let fields ← Json.record? fieldNames depth doc
  let name ← fields.optional 0 Json.Decoder.string
  let version ← fields.optional 1 Json.Decoder.string
  let dependencies ← fields.withDefault 2 [] decodeMembers
  return ⟨name, version, dependencies.map fun p => (p.1, p.2.string?)⟩

def ofJson? (cs : List Char) : Option Metadata := Json.decode? decode cs

end Metadata
end CookbookAtlas
