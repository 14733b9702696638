import CookbookAtlas.Json.Reader

/-! Typed reading of JSON documents. A record is an object of known fields, each at most once,
or an array of its fields in order; members it does not know are passed over. -/
namespace CookbookAtlas.Json

/-- A reader of documents whose containers may nest a given depth. -/
abbrev Decoder (α : Type) := Nat → Doc → Option α

namespace Decoder

def string : Decoder String
  | _, .string s => s.text?
  | _, _ => none

def datum : Decoder Datum := Doc.datum?

def nullable (decode : Decoder α) : Decoder (Option α)
  | _, .null => some none
  | depth, doc => (decode depth doc).map some

def all (decode : Doc → Option α) : List Doc → Option (List α)
  | [] => some []
  | d :: rest =>
    match decode d, all decode rest with
    | some v, some vs => some (v :: vs)
    | _, _ => none

def list (decode : Decoder α) : Decoder (List α)
  | depth + 1, .array items => all (decode depth) items
  | _, _ => none

def pairs (decode : Doc → Option α) : List (StringText × Doc) → Option (List (String × α))
  | [] => some []
  | (k, d) :: rest =>
    match k.text?, decode d, pairs decode rest with
    | some key, some v, some vs => some ((key, v) :: vs)
    | _, _, _ => none

/-- The members of an object in the order written; a repeated key stays repeated. -/
def map (decode : Decoder α) : Decoder (List (String × α))
  | depth + 1, .object members => pairs (decode depth) members
  | _, _ => none

end Decoder

structure Fields where
  depth : Nat
  values : List (Option Doc)

def named (members : List (StringText × Doc)) (name : String) : List Doc :=
  members.filterMap fun p => if p.1.text = name then some p.2 else none

def field? (members : List (StringText × Doc)) (name : String) : Option (Option Doc) :=
  match named members name with
  | [] => some none
  | [d] => some (some d)
  | _ => none

def fieldValues (members : List (StringText × Doc)) : List String → Option (List (Option Doc))
  | [] => some []
  | name :: names =>
    match field? members name, fieldValues members names with
    | some v, some vs => some (v :: vs)
    | _, _ => none

def record? (names : List String) : Decoder Fields
  | depth + 1, .object members =>
    if members.all fun p => p.1.paired then (fieldValues members names).map (Fields.mk depth)
    else none
  | depth + 1, .array items =>
    if items.length ≤ names.length then
      some ⟨depth, items.map some ++ List.replicate (names.length - items.length) none⟩
    else none
  | _, _ => none

namespace Fields

def get (f : Fields) (i : Nat) : Option Doc := (f.values[i]?).join

def required (f : Fields) (i : Nat) (decode : Decoder α) : Option α :=
  (f.get i).bind (decode f.depth)

def withDefault (f : Fields) (i : Nat) (fallback : α) (decode : Decoder α) : Option α :=
  match f.get i with
  | some doc => decode f.depth doc
  | none => some fallback

def optional (f : Fields) (i : Nat) (decode : Decoder α) : Option (Option α) :=
  f.withDefault i none (Decoder.nullable decode)

end Fields

def decode? (decode : Decoder α) (cs : List Char) : Option α :=
  (readDoc? cs).bind (decode nestingLimit)

end CookbookAtlas.Json
