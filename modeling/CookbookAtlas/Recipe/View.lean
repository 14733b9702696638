import CookbookAtlas.Recipe.Fact

/-! Facts and execution items as data, in the field order of their JSON form. -/
namespace CookbookAtlas

namespace Datum

def ofNat (n : Nat) : Datum := .number (.int n)

def ofOption (f : α → Datum) : Option α → Datum
  | some a => f a
  | none => .null

def ofStrings (xs : List String) : Datum := .array (xs.map .string)

end Datum

def Path.datum (p : Path) : Datum := .string p.text

namespace Recipe

def Resource.fields (r : Resource) : Members :=
  [("file", r.file.datum), ("line", .ofNat r.line), ("resource_type", .string r.resourceType),
    ("name", .ofOption .string r.name), ("dynamic_name", .bool r.dynamicName),
    ("custom", .bool r.custom),
    ("attributes", .object (r.properties.map fun p => (p.1, .string p.2))), ("raw", .string r.raw)]

def Assignment.fields (a : Assignment) : Members :=
  [("file", a.file.datum), ("line", .ofNat a.line), ("precedence", .string a.precedence.word),
    ("path", .ofStrings a.path), ("raw_value", .string a.rawValue),
    ("display_value", .string a.displayValue), ("value", a.value.getD .null)]

def Reference.fields (r : Reference) : Members :=
  [("file", r.file.datum), ("line", .ofNat r.line), ("kind", .string r.kind.word),
    ("target", .string r.target), ("dynamic", .bool r.dynamic)]

def Loop.fields (l : Loop) : Members :=
  [("file", l.file.datum), ("line", .ofNat l.line), ("end_line", .ofNat l.endLine),
    ("collection", .string l.collection), ("method", .string l.method),
    ("variables", .ofStrings l.parameters)]

def Fact.datum : Fact → Datum
  | .resource r => .object (("fact", .string "resource_invocation") :: r.fields)
  | .assignment a => .object (("fact", .string "attribute_assignment") :: a.fields)
  | .reference r => .object (("fact", .string "recipe_reference") :: r.fields)
  | .loop l => .object (("fact", .string "loop_construct") :: l.fields)

mutual
def Item.datum : Item → Datum
  | .resource r => .object (("item", .string "resource") :: r.fields)
  | .inclusion r => .object (("item", .string "include") :: r.fields)
  | .block h children =>
    .object [("item", .string "conditional"), ("kind", .string h.kind.word),
      ("condition", .string h.condition), ("line", .ofNat h.line),
      ("variables", .ofStrings h.parameters), ("children", .array (itemsData children))]

def itemsData : List Item → List Datum
  | [] => []
  | item :: rest => item.datum :: itemsData rest
end

def Parsed.datum (p : Parsed) : Datum :=
  .object [("facts", .array (p.facts.map Fact.datum)),
    ("execution", .array (itemsData p.execution)), ("keys", .ofStrings p.keys)]

mutual
def Item.outline (depth : Nat) : Item → List (Nat × String × String × Nat)
  | .resource r => [(depth, "resource", r.displayName, r.line)]
  | .inclusion r => [(depth, "include", r.target, r.line)]
  | .block h children =>
    (depth, h.kind.word, h.condition, h.line) :: outlineItems (depth + 1) children

def outlineItems (depth : Nat) : List Item → List (Nat × String × String × Nat)
  | [] => []
  | item :: rest => item.outline depth ++ outlineItems depth rest
end

end Recipe
end CookbookAtlas
