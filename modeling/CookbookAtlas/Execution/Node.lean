import CookbookAtlas.Recipe.View

/-! Trees of what a recipe executes. -/
namespace CookbookAtlas.Execution

inductive Kind
  | recipe
  | resource
  | customResource
  | conditional
  | loop
  | loopItem
  /-- An include of a recipe expanded before. -/
  | circular
  | unresolved
  | truncated
deriving DecidableEq

namespace Kind

def all : List Kind :=
  [.recipe, .resource, .customResource, .conditional, .loop, .loopItem, .circular, .unresolved,
    .truncated]

def word : Kind → String
  | .recipe => "recipe"
  | .resource => "resource"
  | .customResource => "custom_resource"
  | .conditional => "conditional"
  | .loop => "loop"
  | .loopItem => "loop_item"
  | .circular => "circular"
  | .unresolved => "unresolved"
  | .truncated => "truncated"

def ofWord? (word : String) : Option Kind := all.find? fun k => k.word == word

def isTerminal : Kind → Bool
  | .resource | .customResource | .circular | .unresolved | .truncated => true
  | _ => false

end Kind

structure Info where
  kind : Kind
  name : String
  file : Option Path
  line : Option Nat
  resource : Option Recipe.Resource
  provider : Option Path
  values : Option Datum
  suggestions : List String

namespace Info

def plain (kind : Kind) (name : String) : Info := ⟨kind, name, none, none, none, none, none, []⟩

def placed (i : Info) (file : Path) (line : Option Nat) : Info := { i with file := some file, line }

def shortPath (p : Path) : String :=
  String.intercalate "/" ((p.components.reverse.take 3).reverse.map Path.Component.text)

def label (i : Info) : String :=
  let name := Text.collapsed i.name
  match i.kind with
  | .recipe | .resource | .conditional | .loopItem => name
  | .customResource =>
    match i.provider with
    | some provider => name ++ " (custom resource: " ++ shortPath provider ++ ")"
    | none => name ++ " (custom resource)"
  | .loop => name ++ " (loop)"
  | .circular => name ++ " (circular reference)"
  | .unresolved =>
    if i.suggestions.isEmpty then name ++ " (recipe not analyzed)"
    else name ++ " (recipe not analyzed; did you mean " ++ String.intercalate ", " i.suggestions ++
      "?)"
  | .truncated => name ++ " (max depth reached)"

end Info

inductive Node
  | mk (info : Info) (children : List Node)

namespace Node

def info : Node → Info
  | .mk info _ => info

def children : Node → List Node
  | .mk _ children => children

def leaf (info : Info) : Node := .mk info []

mutual
def count : Node → Nat
  | .mk _ children => 1 + countAll children

def countAll : List Node → Nat
  | [] => 0
  | n :: rest => n.count + countAll rest
end

mutual
def depthsFrom (depth : Nat) : Node → List Nat
  | .mk _ children => depth :: depthsOfAll (depth + 1) children

def depthsOfAll (depth : Nat) : List Node → List Nat
  | [] => []
  | n :: rest => n.depthsFrom depth ++ depthsOfAll depth rest
end

def depths (n : Node) : List Nat := n.depthsFrom 0

mutual
def preorder : Node → List Node
  | .mk info children => .mk info children :: preorderAll children

def preorderAll : List Node → List Node
  | [] => []
  | n :: rest => n.preorder ++ preorderAll rest
end

def find? (n : Node) (name : String) : Option Node := n.preorder.find? fun m => m.info.name == name

def ofKind (n : Node) (kind : Kind) : List Node := n.preorder.filter fun m => m.info.kind == kind

end Node

/-- Fields of a node without its children; those that hold nothing are left out. -/
def Info.fields (i : Info) : Members :=
  [("kind", .string i.kind.word), ("name", .string i.name)]
    ++ (i.file.map fun f => ("file", f.datum)).toList
    ++ (i.line.map fun l => ("line", Datum.ofNat l)).toList
    ++ (i.resource.map fun r => ("resource", Datum.object r.fields)).toList
    ++ (i.provider.map fun p => ("provider", p.datum)).toList
    ++ (i.values.map fun v => ("values", v)).toList
    ++ (if i.suggestions.isEmpty then [] else [("suggestions", .ofStrings i.suggestions)])

mutual
def Node.datum : Node → Datum
  | .mk info children =>
    .object (info.fields ++ if children.isEmpty then []
      else [("children", .array (nodesData children))])

def nodesData : List Node → List Datum
  | [] => []
  | n :: rest => n.datum :: nodesData rest
end

end CookbookAtlas.Execution
