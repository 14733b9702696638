import CookbookAtlas.Attribute.Precedence
import CookbookAtlas.Datum.Basic
import CookbookAtlas.Path.Basic

/-! What is read out of a source file: facts in source order, the items it executes in their
nesting, and the key paths of data files. -/
namespace CookbookAtlas.Recipe

abbrev Properties := List (String × String)

/-- Adds a value; a repeated property keeps every value, one to a line. -/
def Properties.add : Properties → String → String → Properties
  | [], key, value => [(key, value)]
  | (k, v) :: rest, key, value =>
    if k = key then (k, v ++ "\n" ++ value) :: rest
    else if key < k then (key, value) :: (k, v) :: rest
    else (k, v) :: Properties.add rest key value

structure Resource where
  file : Path
  line : Nat
  resourceType : String
  /-- First argument: a literal's value, or the text of an expression. -/
  name : Option String
  dynamicName : Bool
  custom : Bool
  properties : Properties
  raw : String
deriving DecidableEq

namespace Resource

/-- `type[name]`, the way notifications refer to a resource. -/
def displayName (r : Resource) : String :=
  match r.name with
  | some name => r.resourceType ++ "[" ++ name ++ "]"
  | none => r.resourceType

def addProperty (r : Resource) (key value : String) : Resource :=
  { r with properties := r.properties.add key value }

end Resource

structure Assignment where
  file : Path
  line : Nat
  precedence : Attribute.Precedence
  path : List String
  rawValue : String
  /-- The same on one line and cut to the display limit. -/
  displayValue : String
  value : Option Datum

def Assignment.dotted (a : Assignment) : String := String.intercalate "." a.path

inductive ReferenceKind
  | includeRecipe
  | require
  | requireRelative
deriving DecidableEq

def ReferenceKind.word : ReferenceKind → String
  | .includeRecipe => "include_recipe"
  | .require => "require"
  | .requireRelative => "require_relative"

structure Reference where
  file : Path
  line : Nat
  kind : ReferenceKind
  target : String
  dynamic : Bool
deriving DecidableEq

/-- A loop over a collection, with the line of its closing `end`. -/
structure Loop where
  file : Path
  line : Nat
  endLine : Nat
  collection : String
  method : String
  parameters : List String
deriving DecidableEq

inductive Fact
  | resource (r : Resource)
  | assignment (a : Assignment)
  | reference (r : Reference)
  | loop (l : Loop)

namespace Fact

def line : Fact → Nat
  | .resource r => r.line
  | .assignment a => a.line
  | .reference r => r.line
  | .loop l => l.line

def resource? : Fact → Option Resource
  | .resource r => some r
  | _ => none

def assignment? : Fact → Option Assignment
  | .assignment a => some a
  | _ => none

def reference? : Fact → Option Reference
  | .reference r => some r
  | _ => none

def loop? : Fact → Option Loop
  | .loop l => some l
  | _ => none

end Fact

inductive BlockKind
  | ifBlock
  | unlessBlock
  | elsifBlock
  | elseBlock
  | caseBlock
  | whenArm
  | whileLoop
  | untilLoop
  | forLoop
  | eachLoop
deriving DecidableEq

def BlockKind.word : BlockKind → String
  | .ifBlock => "if"
  | .unlessBlock => "unless"
  | .elsifBlock => "elsif"
  | .elseBlock => "else"
  | .caseBlock => "case"
  | .whenArm => "when"
  | .whileLoop => "while"
  | .untilLoop => "until"
  | .forLoop => "for"
  | .eachLoop => "each"

structure Heading where
  kind : BlockKind
  /-- The condition as displayed, or a loop's receiver with its method. -/
  condition : String
  line : Nat
  parameters : List String
deriving DecidableEq

inductive Item
  | resource (r : Resource)
  | inclusion (r : Reference)
  | block (heading : Heading) (children : List Item)

mutual
def Item.size : Item → Nat
  | .block _ children => 1 + sizeItems children
  | _ => 1

def sizeItems : List Item → Nat
  | [] => 0
  | item :: rest => item.size + sizeItems rest
end

structure Parsed where
  facts : List Fact
  execution : List Item
  keys : List String

namespace Parsed

def empty : Parsed := ⟨[], [], []⟩

def resources (p : Parsed) : List Resource := p.facts.filterMap Fact.resource?
def assignments (p : Parsed) : List Assignment := p.facts.filterMap Fact.assignment?
def references (p : Parsed) : List Reference := p.facts.filterMap Fact.reference?
def loops (p : Parsed) : List Loop := p.facts.filterMap Fact.loop?

end Parsed
end CookbookAtlas.Recipe
