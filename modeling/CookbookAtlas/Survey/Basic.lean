import CookbookAtlas.Attribute.Collection
import CookbookAtlas.Attribute.Merge

/-! The survey of a set of cookbooks: their files as parsed, the attribute tree they add up to,
and the collections found in it. -/
namespace CookbookAtlas
namespace Survey

inductive Role
  | recipe
  | provider
  | attributes
  | metadata
deriving DecidableEq

def Role.word : Role → String
  | .recipe => "recipe"
  | .provider => "provider"
  | .attributes => "attributes"
  | .metadata => "metadata"

structure Entry where
  path : Path
  cookbook : String
  role : Role
  parsed : Recipe.Parsed

def Entry.recipeName? (e : Entry) : Option String :=
  match e.role, e.path.fileStem? with
  | .recipe, some stem => some (e.cookbook ++ "::" ++ stem)
  | _, _ => none

end Survey

structure Survey where
  entries : List Survey.Entry
  attributes : Datum
  collections : List Attribute.Collection

structure Survey.Summary where
  files : Nat
  recipes : Nat
  providers : Nat
  attributeFiles : Nat
  resources : Nat
  assignments : Nat
  references : Nat
  loops : Nat
  collections : Nat
deriving DecidableEq

namespace Survey

def blank : Survey := ⟨[], .null, []⟩

def ofEntries (entries : List Entry) : Survey :=
  let attributes := Attribute.tree (entries.flatMap fun e => e.parsed.assignments)
  ⟨entries, attributes, Attribute.collections attributes⟩

def ofRole (s : Survey) (role : Role) : List Entry := s.entries.filter fun e => e.role == role

def entry? (s : Survey) (path : Path) : Option Entry :=
  s.entries.reverse.find? fun e => e.path.normalize.same path.normalize

def collection? (s : Survey) (path : String) : Option Attribute.Collection :=
  s.collections.find? fun c => c.path == path

def recipeNames (s : Survey) : List String := s.entries.filterMap Entry.recipeName?

def summary (s : Survey) : Summary where
  files := s.entries.length
  recipes := (s.ofRole .recipe).length
  providers := (s.ofRole .provider).length
  attributeFiles := (s.ofRole .attributes).length
  resources := total (s.entries.map fun e => e.parsed.resources.length)
  assignments := total (s.entries.map fun e => e.parsed.assignments.length)
  references := total (s.entries.map fun e => e.parsed.references.length)
  loops := total (s.entries.map fun e => e.parsed.loops.length)
  collections := s.collections.length

end Survey
end CookbookAtlas
