import CookbookAtlas.Failure
import CookbookAtlas.Lock.Basic

/-! Reading of lock documents. -/
namespace CookbookAtlas.Lock

inductive Fault
  | malformed
  | missingSection (name : String)
deriving DecidableEq

namespace Fault

def reason : Fault → String
  | .malformed => Cause.json.message
  | .missingSection name => s!"missing top-level section '{name}'"

def failure (f : Fault) (label : String) : Failure := .malformedLock label f.reason

end Fault

def anyVersion : String := ">= 0.0.0"

structure Entry where
  version : String
  identifier : String
  source : Option String
  sourceOptions : Option Datum
  origin : Option String
  cacheKey : Option String

namespace Entry

def fieldNames : List String :=
  ["version", "identifier", "source", "source_options", "origin", "cache_key"]

def decode : Json.Decoder Entry := fun depth doc => do
  let fields ← Json.record? fieldNames depth doc
  let version ← fields.required 0 Json.Decoder.string
  let identifier ← fields.required 1 Json.Decoder.string
  let source ← fields.optional 2 Json.Decoder.string
  let sourceOptions ← fields.optional 3 Json.Decoder.datum
  let origin ← fields.optional 4 Json.Decoder.string
  let cacheKey ← fields.optional 5 Json.Decoder.string
  return ⟨version, identifier, source, sourceOptions, origin, cacheKey⟩

/-- The local path: the source, else the path among the source's options. -/
def localSource? (e : Entry) : Option String :=
  match e.source with
  | some source => some source
  | none => e.sourceOptions.bind fun options => (options.members.get? "path").bind Datum.string?

def originOf (e : Entry) : Origin :=
  match e.localSource? with
  | some path => .localPath ⟨path⟩
  | none => .remote e.origin e.cacheKey

def record (e : Entry) (name : String) : Record := ⟨name, e.version, e.identifier, e.originOf⟩

end Entry

abbrev Solution := List (String × List (List String))

def solutionFields : List String := ["dependencies"]

def decodeSolution : Json.Decoder Solution := fun depth doc => do
  let fields ← Json.record? solutionFields depth doc
  fields.withDefault 0 []
    (Json.Decoder.map (Json.Decoder.list (Json.Decoder.list Json.Decoder.string)))

structure Sections where
  name : Option String
  locks : Option (List (String × Entry))
  solution : Option Solution

namespace Sections

def fieldNames : List String := ["name", "cookbook_locks", "solution_dependencies"]

def decode : Json.Decoder Sections := fun depth doc => do
  let fields ← Json.record? fieldNames depth doc
  let name ← fields.optional 0 Json.Decoder.string
  let locks ← fields.optional 1 (Json.Decoder.map Entry.decode)
  let solution ← fields.optional 2 decodeSolution
  return ⟨name, locks, solution⟩

end Sections

def parenthesized? (cs : List Char) : Option (List Char) :=
  match Text.trimLeft cs with
  | '(' :: rest =>
    match rest.dropWhile (· ≠ ')') with
    | ')' :: after => if after.all Text.isBlank then some (rest.takeWhile (· ≠ ')')) else none
    | _ => none
  | _ => none

/-- Cuts a key at the first place where a version in parentheses follows. The name is held last
character first and is not empty. -/
def keyFrom (name : List Char) (rest : List Char) : Option (List Char × List Char) :=
  match parenthesized? rest with
  | some version => some (name.reverse, version)
  | none =>
    match rest with
    | [] => none
    | c :: cs => if c = '\n' then none else keyFrom (c :: name) cs

/-- The cookbook and version of an edge key `name (version)`; without a version, the whole key
is the name. -/
def edgeKey (key : String) : String × String :=
  let cut := match key.toList with
    | [] => none
    | c :: cs => if c = '\n' then none else keyFrom [c] cs
  match cut with
  | some (name, version) => (String.ofList name, String.ofList version)
  | none => (Text.trimmed key, "")

/-- The dependency written as a name and its constraint; an empty list is none. -/
def target? (cookbooks : Table Record) : List String → Option Target
  | [] => none
  | name :: rest =>
    let locked := cookbooks.get? name
    some ⟨name, rest.headD anyVersion, locked.map Record.identifier, locked.map Record.version⟩

def edgeOf (cookbooks : Table Record) (entry : String × List (List String)) : String × Edge :=
  let (cookbook, version) := edgeKey entry.1
  (cookbook, ⟨cookbook, version, entry.2.filterMap (target? cookbooks)⟩)

/-- Of two keys for one cookbook, the later in order counts. -/
def edgesOf (cookbooks : Table Record) (solution : Solution) : Table Edge :=
  Table.ofList ((Table.ofList solution).map (edgeOf cookbooks))

def read (cs : List Char) : Except Fault Registry :=
  match Json.decode? Sections.decode cs with
  | none => .error .malformed
  | some ⟨_, none, _⟩ => .error (.missingSection "cookbook_locks")
  | some ⟨_, some _, none⟩ => .error (.missingSection "solution_dependencies")
  | some ⟨name, some locks, some solution⟩ =>
    let cookbooks := (Table.ofList locks).map fun e => (e.1, e.2.record e.1)
    .ok ⟨name, cookbooks, edgesOf cookbooks solution, none⟩

end CookbookAtlas.Lock
