import CookbookAtlas.Json.Record
import CookbookAtlas.Path.Basic

/-! Lock documents: every cookbook of a policy with its exact version and identifier, and what
each of them depends on. -/
namespace CookbookAtlas.Lock

abbrev Table (α : Type) := List (String × α)

namespace Table

def get? : Table α → String → Option α
  | [], _ => none
  | (k, v) :: rest, name => if k = name then some v else get? rest name

def insert : Table α → String → α → Table α
  | [], name, value => [(name, value)]
  | (k, v) :: rest, name, value =>
    if k = name then (name, value) :: rest
    else if name < k then (name, value) :: (k, v) :: rest
    else (k, v) :: insert rest name value

def ofList (entries : List (String × α)) : Table α :=
  entries.foldl (fun table e => table.insert e.1 e.2) []

end Table

inductive Origin
  | localPath (path : Path)
  | remote (origin cacheKey : Option String)
deriving DecidableEq

structure Record where
  name : String
  version : String
  identifier : String
  origin : Origin
deriving DecidableEq

namespace Record

def localPath? (r : Record) : Option Path :=
  match r.origin with
  | .localPath path => some path
  | .remote _ _ => none

def isLocal (r : Record) : Bool := r.localPath?.isSome

def artifactDir (r : Record) : String := r.name ++ "-" ++ r.identifier

end Record

structure Target where
  name : String
  constraint : String
  identifier : Option String
  version : Option String
deriving DecidableEq

structure Edge where
  cookbook : String
  version : String
  dependencies : List Target
deriving DecidableEq

structure Registry where
  policyName : Option String
  cookbooks : Table Record
  edges : Table Edge
  /-- Directory of the document, against which relative local paths are read. -/
  baseDir : Option Path
deriving DecidableEq

namespace Registry

def empty : Registry := ⟨none, [], [], none⟩

def get? (r : Registry) (name : String) : Option Record := r.cookbooks.get? name

def edge? (r : Registry) (name : String) : Option Edge := r.edges.get? name

def records (r : Registry) : List Record := r.cookbooks.map Prod.snd

def size (r : Registry) : Nat := r.cookbooks.length

def resolvedPath? (r : Registry) (record : Record) : Option Path :=
  record.localPath?.map fun path =>
    match r.baseDir with
    | some base => (base.join path).normalize
    | none => path.normalize

/-- The first local cookbook whose source is `path`, as recorded or as resolved. -/
def lookupPath? (r : Registry) (path : Path) : Option Record :=
  r.records.find? fun record =>
    record.localPath?.any (fun recorded => recorded.same path)
      || (r.resolvedPath? record).any fun resolved => resolved.same path.normalize

end Registry
end CookbookAtlas.Lock
