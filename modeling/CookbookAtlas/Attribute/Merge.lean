import CookbookAtlas.Recipe.Fact

/-! The attribute tree: literal assignments applied by rank, and in source order within one
rank. Mappings merge key by key, anything else replaces what was there. -/
namespace CookbookAtlas.Attribute

mutual
def merge (target source : Datum) : Datum :=
  match target, source with
  | .object old, .object new => .object (mergeMembers old new)
  | _, source => source

def mergeMembers (old : Members) : List (String × Datum) → Members
  | [] => old
  | (key, value) :: rest =>
    match Members.get? old key with
    | some existing => mergeMembers (Members.insert old key (merge existing value)) rest
    | none => mergeMembers (Members.insert old key value) rest
end

/-- Writes a value at a key path. What stands in the way and is no mapping becomes one. -/
def insertPath (root : Datum) : List String → Datum → Datum
  | [], _ => root
  | [key], value =>
    .object (root.members.insert key (match root.members.get? key with
      | some existing => merge existing value
      | none => value))
  | key :: rest, value =>
    let next := (root.members.get? key).getD Datum.emptyMapping
    .object (root.members.insert key (insertPath next rest value))

structure Write where
  rank : Nat
  path : List String
  value : Datum

def Write.ofAssignment? (a : Recipe.Assignment) : Option Write :=
  a.value.map fun value => ⟨a.precedence.rank, a.path, value⟩

def ranks : List Nat := List.range 5

def ranked (writes : List Write) : List Write :=
  ranks.flatMap fun rank => writes.filter fun w => w.rank == rank

def applyWrites (root : Datum) (writes : List Write) : Datum :=
  writes.foldl (fun root w => insertPath root w.path w.value) root

def tree (assignments : List Recipe.Assignment) : Datum :=
  applyWrites Datum.emptyMapping (ranked (assignments.filterMap Write.ofAssignment?))

end CookbookAtlas.Attribute
