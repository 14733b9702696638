import CookbookAtlas.Lock.Basic
import CookbookAtlas.Recipe.View

/-! Lock registries as data values. -/
namespace CookbookAtlas.Lock

def Origin.datum : Origin → Datum
  | .localPath p => .object [("kind", .string "local"), ("path", p.datum)]
  | .remote origin key =>
    .object [("kind", .string "remote"), ("origin", .ofOption .string origin),
      ("cache_key", .ofOption .string key)]

def Record.fields (r : Record) : Members :=
  [("name", .string r.name), ("version", .string r.version), ("identifier", .string r.identifier),
    ("origin", r.origin.datum)]

def Target.datum (t : Target) : Datum :=
  .object [("name", .string t.name), ("constraint", .string t.constraint),
    ("identifier", .ofOption .string t.identifier), ("version", .ofOption .string t.version)]

def Edge.datum (e : Edge) : Datum :=
  .object [("cookbook", .string e.cookbook), ("version", .string e.version),
    ("dependencies", .array (e.dependencies.map Target.datum))]

end CookbookAtlas.Lock
