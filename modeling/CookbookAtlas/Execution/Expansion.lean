import CookbookAtlas.Execution.Node
import CookbookAtlas.Survey.Basic
import CookbookAtlas.Text.EditDistance

/-! What a tree takes from a survey: loops over known collections, and names close to one that
was not found. -/
namespace CookbookAtlas.Execution

open Text

def loopMark : String := ".each"

def matchCollection? (collections : List Attribute.Collection) (condition : String) :
    Option Attribute.Collection :=
  collections.find? fun c => c.segments.any fun segment => hasPart condition segment

def loopItem (body : List Node) (member : String × Datum) : Node :=
  .mk { Info.plain .loopItem member.1 with values := some member.2 } body

def loopNode (info : Info) (body : List Node) (c : Attribute.Collection) : Node :=
  .mk { Info.plain .loop info.name with file := info.file, line :=
    info.line } (c.values.map (loopItem body))

def expandLoop (collections : List Attribute.Collection) (n : Node) : Node :=
  if n.info.kind = .conditional ∧ hasPart n.info.name loopMark then
    match matchCollection? collections n.info.name with
    | some c => loopNode n.info n.children c
    | none => n
  else n

def suggestionCount : Nat := 3

/-- Known names whose distance from `target` is at most half its length in bytes, closest first. -/
def suggestions (known : List String) (target : String) : List String :=
  let scored := known.map fun name => (name, editDistance target.toList name.toList)
  let close := scored.filter fun s => decide (s.2 ≤ byteLength target.toList * 50 / 100)
  ((close.mergeSort fun a b => decide (a.2 ≤ b.2)).take suggestionCount).map Prod.fst

end CookbookAtlas.Execution
