import CookbookAtlas.Recipe.Assembly
import CookbookAtlas.Recipe.LoopScan
import CookbookAtlas.Token.Scan

/-! Reading a recipe text: its tokens, their statements, and what the statements amount to. -/
namespace CookbookAtlas.Recipe

def defaultDisplayLimit : Nat := 80

def parseTokens (s : Source) (tokens : List Token) : Parsed :=
  let list := statements tokens
  let done := (Assembly.start.run s list).finish s
  let facts := done.facts ++ (loops s tokens list).map .loop
  ⟨facts.mergeSort (fun a b => decide (a.line ≤ b.line)), done.items, []⟩

/-- Facts and execution order of a source; nothing if its tokens cannot be told. -/
def parse? (s : Source) : Option Parsed := (Token.scan? s.chars).map (parseTokens s)

end CookbookAtlas.Recipe
