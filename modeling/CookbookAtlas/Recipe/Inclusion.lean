import CookbookAtlas.Name
import CookbookAtlas.Recipe.Fact

/-! The recipes that references name. -/
namespace CookbookAtlas.Recipe

def Reference.recipe? (r : Reference) : Option RecipeName :=
  if r.kind = .includeRecipe ∧ r.dynamic = false then (RecipeName.read r.target.toList).toOption
  else none

end CookbookAtlas.Recipe
