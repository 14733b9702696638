import CookbookAtlas.Text.Basic

/-! Names of cookbooks, recipes and custom resource types, with the rules for writing them. -/
namespace CookbookAtlas

open Text

inductive NameFault
  | cookbook (text : String)
  | recipe (text : String)
  | provider (text : String)
deriving DecidableEq

def NameFault.message : NameFault → String
  | .cookbook text => s!"Invalid cookbook name: '{text}'"
  | .recipe text => s!"Invalid recipe name: '{text}'"
  | .provider text => s!"Invalid resource type name: '{text}'"

structure CookbookName where
  text : String
deriving DecidableEq

namespace CookbookName

def isForbidden (c : Char) : Bool := isBlank c || c == '/' || c == '\\'

def accepts (name : List Char) : Bool :=
  !name.isEmpty && !occursIn [':', ':'] name && !name.any isForbidden

def read (s : List Char) : Except NameFault CookbookName :=
  let name := trim s
  if accepts name then .ok ⟨String.ofList name⟩ else .error (.cookbook (String.ofList s))

end CookbookName

structure RecipeName where
  cookbook : CookbookName
  recipe : String
deriving DecidableEq

namespace RecipeName

def unwrap? (cs : List Char) : Option (List Char) :=
  match after? "recipe[".toList cs with
  | some rest => if rest.getLast? = some ']' then some rest.dropLast else none
  | none => none

def bare (s : List Char) : List Char :=
  match unwrap? (trim s) with
  | some inner => trim inner
  | none => trim s

/-- The halves around the first `::`; a lone cookbook means its default recipe. -/
def halves (cs : List Char) : List Char × List Char :=
  match splitFirst? [':', ':'] cs with
  | some (cookbook, recipe) => (cookbook, trim recipe)
  | none => (cs, "default".toList)

def acceptsRecipe (recipe : List Char) : Bool :=
  !recipe.isEmpty && !occursIn [':', ':'] recipe && !recipe.contains '/'

def read (s : List Char) : Except NameFault RecipeName :=
  let (cookbook, recipe) := halves (bare s)
  if acceptsRecipe recipe then
    match CookbookName.read cookbook with
    | .ok name => .ok ⟨name, String.ofList recipe⟩
    | .error fault => .error fault
  else .error (.recipe (String.ofList s))

def text (n : RecipeName) : String := n.cookbook.text ++ "::" ++ n.recipe

end RecipeName

structure ProviderName where
  text : String
deriving DecidableEq

namespace ProviderName

def isAllowed (c : Char) : Bool := isAsciiAlphanumeric c || c == '_'

def read (s : List Char) : Except NameFault ProviderName :=
  let name := trim s
  if !name.isEmpty && name.all isAllowed then .ok ⟨String.ofList name⟩
  else .error (.provider (String.ofList s))

/-- The splits at underscores to the right of `before`, which is held last character first. -/
def splitsFrom (before : List Char) : List Char → List (String × String)
  | [] => []
  | c :: rest =>
    if c = '_' ∧ before ≠ [] ∧ rest ≠ [] then
      (String.ofList before.reverse, String.ofList rest) :: splitsFrom (c :: before) rest
    else splitsFrom (c :: before) rest

/-- Every split into a cookbook and a provider at an underscore, left to right; both sides hold
something. -/
def splits (n : ProviderName) : List (String × String) := splitsFrom [] n.text.toList

end ProviderName
end CookbookAtlas
