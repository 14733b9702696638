import CookbookAtlas.Path.Basic
import CookbookAtlas.Version

/-! The name of a recipe, read off the path of its file. -/
namespace CookbookAtlas.Execution

def cookbookFolders : List String := ["cookbooks", "cookbook", "cookbook_artifacts"]

/-- What follows the last cookbook folder; `above` is what was found before. -/
def afterFolder (above : Option String) : List String → Option String
  | [] => above
  | c :: rest => afterFolder (if cookbookFolders.contains c then rest.head? else above) rest

/-- A directory name without the version or identifier at its end. -/
def withoutSuffix (name : String) : String :=
  match Text.splitLast? '-' name.toList with
  | some (base, suffix) =>
    if !base.isEmpty && Version.isSuffix suffix then String.ofList base else name
  | none => name

/-- The cookbook that a path lies in: what follows the last cookbook folder, else the directory
two levels up. -/
def cookbookOf (p : Path) : String :=
  let marked := (afterFolder none (p.components.map Path.Component.text)).filter (· ≠ "recipes")
  let above := (p.parent?.bind Path.parent?).bind Path.fileName?
  (marked.or above).getD ""

def displayName (p : Path) : String :=
  withoutSuffix (cookbookOf p) ++ "::" ++ p.fileStem?.getD ""

end CookbookAtlas.Execution
