import CookbookAtlas.Locate.Declared
import CookbookAtlas.Name
import CookbookAtlas.Version

/-! Finding files by name in an ordered list of directories. Each of them is a cookbook or holds
cookbooks; the first match counts. -/
namespace CookbookAtlas.Locate

def isVersioned (dirName name : String) : Bool :=
  match Text.after? (name.toList ++ ['-']) dirName.toList with
  | some suffix => Version.isSuffix suffix
  | none => false

/-- Whether a directory is the cookbook `name`: by its own name, with or without a version, or
by its metadata. -/
def isCookbook (w : World) (dir : Path) (name : String) : Bool :=
  match dir.fileName? with
  | none => false
  | some dirName =>
    dirName == name || isVersioned dirName name || declaredName? w dir == some name

def cookbookDirs (w : World) (dir : Path) (name : String) : List Path :=
  (if w.isDirectory dir && isCookbook w dir name then [dir] else [])
    ++ (w.childDirectories dir).filter fun d => isCookbook w d name

def fileIn? (w : World) (name : String) (dirs : List Path) (relatives : List String) :
    Option Path :=
  dirs.findSome? fun dir =>
    (cookbookDirs w dir name).findSome? fun cookbook =>
      (relatives.map fun relative => cookbook.join ⟨relative⟩).find? w.isFile

def recipeExtensions : List String := ["rb", "yml", "yaml"]

def recipeFile? (w : World) (dirs : List Path) (n : RecipeName) : Option Path :=
  fileIn? w n.cookbook.text dirs (recipeExtensions.map fun ext => "recipes/" ++ n.recipe ++ "." ++ ext)

/-- The file that implements a custom resource: the first split of its name that has one. -/
def providerFile? (w : World) (dirs : List Path) (n : ProviderName) : Option Path :=
  n.splits.findSome? fun (cookbook, provider) =>
    fileIn? w cookbook dirs ["providers/" ++ provider ++ ".rb", "resources/" ++ provider ++ ".rb"]

def attributesFile? (w : World) (dirs : List Path) (n : CookbookName) : Option Path :=
  fileIn? w n.text dirs ["attributes/default.rb"]

def cookbookDir? (w : World) (dirs : List Path) (n : CookbookName) : Option Path :=
  dirs.findSome? fun dir => (cookbookDirs w dir n.text).head?

end CookbookAtlas.Locate
