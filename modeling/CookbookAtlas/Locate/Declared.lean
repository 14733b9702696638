import CookbookAtlas.Files.World
import CookbookAtlas.Metadata

/-! Metadata of cookbook directories. -/
namespace CookbookAtlas.Locate

def metadataScript : String := "metadata.rb"
def metadataDocument : String := "metadata.json"

/-- The metadata declared in a directory; the script form goes before the JSON form. -/
def metadata (w : World) (dir : Path) : Except Trouble (Option Metadata) :=
  let script := dir.child metadataScript
  let document := dir.child metadataDocument
  if w.isFile script then
    match w.text script with
    | .ok cs => .ok (some (Metadata.ofScript cs))
    | .error fault => .error ((Trouble.of (.io fault)).during s!"Failed to read {script.text}")
  else if w.isFile document then
    match w.text document with
    | .error fault => .error ((Trouble.of (.io fault)).during s!"Failed to read {document.text}")
    | .ok cs =>
      match Metadata.ofJson? cs with
      | some m => .ok (some m)
      | none => .error ((Trouble.of .json).during s!"Invalid cookbook metadata in {document.text}")
  else .ok none

/-- The cookbook name declared in a directory; metadata that cannot be read declares none. -/
def declaredName? (w : World) (dir : Path) : Option String :=
  match metadata w dir with
  | .ok (some m) => m.name
  | _ => none

end CookbookAtlas.Locate
