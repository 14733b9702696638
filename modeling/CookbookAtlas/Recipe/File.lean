import CookbookAtlas.Failure
import CookbookAtlas.Recipe.KeyPaths
import CookbookAtlas.Recipe.Parse
import CookbookAtlas.Yaml.Value

/-! Source files by format: recipe text yields facts, data documents yield their key paths. -/
namespace CookbookAtlas.Recipe

inductive Format
  | ruby
  | json
  | yaml
deriving DecidableEq

namespace Format

def ofExtension? : String → Option Format
  | "rb" => some .ruby
  | "json" => some .json
  | "yml" => some .yaml
  | "yaml" => some .yaml
  | _ => none

def ofPath? (p : Path) : Option Format := p.extension?.bind ofExtension?

end Format

inductive ParseFault
  /-- The indent of a heredoc ends inside a character. -/
  | splitCharacter
  | malformedJson (file : Path)
  | malformedYaml (file : Path)
  | unreadable (file : Path) (fault : SystemFault)
deriving DecidableEq

namespace ParseFault

/-- How a fault is told; a cut inside a character is no matter of telling. -/
def trouble? : ParseFault → Option Trouble
  | .splitCharacter => none
  | .malformedJson file =>
    some ((Trouble.of .json).during s!"Failed to parse JSON file: {file.text}")
  | .malformedYaml file =>
    some ((Trouble.of .yaml).during s!"Failed to parse YAML file: {file.text}")
  | .unreadable file fault => some ((Trouble.of (.io fault)).during s!"Failed to read {file.text}")

end ParseFault

def parseData (fault : ParseFault) (value : Option Datum) : Except ParseFault Parsed :=
  match value with
  | some v => .ok { Parsed.empty with keys := keyPaths v }
  | none => .error fault

/-- Reads a source as the format of its file says; recipe text is the rule for every other file. -/
def parseSource (s : Source) : Except ParseFault Parsed :=
  let blank := (Text.trim s.chars).isEmpty
  match Format.ofPath? s.file with
  | some .json =>
    if blank then .ok Parsed.empty
    else parseData (.malformedJson s.file) ((Json.readDoc? s.chars).bind (Json.Doc.datum? Json.nestingLimit))
  | some .yaml =>
    if blank then .ok Parsed.empty else parseData (.malformedYaml s.file) (Yaml.read? s.chars)
  | _ =>
    match parse? s with
    | some parsed => .ok parsed
    | none => .error .splitCharacter

end CookbookAtlas.Recipe
