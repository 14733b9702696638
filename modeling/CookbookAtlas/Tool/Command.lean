import CookbookAtlas.Path.Basic

/-! Calls of external tools as plain data. -/
namespace CookbookAtlas.Tool

def defaultTimeout : Nat := 300000

structure Command where
  program : String
  arguments : List String
  workingDir : Option Path
  environment : List (String × String)
  timeout : Nat
deriving DecidableEq

namespace Command

def plain (program : String) (arguments : List String) : Command :=
  ⟨program, arguments, none, [], defaultTimeout⟩

/-- The first argument, by which messages name the call. -/
def operation (c : Command) : String := c.arguments.headD "unknown"

def text (c : Command) : String := String.intercalate " " (c.program :: c.arguments)

end Command
end CookbookAtlas.Tool
