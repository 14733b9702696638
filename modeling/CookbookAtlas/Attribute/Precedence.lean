/-! Precedence levels of attribute assignments. -/
namespace CookbookAtlas.Attribute

inductive Precedence
  | default
  | forceDefault
  | normal
  | setLevel
  | override
  | forceOverride
deriving DecidableEq

namespace Precedence

def word : Precedence → String
  | .default => "default"
  | .forceDefault => "force_default"
  | .normal => "normal"
  | .setLevel => "set"
  | .override => "override"
  | .forceOverride => "force_override"

def all :
    List Precedence := [.default, .forceDefault, .normal, .setLevel, .override, .forceOverride]

def ofWord? (word : String) : Option Precedence := all.find? fun p => p.word == word

def rank : Precedence → Nat
  | .default => 0
  | .forceDefault => 1
  | .normal | .setLevel => 2
  | .override => 3
  | .forceOverride => 4

end Precedence
end CookbookAtlas.Attribute
