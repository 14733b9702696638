import CookbookAtlas.Text.Basic

/-! Terminal styles of parts of the output. -/
namespace CookbookAtlas.CommandLine

inductive Style
  | name
  | heading
  | dim
  | good
  | bad
  | warning
  | fault
deriving DecidableEq

def Style.code : Style → String
  | .name => "1;36"
  | .heading => "1"
  | .dim => "2"
  | .good => "32"
  | .bad => "31"
  | .warning => "33"
  | .fault => "1;31"

def resetText : String := "\x1b[0m"

def Style.opening (s : Style) : String := "\x1b[" ++ s.code ++ "m"

/-- Text with every reset in it followed by the style again. -/
def renew (opening : List Char) : List Char → List Char
  | [] => []
  | c :: cs =>
    if resetText.toList.isPrefixOf (c :: cs) then
      resetText.toList ++ opening ++ renew opening (cs.drop (resetText.length - 1))
    else c :: renew opening cs
termination_by cs => cs.length
decreasing_by
  · simp only [List.length_drop, List.length_cons]; omega
  · simp

def styled (color : Bool) (s : Style) (text : String) : String :=
  if color then s.opening ++ String.ofList (renew s.opening.toList text.toList) ++ resetText
  else text

end CookbookAtlas.CommandLine
