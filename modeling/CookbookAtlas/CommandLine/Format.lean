import CookbookAtlas.Failure

/-! Output formats of the commands. -/
namespace CookbookAtlas.CommandLine

def checkFormat (format : String) (accepted : List String) : Except Trouble Unit :=
  if accepted.contains format then .ok ()
  else .error (.ofFailure (.other
    ("Invalid format '" ++ format ++ "'. Valid formats are: " ++ String.intercalate ", " accepted)))

end CookbookAtlas.CommandLine
