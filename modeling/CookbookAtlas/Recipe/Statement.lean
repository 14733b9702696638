import CookbookAtlas.Token.Basic

/-! Statements: tokens cut at line ends and semicolons outside brackets. A line that ends in an
operator or comma, or that is followed by a line starting with a point, goes on. -/
namespace CookbookAtlas.Recipe

abbrev Statement := List Token

/-- Whether a statement cannot end after a token of this kind. -/
def dangles : Token.Kind → Bool
  | .comma | .dot | .safeNavigation | .doubleColon | .fatArrow | .assign | .opAssign _
  | .op _ => true
  | .ident word => word == "and" || word == "or" || word == "not"
  | _ => false

def startsWithPoint (rest : List Token) : Bool :=
  match rest.find? fun t => !t.isNewline with
  | some t => t.kind == .dot || t.kind == .safeNavigation
  | none => false

/-- Whether a statement whose last token is `last` goes on past a line end before `rest`. -/
def continues (last : Token) (rest : List Token) : Bool := dangles last.kind || startsWithPoint rest

/-- The statement read so far, last token first, unless it is empty. -/
def finished (current : List Token) : List Statement :=
  if current.isEmpty then [] else [current.reverse]

/-- Statements of the rest of a token list; `current` holds the open statement, last token
first, and `depth` counts its open brackets. -/
def statementsFrom (depth : Nat) (current : List Token) : List Token → List Statement
  | [] => finished (current.dropWhile Token.isNewline)
  | t :: rest =>
    if depth = 0 ∧ t.kind = .newline then
      match current with
      | [] => statementsFrom 0 [] rest
      | last :: _ =>
        if continues last rest then statementsFrom 0 (t :: current) rest
        else current.reverse :: statementsFrom 0 [] rest
    else if depth = 0 ∧ t.kind = .semicolon then finished current ++ statementsFrom 0 [] rest
    else statementsFrom (t.kind.depthAfter depth) (t :: current) rest

def statements (tokens : List Token) : List Statement := statementsFrom 0 [] tokens

end CookbookAtlas.Recipe
