/-! Patterns with `*`, `?` and bracketed sets. -/
namespace CookbookAtlas.Shell

abbrev Mark := Bool × Char

inductive Matcher
  | any
  | one
  | char (c : Char)
  | set (negated : Bool) (ranges : List (Char × Char))
deriving DecidableEq

def rangesOf : List Char → List (Char × Char)
  | a :: '-' :: b :: cs => (a, b) :: rangesOf cs
  | a :: cs => (a, a) :: rangesOf cs
  | [] => []

def setOf? (marks : List Mark) : Option (Matcher × List Mark) :=
  let negated := marks.head? == some (false, '!')
  let inner := if negated then marks.tail else marks
  match inner with
  | [] => none
  | first :: rest =>
    let more := rest.takeWhile (· != (false, ']'))
    if more.length < rest.length then
      some (.set negated (rangesOf ((first :: more).map Prod.snd)), rest.drop (more.length + 1))
    else none

def matchers : List Mark → List Matcher
  | [] => []
  | (false, '*') :: marks => .any :: matchers marks
  | (false, '?') :: marks => .one :: matchers marks
  | (false, '[') :: marks =>
    match setOf? marks with
    | some (m, rest) => if rest.length < marks.length then m :: matchers rest else [m]
    | none => .char '[' :: matchers marks
  | (_, c) :: marks => .char c :: matchers marks
termination_by marks => marks.length

def accepts : List Matcher → List Char → Bool
  | [], cs => cs.isEmpty
  | .any :: ms, [] => accepts ms []
  | .any :: ms, c :: cs => accepts ms (c :: cs) || accepts (.any :: ms) cs
  | _ :: _, [] => false
  | .one :: ms, _ :: cs => accepts ms cs
  | .char d :: ms, c :: cs => c == d && accepts ms cs
  | .set negated ranges :: ms, c :: cs =>
    ((ranges.any fun r => decide (r.1 ≤ c) && decide (c ≤ r.2)) != negated) && accepts ms cs
termination_by ms cs => ms.length + cs.length

def fits (pattern : List Mark) (text : List Char) : Bool := accepts (matchers pattern) text

def isWild (marks : List Mark) : Bool :=
  marks.any fun m => !m.1 && (m.2 == '*' || m.2 == '?' || m.2 == '[')

def markText (marks : List Mark) : List Char := marks.map Prod.snd

end CookbookAtlas.Shell
