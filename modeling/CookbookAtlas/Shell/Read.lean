import CookbookAtlas.Shell.Token

/-! Reading the commands of a script. -/
namespace CookbookAtlas.Shell

/-- The word that a token is, if nothing in it is quoted. -/
def Token.plain? : Token → Option String
  | .word _ w => (Shell.plain? w).map String.ofList
  | _ => none

def reserved (ts : List Token) : Option String := ts.head?.bind Token.plain?

def closers : List String := ["then", "else", "elif", "fi", "do", "done", "esac", "\x7d"]

def endsList (ts : List Token) : Bool :=
  match ts with
  | [] | .mark ")" :: _ | .mark ";;" :: _ => true
  | _ => (reserved ts).any closers.contains

def skipLines (ts : List Token) : List Token := ts.dropWhile (· == .mark "\n")

def expect (word : String) (ts : List Token) : Option (List Token) :=
  if reserved ts = some word then some ts.tail else none

def expectMark (text : String) (ts : List Token) : Option (List Token) :=
  if ts.head? = some (.mark text) then some ts.tail else none

def assignment? (w : Word) : Option (String × Word) :=
  let leading := w.takeWhile fun p => match p with
    | .text false [c] => isNameChar c
    | _ => false
  let name := unquoted leading
  match w.drop leading.length, name with
  | .text false ['='] :: value, c :: _ =>
    if Text.isAsciiDigit c then none else some (String.ofList name, value)
  | _, _ => none

def redirects : Nat → List Token → Option (List Redirect × List Token)
  | 0, _ => none
  | fuel + 1, .redirect descriptor direction (some text) :: ts =>
    (redirects fuel ts).map fun (rs, ts) => (⟨descriptor, direction, text⟩ :: rs, ts)
  | fuel + 1, .redirect descriptor direction none :: .word _ w :: ts =>
    (redirects fuel ts).map fun (rs, ts) => (⟨descriptor, direction, w⟩ :: rs, ts)
  | _, .redirect _ _ none :: _ => none
  | _, ts => some ([], ts)

def simpleParts : Nat → List Token → Option (List Word × List Redirect × List Token)
  | 0, _ => none
  | fuel + 1, .word _ w :: ts => (simpleParts fuel ts).map fun (ws, rs, ts) => (w :: ws, rs, ts)
  | fuel + 1, .redirect d r t :: ts =>
    match redirects (ts.length + 2) (.redirect d r t :: ts) with
    | some (rs, ts) => (simpleParts fuel ts).map fun (ws, more, ts) => (ws, rs ++ more, ts)
    | none => none
  | _, ts => some ([], [], ts)

def splitAssignments : List Word → List (String × Word) × List Word
  | [] => ([], [])
  | w :: ws =>
    match assignment? w with
    | some a =>
      let (as, rest) := splitAssignments ws
      (a :: as, rest)
    | none => ([], w :: ws)

def wordsUntilEnd : List Token → List Word × List Token
  | .word _ w :: ts =>
    let (ws, rest) := wordsUntilEnd ts
    (w :: ws, rest)
  | ts => ([], ts)

def patterns : List Token → Option (List Word × List Token)
  | .word _ w :: .mark ")" :: ts => some ([w], ts)
  | .word _ w :: .mark "|" :: ts => (patterns ts).map fun (ws, ts) => (w :: ws, ts)
  | _ => none

def withRedirects (line : Nat) (c : Command) : List Redirect → Command
  | [] => c
  | rs => .redirected line c rs

def lineOf : List Token → Nat
  | .word line _ :: _ => line
  | _ => 1

mutual

def list : Nat → List Token → Option (List Command × List Token)
  | 0, _ => none
  | fuel + 1, ts =>
    let ts := skipLines ts
    if endsList ts then some ([], ts)
    else match andOr fuel ts with
      | none => none
      | some (c, ts) =>
        match ts with
        | .mark ";" :: ts | .mark "\n" :: ts | .mark "&" :: ts =>
          (list fuel ts).map fun (cs, ts) => (c :: cs, ts)
        | ts => if endsList ts then some ([c], ts) else none

def andOr : Nat → List Token → Option (Command × List Token)
  | 0, _ => none
  | fuel + 1, ts =>
    match pipeline fuel ts with
    | some (first, ts) => andOrRest fuel first ts
    | none => none

def andOrRest : Nat → Command → List Token → Option (Command × List Token)
  | 0, _, _ => none
  | fuel + 1, first, .mark "&&" :: ts =>
    match pipeline fuel (skipLines ts) with
    | some (second, ts) => andOrRest fuel (.both first second) ts
    | none => none
  | fuel + 1, first, .mark "||" :: ts =>
    match pipeline fuel (skipLines ts) with
    | some (second, ts) => andOrRest fuel (.either first second) ts
    | none => none
  | _, first, ts => some (first, ts)

def pipeline : Nat → List Token → Option (Command × List Token)
  | 0, _ => none
  | fuel + 1, ts =>
    if reserved ts = some "!" then
      (pipeline fuel ts.tail).map fun (c, ts) => (.negated c, ts)
    else match command fuel ts with
      | some (first, .mark "|" :: ts) =>
        match pipeline fuel (skipLines ts) with
        | some (.pipe parts, ts) => some (.pipe (first :: parts), ts)
        | some (second, ts) => some (.pipe [first, second], ts)
        | none => none
      | result => result

def command : Nat → List Token → Option (Command × List Token)
  | 0, _ => none
  | fuel + 1, ts =>
    let line := lineOf ts
    let finish (c : Command) (ts : List Token) : Option (Command × List Token) :=
      (redirects (ts.length + 1) ts).map fun (rs, ts) => (withRedirects line c rs, ts)
    match ts with
    | .mark "(" :: rest => do
      let (body, rest) ← list fuel rest
      finish (.subshell body) (← expectMark ")" rest)
    | .word _ w :: .mark "(" :: .mark ")" :: rest => do
      let (body, rest) ← command fuel (skipLines rest)
      some (.define (String.ofList (unquoted w)) body, rest)
    | _ =>
      match reserved ts with
      | some "\x7b" => do
        let (body, rest) ← list fuel ts.tail
        finish (.group body) (← expect "\x7d" rest)
      | some "if" => do
        let (c, rest) ← branches fuel ts.tail
        finish c rest
      | some "while" => do
        let (condition, rest) ← list fuel ts.tail
        let (body, rest) ← list fuel (← expect "do" rest)
        finish (.loop true condition body) (← expect "done" rest)
      | some "until" => do
        let (condition, rest) ← list fuel ts.tail
        let (body, rest) ← list fuel (← expect "do" rest)
        finish (.loop false condition body) (← expect "done" rest)
      | some "for" => do
        let name ← reserved ts.tail
        let rest := skipLines ts.tail.tail
        let (words, rest) := if reserved rest = some "in" then wordsUntilEnd rest.tail
          else ([[.parameter true ['@']]], rest)
        let rest := skipLines (if rest.head? = some (.mark ";") then rest.tail else rest)
        let (body, rest) ← list fuel (← expect "do" rest)
        finish (.each name words body) (← expect "done" rest)
      | some "case" =>
        match ts.tail with
        | .word _ w :: rest => do
          let (cases, rest) ← arms fuel (← expect "in" (skipLines rest))
          finish (.select w cases) (← expect "esac" rest)
        | _ => none
      | _ => do
        let (words, rs, rest) ← simpleParts (ts.length + 1) ts
        if words.isEmpty && rs.isEmpty then none
        else
          let (assignments, words) := splitAssignments words
          some (withRedirects line (.simple line assignments words) rs, rest)

def branches : Nat → List Token → Option (Command × List Token)
  | 0, _ => none
  | fuel + 1, ts => do
    let (condition, rest) ← list fuel ts
    let (body, rest) ← list fuel (← expect "then" rest)
    match reserved rest with
    | some "elif" =>
      let (c, rest) ← branches fuel rest.tail
      some (.choice condition body [c], rest)
    | some "else" =>
      let (otherwise, rest) ← list fuel rest.tail
      some (.choice condition body otherwise, ← expect "fi" rest)
    | _ => some (.choice condition body [], ← expect "fi" rest)

def arms : Nat → List Token → Option (List (List Word × List Command) × List Token)
  | 0, _ => none
  | fuel + 1, ts =>
    let ts := skipLines ts
    if reserved ts = some "esac" then some ([], ts)
    else do
      let (words, rest) ← patterns (if ts.head? = some (.mark "(") then ts.tail else ts)
      let (body, rest) ← list fuel rest
      match rest with
      | .mark ";;" :: rest => (arms fuel rest).map fun (more, rest) => ((words, body) :: more, rest)
      | rest => some ([(words, body)], skipLines rest)

end

def read? (script : List Char) : Option (List Command) :=
  match tokens? script with
  | none => none
  | some ts =>
    match list (8 * ts.length + 8) ts with
    | some (cs, []) => some cs
    | _ => none

end CookbookAtlas.Shell
