import CookbookAtlas.Literal.Evaluate
import CookbookAtlas.Recipe.Block
import CookbookAtlas.Recipe.Fact
import CookbookAtlas.Recipe.Source
import CookbookAtlas.Recipe.Vocabulary

/-! Statements that yield a fact: resource calls, references to other files, and attribute
assignments. -/
namespace CookbookAtlas.Recipe

/-- A single string literal stands for its value, anything else for its text; the second
component says whether it is computed. -/
def argument (s : Source) (toks : List Token) : String × Bool :=
  match toks with
  | [⟨.string value interpolated, _, _, _⟩] => (value, interpolated)
  | _ => (s.text toks, true)

def rulesOutCall : Token.Kind → Bool
  | .dot | .safeNavigation | .assign | .opAssign _ | .leftBracket | .doubleColon | .op _
  | .comma | .fatArrow => true
  | _ => false

/-- Names with a sigil or a mark at their end are no resource types. -/
def isPlainName (word : String) : Bool :=
  let first := word.toList.head?
  let last := word.toList.getLast?
  first != some '@' && first != some '$' && last != some '?' && last != some '!'

def isString : Token.Kind → Bool
  | .string _ _ => true
  | _ => false

def callsResource (word : String) (next : Option Token.Kind) (hasBlock : Bool) : Bool :=
  !isKeyword word && isPlainName word && !next.any rulesOutCall &&
    if isBuiltin word then next.isSome || hasBlock
    else word.toList.contains '_' && !isHelper word && next != some .leftParen &&
      (next.any isString || hasBlock)

def resourceCall? (s : Source) (head : List Token) (hasBlock : Bool) : Option Resource :=
  match head with
  | [] => none
  | first :: rest =>
    match first.ident? with
    | none => none
    | some word =>
      if callsResource word (rest.head?.map Token.kind) hasBlock then
        let named := (arguments (stripParens rest)).head?.map (argument s)
        some {
          file := s.file
          line := first.line
          resourceType := word
          name := named.map Prod.fst
          dynamicName := (named.map Prod.snd).getD false
          custom := !isBuiltin word
          properties := []
          raw := "" }
      else none

def references (s : Source) (kind : ReferenceKind) (toks : Statement) : List Reference :=
  let line := (toks.head?.map Token.line).getD 0
  (arguments (stripParens (toks.drop 1))).map fun arg =>
    let (target, dynamic) := argument s arg
    ⟨s.file, line, kind, target, dynamic⟩

def keyText (s : Source) (toks : List Token) : String :=
  match toks with
  | [⟨.string value false, _, _, _⟩] | [⟨.symbol value, _, _, _⟩] => value
  | _ => s.text toks

/-- Keys up to the assignment and the tokens after it. `path` holds the keys read so far, last
one first; `key` holds the depth and the tokens of a key between brackets, last one first. -/
def assignmentPath (s : Source) (path : List String) (key : Option (Nat × List Token)) :
    List Token → Option (List String × List Token)
  | [] => none
  | t :: rest =>
    match key with
    | some (depth, inside) =>
      if t.kind = .leftBracket then assignmentPath s path (some (depth + 1, t :: inside)) rest
      else if t.kind = .rightBracket then
        if depth = 0 then assignmentPath s (keyText s inside.reverse :: path) none rest
        else assignmentPath s path (some (depth - 1, t :: inside)) rest
      else assignmentPath s path (some (depth, t :: inside)) rest
    | none =>
      if t.kind = .leftBracket then assignmentPath s path (some (0, [])) rest
      else if t.kind = .dot then
        match rest with
        | [] => none
        | member :: after =>
          match member.ident? with
          | some name => assignmentPath s (name :: path) none after
          | none => none
      else if t.kind.isAssignment then some (path.reverse, rest)
      else none

def afterNode : List Token → List Token
  | node :: access :: rest =>
    if node.isWord "node" ∧ (access.kind = .dot ∨ access.kind = .safeNavigation) then rest
    else node :: access :: rest
  | toks => toks

/-- An assignment such as `default['a']['b'] = v` or `node.override.a.b ||= v`. -/
def assignment? (s : Source) (toks : Statement) : Option Assignment :=
  match afterNode toks with
  | [] => none
  | level :: rest =>
    match (level.ident?).bind Attribute.Precedence.ofWord?, assignmentPath s [] none rest with
    | some precedence, some (path, value) =>
      if path.isEmpty then none
      else
        let raw := s.text value
        some {
          file := s.file
          line := (toks.head?.map Token.line).getD 0
          precedence := precedence
          path := path
          rawValue := raw
          displayValue := display s.displayLimit raw
          value := Literal.evaluate? value }
    | _, _ => none

end CookbookAtlas.Recipe
