import CookbookAtlas.Proofs.Recipe.Page

/-! Scripts: finite trees of resources, includes and control flow. A script has a canonical text,
one statement to a line, and a sketch, which is what its execution order has to be when file,
lines and raw texts are left out. -/
namespace CookbookAtlas.Recipe

open Token List Piece

/-- What is left of an item without its place in a file. -/
inductive Sketch
  | resource (type : String) (name : Option String) (dynamic custom : Bool) (properties : Properties)
  | inclusion (kind : ReferenceKind) (target : String) (dynamic : Bool)
  | block (kind : BlockKind) (condition : String) (parameters : List String) (children : List Sketch)

mutual
def Item.sketch : Item → Sketch
  | .resource r => .resource r.resourceType r.name r.dynamicName r.custom r.properties
  | .inclusion r => .inclusion r.kind r.target r.dynamic
  | .block heading children =>
    .block heading.kind heading.condition heading.parameters (sketchItems children)

def sketchItems : List Item → List Sketch
  | [] => []
  | item :: rest => item.sketch :: sketchItems rest
end

@[simp] theorem sketchItems_append (xs ys : List Item) :
    sketchItems (xs ++ ys) = sketchItems xs ++ sketchItems ys := by
  induction xs with
  | nil => rfl
  | cons x xs ih => simp [sketchItems, ih]

namespace Script

/-- A name in small letters that is no keyword. -/
structure Word where
  text : String
  isName : isName text.toList = true
  free : isKeyword text = false

structure Builtin where
  text : String
  known : text ∈ builtinResources

/-- A property that is captured by name. -/
structure Property where
  text : String
  known : text ∈ knownProperties

mutual
inductive Step
  | resource (type : Builtin) (name : String)
  | resourceBlock (type : Builtin) (name : String) (properties : List (Property × String))
  | inclusion (target : String)
  | ifElse (condition : Word) (body : List Step) (rest : Clauses)
  | unlessElse (condition : Word) (body : List Step) (rest : Clauses)
  | caseOf (subject : Word) (arms : Clauses)
  | whileLoop (condition : Word) (body : List Step)
  | each (collection : Word) (parameters : List Word) (body : List Step)

/-- The `elsif` clauses of a chain or the `when` arms of a `case`, and the `else` after them. -/
inductive Clauses
  | done
  | otherwise (body : List Step)
  | also (condition : Word) (body : List Step) (rest : Clauses)
end

theorem Builtin.isName (t : Builtin) : Token.isName t.text.toList = true := by
  have h : ∀ w ∈ builtinResources, Token.isName w.toList = true := by decide +kernel
  exact h t.text t.known

theorem Property.isName (k : Property) : Token.isName k.text.toList = true := by
  have h : ∀ w ∈ knownProperties, Token.isName w.toList = true := by decide +kernel
  exact h k.text k.known

theorem isName_blockWord (kind : BlockKind) : Token.isName kind.word.toList = true := by
  cases kind <;> decide +kernel

theorem Word.not_dangles (w : Word) : dangles (.ident w.text) = false := by
  have hfree := w.free
  have h : ∀ u ∈ ["and", "or", "not"], isKeyword u = true := by decide
  simp only [dangles, Bool.or_eq_false_iff, beq_eq_false_iff_ne]
  refine ⟨⟨?_, ?_⟩, ?_⟩ <;>
  · intro heq
    rw [heq] at hfree
    simp [h] at hfree

def single (w : String) (hname : Token.isName w.toList = true)
    (hends : dangles (.ident w) = false) : Line where
  pieces := [.name w]
  spelled rest := ⟨reads_name hname (endsName_of_mark (by decide) rest), trivial⟩
  whole := ⟨by simp [kinds, Piece.name], rfl, by simp [kinds, Piece.name], _, rfl, hends⟩

def call (w : String) (hname : Token.isName w.toList = true) (value : String) : Line where
  pieces := [.name w, .space, .quoted value]
  spelled rest :=
    ⟨reads_name hname (endsName_of_mark (by decide) _), reads_space _, reads_quoted value _,
      trivial⟩
  whole := ⟨by simp [kinds, Piece.name, Piece.space, Piece.quoted], rfl,
    by simp [kinds, Piece.name, Piece.space, Piece.quoted], _, rfl, rfl⟩

def opening (t : Builtin) (value : String) : Line where
  pieces := [.name t.text, .space, .quoted value, .space, .name "do"]
  spelled rest :=
    ⟨reads_name t.isName (endsName_of_mark (by decide) _), reads_space _, reads_quoted value _,
      reads_space _, reads_name (by decide +kernel) (endsName_of_mark (by decide) _), trivial⟩
  whole := ⟨by simp [kinds, Piece.name, Piece.space, Piece.quoted], rfl,
    by simp [kinds, Piece.name, Piece.space, Piece.quoted], .ident "do", rfl, by decide⟩

def clause (kind : BlockKind) (w : Word) : Line where
  pieces := [.name kind.word, .space, .name w.text]
  spelled rest :=
    ⟨reads_name (isName_blockWord kind) (endsName_of_mark (by decide) _), reads_space _,
      reads_name w.isName (endsName_of_mark (by decide) _), trivial⟩
  whole := ⟨by simp [kinds, Piece.name, Piece.space], rfl, by simp [kinds, Piece.name, Piece.space],
    _, rfl, w.not_dangles⟩

def moreParameters (ws : List Word) : List Piece :=
  ws.flatMap fun w => [.mark ',' .comma, .space, .name w.text]

def parameters : List Word → List Piece
  | [] => []
  | w :: ws => [.space, .mark '|' .pipe, .name w.text] ++ moreParameters ws ++ [.mark '|' .pipe]

theorem spell_moreParameters (ws : List Word) (rest : List Char) :
    ∃ c cs, spell (moreParameters ws) ++ '|' :: rest = c :: cs ∧
      c ∈ nameStops := by
  cases ws with
  | nil => exact ⟨'|', rest, rfl, by decide⟩
  | cons w ws => exact ⟨',', _, rfl, by decide⟩

theorem Word.head_ne (w : Word) {d : Char} (hd : Text.isAlphabetic d = false) (rest : List Char) :
    (w.text.toList ++ rest).head? ≠ some d := by
  have hname := w.isName
  cases htext : w.text.toList with
  | nil => simp [htext, Token.isName] at hname
  | cons c cs =>
    simp only [htext, Token.isName, Bool.and_eq_true] at hname
    simpa using Text.ne_of_isAlphabetic hname.1.1 hd

theorem spelled_moreParameters (ws : List Word) (rest : List Char) :
    Spelled (moreParameters ws) ('|' :: rest) := by
  induction ws with
  | nil => trivial
  | cons w ws ih =>
    obtain ⟨c, cs, hnext, hc⟩ := spell_moreParameters ws rest
    have hends : EndsName (spell (moreParameters ws) ++ '|' :: rest) :=
      hnext ▸ endsName_of_mark hc cs
    exact ⟨reads_bracket rfl _, reads_space _, reads_name w.isName hends, ih⟩

theorem spelled_parameters (ws : List Word) (rest : List Char) :
    Spelled (parameters ws) ('\n' :: rest) := by
  cases ws with
  | nil => trivial
  | cons w ws =>
    obtain ⟨c, cs, hnext, hc⟩ := spell_moreParameters ws ('\n' :: rest)
    have hends : EndsName (spell (moreParameters ws) ++ '|' :: '\n' :: rest) :=
      hnext ▸ endsName_of_mark hc cs
    refine Spelled.append (Spelled.append ⟨reads_space _, reads_pipe ⟨?_, ?_⟩, ?_, trivial⟩ ?_)
      ⟨reads_pipe (by simp), trivial⟩
    · rw [spell_cons, append_assoc]
      exact w.head_ne (d := '|') (by decide) _
    · rw [spell_cons, append_assoc]
      exact w.head_ne (d := '=') (by decide) _
    · exact reads_name w.isName hends
    · exact spelled_moreParameters ws _

theorem kinds_moreParameters (ws : List Word) :
    kinds (moreParameters ws) = ws.flatMap fun w => [.comma, .ident w.text] := by
  induction ws with
  | nil => rfl
  | cons w ws ih =>
    have h : moreParameters (w :: ws) =
        [.mark ',' .comma, .space, .name w.text] ++ moreParameters ws := rfl
    rw [h, kinds_append, ih]
    rfl

theorem kinds_parameters_cons (w : Word) (ws : List Word) :
    kinds (parameters (w :: ws)) =
      [.pipe, .ident w.text] ++ (ws.flatMap fun v => [.comma, .ident v.text]) ++ [.pipe] := by
  rw [parameters, kinds_append, kinds_append, kinds_moreParameters]
  rfl

theorem mem_kinds_parameters {ws : List Word} {k : Kind} (hk : k ∈ kinds (parameters ws)) :
    k = .pipe ∨ k = .comma ∨ ∃ w : Word, k = .ident w.text := by
  cases ws with
  | nil => simp [kinds, parameters] at hk
  | cons w ws =>
    simp only [kinds_parameters_cons, mem_append, mem_flatMap, mem_cons, not_mem_nil,
      or_false] at hk
    rcases hk with ((rfl | rfl) | ⟨v, -, rfl | rfl⟩) | rfl
    · exact .inl rfl
    · exact .inr (.inr ⟨w, rfl⟩)
    · exact .inr (.inl rfl)
    · exact .inr (.inr ⟨v, rfl⟩)
    · exact .inl rfl

def eachLine (w : Word) (ws : List Word) : Line where
  pieces := [.name w.text, .mark '.' .dot, .name "each", .space, .name "do"] ++ parameters ws
  spelled rest := by
    refine Spelled.append ?_ (spelled_parameters ws rest)
    refine ⟨reads_name w.isName (endsName_of_mark (by decide) _), reads_dot (by simp [Piece.name]),
      reads_name (by decide +kernel) (endsName_of_mark (by decide) _), reads_space _,
      reads_name (by decide +kernel) ?_, trivial⟩
    cases ws with
    | nil | cons v vs => exact endsName_of_mark (by decide) _
  whole := by
    have hkinds : kinds ([.name w.text, .mark '.' .dot, .name "each", .space, .name "do"] ++ parameters ws) =
        [.ident w.text, .dot, .ident "each", .ident "do"] ++ kinds (parameters ws) := rfl
    have hparameters : ∀ k ∈ [.ident w.text, .dot, .ident "each", .ident "do"] ++ kinds (parameters ws),
        k = .dot ∨ k = .pipe ∨ k = .comma ∨ ∃ v, k = .ident v := by
      intro k hk
      rcases mem_append.mp hk with hk | hk
      · simp only [mem_cons, not_mem_nil, or_false] at hk
        rcases hk with rfl | rfl | rfl | rfl <;> simp
      · rcases mem_kinds_parameters hk with rfl | rfl | ⟨v, rfl⟩ <;> simp
    rw [hkinds]
    refine ⟨?_, foldl_depthAfter ?_ 0, by simp, ?_⟩
    · intro k hk
      rcases hparameters k hk with rfl | rfl | rfl | ⟨v, rfl⟩ <;> simp
    · intro k hk
      rcases hparameters k hk with rfl | rfl | rfl | ⟨v, rfl⟩ <;> exact ⟨rfl, rfl⟩
    · cases ws with
      | nil => exact ⟨.ident "do", rfl, by decide⟩
      | cons v vs =>
        exact ⟨.pipe, by rw [kinds_parameters_cons, ← append_assoc, List.getLast?_concat], rfl⟩

def elseLine : Line := single "else" (by decide +kernel) (by decide)
def endLine : Line := single "end" (by decide +kernel) (by decide)

def propertyLine (p : Property × String) : Line := call p.1.text p.1.isName p.2

def includeLine (target : String) : Line := call "include_recipe" (by decide +kernel) target

mutual
def Step.lines : Step → List Line
  | .resource type name => [call type.text type.isName name]
  | .resourceBlock type name properties =>
    opening type name :: (properties.map propertyLine ++ [endLine])
  | .inclusion target => [includeLine target]
  | .ifElse condition body rest =>
    clause .ifBlock condition :: (linesOf body ++ (rest.lines .elsifBlock ++ [endLine]))
  | .unlessElse condition body rest =>
    clause .unlessBlock condition :: (linesOf body ++ (rest.lines .elsifBlock ++ [endLine]))
  | .caseOf subject arms => clause .caseBlock subject :: (arms.lines .whenArm ++ [endLine])
  | .whileLoop condition body => clause .whileLoop condition :: (linesOf body ++ [endLine])
  | .each collection ws body => eachLine collection ws :: (linesOf body ++ [endLine])

def linesOf : List Step → List Line
  | [] => []
  | step :: rest => step.lines ++ linesOf rest

/-- The lines of clauses that start with the word of `kind`. -/
def Clauses.lines (kind : BlockKind) : Clauses → List Line
  | .done => []
  | .otherwise body => elseLine :: linesOf body
  | .also condition body rest => clause kind condition :: (linesOf body ++ rest.lines kind)
end

def text (script : List Step) : List Char := written (linesOf script)

/-- Adds properties in the order of their lines; a value is kept as it is written. -/
def collect (kept : Properties) (properties : List (Property × String)) : Properties :=
  properties.foldl (fun kept p => kept.add p.1.text (String.ofList (Piece.quoted p.2).text)) kept

mutual
/-- The execution order that a step stands for: the clauses of a chain are siblings, the arms of a
`case` are its children. -/
def Step.sketch : Step → List Sketch
  | .resource type name => [.resource type.text (some name) false false []]
  | .resourceBlock type name properties =>
    [.resource type.text (some name) false false (collect [] properties)]
  | .inclusion target => [.inclusion .includeRecipe target false]
  | .ifElse condition body rest =>
    .block .ifBlock ("if " ++ condition.text) [] (sketchOf body) :: rest.sketch .elsifBlock
  | .unlessElse condition body rest =>
    .block .unlessBlock ("unless " ++ condition.text) [] (sketchOf body) :: rest.sketch .elsifBlock
  | .caseOf subject arms => [.block .caseBlock ("case " ++ subject.text) [] (arms.sketch .whenArm)]
  | .whileLoop condition body => [.block .whileLoop ("while " ++ condition.text) [] (sketchOf body)]
  | .each collection ws body =>
    [.block .eachLoop (collection.text ++ ".each") (ws.map Word.text) (sketchOf body)]

def sketchOf : List Step → List Sketch
  | [] => []
  | step :: rest => step.sketch ++ sketchOf rest

def Clauses.sketch (kind : BlockKind) : Clauses → List Sketch
  | .done => []
  | .otherwise body => [.block .elseBlock "else" [] (sketchOf body)]
  | .also condition body rest =>
    .block kind (kind.word ++ " " ++ condition.text) [] (sketchOf body) :: rest.sketch kind
end

end Script
end CookbookAtlas.Recipe
