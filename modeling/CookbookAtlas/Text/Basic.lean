import CookbookAtlas.Text.Class

/-! Operations on text as a list of characters: trimming, words, lines, and the measure of
a text in UTF-8 bytes with the cuts that go by it. -/
namespace CookbookAtlas.Text

def trimLeft (cs : List Char) : List Char := cs.dropWhile isBlank

def trimRight (cs : List Char) : List Char := (cs.reverse.dropWhile isBlank).reverse

def trim (cs : List Char) : List Char := trimRight (trimLeft cs)

/-- The words of `cs`, where `word` holds the characters of an open word, last one first. -/
def wordsFrom (word : List Char) : List Char → List (List Char)
  | [] => if word.isEmpty then [] else [word.reverse]
  | c :: cs =>
    if isBlank c then
      if word.isEmpty then wordsFrom [] cs else word.reverse :: wordsFrom [] cs
    else wordsFrom (c :: word) cs

def words (cs : List Char) : List (List Char) := wordsFrom [] cs

def collapse (cs : List Char) : List Char := List.intercalate [' '] (words cs)

/-- A line read backwards, without the carriage return at its end. -/
def dropReturn : List Char → List Char
  | '\r' :: line | line => line

/-- The lines of `cs`, where `line` holds the characters of an open line, last one first. -/
def linesFrom (line : List Char) : List Char → List (List Char)
  | [] => if line.isEmpty then [] else [line.reverse]
  | c :: cs =>
    if c = '\n' then (dropReturn line).reverse :: linesFrom [] cs
    else linesFrom (c :: line) cs

/-- Lines without their ends, which are a newline with or without a carriage return before it.
A last line without an end counts if it is not empty. -/
def lines (cs : List Char) : List (List Char) := linesFrom [] cs

def byteLength : List Char → Nat
  | [] => 0
  | c :: cs => c.utf8Size + byteLength cs

@[simp] theorem byteLength_nil : byteLength [] = 0 := rfl
@[simp] theorem byteLength_cons (c : Char) (cs : List Char) :
    byteLength (c :: cs) = c.utf8Size + byteLength cs := rfl

@[simp] theorem byteLength_append (xs ys : List Char) :
    byteLength (xs ++ ys) = byteLength xs + byteLength ys := by
  induction xs with
  | nil => simp
  | cons c xs ih => simp [ih, Nat.add_assoc]

/-- The text from byte `n` on; a cut inside a character is moved past it. -/
def dropBytes : Nat → List Char → List Char
  | 0, cs => cs
  | _ + 1, [] => []
  | n + 1, c :: cs => dropBytes (n + 1 - c.utf8Size) cs

def takeBytes : Nat → List Char → List Char
  | 0, _ | _ + 1, [] => []
  | n + 1, c :: cs => c :: takeBytes (n + 1 - c.utf8Size) cs

def slice (cs : List Char) (start stop : Nat) : List Char :=
  takeBytes (stop - start) (dropBytes start cs)

/-- The text from byte `n` on, or nothing when byte `n` is not the start of a character. -/
def cutBytes? : Nat → List Char → Option (List Char)
  | 0, cs => some cs
  | _ + 1, [] => none
  | n + 1, c :: cs => if c.utf8Size ≤ n + 1 then cutBytes? (n + 1 - c.utf8Size) cs else none

theorem dropBytes_append (xs ys : List Char) : dropBytes (byteLength xs) (xs ++ ys) = ys := by
  induction xs with
  | nil => cases ys <;> rfl
  | cons c xs ih =>
    have hc := c.utf8Size_pos
    obtain ⟨n, hn⟩ : ∃ n, c.utf8Size + byteLength xs = n + 1 :=
      ⟨c.utf8Size + byteLength xs - 1, by omega⟩
    simp only [byteLength_cons, List.cons_append, hn, dropBytes]
    rw [show n + 1 - c.utf8Size = byteLength xs by omega, ih]

theorem takeBytes_append (xs ys : List Char) : takeBytes (byteLength xs) (xs ++ ys) = xs := by
  induction xs with
  | nil => cases ys <;> rfl
  | cons c xs ih =>
    have hc := c.utf8Size_pos
    obtain ⟨n, hn⟩ : ∃ n, c.utf8Size + byteLength xs = n + 1 :=
      ⟨c.utf8Size + byteLength xs - 1, by omega⟩
    simp only [byteLength_cons, List.cons_append, hn, takeBytes]
    rw [show n + 1 - c.utf8Size = byteLength xs by omega, ih]

theorem slice_append (xs ys zs : List Char) :
    slice (xs ++ ys ++ zs) (byteLength xs) (byteLength xs + byteLength ys) = ys := by
  rw [slice, List.append_assoc, dropBytes_append, Nat.add_sub_cancel_left, takeBytes_append]

def after? : List Char → List Char → Option (List Char)
  | [], cs => some cs
  | _ :: _, [] => none
  | s :: start, c :: cs => if s = c then after? start cs else none

def occursIn (needle : List Char) : List Char → Bool
  | [] => needle.isEmpty
  | c :: cs => needle.isPrefixOf (c :: cs) || occursIn needle cs

def splitFirst? (mark : List Char) : List Char → Option (List Char × List Char)
  | [] => (after? mark []).map ([], ·)
  | c :: cs =>
    match after? mark (c :: cs) with
    | some rest => some ([], rest)
    | none => (splitFirst? mark cs).map fun p => (c :: p.1, p.2)

def splitLast? (mark : Char) : List Char → Option (List Char × List Char)
  | [] => none
  | c :: cs =>
    match splitLast? mark cs with
    | some (before, rest) => some (c :: before, rest)
    | none => if c = mark then some ([], cs) else none

def splitOnChar (mark : Char) : List Char → List (List Char)
  | [] => [[]]
  | c :: cs =>
    if c = mark then [] :: splitOnChar mark cs
    else match splitOnChar mark cs with
      | [] => [[c]]
      | field :: fields => (c :: field) :: fields

def trimmed (s : String) : String := String.ofList (trim s.toList)

def collapsed (s : String) : String := String.ofList (collapse s.toList)

def linesOf (s : String) : List String := (lines s.toList).map String.ofList

def hasPart (s part : String) : Bool := occursIn part.toList s.toList

theorem occursIn_iff (needle cs : List Char) : occursIn needle cs = true ↔ needle <:+: cs := by
  induction cs with
  | nil => simp [occursIn]
  | cons c cs ih => simp [occursIn, ih, List.infix_cons_iff]

theorem hasPart_iff (s part : String) : hasPart s part = true ↔ part.toList <:+: s.toList :=
  occursIn_iff _ _

end CookbookAtlas.Text
