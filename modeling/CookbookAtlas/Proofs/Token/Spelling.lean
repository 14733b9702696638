import CookbookAtlas.Proofs.Text.Class
import CookbookAtlas.Token.Scan

/-! Written text and the tokens it is cut into. A text is spelled by pieces; a piece that is one
lexeme before what follows it leaves its token, whatever stands before it, so the scan of a
spelled text is the list of its pieces' tokens. -/
namespace CookbookAtlas.Token

open List Text

/-- A piece of text, with the kind of the token that it stands for, if it stands for one. -/
structure Piece where
  text : List Char
  kind : Option Kind

variable {c : Char} {rest w : List Char} {ps : List Piece}

def spell (ps : List Piece) : List Char := ps.flatMap Piece.text

@[simp] theorem spell_nil : spell [] = [] := rfl
@[simp] theorem spell_cons (p : Piece) (ps : List Piece) : spell (p :: ps) = p.text ++ spell ps :=
  rfl
@[simp] theorem spell_append (ps qs : List Piece) : spell (ps ++ qs) = spell ps ++ spell qs := by
  simp [spell]

namespace Place

@[simp] theorem past_nil (p : Place) : p.past [] = p := rfl
@[simp] theorem past_append (p : Place) (xs ys : List Char) :
    p.past (xs ++ ys) = (p.past xs).past ys := by
  simp [past]

theorem offset_past (p : Place) (cs : List Char) :
    (p.past cs).offset = p.offset + byteLength cs := by
  induction cs generalizing p with
  | nil => rfl
  | cons c cs ih =>
    have h := ih (p.next c)
    simp only [past, foldl_cons, byteLength_cons] at h ⊢
    rw [h]
    simp only [next]
    omega

theorem past_cons (p : Place) (c : Char) (cs : List Char) : p.past (c :: cs) = (p.next c).past cs :=
  rfl

theorem line_past (p : Place) (cs : List Char) : (p.past cs).line = p.line + cs.count '\n' := by
  induction cs generalizing p with
  | nil => rfl
  | cons c cs ih =>
    rw [past_cons, ih]
    by_cases hc : c = '\n' <;> simp [next, hc, Nat.add_assoc, Nat.add_comm 1]

theorem line_le_past (p : Place) (cs : List Char) : p.line ≤ (p.past cs).line := by
  rw [line_past]
  exact Nat.le_add_right _ _

end Place

def Piece.tokens (p : Piece) (place : Place) : List Token :=
  p.kind.toList.map fun kind => ⟨kind, place.line, place.offset, (place.past p.text).offset⟩

def tokensAt (place : Place) : List Piece → List Token
  | [] => []
  | p :: ps => p.tokens place ++ tokensAt (place.past p.text) ps

@[simp] theorem tokensAt_append (place : Place) (ps qs : List Piece) :
    tokensAt place (ps ++ qs) = tokensAt place ps ++ tokensAt (place.past (spell ps)) qs := by
  induction ps generalizing place with
  | nil => rfl
  | cons p ps ih => simp [tokensAt, ih]

def kinds (ps : List Piece) : List Kind := ps.filterMap Piece.kind

@[simp] theorem kinds_append (ps qs : List Piece) : kinds (ps ++ qs) = kinds ps ++ kinds qs := by
  simp [kinds]

@[simp] theorem map_kind_tokensAt (place : Place) (ps : List Piece) :
    (tokensAt place ps).map Token.kind = kinds ps := by
  induction ps generalizing place with
  | nil => rfl
  | cons p ps ih =>
    have h := ih (place.past p.text)
    cases hk : p.kind with
    | none | some kind => simpa [tokensAt, Piece.tokens, kinds, hk] using h

theorem foldl_depthAfter {ks : List Kind} (h : ∀ k ∈ ks, k.isOpening = false ∧ k.isClosing = false)
    (depth : Nat) : ks.foldl (fun depth k => k.depthAfter depth) depth = depth := by
  induction ks with
  | nil => rfl
  | cons k ks ih =>
    obtain ⟨hopen, hclose⟩ := h k (by simp)
    have hk : k.depthAfter depth = depth := by simp [Kind.depthAfter, hopen, hclose]
    rw [foldl_cons, hk, ih fun l hl => h l (by simp [hl])]

/-- `p` before `rest` is one lexeme, whatever stands before it. -/
def Piece.Reads (p : Piece) (rest : List Char) : Prop :=
  ∃ c cs, p.text = c :: cs ∧
    ∀ last fresh start, readLexeme last fresh start c (cs ++ rest) = ⟨p.kind, cs.length, none⟩

/-- Each piece is one lexeme before the pieces after it and `rest`. -/
def Spelled : List Piece → List Char → Prop
  | [], _ => True
  | p :: ps, rest => p.Reads (spell ps ++ rest) ∧ Spelled ps rest

theorem Spelled.append {qs : List Piece} (hp : Spelled ps (spell qs ++ rest))
    (hq : Spelled qs rest) : Spelled (ps ++ qs) rest := by
  induction ps with
  | nil => exact hq
  | cons p ps ih => exact ⟨by simpa using hp.1, ih hp.2⟩

theorem scanFrom_piece {p : Piece} (h : p.Reads rest) (place : Place) (tokens : List Token) :
    scanFrom ⟨place, tokens, []⟩ (p.text ++ rest) =
      scanFrom ⟨place.past p.text, p.tokens place ++ tokens, []⟩ rest := by
  obtain ⟨c, cs, htext, hread⟩ := h
  rw [htext, cons_append, scanFrom, hread]
  have htake : (cs ++ rest).take cs.length = cs := by simp
  have hdrop : (cs ++ rest).drop cs.length = rest := by simp
  cases hk : p.kind with
  | none | some kind => simp [Scan.take, Piece.tokens, htext, hk]

theorem scanFrom_spelled (h : Spelled ps rest) (place : Place) (tokens : List Token) :
    scanFrom ⟨place, tokens, []⟩ (spell ps ++ rest) =
      scanFrom ⟨place.past (spell ps), (tokensAt place ps).reverse ++ tokens, []⟩ rest := by
  induction ps generalizing place tokens with
  | nil => rfl
  | cons p ps ih =>
    have hone : (p.tokens place).reverse = p.tokens place := by
      cases hk : p.kind <;> simp [Piece.tokens, hk]
    rw [spell_cons, append_assoc, scanFrom_piece h.1, ih h.2]
    simp [tokensAt, hone]

theorem scan?_spell (h : Spelled ps []) : scan? (spell ps) = some (tokensAt Place.start ps) := by
  have hs := scanFrom_spelled h Place.start []
  rw [append_nil, append_nil] at hs
  rw [scan?, Scan.start, hs, scanFrom]
  simp

/-- Characters that start a lexeme with a rule of its own. -/
def special : List Char :=
  ['=', '_', ' ', '\t', '\r', '\\', '\n', '#', '"', Char.ofNat 96, '\'', '%', '<', '/', ':']

theorem readLexeme_plain (h : c ∉ special) (last : Option Kind) (fresh : Bool) (start : Nat)
    (cs : List Char) : readLexeme last fresh start c cs =
      if isAsciiDigit c then
        .token (.number (String.ofList (readNumber (c :: cs)))) ((readNumber (c :: cs)).length - 1)
      else if isAlphabetic c || c == '_' || c == '@' || c == '$' then readName (c :: cs)
      else readPunctuation c cs := by
  simp only [special, List.mem_cons, List.not_mem_nil, or_false, not_or] at h
  obtain ⟨heq, hunder, hspace, htab, hreturn, hback, hline, hhash, hdouble, hgrave, hquote,
      hpercent, hless,
    hslash, hcolon⟩ := h
  have hbegin : "=begin".toList.isPrefixOf (c :: cs) = false := by
    rw [show "=begin".toList = ['=', 'b', 'e', 'g', 'i', 'n'] from rfl, List.isPrefixOf,
      beq_false_of_ne (Ne.symm heq), Bool.false_and]
  have hend : "__END__".toList.isPrefixOf (c :: cs) = false := by
    rw [show "__END__".toList = ['_', '_', 'E', 'N', 'D', '_', '_'] from rfl, List.isPrefixOf,
      beq_false_of_ne (Ne.symm hunder), Bool.false_and]
  have hrich : isRichMark c = false := by
    have hb : c.toNat ≠ 96 := by
      intro hn
      exact hgrave (by rw [← hn, Char.ofNat_toNat])
    simp [isRichMark, hdouble, hb]
  rw [readLexeme, hbegin, hend, hrich]
  simp [hspace, htab, hreturn, hback, hline, hhash, hquote, hpercent, hless, hslash, hcolon]

theorem readLexeme_letter (hc : isAlphabetic c = true) (last : Option Kind) (fresh : Bool)
    (start : Nat) (cs : List Char) : readLexeme last fresh start c cs = readName (c :: cs) := by
  have hplain : c ∉ special := by
    intro hmem
    have hnone : (special.all fun d => !isAlphabetic d) = true := by decide +kernel
    simpa [hc] using List.all_eq_true.mp hnone c hmem
  rw [readLexeme_plain hplain, not_isAsciiDigit_of_isAlphabetic hc, hc]
  rfl

theorem readLexeme_digit (hc : isAsciiDigit c = true) (last : Option Kind) (fresh : Bool)
    (start : Nat) (cs : List Char) : readLexeme last fresh start c cs =
      .token (.number (String.ofList (readNumber (c :: cs)))) ((readNumber (c :: cs)).length - 1) := by
  have hplain : c ∉ special := by
    intro hmem
    have hnone : (special.all fun d => !isAsciiDigit d) = true := by decide +kernel
    simpa [hc] using List.all_eq_true.mp hnone c hmem
  rw [readLexeme_plain hplain, if_pos hc]

/-- Names in small letters: a letter that is no capital, then letters, digits and underscores. -/
def isName : List Char → Bool
  | [] => false
  | c :: cs => isAlphabetic c && !isUppercase c && cs.all isWordChar

def EndsName (rest : List Char) : Prop :=
  ∀ c ∈ rest.head?, isWordChar c = false ∧ c ≠ ':' ∧ c ≠ '?' ∧ c ≠ '!'

def nameStops : List Char := [' ', '\n', ',', '.', '|', '[', ']', '\x7d']

theorem endsName_of_mark (hc : c ∈ nameStops) (rest : List Char) : EndsName (c :: rest) := by
  have h : (nameStops.all fun d => !isWordChar d && d != ':' && d != '?' && d != '!') = true := by
    decide +kernel
  have hmark : isWordChar c = false ∧ c ≠ ':' ∧ c ≠ '?' ∧ c ≠ '!' := by
    simpa [and_assoc] using List.all_eq_true.mp h c hc
  intro d hd
  simp only [List.head?_cons, Option.mem_some_iff] at hd
  exact hd ▸ hmark

theorem isAlphanumeric_of_isAlphabetic (h : isAlphabetic c = true) : isAlphanumeric c = true := by
  by_cases ha : isAscii c = true
  · simp_all [isAlphabetic, isAlphanumeric, isAsciiAlphanumeric]
  · simp_all [isAlphabetic, isAlphanumeric]

theorem isWordChar_of_mem (hw : isName w = true) (hc : c ∈ w) : isWordChar c = true := by
  cases w with
  | nil => simp at hc
  | cons d ds =>
    simp only [isName, Bool.and_eq_true, List.all_eq_true] at hw
    rcases List.mem_cons.mp hc with rfl | hc
    · simp [isWordChar, isAlphanumeric_of_isAlphabetic hw.1.1]
    · exact hw.2 c hc

theorem not_isBlank_of_isWordChar (h : isWordChar c = true) : isBlank c = false := by
  simp only [isWordChar, Bool.or_eq_true, beq_iff_eq] at h
  rcases h with h | rfl
  · exact not_isBlank_of_isAlphanumeric h
  · rfl

theorem takeWhile_append_of_all {p : Char → Bool} (hw : ∀ c ∈ w, p c = true)
    (hrest : ∀ c ∈ rest.head?, p c = false) : (w ++ rest).takeWhile p = w := by
  have htail : rest.takeWhile p = [] := by
    cases rest with
    | nil => rfl
    | cons c cs => simp [hrest c (by simp)]
  rw [List.takeWhile_append_of_pos hw, htail, List.append_nil]

theorem readWord_name (hw : isName w = true) (hrest : EndsName rest) :
    readWord (w ++ rest) = w := by
  cases w with
  | nil => simp [isName] at hw
  | cons c cs =>
    have hc : isAlphabetic c = true := by simp_all [isName]
    have hat : c ≠ '@' := ne_of_isAlphabetic hc rfl
    have hdollar : c ≠ '$' := ne_of_isAlphabetic hc rfl
    have hsigil : wordSigil (c :: cs ++ rest) = [] := by
      cases h : cs ++ rest <;> simp [wordSigil, h, hat, hdollar]
    have hmark : wordMark rest = [] := by
      cases rest with
      | nil => rfl
      | cons d ds =>
        obtain ⟨-, -, hquestion, hbang⟩ := hrest d (by simp)
        simp [wordMark, hquestion, hbang]
    have hbody : (c :: cs ++ rest).takeWhile isWordChar = c :: cs :=
      takeWhile_append_of_all (fun d hd => isWordChar_of_mem hw hd) fun d hd => (hrest d hd).1
    simp only [readWord, hsigil, List.length_nil, List.drop_zero, hbody, List.nil_append]
    rw [List.drop_left, hmark, List.append_nil]

theorem readName_name (hw : isName w = true) (hrest : EndsName rest) :
    readName (w ++ rest) = .token (.ident (String.ofList w)) (w.length - 1) := by
  have hcolon : rest.head? ≠ some ':' := by
    intro h
    exact (hrest ':' (by simp [h])).2.1 rfl
  cases w with
  | nil => simp [isName] at hw
  | cons c cs =>
    have hupper : isUppercase c = false := by simp_all [isName]
    simp only [readName, readWord_name hw hrest, List.drop_left]
    simp [hcolon, hupper]

/-- A text with a backslash before each of the given characters. -/
def escapedIn (marks : List Char) : List Char → List Char
  | [] => []
  | c :: cs => if c ∈ marks then '\\' :: c :: escapedIn marks cs else c :: escapedIn marks cs

/-- Reading a text up to its closing mark gives the text back, if all that the reader would take for
something else has a backslash before it. -/
theorem readBody_escapedIn {mark : Char} {escapes : Bool} {marks : List Char}
    (hmarks : '\\' ∈ marks ∧ mark ∈ marks ∧ (escapes = true → '#' ∈ marks))
    (hkept : ∀ c ∈ marks, Delimiters.unescape ⟨none, mark, escapes⟩ c = [c])
    (hmark : mark ≠ '\\' ∧ mark ≠ '#') (value rest : List Char) (b : Body) :
    readBody ⟨none, mark, escapes⟩ b (.text 0) (escapedIn marks value ++ mark :: rest) =
      ⟨value.reverse ++ b.reversed, b.interpolated,
      b.width + ((escapedIn marks value).length + 1)⟩ := by
  induction value generalizing b with
  | nil =>
    rw [readBody.eq_def]
    simp [escapedIn, Body.skip, hmark]
  | cons c cs ih =>
    -- an escape stands for the character after the backslash, so both kinds push one character
    by_cases hc : c ∈ marks
    · have hread : readBody ⟨none, mark,
          escapes⟩ b (.text 0) ('\\' :: c :: (escapedIn marks cs ++ mark :: rest)) =
          readBody ⟨none, mark, escapes⟩ (b.pushEscape (Delimiters.unescape ⟨none, mark, escapes⟩ c)) (.text 0)
            (escapedIn marks cs ++ mark :: rest) := rfl
      rw [escapedIn, if_pos hc, List.cons_append, List.cons_append, hread, hkept c hc, ih]
      simp [Body.pushEscape]
      omega
    · have hback : c ≠ '\\' := fun he => hc (he ▸ hmarks.1)
      have hclosing : c ≠ mark := fun he => hc (he ▸ hmarks.2.1)
      have hhash : ¬(c = '#' ∧ escapes = true ∧ (escapedIn marks cs ++ mark :: rest).head? = some '\x7b') :=
        fun h => hc (h.1 ▸ hmarks.2.2 h.2.1)
      have hread : readBody ⟨none, mark, escapes⟩ b (.text 0) (c :: (escapedIn marks cs ++ mark :: rest)) =
          readBody ⟨none, mark, escapes⟩ (b.push c) (.text 0) (escapedIn marks cs ++ mark :: rest) := by
        rw [readBody.eq_def]
        simp only [hback, hhash, hclosing, if_false, reduceCtorEq]
      rw [escapedIn, if_neg hc, List.cons_append, hread, ih]
      simp [Body.push]
      omega

/-- What a single-quoted string escapes. -/
def plainMarks : List Char := ['\\', '\'']

theorem readQuoted_plainMarks (value rest : List Char) :
    readQuoted '\'' false (escapedIn plainMarks value ++ '\'' :: rest) =
      ⟨value.reverse, false, (escapedIn plainMarks value).length + 1⟩ := by
  have hkept : ∀ c ∈ plainMarks, Delimiters.unescape ⟨none, '\'', false⟩ c = [c] := by
    simp [plainMarks, Delimiters.unescape]
  have hread := readBody_escapedIn (by decide) hkept (by decide) value rest Body.empty
  simpa [readQuoted, readDelimited, Body.empty] using hread

def EndsNumber (rest : List Char) : Prop :=
  ∀ c ∈ rest.head?, isAsciiAlphanumeric c = false ∧ c ≠ '_' ∧ c ≠ '.'

/-- Characters of a number behind its first one, points apart. -/
def isNumberChar (c : Char) : Bool := isAsciiAlphanumeric c || c == '_'

theorem readNumber_append {ds : List Char} (hds : ∀ c ∈ ds, isNumberChar c = true)
    (hrest : EndsNumber rest) : readNumber (ds ++ rest) = ds := by
  induction ds with
  | nil =>
    cases rest with
    | nil => rfl
    | cons c cs =>
      obtain ⟨halnum, hunder, hpoint⟩ := hrest c (by simp)
      simp [readNumber, halnum, hunder, hpoint]
  | cons d ds ih =>
    have hd : (isAsciiAlphanumeric d || d == '_') = true := hds d (by simp)
    have hrec := ih fun c hc => hds c (by simp [hc])
    simp [readNumber, hd, hrec]

theorem isNumberChar_of_isAsciiDigit (hc : isAsciiDigit c = true) : isNumberChar c = true := by
  simp [isNumberChar, isAsciiAlphanumeric, hc]

namespace Piece

def name (w : String) : Piece := ⟨w.toList, some (.ident w)⟩

def quoted (value : String) : Piece :=
  ⟨'\'' :: (escapedIn plainMarks value.toList ++ ['\'']), some (.string value false)⟩

def number (digits : List Char) : Piece := ⟨digits, some (.number (String.ofList digits))⟩

def mark (c : Char) (kind : Kind) : Piece := ⟨[c], some kind⟩

def minus : Piece := mark '-' (.op "-")
def assign : Piece := mark '=' .assign
def arrow : Piece := ⟨['=', '>'], some .fatArrow⟩
def newline : Piece := mark '\n' .newline
def space : Piece := ⟨[' '], none⟩

theorem reads_name {w : String} (hw : isName w.toList = true) (hrest : EndsName rest) :
    (name w).Reads rest := by
  cases htext : w.toList with
  | nil => simp [htext, isName] at hw
  | cons c cs =>
    refine ⟨c, cs, htext, fun last fresh start => ?_⟩
    have hc : isAlphabetic c = true := by simp_all [isName]
    have hname := readName_name (htext ▸ hw) hrest
    have hkind : String.ofList (c :: cs) = w := by rw [← htext, String.ofList_toList]
    rw [readLexeme_letter hc, ← List.cons_append, hname, hkind]
    rfl

theorem reads_quoted (value : String) (rest : List Char) : (quoted value).Reads rest := by
  refine ⟨'\'', escapedIn plainMarks value.toList ++ ['\''], rfl, fun last fresh start => ?_⟩
  have hbody := readQuoted_plainMarks value.toList rest
  have hread : readLexeme last fresh start '\'' (escapedIn plainMarks value.toList ++ '\'' :: rest) =
      .token (.string (String.ofList
      (readQuoted '\'' false (escapedIn plainMarks value.toList ++ '\'' :: rest)).value) false)
        (readQuoted '\'' false (escapedIn plainMarks value.toList ++ '\'' :: rest)).width := by
    cases fresh <;> rfl
  rw [List.append_assoc, List.singleton_append, hread, hbody]
  simp [Body.value, Lexeme.token, quoted]

theorem reads_numeral {cs : List Char} (hc : isAsciiDigit c = true)
    (hcs : ∀ d ∈ cs, isNumberChar d = true)
    (hrest : EndsNumber rest) : (number (c :: cs)).Reads rest := by
  refine ⟨c, cs, rfl, fun last fresh start => ?_⟩
  have hchars : ∀ d ∈ c :: cs, isNumberChar d = true :=
    List.forall_mem_cons.mpr ⟨isNumberChar_of_isAsciiDigit hc, hcs⟩
  have hnumber := readNumber_append hchars hrest
  rw [List.cons_append] at hnumber
  rw [readLexeme_digit hc, hnumber]
  rfl

theorem reads_number {ds : List Char} (hds : ∀ c ∈ ds, isAsciiDigit c = true) (hne : ds ≠ [])
    (hrest : EndsNumber rest) : (number ds).Reads rest := by
  cases ds with
  | nil => exact absurd rfl hne
  | cons c cs =>
    exact reads_numeral (hds c (by simp)) (fun d hd => isNumberChar_of_isAsciiDigit (hds d (by simp [hd]))) hrest

theorem reads_space (rest : List Char) : space.Reads rest :=
  ⟨' ', [], rfl, fun last fresh start => by cases fresh <;> rfl⟩

theorem reads_newline (rest : List Char) : newline.Reads rest :=
  ⟨'\n', [], rfl, fun last fresh start => by cases fresh <;> rfl⟩

theorem reads_arrow (rest : List Char) : arrow.Reads rest :=
  ⟨'=', ['>'], rfl, fun last fresh start => by cases fresh <;> rfl⟩

/-- A character that starts neither a name nor a number, nor a lexeme with a rule of its own, is
read as punctuation. -/
theorem readLexeme_mark (hc : c ∉ special) (hdigit : isAsciiDigit c = false)
    (hletter : (isAlphabetic c || c == '_' || c == '@' || c == '$') = false) (last : Option Kind)
    (fresh : Bool)
    (start : Nat) (cs : List Char) : readLexeme last fresh start c cs = readPunctuation c cs := by
  rw [readLexeme_plain hc, hdigit, hletter]
  rfl

theorem reads_bracket {kind : Kind} (h : bracketKind? c = some kind) (rest : List Char) :
    (mark c kind).Reads rest := by
  refine ⟨c, [], rfl, fun last fresh start => ?_⟩
  have hread : readPunctuation c rest = .token kind 0 := by simp [readPunctuation, h]
  have hmem : c ∈ ['(', ')', '[', ']', '\x7b', '\x7d', ',', ';'] := by
    simp only [bracketKind?] at h
    split at h <;> simp_all
  have hplain : (['(', ')', '[', ']', '\x7b', '\x7d', ',', ';'].all fun d => !special.contains d &&
      !isAsciiDigit d && !(isAlphabetic d || d == '_' || d == '@' || d == '$')) = true := by
        decide +kernel
  have hthis := List.all_eq_true.mp hplain c hmem
  simp only [Bool.and_eq_true, Bool.not_eq_true', List.contains_eq_mem,
    decide_eq_false_iff_not] at hthis
  obtain ⟨⟨hc, hdigit⟩, hletter⟩ := hthis
  rw [List.nil_append, readLexeme_mark hc hdigit hletter, hread]
  rfl

theorem reads_dot (hrest : rest.head? ≠ some '.') : (mark '.' .dot).Reads rest := by
  refine ⟨'.', [], rfl, fun last fresh start => ?_⟩
  rw [List.nil_append, readLexeme_mark (by decide) (by decide) (by decide +kernel)]
  simp [readPunctuation, bracketKind?, hrest, mark, Lexeme.token]

theorem reads_pipe (hrest : rest.head? ≠ some '|' ∧ rest.head? ≠ some '=') :
    (mark '|' .pipe).Reads rest := by
  refine ⟨'|', [], rfl, fun last fresh start => ?_⟩
  rw [List.nil_append, readLexeme_mark (by decide) (by decide) (by decide +kernel)]
  simp [readPunctuation, bracketKind?, hrest, mark, Lexeme.token]

theorem reads_assign (rest : List Char) : assign.Reads (' ' :: rest) :=
  ⟨'=', [], rfl, fun last fresh start => by cases fresh <;> rfl⟩

theorem reads_minus (hrest : rest.head? ≠ some '=' ∧ rest.head? ≠ some '>') : minus.Reads rest := by
  refine ⟨'-', [], rfl, fun last fresh start => ?_⟩
  have hop : readOperator '-' rest = .token (.op "-") 0 := by
    cases rest with
    | nil => rfl
    | cons d ds =>
      have hequals : ('=' == d) = false := beq_false_of_ne fun h => hrest.1 (h ▸ rfl)
      have hgreater : ('>' == d) = false := beq_false_of_ne fun h => hrest.2 (h ▸ rfl)
      have hassign : "-=".toList.isPrefixOf ('-' :: d :: ds) = false := by
        change (true && (('=' == d) && true)) = false
        simp [hequals]
      have harrow : "->".toList.isPrefixOf ('-' :: d :: ds) = false := by
        change (true && (('>' == d) && true)) = false
        simp [hgreater]
      have hfind : operators.find? (fun op => op.toList.isPrefixOf ('-' :: d :: ds)) = some "-" := by
        simp only [operators, List.find?_cons, hassign, harrow]
        rfl
      rw [readOperator, hfind]
      rfl
  rw [nil_append, readLexeme_mark (by decide) (by decide) (by decide +kernel)]
  simp [readPunctuation, bracketKind?, hop, minus, mark, Lexeme.token]

end Piece
end CookbookAtlas.Token
