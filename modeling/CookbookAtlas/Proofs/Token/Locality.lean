import CookbookAtlas.Proofs.Token.Progress
import Mathlib.Data.List.Find

/-! How far a scan looks ahead. A lexeme that ends before a blank, a line end, a comment or a
closing brace is read alike whatever text follows from there, and so is a run of lexemes and bodies.
Two texts that part at such a place are therefore scanned alike up to it. -/
namespace CookbookAtlas.Token

open List Text
variable {c : Char} {cs tail tail' xs ys : List Char} {tokens : List Token} {width : Nat} {s : Scan}

/-- Characters that end every word, number and operator before them. -/
def barriers : List Char := ['\n', '#', ' ', '\x7d']

/-- A text that starts with a barrier, or the end of the text. -/
def Bars (tail : List Char) : Prop := ∀ c ∈ tail.head?, c ∈ barriers

/-- Of all classes of characters that continue a lexeme, none holds a barrier. -/
def continues (c : Char) : Bool :=
  isWordChar c || isAsciiAlphanumeric c || isAsciiAlphabetic c || isAsciiDigit c ||
    isAsciiUpper c || isAlphabetic c || isPercentMark c || isPercentLetter c ||
    ['@', '$', '?', '!', '=', ':', '<', '>', '~', '-', '\'', '"', '.', '|', '/', '_', '*', '+', '%',
      '&', '^'].contains c

theorem continues_of_isWordChar (c : Char) (hc : isWordChar c = true) : continues c = true := by
  simp [continues, hc]

theorem continues_of_isAsciiAlphabetic (c : Char) (hc : isAsciiAlphabetic c = true) :
    continues c = true := by
  simp [continues, hc]

theorem not_continues (hc : c ∈ barriers) : continues c = false := by
  have hall : (barriers.all fun d => !continues d) = true := by decide +kernel
  simpa using List.all_eq_true.mp hall c hc

theorem forall_barriers {p : Char → Prop} :
    (∀ c ∈ barriers, p c) ↔ p '\n' ∧ p '#' ∧ p ' ' ∧ p '\x7d' := by
  simp [barriers]

theorem not_mem_barriers {mark : List Char} (h : (mark.all fun c => !barriers.contains c) = true) :
    ∀ c ∈ mark, c ∉ barriers := by
  intro c hc
  simpa using List.all_eq_true.mp h c hc

theorem operators_unbarred : ∀ op ∈ operators, ∀ c ∈ op.toList, c ∉ barriers := by
  have hall : (operators.all fun op => op.toList.all fun c => !barriers.contains c) = true := by
    decide +kernel
  exact fun op hop => not_mem_barriers (List.all_eq_true.mp hall op hop)

section
variable {tail : List Char} (htail : Bars tail) (xs : List Char)
include htail

/-- What is the same before every barrier as at the end of the text is so before the tail. -/
theorem Bars.eq_nil {α : Type} {f : List Char → α} (h : ∀ c ∈ barriers, ∀ cs, f (c :: cs) = f []) :
    f tail = f [] := by
  cases tail with
  | nil => rfl
  | cons c cs => exact h c (htail c rfl) cs

theorem head?_append_bars {d : Char} (hd : continues d = true) :
    (xs ++ tail).head? = some d ↔ xs.head? = some d := by
  cases xs with
  | nil =>
    refine ⟨fun h => ?_, fun h => nomatch h⟩
    rw [not_continues (htail d h)] at hd
    cases hd
  | cons x xs => rfl

section
variable {p : Char → Bool} (hp : ∀ c, p c = true → continues c = true)
include hp

omit htail in
theorem barred (hc : c ∈ barriers) : p c = false := by
  by_contra h
  simpa [not_continues hc] using hp c (by simpa using h)

theorem any_head?_append_bars : (xs ++ tail).head?.any p = xs.head?.any p := by
  cases xs with
  | nil => exact htail.eq_nil (f := fun cs => cs.head?.any p) fun c hc _ => barred hp hc
  | cons x xs => rfl

theorem takeWhile_append_bars : (xs ++ tail).takeWhile p = xs.takeWhile p := by
  induction xs with
  | nil => exact htail.eq_nil fun c hc _ => List.takeWhile_cons_of_neg (by simp [barred hp hc])
  | cons x xs ih => simp only [List.cons_append, List.takeWhile_cons, ih]

end

theorem isPrefixOf_append_bars {mark : List Char} (hmark : ∀ c ∈ mark, c ∉ barriers) :
    mark.isPrefixOf (xs ++ tail) = mark.isPrefixOf xs := by
  induction mark generalizing xs with
  | nil => simp
  | cons m mark ih =>
    obtain ⟨hm, hmark⟩ := List.forall_mem_cons.mp hmark
    cases xs with
    | nil =>
      refine htail.eq_nil fun c hc _ => ?_
      have hne : (m == c) = false := beq_false_of_ne fun h => hm (h ▸ hc)
      simp [List.isPrefixOf, hne]
    | cons x xs => simp [List.isPrefixOf, ih xs hmark]

theorem wordSigil_append_bars : wordSigil (xs ++ tail) = wordSigil xs := by
  match xs with
  | [] =>
    refine htail.eq_nil (forall_barriers.mpr ?_)
    refine ⟨fun cs => ?_, fun cs => ?_, fun cs => ?_, fun cs => ?_⟩ <;> cases cs <;> rfl
  | [c] =>
    refine htail.eq_nil (f := fun cs => wordSigil (c :: cs)) fun d hd _ => ?_
    have hat : d ≠ '@' := fun h => absurd (h ▸ hd) (by decide)
    simp [wordSigil, hat]
  | c :: d :: xs => rfl

theorem wordMark_append_bars : wordMark (xs ++ tail) = wordMark xs := by
  cases xs with
  | nil => exact htail.eq_nil (forall_barriers.mpr ⟨fun _ => rfl, fun _ => rfl, fun _ => rfl, fun _ => rfl⟩)
  | cons x xs =>
    simp only [List.cons_append, wordMark, head?_append_bars htail xs (d := '=') (by decide),
      head?_append_bars htail xs (d := ':') (by decide)]

theorem readWord_append_bars : readWord (xs ++ tail) = readWord xs := by
  have hsigil := (wordSigil_starts xs).length_le
  have hbody := (List.takeWhile_prefix (l := xs.drop (wordSigil xs).length) isWordChar).length_le
  simp only [readWord, wordSigil_append_bars htail]
  rw [List.drop_append_of_le_length hsigil, takeWhile_append_bars htail _ continues_of_isWordChar,
    List.drop_append_of_le_length hbody, wordMark_append_bars htail]

theorem readNumber_append_bars : readNumber (xs ++ tail) = readNumber xs := by
  induction xs with
  | nil => exact htail.eq_nil (forall_barriers.mpr ⟨fun _ => rfl, fun _ => rfl, fun _ => rfl, fun _ => rfl⟩)
  | cons x xs ih =>
    have hdigit : ∀ c, isAsciiDigit c = true → continues c = true := fun c hc => by
      simp [continues, hc]
    rw [List.cons_append, readNumber, readNumber, any_head?_append_bars htail xs hdigit, ih]

theorem readName_append_bars : readName (xs ++ tail) = readName xs := by
  have hword := (readWord_starts xs).length_le
  simp only [readName, readWord_append_bars htail]
  rw [List.drop_append_of_le_length hword]
  generalize xs.drop (readWord xs).length = rest
  have hcolon : ((rest ++ tail).head? = some ':' ∧ ((rest ++ tail).drop 1).head? ≠ some ':') ↔
      (rest.head? = some ':' ∧ (rest.drop 1).head? ≠ some ':') := by
    rw [head?_append_bars htail rest (by decide)]
    cases rest with
    | nil => simp
    | cons c rest =>
      simp only [List.cons_append, List.drop_one, List.tail_cons, ne_eq, List.head?_cons,
        head?_append_bars htail rest (d := ':') (by decide)]
  simp only [← and_assoc, hcolon]

theorem readOperator_append_bars (c : Char) : readOperator c (xs ++ tail) = readOperator c xs := by
  have hfind : (operators.find? fun op => op.toList.isPrefixOf (c :: (xs ++ tail))) =
      operators.find? fun op => op.toList.isPrefixOf (c :: xs) := by
    refine List.find?_congr fun op hop => ?_
    exact isPrefixOf_append_bars htail (c :: xs) (operators_unbarred op hop)
  rw [readOperator, readOperator, hfind]

theorem readPunctuation_append_bars (c : Char) :
    readPunctuation c (xs ++ tail) = readPunctuation c xs := by
  simp only [readPunctuation, ne_eq, head?_append_bars htail xs (d := '.') (by decide),
    head?_append_bars htail xs (d := '>') (by decide),
    head?_append_bars htail xs (d := '=') (by decide),
    head?_append_bars htail xs (d := '~') (by decide),
    head?_append_bars htail xs (d := '|') (by decide), readOperator_append_bars htail xs c]

omit htail in
theorem isPercentLetter_of_mark (h : isPercentMark c = true) : isPercentLetter c = false := by
  simp only [isPercentMark, Bool.or_eq_true, beq_iff_eq] at h
  rcases h with ((((rfl | rfl) | rfl) | rfl) | rfl) | rfl <;> rfl

theorem heredocFlag_append_bars : heredocFlag (xs ++ tail) = heredocFlag xs := by
  cases xs with
  | nil => exact htail.eq_nil (forall_barriers.mpr ⟨fun _ => rfl, fun _ => rfl, fun _ => rfl, fun _ => rfl⟩)
  | cons x xs => rfl

theorem heredocMark_append_bars : heredocMark (xs ++ tail) = heredocMark xs := by
  cases xs with
  | nil => exact htail.eq_nil (forall_barriers.mpr ⟨fun _ => rfl, fun _ => rfl, fun _ => rfl, fun _ => rfl⟩)
  | cons x xs => rfl

theorem heredocAhead_append_bars (last : Option Kind) :
    heredocAhead last (xs ++ tail) = heredocAhead last xs := by
  have hflag := (heredocFlag_cases xs).2.length_le
  simp only [heredocAhead, heredocFlag_append_bars htail]
  rw [List.drop_append_of_le_length hflag]
  congr 1
  cases xs.drop (heredocFlag xs).length with
  | nil =>
    cases tail with
    | nil => rfl
    | cons y zs =>
      have hy := not_continues (htail y rfl)
      simp_all [continues]
  | cons c rest =>
    have hletter : ∀ d, (isAsciiAlphabetic d || d == '_') = true → continues d = true := by
      intro d hd
      simp only [Bool.or_eq_true, beq_iff_eq] at hd
      rcases hd with hd | rfl
      · simp [continues, hd]
      · rfl
    simp only [List.cons_append, any_head?_append_bars htail rest hletter]

theorem readHeredoc_append_bars (start : Nat) :
    readHeredoc start (xs ++ tail) = readHeredoc start xs := by
  have hflag := (heredocFlag_cases xs).2.length_le
  simp only [readHeredoc, heredocFlag_append_bars htail]
  rw [List.drop_append_of_le_length hflag]
  generalize xs.drop (heredocFlag xs).length = rest
  obtain ⟨hmark, hstarts⟩ := heredocMark_cases rest
  simp only [heredocMark_append_bars htail]
  rw [List.drop_append_of_le_length hstarts.length_le]
  generalize heredocMark rest = mark at hmark
  generalize rest.drop mark.length = rest
  have hname := (List.takeWhile_prefix (l := rest) isWordChar).length_le
  rw [takeWhile_append_bars htail _ continues_of_isWordChar, List.drop_append_of_le_length hname]
  have hclose : (!mark.isEmpty && ((rest.drop (rest.takeWhile isWordChar).length ++ tail).head? == mark.head?)) =
      (!mark.isEmpty && ((rest.drop (rest.takeWhile isWordChar).length).head? == mark.head?)) := by
    simp only [List.mem_cons, List.not_mem_nil, or_false] at hmark
    rcases hmark with rfl | rfl | rfl
    · rfl
    · congr 1
      rw [Bool.eq_iff_iff, beq_iff_eq, beq_iff_eq]
      exact head?_append_bars htail _ (by decide)
    · congr 1
      rw [Bool.eq_iff_iff, beq_iff_eq, beq_iff_eq]
      exact head?_append_bars htail _ (by decide)
  rw [hclose]

theorem opensHeredoc_append_bars (last : Option Kind) (c : Char) :
    (c = '<' ∧ (xs ++ tail).head? = some '<' ∧ heredocAhead last ((xs ++ tail).drop 1) = true) ↔
      (c = '<' ∧ xs.head? = some '<' ∧ heredocAhead last (xs.drop 1) = true) := by
  rw [head?_append_bars htail xs (by decide)]
  cases xs with
  | nil => simp
  | cons x xs =>
    rw [List.cons_append, List.drop_one, List.drop_one, List.tail_cons, List.tail_cons, heredocAhead_append_bars htail]

theorem percentAhead_append_bars (last : Option Kind) :
    percentAhead last (xs ++ tail) = percentAhead last xs := by
  match xs with
  | [] =>
    refine htail.eq_nil (forall_barriers.mpr ?_)
    refine ⟨fun cs => ?_, fun cs => ?_, fun cs => ?_, fun cs => ?_⟩ <;> cases cs <;> rfl
  | [c] =>
    refine htail.eq_nil (f := fun cs => percentAhead last (c :: cs)) fun d hd _ => ?_
    have hmark : isPercentMark d = false := barred (fun d hd => by simp [continues, hd]) hd
    have hslash : d ≠ '/' := fun h => absurd (h ▸ hd) (by decide)
    by_cases hc : isPercentLetter c = true
    · have hno : isPercentMark c = false := Bool.eq_false_iff.mpr fun h => by
        simp [isPercentLetter_of_mark h] at hc
      simp [percentAhead, hc, hno, hmark, hslash]
    · simp [percentAhead, hc]
  | c :: d :: xs => rfl

end

theorem readBody_grows (d : Delimiters) (b : Body) (zone : Zone) (cs : List Char) :
    b.width + min 1 cs.length ≤ (readBody d b zone cs).width := by
  fun_induction readBody d b zone cs <;>
    simp only [Body.push, Body.skip, Body.pushEscape, Body.interpolate, List.length_cons,
      List.length_nil] at * <;> omega

/-- What becomes of a character in a literal: it closes the literal, it is read alone or with the
one after it, or it is a backslash at the end of `xs` that takes the first character of what
follows. -/
theorem readBody_cases (d : Delimiters) (b : Body) (zone : Zone) (c : Char) (xs : List Char) :
    (c = d.closing ∧ ∀ tail, Bars tail → readBody d b zone (c :: (xs ++ tail)) = b.skip) ∨
      (∃ next zone' ys, ys.length ≤ xs.length ∧ next.width + ys.length = b.width + xs.length + 1 ∧
        ∀ tail, Bars tail → readBody d b zone (c :: (xs ++ tail)) = readBody d next zone' (ys ++ tail)) ∨
      xs = [] ∧ ∃ next : Char → Body, ∀ e rest, (next e).width = b.width + 2 ∧
        readBody d b zone (c :: e :: rest) = readBody d (next e) zone rest := by
  cases zone with
  | text nesting =>
    by_cases hback : c = '\\'
    · subst hback
      cases xs with
      | nil => exact .inr (.inr ⟨rfl, fun e => b.pushEscape (d.unescape e), fun e rest => ⟨rfl, rfl⟩⟩)
      | cons e ys =>
        refine .inr (.inl ⟨b.pushEscape (d.unescape e), .text nesting, ys, by simp, ?_, fun tail _ => rfl⟩)
        simp only [Body.pushEscape, List.length_cons]
        omega
    · -- only the look for an interpolation reaches past the character
      have hread : ∀ tail, Bars tail → readBody d b (.text nesting) (c :: (xs ++ tail)) =
          if c = '#' ∧ d.escapes = true ∧ xs.head? = some '\x7b'
          then readBody d b.interpolate (.code nesting 0 none) (xs ++ tail)
          else if some c = d.opening then readBody d (b.push c) (.text (nesting + 1)) (xs ++ tail)
          else if c = d.closing then
            if nesting = 0 then b.skip else readBody d (b.push c) (.text (nesting - 1)) (xs ++ tail)
          else readBody d (b.push c) (.text nesting) (xs ++ tail) := by
        intro tail htail
        rw [readBody.eq_def]
        simp only [if_neg hback, head?_append_bars htail xs (d := '\x7b') (by decide)]
      by_cases hcode : c = '#' ∧ d.escapes = true ∧ xs.head? = some '\x7b'
      · refine .inr (.inl ⟨b.interpolate, .code nesting 0 none, xs, Nat.le_refl _, ?_, fun tail htail => ?_⟩)
        · simp only [Body.interpolate, Body.push]
          omega
        · rw [hread tail htail, if_pos hcode]
      simp only [if_neg hcode] at hread
      by_cases hopen : some c = d.opening
      · refine .inr (.inl ⟨b.push c, .text (nesting + 1), xs, Nat.le_refl _, ?_, fun tail htail => ?_⟩)
        · simp only [Body.push]
          omega
        · rw [hread tail htail, if_pos hopen]
      simp only [if_neg hopen] at hread
      by_cases hclose : c = d.closing
      · by_cases hnesting : nesting = 0
        · refine .inl ⟨hclose, fun tail htail => ?_⟩
          rw [hread tail htail, if_pos hclose, if_pos hnesting]
        · refine .inr (.inl ⟨b.push c, .text (nesting - 1), xs, Nat.le_refl _, ?_, fun tail htail => ?_⟩)
          · simp only [Body.push]
            omega
          · rw [hread tail htail, if_pos hclose, if_neg hnesting]
      · refine .inr (.inl ⟨b.push c, .text nesting, xs, Nat.le_refl _, ?_, fun tail htail => ?_⟩)
        · simp only [Body.push]
          omega
        · rw [hread tail htail, if_neg hclose]
  | code nesting depth mark =>
    by_cases hback : c = '\\' ∧ mark.isSome = true
    · have hread : ∀ e rest, readBody d b (.code nesting depth mark) (c :: e :: rest) =
          readBody d ((b.push c).push e) (.code nesting depth mark) rest := by
        intro e rest
        rw [readBody.eq_def]
        simp only [if_pos hback]
      cases xs with
      | nil => exact .inr (.inr ⟨rfl, fun e => (b.push c).push e, fun e rest => ⟨rfl, hread e rest⟩⟩)
      | cons e ys =>
        refine .inr (.inl ⟨(b.push c).push e, .code nesting depth mark,
          ys, by simp, ?_, fun tail _ => hread e (ys ++ tail)⟩)
        simp only [Body.push, List.length_cons]
        omega
    · refine .inr (.inl ⟨b.push c, codeZone nesting depth mark c, xs, Nat.le_refl _, ?_, fun tail _ => ?_⟩)
      · simp only [Body.push]
        omega
      · rw [readBody.eq_def]
        simp only [if_neg hback]

/-- A body that ends before the tail, and before the end of the text, does not depend on
the tail. -/
theorem readBody_append (htail : Bars tail) (htail' : Bars tail') {d : Delimiters} {b : Body}
    {zone : Zone}
    (h : (readBody d b zone (xs ++ tail)).width < b.width + (xs.length + min 1 tail.length)) :
    readBody d b zone (xs ++ tail') = readBody d b zone (xs ++ tail) := by
  induction hlength : xs.length using Nat.strongRecOn generalizing xs b zone with
  | ind length ih =>
    cases xs with
    | nil =>
      have hgrows := readBody_grows d b zone tail
      simp only [List.nil_append, List.length_nil] at h
      omega
    | cons c xs =>
      rcases readBody_cases d b zone c xs with
        ⟨-, hread⟩ | ⟨next, zone', ys, hys, hwidth, hread⟩ | ⟨rfl, next, hread⟩
      · rw [List.cons_append, List.cons_append, hread tail htail, hread tail' htail']
      · rw [List.length_cons] at hlength
        rw [List.cons_append, hread tail htail, List.length_cons] at h
        rw [List.cons_append, List.cons_append, hread tail htail, hread tail' htail']
        exact ih ys.length (by omega) (by omega) rfl
      · cases tail with
        | nil =>
          have hgrows := readBody_grows d b zone [c]
          simp only [List.append_nil, List.length_cons, List.length_nil] at h hgrows
          omega
        | cons e rest =>
          obtain ⟨hwidth, hread⟩ := hread e rest
          have hgrows := readBody_grows d (next e) zone rest
          simp only [List.cons_append, List.nil_append, hread, List.length_cons, List.length_nil] at h
          omega

/-- Texts before which a lexeme ends alike. -/
structure Parting (tail tail' : List Char) : Prop where
  bars : Bars tail
  bars' : Bars tail'
  newline : tail'.head? = some '\n' ↔ tail.head? = some '\n'

theorem commentWidth_grows (fresh ending : Bool) (width : Nat) (cs : List Char) :
    width + min 1 cs.length ≤ commentWidth fresh ending width cs := by
  fun_induction commentWidth fresh ending width cs
    <;> simp only [List.length_cons, List.length_nil] at * <;> omega

/-- Two branchings that choose alike agree if each branch does that ends in time. -/
theorem ite_alike {α : Type} {w : α → Nat} {bound : Nat} {p q : Prop} [Decidable p] [Decidable q]
    {a a' b b' : α}
    (hsame : q ↔ p) (hpos : p → w a < bound → a' = a) (hneg : ¬p → w b < bound → b' = b)
    (h : w (if p then a else b) < bound) : (if q then a' else b') = if p then a else b := by
  by_cases hp : p
  · rw [if_pos hp] at h
    rw [if_pos hp, if_pos (hsame.mpr hp), hpos hp h]
  · rw [if_neg hp] at h
    rw [if_neg hp, if_neg (mt hsame.mp hp), hneg hp h]

section
variable {tail tail' : List Char} (hpart : Parting tail tail') {xs : List Char}
include hpart

theorem readDelimited_append {d : Delimiters}
    (h : (readDelimited d (xs ++ tail)).width < xs.length + min 1 tail.length) :
    readDelimited d (xs ++ tail') = readDelimited d (xs ++ tail) := by
  refine readBody_append hpart.bars hpart.bars' ?_
  rwa [show Body.empty.width = 0 from rfl, Nat.zero_add]

theorem readQuoted_append {mark : Char} {escapes : Bool}
    (h : (readQuoted mark escapes (xs ++ tail)).width < xs.length + min 1 tail.length) :
    readQuoted mark escapes (xs ++ tail') = readQuoted mark escapes (xs ++ tail) :=
  readDelimited_append hpart h

theorem flagsWidth_append (h : width < xs.length + min 1 tail.length) :
    flagsWidth ((xs ++ tail').drop width) = flagsWidth ((xs ++ tail).drop width) := by
  have hle : width ≤ xs.length := by omega
  rw [flagsWidth, flagsWidth, List.drop_append_of_le_length hle, List.drop_append_of_le_length hle,
    takeWhile_append_bars hpart.bars _ continues_of_isAsciiAlphabetic,
    takeWhile_append_bars hpart.bars' _ continues_of_isAsciiAlphabetic]

theorem readPercentBody_append {letter mark : Char} {before : Nat}
    (h : (readPercentBody letter mark before (xs ++ tail)).width < before + (xs.length + min 1 tail.length)) :
    readPercentBody letter mark before (xs ++ tail') =
      readPercentBody letter mark before (xs ++ tail) := by
  rw [readPercentBody] at h
  rw [readPercentBody, readPercentBody]
  generalize (⟨if mark = closingOf mark then none else some mark, closingOf mark, _⟩ : Delimiters) =
    d at *
  have hwidth : (readDelimited d (xs ++ tail)).width < xs.length + min 1 tail.length := by
    split at h
    · simp only [Lexeme.token] at h
      omega
    split at h
    · simp only [Lexeme.token] at h
      omega
    · simp only [Lexeme.token] at h
      omega
  simp only [readDelimited_append hpart hwidth, flagsWidth_append hpart hwidth]

theorem readPercent_append {last : Option Kind} (hahead : percentAhead last xs = true)
    (h : (readPercent (xs ++ tail)).width < xs.length + min 1 tail.length) :
    readPercent (xs ++ tail') = readPercent (xs ++ tail) := by
  match xs with
  | [] => simp [percentAhead] at hahead
  | [c] =>
    have hletter := isPercentLetter_of_mark (Bool.and_eq_true_iff.mp hahead).2
    have hread : ∀ cs, readPercent (c :: cs) = readPercentBody 'Q' c 1 ([] ++ cs) := by
      intro cs
      cases cs with
      | nil => rfl
      | cons d cs => simp [readPercent, hletter]
    rw [List.singleton_append, hread] at h
    rw [List.singleton_append, List.singleton_append, hread, hread]
    refine readPercentBody_append hpart ?_
    rw [List.length_nil, Nat.zero_add]
    exact h
  | c :: d :: xs =>
    simp only [List.cons_append, readPercent, List.length_cons] at h ⊢
    split at h
    · rename_i hc
      rw [if_pos hc, if_pos hc]
      exact readPercentBody_append hpart (by omega)
    · rename_i hc
      rw [if_neg hc, if_neg hc, ← List.cons_append, ← List.cons_append]
      refine readPercentBody_append hpart ?_
      rw [List.cons_append, List.length_cons]
      omega

theorem readColon_append (h : (readColon (xs ++ tail)).width < xs.length + min 1 tail.length) :
    readColon (xs ++ tail') = readColon (xs ++ tail) := by
  have hoperator : ∀ ys, readOperator ':' (ys ++ tail') = readOperator ':' (ys ++ tail) :=
    fun ys => by
    rw [readOperator_append_bars hpart.bars, readOperator_append_bars hpart.bars']
  cases xs with
  | nil =>
    have hread : ∀ {t}, Bars t → readColon t = readColon [] := fun ht =>
      ht.eq_nil (forall_barriers.mpr ⟨fun _ => rfl, fun _ => rfl, fun _ => rfl, fun _ => rfl⟩)
    exact (hread hpart.bars').trans (hread hpart.bars).symm
  | cons c xs =>
    have hword : readWord (c :: (xs ++ tail')) = readWord (c :: (xs ++ tail)) :=
      (readWord_append_bars hpart.bars' (c :: xs)).trans (readWord_append_bars hpart.bars (c :: xs)).symm
    simp only [List.cons_append, readColon, hword] at h ⊢
    revert h
    refine ite_alike .rfl (fun _ _ => rfl) fun _ => ite_alike .rfl (fun _ h => ?_) fun _ =>
      ite_alike .rfl (fun _ _ => rfl) fun _ _ => hoperator (c :: xs)
    rw [readQuoted_append hpart]
    simp only [Lexeme.token, List.length_cons] at h
    omega

theorem commentWidth_append {fresh ending : Bool}
    (h : commentWidth fresh ending width (xs ++ tail) < width + (xs.length + min 1 tail.length)) :
    commentWidth fresh ending width (xs ++ tail') =
      commentWidth fresh ending width (xs ++ tail) := by
  induction xs generalizing fresh ending width with
  | nil =>
    have hgrows := commentWidth_grows fresh ending width tail
    rw [List.nil_append, List.length_nil] at h
    omega
  | cons c xs ih =>
    have hmark : ∀ t, Bars t → ['=', 'e', 'n', 'd'].isPrefixOf (c :: (xs ++ t)) =
        ['=', 'e', 'n', 'd'].isPrefixOf (c :: xs) :=
      fun t ht => isPrefixOf_append_bars ht (c :: xs) (not_mem_barriers (by decide))
    simp only [List.cons_append, commentWidth, hmark _ hpart.bars, hmark _ hpart.bars',
      List.length_cons] at h ⊢
    revert h
    exact ite_alike (w := id) .rfl
      (fun _ => ite_alike .rfl (fun _ _ => rfl) fun _ h => ih (by simp only [id] at h; omega))
      fun _ h => ih (by simp only [id] at h; omega)

theorem takeWhile_line_append
    (h : ((xs ++ tail).takeWhile (· != '\n')).length < xs.length + min 1 tail.length) :
    (xs ++ tail').takeWhile (· != '\n') = (xs ++ tail).takeWhile (· != '\n') := by
  induction xs with
  | nil =>
    obtain ⟨y, zs, rfl⟩ : ∃ y zs, tail = y :: zs := List.exists_cons_of_ne_nil fun hnil => by
      simp [hnil] at h
    have hy : y = '\n' := by
      by_contra hy
      simp [hy] at h
    have htail' : tail'.head? = some '\n' := hpart.newline.mpr (by simp [hy])
    obtain ⟨zs', rfl⟩ := List.head?_eq_some_iff.mp htail'
    simp [hy]
  | cons c xs ih =>
    simp only [List.cons_append, List.takeWhile_cons] at h ⊢
    split
    · rename_i hc
      rw [if_pos hc, List.length_cons, List.length_cons] at h
      rw [ih (by omega)]
    · rfl

/-- A lexeme that ends before the tail, and before the end of the text, does not depend on
the tail. -/
theorem readLexeme_append {last : Option Kind} {fresh : Bool} {start : Nat}
    (h : (readLexeme last fresh start c (xs ++ tail)).width < xs.length + min 1 tail.length) :
    readLexeme last fresh start c (xs ++ tail') = readLexeme last fresh start c (xs ++ tail) := by
  have hbegin : ∀ t, Bars t → "=begin".toList.isPrefixOf (c :: (xs ++ t)) =
      "=begin".toList.isPrefixOf (c :: xs) :=
    fun t ht => isPrefixOf_append_bars ht (c :: xs) (not_mem_barriers (by decide))
  have hend : ∀ t, Bars t → "__END__".toList.isPrefixOf (c :: (xs ++ t)) =
      "__END__".toList.isPrefixOf (c :: xs) :=
    fun t ht => isPrefixOf_append_bars ht (c :: xs) (not_mem_barriers (by decide))
  have hline : (xs ++ tail').head? = some '\n' ↔ (xs ++ tail).head? = some '\n' := by
    cases xs with
    | nil => exact hpart.newline
    | cons x xs => rfl
  have hopens := (opensHeredoc_append_bars hpart.bars' xs last c).trans
    (opensHeredoc_append_bars hpart.bars xs last c).symm
  rw [readLexeme, hbegin _ hpart.bars, hend _ hpart.bars, percentAhead_append_bars hpart.bars] at h
  rw [readLexeme, readLexeme, hbegin _ hpart.bars, hend _ hpart.bars, hbegin _ hpart.bars',
    hend _ hpart.bars', percentAhead_append_bars hpart.bars, percentAhead_append_bars hpart.bars']
  revert h
  refine ite_alike .rfl (fun _ h => ?block) fun _ => ite_alike .rfl (fun _ h => ?rest) fun _ =>
    ite_alike .rfl (fun _ _ => rfl) fun _ =>
    ite_alike (and_congr_right fun _ => hline) (fun _ _ => rfl) fun _ =>
    ite_alike .rfl (fun _ _ => rfl) fun _ => ite_alike .rfl (fun _ h => ?comment) fun _ =>
    ite_alike .rfl (fun _ h => ?rich) fun _ => ite_alike .rfl (fun _ h => ?plain) fun _ =>
    ite_alike .rfl (fun hpercent h => readPercent_append hpart hpercent.2 h) fun _ =>
    ite_alike hopens (fun hheredoc _ => ?heredoc) fun _ =>
    ite_alike .rfl (fun _ h => ?regex) fun _ =>
    ite_alike .rfl (fun _ h => readColon_append hpart h) fun _ _ => ?word
  case block =>
    have hwidth : commentWidth true false 0 (c :: xs ++ tail) <
        0 + ((c :: xs).length + min 1 tail.length) := by
      simp only [Lexeme.skip, cons_append, length_cons] at h ⊢
      omega
    rw [← cons_append, commentWidth_append hpart hwidth, cons_append]
  case rest =>
    simp only [Lexeme.skip, length_append] at h
    omega
  case comment => rw [takeWhile_line_append hpart h]
  case rich => rw [readQuoted_append hpart h]
  case plain => rw [readQuoted_append hpart h]
  case heredoc =>
    obtain ⟨ys, rfl⟩ := List.head?_eq_some_iff.mp ((head?_append_bars hpart.bars xs (by decide)).mp hheredoc.2.1)
    exact (readHeredoc_append_bars hpart.bars' ys start).trans (readHeredoc_append_bars hpart.bars ys start).symm
  case regex =>
    simp only [Lexeme.token] at h
    have hwidth : (readQuoted c true (xs ++ tail)).width < xs.length + min 1 tail.length := by omega
    simp only [readQuoted_append hpart hwidth, flagsWidth_append hpart hwidth]
  case word =>
    rw [← cons_append, ← cons_append, readNumber_append_bars hpart.bars,
      readNumber_append_bars hpart.bars',
      readName_append_bars hpart.bars, readName_append_bars hpart.bars',
      readPunctuation_append_bars hpart.bars, readPunctuation_append_bars hpart.bars']

end

theorem readLexeme_newline (last : Option Kind) (fresh : Bool) (start : Nat) (cs : List Char) :
    readLexeme last fresh start '\n' cs = .token .newline 0 := by
  cases fresh <;> rfl

namespace Heredoc
variable (h : Heredoc)

theorem readLines_grows (line : List Char) (done : List (List Char)) (width : Nat)
    (cs : List Char) : width + min 1 cs.length ≤ (h.readLines line done width cs).2 := by
  fun_induction h.readLines line done width cs <;> simp only [length_cons, length_nil] at *
    <;> omega

theorem readLines_append (tail' : List Char) {line : List Char} {done : List (List Char)}
    (hwidth : (h.readLines line done width (xs ++ tail)).2 < width + (xs.length + min 1 tail.length)) :
    h.readLines line done width (xs ++ tail') = h.readLines line done width (xs ++ tail) := by
  induction xs generalizing line done width with
  | nil =>
    have hgrows := h.readLines_grows line done width tail
    rw [nil_append, length_nil] at hwidth
    omega
  | cons c xs ih =>
    simp only [cons_append, readLines, length_cons] at hwidth ⊢
    revert hwidth
    exact ite_alike (w := Prod.snd) .rfl (fun _ => ite_alike .rfl (fun _ _ => rfl) fun _ h => ih (by omega))
      fun _ h => ih (by omega)

theorem readContent?_append (tail' : List Char) {content : Content}
    (hread : h.readContent? (xs ++ tail) = some content)
    (hwidth : content.width < xs.length + min 1 tail.length) :
    h.readContent? (xs ++ tail') = some content := by
  have hlines : (h.readLines [] [] 0 (xs ++ tail)).2 < 0 + (xs.length + min 1 tail.length) := by
    rw [readContent?] at hread
    obtain ⟨lines, -, rfl⟩ := Option.map_eq_some_iff.mp hread
    rwa [Nat.zero_add]
  rw [readContent?, h.readLines_append tail' hlines]
  exact hread

end Heredoc

namespace Scan

/-- Tokens one by one in a relation stay in it when counterparts are filled in. -/
theorem forall₂_fill {R : Token → Token → Prop} {tokens' : List Token} {start start' : Nat}
    {kind kind' : Kind} (h : List.Forall₂ R tokens tokens')
    (hstart : ∀ {t t'}, R t t' → (t'.start = start' ↔ t.start = start))
    (hfill : ∀ {t t'}, R t t' → t.start = start → R { t with kind := kind } { t' with kind := kind' }) :
    List.Forall₂ R (fill tokens start kind) (fill tokens' start' kind') := by
  rw [fill, fill, forall₂_map_left_iff, forall₂_map_right_iff]
  refine h.imp fun t t' ht => ?_
  by_cases hsame : t.start = start
  · rw [if_pos hsame, if_pos ((hstart ht).mpr hsame)]
    exact hfill ht hsame
  · rw [if_neg hsame, if_neg (mt (hstart ht).mp hsame)]
    exact ht

theorem readBodies?_cons {h : Heredoc} {docs : List Heredoc} {out : List Token}
    {content : Heredoc.Content} {more : Nat} (hcontent : h.readContent? cs = some content)
    (hmore : readBodies? (fill tokens h.start (.string (String.ofList content.value) content.interpolated)) docs
      (cs.drop content.width) = some (out, more)) :
    readBodies? tokens (h :: docs) cs = some (out, content.width + more) := by
  simp [readBodies?, hcontent, hmore]

theorem readBodies?_append (tail' : List Char) {docs : List Heredoc} {out : List Token}
    (hread : readBodies? tokens docs (xs ++ tail) = some (out, width))
    (hwidth : width < xs.length + min 1 tail.length) :
    readBodies? tokens docs (xs ++ tail') = some (out, width) := by
  induction docs generalizing tokens xs width with
  | nil => exact hread
  | cons h docs ih =>
    obtain ⟨content, more, hcontent, hmore, rfl⟩ := readBodies_cons hread
    have hfirst : content.width ≤ xs.length := by omega
    rw [drop_append_of_le_length hfirst] at hmore
    refine readBodies?_cons (h.readContent?_append tail' hcontent (by omega)) ?_
    rw [drop_append_of_le_length hfirst]
    exact ih hmore (by rw [length_drop]; omega)

theorem step?_suffix {t : Scan} {rest : List Char} (h : s.step? c cs = some (t, rest)) :
    rest <:+ cs.drop (readLexeme s.last s.place.fresh s.place.offset c cs).width := by
  rw [step?] at h
  split at h
  · obtain ⟨⟨tokens, width⟩, -, heq⟩ := Option.map_eq_some_iff.mp h
    cases heq
    exact drop_suffix _ _
  · cases h
    exact suffix_refl _

theorem lt_of_suffix_drop (hne : ys ++ tail ≠ []) (h : ys ++ tail <:+ (xs ++ tail).drop width) :
    width < xs.length + min 1 tail.length := by
  have hpos := length_pos_iff.mpr hne
  have hle := h.length_le
  simp only [length_append, length_drop] at hpos hle
  omega

/-- A step that ends before the tail, and before the end of the text, does not depend on
the tail. -/
theorem step?_append (hpart : Parting tail tail') {t : Scan} (hne : ys ++ tail ≠ [])
    (h : s.step? c (xs ++ tail) = some (t, ys ++ tail)) :
    s.step? c (xs ++ tail') = some (t, ys ++ tail') := by
  have hshort := lt_of_suffix_drop hne (step?_suffix h)
  have hwidth := Nat.le_of_lt_succ (Nat.lt_of_lt_of_le hshort (Nat.add_le_add_left (Nat.min_le_left 1 _) _))
  rw [step?] at h
  rw [step?, readLexeme_append hpart hshort]
  generalize readLexeme s.last s.place.fresh s.place.offset c (xs ++ tail) = lexeme at h hwidth
  simp only [take_append_of_le_length hwidth, drop_append_of_le_length hwidth] at h ⊢
  split
  · rename_i hbodies
    rw [if_pos hbodies] at h
    obtain ⟨⟨tokens, width⟩, hread, heq⟩ := Option.map_eq_some_iff.mp h
    obtain ⟨rfl, hrest⟩ := Prod.mk.inj heq
    dsimp only at hrest
    have hsuffix : ys ++ tail <:+ (xs.drop lexeme.width ++ tail).drop width :=
      hrest.symm ▸ suffix_refl _
    have hbody := lt_of_suffix_drop hne hsuffix
    have hle : width ≤ (xs.drop lexeme.width).length := by omega
    rw [drop_append_of_le_length hle] at hrest
    rw [readBodies?_append tail' hread hbody, Option.map_some, take_append_of_le_length hle,
      take_append_of_le_length hle, drop_append_of_le_length hle, append_cancel_right hrest]
  · rename_i hbodies
    rw [if_neg hbodies] at h
    obtain ⟨rfl, hrest⟩ := Prod.mk.inj (Option.some.inj h)
    rw [append_cancel_right hrest]

/-- States that a scan goes through from a given one, with the text left. -/
inductive Leads (s : Scan) (cs : List Char) : Scan → List Char → Prop
  | refl : Leads s cs s cs
  | step {t u : Scan} {c : Char} {ds rest : List Char} (h : Leads s cs t (c :: ds))
    (hstep : t.step? c ds = some (u, rest)) : Leads s cs u rest

theorem Reached.leads {source rest : List Char} (h : Reached source s rest) :
    Scan.start.Leads source s rest := by
  induction h with
  | start => exact .refl
  | step _ hstep ih => exact .step ih hstep

namespace Leads
variable {s t u : Scan} {cs ds rest : List Char}

theorem reached (h : start.Leads cs s rest) : Reached cs s rest := by
  induction h with
  | refl => exact .start
  | step _ hstep ih => exact .step ih hstep

theorem trans (h : s.Leads cs t ds) (h' : t.Leads ds u rest) : s.Leads cs u rest := by
  induction h' with
  | refl => exact h
  | step _ hstep ih => exact .step ih hstep

theorem scanFrom_eq (h : s.Leads cs t rest) : scanFrom s cs = scanFrom t rest := by
  induction h with
  | refl => rfl
  | step _ hstep ih => rw [ih, scanFrom_cons, hstep, Option.bind_some]

/-- A run that ends before the tail, and before the end of the text, does not depend on the tail. -/
theorem append (hpart : Parting tail tail') (hne : ys ++ tail ≠ [])
    (h : s.Leads (xs ++ tail) t (ys ++ tail)) : s.Leads (xs ++ tail') t (ys ++ tail') := by
  generalize hrest : ys ++ tail = rest at h
  induction h generalizing ys with
  | refl => rw [append_cancel_right hrest]; exact .refl
  | @step u v c ds rest _ hstep ih =>
    subst hrest
    obtain ⟨passed, hpassed⟩ := (step?_suffix hstep).trans (drop_suffix _ _)
    rw [← hpassed, ← append_assoc] at hstep
    have hbefore : c :: (passed ++ ys) ++ tail = c :: ds := by simp [← hpassed]
    exact .step (ih (by simp) hbefore) (step?_append hpart hne hstep)

end Leads

theorem leads_end (h : scanFrom s cs = some tokens) :
    ∃ t, s.Leads cs t [] ∧ tokens = t.tokens.reverse := by
  induction hlength : cs.length using Nat.strongRecOn generalizing s cs with
  | ind length ih =>
    cases cs with
    | nil =>
      rw [scanFrom, Option.some.injEq] at h
      exact ⟨s, .refl, h.symm⟩
    | cons c cs =>
      rw [scanFrom_cons] at h
      obtain ⟨⟨t, rest⟩, hstep, hrest⟩ := Option.bind_eq_some_iff.mp h
      obtain ⟨u, hleads, htokens⟩ := ih rest.length (hlength ▸ length_step? hstep) hrest rfl
      exact ⟨u, (Leads.step .refl hstep).trans hleads, htokens⟩

end Scan

end CookbookAtlas.Token
