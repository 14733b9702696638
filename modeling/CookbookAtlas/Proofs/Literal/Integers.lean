import CookbookAtlas.Proofs.Literal.QuotedLabel
import CookbookAtlas.Proofs.Literal.Written
import Mathlib.Data.Nat.Digits.Defs
import Mathlib.Data.Nat.Digits.Lemmas

/-! Integer literals in every base, and what they are read as. A literal tells its base by a zero
and a letter, or by a zero alone; without either it is base ten. Evaluation knows base ten only: a
letter leaves it without a value, a leading zero is read over. -/
namespace CookbookAtlas.Literal

open Token List Text Decimal

variable {c : Char} {ds : List Char}

/-- The value of a digit, letters being the digits from ten on. -/
def digit? (c : Char) : Option Nat :=
  if isAsciiDigit c then some (digitValue c)
  else if isAsciiLower c then some (c.toNat - 'a'.toNat + 10)
  else if isAsciiUpper c then some (c.toNat - 'A'.toNat + 10)
  else none

def isDigitOf (base : Nat) (c : Char) : Bool := (digit? c).any (· < base)

def isGrouped (base : Nat) : List Char → Bool
  | [] => false
  | [c] => isDigitOf base c
  | c :: '_' :: cs | c :: cs => isDigitOf base c && isGrouped base cs

def positional (base : Nat) (digits : List Char) : Nat :=
  Nat.ofDigits base (digits.filterMap digit?).reverse

def letterBases : List (Char × Nat) :=
  [('b', 2), ('B', 2), ('o', 8), ('O', 8), ('d', 10), ('D', 10), ('x', 16), ('X', 16)]

inductive Radix
  /-- Base ten, for digits that do not start with a zero and for the digit zero alone. -/
  | decimal
  /-- Base eight, by a zero before more digits. -/
  | leadingZero
  /-- By a zero and a letter. -/
  | marked (letter : Char) (base : Nat) (h : (letter, base) ∈ letterBases)

namespace Radix

def base : Radix → Nat
  | decimal => 10
  | leadingZero => 8
  | marked _ base _ => base

def mark : Radix → List Char
  | marked letter _ _ => ['0', letter]
  | _ => []

def admits (digits : List Char) : Radix → Prop
  | decimal => digits.head? = some '0' → digits = ['0']
  | leadingZero => digits.head? = some '0' ∧ digits ≠ ['0']
  | marked _ _ _ => True

end Radix

/-- A sign, what tells the base, and digits with single underscores between them. -/
structure IntegerLiteral where
  negative : Bool
  radix : Radix
  digits : List Char
  grouped : isGrouped radix.base digits = true
  admitted : radix.admits digits

namespace IntegerLiteral

def numeral (l : IntegerLiteral) : List Char := l.radix.mark ++ l.digits

def text (l : IntegerLiteral) : List Char := if l.negative then '-' :: l.numeral else l.numeral

/-- The integer that sign and digits stand for in a base. -/
def valueIn (l : IntegerLiteral) (base : Nat) : Int := signed l.negative (positional base l.digits)

def value (l : IntegerLiteral) : Int := l.valueIn l.radix.base

/-- A leading zero before digits that mean another number in base ten. -/
def IsMisread (l : IntegerLiteral) : Prop := l.radix = .leadingZero ∧ 8 ≤ l.value.natAbs

end IntegerLiteral

/-- The value that stands for an integer. -/
inductive Denotes : Datum → Int → Prop
  | int {n : Int} (h : Fits n) : Denotes (.number (.int n)) n
  /-- The float that an integer is rounded to if it does not fit. -/
  | float {n : Int} (h : ¬Fits n) (hfinite : (Float.ofInt n).isFinite = true) :
    Denotes (.number (.float (Float.ofInt n).toBits)) n

theorem digit?_underscore : digit? '_' = none := by decide

theorem isNumberChar_of_digit? {n : Nat} (h : digit? c = some n) : Token.isNumberChar c = true := by
  rw [digit?] at h
  simp only [isNumberChar, isAsciiAlphanumeric, isAsciiAlphabetic]
  split at h
  · simp_all
  · split at h
    · simp_all
    · split at h <;> simp_all

theorem isNumberChar_of_isDigitOf {base : Nat} (h : isDigitOf base c = true) :
    isNumberChar c = true := by
  rw [isDigitOf, Option.any_eq_true] at h
  obtain ⟨n, hn, -⟩ := h
  exact isNumberChar_of_digit? hn

theorem digit?_of_isDigitOf {base : Nat} (hbase : base ≤ 10) (h : isDigitOf base c = true) :
    isAsciiDigit c = true ∧ digit? c = some (digitValue c) ∧ digitValue c < base := by
  rw [isDigitOf, Option.any_eq_true] at h
  obtain ⟨n, hn, hlt⟩ := h
  have hlt : n < base := of_decide_eq_true hlt
  have hdigit : isAsciiDigit c = true := by
    by_contra hnot
    rw [digit?, if_neg hnot] at hn
    split at hn
    · simp only [Option.some.injEq] at hn
      omega
    · split at hn
      · simp only [Option.some.injEq] at hn
        omega
      · cases hn
  have hvalue : digit? c = some (digitValue c) := by rw [digit?, if_pos hdigit]
  have heq : n = digitValue c := Option.some.inj (hn.symm.trans hvalue)
  exact ⟨hdigit, hvalue, heq ▸ hlt⟩

section
variable {base : Nat} {digits : List Char}

theorem mem_of_isGrouped (h : isGrouped base digits = true) :
    ∀ c ∈ digits, isDigitOf base c = true ∨ c = '_' := by
  fun_induction isGrouped base digits with
  | case1 => cases h
  | case2 c => simpa using Or.inl h
  | case3 c cs ih =>
    simp only [Bool.and_eq_true] at h
    simpa [h.1] using ih h.2
  | case4 c cs _ _ ih =>
    simp only [Bool.and_eq_true] at h
    simpa [h.1] using ih h.2

theorem exists_cons_of_isGrouped (h : isGrouped base digits = true) :
    ∃ c cs, digits = c :: cs ∧ isDigitOf base c = true := by
  revert h
  fun_cases isGrouped base digits with
  | case1 => exact fun h => absurd h Bool.false_ne_true
  | case2 c => exact fun h => ⟨c, [], rfl, h⟩
  | case3 c cs => exact fun h => ⟨c, '_' :: cs, rfl, (Bool.and_eq_true_iff.mp h).1⟩
  | case4 c cs => exact fun h => ⟨c, cs, rfl, (Bool.and_eq_true_iff.mp h).1⟩

theorem isAsciiDigit_of_mem_clean (hbase : base ≤ 10) (h : isGrouped base digits = true) :
    ∀ c ∈ clean digits, isAsciiDigit c = true := by
  intro c hc
  obtain ⟨hmem, hne⟩ := mem_filter.mp hc
  rcases mem_of_isGrouped h c hmem with hdigit | rfl
  · exact (digit?_of_isDigitOf hbase hdigit).1
  · cases hne

theorem clean_ne_nil (h : isGrouped base digits = true) : clean digits ≠ [] := by
  obtain ⟨c, cs, rfl, hc⟩ := exists_cons_of_isGrouped h
  have hne : c ≠ '_' := by
    rintro rfl
    exact Bool.false_ne_true hc
  rw [clean_cons hne]
  exact cons_ne_nil _ _

theorem filterMap_digit? (hbase : base ≤ 10) (h : ∀ c ∈ digits, isDigitOf base c = true ∨ c = '_') :
    digits.filterMap digit? = (clean digits).map digitValue := by
  induction digits with
  | nil => rfl
  | cons c cs ih =>
    obtain ⟨hc, hcs⟩ := forall_mem_cons.mp h
    by_cases hunder : c = '_'
    · subst hunder
      rw [filterMap_cons_none digit?_underscore, ih hcs]
      rfl
    · have hdigit := digit?_of_isDigitOf hbase (hc.resolve_right hunder)
      rw [filterMap_cons_some hdigit.2.1, ih hcs, clean_cons hunder, map_cons]

theorem ofDigits_eq_ofDigits (ds : List Char) :
    ofDigits ds = Nat.ofDigits 10 (ds.map digitValue).reverse := by
  rw [Nat.ofDigits_eq_foldr, foldr_reverse, foldl_map, ofDigits]
  congr
  funext n c
  exact Nat.add_comm _ _

theorem ofDigits_clean (hbase : base ≤ 10) (h : isGrouped base digits = true) :
    ofDigits (clean digits) = positional 10 digits := by
  rw [positional, filterMap_digit? hbase (mem_of_isGrouped h), ofDigits_eq_ofDigits]

end

theorem natAbs_signed (negative : Bool) (n : Nat) : (signed negative n).natAbs = n := by
  cases negative <;> simp [signed]

theorem float?_digits (hne : ds ≠ []) (hds : ∀ c ∈ ds, isAsciiDigit c = true) :
    float? ds = some (Decimal.nearest ds 0) := by
  have hspan : ds.span isAsciiDigit = (ds, []) := by
    rw [span_eq_takeWhile_dropWhile, takeWhile_eq_self_iff.mpr hds, dropWhile_eq_nil_iff.mpr hds]
  have hempty : ds.isEmpty = false := isEmpty_eq_false_iff.mpr hne
  rw [float?.eq_def, hspan]
  simp [hempty]

theorem nearest_zero (hne : ofDigits ds ≠ 0) :
    Decimal.nearest ds 0 = Float.ofNat (ofDigits ds) := by
  have hbound : ¬(0 : Int) < -(exponentBound ds) := by
    rw [exponentBound]
    omega
  rw [Decimal.nearest.eq_def]
  simp only
  rw [if_neg hne, if_neg (by decide), if_neg hbound]
  rfl

theorem signed_nearest {negative : Bool} (h : ¬Fits (signed negative (ofDigits ds))) :
    (if negative then -Decimal.nearest ds 0 else Decimal.nearest ds 0) =
      Float.ofInt (signed negative (ofDigits ds)) := by
  obtain ⟨n, hn⟩ : ∃ n, ofDigits ds = n + 1 := by
    refine Nat.exists_eq_succ_of_ne_zero fun hzero => h ?_
    rw [hzero]
    cases negative <;> decide
  rw [nearest_zero (by omega), hn]
  cases negative <;> rfl

section
variable {text : String} {negative : Bool}

theorem Denotes.iff_of_fits {v : Datum} {n : Int} (h : Fits n) :
    Denotes v n ↔ v = .number (.int n) := by
  constructor
  · rintro (_ | ⟨hno, _⟩)
    · rfl
    · exact absurd h hno
  · rintro rfl
    exact .int h

theorem number?_digits {ds : List Char} (hclean : clean text.toList = ds) (hne : ds ≠ [])
    (hds : ∀ c ∈ ds, isAsciiDigit c = true) (v : Datum) :
    number? text negative = some v ↔ Denotes v (signed negative (ofDigits ds)) := by
  subst hclean
  rw [number?_of_digit (head_digits hds), integer?_digits hne hds negative]
  by_cases hfits : Fits (signed negative (ofDigits (clean text.toList)))
  · rw [if_pos hfits, Denotes.iff_of_fits hfits, Option.some_inj, eq_comm]
  · rw [if_neg hfits, float?_digits hne hds]
    simp only [signed_nearest hfits]
    constructor
    · intro hv
      split at hv
      · rename_i hfinite
        rw [← Option.some.inj hv]
        exact .float hfits hfinite
      · cases hv
    · rintro (hfits' | ⟨-, hfinite⟩)
      · exact absurd hfits' hfits
      · rw [if_pos hfinite]

theorem number?_marked {letter : Char} {base : Nat} {digits : List Char}
    (h : (letter, base) ∈ letterBases)
    (htext : text.toList = '0' :: letter :: digits) : number? text negative = none := by
  have hletters : ∀ p ∈ letterBases,
      p.1 ≠ '_' ∧ isAsciiDigit p.1 = false ∧ p.1 ≠ '.' ∧ p.1 ≠ 'e' ∧ p.1 ≠ 'E' := by decide
  obtain ⟨hunder, hdigit, hpoint, he, hE⟩ := hletters _ h
  have hclean : clean text.toList = '0' :: letter :: clean digits := by
    rw [htext, clean_cons (by decide), clean_cons hunder]
  have hinteger : integer? ('0' :: letter :: clean digits) negative = none := by
    have hall : ('0' :: letter :: clean digits).all isAsciiDigit = false := by
      rw [all_cons, all_cons, hdigit, Bool.false_and, Bool.and_false]
    rw [integer?.eq_def, hall]
    rfl
  have hfloat : float? ('0' :: letter :: clean digits) = none := by
    have hspan : ('0' :: letter :: clean digits).span isAsciiDigit = (['0'], letter :: clean digits) := by
      rw [span_eq_takeWhile_dropWhile]
      simp [List.takeWhile, List.dropWhile, hdigit, show isAsciiDigit '0' = true from rfl]
    rw [float?.eq_def, hspan]
    simp [hpoint, he, hE]
  have hhead : ∀ c ∈ (clean text.toList).head?, isAsciiDigit c = true := by
    rw [hclean]
    rintro c ⟨⟩
    rfl
  rw [number?_of_digit hhead, hclean, hinteger, hfloat]

end

theorem evaluateKinds?_number (text : String) :
    evaluateKinds? [.number text] = number? text false := by
  cases h : number? text false <;>
    simp [evaluateKinds?, State.run, State.step, State.start, State.valueStep, State.value,
      nestingLimit, h]

theorem evaluateKinds?_minus (text : String) :
    evaluateKinds? [.op "-", .number text] = number? text true := by
  cases h : number? text true <;>
    simp [evaluateKinds?, State.run, State.step, State.start, State.valueStep, State.value,
      nestingLimit, h]

theorem evaluateText?_spell {ps : List Piece} (h : Spelled ps []) :
    evaluateText? (spell ps) = evaluateKinds? (kinds ps) := by
  rw [evaluateText?_eq, scan?_spell h, Option.map_some, map_kind_tokensAt, Option.bind_some]

theorem Radix.base_le_ten {r : Radix} (h : r.mark = []) : r.base ≤ 10 := by
  cases r with
  | decimal => exact Nat.le_refl 10
  | leadingZero => exact Nat.le_of_ble_eq_true rfl
  | marked => cases h

namespace IntegerLiteral

theorem isNumberChar_of_mem (l : IntegerLiteral) : ∀ c ∈ l.digits, isNumberChar c = true := by
  intro c hc
  rcases mem_of_isGrouped l.grouped c hc with hdigit | rfl
  · exact isNumberChar_of_isDigitOf hdigit
  · rfl

theorem numeral_eq_cons (l : IntegerLiteral) :
    ∃ c cs, l.numeral = c :: cs ∧ isAsciiDigit c = true ∧ ∀ d ∈ cs, isNumberChar d = true := by
  have hchars := l.isNumberChar_of_mem
  by_cases hmark : l.radix.mark = []
  · obtain ⟨c, cs, hdigits, hc⟩ := exists_cons_of_isGrouped l.grouped
    rw [hdigits] at hchars
    refine ⟨c, cs, ?_, (digit?_of_isDigitOf (Radix.base_le_ten hmark) hc).1,
      (forall_mem_cons.mp hchars).2⟩
    rw [numeral, hmark, hdigits, nil_append]
  · cases hradix : l.radix with
    | decimal | leadingZero => exact absurd (by rw [hradix]; rfl) hmark
    | marked letter base h =>
      have hletters : ∀ p ∈ letterBases, isNumberChar p.1 = true := by decide
      refine ⟨'0', letter :: l.digits, ?_, rfl, forall_mem_cons.mpr ⟨hletters _ h, hchars⟩⟩
      rw [numeral, hradix]
      rfl

theorem evaluateText?_text (l : IntegerLiteral) :
    evaluateText? l.text = number? (String.ofList l.numeral) l.negative := by
  obtain ⟨c, cs, hnumeral, hc, hcs⟩ := l.numeral_eq_cons
  have hreads : (Piece.number l.numeral).Reads [] := by
    rw [hnumeral]
    exact Piece.reads_numeral hc hcs (by simp [EndsNumber])
  cases hnegative : l.negative with
  | false =>
    have hspelled : Spelled [Piece.number l.numeral] [] := ⟨hreads, trivial⟩
    have htext : l.text = spell [Piece.number l.numeral] := by simp [text, hnegative, Piece.number]
    rw [htext, evaluateText?_spell hspelled]
    exact evaluateKinds?_number _
  | true =>
    have hhead : l.numeral.head? ≠ some '=' ∧ l.numeral.head? ≠ some '>' := by
      rw [hnumeral]
      constructor <;> rintro ⟨⟩ <;> exact Bool.false_ne_true hc
    have hspelled : Spelled [Piece.minus, Piece.number l.numeral] [] :=
      ⟨Piece.reads_minus (by simpa [Piece.number] using hhead), hreads, trivial⟩
    have htext : l.text = spell [Piece.minus, Piece.number l.numeral] := by
      simp [text, hnegative, Piece.number, Piece.minus, Piece.mark]
    rw [htext, evaluateText?_spell hspelled]
    exact evaluateKinds?_minus _

end IntegerLiteral

theorem ofDigits_ten_of_lt {ds : List Nat} (h : Nat.ofDigits 8 ds < 8) :
    Nat.ofDigits 10 ds = Nat.ofDigits 8 ds := by
  induction ds with
  | nil => rfl
  | cons d ds ih =>
    rw [Nat.ofDigits_cons] at h ⊢
    have hrest := ih (by omega)
    rw [Nat.ofDigits_cons]
    omega

theorem ofDigits_lt_of_le {ds : List Nat} (hds : ∀ d ∈ ds, d < 8) (h : 8 ≤ Nat.ofDigits 8 ds) :
    Nat.ofDigits 8 ds < Nat.ofDigits 10 ds := by
  cases ds with
  | nil => cases h
  | cons d ds =>
    have hd := hds d mem_cons_self
    have hrest : Nat.ofDigits 8 ds ≤ Nat.ofDigits 10 ds := Nat.ofDigits_monotone ds (by decide)
    rw [Nat.ofDigits_cons] at h
    rw [Nat.ofDigits_cons, Nat.ofDigits_cons]
    omega

theorem digit_lt_of_isGrouped {base : Nat} {digits : List Char} (h : isGrouped base digits = true) :
    ∀ d ∈ (digits.filterMap digit?).reverse, d < base := by
  intro d hd
  obtain ⟨c, hc, hdigit⟩ := mem_filterMap.mp (mem_reverse.mp hd)
  rcases mem_of_isGrouped h c hc with hbase | rfl
  · rw [isDigitOf, hdigit] at hbase
    exact of_decide_eq_true hbase
  · rw [digit?_underscore] at hdigit
    cases hdigit

/-- The value is that of the digits in base ten, whatever base a leading zero tells. -/
theorem evaluateText?_eq_some_iff (l : IntegerLiteral) (v : Datum) :
    evaluateText? l.text = some v ↔ l.radix.mark = [] ∧ Denotes v (l.valueIn 10) := by
  rw [l.evaluateText?_text]
  by_cases hmark : l.radix.mark = []
  · have hbase := Radix.base_le_ten hmark
    have hclean : clean (String.ofList l.numeral).toList = clean l.digits := by
      rw [String.toList_ofList, IntegerLiteral.numeral, hmark, nil_append]
    rw [and_iff_right hmark, IntegerLiteral.valueIn, ← ofDigits_clean hbase l.grouped]
    exact number?_digits hclean (clean_ne_nil l.grouped) (isAsciiDigit_of_mem_clean hbase l.grouped) v
  · cases hradix : l.radix with
    | decimal | leadingZero => exact absurd (by rw [hradix]; rfl) hmark
    | marked letter base h =>
      have hnumeral : (String.ofList l.numeral).toList = '0' :: letter :: l.digits := by
        rw [String.toList_ofList, IntegerLiteral.numeral, hradix]
        rfl
      rw [number?_marked h hnumeral]
      refine iff_of_false (fun hv => ?_) fun h => cons_ne_nil _ _ h.1
      cases hv

theorem value_eq_valueIn_ten {l : IntegerLiteral} (hmark : l.radix.mark = []) (h : ¬l.IsMisread) :
    l.value = l.valueIn 10 := by
  rw [IntegerLiteral.value]
  cases hradix : l.radix with
  | decimal => rfl
  | leadingZero =>
    have hlt : l.value.natAbs < 8 := Nat.lt_of_not_le fun hle => h ⟨hradix, hle⟩
    rw [IntegerLiteral.value, hradix, IntegerLiteral.valueIn, natAbs_signed] at hlt
    exact congrArg (signed l.negative) (ofDigits_ten_of_lt hlt).symm
  | marked letter base h =>
    rw [hradix] at hmark
    cases hmark

theorem value_lt_valueIn_ten {l : IntegerLiteral} (h : l.IsMisread) :
    l.value.natAbs < (l.valueIn 10).natAbs := by
  obtain ⟨hradix, hle⟩ := h
  have hgrouped := l.grouped
  rw [hradix] at hgrouped
  rw [IntegerLiteral.value, hradix, IntegerLiteral.valueIn, natAbs_signed] at hle ⊢
  rw [IntegerLiteral.valueIn, natAbs_signed]
  exact ofDigits_lt_of_le (digit_lt_of_isGrouped hgrouped) hle

/-- An integer literal is read as its integer, or the float that is rounded to, unless a leading
zero tells base eight; a letter leaves it unread. -/
theorem integer_value_unless_leadingZero (l : IntegerLiteral) :
    (¬l.IsMisread → ∀ v, evaluateText? l.text = some v → Denotes v l.value) ∧
      (l.IsMisread → l.value.natAbs < (l.valueIn 10).natAbs) ∧
      ∀ v, evaluateText? l.text = some v ↔ l.radix.mark = [] ∧ Denotes v (l.valueIn 10) := by
  refine ⟨fun h v hv => ?_, value_lt_valueIn_ten, evaluateText?_eq_some_iff l⟩
  obtain ⟨hmark, hdenotes⟩ := (evaluateText?_eq_some_iff l v).mp hv
  rwa [value_eq_valueIn_ten hmark h]

def fileMode : IntegerLiteral := ⟨false, .leadingZero, "0755".toList, by decide, rfl, by decide⟩

def thousands : IntegerLiteral :=
  ⟨true, .decimal, "12_000".toList, by decide, fun h => absurd h (by decide)⟩

theorem thousands_fileMode_read :
    (evaluateText? thousands.text = some (.number (.int (-12000))) ∧
    Denotes (.number (.int (-12000))) thousands.value) ∧
      evaluateText? fileMode.text = some (.number (.int 755)) ∧ fileMode.value = 493 ∧
      fileMode.value.natAbs < 755 := by
  obtain ⟨hvalue, -, hthousands⟩ := integer_value_unless_leadingZero thousands
  obtain ⟨-, hlt, hmode⟩ := integer_value_unless_leadingZero fileMode
  have hread := (hthousands (.number (.int (-12000)))).mpr ⟨rfl, .int (by decide)⟩
  exact ⟨⟨hread, hvalue (fun h => Radix.noConfusion h.1) _ hread⟩,
    (hmode _).mpr ⟨rfl, .int (by decide)⟩, by decide, hlt ⟨rfl, by decide⟩⟩

theorem leadingZero_misread :
    ¬∀ (l : IntegerLiteral) (v : Datum), evaluateText? l.text = some v → Denotes v l.value := by
  intro h
  have hread : evaluateText? fileMode.text = some (.number (.int 755)) :=
    (evaluateText?_eq_some_iff fileMode _).mpr ⟨rfl, .int (by decide)⟩
  have hdenotes := (Denotes.iff_of_fits (by decide)).mp (h fileMode _ hread)
  injection hdenotes with hnumber
  injection hnumber with hint
  exact absurd hint (by decide)

end CookbookAtlas.Literal
