import CookbookAtlas.Text.Basic
import Mathlib.Data.List.Basic
import Mathlib.Data.List.Induction

/-! Character classes by code point. Letters and numbers are never white space, so a word is not
changed by trimming and stays one word when blanks are collapsed. -/
namespace CookbookAtlas.Text

open List
variable {c : Char} {cs : List Char}

theorem isAsciiDigit_iff : isAsciiDigit c = true ↔ 48 ≤ c.toNat ∧ c.toNat ≤ 57 := by
  simp only [isAsciiDigit, Bool.and_eq_true, decide_eq_true_eq, Char.le_def, UInt32.le_iff_toNat_le]
  exact Iff.rfl

theorem isAsciiAlphabetic_iff : isAsciiAlphabetic c = true ↔
    (97 ≤ c.toNat ∧ c.toNat ≤ 122) ∨ (65 ≤ c.toNat ∧ c.toNat ≤ 90) := by
  simp only [isAsciiAlphabetic, isAsciiLower, isAsciiUpper, Bool.or_eq_true, Bool.and_eq_true,
    decide_eq_true_eq, Char.le_def, UInt32.le_iff_toNat_le]
  exact Iff.rfl

theorem isAscii_iff : isAscii c = true ↔ c.toNat < 128 := by simp [isAscii]

theorem not_isAsciiDigit_of_isAlphabetic (hc : isAlphabetic c = true) : isAsciiDigit c = false := by
  rw [Bool.eq_false_iff]
  intro hd
  rw [isAsciiDigit_iff] at hd
  have hascii : isAscii c = true := isAscii_iff.mpr (by omega)
  have hletter : isAsciiAlphabetic c = true := by simpa [isAlphabetic, hascii] using hc
  rw [isAsciiAlphabetic_iff] at hletter
  omega

theorem ne_of_isAlphabetic {d : Char} (hc : isAlphabetic c = true) (hd : isAlphabetic d = false) :
    c ≠ d := by
  rintro rfl
  simp [hc] at hd

def blankPoints :
    List Nat := blankRanges.flatMap fun r => (List.range (r.2 + 1 - r.1)).map (r.1 + ·)

theorem mem_blankPoints {n : Nat} (h : inRanges blankRanges n = true) : n ∈ blankPoints := by
  simp only [inRanges, any_eq_true, Bool.and_eq_true, decide_eq_true_eq] at h
  obtain ⟨r, hr, hlow, hhigh⟩ := h
  refine mem_flatMap.mpr ⟨r, hr, mem_map.mpr ⟨n - r.1, mem_range.mpr (by omega), by omega⟩⟩

theorem blankPoints_unlettered :
    ∀ n ∈ blankPoints, inRanges alphabeticRanges n = false ∧ inRanges numericRanges n = false := by
  decide +kernel

theorem not_isBlank_of_isAlphanumeric (hc : isAlphanumeric c = true) : isBlank c = false := by
  rw [Bool.eq_false_iff]
  intro hb
  by_cases ha : isAscii c = true
  · simp only [isAlphanumeric, ha, if_true, isAsciiAlphanumeric, Bool.or_eq_true,
      isAsciiAlphabetic_iff, isAsciiDigit_iff] at hc
    simp only [isBlank, ha, if_true, Bool.or_eq_true, Bool.and_eq_true, beq_iff_eq,
      decide_eq_true_eq, Char.le_def, UInt32.le_iff_toNat_le] at hb
    rcases hb with rfl | hb
    · revert hc; decide
    · change 9 ≤ c.toNat ∧ c.toNat ≤ 13 at hb
      omega
  · have hpoint : inRanges blankRanges c.toNat = true := by simpa [isBlank, ha] using hb
    have hnone := blankPoints_unlettered _ (mem_blankPoints hpoint)
    simp [isAlphanumeric, ha, hnone] at hc

theorem trimLeft_of_head (hc : isBlank c = false) : trimLeft (c :: cs) = c :: cs := by
  simp [trimLeft, hc]

theorem trimRight_of_last (hc : isBlank c = false) : trimRight (cs ++ [c]) = cs ++ [c] := by
  simp [trimRight, hc]

theorem trim_eq_self (hfirst : ∀ c ∈ cs.head?, isBlank c = false)
    (hlast : ∀ c ∈ cs.getLast?, isBlank c = false) : trim cs = cs := by
  cases cs using List.reverseRecOn with
  | nil => rfl
  | append_singleton cs c =>
    have hc : isBlank c = false := hlast c (by simp)
    have hleft : trimLeft (cs ++ [c]) = cs ++ [c] := by
      cases cs with
      | nil => exact trimLeft_of_head hc
      | cons d ds => exact trimLeft_of_head (hfirst d (by simp))
    rw [trim, hleft, trimRight_of_last hc]

theorem trim_word {w : List Char} (hw : ∀ c ∈ w, isBlank c = false) : trim w = w :=
  trim_eq_self (fun c hc => hw c (mem_of_mem_head? hc)) fun c hc => hw c (mem_of_getLast? hc)

theorem trim_between {u v : List Char} (hu : u ≠ []) (hv : v ≠ [])
    (hub : ∀ c ∈ u, isBlank c = false) (hvb : ∀ c ∈ v, isBlank c = false) (mid : List Char) :
    trim (u ++ mid ++ v) = u ++ mid ++ v := by
  apply trim_eq_self
  · intro c hc
    rw [append_assoc, List.head?_append_of_ne_nil _ hu] at hc
    exact hub c (mem_of_mem_head? hc)
  · intro c hc
    rw [List.getLast?_append_of_ne_nil _ hv] at hc
    exact hvb c (mem_of_getLast? hc)

theorem wordsFrom_append (word : List Char) {w : List Char} (hw : ∀ c ∈ w, isBlank c = false)
    (rest : List Char) : wordsFrom word (w ++ rest) = wordsFrom (w.reverse ++ word) rest := by
  induction w generalizing word with
  | nil => rfl
  | cons c w ih =>
    have hc : isBlank c = false := hw c (by simp)
    have hrest := ih (c :: word) fun d hd => hw d (by simp [hd])
    simp [wordsFrom, hc, hrest]

/-- Two words with a space between them stay as they are when blanks are collapsed. -/
theorem collapse_two {u v : List Char} (hu : u ≠ []) (hv : v ≠ [])
    (hub : ∀ c ∈ u, isBlank c = false)
    (hvb : ∀ c ∈ v, isBlank c = false) : collapse (u ++ ' ' :: v) = u ++ ' ' :: v := by
  have h := wordsFrom_append [] hvb []
  have hwords : words (u ++ ' ' :: v) = [u, v] := by
    rw [words, wordsFrom_append [] hub, wordsFrom]
    rw [append_nil] at h
    simp [isBlank_space, hu, h, wordsFrom, hv]
  simp [collapse, hwords, List.intercalate]

end CookbookAtlas.Text
