import CookbookAtlas.Text.Basic
import Mathlib.Data.List.Basic

/-! Collapsed text and lines. Collapsed text is made of words with single spaces between them;
lines that were each ended by a newline are read back as they were. -/
namespace CookbookAtlas.Text

open List

def IsWord (w : List Char) : Prop := w ≠ [] ∧ ∀ c ∈ w, isBlank c = false

theorem isWord_of_mem_wordsFrom {word cs w : List Char} (hword : ∀ c ∈ word, isBlank c = false)
    (h : w ∈ wordsFrom word cs) : IsWord w := by
  have hopen : word.isEmpty = false → IsWord word.reverse := by
    intro he
    exact ⟨by simpa using he, fun c hc => hword c (mem_reverse.mp hc)⟩
  induction cs generalizing word with
  | nil =>
    rw [wordsFrom] at h
    split at h
    · simp at h
    · rename_i he
      have hw : w = word.reverse := by simpa using h
      exact hw ▸ hopen (by simpa using he)
  | cons c cs ih =>
    rw [wordsFrom] at h
    split at h
    · split at h
      · exact ih (by simp) h (by simp)
      · rename_i he
        rcases mem_cons.mp h with rfl | h
        · exact hopen (by simpa using he)
        · exact ih (by simp) h (by simp)
    · rename_i hc
      have hgrown : ∀ d ∈ c :: word, isBlank d = false := by
        intro d hd
        rcases mem_cons.mp hd with rfl | hd
        · simpa using hc
        · exact hword d hd
      exact ih hgrown h fun _ => ⟨by simp, fun d hd => hgrown d (mem_reverse.mp hd)⟩

theorem isWord_of_mem_words {cs w : List Char} (h : w ∈ words cs) : IsWord w :=
  isWord_of_mem_wordsFrom (by simp) h

/-- Collapsed text is empty, or a word, or a word and a space before more that starts with
a word. -/
theorem collapse_cases (cs : List Char) :
    collapse cs = [] ∨ ∃ w, IsWord w ∧
    (collapse cs = w ∨ ∃ v more, IsWord v ∧ collapse cs = w ++ ' ' :: (v ++ more)) := by
  rw [collapse]
  have hwords : ∀ w ∈ words cs, IsWord w := fun w => isWord_of_mem_words
  cases hws : words cs with
  | nil => exact .inl rfl
  | cons w ws =>
    rw [hws] at hwords
    refine .inr ⟨w, hwords w mem_cons_self, ?_⟩
    cases ws with
    | nil => exact .inl (by simp [List.intercalate])
    | cons v ws =>
      have hv : IsWord v := hwords v (by simp)
      cases ws with
      | nil => exact .inr ⟨v, [], hv, by simp [List.intercalate]⟩
      | cons u ws =>
        exact .inr ⟨v, ' ' :: List.intercalate [' '] (u :: ws), hv, by simp [List.intercalate]⟩

theorem not_isBlank_getLast_intercalate {ws : List (List Char)} (h : ∀ w ∈ ws, IsWord w) :
    ∀ c ∈ (List.intercalate [' '] ws).getLast?, isBlank c = false := by
  induction ws with
  | nil => simp [List.intercalate]
  | cons w ws ih =>
    obtain ⟨hw, hblank⟩ := h w mem_cons_self
    cases ws with
    | nil =>
      intro c hc
      exact hblank c (mem_of_getLast? (by simpa [List.intercalate] using hc))
    | cons v ws =>
      have hne : List.intercalate [' '] (v :: ws) ≠ [] := by
        have hv := (h v (by simp)).1
        cases ws <;> simp [List.intercalate, hv]
      have hjoin : List.intercalate [' '] (w :: v :: ws) =
          (w ++ [' ']) ++ List.intercalate [' '] (v :: ws) := by
        simp [List.intercalate]
      rw [hjoin, List.getLast?_append_of_ne_nil _ hne]
      exact ih fun u hu => h u (mem_cons_of_mem _ hu)

theorem not_isBlank_getLast_collapse (cs : List Char) :
    ∀ c ∈ (collapse cs).getLast?, isBlank c = false :=
  not_isBlank_getLast_intercalate fun _ => isWord_of_mem_words

theorem linesFrom_append (line : List Char) {l : List Char} (h : '\n' ∉ l) (rest : List Char) :
    linesFrom line (l ++ '\n' :: rest) =
    (dropReturn (l.reverse ++ line)).reverse :: linesFrom [] rest := by
  induction l generalizing line with
  | nil => simp [linesFrom]
  | cons c l ih =>
    have hc : c ≠ '\n' := fun he => h (he ▸ mem_cons_self)
    have hl : '\n' ∉ l := fun hm => h (mem_cons_of_mem _ hm)
    simp [linesFrom, hc, ih (c :: line) hl]

/-- A line that can be written and read back: no newline in it, no carriage return at its end. -/
def IsLine (l : List Char) : Prop := '\n' ∉ l ∧ l.getLast? ≠ some '\r'

instance (l : List Char) : Decidable (IsLine l) := inferInstanceAs (Decidable (_ ∧ _))

theorem IsLine.append {l m : List Char} (hl : IsLine l) (hm : IsLine m) : IsLine (l ++ m) := by
  refine ⟨fun h => (mem_append.mp h).elim hl.1 hm.1, ?_⟩
  cases m with
  | nil => rw [append_nil]; exact hl.2
  | cons c m => rw [List.getLast?_append_of_ne_nil _ (by simp)]; exact hm.2

theorem dropReturn_reverse {l : List Char} (h : l.getLast? ≠ some '\r') :
    dropReturn l.reverse = l.reverse := by
  cases hr : l.reverse with
  | nil => rfl
  | cons c cs =>
    have hlast : l.getLast? = some c := by rw [← List.head?_reverse, hr]; rfl
    have hc : c ≠ '\r' := fun he => h (he ▸ hlast)
    unfold dropReturn
    split
    · rename_i heq
      cases heq
      exact absurd rfl hc
    · rfl

/-- Lines with a newline after each are read, but for a carriage return at the end of one. -/
theorem lines_ended {ls : List (List Char)} (h : ∀ l ∈ ls, '\n' ∉ l) :
    lines (ls.flatMap fun l => l ++ ['\n']) = ls.map fun l => (dropReturn l.reverse).reverse := by
  rw [lines]
  induction ls with
  | nil => rfl
  | cons l ls ih =>
    rw [flatMap_cons, append_assoc, singleton_append, linesFrom_append [] (h l mem_cons_self),
      append_nil, ih fun l' hl' => h l' (mem_cons_of_mem _ hl'), map_cons]

theorem lines_flatMap {ls : List (List Char)} (h : ∀ l ∈ ls, IsLine l) :
    lines (ls.flatMap fun l => l ++ ['\n']) = ls := by
  have hkept : ∀ l ∈ ls, (dropReturn l.reverse).reverse = l := by
    intro l hl
    rw [dropReturn_reverse (h l hl).2, reverse_reverse]
  rw [lines_ended fun l hl => (h l hl).1, map_congr_left hkept, map_id']

theorem linesFrom_ne_nil {line cs : List Char} (h : line ≠ [] ∨ cs ≠ []) :
    linesFrom line cs ≠ [] := by
  induction cs generalizing line with
  | nil => simpa [linesFrom] using h
  | cons c cs ih =>
    rw [linesFrom]
    split
    · exact cons_ne_nil _ _
    · exact ih (.inl (cons_ne_nil _ _))

/-- What stands before a character has fewer newlines than the whole has lines. -/
theorem count_lt_length_linesFrom (line before : List Char) {after : List Char} (h : after ≠ []) :
    before.count '\n' < (linesFrom line (before ++ after)).length := by
  induction before generalizing line with
  | nil => exact length_pos_iff.mpr (linesFrom_ne_nil (.inr h))
  | cons c before ih =>
    rw [cons_append, linesFrom]
    by_cases hc : c = '\n'
    · rw [if_pos hc, hc, count_cons_self, length_cons]
      exact Nat.succ_lt_succ (ih [])
    · rw [if_neg hc, count_cons_of_ne hc]
      exact ih (c :: line)

end CookbookAtlas.Text
