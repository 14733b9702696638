import CookbookAtlas.Text.Basic
import Mathlib.Data.List.Basic

/-! Marks in a text: what follows a given start, and the halves around the first mark. -/
namespace CookbookAtlas.Text

open List

theorem after?_append (xs ys : List Char) : after? xs (xs ++ ys) = some ys := by
  induction xs with
  | nil => rfl
  | cons x xs ih => simpa [after?] using ih

theorem after?_eq_some_iff {start cs rest : List Char} :
    after? start cs = some rest ↔ cs = start ++ rest := by
  constructor
  · intro h
    induction start generalizing cs with
    | nil => simpa [after?] using h
    | cons s start ih =>
      cases cs with
      | nil => simp [after?] at h
      | cons c cs =>
        by_cases hs : s = c
        · rw [after?, if_pos hs] at h
          rw [ih h, hs, cons_append]
        · rw [after?, if_neg hs] at h
          cases h
  · rintro rfl
    exact after?_append start rest

theorem after?_of_head?_ne {start : List Char} (hne : start ≠ []) {c : Char}
    (h : start.head? ≠ some c) (cs : List Char) : after? start (c :: cs) = none := by
  cases start with
  | nil => exact absurd rfl hne
  | cons s start => exact if_neg fun he => h (by rw [he]; rfl)

/-- The halves of a split, with the mark between them, make up the text. -/
theorem eq_of_splitFirst? {mark cs before rest : List Char}
    (h : splitFirst? mark cs = some (before, rest)) : cs = before ++ mark ++ rest := by
  induction cs generalizing before with
  | nil =>
    obtain ⟨tail, htail, heq⟩ := Option.map_eq_some_iff.1 h
    cases heq
    exact after?_eq_some_iff.1 htail
  | cons c cs ih =>
    unfold splitFirst? at h
    split at h
    · rename_i tail htail
      cases h
      exact after?_eq_some_iff.1 htail
    · obtain ⟨⟨inner, more⟩, hsplit, heq⟩ := Option.map_eq_some_iff.1 h
      cases heq
      rw [ih hsplit]
      rfl

theorem splitFirst?_of_after? {mark cs rest : List Char} (h : after? mark cs = some rest) :
    splitFirst? mark cs = some ([], rest) := by
  cases cs <;> simp [splitFirst?, h]

theorem splitFirst?_le (mark xs ys : List Char) :
    ∃ before rest, splitFirst? mark (xs ++ mark ++ ys) = some (before, rest) ∧
    before.length ≤ xs.length := by
  induction xs with
  | nil => exact ⟨[], ys, splitFirst?_of_after? (after?_append mark ys), Nat.le_refl 0⟩
  | cons x xs ih =>
    cases hafter : after? mark (x :: xs ++ mark ++ ys) with
    | some rest => exact ⟨[], rest, splitFirst?_of_after? hafter, Nat.zero_le _⟩
    | none =>
      obtain ⟨before, rest, hsplit, hle⟩ := ih
      refine ⟨x :: before, rest, ?_, Nat.succ_le_succ hle⟩
      rw [cons_append, cons_append] at hafter ⊢
      simp only [splitFirst?, hafter, hsplit, Option.map_some]

theorem splitFirst?_append {mark xs : List Char} (hmark : mark ≠ [])
    (h : ¬ mark <:+: xs ++ mark.dropLast)
    (ys : List Char) : splitFirst? mark (xs ++ mark ++ ys) = some (xs, ys) := by
  induction xs with
  | nil => exact splitFirst?_of_after? (after?_append mark ys)
  | cons x xs ih =>
    have hrest := ih fun hinfix => h (infix_cons hinfix)
    have hnone : after? mark (x :: (xs ++ mark ++ ys)) = none := by
      rw [Option.eq_none_iff_forall_ne_some]
      intro rest hafter
      have hstart : mark <+: x :: (xs ++ mark ++ ys) := ⟨rest, (after?_eq_some_iff.1 hafter).symm⟩
      have hshort : x :: xs ++ mark.dropLast <+: x :: (xs ++ mark ++ ys) := by
        rw [append_assoc, cons_append]
        exact (prefix_append_right_inj (x :: xs)).2 ((List.dropLast_prefix mark).trans (prefix_append mark ys))
      have hlength := length_pos_iff.2 hmark
      refine h (prefix_of_prefix_length_le hstart hshort ?_).isInfix
      simp only [length_append, length_cons, length_dropLast]
      omega
    simp only [cons_append, splitFirst?, hnone, hrest, Option.map_some]

end CookbookAtlas.Text
