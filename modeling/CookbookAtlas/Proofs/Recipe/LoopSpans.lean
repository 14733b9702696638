import CookbookAtlas.Proofs.Recipe.LoopHeadings

/-! The lines that loops span. A loop that stands above another one on the stack of open blocks ends
first, so of two loops the later one starts where the earlier one has ended or ends inside it. -/
namespace CookbookAtlas.Recipe

open List

/-- Of two loops in order of opening, the second starts behind the first or ends inside it. -/
def Loop.Nests (a b : Loop) : Prop := a.endLine ≤ b.line ∨ b.endLine ≤ a.endLine

instance (a b : Loop) : Decidable (a.Nests b) := inferInstanceAs (Decidable (_ ∨ _))

namespace LoopScan

/-- What holds of loops before statements on the given lines, where `stack` has the indices of open
loops, innermost first. A loop closed already nests with all that follow it; an open one will,
whatever its last line says so far. -/
structure Spanned (lines : List Nat) (ls : List Loop) (stack : List Nat) : Prop where
  sorted : lines.Pairwise (· ≤ ·)
  starts : ls.Pairwise fun a b => a.line ≤ b.line
  ends : ∀ l ∈ ls, l.line ≤ l.endLine ∧ ∀ n ∈ lines, l.endLine ≤ n
  inner : stack.Pairwise (· > ·)
  known : ∀ i ∈ stack, i < ls.length
  nests : ∀ i j a b, i < j → ls[i]? = some a → ls[j]? = some b →
    i ∈ stack ∨ a.endLine ≤ b.line ∨ j ∉ stack ∧ b.endLine ≤ a.endLine

section
variable {lines stack : List Nat} {ls : List Loop} {n k : Nat}

theorem Spanned.start (h : lines.Pairwise (· ≤ ·)) : Spanned lines [] [] :=
  ⟨h, .nil, by simp, .nil, by simp, by simp⟩

theorem Spanned.later {later : List Nat} (h : Spanned lines ls stack)
    (hlater : later.Sublist lines) : Spanned later ls stack :=
  { h with
    sorted := h.sorted.sublist hlater
    ends := fun l hl => ⟨(h.ends l hl).1, fun n hn => (h.ends l hl).2 n (hlater.subset hn)⟩ }

theorem Spanned.endLine_le (h : Spanned (n :: lines) ls stack) {l : Loop} (hl : l ∈ ls) :
    l.endLine ≤ n :=
  (h.ends l hl).2 n mem_cons_self

theorem Spanned.le_later (h : Spanned (n :: lines) ls stack) {m : Nat} (hm : m ∈ n :: lines) :
    n ≤ m := by
  rcases mem_cons.mp hm with rfl | hm
  · exact Nat.le_refl m
  · exact (pairwise_cons.mp h.sorted).1 m hm

theorem Spanned.begun (h : Spanned (n :: lines) ls stack) {l : Loop} (hline : l.line = n)
    (hend : l.endLine = n) : Spanned (n :: lines) (ls ++ [l]) (ls.length :: stack) where
  sorted := h.sorted
  starts := by
    refine pairwise_append.mpr ⟨h.starts, pairwise_singleton _ _, fun a ha b hb => ?_⟩
    obtain rfl := mem_singleton.mp hb
    exact hline ▸ Nat.le_trans (h.ends a ha).1 (h.endLine_le ha)
  ends := by
    intro l' hl'
    rcases mem_append.mp hl' with hold | hnew
    · exact h.ends l' hold
    · obtain rfl := mem_singleton.mp hnew
      exact ⟨by omega, fun m hm => hend ▸ h.le_later hm⟩
  inner := pairwise_cons.mpr ⟨h.known, h.inner⟩
  known := by
    intro i hi
    rw [length_append, length_singleton]
    rcases mem_cons.mp hi with rfl | hi
    · omega
    · exact Nat.lt_succ_of_lt (h.known i hi)
  nests := by
    intro i j a b hij ha hb
    by_cases hj : j < ls.length
    · rw [List.getElem?_append_left (by omega)] at ha
      rw [List.getElem?_append_left hj] at hb
      rcases h.nests i j a b hij ha hb with hi | hapart | ⟨hclosed, hinside⟩
      · exact .inl (mem_cons_of_mem _ hi)
      · exact .inr (.inl hapart)
      · refine .inr (.inr ⟨fun hmem => ?_, hinside⟩)
        rcases mem_cons.mp hmem with rfl | hmem
        · exact absurd hj (Nat.lt_irrefl _)
        · exact hclosed hmem
    · have hlast : j < (ls ++ [l]).length := (List.getElem?_eq_some_iff.mp hb).1
      rw [length_append, length_singleton] at hlast
      obtain rfl : j = ls.length := by omega
      rw [List.getElem?_concat_length, Option.some.injEq] at hb
      rw [List.getElem?_append_left hij] at ha
      exact .inr (.inl (hb ▸ hline ▸ h.endLine_le (mem_of_getElem? ha)))

theorem getElem?_endAt_of_ne {i : Nat} (h : k ≠ i) : (endAt ls k n)[i]? = ls[i]? := by
  simp [endAt, h]

theorem getElem?_endAt_self {l : Loop} (h : (endAt ls k n)[k]? = some l) :
    ∃ old, ls[k]? = some old ∧ l = { old with endLine := n } := by
  rw [endAt, List.getElem?_modify_eq] at h
  obtain ⟨old, hold, rfl⟩ := Option.map_eq_some_iff.mp h
  exact ⟨old, hold, rfl⟩

theorem mem_endAt {l : Loop} (h : l ∈ endAt ls k n) :
    ∃ old ∈ ls, l = old ∨ l = { old with endLine := n } := by
  obtain ⟨i, hi⟩ := List.getElem?_of_mem h
  by_cases hk : k = i
  · obtain ⟨old, hold, rfl⟩ := getElem?_endAt_self (hk ▸ hi)
    exact ⟨old, mem_of_getElem? hold, .inr rfl⟩
  · rw [getElem?_endAt_of_ne hk] at hi
    exact ⟨l, mem_of_getElem? hi, .inl rfl⟩

theorem map_line_endAt (ls : List Loop) (k n : Nat) :
    (endAt ls k n).map Loop.line = ls.map Loop.line := by
  have h := congrArg (List.map Loop.line) (map_opening_endAt ls k n)
  rwa [map_map, map_map] at h

theorem Spanned.ended (h : Spanned (n :: lines) ls (k :: stack)) :
    Spanned (n :: lines) (endAt ls k n) stack where
  sorted := h.sorted
  starts := by
    rw [← pairwise_map (f := Loop.line), map_line_endAt, pairwise_map]
    exact h.starts
  ends := by
    intro l hl
    obtain ⟨old, hold, rfl | rfl⟩ := mem_endAt hl
    · exact h.ends l hold
    · exact ⟨Nat.le_trans (h.ends old hold).1 (h.endLine_le hold), fun m hm => h.le_later hm⟩
  inner := (pairwise_cons.mp h.inner).2
  known := by
    intro i hi
    rw [endAt, length_modify]
    exact h.known i (mem_cons_of_mem _ hi)
  nests := by
    intro i j a b hij ha hb
    have hkept : i ∈ k :: stack → k ≠ i → i ∈ stack :=
      fun hi hk => (mem_cons.mp hi).resolve_left (Ne.symm hk)
    by_cases hi : k = i
    · -- the loops behind the innermost open one are closed, on lines that are past
      subst hi
      obtain ⟨old, hold, rfl⟩ := getElem?_endAt_self ha
      rw [getElem?_endAt_of_ne (Nat.ne_of_lt hij)] at hb
      refine .inr (.inr ⟨fun hj => ?_, h.endLine_le (mem_of_getElem? hb)⟩)
      exact Nat.lt_asymm hij ((pairwise_cons.mp h.inner).1 j hj)
    · rw [getElem?_endAt_of_ne hi] at ha
      by_cases hj : k = j
      · subst hj
        obtain ⟨old, hold, rfl⟩ := getElem?_endAt_self hb
        rcases h.nests i k a old hij ha hold with hmem | hapart | ⟨hclosed, -⟩
        · exact .inl (hkept hmem hi)
        · exact .inr (.inl hapart)
        · exact absurd mem_cons_self hclosed
      · rw [getElem?_endAt_of_ne hj] at hb
        rcases h.nests i j a b hij ha hb with hmem | hapart | ⟨hclosed, hinside⟩
        · exact .inl (hkept hmem hi)
        · exact .inr (.inl hapart)
        · exact .inr (.inr ⟨fun hmem => hclosed (mem_cons_of_mem _ hmem), hinside⟩)

theorem Spanned.pairwise_nests (h : Spanned lines ls []) : ls.Pairwise Loop.Nests := by
  refine pairwise_iff_getElem.mpr fun i j hi hj hij => ?_
  have hnests := h.nests i j ls[i] ls[j] hij (List.getElem?_eq_getElem hi) (List.getElem?_eq_getElem hj)
  exact (hnests.resolve_left not_mem_nil).imp_right And.right

end

def opened (scan : LoopScan) : List Nat := scan.blocks.filterMap id

section
variable {s : Source} {scan : LoopScan} {lines : List Nat}

theorem opened_replicate (count : Nat) (blocks : List (Option Nat)) :
    (List.replicate count none ++ blocks).filterMap id = blocks.filterMap id := by
  rw [filterMap_append, filterMap_replicate_of_none rfl, nil_append]

theorem place_of_loopOf {first : Token} {toks : Statement} {l : Loop}
    (h : loopOf? s first toks = some l) :
    l.file = s.file ∧ l.line = first.line ∧ l.endLine = first.line := by
  rw [loopOf?] at h
  split at h
  · cases h
  split at h
  · cases h
  · obtain ⟨each, -, rfl⟩ := Option.map_eq_some_iff.mp h
    exact ⟨rfl, rfl, rfl⟩

theorem Spanned.statement {toks : Statement}
    (h : Spanned (toks.map Token.line ++ lines) scan.loops scan.opened) :
    Spanned lines (statement s scan toks).loops (statement s scan toks).opened := by
  cases toks with
  | nil => exact h
  | cons first rest =>
    have hdone : ∀ after : LoopScan,
        Spanned (first.line :: (rest.map Token.line ++ lines)) after.loops after.opened →
        Spanned lines after.loops after.opened :=
      fun after hafter => hafter.later (((sublist_append_right _ _).cons _))
    apply hdone
    rw [LoopScan.statement]
    split
    · obtain ⟨ls, blocks⟩ := scan
      cases blocks with
      | nil => exact h
      | cons top blocks =>
        cases top with
        | none => exact h
        | some index => exact h.ended
    · split
      · rename_i count hbalance
        split
        · rename_i l hl
          obtain ⟨-, hline, hend⟩ := place_of_loopOf hl
          rw [opened, opened_replicate]
          exact h.begun hline hend
        · rw [opened, opened_replicate]
          exact h
      · exact h

theorem Spanned.foldl {list : List Statement} {scan : LoopScan}
    (h : Spanned (list.flatten.map Token.line ++ lines) scan.loops scan.opened) :
    Spanned lines (list.foldl (LoopScan.statement s) scan).loops
      (list.foldl (LoopScan.statement s) scan).opened := by
  induction list generalizing scan with
  | nil => exact h
  | cons toks list ih =>
    rw [flatten_cons, map_append, append_assoc] at h
    exact ih h.statement

theorem Spanned.finish {line : Nat} (h : Spanned [line] scan.loops scan.opened) :
    Spanned [line] (scan.finish line) [] := by
  rw [LoopScan.finish]
  change Spanned [line] (scan.opened.foldl (fun loops index => endAt loops index line) scan.loops) []
  generalize scan.opened = stack at h
  generalize scan.loops = ls at h
  induction stack generalizing ls with
  | nil => exact h
  | cons index stack ih => exact ih _ h.ended

end
end LoopScan

section
variable {tokens : List Token}

theorem line_le_last (hlines : (tokens.map Token.line).Pairwise (· ≤ ·)) {t last : Token}
    (ht : t ∈ tokens) (hlast : tokens.getLast? = some last) : t.line ≤ last.line := by
  obtain ⟨before, rfl⟩ := List.getLast?_eq_some_iff.mp hlast
  rw [map_append, pairwise_append] at hlines
  rcases mem_append.mp ht with hbefore | hend
  · exact hlines.2.2 _ (mem_map_of_mem hbefore) _ (by simp)
  · exact Nat.le_of_eq (congrArg Token.line (mem_singleton.mp hend))

/-- Where tokens come in the order of their lines, the loops span lines up to that of the
last one. -/
theorem spanned_loops (s : Source) (hlines : (tokens.map Token.line).Pairwise (· ≤ ·)) :
    LoopScan.Spanned [(tokens.getLast?.map Token.line).getD 1] (loops s tokens (statements tokens)) [] := by
  have hlast : ∀ t ∈ tokens, t.line ≤ (tokens.getLast?.map Token.line).getD 1 := by
    intro t ht
    have hsome := List.getLast?_eq_getLast_of_ne_nil (ne_nil_of_mem ht)
    rw [hsome]
    exact line_le_last hlines ht hsome
  refine LoopScan.Spanned.finish (LoopScan.Spanned.foldl (LoopScan.Spanned.start ?_))
  refine pairwise_append.mpr ⟨hlines.sublist ((flatten_statements tokens).map _),
    pairwise_singleton _ _, ?_⟩
  intro n hn m hm
  obtain ⟨t, ht, rfl⟩ := mem_map.mp hn
  rw [mem_singleton.mp hm]
  exact hlast t ((flatten_statements tokens).subset ht)

end
end CookbookAtlas.Recipe
