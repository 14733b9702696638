import CookbookAtlas.Proofs.Recipe.Placement
import CookbookAtlas.Total
import Mathlib.Logic.Function.Iterate

/-! Statements taken from a work list, one a turn. What follows a clause on its line goes back to
the front of the list and is taken by the next turn. Every turn uses up a token, so the list is
empty after as many turns as there are tokens at most, and what is assembled then is the run. -/
namespace CookbookAtlas

open List

namespace Recipe
namespace Assembly

def leftOver (later : Statement) : List Statement := if later = [] then [] else [later]

/-- What one turn makes of a statement, and what goes back on the work list. -/
def turn (s : Source) (a : Assembly) (toks : Statement) : Assembly × List Statement :=
  match toks with
  | [] => (a, [])
  | first :: rest =>
    let word := first.ident?.getD ""
    if isClause word then
      if a.setting = .normal then
        match a.clause? s word (splitClause word (first :: rest)).1 with
        | none => (a, [])
        | some next => (next, leftOver (splitClause word (first :: rest)).2)
      else (a, [])
    else (a.statement s (first :: rest), [])

section
variable (s : Source) (a : Assembly)

theorem ne_end_of_isClause {word : String} (h : isClause word = true) : word ≠ "end" := by
  rintro rfl
  simp [isClause] at h

theorem run_leftOver (later : Statement) : a.run s (leftOver later) = a.statement s later := by
  by_cases hlater : later = []
  · subst hlater
    rw [statement]
    rfl
  · simp [leftOver, hlater, run]

/-- A statement is what its first turn makes of it, and then what has gone back. -/
theorem statement_eq_turn (toks : Statement) :
    a.statement s toks = (turn s a toks).1.run s (turn s a toks).2 := by
  cases toks with
  | nil => rw [statement]; rfl
  | cons first rest =>
    by_cases hclause : isClause (first.ident?.getD "") = true
    · have hend := ne_end_of_isClause hclause
      by_cases hsetting : a.setting = .normal
      · cases hnext : a.clause? s (first.ident?.getD "")
          (splitClause (first.ident?.getD "") (first :: rest)).1 with
        | none =>
          rw [statement]
          simp [turn, hclause, hend, hsetting, hnext, run]
        | some next =>
          rw [statement]
          simp [turn, hclause, hend, hsetting, hnext, run_leftOver]
      · rw [statement]
        simp [turn, hclause, hend, hsetting, run]
    · simp [turn, hclause, run]

theorem mem_leftOver {later toks : Statement} (h : toks ∈ leftOver later) :
    toks = later ∧ later ≠ [] := by
  by_cases hlater : later = []
  · simp [leftOver, hlater] at h
  · exact ⟨by simpa [leftOver, hlater] using h, hlater⟩

theorem length_splitClause (word : String) (first : Token) (rest : List Token) :
    (splitClause word (first :: rest)).2.length < (first :: rest).length := by
  rw [splitClause]
  split
  · simp
  · simp only [length_drop, length_cons]
    omega

theorem turn_back (toks : Statement) :
    (turn s a toks).2 = [] ∨ ∃ later, (turn s a toks).2 = leftOver later ∧
    later.length < toks.length := by
  cases toks with
  | nil => exact .inl rfl
  | cons first rest =>
    rw [turn]
    split
    · split
      · split
        · exact .inl rfl
        · exact .inr ⟨_, rfl, length_splitClause _ first rest⟩
      · exact .inl rfl
    · exact .inl rfl

theorem ne_nil_of_mem_turn {toks later : Statement} (h : later ∈ (turn s a toks).2) :
    later ≠ [] := by
  rcases turn_back s a toks with hnone | ⟨kept, hkept, -⟩
  · simp [hnone] at h
  · obtain ⟨rfl, hne⟩ := mem_leftOver (hkept ▸ h)
    exact hne

theorem length_turn {toks : Statement} (hne : toks ≠ []) :
    total ((turn s a toks).2.map List.length) < toks.length := by
  rcases turn_back s a toks with hnone | ⟨later, hlater, hshorter⟩
  · rw [hnone]
    exact length_pos_iff.mpr hne
  · rw [hlater, leftOver]
    split
    · exact length_pos_iff.mpr hne
    · simpa using hshorter

end
end Assembly

/-- The state between two turns: what is assembled, and the statements to take. -/
structure Reading where
  assembly : Assembly
  work : List Statement

namespace Reading

def start (tokens : List Token) : Reading := ⟨.start, statements tokens⟩

def next (s : Source) (r : Reading) : Reading :=
  match r.work with
  | [] => r
  | toks :: work =>
    ⟨(Assembly.turn s r.assembly toks).1, (Assembly.turn s r.assembly toks).2 ++ work⟩

def size (r : Reading) : Nat := total (r.work.map List.length)

section
variable (s : Source)

theorem next_cons {a : Assembly} {toks : Statement} {work : List Statement} :
    next s ⟨a, toks :: work⟩ = ⟨(a.turn s toks).1, (a.turn s toks).2 ++ work⟩ := rfl

theorem run_next (r : Reading) :
    (r.next s).assembly.run s (r.next s).work = r.assembly.run s r.work := by
  obtain ⟨a, work⟩ := r
  cases work with
  | nil => rfl
  | cons toks work =>
    have hrun : a.run s (toks :: work) = (a.statement s toks).run s work := rfl
    rw [hrun, a.statement_eq_turn s, next_cons]
    simp only [Assembly.run, foldl_append]

theorem size_next {r : Reading} (hwork : r.work ≠ []) (hne : ∀ toks ∈ r.work, toks ≠ []) :
    (r.next s).size < r.size := by
  obtain ⟨a, work⟩ := r
  cases work with
  | nil => exact absurd rfl hwork
  | cons toks work =>
    have hback := a.length_turn s (hne toks (by simp))
    rw [next_cons]
    simp only [size, map_append, total_append, map_cons, total_cons]
    omega

theorem ne_nil_next {r : Reading} (hne : ∀ toks ∈ r.work, toks ≠ []) :
    ∀ toks ∈ (r.next s).work, toks ≠ [] := by
  obtain ⟨a, work⟩ := r
  cases work with
  | nil => exact hne
  | cons toks work =>
    intro later hlater
    rw [next_cons] at hlater
    rcases mem_append.mp hlater with hback | hwork
    · exact a.ne_nil_of_mem_turn s hback
    · exact hne later (by simp [hwork])

theorem exists_turns (r : Reading) (hne : ∀ toks ∈ r.work, toks ≠ []) :
    ∃ n ≤ r.size, (next s)^[n] r = ⟨r.assembly.run s r.work, []⟩ := by
  induction hsize : r.size using Nat.strongRecOn generalizing r with
  | ind size ih =>
    by_cases hwork : r.work = []
    · refine ⟨0, Nat.zero_le _, ?_⟩
      obtain ⟨a, work⟩ := r
      subst hwork
      rfl
    · have hless := size_next s hwork hne
      obtain ⟨n, hn, hturns⟩ := ih _ (hsize ▸ hless) (r.next s) (ne_nil_next s hne) rfl
      refine ⟨n + 1, by omega, ?_⟩
      rw [Function.iterate_succ_apply, hturns, run_next]

end
end Reading

theorem statementsFrom_ne_nil (tokens : List Token) (depth : Nat) (current : List Token) :
    ∀ toks ∈ statementsFrom depth current tokens, toks ≠ [] := by
  have hfinished : ∀ current : List Token, ∀ toks ∈ finished current, toks ≠ [] := by
    intro current toks htoks
    cases current with
    | nil => simp [finished] at htoks
    | cons t current =>
      obtain rfl : toks = (t :: current).reverse := by simpa [finished] using htoks
      simp
  fun_induction statementsFrom depth current tokens with
  | case1 depth current => exact hfinished _
  | case2 depth t rest hline ih | case3 depth t rest hline last before hcontinues ih => exact ih
  | case4 depth t rest hline last before hcontinues ih =>
    intro toks htoks
    rcases mem_cons.mp htoks with rfl | hlater
    · simp
    · exact ih toks hlater
  | case5 depth current t rest hline hsemi ih =>
    intro toks htoks
    rcases mem_append.mp htoks with hdone | hlater
    · exact hfinished _ toks hdone
    · exact ih toks hlater
  | case6 depth current t rest hline hsemi ih => exact ih

theorem size_start (tokens : List Token) : (Reading.start tokens).size ≤ tokens.length := by
  have hflat : ∀ list : List Statement, total (list.map List.length) = list.flatten.length := by
    intro list
    induction list with
    | nil => rfl
    | cons toks list ih => simp [ih]
  have hle := (flatten_statements tokens).length_le
  rw [Reading.size, hflat]
  exact hle

/-- The statements of a text are used up after as many turns as it has tokens at most. -/
theorem turns_of_tokens (s : Source) (tokens : List Token) :
    ∃ n ≤ tokens.length, (Reading.next s)^[n] (.start tokens) =
    ⟨Assembly.start.run s (statements tokens), []⟩ := by
  obtain ⟨n, hn, hturns⟩ := Reading.exists_turns s (.start tokens) (statementsFrom_ne_nil tokens 0 [])
  exact ⟨n, Nat.le_trans hn (size_start tokens), hturns⟩

end Recipe
end CookbookAtlas
