import CookbookAtlas.Proofs.Text.Layout
import CookbookAtlas.Proofs.Token.Spelling

/-! The lines of tokens. Tokens come in the order of their lines, and each stands on a line of the
text; a heredoc that is filled in later keeps the line of its opener. -/
namespace CookbookAtlas.Token

open List
variable {cs : List Char} {tokens : List Token} {s : Scan}
namespace Scan

/-- No token found so far starts after one found later, or after the current place. -/
def Ordered (s : Scan) : Prop := (s.place.line :: s.tokens.map Token.line).Pairwise (· ≥ ·)

theorem Ordered.moved (h : s.Ordered) {place : Place} (hplace : s.place.line ≤ place.line)
    (pending : List Heredoc) : Ordered ⟨place, s.tokens, pending⟩ := by
  obtain ⟨hall, htokens⟩ := pairwise_cons.mp h
  exact pairwise_cons.mpr ⟨fun line hline => Nat.le_trans (hall line hline) hplace, htokens⟩

theorem Ordered.take (h : s.Ordered) (lexeme : Lexeme) (text : List Char) :
    (s.take lexeme text).Ordered := by
  have hplace : s.place.line ≤ (s.place.past text).line := Place.line_le_past s.place text
  cases hk : lexeme.kind with
  | none => simpa [Scan.take, hk] using h.moved hplace _
  | some kind =>
    have hlater : ((s.place.past text).line :: s.place.line :: s.tokens.map Token.line).Pairwise (· ≥ ·) := by
      refine pairwise_cons.mpr ⟨fun line hline => ?_, h⟩
      rcases mem_cons.mp hline with rfl | hline
      · exact hplace
      · exact Nat.le_trans ((pairwise_cons.mp h).1 line hline) hplace
    simpa [Scan.take, hk, Ordered] using hlater

section
variable {pending : List Heredoc} {filled : List Token} {width : Nat} {β : Type} {f : Token → β}

theorem map_fill (hf : ∀ t kind, f { t with kind := kind } = f t) (tokens : List Token)
    (start : Nat) (kind : Kind) : (fill tokens start kind).map f = tokens.map f := by
  rw [fill, map_map]
  refine map_congr_left fun t _ => ?_
  simp only [Function.comp_apply]
  split
  · exact hf t kind
  · rfl

/-- Heredocs that are filled in change nothing but the kinds of tokens. -/
theorem map_readBodies (hf : ∀ t kind, f { t with kind := kind } = f t)
    (h : readBodies? tokens pending cs = some (filled, width)) : filled.map f = tokens.map f := by
  induction pending generalizing tokens filled cs width with
  | nil =>
    simp only [readBodies?, Option.some.injEq, Prod.mk.injEq] at h
    rw [h.1]
  | cons doc pending ih =>
    simp only [readBodies?] at h
    split at h
    · cases h
    · split at h
      · cases h
      · rename_i hrest
        simp only [Option.some.injEq, Prod.mk.injEq] at h
        rw [← h.1, ih hrest, map_fill hf]

theorem map_line_readBodies (h : readBodies? tokens pending cs = some (filled, width)) :
    filled.map Token.line = tokens.map Token.line := map_readBodies (fun _ _ => rfl) h

end

end Scan

theorem ordered_of_scanFrom (hs : s.Ordered) (h : scanFrom s cs = some tokens) :
    (tokens.map Token.line).Pairwise (· ≤ ·) := by
  fun_induction scanFrom s cs with
  | case1 s =>
    obtain rfl := Option.some.inj h
    rw [map_reverse, pairwise_reverse]
    exact (pairwise_cons.mp hs).2
  | case2 => cases h
  | case3 s c cs lexeme t rest hpending filled width hread ih =>
    have hlines := Scan.map_line_readBodies hread
    have htake : t.Ordered := hs.take _ _
    have hmoved := htake.moved (Place.line_le_past t.place (rest.take width)) []
    simp only [Scan.Ordered, ← hlines] at hmoved
    exact ih hmoved h
  | case4 s c cs lexeme t rest hpending ih => exact ih (hs.take _ _) h

theorem pairwise_line_of_scan? (h : scan? cs = some tokens) :
    (tokens.map Token.line).Pairwise (· ≤ ·) := by
  have hstart : Scan.start.Ordered := by simp [Scan.Ordered, Scan.start]
  exact ordered_of_scanFrom hstart h

namespace Scan

/-- Before the rest of a source the place has its line, and all tokens found stand on lines of the
source. -/
structure Numbered (source rest : List Char) (s : Scan) : Prop where
  place : ∃ passed, source = passed ++ rest ∧ s.place.line = passed.count '\n' + 1
  tokens : ∀ line ∈ s.tokens.map Token.line, 1 ≤ line ∧ line ≤ (Text.lines source).length

section
variable {source text rest : List Char} {s : Scan}

theorem Numbered.moved (h : Numbered source (text ++ rest) s) (pending : List Heredoc) :
    Numbered source rest ⟨s.place.past text, s.tokens, pending⟩ := by
  obtain ⟨passed, hsource, hline⟩ := h.place
  refine ⟨⟨passed ++ text, by rw [hsource, append_assoc], ?_⟩, h.tokens⟩
  rw [Place.line_past, hline, count_append]
  omega

/-- A character of the next token is still to come behind the newlines counted. -/
theorem Numbered.line_le (h : Numbered source rest s) (hrest : rest ≠ []) :
    1 ≤ s.place.line ∧ s.place.line ≤ (Text.lines source).length := by
  obtain ⟨passed, hsource, hline⟩ := h.place
  rw [hline, hsource]
  exact ⟨Nat.succ_pos _, Text.count_lt_length_linesFrom [] passed hrest⟩

theorem Numbered.take (h : Numbered source (text ++ rest) s) (htext : text ≠ []) (lexeme : Lexeme) :
    Numbered source rest (s.take lexeme text) := by
  have hmoved := h.moved (s.pending ++ lexeme.heredoc.toList)
  cases hk : lexeme.kind with
  | none => simpa [Scan.take, hk] using hmoved
  | some kind =>
    rw [Scan.take, hk]
    refine ⟨hmoved.place, fun line hmem => ?_⟩
    rcases mem_cons.mp hmem with rfl | hmem
    · exact h.line_le (append_ne_nil_of_left_ne_nil htext rest)
    · exact h.tokens line hmem

end
end Scan

theorem numbered_of_scanFrom {source : List Char} (hs : s.Numbered source cs)
    (h : scanFrom s cs = some tokens) :
    ∀ line ∈ tokens.map Token.line, 1 ≤ line ∧ line ≤ (Text.lines source).length := by
  fun_induction scanFrom s cs with
  | case1 s =>
    obtain rfl := Option.some.inj h
    simpa using hs.tokens
  | case2 => cases h
  | case3 s c cs lexeme t rest hpending filled width hread ih =>
    have hcut : c :: cs = (c :: cs.take lexeme.width) ++ rest := by
      rw [cons_append, take_append_drop]
    have htake : t.Numbered source rest := (hcut ▸ hs).take (cons_ne_nil _ _) lexeme
    rw [← take_append_drop width rest] at htake
    have hmoved := htake.moved []
    exact ih ⟨hmoved.place, Scan.map_line_readBodies hread ▸ hmoved.tokens⟩ h
  | case4 s c cs lexeme t rest hpending ih =>
    have hcut : c :: cs = (c :: cs.take lexeme.width) ++ rest := by
      rw [cons_append, take_append_drop]
    exact ih ((hcut ▸ hs).take (cons_ne_nil _ _) lexeme) h

theorem line_of_scan? (h : scan? cs = some tokens) :
    ∀ line ∈ tokens.map Token.line, 1 ≤ line ∧ line ≤ (Text.lines cs).length := by
  have hstart : Scan.start.Numbered cs cs := ⟨⟨[], rfl, rfl⟩, by simp [Scan.start]⟩
  exact numbered_of_scanFrom hstart h

end CookbookAtlas.Token
