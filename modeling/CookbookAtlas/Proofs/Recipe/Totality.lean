import CookbookAtlas.Proofs.Recipe.CheckedParse

/-! Reading a recipe comes to its end and gives a value, whatever the text is: every step of the
scan moves on, every check of the reader holds, literals nest within their limit, and the statements
are used up after at most as many turns as there are tokens. -/
namespace CookbookAtlas
namespace Literal.State
variable {s t : State} {kind : Token.Kind}

theorem length_value {v : Datum} (h : s.value v = some t) : t.frames.length = s.frames.length := by
  rw [value] at h
  split at h
  · rename_i hframes
    split at h
    · cases h
      rfl
    · cases h
  · rename_i hframes
    cases h
    simp [hframes]
  · rename_i hframes
    cases h
    simp [hframes]
  · cases h

theorem length_valueStep (h : s.valueStep kind = some t) : t.frames.length ≤ nestingLimit + 1 := by
  unfold valueStep at h
  split at h
  · cases h
  · rename_i hlimit
    have hroom : s.frames.length ≤ nestingLimit := Nat.le_of_not_lt hlimit
    have hvalue : ∀ v, s.value v = some t → t.frames.length ≤ nestingLimit + 1 := fun v hv => by
      rw [length_value hv]
      exact Nat.le_succ_of_le hroom
    split at h
    · exact hvalue _ h
    · exact hvalue _ h
    · obtain ⟨v, -, hv⟩ := Option.bind_eq_some_iff.mp h
      exact hvalue v hv
    · split at h
      · cases h
        exact Nat.le_succ_of_le hroom
      · cases h
    · repeat' split at h
      · exact hvalue _ h
      · exact hvalue _ h
      · exact hvalue _ h
      · cases h
    · exact hvalue _ h
    · cases h
      exact Nat.succ_le_succ hroom
    · cases h
      exact Nat.succ_le_succ hroom
    · cases h

theorem length_keyStep {members : Members} {rest : List Frame}
    (h : s.keyStep members rest kind = some t) : t.frames.length = rest.length + 1 := by
  unfold keyStep at h
  split at h
  all_goals cases h
  all_goals rfl

theorem length_step (hs : s.frames.length ≤ nestingLimit + 1) (h : s.step kind = some t) :
    t.frames.length ≤ nestingLimit + 1 := by
  unfold step at h
  split at h
  · split at h
    · obtain ⟨v, -, hv⟩ := Option.bind_eq_some_iff.mp h
      rw [length_value hv]
      exact hs
    · cases h
  · cases hframes : s.frames with
    | nil =>
      rw [hframes] at h
      dsimp only at h
      split at h
      · exact length_valueStep h
      · cases h
    | cons frame rest =>
      rw [hframes, List.length_cons] at hs
      have hclose : ∀ v, s.close rest v = some t → t.frames.length ≤ nestingLimit + 1 := by
        intro v hv
        rw [length_value hv]
        exact Nat.le_of_succ_le hs
      rw [hframes] at h
      cases frame with
      | arrayNext items =>
        dsimp only at h
        split at h
        · exact hclose _ h
        · exact length_valueStep h
      | arrayAfter items =>
        dsimp only at h
        split at h
        · cases h
          exact hs
        split at h
        · exact hclose _ h
        · cases h
      | hashNext members =>
        dsimp only at h
        split at h
        · exact hclose _ h
        · rw [length_keyStep h]
          exact hs
      | hashMark members key =>
        dsimp only at h
        split at h
        · cases h
          exact hs
        · cases h
      | hashItem members key => exact length_valueStep h
      | hashAfter members =>
        dsimp only at h
        split at h
        · cases h
          exact hs
        split at h
        · exact hclose _ h
        · cases h

theorem length_run {kinds : List Token.Kind} (hs : s.frames.length ≤ nestingLimit + 1)
    (h : s.run kinds = some t) : t.frames.length ≤ nestingLimit + 1 := by
  induction kinds generalizing s with
  | nil =>
    cases h
    exact hs
  | cons kind kinds ih =>
    rw [run] at h
    split at h
    · cases h
    · rename_i next hnext
      exact ih (length_step hs hnext) h

end Literal.State

namespace Recipe
open Text

/-- Everything that is done with a source comes to its end, with the given tokens. -/
structure ReadToEnd (s : Source) (tokens : List Token) : Prop where
  scanned : Token.scan? s.chars = some tokens
  /-- Every step of the scan passes at least a byte, from one boundary to another. -/
  advances : ∀ scan c cs, Token.Scan.Reached s.chars scan (c :: cs) →
    Token.Scan.Reached.Advances s.chars scan c cs
  /-- The nesting of a delimited literal is not left more often than it is entered. -/
  nestings : ∀ d b zone cs, Checked.body d b zone cs = some (Token.readBody d b zone cs)
  /-- The marks of a heredoc are passed at boundaries, wherever they stand. -/
  openers : ∀ last cs, Checked.heredocAhead last ('<' :: '<' :: cs) =
    some (Token.heredocAhead last cs)
  /-- The lines of a heredoc's body are cut out at boundaries, wherever it starts. -/
  bodies : ∀ (h : Token.Heredoc) passed rest, s.chars = passed ++ rest →
    Checked.bodyLines s h (byteLength passed) [] rest =
      some ((h.body rest).1, byteLength (passed ++ rest.take (h.body rest).2))
  parsed : parse? s = some (parseTokens s tokens)
  /-- No cut, first token, index or counter of the reader fails its check. -/
  checked : Checked.parseTokens s tokens = some (parseTokens s tokens)
  /-- Literals keep no more containers open than their limit allows. -/
  literals : ∀ kinds state, Literal.State.start.run kinds = some state →
    state.frames.length ≤ Literal.nestingLimit + 1
  /-- The statements, with what clauses put back, are used up. -/
  turns : ∃ n ≤ tokens.length, ((Reading.next s)^[n] (.start tokens)).work = []

/-- A text of less than 2^31 bytes is read to its end, if the indents that are taken off its
heredocs are ASCII. -/
theorem readToEnd_of_plainIndents (s : Source) (hsize : byteLength s.chars < Nat.pow 2 31)
    (hplain : Token.PlainIndents s.chars) : ∃ tokens, ReadToEnd s tokens := by
  obtain ⟨tokens, htokens⟩ := Token.Scan.Reached.start.scans hplain
  have hscan : Token.scan? s.chars = some tokens := htokens
  obtain ⟨htold, hsorted⟩ := Token.spans_of_scan? hscan
  obtain ⟨n, hn, hturns⟩ := turns_of_tokens s tokens
  refine ⟨tokens, hscan, ?_, Checked.body_eq, Checked.heredocAhead_eq, ?_, ?_, ?_, ?_, n, hn, ?_⟩
  · exact fun scan c cs h => h.advances hplain
  · intro h passed rest hsource
    obtain ⟨lines, width, hread, hlines⟩ := Checked.bodyLines_eq h hsource [] 0
    rw [Token.Heredoc.body, hread, Nat.zero_add]
    exact hlines
  · rw [parse?, hscan]
    rfl
  · exact Checked.parseTokens_eq hsize ⟨htold, hsorted⟩
  · exact fun kinds state h => Literal.State.length_run (Nat.zero_le _) h
  · rw [hturns]

/-- A heredoc, a clause without its `case`, brackets that do not match and an open string. -/
def tatters :
    Source := ⟨"x <<~A, (\n  é\n\n   u\n A\nwhen 1 then ]\nend 'é".toList, ⟨"default.rb"⟩, 80⟩

theorem tatters_readToEnd :
    byteLength tatters.chars < Nat.pow 2 31 ∧ Token.PlainIndents tatters.chars ∧
    ∃ tokens, ReadToEnd tatters tokens := by
  have hsize : byteLength tatters.chars < Nat.pow 2 31 := by decide
  have hplain : Token.PlainIndents tatters.chars := by decide +kernel
  exact ⟨hsize, hplain, readToEnd_of_plainIndents tatters hsize hplain⟩

end Recipe
end CookbookAtlas
