import CookbookAtlas.Proofs.Token.Lines
import CookbookAtlas.Proofs.Token.Locality

/-! Where tokens stand. Every state that a scan goes through has its tokens on whole characters of
the source, each with the line on which it starts. Text that is passed without a token, be it of
several lines, moves the place only, and a heredoc that is filled in later keeps the position of its
opener. -/
namespace CookbookAtlas.Token

open List Text

/-- A token stands on whole characters of a text, at least one, and its line is one more than the
newlines before it. -/
def Located (source : List Char) (t : Token) : Prop :=
  ∃ before text after, source = before ++ text ++ after ∧ text ≠ [] ∧ t.start = byteLength before ∧
    t.stop = byteLength (before ++ text) ∧ t.line = 1 + before.count '\n'

section
variable {source : List Char} {t u : Token}

theorem Located.start_lt_stop (h : Located source t) : t.start < t.stop := by
  obtain ⟨before, text, after, -, hne, hstart, hstop, -⟩ := h
  have hpos := byteLength_pos hne
  rw [hstart, hstop, byteLength_append]
  omega

theorem Located.stop_le (h : Located source t) : t.stop ≤ byteLength source := by
  obtain ⟨before, text, after, rfl, -, -, hstop, -⟩ := h
  rw [hstop, byteLength_append (before ++ text)]
  exact Nat.le_add_right _ _

def position (t : Token) : Nat × Nat × Nat := (t.line, t.start, t.stop)

theorem Located.of_position (h : Located source t) (heq : t.position = u.position) :
    Located source u := by
  obtain ⟨before, text, after, hsource, hne, hstart, hstop, hline⟩ := h
  simp only [position, Prod.mk.injEq] at heq
  obtain ⟨hline', hstart', hstop'⟩ := heq
  exact ⟨before, text, after, hsource, hne, hstart' ▸ hstart, hstop' ▸ hstop, hline' ▸ hline⟩

end

namespace Scan
section
variable {source passed text rest : List Char} {s t : Scan} {tokens : List Token}

theorem Laid.line_eq (h : s.Laid source passed rest) : s.place.line = 1 + passed.count '\n' := by
  rw [h.place_eq, Place.line_past]
  rfl

theorem Laid.located_found (h : s.Laid source passed (text ++ rest)) (hne : text ≠ [])
    (kind : Kind) : Located source (s.found kind text) := by
  refine ⟨passed, text, rest, ?_, hne, h.offset_eq, ?_, h.line_eq⟩
  · rw [h.source_eq, append_assoc]
  · rw [found, h.offset_past, byteLength_append]

theorem located_of_positions (h : ∀ u ∈ tokens, Located source u) {filled : List Token}
    (heq : filled.map position = tokens.map position) : ∀ u ∈ filled, Located source u := by
  intro u hu
  have hmem : u.position ∈ tokens.map position := heq ▸ mem_map_of_mem hu
  obtain ⟨v, hv, hposition⟩ := mem_map.mp hmem
  exact (h v hv).of_position hposition

/-- A step finds at most one token, at the current place, and moves none. -/
theorem Step.located (hstep : s.Step passed text rest t)
    (hlaid : s.Laid source passed (text ++ rest))
    (h : ∀ u ∈ s.tokens, Located source u) : ∀ u ∈ t.tokens, Located source u := by
  cases hstep with
  | skip => exact h
  | token hne => exact forall_mem_cons.mpr ⟨hlaid.located_found hne _, h⟩
  | @bodies text _ _ _ hread =>
    have hnewline : s.Laid source passed (['\n'] ++ (text ++ rest)) := hlaid
    refine located_of_positions ?_ (map_readBodies (fun _ _ => rfl) hread)
    exact forall_mem_cons.mpr ⟨hnewline.located_found (by simp) .newline, h⟩

theorem Reached.located (h : Reached source s rest) : ∀ u ∈ s.tokens, Located source u := by
  induction h with
  | start => exact fun u hu => absurd hu not_mem_nil
  | step hreached hstep ih =>
    obtain ⟨passed, hlaid⟩ := hreached.laid
    obtain ⟨text, htext, hkind⟩ := step_of_step? hlaid.fresh hstep
    exact hkind.located (htext ▸ hlaid) ih

end
end Scan

/-- The tokens of a source stand on whole characters of it, one after another: every span holds at
least one character and ends no later than the source, spans do not overlap and come in the order of
their offsets, and the line of a token is one more than the newlines before its start. -/
theorem tokens_located {source : List Char} {tokens : List Token} (h : scan? source = some tokens) :
    (∀ t ∈ tokens, t.start < t.stop ∧ t.stop ≤ byteLength source ∧ Located source t) ∧
      tokens.Pairwise fun t u => t.stop ≤ u.start ∧ t.start < u.start ∧ t.stop < u.stop := by
  obtain ⟨last, hlast, rfl⟩ := Scan.leads_end h
  have hlocated : ∀ t ∈ last.tokens.reverse, Located source t :=
    fun t ht => hlast.reached.located t (mem_reverse.mp ht)
  refine ⟨fun t ht => ⟨(hlocated t ht).start_lt_stop, (hlocated t ht).stop_le, hlocated t ht⟩, ?_⟩
  refine (spans_of_scan? h).2.imp_of_mem fun {t u} ht hu hle => ⟨hle, ?_, ?_⟩
  · exact Nat.lt_of_lt_of_le (hlocated t ht).start_lt_stop hle
  · exact Nat.lt_of_le_of_lt hle (hlocated u hu).start_lt_stop

/-- Two tokens behind a heredoc and a comment block that span four lines and hold a
wide character. -/
theorem patchwork_located : scan? patchwork = some patchworkTokens ∧
    Located patchwork ⟨.label "k", 8, 38, 40⟩ ∧ Located patchwork ⟨.number "1", 8, 41, 42⟩ ∧
    patchworkTokens.Pairwise fun t u => t.stop ≤ u.start ∧ t.start < u.start ∧ t.stop < u.stop := by
  obtain ⟨hlocated, hspans⟩ := tokens_located scan?_patchwork
  exact ⟨scan?_patchwork, (hlocated _ (by decide)).2.2, (hlocated _ (by decide)).2.2, hspans⟩

end CookbookAtlas.Token
