import CookbookAtlas.Proofs.Recipe.BlankLines

/-! Statements as spans of a token list. The spans stand one after another and leave out nothing but
line ends and the semicolons outside brackets. What carries the proof is the open statement: it
stands right before the tokens that are still to come, starts with neither a line end nor a
semicolon, and is not empty while a bracket is open. -/
namespace CookbookAtlas.Recipe

open List

/-- The bracket depth before the token at an index; a surplus closing bracket counts for nothing. -/
def depthAt (tokens : List Token) (i : Nat) : Nat :=
  ((tokens.take i).map Token.kind).foldl (fun depth k => k.depthAfter depth) 0

theorem depthAt_succ {tokens : List Token} {i : Nat} {t : Token} (h : tokens[i]? = some t) :
    depthAt tokens (i + 1) = t.kind.depthAfter (depthAt tokens i) := by
  simp [depthAt, take_add_one, h]

/-- A semicolon outside brackets, which ends a statement. -/
def EndsAt (tokens : List Token) (i : Nat) : Prop :=
  ∃ t, tokens[i]? = some t ∧ t.kind = .semicolon ∧ depthAt tokens i = 0

def SeparatesAt (tokens : List Token) (i : Nat) : Prop :=
  (∃ t, tokens[i]? = some t ∧ t.kind = .newline) ∨ EndsAt tokens i

/-- A stretch of a token list: the indices from `start` up to and without `stop`. -/
structure Span where
  start : Nat
  stop : Nat

namespace Span

def Covers (s : Span) (i : Nat) : Prop := s.start ≤ i ∧ i < s.stop

def slice (tokens : List Token) (s : Span) : List Token :=
  (tokens.drop s.start).take (s.stop - s.start)

end Span

structure SpansStatement (tokens : List Token) (s : Span) : Prop where
  start_lt_stop : s.start < s.stop
  stop_le : s.stop ≤ tokens.length
  first : ∀ t, tokens[s.start]? = some t → t.kind ≠ .newline ∧ t.kind ≠ .semicolon
  inside : ∀ i, s.Covers i → ¬EndsAt tokens i

/-- Stretches of statements from an index on, with separators before, between and behind them. -/
inductive Tiled (tokens : List Token) : Nat → List Span → Prop
  | nil {start : Nat} (hrest : ∀ i, start ≤ i → i < tokens.length → SeparatesAt tokens i) :
    Tiled tokens start []
  | cons {start : Nat} {s : Span} {spans : List Span} (hstart : start ≤ s.start)
    (hgap : ∀ i, start ≤ i → i < s.start → SeparatesAt tokens i) (hspan : SpansStatement tokens s)
    (hrest : Tiled tokens s.stop spans) : Tiled tokens start (s :: spans)

namespace Tiled
variable {tokens : List Token} {start : Nat} {spans : List Span}

theorem separator (h : Tiled tokens (start + 1) spans) (hstart : SeparatesAt tokens start) :
    Tiled tokens start spans := by
  have hmore : ∀ {stop}, (∀ i, start + 1 ≤ i → i < stop → SeparatesAt tokens i) →
      ∀ i, start ≤ i → i < stop → SeparatesAt tokens i := by
    intro stop hall i hi hlt
    rcases Nat.eq_or_lt_of_le hi with rfl | hi
    · exact hstart
    · exact hall i hi hlt
  cases h with
  | nil hrest => exact .nil (hmore hrest)
  | cons hle hgap hspan hrest => exact .cons (Nat.le_of_succ_le hle) (hmore hgap) hspan hrest

theorem spansStatement (h : Tiled tokens start spans) : ∀ s ∈ spans, SpansStatement tokens s := by
  induction h with
  | nil => exact fun s hs => absurd hs not_mem_nil
  | cons _ _ hspan _ ih => exact forall_mem_cons.mpr ⟨hspan, ih⟩

theorem start_le (h : Tiled tokens start spans) : ∀ s ∈ spans, start ≤ s.start := by
  induction h with
  | nil => exact fun s hs => absurd hs not_mem_nil
  | cons hstart _ hspan _ ih =>
    refine forall_mem_cons.mpr ⟨hstart, fun t ht => ?_⟩
    exact Nat.le_trans (Nat.le_trans hstart (Nat.le_of_lt hspan.start_lt_stop)) (ih t ht)

theorem pairwise (h : Tiled tokens start spans) : spans.Pairwise fun s t => s.stop ≤ t.start := by
  induction h with
  | nil => exact .nil
  | cons _ _ _ hrest ih => exact .cons hrest.start_le ih

theorem exists_covers (h : Tiled tokens start spans) {i : Nat} (hstart : start ≤ i)
    (hi : i < tokens.length) (hnot : ¬SeparatesAt tokens i) : ∃ s ∈ spans, s.Covers i := by
  induction h with
  | nil hrest => exact absurd (hrest i hstart hi) hnot
  | @cons start s spans _ hgap _ _ ih =>
    by_cases hbefore : i < s.start
    · exact absurd (hgap i hstart hbefore) hnot
    · by_cases hinside : i < s.stop
      · exact ⟨s, mem_cons_self, Nat.le_of_not_lt hbefore, hinside⟩
      · obtain ⟨t, ht, hcovers⟩ := ih (Nat.le_of_not_lt hinside)
        exact ⟨t, mem_cons_of_mem _ ht, hcovers⟩

end Tiled

theorem eq_of_covers {spans : List Span} (h : spans.Pairwise fun s t => s.stop ≤ t.start)
    {s t : Span} {i : Nat}
    (hs : s ∈ spans) (ht : t ∈ spans) (hsi : s.Covers i) (hti : t.Covers i) : s = t := by
  have hapart : ∀ {s t : Span}, s.stop ≤ t.start → s.Covers i → ¬t.Covers i :=
    fun hle hs ht => Nat.not_lt_of_le ht.1 (Nat.lt_of_lt_of_le hs.2 hle)
  have hone : ∀ ⦃s⦄, s ∈ spans → ∀ ⦃t⦄, t ∈ spans → s.Covers i → t.Covers i → s = t :=
    List.Pairwise.forall_of_forall_of_flip (fun _ _ _ _ => rfl) (h.imp fun hle hs ht => absurd ht (hapart hle hs))
      (h.imp fun hle ht hs => absurd ht (hapart hle hs))
  exact hone hs ht hsi hti

/-- The open statement `current`, last token first, starts at an index and stands right before
`rest`. -/
structure Standing (tokens : List Token) (start : Nat) (current rest : List Token) : Prop where
  drop_eq : tokens.drop start = current.reverse ++ rest
  first : current ≠ [] → ∀ t, tokens[start]? = some t → t.kind ≠ .newline ∧ t.kind ≠ .semicolon
  inside : ∀ i, start ≤ i → i < start + current.length → ¬EndsAt tokens i

namespace Standing
variable {tokens current rest : List Token} {start : Nat} {t : Token}

theorem getElem?_next (h : Standing tokens start current (t :: rest)) :
    tokens[start + current.length]? = some t := by
  rw [← List.getElem?_drop, h.drop_eq, List.getElem?_append_right (by simp)]
  simp

theorem length_eq (h : Standing tokens start current rest) (hne : current ++ rest ≠ []) :
    tokens.length = start + current.length + rest.length := by
  have hlength := congrArg List.length h.drop_eq
  have hpos := length_pos_iff.mpr hne
  simp only [length_drop, length_append, length_reverse] at hlength hpos
  omega

theorem spansStatement (h : Standing tokens start current rest) (hne : current ≠ []) :
    SpansStatement tokens ⟨start, start + current.length⟩ where
  start_lt_stop := Nat.lt_add_of_pos_right (length_pos_iff.mpr hne)
  stop_le := by
    rw [h.length_eq (append_ne_nil_of_left_ne_nil hne rest)]
    exact Nat.le_add_right _ _
  first := h.first hne
  inside i hi := h.inside i hi.1 hi.2

theorem slice_eq (h : Standing tokens start current rest) :
    Span.slice tokens ⟨start, start + current.length⟩ = current.reverse := by
  rw [Span.slice, h.drop_eq, Nat.add_sub_cancel_left, take_left' (by simp)]

theorem tiled_cons (h : Standing tokens start current rest) (hne : current ≠ []) {spans : List Span}
    (hrest : Tiled tokens (start + current.length) spans) :
    Tiled tokens start (⟨start, start + current.length⟩ :: spans) :=
  .cons (Nat.le_refl _) (fun _ hi hlt => absurd hi (Nat.not_le_of_lt hlt)) (h.spansStatement hne) hrest

/-- The open statement, if there is one, before a separator and further statements. -/
theorem tiled_append (h : Standing tokens start current rest)
    (hseparates : SeparatesAt tokens (start + current.length)) {list : List Statement}
    (hlist : ∃ spans, list = spans.map (Span.slice tokens) ∧
    Tiled tokens (start + current.length + 1) spans) :
    ∃ spans, finished current ++ list = spans.map (Span.slice tokens) ∧
    Tiled tokens start spans := by
  obtain ⟨spans, rfl, htiled⟩ := hlist
  cases current with
  | nil => exact ⟨spans, rfl, htiled.separator hseparates⟩
  | cons last current =>
    refine ⟨⟨start, start + (last :: current).length⟩ :: spans, ?_,
      h.tiled_cons (by simp) (htiled.separator hseparates)⟩
    rw [map_cons, h.slice_eq]
    rfl

theorem pop (h : Standing tokens start (t :: current) rest) :
    Standing tokens start current (t :: rest) where
  drop_eq := by
    rw [h.drop_eq]
    simp
  first _ := h.first (by simp)
  inside i hi hlt := h.inside i hi (by simp only [length_cons]; omega)

theorem push (h : Standing tokens start current (t :: rest))
    (hfirst : current = [] → t.kind ≠ .newline ∧ t.kind ≠ .semicolon)
    (hinside : ¬EndsAt tokens (start + current.length)) :
    Standing tokens start (t :: current) rest where
  drop_eq := by
    rw [h.drop_eq]
    simp
  first _ := by
    by_cases hne : current = []
    · intro u hu
      have hnext := h.getElem?_next
      subst hne
      obtain rfl : t = u := Option.some.inj (hnext.symm.trans hu)
      exact hfirst rfl
    · exact h.first hne
  inside i hi hlt := by
    simp only [length_cons] at hlt
    rcases Nat.eq_or_lt_of_le (Nat.le_of_lt_succ hlt) with rfl | hlt
    · exact hinside
    · exact h.inside i hi hlt

theorem fresh (h : Standing tokens start current (t :: rest)) :
    Standing tokens (start + current.length + 1) [] rest where
  drop_eq := by
    rw [Nat.add_assoc, ← drop_drop, h.drop_eq, ← length_reverse, ← drop_drop, drop_left]
    rfl
  first hne := absurd rfl hne
  inside i hi hlt := absurd hi (Nat.not_le_of_lt hlt)

theorem separatesAt_rest (h : Standing tokens start current rest)
    (hrest : ∀ t ∈ rest, t.kind = .newline) :
    ∀ i, start + current.length ≤ i → i < tokens.length → SeparatesAt tokens i := by
  intro i hi hlt
  obtain ⟨j, rfl⟩ := Nat.exists_eq_add_of_le hi
  have hget : tokens[start + current.length + j]? = rest[j]? := by
    rw [Nat.add_assoc, ← List.getElem?_drop, h.drop_eq, List.getElem?_append_right (by simp)]
    simp
  rw [List.getElem?_eq_getElem hlt] at hget
  exact .inl ⟨_, List.getElem?_eq_getElem hlt, hrest _ (mem_of_getElem? hget.symm)⟩

/-- Line ends at the end of a token list are no part of its last statement. -/
theorem tiled_finished (h : Standing tokens start current rest)
    (hrest : ∀ t ∈ rest, t.kind = .newline) :
    ∃ spans, finished (current.dropWhile Token.isNewline) = spans.map (Span.slice tokens) ∧
    Tiled tokens start spans := by
  induction current generalizing rest with
  | nil => exact ⟨[], rfl, .nil (h.separatesAt_rest hrest)⟩
  | cons t current ih =>
    cases ht : t.isNewline with
    | true =>
      rw [dropWhile_cons_of_pos ht]
      exact ih h.pop (forall_mem_cons.mpr ⟨isNewline_iff.mp ht, hrest⟩)
    | false =>
      rw [dropWhile_cons_of_neg (by simp [ht])]
      refine ⟨[⟨start, start + (t :: current).length⟩], ?_, ?_⟩
      · rw [map_singleton, h.slice_eq]
        rfl
      · exact h.tiled_cons (by simp) (.nil (h.separatesAt_rest hrest))

end Standing

/-- The open statement with the bracket depth behind it. -/
structure OpenAt (tokens : List Token) (start depth : Nat) (current rest : List Token) : Prop
    extends Standing tokens start current rest where
  depth_eq : depthAt tokens (start + current.length) = depth
  outside : current = [] → depth = 0

namespace OpenAt
variable {tokens current rest : List Token} {start depth : Nat} {t : Token}

theorem depth_next (h : OpenAt tokens start depth current (t :: rest)) :
    depthAt tokens (start + current.length + 1) = t.kind.depthAfter depth := by
  rw [depthAt_succ h.getElem?_next, h.depth_eq]

theorem endsAt_iff (h : OpenAt tokens start depth current (t :: rest)) :
    EndsAt tokens (start + current.length) ↔ t.kind = .semicolon ∧ depth = 0 := by
  rw [EndsAt, h.depth_eq, h.getElem?_next]
  simp

/-- A token that neither ends the open statement nor stands between two. -/
theorem push (h : OpenAt tokens start depth current (t :: rest))
    (hsemi : ¬(depth = 0 ∧ t.kind = .semicolon)) (hline : current = [] → t.kind ≠ .newline) :
    OpenAt tokens start (t.kind.depthAfter depth) (t :: current) rest where
  toStanding := by
    refine h.toStanding.push (fun hnil => ⟨hline hnil, fun hkind => hsemi ⟨h.outside hnil, hkind⟩⟩) ?_
    rw [h.endsAt_iff]
    exact fun hends => hsemi hends.symm
  depth_eq := h.depth_next
  outside hnil := absurd hnil (cons_ne_nil _ _)

theorem fresh (h : OpenAt tokens start depth current (t :: rest))
    (hdepth : t.kind.depthAfter depth = 0) :
    OpenAt tokens (start + current.length + 1) 0 [] rest where
  toStanding := h.toStanding.fresh
  depth_eq := h.depth_next.trans hdepth
  outside _ := rfl

/-- The statements of the tokens from the open one on are stretches with separators around them. -/
theorem tiled (h : OpenAt tokens start depth current rest) :
    ∃ spans, statementsFrom depth current rest = spans.map (Span.slice tokens) ∧
    Tiled tokens start spans := by
  induction rest generalizing start depth current with
  | nil => exact h.tiled_finished (by simp)
  | cons t rest ih =>
    by_cases hline : depth = 0 ∧ t.kind = .newline
    · obtain ⟨rfl, hkind⟩ := hline
      have hflat : t.kind.depthAfter 0 = 0 := by rw [hkind]; rfl
      have hended := h.tiled_append (.inl ⟨t, h.getElem?_next, hkind⟩) (ih (h.fresh hflat))
      cases current with
      | nil =>
        rw [statementsFrom_newline_nil hkind]
        exact hended
      | cons last current =>
        rw [statementsFrom_newline_cons hkind]
        split
        · have hpush := h.push (by simp [hkind]) (by simp)
          rw [hflat] at hpush
          exact ih hpush
        · exact hended
    · by_cases hsemi : depth = 0 ∧ t.kind = .semicolon
      · obtain ⟨rfl, hkind⟩ := hsemi
        rw [statementsFrom_semicolon hkind]
        exact h.tiled_append (.inr (h.endsAt_iff.mpr ⟨hkind, rfl⟩)) (ih (h.fresh (by rw [hkind]; rfl)))
      · rw [statementsFrom_push hline hsemi]
        exact ih (h.push hsemi fun hnil hkind => hline ⟨h.outside hnil, hkind⟩)

end OpenAt

/-- Statements are the tokens of spans that are not empty, stand one after another and start with
neither a line end nor a semicolon. Every token lies in exactly one of them, except line ends and
the semicolons outside brackets; these semicolons lie in none, and no token lies in two. -/
theorem statements_partition (tokens : List Token) :
    ∃ spans : List Span, statements tokens = spans.map (Span.slice tokens) ∧
      (∀ s ∈ spans, s.start < s.stop ∧ s.stop ≤ tokens.length) ∧
      spans.Pairwise (fun s t => s.stop ≤ t.start) ∧
      (∀ s ∈ spans, ∀ t, tokens[s.start]? = some t → t.kind ≠ .newline ∧ t.kind ≠ .semicolon) ∧
      ∀ i t, tokens[i]? = some t →
        (t.kind ≠ .newline ∧ ¬(t.kind = .semicolon ∧ depthAt tokens i = 0) → ∃! s, s ∈ spans ∧
        s.Covers i) ∧ (t.kind = .semicolon ∧ depthAt tokens i = 0 → ∀ s ∈ spans, ¬s.Covers i) ∧
        ∀ s ∈ spans, ∀ s' ∈ spans, s.Covers i → s'.Covers i → s = s' := by
  have hopen : OpenAt tokens 0 0 [] tokens :=
    ⟨⟨rfl, fun hne => absurd rfl hne, fun i hi hlt => absurd hi (Nat.not_le_of_lt hlt)⟩, rfl,
      fun _ => rfl⟩
  obtain ⟨spans, hspans, htiled⟩ := hopen.tiled
  have hstatement := htiled.spansStatement
  have hone : ∀ {i s s'}, s ∈ spans → s' ∈ spans → s.Covers i → s'.Covers i → s = s' :=
    eq_of_covers htiled.pairwise
  refine ⟨spans, hspans, fun s hs => ⟨(hstatement s hs).start_lt_stop, (hstatement s hs).stop_le⟩,
    htiled.pairwise,
    fun s hs => (hstatement s hs).first, fun i t ht => ⟨?_, ?_, fun s hs s' hs' => hone hs hs'⟩⟩
  · rintro ⟨hline, hsemi⟩
    have hnot : ¬SeparatesAt tokens i := by
      rintro (⟨u, hu, hkind⟩ | ⟨u, hu, hends⟩)
      · obtain rfl := Option.some.inj (ht.symm.trans hu)
        exact hline hkind
      · obtain rfl := Option.some.inj (ht.symm.trans hu)
        exact hsemi hends
    obtain ⟨hi, -⟩ := List.getElem?_eq_some_iff.mp ht
    obtain ⟨s, hs, hcovers⟩ := htiled.exists_covers (Nat.zero_le i) hi hnot
    exact ⟨s, ⟨hs, hcovers⟩, fun s' hs' => hone hs'.1 hs hs'.2 hcovers⟩
  · exact fun hends s hs hcovers => (hstatement s hs).inside i hcovers ⟨t, ht, hends⟩

end CookbookAtlas.Recipe
