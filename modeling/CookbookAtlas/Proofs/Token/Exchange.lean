import CookbookAtlas.Proofs.Token.Displacement
import CookbookAtlas.Proofs.Token.Lines

/-! Text that leaves no token may be exchanged. The text of a comment, the lines inside a comment
block and the body lines of a heredoc can be replaced by other such text: the tokens stay the same
but for the value of that heredoc, and those behind the text move by the bytes and lines that it
gains or loses. -/
namespace CookbookAtlas.Token

open List Text Place
variable {c : Char} {lines lines' : List (List Char)} {after bodies cs line rest text : List Char}
  {docs docs' : List Heredoc}
  {out tokens tokens' : List Token} {width : Nat} {s : Scan}

/-- Text `old` from the offset `start` on is replaced by `new`; `own` is the offset of the heredoc
whose body it is, if it is one. -/
structure Edit where
  start : Nat
  old : List Char
  new : List Char
  own : Option Nat

namespace Edit
variable (e : Edit)

/-- The same kind, or two values of the heredoc whose body is replaced. -/
def SameKind (t t' : Token) : Prop :=
  t'.kind = t.kind ∨ t.start ∈ e.own ∧ t.kind.isString = true ∧ t'.kind.isString = true

structure Kept (t t' : Token) : Prop where
  kind : e.SameKind t t'
  before : t.start < t.stop ∧ t.stop ≤ e.start
  line : t'.line = t.line
  start : t'.start = t.start
  stop : t'.stop = t.stop

structure Shifted (t t' : Token) : Prop where
  kind : e.SameKind t t'
  behind : e.start + byteLength e.old ≤ t.start
  line : t'.line + e.old.count '\n' = t.line + e.new.count '\n'
  start : t'.start + byteLength e.old = t.start + byteLength e.new
  stop : t'.stop + byteLength e.old = t.stop + byteLength e.new

/-- A token of a text and its counterpart in the text with the replacement. -/
def Follows (t t' : Token) : Prop := e.Kept t t' ∨ e.Shifted t t'

variable {e}

theorem kept_same (h : ∀ t ∈ tokens, t.start < t.stop ∧ t.stop ≤ e.start) :
    List.Forall₂ e.Kept tokens tokens :=
  forall₂_same.mpr fun t ht => ⟨.inl rfl, h t ht, rfl, rfl, rfl⟩

/-- Tokens before the replaced text, of which the same one is filled in. -/
theorem kept_fill (h : List.Forall₂ e.Kept tokens tokens') {start : Nat} {kind kind' : Kind}
    (hkind : kind' = kind ∨ start ∈ e.own ∧ kind.isString = true ∧ kind'.isString = true) :
    List.Forall₂ e.Kept (Scan.fill tokens start kind) (Scan.fill tokens' start kind') :=
  Scan.forall₂_fill h (fun ht => by rw [ht.start]) fun ht hstart =>
    ⟨hstart.symm ▸ hkind, ht.before, ht.line, ht.start, ht.stop⟩

theorem kept_readBodies (h : List.Forall₂ e.Kept tokens tokens')
    (hread : Scan.readBodies? tokens docs cs = some (out, width)) :
    ∃ out', Scan.readBodies? tokens' docs cs = some (out', width) ∧
    List.Forall₂ e.Kept out out' := by
  induction docs generalizing tokens tokens' cs width with
  | nil =>
    cases hread
    exact ⟨tokens', rfl, h⟩
  | cons doc docs ih =>
    obtain ⟨content, more, hcontent, hmore, rfl⟩ := Scan.readBodies_cons hread
    obtain ⟨out', hout', hkept⟩ := ih (kept_fill h (.inl rfl)) hmore
    exact ⟨out', Scan.readBodies?_cons hcontent hout', hkept⟩

theorem last_of_kept (h : List.Forall₂ e.Kept tokens tokens')
    (hhead : ∀ t ∈ tokens.head?, t.start ∉ e.own) :
    tokens'.head?.map Token.kind = tokens.head?.map Token.kind := by
  cases h with
  | nil => rfl
  | cons ht _ =>
    rcases ht.kind with hkind | ⟨hown, -⟩
    · exact congrArg some hkind
    · exact absurd hown (hhead _ rfl)

/-- Two scans right behind the replaced text. -/
structure Crossed (e : Edit) (s s' : Scan) : Prop where
  tokens : List.Forall₂ e.Kept s.tokens s'.tokens
  pending : s'.pending = s.pending
  opened : ∀ h ∈ s.pending, h.start < e.start
  last : s'.last = s.last
  behind : e.start + byteLength e.old ≤ s.place.offset
  offset : s'.place.offset + byteLength e.old = s.place.offset + byteLength e.new
  line : s'.place.line + e.old.count '\n' = s.place.line + e.new.count '\n'

theorem start_of_kept (h : List.Forall₂ e.Kept tokens tokens') :
    (∀ t ∈ tokens, t.start < e.start) ∧ ∀ t ∈ tokens', t.start < e.start := by
  induction h with
  | nil => simp
  | @cons t t' tokens tokens' ht _ ih =>
    have hlt : t.start < e.start := Nat.lt_of_lt_of_le ht.before.1 ht.before.2
    exact ⟨forall_mem_cons.mpr ⟨hlt, ih.1⟩, forall_mem_cons.mpr ⟨ht.start ▸ hlt, ih.2⟩⟩

namespace Crossed
variable {s s' : Scan} {rest : List Char} {tokens : List Token}

def frontier (s s' : Scan) : Frontier :=
  ⟨s.place.offset, s'.place.offset, s.place.line, s'.place.line⟩

theorem settled (h : e.Crossed s s') : (frontier s s').Settled (List.Forall₂ e.Kept) s.pending := by
  have hbehind := h.behind
  have hoffset := h.offset
  have hlt : ∀ {start}, start < e.start → start < s.place.offset ∧ start < s'.place.offset :=
    fun hstart => by omega
  refine ⟨fun {old old'} hold => ?_, fun doc hdoc => hlt (h.opened doc hdoc),
    fun kind doc _ hold => kept_fill hold (.inl rfl)⟩
  obtain ⟨hold, hold'⟩ := start_of_kept hold
  exact ⟨fun t ht => (hlt (hold t ht)).1, fun t ht => (hlt (hold' t ht)).2⟩

theorem beside (h : e.Crossed s s') (hfresh : s'.place.fresh = s.place.fresh) :
    Scan.Beside (frontier s s') (List.Forall₂ e.Kept) s.pending s s' := by
  refine ⟨hfresh, Nat.le_refl _, Nat.add_comm _ _, Nat.add_comm _ _, ?_, ⟨0, ?_⟩, ?_⟩
  · rw [h.last]
    exact fun _ _ _ _ => rfl
  · exact ⟨[], [], s.tokens, s'.tokens, rfl, rfl, rfl, .nil, h.tokens⟩
  · rw [h.pending]
    exact forall₂_same.mpr fun doc hdoc => .kept hdoc

theorem shifted (h : e.Crossed s s') {t t' : Token} (ht : (frontier s s').Moves t t') :
    e.Shifted t t' := by
  have hbehind := h.behind
  have hoffset := h.offset
  have hline := h.line
  obtain ⟨hkind, hafter, hstart, hstop, hline'⟩ := ht
  simp only [frontier] at hafter hstart hstop hline'
  exact ⟨.inl hkind, by omega, by omega, by omega, by omega⟩

theorem follows (h : e.Crossed s s') (hfresh : rest ≠ [] → s'.place.fresh = s.place.fresh)
    (hscan : scanFrom s rest = some tokens) :
    ∃ tokens', scanFrom s' rest = some tokens' ∧ List.Forall₂ e.Follows tokens tokens' := by
  by_cases hrest : rest = []
  · subst hrest
    rw [scanFrom, Option.some.injEq] at hscan
    subst hscan
    refine ⟨s'.tokens.reverse, scanFrom.eq_1 s', ?_⟩
    exact forall₂_reverse_iff.mpr (h.tokens.imp fun _ _ => .inl)
  · obtain ⟨tokens', hscan', count, new, new', old, old', htokens, htokens', -, hnew, hold⟩ :=
      (h.beside (hfresh hrest)).scanFrom h.settled hscan
    refine ⟨tokens', hscan', ?_⟩
    rw [← forall₂_reverse_iff, htokens, htokens']
    exact rel_append (hnew.imp fun _ _ ht => .inr (h.shifted ht)) (hold.imp fun _ _ => .inl)

end Crossed
end Edit

def linesText (lines : List (List Char)) : List Char := lines.flatMap (· ++ ['\n'])

@[simp] theorem linesText_nil : linesText [] = [] := rfl
@[simp] theorem linesText_cons (line : List Char) (lines : List (List Char)) :
    linesText (line :: lines) = line ++ '\n' :: linesText lines := by simp [linesText]

/-- The comment ends here: at the end of the text or of the line. -/
def EndsLine (after : List Char) : Prop := after = [] ∨ after.head? = some '\n'

theorem step?_comment (s : Scan) (htext : '\n' ∉ text) (hafter : EndsLine after) :
    s.step? '#' (text ++ after) = some (⟨s.place.past ('#' :: text), s.tokens, s.pending⟩, after) := by
  have hread : readLexeme s.last s.place.fresh s.place.offset '#' (text ++ after) =
      .skip ((text ++ after).takeWhile (· != '\n')).length := by
    cases s.place.fresh <;> rfl
  have htake : (text ++ after).takeWhile (· != '\n') = text := by
    refine takeWhile_append_of_all (fun c hc => ?_) fun c hc => ?_
    · simpa using fun h : c = '\n' => htext (h ▸ hc)
    · rcases hafter with rfl | hhead
      · cases hc
      · rw [hhead] at hc
        cases hc
        rfl
  rw [htake] at hread
  rw [Scan.step?_skip hread, take_left, drop_left]

theorem commentWidth_add (fresh ending : Bool) (width more : Nat) (cs : List Char) :
    commentWidth fresh ending (width + more) cs = width + commentWidth fresh ending more cs := by
  induction cs generalizing fresh ending more with
  | nil => rfl
  | cons c cs ih =>
    simp only [commentWidth, Nat.add_assoc, ih]
    repeat' split
    all_goals rfl

theorem commentWidth_line (hline : '\n' ∉ line) (hends : endsComment line = false) (width : Nat)
    (cs : List Char) :
    commentWidth true false width (line ++ '\n' :: cs) =
    commentWidth true false (width + (line.length + 1)) cs := by
  have hopen : ∀ (line : List Char) (width : Nat), '\n' ∉ line →
      commentWidth false false width (line ++ '\n' :: cs) =
      commentWidth true false (width + (line.length + 1)) cs := by
    intro line
    induction line with
    | nil => exact fun width _ => rfl
    | cons c line ih =>
      intro width hline
      obtain ⟨hc, hline⟩ := not_or.mp (mt mem_cons.mpr hline)
      rw [cons_append, commentWidth, if_neg (Ne.symm hc)]
      exact (ih (width + 1) hline).trans (by rw [length_cons]; congr 1; omega)
  cases line with
  | nil => rfl
  | cons c line =>
    obtain ⟨hc, hrest⟩ := not_or.mp (mt mem_cons.mpr hline)
    have hmark : ['=', 'e', 'n', 'd'].isPrefixOf (c :: (line ++ '\n' :: cs)) = false :=
      (endsComment_line hline cs).trans hends
    rw [cons_append, commentWidth, if_neg (Ne.symm hc), hmark]
    exact (hopen line (width + 1) hrest).trans (by rw [length_cons]; congr 1; omega)

theorem commentWidth_linesText (hlines : ∀ line ∈ lines, '\n' ∉ line ∧ endsComment line = false)
    (cs : List Char) :
    commentWidth true false 0 (linesText lines ++ cs) =
    (linesText lines).length + commentWidth true false 0 cs := by
  induction lines with
  | nil => exact (Nat.zero_add _).symm
  | cons line lines ih =>
    obtain ⟨⟨hline, hends⟩, hlines⟩ := forall_mem_cons.mp hlines
    rw [linesText_cons, append_assoc, cons_append, commentWidth_line hline hends, Nat.zero_add]
    rw [← Nat.add_zero (line.length + 1), commentWidth_add, ih hlines]
    simp only [length_append, length_cons]
    omega

/-- A block is passed up to and with its last line, whatever lines it starts with. -/
theorem step?_block (hfresh : s.place.fresh = true) {mark : List Char}
    (hmark : "=begin".toList <+: mark)
    (hlines : ∀ line ∈ mark :: lines, '\n' ∉ line ∧ endsComment line = false)
    (hcs : c :: cs = linesText (mark :: lines) ++ after) :
    s.step? c cs = some (⟨s.place.past
      (linesText (mark :: lines) ++ after.take (commentWidth true false 0 after)), s.tokens,
      s.pending⟩, after.drop (commentWidth true false 0 after)) := by
  have hbegin : "=begin".toList.isPrefixOf (c :: cs) = true := by
    rw [List.isPrefixOf_iff_prefix, hcs, linesText_cons, append_assoc]
    exact hmark.trans (prefix_append _ _)
  have hwidth : ∃ width, commentWidth true false 0 (c :: cs) = width + 1 := by
    have hgrows := commentWidth_grows true false 0 (c :: cs)
    rw [length_cons] at hgrows
    exact ⟨commentWidth true false 0 (c :: cs) - 1, by omega⟩
  obtain ⟨width, hwidth⟩ := hwidth
  have hread : readLexeme s.last s.place.fresh s.place.offset c cs = .skip width := by
    rw [readLexeme, hfresh, hbegin, hwidth]
    rfl
  rw [hcs, commentWidth_linesText hlines] at hwidth
  rw [Scan.step?_skip hread, ← take_succ_cons, ← drop_succ_cons (a := c), hcs, ← hwidth,
    take_length_add_append, drop_length_add_append]

namespace Heredoc
variable (h : Heredoc)

theorem readLines_open (htext : '\n' ∉ text) (line : List Char) (done : List (List Char))
    (width : Nat) (cs : List Char) :
    h.readLines line done width (text ++ cs) =
    h.readLines (text.reverse ++ line) done (width + text.length) cs := by
  induction text generalizing line width with
  | nil => rfl
  | cons c text ih =>
    obtain ⟨hc, htext⟩ := not_or.mp (mt mem_cons.mpr htext)
    rw [cons_append, readLines, if_neg (Ne.symm hc), ih htext, reverse_cons, append_assoc,
      length_cons, Nat.add_assoc, Nat.add_comm 1]
    rfl

theorem readLines_line (hline : '\n' ∉ line) (hstop : h.isTerminator line = false)
    (done : List (List Char)) (width : Nat) (cs : List Char) :
    h.readLines [] done width (line ++ '\n' :: cs) =
      h.readLines [] (line :: done) (width + (line.length + 1)) cs := by
  rw [h.readLines_open hline, readLines, append_nil, reverse_reverse, hstop]
  rfl

theorem readLines_stop (hline : '\n' ∉ line) (hstop : h.isTerminator line = true)
    (done : List (List Char)) (width : Nat) (cs : List Char) :
    h.readLines [] done width (line ++ '\n' :: cs) = (done, width + (line.length + 1)) := by
  rw [h.readLines_open hline, readLines, append_nil, reverse_reverse, hstop]
  rfl

theorem readLines_linesText (hlines : ∀ line ∈ lines, '\n' ∉ line ∧ h.isTerminator line = false)
    (done : List (List Char)) (width : Nat) (cs : List Char) :
    h.readLines [] done width (linesText lines ++ cs) =
      h.readLines [] (lines.reverse ++ done) (width + (linesText lines).length) cs := by
  induction lines generalizing done width with
  | nil => rfl
  | cons line lines ih =>
    obtain ⟨⟨hline, hstop⟩, hlines⟩ := forall_mem_cons.mp hlines
    rw [linesText_cons, append_assoc, cons_append, h.readLines_line hline hstop, ih hlines,
      reverse_cons, append_assoc, length_append, length_cons, Nat.add_assoc]
    congr 1
    omega

/-- The body ends here: at the end of the text, or before a line that ends it. -/
def Stops (after : List Char) : Prop :=
  after = [] ∨ ∃ line rest, after = line ++ rest ∧ '\n' ∉ line ∧ h.isTerminator line = true ∧
    EndsLine rest

/-- Lines that a body may hold before `after`; the last one may lack its end at the end of
the text. -/
def Holds (lines : List (List Char)) (last after : List Char) : Prop :=
  (∀ line ∈ lines, '\n' ∉ line ∧ h.isTerminator line = false) ∧
    (last = [] ∨ after = [] ∧ '\n' ∉ last ∧ h.isTerminator last = false)

/-- The characters of the line that ends a body do not depend on the lines of the body. -/
theorem readLines_stops (hstops : h.Stops after) :
    ∃ width, (after ≠ [] → 0 < width) ∧ ∀ lines last, h.Holds lines last after →
      ∃ body, h.readLines [] [] 0 (linesText lines ++ last ++ after) =
      (body, (linesText lines ++ last).length + width) ∧
        ∀ line ∈ body, line ∈ last :: lines := by
  by_cases hnil : after = []
  · subst hnil
    refine ⟨0, fun hne => absurd rfl hne, fun lines last hholds => ?_⟩
    obtain ⟨hlines, hlast⟩ := hholds
    have hline : '\n' ∉ last := by
      rcases hlast with rfl | ⟨-, hline, -⟩
      · exact not_mem_nil
      · exact hline
    have hread := (h.readLines_linesText hlines [] 0 last).trans
      (by simpa using h.readLines_open hline [] lines.reverse (linesText lines).length [])
    rw [append_nil, hread, readLines, length_append]
    split
    · exact ⟨_, rfl, by simp +contextual⟩
    · exact ⟨_, rfl, by simp⟩
  · obtain ⟨line, rest, rfl, hline, hstop, hrest⟩ := hstops.resolve_left hnil
    have hread : ∀ lines last, h.Holds lines last (line ++ rest) → last = [] ∧
        h.readLines [] [] 0 (linesText lines ++ (line ++ rest)) =
        h.readLines [] lines.reverse (linesText lines).length (line ++ rest) := by
      intro lines last hholds
      refine ⟨hholds.2.resolve_right fun hlast => hnil hlast.1, ?_⟩
      rw [h.readLines_linesText hholds.1, append_nil, Nat.zero_add]
    rcases hrest with rfl | hhead
    · refine ⟨line.length, fun _ => length_pos_iff.mpr (by simpa using hnil), fun lines last hholds => ?_⟩
      obtain ⟨rfl, hread⟩ := hread lines last hholds
      refine ⟨lines.reverse, ?_, by simp +contextual⟩
      rw [append_nil, hread, h.readLines_open hline, readLines, append_nil, reverse_reverse, hstop,
        Bool.or_true]
      rfl
    · obtain ⟨more, rfl⟩ := List.head?_eq_some_iff.mp hhead
      refine ⟨line.length + 1, fun _ => Nat.succ_pos _, fun lines last hholds => ?_⟩
      obtain ⟨rfl, hread⟩ := hread lines last hholds
      refine ⟨lines.reverse, ?_, by simp +contextual⟩
      rw [append_nil, hread, h.readLines_stop hline hstop]

theorem readContent?_closed {first : List Char}
    (hfirst : LinesThrough h.isTerminator first (c :: rest)) :
    ∃ read : Option Content, (∀ cs, h.readContent? (first ++ cs) = read) ∧
    ∀ content ∈ read, content.width = first.length := by
  obtain ⟨lines, last, rfl, hlines, ⟨line, rfl, hline, hstop⟩ | ⟨-, hnil⟩⟩ := hfirst
  · have hread : ∀ cs, h.readLines [] [] 0 (linesText lines ++ (line ++ ['\n']) ++ cs) =
        (lines.reverse, (linesText lines ++ (line ++ ['\n'])).length) := by
      intro cs
      rw [append_assoc, append_assoc, h.readLines_linesText hlines, singleton_append,
        h.readLines_stop hline hstop, append_nil, length_append, length_append, Nat.zero_add]
      rfl
    refine ⟨h.readContent? (linesText lines ++ (line ++ ['\n']) ++ []), fun cs => ?_,
      fun content hcontent => ?_⟩
    · change h.readContent? (linesText lines ++ (line ++ ['\n']) ++ cs) = _
      rw [readContent?, readContent?, hread cs, hread []]
    · rw [readContent?, hread []] at hcontent
      obtain ⟨body, -, rfl⟩ := Option.map_eq_some_iff.mp hcontent
      rfl
  · cases hnil

end Heredoc

namespace Scan

theorem readBodies?_split (h : readBodies? tokens (docs ++ docs') cs = some (out, width)) :
    ∃ mid first more, readBodies? tokens docs cs = some (mid, first) ∧
      readBodies? mid docs' (cs.drop first) = some (out, more) ∧ width = first + more := by
  induction docs generalizing tokens cs width with
  | nil => exact ⟨tokens, 0, width, rfl, h, (Nat.zero_add _).symm⟩
  | cons doc docs ih =>
    obtain ⟨content, more, hcontent, hmore, rfl⟩ := readBodies_cons h
    obtain ⟨mid, first, rest, hfirst, hrest, rfl⟩ := ih hmore
    refine ⟨mid, content.width + first, rest, readBodies?_cons hcontent hfirst, ?_,
      (Nat.add_assoc _ _ _).symm⟩
    rwa [← drop_drop]

theorem readBodies?_join {mid : List Token} {first more : Nat}
    (hfirst : readBodies? tokens docs cs = some (mid, first))
    (hmore : readBodies? mid docs' (cs.drop first) = some (out, more)) :
    readBodies? tokens (docs ++ docs') cs = some (out, first + more) := by
  induction docs generalizing tokens cs first with
  | nil =>
    cases hfirst
    rwa [Nat.zero_add]
  | cons doc docs ih =>
    obtain ⟨content, width, hcontent, hwidth, rfl⟩ := readBodies_cons hfirst
    rw [← drop_drop] at hmore
    rw [cons_append, Nat.add_assoc]
    exact readBodies?_cons hcontent (ih hwidth hmore)

/-- Bodies with the lines that end them are read alike before any text. -/
theorem readBodies?_closed (h : BodiesOf docs bodies (c :: rest)) (tokens : List Token) :
    ∃ read : Option (List Token × Nat), (∀ cs, readBodies? tokens docs (bodies ++ cs) = read) ∧
      ∀ out width, read = some (out, width) → width = bodies.length := by
  induction docs generalizing tokens bodies with
  | nil =>
    obtain rfl : bodies = [] := h
    refine ⟨some (tokens, 0), fun cs => rfl, fun out width hread => ?_⟩
    cases hread
    rfl
  | cons doc docs ih =>
    obtain ⟨first, more, rfl, hfirst, hmore⟩ := h
    obtain ⟨d, ds, hds⟩ : ∃ d ds, more ++ c :: rest = d :: ds := exists_cons_of_ne_nil (by simp)
    obtain ⟨read, hread, hwidth⟩ := doc.readContent?_closed (hds ▸ hfirst)
    cases read with
    | none =>
      refine ⟨none, fun cs => ?_, fun out width hnone => by cases hnone⟩
      rw [append_assoc, readBodies?, hread]
    | some content =>
      obtain ⟨next, hnext, hlength⟩ := ih hmore
        (fill tokens doc.start (.string (String.ofList content.value) content.interpolated))
      refine ⟨next.map fun read => (read.1, content.width + read.2), fun cs => ?_,
        fun out width hsome => ?_⟩
      · have hdrop : (first ++ (more ++ cs)).drop content.width = more ++ cs := by
          rw [hwidth content rfl, drop_left]
        rw [append_assoc, readBodies?, hread]
        simp only [hdrop, hnext]
        cases next <;> rfl
      · obtain ⟨⟨out, width⟩, hnext', heq⟩ := Option.map_eq_some_iff.mp hsome
        cases heq
        rw [length_append, hlength out width hnext', hwidth content rfl]

theorem Reached.spans {before : List Char} (h : Reached (before ++ cs) s cs) :
    s.place.offset = byteLength before ∧
    (∀ t ∈ s.tokens, t.start < t.stop ∧ t.stop ≤ s.place.offset) ∧
      ∀ doc ∈ s.pending, doc.start < s.place.offset := by
  obtain ⟨passed, hlaid⟩ := h.laid
  obtain rfl : before = passed := append_cancel_right hlaid.source_eq
  have htokens : ∀ t ∈ s.tokens, t.start < t.stop ∧ t.stop ≤ s.place.offset := fun t ht =>
    ⟨(hlaid.layout.told t ht).start_lt, Nat.le_trans (hlaid.layout.stop_le t ht) hlaid.gap.endOf_le⟩
  refine ⟨hlaid.offset_eq, htokens, fun doc hdoc => ?_⟩
  obtain ⟨t, ht, hstart, -⟩ := hlaid.pending.exists_opener hdoc
  obtain ⟨hlt, hle⟩ := htokens t (takeWhile_subset _ ht)
  omega

end Scan

theorem parting_of_barrier (hc : c ∈ barriers) (xs ys : List Char) :
    Parting (c :: xs) (c :: ys) := by
  have hbars : ∀ zs, Bars (c :: zs) := fun zs d hd => by
    cases hd
    exact hc
  exact ⟨hbars xs, hbars ys, Iff.rfl⟩

theorem Place.not_fresh_past {p : Place} (hne : text ≠ []) (htext : '\n' ∉ text) :
    (p.past text).fresh = false := by
  induction text using List.reverseRecOn with
  | nil => exact absurd rfl hne
  | append_singleton text c _ =>
    have hc : c ≠ '\n' := fun h => htext (by simp [h])
    rw [past_append]
    simpa [Place.past, Place.next] using hc

theorem Place.fresh_past_append {tail : List Char} (htail : tail ≠ []) (p : Place)
    (xs ys : List Char) : (p.past (ys ++ tail)).fresh = (p.past (xs ++ tail)).fresh := by
  rw [past_append, past_append]
  exact fresh_past_eq fun hnil => absurd hnil htail

namespace Edit

/-- Two scans that have passed the same text but for the exchanged part. -/
theorem crossed_past {before : List Char} (hs : s.place.offset = byteLength before)
    (head old new tail : List Char) (own : Option Nat)
    (htokens : List.Forall₂ (Kept ⟨byteLength (before ++ head), old, new, own⟩) tokens tokens')
    {pending : List Heredoc} (hpending : ∀ doc ∈ pending, doc.start < byteLength (before ++ head))
    (hlast : tokens'.head?.map Token.kind = tokens.head?.map Token.kind) :
    Crossed ⟨byteLength (before ++ head), old, new, own⟩ ⟨s.place.past (head ++ old ++ tail),
    tokens, pending⟩
      ⟨s.place.past (head ++ new ++ tail), tokens', pending⟩ := by
  refine ⟨htokens, rfl, hpending, hlast, ?_, ?_, ?_⟩
  · simp only [offset_past, byteLength_append, hs]
    omega
  · simp only [offset_past, byteLength_append, hs]
    omega
  · simp only [line_past, count_append]
    omega

/-- Text that leaves no token is passed with one part or with the other. -/
theorem crossed_skip {before : List Char} (hreached : Scan.Reached (before ++ cs) s cs)
    (head old new tail : List Char) :
    Crossed ⟨byteLength (before ++ head), old, new, none⟩ ⟨s.place.past (head ++ old ++ tail),
    s.tokens, s.pending⟩
      ⟨s.place.past (head ++ new ++ tail), s.tokens, s.pending⟩ := by
  obtain ⟨hoffset, htokens, hpending⟩ := hreached.spans
  have hstart : s.place.offset ≤ byteLength (before ++ head) := by
    rw [byteLength_append]
    omega
  exact crossed_past hoffset head old new tail none
    (kept_same fun t ht => ⟨(htokens t ht).1, Nat.le_trans (htokens t ht).2 hstart⟩)
    (fun doc hdoc => Nat.lt_of_lt_of_le (hpending doc hdoc) hstart) rfl

/-- A scan of the one text and a scan of the other that stand behind the exchanged part. -/
theorem follows_of_leads {e : Edit} {source source' : List Char} {s' : Scan}
    (hscan : scan? source = some tokens)
    (hleads : Scan.start.Leads source s rest) (hleads' : Scan.start.Leads source' s' rest)
    (hcrossed : e.Crossed s s') (hfresh : rest ≠ [] → s'.place.fresh = s.place.fresh) :
    ∃ tokens', scan? source' = some tokens' ∧ List.Forall₂ e.Follows tokens tokens' := by
  rw [scan?, hleads.scanFrom_eq] at hscan
  rw [scan?, hleads'.scanFrom_eq]
  exact hcrossed.follows hfresh hscan

section
variable {before after : List Char} {s : Scan} {tokens : List Token}

theorem follows_comment {old new : List Char}
    (hreached : Scan.Reached (before ++ '#' :: (old ++ after)) s ('#' :: (old ++ after)))
    (hold : '\n' ∉ old) (hnew : '\n' ∉ new)
    (hafter : EndsLine after) (hscan : scan? (before ++ '#' :: (old ++ after)) = some tokens) :
    ∃ tokens', scan? (before ++ '#' :: (new ++ after)) = some tokens' ∧
      List.Forall₂ (Follows ⟨byteLength (before ++ ['#']), old, new, none⟩) tokens tokens' := by
  have hleads' : Scan.start.Leads (before ++ '#' :: (new ++ after)) s ([] ++ '#' :: (new ++ after)) :=
    hreached.leads.append (parting_of_barrier (by decide) _ _) (by simp)
  have hcrossed := crossed_skip hreached ['#'] old new []
  rw [append_nil, append_nil] at hcrossed
  refine follows_of_leads hscan (.step hreached.leads (step?_comment s hold hafter))
    (.step hleads' (step?_comment s hnew hafter)) hcrossed fun _ => ?_
  rw [not_fresh_past (by simp) (by simpa using hnew), not_fresh_past (by simp) (by simpa using hold)]

theorem follows_block {mark : List Char}
    (hreached : Scan.Reached (before ++ (mark ++ '\n' :: (linesText lines ++ after))) s
    (mark ++ '\n' :: (linesText lines ++ after)))
    (hfresh : s.place.fresh = true) (hmark : "=begin".toList <+: mark) (hline : '\n' ∉ mark)
    (hlines : ∀ line ∈ lines, '\n' ∉ line ∧ endsComment line = false)
    (hlines' : ∀ line ∈ lines', '\n' ∉ line ∧ endsComment line = false) (hafter : after ≠ [])
    (hscan : scan? (before ++ (mark ++ '\n' :: (linesText lines ++ after))) = some tokens) :
    ∃ tokens', scan? (before ++ (mark ++ '\n' :: (linesText lines' ++ after))) = some tokens' ∧
      List.Forall₂ (Follows ⟨byteLength (before ++ (mark ++ ['\n'])), linesText lines, linesText lines', none⟩)
        tokens tokens' := by
  have hends : endsComment mark = false := by
    obtain ⟨rest, rfl⟩ := hmark
    rfl
  have hleads' : Scan.start.Leads (before ++ mark ++ '\n' :: (linesText lines' ++ after)) s
      (mark ++ '\n' :: (linesText lines' ++ after)) := by
    refine Scan.Leads.append (parting_of_barrier (by decide) (linesText lines ++ after) _)
      (by simp) ?_
    rw [append_assoc]
    exact hreached.leads
  rw [append_assoc] at hleads'
  have hcrossed := crossed_skip hreached (mark ++ ['\n']) (linesText lines) (linesText lines')
    (after.take (commentWidth true false 0 after))
  have hstep : ∀ inner, (∀ line ∈ inner, '\n' ∉ line ∧ endsComment line = false) → ∃ c cs,
      mark ++ '\n' :: (linesText inner ++ after) = c :: cs ∧
        s.step? c cs = some (⟨s.place.past
        (mark ++ ['\n'] ++ linesText inner ++ after.take (commentWidth true false 0 after)),
          s.tokens, s.pending⟩, after.drop (commentWidth true false 0 after)) := by
    intro inner hinner
    have htext : mark ++ '\n' :: (linesText inner ++ after) =
        linesText (mark :: inner) ++ after := by simp
    obtain ⟨c, cs, hcs⟩ := exists_cons_of_ne_nil (l := mark ++ '\n' :: (linesText inner ++ after))
      (by simp)
    refine ⟨c, cs, hcs, ?_⟩
    have hstep := step?_block hfresh hmark (forall_mem_cons.mpr ⟨⟨hline, hends⟩, hinner⟩) (hcs.symm.trans htext)
    rw [hstep, linesText_cons]
    simp
  obtain ⟨c, cs, hcs, hpass⟩ := hstep lines hlines
  obtain ⟨c', cs', hcs', hpass'⟩ := hstep lines' hlines'
  refine follows_of_leads hscan (.step (hcs ▸ hreached.leads) hpass) (.step (hcs' ▸ hleads') hpass')
    hcrossed fun _ => ?_
  have hgrows := commentWidth_grows true false 0 after
  have hpos := length_pos_iff.mpr hafter
  exact fresh_past_append (by simp [hafter]; omega) _ _ _

theorem step?_newline (hpending : s.pending ≠ [])
    (hread : Scan.readBodies? (s.found .newline ['\n'] :: s.tokens) s.pending (text ++ rest) =
    some (out, text.length)) :
    s.step? '\n' (text ++ rest) = some (⟨s.place.past ('\n' :: text), out, []⟩, rest) := by
  rw [Scan.step?_bodies (readLexeme_newline _ _ _ _) rfl rfl rfl hpending]
  simp only [Lexeme.token, drop_zero, hread, Option.map_some, take_left, drop_left]

/-- Bodies of which one holds other lines: the same tokens are filled in, and the same text
is left. -/
theorem readBodies?_exchange (e : Edit) {doc : Heredoc} (hown : e.own = some doc.start)
    {last last' : List Char} (hbodies : ∀ rest, BodiesOf docs bodies rest)
    (hholds : doc.Holds lines last after) (hholds' : doc.Holds lines' last' after)
    (hplain : doc.Plain (last' :: lines'))
    (hstops : doc.Stops after) (htokens : ∀ t ∈ tokens, t.start < t.stop ∧ t.stop ≤ e.start)
    (hread : Scan.readBodies? tokens (docs ++ doc :: docs')
    (bodies ++ (linesText lines ++ last ++ after)) = some (out, width)) :
    ∃ more out', (after ≠ [] → 0 < more) ∧ more ≤ after.length ∧
    width = (bodies ++ (linesText lines ++ last)).length + more ∧
      Scan.readBodies? tokens (docs ++ doc :: docs') (bodies ++ (linesText lines' ++ last' ++ after)) =
        some (out', (bodies ++ (linesText lines' ++ last')).length + more) ∧
        List.Forall₂ e.Kept out out' := by
  have hle := (Scan.readBodies_lines hread).1
  obtain ⟨mid, first, rest, hfirst, hrest, rfl⟩ := Scan.readBodies?_split hread
  obtain ⟨read, hclosed, hlength⟩ := Scan.readBodies?_closed (hbodies ['\n']) tokens
  have hfirst' := fun cs => (hclosed cs).trans ((hclosed _).symm.trans hfirst)
  obtain rfl := hlength mid first ((hclosed _).symm.trans hfirst)
  rw [drop_left] at hrest
  obtain ⟨content, more, hcontent, hmore, rfl⟩ := Scan.readBodies_cons hrest
  obtain ⟨stop, hpos, hlines⟩ := doc.readLines_stops hstops
  obtain ⟨body, hbody, -⟩ := hlines lines last hholds
  obtain ⟨body', hbody', hmem⟩ := hlines lines' last' hholds'
  have hwidth : content.width = (linesText lines ++ last).length + stop := by
    rw [Heredoc.readContent?, hbody] at hcontent
    obtain ⟨value, -, rfl⟩ := Option.map_eq_some_iff.mp hcontent
    rfl
  obtain ⟨content', hcontent', hwidth'⟩ :
      ∃ content', doc.readContent? (linesText lines' ++ last' ++ after) = some content' ∧
      content'.width = (linesText lines' ++ last').length + stop := by
    have hbody₂ : doc.body (linesText lines' ++ last' ++ after) =
        (body', (linesText lines' ++ last').length + stop) := hbody'
    have hplain' : doc.Plain (doc.body (linesText lines' ++ last' ++ after)).1 := by
      rw [hbody₂]
      exact fun hsquiggly line hline => hplain hsquiggly line (hmem line hline)
    obtain ⟨content', hread', hwidth'⟩ := Heredoc.readContent?_isSome hplain'
    exact ⟨content', hread', hwidth'.trans (by rw [hbody₂])⟩
  have hmid : ∀ t ∈ mid, t.start < t.stop ∧ t.stop ≤ e.start := by
    intro t ht
    have hspan : mid.map (fun u => (u.start, u.stop)) = tokens.map fun u => (u.start, u.stop) :=
      Scan.map_readBodies (fun _ _ => rfl) hfirst
    have hmem : (t.start, t.stop) ∈ tokens.map fun u => (u.start, u.stop) :=
      hspan ▸ mem_map.mpr ⟨t, ht, rfl⟩
    obtain ⟨u, hu, heq⟩ := mem_map.mp hmem
    obtain ⟨hstart, hstop⟩ := Prod.mk.inj heq
    rw [← hstart, ← hstop]
    exact htokens u hu
  have hfilled : List.Forall₂ e.Kept
      (Scan.fill mid doc.start (.string (String.ofList content.value) content.interpolated))
      (Scan.fill mid doc.start (.string (String.ofList content'.value) content'.interpolated)) :=
    kept_fill (kept_same hmid) (.inr ⟨hown, rfl, rfl⟩)
  rw [hwidth, drop_length_add_append] at hmore
  obtain ⟨out', hout', hkept⟩ := kept_readBodies hfilled hmore
  have hnext : Scan.readBodies? mid (doc :: docs') (linesText lines' ++ last' ++ after) =
      some (out', content'.width + more) := by
    refine Scan.readBodies?_cons hcontent' ?_
    rwa [hwidth', drop_length_add_append]
  refine ⟨stop + more, out', fun hne => Nat.lt_of_lt_of_le (hpos hne) (Nat.le_add_right _ _), ?_,
    ?_, ?_, hkept⟩
  · simp only [length_append] at hle hwidth
    omega
  · simp only [length_append] at hwidth ⊢
    omega
  · have hjoin := Scan.readBodies?_join (hfirst' (linesText lines' ++ last' ++ after))
      (by rw [drop_left]; exact hnext)
    rw [hjoin, hwidth']
    simp only [length_append, Nat.add_assoc]

theorem follows_heredoc {doc : Heredoc} {last last' : List Char}
    (hreached : Scan.Reached (before ++ '\n' :: (bodies ++ (linesText lines ++ last ++ after))) s
      ('\n' :: (bodies ++ (linesText lines ++ last ++ after))))
    (hpending : s.pending = docs ++ doc :: docs') (hbodies : ∀ rest, BodiesOf docs bodies rest)
    (hholds : doc.Holds lines last after) (hholds' : doc.Holds lines' last' after)
    (hplain : doc.Plain (last' :: lines')) (hstops : doc.Stops after)
    (hscan : scan? (before ++ '\n' :: (bodies ++ (linesText lines ++ last ++ after))) = some tokens) :
    ∃ tokens', scan? (before ++ '\n' :: (bodies ++ (linesText lines' ++ last' ++ after))) =
      some tokens' ∧
      List.Forall₂ (Follows ⟨byteLength (before ++ '\n' :: bodies), linesText lines ++ last,
      linesText lines' ++ last',
        some doc.start⟩) tokens tokens' := by
  obtain ⟨hoffset, htokens, hbefore⟩ := hreached.spans
  have hne : s.pending ≠ [] := by simp [hpending]
  obtain ⟨out, width, hread⟩ :
      ∃ out width, Scan.readBodies? (s.found .newline ['\n'] :: s.tokens) s.pending
      (bodies ++ (linesText lines ++ last ++ after)) = some (out, width) := by
    have hstep := hscan
    rw [scan?, hreached.leads.scanFrom_eq, scanFrom_cons] at hstep
    obtain ⟨⟨t, rest⟩, hstep, -⟩ := Option.bind_eq_some_iff.mp hstep
    rw [Scan.step?_bodies (readLexeme_newline _ _ _ _) rfl rfl rfl hne] at hstep
    obtain ⟨⟨out, width⟩, hread, -⟩ := Option.map_eq_some_iff.mp hstep
    exact ⟨out, width, hread⟩
  have hnewline : s.place.offset < (s.place.past ['\n']).offset ∧
      (s.place.past ['\n']).offset ≤ byteLength (before ++ '\n' :: bodies) := by
    rw [offset_past, hoffset, byteLength_append, byteLength_cons, byteLength_cons, byteLength_nil]
    have hsize := Char.utf8Size_pos '\n'
    omega
  have hfound : ∀ t ∈ s.found .newline ['\n'] :: s.tokens, t.start < t.stop ∧
      t.stop ≤ byteLength (before ++ '\n' :: bodies) :=
    forall_mem_cons.mpr ⟨hnewline, fun t ht => ⟨(htokens t ht).1, by have := (htokens t ht).2; omega⟩⟩
  rw [hpending] at hread
  obtain ⟨more, out', hpos, hmore, rfl, hread', hkept⟩ :=
    readBodies?_exchange ⟨byteLength (before ++ '\n' :: bodies),
    linesText lines ++ last, linesText lines' ++ last',
    some doc.start⟩ rfl hbodies hholds hholds' hplain hstops hfound hread
  rw [← hpending] at hread hread'
  have hpass : ∀ {mid out}, Scan.readBodies? (s.found .newline ['\n'] :: s.tokens) s.pending
      (bodies ++ (mid ++ after)) =
      some (out, (bodies ++ mid).length + more) → s.step? '\n' (bodies ++ (mid ++ after)) =
      some (⟨s.place.past ('\n' :: bodies ++ mid ++ after.take more), out, []⟩, after.drop more) := by
    intro mid out hread
    have htext : bodies ++ (mid ++ after) = bodies ++ mid ++ after.take more ++ after.drop more := by simp
    rw [htext] at hread ⊢
    refine step?_newline hne (hread.trans ?_)
    simp only [length_append, length_take, Nat.min_eq_left hmore]
  have hleads' : Scan.start.Leads (before ++ '\n' :: (bodies ++ (linesText lines' ++ last' ++ after))) s
      ([] ++ '\n' :: (bodies ++ (linesText lines' ++ last' ++ after))) :=
    hreached.leads.append (parting_of_barrier (by decide) _ _) (by simp)
  have hlast : out'.head?.map Token.kind = out.head?.map Token.kind := by
    refine last_of_kept hkept fun t ht hown => ?_
    have hstarts : out.map Token.start = (s.found .newline ['\n'] :: s.tokens).map Token.start :=
      Scan.map_readBodies (fun _ _ => rfl) hread
    have hhead : t.start = s.place.offset := by
      obtain ⟨rest, rfl⟩ := List.head?_eq_some_iff.mp ht
      exact (List.cons.inj hstarts).1
    have hdoc : doc.start = t.start := Option.some.inj hown
    have := hbefore doc (by simp [hpending])
    omega
  have hcrossed := crossed_past hoffset ('\n' :: bodies) (linesText lines ++ last)
    (linesText lines' ++ last') (after.take more) (some doc.start) hkept (forall_mem_nil _) hlast
  refine follows_of_leads hscan (.step hreached.leads (hpass hread)) (.step hleads' (hpass hread'))
    hcrossed fun hrest => ?_
  refine fresh_past_append ?_ _ _ _
  have hafter : after ≠ [] := by
    rintro rfl
    simp at hrest
  have := hpos hafter
  simp only [ne_eq, take_eq_nil_iff, not_or]
  exact ⟨by omega, hafter⟩

end
end Edit

/-- Text between `before` and `after` that may be exchanged, `old` for `new`: the text of a comment,
lines inside a comment block, or body lines of a heredoc, which stands behind the bodies of the
heredocs opened before it on the line. Of a heredoc the offset of its opener is told. -/
inductive Exchange : List Char → List Char → List Char → List Char → Option Nat → Prop
  | comment {before old new after : List Char} {s : Scan}
    (hreached : Scan.Reached (before ++ '#' :: (old ++ after)) s ('#' :: (old ++ after))) (hold :
      '\n' ∉ old) (hnew : '\n' ∉ new)
    (hafter : EndsLine after) : Exchange (before ++ ['#']) old new after none
  | block {before mark after : List Char} {lines lines' : List (List Char)} {s : Scan}
    (hreached : Scan.Reached (before ++ (mark ++ '\n' :: (linesText lines ++ after))) s
      (mark ++ '\n' :: (linesText lines ++ after)))
    (hfresh : s.place.fresh = true) (hmark : "=begin".toList <+: mark) (hline : '\n' ∉ mark)
    (hlines : ∀ line ∈ lines, '\n' ∉ line ∧ endsComment line = false)
    (hlines' : ∀ line ∈ lines', '\n' ∉ line ∧
      endsComment line = false) (hafter : endsComment after = true) :
    Exchange (before ++ (mark ++ ['\n'])) (linesText lines) (linesText lines') after none
  | heredoc {before bodies last last' after : List Char} {lines lines' : List (List Char)}
    {docs docs' : List Heredoc} {doc : Heredoc} {s : Scan}
    (hreached : Scan.Reached (before ++ '\n' :: (bodies ++ (linesText lines ++ last ++ after))) s
      ('\n' :: (bodies ++ (linesText lines ++ last ++ after))))
    (hpending : s.pending = docs ++ doc :: docs') (hbodies : ∀ rest, BodiesOf docs bodies rest)
    (hholds : doc.Holds lines last after) (hholds' : doc.Holds lines' last' after) (hplain :
      doc.Plain (last' :: lines'))
    (hstops : doc.Stops after) :
    Exchange (before ++ '\n' :: bodies) (linesText lines ++ last) (linesText lines' ++ last') after
      (some doc.start)

/-- Exchanged text is inert: the same kinds of tokens follow one another, except for the value of
the heredoc whose body it is. Tokens before it keep their places, and those behind it keep them up
to the bytes and lines that it gains or loses. -/
theorem tokens_follow_exchange {before old new after : List Char} {own : Option Nat}
    {tokens : List Token}
    (h : Exchange before old new after own) (hscan : scan? (before ++ old ++ after) = some tokens) :
    ∃ tokens', scan? (before ++ new ++ after) = some tokens' ∧
      List.Forall₂ (Edit.Follows ⟨byteLength before, old, new, own⟩) tokens tokens' := by
  cases h with
  | comment hreached hold hnew hafter =>
    simp only [append_assoc, singleton_append] at hscan ⊢
    exact Edit.follows_comment hreached hold hnew hafter hscan
  | block hreached hfresh hmark hline hlines hlines' hafter =>
    have hne : after ≠ [] := by
      rintro rfl
      cases hafter
    simp only [append_assoc, singleton_append] at hscan ⊢
    exact Edit.follows_block hreached hfresh hmark hline hlines hlines' hne hscan
  | @heredoc before bodies _ _ _ _ _ _ _ _ _ hreached hpending hbodies hholds hholds' hplain hstops =>
    have htext : ∀ mid, before ++ '\n' :: bodies ++ mid ++ after =
        before ++ '\n' :: (bodies ++ (mid ++ after)) := by simp
    rw [htext] at hscan ⊢
    exact Edit.follows_heredoc hreached hpending hbodies hholds hholds' hplain hstops hscan

deriving instance DecidableEq for Heredoc, Place, Scan

/-- The state after a number of lexemes, with the text left. -/
def Scan.steps? : Nat → Scan → List Char → Option (Scan × List Char)
  | n + 1, s, c :: cs => (s.step? c cs).bind fun next => steps? n next.1 next.2
  | _, s, cs => some (s, cs)

theorem Scan.leads_of_steps? {n : Nat} {t : Scan} (h : steps? n s cs = some (t, rest)) :
    s.Leads cs t rest := by
  induction n generalizing s cs with
  | zero =>
    cases h
    exact .refl
  | succ n ih =>
    cases cs with
    | nil =>
      cases h
      exact .refl
    | cons c cs =>
      obtain ⟨⟨u, ds⟩, hstep, hrest⟩ := Option.bind_eq_some_iff.mp h
      exact (Leads.step .refl hstep).trans (ih hrest)

def twoOpeners : List Char := "f <<A, <<~B # c".toList

def twoOpened : Scan :=
  ⟨⟨15, 1, false⟩, [⟨.string "" false, 1, 7, 11⟩, ⟨.comma, 1, 5, 6⟩, ⟨.string "" false, 1, 2, 5⟩,
    ⟨.ident "f", 1, 0, 1⟩],
    [⟨2, ['A'], false, false, false⟩, ⟨7, ['B'], true, false, false⟩]⟩

/-- The text up to the body of the second heredoc, its lines, other lines, and what follows them. -/
def twoBefore : List Char := twoOpeners ++ '\n' :: "a\nA\n".toList
def twoOld : List Char := "  b\n".toList
def twoNew : List Char := "\té\n #\x7bq\x7d\n".toList
def twoAfter : List Char := "  B\nx\n".toList

def twoTokens : List Token :=
  [⟨.ident "f", 1, 0, 1⟩, ⟨.string "a" false, 1, 2, 5⟩, ⟨.comma, 1, 5, 6⟩,
    ⟨.string "b" false, 1, 7, 11⟩, ⟨.newline, 1, 15, 16⟩,
    ⟨.ident "x", 6, 28, 29⟩, ⟨.newline, 6, 29, 30⟩]

theorem exchange_twoNew : Exchange twoBefore twoOld twoNew twoAfter (some 7) := by
  have hreached : Scan.Reached (twoBefore ++ twoOld ++ twoAfter) twoOpened "\na\nA\n  b\n  B\nx\n".toList :=
    (Scan.leads_of_steps? (n := 8) (by decide +kernel)).reached
  have hbodies : ∀ rest, BodiesOf [⟨2, ['A'], false, false, false⟩] "a\nA\n".toList rest :=
    fun rest =>
    ⟨"a\nA\n".toList, [], rfl, ⟨[['a']], ['A', '\n'], rfl, by decide +kernel,
      .inl ⟨['A'], rfl, by decide +kernel, by decide +kernel⟩⟩, rfl⟩
  have hold : Heredoc.Holds ⟨7, ['B'], true, false, false⟩ ["  b".toList] [] twoAfter :=
    ⟨by decide +kernel, .inl rfl⟩
  have hnew : Heredoc.Holds ⟨7, ['B'], true, false, false⟩ ["\té".toList,
      " #\x7bq\x7d".toList] [] twoAfter :=
    ⟨by decide +kernel, .inl rfl⟩
  have hstops : Heredoc.Stops ⟨7, ['B'], true, false, false⟩ twoAfter :=
    .inr ⟨"  B".toList, "\nx\n".toList, rfl, by decide +kernel, by decide +kernel, .inr rfl⟩
  exact .heredoc hreached rfl hbodies hold hnew (by decide +kernel) hstops

theorem scan?_twoOld : scan? (twoBefore ++ twoOld ++ twoAfter) = some twoTokens := by decide +kernel

theorem twoTokens_follow_exchange : Exchange twoBefore twoOld twoNew twoAfter (some 7) ∧
    scan? (twoBefore ++ twoOld ++ twoAfter) = some twoTokens ∧
    ∃ tokens', scan? (twoBefore ++ twoNew ++ twoAfter) = some tokens' ∧
      List.Forall₂ (Edit.Follows ⟨byteLength twoBefore, twoOld, twoNew, some 7⟩) twoTokens tokens' :=
  ⟨exchange_twoNew, scan?_twoOld, tokens_follow_exchange exchange_twoNew scan?_twoOld⟩

end CookbookAtlas.Token
