import CookbookAtlas.Proofs.Token.Lexemes
import Mathlib.Data.List.Forall2

/-! Tokens cover a source text. Each token owns the text of its span, and what stands between two
tokens, or behind the last one, is text that leaves no token. After a newline the bodies of the
heredocs that its line opens come first. -/
namespace CookbookAtlas
namespace Token

open List Text
variable {c : Char} {kind : Kind} {lexeme : Lexeme} {cs passed rest text : List Char} {docs : List Heredoc}
  {tokens : List Token} {width : Nat} {doc : Option Heredoc} {s : Scan} {t u : Token}

/-- The bodies of heredocs, one after another, with the lines that end them. -/
def BodiesOf : List Heredoc → List Char → List Char → Prop
  | [], text, _ => text = []
  | h :: docs, text, after =>
    ∃ first more, text = first ++ more ∧ LinesThrough h.isTerminator first (more ++ after) ∧
      BodiesOf docs more after

namespace Scan

theorem readBodies_cons {h : Heredoc} {out : List Token}
    (hread : readBodies? tokens (h :: docs) cs = some (out, width)) :
    ∃ content more, h.readContent? cs = some content ∧
      readBodies? (fill tokens h.start (.string (String.ofList content.value) content.interpolated)) docs
        (cs.drop content.width) = some (out, more) ∧ width = content.width + more := by
  rw [readBodies?] at hread
  split at hread
  · cases hread
  · rename_i content hcontent
    dsimp only at hread
    split at hread
    · cases hread
    · rename_i tokens' more hmore
      cases hread
      exact ⟨content, more, hcontent, hmore, rfl⟩

theorem readContent_lines {h : Heredoc} {content : Heredoc.Content}
    (hread : h.readContent? cs = some content) :
    content.width ≤ cs.length ∧ LinesThrough h.isTerminator (cs.take content.width) (cs.drop content.width) := by
  obtain ⟨n, hn, hwidth, hlines⟩ := h.readLines_lines [] [] 0 cs (by simp)
  have hcontent : content.width = n := by
    rw [Heredoc.readContent?] at hread
    obtain ⟨body, -, rfl⟩ := Option.map_eq_some_iff.mp hread
    simpa using hwidth
  rw [hcontent]
  exact ⟨hn, hlines⟩

theorem readBodies_lines {out : List Token}
    (hread : readBodies? tokens docs cs = some (out, width)) :
    width ≤ cs.length ∧ BodiesOf docs (cs.take width) (cs.drop width) := by
  induction docs generalizing tokens cs width with
  | nil =>
    cases hread
    exact ⟨Nat.zero_le _, rfl⟩
  | cons h docs ih =>
    obtain ⟨content, more, hcontent, hrest, rfl⟩ := readBodies_cons hread
    obtain ⟨hwidth, hlines⟩ := readContent_lines hcontent
    obtain ⟨hmore, hbodies⟩ := ih hrest
    rw [length_drop] at hmore
    refine ⟨by omega, cs.take content.width, (cs.drop content.width).take more, take_add, ?_, ?_⟩
    · rwa [← drop_drop, take_append_drop]
    · rwa [← drop_drop]

end Scan

def Scan.found (s : Scan) (kind : Kind) (text : List Char) : Token :=
  ⟨kind, s.place.line, s.place.offset, (s.place.past text).offset⟩

/-- One lexeme, and the bodies of heredocs if it ends a line that opens some. -/
def Scan.step? (s : Scan) (c : Char) (cs : List Char) : Option (Scan × List Char) :=
  let lexeme := readLexeme s.last s.place.fresh s.place.offset c cs
  let t := s.take lexeme (c :: cs.take lexeme.width)
  let rest := cs.drop lexeme.width
  if lexeme.kind = some .newline ∧ !t.pending.isEmpty then
    (Scan.readBodies? t.tokens t.pending rest).map fun (tokens, width) =>
      (⟨t.place.past (rest.take width), tokens, []⟩, rest.drop width)
  else some (t, rest)

theorem scanFrom_cons (s : Scan) (c : Char) (cs : List Char) :
    scanFrom s (c :: cs) = (s.step? c cs).bind fun next => scanFrom next.1 next.2 := by
  rw [scanFrom, Scan.step?]
  dsimp only
  split
  · cases Scan.readBodies? (s.take (readLexeme s.last s.place.fresh s.place.offset c cs) _).tokens _ _ <;> rfl
  · rfl

/-- What one step does with the next characters of a text: it passes text that leaves no token, adds
a token, or adds a newline and fills in the heredocs of the line. -/
inductive Scan.Step (s : Scan) (passed : List Char) : List Char → List Char → Scan → Prop
  | skip {text rest : List Char} (hne : text ≠ []) (hskips : Skips passed rest text) :
    Step s passed text rest ⟨s.place.past text, s.tokens, s.pending⟩
  | token {text rest : List Char} {kind : Kind} {doc : Option Heredoc} (hne : text ≠ []) (hspells :
    kind.Spells text)
    (hopens : Opens kind s.place.offset text doc) (hpending : kind = .newline → s.pending = []) :
    Step s passed text rest ⟨s.place.past text, s.found kind text :: s.tokens, s.pending ++ doc.toList⟩
  | bodies {text rest : List Char} {tokens : List Token} (hpending : s.pending ≠ [])
    (hread : readBodies? (s.found .newline ['\n'] :: s.tokens) s.pending (text ++ rest) =
      some (tokens, text.length)) :
    Step s passed ('\n' :: text) rest ⟨s.place.past ('\n' :: text), tokens, []⟩

theorem Opens.eq_none {start : Nat} (h : Opens kind start text doc)
    (hkind : kind.isString = false) : doc = none := by
  cases doc with
  | none => rfl
  | some h' => exact absurd h.1 (by simp [hkind])

namespace Scan

theorem take_of_kind (h : lexeme.kind = some kind) (text : List Char) :
    s.take lexeme text = ⟨s.place.past text, s.found kind text :: s.tokens,
    s.pending ++ lexeme.heredoc.toList⟩ := by
  simp [take, h, found]

theorem step?_skip (h : readLexeme s.last s.place.fresh s.place.offset c cs = .skip width) :
    s.step? c cs = some (⟨s.place.past (c :: cs.take width), s.tokens, s.pending⟩, cs.drop width) := by
  simp [step?, h, take, Lexeme.skip]

theorem step?_token (h : readLexeme s.last s.place.fresh s.place.offset c cs = lexeme)
    (hkind : lexeme.kind = some kind)
    (hpending : kind = .newline → s.pending ++ lexeme.heredoc.toList = []) :
    s.step? c cs = some (⟨s.place.past (c :: cs.take lexeme.width),
    s.found kind (c :: cs.take lexeme.width) :: s.tokens,
      s.pending ++ lexeme.heredoc.toList⟩, cs.drop lexeme.width) := by
  rw [step?, h, take_of_kind hkind]
  refine if_neg ?_
  rintro ⟨hnewline, hsome⟩
  rw [hkind, Option.some.injEq] at hnewline
  simp [hpending hnewline] at hsome

theorem step?_bodies (h : readLexeme s.last s.place.fresh s.place.offset c cs = lexeme)
    (hkind : lexeme.kind = some .newline)
    (htext : c :: cs.take lexeme.width = ['\n']) (hdoc : lexeme.heredoc = none)
    (hpending : s.pending ≠ []) :
    s.step? c cs = (readBodies? (s.found .newline ['\n'] :: s.tokens) s.pending
      (cs.drop lexeme.width)).map fun read =>
      (⟨s.place.past ('\n' :: (cs.drop lexeme.width).take read.2), read.1, []⟩,
      (cs.drop lexeme.width).drop read.2) := by
  rw [step?, h, take_of_kind hkind, hdoc, Option.toList_none, append_nil, htext]
  exact if_pos ⟨hkind, by simpa using hpending⟩

theorem step_of_step? {t : Scan} (hfresh : s.place.fresh = true → AtLineStart passed)
    (h : s.step? c cs = some (t, rest)) :
    ∃ text, c :: cs = text ++ rest ∧ s.Step passed text rest t := by
  rcases readLexeme_cases s.last s.place.fresh s.place.offset c cs hfresh with
    ⟨kind, htells⟩ | ⟨width, -, hskip, hskips⟩
  · generalize hlexeme : readLexeme s.last s.place.fresh s.place.offset c cs = lexeme at htells
    obtain ⟨hkind, -, hspells, hopens⟩ := htells
    have hsplit : c :: cs = (c :: cs.take lexeme.width) ++ cs.drop lexeme.width := by
      rw [cons_append, take_append_drop]
    by_cases hbodies : kind = .newline ∧ s.pending ≠ []
    · obtain ⟨rfl, hpending⟩ := hbodies
      have htext : c :: cs.take lexeme.width = ['\n'] := hspells
      rw [step?_bodies hlexeme hkind htext (hopens.eq_none rfl) hpending] at h
      obtain ⟨⟨tokens, width⟩, hread, heq⟩ := Option.map_eq_some_iff.mp h
      obtain ⟨hwidth, -⟩ := readBodies_lines hread
      cases heq
      refine ⟨'\n' :: (cs.drop lexeme.width).take width, ?_, .bodies hpending ?_⟩
      · rw [hsplit, htext, cons_append, cons_append, take_append_drop, nil_append]
      · rwa [take_append_drop, length_take, Nat.min_eq_left hwidth]
    · have hnone : kind = .newline → s.pending = [] := fun hk => by simpa [hk] using hbodies
      have hempty : kind = .newline → s.pending ++ lexeme.heredoc.toList = [] := by
        rintro rfl
        rw [hnone rfl, hopens.eq_none rfl]
        rfl
      rw [step?_token hlexeme hkind hempty] at h
      cases h
      exact ⟨c :: cs.take lexeme.width, hsplit, .token (by simp) hspells hopens hnone⟩
  · rw [step?_skip hskip] at h
    cases h
    refine ⟨c :: cs.take width, ?_, .skip (by simp) hskips⟩
    rw [cons_append, take_append_drop]

end Scan

/-- Pieces that leave no token, one after another. -/
inductive Filled (before : List Char) : List Char → List Char → Prop
  | nil {after : List Char} : Filled before [] after
  | snoc {filler piece after : List Char} (h : Filled before filler (piece ++ after))
    (hpiece : Skips (before ++ filler) after piece) : Filled before (filler ++ piece) after

def endOf : List Token → Nat
  | [] => 0
  | t :: _ => t.stop

def openLine (tokens : List Token) : List Token := tokens.takeWhile fun t => !t.isNewline

/-- The line that the last token ends; nothing if it ends none. -/
def lineEnded : List Token → List Token
  | [] => []
  | t :: tokens => if t.isNewline then openLine tokens else []

/-- The heredocs that tokens open, in the order of their openers. -/
def Opened (source : List Char) : List Token → List Heredoc → Prop
  | [], docs => docs = []
  | t :: tokens, docs => ∃ earlier doc, docs = earlier ++ doc.toList ∧
    Opens t.kind t.start (slice source t.start t.stop) doc ∧ Opened source tokens earlier

def Told (source : List Char) (t : Token) : Prop :=
  ∃ before text after, source = before ++ text ++ after ∧ text ≠ [] ∧ t.start = byteLength before ∧
    t.stop = byteLength before + byteLength text ∧ t.kind.Spells text

/-- The text from the last of the tokens to the offset `stop`: the bodies of the heredocs on the
line that ends there, then text that leaves no token. -/
def Gap (source : List Char) (tokens : List Token) (stop : Nat) : Prop :=
  ∃ before bodies filler after docs, source = before ++ bodies ++ filler ++ after ∧
    byteLength before = endOf tokens ∧ byteLength (before ++ bodies ++ filler) = stop ∧
    Opened source (lineEnded tokens) docs ∧ BodiesOf docs bodies (filler ++ after) ∧
      Filled (before ++ bodies) filler after

def Layout (source : List Char) : List Token → Prop
  | [] => True
  | t :: tokens => Told source t ∧ Gap source tokens t.start ∧ Layout source tokens

section
variable {source : List Char} {tokens out : List Token}

theorem byteLength_pos (h : text ≠ []) : 0 < byteLength text := by
  cases text with
  | nil => exact absurd rfl h
  | cons c cs =>
    have hc := c.utf8Size_pos
    rw [byteLength_cons]
    omega

theorem eq_of_byteLength {xs ys xs' ys' : List Char} (h : xs ++ ys = xs' ++ ys')
    (hlength : byteLength xs = byteLength xs') : xs = xs' ∧ ys = ys' := by
  have hxs : xs = xs' := by rw [← takeBytes_append xs ys, h, hlength, takeBytes_append]
  subst hxs
  exact ⟨rfl, append_cancel_left h⟩

theorem Told.start_lt (h : Told source t) : t.start < t.stop := by
  obtain ⟨before, text, after, -, hne, hstart, hstop, -⟩ := h
  have hpos := byteLength_pos hne
  omega

theorem Gap.endOf_le {stop : Nat} (h : Gap source tokens stop) : endOf tokens ≤ stop := by
  obtain ⟨before, bodies, filler, after, docs, -, hend, rfl, -⟩ := h
  rw [← hend, append_assoc, byteLength_append]
  exact Nat.le_add_right _ _

theorem Layout.stop_le (h : Layout source tokens) : ∀ t ∈ tokens, t.stop ≤ endOf tokens := by
  induction tokens with
  | nil => simp
  | cons u tokens ih =>
    obtain ⟨htold, hgap, hrest⟩ := h
    intro t ht
    rcases mem_cons.mp ht with rfl | ht
    · exact Nat.le_refl _
    · calc t.stop ≤ endOf tokens := ih hrest t ht
        _ ≤ u.start := hgap.endOf_le
        _ ≤ u.stop := Nat.le_of_lt htold.start_lt

theorem Layout.pairwise (h : Layout source tokens) :
    tokens.Pairwise fun t u => u.stop ≤ t.start := by
  induction tokens with
  | nil => exact .nil
  | cons t tokens ih =>
    obtain ⟨-, hgap, hrest⟩ := h
    exact .cons (fun u hu => Nat.le_trans (hrest.stop_le u hu) hgap.endOf_le) (ih hrest)

theorem Layout.told (h : Layout source tokens) : ∀ t ∈ tokens, Told source t := by
  induction tokens with
  | nil => simp
  | cons u tokens ih =>
    intro t ht
    rcases mem_cons.mp ht with rfl | ht
    · exact h.1
    · exact ih h.2.2 t ht

theorem Layout.eq_of_start (h : Layout source tokens) (ht : t ∈ tokens) (hu : u ∈ tokens)
    (heq : t.start = u.start) : t = u := by
  induction tokens with
  | nil => simp at ht
  | cons v tokens ih =>
    have hrest := h.2.2
    have hbelow : ∀ w ∈ tokens, w.start < v.start := fun w hw =>
      Nat.lt_of_lt_of_le (hrest.told w hw).start_lt ((pairwise_cons.mp h.pairwise).1 w hw)
    rcases mem_cons.mp ht with rfl | ht'
    · rcases mem_cons.mp hu with rfl | hu'
      · rfl
      · exact absurd heq (Nat.ne_of_gt (hbelow u hu'))
    · rcases mem_cons.mp hu with rfl | hu'
      · exact absurd heq (Nat.ne_of_lt (hbelow t ht'))
      · exact ih hrest ht' hu'

theorem Layout.gap_of_append {front back : List Token} (h : Layout source (back ++ t :: front)) :
    Gap source front t.start := by
  induction back with
  | nil => exact h.2.1
  | cons u back ih => exact ih h.2.2

theorem Opened.exists_opener (h : Opened source tokens docs) {doc : Heredoc} (hdoc : doc ∈ docs) :
    ∃ t ∈ tokens, t.start = doc.start ∧ t.kind.isString = true := by
  induction tokens generalizing docs with
  | nil =>
    obtain rfl : docs = [] := h
    simp at hdoc
  | cons t tokens ih =>
    obtain ⟨earlier, new, rfl, hopens, hrest⟩ := h
    rcases mem_append.mp hdoc with hdoc | hdoc
    · obtain ⟨u, hu, hopener⟩ := ih hrest hdoc
      exact ⟨u, mem_cons_of_mem t hu, hopener⟩
    · obtain rfl : new = some doc := by simpa using hdoc
      exact ⟨t, mem_cons_self, hopens.2.1.symm, hopens.1⟩

structure Alike (t u : Token) : Prop where
  start : t.start = u.start
  stop : t.stop = u.stop
  kind : t.kind = u.kind ∨ t.kind.isString = true ∧ u.kind.isString = true

theorem Alike.refl (t : Token) : Alike t t := ⟨rfl, rfl, .inl rfl⟩

theorem Alike.isString (h : Alike t u) : t.kind.isString = u.kind.isString := by
  rcases h.kind with hkind | ⟨ht, hu⟩
  · rw [hkind]
  · rw [ht, hu]

theorem Alike.trans {v : Token} (h : Alike t u) (h' : Alike u v) : Alike t v := by
  refine ⟨h.start.trans h'.start, h.stop.trans h'.stop, ?_⟩
  have hstring := h.isString
  have hstring' := h'.isString
  rcases h.kind with hkind | ⟨ht, hu⟩
  · rw [hkind]
    exact h'.kind
  · exact .inr ⟨ht, by rw [← hstring', hu]⟩

theorem eq_string_of_isString (h : kind.isString = true) :
    ∃ value interpolated, kind = .string value interpolated := by
  cases kind with
  | string value interpolated => exact ⟨value, interpolated, rfl⟩
  | _ => cases h

theorem isNewline_of_isString (h : t.kind.isString = true) : t.isNewline = false := by
  obtain ⟨value, interpolated, hkind⟩ := eq_string_of_isString h
  simp [isNewline, hkind]

theorem Alike.isNewline (h : Alike t u) : t.isNewline = u.isNewline := by
  rcases h.kind with hkind | ⟨ht, hu⟩
  · simp only [Token.isNewline, hkind]
  · rw [isNewline_of_isString ht, isNewline_of_isString hu]

theorem Alike.spells (h : Alike t u) (hspells : t.kind.Spells text) : u.kind.Spells text := by
  rcases h.kind with hkind | ⟨ht, hu⟩
  · rwa [← hkind]
  · obtain ⟨value, interpolated, hvalue⟩ := eq_string_of_isString ht
    obtain ⟨value', interpolated', hvalue'⟩ := eq_string_of_isString hu
    rw [hvalue] at hspells
    rw [hvalue']
    exact hspells

theorem Alike.opens (h : Alike t u) {start : Nat} (hopens : Opens t.kind start text doc) :
    Opens u.kind start text doc := by
  cases doc with
  | none | some doc => rwa [Opens, ← h.isString]

theorem Told.alike (h : Told source t) (htu : Alike t u) : Told source u := by
  obtain ⟨before, text, after, hsource, hne, hstart, hstop, hspells⟩ := h
  exact ⟨before, text, after, hsource, hne, htu.start ▸ hstart, htu.stop ▸ hstop, htu.spells hspells⟩

theorem endOf_alike (h : List.Forall₂ Alike tokens out) : endOf tokens = endOf out := by
  cases h with
  | nil => rfl
  | cons htu _ => exact htu.stop

theorem openLine_alike (h : List.Forall₂ Alike tokens out) :
    List.Forall₂ Alike (openLine tokens) (openLine out) := by
  induction h with
  | nil => exact .nil
  | @cons t u tokens out htu _ ih =>
    have hnewline := htu.isNewline
    by_cases ht : t.isNewline = true
    · simp [openLine, ht, ← hnewline]
    · simpa [openLine, ht, ← hnewline] using ⟨htu, ih⟩

theorem lineEnded_alike (h : List.Forall₂ Alike tokens out) :
    List.Forall₂ Alike (lineEnded tokens) (lineEnded out) := by
  cases h with
  | nil => exact .nil
  | cons htu hrest =>
    rw [lineEnded, lineEnded, htu.isNewline]
    split
    · exact openLine_alike hrest
    · exact .nil

theorem Opened.alike (h : Opened source tokens docs) (hout : List.Forall₂ Alike tokens out) :
    Opened source out docs := by
  induction hout generalizing docs with
  | nil => exact h
  | cons htu _ ih =>
    obtain ⟨earlier, doc, hdocs, hopens, hrest⟩ := h
    refine ⟨earlier, doc, hdocs, ?_, ih hrest⟩
    rw [← htu.start, ← htu.stop]
    exact htu.opens hopens

theorem Gap.alike {stop : Nat} (h : Gap source tokens stop) (hout : List.Forall₂ Alike tokens out) :
    Gap source out stop := by
  obtain ⟨before, bodies, filler, after, docs, hsource, hend, hstop, hopened, hrest⟩ := h
  exact ⟨before, bodies, filler, after, docs, hsource, hend.trans (endOf_alike hout), hstop,
    hopened.alike (lineEnded_alike hout), hrest⟩

theorem Layout.alike (h : Layout source tokens) (hout : List.Forall₂ Alike tokens out) :
    Layout source out := by
  induction hout with
  | nil => trivial
  | cons htu hrest ih => exact ⟨h.1.alike htu, htu.start ▸ h.2.1.alike hrest, ih h.2.2⟩

theorem alike_trans {middle : List Token} (h : List.Forall₂ Alike tokens middle)
    (h' : List.Forall₂ Alike middle out) : List.Forall₂ Alike tokens out := by
  induction h generalizing out with
  | nil => exact h'
  | cons htu _ ih =>
    cases h' with
    | cons huv hrest => exact .cons (htu.trans huv) (ih hrest)

/-- Every token at the offset is a string, so filling it in keeps the tokens alike. -/
theorem fill_alike {start : Nat} (value : String) (interpolated : Bool)
    (hstring : ∀ t ∈ tokens, t.start = start → t.kind.isString = true) :
    List.Forall₂ Alike tokens (Scan.fill tokens start (.string value interpolated)) := by
  rw [Scan.fill, forall₂_map_right_iff, forall₂_same]
  intro t ht
  split
  · exact ⟨rfl, rfl, .inr ⟨hstring t ht ‹_›, rfl⟩⟩
  · exact Alike.refl t

theorem readBodies_alike (hread : Scan.readBodies? tokens docs cs = some (out, width))
    (hstring : ∀ doc ∈ docs, ∀ t ∈ tokens, t.start = doc.start → t.kind.isString = true) :
    List.Forall₂ Alike tokens out := by
  induction docs generalizing tokens cs width with
  | nil =>
    cases hread
    exact forall₂_same.mpr fun t _ => Alike.refl t
  | cons h docs ih =>
    obtain ⟨content, more, -, hrest, -⟩ := Scan.readBodies_cons hread
    have hfill := fill_alike (String.ofList content.value) content.interpolated (hstring h mem_cons_self)
    refine alike_trans hfill (ih hrest ?_)
    intro doc hdoc u hu heq
    obtain ⟨t, ht, rfl⟩ := mem_map.mp hu
    by_cases hstart : t.start = h.start
    · rw [if_pos hstart]
      rfl
    · rw [if_neg hstart] at heq ⊢
      exact hstring doc (mem_cons_of_mem h hdoc) t ht heq

end

/-- The state of a scan that has passed `passed` of a source text. -/
structure Scan.Laid (source : List Char) (s : Scan) (passed rest : List Char) : Prop where
  source_eq : source = passed ++ rest
  place_eq : s.place = Place.start.past passed
  layout : Layout source s.tokens
  gap : Gap source s.tokens s.place.offset
  pending : Opened source (openLine s.tokens) s.pending

theorem fresh_past (passed : List Char) (h : (Place.start.past passed).fresh = true) :
    AtLineStart passed := by
  induction passed using List.reverseRecOn with
  | nil => exact .inl rfl
  | append_singleton passed c _ =>
    rw [Place.past_append] at h
    have hc : c = '\n' := by simpa [Place.past, Place.next] using h
    exact .inr (by simp [hc])

namespace Scan
namespace Laid
variable {source passed text rest : List Char} {s t : Scan}

theorem offset_eq (h : s.Laid source passed rest) : s.place.offset = byteLength passed := by
  rw [h.place_eq, Place.offset_past]
  exact Nat.zero_add _

theorem fresh (h : s.Laid source passed rest) (hfresh : s.place.fresh = true) :
    AtLineStart passed :=
  fresh_past passed (h.place_eq ▸ hfresh)

theorem offset_past (h : s.Laid source passed rest) (text : List Char) :
    (s.place.past text).offset = byteLength passed + byteLength text := by
  rw [Place.offset_past, h.offset_eq]

theorem place_past (h : s.Laid source passed rest) (text : List Char) :
    s.place.past text = Place.start.past (passed ++ text) := by
  rw [h.place_eq, Place.past_append]

theorem slice_found (h : s.Laid source passed (text ++ rest)) (kind : Kind) :
    slice source (s.found kind text).start (s.found kind text).stop = text := by
  rw [found, h.offset_eq, h.offset_past, h.source_eq, ← append_assoc]
  exact slice_append passed text rest

theorem layout_found (h : s.Laid source passed (text ++ rest)) (kind : Kind) (hne : text ≠ [])
    (hspells : kind.Spells text) : Layout source (s.found kind text :: s.tokens) := by
  refine ⟨⟨passed, text, rest, ?_, hne, h.offset_eq, h.offset_past text, hspells⟩, h.gap, h.layout⟩
  rw [h.source_eq, append_assoc]

theorem skip (h : s.Laid source passed (text ++ rest)) (hskips : Skips passed rest text) :
    Laid source ⟨s.place.past text, s.tokens, s.pending⟩ (passed ++ text) rest := by
  obtain ⟨before, bodies, filler, after, docs, hsource, hend, hstop, hopened, hbodies, hfilled⟩ :=
    h.gap
  obtain ⟨hpassed, hafter⟩ := eq_of_byteLength (h.source_eq.symm.trans hsource)
    (h.offset_eq.symm.trans hstop.symm)
  subst hafter
  refine ⟨?_, h.place_past text, h.layout, ?_, h.pending⟩
  · rw [h.source_eq, append_assoc]
  · refine ⟨before, bodies, filler ++ text, rest, docs, ?_, hend, ?_, hopened, ?_,
      .snoc hfilled (hpassed ▸ hskips)⟩
    · rw [hsource]
      simp only [append_assoc]
    · rw [h.offset_past, hpassed, ← append_assoc, byteLength_append _ text]
    · rwa [append_assoc]

theorem gap_found (h : s.Laid source passed (text ++ rest))
    (hpending : kind = .newline → s.pending = []) :
    Gap source (s.found kind text :: s.tokens) (s.place.past text).offset := by
  refine ⟨passed ++ text, [], [], rest, [], ?_, ?_, ?_, ?_, rfl, .nil⟩
  · rw [h.source_eq]
    simp
  · rw [endOf, found, h.offset_past, byteLength_append]
  · rw [h.offset_past, append_nil, append_nil, byteLength_append]
  · rw [lineEnded]
    split
    · rename_i hnewline
      have hkind : kind = .newline := by simpa [isNewline, found] using hnewline
      rw [← hpending hkind]
      exact h.pending
    · rfl

theorem token (h : s.Laid source passed (text ++ rest)) (hne : text ≠ [])
    (hspells : kind.Spells text)
    (hopens : Opens kind s.place.offset text doc) (hpending : kind = .newline → s.pending = []) :
    Laid source ⟨s.place.past text, s.found kind text :: s.tokens,
    s.pending ++ doc.toList⟩ (passed ++ text) rest := by
  refine ⟨?_, h.place_past text, h.layout_found kind hne hspells, h.gap_found hpending, ?_⟩
  · rw [h.source_eq, append_assoc]
  · by_cases hkind : kind = .newline
    · subst hkind
      rw [hpending rfl, hopens.eq_none rfl]
      simp [openLine, isNewline, found, Opened]
    · have hline : openLine (s.found kind text :: s.tokens) = s.found kind text :: openLine s.tokens := by
        simp [openLine, isNewline, found, hkind]
      rw [hline]
      refine ⟨s.pending, doc, rfl, ?_, h.pending⟩
      rw [h.slice_found]
      exact hopens

theorem bodies (h : s.Laid source passed ('\n' :: text ++ rest))
    (hread : readBodies? (s.found .newline ['\n'] :: s.tokens) s.pending (text ++ rest) =
    some (tokens, text.length)) :
    Laid source ⟨s.place.past ('\n' :: text), tokens, []⟩ (passed ++ '\n' :: text) rest := by
  have hnewline : s.Laid source passed (['\n'] ++ (text ++ rest)) := h
  have hlayout := hnewline.layout_found .newline (by simp) rfl
  have halike : List.Forall₂ Alike (s.found .newline ['\n'] :: s.tokens) tokens := by
    refine readBodies_alike hread fun doc hdoc u hu heq => ?_
    obtain ⟨opener, hmem, hstart, hstring⟩ := h.pending.exists_opener hdoc
    have hopener : opener ∈ s.found .newline ['\n'] :: s.tokens :=
      mem_cons_of_mem _ (takeWhile_subset _ hmem)
    rwa [hlayout.eq_of_start hu hopener (heq.trans hstart.symm)]
  obtain ⟨-, hbodies⟩ := readBodies_lines hread
  rw [take_left, drop_left] at hbodies
  refine ⟨?_, h.place_past _, hlayout.alike halike, ?_, ?_⟩
  · rw [h.source_eq, append_assoc]
  · refine Gap.alike ?_ halike
    refine ⟨passed ++ ['\n'], text, [], rest, s.pending, ?_, ?_, ?_, h.pending, hbodies, .nil⟩
    · rw [h.source_eq]
      simp
    · rw [endOf, found, hnewline.offset_past, byteLength_append]
    · rw [h.offset_past]
      simp
  · refine Opened.alike ?_ (openLine_alike halike)
    exact rfl

theorem step (h : s.Laid source passed (text ++ rest)) (hstep : s.Step passed text rest t) :
    t.Laid source (passed ++ text) rest := by
  cases hstep with
  | skip _ hskips => exact h.skip hskips
  | token hne hspells hopens hpending => exact h.token hne hspells hopens hpending
  | bodies _ hread => exact h.bodies hread

end Laid

theorem Step.ne_nil {t : Scan} (h : s.Step passed text rest t) : text ≠ [] := by
  cases h with
  | skip hne | token hne => exact hne
  | bodies => simp

theorem laid_start (source : List Char) : start.Laid source [] source :=
  ⟨rfl, rfl, trivial, ⟨[], [], [], source, [], rfl, rfl, rfl, rfl, rfl, .nil⟩, rfl⟩

theorem laid_of_scanFrom {source : List Char} (hs : s.Laid source passed rest)
    (h : scanFrom s rest = some tokens) :
    ∃ last, Laid source last source [] ∧ tokens = last.tokens.reverse := by
  induction hlength : rest.length using Nat.strongRecOn generalizing s passed rest with
  | ind length ih =>
    cases rest with
    | nil =>
      rw [scanFrom, Option.some.injEq] at h
      have hpassed : source = passed := by rw [hs.source_eq, append_nil]
      exact ⟨s, hpassed ▸ hs, h.symm⟩
    | cons c cs =>
      rw [scanFrom_cons] at h
      obtain ⟨⟨t, rest⟩, hstep, hrest⟩ := Option.bind_eq_some_iff.mp h
      obtain ⟨text, htext, hstep⟩ := step_of_step? hs.fresh hstep
      rw [htext] at hs hlength
      have hpos := length_pos_iff.mpr hstep.ne_nil
      rw [length_append] at hlength
      exact ih rest.length (by omega) (hs.step hstep) hrest rfl

end Scan

theorem spans_of_scan? {source : List Char} (h : scan? source = some tokens) :
    (∀ t ∈ tokens, Told source t) ∧ tokens.Pairwise fun t u => t.stop ≤ u.start := by
  obtain ⟨last, hlaid, rfl⟩ := Scan.laid_of_scanFrom (Scan.laid_start source) h
  exact ⟨fun t ht => hlaid.layout.told t (mem_reverse.mp ht),
    pairwise_reverse.mpr hlaid.layout.pairwise⟩

/-- Every token owns the text of its span, spelled as its kind says, and all other text is filler:
between two neighbours, before the first token and behind the last one stand only the bodies of
heredocs opened on the line that just ended, blanks, joined lines, comments and the tail behind the
end mark. -/
theorem tokens_cover_source {source : List Char} {tokens : List Token}
    (h : scan? source = some tokens) : (∀ t ∈ tokens, Told source t) ∧
      ∀ front back, tokens = front ++ back →
        Gap source front.reverse ((back.head?.map Token.start).getD (byteLength source)) := by
  refine ⟨(spans_of_scan? h).1, ?_⟩
  intro front back hsplit
  obtain ⟨last, hlaid, rfl⟩ := Scan.laid_of_scanFrom (Scan.laid_start source) h
  have htokens : last.tokens = back.reverse ++ front.reverse := by
    rw [← reverse_append, ← hsplit, reverse_reverse]
  cases back with
  | nil =>
    have hgap := hlaid.gap
    rw [hlaid.offset_eq, htokens] at hgap
    exact hgap
  | cons t back =>
    have hlayout := hlaid.layout
    rw [htokens, reverse_cons, append_assoc, singleton_append] at hlayout
    exact hlayout.gap_of_append

/-- A comment, a heredoc whose line is joined with the next one, a comment block and an end mark. -/
def patchwork : List Char := "# a\nx <<~A, \\\n :b\n  é\n A\n=begin\n=end\nk: 1\n__END__\n?".toList

def patchworkTokens : List Token :=
  [⟨.newline, 1, 3, 4⟩, ⟨.ident "x", 2, 4, 5⟩, ⟨.string "é" false, 2, 6, 10⟩, ⟨.comma, 2, 10, 11⟩,
    ⟨.symbol "b", 3, 15, 17⟩,
    ⟨.newline, 3, 17, 18⟩, ⟨.label "k", 8, 38, 40⟩, ⟨.number "1", 8, 41, 42⟩, ⟨.newline, 8, 42, 43⟩]

theorem scan?_patchwork : scan? patchwork = some patchworkTokens := by decide +kernel

theorem patchwork_covered :
    scan? patchwork = some patchworkTokens ∧ (∀ t ∈ patchworkTokens, Told patchwork t) ∧
    ∀ front back, patchworkTokens = front ++ back →
      Gap patchwork front.reverse ((back.head?.map Token.start).getD (byteLength patchwork)) :=
  ⟨scan?_patchwork, tokens_cover_source scan?_patchwork⟩

end Token
end CookbookAtlas
