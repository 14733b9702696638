import CookbookAtlas.Proofs.Token.Locality

/-! One text met at two places. Two scans that stand before the same text, and whose last tokens ask
for the same lexemes, find the same tokens in it, moved by the distance of their places. Heredocs
that are still open at the meeting point are filled in alike. -/
namespace CookbookAtlas.Token

open List
variable {cs rest : List Char} {ps : List Piece} {tokens tokens' : List Token} {count : Nat} {p : Place}

namespace Place

theorem fresh_past_eq {q : Place} (h : cs = [] → q.fresh = p.fresh) :
    (q.past cs).fresh = (p.past cs).fresh := by
  induction cs using List.reverseRecOn with
  | nil => exact h rfl
  | append_singleton cs c _ => rw [past_append, past_append]; rfl

end Place

theorem readOperator_heredoc (c : Char) (cs : List Char) : (readOperator c cs).heredoc = none := by
  rw [readOperator]
  split <;> rfl

theorem readPunctuation_heredoc (c : Char) (cs : List Char) :
    (readPunctuation c cs).heredoc = none := by
  rw [readPunctuation]
  split
  · rfl
  · dsimp only
    repeat' split
    all_goals first | rfl | exact readOperator_heredoc c cs

theorem readName_heredoc (cs : List Char) : (readName cs).heredoc = none := by
  rw [readName]
  repeat' split
  all_goals rfl

theorem readColon_heredoc (cs : List Char) : (readColon cs).heredoc = none := by
  cases cs with
  | nil => rfl
  | cons c cs =>
    rw [readColon]
    split
    · rfl
    split
    · rfl
    split
    · rfl
    · exact readOperator_heredoc ':' (c :: cs)

theorem readPercentBody_heredoc (letter mark : Char) (before : Nat) (cs : List Char) :
    (readPercentBody letter mark before cs).heredoc = none := by
  rw [readPercentBody]
  repeat' split
  all_goals rfl

theorem readPercent_heredoc (cs : List Char) : (readPercent cs).heredoc = none := by
  match cs with
  | [] => rfl
  | [c] => exact readPercentBody_heredoc 'Q' c 1 []
  | c :: d :: cs =>
    rw [readPercent]
    split
    · exact readPercentBody_heredoc c d 2 cs
    · exact readPercentBody_heredoc 'Q' c 1 (d :: cs)

def Heredoc.movedTo (start : Nat) (h : Heredoc) : Heredoc := { h with start := start }

def Lexeme.movedTo (start : Nat) (l : Lexeme) : Lexeme :=
  { l with heredoc := l.heredoc.map (Heredoc.movedTo start) }

theorem Lexeme.movedTo_of_none {l : Lexeme} (h : l.heredoc = none) (start : Nat) :
    l.movedTo start = l := by
  cases l
  cases h
  rfl

/-- The offset of a lexeme matters to the heredoc that it opens, and to nothing else. -/
theorem readLexeme_movedTo (last : Option Kind) (fresh : Bool) (start start' : Nat) (c : Char)
    (cs : List Char) :
    readLexeme last fresh start' c cs = (readLexeme last fresh start c cs).movedTo start' := by
  have hskip : ∀ width, (Lexeme.skip width).movedTo start' = .skip width := fun _ => rfl
  have htoken : ∀ kind width, (Lexeme.token kind width).movedTo start' = .token kind width :=
    fun _ _ => rfl
  have hheredoc : ∀ ds, (readHeredoc start ds).movedTo start' = readHeredoc start' ds :=
    fun _ => rfl
  rw [readLexeme, readLexeme]
  simp only [apply_ite (Lexeme.movedTo start'), hskip, htoken, hheredoc,
    Lexeme.movedTo_of_none (readPercent_heredoc cs),
    Lexeme.movedTo_of_none (readColon_heredoc cs),
    Lexeme.movedTo_of_none (readName_heredoc (c :: cs)),
    Lexeme.movedTo_of_none (readPunctuation_heredoc c cs)]

theorem start_of_readLexeme {last : Option Kind} {fresh : Bool} {start : Nat} {c : Char}
    {doc : Heredoc} (h : doc ∈ (readLexeme last fresh start c cs).heredoc) : doc.start = start := by
  rw [readLexeme_movedTo last fresh start start] at h
  obtain ⟨doc, -, rfl⟩ := Option.map_eq_some_iff.mp h
  rfl

namespace Heredoc

theorem readLines_movedTo (h : Heredoc) (start : Nat) (line : List Char) (done : List (List Char))
    (width : Nat) (cs : List Char) :
    (h.movedTo start).readLines line done width cs = h.readLines line done width cs := by
  induction cs generalizing line done width with
  | nil => rfl
  | cons c cs ih =>
    rw [readLines, readLines, ih, ih]
    rfl

theorem readContent?_movedTo (h : Heredoc) (start : Nat) (cs : List Char) :
    (h.movedTo start).readContent? cs = h.readContent? cs := by
  rw [readContent?, readContent?, readLines_movedTo]
  rfl

end Heredoc

def AskAlike (last last' : Option Kind) : Prop :=
  ∀ fresh start c cs, readLexeme last' fresh start c cs = readLexeme last fresh start c cs

structure Frontier where
  offset : Nat
  offset' : Nat
  line : Nat
  line' : Nat

namespace Frontier
variable (f : Frontier)

/-- A token found behind the frontier, and its counterpart. -/
structure Moves (t t' : Token) : Prop where
  kind : t'.kind = t.kind
  behind : f.offset ≤ t.start
  start : t'.start + f.offset = t.start + f.offset'
  stop : t'.stop + f.offset = t.stop + f.offset'
  line : t'.line + f.line = t.line + f.line'

/-- An open heredoc and its counterpart: one of `docs`, which were open at the frontier, or one that
was opened behind it. -/
inductive MovesDoc (docs : List Heredoc) : Heredoc → Heredoc → Prop
  | kept {h : Heredoc} (hdoc : h ∈ docs) : MovesDoc docs h h
  | moved {h : Heredoc} {start : Nat} (behind : f.offset ≤ h.start) (hstart : start + f.offset =
    h.start + f.offset') :
    MovesDoc docs h (h.movedTo start)

/-- What is known of the tokens before the frontier, told by `Old`: they do start there, and it is
kept when one of the open heredocs is filled in. -/
structure Settled (Old : List Token → List Token → Prop) (docs : List Heredoc) : Prop where
  before : ∀ {old old'}, Old old old' →
    (∀ t ∈ old, t.start < f.offset) ∧ ∀ t ∈ old', t.start < f.offset'
  docs_before : ∀ h ∈ docs, h.start < f.offset ∧ h.start < f.offset'
  fill : ∀ {old old'} (kind : Kind), ∀ h ∈ docs, Old old old' →
    Old (Scan.fill old h.start kind) (Scan.fill old' h.start kind)

end Frontier

namespace Scan

theorem fill_append (xs ys : List Token) (start : Nat) (kind : Kind) :
    fill (xs ++ ys) start kind = fill xs start kind ++ fill ys start kind := map_append

theorem fill_of_forall_ne {start : Nat} (h : ∀ t ∈ tokens, t.start ≠ start) (kind : Kind) :
    fill tokens start kind = tokens := by
  rw [fill]
  refine (map_congr_left fun t ht => ?_).trans (map_id' tokens)
  exact if_neg (h t ht)

variable {f : Frontier} {Old : List Token → List Token → Prop} {docs : List Heredoc}

theorem moves_fill {new new' : List Token} {start start' : Nat}
    (hstart : start' + f.offset = start + f.offset')
    (h : List.Forall₂ f.Moves new new') (kind : Kind) :
    List.Forall₂ f.Moves (fill new start kind) (fill new' start' kind) := by
  refine forall₂_fill h (fun ht => ?_) fun ht _ => ⟨rfl, ht.behind, ht.start, ht.stop, ht.line⟩
  have := ht.start
  omega

theorem start_of_moves {new new' : List Token} (h : List.Forall₂ f.Moves new new') :
    (∀ t ∈ new, f.offset ≤ t.start) ∧ ∀ t ∈ new', f.offset' ≤ t.start := by
  induction h with
  | nil => simp
  | @cons t t' new new' ht _ ih =>
    have hstart := ht.start
    have hbehind := ht.behind
    refine ⟨forall_mem_cons.mpr ⟨hbehind, ih.1⟩, forall_mem_cons.mpr ⟨by omega, ih.2⟩⟩

/-- Tokens that two scans have found: those behind the frontier move, of those before it `Old`
holds. -/
def Paired (f : Frontier) (Old : List Token → List Token → Prop) (count : Nat)
    (tokens tokens' : List Token) : Prop :=
  ∃ new new' old old', tokens = new ++ old ∧ tokens' = new' ++ old' ∧ new.length = count ∧
    List.Forall₂ f.Moves new new' ∧ Old old old'

theorem Paired.fill (hsettled : f.Settled Old docs) (h : Paired f Old count tokens tokens')
    {doc doc' : Heredoc} (hdoc : f.MovesDoc docs doc doc') (kind : Kind) :
    Paired f Old count (fill tokens doc.start kind) (fill tokens' doc'.start kind) := by
  obtain ⟨new, new', old, old', rfl, rfl, hcount, hnew, hold⟩ := h
  obtain ⟨hbehind, hbehind'⟩ := start_of_moves hnew
  obtain ⟨hbefore, hbefore'⟩ := hsettled.before hold
  rw [fill_append, fill_append]
  cases hdoc with
  | kept hmem =>
    obtain ⟨hlt, hlt'⟩ := hsettled.docs_before doc hmem
    have hnew₁ : Scan.fill new doc.start kind = new :=
      fill_of_forall_ne (fun t ht => by have := hbehind t ht; omega) kind
    have hnew₂ : Scan.fill new' doc.start kind = new' :=
      fill_of_forall_ne (fun t ht => by have := hbehind' t ht; omega) kind
    rw [hnew₁, hnew₂]
    exact ⟨new, new', _, _, rfl, rfl, hcount, hnew, hsettled.fill kind doc hmem hold⟩
  | moved hle hstart =>
    rename_i start
    have hold₁ : Scan.fill old doc.start kind = old :=
      fill_of_forall_ne (fun t ht => by have := hbefore t ht; omega) kind
    have hold₂ : Scan.fill old' start kind = old' :=
      fill_of_forall_ne (fun t ht => by have := hbefore' t ht; omega) kind
    refine ⟨_, _, old, old', by rw [hold₁], by rw [Heredoc.movedTo, hold₂],
        ?_, moves_fill hstart hnew kind, hold⟩
    rw [Scan.fill, length_map, hcount]

theorem Paired.readBodies {out : List Token} (hsettled : f.Settled Old docs)
    (h : Paired f Old count tokens tokens')
    {pending pending' : List Heredoc} (hpending : List.Forall₂ (f.MovesDoc docs) pending pending')
    {width : Nat} (hread : readBodies? tokens pending cs = some (out, width)) :
    ∃ out', readBodies? tokens' pending' cs = some (out', width) ∧ Paired f Old count out out' := by
  induction hpending generalizing tokens tokens' cs width with
  | nil =>
    cases hread
    exact ⟨tokens', rfl, h⟩
  | @cons doc doc' pending pending' hdoc _ ih =>
    obtain ⟨content, more, hcontent, hmore, rfl⟩ := readBodies_cons hread
    have hcontent' : doc'.readContent? cs = some content := by
      cases hdoc with
      | kept => exact hcontent
      | moved => rw [Heredoc.readContent?_movedTo, hcontent]
    obtain ⟨out', hout', hpaired⟩ := ih (h.fill hsettled hdoc _) hmore
    exact ⟨out', readBodies?_cons hcontent' hout', hpaired⟩

structure Beside (f : Frontier) (Old : List Token → List Token → Prop) (docs : List Heredoc)
    (s s' : Scan) : Prop where
  fresh : s'.place.fresh = s.place.fresh
  behind : f.offset ≤ s.place.offset
  offset : s'.place.offset + f.offset = s.place.offset + f.offset'
  line : s'.place.line + f.line = s.place.line + f.line'
  last : AskAlike s.last s'.last
  tokens : ∃ count, Paired f Old count s.tokens s'.tokens
  pending : List.Forall₂ (f.MovesDoc docs) s.pending s'.pending

theorem askAlike_of_paired (h : Paired f Old (count + 1) tokens tokens') :
    AskAlike (tokens.head?.map Token.kind) (tokens'.head?.map Token.kind) := by
  obtain ⟨new, new', old, old', rfl, rfl, hcount, hnew, -⟩ := h
  cases hnew with
  | nil => cases hcount
  | cons ht _ =>
    simp only [cons_append, List.head?_cons, Option.map_some, ht.kind]
    exact fun _ _ _ _ => rfl

namespace Beside
variable {s s' t : Scan}

theorem place_past (h : Beside f Old docs s s') (text : List Char) :
    (s'.place.past text).fresh = (s.place.past text).fresh ∧ f.offset ≤ (s.place.past text).offset ∧
      (s'.place.past text).offset + f.offset = (s.place.past text).offset + f.offset' ∧
      (s'.place.past text).line + f.line = (s.place.past text).line + f.line' := by
  have hbehind := h.behind
  have hoffset := h.offset
  have hline := h.line
  simp only [Place.offset_past, Place.line_past]
  exact ⟨Place.fresh_past_eq fun _ => h.fresh, by omega, by omega, by omega⟩

theorem paired_take (h : Beside f Old docs s s') {lexeme : Lexeme} {kind : Kind}
    (hkind : lexeme.kind = some kind) (text : List Char) :
    ∃ count, Paired f Old (count + 1) (s.take lexeme text).tokens
      (s'.take (lexeme.movedTo s'.place.offset) text).tokens := by
  have hkind' : (lexeme.movedTo s'.place.offset).kind = some kind := hkind
  obtain ⟨-, -, hoffset, -⟩ := h.place_past text
  obtain ⟨count, new, new', old, old', hs, hs', hcount, hnew, hold⟩ := h.tokens
  rw [take_of_kind hkind, take_of_kind hkind']
  exact ⟨count, s.found kind text :: new, s'.found kind text :: new', old,
    old', by simp [hs], by simp [hs'],
    by simp [hcount], .cons ⟨rfl, h.behind, h.offset, hoffset, h.line⟩ hnew, hold⟩

theorem take (h : Beside f Old docs s s') (lexeme : Lexeme)
    (hdoc : ∀ doc ∈ lexeme.heredoc, doc.start = s.place.offset) (text : List Char) :
    Beside f Old docs (s.take lexeme text) (s'.take (lexeme.movedTo s'.place.offset) text) := by
  obtain ⟨hfresh, hbehind, hoffset, hline⟩ := h.place_past text
  have hpending : List.Forall₂ (f.MovesDoc docs) (s.pending ++ lexeme.heredoc.toList)
      (s'.pending ++ (lexeme.heredoc.map (Heredoc.movedTo s'.place.offset)).toList) := by
    refine rel_append h.pending ?_
    cases hheredoc : lexeme.heredoc with
    | none => exact .nil
    | some doc =>
      have hstart := hdoc doc hheredoc
      exact .cons (.moved (hstart ▸ h.behind) (hstart ▸ h.offset)) .nil
  cases hkind : lexeme.kind with
  | none =>
    have htokens : (s.take lexeme text).tokens = s.tokens := by simp [Scan.take, hkind]
    have htokens' : (s'.take (lexeme.movedTo s'.place.offset) text).tokens = s'.tokens := by
      simp [Scan.take, Lexeme.movedTo, hkind]
    refine ⟨hfresh, hbehind, hoffset, hline, ?_, ?_, hpending⟩
    · rw [Scan.last, Scan.last, htokens, htokens']
      exact h.last
    · rw [htokens, htokens']
      exact h.tokens
  | some kind =>
    obtain ⟨count, hpaired⟩ := h.paired_take hkind text
    exact ⟨hfresh, hbehind, hoffset, hline, askAlike_of_paired hpaired, ⟨count + 1, hpaired⟩, hpending⟩

theorem step (hsettled : f.Settled Old docs) (h : Beside f Old docs s s') {c : Char}
    (hstep : s.step? c cs = some (t, rest)) :
    ∃ t', s'.step? c cs = some (t', rest) ∧ Beside f Old docs t t' := by
  have hlexeme : readLexeme s'.last s'.place.fresh s'.place.offset c cs =
      (readLexeme s.last s.place.fresh s.place.offset c cs).movedTo s'.place.offset := by
    rw [h.last, h.fresh]
    exact readLexeme_movedTo _ _ _ _ _ _
  have hdoc : ∀ doc ∈ (readLexeme s.last s.place.fresh s.place.offset c cs).heredoc,
      doc.start = s.place.offset :=
    fun doc hmem => start_of_readLexeme hmem
  rw [step?] at hstep
  rw [step?, hlexeme]
  generalize readLexeme s.last s.place.fresh s.place.offset c cs = lexeme at hstep hdoc
  have htaken := h.take lexeme hdoc (c :: cs.take lexeme.width)
  have hpaired (hnewline : lexeme.kind = some .newline) :=
    h.paired_take hnewline (c :: cs.take lexeme.width)
  have hkind : (lexeme.movedTo s'.place.offset).kind = lexeme.kind := rfl
  have hwidth : (lexeme.movedTo s'.place.offset).width = lexeme.width := rfl
  simp only [hkind, hwidth] at hstep ⊢
  generalize s.take lexeme (c :: cs.take lexeme.width) = u at hstep htaken hpaired
  generalize s'.take (lexeme.movedTo s'.place.offset) (c :: cs.take lexeme.width) =
    u' at htaken hpaired
  have hempty : u'.pending.isEmpty = u.pending.isEmpty := by
    rw [Bool.eq_iff_iff, isEmpty_iff_length_eq_zero, isEmpty_iff_length_eq_zero,
      htaken.pending.length_eq]
  rw [hempty]
  split
  · rename_i hbodies
    rw [if_pos hbodies] at hstep
    obtain ⟨⟨out, width⟩, hread, heq⟩ := Option.map_eq_some_iff.mp hstep
    cases heq
    obtain ⟨count, hpaired⟩ := hpaired hbodies.1
    obtain ⟨out', hread', hout⟩ := hpaired.readBodies hsettled htaken.pending hread
    obtain ⟨hfresh, hbehind, hoffset, hline⟩ :=
      htaken.place_past ((cs.drop lexeme.width).take width)
    exact ⟨⟨u'.place.past ((cs.drop lexeme.width).take width), out',
      []⟩, by rw [hread']; rfl, hfresh, hbehind, hoffset,
      hline, askAlike_of_paired hout, ⟨count + 1, hout⟩, .nil⟩
  · rename_i hbodies
    rw [if_neg hbodies] at hstep
    cases hstep
    exact ⟨u', rfl, htaken⟩

theorem leads (hsettled : f.Settled Old docs) (h : Beside f Old docs s s')
    (hleads : s.Leads cs t rest) : ∃ t', s'.Leads cs t' rest ∧ Beside f Old docs t t' := by
  induction hleads with
  | refl => exact ⟨s', .refl, h⟩
  | step _ hstep ih =>
    obtain ⟨u', hleads', hbeside⟩ := ih
    obtain ⟨t', hstep', hnext⟩ := hbeside.step hsettled hstep
    exact ⟨t', .step hleads' hstep', hnext⟩

theorem scanFrom (hsettled : f.Settled Old docs) (h : Beside f Old docs s s')
    (hscan : scanFrom s cs = some tokens) :
    ∃ tokens', Token.scanFrom s' cs = some tokens' ∧
    ∃ count, Paired f Old count tokens.reverse tokens'.reverse := by
  obtain ⟨t, hleads, rfl⟩ := leads_end hscan
  obtain ⟨t', hleads', hbeside⟩ := h.leads hsettled hleads
  refine ⟨t'.tokens.reverse, ?_, ?_⟩
  · rw [hleads'.scanFrom_eq, Token.scanFrom]
  · rw [reverse_reverse, reverse_reverse]
    exact hbeside.tokens

end Beside

/-- Two scans that meet one text, with no heredoc open, find tokens of the same kinds in it. -/
theorem kinds_moved {p' : Place} {old old' : List Token} (hfresh : p'.fresh = p.fresh)
    (hlast : AskAlike (last ⟨p, old, []⟩) (last ⟨p', old', []⟩))
    (hold : ∀ t ∈ old, t.start < p.offset)
    (hold' : ∀ t ∈ old', t.start < p'.offset) (hscan : scanFrom ⟨p, old, []⟩ cs = some tokens) :
    ∃ tokens' more, scanFrom ⟨p', old', []⟩ cs = some tokens' ∧
    tokens.map Token.kind = old.reverse.map Token.kind ++ more ∧
      tokens'.map Token.kind = old'.reverse.map Token.kind ++ more := by
  have hsettled : Frontier.Settled ⟨p.offset, p'.offset, p.line, p'.line⟩ (fun l l' => l = old ∧
      l' = old') [] :=
    ⟨by rintro _ _ ⟨rfl, rfl⟩; exact ⟨hold, hold'⟩, by simp, by simp⟩
  have hbeside : Beside ⟨p.offset, p'.offset, p.line, p'.line⟩ (fun l l' => l = old ∧
      l' = old') [] ⟨p, old, []⟩ ⟨p', old', []⟩ :=
    ⟨hfresh, Nat.le_refl _, Nat.add_comm _ _, Nat.add_comm _ _, hlast,
      ⟨0, [], [], old, old', rfl, rfl, rfl, .nil, rfl, rfl⟩, .nil⟩
  obtain ⟨tokens', hscan', count, new, new', _, _, hnew, hnew', -, hmoves, rfl, rfl⟩ :=
    hbeside.scanFrom hsettled hscan
  have hkinds : new'.map Token.kind = new.map Token.kind := by
    clear hnew hnew'
    induction hmoves with
    | nil => rfl
    | cons ht _ ih => rw [map_cons, map_cons, ht.kind, ih]
  refine ⟨tokens', (new.map Token.kind).reverse, hscan', ?_, ?_⟩
  · rw [← reverse_reverse tokens, hnew, reverse_append, map_append, map_reverse (l := new)]
  · rw [← reverse_reverse tokens', hnew', reverse_append, map_append, map_reverse (l := new'), hkinds]

theorem kinds_kept {old : List Token} (hold : ∀ t ∈ old, t.start < p.offset)
    (hscan : scanFrom ⟨p, old, []⟩ cs = some tokens) :
    ∃ more, tokens.map Token.kind = old.reverse.map Token.kind ++ more := by
  obtain ⟨-, more, -, hmore, -⟩ := kinds_moved rfl (fun _ _ _ _ => rfl) hold hold hscan
  exact ⟨more, hmore⟩

/-- A scan that starts in the middle of a line, before a value. -/
def inLine : Scan := ⟨⟨0, 1, false⟩, [], []⟩

theorem start_lt_of_mem (h : Spelled ps rest) {place : Place} {t : Token}
    (ht : t ∈ tokensAt place ps) : t.start < (place.past (spell ps)).offset := by
  induction ps generalizing place with
  | nil => cases ht
  | cons p ps ih =>
    rw [spell_cons, Place.past_append]
    rcases mem_append.mp ht with ht | ht
    · obtain ⟨c, cs, htext, -⟩ := h.1
      obtain ⟨kind, -, rfl⟩ := mem_map.mp ht
      have hpos := c.utf8Size_pos
      simp only [Place.offset_past, htext, Text.byteLength_cons]
      omega
    · exact ih h.2 ht

/-- What stands behind pieces leaves the kinds that it leaves in the middle of a line, if a value is
expected there. -/
theorem kinds_behind (h : Spelled ps rest) (hfresh : (Place.start.past (spell ps)).fresh = false)
    (hlast : AskAlike none (kinds ps).getLast?) :
    (scan? (spell ps ++ rest)).map (List.map Token.kind) =
      (scanFrom inLine rest).map fun tokens => kinds ps ++ tokens.map Token.kind := by
  rw [scan?, start, scanFrom_spelled h Place.start [], append_nil]
  have hold : ∀ t ∈ (tokensAt Place.start ps).reverse,
      t.start < (Place.start.past (spell ps)).offset := fun t ht =>
    start_lt_of_mem h (mem_reverse.mp ht)
  have hnone : ∀ t ∈ ([] : List Token), t.start < inLine.place.offset :=
    fun t ht => absurd ht not_mem_nil
  have heq : last ⟨Place.start.past (spell ps), (tokensAt Place.start ps).reverse, []⟩ =
      (kinds ps).getLast? := by
    rw [last, List.head?_reverse, ← List.getLast?_map, map_kind_tokensAt]
  have hask : AskAlike inLine.last
      (last ⟨Place.start.past (spell ps), (tokensAt Place.start ps).reverse, []⟩) := heq ▸ hlast
  cases hscan : scanFrom inLine rest with
  | some tokens =>
    obtain ⟨tokens', more, hscan', hmore, hmore'⟩ := kinds_moved hfresh hask hnone hold hscan
    rw [reverse_reverse, map_kind_tokensAt] at hmore'
    rw [hscan', Option.map_some, Option.map_some, hmore, hmore']
    rfl
  | none =>
    cases hscan' : scanFrom ⟨Place.start.past (spell ps), (tokensAt Place.start ps).reverse,
      []⟩ rest with
    | none => rfl
    | some tokens' =>
      have hback : AskAlike (last ⟨Place.start.past (spell ps), (tokensAt Place.start ps).reverse,
          []⟩) inLine.last :=
        fun fresh start c cs => (hask fresh start c cs).symm
      obtain ⟨tokens, -, hsome, -⟩ := kinds_moved hfresh.symm hback hold hnone hscan'
      cases hscan.symm.trans hsome

theorem kinds_spelled (h : Spelled ps rest) (hscan : scan? (spell ps ++ rest) = some tokens) :
    ∃ more, tokens.map Token.kind = kinds ps ++ more := by
  rw [scan?, start, scanFrom_spelled h Place.start [], append_nil] at hscan
  obtain ⟨more, hmore⟩ := kinds_kept (fun t ht => start_lt_of_mem h (mem_reverse.mp ht)) hscan
  rw [reverse_reverse, map_kind_tokensAt] at hmore
  exact ⟨more, hmore⟩

end Scan
end CookbookAtlas.Token
