import CookbookAtlas.Proofs.Token.Locality

/-! A closing brace behind a text, with a blank before it or without. Both ways leave tokens of the
same kinds, unless the text ends in a literal, a comment or a heredoc that is still open and
swallows the brace; then the text has as many braces as it has alone. -/
namespace CookbookAtlas.Token

open List
variable {mark : Char} {k : Kind} {text xs : List Char} {docs : List Heredoc} {tokens : List Token}
  {width : Nat} {s : Scan}

def spacedBrace : List Char := [' ', '\x7d']

def tightBrace : List Char := ['\x7d']

theorem bars_spacedBrace : Bars spacedBrace := by
  intro c hc
  cases hc
  decide +kernel

theorem bars_tightBrace : Bars tightBrace := by
  intro c hc
  cases hc
  decide +kernel

theorem bars_nil : Bars [] := fun _ hc => nomatch hc

theorem readBody_width_ne {d : Delimiters} (hd : d.closing ≠ ' ') (b : Body) (zone : Zone)
    (xs : List Char) :
    (readBody d b zone (xs ++ spacedBrace)).width ≠ b.width + (xs.length + 1) := by
  induction hlength : xs.length using Nat.strongRecOn generalizing xs b zone with
  | ind length ih =>
    cases xs with
    | nil =>
      rcases readBody_cases d b zone ' ' ['\x7d'] with
        ⟨hclose, -⟩ | ⟨next, zone', ys, hys, hwidth, hread⟩ | ⟨hnil, -⟩
      · exact absurd hclose.symm hd
      · have hread := hread [] bars_nil
        have hgrows := readBody_grows d next zone' ys
        rw [append_nil, append_nil] at hread
        rw [nil_append, spacedBrace, hread]
        simp only [length_cons, length_nil] at hys hwidth hlength
        omega
      · cases hnil
    | cons c xs =>
      rw [length_cons] at hlength
      rcases readBody_cases d b zone c xs with
        ⟨-, hread⟩ | ⟨next, zone', ys, hys, hwidth, hread⟩ | ⟨rfl, next, hread⟩
      · rw [cons_append, hread _ bars_spacedBrace, Body.skip]
        simp only
        omega
      · have hne := ih ys.length (by omega) next zone' ys rfl
        rw [cons_append, hread _ bars_spacedBrace]
        omega
      · obtain ⟨hwidth, hread⟩ := hread ' ' ['\x7d']
        have hgrows := readBody_grows d (next ' ') zone ['\x7d']
        rw [cons_append, nil_append, spacedBrace, hread]
        simp only [length_cons, length_nil] at hgrows hlength
        omega

theorem readDelimited_width_ne {d : Delimiters} (hd : d.closing ≠ ' ') (xs : List Char) :
    (readDelimited d (xs ++ spacedBrace)).width ≠ xs.length + 1 := by
  have h := readBody_width_ne hd Body.empty (.text 0) xs
  rwa [show Body.empty.width = 0 from rfl, Nat.zero_add] at h

theorem readQuoted_width_ne (hmark : mark ≠ ' ') (escapes : Bool) (xs : List Char) :
    (readQuoted mark escapes (xs ++ spacedBrace)).width ≠ xs.length + 1 :=
  readDelimited_width_ne (d := ⟨none, mark, escapes⟩) hmark xs

theorem flagsWidth_ne (h : width ≠ xs.length + 1) :
    width + flagsWidth ((xs ++ spacedBrace).drop width) ≠ xs.length + 1 := by
  by_cases hle : width ≤ xs.length
  · have hflags := flagsWidth_le (xs.drop width)
    rw [flagsWidth, length_drop] at hflags
    rw [flagsWidth, drop_append_of_le_length hle,
      takeWhile_append_bars bars_spacedBrace _ continues_of_isAsciiAlphabetic]
    omega
  · omega

theorem readPercentBody_width_ne (letter : Char) (hmark : closingOf mark ≠ ' ') (before : Nat)
    (xs : List Char) :
    (readPercentBody letter mark before (xs ++ spacedBrace)).width ≠ before + (xs.length + 1) := by
  rw [readPercentBody]
  have hbody := readDelimited_width_ne (d :=
    ⟨if mark = closingOf mark then none else some mark, closingOf mark,
    letter == 'Q' || letter == 'W' || letter == 'I' || letter == 'r'⟩) hmark xs
  have hflags := flagsWidth_ne hbody
  split
  · simp only [Lexeme.token]
    omega
  split
  · simp only [Lexeme.token]
    omega
  · simp only [Lexeme.token]
    omega

theorem closingOf_ne (h : isPercentMark mark = true ∨ mark = '/') : closingOf mark ≠ ' ' := by
  simp only [isPercentMark, Bool.or_eq_true, beq_iff_eq] at h
  rcases h with (((((rfl | rfl) | rfl) | rfl) | rfl) | rfl) | rfl <;> decide +kernel

theorem readPercent_width_ne {last : Option Kind} (hahead : percentAhead last xs = true) :
    (readPercent (xs ++ spacedBrace)).width ≠ xs.length + 1 := by
  have hmark := (Bool.and_eq_true_iff.mp hahead).2
  match xs with
  | [] => simp at hmark
  | [c] =>
    have hletter := isPercentLetter_of_mark hmark
    have hread : readPercent ([c] ++ spacedBrace) = readPercentBody 'Q' c 1 ([] ++ spacedBrace) := by
      simp [spacedBrace, readPercent, hletter]
    rw [hread]
    exact readPercentBody_width_ne 'Q' (closingOf_ne (.inl hmark)) 1 []
  | c :: d :: xs =>
    simp only [cons_append, readPercent, length_cons]
    split
    · rename_i hc
      simp only [hc, if_true, Bool.or_eq_true, beq_iff_eq] at hmark
      have hne := readPercentBody_width_ne c (closingOf_ne hmark) 2 xs
      omega
    · rename_i hc
      simp only [hc, Bool.false_eq_true, if_false] at hmark
      have hne := readPercentBody_width_ne 'Q' (closingOf_ne (.inl hmark)) 1 (d :: xs)
      rw [cons_append, length_cons] at hne
      omega

theorem readOperator_width_le (c : Char) (xs : List Char) :
    (readOperator c xs).width ≤ xs.length := by
  obtain ⟨kind, htells⟩ := readOperator_tells 0 c xs
  exact htells.width_le

theorem readColon_width_ne (xs : List Char) :
    (readColon (xs ++ spacedBrace)).width ≠ xs.length + 1 := by
  have hoperator := readOperator_width_le ':' xs
  cases xs with
  | nil => decide +kernel
  | cons c xs =>
    have hword := (readWord_starts (c :: xs)).length_le
    have hquoted : c = '"' ∨ c = '\'' →
        (readQuoted c (c == '"') (xs ++ spacedBrace)).width ≠ xs.length + 1 := by
      intro hc
      refine readQuoted_width_ne ?_ _ xs
      rcases hc with rfl | rfl <;> decide +kernel
    rw [cons_append, readColon, ← cons_append, readWord_append_bars bars_spacedBrace,
      readOperator_append_bars bars_spacedBrace]
    simp only [length_cons] at hword hoperator ⊢
    split
    · simp only [Lexeme.token]
      omega
    split
    · have hne := hquoted ‹_›
      simp only [Lexeme.token]
      omega
    split
    · simp only [Lexeme.token]
      omega
    · omega

theorem LinesThrough.getLast_eq {stops : List Char → Bool} {after : List Char}
    (h : LinesThrough stops text after) (hafter : after ≠ []) : text.getLast? = some '\n' := by
  obtain ⟨lines, last, rfl, -, ⟨line, rfl, -⟩ | ⟨-, hnil⟩⟩ := h
  · simp
  · exact absurd hnil hafter

/-- Text that leaves no token does not end with a blank before a brace, except for the
blank alone. -/
theorem not_skips {before : List Char} {c : Char} :
    ¬Skips before tightBrace (c :: (xs ++ [' '])) := by
  intro h
  have hlast : (c :: xs ++ [' ']).getLast? = some ' ' := List.getLast?_concat
  rw [cons_append] at hlast
  generalize htext : c :: (xs ++ [' ']) = text at h hlast
  cases h with
  | blank => simp at htext
  | joined => simp at hlast
  | comment _ hafter => simp [tightBrace] at hafter
  | block _ _ hlines =>
    rw [hlines.getLast_eq (by simp [tightBrace])] at hlast
    simp at hlast
  | tail _ _ hafter => simp [tightBrace] at hafter

theorem take_spacedBrace (xs : List Char) :
    (xs ++ spacedBrace).take (xs.length + 1) = xs ++ [' '] := by
  rw [take_length_add_append]
  rfl

theorem drop_spacedBrace (xs : List Char) :
    (xs ++ spacedBrace).drop (xs.length + 1) = tightBrace := by
  rw [drop_length_add_append]
  rfl

/-- A lexeme that leaves no token or does not end with the character at `width`. -/
def Lexeme.Passes (width : Nat) (l : Lexeme) : Prop := l.kind.isSome = true → l.width ≠ width

theorem passes_readLexeme (last : Option Kind) (fresh : Bool) (start : Nat) (c : Char)
    (xs : List Char) :
    (readLexeme last fresh start c (xs ++ spacedBrace)).Passes (xs.length + 1) := by
  have hskip : ∀ width, (Lexeme.skip width).Passes (xs.length + 1) := fun width h => nomatch h
  have htells : ∀ {l : Lexeme} {kind}, l.Tells start c xs kind → l.Passes (xs.length + 1) :=
    fun h _ =>
    Nat.ne_of_lt (Nat.lt_succ_of_le h.width_le)
  have hopens := opensHeredoc_append_bars bars_spacedBrace xs last c
  rw [readLexeme, percentAhead_append_bars bars_spacedBrace, ← cons_append,
    readNumber_append_bars bars_spacedBrace,
    readName_append_bars bars_spacedBrace, readPunctuation_append_bars bars_spacedBrace]
  refine iteInduction (fun _ => hskip _) fun _ => iteInduction (fun _ => hskip _) fun _ =>
    iteInduction (fun _ => hskip _) fun hblank => ?_
  have hc : c ≠ ' ' := fun h => hblank (.inl h)
  refine iteInduction (fun _ => hskip _) fun _ =>
    iteInduction (fun _ _ => (Nat.succ_ne_zero _).symm) fun _ =>
    iteInduction (fun _ => hskip _) fun _ =>
      iteInduction (fun _ _ => readQuoted_width_ne hc true xs) fun _ =>
    iteInduction (fun _ _ => readQuoted_width_ne hc false xs) fun _ =>
    iteInduction (fun hpercent _ => readPercent_width_ne hpercent.2) fun _ =>
    iteInduction (fun hheredoc _ => ?heredoc) fun _ =>
    iteInduction (fun _ _ => flagsWidth_ne (readQuoted_width_ne hc true xs)) fun _ =>
    iteInduction (fun _ _ => readColon_width_ne xs) fun _ =>
    iteInduction (fun hdigit => htells (readNumber_tells start hdigit xs)) fun _ =>
    iteInduction (fun hword => (readName_tells start hword xs).elim fun _ => htells) fun _ =>
    (readPunctuation_tells start c xs).elim fun _ => htells
  obtain ⟨ys, rfl⟩ := List.head?_eq_some_iff.mp (hopens.mp hheredoc).2.1
  have hwidth := (readHeredoc_tells start ys).width_le
  rw [cons_append, drop_one, tail_cons, readHeredoc_append_bars bars_spacedBrace]
  omega

theorem readLexeme_width_ne (last : Option Kind) (fresh : Bool) (start : Nat) (c : Char)
    (xs : List Char) :
    (readLexeme last fresh start c (xs ++ spacedBrace)).width ≠ xs.length + 1 := by
  rcases readLexeme_cases last fresh start c (xs ++ spacedBrace) (fun _ => .inl rfl : fresh = true →
    AtLineStart []) with
    ⟨kind, hkind, -⟩ | ⟨width, -, hskip, hskips⟩
  · exact passes_readLexeme last fresh start c xs (by rw [hkind]; rfl)
  · rw [hskip]
    rintro rfl
    rw [take_spacedBrace, drop_spacedBrace] at hskips
    exact not_skips hskips

section
variable {last : Option Kind} {fresh : Bool} {start : Nat} {c : Char} {cs : List Char} {k : Kind}

theorem readLexeme_tells (h : (readLexeme last fresh start c cs).kind = some k) :
    (readLexeme last fresh start c cs).Tells start c cs k := by
  rcases readLexeme_cases last fresh start c cs (fun _ => .inl rfl : fresh = true → AtLineStart []) with
    ⟨kind, htells⟩ | ⟨width, -, hskip, -⟩
  · obtain rfl : kind = k := Option.some.inj (htells.kind_eq.symm.trans h)
    exact htells
  · rw [hskip] at h
    cases h

theorem eq_newline_of_kind (h : (readLexeme last fresh start c cs).kind = some .newline) :
    c = '\n' :=
  (List.cons.inj (readLexeme_tells h).spells).1

theorem bracketKind_of_kind (hk : k = .leftBrace ∨ k = .rightBrace)
    (h : (readLexeme last fresh start c cs).kind = some k) : bracketKind? c = some k := by
  have hspells := (readLexeme_tells h).spells
  rcases hk with rfl | rfl
  · rw [(List.cons.inj hspells).1]
    rfl
  · rw [(List.cons.inj hspells).1]
    rfl

theorem width_of_bracketKind (h : bracketKind? c = some k) :
    (readLexeme last fresh start c cs).width = 0 := by
  obtain ⟨d, ds, htext, hread⟩ := Piece.reads_bracket h cs
  obtain ⟨rfl, rfl⟩ := List.cons.inj htext
  have hlexeme := hread last fresh start
  rw [nil_append] at hlexeme
  rw [hlexeme]
  rfl

end

namespace Scan

theorem step?_of_ne {c : Char} (hc : c ≠ '\n') (s : Scan) (cs : List Char) :
    s.step? c cs = some (s.take (readLexeme s.last s.place.fresh s.place.offset c cs)
      (c :: cs.take (readLexeme s.last s.place.fresh s.place.offset c cs).width),
      cs.drop (readLexeme s.last s.place.fresh s.place.offset c cs).width) := by
  rw [step?]
  exact if_neg fun h => hc (eq_newline_of_kind h.1)

theorem count_take {lexeme : Lexeme} (h : lexeme.kind ≠ some k) (text : List Char) :
    ((s.take lexeme text).tokens.map Token.kind).count k = (s.tokens.map Token.kind).count k := by
  cases hkind : lexeme.kind with
  | none => simp [take, hkind]
  | some kind =>
    have hne : kind ≠ k := fun heq => h (by rw [hkind, heq])
    simp [take, hkind, hne]

theorem scanFrom_tightBrace (s : Scan) :
    scanFrom s tightBrace = some (s.found .rightBrace tightBrace :: s.tokens).reverse := by
  obtain ⟨c, cs, htext, hread⟩ := Piece.reads_bracket (c := '\x7d') rfl []
  obtain ⟨rfl, rfl⟩ := List.cons.inj htext
  have hlexeme : readLexeme s.last s.place.fresh s.place.offset '\x7d' [] = .token .rightBrace 0 :=
    hread s.last s.place.fresh s.place.offset
  rw [tightBrace, scanFrom_cons, step?_token hlexeme rfl nofun, Option.bind_some]
  exact scanFrom.eq_1 _

theorem scanFrom_spacedBrace (s : Scan) :
    scanFrom s spacedBrace = scanFrom ⟨s.place.past [' '], s.tokens, s.pending⟩ tightBrace := by
  have hlexeme : readLexeme s.last s.place.fresh s.place.offset ' ' ['\x7d'] = .skip 0 := by
    cases s.place.fresh <;> rfl
  rw [spacedBrace, scanFrom_cons, step?_skip hlexeme]
  rfl

theorem kinds_brace (s : Scan) (h : scanFrom s spacedBrace = some tokens) :
    ∃ tokens', scanFrom s tightBrace = some tokens' ∧
    tokens'.map Token.kind = tokens.map Token.kind := by
  rw [scanFrom_spacedBrace, scanFrom_tightBrace, Option.some.injEq] at h
  subst h
  exact ⟨_, scanFrom_tightBrace s, by simp [found]⟩

theorem alike_readBodies {tokens' out out' : List Token} {cs cs' : List Char} {width' : Nat}
    (h : List.Forall₂ Alike tokens tokens') (hread : readBodies? tokens docs cs = some (out, width))
    (hread' : readBodies? tokens' docs cs' = some (out', width')) :
    List.Forall₂ Alike out out' := by
  induction docs generalizing tokens tokens' cs cs' width width' with
  | nil =>
    cases hread
    cases hread'
    exact h
  | cons doc docs ih =>
    obtain ⟨content, more, -, hmore, -⟩ := readBodies_cons hread
    obtain ⟨content', more', -, hmore', -⟩ := readBodies_cons hread'
    exact ih (forall₂_fill h (fun ht => by rw [ht.start]) fun ht _ =>
      ⟨ht.start, ht.stop, .inr ⟨rfl, rfl⟩⟩) hmore hmore'

end Scan

theorem count_alike {tokens' : List Token} (h : List.Forall₂ Alike tokens tokens')
    (hk : k.isString = false) :
    (tokens'.map Token.kind).count k = (tokens.map Token.kind).count k := by
  induction h with
  | nil => rfl
  | @cons t t' tokens tokens' ht _ ih =>
    rw [map_cons, map_cons, count_cons, count_cons, ih]
    rcases ht.kind with hkind | ⟨hstring, hstring'⟩
    · rw [hkind]
    · have hne : ∀ {kind : Kind}, kind.isString = true → (kind == k) = false := fun hs =>
        beq_false_of_ne fun heq => by simp [← heq, hs] at hk
      rw [hne hstring, hne hstring']

theorem BodiesOf.getLast_eq {after : List Char} (h : BodiesOf docs text after) (hdocs : docs ≠ [])
    (hafter : after ≠ []) : text.getLast? = some '\n' := by
  induction docs generalizing text with
  | nil => exact absurd rfl hdocs
  | cons doc docs ih =>
    obtain ⟨first, more, rfl, hfirst, hmore⟩ := h
    cases docs with
    | nil =>
      obtain rfl : more = [] := hmore
      rw [append_nil]
      exact hfirst.getLast_eq hafter
    | cons doc' docs =>
      rw [List.getLast?_append, ih hmore (by simp)]
      rfl

namespace Scan

theorem Leads.last_step {t : Scan} {cs : List Char} (h : s.Leads cs t []) (hcs : cs ≠ []) :
    ∃ u c ds, s.Leads cs u (c :: ds) ∧ u.step? c ds = some (t, []) := by
  cases h with
  | refl => exact absurd rfl hcs
  | step h hstep => exact ⟨_, _, _, h, hstep⟩

/-- The bodies of the heredocs of a line do not end between the blank and the brace. -/
theorem readBodies?_width_ne (hdocs : docs ≠ []) {out : List Token}
    (h : readBodies? tokens docs (xs ++ spacedBrace) = some (out, width)) :
    width ≠ xs.length + 1 := by
  rintro rfl
  have hbodies := (readBodies_lines h).2
  rw [take_spacedBrace, drop_spacedBrace] at hbodies
  have hlast := hbodies.getLast_eq hdocs (by simp [tightBrace])
  simp at hlast

section
variable {u x x' : Scan} {c : Char} {ys rest : List Char}

/-- A lexeme that reaches into the blank and the brace takes both, and is no brace. -/
theorem swallowed_lexeme (hc : c ≠ '\n') (halone : u.step? c ys = some (x, []))
    (hspaced : u.step? c (ys ++ spacedBrace) = some (x', rest)) (hrest : rest.length < 2)
    (hk : k = .leftBrace ∨ k = .rightBrace) :
    rest = [] ∧ (x'.tokens.map Token.kind).count k = (x.tokens.map Token.kind).count k := by
  have hne := readLexeme_width_ne u.last u.place.fresh u.place.offset c ys
  have hbrace := @width_of_bracketKind u.last u.place.fresh u.place.offset c (ys ++ spacedBrace) k
  rw [step?_of_ne hc] at halone hspaced
  obtain ⟨rfl, -⟩ := Prod.mk.inj (Option.some.inj halone)
  obtain ⟨rfl, rfl⟩ := Prod.mk.inj (Option.some.inj hspaced)
  have hlong : ys.length + 2 ≤ (readLexeme u.last u.place.fresh u.place.offset c (ys ++ spacedBrace)).width := by
    simp only [length_drop, length_append, show spacedBrace.length = 2 from rfl] at hrest
    omega
  have hnot : bracketKind? c ≠ some k := fun h => by
    rw [hbrace h] at hlong
    omega
  have hkind : ∀ cs, (readLexeme u.last u.place.fresh u.place.offset c cs).kind ≠ some k :=
    fun cs h =>
    hnot (bracketKind_of_kind hk h)
  refine ⟨drop_eq_nil_of_le ?_, (count_take (hkind _) _).trans (count_take (hkind _) _).symm⟩
  simpa [spacedBrace] using hlong

/-- A heredoc that reaches into the blank and the brace takes both as lines of its body. -/
theorem swallowed_body (halone : u.step? '\n' ys = some (x, []))
    (hspaced : u.step? '\n' (ys ++ spacedBrace) = some (x', rest))
    (hrest : rest.length < 2) (hk : k.isString = false) :
    rest = [] ∧ (x'.tokens.map Token.kind).count k = (x.tokens.map Token.kind).count k := by
  by_cases hpending : u.pending = []
  · rw [step?_token (readLexeme_newline _ _ _ _) rfl fun _ => by rw [hpending]; rfl] at hspaced
    obtain ⟨-, rfl⟩ := Prod.mk.inj (Option.some.inj hspaced)
    simp only [Lexeme.token, drop_zero, length_append, show spacedBrace.length = 2 from rfl] at hrest
    omega
  · rw [step?_bodies (readLexeme_newline _ _ _ _) rfl rfl rfl hpending] at halone hspaced
    obtain ⟨⟨out, width⟩, hread, hx⟩ := Option.map_eq_some_iff.mp halone
    obtain ⟨⟨out', width'⟩, hread', hx'⟩ := Option.map_eq_some_iff.mp hspaced
    obtain ⟨rfl, -⟩ := Prod.mk.inj hx
    obtain ⟨rfl, rfl⟩ := Prod.mk.inj hx'
    simp only [Lexeme.token, drop_zero] at hread hread' hrest ⊢
    have hne := readBodies?_width_ne hpending hread'
    have halike := alike_readBodies (forall₂_same.mpr fun t _ => Alike.refl t) hread hread'
    refine ⟨drop_eq_nil_of_le ?_, count_alike halike hk⟩
    simp only [length_drop, length_append, show spacedBrace.length = 2 from rfl] at hrest ⊢
    omega

end

/-- A closing brace behind a text leaves the same kinds with the blank and without it, or the text
swallows it and has the braces that it has alone. -/
theorem scanFrom_brace {alone : List Token} (halone : scanFrom s text = some alone)
    (hspaced : scanFrom s (text ++ spacedBrace) = some tokens) :
    (∃ tokens', scanFrom s (text ++ tightBrace) = some tokens' ∧
    tokens'.map Token.kind = tokens.map Token.kind) ∨
      ∀ k, k = .leftBrace ∨ k = .rightBrace →
      (tokens.map Token.kind).count k = (alone.map Token.kind).count k := by
  have htight : Parting spacedBrace tightBrace :=
    ⟨bars_spacedBrace, bars_tightBrace, by simp [spacedBrace, tightBrace]⟩
  have hend : Parting spacedBrace [] := ⟨bars_spacedBrace, bars_nil, by simp [spacedBrace]⟩
  by_cases hnil : text = []
  · subst hnil
    exact .inl (kinds_brace s hspaced)
  obtain ⟨x, hleads, rfl⟩ := leads_end halone
  obtain ⟨u, c, ys, hlast, hstep⟩ := hleads.last_step hnil
  -- the text up to its last lexeme is read in the same way whatever is behind it
  have hbefore : ∀ {tail}, Parting [] tail → s.Leads (text ++ tail) u (c :: (ys ++ tail)) := by
    intro tail hpart
    have hlast : s.Leads (text ++ []) u ((c :: ys) ++ []) := by rwa [append_nil, append_nil]
    exact hlast.append hpart (by simp)
  rw [(hbefore ⟨bars_nil, bars_spacedBrace, by simp [spacedBrace]⟩).scanFrom_eq,
    scanFrom_cons] at hspaced
  obtain ⟨⟨x', rest⟩, hstep', hrest⟩ := Option.bind_eq_some_iff.mp hspaced
  by_cases hlong : 2 ≤ rest.length
  · have hsuffix := (step?_suffix hstep').trans (drop_suffix _ _)
    obtain ⟨zs, rfl⟩ := suffix_of_suffix_length_le (suffix_append ys spacedBrace) hsuffix hlong
    have hne : zs ++ spacedBrace ≠ [] := by simp [spacedBrace]
    have hsame := step?_append hend hne hstep'
    rw [append_nil, append_nil, hstep] at hsame
    obtain ⟨rfl, rfl⟩ := Prod.mk.inj (Option.some.inj hsame)
    obtain ⟨tokens', htokens', hkinds⟩ := kinds_brace x hrest
    refine .inl ⟨tokens', ?_, hkinds⟩
    rw [(hbefore ⟨bars_nil, bars_tightBrace, by simp [tightBrace]⟩).scanFrom_eq, scanFrom_cons,
      step?_append htight hne hstep']
    exact htokens'
  · refine .inr fun k hk => ?_
    have hshort := Nat.lt_of_not_le hlong
    have hcount : rest = [] ∧ (x'.tokens.map Token.kind).count k = (x.tokens.map Token.kind).count k := by
      by_cases hc : c = '\n'
      · subst hc
        refine swallowed_body hstep hstep' hshort ?_
        rcases hk with rfl | rfl <;> rfl
      · exact swallowed_lexeme hc hstep hstep' hshort hk
    obtain ⟨rfl, hcount⟩ := hcount
    rw [scanFrom.eq_1, Option.some.injEq] at hrest
    rw [← hrest, map_reverse, map_reverse, count_reverse, count_reverse]
    exact hcount

end Scan

end CookbookAtlas.Token
