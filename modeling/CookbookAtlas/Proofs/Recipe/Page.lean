import CookbookAtlas.Proofs.Token.Spelling
import CookbookAtlas.Recipe.Parse

/-! Pages of written lines. The tokens of a line make one statement, so the statements of a page
are its lines; the text of a statement is the text that spells it. -/
namespace CookbookAtlas.Recipe

open Token List Text

variable {a : Assembly} {toks : List Token} {place : Place} {s : Source} {w : String} {t : Token}

/-- Kinds of tokens that are one statement when they stand on lines of their own. -/
structure Whole (ks : List Kind) : Prop where
  unbroken : ∀ k ∈ ks, k ≠ .newline ∧ k ≠ .semicolon
  closed : ks.foldl (fun depth k => k.depthAfter depth) 0 = 0
  starts : ∀ k ∈ ks.head?, k ≠ .dot ∧ k ≠ .safeNavigation
  ends : ∃ k, ks.getLast? = some k ∧ dangles k = false

/-- A text before a line end that is read as one statement. -/
structure Line where
  pieces : List Piece
  spelled : ∀ rest, Spelled pieces ('\n' :: rest)
  whole : Whole (kinds pieces)

def page (ls : List Line) : List Piece := ls.flatMap fun l => l.pieces ++ [Piece.newline]

def written (ls : List Line) : List Char := spell (page ls)

@[simp] theorem page_nil : page [] = [] := rfl
@[simp] theorem page_cons (l : Line) (ls : List Line) :
    page (l :: ls) = l.pieces ++ Piece.newline :: page ls := by simp [page]
@[simp] theorem written_nil : written [] = [] := rfl
@[simp] theorem written_cons (l : Line) (ls : List Line) :
    written (l :: ls) = spell l.pieces ++ '\n' :: written ls := by
  simp [written, Piece.newline, Piece.mark]
@[simp] theorem written_append (ls ms : List Line) :
    written (ls ++ ms) = written ls ++ written ms := by
  simp [written, page]

theorem spelled_page (ls : List Line) : Spelled (page ls) [] := by
  induction ls with
  | nil => trivial
  | cons l ls ih =>
    rw [page_cons]
    refine Spelled.append ?_ ⟨Piece.reads_newline _, ih⟩
    exact l.spelled _

def Line.after (place : Place) (l : Line) : Place := place.past (spell l.pieces ++ ['\n'])

def statementsAt (place : Place) : List Line → List Statement
  | [] => []
  | l :: ls => tokensAt place l.pieces :: statementsAt (l.after place) ls

theorem statementsAt_append (place : Place) (ls ms : List Line) :
    statementsAt place (ls ++ ms) =
    statementsAt place ls ++ statementsAt (place.past (written ls)) ms := by
  induction ls generalizing place with
  | nil => rfl
  | cons l ls ih => simp [statementsAt, ih, Line.after, Place.past]

/-- Tokens that hold no line end and no semicolon go into the open statement. -/
theorem statementsFrom_append (h : ∀ t ∈ toks, t.kind ≠ .newline ∧ t.kind ≠ .semicolon)
    (depth : Nat) (current rest : List Token) :
    statementsFrom depth current (toks ++ rest) =
      statementsFrom ((toks.map Token.kind).foldl (fun depth k => k.depthAfter depth) depth)
        (toks.reverse ++ current) rest := by
  induction toks generalizing depth current with
  | nil => rfl
  | cons t toks ih =>
    obtain ⟨hline, hsemi⟩ := h t (by simp)
    have hrest := ih (fun u hu => h u (by simp [hu])) (t.kind.depthAfter depth) (t :: current)
    rw [cons_append, statementsFrom.eq_def]
    simp only [hline, hsemi, and_false, if_false, hrest]
    simp

theorem Line.tokens_cons (l : Line) (place : Place) :
    ∃ t ts, tokensAt place l.pieces = t :: ts ∧ t.kind ≠ .newline ∧ t.kind ≠ .dot ∧
    t.kind ≠ .safeNavigation := by
  have hkinds := map_kind_tokensAt place l.pieces
  obtain ⟨k, hlast, -⟩ := l.whole.ends
  cases htoks : tokensAt place l.pieces with
  | nil =>
    rw [htoks] at hkinds
    simp [← hkinds] at hlast
  | cons t ts =>
    rw [htoks, map_cons] at hkinds
    have hstart := l.whole.starts t.kind (by simp [← hkinds])
    have hline := l.whole.unbroken t.kind (by simp [← hkinds])
    exact ⟨t, ts, rfl, hline.1, hstart.1, hstart.2⟩

theorem startsWithPoint_page (place : Place) (ls : List Line) :
    startsWithPoint (tokensAt place (page ls)) = false := by
  cases ls with
  | nil => rfl
  | cons l ls =>
    obtain ⟨t, ts, htoks, hline, hdot, hsafe⟩ := l.tokens_cons place
    simp [startsWithPoint, htoks, Token.isNewline, hline, hdot, hsafe]

theorem statements_page (place : Place) (ls : List Line) :
    statements (tokensAt place (page ls)) = statementsAt place ls := by
  rw [statements]
  induction ls generalizing place with
  | nil => rfl
  | cons l ls ih =>
    have hkinds := map_kind_tokensAt place l.pieces
    have hunbroken : ∀ t ∈ tokensAt place l.pieces, t.kind ≠ .newline ∧ t.kind ≠ .semicolon := by
      intro t ht
      exact l.whole.unbroken t.kind (hkinds ▸ mem_map_of_mem ht)
    obtain ⟨k, hlast, hends⟩ := l.whole.ends
    obtain ⟨t, ht, hk⟩ : ∃ t, (tokensAt place l.pieces).getLast? = some t ∧ t.kind = k := by
      rw [← hkinds, List.getLast?_map] at hlast
      simpa using hlast
    obtain ⟨ts, hts⟩ : ∃ ts, (tokensAt place l.pieces).reverse = t :: ts := by
      have hhead : (tokensAt place l.pieces).reverse.head? = some t := by simpa using ht
      exact List.head?_eq_some_iff.mp hhead
    have hrest := ih (l.after place)
    have hpoint := startsWithPoint_page (l.after place) ls
    have hafter : (place.past (spell l.pieces)).past Piece.newline.text = l.after place := by
      simp [Line.after, Piece.newline, Piece.mark]
    rw [page_cons, tokensAt_append, statementsFrom_append hunbroken, hkinds, l.whole.closed,
      append_nil, tokensAt, hafter]
    simp only [Piece.tokens, Piece.newline, Piece.mark, Option.toList_some, map_cons, map_nil,
      singleton_append, statementsFrom, hts, continues, hk, hends, hpoint]
    simp only [← hts, statementsAt, hrest]
    simp

theorem parse_written (ls : List Line) (file : Path) (limit : Nat) :
    parse? ⟨written ls, file, limit⟩ =
      some (parseTokens ⟨written ls, file, limit⟩ (tokensAt Place.start (page ls))) := by
  rw [parse?, written, scan?_spell (spelled_page ls)]
  rfl

def Source.Has (s : Source) (place : Place) (cs : List Char) : Prop :=
  ∃ before after, s.chars = before ++ cs ++ after ∧ place = Place.start.past before

theorem Source.has_chars (s : Source) : s.Has Place.start s.chars := ⟨[], [], by simp, rfl⟩

theorem Source.Has.left {xs ys : List Char} (h : s.Has place (xs ++ ys)) : s.Has place xs := by
  obtain ⟨before, after, hchars, hplace⟩ := h
  exact ⟨before, ys ++ after, by simp [hchars], hplace⟩

theorem Source.Has.right {xs ys : List Char} (h : s.Has place (xs ++ ys)) :
    s.Has (place.past xs) ys := by
  obtain ⟨before, after, hchars, hplace⟩ := h
  exact ⟨before ++ xs, after, by simp [hchars], by simp [hplace]⟩

theorem Source.Has.line {l : Line} {ls : List Line} (h : s.Has place (written (l :: ls))) :
    s.Has place (spell l.pieces) ∧ s.Has (l.after place) (written ls) := by
  have heq : written (l :: ls) = (spell l.pieces ++ ['\n']) ++ written ls := by simp
  rw [heq] at h
  exact ⟨h.left.left, h.right⟩

theorem Source.Has.between {cs : List Char} (h : s.Has place cs) :
    s.between place.offset (place.past cs).offset = String.ofList (trim cs) := by
  obtain ⟨before, after, hchars, rfl⟩ := h
  have hstart : (Place.start.past before).offset = byteLength before := by
    simp [Place.offset_past, Place.start]
  rw [Source.between, hchars, Place.offset_past (Place.start.past before), hstart, slice_append]

theorem Source.Has.text {ps : List Piece} (h : s.Has place (spell ps))
    (hfirst : ∃ p qs, ps = p :: qs ∧ p.kind.isSome)
    (hlast : ∃ qs p, ps = qs ++ [p] ∧ p.kind.isSome) :
    s.text (tokensAt place ps) = String.ofList (trim (spell ps)) := by
  have hstart : ∃ t, (tokensAt place ps).head? = some t ∧ t.start = place.offset := by
    obtain ⟨p, qs, rfl, hp⟩ := hfirst
    obtain ⟨k, hk⟩ := Option.isSome_iff_exists.mp hp
    simp [tokensAt, Piece.tokens, hk]
  have hstop : ∃ t, (tokensAt place ps).getLast? = some t ∧
      t.stop = (place.past (spell ps)).offset := by
    obtain ⟨qs, p, rfl, hp⟩ := hlast
    obtain ⟨k, hk⟩ := Option.isSome_iff_exists.mp hp
    simp [tokensAt, Piece.tokens, hk]
  obtain ⟨t, ht, htstart⟩ := hstart
  obtain ⟨u, hu, hustop⟩ := hstop
  rw [Source.text, ht, hu]
  simp only [htstart, hustop, h.between]

/-- Words that open or close a block or start a modifier. -/
def blockWords : List String := ["end", "do", "for", "class", "module", "def", "rescue"] ++ openers

/-- Whether a kind is that of no word with a meaning for blocks. -/
def isQuiet (k : Kind) : Bool := k.ident?.all fun w => !blockWords.contains w

theorem not_mem_blockWords (h : isQuiet t.kind = true) (hw : t.ident? = some w) :
    w ∉ blockWords := by
  rw [Token.ident?] at hw
  simpa [isQuiet, hw] using h

theorem balanceFrom_quiet (h : isQuiet t.kind = true) (endless skipDo : Bool) (prev : Option Kind)
    (rest : List Token) :
    balanceFrom endless skipDo prev (t :: rest) =
    balanceFrom endless skipDo (some t.kind) rest := by
  cases hw : t.ident? with
  | none => simp [balanceFrom, hw]
  | some w =>
    have hnot := not_mem_blockWords h hw
    by_cases hprev : isMember prev = true
    · simp [balanceFrom, hprev]
    · simp only [blockWords, openers, mem_append, mem_cons, not_mem_nil, or_false, not_or] at hnot
      simp [balanceFrom, hprev, hw, openers, hnot]

theorem balanceFrom_all_quiet (h : ∀ t ∈ toks, isQuiet t.kind = true) (endless skipDo : Bool)
    (prev : Option Kind) : balanceFrom endless skipDo prev toks = 0 := by
  induction toks generalizing prev with
  | nil => rfl
  | cons t toks ih => rw [balanceFrom_quiet (h t (by simp)), ih fun u hu => h u (by simp [hu])]

theorem balance_quiet (h : ∀ t ∈ toks, isQuiet t.kind = true) : balance toks = 0 :=
  balanceFrom_all_quiet h _ _ _

theorem splitModifier_quiet (h : ∀ t ∈ toks, isQuiet t.kind = true) (depth : Nat)
    (prev : Option Kind) : splitModifier depth prev toks = (toks, []) := by
  induction toks generalizing depth prev with
  | nil => rfl
  | cons t toks ih =>
    have hrest := ih (fun u hu => h u (by simp [hu])) (t.kind.depthAfter depth) (some t.kind)
    have hmodifier : isModifier prev t = false := by
      cases hw : t.ident? with
      | none => simp [isModifier, hw]
      | some w =>
        have hnot := not_mem_blockWords (h t (by simp)) hw
        have hsub : ∀ u ∈ modifiers, u ∈ blockWords := by decide
        have hmodifiers : w ∉ modifiers := fun hmem => hnot (hsub w hmem)
        simp [isModifier, hw, hmodifiers]
    simp [splitModifier, hmodifier, hrest]

theorem splitDo_quiet (h : ∀ t ∈ toks, isQuiet t.kind = true) (depth : Nat) (prev : Option Kind) :
    splitDo depth prev toks = none := by
  induction toks generalizing depth prev with
  | nil => rfl
  | cons t toks ih =>
    have hrest := ih (fun u hu => h u (by simp [hu])) (t.kind.depthAfter depth) (some t.kind)
    have hdo : t.isWord "do" = false := by
      rw [Token.isWord, beq_eq_false_iff_ne]
      intro hk
      have hquiet := h t (by simp)
      rw [hk] at hquiet
      revert hquiet
      decide
    simp [splitDo, hrest, hdo]

def kindAfter (prev : Option Kind) (toks : List Token) : Option Kind :=
  toks.foldl (fun _ t => some t.kind) prev

theorem balanceFrom_append (h : ∀ t ∈ toks, isQuiet t.kind = true) (endless skipDo : Bool)
    (prev : Option Kind) (rest : List Token) :
    balanceFrom endless skipDo prev (toks ++ rest) =
      balanceFrom endless skipDo (kindAfter prev toks) rest := by
  induction toks generalizing prev with
  | nil => rfl
  | cons t toks ih =>
    rw [cons_append, balanceFrom_quiet (h t (by simp)), ih fun u hu => h u (by simp [hu])]
    rfl

section
variable {head after : List Token} {t : Token}

theorem balance_do (hhead : ∀ u ∈ head, isQuiet u.kind = true) (hne : head ≠ [])
    (ht : t.kind = .ident "do")
    (hprev : isMember (kindAfter none head) = false) (hafter : ∀ u ∈ after, isQuiet u.kind = true) :
    balance (head ++ t :: after) = 1 := by
  have hskip : (((head ++ t :: after).head?).bind Token.ident?).any isLoopHead = false := by
    cases head with
    | nil => exact absurd rfl hne
    | cons u head =>
      cases hw : u.ident? with
      | none => simp [hw]
      | some w =>
        have hnot := not_mem_blockWords (hhead u (by simp)) hw
        simp only [blockWords, openers, mem_append, mem_cons, not_mem_nil, or_false, not_or] at hnot
        simp [hw, isLoopHead, hnot]
  have hword : t.ident? = some "do" := by
    rw [Token.ident?, ht]
    rfl
  rw [balance, hskip, balanceFrom_append hhead, balanceFrom]
  simp [hprev, hword, balanceFrom_all_quiet hafter]

theorem splitDo_append (ht : t.isWord "do" = true) (hafter : ∀ u ∈ after, isQuiet u.kind = true)
    (depth : Nat) (prev : Option Kind)
    (hdepth : (head.map Token.kind).foldl (fun depth k => k.depthAfter depth) depth = 0)
    (hprev : isMember (kindAfter prev head) = false) :
    splitDo depth prev (head ++ t :: after) = some (head, after) := by
  induction head generalizing depth prev with
  | nil =>
    simp only [map_nil, foldl_nil] at hdepth
    simp only [kindAfter, foldl_nil] at hprev
    simp [splitDo, splitDo_quiet hafter, hdepth, ht, hprev]
  | cons u head ih => simp [splitDo, ih (u.kind.depthAfter depth) (some u.kind) hdepth hprev]

end

namespace Assembly

/-- Takes the statements of lines that start at `place`. -/
def takeLines (s : Source) (place : Place) (ls : List Line) (a : Assembly) : Assembly :=
  a.run s (statementsAt place ls)

@[simp] theorem takeLines_nil (s : Source) (place : Place) (a : Assembly) :
    a.takeLines s place [] = a := rfl

theorem takeLines_cons (s : Source) (place : Place) (l : Line) (ls : List Line) (a : Assembly) :
    takeLines s place (l :: ls) a =
    takeLines s (l.after place) ls (a.statement s (tokensAt place l.pieces)) := rfl

theorem takeLines_append (s : Source) (place : Place) (ls ms : List Line) (a : Assembly) :
    takeLines s place (ls ++ ms) a =
    takeLines s (place.past (written ls)) ms (takeLines s place ls a) := by
  simp [takeLines, run, statementsAt_append]

theorem ne_keyword (hfree : isKeyword w = false) : ∀ k ∈ keywords, w ≠ k := by
  rintro k hk rfl
  simp [isKeyword, hk] at hfree

theorem statement_of_free (hw : t.ident? = some w) (hfree : isKeyword w = false) (s : Source)
    (a : Assembly) (rest : List Token) : a.statement s (t :: rest) = a.ordinary s (t :: rest) := by
  have hne := ne_keyword hfree
  have hclause : isClause w = false := by
    simp [isClause, hne "elsif" (by decide), hne "else" (by decide), hne "when" (by decide),
      hne "in" (by decide)]
  simp [statement, hw, hne "end" (by decide), hclause, hne "rescue" (by decide),
    hne "ensure" (by decide)]

theorem ordinary_opens {shape : Shape} (s : Source) (hbalance : balance toks = 1)
    (hsetting : a.setting = .normal)
    (hopener : opener s toks = (shape, none)) : a.ordinary s toks = a.push shape := by
  rw [ordinary, hbalance]
  change a.openBlocks s toks 0 = _
  simp [openBlocks, hsetting, hopener]

theorem ordinary_plain (s : Source) (hbalance : balance toks = 0) (hsetting : a.setting = .normal) :
    a.ordinary s toks = a.plain s toks := by
  rw [ordinary, hbalance, hsetting]

theorem ordinary_property (s : Source) (hbalance : balance toks = 0)
    (hsetting : a.setting = .inResource) : a.ordinary s toks = a.property s toks := by
  rw [ordinary, hbalance, hsetting]

end Assembly
end CookbookAtlas.Recipe
