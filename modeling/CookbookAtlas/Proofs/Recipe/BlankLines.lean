import CookbookAtlas.Recipe.Statement
import Mathlib.Data.List.Basic

/-! Blank lines and comments between lines. A line that holds no code adds a line end behind another
one. Statements stay as they are, the line ends inside them apart, but for one place: a statement
that goes on only because its line is unfinished ends at the second line end. -/
namespace CookbookAtlas.Recipe

open List
variable {a after b blanks : List Token} {depth : Nat} {t : Token}

theorem isNewline_iff : t.isNewline = true ↔ t.kind = .newline := by simp [Token.isNewline]

section
variable {t : Token} {rest : List Token}

theorem statementsFrom_newline_nil (ht : t.kind = .newline) :
    statementsFrom 0 [] (t :: rest) = statementsFrom 0 [] rest := by
  simp [statementsFrom, ht]

theorem statementsFrom_newline_cons (ht : t.kind = .newline) (last : Token) (current : List Token) :
    statementsFrom 0 (last :: current) (t :: rest) = if continues last rest
    then statementsFrom 0 (t :: last :: current) rest
      else (last :: current).reverse :: statementsFrom 0 [] rest := by
  rw [statementsFrom]
  simp [ht]

/-- A token that neither ends the open statement nor stands between two. -/
theorem statementsFrom_push (hline : ¬(depth = 0 ∧ t.kind = .newline))
    (hsemi : ¬(depth = 0 ∧ t.kind = .semicolon)) (current : List Token) :
    statementsFrom depth current (t :: rest) =
      statementsFrom (t.kind.depthAfter depth) (t :: current) rest := by
  rw [statementsFrom.eq_def]
  simp only [if_neg hline, if_neg hsemi]

theorem statementsFrom_newline_inside (ht : t.kind = .newline) (hdepth : depth ≠ 0)
    (current : List Token) :
    statementsFrom depth current (t :: rest) = statementsFrom depth (t :: current) rest := by
  rw [statementsFrom_push (fun h => hdepth h.1) (fun h => hdepth h.1), ht]
  rfl

theorem statementsFrom_semicolon (ht : t.kind = .semicolon) (current : List Token) :
    statementsFrom 0 current (t :: rest) = finished current ++ statementsFrom 0 [] rest := by
  rw [statementsFrom.eq_def]
  simp [ht]

theorem statementsFrom_code (hline : t.kind ≠ .newline) (hsemi : t.kind ≠ .semicolon) (depth : Nat)
    (current : List Token) :
    statementsFrom depth current (t :: rest) =
      statementsFrom (t.kind.depthAfter depth) (t :: current) rest :=
  statementsFrom_push (fun h => hline h.2) (fun h => hsemi h.2) current

end

def gist (toks : List Token) : List Token := toks.filter fun t => !t.isNewline

@[simp] theorem gist_nil : gist [] = [] := rfl

theorem gist_cons_of_newline (h : t.isNewline = true) (toks : List Token) :
    gist (t :: toks) = gist toks := by
  simp [gist, h]

theorem gist_cons_of_code (h : t.isNewline = false) (toks : List Token) :
    gist (t :: toks) = t :: gist toks := by
  simp [gist, h]

@[simp] theorem gist_append (xs ys : List Token) : gist (xs ++ ys) = gist xs ++ gist ys := by
  simp [gist]

@[simp] theorem gist_reverse (toks : List Token) : gist toks.reverse = (gist toks).reverse := by
  simp [gist, filter_reverse]

theorem gist_of_blanks (h : ∀ t ∈ blanks, t.isNewline = true) : gist blanks = [] := by
  simpa [gist, filter_eq_nil_iff] using h

/-- What is left at the end of a token list is a statement if it holds more than line ends. -/
theorem gist_finished (current : List Token) :
    (finished (current.dropWhile Token.isNewline)).map gist =
      if gist current = [] then [] else [(gist current).reverse] := by
  induction current with
  | nil => rfl
  | cons t current ih =>
    cases ht : t.isNewline with
    | true => rw [dropWhile_cons_of_pos ht, ih, gist_cons_of_newline ht]
    | false =>
      rw [dropWhile_cons_of_neg (by simp [ht]), gist_cons_of_code ht]
      simp [finished, gist_cons_of_code ht]

/-- Two open statements, last token first, that go on and end alike. -/
structure SameOpen (a b : List Token) : Prop where
  gist_eq : gist a = gist b
  isEmpty_eq : a.isEmpty = b.isEmpty
  dangles_eq : a.head?.any (fun t => dangles t.kind) = b.head?.any fun t => dangles t.kind

theorem SameOpen.cons (h : SameOpen a b) (t : Token) : SameOpen (t :: a) (t :: b) where
  gist_eq := by
    cases ht : t.isNewline with
    | true => rw [gist_cons_of_newline ht, gist_cons_of_newline ht, h.gist_eq]
    | false => rw [gist_cons_of_code ht, gist_cons_of_code ht, h.gist_eq]
  isEmpty_eq := rfl
  dangles_eq := rfl

theorem SameOpen.gist_finished (h : SameOpen a b) :
    (finished a).map gist = (finished b).map gist := by
  cases a with
  | nil =>
    obtain rfl : b = [] := by simpa using h.isEmpty_eq
    rfl
  | cons s a =>
    cases b with
    | nil => exact absurd h.isEmpty_eq (by simp)
    | cons t b =>
      have hrev : gist (s :: a).reverse = gist (t :: b).reverse := by
        rw [gist_reverse, gist_reverse, h.gist_eq]
      simpa [finished] using hrev

theorem SameOpen.gist_statementsFrom (h : SameOpen a b) (depth : Nat) (rest : List Token) :
    (statementsFrom depth a rest).map gist = (statementsFrom depth b rest).map gist := by
  induction rest generalizing depth a b with
  | nil =>
    rw [statementsFrom, statementsFrom, Recipe.gist_finished, Recipe.gist_finished, h.gist_eq]
  | cons t rest ih =>
    rw [statementsFrom.eq_def, statementsFrom.eq_def depth b]
    dsimp only
    split
    · cases a with
      | nil =>
        obtain rfl : b = [] := by simpa using h.isEmpty_eq
        rfl
      | cons last a =>
        cases b with
        | nil => exact absurd h.isEmpty_eq (by simp)
        | cons last' b =>
          have hdangles : dangles last.kind = dangles last'.kind := by simpa using h.dangles_eq
          have hcontinues : continues last rest = continues last' rest := by rw [continues, continues, hdangles]
          dsimp only
          rw [hcontinues]
          split
          · exact ih (h.cons t) 0
          · simp only [map_cons, gist_reverse, h.gist_eq]
    · split
      · rw [map_append, map_append, h.gist_finished]
      · exact ih (h.cons t) _

theorem startsWithPoint_cons_of_newline (h : t.isNewline = true) (rest : List Token) :
    startsWithPoint (t :: rest) = startsWithPoint rest := by
  simp [startsWithPoint, h]

theorem startsWithPoint_append_congr (h : startsWithPoint a = startsWithPoint b)
    (before : List Token) : startsWithPoint (before ++ a) = startsWithPoint (before ++ b) := by
  induction before with
  | nil => exact h
  | cons t before ih =>
    cases ht : t.isNewline with
    | true => simpa [startsWithPoint_cons_of_newline ht] using ih
    | false => simp [startsWithPoint, ht]

theorem startsWithPoint_blanks (h : ∀ t ∈ blanks, t.isNewline = true) (after : List Token) :
    startsWithPoint (blanks ++ after) = startsWithPoint after := by
  induction blanks with
  | nil => rfl
  | cons t blanks ih =>
    rw [cons_append, startsWithPoint_cons_of_newline (h t mem_cons_self)]
    exact ih fun u hu => h u (mem_cons_of_mem _ hu)

theorem statementsFrom_blanks_nil (h : ∀ t ∈ blanks, t.isNewline = true) (after : List Token) :
    statementsFrom 0 [] (blanks ++ after) = statementsFrom 0 [] after := by
  induction blanks with
  | nil => rfl
  | cons t blanks ih =>
    have ht : t.kind = .newline := isNewline_iff.mp (h t mem_cons_self)
    rw [cons_append, statementsFrom_newline_nil ht]
    exact ih fun u hu => h u (mem_cons_of_mem _ hu)

/-- Inside brackets, and before a line that starts with a point, all line ends go into the
statement. -/
theorem statementsFrom_blanks_cons (h : ∀ t ∈ blanks, t.isNewline = true)
    (hgoes : depth ≠ 0 ∨ startsWithPoint after = true) (last : Token) (current : List Token) :
    statementsFrom depth (last :: current) (blanks ++ after) =
      statementsFrom depth (blanks.reverse ++ last :: current) after := by
  induction blanks generalizing last current with
  | nil => rfl
  | cons t blanks ih =>
    have ht : t.kind = .newline := isNewline_iff.mp (h t mem_cons_self)
    have hrest : ∀ u ∈ blanks, u.isNewline = true := fun u hu => h u (mem_cons_of_mem _ hu)
    have hstep : statementsFrom depth (last :: current) (t :: (blanks ++ after)) =
        statementsFrom depth (t :: last :: current) (blanks ++ after) := by
      by_cases hdepth : depth = 0
      · have hpoint : startsWithPoint after = true := hgoes.resolve_left fun hne => hne hdepth
        subst hdepth
        rw [statementsFrom_newline_cons ht, continues, startsWithPoint_blanks hrest, hpoint]
        simp
      · exact statementsFrom_newline_inside ht hdepth _
    rw [cons_append, hstep, ih hrest, reverse_cons, append_assoc, singleton_append]

def depthPast (depth : Nat) (toks : List Token) : Nat :=
  toks.foldl (fun depth t => t.kind.depthAfter depth) depth

/-- A statement goes on past a line end for its last token alone: the line end stands outside
brackets, the token before it dangles, and the one behind it neither ends a statement nor is a
point. -/
structure Severs (depth : Nat) (last : Option Token) (after : List Token) : Prop where
  outside : depth = 0
  dangling : ∃ t, last = some t ∧ dangles t.kind = true
  taken_up : ∃ t, after.head? = some t ∧ t.kind ∉ [.newline, .semicolon, .dot, .safeNavigation]

/-- One statement of `whole` is two statements of `parts`, cut behind `last` and before `next`. -/
def CutBetween (last next : Option Token) (whole parts : List Statement) : Prop :=
  ∃ earlier front back later, whole = earlier ++ (front ++ back) :: later ∧
    parts = earlier ++ front :: back :: later ∧
    front.getLast? = last ∧ back.head? = next

theorem CutBetween.append {last next : Option Token} {whole parts : List Statement}
    (h : CutBetween last next whole parts)
    (earlier : List Statement) : CutBetween last next (earlier ++ whole) (earlier ++ parts) := by
  obtain ⟨first, front, back, later, rfl, rfl, hlast, hnext⟩ := h
  exact ⟨earlier ++ first, front, back, later, by simp, by simp, hlast, hnext⟩

theorem Severs.not_startsWithPoint {last : Option Token} (h : Severs depth last after) :
    startsWithPoint after = false := by
  obtain ⟨t, hhead, hkind⟩ := h.taken_up
  obtain ⟨rest, rfl⟩ := List.head?_eq_some_iff.mp hhead
  simp only [mem_cons, not_mem_nil, or_false, not_or] at hkind
  obtain ⟨hline, -, hdot, hsafe⟩ := hkind
  simp [startsWithPoint, Token.isNewline, hline, hdot, hsafe]

theorem not_severs_none (depth : Nat) (after : List Token) : ¬Severs depth none after :=
  fun hsevers => by
  obtain ⟨t, ht, -⟩ := hsevers.dangling
  cases ht

theorem not_severs_of_last (ht : dangles t.kind = false) (depth : Nat) (after : List Token) :
    ¬Severs depth (some t) after := fun hsevers => by
  obtain ⟨u, hu, hdangles⟩ := hsevers.dangling
  obtain rfl : t = u := by simpa using hu
  simp [ht] at hdangles

theorem not_severs_nil (depth : Nat) (last : Option Token) : ¬Severs depth last [] :=
  fun hsevers => by
  obtain ⟨t, ht, -⟩ := hsevers.taken_up
  cases ht

theorem not_severs_of_next (ht : t.kind ∈ [.newline, .semicolon, .dot, .safeNavigation])
    (depth : Nat) (last : Option Token)
    (after : List Token) : ¬Severs depth last (t :: after) := fun hsevers => by
  obtain ⟨u, hu, hkind⟩ := hsevers.taken_up
  obtain rfl : t = u := by simpa using hu
  exact hkind ht

theorem finished_cons (t : Token) (current : List Token) :
    finished (t :: current) = [(t :: current).reverse] := rfl

/-- A statement that was opened by `next` and one that held `base` before it end at the
same place. -/
theorem statementsFrom_cut {next : Token} (hnext : next.isNewline = false) (base mid : List Token)
    (depth : Nat) (rest : List Token) :
      ∃ tail later, (statementsFrom depth (mid ++ next :: base) rest).map gist =
      ((gist base).reverse ++ next :: tail) :: later ∧
      (statementsFrom depth (mid ++ [next]) rest).map gist = (next :: tail) :: later := by
  induction rest generalizing mid depth with
  | nil =>
    refine ⟨(gist mid).reverse, [], ?_, ?_⟩ <;>
      simp [statementsFrom, gist_finished, gist_cons_of_code hnext]
  | cons t rest ih =>
    have hclosed : gist (mid ++ next :: base).reverse =
        (gist base).reverse ++ next :: (gist mid).reverse ∧
        gist (mid ++ [next]).reverse = next :: (gist mid).reverse := by
      simp [gist_cons_of_code hnext]
    obtain ⟨last, x, y, hx, hy⟩ : ∃ last x y, mid ++ next :: base = last :: x ∧
        mid ++ [next] = last :: y := by
      cases mid <;> simp
    rw [hx, hy] at hclosed
    rw [statementsFrom.eq_def, statementsFrom.eq_def depth (mid ++ [next]), hx, hy]
    dsimp only
    split
    · split
      · simpa [hx, hy] using ih (t :: mid) 0
      · exact ⟨_, _, by rw [map_cons, hclosed.1], by rw [map_cons, hclosed.2]⟩
    · split
      · rw [finished_cons, finished_cons, singleton_append, singleton_append]
        exact ⟨_, _, by rw [map_cons, hclosed.1], by rw [map_cons, hclosed.2]⟩
      · simpa [hx, hy] using ih (t :: mid) (t.kind.depthAfter depth)

/-- What more line ends behind a line end do to statements. -/
def Repeated (depth : Nat) (last : Option Token) (after : List Token) (once more : List Statement) :
    Prop :=
  (¬Severs depth last after → more = once) ∧
    (Severs depth last after → CutBetween last after.head? once more)

section
variable {depth : Nat} {last : Option Token} {after : List Token} {once more : List Statement}

theorem Repeated.of_eq (hno : ¬Severs depth last after) (h : more = once) :
    Repeated depth last after once more :=
  ⟨fun _ => h, fun hyes => absurd hyes hno⟩

theorem Repeated.append (h : Repeated depth last after once more) (earlier : List Statement) :
    Repeated depth last after (earlier ++ once) (earlier ++ more) :=
  ⟨fun hno => by rw [h.1 hno], fun hyes => (h.2 hyes).append earlier⟩

theorem Repeated.behind (ht : dangles t.kind = false) {before : List Token}
    (h : Repeated depth before.getLast? after once more)
    (current : List Token) : Repeated depth (current ++ t :: before).getLast? after once more := by
  cases before with
  | nil =>
    rw [List.getLast?_concat]
    exact .of_eq (not_severs_of_last ht depth after) (h.1 (not_severs_none depth after))
  | cons u before =>
    rw [List.getLast?_append_of_ne_nil _ (by simp), List.getLast?_cons_cons]
    exact h

end

section
variable {nl : Token} {blanks : List Token}

theorem sameOpen_blanks (hblanks : ∀ t ∈ blanks, t.isNewline = true) (hnl : nl.isNewline = true)
    (current : List Token) : SameOpen (blanks.reverse ++ nl :: current) (nl :: current) where
  gist_eq := by simp [gist_of_blanks hblanks]
  isEmpty_eq := by simp
  dangles_eq := by
    have hfalse : ∀ t : Token, t.isNewline = true → dangles t.kind = false := fun t ht => by
      rw [isNewline_iff.mp ht]
      rfl
    rcases eq_nil_or_concat blanks with rfl | ⟨front, t, rfl⟩
    · rfl
    · simp [hfalse t (hblanks t (by simp)), hfalse nl hnl]

/-- All line ends are taken: the statement is in brackets, or a point follows. -/
theorem gist_statementsFrom_blanks (hnl : nl.isNewline = true)
    (hblanks : ∀ t ∈ blanks, t.isNewline = true)
    (hgoes : depth ≠ 0 ∨ startsWithPoint after = true) (current : List Token) :
    (statementsFrom depth (nl :: current) (blanks ++ after)).map gist =
      (statementsFrom depth (nl :: current) after).map gist := by
  rw [statementsFrom_blanks_cons hblanks hgoes]
  exact (sameOpen_blanks hblanks hnl current).gist_statementsFrom depth after

theorem statementsFrom_blankLine (hnl : nl.isNewline = true)
    (hblanks : ∀ t ∈ blanks, t.isNewline = true) (hsome : blanks ≠ [])
    (hpoint : startsWithPoint after = false) (current : List Token) :
    statementsFrom 0 (nl :: current) (blanks ++ after) =
      (nl :: current).reverse :: statementsFrom 0 [] after := by
  cases blanks with
  | nil => exact absurd rfl hsome
  | cons blank blanks =>
    have hblank : blank.kind = .newline := isNewline_iff.mp (hblanks blank mem_cons_self)
    have hrest : ∀ t ∈ blanks, t.isNewline = true := fun t ht => hblanks t (mem_cons_of_mem _ ht)
    have hends : continues nl (blanks ++ after) = false := by
      rw [continues, startsWithPoint_blanks hrest, hpoint, isNewline_iff.mp hnl]
      rfl
    rw [cons_append, statementsFrom_newline_cons hblank, hends, statementsFrom_blanks_nil hrest]
    simp

/-- Behind an unfinished line, a token that takes the statement up opens one of its own instead;
where nothing does, the statement ends here anyway. -/
theorem repeated_unfinished (hnl : nl.isNewline = true) {last : Token}
    (hdangles : dangles last.kind = true)
    (current : List Token) (hpoint : startsWithPoint after = false) :
    Repeated 0 (some last) after ((statementsFrom 0 (nl :: last :: current) after).map gist)
      ((gist (last :: current)).reverse :: (statementsFrom 0 [] after).map gist) := by
  have hlast : last.isNewline = false := by
    cases hline : last.isNewline with
    | false => rfl
    | true =>
      rw [isNewline_iff.mp hline] at hdangles
      exact absurd hdangles (by decide)
  have hgist : gist (nl :: last :: current) = last :: gist current := by
    rw [gist_cons_of_newline hnl, gist_cons_of_code hlast]
  cases after with
  | nil =>
    refine .of_eq (not_severs_nil 0 _) ?_
    rw [statementsFrom, statementsFrom, gist_finished, gist_finished, hgist, gist_cons_of_code hlast]
    simp
  | cons next after =>
    by_cases hline : next.kind = .newline
    · have hends : continues nl after = false := by
        rw [continues, ← startsWithPoint_cons_of_newline (isNewline_iff.mpr hline), hpoint,
          isNewline_iff.mp hnl]
        rfl
      refine .of_eq (not_severs_of_next (by simp [hline]) 0 _ after) ?_
      rw [statementsFrom_newline_cons hline, statementsFrom_newline_nil hline, hends]
      simp [hgist, gist_cons_of_code hlast, -reverse_cons]
    · by_cases hsemi : next.kind = .semicolon
      · refine .of_eq (not_severs_of_next (by simp [hsemi]) 0 _ after) ?_
        rw [statementsFrom_semicolon hsemi, statementsFrom_semicolon hsemi, finished_cons]
        simp [finished, hgist, gist_cons_of_code hlast, -reverse_cons]
      · have hnext : next.isNewline = false := by simp [Token.isNewline, hline]
        obtain ⟨tail, later, hwhole, hparts⟩ :=
          statementsFrom_cut hnext (nl :: last :: current) [] (next.kind.depthAfter 0) after
        have hsevers : Severs 0 (some last) (next :: after) := by
          refine ⟨rfl, ⟨last, rfl, hdangles⟩, next, rfl, ?_⟩
          simp only [startsWithPoint, List.find?_cons, hnext, Bool.not_false, Bool.or_eq_false_iff,
            beq_eq_false_iff_ne] at hpoint
          simp [hline, hsemi, hpoint]
        refine ⟨fun hno => absurd hsevers hno, fun _ => ?_⟩
        refine ⟨[], (last :: gist current).reverse, next :: tail, later, ?_, ?_, by simp, rfl⟩
        · rw [statementsFrom_code hline hsemi]
          simpa [hgist] using hwhole
        · rw [statementsFrom_code hline hsemi]
          simpa [gist_cons_of_code hlast] using hparts

/-- The line end itself: what is read before it is the open statement `current`. -/
theorem repeated_lineEnd (hnl : nl.isNewline = true) (hblanks : ∀ t ∈ blanks, t.isNewline = true)
    (hsome : blanks ≠ []) (depth : Nat) (current after : List Token) :
    Repeated depth current.head? after ((statementsFrom depth current (nl :: after)).map gist)
      ((statementsFrom depth current (nl :: (blanks ++ after))).map gist) := by
  have hkind := isNewline_iff.mp hnl
  by_cases hdepth : depth = 0
  · subst hdepth
    cases current with
    | nil =>
      rw [statementsFrom_newline_nil hkind, statementsFrom_newline_nil hkind,
        statementsFrom_blanks_nil hblanks]
      exact .of_eq (not_severs_none 0 after) rfl
    | cons last current =>
      rw [statementsFrom_newline_cons hkind, statementsFrom_newline_cons hkind, continues,
        continues, startsWithPoint_blanks hblanks]
      cases hpoint : startsWithPoint after with
      | true =>
        refine .of_eq (fun hsevers => ?_) ?_
        · simp [hsevers.not_startsWithPoint] at hpoint
        · simpa using gist_statementsFrom_blanks hnl hblanks (.inr hpoint) (last :: current)
      | false =>
        cases hdangles : dangles last.kind with
        | true =>
          have hcut := statementsFrom_blankLine hnl hblanks hsome hpoint (last :: current)
          have hends := repeated_unfinished hnl hdangles current hpoint
          simpa [hcut, gist_cons_of_newline hnl, -reverse_cons] using hends
        | false =>
          exact .of_eq (not_severs_of_last hdangles 0 after) (by simp [statementsFrom_blanks_nil hblanks])
  · rw [statementsFrom_newline_inside hkind hdepth, statementsFrom_newline_inside hkind hdepth]
    exact .of_eq (fun hsevers => hdepth hsevers.outside)
      (gist_statementsFrom_blanks hnl hblanks (.inl hdepth) current)

theorem repeated_statementsFrom (hnl : nl.isNewline = true)
    (hblanks : ∀ t ∈ blanks, t.isNewline = true)
    (hsome : blanks ≠ []) (after before : List Token) (depth : Nat) (current : List Token) :
    Repeated (depthPast depth before) (current.reverse ++ before).getLast? after
      ((statementsFrom depth current (before ++ nl :: after)).map gist)
      ((statementsFrom depth current (before ++ nl :: (blanks ++ after))).map gist) := by
  induction before generalizing depth current with
  | nil =>
    rw [append_nil, List.getLast?_reverse]
    exact repeated_lineEnd hnl hblanks hsome depth current after
  | cons t before ih =>
    have hpoint : startsWithPoint (before ++ nl :: after) =
        startsWithPoint (before ++ nl :: (blanks ++ after)) := by
      apply startsWithPoint_append_congr
      rw [startsWithPoint_cons_of_newline hnl, startsWithPoint_cons_of_newline hnl,
        startsWithPoint_blanks hblanks]
    have htaken := ih (t.kind.depthAfter depth) (t :: current)
    rw [reverse_cons, append_assoc, singleton_append] at htaken
    rw [cons_append, cons_append, statementsFrom.eq_def, statementsFrom.eq_def depth current (t :: _)]
    dsimp only
    change Repeated (depthPast (t.kind.depthAfter depth) before) _ _ _ _
    split
    · rename_i hline
      obtain ⟨rfl, hkind⟩ := hline
      have hskipped := (ih 0 []).behind (t := t) (by rw [hkind]; rfl) current.reverse
      rw [hkind] at htaken ⊢
      cases current with
      | nil => exact hskipped
      | cons last current =>
        dsimp only
        rw [continues, continues, hpoint]
        split
        · exact htaken
        · exact hskipped.append [gist (last :: current).reverse]
    · split
      · rename_i hsemi
        obtain ⟨rfl, hkind⟩ := hsemi
        have hskipped := (ih 0 []).behind (t := t) (by rw [hkind]; rfl) current.reverse
        rw [map_append, map_append, hkind]
        exact hskipped.append _
      · exact htaken

end

/-- Line ends behind a line end change the statements in nothing but the line ends inside them,
unless the statement before them goes on for its last token alone. Such a statement is cut in two
there, and all others stay. -/
theorem statements_blank_lines (before after blanks : List Token) (nl : Token)
    (hnl : nl.isNewline = true) (hblanks : ∀ t ∈ blanks, t.isNewline = true) (hsome : blanks ≠ []) :
    (¬Severs (depthPast 0 before) before.getLast? after →
      (statements (before ++ nl :: (blanks ++ after))).map gist =
      (statements (before ++ nl :: after)).map gist) ∧
    (Severs (depthPast 0 before) before.getLast? after →
      CutBetween before.getLast? after.head? ((statements (before ++ nl :: after)).map gist)
        ((statements (before ++ nl :: (blanks ++ after))).map gist)) :=
  repeated_statementsFrom hnl hblanks hsome after before 0 []

def bare (kind : Token.Kind) : Token := ⟨kind, 1, 0, 0⟩

def listFront : List Token :=
  [bare (.ident "ports"), bare .assign, bare .leftBracket, bare (.number "80"), bare .comma]

def listBack : List Token := [bare (.number "443"), bare .rightBracket, bare .newline]

theorem blank_line_in_list :
    (bare .newline).isNewline = true ∧ ¬Severs (depthPast 0 listFront) listFront.getLast? listBack ∧
    (statements (listFront ++ bare .newline :: ([bare .newline] ++ listBack))).map gist =
      [listFront ++ [bare (.number "443"), bare .rightBracket]] := by
  have hnot : ¬Severs (depthPast 0 listFront) listFront.getLast? listBack :=
    fun hsevers => absurd hsevers.outside (by decide)
  have hsame := (statements_blank_lines listFront listBack [bare .newline] (bare .newline) rfl
    (by simp [Token.isNewline, bare]) (by simp)).1 hnot
  refine ⟨rfl, hnot, ?_⟩
  rw [hsame]
  decide +kernel

theorem blank_line_severs_assignment :
    ¬∀ (before after : List Token) (nl : Token), nl.isNewline = true →
      (statements (before ++ nl :: nl :: after)).map gist =
      (statements (before ++ nl :: after)).map gist := by
  intro h
  have hsame := h [bare (.ident "port"), bare .assign] [bare (.number "80")] (bare .newline) rfl
  exact absurd hsame (by decide +kernel)

end CookbookAtlas.Recipe
