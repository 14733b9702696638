import CookbookAtlas.Proofs.Recipe.Checked

/-! The checked reader from blocks to whole files, and that it reads every file as the unchecked one
does. -/
namespace CookbookAtlas.Recipe

open List Text
open Option hiding guard
variable {b : Assembly} {list : List Statement} {later rest : List Token} {stop : Nat} {first : Token}

/-- The offset from which the text of a block is cut when it closes. -/
def Shape.start? : Shape → Option Nat
  | .resource _ start | .captured _ start => some start
  | _ => none

namespace Assembly
variable (a : Assembly)

def starts : List (Option Nat) := a.frames.map fun frame => frame.shape.start?

@[simp] theorem starts_addFact (fact : Fact) : (a.addFact fact).starts = a.starts := rfl

@[simp] theorem starts_addItems (items : List Item) : (a.addItems items).starts = a.starts := by
  obtain ⟨frames, old, facts⟩ := a
  cases frames <;> rfl

@[simp] theorem starts_addResource (r : Resource) : (a.addResource r).starts = a.starts := by
  rw [addResource, starts_addItems, starts_addFact]

@[simp] theorem starts_addProperty (key value : String) :
    (a.addProperty key value).starts = a.starts := by
  obtain ⟨frames, items, facts⟩ := a
  show (amendResource key value frames).map (fun frame => frame.shape.start?) =
      frames.map fun frame => frame.shape.start?
  induction frames with
  | nil => rfl
  | cons frame rest ih =>
    obtain ⟨shape, inner⟩ := frame
    cases shape <;> simp_all [amendResource, Shape.start?]

@[simp] theorem starts_push (shape : Shape) : (a.push shape).starts = shape.start? :: a.starts :=
  rfl

theorem starts_absorb (s : Source) (frame : Frame) (stop : Nat) (guard : Option String) :
    (absorb s a frame stop guard).starts = a.starts := by
  rw [absorb]
  repeat' split
  all_goals simp

theorem starts_pop (s : Source) (stop : Nat) (guard : Option String) :
    (a.pop s stop guard).starts = a.starts.tail := by
  obtain ⟨frames, items, facts⟩ := a
  cases frames with
  | nil => rfl
  | cons frame rest => exact starts_absorb ⟨rest, items, facts⟩ s frame stop guard

theorem starts_close (s : Source) (stop : Nat) (guard : Option String) :
    (a.close s stop guard).starts ⊆ a.starts := by
  have hpop : ∀ (b : Assembly) (g : Option String), (b.pop s stop g).starts ⊆ b.starts :=
    fun b g => by
    rw [starts_pop]
    exact (tail_sublist _).subset
  rw [close]
  split
  · exact List.Subset.trans (hpop _ none) (hpop a guard)
  · exact hpop a guard

theorem starts_fillers (filler : Shape) (count : Nat) :
    ((List.replicate count filler).foldl push a).starts =
    List.replicate count filler.start? ++ a.starts := by
  induction count generalizing a with
  | zero => rfl
  | succ count ih =>
    rw [replicate_succ, foldl_cons, ih, starts_push, replicate_succ', append_assoc]
    rfl

theorem starts_foldl {α : Type} (f : Assembly → α → Assembly)
    (hf : ∀ a x, (f a x).starts = a.starts) (xs : List α) : (xs.foldl f a).starts = a.starts := by
  induction xs generalizing a with
  | nil => rfl
  | cons x xs ih => rw [foldl_cons, ih, hf]

theorem starts_property (s : Source) (toks : Statement) :
    (a.property s toks).starts = a.starts := by
  rw [property]
  repeat' split
  all_goals simp

theorem starts_plain (s : Source) (toks : Statement) : (a.plain s toks).starts = a.starts := by
  have hinclude : ∀ line guard (b : Assembly) r,
      (addInclude s line guard b r).starts = b.starts := by
    intro line guard b r
    rw [addInclude, starts_addItems, starts_addFact]
  have hresource : ∀ main guard, (resourceLine s a toks main guard).starts = a.starts := by
    intro main guard
    rw [resourceLine]
    split <;> simp
  simp only [plain]
  split
  · exact starts_foldl a _ (hinclude _ _) _
  split
  · exact starts_foldl a _ (fun b r => starts_addFact b _) _
  split
  · exact starts_foldl a _ (fun b r => starts_addFact b _) _
  split
  · exact starts_addFact a _
  · exact hresource _ _

end Assembly

namespace Checked

open Assembly

variable {s : Source} {toks : List Token} {a : Assembly}

/-- Every open block starts before the offset, and both are boundaries. -/
def Reaches (s : Source) (a : Assembly) (stop : Nat) : Prop :=
  isBoundary s stop = true ∧ ∀ start, some start ∈ a.starts →
    isBoundary s start = true ∧ start ≤ stop

theorem Reaches.subset (h : Reaches s a stop) (hsub : b.starts ⊆ a.starts) : Reaches s b stop :=
  ⟨h.1, fun start hstart => h.2 start (hsub hstart)⟩

def absorb (s : Source) (a : Assembly) (frame : Frame) (stop : Nat) (guard : Option String) :
    Option Assembly :=
  match frame.shape with
  | .resource call start => do
    let raw ← cut s start stop
    let call := { call with raw := String.ofList raw }
    some (a.addResource (match guard with
      | some text => call.addProperty "guard" text
      | none => call))
  | .conditional heading _ | .caseOf heading => some (a.addItems [.block heading frame.items])
  | .transparent => some (a.addItems frame.items)
  | .captured (some key) start =>
    if isKnownProperty key then (between s (min start stop) stop).map (a.addProperty key)
      else some a
  | _ => some a

theorem absorb_eq {frame : Frame} (hstop : isBoundary s stop = true)
    (hstart : ∀ start, frame.shape.start? = some start → isBoundary s start = true ∧ start ≤ stop)
    (guard : Option String) :
    absorb s a frame stop guard = some (Assembly.absorb s a frame stop guard) := by
  obtain ⟨shape, items⟩ := frame
  cases shape with
  | resource call start =>
    obtain ⟨hboundary, hle⟩ := hstart start rfl
    simp only [absorb, Assembly.absorb, cut_eq hle hboundary hstop]
    rfl
  | captured key start =>
    obtain ⟨hboundary, hle⟩ := hstart start rfl
    cases key with
    | none => rfl
    | some key =>
      simp only [absorb, Assembly.absorb, Nat.min_eq_left hle, between_eq hle hboundary hstop]
      split <;> rfl
  | _ => rfl

def pop (s : Source) (a : Assembly) (stop : Nat) (guard : Option String) : Option Assembly :=
  match a.frames with
  | [] => some a
  | frame :: rest => absorb s { a with frames := rest } frame stop guard

theorem pop_eq (h : Reaches s a stop) (guard : Option String) :
    pop s a stop guard = some (a.pop s stop guard) := by
  obtain ⟨frames, items, facts⟩ := a
  cases frames with
  | nil => rfl
  | cons frame rest =>
    refine absorb_eq h.1 (fun start hstart => h.2 start ?_) guard
    rw [← hstart]
    exact mem_cons_self

def close (s : Source) (a : Assembly) (stop : Nat) (guard : Option String) : Option Assembly := do
  let closed ← pop s a stop guard
  if a.frames.head?.any isArm then pop s closed stop none else some closed

theorem close_eq (h : Reaches s a stop) (guard : Option String) :
    close s a stop guard = some (a.close s stop guard) := by
  have hpopped : Reaches s (a.pop s stop guard) stop :=
    h.subset (by rw [starts_pop]; exact (tail_sublist _).subset)
  rw [close, pop_eq h guard, Assembly.close]
  dsimp only [bind_eq_bind, bind_some]
  split
  · exact pop_eq hpopped none
  · rfl

def heading (s : Source) (kind : BlockKind) (toks : List Token) : Option Heading := do
  let first ← toks.head?
  let shown ← line s (dropTail toks)
  some ⟨kind, shown, first.line, []⟩

theorem heading_eq (h : Ordered s toks) (hfirst : toks.head? = some first) (kind : BlockKind) :
    heading s kind toks = some (Assembly.heading s kind toks) := by
  rw [heading, hfirst, line_eq (h.sublist (dropTail_sublist toks)), Assembly.heading, hfirst]
  rfl

def opener (s : Source) (toks : Statement) : Option (Shape × Option Fact) := do
  let first ← toks.head?
  let word := first.ident?.getD ""
  let conditional (kind : BlockKind) : Option (Shape × Option Fact) :=
    (heading s kind toks).map fun h => (.conditional h false, none)
  if word = "if" then conditional .ifBlock
  else if word = "unless" then conditional .unlessBlock
  else if word = "while" then conditional .whileLoop
  else if word = "until" then conditional .untilLoop
  else if word = "for" then conditional .forLoop
  else if word = "case" then (heading s .caseBlock toks).map fun h => (.caseOf h, none)
  else if word = "begin" then some (.transparent, none)
  else if word = "def" ∨ word = "class" ∨ word = "module" then some (.definition, none)
  else do
    match ← assignment s toks with
    | some a => some (.transparent, some (.assignment a))
    | none =>
      match ← blockDo toks with
      | none => some (.transparent, none)
      | some (head, parameters) => do
        match ← resourceCall s head true with
        | some call => some (.resource call first.start, none)
        | none =>
          match ← eachCall s head with
          | some (receiver, method) =>
            let shown := receiver ++ "." ++ method
            some (.conditional ⟨.eachLoop, shown, first.line, parameters⟩ false, none)
          | none => some (.transparent, none)

theorem opener_eq (h : Ordered s toks) (hfirst : toks.head? = some first) :
    opener s toks = some (Assembly.opener s toks) := by
  have hheading := heading_eq h hfirst
  rw [opener, Assembly.opener, hfirst]
  dsimp only [bind_eq_bind, bind_some, map_some, getD_some]
  simp only [hheading, assignment_eq h, map_some, bind_some, apply_ite some]
  iterate 8 apply congrArg (ite _ _)
  cases assignment? s toks with
  | some found => rfl
  | none =>
    simp only [blockDo_eq, bind_some]
    cases hblock : blockDo? toks with
    | none => rfl
    | some block =>
      obtain ⟨head, parameters⟩ := block
      have hhead : head.Sublist toks := (blockDo_starts hblock).sublist
      simp only [resourceCall_eq (h.sublist hhead)]
      cases resourceCall? s head true with
      | some call => rfl
      | none =>
        simp only [eachCall_eq (h.sublist hhead)]
        cases eachCall? head <;> rfl

def openBlocks (s : Source) (a : Assembly) (toks : Statement) (count : Nat) : Option Assembly := do
  let first ← toks.head?
  let (primary, filler, fact) ← match a.setting with
    | .inCapture => some (Shape.captured none first.start, Shape.captured none first.start, none)
    | .inResource => some (innerOpener toks, Shape.captured none first.start, none)
    | .normal => (opener s toks).map fun (shape, fact) => (shape, Shape.transparent, fact)
  let noted := match fact with
    | some fact => a.addFact fact
    | none => a
  some ((List.replicate count filler).foldl push (noted.push primary))

theorem openBlocks_eq (h : Ordered s toks) (hfirst : toks.head? = some first) (count : Nat) :
    openBlocks s a toks count = some (a.openBlocks s toks count) := by
  rw [openBlocks, Assembly.openBlocks, hfirst]
  cases a.setting with
  | inCapture | inResource => rfl
  | normal =>
    simp only [opener_eq h hfirst]
    rfl

def property (s : Source) (a : Assembly) (toks : Statement) : Option Assembly := do
  match (← modified toks).1 with
  | [] => some a
  | first :: rest =>
    match first.ident? with
    | none => some a
    | some key =>
      if (rest.head?.map Token.kind).any Token.Kind.isAssignment
        then (text s (rest.drop 1)).map (a.addProperty key)
      else if isKnownProperty key then (text s (stripParens rest)).map (a.addProperty key)
      else some a

theorem property_eq (h : Ordered s toks) : property s a toks = some (a.property s toks) := by
  have hmain : (splitModifier 0 none toks).1.Sublist toks :=
    List.IsPrefix.sublist ⟨_, append_splitModifier 0 none toks⟩
  rw [property, modified_eq, Assembly.property]
  dsimp only [bind_eq_bind, bind_some]
  cases hsplit : (splitModifier 0 none toks).1 with
  | nil => rfl
  | cons first rest =>
    rw [hsplit] at hmain
    have hrest : rest.Sublist toks := (sublist_cons_self first rest).trans hmain
    dsimp only
    rw [text_eq (h.sublist ((drop_sublist 1 rest).trans hrest)),
      text_eq (h.sublist ((stripParens_sublist rest).trans hrest))]
    cases first.ident? with
    | none => rfl
    | some key =>
      dsimp only
      split_ifs <;> rfl

/-- The property between the `do` at an index and an `end`. -/
def inlineProperty (s : Source) (r : Resource) (main : List Token) (i : Nat) : Option Resource :=
  if main.getLast?.any fun t => t.isWord "end" then do
    let stop ← down main.length
    if i + 1 < stop then do
      let inside ← stretch main (i + 1) stop
      match inside.head?.bind Token.ident? with
      | some word =>
        if isKnownProperty word then do
          let value ← stretch inside 1 inside.length
          (text s (stripParens value)).map (r.addProperty word)
        else some r
      | none => some r
    else some r
  else some r

theorem inlineProperty_eq {before after : List Token} {mark : Token}
    (hmark : mark.isWord "do" = true) (h : Ordered s after) (r : Resource) :
    inlineProperty s r (before ++ mark :: after) before.length =
      some (Assembly.inlineProperty s r after) := by
  cases after using List.reverseRecOn with
  | nil =>
    have hkind : mark.kind = .ident "do" := by simpa [Token.isWord] using hmark
    simp [inlineProperty, Assembly.inlineProperty, Token.isWord, hkind]
  | append_singleton inner last _ =>
    have hlast : (before ++ mark :: (inner ++ [last])).getLast? = some last := by
      rw [← cons_append, ← append_assoc, List.getLast?_concat]
    have hinner : stretch (before ++ mark :: (inner ++ [last])) (before.length + 1)
        (before.length + 1 + inner.length) = some inner := by
      simpa using stretch_middle (before ++ [mark]) inner [last]
    have hstop : down (before ++ mark :: (inner ++ [last])).length =
        some (before.length + 1 + inner.length) := by
      rw [down_eq (by simp)]
      simp [Nat.add_assoc, Nat.add_comm 1]
    rw [inlineProperty, Assembly.inlineProperty, hstop, hlast, List.getLast?_concat,
      dropLast_concat, any_some]
    cases inner with
    | nil => simp
    | cons key value =>
      have hvalue : value.Sublist (key :: value ++ [last]) :=
        (sublist_append_left value [last]).cons key
      have hbehind : stretch (key :: value) 1 (key :: value).length = some value :=
        stretch_past [] key value
      have htext := text_eq (h.sublist ((stripParens_sublist value).trans hvalue))
      simp only [bind_eq_bind, bind_some, hinner, List.head?_cons, hbehind, htext]
      cases key.ident? <;> cases last.isWord "end" <;> simp [apply_ite some]

def guarded (s : Source) (lineNumber : Nat) (guard : List Token) (item : Item) : Option Item :=
  match guard.head?.bind Token.ident? with
  | some word =>
    if word = "if" then (line s guard).map fun shown =>
      .block ⟨.ifBlock, shown, lineNumber, []⟩ [item]
    else if word = "unless" then (line s guard).map fun shown =>
      .block ⟨.unlessBlock, shown, lineNumber, []⟩ [item]
    else some item
  | none => some item

theorem guarded_eq {guard : List Token} (h : Ordered s guard) (lineNumber : Nat) (item : Item) :
    guarded s lineNumber guard item = some (Assembly.guarded s lineNumber guard item) := by
  rw [guarded, Assembly.guarded, line_eq h]
  cases guard.head?.bind Token.ident? with
  | none => rfl
  | some word =>
    dsimp only
    split_ifs <;> rfl

def addInclude (s : Source) (lineNumber : Nat) (guard : List Token) (a : Assembly) (r : Reference) :
    Option Assembly :=
  (guarded s lineNumber guard (.inclusion r)).map fun item =>
    (a.addFact (.reference r)).addItems [item]

def resourceLine (s : Source) (a : Assembly) (toks main guard : List Token) : Option Assembly := do
  let inline ← firstDo main 0 main
  let head ← match inline with
    | some i => stretch main 0 i
    | none => some main
  match ← resourceCall s head inline.isSome with
  | none => some a
  | some call => do
    let call ← match inline with
      | some i => inlineProperty s call main i
      | none => some call
    let raw ← text s toks
    let call := { call with raw := raw }
    if guard.isEmpty then some (a.addResource call)
    else (line s guard).map fun shown => a.addResource (call.addProperty "guard" shown)

theorem resourceLine_eq {main guard : List Token} (h : Ordered s toks) (hmain : main.Sublist toks)
    (hguard : guard.Sublist toks) :
    resourceLine s a toks main guard = some (Assembly.resourceLine s a toks main guard) := by
  have hindex := firstDo_eq [] main
  rw [nil_append, length_nil, lastKind_nil] at hindex
  rw [resourceLine, Assembly.resourceLine, text_eq h, line_eq (h.sublist hguard), hindex]
  cases hinline : splitFirstDo none main with
  | none =>
    simp only [map_none, getD_none, bind_eq_bind, bind_some,
      resourceCall_eq (h.sublist hmain), isSome_none]
    cases resourceCall? s main false with
    | none => rfl
    | some call =>
      dsimp only [bind_some]
      split_ifs <;> rfl
  | some inline =>
    obtain ⟨head, after⟩ := inline
    obtain ⟨mark, hmark, rfl⟩ := splitFirstDo_eq hinline
    have hhead : head.Sublist toks := (sublist_append_left _ _).trans hmain
    have hafter : after.Sublist toks :=
      ((sublist_cons_self mark after).trans (sublist_append_right _ _)).trans hmain
    simp only [map_some, getD_some, bind_eq_bind, bind_some, Nat.zero_add,
      stretch_before, resourceCall_eq (h.sublist hhead), isSome_some]
    cases resourceCall? s head true with
    | none => rfl
    | some call =>
      dsimp only [bind_some]
      rw [inlineProperty_eq hmark (h.sublist hafter)]
      dsimp only [bind_some]
      split_ifs <;> rfl

def plain (s : Source) (a : Assembly) (toks : Statement) : Option Assembly := do
  let (main, guard) ← modified toks
  let first ← main.head?
  let word := first.ident?.getD ""
  if word = "include_recipe" then
    (← references s .includeRecipe main).foldlM (addInclude s first.line guard) a
  else if word = "require" then
    (references s .require main).map fun found =>
      found.foldl (fun a r => a.addFact (.reference r)) a
  else if word = "require_relative" then
    (references s .requireRelative main).map fun found =>
      found.foldl (fun a r => a.addFact (.reference r)) a
  else match ← assignment s main with
    | some assignment => some (a.addFact (.assignment assignment))
    | none => resourceLine s a toks main guard

theorem plain_eq (h : Ordered s toks) (hfirst : toks.head? = some first) :
    plain s a toks = some (a.plain s toks) := by
  obtain ⟨rest, rfl⟩ := List.head?_eq_some_iff.mp hfirst
  have happend := append_splitModifier 0 none (first :: rest)
  have hmain : (splitModifier 0 none (first :: rest)).1.Sublist (first :: rest) :=
    List.IsPrefix.sublist ⟨_, happend⟩
  have hguard : (splitModifier 0 none (first :: rest)).2.Sublist (first :: rest) :=
    List.IsSuffix.sublist ⟨_, happend⟩
  have hhead := head_splitModifier first rest
  rw [plain, modified_eq, Assembly.plain]
  rcases hsplit : splitModifier 0 none (first :: rest) with ⟨main, guard⟩
  rw [hsplit] at hmain hguard hhead
  have hne : main ≠ [] := by
    rintro rfl
    cases hhead
  have hreferences := references_eq (h.sublist hmain) hne
  have hinclude : ∀ (found : List Reference), found.foldlM (addInclude s first.line guard) a =
      some (found.foldl (Assembly.addInclude s first.line guard) a) := by
    refine fun found => foldlM_eq a fun r _ b => ?_
    rw [addInclude, guarded_eq (h.sublist hguard)]
    rfl
  dsimp only [bind_eq_bind, bind_some] at hhead ⊢
  rw [hhead]
  simp only [getD_some, hreferences, hinclude, assignment_eq (h.sublist hmain),
    resourceLine_eq h hmain hguard, bind_some, map_some]
  split_ifs
  iterate 3 rfl
  cases assignment? s main <;> rfl

def clause (s : Source) (a : Assembly) (word : String) (head : List Token) :
    Option (Option Assembly) :=
  (clauseKind? word a.chain).mapM fun (kind, arm) => do
    let first ← head.head?
    let closed ← if a.chain = .caseOf then some a else pop s a first.start none
    let shown ← heading s kind head
    some (closed.push (.conditional shown arm))

theorem clause_eq {word : String} {head : List Token} (h : Ordered s head)
    (hfirst : head.head? = some first)
    (hreaches : Reaches s a first.start) : clause s a word head = some (a.clause? s word head) := by
  rw [clause, clause?]
  refine mapM_option_eq fun kind _ => ?_
  obtain ⟨kind, arm⟩ := kind
  dsimp only
  rw [hfirst]
  dsimp only [bind_eq_bind, bind_some, map_some, getD_some]
  rw [heading_eq h hfirst, pop_eq hreaches]
  split_ifs <;> rfl

def endGuard (s : Source) (rest : List Token) : Option (Option String) :=
  match rest with
  | t :: _ => if t.isWord "if" || t.isWord "unless" then (line s rest).map some else some none
  | [] => some none

theorem endGuard_eq (h : Ordered s rest) : endGuard s rest = some (endGuard? s rest) := by
  cases rest with
  | nil => rfl
  | cons t rest =>
    rw [endGuard, endGuard?, line_eq h]
    split_ifs <;> rfl

def ordinary (s : Source) (a : Assembly) (toks : Statement) : Option Assembly := do
  match ← balance toks with
  | .ofNat (count + 1) => openBlocks s a toks count
  | _ =>
    match a.setting with
    | .inCapture => some a
    | .inResource => property s a toks
    | .normal => plain s a toks

theorem ordinary_eq (hsize : Small s) (h : Ordered s toks) (hfirst : toks.head? = some first) :
    ordinary s a toks = some (a.ordinary s toks) := by
  have hclosed : (match a.setting with
      | .inCapture => some a
      | .inResource => property s a toks
      | .normal => plain s a toks) = some (match a.setting with
      | .inCapture => a
      | .inResource => a.property s toks
      | .normal => a.plain s toks) := by
    cases a.setting with
    | inCapture => rfl
    | inResource => exact property_eq h
    | normal => exact plain_eq h hfirst
  rw [ordinary, balance_eq hsize h, Assembly.ordinary]
  cases Recipe.balance toks with
  | ofNat count =>
    cases count with
    | zero => exact hclosed
    | succ count => exact openBlocks_eq h hfirst count
  | negSucc count => exact hclosed

def statement (s : Source) (a : Assembly) (toks : Statement) : Option Assembly :=
  match toks with
  | [] => some a
  | first :: rest =>
    let word := first.ident?.getD ""
    if word = "end" then (endGuard s rest).bind (close s a first.stop)
    else if isClause word then
      if a.setting = .normal then
        match clause s a word (splitClause word (first :: rest)).1 with
        | none => none
        | some none => some a
        | some (some next) => statement s next (splitClause word (first :: rest)).2
      else some a
    else if word = "rescue" ∨ word = "ensure" then some a
    else ordinary s a (first :: rest)
termination_by toks.length
decreasing_by exact length_splitClause _ _ _

/-- Every open block starts at a boundary, before all tokens that come later. -/
def Ready (s : Source) (a : Assembly) (later : List Token) : Prop :=
  ∀ start, some start ∈ a.starts → isBoundary s start = true ∧ ∀ t ∈ later, start ≤ t.start

theorem Ready.subset (h : Ready s a later)
    (hsub : ∀ start, some start ∈ b.starts → some start ∈ a.starts) : Ready s b later :=
  fun start hstart => h start (hsub start hstart)

theorem Ready.sublist (h : Ready s a later) (hrest : rest.Sublist later) : Ready s a rest :=
  fun start hstart => ⟨(h start hstart).1, fun t ht => (h start hstart).2 t (hrest.subset ht)⟩

theorem Ready.reaches {t : Token} (h : Ready s a later) (ht : t ∈ later) (hle : t.start ≤ stop)
    (hstop : isBoundary s stop = true) : Reaches s a stop :=
  ⟨hstop, fun start hstart => ⟨(h start hstart).1, Nat.le_trans ((h start hstart).2 t ht) hle⟩⟩

theorem Ready.opened (h : Ready s a (toks ++ later)) (hord : Ordered s (toks ++ later))
    (hb : ∀ start, some start ∈ b.starts → some start ∈ a.starts ∨ ∃ t ∈ toks, t.start = start) :
    Ready s b later := by
  intro start hstart
  rcases hb start hstart with hold | ⟨t, ht, rfl⟩
  · exact (h.sublist (sublist_append_right toks later)) start hold
  · have htold := hord.told t (mem_append_left later ht)
    refine ⟨isBoundary_start htold, fun u hu => ?_⟩
    have hbefore := (pairwise_append.mp hord.sorted).2.2 t ht u hu
    exact Nat.le_trans (Nat.le_of_lt htold.start_lt) hbefore

theorem start_opener (first : Token) (rest : List Token) {start : Nat}
    (h : (Assembly.opener s (first :: rest)).1.start? = some start) : first.start = start := by
  rw [Assembly.opener] at h
  repeat' split at h
  all_goals simp_all [Shape.start?]

theorem start_innerOpener {start : Nat} (h : (innerOpener toks).start? = some start) :
    ∃ t ∈ toks, t.start = start := by
  cases toks with
  | nil => cases h
  | cons first rest =>
    rw [innerOpener] at h
    split at h
    · cases rest with
      | nil => exact ⟨first, mem_cons_self, by simpa [Shape.start?] using h⟩
      | cons second rest => exact ⟨second, by simp, by simpa [Shape.start?] using h⟩
    · cases h

theorem starts_openBlocks {count start : Nat}
    (h : some start ∈ (a.openBlocks s (first :: rest) count).starts) :
    some start ∈ a.starts ∨ ∃ t ∈ first :: rest, t.start = start := by
  have hpushed : ∀ (primary filler : Shape) (b : Assembly), b.starts = a.starts →
      (primary.start? = some start → ∃ t ∈ first :: rest, t.start = start) →
      (filler.start? = some start → ∃ t ∈ first :: rest, t.start = start) →
      some start ∈ ((List.replicate count filler).foldl push (b.push primary)).starts →
      some start ∈ a.starts ∨ ∃ t ∈ first :: rest, t.start = start := by
    intro primary filler b hb hprimary hfiller hmem
    rw [starts_fillers, starts_push, hb] at hmem
    rcases mem_append.mp hmem with hmem | hmem
    · exact .inr (hfiller (eq_of_mem_replicate hmem).symm)
    · rcases mem_cons.mp hmem with hmem | hmem
      · exact .inr (hprimary hmem.symm)
      · exact .inl hmem
  have hfirst : ∀ key : Option String, (Shape.captured key first.start).start? = some start →
      ∃ t ∈ first :: rest, t.start = start :=
    fun key hkey => ⟨first, mem_cons_self, some.inj hkey⟩
  rw [Assembly.openBlocks] at h
  cases hsetting : a.setting with
  | inCapture =>
    rw [hsetting] at h
    exact hpushed _ _ a rfl (hfirst none) (hfirst none) h
  | inResource =>
    rw [hsetting] at h
    exact hpushed _ _ a rfl start_innerOpener (hfirst none) h
  | normal =>
    have hopened : (Assembly.opener s (first :: rest)).1.start? = some start →
        first.start = start := start_opener first rest
    rcases hopener : Assembly.opener s (first :: rest) with ⟨shape, fact⟩
    rw [hopener] at hopened
    rw [hsetting, hopener] at h
    have hprimary : shape.start? = some start → ∃ t ∈ first :: rest, t.start = start :=
      fun hshape => ⟨first, mem_cons_self, hopened hshape⟩
    have htransparent : Shape.transparent.start? = some start → ∃ t ∈ first :: rest, t.start = start :=
      fun hnone => absurd hnone (some_ne_none start).symm
    cases fact with
    | none => exact hpushed shape .transparent a rfl hprimary htransparent h
    | some fact => exact hpushed shape .transparent (a.addFact fact) rfl hprimary htransparent h

theorem starts_ordinary {start : Nat} (h : some start ∈ (a.ordinary s (first :: rest)).starts) :
    some start ∈ a.starts ∨ ∃ t ∈ first :: rest, t.start = start := by
  rw [Assembly.ordinary] at h
  split at h
  · exact starts_openBlocks h
  · split at h
    · exact .inl h
    · exact .inl (starts_property a s _ ▸ h)
    · exact .inl (starts_plain a s _ ▸ h)

theorem starts_clause {word : String} {head : List Token} {next : Assembly}
    (h : a.clause? s word head = some next)
    (start : Nat) (hstart : some start ∈ next.starts) : some start ∈ a.starts := by
  obtain ⟨⟨kind, arm⟩, -, rfl⟩ := map_eq_some_iff.mp h
  dsimp only at hstart
  rw [starts_push] at hstart
  have hclosed : some start ∈ (if a.chain = .caseOf then a
      else a.pop s ((head.head?.map Token.start).getD 0) none).starts := by
    simpa [Shape.start?] using hstart
  split at hclosed
  · exact hclosed
  · rw [starts_pop] at hclosed
    exact mem_of_mem_tail hclosed

theorem head_splitClause (h : isClause (first.ident?.getD "") = true) :
    (splitClause (first.ident?.getD "") (first :: rest)).1.head? = some first := by
  have hthen : first.isWord "then" = false := by
    by_contra hthen
    have hkind : first.kind = .ident "then" := by simpa [Token.isWord] using hthen
    simp [Token.ident?, Token.Kind.ident?, hkind, isClause] at h
  rw [splitClause]
  split
  · rfl
  · simp [hthen]

theorem clause_of_ready (hord : Ordered s (first :: rest ++ later))
    (hready : Ready s a (first :: rest ++ later))
    (hclause : isClause (first.ident?.getD "") = true) :
    clause s a (first.ident?.getD "") (splitClause (first.ident?.getD "") (first :: rest)).1 =
      some (a.clause? s (first.ident?.getD "") (splitClause (first.ident?.getD "") (first :: rest)).1) := by
  have hhead : Ordered s (splitClause (first.ident?.getD "") (first :: rest)).1 :=
    hord.sublist ((splitClause_head_sublist _ _).trans (sublist_append_left _ later))
  have hstart := isBoundary_start (hord.told first mem_cons_self)
  exact clause_eq hhead (head_splitClause hclause) (hready.reaches mem_cons_self (Nat.le_refl _) hstart)

/-- A statement is taken without a failed check, and blocks start before what is left. -/
theorem statement_eq (hsize : Small s) (hord : Ordered s (toks ++ later))
    (hready : Ready s a (toks ++ later)) :
    statement s a toks = some (a.statement s toks) ∧ Ready s (a.statement s toks) later := by
  fun_induction Assembly.statement s a toks with
  | case1 a => exact ⟨by rw [statement], hready⟩
  | case2 a first rest word hend =>
    have htold := hord.told first mem_cons_self
    have hrest : Ordered s rest := hord.sublist ((sublist_append_left rest later).cons first)
    have hreaches : Reaches s a first.stop :=
      hready.reaches mem_cons_self (Nat.le_of_lt htold.start_lt) (isBoundary_stop htold)
    refine ⟨?_, (hready.sublist (sublist_append_right _ later)).subset fun start hstart =>
      starts_close a s _ _ hstart⟩
    rw [statement, if_pos hend, endGuard_eq hrest]
    exact close_eq hreaches _
  | case3 a first rest word hend hclause hsetting hnone =>
    refine ⟨?_, hready.sublist (sublist_append_right _ later)⟩
    rw [statement, if_neg hend, if_pos hclause, if_pos hsetting,
      clause_of_ready hord hready hclause, hnone]
  | case4 a first rest word hend hclause hsetting next hnext ih =>
    have htail : ((splitClause word (first :: rest)).2 ++ later).Sublist (first :: rest ++ later) :=
      (splitClause_suffix word (first :: rest)).sublist.append_right later
    obtain ⟨heq, hleft⟩ := ih (hord.sublist htail) ((hready.sublist htail).subset (starts_clause hnext))
    refine ⟨?_, hleft⟩
    rw [statement, if_neg hend, if_pos hclause, if_pos hsetting,
      clause_of_ready hord hready hclause, hnext]
    exact heq
  | case5 a first rest word hend hclause hsetting =>
    refine ⟨?_, hready.sublist (sublist_append_right _ later)⟩
    rw [statement, if_neg hend, if_pos hclause, if_neg hsetting]
  | case6 a first rest word hend hclause hrescue =>
    refine ⟨?_, hready.sublist (sublist_append_right _ later)⟩
    rw [statement, if_neg hend, if_neg hclause, if_pos hrescue]
  | case7 a first rest word hend hclause hrescue =>
    have htoks : Ordered s (first :: rest) := hord.sublist (sublist_append_left _ later)
    refine ⟨?_, hready.opened hord fun start hstart => starts_ordinary hstart⟩
    rw [statement, if_neg hend, if_neg hclause, if_neg hrescue]
    exact ordinary_eq hsize htoks rfl

def run (s : Source) (a : Assembly) (statements : List Statement) : Option Assembly :=
  statements.foldlM (statement s) a

theorem run_eq (hsize : Small s) (hord : Ordered s list.flatten) (hready : Ready s a list.flatten) :
    run s a list = some (a.run s list) ∧ Ready s (a.run s list) [] := by
  induction list generalizing a with
  | nil => exact ⟨rfl, hready⟩
  | cons toks list ih =>
    rw [flatten_cons] at hord hready
    obtain ⟨hstep, hnext⟩ := statement_eq hsize hord hready
    obtain ⟨hrun, hlast⟩ := ih (hord.sublist (sublist_append_right toks _)) hnext
    refine ⟨?_, hlast⟩
    rw [run, foldlM_cons, hstep]
    exact hrun

def closeAll (s : Source) (stop : Nat) : Nat → Assembly → Option Assembly
  | 0, a => some a
  | n + 1, a => (pop s a stop none).bind (closeAll s stop n)

theorem closeAll_eq (h : Reaches s a stop) (count : Nat) :
    closeAll s stop count a = some (Assembly.closeAll s stop count a) := by
  induction count generalizing a with
  | zero => rfl
  | succ count ih =>
    have hpopped : Reaches s (a.pop s stop none) stop :=
      h.subset (by rw [starts_pop]; exact (tail_sublist _).subset)
    rw [closeAll, pop_eq h none]
    exact ih hpopped

def finish (s : Source) (a : Assembly) : Option Assembly :=
  closeAll s (byteLength s.chars) a.frames.length a

theorem le_byteLength_of_isBoundary {offset : Nat} (h : isBoundary s offset = true) :
    offset ≤ byteLength s.chars := by
  rw [isBoundary] at h
  generalize s.chars = cs at h ⊢
  induction cs generalizing offset with
  | nil =>
    cases offset with
    | zero => exact Nat.zero_le _
    | succ n => cases h
  | cons c cs ih =>
    cases offset with
    | zero => exact Nat.zero_le _
    | succ n =>
      rw [cutBytes?] at h
      split at h
      · have hrest := ih h
        rw [byteLength_cons]
        omega
      · cases h

theorem finish_eq (h : Ready s a []) : finish s a = some (a.finish s) := by
  have hend : isBoundary s (byteLength s.chars) = true :=
    isBoundary_of_append (append_nil s.chars).symm
  exact closeAll_eq ⟨hend, fun start hstart =>
    ⟨(h start hstart).1, le_byteLength_of_isBoundary (h start hstart).1⟩⟩ _

def endAt (found : List Loop) (index lineNumber : Nat) : Option (List Loop) :=
  if index < found.length then some (LoopScan.endAt found index lineNumber) else none

theorem endAt_eq {found : List Loop} {index : Nat} (h : index < found.length) (lineNumber : Nat) :
    endAt found index lineNumber = some (LoopScan.endAt found index lineNumber) := if_pos h

theorem length_endAt (found : List Loop) (index lineNumber : Nat) :
    (LoopScan.endAt found index lineNumber).length = found.length := length_modify ..

def loopOf (s : Source) (first : Token) (toks : Statement) : Option (Option Loop) := do
  if first.ident?.any isKeyword then some none
  else match ← blockDo toks with
    | none => some none
    | some (head, parameters) => do
      let found ← eachCall s head
      some (found.map fun (receiver, method) =>
        ⟨s.file, first.line, first.line, receiver, method, parameters⟩)

theorem loopOf_eq (h : Ordered s toks) (first : Token) :
    loopOf s first toks = some (LoopScan.loopOf? s first toks) := by
  rw [loopOf, LoopScan.loopOf?]
  split
  · rfl
  · rw [blockDo_eq]
    cases hblock : blockDo? toks with
    | none => rfl
    | some block =>
      obtain ⟨head, parameters⟩ := block
      dsimp only [bind_eq_bind, bind_some]
      rw [eachCall_eq (h.sublist (blockDo_starts hblock).sublist)]
      exact congrArg some (Option.map_map ..)

def loopStatement (s : Source) (scan : LoopScan) (toks : Statement) : Option LoopScan :=
  match toks with
  | [] => some scan
  | first :: _ =>
    if first.isWord "end" then
      match scan.blocks with
      | some index :: rest => (endAt scan.loops index first.line).map fun loops => ⟨loops, rest⟩
      | none :: rest => some { scan with blocks := rest }
      | [] => some scan
    else do
      match ← balance toks with
      | .ofNat (count + 1) =>
        match ← loopOf s first toks with
        | some l => some ⟨scan.loops ++ [l], List.replicate count none ++ some scan.loops.length :: scan.blocks⟩
        | none => some { scan with blocks := List.replicate (count + 1) none ++ scan.blocks }
      | _ => some scan

/-- The blocks that are loops name loops that were found. -/
def InRange (scan : LoopScan) : Prop :=
  ∀ index, some index ∈ scan.blocks → index < scan.loops.length

theorem loopStatement_eq (hsize : Small s) (h : Ordered s toks) {scan : LoopScan}
    (hrange : InRange scan) :
    loopStatement s scan toks = some (scan.statement s toks) ∧ InRange (scan.statement s toks) := by
  obtain ⟨found, blocks⟩ := scan
  cases toks with
  | nil => exact ⟨rfl, hrange⟩
  | cons first rest =>
    rw [loopStatement, LoopScan.statement]
    by_cases hend : first.isWord "end" = true
    · rw [if_pos hend, if_pos hend]
      cases blocks with
      | nil => exact ⟨rfl, hrange⟩
      | cons block blocks =>
        cases block with
        | none => exact ⟨rfl, fun index hindex => hrange index (mem_cons_of_mem none hindex)⟩
        | some index =>
          have hindex : index < found.length := hrange index mem_cons_self
          dsimp only
          rw [endAt_eq hindex]
          refine ⟨rfl, fun other hother => ?_⟩
          rw [length_endAt]
          exact hrange other (mem_cons_of_mem _ hother)
    · rw [if_neg hend, if_neg hend, balance_eq hsize h, loopOf_eq h]
      cases Recipe.balance (first :: rest) with
      | negSucc count => exact ⟨rfl, hrange⟩
      | ofNat count =>
        cases count with
        | zero => exact ⟨rfl, hrange⟩
        | succ count =>
          cases LoopScan.loopOf? s first (first :: rest) with
          | none =>
            refine ⟨rfl, fun index hindex => hrange index ?_⟩
            simpa using hindex
          | some new =>
            refine ⟨rfl, fun index hindex => ?_⟩
            have hcases : index = found.length ∨ some index ∈ blocks := by simpa using hindex
            rw [length_append, length_singleton]
            rcases hcases with rfl | hold
            · exact Nat.lt_succ_self _
            · exact Nat.lt_succ_of_lt (hrange index hold)

theorem loopStatements_eq (hsize : Small s) (hord : ∀ toks ∈ list, Ordered s toks) {scan : LoopScan}
    (hrange : InRange scan) :
    list.foldlM (loopStatement s) scan = some (list.foldl (LoopScan.statement s) scan) ∧
      InRange (list.foldl (LoopScan.statement s) scan) := by
  induction list generalizing scan with
  | nil => exact ⟨rfl, hrange⟩
  | cons toks list ih =>
    obtain ⟨hstep, hnext⟩ := loopStatement_eq hsize (hord toks mem_cons_self) hrange
    obtain ⟨hrest, hlast⟩ := ih (fun u hu => hord u (mem_cons_of_mem toks hu)) hnext
    refine ⟨?_, hlast⟩
    rw [foldlM_cons, hstep]
    exact hrest

theorem endLoops_eq {indices : List Nat} {found : List Loop}
    (h : ∀ index ∈ indices, index < found.length) (lineNumber : Nat) :
    indices.foldlM (fun found index => endAt found index lineNumber) found =
      some (indices.foldl (fun found index => LoopScan.endAt found index lineNumber) found) := by
  induction indices generalizing found with
  | nil => rfl
  | cons index indices ih =>
    rw [foldlM_cons, endAt_eq (h index mem_cons_self)]
    refine ih fun other hother => ?_
    rw [length_endAt]
    exact h other (mem_cons_of_mem index hother)

def loops (s : Source) (tokens : List Token) (statements : List Statement) : Option (List Loop) :=
  do
  let lastLine := (tokens.getLast?.map Token.line).getD 1
  let scan ← statements.foldlM (loopStatement s) LoopScan.start
  (scan.blocks.filterMap id).foldlM (fun loops index => endAt loops index lastLine) scan.loops

theorem loops_eq (hsize : Small s) (tokens : List Token) (hord : ∀ toks ∈ list, Ordered s toks) :
    loops s tokens list = some (Recipe.loops s tokens list) := by
  have hstart : InRange LoopScan.start := fun index hindex => by cases hindex
  obtain ⟨hscan, hrange⟩ := loopStatements_eq hsize hord hstart
  rw [loops, hscan]
  refine endLoops_eq (fun index hindex => hrange index ?_) _
  simpa using hindex

/-- What the tokens of a source amount to, with every step checked. -/
def parseTokens (s : Source) (tokens : List Token) : Option Parsed := do
  let list ← statements tokens
  let assembled ← run s Assembly.start list
  let done ← finish s assembled
  let found ← loops s tokens list
  let facts := done.facts ++ found.map .loop
  some ⟨facts.mergeSort (fun a b => decide (a.line ≤ b.line)), done.items, []⟩

theorem parseTokens_eq (hsize : Small s) {tokens : List Token} (h : Ordered s tokens) :
    parseTokens s tokens = some (Recipe.parseTokens s tokens) := by
  have hflat : Ordered s (Recipe.statements tokens).flatten := h.sublist (flatten_statements tokens)
  have heach : ∀ toks ∈ Recipe.statements tokens, Ordered s toks := fun toks htoks =>
    hflat.sublist (sublist_flatten_of_mem htoks)
  have hstart : Ready s Assembly.start (Recipe.statements tokens).flatten := fun start hstart => by
    cases hstart
  obtain ⟨hrun, hready⟩ := run_eq hsize hflat hstart
  rw [parseTokens, statements_eq]
  dsimp only [bind_eq_bind, bind_some]
  rw [hrun]
  dsimp only [bind_some]
  rw [finish_eq hready, loops_eq hsize tokens heach]
  rfl

end Checked
end CookbookAtlas.Recipe
