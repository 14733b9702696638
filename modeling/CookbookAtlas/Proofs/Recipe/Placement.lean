import CookbookAtlas.Proofs.Recipe.Moves
import CookbookAtlas.Proofs.Recipe.Script
import CookbookAtlas.Proofs.Token.Lines

/-! The execution order against the facts. Resources and included recipes of the execution order
are facts in the same order; where no statement opens a definition or two blocks at once, they are
all of them. -/
namespace CookbookAtlas.Recipe

open List
variable {frame : Frame} {facts : List Fact} {rest : List Frame} {items : List Item} {line : Nat} {s : Source}

/-- Whether the items of a block are kept when it closes. -/
def Shape.holdsItems : Shape → Bool
  | .conditional _ _ | .caseOf _ | .transparent => true
  | _ => false

/-- Lines of the facts in an open block, with the line of a resource before them. -/
def Frame.lines (frame : Frame) : List Nat :=
  match frame.shape with
  | .resource call _ => call.line :: (factsOf frame.items).map Fact.line
  | _ => (factsOf frame.items).map Fact.line

namespace Assembly

/-- Facts that have a place so far, those of outer blocks first. -/
def placed (a : Assembly) : List Fact :=
  factsOf a.items ++ a.frames.reverse.flatMap fun f => factsOf f.items

def trace (a : Assembly) : List Nat :=
  (factsOf a.items).map Fact.line ++ a.frames.reverse.flatMap Frame.lines

/-- Only blocks that keep their items have any, and each block stands where a tame statement
could open it. -/
def Tidy : List Frame → Prop
  | [] => True
  | frame :: rest =>
    (∃ line, Opens true line (settingOf rest) frame.shape) ∧
      (frame.shape.holdsItems = false → frame.items = []) ∧ Tidy rest

/-- What holds before statements on the given lines: facts with a place are facts found, and in
the order of lines. With tame statements only, none is missing. -/
structure Sound (tame : Bool) (lines : List Nat) (a : Assembly) : Prop where
  sorted : (a.trace ++ lines).Pairwise (· ≤ ·)
  found : a.placed.Sublist (a.facts.filter Fact.isPlaced)
  tidy : tame = true → Tidy a.frames
  whole : tame = true → a.placed = a.facts.filter Fact.isPlaced

section
variable {tame : Bool} {lines : List Nat} {a b : Assembly}

theorem placed_cons (frame : Frame) (rest : List Frame) (items : List Item) (facts : List Fact) :
    placed ⟨frame :: rest, items, facts⟩ = placed ⟨rest, items, facts⟩ ++ factsOf frame.items := by
  simp [placed]

theorem trace_cons (frame : Frame) (rest : List Frame) (items : List Item) (facts : List Fact) :
    trace ⟨frame :: rest, items, facts⟩ = trace ⟨rest, items, facts⟩ ++ frame.lines := by
  simp [trace]

@[simp] theorem placed_addItems (a : Assembly) (items : List Item) :
    (a.addItems items).placed = a.placed ++ factsOf items := by
  obtain ⟨frames, old, facts⟩ := a
  cases frames <;> simp [addItems, placed]

@[simp] theorem trace_addItems (a : Assembly) (items : List Item) :
    (a.addItems items).trace = a.trace ++ (factsOf items).map Fact.line := by
  obtain ⟨frames, old, facts⟩ := a
  cases frames with
  | nil => simp [addItems, trace]
  | cons frame rest =>
    obtain ⟨shape, inner⟩ := frame
    cases shape <;> simp [addItems, trace, Frame.lines]

@[simp] theorem facts_addItems (a : Assembly) (items : List Item) :
    (a.addItems items).facts = a.facts := by
  obtain ⟨frames, old, facts⟩ := a
  cases frames <;> rfl

@[simp] theorem placed_addFact (a : Assembly) (fact : Fact) : (a.addFact fact).placed = a.placed :=
  rfl
@[simp] theorem trace_addFact (a : Assembly) (fact : Fact) : (a.addFact fact).trace = a.trace := rfl
@[simp] theorem facts_addFact (a : Assembly) (fact : Fact) :
    (a.addFact fact).facts = a.facts ++ [fact] := rfl

theorem flatMap_amendResource {α : Type} {f : Frame → List α} (key value : String)
    (frames : List Frame) (hf : ∀ call start items,
      f ⟨.resource (call.addProperty key value) start, items⟩ = f ⟨.resource call start, items⟩) :
    (amendResource key value frames).reverse.flatMap f = frames.reverse.flatMap f := by
  induction frames with
  | nil => rfl
  | cons frame rest ih =>
    obtain ⟨shape, inner⟩ := frame
    cases shape <;> simp [amendResource, ih, hf]

@[simp] theorem placed_addProperty (a : Assembly) (key value : String) :
    (a.addProperty key value).placed = a.placed := by
  rw [placed, addProperty, flatMap_amendResource key value a.frames fun _ _ _ => rfl]
  rfl

@[simp] theorem trace_addProperty (a : Assembly) (key value : String) :
    (a.addProperty key value).trace = a.trace := by
  rw [trace, addProperty, flatMap_amendResource key value a.frames fun _ _ _ => rfl]
  rfl

theorem settingOf_amendResource (key value : String) (frames : List Frame) :
    settingOf (amendResource key value frames) = settingOf frames := by
  induction frames with
  | nil => rfl
  | cons frame rest ih =>
    obtain ⟨shape, inner⟩ := frame
    cases shape <;> simp [amendResource, settingOf, ih]

theorem Tidy.amendResource {frames : List Frame} (h : Tidy frames) (key value : String) :
    Tidy (amendResource key value frames) := by
  induction frames with
  | nil => trivial
  | cons frame rest ih =>
    obtain ⟨shape, inner⟩ := frame
    obtain ⟨⟨line, hopens⟩, hitems, hrest⟩ := h
    have hafter := ih hrest
    rw [← settingOf_amendResource key value rest] at hopens
    cases shape with
    | resource call start =>
      exact ⟨⟨line, settingOf_amendResource key value rest ▸ hopens⟩, hitems, hrest⟩
    | _ => exact ⟨⟨line, hopens⟩, hitems, hafter⟩

/-- Tame statements open blocks that keep their items outside resources only. -/
theorem setting_of_holdsItems {setting : Setting} {shape : Shape}
    (hopens : Opens true line setting shape)
    (hshape : shape.holdsItems = true) : setting = .normal := by
  cases shape <;> simp_all [Opens, Shape.holdsItems]

theorem Tidy.holdsItems (h : Tidy (frame :: rest))
    (hsetting : settingOf (frame :: rest) = .normal) : frame.shape.holdsItems = true := by
  obtain ⟨shape, inner⟩ := frame
  obtain ⟨⟨line, hopens⟩, -, -⟩ := h
  -- the setting rules out resources and captures, tidiness rules out definitions and scopes
  cases shape with
  | conditional | caseOf | transparent => rfl
  | resource | captured => simp [settingOf] at hsetting
  | definition => simp [Opens] at hopens
  | scope =>
    have hinside : settingOf rest = .inResource := hopens
    simp [settingOf, hinside] at hsetting

theorem Tidy.addItems (h : Tidy a.frames) (hsetting : a.setting = .normal) (items : List Item) :
    Tidy (a.addItems items).frames := by
  obtain ⟨frames, old, facts⟩ := a
  cases frames with
  | nil => trivial
  | cons frame rest =>
    have hholds := h.holdsItems hsetting
    obtain ⟨hopens, -, hrest⟩ := h
    exact ⟨hopens, by simp [hholds], hrest⟩

theorem Sound.later {later : List Nat} (h : Sound tame lines a) (hlater : later.Sublist lines) :
    Sound tame later a :=
  { h with sorted := h.sorted.sublist ((List.Sublist.refl _).append hlater) }

theorem Sound.moved (h : Sound tame lines a) (htrace : b.trace.Sublist a.trace)
    (hplaced : b.placed = a.placed)
    (hfacts : b.facts = a.facts) (htidy : tame = true → Tidy b.frames) : Sound tame lines b where
  sorted := h.sorted.sublist (htrace.append_right _)
  found := by
    rw [hplaced, hfacts]
    exact h.found
  tidy := htidy
  whole htame := by
    rw [hplaced, hfacts]
    exact h.whole htame

theorem Sound.noted (h : Sound tame lines a) {fact : Fact} (hfact : fact.isPlaced = false) :
    Sound tame lines (a.addFact fact) where
  sorted := h.sorted
  found := by simpa [hfact] using h.found
  tidy := h.tidy
  whole htame := by simpa [hfact] using h.whole htame

theorem Sound.placed (h : Sound tame lines a) {fact : Fact} {item : Item}
    (hfact : fact.isPlaced = true)
    (hitem : item.facts = [fact]) (hsorted : (a.trace ++ fact.line :: lines).Pairwise (· ≤ ·))
    (hsetting : tame = true → a.setting = .normal) :
    Sound tame lines ((a.addFact fact).addItems [item]) where
  sorted := by
    rw [trace_addItems, factsOf_singleton, hitem]
    simpa using hsorted
  found := by
    rw [placed_addItems, factsOf_singleton, hitem, facts_addItems]
    simpa [hfact] using h.found.append_right [fact]
  tidy htame := Tidy.addItems (a := a.addFact fact) (h.tidy htame) (hsetting htame) _
  whole htame := by
    rw [placed_addItems, factsOf_singleton, hitem, facts_addItems]
    simpa [hfact] using h.whole htame

theorem Sound.amended (h : Sound tame lines a) (key value : String) :
    Sound tame lines (a.addProperty key value) :=
  h.moved (by simp) (by simp) rfl fun htame => (h.tidy htame).amendResource key value

theorem pairwise_twice {xs rest : List Nat} {n : Nat} (h : (xs ++ n :: rest).Pairwise (· ≤ ·)) :
    (xs ++ n :: n :: rest).Pairwise (· ≤ ·) := by
  simp only [pairwise_append, pairwise_cons, mem_cons] at h ⊢
  obtain ⟨hxs, ⟨hn, hrest⟩, hcross⟩ := h
  refine ⟨hxs, ⟨?_, hn, hrest⟩, ?_⟩
  · rintro m (rfl | hm)
    · exact Nat.le_refl _
    · exact hn m hm
  · rintro x hx m (rfl | hm)
    · exact hcross x hx m (.inl rfl)
    · exact hcross x hx m hm

theorem Sound.opened (h : Sound tame (line :: lines) a) {shape : Shape}
    (hline : ∀ call start, shape = .resource call start → call.line = line)
    (hopens : tame = true → Opens true line a.setting shape) :
    Sound tame (line :: lines) (a.push shape) where
  sorted := by
    rw [push, trace_cons]
    cases shape with
    | resource call start =>
      obtain rfl := hline call start rfl
      simpa [Frame.lines, factsOf] using pairwise_twice h.sorted
    | _ => simpa [Frame.lines, factsOf] using h.sorted
  found := by
    rw [push, placed_cons]
    simpa [factsOf] using h.found
  tidy htame := ⟨⟨line, hopens htame⟩, fun _ => rfl, h.tidy htame⟩
  whole htame := by
    rw [push, placed_cons]
    simpa [factsOf] using h.whole htame

theorem Sound.dropped (h : Sound tame lines ⟨frame :: rest, items, facts⟩)
    (hframe : frame.shape.holdsItems = false) : Sound tame lines ⟨rest, items, facts⟩ where
  sorted := by
    have hsorted := h.sorted
    rw [trace_cons, append_assoc] at hsorted
    exact hsorted.sublist ((List.Sublist.refl _).append (sublist_append_right _ _))
  found := by
    have hfound := h.found
    rw [placed_cons] at hfound
    exact (sublist_append_left _ _).trans hfound
  tidy htame := (h.tidy htame).2.2
  whole htame := by
    have hwhole := h.whole htame
    rw [placed_cons, (h.tidy htame).2.1 hframe] at hwhole
    simpa [factsOf] using hwhole

theorem Sound.absorbed {kept : List Item} (h : Sound tame lines ⟨frame :: rest, items, facts⟩)
    (hframe : frame.shape.holdsItems = true) (hkept : factsOf kept = factsOf frame.items) :
    Sound tame lines (addItems ⟨rest, items, facts⟩ kept) := by
  have hlines : frame.lines = (factsOf frame.items).map Fact.line := by
    obtain ⟨shape, inner⟩ := frame
    cases shape <;> simp_all [Shape.holdsItems, Frame.lines]
  refine h.moved ?_ ?_ (facts_addItems _ _) fun htame => ?_
  · rw [trace_addItems, trace_cons, hkept, hlines]
  · rw [placed_addItems, placed_cons, hkept]
  · obtain ⟨⟨line, hopens⟩, -, hrest⟩ := h.tidy htame
    exact Tidy.addItems hrest (setting_of_holdsItems hopens hframe) kept

theorem Sound.called {call r : Resource} {start : Nat} {inner : List Item}
    (h : Sound tame lines ⟨⟨.resource call start, inner⟩ :: rest, items, facts⟩)
    (hline : r.line = call.line) : Sound tame lines (addResource ⟨rest, items, facts⟩ r) := by
  have hbelow : Sound tame lines ⟨rest, items, facts⟩ := h.dropped rfl
  have hsorted : (trace ⟨rest, items, facts⟩ ++ r.line :: lines).Pairwise (· ≤ ·) := by
    have hall := h.sorted
    rw [trace_cons, append_assoc] at hall
    refine hall.sublist ((List.Sublist.refl _).append ?_)
    rw [hline]
    exact (sublist_append_right _ lines).cons_cons call.line
  have hfact : (Fact.resource r).isPlaced = true := rfl
  refine hbelow.placed hfact rfl hsorted fun htame => ?_
  obtain ⟨⟨line, hopens⟩, -, -⟩ := h.tidy htame
  exact hopens.1

theorem Sound.pop (h : Sound tame lines a) (s : Source) (stop : Nat) (guard : Option String) :
    Sound tame lines (a.pop s stop guard) := by
  obtain ⟨frames, items, facts⟩ := a
  cases frames with
  | nil => exact h
  | cons frame rest =>
    obtain ⟨shape, inner⟩ := frame
    cases shape with
    | resource call start => cases guard <;> exact h.called rfl
    | conditional heading arm | caseOf heading => exact h.absorbed rfl (by simp [Item.facts])
    | transparent => exact h.absorbed rfl rfl
    | definition | scope => exact h.dropped rfl
    | captured key start =>
      cases key with
      | none => exact h.dropped rfl
      | some key =>
        simp only [Assembly.pop, absorb]
        split
        · exact (h.dropped rfl).amended _ _
        · exact h.dropped rfl

theorem Tidy.setting_pop (h : Tidy a.frames) (htop : a.frames.head?.any isConditional = true)
    (s : Source) (stop : Nat) : (a.pop s stop none).setting = .normal := by
  obtain ⟨frames, items, facts⟩ := a
  cases frames with
  | nil => rfl
  | cons frame rest =>
    obtain ⟨shape, inner⟩ := frame
    obtain ⟨⟨line, hopens⟩, -, -⟩ := h
    cases shape with
    | conditional heading arm =>
      change (Assembly.addItems ⟨rest, items, facts⟩ [.block heading inner]).setting = .normal
      rw [setting_addItems]
      exact hopens
    | _ => simp [isConditional] at htop

theorem Move.sound (hmove : Move s tame line a b) (h : Sound tame (line :: lines) a) :
    Sound tame (line :: lines) b := by
  cases hmove with
  | noted fact hfact hfound => exact h.noted hfact
  | placed fact item hsetting hfact hfound hitem =>
    refine h.placed hfact hitem ?_ fun _ => hsetting
    rw [hfound.line]
    exact pairwise_twice h.sorted
  | amended key value => exact h.amended key value
  | opened shape hshape hfound =>
    refine h.opened (fun call start hcall => ?_) fun htame => htame ▸ hshape
    rw [hcall] at hshape
    exact hshape.2
  | continued heading arm stop htop =>
    exact (h.pop s stop none).opened (by simp) fun htame => (h.tidy htame).setting_pop htop s stop
  | closed stop guard => exact h.pop s stop guard

theorem Moves.sound (hmoves : Moves s tame line a b) (h : Sound tame (line :: lines) a) :
    Sound tame (line :: lines) b := by
  induction hmoves with
  | refl => exact h
  | tail _ hmove ih => exact hmove.sound ih

theorem Sound.statement {toks : Statement} (h : Sound tame (toks.map Token.line ++ lines) a)
    (htame : tame = true → isTame (afterClauses toks) = true) :
    Sound tame lines (a.statement s toks) := by
  by_cases hempty : toks = []
  · subst hempty
    rw [Assembly.statement]
    exact h
  · obtain ⟨t, ht, hmoves⟩ := statement_moves (s := s) (a := a) hempty htame
    have hsub : (t.line :: lines).Sublist (toks.map Token.line ++ lines) := by
      have hsingle : [t.line].Sublist (toks.map Token.line) := singleton_sublist.mpr (mem_map_of_mem ht)
      exact hsingle.append_right lines
    exact (hmoves.sound (h.later hsub)).later (sublist_cons_self _ _)

theorem Sound.run {list : List Statement} (h : Sound tame (list.flatten.map Token.line) a)
    (htame : tame = true → ∀ toks ∈ list, isTame (afterClauses toks) = true) :
    Sound tame [] (a.run s list) := by
  induction list generalizing a with
  | nil => exact h
  | cons toks list ih =>
    rw [flatten_cons, map_append] at h
    have hnext : Sound tame (list.flatten.map Token.line) (a.statement s toks) :=
      h.statement fun ht => htame ht toks (by simp)
    exact ih hnext fun ht later hlater => htame ht later (by simp [hlater])

theorem Sound.closeAll (h : Sound tame lines a) (s : Source) (stop count : Nat) :
    Sound tame lines (closeAll s stop count a) := by
  induction count generalizing a with
  | zero => exact h
  | succ count ih => exact ih (h.pop s stop none)

theorem length_frames_addItems (a : Assembly) (items : List Item) :
    (a.addItems items).frames.length = a.frames.length := by
  obtain ⟨frames, old, facts⟩ := a
  cases frames <;> rfl

theorem length_amendResource (key value : String) (frames : List Frame) :
    (amendResource key value frames).length = frames.length := by
  induction frames with
  | nil => rfl
  | cons frame rest ih =>
    obtain ⟨shape, inner⟩ := frame
    cases shape <;> simp [amendResource, ih]

theorem length_frames_pop (a : Assembly) (s : Source) (stop : Nat) (guard : Option String) :
    (a.pop s stop guard).frames.length = a.frames.length - 1 := by
  obtain ⟨frames, items, facts⟩ := a
  cases frames with
  | nil => rfl
  | cons frame rest =>
    obtain ⟨shape, inner⟩ := frame
    simp only [pop, absorb, length_cons, Nat.add_sub_cancel]
    split
    · exact length_frames_addItems _ _
    · exact length_frames_addItems _ _
    · exact length_frames_addItems _ _
    · exact length_frames_addItems _ _
    · split
      · exact length_amendResource _ _ _
      · rfl
    · rfl

theorem frames_closeAll (s : Source) (stop count : Nat) (hcount : a.frames.length ≤ count) :
    (closeAll s stop count a).frames = [] := by
  induction count generalizing a with
  | zero => exact eq_nil_of_length_eq_zero (Nat.le_zero.mp hcount)
  | succ count ih =>
    refine ih ?_
    rw [length_frames_pop]
    omega

theorem Sound.start (h : lines.Pairwise (· ≤ ·)) : Sound tame lines start :=
  ⟨by simpa [trace, Assembly.start, factsOf] using h, nil_sublist _, fun _ => trivial, fun _ => rfl⟩

end
end Assembly

theorem flatten_statementsFrom (tokens : List Token) (depth : Nat) (current : List Token) :
    (statementsFrom depth current tokens).flatten.Sublist (current.reverse ++ tokens) := by
  have hfinished : ∀ current : List Token, (finished current).flatten = current.reverse := by
    intro current
    cases current <;> simp [finished]
  fun_induction statementsFrom depth current tokens with
  | case1 depth current =>
    rw [hfinished, append_nil]
    exact (dropWhile_sublist _).reverse
  | case2 depth t rest hline ih => simpa using ih.cons t
  | case3 depth t rest hline last before hcontinues ih => simpa using ih
  | case4 depth t rest hline last before hcontinues ih =>
    have hrest : (statementsFrom 0 [] rest).flatten.Sublist rest := by simpa using ih
    rw [flatten_cons]
    exact (List.Sublist.refl _).append (hrest.cons t)
  | case5 depth current t rest hline hsemi ih =>
    have hrest : (statementsFrom 0 [] rest).flatten.Sublist rest := by simpa using ih
    rw [flatten_append, hfinished]
    exact (List.Sublist.refl _).append (hrest.cons t)
  | case6 depth current t rest hline hsemi ih => simpa using ih

theorem flatten_statements (tokens : List Token) : (statements tokens).flatten.Sublist tokens :=
  flatten_statementsFrom tokens 0 []

theorem loops_not_placed (ls : List Loop) : (ls.map Fact.loop).filter Fact.isPlaced = [] := by
  simp [Fact.isPlaced]

section
variable {s : Source} {tokens : List Token}

theorem sound_finish {tame : Bool} (hlines : (tokens.map Token.line).Pairwise (· ≤ ·))
    (htame : tame = true → ∀ toks ∈ statements tokens, isTame (afterClauses toks) = true) :
    Assembly.Sound tame [] ((Assembly.start.run s (statements tokens)).finish s) := by
  have hstart : Assembly.Sound tame ((statements tokens).flatten.map Token.line) .start :=
    .start (hlines.sublist ((flatten_statements tokens).map _))
  exact (hstart.run htame).closeAll s _ _

theorem placed_finish (a : Assembly) : (a.finish s).placed = factsOf (a.finish s).items := by
  have hframes : (a.finish s).frames = [] := Assembly.frames_closeAll s _ _ (Nat.le_refl _)
  simp [Assembly.placed, hframes]

theorem trace_finish (a : Assembly) :
    (a.finish s).trace = (factsOf (a.finish s).items).map Fact.line := by
  have hframes : (a.finish s).frames = [] := Assembly.frames_closeAll s _ _ (Nat.le_refl _)
  simp [Assembly.trace, hframes]

theorem line_trans (f g h : Fact) (hfg : decide (f.line ≤ g.line) = true)
    (hgh : decide (g.line ≤ h.line) = true) : decide (f.line ≤ h.line) = true :=
  decide_eq_true (Nat.le_trans (of_decide_eq_true hfg) (of_decide_eq_true hgh))

theorem line_total (f g : Fact) :
    (decide (f.line ≤ g.line) || decide (g.line ≤ f.line)) = true := by
  simpa using Nat.le_total f.line g.line

theorem sublist_facts {found : List Fact} (hsorted : found.Pairwise fun f g => f.line ≤ g.line)
    (hfound : found.Sublist (((Assembly.start.run s (statements tokens)).finish s).facts ++
      (loops s tokens (statements tokens)).map .loop)) :
      found.Sublist (parseTokens s tokens).facts :=
  sublist_mergeSort line_trans line_total (hsorted.imp fun h => decide_eq_true h) hfound

theorem execution_found (hlines : (tokens.map Token.line).Pairwise (· ≤ ·)) :
    (factsOf (parseTokens s tokens).execution).Sublist ((parseTokens s tokens).facts.filter Fact.isPlaced) := by
  have hsound : Assembly.Sound false [] ((Assembly.start.run s (statements tokens)).finish s) :=
    sound_finish hlines (by simp)
  have hfound := hsound.found
  have hsorted := hsound.sorted
  rw [placed_finish] at hfound
  rw [trace_finish, append_nil, pairwise_map] at hsorted
  have hall : (factsOf (parseTokens s tokens).execution).filter Fact.isPlaced =
      factsOf (parseTokens s tokens).execution := by
    refine filter_eq_self.mpr fun fact hfact => ?_
    exact (mem_filter.mp (hfound.subset hfact)).2
  rw [← hall]
  refine List.Sublist.filter _ (sublist_facts hsorted ?_)
  exact (hfound.trans filter_sublist).trans (sublist_append_left _ _)

theorem execution_whole (hlines : (tokens.map Token.line).Pairwise (· ≤ ·))
    (htame : ∀ toks ∈ statements tokens, isTame (afterClauses toks) = true) :
    factsOf (parseTokens s tokens).execution =
      (parseTokens s tokens).facts.filter Fact.isPlaced := by
  have hsound : Assembly.Sound true [] ((Assembly.start.run s (statements tokens)).finish s) :=
    sound_finish hlines fun _ => htame
  have hwhole := hsound.whole rfl
  rw [placed_finish] at hwhole
  refine (execution_found hlines).eq_of_length ?_
  change (factsOf ((Assembly.start.run s (statements tokens)).finish s).items).length = _
  rw [hwhole, parseTokens, ((mergeSort_perm _ _).filter _).length_eq, filter_append,
    loops_not_placed, append_nil]

end

def resourceLeaves (items : List Item) : List Resource := (factsOf items).filterMap Fact.resource?

def inclusionLeaves (items : List Item) : List Reference :=
  (factsOf items).filterMap Fact.reference?

def Parsed.inclusions (p : Parsed) : List Reference :=
  p.references.filter fun r => r.kind == .includeRecipe

/-- No statement of a text opens a definition or more than one block. What follows a clause on its
line is a statement of its own. -/
def Source.IsTame (s : Source) : Prop :=
  ∀ tokens ∈ Token.scan? s.chars, ∀ toks ∈ statements tokens, isTame (afterClauses toks) = true

theorem filterMap_resource_placed (facts : List Fact) :
    (facts.filter Fact.isPlaced).filterMap Fact.resource? = facts.filterMap Fact.resource? := by
  rw [filterMap_filter]
  congr 1
  funext fact
  cases fact <;> simp [Fact.isPlaced, Fact.resource?]

theorem filterMap_reference_placed (facts : List Fact) :
    (facts.filter Fact.isPlaced).filterMap Fact.reference? =
      (facts.filterMap Fact.reference?).filter fun r => r.kind == .includeRecipe := by
  rw [filterMap_filter, filter_filterMap]
  congr 1
  funext fact
  cases fact <;> simp [Fact.isPlaced, Fact.reference?, Option.filter]

/-- The resources and included recipes of the execution order are facts, equal and in the same
order, and none is repeated. In a tame text none is lost, whether or not its blocks are closed. -/
theorem leaves_of_parse {s : Source} {p : Parsed} (h : parse? s = some p) :
    (resourceLeaves p.execution).Sublist p.resources ∧
    (inclusionLeaves p.execution).Sublist p.inclusions ∧
      (s.IsTame → resourceLeaves p.execution = p.resources ∧
      inclusionLeaves p.execution = p.inclusions) := by
  obtain ⟨tokens, hscan, rfl⟩ := Option.map_eq_some_iff.mp h
  have hlines := Token.pairwise_line_of_scan? hscan
  have hfound := execution_found (s := s) hlines
  refine ⟨?_, ?_, fun htame => ?_⟩
  · rw [Parsed.resources, ← filterMap_resource_placed]
    exact hfound.filterMap _
  · rw [Parsed.inclusions, Parsed.references, ← filterMap_reference_placed]
    exact hfound.filterMap _
  · have hwhole := execution_whole (s := s) hlines (htame tokens hscan)
    constructor
    · rw [resourceLeaves, hwhole, filterMap_resource_placed]
      rfl
    · rw [inclusionLeaves, hwhole, filterMap_reference_placed]
      rfl

/-- A surplus `end`, an included recipe and a resource, in blocks that nothing closes. -/
def openLines : List Line :=
  [Script.endLine, Script.clause .ifBlock ⟨"ready", by decide +kernel, by decide +kernel⟩,
    Script.includeLine "base", Script.opening ⟨"package", by decide +kernel⟩ "nginx"]

theorem leaves_of_open_blocks :
    ∃ s : Source, ∃ p, s.chars = "end\nif ready\ninclude_recipe 'base'\npackage 'nginx' do\n".toList ∧
      parse? s = some p ∧ s.IsTame ∧ p.resources.map Resource.displayName = ["package[nginx]"] ∧
      p.inclusions.map Reference.target = ["base"] ∧ resourceLeaves p.execution = p.resources ∧
      inclusionLeaves p.execution = p.inclusions := by
  have hparse := parse_written openLines ⟨"default.rb"⟩ 80
  have htame : Source.IsTame ⟨written openLines, ⟨"default.rb"⟩, 80⟩ := by
    intro tokens hscan
    have hspell : Token.scan? (written openLines) = some (Token.tokensAt .start (page openLines)) :=
      Token.scan?_spell (spelled_page openLines)
    obtain rfl := Option.some.inj (hspell.symm.trans hscan)
    rw [statements_page]
    decide +kernel
  obtain ⟨hresources, hinclusions⟩ := (leaves_of_parse hparse).2.2 htame
  refine ⟨_, _, by decide +kernel, hparse, htame, ?_, ?_, hresources, hinclusions⟩
  · rw [← hresources]
    decide +kernel
  · rw [← hinclusions]
    decide +kernel

end CookbookAtlas.Recipe
