import CookbookAtlas.Recipe.Assembly
import Mathlib.Logic.Relation

/-! What one statement can do to the stack of open blocks: a few kinds of moves, all made for one
line. Everything that holds along the reading of a file is shown move by move. -/
namespace CookbookAtlas.Recipe

open List
variable {head : List Token} {line : Nat} {call : Resource} {s : Source} {toks : Statement}

/-- Whether a fact has a place in the execution order: resources and included recipes. -/
def Fact.isPlaced : Fact → Bool
  | .resource _ => true
  | .reference r => r.kind == .includeRecipe
  | _ => false

def Fact.file : Fact → Path
  | .resource r => r.file
  | .assignment a => a.file
  | .reference r => r.file
  | .loop l => l.file

/-- A fact other than a loop that a statement on the given line yields. -/
structure Fact.Found (s : Source) (line : Nat) (fact : Fact) : Prop where
  file : fact.file = s.file
  line : fact.line = line
  loop : fact.loop? = none

/-- A change that keeps the file and the line of a resource keeps where it was found. -/
theorem Fact.Found.amended {r : Resource} (h : (Fact.resource call).Found s line)
    (hfile : r.file = call.file) (hline : r.line = call.line) : (Fact.resource r).Found s line :=
  ⟨hfile.trans h.file, hline.trans h.line, rfl⟩

def Shape.fact? : Shape → Option Fact
  | .resource call _ => some (.resource call)
  | _ => none

mutual
def Item.facts : Item → List Fact
  | .resource r => [.resource r]
  | .inclusion r => [.reference r]
  | .block _ children => factsOf children

def factsOf : List Item → List Fact
  | [] => []
  | item :: rest => item.facts ++ factsOf rest
end

@[simp] theorem factsOf_append (xs ys : List Item) :
    factsOf (xs ++ ys) = factsOf xs ++ factsOf ys := by
  induction xs with
  | nil => rfl
  | cons x xs ih => simp [factsOf, ih]

@[simp] theorem factsOf_singleton (item : Item) : factsOf [item] = item.facts := by simp [factsOf]

/-- The statement that is left behind the clauses at the start of a line. -/
def afterClauses (toks : Statement) : Statement :=
  match toks with
  | [] => []
  | first :: rest =>
    let word := first.ident?.getD ""
    if Assembly.isClause word then afterClauses (Assembly.splitClause word (first :: rest)).2
    else first :: rest
termination_by toks.length
decreasing_by
  simp only [Assembly.splitClause]
  split
  · simp
  · simp only [length_drop, length_cons]; omega

/-- Whether a statement opens a method, a class or a module. -/
def opensDefinition (toks : Statement) : Bool :=
  decide (0 < balance toks) && ["def", "class",
    "module"].contains ((toks.head?.bind Token.ident?).getD "")

/-- Whether a statement opens at most one block, and no definition. -/
def isTame (toks : Statement) : Bool := decide (balance toks ≤ 1) && !opensDefinition toks

namespace Assembly

def isConditional : Frame → Bool
  | ⟨.conditional _ _, _⟩ => true
  | _ => false

/-- Blocks that a statement on line `line` can open. Definitions, and blocks opened on top of
another one by the same statement, come from wild statements only. -/
def Opens (tame : Bool) (line : Nat) (setting : Setting) : Shape → Prop
  | .resource call _ => setting = .normal ∧ call.line = line
  | .conditional _ _ | .caseOf _ => setting = .normal
  | .transparent => setting = .normal ∨ tame = false
  | .definition => tame = false
  | .scope => setting = .inResource
  | .captured _ _ => setting ≠ .normal

/-- One change made by a statement on line `line`. -/
inductive Move (s : Source) (tame : Bool) (line : Nat) : Assembly → Assembly → Prop
  | noted (a : Assembly) (fact : Fact) (hfact : fact.isPlaced = false) (hfound : fact.Found s line) :
    Move s tame line a (a.addFact fact)
  | placed (a : Assembly) (fact : Fact) (item : Item) (hsetting : a.setting = .normal)
    (hfact : fact.isPlaced = true) (hfound : fact.Found s line) (hitem : item.facts = [fact]) :
    Move s tame line a ((a.addFact fact).addItems [item])
  | amended (a : Assembly) (key value : String) : Move s tame line a (a.addProperty key value)
  | opened (a : Assembly) (shape : Shape) (hshape : Opens tame line a.setting shape)
    (hfound : ∀ fact ∈ shape.fact?, fact.Found s line) :
    Move s tame line a (a.push shape)
  | continued (a : Assembly) (heading : Heading) (arm : Bool) (stop : Nat)
    (htop : a.frames.head?.any isConditional = true) :
    Move s tame line a ((a.pop s stop none).push (.conditional heading arm))
  | closed (a : Assembly) (stop : Nat) (guard : Option String) :
    Move s tame line a (a.pop s stop guard)

/-- What an opener on line `line` outside resources can push and note. -/
structure Opening (s : Source) (tame : Bool) (line : Nat) (opened : Shape × Option Fact) :
    Prop where
  opens : Opens tame line .normal opened.1
  shape : ∀ fact ∈ opened.1.fact?, fact.Found s line
  noted : ∀ fact ∈ opened.2, fact.isPlaced = false ∧ fact.Found s line

def Moves (s : Source) (tame : Bool) (line : Nat) : Assembly → Assembly → Prop :=
  Relation.ReflTransGen (Move s tame line)

section
variable {s : Source} {tame : Bool} {line : Nat} {a b c : Assembly}

theorem Moves.refl (a : Assembly) : Moves s tame line a a := Relation.ReflTransGen.refl

theorem Move.moves (h : Move s tame line a b) : Moves s tame line a b :=
  Relation.ReflTransGen.single h

theorem Moves.trans (hab : Moves s tame line a b) (hbc : Moves s tame line b c) :
    Moves s tame line a c :=
  Relation.ReflTransGen.trans hab hbc

theorem close_moves (stop : Nat) (guard : Option String) :
    Moves s tame line a (a.close s stop guard) := by
  rw [close]
  split
  · exact (Move.closed a stop guard).moves.trans (Move.closed _ stop none).moves
  · exact (Move.closed a stop guard).moves

theorem fillers_moves {filler : Shape} (hfiller : filler.fact? = none)
    (hagain : ∀ b : Assembly, Opens tame line (b.push filler).setting filler)
    (hfirst : Opens tame line a.setting filler) (count : Nat) :
    Moves s tame line a ((List.replicate count filler).foldl push a) := by
  induction count generalizing a with
  | zero => exact .refl a
  | succ count ih =>
    rw [replicate_succ, foldl_cons]
    exact (Move.opened a filler hfirst (by simp [hfiller])).moves.trans (ih (hagain a))

end

theorem splitDo_eq {toks before after : List Token} {depth : Nat} {prev : Option Token.Kind}
    (h : splitDo depth prev toks = some (before, after)) : ∃ t, toks = before ++ t :: after := by
  induction toks generalizing depth prev before with
  | nil => cases h
  | cons t toks ih =>
    rw [splitDo] at h
    split at h
    · rename_i inner later hinner
      cases h
      obtain ⟨mark, rfl⟩ := ih hinner
      exact ⟨mark, rfl⟩
    · split at h
      · cases h
        exact ⟨t, rfl⟩
      · cases h

theorem blockDo_starts {toks : List Token} {names : List String}
    (h : blockDo? toks = some (head, names)) : head <+: toks := by
  rw [blockDo?] at h
  split at h
  · rename_i before after hsplit
    obtain ⟨found, -, hpair⟩ := Option.map_eq_some_iff.mp h
    simp only [Prod.mk.injEq] at hpair
    obtain ⟨mark, hmark⟩ := splitDo_eq hsplit
    exact hpair.1 ▸ ⟨_, hmark.symm⟩
  · cases h

theorem splitFirstDo_eq {toks before after : List Token} {prev : Option Token.Kind}
    (h : splitFirstDo prev toks = some (before, after)) :
    ∃ t, t.isWord "do" = true ∧ toks = before ++ t :: after := by
  induction toks generalizing prev before with
  | nil => cases h
  | cons t toks ih =>
    rw [splitFirstDo] at h
    split at h
    · rename_i hdo
      cases h
      exact ⟨t, hdo.1, rfl⟩
    · obtain ⟨⟨inner, later⟩, hinner, hpair⟩ := Option.map_eq_some_iff.mp h
      cases hpair
      obtain ⟨mark, hmark, rfl⟩ := ih hinner
      exact ⟨mark, hmark, rfl⟩

theorem append_splitModifier (depth : Nat) (prev : Option Token.Kind) (toks : List Token) :
    (splitModifier depth prev toks).1 ++ (splitModifier depth prev toks).2 = toks := by
  induction toks generalizing depth prev with
  | nil => rfl
  | cons t toks ih =>
    rw [splitModifier]
    split
    · rfl
    · exact congrArg (t :: ·) (ih _ _)

theorem head_splitModifier (first : Token) (rest : List Token) :
    (splitModifier 0 none (first :: rest)).1.head? = some first := by
  simp [splitModifier, isModifier]

theorem resourceCall_found {first : Token} {rest : List Token} {hasBlock : Bool}
    (h : resourceCall? s head hasBlock = some call)
    (hhead : head <+: first :: rest) : (Fact.resource call).Found s first.line := by
  cases head with
  | nil => simp [resourceCall?] at h
  | cons t head =>
    obtain rfl : t = first := (cons_prefix_cons.mp hhead).1
    rw [resourceCall?] at h
    split at h
    · cases h
    · split at h
      · simp only [Option.some.injEq] at h
        rw [← h]
        exact ⟨rfl, rfl, rfl⟩
      · cases h

theorem assignment_found {a : Assignment} (h : assignment? s toks = some a) :
    (Fact.assignment a).Found s ((toks.head?.map Token.line).getD 0) := by
  rw [assignment?] at h
  split at h
  · cases h
  split at h
  · split at h
    · cases h
    · simp only [Option.some.injEq] at h
      rw [← h]
      exact ⟨rfl, rfl, rfl⟩
  · cases h

/-- Inside a resource only control flow and captured blocks are opened. -/
theorem innerOpener_cases (toks : Statement) :
    innerOpener toks = .scope ∨ ∃ key start, innerOpener toks = .captured key start := by
  cases toks with
  | nil => exact .inl rfl
  | cons first rest =>
    rw [innerOpener]
    split
    · exact .inr ⟨_, _, rfl⟩
    · exact .inl rfl

section
variable {s : Source} {tame : Bool} {a : Assembly} {first : Token} {rest : List Token}

theorem opening_opener
    (hdefinition : tame = true → first.ident?.getD "" ∉ ["def", "class", "module"]) :
    Opening s tame first.line (opener s (first :: rest)) := by
  have hflow : ∀ heading arm, Opening s tame first.line (.conditional heading arm, none) :=
    fun heading arm => ⟨rfl, by simp [Shape.fact?], by simp⟩
  have htransparent : ∀ fact : Option Fact,
      (∀ f ∈ fact, f.isPlaced = false ∧ f.Found s first.line) →
      Opening s tame first.line (.transparent, fact) :=
    fun fact hfact => ⟨.inl rfl, by simp [Shape.fact?], hfact⟩
  rw [opener]
  split
  · exact hflow _ _
  split
  · exact hflow _ _
  split
  · exact hflow _ _
  split
  · exact hflow _ _
  split
  · exact hflow _ _
  split
  · exact ⟨rfl, by simp [Shape.fact?], by simp⟩
  split
  · exact htransparent none (by simp)
  split
  · rename_i hword
    refine ⟨Bool.eq_false_iff.mpr fun htame => hdefinition htame ?_, by simp [Shape.fact?], by simp⟩
    simpa using hword
  split
  · rename_i a hassignment
    refine htransparent _ fun f hf => ?_
    rw [← Option.some.inj hf]
    exact ⟨rfl, assignment_found hassignment⟩
  split
  · exact htransparent none (by simp)
  rename_i head names hblock
  split
  · rename_i call hcall
    have hfound := resourceCall_found hcall (blockDo_starts hblock)
    refine ⟨⟨rfl, hfound.line⟩, fun f hf => ?_, by simp⟩
    rw [← Option.some.inj hf]
    exact hfound
  split
  · exact hflow _ _
  · exact htransparent none (by simp)

theorem openBlocks_moves (count : Nat) (hcount : tame = true → count = 0)
    (hdefinition : tame = true → first.ident?.getD "" ∉ ["def", "class", "module"]) :
    Moves s tame first.line a (a.openBlocks s (first :: rest) count) := by
  have hcaptured : ∀ (key : Option String) (start : Nat) (b : Assembly),
      Opens tame first.line (b.push (.captured key start)).setting (.captured key start) := by
    intro key start b
    simp [Opens, push, setting, settingOf]
  rw [openBlocks]
  cases hsetting : a.setting with
  | inCapture =>
    have hopens : Opens tame first.line a.setting (.captured none first.start) := by
      simp [Opens, hsetting]
    refine (Move.opened a _ hopens (by simp [Shape.fact?])).moves.trans ?_
    exact fillers_moves rfl (hcaptured none first.start) (hcaptured _ _ a) count
  | inResource =>
    have hinner : Opens tame first.line .inResource (innerOpener (first :: rest)) := by
      rw [innerOpener]
      split <;> simp [Opens]
    have hfact : (innerOpener (first :: rest)).fact? = none := by
      rw [innerOpener]
      split <;> rfl
    have hafter : (a.push (innerOpener (first :: rest))).setting ≠ .normal := by
      rw [innerOpener]
      split
      · simp [push, setting, settingOf]
      · change a.setting ≠ .normal
        simp [hsetting]
    refine (Move.opened a _ (hsetting ▸ hinner) (by simp [hfact])).moves.trans ?_
    exact fillers_moves rfl (hcaptured none first.start) hafter count
  | normal =>
    have hopening : Opening s tame first.line (opener s (first :: rest)) :=
      opening_opener hdefinition
    rcases hopener : opener s (first :: rest) with ⟨shape, fact⟩
    rw [hopener] at hopening
    have hfillers : ∀ b : Assembly,
        Moves s tame first.line b ((List.replicate count .transparent).foldl push b) := by
      intro b
      -- blocks on top of the first come from wild statements only
      cases tame with
      | true =>
        rw [hcount rfl]
        exact .refl b
      | false =>
        have hwild : ∀ setting, Opens false first.line setting .transparent := fun _ => Or.inr rfl
        exact fillers_moves rfl (fun _ => hwild _) (hwild _) count
    cases fact with
    | none => exact (Move.opened a shape (hsetting ▸ hopening.opens) hopening.shape).moves.trans (hfillers _)
    | some f =>
      obtain ⟨hplaced, hfound⟩ := hopening.noted f rfl
      have hnoted : Move s tame first.line a (a.addFact f) := .noted a f hplaced hfound
      have hopened : Move s tame first.line (a.addFact f) ((a.addFact f).push shape) :=
        .opened _ shape (hsetting ▸ hopening.opens) hopening.shape
      exact (hnoted.moves.trans hopened.moves).trans (hfillers _)

theorem property_moves (line : Nat) (toks : Statement) :
    Moves s tame line a (a.property s toks) := by
  rw [property]
  split
  · exact .refl a
  split
  · exact .refl a
  split
  · exact (Move.amended a _ _).moves
  split
  · exact (Move.amended a _ _).moves
  · exact .refl a

theorem noteReferences_moves {refs : List Reference}
    (h : ∀ r ∈ refs, r.kind ≠ .includeRecipe ∧ (Fact.reference r).Found s line) :
    Moves s tame line a (refs.foldl (fun a r => a.addFact (.reference r)) a) := by
  induction refs generalizing a with
  | nil => exact .refl a
  | cons r refs ih =>
    obtain ⟨hkind, hfound⟩ := h r (by simp)
    have hr : (Fact.reference r).isPlaced = false := by simp [Fact.isPlaced, hkind]
    exact (Move.noted a _ hr hfound).moves.trans (ih fun q hq => h q (by simp [hq]))

theorem facts_guarded (line : Nat) (guard : List Token) (item : Item) :
    (guarded s line guard item).facts = item.facts := by
  rw [guarded]
  split
  · split
    · simp [Item.facts]
    split
    · simp [Item.facts]
    · rfl
  · rfl

theorem include_moves (line : Nat) (guard : List Token) {refs : List Reference}
    (h : ∀ r ∈ refs, r.kind = .includeRecipe ∧ (Fact.reference r).Found s line)
    (hsetting : a.setting = .normal) :
    Moves s tame line a (refs.foldl (addInclude s line guard) a) := by
  induction refs generalizing a with
  | nil => exact .refl a
  | cons r refs ih =>
    obtain ⟨hkind, hfound⟩ := h r (by simp)
    have hmove : Move s tame line a (addInclude s line guard a r) :=
      .placed a (.reference r) _ hsetting (by simp [Fact.isPlaced, hkind]) hfound
        (by rw [facts_guarded]; rfl)
    have hafter : (addInclude s line guard a r).setting = .normal := by
      rw [addInclude, setting_addItems]
      exact hsetting
    exact hmove.moves.trans (ih (fun q hq => h q (by simp [hq])) hafter)

theorem references_mem {kind : ReferenceKind} {r : Reference} (hr : r ∈ references s kind toks) :
    r.kind = kind ∧ (Fact.reference r).Found s ((toks.head?.map Token.line).getD 0) := by
  simp only [references, mem_map] at hr
  obtain ⟨arg, -, rfl⟩ := hr
  exact ⟨rfl, rfl, rfl, rfl⟩

theorem inlineProperty_found (h : (Fact.resource call).Found s line) (after : List Token) :
    (Fact.resource (inlineProperty s call after)).Found s line := by
  rw [inlineProperty]
  split
  · split
    · split
      · exact h.amended rfl rfl
      · exact h
    · exact h
  · exact h

theorem resourceLine_moves {main : List Token} (toks guard : List Token)
    (hmain : main <+: first :: rest) (hsetting : a.setting = .normal) :
    Moves s tame first.line a (resourceLine s a toks main guard) := by
  have hadd : ∀ r : Resource, (Fact.resource r).Found s first.line →
      Moves s tame first.line a (a.addResource r) :=
    fun r hr => (Move.placed a (.resource r) (.resource r) hsetting rfl hr rfl).moves
  have hhead : ((splitFirstDo none main).map Prod.fst).getD main <+: first :: rest := by
    cases hsplit : splitFirstDo none main with
    | none => exact hmain
    | some parts =>
      obtain ⟨mark, -, rfl⟩ := splitFirstDo_eq hsplit
      exact (prefix_append _ _).trans hmain
  rw [resourceLine]
  split
  · exact .refl a
  rename_i call hcall
  have hfound := resourceCall_found hcall hhead
  apply hadd
  cases splitFirstDo none main with
  | none => split <;> exact hfound.amended rfl rfl
  | some parts => split <;> exact (inlineProperty_found hfound parts.2).amended rfl rfl

theorem plain_moves (hsetting : a.setting = .normal) :
    Moves s tame first.line a (a.plain s (first :: rest)) := by
  have hstarts : (splitModifier 0 none (first :: rest)).1 <+: first :: rest :=
    ⟨_, append_splitModifier 0 none (first :: rest)⟩
  have hhead := head_splitModifier first rest
  rcases hsplit : splitModifier 0 none (first :: rest) with ⟨main, guard⟩
  rw [hsplit] at hstarts hhead
  have hline : (main.head?.map Token.line).getD 0 = first.line := by simp [hhead]
  have hnote : ∀ kind, kind ≠ .includeRecipe →
      Moves s tame first.line a ((references s kind main).foldl (fun a r => a.addFact (.reference r)) a) :=
    fun kind hkind => noteReferences_moves fun r hr =>
      ⟨(references_mem hr).1 ▸ hkind, hline ▸ (references_mem hr).2⟩
  rw [plain, hsplit]
  simp only [hline]
  split
  · refine include_moves _ _ (fun r hr => ?_) hsetting
    exact ⟨(references_mem hr).1, hline ▸ (references_mem hr).2⟩
  split
  · exact hnote .require (by decide)
  split
  · exact hnote .requireRelative (by decide)
  split
  · rename_i assignment hassignment
    exact (Move.noted a _ rfl (hline ▸ assignment_found hassignment)).moves
  · exact resourceLine_moves _ _ hstarts hsetting

theorem ordinary_moves (htame : tame = true → isTame (first :: rest) = true) :
    Moves s tame first.line a (a.ordinary s (first :: rest)) := by
  rw [ordinary]
  split
  · rename_i count hbalance
    have hopens : 0 < balance (first :: rest) := by
      rw [hbalance]; exact Int.natCast_pos.mpr (Nat.succ_pos count)
    refine openBlocks_moves count (fun h => ?_) (fun h => ?_)
    · have hle : balance (first :: rest) ≤ 1 := by simpa using (Bool.and_eq_true_iff.mp (htame h)).1
      rw [hbalance, Int.ofNat_eq_natCast] at hle
      omega
    · have hnot := (Bool.and_eq_true_iff.mp (htame h)).2
      simpa [opensDefinition, hopens] using hnot
  · cases hsetting : a.setting with
    | inCapture => exact .refl a
    | inResource => exact property_moves _ _
    | normal => exact plain_moves hsetting

theorem setting_of_chain (h : a.chain = .caseOf) : a.setting = .normal := by
  obtain ⟨frames, items, facts⟩ := a
  cases frames with
  | nil => rfl
  | cons frame frames =>
    obtain ⟨shape, inner⟩ := frame
    cases shape <;> simp_all [chain, setting, settingOf]

theorem isConditional_of_chain (hcase : a.chain ≠ .caseOf) (hother : a.chain ≠ .other) :
    a.frames.head?.any isConditional = true := by
  obtain ⟨frames, items, facts⟩ := a
  cases frames with
  | nil => exact absurd rfl hother
  | cons frame frames =>
    obtain ⟨shape, inner⟩ := frame
    cases shape <;> simp_all [chain, isConditional]

/-- The head of a clause continues a chain or starts the first arm of a `case`. -/
theorem clause_moves {word : String} {b : Assembly} (h : a.clause? s word head = some b) :
    Moves s tame line a b := by
  obtain ⟨⟨kind, arm⟩, hkind, rfl⟩ := Option.map_eq_some_iff.mp h
  by_cases hcase : a.chain = .caseOf
  · simp only [hcase, if_true]
    have hopens : Opens tame line a.setting (.conditional (heading s kind head) arm) :=
      setting_of_chain hcase
    exact (Move.opened a _ hopens (by simp [Shape.fact?])).moves
  · have hother : a.chain ≠ .other := by
      intro hchain
      simp [hchain, clauseKind?] at hkind
    simp only [hcase, if_false]
    exact (Move.continued a _ arm _ (isConditional_of_chain hcase hother)).moves

theorem splitClause_suffix (word : String) (toks : Statement) :
    (splitClause word toks).2 <:+ toks := by
  rw [splitClause]
  split <;> exact drop_suffix _ _

/-- What one statement does is done by moves on the line of one of its tokens. -/
theorem statement_moves (hne : toks ≠ [])
    (htame : tame = true → isTame (afterClauses toks) = true) :
    ∃ t ∈ toks, Moves s tame t.line a (a.statement s toks) := by
  fun_induction statement s a toks with
  | case1 a => exact absurd rfl hne
  | case2 a first rest word hend => exact ⟨first, by simp, close_moves _ _⟩
  | case3 a first rest word hend hclause hsetting hnone => exact ⟨first, by simp, .refl a⟩
  | case4 a first rest word hend hclause hsetting next hnext ih =>
    have hlater := splitClause_suffix word (first :: rest)
    have hafter : afterClauses (first :: rest) = afterClauses (splitClause word (first :: rest)).2 := by
      rw [afterClauses, if_pos hclause]
    -- the move of a clause fits any line, so it can be counted on the line of what follows it
    by_cases hempty : (splitClause word (first :: rest)).2 = []
    · rw [hempty, statement]
      exact ⟨first, by simp, clause_moves hnext⟩
    · obtain ⟨t, ht, hmoves⟩ := ih hempty (hafter ▸ htame)
      exact ⟨t, hlater.subset ht, (clause_moves hnext).trans hmoves⟩
  | case5 a first rest word hend hclause hsetting
  | case6 a first rest word hend hclause hrescue => exact ⟨first, by simp, .refl a⟩
  | case7 a first rest word hend hclause hrescue =>
    have hstart : afterClauses (first :: rest) = first :: rest := by
      rw [afterClauses, if_neg hclause]
    exact ⟨first, by simp, ordinary_moves (hstart ▸ htame)⟩

end

end Assembly
end CookbookAtlas.Recipe
