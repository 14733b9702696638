import CookbookAtlas.Proofs.Recipe.Placement

/-! Loops are found twice: as blocks of the execution order, and by a scan of the statements that
keeps their last lines. The scan records one loop for each statement that leaves one open and starts
with no keyword. Blocks of loops are opened by those statements and by what follows a clause on its
line. So a loop of the execution order is recorded unless its statement starts with a keyword. -/
namespace CookbookAtlas.Recipe

open List

mutual
/-- The headings of the blocks in an item, in pre-order. -/
def Item.headings : Item → List Heading
  | .block heading children => heading :: headingsOf children
  | _ => []

def headingsOf : List Item → List Heading
  | [] => []
  | item :: rest => item.headings ++ headingsOf rest
end

@[simp] theorem headingsOf_append (xs ys : List Item) :
    headingsOf (xs ++ ys) = headingsOf xs ++ headingsOf ys := by
  induction xs with
  | nil => rfl
  | cons x xs ih => simp [headingsOf, ih]

@[simp] theorem headingsOf_singleton (item : Item) : headingsOf [item] = item.headings := by
  simp [headingsOf]

def Shape.heading? : Shape → Option Heading
  | .conditional heading _ | .caseOf heading => some heading
  | _ => none

def Frame.headings (frame : Frame) : List Heading :=
  frame.shape.heading?.toList ++ headingsOf frame.items

/-- The heading of the loop that a statement leaves open. -/
def loopHeading? (s : Source) (toks : Statement) : Option Heading :=
  if 0 < balance toks then
    match blockDo? toks with
    | none => none
    | some (head, parameters) => (eachCall? head).map fun each =>
      ⟨.eachLoop, s.text each.receiver ++ "." ++ each.method, (toks.head?.map Token.line).getD 0,
        parameters⟩
  else none

namespace Assembly

/-- Headings of all blocks closed or open, those of outer blocks first. -/
def headings (a : Assembly) : List Heading :=
  headingsOf a.items ++ a.frames.reverse.flatMap Frame.headings

theorem headings_cons (frame : Frame) (rest : List Frame) (items : List Item) (facts : List Fact) :
    headings ⟨frame :: rest, items, facts⟩ = headings ⟨rest, items, facts⟩ ++ frame.headings := by
  simp [headings]

@[simp] theorem headings_addFact (a : Assembly) (fact : Fact) :
    (a.addFact fact).headings = a.headings := rfl

@[simp] theorem headings_addItems (a : Assembly) (items : List Item) :
    (a.addItems items).headings = a.headings ++ headingsOf items := by
  obtain ⟨frames, old, facts⟩ := a
  cases frames <;> simp [addItems, headings, Frame.headings]

@[simp] theorem headings_addResource (a : Assembly) (r : Resource) :
    (a.addResource r).headings = a.headings := by
  simp [addResource, Item.headings]

@[simp] theorem headings_addProperty (a : Assembly) (key value : String) :
    (a.addProperty key value).headings = a.headings := by
  rw [headings, addProperty, flatMap_amendResource key value a.frames fun _ _ _ => rfl]
  rfl

@[simp] theorem headings_push (a : Assembly) (shape : Shape) :
    (a.push shape).headings = a.headings ++ shape.heading?.toList := by
  obtain ⟨frames, items, facts⟩ := a
  simp [push, headings_cons, Frame.headings, headingsOf]

/-- Every heading of `b` is one of `a` or satisfies `P`. -/
def Adds (P : Heading → Prop) (a b : Assembly) : Prop := ∀ h ∈ b.headings, h ∈ a.headings ∨ P h

section
variable {P Q : Heading → Prop} {a b c : Assembly}

theorem Adds.of_subset (h : b.headings ⊆ a.headings) : Adds P a b := fun _ hb => .inl (h hb)

theorem Adds.refl (a : Assembly) : Adds P a a := .of_subset fun _ h => h

theorem Adds.trans (hab : Adds P a b) (hbc : Adds P b c) : Adds P a c := by
  intro h hc
  rcases hbc h hc with hb | hP
  · exact hab h hb
  · exact .inr hP

theorem Adds.mono (hab : Adds P a b) (hPQ : ∀ h, P h → Q h) : Adds Q a b :=
  fun h hb => (hab h hb).imp_right (hPQ h)

theorem Adds.push {shape : Shape} (h : ∀ heading ∈ shape.heading?, P heading) :
    Adds P a (a.push shape) := by
  intro heading hmem
  rw [headings_push, mem_append, Option.mem_toList] at hmem
  exact hmem.imp_right (h heading)

theorem Adds.addItems {items : List Item} (h : ∀ heading ∈ headingsOf items, P heading) :
    Adds P a (a.addItems items) := by
  intro heading hmem
  rw [headings_addItems, mem_append] at hmem
  exact hmem.imp_right (h heading)

theorem Adds.foldl {α : Type} {f : Assembly → α → Assembly} {xs : List α}
    (h : ∀ a, ∀ x ∈ xs, Adds P a (f a x)) : Adds P a (xs.foldl f a) := by
  induction xs generalizing a with
  | nil => exact .refl a
  | cons x xs ih =>
    exact (h a x (by simp)).trans (ih fun b y hy => h b y (by simp [hy]))

theorem headings_absorb (s : Source) (a : Assembly) (frame : Frame) (stop : Nat)
    (guard : Option String) :
    (absorb s a frame stop guard).headings ⊆ a.headings ++ frame.headings := by
  obtain ⟨shape, items⟩ := frame
  cases shape with
  | resource call start => simp [absorb]
  | conditional heading arm
  | caseOf heading => simp [absorb, Frame.headings, Shape.heading?, Item.headings]
  | transparent => simp [absorb, Frame.headings, Shape.heading?]
  | definition | scope => simp [absorb]
  | captured key start =>
    cases key with
    | none => simp [absorb]
    | some key => by_cases hknown : isKnownProperty key = true <;> simp [absorb, hknown]

theorem headings_pop (s : Source) (a : Assembly) (stop : Nat) (guard : Option String) :
    (a.pop s stop guard).headings ⊆ a.headings := by
  obtain ⟨frames, items, facts⟩ := a
  cases frames with
  | nil => exact fun _ h => h
  | cons frame rest =>
    rw [headings_cons]
    exact headings_absorb s ⟨rest, items, facts⟩ frame stop guard

theorem headings_close (s : Source) (a : Assembly) (stop : Nat) (guard : Option String) :
    (a.close s stop guard).headings ⊆ a.headings := by
  rw [close]
  split
  · exact List.Subset.trans (headings_pop s _ stop none) (headings_pop s a stop guard)
  · exact headings_pop s a stop guard

theorem headings_closeAll (s : Source) (stop count : Nat) (a : Assembly) :
    (closeAll s stop count a).headings ⊆ a.headings := by
  induction count generalizing a with
  | zero => exact fun _ h => h
  | succ count ih => exact List.Subset.trans (ih _) (headings_pop s a stop none)

end

/-- A heading of a loop is the one that the statement opens. -/
def LoopOf (s : Source) (toks : Statement) (h : Heading) : Prop :=
  h.kind = .eachLoop → loopHeading? s toks = some h

section
variable {s : Source} {a : Assembly} {toks : Statement}

theorem LoopOf.of_kind {h : Heading} (hkind : h.kind ≠ .eachLoop) : LoopOf s toks h :=
  fun heach => absurd heach hkind

/-- Outside resources a loop is opened by a call of `each` with a block. -/
theorem loopOf_opener (hopen : 0 < balance toks) :
    ∀ h ∈ (opener s toks).1.heading?, LoopOf s toks h := by
  intro h hh
  have hflow : ∀ kind, kind ≠ .eachLoop → some (heading s kind toks) = some h →
      LoopOf s toks h := by
    rintro kind hkind ⟨rfl⟩
    exact .of_kind hkind
  have hother : (none : Option Heading) = some h → LoopOf s toks h := nofun
  rw [opener, Option.mem_def] at hh
  split at hh
  · exact hflow .ifBlock (by decide) hh
  split at hh
  · exact hflow .unlessBlock (by decide) hh
  split at hh
  · exact hflow .whileLoop (by decide) hh
  split at hh
  · exact hflow .untilLoop (by decide) hh
  split at hh
  · exact hflow .forLoop (by decide) hh
  split at hh
  · exact hflow .caseBlock (by decide) hh
  split at hh
  · exact hother hh
  split at hh
  · exact hother hh
  split at hh
  · exact hother hh
  split at hh
  · exact hother hh
  rename_i head names hblock
  split at hh
  · exact hother hh
  split at hh
  · rename_i each heach
    intro _
    rw [loopHeading?, if_pos hopen, hblock]
    simp only [heach, Option.map_some]
    exact hh
  · exact hother hh

theorem heading_innerOpener (toks : Statement) : (innerOpener toks).heading? = none := by
  rcases innerOpener_cases toks with h | ⟨key, start, h⟩ <;> rw [h] <;> rfl

theorem adds_openBlocks (count : Nat) (hopen : 0 < balance toks) :
    Adds (LoopOf s toks) a (a.openBlocks s toks count) := by
  have hfillers : ∀ (b : Assembly) (filler : Shape), filler.heading? = none →
      Adds (LoopOf s toks) b ((List.replicate count filler).foldl push b) := by
    intro b filler hfiller
    refine .foldl fun c shape hshape => .push ?_
    simp [eq_of_mem_replicate hshape, hfiller]
  rw [openBlocks]
  cases a.setting with
  | inCapture => exact (Adds.push (by simp [Shape.heading?])).trans (hfillers _ _ rfl)
  | inResource => exact (Adds.push (by simp [heading_innerOpener])).trans (hfillers _ _ rfl)
  | normal =>
    have hprimary : ∀ b : Assembly, Adds (LoopOf s toks) b (b.push (opener s toks).1) :=
      fun b => .push (loopOf_opener hopen)
    cases hfact : (opener s toks).2 with
    | none =>
      simp only [hfact]
      exact (hprimary a).trans (hfillers _ _ rfl)
    | some fact =>
      simp only [hfact]
      exact ((hprimary (a.addFact fact)).trans (hfillers _ _ rfl))

theorem headings_property (s : Source) (a : Assembly) (toks : Statement) :
    (a.property s toks).headings = a.headings := by
  rw [property]
  repeat' split
  all_goals simp

theorem loopOf_guarded (line : Nat) (guard : List Token) (r : Reference) :
    ∀ h ∈ (guarded s line guard (.inclusion r)).headings, LoopOf s toks h := by
  intro h hh
  refine .of_kind ?_
  rw [guarded] at hh
  repeat' split at hh
  all_goals simp_all [Item.headings, headingsOf]

theorem adds_plain : Adds (LoopOf s toks) a (a.plain s toks) := by
  have hnote : ∀ refs : List Reference,
      Adds (LoopOf s toks) a (refs.foldl (fun a r => a.addFact (.reference r)) a) :=
    fun refs => .foldl fun b r _ => .refl b
  simp only [plain]
  split
  · exact .foldl fun b r _ => Adds.addItems (a := b.addFact _) (by simpa using loopOf_guarded _ _ r)
  split
  · exact hnote _
  split
  · exact hnote _
  split
  · exact .refl a
  · rw [resourceLine]
    split
    · exact .refl a
    · exact .of_subset (by simp)

theorem adds_ordinary : Adds (LoopOf s toks) a (a.ordinary s toks) := by
  rw [ordinary]
  split
  · rename_i count hbalance
    exact adds_openBlocks count (balance_pos hbalance)
  · cases a.setting with
    | inCapture => exact .refl a
    | inResource => exact .of_subset (headings_property s a toks ▸ fun _ h => h)
    | normal => exact adds_plain

theorem clauseKind_ne_eachLoop {word : String} {chain : Chain} {kind : BlockKind} {arm : Bool}
    (h : clauseKind? word chain = some (kind, arm)) : kind ≠ .eachLoop := by
  cases chain <;> grind [clauseKind?, clauseKind?.armKind?]

theorem adds_clause {word : String} {head : List Token} {b : Assembly}
    (h : a.clause? s word head = some b) : Adds (LoopOf s toks) a b := by
  obtain ⟨⟨kind, arm⟩, hkind, rfl⟩ := Option.map_eq_some_iff.mp h
  have hpush : ∀ c : Assembly, Adds (LoopOf s toks) c (c.push (.conditional (heading s kind head) arm)) := by
    refine fun c => .push ?_
    rintro _ ⟨rfl⟩
    exact .of_kind (clauseKind_ne_eachLoop hkind)
  by_cases hcase : a.chain = .caseOf
  · simp only [hcase, if_true]
    exact hpush a
  · simp only [hcase, if_false]
    exact (Adds.of_subset (headings_pop s a _ none)).trans (hpush _)

/-- A statement opens at most the loop that is left behind its clauses. -/
theorem adds_statement (s : Source) (a : Assembly) (toks : Statement) :
    Adds (LoopOf s (afterClauses toks)) a (a.statement s toks) := by
  fun_induction statement s a toks with
  | case1 a => exact .refl a
  | case2 a first rest word hend => exact .of_subset (headings_close s a _ _)
  | case3 a first rest word hend hclause hsetting hnone => exact .refl a
  | case4 a first rest word hend hclause hsetting next hnext ih =>
    rw [afterClauses, if_pos hclause]
    exact (adds_clause hnext).trans ih
  | case5 a first rest word hend hclause hsetting
  | case6 a first rest word hend hclause hrescue => exact .refl a
  | case7 a first rest word hend hclause hrescue =>
    rw [afterClauses, if_neg hclause]
    exact adds_ordinary

theorem adds_run (list : List Statement) :
    Adds (fun h => ∃ toks ∈ list, LoopOf s (afterClauses toks) h) a (a.run s list) :=
  .foldl fun b toks hmem => (adds_statement s b toks).mono fun _ h => ⟨toks, hmem, h⟩

theorem headings_finish (s : Source) (a : Assembly) : headingsOf (a.finish s).items ⊆ a.headings :=
  List.Subset.trans (subset_append_left _ _) (headings_closeAll s _ _ a)

end
end Assembly

def Loop.opening (l : Loop) : Loop := { l with endLine := l.line }

/-- Whether a loop and a block of the execution order have the same head. -/
def Loop.Heads (l : Loop) (h : Heading) : Prop :=
  l.line = h.line ∧ l.parameters = h.parameters ∧ l.collection ++ "." ++ l.method = h.condition

def startsWithKeyword (toks : Statement) : Bool := (toks.head?.bind Token.ident?).any isKeyword

namespace LoopScan

def recorded? (s : Source) : Statement → Option Loop
  | [] => none
  | first :: rest => if 0 < balance (first :: rest) then loopOf? s first (first :: rest) else none

theorem opening_of_loopOf {s : Source} {first : Token} {toks : Statement} {l : Loop}
    (h : loopOf? s first toks = some l) : l.opening = l := by
  rw [loopOf?] at h
  split at h
  · cases h
  split at h
  · cases h
  · obtain ⟨each, -, rfl⟩ := Option.map_eq_some_iff.mp h
    rfl

@[simp] theorem map_opening_endAt (ls : List Loop) (index line : Nat) :
    (endAt ls index line).map Loop.opening = ls.map Loop.opening := by
  apply ext_getElem?
  intro i
  by_cases h : index = i
  · cases hloop : ls[i]? <;> simp [endAt, h, hloop, Loop.opening]
  · simp [endAt, h]

theorem map_opening_statement (s : Source) (scan : LoopScan) (toks : Statement) :
    (statement s scan toks).loops.map Loop.opening =
    scan.loops.map Loop.opening ++ (recorded? s toks).toList := by
  cases toks with
  | nil => simp [statement, recorded?]
  | cons first rest =>
    rw [statement, recorded?]
    by_cases hend : first.isWord "end" = true
    · have hword : first.ident? = some "end" := by
        rw [Token.isWord, beq_iff_eq] at hend
        rw [Token.ident?, hend]
        rfl
      have hnone : loopOf? s first (first :: rest) = none := by
        rw [loopOf?, hword]
        rfl
      rw [if_pos hend, hnone, ite_self]
      split <;> simp
    · rw [if_neg hend]
      split
      · rename_i count hbalance
        rw [if_pos (balance_pos hbalance)]
        split
        · rename_i l hl
          simp [hl, opening_of_loopOf hl]
        · rename_i hl
          simp [hl]
      · rename_i hclosed
        rw [if_neg (Int.not_lt.mpr (balance_nonpos hclosed))]
        simp

theorem map_opening_foldl (s : Source) (list : List Statement) (scan : LoopScan) :
    (list.foldl (statement s) scan).loops.map Loop.opening =
      scan.loops.map Loop.opening ++ list.filterMap (recorded? s) := by
  induction list generalizing scan with
  | nil => simp
  | cons toks list ih =>
    rw [foldl_cons, ih, map_opening_statement, append_assoc, filterMap_cons]
    cases recorded? s toks <;> simp

theorem map_opening_finish (line : Nat) (scan : LoopScan) :
    (scan.finish line).map Loop.opening = scan.loops.map Loop.opening := by
  rw [finish]
  generalize scan.blocks.filterMap id = indices
  induction indices generalizing scan with
  | nil => rfl
  | cons index indices ih =>
    rw [foldl_cons]
    exact (ih ⟨endAt scan.loops index line, []⟩).trans (map_opening_endAt _ _ _)

end LoopScan

/-- The loops of a file are those recorded for its statements, but for their last lines. -/
theorem map_opening_loops (s : Source) (tokens : List Token) (list : List Statement) :
    (loops s tokens list).map Loop.opening = list.filterMap (LoopScan.recorded? s) := by
  rw [loops, LoopScan.map_opening_finish, LoopScan.map_opening_foldl]
  rfl

/-- The scan records what a block of the execution order says of its loop. -/
theorem recorded_of_loopHeading {s : Source} {toks : Statement} {h : Heading}
    (hstart : startsWithKeyword toks = false) (hheading : loopHeading? s toks = some h) :
    ∃ l, LoopScan.recorded? s toks = some l ∧ l.Heads h := by
  cases toks with
  | nil => cases hheading
  | cons first rest =>
    have hword : first.ident?.any isKeyword = false := hstart
    rw [loopHeading?] at hheading
    split at hheading
    · rename_i hopen
      split at hheading
      · cases hheading
      · rename_i head parameters hblock
        obtain ⟨each, heach, rfl⟩ := Option.map_eq_some_iff.mp hheading
        rw [LoopScan.recorded?, if_pos hopen, LoopScan.loopOf?, hword, if_neg (by simp), hblock]
        simp only [heach, Option.map_some, Option.some.injEq, exists_eq_left']
        exact ⟨rfl, rfl, rfl⟩
    · cases hheading

theorem afterClauses_of_startsWithKeyword {toks : Statement} (h : startsWithKeyword toks = false) :
    afterClauses toks = toks := by
  cases toks with
  | nil => rw [afterClauses]
  | cons first rest =>
    rw [afterClauses, if_neg]
    intro hclause
    cases hword : first.ident? with
    | none => simp [hword, Assembly.isClause] at hclause
    | some word =>
      have hkeyword : isKeyword word = false := by simpa [startsWithKeyword, hword] using h
      simp only [hword, Option.getD_some, Assembly.isClause, Bool.or_eq_true, beq_iff_eq] at hclause
      rcases hclause with ((rfl | rfl) | rfl) | rfl <;> revert hkeyword <;> decide

theorem mem_loops_parseTokens {s : Source} {tokens : List Token} {l : Loop}
    (h : l ∈ loops s tokens (statements tokens)) : l ∈ (parseTokens s tokens).loops := by
  simp only [Parsed.loops, parseTokens, mem_filterMap, mem_mergeSort, mem_append, mem_map]
  exact ⟨.loop l, .inr ⟨l, h, rfl⟩, rfl⟩

/-- Every loop of the execution order is the one left open behind the clauses of some statement, and
it is recorded with the same line, parameters, collection and method if that statement starts with
no keyword. -/
theorem loop_recorded_of_execution (s : Source) (p : Parsed) (hparse : parse? s = some p)
    (h : Heading) (hmem : h ∈ headingsOf p.execution) (hkind : h.kind = .eachLoop) :
    ∃ tokens, Token.scan? s.chars = some tokens ∧ ∃ toks ∈ statements tokens,
      loopHeading? s (afterClauses toks) = some h ∧
        (startsWithKeyword toks = false → ∃ l ∈ p.loops, l.Heads h) := by
  obtain ⟨tokens, hscan, rfl⟩ := Option.map_eq_some_iff.mp hparse
  have hadded := Assembly.adds_run (s := s) (a :=
    .start) (statements tokens) h (Assembly.headings_finish s _ hmem)
  obtain ⟨toks, htoks, hloop⟩ := hadded.resolve_left (not_mem_nil)
  refine ⟨tokens, hscan, toks, htoks, hloop hkind, fun hstart => ?_⟩
  obtain ⟨l, hrecorded, hheads⟩ :=
    recorded_of_loopHeading hstart (afterClauses_of_startsWithKeyword hstart ▸ hloop hkind)
  have hopened : l ∈ (loops s tokens (statements tokens)).map Loop.opening := by
    rw [map_opening_loops]
    exact mem_filterMap.mpr ⟨toks, htoks, hrecorded⟩
  obtain ⟨whole, hwhole, rfl⟩ := mem_map.mp hopened
  exact ⟨whole, mem_loops_parseTokens hwhole, hheads⟩

def armLoop : Source :=
  ⟨"case a\nwhen 1\n  xs.each do |x, y|\n    package x\n  end\nend\n".toList, ⟨"default.rb"⟩, 80⟩

def armLoopHeading : Heading := ⟨.eachLoop, "xs.each", 3, ["x", "y"]⟩

theorem armLoop_recorded : ∃ p, parse? armLoop = some p ∧ armLoopHeading ∈ headingsOf p.execution ∧
    ∃ l ∈ p.loops, l.Heads armLoopHeading := by
  have hheadings : (parse? armLoop).map (fun p => headingsOf p.execution) =
      some [⟨.caseBlock, "case a", 1, []⟩, ⟨.whenArm, "when 1", 2, []⟩, armLoopHeading] := by
        decide +kernel
  have hstarts : (Token.scan? armLoop.chars).all (fun tokens => (statements tokens).all fun toks =>
      loopHeading? armLoop (afterClauses toks) != some armLoopHeading || !startsWithKeyword toks) =
      true := by
    decide +kernel
  obtain ⟨p, hparse, hexecution⟩ := Option.map_eq_some_iff.mp hheadings
  have hmem : armLoopHeading ∈ headingsOf p.execution := by simp [hexecution]
  obtain ⟨tokens, hscan, toks, htoks, hopened, hrecorded⟩ :=
    loop_recorded_of_execution armLoop p hparse _ hmem rfl
  rw [hscan, Option.all_some, all_eq_true] at hstarts
  exact ⟨p, hparse, hmem, hrecorded (by simpa [hopened] using hstarts toks htoks)⟩

def clauseLoop : Source :=
  ⟨"case a\nwhen 1 then xs.each do |x|\n  package x\nend\nend\n".toList, ⟨"default.rb"⟩, 80⟩

theorem clauseLoop_unrecorded :
    ¬∀ (s : Source) (p : Parsed), parse? s = some p →
    ∀ h ∈ headingsOf p.execution, h.kind = .eachLoop → ∃ l ∈ p.loops, l.Heads h := by
  intro hall
  let each : Heading := ⟨.eachLoop, "xs.each", 2, ["x"]⟩
  have hfound : (parse? clauseLoop).map (fun p => (headingsOf p.execution, p.loops)) =
      some ([⟨.caseBlock, "case a", 1, []⟩, ⟨.whenArm, "when 1", 2, []⟩, each], []) := by decide +kernel
  obtain ⟨p, hparse, hpair⟩ := Option.map_eq_some_iff.mp hfound
  obtain ⟨hexecution, hloops⟩ := Prod.mk.inj hpair
  obtain ⟨l, hl, -⟩ := hall clauseLoop p hparse each (by simp [hexecution]) rfl
  rw [hloops] at hl
  exact absurd hl not_mem_nil

end CookbookAtlas.Recipe
