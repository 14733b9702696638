import CookbookAtlas.Proofs.Recipe.LoopSpans

/-! Where facts come from. Every fact of a source carries its file and one of its lines, the facts
are sorted by line, and the loops among them span lines that nest. -/
namespace CookbookAtlas.Recipe

open List

namespace Assembly

/-- Facts, those of open blocks among them, were found on some of the given lines. -/
structure Attributed (s : Source) (lines : List Nat) (a : Assembly) : Prop where
  facts : ∀ fact ∈ a.facts, ∃ line ∈ lines, fact.Found s line
  frames : ∀ frame ∈ a.frames, ∀ fact ∈ frame.shape.fact?, ∃ line ∈ lines, fact.Found s line

section
variable {s : Source} {lines : List Nat} {a b : Assembly}

theorem Attributed.start : Attributed s lines start :=
  ⟨by simp [Assembly.start], by simp [Assembly.start]⟩

theorem Attributed.addFact (h : Attributed s lines a) {fact : Fact}
    (hfact : ∃ line ∈ lines, fact.Found s line) : Attributed s lines (a.addFact fact) := by
  refine ⟨fun f hf => ?_, h.frames⟩
  rcases mem_append.mp hf with hold | hnew
  · exact h.facts f hold
  · rwa [mem_singleton.mp hnew]

theorem Attributed.addItems (h : Attributed s lines a) (items : List Item) :
    Attributed s lines (a.addItems items) := by
  obtain ⟨frames, old, facts⟩ := a
  cases frames with
  | nil => exact ⟨h.facts, h.frames⟩
  | cons frame rest =>
    obtain ⟨hframe, hrest⟩ := forall_mem_cons.mp h.frames
    exact ⟨h.facts, forall_mem_cons.mpr ⟨hframe, hrest⟩⟩

theorem Attributed.addResource (h : Attributed s lines a) {r : Resource}
    (hr : ∃ line ∈ lines, (Fact.resource r).Found s line) : Attributed s lines (a.addResource r) :=
  (h.addFact hr).addItems _

theorem Attributed.push (h : Attributed s lines a) {shape : Shape}
    (hshape : ∀ fact ∈ shape.fact?, ∃ line ∈ lines, fact.Found s line) :
    Attributed s lines (a.push shape) :=
  ⟨h.facts, forall_mem_cons.mpr ⟨hshape, h.frames⟩⟩

theorem found_amendResource {frames : List Frame} (key value : String)
    (h : ∀ frame ∈ frames, ∀ fact ∈ frame.shape.fact?, ∃ line ∈ lines, fact.Found s line) :
    ∀ frame ∈ amendResource key value frames, ∀ fact ∈ frame.shape.fact?,
    ∃ line ∈ lines, fact.Found s line := by
  induction frames with
  | nil => exact h
  | cons frame rest ih =>
    obtain ⟨shape, items⟩ := frame
    obtain ⟨hframe, hrest⟩ := forall_mem_cons.mp h
    cases shape with
    | resource call start =>
      refine forall_mem_cons.mpr ⟨fun fact hfact => ?_, hrest⟩
      obtain ⟨line, hline, hfound⟩ := hframe _ rfl
      obtain rfl := Option.some.inj hfact
      exact ⟨line, hline, hfound.amended rfl rfl⟩
    | _ => exact forall_mem_cons.mpr ⟨hframe, ih hrest⟩

theorem Attributed.addProperty (h : Attributed s lines a) (key value : String) :
    Attributed s lines (a.addProperty key value) :=
  ⟨h.facts, found_amendResource key value h.frames⟩

theorem Attributed.pop (h : Attributed s lines a) (stop : Nat) (guard : Option String) :
    Attributed s lines (a.pop s stop guard) := by
  obtain ⟨frames, items, facts⟩ := a
  cases frames with
  | nil => exact h
  | cons frame rest =>
    obtain ⟨shape, inner⟩ := frame
    obtain ⟨hframe, hrest⟩ := forall_mem_cons.mp h.frames
    have hbelow : Attributed s lines ⟨rest, items, facts⟩ := ⟨h.facts, hrest⟩
    cases shape with
    | resource call start =>
      obtain ⟨line, hline, hfound⟩ := hframe _ rfl
      have hcalled : ∀ r : Resource, r.file = call.file → r.line = call.line →
          Attributed s lines (Assembly.addResource ⟨rest, items, facts⟩ r) :=
        fun r hfile hsame => hbelow.addResource ⟨line, hline, hfound.amended hfile hsame⟩
      cases guard <;> exact hcalled _ rfl rfl
    | conditional heading arm | caseOf heading | transparent => exact hbelow.addItems _
    | definition | scope => exact hbelow
    | captured key start =>
      cases key with
      | none => exact hbelow
      | some key =>
        simp only [Assembly.pop, absorb]
        split
        · exact hbelow.addProperty _ _
        · exact hbelow

theorem Move.attributed {tame : Bool} {line : Nat} (hmove : Move s tame line a b)
    (hline : line ∈ lines) (h : Attributed s lines a) : Attributed s lines b := by
  cases hmove with
  | noted fact hfact hfound => exact h.addFact ⟨line, hline, hfound⟩
  | placed fact item hsetting hfact hfound hitem =>
    exact (h.addFact ⟨line, hline, hfound⟩).addItems _
  | amended key value => exact h.addProperty key value
  | opened shape hshape hfound => exact h.push fun fact hfact => ⟨line, hline, hfound fact hfact⟩
  | continued heading arm stop htop => exact (h.pop stop none).push (by simp [Shape.fact?])
  | closed stop guard => exact h.pop stop guard

theorem Moves.attributed {tame : Bool} {line : Nat} (hmoves : Moves s tame line a b)
    (hline : line ∈ lines) (h : Attributed s lines a) : Attributed s lines b := by
  induction hmoves with
  | refl => exact h
  | tail _ hmove ih => exact hmove.attributed hline ih

theorem Attributed.statement {toks : Statement} (h : Attributed s lines a)
    (hlines : toks.map Token.line ⊆ lines) : Attributed s lines (a.statement s toks) := by
  by_cases hempty : toks = []
  · subst hempty
    rw [Assembly.statement]
    exact h
  · have hwild : ∃ t ∈ toks, Moves s false t.line a (a.statement s toks) :=
      statement_moves hempty (by simp)
    obtain ⟨t, ht, hmoves⟩ := hwild
    exact hmoves.attributed (hlines (mem_map_of_mem ht)) h

theorem Attributed.run {list : List Statement} (h : Attributed s lines a)
    (hlines : list.flatten.map Token.line ⊆ lines) : Attributed s lines (a.run s list) := by
  induction list generalizing a with
  | nil => exact h
  | cons toks list ih =>
    rw [flatten_cons, map_append, append_subset] at hlines
    exact ih (h.statement hlines.1) hlines.2

theorem Attributed.closeAll (h : Attributed s lines a) (stop count : Nat) :
    Attributed s lines (closeAll s stop count a) := by
  induction count generalizing a with
  | zero => exact h
  | succ count ih => exact ih (h.pop stop none)

end
end Assembly

section
variable {s : Source} {tokens : List Token}

theorem found_assembly (s : Source) (tokens : List Token) :
    ∀ fact ∈ ((Assembly.start.run s (statements tokens)).finish s).facts,
      ∃ line ∈ tokens.map Token.line, fact.Found s line := by
  have hlines : (statements tokens).flatten.map Token.line ⊆ tokens.map Token.line :=
    ((flatten_statements tokens).map _).subset
  exact ((Assembly.Attributed.start.run hlines).closeAll _ _).facts

theorem recorded_place {toks : Statement} {l : Loop} (h : LoopScan.recorded? s toks = some l) :
    l.file = s.file ∧ l.line ∈ toks.map Token.line := by
  cases toks with
  | nil => cases h
  | cons first rest =>
    rw [LoopScan.recorded?] at h
    split at h
    · obtain ⟨hfile, hline, -⟩ := LoopScan.place_of_loopOf h
      exact ⟨hfile, hline ▸ mem_cons_self⟩
    · cases h

theorem loop_place {l : Loop} (h : l ∈ loops s tokens (statements tokens)) :
    l.file = s.file ∧ l.line ∈ tokens.map Token.line := by
  have hopened : l.opening ∈ (statements tokens).filterMap (LoopScan.recorded? s) := by
    rw [← map_opening_loops s tokens]
    exact mem_map_of_mem h
  obtain ⟨toks, htoks, hrecorded⟩ := mem_filterMap.mp hopened
  obtain ⟨hfile, hline⟩ := recorded_place hrecorded
  refine ⟨hfile, map_subset _ ?_ hline⟩
  exact fun t ht => (flatten_statements tokens).subset (mem_flatten.mpr ⟨toks, htoks, ht⟩)

theorem place_of_fact {fact : Fact} (h : fact ∈ (parseTokens s tokens).facts) :
    fact.file = s.file ∧ fact.line ∈ tokens.map Token.line := by
  rw [parseTokens, mem_mergeSort, mem_append] at h
  rcases h with hfound | hloop
  · obtain ⟨line, hline, hfound⟩ := found_assembly s tokens fact hfound
    exact ⟨hfound.file, hfound.line ▸ hline⟩
  · obtain ⟨l, hl, rfl⟩ := mem_map.mp hloop
    exact loop_place hl

theorem sorted_facts (s : Source) (tokens : List Token) :
    (parseTokens s tokens).facts.Pairwise fun f g => f.line ≤ g.line := by
  rw [parseTokens]
  exact (pairwise_mergeSort line_trans line_total _).imp fun h => of_decide_eq_true h

/-- The loops among the facts are those of the scan, in order of opening. -/
theorem loops_parseTokens (hlines : (tokens.map Token.line).Pairwise (· ≤ ·)) :
    (parseTokens s tokens).loops = loops s tokens (statements tokens) := by
  have hstarts := (spanned_loops s hlines).starts
  have hsub : ((loops s tokens (statements tokens)).map Fact.loop).Sublist (parseTokens s tokens).facts :=
    sublist_facts (pairwise_map.mpr hstarts) (sublist_append_right _ _)
  have hsame : ∀ ls : List Loop, (ls.map Fact.loop).filterMap Fact.loop? = ls := by
    intro ls
    rw [filterMap_map]
    exact filterMap_some
  have hnone : ((Assembly.start.run s (statements tokens)).finish s).facts.filterMap Fact.loop? =
      [] := by
    refine filterMap_eq_nil_iff.mpr fun fact hfact => ?_
    obtain ⟨line, -, hfound⟩ := found_assembly s tokens fact hfact
    exact hfound.loop
  have hloops := hsub.filterMap Fact.loop?
  rw [hsame] at hloops
  refine (hloops.eq_of_length ?_).symm
  rw [parseTokens, ((mergeSort_perm _ _).filterMap _).length_eq, filterMap_append, hnone, hsame,
    nil_append]

end

/-- Every fact carries the file and a line of the source, and the facts are in the order of their
lines. Loops are listed in order of opening; each ends no later than the last token, and the later
of two starts behind the earlier one or ends inside it. -/
theorem facts_attributed {s : Source} {p : Parsed} (h : parse? s = some p) :
    (∀ f ∈ p.facts, f.file = s.file ∧ 1 ≤ f.line ∧ f.line ≤ (Text.lines s.chars).length) ∧
      p.facts.Pairwise (fun f g => f.line ≤ g.line) ∧ ∃ tokens, Token.scan? s.chars = some tokens ∧
        (∀ l ∈ p.loops, l.line ≤ l.endLine ∧ ∃ last, tokens.getLast? = some last ∧
        l.endLine ≤ last.line) ∧
        p.loops.map Loop.opening = (statements tokens).filterMap (LoopScan.recorded? s) ∧
        p.loops.Pairwise Loop.Nests := by
  obtain ⟨tokens, hscan, rfl⟩ := Option.map_eq_some_iff.mp h
  have hlines := Token.pairwise_line_of_scan? hscan
  have hspanned := spanned_loops s hlines
  refine ⟨fun f hf => ?_, sorted_facts s tokens, tokens, hscan, ?_⟩
  · obtain ⟨hfile, hline⟩ := place_of_fact hf
    exact ⟨hfile, Token.line_of_scan? hscan _ hline⟩
  rw [loops_parseTokens hlines]
  refine ⟨fun l hl => ⟨(hspanned.ends l hl).1, ?_⟩, map_opening_loops s tokens _,
    hspanned.pairwise_nests⟩
  have hend := (hspanned.ends l hl).2 _ mem_cons_self
  obtain ⟨t, ht, -⟩ := mem_map.mp (loop_place hl).2
  have hlast := List.getLast?_eq_getLast_of_ne_nil (ne_nil_of_mem ht)
  rw [hlast] at hend ⊢
  exact ⟨_, rfl, hend⟩

/-- A block on top of the second loop, a heredoc, and two loops that nothing closes. -/
def nestedLoops : Source :=
  ⟨"xs.each do |x|\n  a = if b, ys.each do |y|\n    package <<-E\ntext\nE\n  end\nend\nzs.each do |z|\n".toList,
    ⟨"default.rb"⟩, 80⟩

theorem nestedLoops_attributed : ∃ p, parse? nestedLoops = some p ∧
    p.loops.map (fun l => (l.line, l.endLine)) = [(1, 8), (2, 7), (8, 8)] ∧ p.loops.Pairwise Loop.Nests ∧
    (∀ f ∈ p.facts, f.file = ⟨"default.rb"⟩ ∧ 1 ≤ f.line ∧ f.line ≤ 8) ∧
    p.facts.Pairwise (fun f g => f.line ≤ g.line) := by
  have hspans : (Token.scan? nestedLoops.chars).map (fun tokens =>
      (loops nestedLoops tokens (statements tokens)).map fun l => (l.line, l.endLine)) =
      some [(1, 8), (2, 7), (8, 8)] := by decide +kernel
  have hcount : (Text.lines nestedLoops.chars).length = 8 := by decide +kernel
  obtain ⟨tokens, hscan, hloops⟩ := Option.map_eq_some_iff.mp hspans
  have hparse : parse? nestedLoops = some (parseTokens nestedLoops tokens) := by
    rw [parse?, hscan, Option.map_some]
  obtain ⟨hplaces, hsorted, _, -, -, -, hnests⟩ := facts_attributed hparse
  refine ⟨_, hparse, ?_, hnests, fun f hf => hcount ▸ hplaces f hf, hsorted⟩
  rw [loops_parseTokens (Token.pairwise_line_of_scan? hscan), hloops]
end CookbookAtlas.Recipe
