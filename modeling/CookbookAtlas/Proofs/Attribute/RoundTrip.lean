import CookbookAtlas.Proofs.Attribute.Leaves
import CookbookAtlas.Proofs.Recipe.Page
import CookbookAtlas.Survey.Basic

/-! Attribute files. A tree of attributes is written as one assignment for each leaf; reading the
text back gives one assignment for each leaf, and these add up to the tree. -/
namespace CookbookAtlas.Attribute

open Token Recipe Assembly List Literal

def brackets (path : List String) : List Piece :=
  path.flatMap fun key => [.mark '[' .leftBracket, .quoted key, .mark ']' .rightBracket]

theorem spelled_brackets (path : List String) (rest : List Char) :
    Spelled (brackets path) rest := by
  induction path with
  | nil => trivial
  | cons key path ih =>
    exact ⟨Piece.reads_bracket rfl _, Piece.reads_quoted key _, Piece.reads_bracket rfl _, ih⟩

theorem balanced_brackets (path : List String) : Balanced (kinds (brackets path)) := by
  induction path with
  | nil => exact .flat (by simp [brackets, kinds]) (by simp [brackets, kinds])
  | cons key path ih =>
    have hkey : Balanced [.string key false] :=
      .flat (by simp [isLiteralKind]) (by simp [Kind.isOpening, Kind.isClosing])
    have hpair : Balanced [.leftBracket, .string key false, .rightBracket] :=
      hkey.enclosed rfl ⟨rfl, rfl⟩ ⟨rfl, rfl⟩
    exact hpair.append ih

theorem last_write (v : Datum) :
    ∃ k, (kinds (Literal.write v)).getLast? = some k ∧ dangles k = false := by
  cases v with
  | null => exact ⟨.ident "nil", rfl, by decide⟩
  | bool b => cases b <;> exact ⟨_, rfl, by decide⟩
  | number n =>
    cases n with
    | int n =>
      refine ⟨.number (String.ofList (Nat.toDigits 10 n.natAbs)), ?_, rfl⟩
      simp only [Literal.write, Literal.integer]
      split <;> rfl
    | float bits => exact ⟨.ident "nil", rfl, by decide⟩
  | string text => exact ⟨.string text false, rfl, rfl⟩
  | array items =>
    refine ⟨.rightBracket, ?_, rfl⟩
    rw [kinds_write_array, ← cons_append, List.getLast?_concat]
  | object members =>
    refine ⟨.rightBrace, ?_, rfl⟩
    rw [kinds_write_object, ← cons_append, List.getLast?_concat]

theorem isLiteralKind_spec {k : Kind} (h : isLiteralKind k = true) :
    k ≠ .newline ∧ k ≠ .semicolon ∧ isQuiet k = true := by
  cases k with
  | ident word =>
    simp only [isLiteralKind, Bool.or_eq_true, beq_iff_eq] at h
    rcases h with (rfl | rfl) | rfl <;> decide
  | _ => simp_all [isLiteralKind, isQuiet, Kind.ident?]

def leafPieces (l : Leaf) : List Piece :=
  .name "default" :: (brackets l.1 ++ ([.space, .assign, .space] ++ Literal.write l.2))

theorem kinds_leafPieces (l : Leaf) :
    kinds (leafPieces l) = .ident "default" ::
    (kinds (brackets l.1) ++ .assign :: kinds (Literal.write l.2)) := by
  simp [leafPieces, kinds, Piece.name, Piece.space, Piece.assign, Piece.mark]

theorem mem_kinds_leafPieces {l : Leaf} {k : Kind} (hk : k ∈ kinds (leafPieces l)) :
    k = .ident "default" ∨ k = .assign ∨ isLiteralKind k = true := by
  simp only [kinds_leafPieces, mem_cons, mem_append] at hk
  rcases hk with hk | hk | hk | hk
  · exact .inl hk
  · exact .inr (.inr ((balanced_brackets l.1).plain k hk))
  · exact .inr (.inl hk)
  · exact .inr (.inr ((balanced_write l.2).plain k hk))

def leafLine (l : Leaf) : Line where
  pieces := leafPieces l
  spelled rest := by
    have hvalue : Spelled (Literal.write l.2) ('\n' :: rest) :=
      spelled_write l.2 _ ⟨'\n', rest, rfl, by decide⟩
    refine ⟨Piece.reads_name (by decide +kernel) ?_, Spelled.append (spelled_brackets l.1 _) ?_⟩
    · cases hpath : l.1 with
      | nil | cons key path => exact endsName_of_mark (by decide) _
    · exact ⟨Piece.reads_space _, Piece.reads_assign _, Piece.reads_space _, hvalue⟩
  whole := by
    obtain ⟨last, hlast, hends⟩ := last_write l.2
    refine ⟨?_, ?_, ?_, last, ?_, hends⟩
    · intro k hk
      rcases mem_kinds_leafPieces hk with rfl | rfl | hk
      · simp
      · simp
      · exact ⟨(isLiteralKind_spec hk).1, (isLiteralKind_spec hk).2.1⟩
    · rw [kinds_leafPieces, foldl_cons, foldl_append, (balanced_brackets l.1).level, foldl_cons,
        (balanced_write l.2).level]
      rfl
    · simp [kinds_leafPieces]
    · rw [kinds_leafPieces, ← cons_append, List.getLast?_append_cons, List.getLast?_cons, hlast]
      rfl

theorem tokens_leaf (l : Leaf) (place : Place) : ∃ t e keys value,
    tokensAt place (leafLine l).pieces =
      t :: (tokensAt keys (brackets l.1) ++ e :: tokensAt value (Literal.write l.2)) ∧
    t.kind = .ident "default" ∧ t.line = place.line ∧ e.kind = .assign := by
  have hpieces : (leafLine l).pieces =
      [.name "default"] ++ (brackets l.1 ++ ([.space, .assign, .space] ++ Literal.write l.2)) := rfl
  rw [hpieces, tokensAt_append, tokensAt_append, tokensAt_append]
  exact ⟨_, _, _, _, rfl, rfl, rfl, rfl⟩

theorem assignmentPath_brackets (s : Source) (path done : List String) (place : Place) {e : Token}
    (he : e.kind = .assign) (rest : List Token) :
    assignmentPath s done none (tokensAt place (brackets path) ++ e :: rest) =
      some (done.reverse ++ path, rest) := by
  induction path generalizing done place with
  | nil =>
    rw [assignmentPath.eq_def]
    simp [brackets, tokensAt, he, Kind.isAssignment]
  | cons key path ih =>
    obtain ⟨x, k, y, later, htoks, hx, hk, hy⟩ : ∃ x k y later,
        tokensAt place (brackets (key :: path)) = x :: k :: y :: tokensAt later (brackets path) ∧
        x.kind = .leftBracket ∧ k = ⟨.string key false, k.line, k.start, k.stop⟩ ∧ y.kind = .rightBracket :=
      ⟨_, _, _, _, rfl, rfl, rfl, rfl⟩
    have hkind : k.kind = .string key false := by rw [hk]
    have htext : keyText s [k] = key := by
      rw [hk]
      rfl
    have hrest := ih (key :: done) later
    have hone : ∀ more, assignmentPath s done none (x :: k :: y :: more) =
        assignmentPath s (key :: done) none more := by
      intro more
      rw [assignmentPath.eq_def]
      simp only [hx, if_true]
      rw [assignmentPath.eq_def]
      simp only [hkind, reduceCtorEq, if_false]
      rw [assignmentPath.eq_def]
      simp only [hy, reduceCtorEq, if_false, if_true, reverse_cons, reverse_nil, nil_append, htext]
    rw [htoks, cons_append, cons_append, cons_append, hone, hrest]
    simp

theorem assignment_leaf (s : Source) (place : Place) (l : Leaf) (hpath : l.1 ≠ [])
    (hvalue : isWritable 0 l.2 = true) :
    ∃ x, assignment? s (tokensAt place (leafLine l).pieces) = some x ∧ x.line = place.line ∧
      (x.precedence, x.path, x.value) = (.default, l.1, some l.2) := by
  obtain ⟨t, e, keys, value, htoks, ht, hline, he⟩ := tokens_leaf l place
  have hident : t.ident? = some "default" := by rw [Token.ident?, ht]; rfl
  have hnode : t.isWord "node" = false := by simp [Token.isWord, ht]
  have hafter : ∀ rest, afterNode (t :: rest) = t :: rest := by
    intro rest
    cases rest <;> simp [afterNode, hnode]
  have hlevel : Precedence.ofWord? "default" = some .default := by decide
  have hkeys := assignmentPath_brackets s l.1 [] keys he (tokensAt value (Literal.write l.2))
  have hevaluate : Literal.evaluate? (tokensAt value (Literal.write l.2)) = some l.2 := by
    rw [Literal.evaluate?, map_kind_tokensAt, evaluateKinds?_write hvalue]
  rw [htoks]
  simp only [assignment?, hafter, hident, Option.bind_some, hlevel, hkeys, reverse_nil, nil_append,
    hevaluate, List.isEmpty_iff, if_neg hpath, List.head?_cons, Option.map_some, Option.getD_some,
    hline]
  exact ⟨_, rfl, rfl, rfl⟩

theorem quiet_leaf (l : Leaf) (place : Place) :
    ∀ t ∈ tokensAt place (leafLine l).pieces, isQuiet t.kind = true := by
  intro t ht
  have hk : t.kind ∈ kinds (leafPieces l) := by
    rw [← map_kind_tokensAt place]
    exact mem_map_of_mem ht
  rcases mem_kinds_leafPieces hk with hk | hk | hk
  · rw [hk]
    decide
  · rw [hk]
    rfl
  · exact (isLiteralKind_spec hk).2.2

theorem statement_leaf (s : Source) (place : Place) {a : Assembly} (hsetting : a.setting = .normal)
    {l : Leaf} {x : Assignment} (hx : assignment? s (tokensAt place (leafLine l).pieces) = some x) :
    a.statement s (tokensAt place (leafLine l).pieces) = a.addFact (.assignment x) := by
  have hquiet := quiet_leaf l place
  obtain ⟨t, e, keys, value, htoks, ht, -, -⟩ := tokens_leaf l place
  rw [htoks] at hx hquiet ⊢
  have hident : t.ident? = some "default" := by rw [Token.ident?, ht]; rfl
  rw [statement_of_free hident (by decide), ordinary_plain s (balance_quiet hquiet) hsetting]
  simp [plain, splitModifier_quiet hquiet, hident, hx]

/-- What an assignment says, without its place in a file. -/
def content (x : Assignment) : Precedence × List String × Option Datum :=
  (x.precedence, x.path, x.value)

/-- The assignments that leaves written from line `line` on are read as. -/
structure Reads (line : Nat) (ls : List Leaf) (xs : List Assignment) : Prop where
  content : xs.map content = ls.map fun l => (.default, l.1, some l.2)
  after : ∀ x ∈ xs, line ≤ x.line
  sorted : xs.Pairwise fun x y => x.line ≤ y.line

theorem takeLines_leaves (s : Source) {ls : List Leaf}
    (h : ∀ l ∈ ls, l.1 ≠ [] ∧ isWritable 0 l.2 = true) (place : Place) {a : Assembly}
    (hsetting : a.setting = .normal) :
    ∃ xs, takeLines s place (ls.map leafLine) a =
      { a with facts := a.facts ++ xs.map .assignment } ∧ Reads place.line ls xs := by
  induction ls generalizing place a with
  | nil => exact ⟨[], by simp, rfl, by simp, .nil⟩
  | cons l ls ih =>
    obtain ⟨hpath, hvalue⟩ := h l (by simp)
    obtain ⟨x, hx, hline, hcontent⟩ := assignment_leaf s place l hpath hvalue
    obtain ⟨xs, hrun, hread⟩ := ih (fun m hm => h m (by simp [hm])) ((leafLine l).after place)
      (a := a.addFact (.assignment x)) hsetting
    have hlater : place.line ≤ ((leafLine l).after place).line := Place.line_le_past place _
    refine ⟨x :: xs, ?_, ?_, ?_, ?_⟩
    · rw [map_cons, takeLines_cons, statement_leaf s place hsetting hx, hrun]
      simp [addFact]
    · simp [hread.content, content, hcontent]
    · intro y hy
      rcases mem_cons.mp hy with rfl | hy
      · exact Nat.le_of_eq hline.symm
      · exact Nat.le_trans hlater (hread.after y hy)
    · refine pairwise_cons.mpr ⟨fun y hy => ?_, hread.sorted⟩
      rw [hline]
      exact Nat.le_trans hlater (hread.after y hy)

theorem loops_leaves (s : Source) (tokens : List Token) (ls : List Leaf) (place : Place) :
    loops s tokens (statementsAt place (ls.map leafLine)) = [] := by
  have hscan : ∀ place, (statementsAt place (ls.map leafLine)).foldl (LoopScan.statement s) LoopScan.start =
      LoopScan.start := by
    induction ls with
    | nil => intro place; rfl
    | cons l ls ih =>
      intro place
      have hquiet := quiet_leaf l place
      obtain ⟨t, e, keys, value, htoks, ht, -, -⟩ := tokens_leaf l place
      have hstay : LoopScan.statement s LoopScan.start (tokensAt place (leafLine l).pieces) =
          LoopScan.start := by
        rw [htoks] at hquiet ⊢
        have hend : t.isWord "end" = false := by simp [Token.isWord, ht]
        simp [LoopScan.statement, hend, balance_quiet hquiet]
      rw [map_cons, statementsAt, foldl_cons, hstay, ih]
  rw [loops, hscan]
  rfl

/-- The text of a tree: one assignment for each leaf, in pre-order. -/
def Tree.text (t : Tree) : List Char := written (t.leaves.map leafLine)

theorem tree_of_defaults {ls : List Leaf} {xs : List Assignment}
    (h : xs.map content = ls.map fun l => (.default, l.1, some l.2)) :
    tree xs = applyWrites Datum.emptyMapping (ls.map fun l => ⟨0, l.1, l.2⟩) := by
  have hwrites : xs.filterMap Write.ofAssignment? = ls.map fun l => ⟨0, l.1, l.2⟩ := by
    have hview : xs.filterMap Write.ofAssignment? =
        (xs.map content).filterMap fun c => c.2.2.map fun value => ⟨c.1.rank, c.2.1, value⟩ := by
      rw [filterMap_map]
      rfl
    rw [hview, h, filterMap_map, ← filterMap_eq_map]
    rfl
  have hranks : ∀ w ∈ ls.map fun l => (⟨0, l.1, l.2⟩ : Write), w.rank = 0 := by
    intro w hw
    obtain ⟨l, -, rfl⟩ := mem_map.mp hw
    rfl
  rw [tree, hwrites, ranked_of_rank hranks]

/-- Assignments with the contents of a tree's leaves add up to the tree. -/
theorem tree_of_content {t : Tree} {xs : List Assignment}
    (h : xs.map content = t.leaves.map fun l => (.default, l.1, some l.2)) :
    tree xs = .object t.members := by
  rw [tree_of_defaults h, ← t.plant_leaves]
  simp [applyWrites, plant, foldl_map]

/-- Reading the text of a tree gives one assignment for each leaf, and the tree back. -/
theorem attributes_of_text (t : Tree) (file : Path) (limit : Nat) (path : Path) (cookbook : String)
    (role : Survey.Role) :
    ∃ p, parse? ⟨t.text, file, limit⟩ = some p ∧
      (Survey.ofEntries [⟨path, cookbook, role, p⟩]).attributes = .object t.members ∧
      p.assignments.map content = t.leaves.map fun l => (.default, l.1, some l.2) := by
  let s : Source := ⟨t.text, file, limit⟩
  let tokens := tokensAt Place.start (page (t.leaves.map leafLine))
  have hparse : parse? s = some (parseTokens s tokens) :=
    parse_written (t.leaves.map leafLine) file limit
  have htree : areTrees t.members = true := by
    have h := t.isTree
    simp only [Attribute.isTree, Bool.and_eq_true] at h
    exact h.2
  have hleaves : ∀ l ∈ t.leaves, l.1 ≠ [] ∧ isWritable 0 l.2 = true :=
    fun l hl => ⟨path_ne_nil hl, writable_leavesOf t.members htree l hl⟩
  obtain ⟨xs, hrun, hread⟩ := takeLines_leaves s hleaves Place.start (a := Assembly.start) rfl
  have hfacts : (parseTokens s tokens).facts = xs.map .assignment := by
    have hsorted : (xs.map Fact.assignment).Pairwise fun x y => decide (x.line ≤ y.line) = true := by
      rw [pairwise_map]
      exact hread.sorted.imp fun hxy => decide_eq_true hxy
    rw [takeLines] at hrun
    simp only [parseTokens, tokens, statements_page, hrun, loops_leaves]
    have hsame : (xs.map Fact.assignment).mergeSort (fun x y => decide (x.line ≤ y.line)) =
        xs.map .assignment :=
      mergeSort_of_pairwise hsorted
    simpa [finish, closeAll, Assembly.start] using hsame
  have hassignments : (parseTokens s tokens).assignments = xs := by
    rw [Parsed.assignments, hfacts, filterMap_map]
    exact filterMap_some
  refine ⟨_, hparse, ?_, by rw [hassignments, hread.content]⟩
  simp only [Survey.ofEntries, flatMap_cons, flatMap_nil, append_nil, hassignments]
  exact tree_of_content hread.content

example : String.ofList (Tree.text
    ⟨[("a", .object [("b", .number (.int (-1)))]), ("c", .array [.object [("d", .null)]])],
    by decide⟩) = "default['a']['b'] = -1\ndefault['c'] = [\x7b'd' => nil\x7d]\n" := by
  decide +kernel

end CookbookAtlas.Attribute
