import CookbookAtlas.Proofs.Attribute.Reading
import CookbookAtlas.Proofs.Attribute.RoundTrip
import CookbookAtlas.Proofs.Recipe.Placement
import Mathlib.Logic.Function.Basic

/-! Attribute files of plain directives, which store a literal at a path of keys. A directive with
`||=` is meant to store only where nothing is held yet. Both operators are read as assignments, so
the attribute tree holds the value of the last directive for each path. -/
namespace CookbookAtlas

open List

namespace Literal
namespace State
variable {s t : State} {word : String}

theorem word_of_valueStep (h : s.valueStep (.ident word) = some t) :
    word = "true" ∨ word = "false" ∨ word = "nil" := by
  unfold valueStep at h
  split at h
  · cases h
  · by_contra hnone
    simp only [not_or] at hnone
    simp [hnone] at h

theorem word_of_step (h : s.step (.ident word) = some t) :
    word = "true" ∨ word = "false" ∨ word = "nil" := by
  unfold step at h
  split at h
  · cases h
  · split at h
    · exact word_of_valueStep (by simpa using h)
    · simp at h
    · simp [keyStep] at h
    · simp at h
    · exact word_of_valueStep h
    · simp at h
    · split at h
      · exact word_of_valueStep h
      · cases h

theorem words_of_run {kinds : List Token.Kind} (h : s.run kinds = some t) :
    ∀ word, .ident word ∈ kinds → word = "true" ∨ word = "false" ∨ word = "nil" := by
  induction kinds generalizing s with
  | nil => simp
  | cons kind kinds ih =>
    intro word hmem
    rw [run_cons] at h
    obtain ⟨next, hstep, hrun⟩ := Option.bind_eq_some_iff.1 h
    rcases mem_cons.1 hmem with rfl | hmem
    · exact word_of_step hstep
    · exact ih hrun word hmem

end State

theorem words_of_evaluate? {toks : List Token} {v : Datum} {word : String}
    (h : evaluate? toks = some v) {t : Token} (ht : t ∈ toks) (hword : t.kind = .ident word) :
    word = "true" ∨ word = "false" ∨ word = "nil" := by
  unfold evaluate? evaluateKinds? at h
  split at h
  · rename_i result hrun
    have hmem : Token.Kind.ident word ∈ (toks.map Token.kind).filter (· != .newline) :=
      mem_filter.2 ⟨hword ▸ mem_map_of_mem ht, by simp⟩
    exact State.words_of_run hrun word hmem
  · cases h

end Literal

namespace Attribute

open Recipe Assembly

inductive Operator
  | store
  /-- Stores only where nothing is held. -/
  | storeIfNone
deriving DecidableEq

def Operator.kind : Operator → Token.Kind
  | .store => .assign
  | .storeIfNone => .opAssign "||="

theorem Operator.kind_spec (op : Operator) : op.kind.isAssignment = true ∧ isQuiet op.kind = true ∧
    op.kind ≠ .leftBracket ∧ op.kind ≠ .dot := by
  cases op <;> decide

/-- A value to be stored at a path of keys. -/
structure Directive where
  path : List String
  operator : Operator
  value : Datum

variable {ds : List Directive} {list : List Statement} {path : List String}

namespace Directive

def obey (held : List String → Option Datum) (d : Directive) : List String → Option Datum :=
  match d.operator with
  | .store => Function.update held d.path (some d.value)
  | .storeIfNone =>
    if (held d.path).isSome then held else Function.update held d.path (some d.value)

/-- What every path holds when directives are obeyed in their order. -/
def obeyAll (ds : List Directive) : List String → Option Datum := ds.foldl obey fun _ => none

theorem obey_other {held : List String → Option Datum} {d : Directive} (h : d.path ≠ path) :
    obey held d path = held path := by
  have hupdate : Function.update held d.path (some d.value) path = held path :=
    Function.update_of_ne (Ne.symm h) _ _
  unfold obey
  cases d.operator with
  | store => exact hupdate
  | storeIfNone =>
    by_cases hheld : (held d.path).isSome
    · simp [hheld]
    · simpa [hheld] using hupdate

theorem foldl_obey_other (h : ∀ d ∈ ds, d.path ≠ path) (held : List String → Option Datum) :
    ds.foldl obey held path = held path := by
  induction ds generalizing held with
  | nil => rfl
  | cons d ds ih =>
    rw [foldl_cons, ih (fun e he => h e (mem_cons_of_mem _ he)), obey_other (h d mem_cons_self)]

/-- The last directive for a path decides what is held there, if it stores in any case or is the
first one, too. -/
theorem obeyAll_last {before after : List Directive} {d : Directive}
    (hafter : ∀ e ∈ after, e.path ≠ d.path)
    (hstores : d.operator = .store ∨ ∀ e ∈ before, e.path ≠ d.path) :
    obeyAll (before ++ d :: after) d.path = some d.value := by
  rw [obeyAll, foldl_append, foldl_cons, foldl_obey_other hafter]
  unfold obey
  cases hoperator : d.operator with
  | store => simp
  | storeIfNone =>
    have hfirst : ∀ e ∈ before, e.path ≠ d.path := hstores.resolve_left (by simp [hoperator])
    have hnone : before.foldl obey (fun _ => none) d.path = none := foldl_obey_other hfirst _
    unfold obey at hnone
    simp [hnone]

end Directive

/-- Keys between brackets, each of them a string or a symbol. -/
inductive Keys : List String → List Token → Prop
  | nil : Keys [] []
  | cons {key : String} {path : List String} {opening inner closing : Token} {rest : List Token} :
      opening.kind = .leftBracket → inner.kind = .string key false ∨ inner.kind = .symbol key →
      closing.kind = .rightBracket → Keys path rest →
        Keys (key :: path) (opening :: inner :: closing :: rest)

theorem Keys.quiet {toks : List Token} (h : Keys path toks) :
    ∀ t ∈ toks, isQuiet t.kind = true := by
  induction h with
  | nil => simp
  | cons hopening hinner hclosing _ ih =>
    intro t ht
    simp only [mem_cons] at ht
    rcases ht with rfl | rfl | rfl | ht
    · rw [hopening]; rfl
    · rcases hinner with hinner | hinner <;> rw [hinner] <;> rfl
    · rw [hclosing]; rfl
    · exact ih t ht

/-- The tokens of a statement write a directive at the default level. -/
structure Directive.Written (d : Directive) (toks : Statement) : Prop where
  path_ne : d.path ≠ []
  form : ∃ level keys mark value, toks = level :: (keys ++ mark :: value) ∧
    level.kind = .ident "default" ∧
    Keys d.path keys ∧ mark.kind = d.operator.kind ∧ Literal.evaluate? value = some d.value

theorem Keys.assignmentPath (s : Source) {keys : List Token} (h : Keys path keys)
    (done : List String) {mark : Token}
    {op : Operator} (hmark : mark.kind = op.kind) (rest : List Token) :
    assignmentPath s done none (keys ++ mark :: rest) = some (done.reverse ++ path, rest) := by
  induction h generalizing done with
  | nil =>
    obtain ⟨hassign, -, hbracket, hdot⟩ := op.kind_spec
    rw [nil_append, Recipe.assignmentPath.eq_def]
    simp [hmark, hassign, hbracket, hdot]
  | @cons key path opening inner closing keys hopening hinner hclosing _ ih =>
    have htext : keyText s [inner] = key := by
      obtain ⟨kind, line, start, stop⟩ := inner
      rcases hinner with rfl | rfl <;> rfl
    have hplain : inner.kind ≠ .leftBracket ∧ inner.kind ≠ .rightBracket := by
      rcases hinner with hinner | hinner <;> simp [hinner]
    have hone : ∀ more, Recipe.assignmentPath s done none (opening :: inner :: closing :: more) =
        Recipe.assignmentPath s (key :: done) none more := by
      intro more
      rw [Recipe.assignmentPath.eq_def]
      simp only [hopening, if_true]
      rw [Recipe.assignmentPath.eq_def]
      simp only [hplain, if_false]
      rw [Recipe.assignmentPath.eq_def]
      simp only [hclosing, reduceCtorEq, if_false, if_true, reverse_cons, reverse_nil, nil_append, htext]
    rw [cons_append, cons_append, cons_append, hone, ih (key :: done)]
    simp

namespace Directive

variable {d : Directive} {toks : Statement}

theorem Written.quiet (h : d.Written toks) : ∀ t ∈ toks, isQuiet t.kind = true := by
  obtain ⟨level, keys, mark, value, rfl, hlevel, hkeys, hmark, hvalue⟩ := h.form
  intro t ht
  simp only [mem_cons, mem_append] at ht
  rcases ht with rfl | ht | rfl | ht
  · rw [hlevel]
    decide
  · exact hkeys.quiet t ht
  · rw [hmark]
    exact d.operator.kind_spec.2.1
  · cases hk : t.kind with
    | ident word =>
      rcases Literal.words_of_evaluate? hvalue ht hk with rfl | rfl | rfl <;> decide
    | _ => rfl

/-- The statement of a directive is an assignment of its value at its path, whatever
the operator. -/
theorem Written.assignment (s : Source) (h : d.Written toks) :
    ∃ x, assignment? s toks = some x ∧ x.line = (toks.head?.map Token.line).getD 0 ∧
      content x = (.default, d.path, some d.value) := by
  obtain ⟨level, keys, mark, value, rfl, hlevel, hkeys, hmark, hvalue⟩ := h.form
  have hident : level.ident? = some "default" := by rw [Token.ident?, hlevel]; rfl
  have hnode : level.isWord "node" = false := by simp [Token.isWord, hlevel]
  have hafter : ∀ rest, afterNode (level :: rest) = level :: rest := by
    intro rest
    cases rest <;> simp [afterNode, hnode]
  have hdefault : Precedence.ofWord? "default" = some .default := by decide
  have hpath := hkeys.assignmentPath s [] hmark value
  simp only [assignment?, hafter, hident, Option.bind_some, hdefault, hpath, reverse_nil,
    nil_append, hvalue, List.isEmpty_iff, if_neg h.path_ne]
  exact ⟨_, rfl, rfl, rfl⟩

theorem Written.statement (s : Source) (h : d.Written toks) {a : Assembly}
    (hsetting : a.setting = .normal) {x : Assignment} (hx : assignment? s toks = some x) :
    a.statement s toks = a.addFact (.assignment x) := by
  have hquiet := h.quiet
  obtain ⟨level, keys, mark, value, rfl, hlevel, -, -, -⟩ := h.form
  have hident : level.ident? = some "default" := by rw [Token.ident?, hlevel]; rfl
  rw [statement_of_free hident (by decide), ordinary_plain s (balance_quiet hquiet) hsetting]
  simp [plain, splitModifier_quiet hquiet, hident, hx]

theorem Written.loopScan (s : Source) (h : d.Written toks) (scan : LoopScan) :
    scan.statement s toks = scan := by
  have hquiet := h.quiet
  obtain ⟨level, keys, mark, value, rfl, hlevel, -, -, -⟩ := h.form
  have hend : level.isWord "end" = false := by simp [Token.isWord, hlevel]
  simp [LoopScan.statement, hend, balance_quiet hquiet]

/-- The assignments that directives are read as, with lines of the statements they are
written in. -/
structure ReadAs (ds : List Directive) (list : List Statement) (xs : List Assignment) : Prop where
  content : xs.map content = ds.map fun d => (.default, d.path, some d.value)
  lines : (xs.map Assignment.line).Sublist (list.flatten.map Token.line)

theorem run_written (s : Source) (h : List.Forall₂ Written ds list) {a : Assembly}
    (hsetting : a.setting = .normal) :
    ∃ xs, a.run s list = { a with facts := a.facts ++ xs.map .assignment } ∧ ReadAs ds list xs := by
  induction h generalizing a with
  | nil => exact ⟨[], by simp [Assembly.run], rfl, by simp⟩
  | @cons d toks ds list hd _ ih =>
    obtain ⟨x, hx, hline, hcontent⟩ := hd.assignment s
    obtain ⟨xs, hrun, hread⟩ := ih (a := a.addFact (.assignment x)) hsetting
    have hhead : [x.line].Sublist (toks.map Token.line) := by
      obtain ⟨level, keys, mark, value, rfl, -⟩ := hd.form
      simp [hline]
    refine ⟨x :: xs, ?_, ?_, ?_⟩
    · rw [Assembly.run, foldl_cons, hd.statement s hsetting hx, ← Assembly.run, hrun]
      simp [addFact]
    · simp [hcontent, hread.content]
    · rw [map_cons, flatten_cons, map_append]
      exact hhead.append hread.lines

theorem loops_written (s : Source) (tokens : List Token) (h : List.Forall₂ Written ds list) :
    loops s tokens list = [] := by
  have hscan : list.foldl (LoopScan.statement s) LoopScan.start = LoopScan.start := by
    induction h with
    | nil => rfl
    | cons hd _ ih => rw [foldl_cons, hd.loopScan, ih]
  rw [loops, hscan]
  rfl

/-- A file of directives has one assignment for each of them, in their order. -/
theorem assignments_written {s : Source} {tokens : List Token}
    (hscan : Token.scan? s.chars = some tokens) (h : List.Forall₂ Written ds (statements tokens)) :
    (parseTokens s tokens).assignments.map content =
      ds.map fun d => (.default, d.path, some d.value) := by
  obtain ⟨xs, hrun, hread⟩ := run_written s h (a := Assembly.start) rfl
  have hlines : (xs.map Assignment.line).Pairwise (· ≤ ·) :=
    ((Token.pairwise_line_of_scan? hscan).sublist ((flatten_statements tokens).map _)).sublist hread.lines
  have hsorted : (xs.map Fact.assignment).Pairwise fun x y => decide (x.line ≤ y.line) = true := by
    rw [pairwise_map] at hlines ⊢
    exact hlines.imp fun hxy => decide_eq_true hxy
  have hfacts : (parseTokens s tokens).facts = xs.map .assignment := by
    have hsame : (xs.map Fact.assignment).mergeSort (fun x y => decide (x.line ≤ y.line)) =
        xs.map .assignment :=
      mergeSort_of_pairwise hsorted
    simp only [parseTokens, hrun, loops_written s tokens h]
    simpa [finish, closeAll, Assembly.start] using hsame
  have hassignments : (parseTokens s tokens).assignments = xs := by
    rw [Parsed.assignments, hfacts, filterMap_map]
    exact filterMap_some
  rw [hassignments, hread.content]

theorem attributes_written {s : Source} {tokens : List Token}
    (hscan : Token.scan? s.chars = some tokens)
    (h : List.Forall₂ Written ds (statements tokens)) (path : Path) (cookbook : String)
    (role : Survey.Role) :
    (Survey.ofEntries [⟨path, cookbook, role, parseTokens s tokens⟩]).attributes =
      applyWrites Datum.emptyMapping (ds.map fun d => ⟨0, d.path, d.value⟩) := by
  have hleaves : (parseTokens s tokens).assignments.map content =
      (ds.map fun d => (d.path, d.value)).map fun l => (.default, l.1, some l.2) := by
    rw [assignments_written hscan h, map_map]
    rfl
  simp only [Survey.ofEntries, flatMap_cons, flatMap_nil, append_nil]
  rw [tree_of_defaults hleaves, map_map]
  rfl

theorem path_ne_of_written (h : List.Forall₂ Written ds list) : ∀ d ∈ ds, d.path ≠ [] := by
  induction h with
  | nil => simp
  | cons hd _ ih =>
    intro e he
    rcases mem_cons.1 he with rfl | he
    · exact hd.path_ne
    · exact ih e he

def Independent (ds : List Directive) : Prop :=
  ds.Pairwise fun d e => d.path = e.path ∨ Apart d.path e.path

instance (ds : List Directive) : Decidable (Independent ds) :=
  inferInstanceAs (Decidable (ds.Pairwise fun d e => d.path = e.path ∨ Apart d.path e.path))

theorem Independent.apart_last {before after : List Directive} {d : Directive}
    (h : Independent (before ++ d :: after)) (hlast : ∀ e ∈ after, e.path ≠ d.path) :
    ∀ e ∈ after, Apart e.path d.path := by
  intro e he
  have htail := (pairwise_append.1 h).2.1
  rcases (pairwise_cons.1 htail).1 e he with hsame | hapart
  · exact absurd hsame.symm (hlast e he)
  · exact hapart.symm

/-- The tree of a file of directives holds at each path the value of the last directive for it,
whether or not that one is to store only where nothing is held. So it holds what obeying the
directives leaves wherever the last directive for a path stores in any case, or is the only one. -/
theorem tree_holds_last_directive {s : Source} {tokens : List Token}
    (hscan : Token.scan? s.chars = some tokens)
    {ds : List Directive} (hwritten : List.Forall₂ Written ds (statements tokens))
    (hvalues : ∀ d ∈ ds, d.value.isMapping = false) (hpaths : Independent ds) (path : Path)
    (cookbook : String) (role : Survey.Role) :
    ∃ p, parse? s = some p ∧ ∀ before d after, ds = before ++ d :: after →
    (∀ e ∈ after, e.path ≠ d.path) →
      (Survey.ofEntries [⟨path, cookbook, role, p⟩]).attributes.at? d.path = some d.value ∧
      ((d.operator = .store ∨ ∀ e ∈ before, e.path ≠ d.path) → obeyAll ds d.path = some d.value) := by
  have htree := attributes_written hscan hwritten path cookbook role
  refine ⟨parseTokens s tokens, by rw [parse?, hscan]; rfl, ?_⟩
  rintro before d after rfl hlast
  have hd : d ∈ before ++ d :: after := by simp
  have hpath : d.path ≠ [] := path_ne_of_written hwritten d hd
  refine ⟨?_, obeyAll_last hlast⟩
  have hapart : ∀ u ∈ after.map fun e => (⟨0, e.path, e.value⟩ : Write), Apart u.path d.path := by
    intro u hu
    obtain ⟨e, he, rfl⟩ := mem_map.1 hu
    exact hpaths.apart_last hlast e he
  have hheld := at?_applyWrites_last Datum.emptyMapping (before.map fun e => ⟨0, e.path, e.value⟩)
    (w := ⟨0, d.path, d.value⟩) hpath (hvalues d hd) hapart
  rw [htree, map_append, map_cons]
  exact hheld

/-- A port that is stored twice, the second time only if there is none, and a user. -/
def portAndUser : List Directive :=
  [⟨["port"], .store, .number (.int 80)⟩, ⟨["port"], .storeIfNone, .number (.int 8080)⟩,
    ⟨["user"], .storeIfNone, .string "web"⟩]

def portAndUserText : List Char :=
  "default['port'] = 80\ndefault['port'] ||= 8080\ndefault['user'] ||= 'web'\n".toList

def portAndUserStatements : List Statement :=
  [[⟨.ident "default", 1, 0, 7⟩, ⟨.leftBracket, 1, 7, 8⟩, ⟨.string "port" false, 1, 8, 14⟩,
    ⟨.rightBracket, 1, 14, 15⟩,
      ⟨.assign, 1, 16, 17⟩, ⟨.number "80", 1, 18, 20⟩],
    [⟨.ident "default", 2, 21, 28⟩, ⟨.leftBracket, 2, 28, 29⟩, ⟨.string "port" false, 2, 29, 35⟩,
      ⟨.rightBracket, 2, 35, 36⟩, ⟨.opAssign "||=", 2, 37, 40⟩, ⟨.number "8080", 2, 41, 45⟩],
    [⟨.ident "default", 3, 46, 53⟩, ⟨.leftBracket, 3, 53, 54⟩, ⟨.string "user" false, 3, 54, 60⟩,
      ⟨.rightBracket, 3, 60, 61⟩, ⟨.opAssign "||=", 3, 62, 65⟩, ⟨.string "web" false, 3, 66, 71⟩]]

theorem statements_portAndUser :
    ∃ tokens, Token.scan? portAndUserText = some tokens ∧
    statements tokens = portAndUserStatements := by
  have h : (Token.scan? portAndUserText).map statements = some portAndUserStatements := by
    decide +kernel
  exact Option.map_eq_some_iff.1 h

theorem written_portAndUser : List.Forall₂ Written portAndUser portAndUserStatements :=
  .cons ⟨by decide, _, _, _, _, rfl, rfl, .cons rfl (.inl rfl) rfl .nil, rfl, by rfl⟩
    (.cons ⟨by decide, _, _, _, _, rfl, rfl, .cons rfl (.inl rfl) rfl .nil, rfl, by rfl⟩
      (.cons ⟨by decide, _, _, _, _, rfl, rfl, .cons rfl (.inl rfl) rfl .nil, rfl, by rfl⟩ .nil))

theorem portAndUser_held : ∃ p, parse? ⟨portAndUserText, ⟨"default.rb"⟩, 80⟩ = some p ∧
    (∀ d ∈ portAndUser, d.value.isMapping = false) ∧ Independent portAndUser ∧
    (Survey.ofEntries [⟨⟨"default.rb"⟩, "web", .attributes, p⟩]).attributes.at? ["port"] =
      some (.number (.int 8080)) ∧
    (Survey.ofEntries [⟨⟨"default.rb"⟩, "web", .attributes, p⟩]).attributes.at? ["user"] =
      some (.string "web") ∧
    obeyAll portAndUser ["user"] = some (.string "web") := by
  have hvalues : ∀ d ∈ portAndUser, d.value.isMapping = false := by decide
  have hpaths : Independent portAndUser := by decide
  obtain ⟨tokens, hscan, hstatements⟩ := statements_portAndUser
  have hwritten : List.Forall₂ Written portAndUser (statements tokens) :=
    hstatements ▸ written_portAndUser
  obtain ⟨p, hparse, hheld⟩ := tree_holds_last_directive (s :=
    ⟨portAndUserText, ⟨"default.rb"⟩, 80⟩) hscan hwritten
    hvalues hpaths ⟨"default.rb"⟩ "web" .attributes
  obtain ⟨hport, -⟩ := hheld [⟨["port"], .store, .number (.int 80)⟩] ⟨["port"], .storeIfNone,
    .number (.int 8080)⟩
    [⟨["user"], .storeIfNone, .string "web"⟩] rfl (by decide)
  obtain ⟨huser, hobeyed⟩ := hheld
    [⟨["port"], .store, .number (.int 80)⟩, ⟨["port"], .storeIfNone, .number (.int 8080)⟩]
    ⟨["user"], .storeIfNone, .string "web"⟩ [] rfl (by decide)
  exact ⟨p, hparse, hvalues, hpaths, hport, huser, hobeyed (.inr (by decide))⟩

/-- A port that is held already is replaced by a directive that is not to replace it. -/
theorem held_port_replaced : ∃ tokens p,
    Token.scan? portAndUserText = some tokens ∧
    List.Forall₂ Written portAndUser (statements tokens) ∧
    (∀ d ∈ portAndUser, d.value.isMapping = false ∧ d.value ≠ .null ∧ d.value ≠ .bool false) ∧
    Independent portAndUser ∧ parse? ⟨portAndUserText, ⟨"default.rb"⟩, 80⟩ = some p ∧
    obeyAll portAndUser ["port"] = some (.number (.int 80)) ∧
    (Survey.ofEntries [⟨⟨"default.rb"⟩, "web", .attributes, p⟩]).attributes.at? ["port"] =
      some (.number (.int 8080)) := by
  obtain ⟨tokens, hscan, hstatements⟩ := statements_portAndUser
  have hwritten : List.Forall₂ Written portAndUser (statements tokens) :=
    hstatements ▸ written_portAndUser
  have hvalues : ∀ d ∈ portAndUser, d.value.isMapping = false ∧ d.value ≠ .null ∧
      d.value ≠ .bool false := by
    simp [portAndUser, Datum.isMapping]
  refine ⟨tokens, _, hscan, hwritten, hvalues, by decide, by rw [parse?, hscan]; rfl, rfl, ?_⟩
  rw [attributes_written hscan hwritten]
  rfl

end Directive
end Attribute
end CookbookAtlas
