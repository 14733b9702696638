import CookbookAtlas.Proofs.Recipe.Script

/-! Reading back the canonical text of a script. Each line of the text does one known thing to the
stack of open blocks; along a script the items come out in the order and nesting of its tree. -/
namespace CookbookAtlas.Recipe

open Token List Text Option

variable {a b : Assembly} {kind : BlockKind} {arm : Bool} {xs : List Sketch} {place : Place} {s :
  Source} {value : String}
  {t u : Token} {w : Script.Word}

namespace Assembly

/-- `b` is `a` with items of the given sketch added to its innermost block. -/
def Grows (a : Assembly) (sketch : List Sketch) (b : Assembly) : Prop :=
  ∃ items facts, b = { a.addItems items with facts := facts } ∧ sketchItems items = sketch

namespace Grows

theorem refl (a : Assembly) : a.Grows [] a := ⟨[], a.facts, by simp, rfl⟩

theorem trans {c : Assembly} {ys : List Sketch} (hab : a.Grows xs b) (hbc : b.Grows ys c) :
    a.Grows (xs ++ ys) c := by
  obtain ⟨items, facts, rfl, rfl⟩ := hab
  obtain ⟨more, later, rfl, rfl⟩ := hbc
  exact ⟨items ++ more, later, by simp, by simp⟩

theorem setting (h : a.Grows xs b) : b.setting = a.setting := by
  obtain ⟨items, facts, rfl, -⟩ := h
  exact setting_addItems a items

theorem addFact_addItems (a : Assembly) (fact : Fact) (item : Item) :
    a.Grows [item.sketch] ((a.addFact fact).addItems [item]) := by
  refine ⟨[item], a.facts ++ [fact], ?_, rfl⟩
  simp [addFact]

end Grows

section
variable {s : Source} {t : Token} {w : String} {rest head : List Token} {names : List String}

theorem opener_call (hw : t.ident? = some w) (hfree : isKeyword w = false)
    (hassignment : assignment? s (t :: rest) = none)
    (hblock : blockDo? (t :: rest) = some (head, names)) :
    opener s (t :: rest) = match resourceCall? s head true, eachCall? head with
      | some call, _ => (.resource call t.start, none)
      | none, some each =>
        (.conditional ⟨.eachLoop, s.text each.receiver ++ "." ++ each.method, t.line, names⟩ false, none)
      | none, none => (.transparent, none) := by
  have hne := ne_keyword hfree
  cases hcall : resourceCall? s head true <;> cases heach : eachCall? head <;>
    simp [opener, hw, hne "if" (by decide), hne "unless" (by decide), hne "while" (by decide),
      hne "until" (by decide), hne "for" (by decide), hne "case" (by decide),
      hne "begin" (by decide),
      hne "def" (by decide), hne "class" (by decide), hne "module" (by decide), hassignment, hblock,
      hcall, heach]

end

end Assembly

theorem balance_opener {w : String} {rest : List Token} (hw : t.ident? = some w)
    (hopen : w ∈ openers)
    (hrest : ∀ u ∈ rest, isQuiet u.kind = true) : balance (t :: rest) = 1 := by
  have hne : w ≠ "end" ∧ w ≠ "do" := by
    constructor <;>
    · rintro rfl
      revert hopen
      decide
  simp [balance, balanceFrom, isMember, hw, hne, opensHere, hopen, balanceFrom_all_quiet hrest]

namespace Script

open Assembly

theorem isQuiet_of_free {w : String} (h : isKeyword w = false) : isQuiet (.ident w) = true := by
  have hsub : ∀ u ∈ blockWords, isKeyword u = true := by decide
  have hw : w ∉ blockWords := by
    intro hmem
    simp [hsub w hmem] at h
  simpa [isQuiet, Kind.ident?] using hw

theorem Word.ne_of_isKeyword (w : Word) {k : String} (hk : isKeyword k = true) : w.text ≠ k := by
  intro heq
  have hfree := w.free
  rw [heq, hk] at hfree
  cases hfree

/-- The heading of a block whose first line is a clause at `place`. -/
def opened (kind : BlockKind) (h : Heading) : Shape :=
  if kind = .caseBlock then .caseOf h else .conditional h false

def headingAt (place : Place) (kind : BlockKind) (condition : String) : Heading :=
  ⟨kind, condition, place.line, []⟩

theorem ne_nil_of_isName {w : List Char} (h : isName w = true) : w ≠ [] := by
  rintro rfl
  simp [isName] at h

theorem not_isBlank_of_isName {w : List Char} (h : isName w = true) : ∀ c ∈ w, isBlank c = false :=
  fun _ hc => not_isBlank_of_isWordChar (isWordChar_of_mem h hc)

theorem text_name {w : String} (hw : isName w.toList = true)
    (h : s.Has place (spell [Piece.name w])) : s.text (tokensAt place [Piece.name w]) = w := by
  rw [h.text ⟨_, _, rfl, rfl⟩ ⟨[], _, rfl, rfl⟩]
  simp [Piece.name, trim_word (not_isBlank_of_isName hw)]

theorem line_clause (h : s.Has place (spell (clause kind w).pieces)) :
    s.line (tokensAt place (clause kind w).pieces) = kind.word ++ " " ++ w.text := by
  have hkind := isName_blockWord kind
  have hspell : spell (clause kind w).pieces = kind.word.toList ++ ' ' :: w.text.toList := by
    simp [clause, Piece.name, Piece.space]
  have hcollapse := collapse_two (ne_nil_of_isName hkind) (ne_nil_of_isName w.isName)
    (not_isBlank_of_isName hkind) (not_isBlank_of_isName w.isName)
  have htrim := trim_between (ne_nil_of_isName hkind) (ne_nil_of_isName w.isName)
    (not_isBlank_of_isName hkind) (not_isBlank_of_isName w.isName) [' ']
  rw [append_assoc, singleton_append] at htrim
  rw [Source.line, h.text ⟨_, _, rfl, rfl⟩ ⟨[.name kind.word, .space], _, rfl, rfl⟩, hspell, htrim,
    collapsed, String.toList_ofList, hcollapse]
  apply String.toList_inj.mp
  simp

theorem heading_clause (h : s.Has place (spell (clause kind w).pieces)) :
    heading s kind (tokensAt place (clause kind w).pieces) =
      headingAt place kind (kind.word ++ " " ++ w.text) := by
  obtain ⟨t, u, htoks, hline, hu⟩ : ∃ t u, tokensAt place (clause kind w).pieces = [t, u] ∧
      t.line = place.line ∧ u.kind = .ident w.text := ⟨_, _, rfl, rfl, rfl⟩
  have hdrop : dropTail [t, u] = [t, u] := by
    simp [dropTail, isWord, hu, w.ne_of_isKeyword (k := "then") (by decide),
      w.ne_of_isKeyword (k := "do") (by decide)]
  have htext := line_clause h
  rw [htoks] at htext ⊢
  simp [heading, headingAt, hdrop, htext, hline]

section
variable {s : Source} {place : Place} {a : Assembly}

theorem statement_opens (hkind : kind ∈ [.ifBlock, .unlessBlock, .whileLoop, .caseBlock])
    (hsetting : a.setting = .normal) (h : s.Has place (spell (clause kind w).pieces)) :
    a.statement s (tokensAt place (clause kind w).pieces) =
      a.push (opened kind (headingAt place kind (kind.word ++ " " ++ w.text))) := by
  have hheading := heading_clause h
  obtain ⟨t, u, htoks, ht, hu⟩ : ∃ t u, tokensAt place (clause kind w).pieces = [t, u] ∧
      t.ident? = some kind.word ∧ u.kind = .ident w.text := ⟨_, _, rfl, rfl, rfl⟩
  have hquiet : ∀ v ∈ [u], isQuiet v.kind = true := by simp [hu, isQuiet_of_free w.free]
  rw [htoks] at hheading ⊢
  simp only [mem_cons, not_mem_nil, or_false] at hkind
  have hopener : opener s [t, u] = (opened kind (heading s kind [t, u]), none) := by
    rcases hkind with rfl | rfl | rfl | rfl <;> simp [opener, opened, ht, BlockKind.word]
  have hstatement : a.statement s [t, u] = a.ordinary s [t, u] := by
    rcases hkind with rfl | rfl | rfl | rfl <;> simp [statement, ht, BlockKind.word, isClause]
  have hword : kind.word ∈ openers := by rcases hkind with rfl | rfl | rfl | rfl <;> decide
  rw [hstatement, ordinary_opens s (balance_opener ht hword hquiet) hsetting hopener, hheading]

/-- A clause with a condition closes the block before it, unless it is the first arm, and opens its
own. -/
theorem statement_clause (hsetting : a.setting = .normal)
    (hchain : clauseKind? kind.word a.chain = some (kind, arm))
    (hkind : kind ∈ [.elsifBlock, .whenArm]) (h : s.Has place (spell (clause kind w).pieces)) :
    a.statement s (tokensAt place (clause kind w).pieces) =
      (if a.chain = .caseOf then a else a.pop s place.offset none).push
        (.conditional (headingAt place kind (kind.word ++ " " ++ w.text)) arm) := by
  have hheading := heading_clause h
  obtain ⟨t, u, htoks, ht, hstart, hu⟩ : ∃ t u, tokensAt place (clause kind w).pieces = [t, u] ∧
      t.kind = .ident kind.word ∧ t.start = place.offset ∧ u.kind = .ident w.text :=
      ⟨_, _, rfl, rfl, rfl, rfl⟩
  have hident : t.ident? = some kind.word := by rw [Token.ident?, ht]; rfl
  have hthen := w.ne_of_isKeyword (k := "then") (by decide)
  rw [htoks] at hheading ⊢
  simp only [mem_cons, not_mem_nil, or_false] at hkind
  have hword : kind.word ≠ "end" ∧ kind.word ≠ "else" ∧ kind.word ≠ "then" ∧
      isClause kind.word = true := by
    rcases hkind with rfl | rfl <;> decide
  have hsplit : splitClause kind.word [t, u] = ([t, u], []) := by
    simp [splitClause, hword, isWord, ht, hu, hthen]
  rw [statement]
  simp only [hident, getD_some, hword, if_false, if_true, hsetting, clause?, hchain, hsplit, map_some]
  rw [statement, hheading]
  simp [hstart]

theorem statement_else (hsetting : a.setting = .normal)
    (hchain : clauseKind? "else" a.chain = some (.elseBlock, arm))
    (h : s.Has place (spell elseLine.pieces)) :
    a.statement s (tokensAt place elseLine.pieces) =
      (if a.chain = .caseOf then a else a.pop s place.offset none).push
        (.conditional (headingAt place .elseBlock "else") arm) := by
  have htext : s.line (tokensAt place elseLine.pieces) = "else" := by
    rw [Source.line, show elseLine.pieces = [.name "else"] from rfl, text_name (by decide +kernel) h]
    decide +kernel
  obtain ⟨t, htoks, hident, hstart, hline⟩ : ∃ t, tokensAt place elseLine.pieces = [t] ∧
      t.ident? = some "else" ∧ t.start = place.offset ∧ t.line = place.line :=
      ⟨_, rfl, rfl, rfl, rfl⟩
  rw [htoks] at htext ⊢
  have hheading : heading s .elseBlock [t] = headingAt place .elseBlock "else" := by
    simp [heading, headingAt, dropTail, htext, hline]
  have hsplit : splitClause "else" [t] = ([t], []) := by simp [splitClause]
  rw [statement]
  simp only [hident, getD_some, hsetting, clause?, hchain, hsplit, map_some]
  rw [if_neg (by decide), if_pos (by decide), if_pos trivial, statement, hheading]
  simp [hstart]

/-- The line of an `end` closes the innermost block, wherever it stands. -/
theorem grows_end (h : ∀ stop, a.Grows xs (b.close s stop none)) :
    a.Grows xs (takeLines s place [endLine] b) := by
  obtain ⟨t, htoks, hident⟩ : ∃ t, tokensAt place endLine.pieces = [t] ∧ t.ident? = some "end" :=
    ⟨_, rfl, rfl⟩
  have hend : b.statement s [t] = b.close s t.stop none := by simp [statement, hident, endGuard?]
  rw [takeLines_cons, htoks, hend]
  exact h t.stop

/-- The value of a call line is a string token that stands for itself. -/
theorem tokens_call (w : String) (hw : isName w.toList = true) (value : String) (place : Place) :
    ∃ t u, tokensAt place (call w hw value).pieces = [t, u] ∧ t.kind = .ident w ∧
      u.kind = .string value false := ⟨_, _, rfl, rfl, rfl⟩

theorem argument_string (h : u.kind = .string value false) : argument s [u] = (value, false) := by
  obtain ⟨kind, line, start, stop⟩ := u
  cases h
  rfl

theorem quiet_call {w : String} (ht : t.kind = .ident w) (hw : isKeyword w = false)
    (hu : u.kind = .string value false) : ∀ v ∈ [t, u], isQuiet v.kind = true := by
  have hstring : isQuiet u.kind = true := by
    rw [hu]
    rfl
  simp [ht, isQuiet_of_free hw, hstring]

theorem arguments_string (h : u.kind = .string value false) :
    arguments (stripParens [u]) = [[u]] := by
  simp [stripParens, inParens, h, arguments, argumentsFrom]

theorem Builtin.plain (t : Builtin) : isKeyword t.text = false ∧ isPlainName t.text = true ∧
    Attribute.Precedence.ofWord? t.text = none ∧
    t.text ∉ ["include_recipe", "require", "require_relative", "node"] := by
  have h : ∀ w ∈ builtinResources, isKeyword w = false ∧ isPlainName w = true ∧
      Attribute.Precedence.ofWord? w = none ∧
      w ∉ ["include_recipe", "require", "require_relative", "node"] := by
    decide +kernel
  exact h t.text t.known

theorem resourceCall_call {type : Builtin} (ht : t.kind = .ident type.text)
    (hu : u.kind = .string value false) (hasBlock : Bool) :
    resourceCall? s [t, u] hasBlock =
      some ⟨s.file, t.line, type.text, some value, false, false, [], ""⟩ := by
  have hident : t.ident? = some type.text := by rw [Token.ident?, ht]; rfl
  have hbuiltin : isBuiltin type.text = true := by simp [isBuiltin, type.known]
  have hcalls : callsResource type.text (some (.string value false)) hasBlock = true := by
    simp [callsResource, type.plain, hbuiltin, rulesOutCall]
  simp [resourceCall?, hident, hu, hcalls, arguments_string hu, argument_string hu, hbuiltin]

theorem assignment_call {type : Builtin} (ht : t.kind = .ident type.text) (rest : List Token) :
    assignment? s (t :: rest) = none := by
  have hident : t.ident? = some type.text := by rw [Token.ident?, ht]; rfl
  have hnode : t.isWord "node" = false := by
    have hne := type.plain.2.2.2
    simp only [mem_cons, not_or] at hne
    simp [isWord, ht, hne]
  have hafter : afterNode (t :: rest) = t :: rest := by
    cases rest <;> simp [afterNode, hnode]
  simp [assignment?, hafter, hident, type.plain]

theorem grows_resource (type : Builtin) (value : String) (hsetting : a.setting = .normal) :
    a.Grows [.resource type.text (some value) false false []]
      (a.statement s (tokensAt place (call type.text type.isName value).pieces)) := by
  obtain ⟨t, u, htoks, ht, hu⟩ := tokens_call type.text type.isName value place
  have hident : t.ident? = some type.text := by rw [Token.ident?, ht]; rfl
  have hquiet := quiet_call ht type.plain.1 hu
  have hne := type.plain.2.2.2
  simp only [mem_cons, not_or] at hne
  have hinline : splitFirstDo none [t, u] = none := by
    have hdo : type.text ≠ "do" := by
      rintro hdo
      have hfree := type.plain.1
      rw [hdo] at hfree
      revert hfree
      decide
    simp [splitFirstDo, isWord, ht, hu, hdo]
  rw [htoks, statement_of_free hident type.plain.1, ordinary_plain s (balance_quiet hquiet) hsetting]
  simp only [plain, splitModifier_quiet hquiet, List.head?_cons, bind_some, hident, getD_some, hne,
    if_false, assignment_call ht, resourceLine, hinline, map_none, getD_none, isSome_none,
    resourceCall_call ht hu, isEmpty_nil, if_true]
  exact Grows.addFact_addItems a _ _

theorem grows_include (target : String) (hsetting : a.setting = .normal) :
    a.Grows [.inclusion .includeRecipe target false]
      (a.statement s (tokensAt place (includeLine target).pieces)) := by
  obtain ⟨t, u, htoks, ht, hu⟩ : ∃ t u, tokensAt place (includeLine target).pieces = [t, u] ∧
      t.kind = .ident "include_recipe" ∧ u.kind = .string target false := ⟨_, _, rfl, rfl, rfl⟩
  have hident : t.ident? = some "include_recipe" := by rw [Token.ident?, ht]; rfl
  have hfree : isKeyword "include_recipe" = false := by decide
  have hquiet := quiet_call ht hfree hu
  rw [htoks, statement_of_free hident hfree, ordinary_plain s (balance_quiet hquiet) hsetting]
  simp only [plain, splitModifier_quiet hquiet, List.head?_cons, bind_some, hident, getD_some,
    if_true, references, drop_succ_cons, drop_zero, arguments_string hu, map_cons, map_nil,
    argument_string hu, foldl_cons, foldl_nil]
  exact Grows.addFact_addItems a _ _

theorem statement_opening (s : Source) (place : Place) (type : Builtin) (value : String)
    (hsetting : a.setting = .normal) :
    ∃ line start, a.statement s (tokensAt place (opening type value).pieces) =
      a.push (.resource ⟨s.file, line, type.text, some value, false, false, [], ""⟩ start) := by
  obtain ⟨t, u, v, htoks, ht, hu, hv⟩ :
      ∃ t u v, tokensAt place (opening type value).pieces = [t, u, v] ∧
      t.kind = .ident type.text ∧ u.kind = .string value false ∧ v.kind = .ident "do" :=
    ⟨_, _, _, rfl, rfl, rfl, rfl⟩
  have hident : t.ident? = some type.text := by rw [Token.ident?, ht]; rfl
  have hquiet := quiet_call ht type.plain.1 hu
  refine ⟨t.line, t.start, ?_⟩
  have hprev : isMember (kindAfter none [t, u]) = false := by
    simp [kindAfter, isMember, hu, Kind.isAccess]
  have hbalance : balance [t, u, v] = 1 := balance_do hquiet (by simp) hv hprev (by simp)
  have hblock : blockDo? [t, u, v] = some ([t, u], []) := by
    have hsplit : splitDo 0 none [t, u, v] = some ([t, u], []) :=
      splitDo_append (by simp [isWord, hv]) (by simp) 0 none
        (by simp [ht, hu, Kind.depthAfter, Kind.isOpening, Kind.isClosing]) hprev
    simp [blockDo?, hsplit, blockParameters?]
  have hopener : opener s [t, u, v] =
      (.resource ⟨s.file, t.line, type.text, some value, false, false, [], ""⟩ t.start, none) := by
    rw [opener_call hident type.plain.1 (assignment_call ht _) hblock, resourceCall_call ht hu true]
  rw [htoks, statement_of_free hident type.plain.1, ordinary_opens s hbalance hsetting hopener]

theorem blockParameters_of_kinds {toks : List Token} {mid : List Kind}
    (h : toks.map Token.kind = .pipe :: (mid ++ [.pipe])) :
    blockParameters? toks = some (mid.filterMap Kind.ident?) := by
  cases toks with
  | nil => cases h
  | cons first rest =>
    simp only [map_cons, List.cons.injEq] at h
    obtain ⟨hfirst, hrest⟩ := h
    obtain ⟨last, hlast, hkind⟩ : ∃ last, rest.getLast? = some last ∧ last.kind = .pipe := by
      have hget : (rest.map Token.kind).getLast? = some .pipe := by rw [hrest, List.getLast?_concat]
      simpa using hget
    have hnames : rest.dropLast.filterMap Token.ident? = mid.filterMap Kind.ident? := by
      have hdrop : rest.dropLast.map Token.kind = mid := by rw [map_dropLast, hrest, dropLast_concat]
      rw [← hdrop, filterMap_map]
      rfl
    simp [blockParameters?, hlast, hfirst, hkind, hnames]

theorem blockParameters_parameters (ws : List Word) (place : Place) :
    blockParameters? (tokensAt place (parameters ws)) = some (ws.map Word.text) := by
  cases ws with
  | nil => rfl
  | cons w ws =>
    have hkinds := map_kind_tokensAt place (parameters (w :: ws))
    have hnames : (ws.flatMap fun v => [Kind.comma, .ident v.text]).filterMap Kind.ident? =
        ws.map Word.text := by
      clear hkinds
      induction ws with
      | nil => rfl
      | cons v vs ih =>
        rw [flatMap_cons, filterMap_append, ih]
        rfl
    rw [kinds_parameters_cons] at hkinds
    have h : blockParameters? (tokensAt place (parameters (w :: ws))) =
        some ((.ident w.text :: ws.flatMap fun v => [Kind.comma, .ident v.text]).filterMap Kind.ident?) :=
      blockParameters_of_kinds (by rw [hkinds]; simp)
    rw [h, filterMap_cons, hnames]
    rfl

theorem quiet_parameters (ws : List Word) (place : Place) :
    ∀ t ∈ tokensAt place (parameters ws), isQuiet t.kind = true := by
  intro t ht
  have hk : t.kind ∈ kinds (parameters ws) := by
    rw [← map_kind_tokensAt place]
    exact mem_map_of_mem ht
  rcases mem_kinds_parameters hk with hk | hk | ⟨v, hk⟩ <;> rw [hk]
  · rfl
  · rfl
  · exact isQuiet_of_free v.free

theorem tokens_each (w : Word) (ws : List Word) (place : Place) :
    ∃ x p e d later, tokensAt place (eachLine w ws).pieces =
    x :: p :: e :: d :: tokensAt later (parameters ws) ∧
      tokensAt place [Piece.name w.text] = [x] ∧ x.kind = .ident w.text ∧ x.line = place.line ∧
      p.kind = .dot ∧ e.kind = .ident "each" ∧ d.kind = .ident "do" :=
  ⟨_, _, _, _, _, rfl, rfl, rfl, rfl, rfl, rfl, rfl⟩

theorem assignment_each {x p e d : Token} (hp : p.kind = .dot) (he : e.kind = .ident "each")
    (hd : d.kind = .ident "do") (after : List Token) :
    assignment? s (x :: p :: e :: d :: after) = none := by
  have hident : e.ident? = some "each" := by rw [Token.ident?, he]; rfl
  have hpath : assignmentPath s [] none (p :: e :: d :: after) = none := by
    have hstop : assignmentPath s ["each"] none (d :: after) = none := by
      rw [assignmentPath.eq_def]
      simp [hd, Kind.isAssignment]
    simp [assignmentPath, hp, hident, hstop]
  by_cases hnode : x.isWord "node" = true
  · have hnone : Attribute.Precedence.ofWord? "each" = none := by decide
    simp [assignment?, afterNode, hnode, hp, hident, hnone]
  · simp [assignment?, afterNode, hnode, hpath]

theorem eachCall_each {x p e : Token} {w : String} (hx : x.kind = .ident w) (hp : p.kind = .dot)
    (he : e.kind = .ident "each") : eachCall? [x, p, e] = some ⟨[x], "each"⟩ := by
  have hident : e.ident? = some "each" := by rw [Token.ident?, he]; rfl
  have hsplit : splitEach 0 [x, p, e] = some ([x], "each", []) := by
    simp [splitEach, hx, hp, he, hident, Kind.depthAfter, Kind.isOpening, Kind.isClosing]
  simp [eachCall?, hsplit, afterAssignment, hx, Kind.isAssignment]

theorem statement_each (w : Word) (ws : List Word) (hsetting : a.setting = .normal)
    (h : s.Has place (spell (eachLine w ws).pieces)) :
    a.statement s (tokensAt place (eachLine w ws).pieces) =
      a.push (.conditional ⟨.eachLoop, w.text ++ ".each", place.line, ws.map Word.text⟩ false) := by
  have hname : s.text (tokensAt place [Piece.name w.text]) = w.text := by
    rw [show (eachLine w ws).pieces = [.name w.text] ++
      ([.mark '.' .dot, .name "each", .space, .name "do"] ++ parameters ws) from rfl,
      spell_append] at h
    exact text_name w.isName h.left
  obtain ⟨x, p, e, d, later, htoks, hone, hx, hline, hp, he, hd⟩ := tokens_each w ws place
  have hident : x.ident? = some w.text := by rw [Token.ident?, hx]; rfl
  have hafter := quiet_parameters ws later
  have hhead : ∀ t ∈ [x, p, e], isQuiet t.kind = true := by
    have heach : isQuiet (.ident "each") = true := by decide
    have hdot : isQuiet .dot = true := rfl
    simp [hx, hp, he, isQuiet_of_free w.free, heach, hdot]
  have hprev : isMember (kindAfter none [x, p, e]) = false := by
    simp [kindAfter, isMember, he, Kind.isAccess]
  have hbalance : balance (x :: p :: e :: d :: tokensAt later (parameters ws)) = 1 :=
    balance_do hhead (by simp) hd hprev hafter
  have hblock : blockDo? (x :: p :: e :: d :: tokensAt later (parameters ws)) =
      some ([x, p, e], ws.map Word.text) := by
    have hsplit : splitDo 0 none ([x, p, e] ++ d :: tokensAt later (parameters ws)) =
        some ([x, p, e], tokensAt later (parameters ws)) :=
      splitDo_append (by simp [isWord, hd]) hafter 0 none
        (by simp [hx, hp, he, Kind.depthAfter, Kind.isOpening, Kind.isClosing]) hprev
    simp only [cons_append, nil_append] at hsplit
    simp [blockDo?, hsplit, blockParameters_parameters]
  have hcall : resourceCall? s [x, p, e] true = none := by
    simp [resourceCall?, hident, hp, callsResource, rulesOutCall]
  have hopener := opener_call (s := s) hident w.free (assignment_each hp he hd _) hblock
  simp only [hcall, eachCall_each hx hp he] at hopener
  have hcondition : w.text ++ "." ++ "each" = w.text ++ ".each" := by
    rw [String.append_assoc]
    rfl
  rw [← hone, hname, hline, hcondition] at hopener
  rw [htoks, statement_of_free hident w.free, ordinary_opens s hbalance hsetting hopener]

theorem Property.plain (k : Property) :
    isKeyword k.text = false ∧ isKnownProperty k.text = true := by
  have h : ∀ w ∈ knownProperties, isKeyword w = false := by decide +kernel
  exact ⟨h k.text k.known, by simp [isKnownProperty, k.known]⟩

theorem text_quoted (h : s.Has place (spell [Piece.quoted value])) :
    s.text (tokensAt place [Piece.quoted value]) = String.ofList (Piece.quoted value).text := by
  have hmark : ∀ c ∈ ['\''], isBlank c = false := by
    intro c hc
    obtain rfl := mem_singleton.mp hc
    decide
  have htrim := trim_between (by simp) (by simp) hmark hmark (escapedIn plainMarks value.toList)
  rw [h.text ⟨_, _, rfl, rfl⟩ ⟨[], _, rfl, rfl⟩]
  simp only [spell_cons, spell_nil, append_nil, Piece.quoted]
  exact congrArg String.ofList htrim

theorem statement_property {call : Resource} {start : Nat} {frames : List Frame} {items : List Item}
    {facts : List Fact} (p : Property × String) (h : s.Has place (spell (propertyLine p).pieces)) :
    (⟨⟨.resource call start, []⟩ :: frames, items, facts⟩ : Assembly).statement s
        (tokensAt place (propertyLine p).pieces) =
      ⟨⟨.resource (call.addProperty p.1.text (String.ofList (Piece.quoted p.2).text)) start, []⟩ ::
        frames, items, facts⟩ := by
  obtain ⟨t, u, later, htoks, ht, hu, hvalue, hlater⟩ : ∃ t u later,
      tokensAt place (propertyLine p).pieces = [t, u] ∧ t.kind = .ident p.1.text ∧
      u.kind = .string p.2 false ∧
      tokensAt later [Piece.quoted p.2] = [u] ∧ later = place.past (spell [.name p.1.text, .space]) :=
    ⟨_, _, _, rfl, rfl, rfl, rfl, by simp⟩
  have hident : t.ident? = some p.1.text := by rw [Token.ident?, ht]; rfl
  have hquiet := quiet_call ht p.1.plain.1 hu
  have htext : s.text [u] = String.ofList (Piece.quoted p.2).text := by
    rw [show (propertyLine p).pieces = [.name p.1.text, .space] ++ [.quoted p.2] from rfl,
      spell_append] at h
    rw [← hvalue, hlater]
    exact text_quoted h.right
  rw [htoks, statement_of_free hident p.1.plain.1, ordinary_property s (balance_quiet hquiet) rfl]
  simp [property, splitModifier_quiet hquiet, hident, hu, Kind.isAssignment, p.1.plain, stripParens,
    inParens, htext, addProperty, amendResource]

theorem takeLines_properties {call : Resource} {start : Nat} {frames : List Frame}
    {items : List Item} {facts : List Fact} (ps : List (Property × String))
    (h : s.Has place (written (ps.map propertyLine))) :
    takeLines s place (ps.map propertyLine) ⟨⟨.resource call start, []⟩ :: frames, items, facts⟩ =
      ⟨⟨.resource { call with properties := collect call.properties ps } start, []⟩ :: frames,
      items, facts⟩ := by
  induction ps generalizing place call with
  | nil => rfl
  | cons p ps ih =>
    rw [map_cons] at h ⊢
    rw [takeLines_cons, statement_property p h.line.1, ih h.line.2]
    rfl

theorem grows_resourceBlock (type : Builtin) (value : String) (ps : List (Property × String))
    (hsetting : a.setting = .normal)
    (h : s.Has place (written (opening type value :: (ps.map propertyLine ++ [endLine])))) :
    a.Grows [.resource type.text (some value) false false (collect [] ps)]
      (takeLines s place (opening type value :: (ps.map propertyLine ++ [endLine])) a) := by
  have hrest := h.line.2
  rw [written_append] at hrest
  obtain ⟨line, start, hopen⟩ := statement_opening s place type value hsetting
  rw [takeLines_cons, hopen, takeLines_append, push, takeLines_properties ps hrest.left]
  refine grows_end fun stop => ?_
  exact Grows.addFact_addItems a _ _

end

/-- `a` with one more block open, which holds the given items. -/
def within (a : Assembly) (shape : Shape) (items : List Item) (facts : List Fact) : Assembly :=
  ⟨⟨shape, items⟩ :: a.frames, a.items, facts⟩

theorem within_of_grows {shape : Shape} (h : (a.push shape).Grows xs b) :
    ∃ items facts, b = within a shape items facts ∧ sketchItems items = xs := by
  obtain ⟨items, facts, rfl, hitems⟩ := h
  exact ⟨items, facts, rfl, hitems⟩

def blockSketch (h : Heading) (children : List Sketch) : Sketch :=
  .block h.kind h.condition h.parameters children

section
variable {a : Assembly} {h : Heading} {items : List Item} {facts : List Fact}

theorem grows_block : a.Grows [blockSketch h (sketchItems items)]
    { a.addItems [.block h items] with facts := facts } :=
  ⟨[.block h items], facts, rfl, rfl⟩

variable (s : Source) (stop : Nat)

theorem pop_conditional :
    (within a (.conditional h arm) items facts).pop s stop none =
      { a.addItems [.block h items] with facts := facts } :=
  addItems_setFacts a facts [.block h items]

theorem close_conditional :
    (within a (.conditional h false) items facts).close s stop none =
      { a.addItems [.block h items] with facts := facts } :=
  pop_conditional s stop

theorem close_case :
    (within a (.caseOf h) items facts).close s stop none =
    { a.addItems [.block h items] with facts := facts } :=
  addItems_setFacts a facts [.block h items]

theorem pop_arm {arm : Heading} {inner : List Item} {before : List Fact} :
    (within (within a (.caseOf h) items before) (.conditional arm true) inner facts).pop s stop none =
      within a (.caseOf h) (items ++ [.block arm inner]) facts :=
  pop_conditional s stop

theorem close_arm {arm : Heading} {inner : List Item} {before : List Fact} :
    (within (within a (.caseOf h) items before) (.conditional arm true) inner facts).close s stop none =
      { a.addItems [.block h (items ++ [.block arm inner])] with facts := facts } := by
  change ((within (within a (.caseOf h) items before) (.conditional arm true) inner facts).pop s stop none).pop s
    stop none = _
  rw [pop_arm]
  exact addItems_setFacts a facts [.block h (items ++ [.block arm inner])]

end

/-- Between two arms of a `case` with the given items: before the first arm, or in an open one. -/
inductive AtArm (a : Assembly) (h : Heading) : List Item → Assembly → Prop
  | first (facts : List Fact) : AtArm a h [] (within a (.caseOf h) [] facts)
  | later (items inner : List Item) (arm : Heading) (before facts : List Fact) :
    AtArm a h (items ++ [.block arm inner])
      (within (within a (.caseOf h) items before) (.conditional arm true) inner facts)

namespace AtArm

variable {a b : Assembly} {h : Heading} {items : List Item}

theorem setting (hat : AtArm a h items b) : b.setting = .normal := by
  cases hat <;> rfl

theorem chain (hat : AtArm a h items b) : b.chain = .caseOf ∨ b.chain = .arm := by
  cases hat with
  | first => exact .inl rfl
  | later => exact .inr rfl

theorem enter (hat : AtArm a h items b) (s : Source) (stop : Nat) :
    ∃ facts, (if b.chain = .caseOf then b else b.pop s stop none) =
    within a (.caseOf h) items facts := by
  cases hat with
  | first facts => exact ⟨facts, rfl⟩
  | later items inner arm before facts => exact ⟨facts, pop_arm s stop⟩

theorem close (hat : AtArm a h items b) (s : Source) (stop : Nat) :
    a.Grows [blockSketch h (sketchItems items)] (b.close s stop none) := by
  cases hat with
  | first facts =>
    rw [close_case]
    exact grows_block
  | later items inner arm before facts =>
    rw [close_arm]
    exact grows_block

end AtArm

theorem chain_conditional (a : Assembly) {h : Heading} (items : List Item) (facts : List Fact)
    (hkind : h.kind ∈ [.ifBlock, .unlessBlock, .elsifBlock]) :
    (within a (.conditional h false) items facts).chain = .ifChain := by
  simp only [mem_cons, not_mem_nil, or_false] at hkind
  simp [chain, within, hkind]

/-- Steps that add what they stand for, wherever they are written. -/
def Faithful (s : Source) (steps : List Step) : Prop :=
  ∀ {place : Place} {a : Assembly}, a.setting = .normal → s.Has place (written (linesOf steps)) →
    a.Grows (sketchOf steps) (takeLines s place (linesOf steps) a)

section
variable {s : Source} {place : Place} {a : Assembly}

/-- A body inside an open block, with what the lines after it do to the block. -/
theorem Faithful.body {body : List Step} {more : List Line} {h : Heading} (hbody : Faithful s body)
    (hhas : s.Has place (written (linesOf body ++ more)))
    (hmore : ∀ items facts later, sketchItems items = sketchOf body → s.Has later (written more) →
      b.Grows xs (takeLines s later more (within a (.conditional h arm) items facts))) :
    b.Grows xs (takeLines s place (linesOf body ++ more) (a.push (.conditional h arm))) := by
  rw [written_append] at hhas
  have hopen : (a.push (.conditional h arm)).setting = .normal := rfl
  obtain ⟨items, facts, hrun, hitems⟩ := within_of_grows (hbody hopen hhas.left)
  rw [takeLines_append, hrun]
  exact hmore items facts _ hitems hhas.right

theorem Faithful.block {body : List Step} {h : Heading} (hbody : Faithful s body)
    (hhas : s.Has place (written (linesOf body ++ [endLine]))) :
    a.Grows [blockSketch h (sketchOf body)]
      (takeLines s place (linesOf body ++ [endLine]) (a.push (.conditional h false))) := by
  refine hbody.body hhas fun items facts later hitems _ => ?_
  rw [← hitems]
  refine grows_end fun stop => ?_
  rw [close_conditional]
  exact grows_block

end

mutual
theorem grows_step (s : Source) :
    ∀ (step : Step) {place : Place} {a : Assembly}, a.setting = .normal →
    s.Has place (written step.lines) → a.Grows step.sketch (takeLines s place step.lines a)
  | .resource type name, place, a, hsetting, hhas => grows_resource type name hsetting
  | .resourceBlock type name properties, place, a, hsetting, hhas => by
    simp only [Step.lines] at hhas ⊢
    exact grows_resourceBlock type name properties hsetting hhas
  | .inclusion target, place, a, hsetting, hhas => grows_include target hsetting
  | .ifElse condition body rest, place, a, hsetting, hhas
  | .unlessElse condition body rest, place, a, hsetting, hhas => by
    simp only [Step.lines, Step.sketch] at hhas ⊢
    rw [takeLines_cons, statement_opens (by simp) hsetting hhas.line.1]
    refine Faithful.body (grows_steps s body) hhas.line.2 fun items facts later hitems hrest => ?_
    rw [← hitems]
    exact grows_chain s rest (by simp [headingAt]) hsetting hrest
  | .caseOf subject arms, place, a, hsetting, hhas => by
    simp only [Step.lines, Step.sketch] at hhas ⊢
    rw [takeLines_cons, statement_opens (by simp) hsetting hhas.line.1]
    exact grows_arms s arms (.first a.facts) hhas.line.2
  | .whileLoop condition body, place, a, hsetting, hhas => by
    simp only [Step.lines, Step.sketch] at hhas ⊢
    rw [takeLines_cons, statement_opens (by simp) hsetting hhas.line.1]
    exact Faithful.block (grows_steps s body) hhas.line.2
  | .each collection ws body, place, a, hsetting, hhas => by
    simp only [Step.lines, Step.sketch] at hhas ⊢
    rw [takeLines_cons, statement_each collection ws hsetting hhas.line.1]
    exact Faithful.block (grows_steps s body) hhas.line.2

theorem grows_steps (s : Source) : ∀ steps : List Step, Faithful s steps
  | [], place, a, hsetting, hhas => Grows.refl a
  | step :: rest, place, a, hsetting, hhas => by
    simp only [linesOf, sketchOf] at hhas ⊢
    rw [written_append] at hhas
    have hstep := grows_step s step hsetting hhas.left
    rw [takeLines_append]
    exact hstep.trans (grows_steps s rest (hstep.setting.trans hsetting) hhas.right)

/-- The clauses after an open `if`, `unless` or `elsif` up to the `end` of the chain. -/
theorem grows_chain (s : Source) : ∀ (rest : Clauses) {place : Place} {a : Assembly} {h : Heading}
    {items : List Item} {facts : List Fact}, h.kind ∈ [.ifBlock, .unlessBlock, .elsifBlock] →
    a.setting = .normal → s.Has place (written (rest.lines .elsifBlock ++ [endLine])) →
    a.Grows (blockSketch h (sketchItems items) :: rest.sketch .elsifBlock)
      (takeLines s place (rest.lines .elsifBlock ++ [endLine]) (within a (.conditional h false) items facts))
  | .done, place, a, h, items, facts, hkind, hsetting, hhas => by
    refine grows_end fun stop => ?_
    rw [close_conditional]
    exact grows_block
  | .otherwise body, place, a, h, items, facts, hkind, hsetting, hhas => by
    have hchain := chain_conditional a items facts hkind
    simp only [Clauses.lines, Clauses.sketch, cons_append] at hhas ⊢
    rw [takeLines_cons, statement_else rfl (by rw [hchain]; rfl) hhas.line.1, hchain,
      if_neg (by decide), pop_conditional]
    exact grows_block.trans (Faithful.block (grows_steps s body) hhas.line.2)
  | .also condition body rest, place, a, h, items, facts, hkind, hsetting, hhas => by
    have hchain := chain_conditional a items facts hkind
    simp only [Clauses.lines, Clauses.sketch, cons_append, append_assoc] at hhas ⊢
    rw [takeLines_cons, statement_clause rfl (by rw [hchain]; rfl) (by simp) hhas.line.1, hchain,
      if_neg (by decide), pop_conditional]
    refine Faithful.body (grows_steps s body) hhas.line.2 fun inner more later hinner hrest => ?_
    rw [← hinner]
    exact grows_block.trans (grows_chain s rest
      (by simp [headingAt]) ((setting_addItems a _).trans hsetting) hrest)

theorem grows_arms (s : Source) : ∀ (rest : Clauses) {place : Place} {a b : Assembly} {h : Heading}
    {items : List Item}, AtArm a h items b →
    s.Has place (written (rest.lines .whenArm ++ [endLine])) →
    a.Grows [blockSketch h (sketchItems items ++ rest.sketch .whenArm)]
      (takeLines s place (rest.lines .whenArm ++ [endLine]) b)
  | .done, place, a, b, h, items, hat, hhas => by
    simp only [Clauses.sketch, append_nil]
    exact grows_end fun stop => hat.close s stop
  | .otherwise body, place, a, b, h, items, hat, hhas => by
    have hchain : clauseKind? "else" b.chain = some (.elseBlock, true) := by
      rcases hat.chain with hc | hc <;> rw [hc] <;> rfl
    obtain ⟨facts, henter⟩ := hat.enter s place.offset
    simp only [Clauses.lines, Clauses.sketch, cons_append] at hhas ⊢
    rw [takeLines_cons, statement_else hat.setting hchain hhas.line.1, henter]
    refine Faithful.body (grows_steps s body) hhas.line.2 fun inner more later hinner _ => ?_
    refine grows_end fun stop => ?_
    have hclose := (AtArm.later (a := a) (h :=
      h) items inner (headingAt place .elseBlock "else") facts more).close s
      stop
    simp only [sketchItems_append, sketchItems, Item.sketch, hinner] at hclose
    exact hclose
  | .also condition body rest, place, a, b, h, items, hat, hhas => by
    have hchain : clauseKind? BlockKind.whenArm.word b.chain = some (.whenArm, true) := by
      rcases hat.chain with hc | hc <;> rw [hc] <;> rfl
    obtain ⟨facts, henter⟩ := hat.enter s place.offset
    simp only [Clauses.lines, Clauses.sketch, cons_append, append_assoc] at hhas ⊢
    rw [takeLines_cons, statement_clause hat.setting hchain (by simp) hhas.line.1, henter]
    refine Faithful.body (grows_steps s body) hhas.line.2 fun inner more later hinner hrest => ?_
    have harms := grows_arms s rest (.later (a := a) (h := h) items inner
      (headingAt place .whenArm (BlockKind.whenArm.word ++ " " ++ condition.text)) facts more) hrest
    simp only [sketchItems_append, sketchItems, Item.sketch, hinner, append_assoc] at harms
    exact harms
end

/-- Reading the canonical text of a script gives its tree back. -/
theorem execution_of_text (script : List Step) (file : Path) (limit : Nat) :
    ∃ p, parse? ⟨text script, file, limit⟩ = some p ∧
    sketchItems p.execution = sketchOf script := by
  let s : Source := ⟨text script, file, limit⟩
  have hparse : parse? s = some (parseTokens s (tokensAt Place.start (page (linesOf script)))) :=
    parse_written (linesOf script) file limit
  have hrun : start.Grows (sketchOf script) (takeLines s Place.start (linesOf script) start) :=
    grows_steps s script rfl s.has_chars
  obtain ⟨items, facts, hdone, hitems⟩ := hrun
  have hexecution : (parseTokens s (tokensAt Place.start (page (linesOf script)))).execution =
      items := by
    simp only [parseTokens, statements_page]
    rw [takeLines] at hdone
    rw [hdone]
    rfl
  exact ⟨_, hparse, by rw [hexecution, hitems]⟩

example : String.ofList (text [.ifElse ⟨"a", by decide +kernel, by decide⟩ [.resource ⟨"package", by decide⟩ "x"]
    (.otherwise [.inclusion "it's"])]) =
    "if a\npackage 'x'\nelse\ninclude_recipe 'it\\'s'\nend\n" := by
  decide +kernel

end Script
end CookbookAtlas.Recipe
