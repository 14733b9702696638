import CookbookAtlas.Metadata
import CookbookAtlas.Proofs.Datum.Members
import CookbookAtlas.Proofs.Json.RoundTrip
import CookbookAtlas.Proofs.Text.Layout
import CookbookAtlas.Proofs.Text.Marks
import CookbookAtlas.Recipe.View
import Mathlib.Data.List.Induction

/-! Metadata in its two written forms. Calls on lines of their own, in any order and with comments
between them, and a JSON object are both read back as the metadata that was written. -/
namespace CookbookAtlas.Metadata

open List Text Json
variable {c : Char} {m : Metadata} {s : String}

/-- A text that can stand between quotation marks on one line. -/
structure Quotable (s : String) : Prop where
  ne_empty : s ≠ ""
  plain : s.toList.all (fun c => !isQuote c && c != '\n') = true

instance (s : String) : Decidable (Quotable s) :=
  decidable_of_iff (s ≠ "" ∧ s.toList.all (fun c => !isQuote c && c != '\n') = true)
    ⟨fun h => ⟨h.1, h.2⟩, fun h => ⟨h.1, h.2⟩⟩

theorem Quotable.of_mem (h : Quotable s) (hc : c ∈ s.toList) : isQuote c = false ∧ c ≠ '\n' := by
  simpa using all_eq_true.mp h.plain c hc

/-- All texts can be quoted, and no cookbook is depended on twice. -/
structure Writable (m : Metadata) : Prop where
  name : ∀ s ∈ m.name, Quotable s
  version : ∀ s ∈ m.version, Quotable s
  depends : ∀ d ∈ m.depends, Quotable d.1 ∧ ∀ s ∈ d.2, Quotable s
  nodup : (m.depends.map Prod.fst).Nodup

structure Blanks where
  chars : List Char
  blank : ∀ c ∈ chars, isBlank c = true ∧ c ≠ '\n'

/-- How a call is written: where blanks stand, whether it has parentheses, and its
quotation mark. -/
structure Style where
  indent : Blanks
  gap : Blanks
  /-- Blanks after the opening parenthesis, if there is one. -/
  paren : Option Blanks
  beforeComma : Blanks
  afterComma : Blanks
  mark : Char
  isQuote_mark : isQuote mark = true

inductive Entry
  | name (value : String)
  | version (value : String)
  | depends (cookbook : String) (constraint : Option String)

variable {e : Entry}

namespace Entry

def word : Entry → String
  | .name _ => "name"
  | .version _ => "version"
  | .depends _ _ => "depends"

def first : Entry → String
  | .name value | .version value => value
  | .depends cookbook _ => cookbook

def second : Entry → Option String
  | .depends _ constraint => constraint
  | _ => none

def name? : Entry → Option String
  | .name value => some value
  | _ => none

def version? : Entry → Option String
  | .version value => some value
  | _ => none

def depends? : Entry → Option (String × Option String)
  | .depends cookbook constraint => some (cookbook, constraint)
  | _ => none

end Entry

namespace Style

def opening (style : Style) : List Char :=
  match style.paren with
  | some blanks => '(' :: blanks.chars
  | none => []

def closing (style : Style) : List Char := if style.paren.isSome then [')'] else []

def quote (style : Style) (s : String) (rest : List Char) : List Char :=
  style.mark :: (s.toList ++ style.mark :: rest)

def rest (style : Style) : Option String → List Char
  | some s =>
    style.beforeComma.chars ++ ',' :: (style.afterComma.chars ++ style.quote s style.closing)
  | none => style.closing

end Style

inductive Line
  | call (style : Style) (entry : Entry)
  | comment (indent : Blanks) (text : List Char) (h : '\n' ∉ text)

namespace Line

def text : Line → List Char
  | .call style e =>
    style.indent.chars ++ (e.word.toList ++
      (style.gap.chars ++ (style.opening ++ style.quote e.first (style.rest e.second))))
  | .comment indent text _ => indent.chars ++ '#' :: text

def entry? : Line → Option Entry
  | .call _ e => some e
  | .comment _ _ _ => none

end Line

def script (lines : List Line) : List Char := lines.flatMap fun l => l.text ++ ['\n']

def entries (lines : List Line) : List Entry := lines.filterMap Line.entry?

/-- The lines declare the name and the version once, if there is one, and the dependencies in their
order. -/
structure Declares (lines : List Line) (m : Metadata) : Prop where
  name : (entries lines).filterMap Entry.name? = m.name.toList
  version : (entries lines).filterMap Entry.version? = m.version.toList
  depends : (entries lines).filterMap Entry.depends? = m.depends

theorem trimLeft_blanks (blanks : Blanks) (hc : isBlank c = false) (cs : List Char) :
    trimLeft (blanks.chars ++ c :: cs) = c :: cs := by
  have hall : ∀ d ∈ blanks.chars, isBlank d = true := fun d hd => (blanks.blank d hd).1
  rw [trimLeft, dropWhile_append_of_pos hall, dropWhile_cons_of_neg (by simp [hc])]

theorem not_isBlank_of_isQuote (h : isQuote c = true) : isBlank c = false := by
  simp only [isQuote, Bool.or_eq_true, beq_iff_eq] at h
  rcases h with rfl | rfl <;> rfl

theorem dropParen_of_ne (h : c ≠ '(') (cs : List Char) : dropParen (c :: cs) = c :: cs := by
  unfold dropParen
  split
  · rename_i heq
    exact absurd (List.cons.inj heq).1 h
  · rfl

theorem quoted?_quote (style : Style) (h : Quotable s) (rest : List Char) :
    quoted? (style.quote s rest) = some (s, rest) := by
  have hplain : ∀ c ∈ s.toList, (!isQuote c) = true := fun c hc => by simp [(h.of_mem hc).1]
  have hmark : (!isQuote style.mark) = false := by simp [style.isQuote_mark]
  have hbody : (s.toList ++ style.mark :: rest).takeWhile (fun c => !isQuote c) = s.toList := by
    rw [takeWhile_append_of_pos hplain, takeWhile_cons_of_neg (by simp [hmark]), append_nil]
  have hrest : (s.toList ++ style.mark :: rest).dropWhile (fun c => !isQuote c) =
      style.mark :: rest := by
    rw [dropWhile_append_of_pos hplain, dropWhile_cons_of_neg (by simp [hmark])]
  have hne : s.toList.isEmpty = false := by simpa using h.ne_empty
  simp only [Style.quote, quoted?, hbody, hrest, style.isQuote_mark, hne]
  simp

/-- Blanks and a parenthesis before the first argument are passed over. -/
theorem trimLeft_opening (style : Style) (s : String) (rest : List Char) :
    trimLeft (dropParen (trimLeft (style.gap.chars ++ (style.opening ++ style.quote s rest)))) =
      style.quote s rest := by
  have hmark := not_isBlank_of_isQuote style.isQuote_mark
  have hparen : style.mark ≠ '(' := by
    intro he
    have hquote := style.isQuote_mark
    rw [he] at hquote
    cases hquote
  rw [Style.opening]
  cases style.paren with
  | none =>
    rw [nil_append, Style.quote, trimLeft_blanks style.gap hmark, dropParen_of_ne hparen]
    exact trimLeft_blanks ⟨[], by simp⟩ hmark _
  | some blanks =>
    rw [cons_append, trimLeft_blanks style.gap (by rfl), dropParen, Style.quote]
    exact trimLeft_blanks blanks hmark _

theorem Entry.word_eq_cons (e : Entry) :
    ∃ c cs, e.word.toList = c :: cs ∧ isBlank c = false ∧ c ≠ '#' := by
  cases e with
  | name value => exact ⟨'n', ['a', 'm', 'e'], by rw [word]; rfl, rfl, by decide⟩
  | version value => exact ⟨'v', ['e', 'r', 's', 'i', 'o', 'n'], by rw [word]; rfl, rfl, by decide⟩
  | depends cookbook constraint =>
    exact ⟨'d', ['e', 'p', 'e', 'n', 'd', 's'], by rw [word]; rfl, rfl, by decide⟩

theorem trimLeft_call (style : Style) (e : Entry) :
    trimLeft (Line.call style e).text =
      e.word.toList ++ (style.gap.chars ++ (style.opening ++ style.quote e.first (style.rest e.second))) := by
  obtain ⟨c, cs, hword, hc, -⟩ := e.word_eq_cons
  rw [Line.text, hword]
  exact trimLeft_blanks style.indent hc _

theorem call?_own (style : Style) (h : Quotable e.first) :
    call? e.word (Line.call style e).text = some (e.first, style.rest e.second) := by
  rw [call?, trimLeft_call, after?_append]
  simp only [trimLeft_opening, quoted?_quote style h]

theorem call?_other (style : Style) {word : String} (hne : word.toList ≠ [])
    (h : word.toList.head? ≠ e.word.toList.head?) : call? word (Line.call style e).text = none := by
  obtain ⟨c, cs, hword, -, -⟩ := e.word_eq_cons
  rw [hword] at h
  rw [call?, trimLeft_call, hword, cons_append, after?_of_head?_ne hne h]

theorem constraint?_rest (style : Style) {second : Option String} (h : ∀ s ∈ second, Quotable s) :
    constraint? (style.rest second) = second := by
  cases second with
  | none =>
    rw [Style.rest, Style.closing]
    cases style.paren <;> rfl
  | some s =>
    have hmark := not_isBlank_of_isQuote style.isQuote_mark
    rw [Style.rest, constraint?, trimLeft_blanks style.beforeComma (by rfl)]
    simp only
    rw [Style.quote, trimLeft_blanks style.afterComma hmark, ← Style.quote,
      quoted?_quote style (h s rfl)]
    rfl

namespace Entry

structure Quotable (e : Entry) : Prop where
  first : Metadata.Quotable e.first
  second : ∀ s ∈ e.second, Metadata.Quotable s

def add (m : Metadata) : Entry → Metadata
  | .name value => { m with name := some value }
  | .version value => { m with version := some value }
  | .depends cookbook constraint => { m with depends := m.depends ++ [(cookbook, constraint)] }

end Entry

section
variable {m : Metadata}

theorem addLine_comment (indent : Blanks) (cs : List Char) :
    m.addLine (indent.chars ++ '#' :: cs) = m := by
  rw [addLine, trimLeft_blanks indent (by rfl)]
  exact if_pos rfl

theorem addLine_of_no_name {line : List Char} (hcode : (trimLeft line).head? ≠ some '#')
    (h : call? "name" line = none) : m.addLine line = m.addVersion line := by
  rw [addLine, if_neg hcode, h]
  cases m.name <;> rfl

theorem addVersion_of_no_version {line : List Char} (h : call? "version" line = none) :
    m.addVersion line = m.addDepends line := by
  rw [addVersion, h]
  cases m.version <;> rfl

/-- A call is taken for what it declares; a name or a version only while there is none. -/
theorem addLine_call (style : Style) (h : e.Quotable)
    (hname : e.name?.isSome = true → m.name = none)
    (hversion : e.version?.isSome = true → m.version = none) :
    m.addLine (Line.call style e).text = e.add m := by
  have hcode : (trimLeft (Line.call style e).text).head? ≠ some '#' := by
    obtain ⟨c, cs, hword, -, hc⟩ := e.word_eq_cons
    rw [trimLeft_call, hword]
    exact fun he => hc (Option.some.inj he)
  have hown := call?_own style h.first
  cases e with
  | name value =>
    simp only [Entry.word] at hown
    rw [addLine, if_neg hcode, hname rfl, hown]
    rfl
  | version value =>
    have hskip : call? "name" (Line.call style (.version value)).text = none :=
      call?_other style (by decide) (show "name".toList.head? ≠ "version".toList.head? by decide)
    simp only [Entry.word] at hown
    rw [addLine_of_no_name hcode hskip, addVersion, hversion rfl, hown]
    rfl
  | depends cookbook constraint =>
    have hskip : call? "name" (Line.call style (.depends cookbook constraint)).text = none :=
      call?_other style (by decide) (show "name".toList.head? ≠ "depends".toList.head? by decide)
    have hskip' : call? "version" (Line.call style (.depends cookbook constraint)).text = none :=
      call?_other style (by decide) (show "version".toList.head? ≠ "depends".toList.head? by decide)
    simp only [Entry.word] at hown
    rw [addLine_of_no_name hcode hskip, addVersion_of_no_version hskip', addDepends, hown]
    simp only [constraint?_rest style h.second]
    rfl

end

theorem Blanks.newline_not_mem (blanks : Blanks) : '\n' ∉ blanks.chars :=
  fun h => (blanks.blank _ h).2 rfl

theorem isLine_after {xs l : List Char} (hxs : '\n' ∉ xs) (hl : Text.IsLine l) (hne : l ≠ []) :
    Text.IsLine (xs ++ l) := by
  refine ⟨fun h => (mem_append.mp h).elim hxs hl.1, ?_⟩
  rw [List.getLast?_append_of_ne_nil _ hne]
  exact hl.2

namespace Style

variable (style : Style)

theorem isLine_quote (h : Quotable s) {rest : List Char} (hrest : Text.IsLine rest) :
    Text.IsLine (style.quote s rest) := by
  have hmark : Text.IsLine [style.mark] := by
    have hquote := style.isQuote_mark
    simp only [isQuote, Bool.or_eq_true, beq_iff_eq] at hquote
    rcases hquote with hquote | hquote <;> rw [hquote] <;> decide
  have hfront : '\n' ∉ style.mark :: s.toList := by
    intro hmem
    rcases mem_cons.mp hmem with he | hmem
    · exact hmark.1 (mem_singleton.mpr he)
    · exact (h.of_mem hmem).2 rfl
  exact isLine_after hfront (hmark.append hrest) (by simp)

theorem isLine_closing : Text.IsLine style.closing := by
  rw [closing]
  split <;> decide

theorem isLine_rest {second : Option String} (h : ∀ s ∈ second, Quotable s) :
    Text.IsLine (style.rest second) := by
  cases second with
  | none => exact style.isLine_closing
  | some s =>
    have hquote := style.isLine_quote (h s rfl) style.isLine_closing
    have hafter := isLine_after style.afterComma.newline_not_mem hquote (by simp [quote])
    have hcomma : Text.IsLine [','] := by decide
    exact isLine_after style.beforeComma.newline_not_mem (hcomma.append hafter) (by simp)

theorem newline_not_mem_opening : '\n' ∉ style.opening := by
  rw [opening]
  cases style.paren with
  | none => simp
  | some blanks => simpa using blanks.newline_not_mem

end Style

theorem isLine_call (style : Style) (h : e.Quotable) : Text.IsLine (Line.call style e).text := by
  have hword : '\n' ∉ e.word.toList := by cases e <;> simp [Entry.word]
  have hquote := style.isLine_quote h.first (style.isLine_rest h.second)
  have hne : style.quote e.first (style.rest e.second) ≠ [] := by simp [Style.quote]
  have hargument := isLine_after style.newline_not_mem_opening hquote hne
  have hgap := isLine_after style.gap.newline_not_mem hargument (by simp [Style.quote])
  have hall := isLine_after hword hgap (by simp [Style.quote])
  exact isLine_after style.indent.newline_not_mem hall (by simp [Style.quote])

def Line.read (l : Line) : List Char := (dropReturn l.text.reverse).reverse

theorem read_call (style : Style) (h : e.Quotable) :
    (Line.call style e).read = (Line.call style e).text := by
  rw [Line.read, dropReturn_reverse (isLine_call style h).2, reverse_reverse]

/-- A carriage return at the end of a comment belongs to the line end. -/
theorem read_comment (indent : Blanks) {cs : List Char} (h : '\n' ∉ cs) :
    ∃ ds, (Line.comment indent cs h).read = indent.chars ++ '#' :: ds := by
  rw [Line.read, Line.text]
  cases cs using List.reverseRecOn with
  | nil =>
    refine ⟨[], ?_⟩
    rw [dropReturn_reverse (by simp), reverse_reverse]
  | append_singleton cs c =>
    by_cases hc : c = '\r'
    · exact ⟨cs, by simp [hc, dropReturn]⟩
    · refine ⟨cs ++ [c], ?_⟩
      have hlast : (indent.chars ++ '#' :: (cs ++ [c])).getLast? ≠ some '\r' := by
        rw [← cons_append, ← append_assoc, List.getLast?_concat]
        simpa using hc
      rw [dropReturn_reverse hlast, reverse_reverse]

theorem lines_script {lines : List Line} (h : ∀ l ∈ lines, ∀ e ∈ l.entry?, e.Quotable) :
    Text.lines (script lines) = lines.map Line.read := by
  have hnewline : ∀ l ∈ lines, '\n' ∉ l.text := by
    intro l hl
    cases l with
    | call style e => exact (isLine_call style (h _ hl e rfl)).1
    | comment indent cs hcs =>
      simp only [Line.text, mem_append, mem_cons, not_or]
      exact ⟨indent.newline_not_mem, by decide, hcs⟩
  have hended : Text.lines ((lines.map Line.text).flatMap fun l => l ++ ['\n']) =
      (lines.map Line.text).map fun l => (dropReturn l.reverse).reverse :=
    lines_ended (by simpa using hnewline)
  rw [flatMap_map, map_map] at hended
  exact hended

section
variable {lines : List Line}

theorem eq_none_of_length {o : Option String} {x : String} {xs : List String}
    (h : (o.toList ++ x :: xs).length ≤ 1) : o = none := by
  cases o with
  | none => rfl
  | some y => simp at h

theorem foldl_addLine (h : ∀ l ∈ lines, ∀ e ∈ l.entry?, e.Quotable) (m : Metadata)
    (hname : (m.name.toList ++ (entries lines).filterMap Entry.name?).length ≤ 1)
    (hversion : (m.version.toList ++ (entries lines).filterMap Entry.version?).length ≤ 1) :
    (lines.map Line.read).foldl addLine m =
      ⟨(m.name.toList ++ (entries lines).filterMap Entry.name?).head?,
        (m.version.toList ++ (entries lines).filterMap Entry.version?).head?,
        m.depends ++ (entries lines).filterMap Entry.depends?⟩ := by
  induction lines generalizing m with
  | nil => simp [entries]
  | cons l lines ih =>
    have hrest := ih fun k hk => h k (mem_cons_of_mem l hk)
    cases l with
    | comment indent cs hcs =>
      obtain ⟨ds, hread⟩ := read_comment indent hcs
      rw [map_cons, foldl_cons, hread, addLine_comment]
      exact hrest m hname hversion
    | call style e =>
      have he : e.Quotable := h _ mem_cons_self e rfl
      have hentries : entries (.call style e :: lines) = e :: entries lines := rfl
      rw [hentries] at hname hversion ⊢
      rw [map_cons, foldl_cons, read_call style he]
      cases e with
      | name value =>
        have hfree : m.name = none := eq_none_of_length hname
        rw [hfree] at hname
        rw [addLine_call style he (fun _ => hfree) (by intro h; cases h),
          hrest ((Entry.name value).add m) hname hversion, hfree]
        rfl
      | version value =>
        have hfree : m.version = none := eq_none_of_length hversion
        rw [hfree] at hversion
        rw [addLine_call style he (by intro h; cases h) fun _ => hfree,
          hrest ((Entry.version value).add m) hname hversion, hfree]
        rfl
      | depends cookbook constraint =>
        rw [addLine_call style he (by intro h; cases h) (by intro h; cases h),
          hrest ((Entry.depends cookbook constraint).add m) hname hversion]
        simp only [Entry.add, append_assoc]
        rfl

theorem quotable_of_declares (hm : m.Writable) (h : Declares lines m) :
    ∀ l ∈ lines, ∀ e ∈ l.entry?, e.Quotable := by
  intro l hl e he
  have hmem : e ∈ entries lines := mem_filterMap.mpr ⟨l, hl, he⟩
  cases e with
  | name value =>
    have hvalue : value ∈ m.name.toList := h.name ▸ mem_filterMap.mpr ⟨_, hmem, rfl⟩
    exact ⟨hm.name value (Option.mem_toList.mp hvalue), by simp [Entry.second]⟩
  | version value =>
    have hvalue : value ∈ m.version.toList := h.version ▸ mem_filterMap.mpr ⟨_, hmem, rfl⟩
    exact ⟨hm.version value (Option.mem_toList.mp hvalue), by simp [Entry.second]⟩
  | depends cookbook constraint =>
    have hdepends : (cookbook, constraint) ∈ m.depends :=
      h.depends ▸ mem_filterMap.mpr ⟨_, hmem, rfl⟩
    exact ⟨(hm.depends _ hdepends).1, (hm.depends _ hdepends).2⟩

theorem ofScript_script (hm : m.Writable) (h : Declares lines m) : ofScript (script lines) = m := by
  have hquotable := quotable_of_declares hm h
  rw [ofScript, lines_script hquotable, foldl_addLine hquotable empty (by simp [empty, h.name])
    (by simp [empty, h.version]), h.name, h.version, h.depends]
  simp [empty]

end

/-- A text as a member; a missing one is null or left out. -/
def stated (nulls : Bool) (key : String) : Option String → Members
  | some s => [(key, .string s)]
  | none => if nulls then [(key, .null)] else []

/-- The dependencies as members, with null for a missing constraint. -/
def dependencies (m : Metadata) : Members := m.depends.map fun d => (d.1, .ofOption .string d.2)

def members (m : Metadata) (nulls : Bool) : Members :=
  stated nulls "name" m.name ++ (stated nulls "version" m.version ++ [("dependencies", .object m.dependencies)])

def json (m : Metadata) (nulls : Bool) : List Char :=
  (Json.compact (.object (m.members nulls))).toList

theorem isNumberless_ofOption (c : Option String) : isNumberless (.ofOption .string c) = true := by
  cases c <;> rfl

theorem datum?_ofOption (depth : Nat) (c : Option String) :
    (Json.docOf (.ofOption .string c)).datum? depth = some (.ofOption .string c) := by
  cases c <;> rfl

theorem membersDatum?_dependencies (depth : Nat) (ds : List (String × Option String)) :
    membersDatum? depth (docMembers (ds.map fun d => (d.1, .ofOption .string d.2))) =
      some (ds.map fun d => (d.1, .ofOption .string d.2)) := by
  induction ds with
  | nil => rfl
  | cons d ds ih => simp [docMembers, membersDatum?, StringText.text?, datum?_ofOption, ih]

theorem decodeMembers_dependencies (h : (m.depends.map Prod.fst).Nodup) (depth : Nat) :
    decodeMembers (depth + 1) (Json.docOf (.object m.dependencies)) = some m.dependencies := by
  have hkeys : (Members.keys ([] ++ m.dependencies)).Nodup := by
    simpa [dependencies, Members.keys, Function.comp_def] using h
  have hpairs : Members.ofPairs m.dependencies = m.dependencies := Members.foldl_insert hkeys
  have hdatum : (Doc.object (docMembers m.dependencies)).datum? (depth + 1) =
      some (.object m.dependencies) := by
    rw [Doc.datum?, if_neg (Nat.succ_ne_zero depth), dependencies, membersDatum?_dependencies]
    exact congrArg (fun ms => some (Datum.object ms)) hpairs
  rw [Json.docOf, decodeMembers, hdatum]
  rfl

theorem isNumberless_members (m : Metadata) (nulls : Bool) :
    isNumberless (.object (m.members nulls)) = true := by
  have hstated : ∀ (key : String) (o : Option String),
      (stated nulls key o).all (fun p => isNumberless p.2) = true := by
    intro key o
    cases o <;> cases nulls <;> rfl
  simp [members, isNumberless, hasNumberless_eq_all, hstated, dependencies, isNumberless_ofOption]

theorem keys_stated (nulls : Bool) (key : String) (o : Option String) :
    (stated nulls key o).keys.Sublist [key] := by
  cases o <;> cases nulls <;> simp [stated, Members.keys]

theorem get?_stated_append (nulls : Bool) {key other : String} (hne : other ≠ key)
    (o : Option String) (rest : Members) :
    Members.get? (stated nulls other o ++ rest) key = rest.get? key := by
  cases o <;> cases nulls <;> simp [stated, Members.get?, hne]

/-- A text is read from the member of its name; a missing one has none. -/
theorem optional_stated {fields : Fields} {i : Nat} (nulls : Bool) {key : String}
    (o : Option String) {rest : Members} (hrest : rest.get? key = none)
    (hget : fields.get i = (Members.get? (stated nulls key o ++ rest) key).map Json.docOf) :
    fields.optional i Decoder.string = some o := by
  rw [Fields.optional, Fields.withDefault, hget]
  cases o with
  | some s =>
    simp [stated, Members.get?, Json.docOf, Decoder.nullable, Decoder.string, StringText.text?]
  | none => cases nulls <;> simp [stated, Members.get?, hrest, Json.docOf, Decoder.nullable]

theorem decode_members (h : (m.depends.map Prod.fst).Nodup) (nulls : Bool) (depth : Nat) :
    decode (depth + 2) (Json.docOf (.object (m.members nulls))) = some m := by
  let last : Members := [("dependencies", .object m.dependencies)]
  let fields : Fields := ⟨depth + 1,
    fieldNames.map fun name => ((m.members nulls).get? name).map Json.docOf⟩
  have hkeys : (m.members nulls).keys.Nodup := by
    have hsublist : (m.members nulls).keys.Sublist ["name", "version", "dependencies"] := by
      rw [members, Members.keys, map_append, map_append]
      exact (keys_stated nulls "name" m.name).append
        ((keys_stated nulls "version" m.version).append (List.Sublist.refl _))
    exact List.Nodup.sublist hsublist (by decide)
  have hget : ∀ {i : Nat} {name : String}, fieldNames[i]? = some name →
      fields.get i = ((m.members nulls).get? name).map Json.docOf := fun hi => Fields.get_map hi _ _
  have hname : fields.optional 0 Decoder.string = some m.name := by
    refine optional_stated nulls m.name ?_ (hget rfl)
    rw [get?_stated_append nulls (by decide)]
    rfl
  have hversion : fields.optional 1 Decoder.string = some m.version := by
    have hfield : fields.get 1 = (Members.get? (stated nulls "version" m.version ++ last)
        "version").map Json.docOf := by
      rw [hget rfl, members, get?_stated_append nulls (by decide)]
    exact optional_stated nulls m.version rfl hfield
  have hdependencies : fields.withDefault 2 [] decodeMembers = some m.dependencies := by
    have hlast : fields.get 2 = some (Json.docOf (.object m.dependencies)) := by
      rw [hget rfl, members, get?_stated_append nulls (by decide), get?_stated_append nulls (by decide)]
      rfl
    rw [Fields.withDefault, hlast]
    exact decodeMembers_dependencies h depth
  have hdepends : m.dependencies.map (fun p => (p.1, p.2.string?)) = m.depends := by
    have hsame : ∀ d : String × Option String, (d.1, (Datum.ofOption .string d.2).string?) = d := by
      rintro ⟨cookbook, constraint⟩
      cases constraint <;> rfl
    rw [dependencies, map_map]
    exact (map_congr_left fun d _ => hsame d).trans (map_id _)
  have hrecord : Json.record? fieldNames (depth + 2) (Json.docOf (.object (m.members nulls))) =
      some fields :=
    record?_docOf hkeys _ _
  rw [decode, hrecord]
  simp only [Option.bind_eq_bind, Option.bind_some, hname, hversion, hdependencies, hdepends]
  rfl

/-- Metadata that is written as lines of calls, in any order and with comments between them, and as
a JSON object is read back from both. -/
theorem readers_agree {m : Metadata} (hm : m.Writable) {lines : List Line} (h : Declares lines m)
    (nulls : Bool) : ofScript (script lines) = m ∧ ofJson? (m.json nulls) = some m := by
  refine ⟨ofScript_script hm h, ?_⟩
  rw [ofJson?, Json.decode?, json, readDoc?_compact (m.isNumberless_members nulls)]
  exact decode_members hm.nodup nulls 125

/-- Parentheses, commas, a number sign and the words of calls in texts. -/
def tangled : Metadata :=
  ⟨some "depends(name)", some "1.0, # 2", [("version", some ">= 1, < 2"), ("name (x)", none)]⟩

def spaces (count : Nat) : Blanks :=
  ⟨List.replicate count ' ', fun c hc => by rw [eq_of_mem_replicate hc]; decide⟩

def bareStyle : Style := ⟨spaces 0, spaces 1, none, spaces 0, spaces 1, '\'', rfl⟩

def parenStyle : Style := ⟨spaces 2, spaces 0, some (spaces 1), spaces 1, spaces 0, '"', rfl⟩

/-- The dependencies stand around the version, and the name comes last, behind a comment. -/
def tangledLines : List Line :=
  [.call parenStyle (.depends "version" (some ">= 1, < 2")), .call bareStyle (.version "1.0, # 2"),
    .call bareStyle (.depends "name (x)" none), .comment (spaces 1) "name 'x'".toList (by decide),
    .call bareStyle (.name "depends(name)")]

theorem writable_tangled : tangled.Writable where
  name := by simp [tangled]; decide
  version := by simp [tangled]; decide
  depends := by simp [tangled]; decide
  nodup := by decide

theorem tangled_readers : tangled.Writable ∧ Declares tangledLines tangled ∧
    ofScript ("  depends( \"version\" ,\">= 1, < 2\")\nversion '1.0, # 2'\ndepends 'name (x)'\n".toList ++
      " #name 'x'\nname 'depends(name)'\n".toList) = tangled ∧
    ofJson? ("\x7b\"name\":\"depends(name)\",\"version\":\"1.0, # 2\",".toList ++
      "\"dependencies\":\x7b\"version\":\">= 1, < 2\",\"name (x)\":null\x7d\x7d".toList) =
      some tangled := by
  have hdeclares : Declares tangledLines tangled := ⟨rfl, rfl, rfl⟩
  obtain ⟨hscript, hjson⟩ := readers_agree writable_tangled hdeclares false
  exact ⟨writable_tangled, hdeclares, hscript, hjson⟩

end CookbookAtlas.Metadata
