import CookbookAtlas.Proofs.Token.Spelling
import Mathlib.Data.List.TakeWhile

/-! What the text of a lexeme is. A lexeme that leaves a token is spelled as its kind says; any
other is a blank, a joined line, a comment or the rest of the text behind its end mark. No lexeme
reaches past the end of the text. -/
namespace CookbookAtlas.Token

open List Lexeme
variable {c : Char} {kind : Kind} {cs : List Char} {width : Nat}

def Kind.isString : Kind → Bool
  | .string _ _ => true
  | _ => false

def Kind.mark : Kind → List Char
  | .leftParen => ['(']
  | .rightParen => [')']
  | .leftBracket => ['[']
  | .rightBracket => [']']
  | .leftBrace => ['\x7b']
  | .rightBrace => ['\x7d']
  | .comma => [',']
  | .dot => ['.']
  | .safeNavigation => ['&', '.']
  | .doubleColon => [':', ':']
  | .pipe => ['|']
  | .semicolon => [';']
  | .newline => ['\n']
  | .fatArrow => ['=', '>']
  | .assign => ['=']
  | _ => []

def stringMarks : List Char := ['"', Char.ofNat 96, '\'', '%', '<']

/-- The texts of a kind. Of a literal only the first characters are told. -/
def Kind.Spells : Kind → List Char → Prop
  | .ident name, text | .constant name, text => text = name.toList
  | .number digits, text => text = digits.toList
  | .op sign, text | .opAssign sign, text => text = sign.toList
  | .label name, text => text = name.toList ++ [':']
  | .symbol name, text => text = ':' :: name.toList ∨ [':', '"'] <+: text ∨ [':', '\''] <+: text
  | .string _ _, text => ∃ mark ∈ stringMarks, [mark] <+: text
  | .words _, text => ['%'] <+: text
  | .regex _, text => ['/'] <+: text ∨ ['%'] <+: text
  | kind, text => text = kind.mark

def Heredoc.SpelledBy (h : Heredoc) (text : List Char) : Prop :=
  ∃ flag mark close, text = ['<', '<'] ++ flag ++ mark ++ h.terminator ++ close ∧
    flag ∈ [[], ['~'], ['-']] ∧ h.squiggly = (flag == ['~']) ∧ h.dash = (flag == ['-']) ∧
    mark ∈ [[], ['\''], ['"']] ∧ h.raw = (mark == ['\'']) ∧ (close = [] ∨ close = mark) ∧
    ∀ c ∈ h.terminator, isWordChar c = true

/-- The heredoc that a token at `start` opens, none if it opens none. -/
def Opens (kind : Kind) (start : Nat) (text : List Char) : Option Heredoc → Prop
  | some h => kind.isString = true ∧ h.start = start ∧ h.SpelledBy text
  | none => ¬(kind.isString = true ∧ ['<', '<'] <+: text)

/-- A lexeme at the start of `c :: cs` that leaves a token of the given kind. -/
structure Lexeme.Tells (l : Lexeme) (start : Nat) (c : Char) (cs : List Char) (kind : Kind) :
    Prop where
  kind_eq : l.kind = some kind
  width_le : l.width ≤ cs.length
  spells : kind.Spells (c :: cs.take l.width)
  opens : Opens kind start (c :: cs.take l.width) l.heredoc

section
variable {start : Nat} {c : Char} {cs : List Char}

theorem cons_take_of_prefix (text : List Char) (htext : text <+: c :: cs)
    (hlength : text.length = width + 1) : c :: cs.take width = text ∧ width ≤ cs.length := by
  have htake := List.prefix_iff_eq_take.mp htext
  have hle := htext.length_le
  rw [hlength, List.take_succ_cons] at htake
  rw [hlength, List.length_cons] at hle
  exact ⟨htake.symm, by omega⟩

theorem not_opens_of_ne {text : List Char} (hc : c ≠ '<') : Opens kind start (c :: text) none := by
  rintro ⟨-, hmarks⟩
  exact hc (List.cons_prefix_cons.mp hmarks).1.symm

theorem Lexeme.tells_token (text : List Char) (htext : text <+: c :: cs)
    (hlength : text.length = width + 1)
    (hspells : kind.Spells text) (hstring : kind.isString = true → c ≠ '<') :
    (Lexeme.token kind width).Tells start c cs kind := by
  obtain ⟨htake, hwidth⟩ := cons_take_of_prefix text htext hlength
  refine ⟨rfl, hwidth, ?_, ?_⟩
  · exact htake.symm ▸ hspells
  · by_cases hkind : kind.isString = true
    · exact not_opens_of_ne (hstring hkind)
    · exact fun h => hkind h.1

theorem Lexeme.tells_literal (hwidth : width ≤ cs.length)
    (hspells : ∀ text, kind.Spells (c :: text)) (hc : c ≠ '<') :
    (Lexeme.token kind width).Tells start c cs kind :=
  ⟨rfl, hwidth, hspells _, not_opens_of_ne hc⟩

end

theorem append_starts {xs ys : List Char} (hxs : xs <+: cs) (hys : ys <+: cs.drop xs.length) :
    xs ++ ys <+: cs := by
  have hcs := List.prefix_iff_eq_append.mp hxs
  rw [← hcs]
  exact (List.prefix_append_right_inj xs).mpr hys

theorem wordSigil_starts (cs : List Char) : wordSigil cs <+: cs := by
  match cs with
  | [] => exact List.nil_prefix
  | [c] =>
    rw [wordSigil]
    split
    · exact List.prefix_refl _
    · exact List.nil_prefix
  | c :: d :: cs =>
    rw [wordSigil]
    split
    · split
      · exact ⟨cs, rfl⟩
      · exact ⟨d :: cs, rfl⟩
    · exact List.nil_prefix

theorem wordMark_starts (cs : List Char) : wordMark cs <+: cs := by
  cases cs with
  | nil => exact List.nil_prefix
  | cons c cs =>
    have hone : [c] <+: c :: cs := ⟨cs, rfl⟩
    rw [wordMark]
    repeat' split
    all_goals first | exact hone | exact List.nil_prefix

theorem readWord_starts (cs : List Char) : readWord cs <+: cs := by
  have hsigil := wordSigil_starts cs
  have hbody : wordSigil cs ++ (cs.drop (wordSigil cs).length).takeWhile isWordChar <+: cs :=
    append_starts hsigil (List.takeWhile_prefix _)
  rw [readWord]
  refine append_starts hbody ?_
  rw [List.length_append, ← List.drop_drop]
  exact wordMark_starts _

def startsWord (c : Char) : Bool := Text.isAlphabetic c || c == '_' || c == '@' || c == '$'

theorem readWord_ne_nil (hc : startsWord c = true) (cs : List Char) : readWord (c :: cs) ≠ [] := by
  have hsigil : c = '@' ∨ c = '$' → wordSigil (c :: cs) ≠ [] := by
    intro hc
    cases cs with
    | nil => simp [wordSigil, hc]
    | cons d cs =>
      rw [wordSigil, if_pos hc]
      split <;> simp
  by_cases hmark : c = '@' ∨ c = '$'
  · rw [readWord]
    simp [hsigil hmark]
  · obtain ⟨hat, hdollar⟩ := not_or.mp hmark
    have hword : isWordChar c = true := by
      simp only [startsWord, Bool.or_eq_true, beq_iff_eq, hat, hdollar, or_false] at hc
      rcases hc with hc | rfl
      · simp [isWordChar, isAlphanumeric_of_isAlphabetic hc]
      · rfl
    have hnone : wordSigil (c :: cs) = [] := by
      cases cs <;> simp [wordSigil, hat, hdollar]
    rw [readWord]
    simp [hnone, hword]

theorem readNumber_starts (cs : List Char) : readNumber cs <+: cs := by
  fun_induction readNumber cs with
  | case1 => exact List.nil_prefix
  | case2 c cs hc ih => exact List.cons_prefix_cons.mpr ⟨rfl, ih⟩
  | case3 c cs hc => exact List.nil_prefix

section
variable (start : Nat)

theorem readName_tells (hc : startsWord c = true) (cs : List Char) :
    ∃ kind, (readName (c :: cs)).Tells start c cs kind := by
  have hstarts := readWord_starts (c :: cs)
  have hpos : 0 < (readWord (c :: cs)).length := List.length_pos_iff.mpr (readWord_ne_nil hc cs)
  have hlength : (readWord (c :: cs)).length = (readWord (c :: cs)).length - 1 + 1 := by omega
  rw [readName]
  split
  · rename_i hcolon
    refine ⟨_, tells_token (readWord (c :: cs) ++ [':']) ?_ (by simp) ?_ (by simp [Kind.isString])⟩
    · refine append_starts hstarts ?_
      obtain ⟨more, hmore⟩ := List.head?_eq_some_iff.mp hcolon.1
      exact ⟨more, hmore.symm⟩
    · simp [Kind.Spells]
  · split
    · exact ⟨_, tells_token _ hstarts hlength (by simp [Kind.Spells]) (by simp [Kind.isString])⟩
    · exact ⟨_, tells_token _ hstarts hlength (by simp [Kind.Spells]) (by simp [Kind.isString])⟩

theorem readNumber_tells (hc : Text.isAsciiDigit c = true) (cs : List Char) :
    (Lexeme.token (.number (String.ofList (readNumber (c :: cs))))
    ((readNumber (c :: cs)).length - 1)).Tells start c cs
      (.number (String.ofList (readNumber (c :: cs)))) := by
  have hhead : readNumber (c :: cs) = c :: readNumber cs := by
    simp [readNumber, Text.isAsciiAlphanumeric, hc]
  refine tells_token _ (readNumber_starts (c :: cs)) ?_ (by simp [Kind.Spells])
    (by simp [Kind.isString])
  rw [hhead, List.length_cons, Nat.add_sub_cancel]

theorem operators_pos : ∀ op ∈ operators, 0 < op.length := by decide +kernel

theorem operatorKind_spells (op : String) :
    (operatorKind op).Spells op.toList ∧ (operatorKind op).isString = false := by
  rw [operatorKind]
  split <;> exact ⟨rfl, rfl⟩

theorem readOperator_tells (c : Char) (cs : List Char) :
    ∃ kind, (readOperator c cs).Tells start c cs kind := by
  rw [readOperator]
  split
  · rename_i op hfind
    have htest : op.toList.isPrefixOf (c :: cs) = true := by simpa using List.find?_some hfind
    have hstarts : op.toList <+: c :: cs := List.isPrefixOf_iff_prefix.mp htest
    have hpos := operators_pos op (List.mem_of_find?_eq_some hfind)
    obtain ⟨hspells, hstring⟩ := operatorKind_spells op
    refine ⟨_, tells_token _ hstarts ?_ hspells (by simp [hstring])⟩
    rw [String.length_toList]
    omega
  · exact ⟨_, tells_token [c] ⟨cs, rfl⟩ rfl (by simp [Kind.Spells]) (by simp [Kind.isString])⟩

theorem bracketKind_spells (h : bracketKind? c = some kind) :
    kind.Spells [c] ∧ kind.isString = false := by
  simp only [bracketKind?] at h
  split at h
  all_goals first | cases h; exact ⟨rfl, rfl⟩ | cases h

theorem cons_prefix_of_head {d : Char} (h : cs.head? = some d) : [c, d] <+: c :: cs := by
  obtain ⟨rest, rfl⟩ := List.head?_eq_some_iff.mp h
  exact ⟨rest, rfl⟩

theorem readPunctuation_tells (c : Char) (cs : List Char) :
    ∃ kind, (readPunctuation c cs).Tells start c cs kind := by
  have hone : [c] <+: c :: cs := ⟨cs, rfl⟩
  rw [readPunctuation]
  split
  · rename_i kind hkind
    obtain ⟨hspells, hstring⟩ := bracketKind_spells hkind
    exact ⟨kind, tells_token _ hone rfl hspells (by simp [hstring])⟩
  · dsimp only
    split
    · rename_i h
      exact ⟨_, tells_token _ (cons_prefix_of_head h.2) rfl (by rw [h.1]; rfl) (by simp [Kind.isString])⟩
    split
    · rename_i h
      exact ⟨_, tells_token _ hone rfl (by rw [h.1]; rfl) (by simp [Kind.isString])⟩
    split
    · rename_i h
      exact ⟨_, tells_token _ (cons_prefix_of_head h.2) rfl (by rw [h.1]; rfl) (by simp [Kind.isString])⟩
    split
    · rename_i h
      exact ⟨_, tells_token _ hone rfl (by rw [h.1]; rfl) (by simp [Kind.isString])⟩
    split
    · rename_i h
      exact ⟨_, tells_token _ hone rfl (by rw [h.1]; rfl) (by simp [Kind.isString])⟩
    · exact readOperator_tells start c cs

theorem readBody_width (d : Delimiters) (b : Body) (zone : Zone) (cs : List Char) :
    (readBody d b zone cs).width ≤ b.width + cs.length := by
  fun_induction readBody d b zone cs <;>
    simp only [Body.push, Body.skip, Body.pushEscape, Body.interpolate, List.length_cons,
      List.length_nil] at * <;> omega

theorem readDelimited_width (d : Delimiters) (cs : List Char) :
    (readDelimited d cs).width ≤ cs.length := by
  have h := readBody_width d Body.empty (.text 0) cs
  rwa [show Body.empty.width = 0 from rfl, Nat.zero_add] at h

theorem readQuoted_width (mark : Char) (escapes : Bool) (cs : List Char) :
    (readQuoted mark escapes cs).width ≤ cs.length :=
  readDelimited_width _ cs

theorem flagsWidth_le (cs : List Char) : flagsWidth cs ≤ cs.length :=
  (List.takeWhile_prefix _).length_le

theorem width_flags_le (h : width ≤ cs.length) :
    width + flagsWidth (cs.drop width) ≤ cs.length := by
  have hflags := flagsWidth_le (cs.drop width)
  rw [List.length_drop] at hflags
  omega

theorem readPercentBody_tells (letter mark : Char) {before : Nat} {rest : List Char}
    (hlength : cs.length = before + rest.length) :
    ∃ kind, (readPercentBody letter mark before rest).Tells start '%' cs kind := by
  rw [readPercentBody]
  generalize hbody : readDelimited _ rest = body
  have hwidth : body.width ≤ rest.length := hbody ▸ readDelimited_width _ rest
  have hflags := width_flags_le hwidth
  split
  · exact ⟨_, tells_literal (by omega) (fun text => .inr ⟨text, rfl⟩) (by decide)⟩
  split
  · exact ⟨_, tells_literal (by omega) (fun text => ⟨'%', by decide, text, rfl⟩) (by decide)⟩
  · exact ⟨_, tells_literal (by omega) (fun text => ⟨text, rfl⟩) (by decide)⟩

theorem readPercent_tells (cs : List Char) : ∃ kind, (readPercent cs).Tells start '%' cs kind := by
  match cs with
  | [] => exact ⟨_, tells_token ['%'] ⟨[], rfl⟩ rfl rfl (by simp [Kind.isString])⟩
  | [c] => exact readPercentBody_tells start 'Q' c (Nat.add_comm _ _)
  | c :: d :: cs =>
    rw [readPercent]
    split
    · exact readPercentBody_tells start c d (Nat.add_comm cs.length 2)
    · exact readPercentBody_tells start 'Q' c (Nat.add_comm _ _)

theorem readColon_tells (cs : List Char) : ∃ kind, (readColon cs).Tells start ':' cs kind := by
  cases cs with
  | nil => exact readOperator_tells start ':' []
  | cons c cs =>
    rw [readColon]
    split
    · rename_i hc
      exact ⟨_, tells_token [':', ':'] ⟨cs, by rw [hc]; rfl⟩ rfl rfl (by simp [Kind.isString])⟩
    split
    · rename_i hmark
      have hwidth := readQuoted_width c (c == '"') cs
      refine ⟨_, rfl, ?_, ?_, not_opens_of_ne (by decide)⟩
      · simp only [Lexeme.token, length_cons]
        omega
      · simp only [Lexeme.token, Nat.add_comm 1, take_succ_cons]
        rcases hmark with rfl | rfl
        · exact .inr (.inl ⟨_, rfl⟩)
        · exact .inr (.inr ⟨_, rfl⟩)
    split
    · have hword := readWord_starts (c :: cs)
      have htext : ':' :: readWord (c :: cs) <+: ':' :: c :: cs := cons_prefix_cons.mpr ⟨rfl, hword⟩
      exact ⟨_, tells_token _ htext rfl (.inl (by simp)) (by simp [Kind.isString])⟩
    · exact readOperator_tells start ':' (c :: cs)

theorem heredocFlag_cases (cs : List Char) :
    heredocFlag cs ∈ [[], ['~'], ['-']] ∧ heredocFlag cs <+: cs := by
  cases cs with
  | nil => exact ⟨by simp [heredocFlag], nil_prefix⟩
  | cons c cs =>
    rw [heredocFlag]
    split
    · rename_i hc
      exact ⟨by rcases hc with rfl | rfl <;> simp, ⟨cs, rfl⟩⟩
    · exact ⟨by simp, nil_prefix⟩

theorem heredocMark_cases (cs : List Char) :
    heredocMark cs ∈ [[], ['\''], ['"']] ∧ heredocMark cs <+: cs := by
  cases cs with
  | nil => exact ⟨by simp [heredocMark], List.nil_prefix⟩
  | cons c cs =>
    rw [heredocMark]
    split
    · rename_i hc
      exact ⟨by rcases hc with rfl | rfl <;> simp, ⟨cs, rfl⟩⟩
    · exact ⟨by simp, List.nil_prefix⟩

/-- The opener of a heredoc reads `<<`, a flag, a mark, the terminator and the mark again. -/
theorem readHeredoc_tells (cs : List Char) :
    (readHeredoc start cs).Tells start '<' ('<' :: cs) (.string "" false) := by
  obtain ⟨hflag, hflagStarts⟩ := heredocFlag_cases cs
  obtain ⟨hmark, hmarkStarts⟩ := heredocMark_cases (cs.drop (heredocFlag cs).length)
  rw [readHeredoc]
  generalize heredocFlag cs = flag at *
  generalize heredocMark (cs.drop flag.length) = mark at *
  generalize hterminator : ((cs.drop flag.length).drop mark.length).takeWhile isWordChar =
    terminator
  have hword : ∀ c ∈ terminator, isWordChar c = true := by
    subst hterminator
    exact fun c hc => List.mem_takeWhile_imp hc
  have hname : flag ++ mark ++ terminator <+: cs := by
    refine append_starts (append_starts hflagStarts hmarkStarts) ?_
    rw [List.length_append, ← List.drop_drop, ← hterminator]
    exact List.takeWhile_prefix _
  obtain ⟨close, hclose, hlength, hcs⟩ : ∃ close, (close = [] ∨ close = mark) ∧
      close.length = (if (!mark.isEmpty &&
      (((cs.drop flag.length).drop mark.length).drop terminator.length).head? ==
        mark.head?) = true then 1 else 0) ∧ flag ++ mark ++ terminator ++ close <+: cs := by
    split
    · rename_i hclosed
      simp only [Bool.and_eq_true, beq_iff_eq] at hclosed
      have hone : ∃ c, mark = [c] := by
        simp only [List.mem_cons, List.not_mem_nil, or_false] at hmark
        rcases hmark with rfl | rfl | rfl
        · exact absurd hclosed.1 (by decide)
        · exact ⟨_, rfl⟩
        · exact ⟨_, rfl⟩
      obtain ⟨c, rfl⟩ := hone
      refine ⟨[c], .inr rfl, rfl, append_starts hname ?_⟩
      obtain ⟨more, hmore⟩ := List.head?_eq_some_iff.mp hclosed.2
      rw [List.length_append, List.length_append, ← List.drop_drop, ← List.drop_drop]
      exact ⟨more, hmore.symm⟩
    · exact ⟨[], .inl rfl, rfl, by simpa using hname⟩
  have htext : ['<', '<'] ++ flag ++ mark ++ terminator ++ close <+: '<' :: '<' :: cs := by
    simpa using hcs
  have hcount : (['<', '<'] ++ flag ++ mark ++ terminator ++ close).length =
      1 + flag.length + mark.length + terminator.length + close.length + 1 := by
    simp only [List.length_append, List.length_cons, List.length_nil]
    omega
  obtain ⟨htake, hwidth⟩ := cons_take_of_prefix _ htext hcount
  rw [hlength] at htake hwidth
  refine ⟨rfl, hwidth, ?_, ?_⟩
  · exact ⟨'<', by decide, _, rfl⟩
  · exact ⟨rfl, rfl, flag, mark, close, htake, hflag, rfl, rfl, hmark, rfl, hclose, hword⟩

end

def AtLineStart (before : List Char) : Prop := before = [] ∨ before.getLast? = some '\n'

/-- Whole lines up to and with the first one that stops, or the rest of the text if none does. -/
def LinesThrough (stops : List Char → Bool) (text after : List Char) : Prop :=
  ∃ (lines : List (List Char)) (last : List Char), text = lines.flatMap (· ++ ['\n']) ++ last ∧
    (∀ line ∈ lines, '\n' ∉ line ∧ stops line = false) ∧
    ((∃ line, last = line ++ ['\n'] ∧ '\n' ∉ line ∧ stops line = true) ∨ '\n' ∉ last ∧ after = [])

section
variable {stops : List Char → Bool} {line text after : List Char}

theorem LinesThrough.stop (hline : '\n' ∉ line) (hstop : stops line = true) :
    LinesThrough stops (line ++ ['\n']) after :=
  ⟨[], line ++ ['\n'], rfl, by simp, .inl ⟨line, rfl, hline, hstop⟩⟩

theorem LinesThrough.rest (hline : '\n' ∉ line) : LinesThrough stops line [] :=
  ⟨[], line, rfl, by simp, .inr ⟨hline, rfl⟩⟩

theorem LinesThrough.cons (hline : '\n' ∉ line) (hstop : stops line = false)
    (h : LinesThrough stops text after) : LinesThrough stops (line ++ '\n' :: text) after := by
  obtain ⟨lines, last, rfl, hlines, hlast⟩ := h
  refine ⟨line :: lines, last, by simp, ?_, hlast⟩
  intro other hother
  rcases List.mem_cons.mp hother with rfl | hother
  · exact ⟨hline, hstop⟩
  · exact hlines other hother

theorem LinesThrough.ne_nil (h : LinesThrough stops text (c :: cs)) : text ≠ [] := by
  rintro rfl
  obtain ⟨lines, last, htext, -, ⟨line, rfl, -⟩ | ⟨-, hafter⟩⟩ := h
  · simp at htext
  · cases hafter

theorem LinesThrough.prefix_of_append {mark : List Char} (h : LinesThrough stops text after)
    (hmark : '\n' ∉ mark) (hstarts : mark <+: text ++ after) : mark <+: text := by
  rcases List.prefix_or_prefix_of_prefix hstarts (List.prefix_append text after) with h' | h'
  · exact h'
  · have htext : '\n' ∉ text := fun hmem => hmark (h'.mem hmem)
    obtain ⟨lines, last, rfl, -, ⟨line, rfl, -⟩ | ⟨-, rfl⟩⟩ := h
    · simp at htext
    · simpa using hstarts

end

def endsComment (line : List Char) : Bool := ['=', 'e', 'n', 'd'].isPrefixOf line

theorem endsComment_line {line : List Char} (hline : '\n' ∉ line) (cs : List Char) :
    endsComment (line ++ '\n' :: cs) = endsComment line := by
  match line, hline with
  | [], _ => rfl
  | [a], h | [a, b], h | [a, b, c], h
  | a :: b :: c :: d :: line, h => simp [endsComment, List.isPrefixOf]

/-- The lines of a comment block. `line` is the open line; the two flags tell whether it is empty
and whether what was read of it shows the end mark. -/
theorem commentWidth_lines (fresh ending : Bool) (width : Nat) (line cs : List Char)
    (hline : '\n' ∉ line) (hfresh : fresh = line.isEmpty)
    (hending : ending = (!line.isEmpty && endsComment (line ++ cs))) :
    ∃ n ≤ cs.length, commentWidth fresh ending width cs = width + n ∧
      LinesThrough endsComment (line ++ cs.take n) (cs.drop n) := by
  induction cs generalizing fresh ending width line with
  | nil => exact ⟨0, Nat.le_refl _, rfl, by simpa using LinesThrough.rest hline⟩
  | cons c cs ih =>
    have hshown : (ending || (fresh && ['=', 'e', 'n', 'd'].isPrefixOf (c :: cs))) =
        endsComment (line ++ c :: cs) := by
      cases line with
      | nil => simp [hfresh, hending, endsComment]
      | cons d line => simp [hfresh, hending]
    rw [commentWidth, hshown]
    by_cases hc : c = '\n'
    · subst hc
      rw [endsComment_line hline]
      by_cases hstop : endsComment line = true
      · exact ⟨1, by simp, by simp [hstop], by simpa using LinesThrough.stop hline hstop⟩
      · rw [Bool.not_eq_true] at hstop
        obtain ⟨n, hn, hwidth, hlines⟩ := ih true false (width + 1) [] (by simp) rfl rfl
        refine ⟨n + 1, by simpa using hn, ?_, ?_⟩
        · simp [hstop, hwidth, Nat.add_assoc, Nat.add_comm 1]
        · simpa using LinesThrough.cons hline hstop hlines
    · obtain ⟨n, hn, hwidth, hlines⟩ := ih false (endsComment (line ++ c :: cs)) (width + 1) (line ++ [c])
        (by simp [hline, Ne.symm hc]) (by simp) (by simp)
      refine ⟨n + 1, by simpa using hn, ?_, ?_⟩
      · simp [hc, hwidth, Nat.add_assoc, Nat.add_comm 1]
      · simpa using hlines

/-- The lines of a heredoc's body; `line` is the open line, last character first. -/
theorem Heredoc.readLines_lines (h : Heredoc) (line : List Char) (done : List (List Char))
    (width : Nat) (cs : List Char) (hline : '\n' ∉ line) :
    ∃ n ≤ cs.length, (h.readLines line done width cs).2 = width + n ∧
      LinesThrough h.isTerminator (line.reverse ++ cs.take n) (cs.drop n) := by
  have hreverse : '\n' ∉ line.reverse := by simpa using hline
  induction cs generalizing line done width with
  | nil =>
    refine ⟨0, Nat.le_refl _, ?_, by simpa using LinesThrough.rest hreverse⟩
    rw [readLines]
    split <;> rfl
  | cons c cs ih =>
    rw [readLines]
    by_cases hc : c = '\n'
    · subst hc
      by_cases hstop : h.isTerminator line.reverse = true
      · exact ⟨1, by simp, by simp [hstop], by simpa using LinesThrough.stop hreverse hstop⟩
      · rw [Bool.not_eq_true] at hstop
        obtain ⟨n, hn, hwidth, hlines⟩ := ih [] (line.reverse :: done) (width + 1) (by simp) (by simp)
        refine ⟨n + 1, by simpa using hn, ?_, ?_⟩
        · simp [hstop, hwidth, Nat.add_assoc, Nat.add_comm 1]
        · simpa using LinesThrough.cons hreverse hstop hlines
    · obtain ⟨n, hn, hwidth, hlines⟩ := ih (c :: line) done (width + 1) (by simp [hline, Ne.symm hc])
        (by simp [hline, Ne.symm hc])
      refine ⟨n + 1, by simpa using hn, ?_, ?_⟩
      · simp [hc, hwidth, Nat.add_assoc, Nat.add_comm 1]
      · simpa using hlines

/-- Text between `before` and `after` that leaves no token: a blank, a joined line, a comment, a
comment block, or all that follows the end mark. -/
inductive Skips (before after : List Char) : List Char → Prop
  | blank {c : Char} (hc : c = ' ' ∨ c = '\t' ∨ c = '\r') : Skips before after [c]
  | joined : Skips before after ['\\', '\n']
  | comment {text : List Char} (htext : '\n' ∉ text) (hafter : after = [] ∨ after.head? = some '\n') :
    Skips before after ('#' :: text)
  | block {text : List Char} (hbefore : AtLineStart before) (hbegin : "=begin".toList <+: text)
    (hlines : LinesThrough endsComment text after) : Skips before after text
  | tail {text : List Char} (hbefore : AtLineStart before) (hend : "__END__".toList <+: text)
    (hafter : after = []) :
    Skips before after text

theorem skips_comment (before cs : List Char) :
    Skips before (cs.drop (cs.takeWhile (· != '\n')).length)
    ('#' :: cs.take (cs.takeWhile (· != '\n')).length) := by
  have hsplit := List.takeWhile_append_dropWhile (p := (· != '\n')) (l := cs)
  have htake : cs.take (cs.takeWhile (· != '\n')).length = cs.takeWhile (· != '\n') :=
    (List.prefix_iff_eq_take.mp (List.takeWhile_prefix _)).symm
  have hdrop : cs.drop (cs.takeWhile (· != '\n')).length = cs.dropWhile (· != '\n') := by
    have happend := List.prefix_iff_eq_append.mp (List.takeWhile_prefix (l := cs) (· != '\n'))
    exact List.append_cancel_left (happend.trans hsplit.symm)
  rw [htake, hdrop]
  refine .comment ?_ ?_
  · intro hmem
    simpa using List.mem_takeWhile_imp hmem
  · cases hrest : cs.dropWhile (· != '\n') with
    | nil => exact .inl rfl
    | cons c rest =>
      have hc := List.head?_dropWhile_not (· != '\n') cs
      rw [hrest] at hc
      exact .inr (by simpa using hc)

section
variable (last : Option Kind) (fresh : Bool) (start : Nat) (c : Char) (cs : List Char)

theorem skips_block {before : List Char} (hbefore : AtLineStart before)
    (hbegin : "=begin".toList.isPrefixOf (c :: cs) = true) :
    ∃ width ≤ cs.length, commentWidth true false 0 (c :: cs) - 1 = width ∧
      Skips before (cs.drop width) (c :: cs.take width) := by
  have hstarts : "=begin".toList <+: c :: cs := isPrefixOf_iff_prefix.mp hbegin
  obtain ⟨n, hn, hwidth, hlines⟩ := commentWidth_lines true false 0 [] (c :: cs) (by simp) rfl rfl
  rw [nil_append] at hlines
  cases n with
  | zero => exact absurd rfl hlines.ne_nil
  | succ width =>
    rw [length_cons] at hn
    refine ⟨width, Nat.le_of_succ_le_succ hn, by rw [hwidth]; omega, .block hbefore ?_ hlines⟩
    exact hlines.prefix_of_append (by decide) (by rwa [take_append_drop])

theorem mem_stringMarks_of_isRichMark {c : Char} (hc : isRichMark c = true) :
    c ∈ stringMarks ∧ c ≠ '<' := by
  simp only [isRichMark, Bool.or_eq_true, beq_iff_eq] at hc
  rcases hc with rfl | hc
  · decide
  · have : c = Char.ofNat 96 := by rw [← hc, Char.ofNat_toNat]
    subst this
    decide

/-- A lexeme is a token spelled as its kind says, or text that leaves no token. -/
def Lexeme.Accounted (before : List Char) (l : Lexeme) : Prop :=
  (∃ kind, l.Tells start c cs kind) ∨
    ∃ width ≤ cs.length, l = .skip width ∧ Skips before (cs.drop width) (c :: cs.take width)

theorem readLexeme_cases {before : List Char} (hfresh : fresh = true → AtLineStart before) :
    (readLexeme last fresh start c cs).Accounted start c cs before := by
  rw [readLexeme]
  refine iteInduction (fun hblock => .inr ?block) fun _ =>
    iteInduction (fun htail => .inr ?tail) fun _ =>
    iteInduction (fun hblank => .inr ⟨0, Nat.zero_le _, rfl, .blank hblank⟩) fun _ =>
    iteInduction (fun hjoined => .inr ?joined) fun _ =>
    iteInduction (fun hnewline => .inl ?newline) fun _ =>
    iteInduction (fun hcomment => .inr ?comment) fun _ =>
    iteInduction (fun hrich => .inl ?rich) fun _ =>
    iteInduction (fun hplain => .inl ?plain) fun _ =>
    iteInduction (fun hpercent => .inl (hpercent.1 ▸ readPercent_tells start cs)) fun _ =>
    iteInduction (fun hheredoc => .inl ?heredoc) fun _ =>
    iteInduction (fun hregex => .inl ?regex) fun _ =>
    iteInduction (fun hcolon => .inl (hcolon ▸ readColon_tells start cs)) fun _ =>
    iteInduction (fun hdigit => .inl ⟨_, readNumber_tells start hdigit cs⟩) fun _ =>
    iteInduction (fun hword => .inl (readName_tells start hword cs)) fun _ =>
      .inl (readPunctuation_tells start c cs)
  case block =>
    obtain ⟨hline, hbegin⟩ := Bool.and_eq_true_iff.mp hblock
    obtain ⟨width, hwidth, rfl, hskips⟩ := skips_block c cs (hfresh hline) hbegin
    exact ⟨_, hwidth, rfl, hskips⟩
  case tail =>
    obtain ⟨hline, hend⟩ := Bool.and_eq_true_iff.mp htail
    refine ⟨_, Nat.le_refl _, rfl, .tail (hfresh hline) ?_ drop_length⟩
    rw [take_length]
    exact isPrefixOf_iff_prefix.mp hend
  case joined =>
    obtain ⟨rfl, hnext⟩ := hjoined
    obtain ⟨rest, rfl⟩ := List.head?_eq_some_iff.mp hnext
    exact ⟨1, by simp, rfl, .joined⟩
  case newline =>
    exact ⟨_, tells_token [c] ⟨cs, rfl⟩ rfl (by rw [hnewline]; rfl) (by simp [Kind.isString])⟩
  case comment =>
    subst hcomment
    exact ⟨_, (List.takeWhile_prefix _).length_le, rfl, skips_comment before cs⟩
  case rich =>
    obtain ⟨hmark, hother⟩ := mem_stringMarks_of_isRichMark hrich
    exact ⟨_, tells_literal (readQuoted_width _ _ cs) (fun text => ⟨c, hmark, text, rfl⟩) hother⟩
  case plain =>
    subst hplain
    exact ⟨_, tells_literal (readQuoted_width _ _ cs) (fun text => ⟨'\'', by decide, text, rfl⟩) (by decide)⟩
  case heredoc =>
    obtain ⟨rfl, hnext, -⟩ := hheredoc
    obtain ⟨rest, rfl⟩ := List.head?_eq_some_iff.mp hnext
    exact ⟨_, readHeredoc_tells start rest⟩
  case regex =>
    have hwidth := width_flags_le (readQuoted_width '/' true cs)
    exact hregex.1 ▸ ⟨_, tells_literal hwidth (fun text => .inl ⟨text, rfl⟩) (by decide)⟩

end
end CookbookAtlas.Token
