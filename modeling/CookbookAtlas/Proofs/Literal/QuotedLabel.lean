import CookbookAtlas.Proofs.Literal.Grammar
import CookbookAtlas.Proofs.Token.Closing
import CookbookAtlas.Proofs.Token.Displacement

/-! A hash with one quoted key, written with an arrow and blanks or with a colon and none. The colon
is the mark of the key only if the value's first character does not claim it: before a quotation
mark, a letter or an underscore it opens a symbol, and before a colon it is half of a double one.
Otherwise both spellings have the same value. -/
namespace CookbookAtlas
namespace Token

/-- Text between the marks of a single-quoted string: a quotation mark in it has a backslash before
it, and no backslash stands alone. -/
def isQuotedBody : List Char → Bool
  | [] => true
  | '\\' :: _ :: cs => isQuotedBody cs
  | c :: cs => c != '\\' && c != '\'' && isQuotedBody cs

/-- Characters that a colon before them is read together with. -/
def joinsColon (c : Char) : Bool :=
  c == ':' || c == '"' || c == '\'' || Text.isAlphabetic c || c == '_'

theorem readBody_isQuotedBody {body : List Char} (h : isQuotedBody body = true) (b : Body) :
    ∃ read : Body, read.width = b.width + (body.length + 1) ∧
      ∀ rest, readBody ⟨none, '\'', false⟩ b (.text 0) (body ++ '\'' :: rest) = read := by
  fun_induction isQuotedBody body generalizing b with
  | case1 =>
    refine ⟨b.skip, rfl, fun rest => ?_⟩
    rw [List.nil_append, readBody.eq_def]
    simp
  | case2 e cs ih =>
    obtain ⟨read, hwidth, hread⟩ := ih h (b.pushEscape (Delimiters.unescape ⟨none, '\'', false⟩ e))
    refine ⟨read, ?_, fun rest => ?_⟩
    · simp only [hwidth, Body.pushEscape, List.length_cons]
      omega
    · rw [← hread rest]
      rfl
  | case3 c cs _ ih =>
    simp only [Bool.and_eq_true, bne_iff_ne] at h
    obtain ⟨⟨hback, hquote⟩, hbody⟩ := h
    obtain ⟨read, hwidth, hread⟩ := ih hbody (b.push c)
    refine ⟨read, ?_, fun rest => ?_⟩
    · simp only [hwidth, Body.push, List.length_cons]
      omega
    · rw [← hread rest, List.cons_append, readBody.eq_def]
      simp [hback, hquote]

theorem readLexeme_colon (last : Option Kind) (fresh : Bool) (start : Nat) (cs : List Char) :
    readLexeme last fresh start ':' cs = readColon cs := by
  cases fresh <;> rfl

namespace Piece

/-- A single-quoted string as it is written, with the value that it is read as. -/
def single (body : List Char) (value : String) : Piece :=
  ⟨'\'' :: (body ++ ['\'']), some (.string value false)⟩

theorem reads_single {body : List Char} (h : isQuotedBody body = true) :
    ∃ value, ∀ rest, (single body value).Reads rest := by
  obtain ⟨read, hwidth, hread⟩ := readBody_isQuotedBody h Body.empty
  refine ⟨String.ofList read.value, fun rest => ⟨'\'', body ++ ['\''], rfl, fun last fresh start => ?_⟩⟩
  have hlexeme : readLexeme last fresh start '\'' (body ++ '\'' :: rest) =
      .token (.string (String.ofList (readQuoted '\'' false (body ++ '\'' :: rest)).value) false)
        (readQuoted '\'' false (body ++ '\'' :: rest)).width := by
    cases fresh <;> rfl
  have hquoted : readQuoted '\'' false (body ++ '\'' :: rest) = read := hread rest
  rw [List.append_assoc, List.singleton_append, hlexeme, hquoted, hwidth]
  simp [Lexeme.token, single, Body.empty]

def colon : Piece := mark ':' (.op ":")

theorem reads_colon {rest : List Char} (h : rest.head?.any joinsColon = false) :
    colon.Reads rest := by
  refine ⟨':', [], rfl, fun last fresh start => ?_⟩
  have hcolon : readColon rest = readOperator ':' rest := by
    cases rest with
    | nil => rfl
    | cons c cs =>
      simp only [joinsColon, List.head?_cons, Option.any_some, Bool.or_eq_false_iff,
        beq_eq_false_iff_ne] at h
      obtain ⟨⟨⟨⟨hcolon, hdouble⟩, hsingle⟩, hletter⟩, hunder⟩ := h
      simp [readColon, hcolon, hdouble, hsingle, hletter, hunder]
  rw [List.nil_append, readLexeme_colon, hcolon]
  rfl

/-- Before a character that it is read together with, a colon opens a token that is no mark between
a key and its value. -/
theorem reads_joined {cs : List Char} (h : cs.head?.any joinsColon = true) :
    ∃ (p : Piece) (kind : Kind) (rest : List Char), ':' :: cs = p.text ++ rest ∧ p.Reads rest ∧
    p.kind = some kind ∧
      (kind = .doubleColon ∨ ∃ name, kind = .symbol name) := by
  obtain ⟨kind, width, hread, hkind⟩ : ∃ kind width, readColon cs = .token kind width ∧
      (kind = .doubleColon ∨ ∃ name, kind = .symbol name) := by
    cases cs with
    | nil => cases h
    | cons c cs =>
      simp only [joinsColon, List.head?_cons, Option.any_some, Bool.or_eq_true, beq_iff_eq] at h
      rw [readColon]
      split
      · exact ⟨_, _, rfl, .inl rfl⟩
      split
      · exact ⟨_, _, rfl, .inr ⟨_, rfl⟩⟩
      split
      · exact ⟨_, _, rfl, .inr ⟨_, rfl⟩⟩
      · rename_i hcolon hquote hletter
        simp only [Bool.or_eq_true, beq_iff_eq] at hletter
        tauto
  have hlexeme : ∀ last fresh start, readLexeme last fresh start ':' cs = .token kind width :=
    fun last fresh start =>
    (readLexeme_colon last fresh start cs).trans hread
  have hwidth : width ≤ cs.length := by
    have htells := readLexeme_tells (k := kind) (congrArg Lexeme.kind (hlexeme none false 0))
    have hle := htells.width_le
    rwa [hlexeme] at hle
  refine ⟨⟨':' :: cs.take width, some kind⟩, kind,
    cs.drop width, by simp, ⟨':', cs.take width, rfl, fun last fresh start => ?_⟩, rfl, hkind⟩
  rw [List.take_append_drop, hlexeme, List.length_take_of_le hwidth]
  rfl

end Piece
end Token

namespace Literal

open Token

def evaluateText? (text : List Char) : Option Datum := (scan? text).bind evaluate?

theorem evaluateText?_eq (text : List Char) :
    evaluateText? text = ((scan? text).map (List.map Token.kind)).bind evaluateKinds? := by
  rw [evaluateText?, Option.bind_map]
  rfl

namespace Grammar

theorem Atom.count_brace {ks : List Kind} {v : Datum} (h : Atom ks v) :
    ks.count .leftBrace = 0 ∧ ks.count .rightBrace = 0 := by
  cases h <;> exact ⟨rfl, rfl⟩

theorem Key.count_brace {ks : List Kind} {key : String} (h : Key ks key) :
    ks.count .leftBrace = 0 ∧ ks.count .rightBrace = 0 := by
  cases h with
  | label => exact ⟨rfl, rfl⟩
  | string _ hmark | symbol _ hmark | number _ hmark => cases hmark <;> exact ⟨rfl, rfl⟩

mutual
theorem Value.balanced : ∀ {depth : Nat} {ks : List Kind} {v : Datum}, Value depth ks v →
    ks.count .leftBrace = ks.count .rightBrace
  | _, _, _, .atom _ h => h.count_brace.1.trans h.count_brace.2.symm
  | _, _, _, .array _ h | _, _, _, .hash _ h _ => by simp [h.balanced]

theorem Items.balanced :
    ∀ {depth : Nat} {ks : List Kind} {items : List Datum}, Items depth ks items →
    ks.count .leftBrace = ks.count .rightBrace
  | _, _, _, .none => rfl
  | _, _, _, .last h => h.balanced
  | _, _, _, .cons h hmore => by simp [h.balanced, hmore.balanced]

theorem Pairs.balanced : ∀ {depth : Nat} {ks : List Kind} {pairs : Members}, Pairs depth ks pairs →
    ks.count .leftBrace = ks.count .rightBrace
  | _, _, _, .none => rfl
  | _, _, _, .last hkey h => by simp [hkey.count_brace, h.balanced]
  | _, _, _, .cons hkey h hmore => by simp [hkey.count_brace, h.balanced, hmore.balanced]
end

end Grammar

theorem balanced_of_evaluateKinds? {ks : List Kind} {v : Datum} (h : evaluateKinds? ks = some v) :
    ks.count .leftBrace = ks.count .rightBrace := by
  have hbalanced := (evaluateKinds?_eq_some_iff.mp h).balanced
  rwa [List.count_filter rfl, List.count_filter rfl] at hbalanced

/-- A text means the same in the middle of a line as at the start of a source, unless it starts with
a mark that holds at the start of a line. -/
theorem scanFrom_inLine {text : List Char} (hbegin : "=begin".toList.isPrefixOf text = false)
    (hend : "__END__".toList.isPrefixOf text = false) : scanFrom Scan.inLine text = scan? text := by
  cases text with
  | nil => rw [scan?, scanFrom, scanFrom]; rfl
  | cons c cs =>
    have hlexeme : readLexeme Scan.inLine.last Scan.inLine.place.fresh Scan.inLine.place.offset c cs =
        readLexeme Scan.start.last Scan.start.place.fresh Scan.start.place.offset c cs := by
      rw [readLexeme, readLexeme, hbegin, hend]
      rfl
    have hstep : Scan.inLine.step? c cs = Scan.start.step? c cs := by
      rw [Scan.step?, Scan.step?, hlexeme]
      rfl
    rw [scan?, scanFrom_cons, scanFrom_cons, hstep]

theorem scan?_end (rest : List Char) : scan? ("__END__".toList ++ rest) = some [] := by
  have hlexeme : readLexeme Scan.start.last Scan.start.place.fresh Scan.start.place.offset '_'
      ("_END__".toList ++ rest) =
      .skip ("_END__".toList ++ rest).length := rfl
  rw [scan?, show "__END__".toList ++ rest = '_' :: ("_END__".toList ++ rest) from rfl,
    scanFrom_cons, Scan.step?_skip hlexeme, Option.bind_some, List.drop_length]
  exact scanFrom.eq_1 _

/-- The start of a skipped block is an assignment in the middle of a line. -/
theorem kinds_block {cs : List Char} {tokens : List Token}
    (h : scanFrom Scan.inLine ('=' :: 'b' :: cs) = some tokens) :
    ∃ more, tokens.map Token.kind = .assign :: more := by
  have hlexeme : readLexeme Scan.inLine.last Scan.inLine.place.fresh Scan.inLine.place.offset '='
      ('b' :: cs) = .token .assign 0 := rfl
  rw [scanFrom_cons, Scan.step?_token hlexeme rfl nofun, Option.bind_some] at h
  refine Scan.kinds_kept (fun t ht => ?_) h
  obtain rfl := List.mem_singleton.mp ht
  exact Nat.zero_lt_one

def spacedHash (key text : List Char) : List Char :=
  ['\x7b', ' ', '\''] ++ key ++ ['\'', ' ', '=', '>', ' '] ++ text ++ spacedBrace

def tightHash (key text : List Char) : List Char :=
  ['\x7b', '\''] ++ key ++ ['\'', ':'] ++ text ++ tightBrace

theorem evaluateText?_spelled {ps : List Piece} {rest : List Char} (h : Spelled ps rest)
    (hfresh : (Place.start.past (spell ps)).fresh = false)
    (hlast : AskAlike none (kinds ps).getLast?) : evaluateText? (spell ps ++ rest) =
      (scanFrom Scan.inLine rest).bind fun tokens =>
      evaluateKinds? (kinds ps ++ tokens.map Token.kind) := by
  rw [evaluateText?_eq, Scan.kinds_behind h hfresh hlast, Option.bind_map]
  rfl

section
variable {key text : List Char} {value : String} (hkey : ∀ rest, (Piece.single key value).Reads rest)
include hkey

theorem evaluateText?_arrow :
    evaluateText? (spacedHash key text) = (scanFrom Scan.inLine (text ++ spacedBrace)).bind
    fun tokens => evaluateKinds? (.leftBrace :: .string value false :: .fatArrow :: tokens.map Token.kind) := by
  have hspelled : Spelled [.mark '\x7b' .leftBrace, .space, .single key value, .space, .arrow,
      .space] (text ++ spacedBrace) :=
    ⟨Piece.reads_bracket rfl _, Piece.reads_space _, hkey _, Piece.reads_space _,
      Piece.reads_arrow _, Piece.reads_space _, trivial⟩
  have htext : spacedHash key text =
      spell [.mark '\x7b' .leftBrace, .space, .single key value, .space, .arrow, .space] ++
      (text ++ spacedBrace) := by
    simp [spacedHash, Piece.mark, Piece.space, Piece.single, Piece.arrow]
  rw [htext, evaluateText?_spelled hspelled ?_ ?_]
  · rfl
  · simp only [spell_cons, spell_nil, List.append_nil, Place.past_append]
    rfl
  · exact fun _ _ _ _ => rfl

theorem evaluateText?_colon (hjoin : text.head?.any joinsColon = false) :
    evaluateText? (tightHash key text) = (scanFrom Scan.inLine (text ++ tightBrace)).bind
      fun tokens => evaluateKinds? (.leftBrace :: .string value false :: .op ":" :: tokens.map Token.kind) := by
  have hnext : (text ++ tightBrace).head?.any joinsColon = false := by
    cases text with
    | nil => decide +kernel
    | cons c cs => exact hjoin
  have hspelled : Spelled [.mark '\x7b' .leftBrace, .single key value, .colon] (text ++ tightBrace) :=
    ⟨Piece.reads_bracket rfl _, hkey _, Piece.reads_colon hnext, trivial⟩
  have htext : tightHash key text =
      spell [.mark '\x7b' .leftBrace, .single key value, .colon] ++ (text ++ tightBrace) := by
    simp [tightHash, Piece.mark, Piece.colon, Piece.single]
  rw [htext, evaluateText?_spelled hspelled ?_ ?_]
  · rfl
  · simp only [spell_cons, spell_nil, List.append_nil, Place.past_append]
    rfl
  · exact fun _ _ _ _ => rfl

theorem evaluateText?_joined (hjoin : text.head?.any joinsColon = true) :
    evaluateText? (tightHash key text) = none := by
  have hnext : (text ++ tightBrace).head?.any joinsColon = true := by
    cases text with
    | nil => cases hjoin
    | cons c cs => exact hjoin
  obtain ⟨p, kind, rest, hsplit, hreads, hp, hkind⟩ := Piece.reads_joined hnext
  have hspelled : Spelled [.mark '\x7b' .leftBrace, .single key value, p] rest :=
    ⟨Piece.reads_bracket rfl _, hkey _, hreads, trivial⟩
  have htext : tightHash key text =
      spell [.mark '\x7b' .leftBrace, .single key value, p] ++ rest := by
    simp [tightHash, Piece.mark, Piece.single, ← hsplit]
  rw [htext, evaluateText?, Option.bind_eq_none_iff]
  intro tokens hscan
  obtain ⟨more, hmore⟩ := Scan.kinds_spelled hspelled hscan
  have hkinds : tokens.map Token.kind = .leftBrace :: .string value false :: kind :: more := by
    simpa [kinds, Piece.mark, Piece.single, hp] using hmore
  rw [evaluate?, hkinds]
  rcases hkind with rfl | ⟨name, rfl⟩ <;> rfl

end

/-- A literal that has a value in a hash is cut in the middle of a line as it is alone. -/
theorem exists_alone {key : String} {text : List Char} {tokens : List Token} {v w : Datum}
    (hliteral : evaluateText? text = some w)
    (hscan : scanFrom Scan.inLine (text ++ spacedBrace) = some tokens)
    (hvalue : evaluateKinds? (.leftBrace :: .string key false :: .fatArrow :: tokens.map Token.kind) = some v) :
    ∃ alone, scanFrom Scan.inLine text = some alone ∧ evaluate? alone = some w := by
  cases hbegin : "=begin".toList.isPrefixOf text with
  | true =>
    obtain ⟨more, rfl⟩ := List.isPrefixOf_iff_prefix.mp hbegin
    obtain ⟨kinds, hkinds⟩ := kinds_block (h := hscan)
    rw [hkinds] at hvalue
    cases hvalue
  | false =>
    cases hend : "__END__".toList.isPrefixOf text with
    | true =>
      obtain ⟨more, rfl⟩ := List.isPrefixOf_iff_prefix.mp hend
      rw [evaluateText?, scan?_end] at hliteral
      cases hliteral
    | false =>
      rw [evaluateText?, ← scanFrom_inLine hbegin hend] at hliteral
      exact Option.bind_eq_some_iff.mp hliteral

/-- A hash with a quoted key and a literal has the same value with an arrow and blanks as with a
colon and none, unless the literal starts with a character that the colon is read together with:
then the second spelling has none. -/
theorem evaluateText?_tightHash {key text : List Char} {v w : Datum}
    (hkey : isQuotedBody key = true) (hliteral : evaluateText? text = some w)
    (hspaced : evaluateText? (spacedHash key text) = some v) :
    evaluateText? (tightHash key text) = if text.head?.any joinsColon then none else some v := by
  obtain ⟨value, hreads⟩ := Piece.reads_single hkey
  split
  · exact evaluateText?_joined hreads ‹_›
  · rename_i hjoin
    rw [evaluateText?_arrow hreads] at hspaced
    obtain ⟨tokens, hscan, hvalue⟩ := Option.bind_eq_some_iff.mp hspaced
    obtain ⟨alone, halone, hw⟩ := exists_alone hliteral hscan hvalue
    rw [evaluateText?_colon hreads (Bool.eq_false_of_not_eq_true hjoin)]
    rcases Scan.scanFrom_brace halone hscan with ⟨tokens', hscan', hkinds⟩ | hcount
    · rw [hscan', Option.bind_some, hkinds]
      exact hvalue
    · -- the literal would have swallowed the brace that the hash needs
      have hbalanced := balanced_of_evaluateKinds? hw
      have hclosed := balanced_of_evaluateKinds? hvalue
      have hleft := hcount .leftBrace (.inl rfl)
      have hright := hcount .rightBrace (.inr rfl)
      simp only [List.count_cons_self, ne_eq, reduceCtorEq, not_false_eq_true,
        List.count_cons_of_ne] at hclosed
      omega

/-- A key with a quotation mark in it, and a list that holds a number and a string. -/
theorem evaluateText?_listed :
    isQuotedBody "it\\'s".toList = true ∧
    evaluateText? "[-1, 'v']".toList = some (.array [.number (.int (-1)), .string "v"]) ∧
      evaluateText? (spacedHash "it\\'s".toList "[-1, 'v']".toList) =
        some (.object [("it's", .array [.number (.int (-1)), .string "v"])]) ∧
      evaluateText? (tightHash "it\\'s".toList "[-1, 'v']".toList) =
        some (.object [("it's", .array [.number (.int (-1)), .string "v"])]) := by
  have hliteral : (scan? "[-1, 'v']".toList).map (List.map Token.kind) =
      some [.leftBracket, .op "-", .number "1", .comma, .string "v" false, .rightBracket] := by
        decide +kernel
  have hspaced : (scan? (spacedHash "it\\'s".toList "[-1, 'v']".toList)).map (List.map Token.kind) =
      some [.leftBrace, .string "it's" false, .fatArrow, .leftBracket, .op "-", .number "1", .comma,
      .string "v" false,
        .rightBracket, .rightBrace] := by decide +kernel
  have hvalue : evaluateText? "[-1, 'v']".toList =
      some (.array [.number (.int (-1)), .string "v"]) := by
    rw [evaluateText?_eq, hliteral]
    rfl
  have hhash : evaluateText? (spacedHash "it\\'s".toList "[-1, 'v']".toList) =
      some (.object [("it's", .array [.number (.int (-1)), .string "v"])]) := by
    rw [evaluateText?_eq, hspaced]
    rfl
  exact ⟨rfl, hvalue, hhash, evaluateText?_tightHash rfl hvalue hhash⟩

theorem string_joins_colon :
    evaluateText? "'v'".toList = some (.string "v") ∧
      evaluateText? (spacedHash ['k'] "'v'".toList) = some (.object [("k", .string "v")]) ∧
      evaluateText? (tightHash ['k'] "'v'".toList) = none := by
  have hliteral : (scan? "'v'".toList).map (List.map Token.kind) = some [.string "v" false] := by
    decide +kernel
  have hspaced : (scan? (spacedHash ['k'] "'v'".toList)).map (List.map Token.kind) =
      some [.leftBrace, .string "k" false, .fatArrow, .string "v" false, .rightBrace] := by decide +kernel
  refine ⟨?_, ?_, by decide +kernel⟩
  · rw [evaluateText?_eq, hliteral]
    rfl
  · rw [evaluateText?_eq, hspaced]
    rfl

end Literal
end CookbookAtlas
