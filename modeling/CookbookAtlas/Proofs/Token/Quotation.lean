import CookbookAtlas.Proofs.Token.Spelling

/-! String literals stand for what was put between their marks. Between quotation marks a backslash
keeps what would end the string or start an interpolation; between brackets after `%q` nothing has
to be kept, as long as the brackets in the text match. -/
namespace CookbookAtlas.Token

open Text

/-- What gets a backslash before it in a double-quoted string. -/
def richMarks : List Char := ['\\', '"', '#']

def Piece.doubleQuoted (value : String) : Piece :=
  ⟨'"' :: (escapedIn richMarks value.toList ++ ['"']), some (.string value false)⟩

theorem readQuoted_rich (value rest : List Char) :
    readQuoted '"' true (escapedIn richMarks value ++ '"' :: rest) =
      ⟨value.reverse, false, (escapedIn richMarks value).length + 1⟩ := by
  have hkept : ∀ c ∈ richMarks, Delimiters.unescape ⟨none, '"', true⟩ c = [c] := by
    simp [richMarks, Delimiters.unescape, escapedChar]
  have hread := readBody_escapedIn (by decide) hkept (by decide) value rest Body.empty
  simpa [readQuoted, readDelimited, Body.empty] using hread

theorem Piece.reads_doubleQuoted (value : String) (rest : List Char) :
    (doubleQuoted value).Reads rest := by
  refine ⟨'"', escapedIn richMarks value.toList ++ ['"'], rfl, fun last fresh start => ?_⟩
  have hread : ∀ cs, readLexeme last fresh start '"' cs =
      .token (stringKind (readQuoted '"' true cs)) (readQuoted '"' true cs).width := by
    intro cs
    cases fresh <;> rfl
  rw [List.append_assoc, List.singleton_append, hread, readQuoted_rich]
  simp [stringKind, Body.value, Lexeme.token, doubleQuoted]

def bracketPairs : List (Char × Char) := [('(', ')'), ('[', ']'), ('\x7b', '\x7d'), ('<', '>')]

/-- Every bracket in a text has its partner. -/
inductive Balanced (opening closing : Char) : List Char → Prop
  | nil : Balanced opening closing []
  | other {c : Char} {cs : List Char} (hopening : c ≠ opening) (hclosing : c ≠ closing)
    (hrest : Balanced opening closing cs) : Balanced opening closing (c :: cs)
  | nest {inside after : List Char} (hinside : Balanced opening closing inside)
    (hafter : Balanced opening closing after) :
      Balanced opening closing (opening :: (inside ++ closing :: after))

/-- A body with more characters that stand for themselves. -/
def Body.pushAll (b : Body) (cs : List Char) : Body :=
  ⟨cs.reverse ++ b.reversed, b.interpolated, b.width + cs.length⟩

theorem Body.pushAll_cons (b : Body) (c : Char) (cs : List Char) :
    b.pushAll (c :: cs) = (b.push c).pushAll cs := by
  simp only [pushAll, push, List.reverse_cons, List.append_assoc, List.singleton_append,
    List.length_cons]
  rw [Nat.add_assoc, Nat.add_comm 1]

theorem Body.pushAll_append (b : Body) (xs ys : List Char) :
    b.pushAll (xs ++ ys) = (b.pushAll xs).pushAll ys := by
  simp [pushAll, Nat.add_assoc]

section
variable {opening closing c : Char} {cs : List Char} (b : Body) (nesting : Nat) (rest : List Char)

theorem readBody_other (hback : c ≠ '\\') (hopening : c ≠ opening) (hclosing : c ≠ closing) :
    readBody ⟨some opening, closing, false⟩ b (.text nesting) (c :: rest) =
      readBody ⟨some opening, closing, false⟩ (b.push c) (.text nesting) rest := by
  rw [readBody.eq_def]
  simp [hback, hopening, hclosing]

theorem readBody_opening (hback : opening ≠ '\\') :
    readBody ⟨some opening, closing, false⟩ b (.text nesting) (opening :: rest) =
      readBody ⟨some opening, closing, false⟩ (b.push opening) (.text (nesting + 1)) rest := by
  rw [readBody.eq_def]
  simp [hback]

theorem readBody_closing (hback : closing ≠ '\\') (hpair : opening ≠ closing) :
    readBody ⟨some opening, closing, false⟩ b (.text (nesting + 1)) (closing :: rest) =
      readBody ⟨some opening, closing, false⟩ (b.push closing) (.text nesting) rest := by
  rw [readBody.eq_def]
  simp [hback, hpair.symm]

theorem readBody_balanced (hpair : opening ≠ closing) (h : Balanced opening closing cs)
    (hback : '\\' ∉ cs) : readBody ⟨some opening, closing, false⟩ b (.text nesting) (cs ++ rest) =
      readBody ⟨some opening, closing, false⟩ (b.pushAll cs) (.text nesting) rest := by
  induction h generalizing b nesting rest with
  | nil => rfl
  | @other c cs hopening hclosing hrest ih =>
    simp only [List.mem_cons, not_or] at hback
    obtain ⟨hc, hcs⟩ := hback
    rw [List.cons_append, readBody_other b nesting _ (Ne.symm hc) hopening hclosing, ih _ _ _ hcs,
      Body.pushAll_cons]
  | @nest inside after hinside hafter ihInside ihAfter =>
    simp only [List.mem_cons, List.mem_append, not_or] at hback
    obtain ⟨hopening, hin, hclosing, haf⟩ := hback
    rw [List.cons_append, List.append_assoc, List.cons_append,
      readBody_opening b nesting _ (Ne.symm hopening),
      ihInside _ _ _ hin, readBody_closing _ nesting _ (Ne.symm hclosing) hpair, ihAfter _ _ _ haf,
      Body.pushAll_cons, Body.pushAll_append, Body.pushAll_cons]

end

theorem readDelimited_balanced {opening closing : Char} {cs : List Char} (hpair : opening ≠ closing)
    (hclosing : closing ≠ '\\') (h : Balanced opening closing cs) (hback : '\\' ∉ cs) :
    readDelimited ⟨some opening, closing, false⟩ (cs ++ [closing]) =
      ⟨cs.reverse, false, cs.length + 1⟩ := by
  rw [readDelimited, readBody_balanced _ _ _ hpair h hback, readBody.eq_def]
  simp [hclosing, hpair.symm, Body.skip, Body.pushAll, Body.empty]

def percentQuoted (pair : Char × Char) (cs : List Char) : List Char :=
  'q' :: pair.1 :: (cs ++ [pair.2])

theorem readLexeme_percentQuoted {pair : Char × Char} (hpair : pair ∈ bracketPairs) {cs : List Char}
    (h : Balanced pair.1 pair.2 cs) (hback : '\\' ∉ cs) (fresh : Bool) (start : Nat) :
    readLexeme none fresh start '%' (percentQuoted pair cs) =
      .token (.string (String.ofList cs) false) (percentQuoted pair cs).length := by
  have hmarks : closingOf pair.1 = pair.2 ∧ isPercentMark pair.1 = true ∧ pair.1 ≠ pair.2 ∧
      pair.2 ≠ '\\' := by
    simp only [bracketPairs, List.mem_cons, List.not_mem_nil, or_false] at hpair
    rcases hpair with rfl | rfl | rfl | rfl <;> decide
  obtain ⟨hclosing, hmark, hne, hslash⟩ := hmarks
  have hahead : percentAhead none (percentQuoted pair cs) = true := by
    simp [percentAhead, percentQuoted, expectsValue, isPercentLetter, hmark]
  have hread : readLexeme none fresh start '%' (percentQuoted pair cs) =
      readPercent (percentQuoted pair cs) := by
    have hplain : readLexeme none fresh start '%' (percentQuoted pair cs) =
        if '%' = '%' ∧ percentAhead none (percentQuoted pair cs) then readPercent (percentQuoted pair cs)
        else readPunctuation '%' (percentQuoted pair cs) := by
      cases fresh <;> rfl
    rw [hplain, if_pos ⟨rfl, hahead⟩]
  have hbody := readDelimited_balanced hne hslash h hback
  rw [hread, percentQuoted, readPercent, if_pos (by decide), readPercentBody]
  simp [hclosing, hne, hbody, stringKind, Body.value, Nat.add_comm 2]

theorem scan?_lexeme {c : Char} {cs : List Char} {kind : Kind}
    (h : readLexeme none true 0 c cs = .token kind cs.length) :
    scan? (c :: cs) = some [⟨kind, 1, 0, byteLength (c :: cs)⟩] := by
  have hoffset : (Place.start.past (c :: cs)).offset = byteLength (c :: cs) :=
    (Place.offset_past Place.start (c :: cs)).trans (Nat.zero_add _)
  have hread : readLexeme Scan.start.last Scan.start.place.fresh Scan.start.place.offset c cs =
      .token kind cs.length := h
  rw [scan?, scanFrom, hread]
  simp only [Lexeme.token, List.take_length, List.drop_length, Scan.take, Scan.start,
    Option.toList_none,
    List.append_nil, List.isEmpty_nil, Bool.not_true, Bool.false_eq_true, and_false, if_false,
    scanFrom, hoffset]
  rfl

theorem scan?_piece {p : Piece} {kind : Kind} (h : p.Reads []) (hkind : p.kind = some kind) :
    scan? p.text = some [⟨kind, 1, 0, byteLength p.text⟩] := by
  obtain ⟨c, cs, htext, hread⟩ := h
  rw [htext]
  refine scan?_lexeme ?_
  have hlexeme := hread none true 0
  rw [List.append_nil, hkind] at hlexeme
  exact hlexeme

/-- A string in single or double quotation marks, with the marks in it escaped, and a text without
backslashes between brackets that match in it, are each cut into one token: the string itself. -/
theorem scan?_string_literals (value : String) :
    scan? (Piece.quoted value).text =
    some [⟨.string value false, 1, 0, byteLength (Piece.quoted value).text⟩] ∧
    scan? (Piece.doubleQuoted value).text =
      some [⟨.string value false, 1, 0, byteLength (Piece.doubleQuoted value).text⟩] ∧
    ∀ pair ∈ bracketPairs, '\\' ∉ value.toList → Balanced pair.1 pair.2 value.toList →
      scan? ('%' :: percentQuoted pair value.toList) =
        some [⟨.string value false, 1, 0, byteLength ('%' :: percentQuoted pair value.toList)⟩] := by
  refine ⟨scan?_piece (Piece.reads_quoted value []) rfl,
    scan?_piece (Piece.reads_doubleQuoted value []) rfl, ?_⟩
  intro pair hpair hback hbalanced
  have hread := readLexeme_percentQuoted hpair hbalanced hback true 0
  rw [String.ofList_toList] at hread
  exact scan?_lexeme hread

/-- Brackets around an interpolation with a quotation mark and a line end in it. -/
def bracketed : String := "[#\x7b'\n\x7d]é\""

theorem balanced_bracketed : Balanced '[' ']' bracketed.toList := by
  have hinside : Balanced '[' ']' ['#', '\x7b', '\'', '\n', '\x7d'] :=
    .other (by decide) (by decide) (.other (by decide) (by decide) (.other (by decide) (by decide)
      (.other (by decide) (by decide) (.other (by decide) (by decide) .nil))))
  exact .nest hinside (.other (by decide) (by decide) (.other (by decide) (by decide) .nil))

theorem bracketed_literals : '\\' ∉ bracketed.toList ∧ Balanced '[' ']' bracketed.toList ∧
    scan? "'[#\x7b\\'\n\x7d]é\"'".toList = some [⟨.string bracketed false, 1, 0, 13⟩] ∧
    scan? "\"[\\#\x7b'\n\x7d]é\\\"\"".toList = some [⟨.string bracketed false, 1, 0, 14⟩] ∧
    scan? "%q[[#\x7b'\n\x7d]é\"]".toList = some [⟨.string bracketed false, 1, 0, 14⟩] := by
  have hback : '\\' ∉ bracketed.toList := by decide
  obtain ⟨hsingle, hdouble, hpercent⟩ := scan?_string_literals bracketed
  exact ⟨hback, balanced_bracketed, hsingle, hdouble,
    hpercent ('[', ']') (by decide) hback balanced_bracketed⟩

end CookbookAtlas.Token
