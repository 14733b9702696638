import CookbookAtlas.Json.Printer
import CookbookAtlas.Json.Record
import Mathlib.Data.List.Forall2

/-! Printed JSON is read back. A text spells symbols, and symbols yield a document wherever a value
may stand; both are put together from the parts of a value, so the text of a value without numbers
is read as the document of that value. -/
namespace CookbookAtlas.Json

open List State
variable {c : Char} {d : Doc} {parts : List (List Symbol)} {members : List (StringText × Doc)} {cs : List Char}
  {docs : List Doc} {α : Type}

theorem hexUnit?_hexDigits {n : Nat} (h : n < 32) :
    ∃ a b c d, hexDigits n 4 = [a, b, c, d] ∧ hexUnit? a b c d = some n := by
  have hall : ∀ m < 32, hexUnit? (hexDigit (m / 16 / 16 / 16 % 16)) (hexDigit (m / 16 / 16 % 16))
      (hexDigit (m / 16 % 16)) (hexDigit (m % 16)) = some m := by decide +kernel
  exact ⟨_, _, _, _, rfl, hall n h⟩

/-- An escaped unit that is no half of a pair stands for a character, whatever follows it. -/
theorem readString_unit (s : StringScan) {a b d : Char} {n : Nat}
    (hunit : hexUnit? a b c d = some n) (hn : n < 32) (more : List Char) :
    readString s ('\\' :: 'u' :: a :: b :: c :: d :: more) =
      readString (s.push (Char.ofNat n) 6) more := by
  have hhigh : isHighSurrogate n = false := by
    simp only [isHighSurrogate, Bool.and_eq_false_iff, decide_eq_false_iff_not]
    omega
  have hlow : isLowSurrogate n = false := by
    simp only [isLowSurrogate, Bool.and_eq_false_iff, decide_eq_false_iff_not]
    omega
  rw [readString.eq_def]
  split
  · contradiction
  · rename_i heq
    cases heq
  · rename_i heq
    cases heq
    simp [hunit, hhigh, hlow]
  · rename_i heq
    cases heq
    simp [hunit, hhigh, hlow]
  · rename_i hshort heq
    cases heq
    exact absurd rfl (hshort _ _ _ _ _ rfl)
  · rename_i hslash heq
    cases heq
    exact absurd rfl (hslash _ _ rfl)

/-- A character that is neither a quotation mark nor a backslash nor a control character stands for
itself. -/
theorem readString_plain (s : StringScan) (hquote : c ≠ '"') (hslash : c ≠ '\\')
    (hcontrol : ¬c.toNat < 32) (more : List Char) :
    readString s (c :: more) = readString (s.push c 1) more := by
  rw [readString.eq_def]
  split
  · contradiction
  · rename_i heq
    exact absurd (List.cons.inj heq).1 hquote
  · rename_i heq
    exact absurd (List.cons.inj heq).1 hslash
  · rename_i heq
    exact absurd (List.cons.inj heq).1 hslash
  · rename_i heq
    exact absurd (List.cons.inj heq).1 hslash
  · rename_i heq
    cases heq
    simp [hcontrol, hslash]

theorem readString_escapeChar (s : StringScan) (c : Char) (more : List Char) :
    readString s (escapeChar c ++ more) = readString (s.push c (escapeChar c).length) more := by
  unfold escapeChar
  split_ifs with hquote hslash hnewline hreturn htab hback hfeed hcontrol
  · subst hquote; simp [readString, simpleEscape?]
  · subst hslash; simp [readString, simpleEscape?]
  · subst hnewline; simp [readString, simpleEscape?]
  · subst hreturn; simp [readString, simpleEscape?]
  · subst htab; simp [readString, simpleEscape?]
  · subst hback; simp [readString, simpleEscape?]
  · subst hfeed; simp [readString, simpleEscape?]
  · obtain ⟨a, b, d, e, hdigits, hunit⟩ := hexUnit?_hexDigits hcontrol
    rw [hdigits]
    simpa using readString_unit s hunit hcontrol more
  · exact readString_plain s hquote hslash hcontrol more

theorem readString_escaped (s : StringScan) (cs rest : List Char) :
    readString s (cs.flatMap escapeChar ++ '"' :: rest) =
      some ⟨cs.reverse ++ s.reversed, s.paired, s.width + ((cs.flatMap escapeChar).length + 1)⟩ := by
  induction cs generalizing s with
  | nil => simp [readString]
  | cons c cs ih =>
    rw [flatMap_cons, append_assoc, readString_escapeChar, ih]
    simp [StringScan.push, Nat.add_assoc]

/-- The text is cut into these symbols, whatever follows it. -/
def Spells (cs : List Char) (symbols : List Symbol) : Prop :=
  ∀ done rest, symbolsFrom done (cs ++ rest) = symbolsFrom (symbols.reverse ++ done) rest

theorem Spells.nil : Spells [] [] := fun _ _ => rfl

theorem Spells.append {ds : List Char} {xs ys : List Symbol} (hcs : Spells cs xs)
    (hds : Spells ds ys) : Spells (cs ++ ds) (xs ++ ys) := by
  intro done rest
  rw [append_assoc, hcs, hds, reverse_append, append_assoc]

theorem spells_symbol {symbol : Symbol} (hspace : isSpace c = false)
    (h : ∀ rest, readSymbol? c (cs ++ rest) = some (symbol, cs.length)) :
    Spells (c :: cs) [symbol] := by
  intro done rest
  rw [cons_append, symbolsFrom, hspace, h]
  simp

theorem spells_quote (text : String) :
    Spells (quote text).toList [.leaf (.string ⟨text, true⟩)] := by
  have hchars : (quote text).toList = '"' :: (text.toList.flatMap escapeChar ++ ['"']) := by
    simp [quote]
  rw [hchars]
  refine spells_symbol (by decide) fun rest => ?_
  simp [readSymbol?, append_assoc, readString_escaped]

theorem Spells.intercalate {parts : List (List Char)} {symbols : List (List Symbol)}
    (h : List.Forall₂ Spells parts symbols) :
    Spells ([','].intercalate parts) ([Symbol.comma].intercalate symbols) := by
  have hcomma : Spells [','] [.comma] := spells_symbol (by decide) fun rest => by simp [readSymbol?]
  induction h with
  | nil => exact Spells.nil
  | cons hfirst hrest ih =>
    cases hrest with
    | nil => simpa using hfirst
    | cons hsecond hmore =>
      rw [intercalate_cons_cons, intercalate_cons_cons]
      exact (hfirst.append hcomma).append ih

theorem State.run_cons (s : State) (symbol : Symbol) (rest : List Symbol) :
    s.run (symbol :: rest) = (s.step symbol).bind fun t => t.run rest := by
  rw [State.run]
  cases s.step symbol <;> rfl

/-- Where a value is expected, the symbols are taken as this document. -/
def Yields (symbols : List Symbol) (d : Doc) : Prop :=
  ∀ (s : State) (rest : List Symbol), s.expectsValue = true →
    s.run (symbols ++ rest) = (s.value d).bind fun t => t.run rest

theorem yields_leaf (d : Doc) : Yields [.leaf d] d := fun s rest _ => run_cons s (.leaf d) rest

theorem intercalate_cons (mark : α) (part : List α) (parts : List (List α)) :
    [mark].intercalate (part :: parts) = part ++ parts.flatMap (mark :: ·) := by
  induction parts generalizing part with
  | nil => simp
  | cons next parts ih =>
    rw [intercalate_cons_cons, ih]
    simp

theorem run_items (h : List.Forall₂ Yields parts docs) (done : List Doc) (frames : List Frame)
    (result : Option Doc) (rest : List Symbol) :
    State.run ⟨.arrayAfter done :: frames,
    result⟩ (parts.flatMap (.comma :: ·) ++ .closeBracket :: rest) =
      (State.value ⟨frames, result⟩ (.array (done.reverse ++ docs))).bind fun t => t.run rest := by
  induction h generalizing done with
  | nil => simp [run_cons, State.step]
  | @cons part d parts docs hpart _ ih =>
    have hitem := hpart ⟨.arrayItem done :: frames,
      result⟩ (parts.flatMap (.comma :: ·) ++ .closeBracket :: rest) rfl
    rw [flatMap_cons, append_assoc, cons_append, run_cons]
    simp only [State.step, Option.bind_some, hitem, State.value, ih]
    simp

theorem yields_array (h : List.Forall₂ Yields parts docs) :
    Yields (.openBracket :: ([Symbol.comma].intercalate parts ++ [.closeBracket])) (.array docs) := by
  intro s rest hs
  rw [cons_append, run_cons, State.step, if_pos hs, Option.bind_some]
  cases h with
  | nil => simp [run_cons, State.step]
  | @cons part d parts docs hpart hparts =>
    have hfirst := hpart ⟨.arrayStart :: s.frames,
      s.result⟩ (parts.flatMap (.comma :: ·) ++ .closeBracket :: rest) rfl
    rw [intercalate_cons, append_assoc, append_assoc, singleton_append, hfirst]
    simp only [State.value, Option.bind_some]
    exact run_items hparts [d] s.frames s.result rest

def YieldsMember (symbols : List Symbol) (m : StringText × Doc) : Prop :=
  ∃ value, symbols = .leaf (.string m.1) :: .colon :: value ∧ Yields value m.2

theorem run_members (h : List.Forall₂ YieldsMember parts members) (done : List (StringText × Doc))
    (frames : List Frame) (result : Option Doc) (rest : List Symbol) :
    State.run ⟨.objectAfter done :: frames,
    result⟩ (parts.flatMap (.comma :: ·) ++ .closeBrace :: rest) =
      (State.value ⟨frames, result⟩ (.object (done.reverse ++ members))).bind fun t =>
      t.run rest := by
  induction h generalizing done with
  | nil => simp [run_cons, State.step]
  | @cons part m parts members hpart _ ih =>
    obtain ⟨key, d⟩ := m
    obtain ⟨value, rfl, hvalue⟩ := hpart
    have hitem := hvalue ⟨.objectItem done key :: frames, result⟩
      (parts.flatMap (.comma :: ·) ++ .closeBrace :: rest) rfl
    rw [flatMap_cons, append_assoc, cons_append, cons_append, cons_append, run_cons]
    simp only [State.step, Option.bind_some, run_cons, State.value, hitem, ih]
    simp

theorem yields_object (h : List.Forall₂ YieldsMember parts members) :
    Yields (.openBrace :: ([Symbol.comma].intercalate parts ++ [.closeBrace])) (.object members) := by
  intro s rest hs
  rw [cons_append, run_cons, State.step, if_pos hs, Option.bind_some]
  cases h with
  | nil => simp [run_cons, State.step]
  | @cons part m parts members hpart hparts =>
    obtain ⟨key, d⟩ := m
    obtain ⟨value, rfl, hvalue⟩ := hpart
    have hfirst := hvalue ⟨.objectItem [] key :: s.frames, s.result⟩
      (parts.flatMap (.comma :: ·) ++ .closeBrace :: rest) rfl
    rw [intercalate_cons, append_assoc, append_assoc, singleton_append, cons_append, cons_append]
    simp only [run_cons, State.step, State.value, Option.bind_some, hfirst]
    exact run_members hparts [(key, d)] s.frames s.result rest

/-- The text is read as this document wherever a value is expected. -/
def Reads (cs : List Char) (d : Doc) : Prop := ∃ symbols, Spells cs symbols ∧ Yields symbols d

def ReadsMember (cs : List Char) (m : StringText × Doc) : Prop :=
  ∃ symbols, Spells cs symbols ∧ YieldsMember symbols m

theorem reads_leaf (hspace : isSpace c = false)
    (h : ∀ rest, readSymbol? c (cs ++ rest) = some (.leaf d, cs.length)) : Reads (c :: cs) d :=
  ⟨_, spells_symbol hspace h, yields_leaf d⟩

theorem Reads.readDoc? (h : Reads cs d) : readDoc? cs = some d := by
  obtain ⟨symbols, hspells, hyields⟩ := h
  have hsymbols : symbols? cs = some symbols := by
    have hcut := hspells [] []
    rw [append_nil, append_nil] at hcut
    rw [symbols?, hcut, symbolsFrom, reverse_reverse]
  have hrun : State.run ⟨[], none⟩ symbols = some ⟨[], some d⟩ := by
    have hvalue := hyields ⟨[], none⟩ [] rfl
    rw [append_nil] at hvalue
    rw [hvalue]
    rfl
  rw [Json.readDoc?, hsymbols]
  simp [hrun]

/-- Parts that are cut and taken one by one are cut together and taken together. -/
theorem exists_symbols {taken : List Symbol → α → Prop} {parts : List (List Char)} {xs : List α}
    (h : List.Forall₂ (fun cs x => ∃ symbols, Spells cs symbols ∧ taken symbols x) parts xs) :
    ∃ symbols, List.Forall₂ Spells parts symbols ∧ List.Forall₂ taken symbols xs := by
  induction h with
  | nil => exact ⟨[], .nil, .nil⟩
  | cons hfirst _ ih =>
    obtain ⟨first, hspells, htaken⟩ := hfirst
    obtain ⟨rest, hrest, hmore⟩ := ih
    exact ⟨first :: rest, .cons hspells hrest, .cons htaken hmore⟩

theorem reads_array {parts : List (List Char)} (h : List.Forall₂ Reads parts docs) :
    Reads ('[' :: ([','].intercalate parts ++ [']'])) (.array docs) := by
  obtain ⟨symbols, hspells, hyields⟩ := exists_symbols h
  have hopen : Spells ['['] [.openBracket] := spells_symbol (by decide) fun rest => by
    simp [readSymbol?]
  have hclose : Spells [']'] [.closeBracket] := spells_symbol (by decide) fun rest => by
    simp [readSymbol?]
  exact ⟨_, hopen.append ((Spells.intercalate hspells).append hclose), yields_array hyields⟩

theorem reads_object {parts : List (List Char)} (h : List.Forall₂ ReadsMember parts members) :
    Reads ('\x7b' :: ([','].intercalate parts ++ ['\x7d'])) (.object members) := by
  obtain ⟨symbols, hspells, hyields⟩ := exists_symbols h
  have hopen : Spells ['\x7b'] [.openBrace] := spells_symbol (by decide) fun rest => by
    simp [readSymbol?]
  have hclose : Spells ['\x7d'] [.closeBrace] := spells_symbol (by decide) fun rest => by
    simp [readSymbol?]
  exact ⟨_, hopen.append ((Spells.intercalate hspells).append hclose), yields_object hyields⟩

mutual
def isNumberless : Datum → Bool
  | .number _ => false
  | .array items => areNumberless items
  | .object members => hasNumberless members
  | _ => true

def areNumberless : List Datum → Bool
  | [] => true
  | v :: rest => isNumberless v && areNumberless rest

def hasNumberless : List (String × Datum) → Bool
  | [] => true
  | (_, v) :: rest => isNumberless v && hasNumberless rest
end

mutual
/-- The document of a value; numbers, of which only some have one, are left out. -/
def docOf : Datum → Doc
  | .null => .null
  | .bool b => .bool b
  | .number _ => .null
  | .string text => .string ⟨text, true⟩
  | .array items => .array (docItems items)
  | .object members => .object (docMembers members)

def docItems : List Datum → List Doc
  | [] => []
  | v :: rest => docOf v :: docItems rest

def docMembers : List (String × Datum) → List (StringText × Doc)
  | [] => []
  | (key, v) :: rest => (⟨key, true⟩, docOf v) :: docMembers rest
end

theorem areNumberless_eq_all (items : List Datum) :
    areNumberless items = items.all isNumberless := by
  induction items with
  | nil => rfl
  | cons v rest ih => rw [areNumberless, ih, all_cons]

theorem hasNumberless_eq_all (members : Members) :
    hasNumberless members = members.all fun m => isNumberless m.2 := by
  induction members with
  | nil => rfl
  | cons m rest ih => rw [hasNumberless, ih, all_cons]

theorem docItems_eq_map (items : List Datum) : docItems items = items.map docOf := by
  induction items with
  | nil => rfl
  | cons v rest ih => rw [docItems, ih, map_cons]

theorem docMembers_eq_map (members : Members) :
    docMembers members = members.map fun m => (⟨m.1, true⟩, docOf m.2) := by
  induction members with
  | nil => rfl
  | cons m rest ih => rw [docMembers, ih, map_cons]

theorem reads_member (key : String) {v : List Char} (h : Reads v d) :
    ReadsMember ((quote key).toList ++ ':' :: v) (⟨key, true⟩, d) := by
  obtain ⟨symbols, hspells, hyields⟩ := h
  have hcolon : Spells [':'] [.colon] := spells_symbol (by decide) fun rest => by simp [readSymbol?]
  exact ⟨_, (spells_quote key).append (hcolon.append hspells), symbols, rfl, hyields⟩

mutual
theorem reads_compact : ∀ v : Datum, isNumberless v = true → Reads (compact v).toList (docOf v)
  | .null, _ => by
    have hnull : Reads ['n', 'u', 'l', 'l'] .null :=
      reads_leaf (by decide) fun rest => by simp [readSymbol?, Text.isAsciiDigit, List.isPrefixOf]
    simpa [compact, docOf] using hnull
  | .bool true, _ => by
    have htrue : Reads ['t', 'r', 'u', 'e'] (.bool true) :=
      reads_leaf (by decide) fun rest => by simp [readSymbol?, Text.isAsciiDigit, List.isPrefixOf]
    simpa [compact, docOf] using htrue
  | .bool false, _ => by
    have hfalse : Reads ['f', 'a', 'l', 's', 'e'] (.bool false) :=
      reads_leaf (by decide) fun rest => by simp [readSymbol?, Text.isAsciiDigit, List.isPrefixOf]
    simpa [compact, docOf] using hfalse
  | .number n, h => by simp [isNumberless] at h
  | .string text, _ => by
    have hstring : Reads (quote text).toList (.string ⟨text, true⟩) :=
      ⟨_, spells_quote text, yields_leaf _⟩
    simpa [compact, docOf] using hstring
  | .array items, h => by
    have hitems := reads_array (reads_compactItems items (by simpa [isNumberless] using h))
    simpa [compact, docOf] using hitems
  | .object members, h => by
    have hmembers := reads_object (reads_compactMembers members (by simpa [isNumberless] using h))
    simpa [compact, docOf] using hmembers

theorem reads_compactItems : ∀ items : List Datum, areNumberless items = true →
    List.Forall₂ Reads ((compactItems items).map String.toList) (docItems items)
  | [], _ => .nil
  | v :: rest, h => by
    simp only [areNumberless, Bool.and_eq_true] at h
    exact .cons (reads_compact v h.1) (reads_compactItems rest h.2)

theorem reads_compactMembers : ∀ members : List (String × Datum), hasNumberless members = true →
    List.Forall₂ ReadsMember ((compactMembers members).map String.toList) (docMembers members)
  | [], _ => .nil
  | (key, v) :: rest, h => by
    simp only [hasNumberless, Bool.and_eq_true] at h
    have hmember := reads_member key (reads_compact v h.1)
    exact .cons (by simpa using hmember) (reads_compactMembers rest h.2)
end

/-- The text of a value without numbers is read as the document of that value. -/
theorem readDoc?_compact {v : Datum} (h : isNumberless v = true) :
    readDoc? (compact v).toList = some (docOf v) :=
  (reads_compact v h).readDoc?

namespace Decoder

variable {α β : Type} {decode : Doc → Option β}

theorem all_map {xs : List α} {doc : α → Doc} {value : α → β}
    (h : ∀ x ∈ xs, decode (doc x) = some (value x)) :
    all decode (xs.map doc) = some (xs.map value) := by
  induction xs with
  | nil => rfl
  | cons x xs ih =>
    have hrest := ih fun y hy => h y (mem_cons_of_mem _ hy)
    simp [all, h x mem_cons_self, hrest]

theorem pairs_map {xs : List α} {key : α → String} {doc : α → Doc} {value : α → β}
    (h : ∀ x ∈ xs, decode (doc x) = some (value x)) :
    pairs decode (xs.map fun x => (⟨key x, true⟩, doc x)) =
      some (xs.map fun x => (key x, value x)) := by
  induction xs with
  | nil => rfl
  | cons x xs ih =>
    have hrest := ih fun y hy => h y (mem_cons_of_mem _ hy)
    simp [pairs, StringText.text?, h x mem_cons_self, hrest]

end Decoder

section
variable {ms : Members}

theorem named_docMembers (h : ms.keys.Nodup) (name : String) :
    named (docMembers ms) name = ((ms.get? name).map docOf).toList := by
  induction ms with
  | nil => rfl
  | cons m ms ih =>
    obtain ⟨key, v⟩ := m
    have hcons : key ∉ Members.keys ms ∧ (Members.keys ms).Nodup := nodup_cons.1 h
    have hrest := ih hcons.2
    by_cases hkey : key = name
    · subst hkey
      have hnone : Members.get? ms key = none := Members.get?_of_not_mem hcons.1
      rw [hnone] at hrest
      have hempty : named (docMembers ms) key = [] := hrest
      simpa [docMembers, named, Members.get?] using hempty
    · simpa [docMembers, named, Members.get?, hkey] using hrest

theorem fieldValues_docMembers (h : ms.keys.Nodup) (names : List String) :
    fieldValues (docMembers ms) names = some (names.map fun name => (ms.get? name).map docOf) := by
  induction names with
  | nil => rfl
  | cons name names ih =>
    have hfield : field? (docMembers ms) name = some ((ms.get? name).map docOf) := by
      rw [field?, named_docMembers h]
      cases ms.get? name <;> rfl
    simp [fieldValues, hfield, ih]

theorem record?_docOf (h : ms.keys.Nodup) (names : List String) (depth : Nat) :
    record? names (depth + 1) (docOf (.object ms)) =
    some ⟨depth, names.map fun name => (ms.get? name).map docOf⟩ := by
  have hpaired : (docMembers ms).all (fun p => p.1.paired) = true := by simp [docMembers_eq_map]
  rw [docOf, record?, if_pos hpaired, fieldValues_docMembers h]
  rfl

end

theorem Fields.get_map {names : List String} {i : Nat} {name : String} (h : names[i]? = some name)
    (depth : Nat)
    (value : String → Option Doc) : Fields.get ⟨depth, names.map value⟩ i = value name := by
  simp [Fields.get, h]

theorem Fields.optional_object {f : Fields} {i : Nat} {ms : Members}
    (h : f.get i = some (docOf (.object ms))) (decode : Decoder α) :
    f.optional i decode = (decode f.depth (docOf (.object ms))).map some := by
  rw [optional, withDefault, h]
  rfl

end CookbookAtlas.Json
