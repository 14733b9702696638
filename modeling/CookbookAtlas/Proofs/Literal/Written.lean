import CookbookAtlas.Proofs.Literal.Grammar
import CookbookAtlas.Proofs.Token.Spelling

/-! Writing values as literals. What is written is cut into the tokens of its pieces, and the
evaluation of these tokens gives the value back. -/
namespace CookbookAtlas.Literal

open Token Grammar List Text Piece

variable {rest : List Char}

mutual
/-- Whether a value has a literal where `depth` containers are open around it: no floats, integers
of at most 64 bits, distinct keys, and no value too deep. -/
def isWritable (depth : Nat) (v : Datum) : Bool :=
  decide (depth ≤ nestingLimit) &&
    match v with
    | .number (.int n) => decide (Number.leastInt ≤ n ∧ n ≤ Number.greatestInt)
    | .number (.float _) => false
    | .array items => areWritable (depth + 1) items
    | .object members => decide (Members.keys members).Nodup && hasWritable (depth + 1) members
    | _ => true

def areWritable (depth : Nat) : List Datum → Bool
  | [] => true
  | v :: rest => isWritable depth v && areWritable depth rest

def hasWritable (depth : Nat) : List (String × Datum) → Bool
  | [] => true
  | (_, v) :: rest => isWritable depth v && hasWritable depth rest
end

def separator : List Piece := [.mark ',' .comma, .space]

def integer (n : Int) : List Piece :=
  if n < 0 then [.minus, .number (Nat.toDigits 10 n.natAbs)]
  else [.number (Nat.toDigits 10 n.natAbs)]

mutual
/-- A value as a literal; a float, which has none, is left out. -/
def write : Datum → List Piece
  | .null => [.name "nil"]
  | .bool b => [.name (if b then "true" else "false")]
  | .number (.int n) => integer n
  | .number (.float _) => [.name "nil"]
  | .string s => [.quoted s]
  | .array items =>
    .mark '[' .leftBracket :: (separator.intercalate (writeItems items) ++ [.mark ']' .rightBracket])
  | .object members =>
    .mark '\x7b' .leftBrace :: (separator.intercalate (writeMembers members) ++ [.mark '\x7d' .rightBrace])

def writeItems : List Datum → List (List Piece)
  | [] => []
  | v :: rest => write v :: writeItems rest

def writeMembers : List (String × Datum) → List (List Piece)
  | [] => []
  | (k, v) :: rest => (.quoted k :: .space :: .arrow :: .space :: write v) :: writeMembers rest
end

theorem kinds_write_array (items : List Datum) :
    kinds (write (.array items)) =
      .leftBracket :: (kinds (separator.intercalate (writeItems items)) ++ [.rightBracket]) := by
  simp [write, kinds, Piece.mark]

theorem kinds_write_object (members : Members) :
    kinds (write (.object members)) =
      .leftBrace :: (kinds (separator.intercalate (writeMembers members)) ++ [.rightBrace]) := by
  simp [write, kinds, Piece.mark]

def Stops (rest : List Char) : Prop := ∃ c cs, rest = c :: cs ∧ c ∈ ['\n', ',', ']', '\x7d']

theorem Stops.endsName (h : Stops rest) : EndsName rest := by
  obtain ⟨c, cs, rfl, hc⟩ := h
  have hsub : (['\n', ',', ']', '\x7d'].all nameStops.contains) = true := by decide
  exact endsName_of_mark (contains_iff_mem.mp (all_eq_true.mp hsub c hc)) cs

theorem Stops.endsNumber (h : Stops rest) : EndsNumber rest := by
  obtain ⟨c, cs, rfl, hc⟩ := h
  have hmarks : (['\n', ',', ']', '\x7d'].all fun d => !isAsciiAlphanumeric d && d != '_' &&
      d != '.') = true := by
    decide
  have hmark : isAsciiAlphanumeric c = false ∧ c ≠ '_' ∧ c ≠ '.' := by
    simpa [and_assoc] using all_eq_true.mp hmarks c hc
  intro d hd
  simp only [List.head?_cons, Option.mem_some_iff] at hd
  exact hd ▸ hmark

theorem isAsciiDigit_of_mem_toDigits {n : Nat} :
    ∀ c ∈ Nat.toDigits 10 n, isAsciiDigit c = true := by
  intro c hc
  exact Nat.isDigit_of_mem_toDigits (b := 10) (by decide) (by decide) hc

theorem spelled_integer (n : Int) (h : Stops rest) : Spelled (integer n) rest := by
  have hnumber : (Piece.number (Nat.toDigits 10 n.natAbs)).Reads rest :=
    reads_number isAsciiDigit_of_mem_toDigits Nat.toDigits_ne_nil h.endsNumber
  rw [integer]
  split
  · have hhead : ∀ d, isAsciiDigit d = false →
        (spell [.number (Nat.toDigits 10 n.natAbs)] ++ rest).head? ≠ some d := by
      intro d hd
      cases hdigits : Nat.toDigits 10 n.natAbs with
      | nil => exact absurd hdigits Nat.toDigits_ne_nil
      | cons c cs =>
        have hc : isAsciiDigit c = true := isAsciiDigit_of_mem_toDigits c (by rw [hdigits]; simp)
        intro heq
        simp only [spell_cons, Piece.number, cons_append, List.head?_cons, Option.some.injEq] at heq
        rw [heq, hd] at hc
        cases hc
    exact ⟨reads_minus ⟨hhead '=' (by decide), hhead '>' (by decide)⟩, hnumber, trivial⟩
  · exact ⟨hnumber, trivial⟩

/-- Written parts with separators between them, before a closing bracket. -/
theorem spelled_intercalate {parts : List (List Piece)} {close : Char}
    (hparts : ∀ p ∈ parts, ∀ more, Stops more → Spelled p more)
    (hclose : close = ']' ∨ close = '\x7d') :
    Spelled (separator.intercalate parts) (close :: rest) := by
  induction parts with
  | nil => trivial
  | cons p parts ih =>
    have hp := hparts p (by simp)
    have hrest := ih fun q hq => hparts q (by simp [hq])
    cases parts with
    | nil =>
      rw [intercalate_singleton]
      exact hp _ ⟨close, rest, rfl, by rcases hclose with rfl | rfl <;> decide⟩
    | cons q parts =>
      rw [intercalate_cons_cons, append_assoc]
      refine Spelled.append (hp _ ⟨',', _, rfl, by decide⟩) ?_
      exact Spelled.append ⟨reads_bracket rfl _, reads_space _, trivial⟩ hrest

mutual
theorem spelled_write : ∀ (v : Datum) (rest : List Char), Stops rest → Spelled (write v) rest
  | .null, rest, h => ⟨reads_name (by decide +kernel) h.endsName, trivial⟩
  | .bool b, rest, h => by
    cases b with
    | false | true => exact ⟨reads_name (by decide +kernel) h.endsName, trivial⟩
  | .number (.int n), rest, h => spelled_integer n h
  | .number (.float _), rest, h => ⟨reads_name (by decide +kernel) h.endsName, trivial⟩
  | .string s, rest, h => ⟨reads_quoted s _, trivial⟩
  | .array items, rest, h => by
    refine ⟨reads_bracket rfl _, Spelled.append ?_ ⟨reads_bracket rfl _, trivial⟩⟩
    exact spelled_intercalate (spelled_writeItems items) (.inl rfl)
  | .object members, rest, h => by
    refine ⟨reads_bracket rfl _, Spelled.append ?_ ⟨reads_bracket rfl _, trivial⟩⟩
    exact spelled_intercalate (spelled_writeMembers members) (.inr rfl)

theorem spelled_writeItems :
    ∀ (items : List Datum), ∀ p ∈ writeItems items, ∀ rest, Stops rest → Spelled p rest
  | [], p, hp, rest, h => by simp [writeItems] at hp
  | v :: items, p, hp, rest, h => by
    simp only [writeItems, mem_cons] at hp
    rcases hp with rfl | hp
    · exact spelled_write v rest h
    · exact spelled_writeItems items p hp rest h

theorem spelled_writeMembers :
    ∀ (members : List (String × Datum)), ∀ p ∈ writeMembers members,
    ∀ rest, Stops rest → Spelled p rest
  | [], p, hp, rest, h => by simp [writeMembers] at hp
  | (k, v) :: members, p, hp, rest, h => by
    simp only [writeMembers, mem_cons] at hp
    rcases hp with rfl | hp
    · exact ⟨reads_quoted k _, reads_space _, reads_arrow _, reads_space _,
        spelled_write v rest h⟩
    · exact spelled_writeMembers members p hp rest h
end

def isLiteralKind : Kind → Bool
  | .ident word => word == "nil" || word == "true" || word == "false"
  | .op op => op == "-"
  | .number _ | .string _ _ | .leftBracket | .rightBracket | .leftBrace | .rightBrace | .comma
  | .fatArrow => true
  | _ => false

/-- Tokens of literals that close every bracket they open. -/
structure Balanced (ks : List Kind) : Prop where
  plain : ∀ k ∈ ks, isLiteralKind k = true
  level : ∀ depth, ks.foldl (fun depth k => k.depthAfter depth) depth = depth

namespace Balanced

theorem append {ks ls : List Kind} (hk : Balanced ks) (hl : Balanced ls) : Balanced (ks ++ ls) where
  plain k hmem := (mem_append.mp hmem).elim (hk.plain k) (hl.plain k)
  level depth := by rw [foldl_append, hk.level, hl.level]

theorem flat {ks : List Kind} (hplain : ∀ k ∈ ks, isLiteralKind k = true)
    (hflat : ∀ k ∈ ks, k.isOpening = false ∧ k.isClosing = false) : Balanced ks :=
  ⟨hplain, foldl_depthAfter hflat⟩

theorem intercalate {parts : List (List Piece)} (h : ∀ p ∈ parts, Balanced (kinds p)) :
    Balanced (kinds (separator.intercalate parts)) := by
  induction parts with
  | nil => exact flat (by simp [kinds]) (by simp [kinds])
  | cons p parts ih =>
    have hrest := ih fun q hq => h q (by simp [hq])
    cases parts with
    | nil =>
      rw [intercalate_singleton]
      exact h p (by simp)
    | cons q parts =>
      rw [intercalate_cons_cons, kinds_append, kinds_append]
      have hcomma : Balanced (kinds separator) := flat (by decide) (by decide)
      exact ((h p (by simp)).append hcomma).append hrest

theorem enclosed {ks : List Kind} {first last : Kind} (h : Balanced ks)
    (hfirst : first.isOpening = true) (hlast : last.isOpening = false ∧ last.isClosing = true)
    (hplain : isLiteralKind first = true ∧ isLiteralKind last = true) :
    Balanced (first :: (ks ++ [last])) where
  plain k hmem := by
    simp only [mem_cons, mem_append, not_mem_nil, or_false] at hmem
    rcases hmem with rfl | hmem | rfl
    · exact hplain.1
    · exact h.plain k hmem
    · exact hplain.2
  level depth := by
    have hup : first.depthAfter depth = depth + 1 := by simp [Kind.depthAfter, hfirst]
    have hdown : last.depthAfter (depth + 1) = depth := by simp [Kind.depthAfter, hlast]
    rw [foldl_cons, foldl_append, hup, h.level, foldl_cons, hdown, foldl_nil]

end Balanced

theorem balanced_integer (n : Int) : Balanced (kinds (integer n)) := by
  rw [integer]
  split
  · exact .flat (by simp [kinds, Piece.minus, Piece.mark, Piece.number, isLiteralKind])
      (by simp [kinds, Piece.minus, Piece.mark, Piece.number, Kind.isOpening, Kind.isClosing])
  · exact .flat (by simp [kinds, Piece.number, isLiteralKind])
      (by simp [kinds, Piece.number, Kind.isOpening, Kind.isClosing])

theorem balanced_nil : Balanced [.ident "nil"] := .flat (by decide) (by decide)

mutual
theorem balanced_write : ∀ v : Datum, Balanced (kinds (write v))
  | .null => balanced_nil
  | .bool false | .bool true => .flat (by decide) (by decide)
  | .number (.int n) => balanced_integer n
  | .number (.float _) => balanced_nil
  | .string text => .flat (by simp [write, kinds, Piece.quoted, isLiteralKind])
      (by simp [write, kinds, Piece.quoted, Kind.isOpening, Kind.isClosing])
  | .array items => by
    rw [kinds_write_array]
    exact (Balanced.intercalate (balanced_writeItems items)).enclosed rfl ⟨rfl, rfl⟩ ⟨rfl, rfl⟩
  | .object members => by
    rw [kinds_write_object]
    exact (Balanced.intercalate (balanced_writeMembers members)).enclosed rfl ⟨rfl, rfl⟩ ⟨rfl, rfl⟩

theorem balanced_writeItems : ∀ items : List Datum, ∀ p ∈ writeItems items, Balanced (kinds p)
  | [], p, hp => by simp [writeItems] at hp
  | v :: items, p, hp => by
    simp only [writeItems, mem_cons] at hp
    rcases hp with rfl | hp
    · exact balanced_write v
    · exact balanced_writeItems items p hp

theorem balanced_writeMembers :
    ∀ members : List (String × Datum), ∀ p ∈ writeMembers members, Balanced (kinds p)
  | [], p, hp => by simp [writeMembers] at hp
  | (k, v) :: members, p, hp => by
    simp only [writeMembers, mem_cons] at hp
    rcases hp with rfl | hp
    · have hkey : Balanced [.string k false, .fatArrow] :=
        .flat (by simp [isLiteralKind]) (by simp [Kind.isOpening, Kind.isClosing])
      exact hkey.append (balanced_write v)
    · exact balanced_writeMembers members p hp
end

theorem ofDigits_toDigits (n : Nat) : Decimal.ofDigits (Nat.toDigits 10 n) = n :=
  Nat.ofDigitChars_toDigits (b := 10) (by decide) (by decide)

def clean (digits : List Char) : List Char := digits.filter (· != '_')

theorem clean_cons {c : Char} (hc : c ≠ '_') (cs : List Char) :
    clean (c :: cs) = c :: clean cs := by
  simp [clean, hc]

theorem clean_digits {ds : List Char} (hds : ∀ c ∈ ds, isAsciiDigit c = true) : clean ds = ds := by
  rw [clean, filter_eq_self]
  intro c hc
  have hdigit := hds c hc
  rw [bne_iff_ne]
  rintro rfl
  revert hdigit
  decide

def signed (negative : Bool) (n : Nat) : Int := if negative then -(n : Int) else n

abbrev Fits (n : Int) : Prop := Number.leastInt ≤ n ∧ n ≤ Number.greatestInt

theorem integer?_digits {ds : List Char} (hne : ds ≠ []) (hds : ∀ c ∈ ds, isAsciiDigit c = true)
    (negative : Bool) : integer? ds negative =
      if Fits (signed negative (Decimal.ofDigits ds))
      then some (signed negative (Decimal.ofDigits ds)) else none := by
  have hempty : (ds.isEmpty || !ds.all isAsciiDigit) = false := by
    rw [all_eq_true.mpr hds, isEmpty_eq_false_iff.mpr hne]
    rfl
  rw [integer?.eq_def, hempty]
  rfl

theorem takeSign_of_digit {cs : List Char} (h : ∀ c ∈ cs.head?, isAsciiDigit c = true)
    (negative : Bool) : takeSign (if negative then '-' :: cs else cs) = (negative, cs) := by
  cases negative with
  | true => rfl
  | false =>
    rw [if_neg Bool.false_ne_true, takeSign.eq_def]
    split
    · exact absurd (h '-' rfl) (by decide)
    · exact absurd (h '+' rfl) (by decide)
    · rfl

/-- A sign is looked for, and a digit is none. -/
theorem number?_of_digit {text : String}
    (h : ∀ c ∈ (clean text.toList).head?, isAsciiDigit c = true) (negative : Bool) :
    number? text negative =
      match integer? (clean text.toList) negative with
      | some n => some (.number (.int n))
      | none =>
        match float? (clean text.toList) with
        | some f =>
          let value := if negative then -f else f
          if value.isFinite then some (.number (.float value.toBits)) else none
        | none => none := by
  have hsign := takeSign_of_digit h negative
  rw [clean] at hsign
  rw [number?, hsign]
  rfl

theorem head_digits {ds : List Char} (hds : ∀ c ∈ ds, isAsciiDigit c = true) :
    ∀ c ∈ ds.head?, isAsciiDigit c = true :=
  fun c hc => hds c (mem_of_mem_head? hc)

theorem number?_toDigits {n : Nat} {negative : Bool} {value : Int}
    (hvalue : (if negative then -(n : Int) else n) = value)
    (hrange : Number.leastInt ≤ value ∧ value ≤ Number.greatestInt) :
    number? (String.ofList (Nat.toDigits 10 n)) negative = some (.number (.int value)) := by
  have hclean : clean (String.ofList (Nat.toDigits 10 n)).toList = Nat.toDigits 10 n := by
    rw [String.toList_ofList, clean_digits isAsciiDigit_of_mem_toDigits]
  have hhead : ∀ c ∈ (clean (String.ofList (Nat.toDigits 10 n)).toList).head?,
      isAsciiDigit c = true := by
    rw [hclean]
    exact head_digits isAsciiDigit_of_mem_toDigits
  rw [number?_of_digit hhead, hclean,
    integer?_digits Nat.toDigits_ne_nil isAsciiDigit_of_mem_toDigits, ofDigits_toDigits, signed,
    hvalue, if_pos hrange]

theorem atom_integer {n : Int} (hrange : Number.leastInt ≤ n ∧ n ≤ Number.greatestInt) :
    Atom (kinds (integer n)) (.number (.int n)) := by
  by_cases hn : n < 0
  · have hkinds : kinds (integer n) = [.op "-", .number (String.ofList (Nat.toDigits 10 n.natAbs))] := by
      simp [integer, hn, kinds, Piece.minus, Piece.mark, Piece.number]
    rw [hkinds]
    exact .negative (number?_toDigits (by rw [if_pos rfl]; omega) hrange)
  · have hkinds : kinds (integer n) = [.number (String.ofList (Nat.toDigits 10 n.natAbs))] := by
      simp [integer, hn, kinds, Piece.number]
    rw [hkinds]
    exact .number (number?_toDigits (by rw [if_neg Bool.false_ne_true]; omega) hrange)

mutual
/-- The tokens of a written value are those of the value by the grammar. -/
theorem value_write :
    ∀ (v : Datum) {depth : Nat}, isWritable depth v = true → Value depth (kinds (write v)) v
  | .null, depth, h => .atom (by simpa [isWritable] using h) .nil
  | .bool false, depth, h => .atom (by simpa [isWritable] using h) .no
  | .bool true, depth, h => .atom (by simpa [isWritable] using h) .yes
  | .number (.int n), depth, h => by
    simp only [isWritable, Bool.and_eq_true, decide_eq_true_eq] at h
    exact .atom h.1 (atom_integer h.2)
  | .number (.float _), depth, h => by simp [isWritable] at h
  | .string text, depth, h => by
    have hkinds : kinds (write (.string text)) = [.string text false] := rfl
    rw [hkinds]
    exact .atom (by simpa [isWritable] using h) (.string text)
  | .array items, depth, h => by
    simp only [isWritable, Bool.and_eq_true, decide_eq_true_eq] at h
    rw [kinds_write_array]
    exact .array h.1 (items_write items h.2)
  | .object members, depth, h => by
    simp only [isWritable, Bool.and_eq_true, decide_eq_true_eq] at h
    have hmembers : Members.ofPairs members = members := @Members.foldl_insert [] members h.2.1
    have hsettled := settled_ofPairs members
    rw [hmembers] at hsettled
    rw [kinds_write_object]
    exact .hash h.1 (pairs_write members h.2.2) hsettled

theorem items_write : ∀ (items : List Datum) {depth : Nat}, areWritable depth items = true →
    Items depth (kinds (separator.intercalate (writeItems items))) items
  | [], depth, _ => .none
  | [v], depth, h => by
    simp only [areWritable, Bool.and_eq_true] at h
    simp only [writeItems, intercalate_singleton]
    exact .last (value_write v h.1)
  | v :: w :: items, depth, h => by
    rw [areWritable, Bool.and_eq_true] at h
    have hkinds : kinds (separator.intercalate (writeItems (v :: w :: items))) =
        kinds (write v) ++ .comma :: kinds (separator.intercalate (writeItems (w :: items))) := by
      simp [writeItems, intercalate_cons_cons, kinds, separator, Piece.mark, Piece.space]
    rw [hkinds]
    exact .cons (value_write v h.1) (items_write (w :: items) h.2)

theorem pairs_write :
    ∀ (members : List (String × Datum)) {depth : Nat}, hasWritable depth members = true →
    Pairs depth (kinds (separator.intercalate (writeMembers members))) members
  | [], depth, _ => .none
  | [(k, v)], depth, h => by
    simp only [hasWritable, Bool.and_eq_true] at h
    have hkinds : kinds (separator.intercalate (writeMembers [(k, v)])) =
        [.string k false, .fatArrow] ++ kinds (write v) := by
      simp [writeMembers, intercalate_singleton, kinds, Piece.quoted, Piece.space, Piece.arrow]
    rw [hkinds]
    exact .last (.string k .arrow) (value_write v h.1)
  | (k, v) :: m :: members, depth, h => by
    rw [hasWritable, Bool.and_eq_true] at h
    have hkinds : kinds (separator.intercalate (writeMembers ((k, v) :: m :: members))) =
        [.string k false, .fatArrow] ++ kinds (write v) ++
          .comma :: kinds (separator.intercalate (writeMembers (m :: members))) := by
      simp [writeMembers, intercalate_cons_cons, kinds, separator, Piece.mark, Piece.quoted,
        Piece.space, Piece.arrow]
    rw [hkinds]
    exact .cons (.string k .arrow) (value_write v h.1) (pairs_write (m :: members) h.2)
end

theorem evaluateKinds?_write {v : Datum} (h : isWritable 0 v = true) :
    evaluateKinds? (kinds (write v)) = some v := by
  have hfilter : (kinds (write v)).filter (· != .newline) = kinds (write v) := by
    rw [filter_eq_self]
    intro k hk
    simp only [bne_iff_ne]
    rintro rfl
    exact absurd ((balanced_write v).plain _ hk) (by decide)
  rw [evaluateKinds?_eq_some_iff, hfilter]
  exact value_write v h

end CookbookAtlas.Literal
