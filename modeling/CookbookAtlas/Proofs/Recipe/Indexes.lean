import CookbookAtlas.Proofs.Recipe.BlankLines
import CookbookAtlas.Proofs.Recipe.Moves
import Mathlib.Data.List.Induction
import Mathlib.Data.List.TakeWhile

/-! The questions about a statement as loops over the indexes of its tokens. Every index and every
stretch is checked against the list, and each loop finds what the recursion over the list finds.
What carries the proofs is that the loop at index `done.length` of `done ++ rest` has `rest` before
it. -/
namespace CookbookAtlas.Recipe
namespace Checked

open Assembly List Option

def down : Nat → Option Nat
  | 0 => none
  | n + 1 => some n

theorem down_eq {n : Nat} (h : n ≠ 0) : down n = some (n - 1) := by
  cases n with
  | zero => exact absurd rfl h
  | succ n => rfl

/-- The tokens from `start` up to and without `stop`, if the list has them. -/
def stretch (toks : List Token) (start stop : Nat) : Option (List Token) :=
  if start ≤ stop ∧ stop ≤ toks.length then some ((toks.take stop).drop start) else none

theorem stretch_middle (done middle rest : List Token) :
    stretch (done ++ middle ++ rest) done.length (done.length + middle.length) = some middle := by
  have hle : done.length + middle.length ≤ (done ++ middle ++ rest).length := by simp
  rw [stretch, if_pos ⟨Nat.le_add_right _ _, hle⟩, ← length_append, take_left, drop_left]

theorem stretch_before (done rest : List Token) :
    stretch (done ++ rest) 0 done.length = some done := by
  have h := stretch_middle [] done rest
  rwa [nil_append, length_nil, Nat.zero_add] at h

theorem stretch_after (done rest : List Token) :
    stretch (done ++ rest) done.length (done ++ rest).length = some rest := by
  have h := stretch_middle done rest []
  rwa [append_nil, ← length_append] at h

/-- The stretch behind one more token. -/
theorem stretch_past (done : List Token) (t : Token) (rest : List Token) :
    stretch (done ++ t :: rest) (done.length + 1) (done ++ t :: rest).length = some rest := by
  have h := stretch_after (done ++ [t]) rest
  rwa [append_assoc, singleton_append, length_append, length_singleton] at h

/-- The token right before an index. -/
def tokenBefore (toks : List Token) (i : Nat) : Option Token := (down i).bind fun j => toks[j]?

/-- Asks about the kind of the token before an index; the first has none before it. -/
def askBefore (p : Option Token.Kind → Bool) (toks : List Token) (i : Nat) : Option Bool :=
  if i = 0 then some (p none) else (tokenBefore toks i).map fun t => p (some t.kind)

def lastKind (done : List Token) : Option Token.Kind := done.getLast?.map Token.kind

@[simp] theorem lastKind_nil : lastKind [] = none := rfl

@[simp] theorem lastKind_concat (done : List Token) (t : Token) :
    lastKind (done ++ [t]) = some t.kind := by
  simp [lastKind]

theorem tokenBefore_eq (done rest : List Token) :
    tokenBefore (done ++ rest) done.length = done.getLast? := by
  cases done using List.reverseRecOn with
  | nil => rfl
  | append_singleton done t => simp [tokenBefore, down]

theorem askBefore_eq (p : Option Token.Kind → Bool) (done rest : List Token) :
    askBefore p (done ++ rest) done.length = some (p (lastKind done)) := by
  cases done using List.reverseRecOn with
  | nil => rfl
  | append_singleton done t =>
    rw [askBefore, if_neg (by simp), tokenBefore_eq, lastKind_concat, List.getLast?_concat]
    rfl

theorem isSome_lastKind (done : List Token) :
    (lastKind done).isSome = decide (0 < done.length) := by
  cases done using List.reverseRecOn with
  | nil => rfl
  | append_singleton done t => simp

/-- Moves the index of a loop past a token. -/
theorem append_cons_eq (done : List Token) (t : Token) (rest : List Token) :
    done ++ t :: rest = done ++ [t] ++ rest := by simp

theorem length_concat (done : List Token) (t : Token) : done.length + 1 = (done ++ [t]).length := by
  simp

def endlessFrom (toks : List Token) (i depth : Nat) : List Token → Option Bool
  | [] => some false
  | t :: rest =>
    if t.kind = .assign ∧ depth = 0 then
      (tokenBefore toks i).map fun prev => decide (prev.stop < t.start)
    else
      let depth := if t.kind = .leftParen then depth + 1
        else if t.kind = .rightParen then depth - 1 else depth
      endlessFrom toks (i + 1) depth rest

def isEndless (toks : List Token) : Option Bool := endlessFrom toks 1 0 (toks.drop 1)

theorem endlessFrom_eq (done : List Token) (prev : Token) (rest : List Token) (depth : Nat) :
    endlessFrom (done ++ [prev] ++ rest) (done ++ [prev]).length depth rest =
      some (Recipe.endlessFrom prev depth rest) := by
  induction rest generalizing done prev depth with
  | nil => rfl
  | cons t rest ih =>
    rw [endlessFrom, Recipe.endlessFrom, tokenBefore_eq, List.getLast?_concat]
    split_ifs
    all_goals first
      | rfl
      | rw [append_cons_eq, length_concat]; exact ih _ _ _

theorem isEndless_eq (toks : List Token) : isEndless toks = some (Recipe.isEndless toks) := by
  cases toks with
  | nil => rfl
  | cons t rest => exact endlessFrom_eq [] t rest 0

/-- The index of the last `do` outside brackets. -/
def lastDo (toks : List Token) (i depth : Nat) (found : Option Nat) :
    List Token → Option (Option Nat)
  | [] => some found
  | t :: rest => do
    let member ← askBefore isMember toks i
    let found := if depth = 0 ∧ t.isWord "do" ∧ !member then some i else found
    lastDo toks (i + 1) (t.kind.depthAfter depth) found rest

theorem lastDo_eq (done rest : List Token) (depth : Nat) (found : Option Nat) :
    lastDo (done ++ rest) done.length depth found rest =
      some (((splitDo depth (lastKind done) rest).map fun p => done.length + p.1.length).or found) := by
  induction rest generalizing done depth found with
  | nil => rfl
  | cons t rest ih =>
    have hrest := ih (done ++ [t]) (t.kind.depthAfter depth)
    rw [← append_cons_eq, ← length_concat, lastKind_concat] at hrest
    rw [lastDo, askBefore_eq, bind_eq_bind, bind_some, hrest, splitDo]
    cases splitDo (t.kind.depthAfter depth) (some t.kind) rest with
    | some p => simp [Nat.add_assoc, Nat.add_comm 1]
    | none =>
      dsimp only [map_none, none_or]
      split_ifs <;> rfl

def blockParameters (rest : List Token) : Option (Option (List String)) :=
  match rest.head?, (rest.drop 1).getLast? with
  | none, _ => some (some [])
  | some _, none => some none
  | some first, some last =>
    if first.kind = .pipe ∧ last.kind = .pipe then do
      let stop ← down rest.length
      let inner ← stretch rest 1 stop
      some (some (inner.filterMap Token.ident?))
    else some none

theorem blockParameters_eq (rest : List Token) :
    blockParameters rest = some (blockParameters? rest) := by
  cases rest with
  | nil => rfl
  | cons first rest =>
    rw [blockParameters, blockParameters?]
    cases rest using List.reverseRecOn with
    | nil => rfl
    | append_singleton inner last =>
      have hinner : stretch (first :: (inner ++ [last])) 1 (inner.length + 1) = some inner := by
        have h := stretch_middle [first] inner [last]
        rwa [append_assoc, singleton_append, length_singleton, Nat.add_comm] at h
      simp only [List.head?_cons, drop_succ_cons, drop_zero, List.getLast?_concat,
        length_cons, length_append, length_nil, Nat.zero_add, down,
        dropLast_concat, bind_eq_bind, bind_some, hinner]
      split_ifs <;> rfl

/-- The head of a statement that ends in `do`, and the parameters behind it. -/
def blockDo (toks : Statement) : Option (Option (List Token × List String)) := do
  match ← lastDo toks 0 0 none toks with
  | none => some none
  | some index => do
    let rest ← stretch toks (index + 1) toks.length
    match ← blockParameters rest with
    | none => some none
    | some parameters => (stretch toks 0 index).map fun head => some (head, parameters)

theorem blockDo_eq (toks : Statement) : blockDo toks = some (blockDo? toks) := by
  have hlast := lastDo_eq [] toks 0 none
  rw [nil_append, length_nil, lastKind_nil] at hlast
  rw [blockDo, hlast, blockDo?]
  cases hsplit : splitDo 0 none toks with
  | none => rfl
  | some p =>
    obtain ⟨before, after⟩ := p
    obtain ⟨t, rfl⟩ := splitDo_eq hsplit
    simp only [map_some, some_or, Nat.zero_add, bind_eq_bind,
      bind_some, stretch_past, stretch_before, blockParameters_eq]
    cases blockParameters? after <;> rfl

/-- The index of the first modifier outside brackets. -/
def modifierIndex (toks : List Token) (i depth : Nat) : List Token → Option (Option Nat)
  | [] => some none
  | t :: rest => do
    let opens ← askBefore opensHere toks i
    let member ← askBefore isMember toks i
    if depth = 0 ∧ 0 < i ∧ !opens ∧ !member ∧ t.ident?.any modifiers.contains then some (some i)
    else modifierIndex toks (i + 1) (t.kind.depthAfter depth) rest

theorem modifierIndex_eq (done rest : List Token) (depth : Nat) :
    modifierIndex (done ++ rest) done.length depth rest =
      some (match splitModifier depth (lastKind done) rest with
        | (_, []) => none
        | (main, _ :: _) => some (done.length + main.length)) := by
  induction rest generalizing done depth with
  | nil => rfl
  | cons t rest ih =>
    have hrest := ih (done ++ [t]) (t.kind.depthAfter depth)
    rw [← append_cons_eq, ← length_concat, lastKind_concat] at hrest
    have hhere : (depth = 0 ∧ 0 < done.length ∧ (!opensHere (lastKind done)) = true ∧
        (!isMember (lastKind done)) = true ∧ t.ident?.any modifiers.contains = true) ↔
        depth = 0 ∧ isModifier (lastKind done) t = true := by
      simp [isModifier, isSome_lastKind, and_assoc]
    rw [modifierIndex, askBefore_eq, askBefore_eq, bind_eq_bind, bind_some, bind_some, splitModifier,
      hrest]
    simp only [hhere]
    split
    · rfl
    · rcases splitModifier (t.kind.depthAfter depth) (some t.kind) rest with ⟨main, _ | ⟨u, guard⟩⟩
      · rfl
      · simp only [length_cons]
        rw [Nat.add_assoc, Nat.add_comm 1]

/-- The tokens before the first modifier, and those from it on. -/
def modified (toks : Statement) : Option (List Token × List Token) := do
  match ← modifierIndex toks 0 0 toks with
  | none => some (toks, [])
  | some i => do
    let main ← stretch toks 0 i
    let guard ← stretch toks i toks.length
    some (main, guard)

theorem modified_eq (toks : Statement) : modified toks = some (splitModifier 0 none toks) := by
  have hindex := modifierIndex_eq [] toks 0
  have happend := append_splitModifier 0 none toks
  rw [nil_append, length_nil, lastKind_nil] at hindex
  rw [modified, hindex]
  rcases hsplit : splitModifier 0 none toks with ⟨main, _ | ⟨t, guard⟩⟩
  · obtain rfl : main = toks := by simpa [hsplit] using happend
    rfl
  · obtain rfl : main ++ t :: guard = toks := by simpa [hsplit] using happend
    simp only [Nat.zero_add, bind_eq_bind, bind_some, stretch_before, stretch_after]

/-- The index of the first `do`, inside brackets or not. -/
def firstDo (toks : List Token) (i : Nat) : List Token → Option (Option Nat)
  | [] => some none
  | t :: rest => do
    let member ← askBefore isMember toks i
    if t.isWord "do" ∧ !member then some (some i) else firstDo toks (i + 1) rest

theorem firstDo_eq (done rest : List Token) :
    firstDo (done ++ rest) done.length rest =
      some ((splitFirstDo (lastKind done) rest).map fun p => done.length + p.1.length) := by
  induction rest generalizing done with
  | nil => rfl
  | cons t rest ih =>
    have hrest := ih (done ++ [t])
    rw [← append_cons_eq, ← length_concat, lastKind_concat] at hrest
    rw [firstDo, askBefore_eq, bind_eq_bind, bind_some, hrest, splitFirstDo]
    split
    · rfl
    · rw [Option.map_map]
      congr 2
      funext p
      simp only [Function.comp_apply, length_cons]
      omega

/-- The index of the last token of a sort. -/
def lastIndex (p : Token → Bool) : List Token → Option Nat
  | [] => none
  | t :: rest =>
    match lastIndex p rest with
    | some i => some (i + 1)
    | none => if p t then some 0 else none

theorem lastIndex_none {p : Token → Bool} {toks : List Token} (h : lastIndex p toks = none) :
    ∀ t ∈ toks, p t = false := by
  induction toks with
  | nil => exact fun t ht => absurd ht not_mem_nil
  | cons t toks ih =>
    rw [lastIndex] at h
    split at h
    · cases h
    · rename_i hrest
      split at h
      · cases h
      · rename_i ht
        exact forall_mem_cons.mpr ⟨Bool.eq_false_iff.mpr ht, ih hrest⟩

theorem lastIndex_some {p : Token → Bool} {toks : List Token} {i : Nat}
    (h : lastIndex p toks = some i) :
    ∃ done t rest, toks = done ++ t :: rest ∧ done.length = i ∧ p t = true ∧
    ∀ u ∈ rest, p u = false := by
  induction toks generalizing i with
  | nil => cases h
  | cons t toks ih =>
    rw [lastIndex] at h
    split at h
    · rename_i j hrest
      cases h
      obtain ⟨done, u, rest, rfl, rfl, hu, hlater⟩ := ih hrest
      exact ⟨t :: done, u, rest, rfl, rfl, hu, hlater⟩
    · rename_i hrest
      split at h
      · rename_i ht
        cases h
        exact ⟨[], t, toks, rfl, rfl, ht, lastIndex_none hrest⟩
      · cases h

/-- The index of the point of the last `.each…` call outside brackets. -/
def eachIndex (head : List Token) (i depth : Nat) (found : Option Nat) : List Token → Option Nat
  | [] => found
  | t :: rest =>
    let here := depth = 0 ∧ (t.kind = .dot ∨ t.kind = .safeNavigation) ∧
      (head[i + 1]?.bind Token.ident?).any fun word => "each".toList.isPrefixOf word.toList
    eachIndex head (i + 1) (t.kind.depthAfter depth) (if here then some i else found) rest

theorem eachIndex_eq (done rest : List Token) (depth : Nat) (found : Option Nat) :
    eachIndex (done ++ rest) done.length depth found rest =
      ((splitEach depth rest).map fun p => done.length + p.1.length).or found := by
  induction rest generalizing done depth found with
  | nil => rfl
  | cons t rest ih =>
    have hrest := ih (done ++ [t]) (t.kind.depthAfter depth)
    rw [← append_cons_eq, ← length_concat] at hrest
    have hnext : (done ++ t :: rest)[done.length + 1]? = rest.head? := by
      simp [List.getElem?_append_right, List.head?_eq_getElem?]
    rw [eachIndex, hnext, hrest, splitEach.eq_def depth (t :: rest)]
    dsimp only
    cases splitEach (t.kind.depthAfter depth) rest with
    | some p => simp [Nat.add_assoc, Nat.add_comm 1]
    | none =>
      by_cases hdot : depth = 0 ∧ (t.kind = .dot ∨ t.kind = .safeNavigation)
      · cases rest with
        | nil => simp
        | cons m after =>
          cases hm : m.ident? with
          | none => simp [hm]
          | some word =>
            simp only [hm, hdot.1, hdot.2, List.head?_cons, bind_some, any_some, true_and, and_self, if_true]
            split <;> simp
      · rw [if_neg hdot, if_neg fun h => hdot ⟨h.1, h.2.1⟩]
        rfl

theorem splitEach_eq {depth : Nat} {head before after : List Token} {method : String}
    (h : splitEach depth head = some (before, method, after)) :
    ∃ point m, head = before ++ point :: m :: after ∧ m.ident? = some method := by
  induction head generalizing depth before with
  | nil => cases h
  | cons t toks ih =>
    rw [splitEach.eq_def] at h
    dsimp only at h
    split at h
    · rename_i hrest
      cases h
      obtain ⟨point, m, rfl, hm⟩ := ih hrest
      exact ⟨point, m, rfl, hm⟩
    · split at h
      · split at h
        · split at h
          · rename_i hword
            split at h
            · cases h
              exact ⟨t, _, rfl, hword⟩
            · cases h
          · cases h
        · cases h
      · cases h

/-- Where the tokens behind the last assignment start. -/
def receiverStart (before : List Token) : Nat :=
  match lastIndex (fun t => t.kind.isAssignment) before with
  | some i => i + 1
  | none => 0

theorem receiverStart_split (before : List Token) :
    ∃ done, before = done ++ afterAssignment before ∧ done.length = receiverStart before := by
  rw [receiverStart, afterAssignment]
  cases h : lastIndex (fun t => t.kind.isAssignment) before with
  | none =>
    have hall : ∀ t ∈ before.reverse, (!t.kind.isAssignment) = true := fun t ht => by
      simp [lastIndex_none h t (mem_reverse.mp ht)]
    rw [takeWhile_eq_self_iff.mpr hall, reverse_reverse]
    exact ⟨[], rfl, rfl⟩
  | some i =>
    obtain ⟨done, t, rest, rfl, rfl, ht, hlater⟩ := lastIndex_some h
    have hall : ∀ u ∈ rest.reverse, (!u.kind.isAssignment) = true := fun u hu => by
      simp [hlater u (mem_reverse.mp hu)]
    have hbehind : ((done ++ t :: rest).reverse.takeWhile fun t => !t.kind.isAssignment) =
        rest.reverse := by
      rw [reverse_append, reverse_cons, append_assoc, takeWhile_append_of_pos hall]
      simp [ht]
    rw [hbehind, reverse_reverse]
    exact ⟨done ++ [t], by simp, by simp⟩

/-- An open piece of a list, last token first: it starts at `start` and ends before `i`. -/
structure Opened (toks : List Token) (start i : Nat) (current rest : List Token) : Prop where
  split : ∃ done, toks = done ++ current.reverse ++ rest ∧ done.length = start
  stop : i = start + current.length

namespace Opened
variable {toks current rest : List Token} {start i : Nat} {t : Token}

theorem whole (toks : List Token) : Opened toks 0 0 [] toks := ⟨⟨[], rfl, rfl⟩, rfl⟩

theorem push (h : Opened toks start i current (t :: rest)) :
    Opened toks start (i + 1) (t :: current) rest where
  split := by
    obtain ⟨done, rfl, hdone⟩ := h.split
    exact ⟨done, by simp, hdone⟩
  stop := by rw [h.stop, length_cons, Nat.add_assoc]

theorem fresh (h : Opened toks start i current (t :: rest)) :
    Opened toks (i + 1) (i + 1) [] rest where
  split := by
    obtain ⟨done, rfl, hdone⟩ := h.split
    exact ⟨done ++ current.reverse ++ [t], by simp, by simp [h.stop, hdone, Nat.add_assoc]⟩
  stop := rfl

theorem stretch_eq (h : Opened toks start i current rest) :
    stretch toks start i = some current.reverse := by
  obtain ⟨done, rfl, rfl⟩ := h.split
  have hmiddle := stretch_middle done current.reverse rest
  rwa [length_reverse, ← h.stop] at hmiddle

theorem stretch_rest (h : Opened toks start i current rest) :
    stretch toks i toks.length = some rest := by
  obtain ⟨done, rfl, rfl⟩ := h.split
  have hi : i = (done ++ current.reverse).length := by simp [h.stop]
  rw [hi]
  exact stretch_after (done ++ current.reverse) rest

theorem length_eq (h : Opened toks start i current []) : i = toks.length := by
  obtain ⟨done, rfl, rfl⟩ := h.split
  simp [h.stop]

theorem isEmpty_iff (h : Opened toks start i current rest) :
    current.isEmpty = true ↔ ¬start < i := by
  cases current <;> simp [h.stop]

end Opened

def continuesAt (tokens : List Token) (start newline : Nat) : Option Bool := do
  let current ← stretch tokens start newline
  match current.getLast? with
  | none => some false
  | some last =>
    if dangles last.kind then some true
    else (stretch tokens newline tokens.length).map startsWithPoint

/-- Statements of the tokens from an index on; the open one starts at `start`. -/
def statementsFrom (tokens : List Token) (start i depth : Nat) :
    List Token → Option (List Statement)
  | [] => do
    let current ← stretch tokens (min start tokens.length) tokens.length
    match lastIndex (fun t => !t.isNewline) current with
    | none => some []
    | some last => (stretch tokens start (start + last + 1)).map ([·])
  | t :: rest =>
    if depth = 0 ∧ t.kind = .newline then do
      let goesOn ← if start < i then continuesAt tokens start i else some false
      if goesOn then statementsFrom tokens start (i + 1) 0 rest
      else if start < i then do
        let done ← stretch tokens start i
        (statementsFrom tokens (i + 1) (i + 1) 0 rest).map (done :: ·)
      else statementsFrom tokens (i + 1) (i + 1) 0 rest
    else if depth = 0 ∧ t.kind = .semicolon then
      if start < i then do
        let done ← stretch tokens start i
        (statementsFrom tokens (i + 1) (i + 1) 0 rest).map (done :: ·)
      else statementsFrom tokens (i + 1) (i + 1) 0 rest
    else statementsFrom tokens start (i + 1) (t.kind.depthAfter depth) rest

def statements (tokens : List Token) : Option (List Statement) := statementsFrom tokens 0 0 0 tokens

theorem continuesAt_eq {tokens current rest : List Token} {start i : Nat} {last t : Token}
    (h : Opened tokens start i (last :: current) (t :: rest)) (ht : t.kind = .newline) :
    continuesAt tokens start i = some (continues last rest) := by
  have hpoint : startsWithPoint (t :: rest) = startsWithPoint rest := by
    simp [startsWithPoint, Token.isNewline, ht]
  rw [continuesAt, h.stretch_eq, h.stretch_rest, continues, bind_eq_bind, bind_some,
    List.getLast?_reverse, List.head?_cons, map_some, hpoint]
  cases hlast : dangles last.kind <;> simp [hlast]

/-- The last statement goes up to the last token that is no line end. -/
theorem lastStatement_eq {tokens current : List Token} {start i : Nat}
    (h : Opened tokens start i current []) :
    (match lastIndex (fun t => !t.isNewline) current.reverse with
      | none => some []
      | some last => (stretch tokens start (start + last + 1)).map ([·])) =
      some (finished (current.dropWhile Token.isNewline)) := by
  cases hlast : lastIndex (fun t => !t.isNewline) current.reverse with
  | none =>
    have hall : ∀ t ∈ current, t.isNewline = true := fun t ht => by
      simpa using lastIndex_none hlast t (mem_reverse.mpr ht)
    rw [dropWhile_eq_nil_iff.mpr hall]
    rfl
  | some k =>
    obtain ⟨before, t, after, hcurrent, rfl, ht, hlater⟩ := lastIndex_some hlast
    obtain ⟨done, rfl, rfl⟩ := h.split
    have hall : ∀ u ∈ after.reverse, u.isNewline = true := fun u hu => by
      simpa using hlater u (mem_reverse.mp hu)
    have hdrop : current.dropWhile Token.isNewline = t :: before.reverse := by
      rw [← reverse_reverse current, hcurrent, reverse_append, reverse_cons,
        append_assoc, dropWhile_append_of_pos hall]
      simpa using ht
    have hstretch := stretch_middle done (before ++ [t]) after
    rw [length_append, length_singleton, ← Nat.add_assoc] at hstretch
    dsimp only
    rw [hdrop, hcurrent, append_nil, append_cons_eq, ← append_assoc, hstretch]
    simp [finished]

theorem statementsFrom_eq {tokens current rest : List Token} {start i : Nat}
    (h : Opened tokens start i current rest) (depth : Nat) :
    statementsFrom tokens start i depth rest = some (Recipe.statementsFrom depth current rest) := by
  induction rest generalizing start i current depth with
  | nil =>
    have hstart : min start tokens.length = start := by
      rw [← h.length_eq, h.stop]
      exact Nat.min_eq_left (Nat.le_add_right _ _)
    rw [statementsFrom, Recipe.statementsFrom, hstart, ← h.length_eq, h.stretch_eq]
    exact lastStatement_eq h
  | cons t rest ih =>
    have hopen : ∀ {last : Token} {inner : List Token}, current = last :: inner → start < i := by
      rintro last inner rfl
      exact Decidable.of_not_not fun hnot => absurd (h.isEmpty_iff.mpr hnot) (by simp)
    by_cases hline : depth = 0 ∧ t.kind = .newline
    · obtain ⟨rfl, hkind⟩ := hline
      rw [statementsFrom, if_pos ⟨rfl, hkind⟩, h.stretch_eq, ih h.fresh 0, ih h.push 0]
      cases current with
      | nil =>
        rw [if_neg (h.isEmpty_iff.mp rfl), statementsFrom_newline_nil hkind]
        exact if_neg (h.isEmpty_iff.mp rfl)
      | cons last current =>
        rw [if_pos (hopen rfl), continuesAt_eq h hkind, statementsFrom_newline_cons hkind]
        cases hgoes : continues last rest with
        | true => rfl
        | false => exact if_pos (hopen rfl)
    · by_cases hsemi : depth = 0 ∧ t.kind = .semicolon
      · obtain ⟨rfl, hkind⟩ := hsemi
        rw [statementsFrom, if_neg hline, if_pos ⟨rfl, hkind⟩, h.stretch_eq, ih h.fresh 0,
          statementsFrom_semicolon hkind]
        cases current with
        | nil => exact if_neg (h.isEmpty_iff.mp rfl)
        | cons last current => exact if_pos (hopen rfl)
      · rw [statementsFrom, if_neg hline, if_neg hsemi, statementsFrom_push hline hsemi]
        exact ih h.push _

theorem statements_eq (tokens : List Token) : statements tokens = some (Recipe.statements tokens) :=
  statementsFrom_eq (.whole tokens) 0

end Checked
end CookbookAtlas.Recipe
