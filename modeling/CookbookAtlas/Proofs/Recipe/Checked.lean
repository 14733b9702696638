import CookbookAtlas.Proofs.Recipe.Indexes
import CookbookAtlas.Proofs.Recipe.WorkList
import CookbookAtlas.Proofs.Token.Exchange
import CookbookAtlas.Proofs.Token.Progress

/-! A reader of recipes that checks each thing it does: every cut of the source lies between two
characters, every list that is asked for its first token has one, every index is in range, and every
counter stays in its bounds. Nothing comes out where a check fails. -/
namespace CookbookAtlas.Recipe
namespace Checked

open Assembly List Text Option Token

/-- Tokens of a source, in order: each owns the text of its span, and ends before the next one
starts. -/
structure Ordered (s : Source) (toks : List Token) : Prop where
  told : ∀ t ∈ toks, Told s.chars t
  sorted : toks.Pairwise fun t u => t.stop ≤ u.start

variable {s : Source} {toks : List Token}

theorem Ordered.sublist {part : List Token} (h : Ordered s toks) (hpart : part.Sublist toks) :
    Ordered s part :=
  ⟨fun t ht => h.told t (hpart.subset ht), h.sorted.sublist hpart⟩

/-- An offset that lies between two characters of the source, or at one of its ends. -/
def isBoundary (s : Source) (offset : Nat) : Bool := (cutBytes? offset s.chars).isSome

theorem isBoundary_of_append {before after : List Char} (h : s.chars = before ++ after) :
    isBoundary s (byteLength before) = true := by
  rw [isBoundary, h, cutBytes?_append]
  rfl

theorem isBoundary_start {t : Token} (h : Told s.chars t) : isBoundary s t.start = true := by
  obtain ⟨before, own, after, hsource, -, hstart, -, -⟩ := h
  rw [hstart]
  exact isBoundary_of_append (hsource.trans (append_assoc _ _ _))

theorem isBoundary_stop {t : Token} (h : Told s.chars t) : isBoundary s t.stop = true := by
  obtain ⟨before, own, after, hsource, -, -, hstop, -⟩ := h
  rw [hstop, ← byteLength_append]
  exact isBoundary_of_append hsource

def cut (s : Source) (start stop : Nat) : Option (List Char) :=
  if start ≤ stop ∧ isBoundary s start ∧ isBoundary s stop then some (slice s.chars start stop)
  else none

theorem cut_eq {start stop : Nat} (hle : start ≤ stop) (hstart : isBoundary s start = true)
    (hstop : isBoundary s stop = true) : cut s start stop = some (slice s.chars start stop) :=
  if_pos ⟨hle, hstart, hstop⟩

def between (s : Source) (start stop : Nat) : Option String :=
  (cut s start stop).map fun cs => String.ofList (trim cs)

theorem between_eq {start stop : Nat} (hle : start ≤ stop) (hstart : isBoundary s start = true)
    (hstop : isBoundary s stop = true) : between s start stop = some (s.between start stop) := by
  rw [between, cut_eq hle hstart hstop]
  rfl

theorem Ordered.start_le_stop {first last : Token} (h : Ordered s toks)
    (hfirst : toks.head? = some first)
    (hlast : toks.getLast? = some last) : first.start ≤ last.stop := by
  have hlt : ∀ t ∈ toks, t.start < t.stop := fun t ht => (h.told t ht).start_lt
  obtain ⟨rest, rfl⟩ := List.head?_eq_some_iff.mp hfirst
  cases rest with
  | nil =>
    obtain rfl : first = last := by simpa using hlast
    exact Nat.le_of_lt (hlt first mem_cons_self)
  | cons second rest =>
    have hmem : last ∈ second :: rest := mem_of_getLast? (by simpa using hlast)
    calc first.start ≤ first.stop := Nat.le_of_lt (hlt first mem_cons_self)
      _ ≤ last.start := (pairwise_cons.mp h.sorted).1 last hmem
      _ ≤ last.stop := Nat.le_of_lt (hlt last (mem_cons_of_mem first hmem))

def text (s : Source) (toks : List Token) : Option String :=
  match toks.head?, toks.getLast? with
  | some first, some last => between s first.start last.stop
  | _, _ => some ""

theorem text_eq (h : Ordered s toks) : text s toks = some (s.text toks) := by
  rw [text, Source.text]
  cases hfirst : toks.head? with
  | none => rfl
  | some first =>
    cases hlast : toks.getLast? with
    | none => rfl
    | some last =>
      exact between_eq (h.start_le_stop hfirst hlast) (isBoundary_start (h.told first (mem_of_mem_head? hfirst)))
        (isBoundary_stop (h.told last (mem_of_getLast? hlast)))

def line (s : Source) (toks : List Token) : Option String := (text s toks).map collapsed

theorem line_eq (h : Ordered s toks) : line s toks = some (s.line toks) := by
  rw [line, text_eq h]
  rfl

/-- The body of a delimited literal; a closing mark inside it ends a nesting that was opened. -/
def body (d : Delimiters) (b : Token.Body) : Zone → List Char → Option Token.Body
  | _, [] => some b
  | .text nesting, c :: cs =>
    if c = '\\' then
      match cs with
      | [] => some b.skip
      | e :: rest => body d (b.pushEscape (d.unescape e)) (.text nesting) rest
    else if c = '#' ∧ d.escapes ∧ cs.head? = some '\x7b'
      then body d b.interpolate (.code nesting 0 none) cs
    else if some c = d.opening then body d (b.push c) (.text (nesting + 1)) cs
    else if c = d.closing then
      if nesting = 0 then some b.skip
      else (down nesting).bind fun nesting => body d (b.push c) (.text nesting) cs
    else body d (b.push c) (.text nesting) cs
  | .code nesting depth mark, c :: cs =>
    if c = '\\' ∧ mark.isSome then
      match cs with
      | [] => some (b.push c)
      | e :: rest => body d ((b.push c).push e) (.code nesting depth mark) rest
    else body d (b.push c) (codeZone nesting depth mark c) cs

theorem body_eq (d : Delimiters) (b : Token.Body) (zone : Zone) (cs : List Char) :
    body d b zone cs = some (readBody d b zone cs) := by
  fun_induction readBody d b zone cs with
  | case7 b nesting cs hnesting hslash hhash hopen ih =>
    rw [body.eq_def]
    dsimp only
    rw [if_neg hslash, if_neg hhash, if_neg hopen, if_pos rfl, if_neg hnesting, down_eq hnesting]
    exact ih
  | _ =>
    unfold body
    simp_all

def quotedAhead (after : List Char) : Option Bool :=
  if after.head?.any fun c => c == '\'' || c == '"' then
    (cutBytes? 1 after).map fun inner =>
      inner.head?.any fun c => isAsciiAlphabetic c || c == '_'
  else some false

theorem quotedAhead_cons (c : Char) (rest : List Char) :
    quotedAhead (c :: rest) = some ((c == '\'' || c == '"') &&
      rest.head?.any fun d => isAsciiAlphabetic d || d == '_') := by
  rw [quotedAhead, List.head?_cons, any_some]
  by_cases hquote : (c == '\'' || c == '"') = true
  · have hsize : byteLength [c] = 1 := by
      rcases Bool.or_eq_true_iff.mp hquote with hc | hc <;> rw [beq_iff_eq.mp hc] <;> rfl
    have hone : cutBytes? 1 (c :: rest) = some rest := by
      rw [← hsize]
      exact cutBytes?_append [c] rest
    rw [if_pos hquote, hone, hquote]
    rfl
  · rw [if_neg hquote, Bool.eq_false_iff.mpr hquote]
    rfl

/-- Whether a heredoc opens here: `ahead` starts with the two marks. -/
def heredocAhead (last : Option Kind) (ahead : List Char) : Option Bool := do
  let after ← cutBytes? 2 ahead
  let after := after.drop (heredocFlag after).length
  let quoted ← quotedAhead after
  let named := after.head?.any fun c => isAsciiUpper c || c == '_'
  let placed := expectsValue last ||
    match last with
    | some (.ident _) | some (.constant _) => true
    | _ => false
  some ((named || quoted) && placed)

theorem heredocAhead_eq (last : Option Kind) (cs : List Char) :
    heredocAhead last ('<' :: '<' :: cs) = some (Token.heredocAhead last cs) := by
  have hmarks : cutBytes? 2 ('<' :: '<' :: cs) = some cs := cutBytes?_append ['<', '<'] cs
  unfold heredocAhead Token.heredocAhead
  rw [hmarks, bind_eq_bind, bind_some]
  cases cs.drop (heredocFlag cs).length with
  | nil => rfl
  | cons c rest =>
    dsimp only
    rw [quotedAhead_cons]
    rfl

theorem cut_middle {passed middle rest : List Char} (h : s.chars = passed ++ middle ++ rest) :
    cut s (byteLength passed) (byteLength passed + byteLength middle) = some middle := by
  have hstart : isBoundary s (byteLength passed) = true :=
    isBoundary_of_append (h.trans (List.append_assoc _ _ _))
  have hstop : isBoundary s (byteLength passed + byteLength middle) = true := by
    rw [← byteLength_append]
    exact isBoundary_of_append h
  rw [cut_eq (Nat.le_add_right _ _) hstart hstop, h, slice_append]

/-- Body lines of a heredoc, last one first, cut out of the source from an offset on, and the offset
behind them. -/
def bodyLines (s : Source) (h : Heredoc) (pos : Nat) (done : List (List Char)) :
    List Char → Option (List (List Char) × Nat)
  | [] => some (done, pos)
  | c :: cs => do
    let stop := pos + byteLength ((c :: cs).takeWhile (· ≠ '\n'))
    let line ← cut s pos stop
    let ahead := (c :: cs).dropWhile (· ≠ '\n')
    let next := stop + byteLength (ahead.take 1)
    if h.isTerminator line then some (done, next)
    else bodyLines s h next (line :: done) (ahead.drop 1)
termination_by rest => rest.length
decreasing_by
  have hle := (List.dropWhile_sublist (l := c :: cs) (· ≠ '\n')).length_le
  simp only [List.length_drop, List.length_cons] at hle ⊢
  omega

/-- The lines of a body are cut at boundaries, and are those that are read character
by character. -/
theorem bodyLines_eq (h : Heredoc) {passed rest : List Char} (hsource : s.chars = passed ++ rest)
    (done : List (List Char)) (width : Nat) :
    ∃ lines n, h.readLines [] done width rest = (lines, width + n) ∧
      bodyLines s h (byteLength passed) done rest =
        some (lines, byteLength (passed ++ rest.take n)) := by
  obtain ⟨size, hsize⟩ : ∃ size, rest.length ≤ size := ⟨_, Nat.le_refl _⟩
  induction size generalizing passed rest done width with
  | zero =>
    obtain rfl := List.length_eq_zero_iff.mp (Nat.le_zero.mp hsize)
    exact ⟨done, 0, rfl, by simp [bodyLines]⟩
  | succ size ih =>
    cases rest with
    | nil => exact ⟨done, 0, rfl, by simp [bodyLines]⟩
    | cons c cs =>
      have hsplit := List.takeWhile_append_dropWhile (p := (· ≠ '\n')) (l := c :: cs)
      have hline : '\n' ∉ (c :: cs).takeWhile (· ≠ '\n') := fun hmem => by
        simpa using List.mem_takeWhile_imp hmem
      have hnewline := List.head?_dropWhile_not (· ≠ '\n') (c :: cs)
      rw [bodyLines]
      generalize (c :: cs).takeWhile (· ≠ '\n') = line at hsplit hline ⊢
      generalize (c :: cs).dropWhile (· ≠ '\n') = ahead at hsplit hnewline ⊢
      rw [← hsplit, ← List.append_assoc] at hsource
      rw [← hsplit, cut_middle hsource, bind_eq_bind, bind_some, ← byteLength_append]
      cases ahead with
      | nil =>
        have hne : line ≠ [] := by
          rintro rfl
          cases hsplit
        refine ⟨if h.isTerminator line then done else line :: done, line.length, ?_, ?_⟩
        · rw [h.readLines_open hline, Heredoc.readLines]
          cases hstop : h.isTerminator line <;> simp [hne, hstop]
        · cases h.isTerminator line <;> simp [bodyLines]
      | cons d later =>
        obtain rfl : d = '\n' := by simpa using hnewline
        have hlater : later.length ≤ size := by
          have hlength := congrArg List.length hsplit
          rw [List.length_append, List.length_cons] at hlength
          omega
        cases hstop : h.isTerminator line with
        | true =>
          refine ⟨done, line.length + 1, h.readLines_stop hline hstop done width later, ?_⟩
          rw [List.take_length_add_append, ← List.append_assoc, byteLength_append (passed ++ line)]
          rfl
        | false =>
          have hnext : s.chars = passed ++ line ++ ['\n'] ++ later := by simp [hsource]
          obtain ⟨lines, n, hread, hbody⟩ := ih hnext (line :: done) (width + (line.length + 1)) hlater
          refine ⟨lines, line.length + 1 + n, ?_, ?_⟩
          · rw [h.readLines_line hline hstop, hread, Nat.add_assoc]
          · rw [byteLength_append (passed ++ line)] at hbody
            rw [Nat.add_assoc, List.take_length_add_append, Nat.add_comm 1, List.take_succ_cons]
            refine hbody.trans ?_
            simp only [List.append_assoc, List.singleton_append]

def add (sum change : Int) : Option Int :=
  if -2147483648 ≤ sum + change ∧ sum + change < 2147483648 then some (sum + change) else none

/-- The balance of a statement, summed from its first token on. -/
def balanceFrom (toks : List Token) (endless skipDo : Bool) (i : Nat) (sum : Int) :
    List Token → Option Int
  | [] => some sum
  | t :: rest => do
    let step (change : Int) (skip : Bool) : Option Int :=
      (add sum change).bind fun sum => balanceFrom toks endless skip (i + 1) sum rest
    let member ← askBefore isMember toks i
    let opens ← askBefore opensHere toks i
    match if member then none else t.ident? with
    | none => step 0 skipDo
    | some word =>
      if word = "end" then step (-1) skipDo
      else if word = "do" then (if skipDo then step 0 false else step 1 false)
      else if openers.contains word && opens then step 1 skipDo
      else if decide (i = 0) && (word == "for" || word == "class" || word == "module") then
        step 1 skipDo
      else if decide (i = 0) && word == "def" && !endless then step 1 skipDo
      else step 0 skipDo

def balance (toks : Statement) : Option Int := do
  let skipDo := (toks.head?.bind Token.ident?).any isLoopHead
  let endless ← isEndless toks
  balanceFrom toks endless skipDo 0 0 toks

theorem add_eq {sum change : Int} {n : Nat} (hchange : change.natAbs ≤ 1)
    (hsum : sum.natAbs + (n + 1) < Nat.pow 2 31) :
    add sum change = some (sum + change) ∧ (sum + change).natAbs + n < Nat.pow 2 31 := by
  have hword : Nat.pow 2 31 = 2147483648 := rfl
  refine ⟨if_pos ⟨?_, ?_⟩, ?_⟩ <;> omega

theorem balanceFrom_eq (endless skipDo : Bool) (done rest : List Token) {sum : Int}
    (hsum : sum.natAbs + rest.length < Nat.pow 2 31) :
    balanceFrom (done ++ rest) endless skipDo done.length sum rest =
      some (sum + Recipe.balanceFrom endless skipDo (lastKind done) rest) := by
  induction rest generalizing skipDo done sum with
  | nil => simp [balanceFrom, Recipe.balanceFrom]
  | cons t rest ih =>
    have hstep : ∀ (change : Int) (skip : Bool), change.natAbs ≤ 1 →
        ((add sum change).bind fun sum =>
          balanceFrom (done ++ t :: rest) endless skip (done.length + 1) sum rest) =
          some (sum + (change + Recipe.balanceFrom endless skip (some t.kind) rest)) := by
      intro change skip hchange
      obtain ⟨hadd, hnext⟩ := add_eq hchange hsum
      rw [hadd, bind_some, append_cons_eq, length_concat, ih skip (done ++ [t]) hnext,
        lastKind_concat, Int.add_assoc]
    have hfirst : decide (done.length = 0) = (lastKind done).isNone := by
      cases done using List.reverseRecOn <;> simp
    rw [balanceFrom, Recipe.balanceFrom, askBefore_eq, askBefore_eq, hfirst]
    dsimp only [bind_eq_bind, bind_some]
    cases (if isMember (lastKind done) then none else t.ident?) with
    | none => exact hstep 0 skipDo (by decide)
    | some word =>
      dsimp only
      split_ifs <;> exact hstep _ _ (by decide)

theorem Ordered.length_le (h : Ordered s toks) : toks.length ≤ byteLength s.chars := by
  have hfrom : ∀ bound ≤ byteLength s.chars, (∀ t ∈ toks, bound ≤ t.start) →
      bound + toks.length ≤ byteLength s.chars := by
    obtain ⟨htold, hsorted⟩ := h
    induction toks with
    | nil => exact fun bound hbound _ => hbound
    | cons t toks ih =>
      intro bound _ hstarts
      have ht := htold t List.mem_cons_self
      have hlt := ht.start_lt
      have hle := hstarts t List.mem_cons_self
      have hstop : t.stop ≤ byteLength s.chars := by
        obtain ⟨before, own, after, hsource, -, -, hstop, -⟩ := ht
        rw [hsource, hstop, byteLength_append, byteLength_append]
        exact Nat.le_add_right _ _
      have hrest := ih (fun u hu => htold u (List.mem_cons_of_mem t hu))
        (List.pairwise_cons.mp hsorted).2 t.stop hstop
        (List.pairwise_cons.mp hsorted).1
      rw [List.length_cons]
      omega
  have h0 := hfrom 0 (Nat.zero_le _) fun t _ => Nat.zero_le _
  omega

def Small (s : Source) : Prop := byteLength s.chars < Nat.pow 2 31

theorem balance_eq (hsize : Small s) (h : Ordered s toks) :
    balance toks = some (Recipe.balance toks) := by
  have hlength := h.length_le
  have hsum : (0 : Int).natAbs + toks.length < Nat.pow 2 31 := by
    rw [Small] at hsize
    simp only [Int.natAbs_zero]
    omega
  have hfrom := balanceFrom_eq (Recipe.isEndless toks) ((toks.head?.bind Token.ident?).any isLoopHead)
    [] toks hsum
  rw [List.nil_append, List.length_nil, lastKind_nil, Int.zero_add] at hfrom
  rw [balance, isEndless_eq]
  exact hfrom

theorem stripParens_sublist (toks : List Token) : (stripParens toks).Sublist toks := by
  rw [stripParens]
  split
  · exact (List.dropLast_sublist _).trans (List.drop_sublist _ _)
  · exact List.Sublist.refl toks

theorem argumentsFrom_sublist (depth : Nat) (current : List Token) :
    ∀ arg ∈ argumentsFrom depth current toks, arg.Sublist (current.reverse ++ toks) := by
  induction toks generalizing depth current with
  | nil =>
    intro arg harg
    cases current <;> simp_all [argumentsFrom]
  | cons t toks ih =>
    have hlater : toks.Sublist (current.reverse ++ t :: toks) :=
      (List.sublist_cons_self t toks).trans (List.sublist_append_right _ _)
    intro arg harg
    rw [argumentsFrom] at harg
    split at harg
    · split at harg
      · exact (ih 0 [] arg harg).trans hlater
      · rcases List.mem_cons.mp harg with rfl | harg
        · exact List.sublist_append_left _ _
        · exact (ih 0 [] arg harg).trans hlater
    · simpa using ih _ (t :: current) arg harg

theorem arguments_sublist {arg : List Token} (harg : arg ∈ arguments toks) : arg.Sublist toks :=
  argumentsFrom_sublist 0 [] arg harg

/-- The collection and the method of an `each` call at the end of a block head. -/
def eachCall (s : Source) (head : List Token) : Option (Option (String × String)) :=
  match eachIndex head 0 0 none head with
  | none => some none
  | some point => do
    let after ← stretch head (point + 2) head.length
    if after.isEmpty || inParens after then do
      let before ← stretch head 0 point
      let start := receiverStart before
      if start < point then do
        let first ← head[start]?
        let last ← tokenBefore head point
        let collection ← between s first.start last.stop
        let member ← head[point + 1]?
        some (member.ident?.map fun method => (collection, method))
      else some none
    else some none

theorem eachCall_eq {head : List Token} (h : Ordered s head) :
    eachCall s head = some ((eachCall? head).map fun each => (s.text each.receiver, each.method)) := by
  have hindex := eachIndex_eq [] head 0 none
  rw [List.nil_append, List.length_nil] at hindex
  rw [eachCall, hindex, eachCall?]
  cases hsplit : splitEach 0 head with
  | none => rfl
  | some found =>
    obtain ⟨before, method, after⟩ := found
    obtain ⟨point, member, rfl, hmember⟩ := splitEach_eq hsplit
    obtain ⟨done, hbefore, hdone⟩ := receiverStart_split before
    have hafter : stretch (before ++ point :: member :: after) (before.length + 2)
        (before ++ point :: member :: after).length = some after := by
      simpa using stretch_after (before ++ [point, member]) after
    have hnext : (before ++ point :: member :: after)[before.length + 1]? = some member := by simp
    simp only [map_some, some_or, Nat.zero_add, bind_eq_bind, bind_some,
      hafter, stretch_before, ← hdone, hnext, hmember]
    have hreceiver : (afterAssignment before).Sublist (before ++ point :: member :: after) :=
      (List.IsSuffix.sublist ⟨done, hbefore.symm⟩).trans (List.sublist_append_left _ _)
    have htext := text_eq (h.sublist hreceiver)
    cases hargs : after.isEmpty || inParens after with
    | false => rfl
    | true =>
      cases hcase : afterAssignment before with
      | nil =>
        have hle : ¬done.length < before.length := by
          rw [hcase, List.append_nil] at hbefore
          rw [hbefore]
          exact Nat.lt_irrefl _
        rw [if_neg hle]
        rfl
      | cons first rest =>
        rw [hcase] at hbefore htext
        obtain ⟨last, hlast⟩ := List.getLast?_isSome.mpr (List.cons_ne_nil first rest)
          |> isSome_iff_exists.mp
        have hlt : done.length < before.length := by simp [hbefore]
        have hfirst : (before ++ point :: member :: after)[done.length]? = some first := by
          simp [hbefore]
        have hend : before.getLast? = some last := by
          rw [hbefore, List.getLast?_append, hlast]
          rfl
        have hcut : between s first.start last.stop = some (s.text (first :: rest)) := by
          rw [← htext, text, List.head?_cons, hlast]
        rw [if_pos rfl, if_pos hlt, hfirst, tokenBefore_eq, hend, bind_some, bind_some, hcut]
        rfl

theorem dropTail_sublist (toks : List Token) : (dropTail toks).Sublist toks := by
  cases toks with
  | nil => exact List.Sublist.refl []
  | cons t toks =>
    have hkept := (List.dropWhile_sublist (l := toks.reverse) fun t => t.isWord "then" || t.isWord "do").reverse
    rw [List.reverse_reverse] at hkept
    exact hkept.cons_cons t

theorem splitClause_head_sublist (word : String) (toks : Statement) :
    (splitClause word toks).1.Sublist toks := by
  rw [splitClause]
  split
  · exact List.take_sublist _ _
  · exact List.takeWhile_sublist _

theorem afterNode_suffix (toks : List Token) : afterNode toks <:+ toks := by
  unfold afterNode
  split
  · split
    · exact (List.suffix_cons _ _).trans (List.suffix_cons _ _)
    · exact List.suffix_rfl
  · exact List.suffix_rfl

theorem mapM_option_eq {α β : Type} {o : Option α} {f : α → Option β} {g : α → β}
    (h : ∀ x ∈ o, f x = some (g x)) : o.mapM f = some (o.map g) := by
  cases o with
  | none => rfl
  | some x => simp [h x rfl]

theorem mapM_list_eq {α β : Type} {xs : List α} {f : α → Option β} {g : α → β}
    (h : ∀ x ∈ xs, f x = some (g x)) : xs.mapM f = some (xs.map g) := by
  induction xs with
  | nil => rfl
  | cons x xs ih => simp [h x List.mem_cons_self, ih fun y hy => h y (List.mem_cons_of_mem x hy)]

theorem foldlM_eq {α β : Type} {xs : List α} {f : β → α → Option β} {g : β → α → β} (b : β)
    (h : ∀ x ∈ xs, ∀ b, f b x = some (g b x)) : xs.foldlM f b = some (xs.foldl g b) := by
  induction xs generalizing b with
  | nil => rfl
  | cons x xs ih => simp [h x List.mem_cons_self, ih _ fun y hy => h y (List.mem_cons_of_mem x hy)]

def argument (s : Source) (toks : List Token) : Option (String × Bool) :=
  match toks with
  | [⟨.string value interpolated, _, _, _⟩] => some (value, interpolated)
  | _ => (text s toks).map fun raw => (raw, true)

theorem argument_eq (h : Ordered s toks) : argument s toks = some (Recipe.argument s toks) := by
  unfold Recipe.argument
  split
  · rfl
  · rename_i hother
    rw [argument.eq_2 s toks hother, text_eq h]
    rfl

def resourceCall (s : Source) (head : List Token) (hasBlock : Bool) : Option (Option Resource) :=
  match head with
  | [] => some none
  | first :: rest =>
    match first.ident? with
    | none => some none
    | some word =>
      if callsResource word (rest.head?.map Token.kind) hasBlock then do
        let named ← (arguments (stripParens rest)).head?.mapM (argument s)
        some (some {
          file := s.file
          line := first.line
          resourceType := word
          name := named.map Prod.fst
          dynamicName := (named.map Prod.snd).getD false
          custom := !isBuiltin word
          properties := []
          raw := "" })
      else some none

theorem resourceCall_eq {head : List Token} (h : Ordered s head) (hasBlock : Bool) :
    resourceCall s head hasBlock = some (resourceCall? s head hasBlock) := by
  cases head with
  | nil => rfl
  | cons first rest =>
    have hnamed : (arguments (stripParens rest)).head?.mapM (argument s) =
        some ((arguments (stripParens rest)).head?.map (Recipe.argument s)) := by
      refine mapM_option_eq fun arg harg => argument_eq (h.sublist ?_)
      have hpart := (arguments_sublist (mem_of_mem_head? harg)).trans (stripParens_sublist rest)
      exact hpart.cons first
    rw [resourceCall, resourceCall?]
    cases first.ident? with
    | none => rfl
    | some word =>
      dsimp only
      split
      · rw [hnamed]
        rfl
      · rfl

def references (s : Source) (kind : ReferenceKind) (toks : Statement) : Option (List Reference) :=
  do
  let first ← toks.head?
  (arguments (stripParens (toks.drop 1))).mapM fun arg => do
    let (target, dynamic) ← argument s arg
    some ⟨s.file, first.line, kind, target, dynamic⟩

theorem references_eq (h : Ordered s toks) (hne : toks ≠ []) (kind : ReferenceKind) :
    references s kind toks = some (Recipe.references s kind toks) := by
  obtain ⟨first, hfirst⟩ := isSome_iff_exists.mp (isSome_head?.mpr hne)
  rw [references, hfirst]
  refine (mapM_list_eq (g := fun arg =>
    ⟨s.file, first.line, kind, (Recipe.argument s arg).1, (Recipe.argument s arg).2⟩)
    fun arg harg => ?_).trans ?_
  · have hpart := (arguments_sublist harg).trans ((stripParens_sublist _).trans (drop_sublist 1 toks))
    rw [argument_eq (h.sublist hpart)]
    rfl
  · rw [Recipe.references, hfirst]
    rfl

def keyText (s : Source) (toks : List Token) : Option String :=
  match toks with
  | [⟨.string value false, _, _, _⟩] | [⟨.symbol value, _, _, _⟩] => some value
  | _ => text s toks

theorem keyText_eq (h : Ordered s toks) : keyText s toks = some (Recipe.keyText s toks) := by
  unfold Recipe.keyText
  split
  · rfl
  · rfl
  · rename_i hstring hsymbol
    rw [keyText.eq_3 s toks hstring hsymbol, text_eq h]

def assignmentPath (s : Source) (path : List String) (key : Option (Nat × List Token)) :
    List Token → Option (Option (List String × List Token))
  | [] => some none
  | t :: rest =>
    match key with
    | some (depth, inside) =>
      if t.kind = .leftBracket then assignmentPath s path (some (depth + 1, t :: inside)) rest
      else if t.kind = .rightBracket then
        if depth = 0 then (keyText s inside.reverse).bind fun key => assignmentPath s (key :: path) none rest
        else (down depth).bind fun depth => assignmentPath s path (some (depth, t :: inside)) rest
      else assignmentPath s path (some (depth, t :: inside)) rest
    | none =>
      if t.kind = .leftBracket then assignmentPath s path (some (0, [])) rest
      else if t.kind = .dot then
        match rest with
        | [] => some none
        | member :: after =>
          match member.ident? with
          | some name => assignmentPath s (name :: path) none after
          | none => some none
      else if t.kind.isAssignment then some (some (path.reverse, rest))
      else some none

theorem assignmentPath_sublist {path path' : List String} {key : Option (Nat × List Token)}
    {value : List Token}
    (h : Recipe.assignmentPath s path key toks = some (path', value)) : value.Sublist toks := by
  fun_induction Recipe.assignmentPath s path key toks with
  | case1 | case7 | case9 | case11 => cases h
  | case2 _ t _ _ _ _ ih | case3 _ t _ _ _ _ ih | case4 _ t _ _ _ _ _ _ ih
  | case5 _ t _ _ _ _ _ ih | case6 _ t _ _ ih => exact (ih h).cons t
  | case8 _ t _ _ member _ _ _ ih => exact ((ih h).cons member).cons t
  | case10 _ t rest =>
    cases h
    exact sublist_cons_self t _

/-- Tokens of the key that is read, if there is one. -/
def insideOf : Option (Nat × List Token) → List Token
  | some (_, inside) => inside
  | none => []

theorem assignmentPath_eq (path : List String) (key : Option (Nat × List Token))
    (h : Ordered s ((insideOf key).reverse ++ toks)) :
    assignmentPath s path key toks = some (Recipe.assignmentPath s path key toks) := by
  fun_induction Recipe.assignmentPath s path key toks with
  | case1 => rw [assignmentPath]
  | case2 path t rest depth inside hopen ih =>
    rw [assignmentPath.eq_def]
    dsimp only
    rw [if_pos hopen]
    exact ih (by simpa [insideOf] using h)
  | case3 path t rest inside hopen hclose ih =>
    have hinside : Ordered s inside.reverse := h.sublist (sublist_append_left _ _)
    have hrest : Ordered s rest :=
      h.sublist ((sublist_cons_self t rest).trans (sublist_append_right _ _))
    rw [assignmentPath.eq_def]
    dsimp only
    rw [if_neg hopen, if_pos hclose, if_pos rfl, keyText_eq hinside]
    exact ih hrest
  | case4 path t rest depth inside hopen hclose hdepth ih =>
    rw [assignmentPath.eq_def]
    dsimp only
    rw [if_neg hopen, if_pos hclose, if_neg hdepth, down_eq hdepth]
    exact ih (by simpa [insideOf] using h)
  | case5 path t rest depth inside hopen hclose ih =>
    rw [assignmentPath.eq_def]
    dsimp only
    rw [if_neg hopen, if_neg hclose]
    exact ih (by simpa [insideOf] using h)
  | case6 path t rest hopen ih =>
    rw [assignmentPath.eq_def]
    dsimp only
    rw [if_pos hopen]
    exact ih (h.sublist (sublist_cons_self t rest))
  | case7 path t hopen hdot =>
    rw [assignmentPath.eq_def]
    dsimp only
    rw [if_neg hopen, if_pos hdot]
  | case8 path t hopen hdot member rest name hname ih =>
    rw [assignmentPath.eq_def]
    dsimp only
    rw [if_neg hopen, if_pos hdot, hname]
    exact ih (h.sublist (((List.Sublist.refl rest).cons member).cons t))
  | case9 path t hopen hdot member rest hname =>
    rw [assignmentPath.eq_def]
    dsimp only
    rw [if_neg hopen, if_pos hdot, hname]
  | case10 path t rest hopen hdot hassign =>
    rw [assignmentPath.eq_def]
    dsimp only
    rw [if_neg hopen, if_neg hdot, if_pos hassign]
  | case11 path t rest hopen hdot hassign =>
    rw [assignmentPath.eq_def]
    dsimp only
    rw [if_neg hopen, if_neg hdot, if_neg hassign]

def assignment (s : Source) (toks : Statement) : Option (Option Assignment) :=
  match afterNode toks with
  | [] => some none
  | level :: rest =>
    match (level.ident?).bind Attribute.Precedence.ofWord? with
    | none => some none
    | some precedence => do
      let found ← assignmentPath s [] none rest
      match found with
      | none => some none
      | some (path, value) =>
        if path.isEmpty then some none
        else do
          let first ← toks.head?
          let raw ← text s value
          some (some {
            file := s.file
            line := first.line
            precedence := precedence
            path := path
            rawValue := raw
            displayValue := display s.displayLimit raw
            value := Literal.evaluate? value })

theorem assignment_eq (h : Ordered s toks) : assignment s toks = some (assignment? s toks) := by
  have hafter := (afterNode_suffix toks).sublist
  rw [assignment, assignment?]
  cases hlevel : afterNode toks with
  | nil => rfl
  | cons level rest =>
    rw [hlevel] at hafter
    have hne : toks ≠ [] := by
      rintro rfl
      simp at hafter
    obtain ⟨first, hfirst⟩ := isSome_iff_exists.mp (isSome_head?.mpr hne)
    have hrest : rest.Sublist toks := (sublist_cons_self level rest).trans hafter
    have hpath : assignmentPath s [] none rest = some (Recipe.assignmentPath s [] none rest) :=
      assignmentPath_eq [] none (h.sublist hrest)
    dsimp only
    cases level.ident?.bind Attribute.Precedence.ofWord? with
    | none => rfl
    | some precedence =>
      cases hfound : Recipe.assignmentPath s [] none rest with
      | none =>
        rw [hpath, hfound]
        rfl
      | some found =>
        obtain ⟨path, value⟩ := found
        have hvalue : text s value = some (s.text value) :=
          text_eq (h.sublist ((assignmentPath_sublist hfound).trans hrest))
        rw [hpath, hfound, hfirst]
        dsimp only [bind_eq_bind, bind_some]
        split
        · rfl
        · rw [hvalue]
          rfl

end Checked
end CookbookAtlas.Recipe
