import CookbookAtlas.Proofs.Attribute.Prevailing

/-! Assignments in another order. The attribute tree depends on the order of assignments within each
rank only, and two neighbours of one rank whose paths do not lead to each other may change places:
the tree stays the same up to the order of keys. -/
namespace CookbookAtlas

open List Members Recipe

namespace Attribute

/-- Values that differ in the order of keys only. -/
inductive Rearranged : Datum → Datum → Prop
  | same (v : Datum) : Rearranged v v
  | object {ms ns : Members} (keys : ms.keys.Perm ns.keys)
      (values : ∀ key v w, ms.get? key = some v → ns.get? key = some w → Rearranged v w) :
      Rearranged (.object ms) (.object ns)

namespace Rearranged
variable {t u v : Datum} {old old' : Option Datum}

theorem keys_perm (h : Rearranged t u) : t.members.keys.Perm u.members.keys := by
  cases h with
  | same => exact .refl _
  | object keys values => exact keys

theorem get? (h : Rearranged t u) (key : String) :
    Option.Rel Rearranged (t.members.get? key) (u.members.get? key) := by
  cases h with
  | same =>
    cases t.members.get? key with
    | none => exact .none
    | some v => exact .some (.same v)
  | @object ms ns keys values =>
    have hsome : (ms.get? key).isSome = true ↔ (ns.get? key).isSome = true := by
      rw [isSome_get?_iff, isSome_get?_iff, keys.mem_iff]
    simp only [Datum.members]
    cases hm : ms.get? key <;> cases hn : ns.get? key
    · exact .none
    · simp [hm, hn] at hsome
    · simp [hm, hn] at hsome
    · exact .some (values key _ _ hm hn)

theorem insert {w : Datum} (h : Rearranged t u) (hv : Rearranged v w) (key : String) :
    Rearranged (.object (t.members.insert key v)) (.object (u.members.insert key w)) := by
  refine .object ?_ fun k x y hx hy => ?_
  · rw [keys_insert, keys_insert]
    simp only [h.keys_perm.mem_iff]
    split
    · exact h.keys_perm
    · exact h.keys_perm.append_right _
  · by_cases hk : key = k
    · subst hk
      rw [get?_insert_self] at hx hy
      obtain rfl := Option.some.inj hx
      obtain rfl := Option.some.inj hy
      exact hv
    · rw [get?_insert_ne _ _ hk] at hx hy
      have hrel := h.get? k
      rw [hx, hy] at hrel
      cases hrel with
      | some hxy => exact hxy

theorem merge_scalar {source : Datum} (hsource : source.isMapping = false) (t u : Datum) :
    Rearranged (merge t source) (merge u source) := by
  rw [merge_of_not_isMapping t hsource, merge_of_not_isMapping u hsource]
  exact .same source

theorem mergedInto (hv : ∀ {t u : Datum}, Rearranged t u → Rearranged (merge t v) (merge u v))
    (h : Option.Rel Rearranged old old') : Rearranged (mergedInto old v) (mergedInto old' v) := by
  cases h with
  | none => exact .same v
  | some hinner => exact hv hinner

mutual
theorem merge :
    ∀ (source : Datum) {t u : Datum}, Rearranged t u → Rearranged (merge t source) (merge u source)
  | .object new, t, u, h => by
    cases h with
    | same => exact .same _
    | object keys values =>
      rw [Attribute.merge, Attribute.merge]
      exact mergeMembers new (.object keys values)
  | .null, t, u, _ | .bool _, t, u, _ | .number _, t, u, _ | .string _, t, u, _
  | .array _, t, u, _ => merge_scalar rfl t u

theorem mergeMembers :
    ∀ (new : List (String × Datum)) {ms ns : Members}, Rearranged (.object ms) (.object ns) →
    Rearranged (.object (mergeMembers ms new)) (.object (mergeMembers ns new))
  | [], ms, ns, h => by rwa [Attribute.mergeMembers, Attribute.mergeMembers]
  | (key, v) :: rest, ms, ns, h => by
    rw [mergeMembers_cons, mergeMembers_cons]
    exact mergeMembers rest (h.insert (mergedInto (fun hinner => merge v hinner) (h.get? key)) key)
end

theorem getD (h : Option.Rel Rearranged old old') (v : Datum) :
    Rearranged (old.getD v) (old'.getD v) := by
  cases h with
  | none => exact .same v
  | some hinner => exact hinner

theorem insertPath (h : Rearranged t u) (path : List String) (v : Datum) :
    Rearranged (insertPath t path v) (insertPath u path v) := by
  induction path generalizing t u with
  | nil => exact h
  | cons key rest ih =>
    rw [insertPath_cons, insertPath_cons]
    refine h.insert ?_ key
    cases rest with
    | nil => exact mergedInto (merge v) (h.get? key)
    | cons next more => exact ih (getD (h.get? key) _)

theorem applyWrites (h : Rearranged t u) (ws : List Write) :
    Rearranged (applyWrites t ws) (applyWrites u ws) := by
  induction ws generalizing t u with
  | nil => exact h
  | cons w ws ih =>
    rw [applyWrites_cons, applyWrites_cons]
    exact ih (h.insertPath w.path w.value)

end Rearranged

theorem rearranged_insert_insert (ms : Members) {key other : String} (hne : key ≠ other)
    (v w : Datum) :
    Rearranged (.object ((ms.insert key v).insert other w)) (.object ((ms.insert other w).insert key v)) := by
  have hget : ∀ k, ((ms.insert key v).insert other w).get? k =
      ((ms.insert other w).insert key v).get? k := by
    intro k
    by_cases hother : other = k
    · subst hother
      rw [get?_insert_self, get?_insert_ne _ _ hne, get?_insert_self]
    · rw [get?_insert_ne _ _ hother]
      by_cases hkey : key = k
      · subst hkey
        rw [get?_insert_self, get?_insert_self]
      · rw [get?_insert_ne _ _ hkey, get?_insert_ne _ _ hkey, get?_insert_ne _ _ hother]
  refine .object ?_ fun k x y hx hy => ?_
  · simp only [keys_insert]
    by_cases hkey : key ∈ ms.keys <;> by_cases hother : other ∈ ms.keys <;>
      simp [hkey, hother, hne, Ne.symm hne, List.Perm.append_left, List.Perm.swap]
  · rw [hget k, hy] at hx
    obtain rfl := Option.some.inj hx
    exact .same y

/-- The order of two writes at paths apart shows in the order of keys only. -/
theorem rearranged_insertPath_swap (root : Datum) {p q : List String} (h : Apart p q)
    (v w : Datum) :
    Rearranged (insertPath (insertPath root p v) q w) (insertPath (insertPath root q w) p v) := by
  induction p generalizing root q with
  | nil => exact absurd nil_prefix h.1
  | cons key rest ih =>
    obtain ⟨other, more, rfl⟩ := exists_cons_of_ne_nil h.ne_nil
    simp only [insertPath_cons, Datum.members]
    by_cases hkey : key = other
    · subst hkey
      have hinner : Apart rest more := h.of_cons
      simp only [get?_insert_self, insert_insert_self]
      refine (Rearranged.same root).insert ?_ key
      obtain ⟨next, rest, rfl⟩ := exists_cons_of_ne_nil hinner.symm.ne_nil
      obtain ⟨next', more, rfl⟩ := exists_cons_of_ne_nil hinner.ne_nil
      exact ih _ hinner
    · rw [get?_insert_ne _ _ hkey, get?_insert_ne _ _ (Ne.symm hkey)]
      exact rearranged_insert_insert root.members hkey _ _

/-- Writes from the lowest rank to the highest, those of one rank in their order. -/
def sorted (writes : List Write) : List Write := writes.mergeSort fun v w => v.rank ≤ w.rank

theorem rank_le_trans (u v w : Write) (huv : decide (u.rank ≤ v.rank) = true)
    (hvw : decide (v.rank ≤ w.rank) = true) : decide (u.rank ≤ w.rank) = true :=
  decide_eq_true (Nat.le_trans (of_decide_eq_true huv) (of_decide_eq_true hvw))

theorem rank_le_total (v w : Write) :
    (decide (v.rank ≤ w.rank) || decide (w.rank ≤ v.rank)) = true := by
  simpa using Nat.le_total v.rank w.rank

theorem pairwise_sorted (writes : List Write) :
    (sorted writes).Pairwise fun v w => v.rank ≤ w.rank := by
  have h : (sorted writes).Pairwise fun v w => decide (v.rank ≤ w.rank) = true :=
    pairwise_mergeSort rank_le_trans rank_le_total writes
  simpa using h

theorem ofRank_sorted (rank : Nat) (writes : List Write) :
    ofRank rank (sorted writes) = ofRank rank writes := by
  have hrank : ∀ w ∈ ofRank rank writes, w.rank = rank := fun w hw => (mem_ofRank.mp hw).2
  have hlevel : (ofRank rank writes).Pairwise fun v w => decide (v.rank ≤ w.rank) = true :=
    pairwise_of_forall_mem_list fun v hv w hw => by simp [hrank v hv, hrank w hw]
  -- the sort is stable, so writes of one rank come in the order they had
  have hsub : (ofRank rank writes).Sublist (sorted writes) :=
    sublist_mergeSort rank_le_trans rank_le_total hlevel filter_sublist
  have hwithin : (ofRank rank (ofRank rank writes)).Sublist (ofRank rank (sorted writes)) :=
    hsub.filter _
  rw [ofRank_own hrank] at hwithin
  exact (hwithin.eq_of_length ((mergeSort_perm writes _).symm.filter _).length_eq).symm

theorem filter_lt_succ {writes : List Write} (h : writes.Pairwise fun v w => v.rank ≤ w.rank)
    (n : Nat) :
    (writes.filter fun w => w.rank < n + 1) =
    (writes.filter fun w => w.rank < n) ++ ofRank n writes := by
  induction writes with
  | nil => rfl
  | cons w writes ih =>
    obtain ⟨hfirst, hrest⟩ := pairwise_cons.mp h
    have ih := ih hrest
    rw [ofRank] at ih ⊢
    rcases Nat.lt_trichotomy w.rank n with hlt | heq | hgt
    · have hsucc : decide (w.rank < n + 1) = true := decide_eq_true (Nat.lt_succ_of_lt hlt)
      have hbelow : decide (w.rank < n) = true := decide_eq_true hlt
      have hother : (w.rank == n) = false := beq_false_of_ne (Nat.ne_of_lt hlt)
      simp only [filter_cons, hsucc, hbelow, hother, if_true, Bool.false_eq_true, if_false, ih,
        cons_append]
    · have hnone : (writes.filter fun w => w.rank < n) = [] := by
        rw [filter_eq_nil_iff]
        intro u hu
        have := hfirst u hu
        simp only [decide_eq_true_eq]
        omega
      have hsucc : decide (w.rank < n + 1) = true := decide_eq_true (by omega)
      have hbelow : decide (w.rank < n) = false := decide_eq_false (by omega)
      have hown : (w.rank == n) = true := beq_iff_eq.mpr heq
      simp only [filter_cons, hsucc, hbelow, hown, if_true, Bool.false_eq_true, if_false, ih, hnone,
        nil_append]
    · have hsucc : decide (w.rank < n + 1) = false := decide_eq_false (by omega)
      have hbelow : decide (w.rank < n) = false := decide_eq_false (by omega)
      have hother : (w.rank == n) = false := beq_false_of_ne (by omega)
      simp only [filter_cons, hsucc, hbelow, hother, Bool.false_eq_true, if_false, ih]

theorem ranked_of_pairwise {writes : List Write} (h : writes.Pairwise fun v w => v.rank ≤ w.rank)
    (hranks : ∀ w ∈ writes, w.rank ∈ ranks) : ranked writes = writes := by
  have hbelow : ∀ n, (List.range n).flatMap (ofRank · writes) =
      writes.filter fun w => w.rank < n := by
    intro n
    induction n with
    | zero => simp
    | succ n ih => rw [range_succ, flatMap_append, ih, flatMap_singleton, filter_lt_succ h]
  rw [ranked_eq, ranks, hbelow, filter_eq_self]
  intro w hw
  simpa [ranks] using hranks w hw

theorem ranked_eq_sorted {writes : List Write} (hranks : ∀ w ∈ writes, w.rank ∈ ranks) :
    ranked writes = sorted writes := by
  have hsame : ranked writes = ranked (sorted writes) := by
    simp only [ranked_eq, ofRank_sorted]
  rw [hsame, ranked_of_pairwise (pairwise_sorted writes)]
  exact fun w hw => hranks w ((mergeSort_perm writes _).subset hw)

theorem ranked_ofAssignments (assignments : List Assignment) :
    ranked (assignments.filterMap Write.ofAssignment?) = ranks.flatMap fun rank =>
      (assignments.filter fun a => a.precedence.rank == rank).filterMap Write.ofAssignment? := by
  refine flatMap_congr fun rank _ => ?_
  rw [filter_filterMap, filterMap_filter]
  refine filterMap_congr fun a _ => ?_
  cases h : a.value <;> simp [Write.ofAssignment?, h, Option.filter]

theorem rank_mem_of_ofAssignments {assignments : List Assignment} :
    ∀ w ∈ assignments.filterMap Write.ofAssignment?, w.rank ∈ ranks := by
  intro w hw
  obtain ⟨a, -, -, -, hrank⟩ := exists_assignment hw
  exact hrank ▸ rank_mem_ranks a.precedence

/-- Two writes of one rank that change places are still neighbours when they are applied. -/
theorem rearranged_applyWrites_swap (root : Datum) {v w : Write} (hrank : v.rank ∈ ranks)
    (hsame : v.rank = w.rank) (hpaths : Apart v.path w.path) (before after : List Write) :
    Rearranged (applyWrites root (ranked (before ++ [v, w] ++ after)))
      (applyWrites root (ranked (before ++ [w, v] ++ after))) := by
  obtain ⟨earlier, later, -, hranked⟩ := ranked_block hrank before after
  rw [hranked [v, w] (by simp [hsame]), hranked [w, v] (by simp [hsame])]
  simp only [applyWrites_append]
  exact (rearranged_insertPath_swap _ hpaths v.value w.value).applyWrites later

theorem rearranged_tree_swap {a b : Assignment} (hrank : a.precedence.rank = b.precedence.rank)
    (hpaths : Apart a.path b.path) (before after : List Assignment) :
    Rearranged (tree (before ++ a :: b :: after)) (tree (before ++ b :: a :: after)) := by
  simp only [tree, filterMap_append]
  cases ha : Write.ofAssignment? a with
  | none =>
    simp only [filterMap_cons, ha]
    exact .same _
  | some v =>
    cases hb : Write.ofAssignment? b with
    | none =>
      simp only [filterMap_cons, ha, hb]
      exact .same _
    | some w =>
      obtain ⟨-, hv, hvrank⟩ := Write.ofAssignment?_eq_some_iff.mp ha
      obtain ⟨-, hw, hwrank⟩ := Write.ofAssignment?_eq_some_iff.mp hb
      have hswap := rearranged_applyWrites_swap Datum.emptyMapping (hvrank ▸ rank_mem_ranks a.precedence)
        (hvrank ▸ hwrank ▸ hrank) (hv ▸ hw ▸ hpaths) (before.filterMap Write.ofAssignment?)
        (after.filterMap Write.ofAssignment?)
      simpa [ha, hb] using hswap

/-- Literal assignments are applied as a stable sort by rank leaves them. So lists with the same
assignments of each rank, in the same order, have the same tree down to the order of keys, and two
neighbours of one rank with paths apart may change places up to the order of keys. -/
theorem tree_order_independent :
    (∀ assignments, tree assignments =
      applyWrites Datum.emptyMapping (sorted (assignments.filterMap Write.ofAssignment?))) ∧
    (∀ l m : List Assignment,
      (∀ rank, (l.filter fun a => a.precedence.rank == rank) =
      m.filter fun a => a.precedence.rank == rank) → tree l = tree m) ∧
    ∀ (before : List Assignment) (a b : Assignment) (after : List Assignment),
      a.precedence.rank = b.precedence.rank → Apart a.path b.path →
      Rearranged (tree (before ++ a :: b :: after)) (tree (before ++ b :: a :: after)) := by
  refine ⟨fun assignments => ?_, fun l m h => ?_, fun before a b after hrank hpaths =>
    rearranged_tree_swap hrank hpaths before after⟩
  · rw [tree, ranked_eq_sorted rank_mem_of_ofAssignments]
  · rw [tree, tree, ranked_ofAssignments, ranked_ofAssignments]
    simp only [h]

/-- A name in place of the application, to be written over. -/
def appName : Assignment := sampleAssignment .default ["app"] (some (.string "app"))
def appDefaultPort : Assignment :=
  sampleAssignment .default ["app", "port"] (some (.number (.int 80)))
def appDefaultUser : Assignment := sampleAssignment .default ["app", "user"] (some (.string "app"))

/-- A port at a high rank may stand anywhere; port and user change places below a name that both of
them write over. -/
theorem app_reordered :
    tree [appPort, appName, appDefaultUser] = tree [appName, appDefaultUser, appPort] ∧
    tree [appName, appDefaultPort, appDefaultUser] =
      .object [("app", .object [("port", .number (.int 80)), ("user", .string "app")])] ∧
    tree [appName, appDefaultUser, appDefaultPort] =
      .object [("app", .object [("user", .string "app"), ("port", .number (.int 80))])] ∧
    Apart appDefaultPort.path appDefaultUser.path ∧
    Rearranged (tree [appName, appDefaultPort, appDefaultUser])
      (tree [appName, appDefaultUser, appDefaultPort]) := by
  obtain ⟨-, hsame, hswap⟩ := tree_order_independent
  have hranks : ∀ rank, ([appPort, appName, appDefaultUser].filter fun a => a.precedence.rank == rank) =
      [appName, appDefaultUser, appPort].filter fun a => a.precedence.rank == rank := by
    intro rank
    by_cases hrank : rank = 3
    · subst hrank
      rfl
    · have hport : (appPort.precedence.rank == rank) = false := beq_false_of_ne (Ne.symm hrank)
      simp only [filter_cons, filter_nil, hport, Bool.false_eq_true, if_false]
  have hpaths : Apart appDefaultPort.path appDefaultUser.path := by decide
  exact ⟨hsame _ _ hranks, rfl, rfl, hpaths,
    hswap [appName] appDefaultPort appDefaultUser [] rfl hpaths⟩

end Attribute
end CookbookAtlas
