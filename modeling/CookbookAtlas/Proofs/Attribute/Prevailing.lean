import CookbookAtlas.Proofs.Attribute.Leaves
import CookbookAtlas.Proofs.Attribute.Reading

/-! Which assignment prevails at a path. Assignments are applied by rank, and in their order within
one rank. What is assigned is read back at the path of each of its leaves, unless an assignment
applied later leads to that path or goes on from it, and a path that leads to no leaf assigned reads
as absent. -/
namespace CookbookAtlas

open List Members Recipe Datum

namespace Attribute
variable {root v : Datum} {l : Leaf} {path : List String} {members new : Members} {key : String} {rank : Nat}
  {a : Assignment} {after assignments before : List Assignment} {w : Write} {block writes : List Write}

theorem mergeMembers_cons (old : Members) (key : String) (v : Datum) (rest : Members) :
    mergeMembers old ((key, v) :: rest) =
      mergeMembers (old.insert key (mergedInto (old.get? key) v)) rest := by
  rw [mergeMembers]
  cases old.get? key <;> rfl

theorem get?_mergeMembers_of_not_mem (old : Members) (h : key ∉ new.keys) :
    (mergeMembers old new).get? key = old.get? key := by
  induction new generalizing old with
  | nil => rw [mergeMembers]
  | cons m new ih =>
    obtain ⟨k, v⟩ := m
    simp only [Members.keys, map_cons, mem_cons, not_or] at h
    rw [mergeMembers_cons, ih _ h.2, get?_insert_ne _ _ (Ne.symm h.1)]

theorem get?_mergeMembers_of_mem (old : Members) (hkeys : new.keys.Nodup) (h : (key, v) ∈ new) :
    (mergeMembers old new).get? key = some (mergedInto (old.get? key) v) := by
  induction new generalizing old with
  | nil => cases h
  | cons m new ih =>
    obtain ⟨k, w⟩ := m
    have hcons : k ∉ Members.keys new ∧ (Members.keys new).Nodup := nodup_cons.mp hkeys
    rw [mergeMembers_cons]
    rcases mem_cons.mp h with heq | hmem
    · obtain ⟨rfl, rfl⟩ := Prod.mk.inj heq
      rw [get?_mergeMembers_of_not_mem _ hcons.1, get?_insert_self]
    · have hne : k ≠ key := fun he => hcons.1 (he ▸ mem_map_of_mem hmem)
      rw [ih _ hcons.2 hmem, get?_insert_ne _ _ hne]

theorem get?_mergedInto_of_mem (old : Option Datum) (hkeys : new.keys.Nodup) (h : (key, v) ∈ new) :
    ∃ inner, (mergedInto old (.object new)).members.get? key = some (mergedInto inner v) := by
  have hnone : Members.get? new key = some (mergedInto none v) := get?_of_mem hkeys h
  rcases old with _ | ⟨⟩ | _ | _ | _ | _ | members
  case some.object =>
    exact ⟨_, by simpa [mergedInto, merge, Datum.members] using get?_mergeMembers_of_mem members hkeys h⟩
  all_goals exact ⟨none, by simpa [mergedInto, merge, Datum.members] using hnone⟩

mutual
/-- A leaf that is no mapping is read in a value whatever it was merged into. -/
theorem at?_mergedInto_leaf :
    ∀ (v : Datum), v.isKeyed = true → ∀ (old : Option Datum) (l : Leaf), l ∈ leaves v →
    l.2.isMapping = false → (mergedInto old v).at? l.1 = some l.2
  | .object [], _, old, l, hl, hleaf => by
    obtain rfl : l = ([], .object []) := by simpa [leaves] using hl
    cases hleaf
  | .object (m :: ms), h, old, l, hl, hleaf => by
    simp only [isKeyed, Bool.and_eq_true, decide_eq_true_eq] at h
    have hleaves : leaves (.object (m :: ms)) = leavesOf (m :: ms) := by simp [leaves]
    obtain ⟨key, v, path, hmem, hpath, hread⟩ :=
      at?_mergedInto_leafOf (m :: ms) h.2 l (hleaves ▸ hl) hleaf
    obtain ⟨inner, hget⟩ := get?_mergedInto_of_mem old h.1 hmem
    rw [hpath, at?_cons, hget, Option.bind_some, hread]
  | .null, _, old, l, hl, _ | .bool _, _, old, l, hl, _ | .number _, _, old, l, hl, _
  | .string _, _, old, l, hl, _
  | .array _, _, old, l, hl, _ =>
    mem_singleton.mp hl ▸ congrArg some (mergedInto_of_not_isMapping old rfl)

theorem at?_mergedInto_leafOf :
    ∀ (members : List (String × Datum)), areKeyed members = true → ∀ (l : Leaf),
    l ∈ leavesOf members → l.2.isMapping = false →
    ∃ key v path, (key, v) ∈ members ∧ l.1 = key :: path ∧
      ∀ old, (mergedInto old v).at? path = some l.2
  | [], _, l, hl, _ => by simp [leavesOf] at hl
  | (key, v) :: rest, h, l, hl, hleaf => by
    simp only [areKeyed, Bool.and_eq_true] at h
    simp only [leavesOf, mem_append, mem_map] at hl
    rcases hl with ⟨inner, hinner, rfl⟩ | hl
    · exact ⟨key, v, inner.1, mem_cons_self, rfl,
        fun old => at?_mergedInto_leaf v h.1 old inner hinner hleaf⟩
    · obtain ⟨k, w, path, hmem, hread⟩ := at?_mergedInto_leafOf rest h.2 l hl hleaf
      exact ⟨k, w, path, mem_cons_of_mem _ hmem, hread⟩
end

/-- Whether a path leads to a leaf, or is the path of one. -/
def LeadsTo (path : List String) (ls : List Leaf) : Prop := ∃ l ∈ ls, path <+: l.1

theorem leadsTo_nil (v : Datum) : LeadsTo [] (leaves v) := by
  obtain ⟨l, hl⟩ := exists_mem_of_ne_nil _ (leaves_ne_nil v)
  exact ⟨l, hl, nil_prefix⟩

theorem under_mem_leavesOf (h : (key, v) ∈ members) (hl : l ∈ leaves v) :
    l.under key ∈ leavesOf members := by
  induction members with
  | nil => cases h
  | cons m rest ih =>
    rw [leavesOf, mem_append]
    rcases mem_cons.mp h with rfl | h
    · exact .inl (mem_map_of_mem hl)
    · exact .inr (ih h)

theorem leadsTo_cons (h : (key, v) ∈ members) (hpath : LeadsTo path (leaves v)) :
    LeadsTo (key :: path) (leaves (.object members)) := by
  obtain ⟨l, hl, hprefix⟩ := hpath
  have hleaves : leaves (.object members) = leavesOf members := by
    rw [leaves, if_neg (by simpa using ne_nil_of_mem h)]
  exact ⟨l.under key, hleaves ▸ under_mem_leavesOf h hl, cons_prefix_cons.mpr ⟨rfl, hprefix⟩⟩

theorem at?_eq_none (h : ¬LeadsTo path (leaves v)) : v.at? path = none := by
  induction path generalizing v with
  | nil => exact absurd (leadsTo_nil v) h
  | cons key rest ih =>
    rw [at?_cons]
    cases hget : v.members.get? key with
    | none => rfl
    | some inner =>
      cases v with
      | object members => exact ih fun hinner => h (leadsTo_cons (mem_of_get? hget) hinner)
      | _ => cases hget

/-- A key at which neither the members merged nor those merged into have anything to read. -/
theorem bind_get?_mergeMembers_eq_none {read : Datum → Option Datum}
    (hnew : ∀ v, (key, v) ∈ new → ∀ old : Option Datum, old.bind read = none →
    read (mergedInto old v) = none) {old : Members}
    (hold : (old.get? key).bind read = none) :
    ((mergeMembers old new).get? key).bind read = none := by
  induction new generalizing old with
  | nil => rwa [mergeMembers]
  | cons m new ih =>
    obtain ⟨k, v⟩ := m
    rw [mergeMembers_cons]
    refine ih (fun w hw => hnew w (mem_cons_of_mem _ hw)) ?_
    by_cases hk : k = key
    · subst hk
      rw [get?_insert_self, Option.bind_some]
      exact hnew v mem_cons_self _ hold
    · rwa [get?_insert_ne _ _ hk]

theorem at?_mergedInto_eq_none {old : Option Datum} (hold : old.bind (Datum.at? · path) = none)
    (hv : ¬LeadsTo path (leaves v)) : (mergedInto old v).at? path = none := by
  induction path generalizing old v with
  | nil => exact absurd (leadsTo_nil v) hv
  | cons key rest ih =>
    have hreplaced := at?_eq_none hv
    rcases old with _ | ⟨⟩ | _ | _ | _ | _ | members
    case some.object =>
      cases v with
      | object new =>
        refine bind_get?_mergeMembers_eq_none (fun w hw inner hinner => ih hinner fun hleads => ?_) hold
        exact hv (leadsTo_cons hw hleads)
      | _ => exact hreplaced
    all_goals cases v <;> exact hreplaced

theorem at?_insertPath_eq_none {other : List String} (hother : other ≠ [])
    (hroot : root.at? other = none)
    (hv : ∀ l ∈ leaves v, ¬other <+: path ++ l.1) : (insertPath root path v).at? other = none := by
  induction path generalizing root other with
  | nil => exact hroot
  | cons key rest ih =>
    obtain ⟨first, more, rfl⟩ := exists_cons_of_ne_nil hother
    rw [at?_cons, members_insertPath]
    by_cases hkey : key = first
    · subst hkey
      have hinner : ∀ l ∈ leaves v, ¬more <+: rest ++ l.1 := fun l hl hprefix =>
        hv l hl (cons_prefix_cons.mpr ⟨rfl, hprefix⟩)
      rw [get?_insert_self, Option.bind_some]
      cases rest with
      | nil => exact at?_mergedInto_eq_none hroot fun ⟨l, hl, hprefix⟩ => hinner l hl hprefix
      | cons next rest =>
        have hmore : more ≠ [] := by
          rintro rfl
          obtain ⟨l, hl, -⟩ := leadsTo_nil v
          exact hinner l hl nil_prefix
        refine ih hmore ?_ hinner
        cases hget : root.members.get? key with
        | none =>
          obtain ⟨second, later, rfl⟩ := exists_cons_of_ne_nil hmore
          rfl
        | some inner => simpa [at?_cons, hget] using hroot
    · rwa [get?_insert_ne _ _ hkey]

theorem at?_applyWrites_eq_none {ws : List Write} (hpath : path ≠ []) (hroot : root.at? path = none)
    (h : ∀ w ∈ ws, ∀ l ∈ leaves w.value, ¬path <+: w.path ++ l.1) :
    (applyWrites root ws).at? path = none := by
  induction ws generalizing root with
  | nil => exact hroot
  | cons w ws ih =>
    rw [applyWrites_cons]
    exact ih (at?_insertPath_eq_none hpath hroot (h w mem_cons_self)) fun u hu =>
      h u (mem_cons_of_mem _ hu)

def ofRank (rank : Nat) (writes : List Write) : List Write := writes.filter fun w => w.rank == rank

theorem ranked_eq (writes : List Write) : ranked writes = ranks.flatMap (ofRank · writes) := rfl

@[simp] theorem ofRank_append (rank : Nat) (ws vs : List Write) :
    ofRank rank (ws ++ vs) = ofRank rank ws ++ ofRank rank vs := filter_append ..

theorem mem_ofRank :
    w ∈ ofRank rank writes ↔ w ∈ writes ∧ w.rank = rank := by simp [ofRank]

theorem ofRank_own (h : ∀ w ∈ block, w.rank = rank) : ofRank rank block = block := by
  rw [ofRank, filter_eq_self]
  exact fun w hw => beq_iff_eq.mpr (h w hw)

theorem ofRank_other {other : Nat} (h : ∀ w ∈ block, w.rank = rank) (hne : other ≠ rank) :
    ofRank other block = [] := by
  rw [ofRank, filter_eq_nil_iff]
  intro w hw
  simp [h w hw, Ne.symm hne]

theorem mem_of_mem_ranked (h : w ∈ ranked writes) : w ∈ writes := by
  rw [ranked_eq] at h
  obtain ⟨rank, -, hmem⟩ := mem_flatMap.mp h
  exact (mem_ofRank.mp hmem).1

/-- Writes of one rank that stand together stay together. After them come those of a higher rank,
and of their own rank those that stand behind them. -/
theorem ranked_block (hrank : rank ∈ ranks) (before after : List Write) :
    ∃ earlier later, (∀ u ∈ later, (u ∈ before ∧ rank < u.rank) ∨ (u ∈ after ∧ rank ≤ u.rank)) ∧
      ∀ block, (∀ w ∈ block, w.rank = rank) →
      ranked (before ++ block ++ after) = earlier ++ block ++ later := by
  obtain ⟨low, high, hranks⟩ := append_of_mem hrank
  have hsorted : (low ++ rank :: high).Pairwise (· < ·) := hranks ▸ pairwise_lt_range
  obtain ⟨-, hhigh, hlow⟩ := pairwise_append.mp hsorted
  have habove : ∀ r ∈ high, rank < r := (pairwise_cons.mp hhigh).1
  refine ⟨low.flatMap (ofRank · (before ++ after)) ++ ofRank rank before,
    ofRank rank after ++ high.flatMap (ofRank · (before ++ after)), fun u hu => ?_,
    fun block hblock => ?_⟩
  · rcases mem_append.mp hu with hu | hu
    · obtain ⟨hmem, hsame⟩ := mem_ofRank.mp hu
      exact .inr ⟨hmem, Nat.le_of_eq hsame.symm⟩
    · obtain ⟨r, hr, hu⟩ := mem_flatMap.mp hu
      obtain ⟨hmem, rfl⟩ := mem_ofRank.mp hu
      have hlt := habove _ hr
      exact (mem_append.mp hmem).imp (⟨·, hlt⟩) (⟨·, Nat.le_of_lt hlt⟩)
  · have hother : ∀ r, r ≠ rank → ofRank r (before ++ block ++ after) = ofRank r (before ++ after) := by
      intro r hr
      simp [ofRank_other hblock hr]
    have hbelow : low.flatMap (ofRank · (before ++ block ++ after)) =
        low.flatMap (ofRank · (before ++ after)) :=
      flatMap_congr fun r hr => hother r (Nat.ne_of_lt (hlow r hr rank mem_cons_self))
    have hupper : high.flatMap (ofRank · (before ++ block ++ after)) =
        high.flatMap (ofRank · (before ++ after)) :=
      flatMap_congr fun r hr => hother r (Nat.ne_of_gt (habove r hr))
    rw [ranked_eq, hranks, flatMap_append, flatMap_cons, hbelow, hupper]
    simp [ofRank_own hblock]

theorem rank_mem_ranks (p : Precedence) : p.rank ∈ ranks := by
  cases p <;> decide

theorem Write.ofAssignment?_eq_some_iff :
    Write.ofAssignment? a = some w ↔
    a.value = some w.value ∧ a.path = w.path ∧ a.precedence.rank = w.rank := by
  obtain ⟨rank, path, value⟩ := w
  simp only [Write.ofAssignment?, Option.map_eq_some_iff, Write.mk.injEq]
  constructor
  · rintro ⟨v, hv, rfl, rfl, rfl⟩
    exact ⟨hv, rfl, rfl⟩
  · rintro ⟨hv, rfl, rfl⟩
    exact ⟨value, hv, rfl, rfl, rfl⟩

theorem exists_assignment (h : w ∈ assignments.filterMap Write.ofAssignment?) :
    ∃ a ∈ assignments, a.value = some w.value ∧ a.path = w.path ∧ a.precedence.rank = w.rank := by
  obtain ⟨a, ha, hwritten⟩ := mem_filterMap.mp h
  exact ⟨a, ha, Write.ofAssignment?_eq_some_iff.mp hwritten⟩

/-- No literal assignment that is applied after `a` has a path that leads to `path` or goes on from
it. Those of a higher rank are applied after `a`, and of its own rank those that stand behind it. -/
def Unopposed (before : List Assignment) (a : Assignment) (after : List Assignment)
    (path : List String) : Prop :=
  (∀ u ∈ before, u.value.isSome = true → a.precedence.rank < u.precedence.rank → Apart u.path path) ∧
    ∀ u ∈ after, u.value.isSome = true → a.precedence.rank ≤ u.precedence.rank → Apart u.path path

instance (before : List Assignment) (a : Assignment) (after : List Assignment)
    (path : List String) : Decidable (Unopposed before a after path) :=
  inferInstanceAs (Decidable (_ ∧ _))

/-- The tree after an assignment that nothing opposes reads as it did right after the assignment. -/
theorem at?_tree_of_unopposed (hvalue : a.value = some v) (h : Unopposed before a after path) :
    ∃ root, (tree (before ++ a :: after)).at? path = (insertPath root a.path v).at? path := by
  have hwrite : Write.ofAssignment? a = some ⟨a.precedence.rank, a.path, v⟩ :=
    Write.ofAssignment?_eq_some_iff.mpr ⟨hvalue, rfl, rfl⟩
  obtain ⟨earlier, later, hlater, hranked⟩ := ranked_block (rank_mem_ranks a.precedence)
    (before.filterMap Write.ofAssignment?) (after.filterMap Write.ofAssignment?)
  have hsplit := hranked [⟨a.precedence.rank, a.path, v⟩] (by simp)
  have hapart : ∀ u ∈ later, Apart u.path path := by
    intro u hu
    rcases hlater u hu with ⟨hmem, hrank⟩ | ⟨hmem, hrank⟩
    · obtain ⟨b, hb, hsome, hpath, hsame⟩ := exists_assignment hmem
      exact hpath ▸ h.1 b hb (by simp [hsome]) (hsame ▸ hrank)
    · obtain ⟨b, hb, hsome, hpath, hsame⟩ := exists_assignment hmem
      exact hpath ▸ h.2 b hb (by simp [hsome]) (hsame ▸ hrank)
  refine ⟨applyWrites emptyMapping earlier, ?_⟩
  rw [append_assoc, append_assoc, singleton_append, singleton_append] at hsplit
  rw [tree, filterMap_append, filterMap_cons_some hwrite, hsplit, applyWrites_append,
    applyWrites_cons, at?_applyWrites_of_apart _ hapart]

/-- A leaf of an assigned value that is no mapping is read at its path, if nothing opposes
it there. -/
theorem at?_tree_leaf (hvalue : a.value = some v) (hpath : a.path ≠ []) (hkeys : v.isKeyed = true)
    (hl : l ∈ leaves v)
    (hleaf : l.2.isMapping = false) (h : Unopposed before a after (a.path ++ l.1)) :
    (tree (before ++ a :: after)).at? (a.path ++ l.1) = some l.2 := by
  obtain ⟨root, hread⟩ := at?_tree_of_unopposed hvalue h
  rw [hread, at?_append, at?_insertPath_self root hpath, Option.bind_some,
    at?_mergedInto_leaf v hkeys _ l hl hleaf]

theorem leaves_of_not_isMapping (h : v.isMapping = false) : leaves v = [([], v)] := by
  cases v with
  | object members => cases h
  | _ => rfl

theorem isKeyed_of_not_isMapping (h : v.isMapping = false) : v.isKeyed = true := by
  cases v with
  | object members => cases h
  | _ => rfl

/-- A path that no leaf assigned lies at, above or below reads as absent. -/
theorem at?_tree_eq_none (hpath : path ≠ [])
    (h : ∀ a ∈ assignments, ∀ v ∈ a.value, ∀ l ∈ leaves v, Apart (a.path ++ l.1) path) :
    (tree assignments).at? path = none := by
  obtain ⟨key, rest, rfl⟩ := exists_cons_of_ne_nil hpath
  refine at?_applyWrites_eq_none hpath (at?_emptyMapping key rest) fun w hw l hl => ?_
  obtain ⟨a, ha, hvalue, hsame, -⟩ := exists_assignment (mem_of_mem_ranked hw)
  exact hsame ▸ (h a ha w.value hvalue l hl).2

/-- How an attribute tree reads. A value that is no mapping, and every leaf of a mapping that is
none, is read at its path if no assignment applied later opposes it there; a path that is apart from
the paths of all leaves assigned reads as absent. A single write changes what is read only at paths
that lead to its own or go on from it, and at its own path merges its value into what was there. -/
theorem tree_reads_prevailing :
    (∀ before a after v, a.value = some v → a.path ≠ [] →
      (v.isMapping = false → Unopposed before a after a.path →
        (tree (before ++ a :: after)).at? a.path = some v) ∧
      (v.isKeyed = true → ∀ l ∈ leaves v, l.2.isMapping = false →
      Unopposed before a after (a.path ++ l.1) →
        (tree (before ++ a :: after)).at? (a.path ++ l.1) = some l.2)) ∧
    (∀ assignments path, path ≠ [] →
      (∀ a ∈ assignments, ∀ v ∈ a.value, ∀ l ∈ leaves v, Apart (a.path ++ l.1) path) →
      (tree assignments).at? path = none) ∧
    ∀ root path v,
      (∀ other, Apart path other → (insertPath root path v).at? other = root.at? other) ∧
      (path ≠ [] → (insertPath root path v).at? path = some (mergedInto (root.at? path) v)) := by
  refine ⟨fun before a after v hvalue hpath => ⟨fun hscalar h => ?_, fun hkeys l hl hleaf h => ?_⟩,
    fun assignments path hpath h => at?_tree_eq_none hpath h,
    fun root path v => ⟨fun other h => ?_, fun hpath => ?_⟩⟩
  · have hl : ([], v) ∈ leaves v := by simp [leaves_of_not_isMapping hscalar]
    have hread := at?_tree_leaf (l :=
      ([], v)) hvalue hpath (isKeyed_of_not_isMapping hscalar) hl hscalar
      (by simpa using h)
    simpa using hread
  · exact at?_tree_leaf hvalue hpath hkeys hl hleaf h
  · exact at?_insertPath_of_apart root h v
  · exact at?_insertPath_self root hpath v

def sampleAssignment (precedence : Precedence) (path : List String) (value : Option Datum) :
    Assignment :=
  ⟨⟨"default.rb"⟩, 1, precedence, path, "", "", value⟩

/-- A port at a high rank, and after it the defaults of its application. -/
def appPort : Assignment := sampleAssignment .override ["app", "port"] (some (.number (.int 9000)))
def appValue : Datum := .object [("port", .number (.int 80)), ("user", .string "app")]
def appDefaults : Assignment := sampleAssignment .default ["app"] (some appValue)
def appComputed : Assignment := sampleAssignment .forceOverride ["app", "user"] none

/-- The port prevails over the later default, the user is read in the default, and what is computed
when a recipe runs opposes neither. -/
theorem app_read :
    Unopposed [] appPort [appDefaults, appComputed] ["app", "port"] ∧
    Unopposed [appPort] appDefaults [appComputed] ["app", "user"] ∧
    (tree [appPort, appDefaults, appComputed]).at? ["app", "port"] = some (.number (.int 9000)) ∧
    (tree [appPort, appDefaults, appComputed]).at? ["app", "user"] = some (.string "app") ∧
    (tree [appPort, appDefaults, appComputed]).at? ["db"] = none ∧
    (insertPath (.object [("app", appValue)]) ["app", "port"] .null).at? ["app", "port"] =
      some .null := by
  have hport : Unopposed [] appPort [appDefaults, appComputed] ["app", "port"] := by decide
  have huser : Unopposed [appPort] appDefaults [appComputed] ["app", "user"] := by decide
  obtain ⟨hreads, habsent, hwrites⟩ := tree_reads_prevailing
  have hread := (hreads [] appPort [appDefaults, appComputed] _ rfl (by decide)).1 rfl hport
  have hleaf := (hreads [appPort] appDefaults [appComputed] appValue rfl (by decide)).2 (by decide)
    (["user"], .string "app") (by simp [leaves, leavesOf, appValue, Leaf.under]) rfl huser
  have hwrite := (hwrites (.object [("app", appValue)]) ["app", "port"] .null).2 (by decide)
  exact ⟨hport, huser, hread, hleaf, habsent _ ["db"] (by decide) (by decide), hwrite⟩

/-- An assignment without a key is not read at its path: the tree stays a mapping. -/
theorem keyless_not_read : ¬∀ before a after v, a.value = some v → v.isMapping = false →
    Unopposed before a after a.path → (tree (before ++ a :: after)).at? a.path = some v := by
  intro h
  have hread := h [] (sampleAssignment .default [] (some (.number (.int 1)))) [] _ rfl rfl
    (by decide)
  cases hread

end Attribute
end CookbookAtlas
