import CookbookAtlas.Proofs.Attribute.Reordering

/-! Assignments that are applied twice. A write is the leaves of its value, written one after the
other, and what leaves do at a place is settled there: the last one that is no mapping wipes out all
that was before it, and where there is none each key goes on by itself. So a list of assignments
that is repeated leaves the same tree, down to the order of keys. -/
namespace CookbookAtlas

open List
variable {v : Datum} {l : Attribute.Leaf} {ls : List Attribute.Leaf} {ms : Members} {old :
  Option Datum} {key : String}
  {w : Attribute.Write}

namespace Datum

theorem areKeyed_iff : areKeyed ms = true ↔ ∀ m ∈ ms, m.2.isKeyed = true := by
  induction ms with
  | nil => simp [areKeyed]
  | cons m ms ih => simp only [areKeyed, Bool.and_eq_true, ih, forall_mem_cons]

theorem isKeyed_object_iff :
    isKeyed (.object ms) = true ↔ ms.keys.Nodup ∧ ∀ m ∈ ms, m.2.isKeyed = true := by
  rw [isKeyed, Bool.and_eq_true, decide_eq_true_eq, areKeyed_iff]

theorem isKeyed_insert (h : isKeyed (.object ms) = true) (key : String) (hv : v.isKeyed = true) :
    isKeyed (.object (ms.insert key v)) = true := by
  rw [isKeyed_object_iff] at h ⊢
  refine ⟨Members.nodup_keys_insert h.1 key v, fun m hm => ?_⟩
  rcases Members.mem_of_mem_insert hm with rfl | hm
  · exact hv
  · exact h.2 m hm

theorem isKeyed_members (h : v.isKeyed = true) : isKeyed (.object v.members) = true := by
  cases v with
  | object ms => exact h
  | _ => rfl

theorem isKeyed_of_get? (h : isKeyed (.object ms) = true) (hget : ms.get? key = some v) :
    v.isKeyed = true :=
  (isKeyed_object_iff.mp h).2 _ (Members.mem_of_get? hget)

end Datum

namespace Attribute

def isLeaf : Datum → Bool
  | .object members => members.isEmpty
  | _ => true

/-- What stands at a place after leaves have been written there, at paths that start there. -/
def grow (old : Option Datum) (ls : List Leaf) : Option Datum :=
  ls.foldl (fun old l => some (setBelow old l.1 l.2)) old

/-- The members of a mapping after a leaf has been written in it. -/
def growMember (ms : Members) (l : Leaf) : Members :=
  match l.1 with
  | [] => ms
  | key :: rest => ms.insert key (setBelow (ms.get? key) rest l.2)

def growMembers (ms : Members) (ls : List Leaf) : Members := ls.foldl growMember ms

/-- A leaf one mapping further in, if it lies below the key. -/
def Leaf.below? (key : String) (l : Leaf) : Option Leaf :=
  match l.1 with
  | [] => none
  | first :: rest => if first = key then some (rest, l.2) else none

def below (key : String) (ls : List Leaf) : List Leaf := ls.filterMap (Leaf.below? key)

def Leaf.Spreads (l : Leaf) : Prop := l.1 ≠ [] ∨ l.2 = Datum.emptyMapping

/-- The members of what is at a place; nothing counts as an empty mapping. -/
def held (old : Option Datum) : Members := (old.getD Datum.emptyMapping).members

theorem grow_cons (old : Option Datum) (l : Leaf) (ls : List Leaf) :
    grow old (l :: ls) = grow (some (setBelow old l.1 l.2)) ls := rfl
theorem grow_append (old : Option Datum) (ls ms : List Leaf) :
    grow old (ls ++ ms) = grow (grow old ls) ms := by
  simp [grow]
theorem growMembers_cons (ms : Members) (l : Leaf) (ls : List Leaf) :
    growMembers ms (l :: ls) = growMembers (growMember ms l) ls := rfl
theorem growMembers_append (ms : Members) (ls ks : List Leaf) :
    growMembers ms (ls ++ ks) = growMembers (growMembers ms ls) ks := by simp [growMembers]

theorem setBelow_nil_object (old : Option Datum) :
    setBelow old [] Datum.emptyMapping = .object (held old) := by
  rcases old with _ | ⟨⟩ | _ | _ | _ | _ | ms
    <;> simp [setBelow, mergedInto, merge, mergeMembers, held, Datum.emptyMapping,
    Datum.members]

theorem setBelow_cons (old : Option Datum) (key : String) (rest : List String) (v : Datum) :
    setBelow old (key :: rest) v =
    .object ((held old).insert key (setBelow ((held old).get? key) rest v)) :=
  insertPath_cons _ key rest v

/-- A leaf that spreads is written into the members of what was there. -/
theorem Leaf.Spreads.setBelow_eq (h : l.Spreads) (old : Option Datum) :
    setBelow old l.1 l.2 = .object (growMember (held old) l) := by
  obtain ⟨path, v⟩ := l
  cases path with
  | nil =>
    obtain rfl : v = Datum.emptyMapping := h.resolve_left (by simp)
    exact setBelow_nil_object old
  | cons key rest => exact setBelow_cons old key rest v

theorem grow_of_spreads (hne : ls ≠ []) (h : ∀ l ∈ ls, l.Spreads) (old : Option Datum) :
    grow old ls = some (.object (growMembers (held old) ls)) := by
  induction ls generalizing old with
  | nil => exact absurd rfl hne
  | cons l ls ih =>
    obtain ⟨hfirst, hrest⟩ := forall_mem_cons.mp h
    rw [grow_cons, hfirst.setBelow_eq, growMembers_cons]
    cases ls with
    | nil => rfl
    | cons next ls => exact ih (by simp) hrest _

theorem grow_wiped (hv : v.isMapping = false) (old : Option Datum) (before after : List Leaf) :
    grow old (before ++ ([], v) :: after) = grow (some v) after := by
  have hset : setBelow (grow old before) [] v = v := mergedInto_of_not_isMapping _ hv
  rw [grow_append, grow_cons, hset]

theorem get?_growMember (ms : Members) (key : String) (l : Leaf) :
    (growMember ms l).get? key = grow (ms.get? key) (l.below? key).toList := by
  obtain ⟨path, v⟩ := l
  cases path with
  | nil => rfl
  | cons first rest =>
    by_cases hkey : first = key
    · subst hkey
      simp [growMember, Leaf.below?, grow]
    · simp [growMember, Leaf.below?, grow, hkey, Members.get?_insert_ne]

theorem get?_growMembers (ms : Members) (key : String) (ls : List Leaf) :
    (growMembers ms ls).get? key = grow (ms.get? key) (below key ls) := by
  induction ls generalizing ms with
  | nil => rfl
  | cons l ls ih =>
    have hsplit : below key (l :: ls) = (l.below? key).toList ++ below key ls := by
      cases h : l.below? key <;> simp [below, h]
    rw [growMembers_cons, ih, get?_growMember, hsplit, grow_append]

theorem keys_growMember (ms : Members) (l : Leaf) :
    (growMember ms l).keys = if ∀ key ∈ l.1.head?, key ∈ ms.keys then ms.keys
    else ms.keys ++ l.1.head?.toList := by
  obtain ⟨path, v⟩ := l
  cases path with
  | nil => simp [growMember]
  | cons key rest => simp [growMember, Members.keys_insert]

theorem keys_subset_growMembers (ms : Members) (ls : List Leaf) :
    ms.keys ⊆ (growMembers ms ls).keys := by
  induction ls generalizing ms with
  | nil => exact List.Subset.refl _
  | cons l ls ih =>
    refine List.Subset.trans ?_ (ih (growMember ms l))
    rw [keys_growMember]
    split
    · exact List.Subset.refl _
    · exact subset_append_left _ _

theorem head_mem_growMembers (ms : Members) (hl : l ∈ ls) (hkey : key ∈ l.1.head?) :
    key ∈ (growMembers ms ls).keys := by
  obtain ⟨before, after, rfl⟩ := append_of_mem hl
  rw [growMembers_append, growMembers_cons]
  refine keys_subset_growMembers _ after ?_
  rw [keys_growMember]
  split
  · rename_i hthere
    exact hthere key hkey
  · exact mem_append_right _ (Option.mem_toList.mpr hkey)

theorem keys_growMembers_of_mem (h : ∀ l ∈ ls, ∀ key ∈ l.1.head?, key ∈ ms.keys) :
    (growMembers ms ls).keys = ms.keys := by
  induction ls generalizing ms with
  | nil => rfl
  | cons l ls ih =>
    obtain ⟨hfirst, hrest⟩ := forall_mem_cons.mp h
    have hkeys : (growMember ms l).keys = ms.keys := by rw [keys_growMember, if_pos hfirst]
    rw [growMembers_cons, ih (hkeys ▸ hrest), hkeys]

theorem isKeyed_held (h : ∀ v ∈ old, v.isKeyed = true) :
    Datum.isKeyed (.object (held old)) = true := by
  cases old with
  | none => rfl
  | some v => exact Datum.isKeyed_members (h v rfl)

theorem isKeyed_setBelow (hold : ∀ v ∈ old, v.isKeyed = true) (path : List String)
    (hv : isLeaf v = true) : (setBelow old path v).isKeyed = true := by
  induction path generalizing old with
  | nil =>
    cases v with
    | object ms =>
      obtain rfl : ms = [] := by simpa [isLeaf] using hv
      rw [show Datum.object [] = Datum.emptyMapping from rfl, setBelow_nil_object]
      exact isKeyed_held hold
    | _ =>
      rw [setBelow, mergedInto_of_not_isMapping _ rfl]
      rfl
  | cons key rest ih =>
    rw [setBelow_cons]
    exact Datum.isKeyed_insert (isKeyed_held hold) key
      (ih fun w hw => Datum.isKeyed_of_get? (isKeyed_held hold) hw)

theorem isKeyed_growMembers (hms : Datum.isKeyed (.object ms) = true)
    (hls : ∀ l ∈ ls, isLeaf l.2 = true) : Datum.isKeyed (.object (growMembers ms ls)) = true := by
  induction ls generalizing ms with
  | nil => exact hms
  | cons l ls ih =>
    obtain ⟨hfirst, hrest⟩ := forall_mem_cons.mp hls
    refine ih ?_ hrest
    obtain ⟨path, v⟩ := l
    cases path with
    | nil => exact hms
    | cons key rest =>
      exact Datum.isKeyed_insert hms key (isKeyed_setBelow (fun w hw => Datum.isKeyed_of_get? hms hw) rest hfirst)

theorem mem_below (h : l ∈ below key ls) : (key :: l.1, l.2) ∈ ls := by
  obtain ⟨⟨path, v⟩, hmem, hbelow⟩ := mem_filterMap.mp h
  cases path with
  | nil => cases hbelow
  | cons first rest =>
    simp only [Leaf.below?] at hbelow
    split at hbelow
    · rename_i hkey
      obtain rfl := Option.some.inj hbelow
      exact hkey ▸ hmem
    · cases hbelow

/-- Leaves written into a mapping again change nothing, if that is so below each of its keys. -/
theorem growMembers_again (hms : Datum.isKeyed (.object ms) = true)
    (hls : ∀ l ∈ ls, isLeaf l.2 = true)
    (hbelow : ∀ key, grow (grow (ms.get? key) (below key ls)) (below key ls) =
    grow (ms.get? key) (below key ls)) :
    growMembers (growMembers ms ls) ls = growMembers ms ls := by
  have hkeys : (growMembers (growMembers ms ls) ls).keys = (growMembers ms ls).keys :=
    keys_growMembers_of_mem fun l hl key hkey => head_mem_growMembers ms hl hkey
  have hdistinct := (Datum.isKeyed_object_iff.mp (isKeyed_growMembers hms hls)).1
  refine Members.ext_get? hkeys (hkeys ▸ hdistinct) fun key => ?_
  rw [get?_growMembers, get?_growMembers, hbelow]

theorem exists_longer (ls : List Leaf) : ∃ n, ∀ l ∈ ls, l.1.length < n := by
  induction ls with
  | nil => exact ⟨0, by simp⟩
  | cons l ls ih =>
    obtain ⟨n, hn⟩ := ih
    refine ⟨l.1.length + n + 1, forall_mem_cons.mpr ⟨by omega, fun m hm => ?_⟩⟩
    have hlt := hn m hm
    omega

theorem grow_again (hold : ∀ v ∈ old, v.isKeyed = true) (hls : ∀ l ∈ ls, isLeaf l.2 = true) :
    grow (grow old ls) ls = grow old ls := by
  -- by induction on a bound for the paths: below a key they are shorter
  obtain ⟨n, hn⟩ := exists_longer ls
  induction n generalizing old ls with
  | zero =>
    cases ls with
    | nil => rfl
    | cons l ls => exact absurd (hn l mem_cons_self) (Nat.not_lt_zero _)
  | succ n ih =>
    by_cases hwiped : ∃ l ∈ ls, l.1 = [] ∧ l.2.isMapping = false
    · obtain ⟨⟨path, v⟩, hl, rfl, hv⟩ := hwiped
      obtain ⟨before, after, rfl⟩ := append_of_mem hl
      rw [grow_wiped hv, grow_wiped hv]
    · have hspreads : ∀ l ∈ ls, l.Spreads := by
        intro l hl
        by_cases hpath : l.1 = []
        · have hmapping : l.2.isMapping = true := by
            by_contra hscalar
            exact hwiped ⟨l, hl, hpath, by simpa using hscalar⟩
          have hleaf := hls l hl
          cases hvalue : l.2 with
          | object ms =>
            rw [hvalue] at hleaf
            obtain rfl : ms = [] := by simpa [isLeaf] using hleaf
            exact .inr hvalue
          | _ => simp [hvalue, Datum.isMapping] at hmapping
        · exact .inl hpath
      by_cases hne : ls = []
      · rw [hne]
        rfl
      · rw [grow_of_spreads hne hspreads old, grow_of_spreads hne hspreads]
        have hms := isKeyed_held hold
        refine congrArg (some ∘ Datum.object) (growMembers_again hms hls fun key => ?_)
        refine ih (fun v hv => Datum.isKeyed_of_get? hms hv)
          (fun l hl => hls (key :: l.1, l.2) (mem_below hl)) fun l hl => ?_
        have hlength := hn _ (mem_below hl)
        rw [length_cons] at hlength
        omega

theorem growMembers_under (ms : Members) (key : String) (h : grow (ms.get? key) ls = some v)
    (hne : ls ≠ []) : growMembers ms (ls.map (Leaf.under key)) = ms.insert key v := by
  induction ls generalizing ms with
  | nil => exact absurd rfl hne
  | cons l ls ih =>
    have hfirst : growMember ms (l.under key) = ms.insert key (setBelow (ms.get? key) l.1 l.2) :=
      rfl
    rw [map_cons, growMembers_cons, hfirst]
    cases ls with
    | nil =>
      obtain rfl : setBelow (ms.get? key) l.1 l.2 = v := Option.some.inj h
      rfl
    | cons next ls =>
      rw [ih (ms.insert key (setBelow (ms.get? key) l.1 l.2)) (by rwa [Members.get?_insert_self])
        (by simp), Members.insert_insert_self]

theorem mergeMembers_new {done new : Members} (h : (Members.keys (done ++ new)).Nodup) :
    mergeMembers done new = done ++ new := by
  induction new generalizing done with
  | nil => rw [mergeMembers, append_nil]
  | cons m new ih =>
    obtain ⟨key, v⟩ := m
    have hkey : key ∉ done.keys := by
      simp only [Members.keys, map_append, map_cons, nodup_append] at h
      exact fun hmem => h.2.2 key hmem key mem_cons_self rfl
    rw [mergeMembers_cons, Members.get?_of_not_mem hkey, Members.insert_of_not_mem hkey, mergedInto,
      ih (by simpa using h), append_assoc, singleton_append]

theorem mergedInto_object (old : Option Datum) {new : Members} (h : new.keys.Nodup) :
    mergedInto old (.object new) = .object (mergeMembers (held old) new) := by
  have hnew : mergeMembers [] new = new := @mergeMembers_new [] new h
  rcases old with _ | ⟨⟩ | _ | _ | _ | _ | ms
    <;> simp [mergedInto, merge, held, Datum.emptyMapping, Datum.members, hnew]

mutual
theorem grow_leaves :
    ∀ (v : Datum), v.isKeyed = true → ∀ old, grow old (leaves v) = some (mergedInto old v)
  | .object [], _, old => rfl
  | .object (m :: ms), h, old => by
    rw [Datum.isKeyed, Bool.and_eq_true, decide_eq_true_eq] at h
    have hleaves : leaves (.object (m :: ms)) = leavesOf (m :: ms) := by simp [leaves]
    rw [hleaves, grow_of_spreads (leavesOf_ne_nil (by simp)) (fun l hl => .inl (path_ne_nil hl)),
      growMembers_leavesOf (m :: ms) h.2, mergedInto_object old h.1]
  | .null, _, _ | .bool _, _, _ | .number _, _, _ | .string _, _, _ | .array _, _, _ => rfl

theorem growMembers_leavesOf : ∀ (new : List (String × Datum)), Datum.areKeyed new = true → ∀ ms,
    growMembers ms (leavesOf new) = mergeMembers ms new
  | [], _, ms => by rw [leavesOf, mergeMembers]; rfl
  | (key, v) :: rest, h, ms => by
    rw [Datum.areKeyed, Bool.and_eq_true] at h
    rw [leavesOf, growMembers_append, growMembers_under ms key (grow_leaves v h.1 _) (leaves_ne_nil v),
      growMembers_leavesOf rest h.2, mergeMembers_cons]
end

def leavesAt (path : List String) (v : Datum) : List Leaf :=
  (leaves v).map fun l => (path ++ l.1, l.2)

theorem leavesAt_ne_nil (path : List String) (v : Datum) : leavesAt path v ≠ [] := by
  simp [leavesAt, leaves_ne_nil]

theorem leavesAt_cons (key : String) (path : List String) (v : Datum) :
    leavesAt (key :: path) v = (leavesAt path v).map (Leaf.under key) := by
  simp [leavesAt, Leaf.under]

theorem grow_leavesAt (hv : v.isKeyed = true) (path : List String) (old : Option Datum) :
    grow old (leavesAt path v) = some (setBelow old path v) := by
  induction path generalizing old with
  | nil => simpa [leavesAt, setBelow] using grow_leaves v hv old
  | cons key path ih =>
    have hspreads : ∀ l ∈ leavesAt (key :: path) v, l.Spreads := by
      intro l hl
      obtain ⟨inner, -, rfl⟩ := mem_map.mp hl
      exact .inl (by simp)
    rw [grow_of_spreads (leavesAt_ne_nil _ v) hspreads, leavesAt_cons,
      growMembers_under _ key (ih _) (leavesAt_ne_nil path v), setBelow_cons]

mutual
theorem isLeaf_of_leaves : ∀ (v : Datum), ∀ l ∈ leaves v, isLeaf l.2 = true
  | .object [], l, hl => mem_singleton.mp hl ▸ rfl
  | .object (m :: ms), l, hl => by
    have hleaves : leaves (.object (m :: ms)) = leavesOf (m :: ms) := by simp [leaves]
    exact isLeaf_of_leavesOf (m :: ms) l (hleaves ▸ hl)
  | .null, l, hl | .bool _, l, hl | .number _, l, hl | .string _, l, hl
  | .array _, l, hl => mem_singleton.mp hl ▸ rfl

theorem isLeaf_of_leavesOf :
    ∀ (members : List (String × Datum)), ∀ l ∈ leavesOf members, isLeaf l.2 = true
  | [], l, hl => by simp [leavesOf] at hl
  | (key, v) :: rest, l, hl => by
    simp only [leavesOf, mem_append, mem_map] at hl
    rcases hl with ⟨inner, hinner, rfl⟩ | hl
    · exact isLeaf_of_leaves v inner hinner
    · exact isLeaf_of_leavesOf rest l hl
end

/-- The leaves that a write leaves behind; without a key it leaves none. -/
def Write.leaves (w : Write) : List Leaf := if w.path = [] then [] else leavesAt w.path w.value

theorem Write.spreads_leaves (h : l ∈ w.leaves) : l.Spreads := by
  rw [Write.leaves] at h
  split at h
  · cases h
  · rename_i hpath
    obtain ⟨inner, -, rfl⟩ := mem_map.mp h
    exact .inl (by simp [hpath])

theorem Write.isLeaf_leaves (h : l ∈ w.leaves) : isLeaf l.2 = true := by
  rw [Write.leaves] at h
  split at h
  · cases h
  · obtain ⟨inner, hinner, rfl⟩ := mem_map.mp h
    exact isLeaf_of_leaves w.value inner hinner

theorem insertPath_object (hvalue : w.value.isKeyed = true) (ms : Members) :
    insertPath (.object ms) w.path w.value = .object (growMembers ms w.leaves) := by
  obtain ⟨rank, path, v⟩ := w
  cases path with
  | nil => rfl
  | cons key rest =>
    rw [insertPath_cons, Write.leaves, if_neg (by simp), leavesAt_cons,
      growMembers_under ms key (grow_leavesAt hvalue rest _) (leavesAt_ne_nil rest v)]
    rfl

theorem applyWrites_object {ws : List Write} (hws : ∀ w ∈ ws, w.value.isKeyed = true)
    (ms : Members) :
    applyWrites (.object ms) ws = .object (growMembers ms (ws.flatMap Write.leaves)) := by
  induction ws generalizing ms with
  | nil => rfl
  | cons w ws ih =>
    obtain ⟨hfirst, hrest⟩ := forall_mem_cons.mp hws
    rw [applyWrites_cons, insertPath_object hfirst, ih hrest, flatMap_cons, growMembers_append]

section
variable {ws : List Write} (hws : ∀ w ∈ ws, w.value.isKeyed = true) {ms : Members}
  (hms : Datum.isKeyed (.object ms) = true)
include hws hms

theorem isKeyed_applyWrites :
    ∃ ns, applyWrites (.object ms) ws = .object ns ∧ Datum.isKeyed (.object ns) = true := by
  refine ⟨_, applyWrites_object hws ms, isKeyed_growMembers hms fun l hl => ?_⟩
  obtain ⟨w, -, hmem⟩ := mem_flatMap.mp hl
  exact w.isLeaf_leaves hmem

theorem applyWrites_again :
    applyWrites (applyWrites (.object ms) ws) ws = applyWrites (.object ms) ws := by
  have hleaf : ∀ l ∈ ws.flatMap Write.leaves, isLeaf l.2 = true ∧ l.Spreads := by
    intro l hl
    obtain ⟨w, -, hmem⟩ := mem_flatMap.mp hl
    exact ⟨w.isLeaf_leaves hmem, w.spreads_leaves hmem⟩
  rw [applyWrites_object hws, applyWrites_object hws]
  by_cases hne : ws.flatMap Write.leaves = []
  · rw [hne]
    rfl
  · have hold : ∀ v ∈ some (Datum.object ms), v.isKeyed = true :=
      fun v hv => Option.mem_some_iff.mp hv ▸ hms
    have hagain := grow_again hold fun l hl => (hleaf l hl).1
    rw [grow_of_spreads hne (fun l hl => (hleaf l hl).2),
      grow_of_spreads hne fun l hl => (hleaf l hl).2] at hagain
    exact Option.some.inj hagain

end

theorem applyWrites_doubled {blocks : List (List Write)}
    (hblocks : ∀ ws ∈ blocks, ∀ w ∈ ws, w.value.isKeyed = true)
    (hms : Datum.isKeyed (.object ms) = true) :
    applyWrites (.object ms) (blocks.flatMap fun ws => ws ++ ws) =
      applyWrites (.object ms) blocks.flatten := by
  induction blocks generalizing ms with
  | nil => rfl
  | cons ws blocks ih =>
    obtain ⟨hfirst, hrest⟩ := forall_mem_cons.mp hblocks
    obtain ⟨ns, hns, hkeyed⟩ := isKeyed_applyWrites hfirst hms
    rw [flatMap_cons, flatten_cons, applyWrites_append, applyWrites_append, applyWrites_append,
      applyWrites_again hfirst hms, hns, ih hrest hkeyed]

section
variable {assignments : List Recipe.Assignment} (h : ∀ a ∈ assignments, ∀ v ∈ a.value, v.isKeyed = true)
include h

theorem isKeyed_of_mem_writes {w : Write} (hw : w ∈ assignments.filterMap Write.ofAssignment?) :
    w.value.isKeyed = true := by
  obtain ⟨a, ha, hvalue, -⟩ := exists_assignment hw
  exact h a ha _ hvalue

theorem isKeyed_tree : (tree assignments).isKeyed = true := by
  have hwrites : ∀ w ∈ ranked (assignments.filterMap Write.ofAssignment?),
      w.value.isKeyed = true := by
    intro w hw
    obtain ⟨rank, -, hmem⟩ := mem_flatMap.mp hw
    exact isKeyed_of_mem_writes h (mem_of_mem_filter hmem)
  have hempty : Datum.isKeyed (.object []) = true := rfl
  obtain ⟨members, htree, hkeyed⟩ := isKeyed_applyWrites hwrites hempty
  rw [tree, Datum.emptyMapping, htree]
  exact hkeyed

end

/-- Assignments that are collected twice leave the tree as it is, with its keys in their order. No
mapping that is assigned has a key twice, as no mapping has. -/
theorem tree_append_self {assignments : List Recipe.Assignment}
    (h : ∀ a ∈ assignments, ∀ v ∈ a.value, v.isKeyed = true) :
    tree (assignments ++ assignments) = tree assignments := by
  have hwrites : ∀ ws ∈ ranks.map (ofRank · (assignments.filterMap Write.ofAssignment?)), ∀ w ∈ ws,
      w.value.isKeyed = true := by
    intro ws hws w hw
    obtain ⟨rank, -, rfl⟩ := mem_map.mp hws
    exact isKeyed_of_mem_writes h (mem_ofRank.mp hw).1
  have hempty : Datum.isKeyed (.object []) = true := rfl
  have hdoubled := applyWrites_doubled hwrites hempty
  rw [flatMap_map, ← flatMap_def] at hdoubled
  simp only [tree, filterMap_append, ranked_eq, ofRank_append]
  exact hdoubled

/-- A name, a mapping written over it, the name again and a user below it, with a port at a high
rank. -/
theorem app_collected_twice :
    tree [appPort, appName, appDefaults, appName, appDefaultUser, appPort, appName, appDefaults,
    appName, appDefaultUser] =
      .object [("app", .object [("user", .string "app"), ("port", .number (.int 9000))])] ∧
    tree [appPort, appName, appDefaults, appName, appDefaultUser] =
      .object [("app", .object [("user", .string "app"), ("port", .number (.int 9000))])] := by
  have htwice : tree ([appPort, appName, appDefaults, appName, appDefaultUser] ++
      [appPort, appName, appDefaults, appName, appDefaultUser]) =
      tree [appPort, appName, appDefaults, appName, appDefaultUser] := tree_append_self (by decide)
  have honce : tree [appPort, appName, appDefaults, appName, appDefaultUser] =
      .object [("app", .object [("user", .string "app"), ("port", .number (.int 9000))])] := rfl
  exact ⟨htwice.trans honce, honce⟩

end Attribute
end CookbookAtlas
