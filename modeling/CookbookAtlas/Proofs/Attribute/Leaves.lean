import CookbookAtlas.Attribute.Merge
import CookbookAtlas.Proofs.Literal.Written

/-! Attribute trees and their leaves. A tree is determined by its leaves: writing them one after the
other at their key paths gives the tree back, with its keys in their order. -/
namespace CookbookAtlas.Attribute

open List

mutual
/-- Whether a value is made of mappings with distinct keys down to values that have a literal. -/
def isTree : Datum → Bool
  | .object members => decide (Members.keys members).Nodup && areTrees members
  | v => Literal.isWritable 0 v

def areTrees : List (String × Datum) → Bool
  | [] => true
  | (_, v) :: rest => isTree v && areTrees rest
end

structure Tree where
  members : Members
  isTree : Attribute.isTree (.object members) = true

abbrev Leaf := List String × Datum

def Leaf.under (key : String) (l : Leaf) : Leaf := (key :: l.1, l.2)

mutual
/-- Leaves in pre-order: anything that is no mapping, and empty mappings. -/
def leaves : Datum → List Leaf
  | .object members => if members.isEmpty then [([], .object members)] else leavesOf members
  | v => [([], v)]

def leavesOf : List (String × Datum) → List Leaf
  | [] => []
  | (key, v) :: rest => (leaves v).map (Leaf.under key) ++ leavesOf rest
end

def Tree.leaves (t : Tree) : List Leaf := leavesOf t.members

def plant (root : Datum) (ls : List Leaf) : Datum :=
  ls.foldl (fun root l => insertPath root l.1 l.2) root

@[simp] theorem plant_nil (root : Datum) : plant root [] = root := rfl
@[simp] theorem plant_cons (root : Datum) (l : Leaf) (ls : List Leaf) :
    plant root (l :: ls) = plant (insertPath root l.1 l.2) ls := rfl
@[simp] theorem plant_append (root : Datum) (ls ms : List Leaf) :
    plant root (ls ++ ms) = plant (plant root ls) ms := by simp [plant]

theorem leaves_ne_nil : ∀ v : Datum, leaves v ≠ []
  | .null | .bool _ | .number _ | .string _ | .array _ | .object [] => by simp [leaves]
  | .object ((k, v) :: ms) => by simp [leaves, leavesOf, leaves_ne_nil v]

theorem leavesOf_ne_nil {ms : Members} (h : ms ≠ []) : leavesOf ms ≠ [] := by
  cases ms with
  | nil => exact absurd rfl h
  | cons m ms => simp [leavesOf, leaves_ne_nil]

theorem path_ne_nil {ms : Members} {l : Leaf} (h : l ∈ leavesOf ms) : l.1 ≠ [] := by
  induction ms with
  | nil => simp [leavesOf] at h
  | cons m ms ih =>
    simp only [leavesOf, mem_append, mem_map] at h
    rcases h with ⟨inner, -, rfl⟩ | h
    · simp [Leaf.under]
    · exact ih h

mutual
theorem writable_leaves :
    ∀ (v : Datum), isTree v = true → ∀ l ∈ leaves v, Literal.isWritable 0 l.2 = true
  | .object [], h, l, hl => by
    simp only [leaves, isEmpty_nil, if_true, mem_singleton] at hl
    rw [hl]
    rfl
  | .object (m :: ms), h, l, hl => by
    simp only [isTree, Bool.and_eq_true] at h
    have hleaves : leaves (.object (m :: ms)) = leavesOf (m :: ms) := by simp [leaves]
    exact writable_leavesOf (m :: ms) h.2 l (hleaves ▸ hl)
  | .null, h, l, hl | .bool _, h, l, hl | .number _, h, l, hl | .string _, h, l, hl
  | .array _, h, l, hl => mem_singleton.mp hl ▸ h

theorem writable_leavesOf : ∀ (members : Members), areTrees members = true → ∀ l ∈ leavesOf members,
    Literal.isWritable 0 l.2 = true
  | [], h, l, hl => by simp [leavesOf] at hl
  | (key, v) :: rest, h, l, hl => by
    simp only [areTrees, Bool.and_eq_true] at h
    simp only [leavesOf, mem_append, mem_map] at hl
    rcases hl with ⟨inner, hinner, rfl⟩ | hl
    · exact writable_leaves v h.1 inner hinner
    · exact writable_leavesOf rest h.2 l hl
end

section
variable {done : Members} {key : String}

theorem get?_last (hkey : key ∉ done.keys) (v : Datum) :
    Members.get? (done ++ [(key, v)]) key = some v := by
  rw [← Members.insert_of_not_mem hkey, Members.get?_insert_self]

theorem insert_last (hkey : key ∉ done.keys) (v w : Datum) :
    Members.insert (done ++ [(key, v)]) key w = done ++ [(key, w)] := by
  induction done with
  | nil => simp [Members.insert]
  | cons m done ih =>
    obtain ⟨k, x⟩ := m
    simp only [Members.keys, map_cons, mem_cons, not_or] at hkey
    simp [Members.insert, Ne.symm hkey.1, ih hkey.2]

theorem plant_leaf (hkey : key ∉ done.keys) {v : Datum} (hv : leaves v = [([], v)]) :
    plant (.object done) ((leaves v).map (Leaf.under key)) = .object (done ++ [(key, v)]) := by
  have hinsert : insertPath (.object done) [key] v = .object (done ++ [(key, v)]) := by
    simp [insertPath, Datum.members, Members.get?_of_not_mem hkey, Members.insert_of_not_mem hkey]
  rw [hv]
  exact hinsert

theorem insertPath_new (hkey : key ∉ done.keys) {path : List String} (hpath : path ≠ [])
    (v : Datum) : insertPath (.object done) (key :: path) v =
      .object (done ++ [(key, insertPath Datum.emptyMapping path v)]) := by
  cases path with
  | nil => exact absurd rfl hpath
  | cons k path =>
    simp [insertPath, Datum.members, Members.get?_of_not_mem hkey, Members.insert_of_not_mem hkey]

theorem insertPath_last (hkey : key ∉ done.keys) (inner : Datum) {path : List String}
    (hpath : path ≠ []) (v : Datum) :
    insertPath (.object (done ++ [(key, inner)])) (key :: path) v =
      .object (done ++ [(key, insertPath inner path v)]) := by
  cases path with
  | nil => exact absurd rfl hpath
  | cons k path => simp [insertPath, Datum.members, get?_last hkey, insert_last hkey]

theorem plant_last (hkey : key ∉ done.keys) (inner : Datum) {ls : List Leaf}
    (hls : ∀ l ∈ ls, l.1 ≠ []) :
    plant (.object (done ++ [(key, inner)])) (ls.map (Leaf.under key)) =
      .object (done ++ [(key, plant inner ls)]) := by
  induction ls generalizing inner with
  | nil => rfl
  | cons l ls ih =>
    have hrest := ih (insertPath inner l.1 l.2) fun m hm => hls m (by simp [hm])
    rw [map_cons, plant_cons, plant_cons, ← hrest]
    exact congrArg (plant · _) (insertPath_last hkey inner (hls l (by simp)) l.2)

theorem plant_new (hkey : key ∉ done.keys) {ls : List Leaf} (hne : ls ≠ [])
    (hls : ∀ l ∈ ls, l.1 ≠ []) :
    plant (.object done) (ls.map (Leaf.under key)) =
    .object (done ++ [(key, plant Datum.emptyMapping ls)]) := by
  cases ls with
  | nil => exact absurd rfl hne
  | cons l ls =>
    rw [map_cons, plant_cons, plant_cons, ← plant_last hkey _ fun m hm => hls m (by simp [hm])]
    exact congrArg (plant · _) (insertPath_new hkey (hls l (by simp)) l.2)

end

mutual
theorem plant_leaves :
    ∀ (v : Datum), isTree v = true → ∀ (done : Members) (key : String), key ∉ done.keys →
    plant (.object done) ((leaves v).map (Leaf.under key)) = .object (done ++ [(key, v)])
  | .object [], h, done, key, hkey => plant_leaf hkey rfl
  | .object (m :: ms), h, done, key, hkey => by
    simp only [isTree, Bool.and_eq_true, decide_eq_true_eq] at h
    have hinner : plant Datum.emptyMapping (leavesOf (m :: ms)) = .object (m :: ms) :=
      plant_leavesOf (m :: ms) [] h.2 h.1
    have hleaves : leaves (.object (m :: ms)) = leavesOf (m :: ms) := by simp [leaves]
    rw [hleaves, plant_new hkey (leavesOf_ne_nil (by simp)) fun l hl => path_ne_nil hl, hinner]
  | .null, h, done, key, hkey | .bool _, h, done, key, hkey | .number _, h, done, key, hkey
  | .string _, h, done, key, hkey | .array _, h, done, key, hkey => plant_leaf hkey rfl

theorem plant_leavesOf : ∀ (members done : Members), areTrees members = true →
    (Members.keys (done ++ members)).Nodup →
    plant (.object done) (leavesOf members) = .object (done ++ members)
  | [], done, h, hdistinct => by simp [leavesOf]
  | (key, v) :: rest, done, h, hdistinct => by
    simp only [areTrees, Bool.and_eq_true] at h
    -- a repeated key would be merged into the earlier one
    have hkey : key ∉ done.keys := by
      simp only [Members.keys, map_append, map_cons, nodup_append] at hdistinct
      intro hmem
      exact hdistinct.2.2 key hmem key (by simp) rfl
    have hrest := plant_leavesOf rest (done ++ [(key, v)]) h.2 (by simpa using hdistinct)
    rw [leavesOf, plant_append, plant_leaves v h.1 done key hkey, hrest]
    simp
end

/-- The leaves of a tree, written into an empty mapping, are the tree. -/
theorem Tree.plant_leaves (t : Tree) : plant Datum.emptyMapping t.leaves = .object t.members := by
  have h := t.isTree
  simp only [Attribute.isTree, Bool.and_eq_true, decide_eq_true_eq] at h
  exact plant_leavesOf t.members [] h.2 h.1

theorem ranked_of_rank {writes : List Write} (h : ∀ w ∈ writes, w.rank = 0) :
    ranked writes = writes := by
  have hall : writes.filter (fun w => w.rank == 0) = writes := by
    rw [filter_eq_self]
    intro w hw
    simp [h w hw]
  have hnone : ∀ rank, rank ≠ 0 → writes.filter (fun w => w.rank == rank) = [] := by
    intro rank hrank
    rw [filter_eq_nil_iff]
    intro w hw
    simp [h w hw, Ne.symm hrank]
  simp [ranked, ranks, List.range, List.range.loop, hall, hnone]

end CookbookAtlas.Attribute
