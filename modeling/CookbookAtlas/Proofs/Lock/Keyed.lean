import CookbookAtlas.Lock.Read
import Mathlib.Data.String.Basic

/-! Registries as they are read: tables are sorted by name, so every name stands once, and each
record and each edge stands under its own name. -/
namespace CookbookAtlas

open List

namespace Lock
namespace Table
variable {α : Type} {name : String} {t : Table α} {value : α}

def keys (t : Table α) : List String := t.map Prod.fst

def Sorted (t : Table α) : Prop := t.keys.Pairwise (· < ·)

instance (t : Table α) : Decidable t.Sorted := inferInstanceAs (Decidable (List.Pairwise _ _))

theorem Sorted.nodup (h : t.Sorted) : t.keys.Nodup := List.Pairwise.imp (fun hlt => ne_of_lt hlt) h

theorem mem_of_mem_insert {e : String × α} (h : e ∈ t.insert name value) :
    e = (name, value) ∨ e ∈ t := by
  induction t with
  | nil => simpa [insert] using h
  | cons first t ih =>
    obtain ⟨k, v⟩ := first
    rw [insert] at h
    split at h
    · rcases mem_cons.mp h with h | h
      · exact .inl h
      · exact .inr (mem_cons_of_mem _ h)
    · split at h
      · exact mem_cons.mp h
      · rcases mem_cons.mp h with h | h
        · exact .inr (mem_cons.mpr (.inl h))
        · exact (ih h).imp_right (mem_cons_of_mem _)

theorem mem_keys_of_mem_insert {other : String} (h : other ∈ (t.insert name value).keys) :
    other = name ∨ other ∈ t.keys := by
  obtain ⟨e, he, rfl⟩ := mem_map.mp h
  rcases mem_of_mem_insert he with rfl | he
  · exact .inl rfl
  · exact .inr (mem_map_of_mem he)

theorem Sorted.insert (h : t.Sorted) (name : String) (value : α) :
    (t.insert name value).Sorted := by
  induction t with
  | nil => exact pairwise_singleton _ _
  | cons first t ih =>
    obtain ⟨k, v⟩ := first
    have hcons : (∀ other ∈ keys t, k < other) ∧ Sorted t := pairwise_cons.mp h
    obtain ⟨hbelow, htail⟩ := hcons
    rw [Table.insert]
    split
    · rename_i hk
      subst hk
      exact h
    · rename_i hk
      split
      · rename_i hlt
        refine pairwise_cons.mpr ⟨fun other hother => ?_, h⟩
        rcases mem_cons.mp hother with rfl | hother
        · exact hlt
        · exact lt_trans hlt (hbelow other hother)
      · rename_i hlt
        refine pairwise_cons.mpr ⟨fun other hother => ?_, ih htail⟩
        rcases mem_keys_of_mem_insert hother with rfl | hother
        · exact lt_of_le_of_ne (not_lt.mp hlt) hk
        · exact hbelow other hother

/-- What holds of an empty table and stays when one of the entries is inserted holds of
their table. -/
theorem ofList_induction {motive : Table α → Prop} {entries : List (String × α)} (nil : motive [])
    (insert : ∀ t, ∀ e ∈ entries, motive t → motive (t.insert e.1 e.2)) :
    motive (ofList entries) := by
  have hfold : ∀ xs : List (String × α), (∀ e ∈ xs, e ∈ entries) → ∀ t, motive t →
      motive (xs.foldl (fun table e => table.insert e.1 e.2) t) := by
    intro xs
    induction xs with
    | nil => exact fun _ _ ht => ht
    | cons e xs ih =>
      intro hxs t ht
      exact ih (fun e' he' => hxs e' (mem_cons_of_mem _ he')) _ (insert t e (hxs e mem_cons_self) ht)
  exact hfold entries (fun _ he => he) [] nil

theorem sorted_ofList (entries : List (String × α)) : (ofList entries).Sorted :=
  ofList_induction List.Pairwise.nil fun _ e _ ht => ht.insert e.1 e.2

theorem mem_of_mem_ofList {entries : List (String × α)} {e : String × α} (h : e ∈ ofList entries) :
    e ∈ entries := by
  refine ofList_induction (motive := fun t => ∀ e ∈ t, e ∈ entries) (by simp) ?_ e h
  intro t first hfirst ht e he
  rcases mem_of_mem_insert he with rfl | he
  · exact hfirst
  · exact ht e he

theorem mem_of_get? (h : t.get? name = some value) : (name, value) ∈ t := by
  induction t with
  | nil => simp [get?] at h
  | cons first t ih =>
    obtain ⟨k, v⟩ := first
    rw [get?] at h
    split at h
    · rename_i hk
      cases h
      exact hk ▸ mem_cons_self
    · exact mem_cons_of_mem _ (ih h)

theorem isSome_get?_iff : (t.get? name).isSome ↔ name ∈ t.keys := by
  induction t with
  | nil => simp [get?, keys]
  | cons first t ih =>
    obtain ⟨k, v⟩ := first
    by_cases hk : k = name
    · simp [get?, keys, hk]
    · have hk' : ¬name = k := fun h => hk h.symm
      simpa [get?, keys, hk, hk'] using ih

theorem Sorted.get?_of_mem (h : t.Sorted) (hmem : (name, value) ∈ t) :
    t.get? name = some value := by
  induction t with
  | nil => simp at hmem
  | cons first t ih =>
    obtain ⟨k, v⟩ := first
    have hcons : (∀ other ∈ keys t, k < other) ∧ Sorted t := pairwise_cons.mp h
    rcases mem_cons.mp hmem with he | hlater
    · cases he
      simp [get?]
    · have hlt : k < name := hcons.1 name (mem_map_of_mem hlater)
      rw [get?, if_neg (ne_of_lt hlt)]
      exact ih hcons.2 hlater

end Table

namespace Registry

/-- Both tables are sorted, and what stands under a name is of that name. -/
structure Keyed (r : Registry) : Prop where
  cookbooks_sorted : r.cookbooks.Sorted
  record_name : ∀ e ∈ r.cookbooks, e.2.name = e.1
  edges_sorted : r.edges.Sorted
  edge_cookbook : ∀ e ∈ r.edges, e.2.cookbook = e.1

theorem Keyed.name_of_get? {r : Registry} (h : r.Keyed) {name : String} {record : Record}
    (hget : r.get? name = some record) : record.name = name :=
  h.record_name _ (Table.mem_of_get? hget)

theorem Keyed.mem_records_iff {r : Registry} (h : r.Keyed) {record : Record} :
    record ∈ r.records ↔ r.get? record.name = some record := by
  constructor
  · intro hmem
    obtain ⟨⟨name, found⟩, hfound, rfl⟩ := mem_map.mp hmem
    have hname : found.name = name := h.record_name _ hfound
    rw [hname]
    exact h.cookbooks_sorted.get?_of_mem hfound
  · intro hget
    exact mem_map.mpr ⟨_, Table.mem_of_get? hget, rfl⟩

theorem Keyed.nodup_records {r : Registry} (h : r.Keyed) : (r.records.map Record.name).Nodup := by
  have hnames : r.records.map Record.name = r.cookbooks.keys := by
    rw [records, map_map]
    exact map_congr_left h.record_name
  rw [hnames]
  exact h.cookbooks_sorted.nodup

theorem keyed_of_read {cs : List Char} {r : Registry} (h : read cs = .ok r) : r.Keyed := by
  rw [read] at h
  split at h
  · cases h
  · cases h
  · cases h
  · rename_i name locks solution _
    cases h
    have hkeys : Table.keys ((Table.ofList locks).map fun e => (e.1, e.2.record e.1)) =
        (Table.ofList locks).keys := by
      simp [Table.keys, Function.comp_def]
    refine ⟨?_, ?_, Table.sorted_ofList _, ?_⟩
    · rw [Table.Sorted, hkeys]
      exact Table.sorted_ofList locks
    · intro e he
      obtain ⟨entry, _, rfl⟩ := mem_map.mp he
      rfl
    · intro e he
      obtain ⟨entry, _, rfl⟩ := mem_map.mp (Table.mem_of_mem_ofList he)
      rfl

end Registry
end Lock
end CookbookAtlas
