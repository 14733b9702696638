import CookbookAtlas.Datum.Basic

/-! Members of a mapping: where keys stand and what is read at them after members are written. -/
namespace CookbookAtlas.Members

open List
variable {v : Datum} {ms : Members} {key : String}

theorem insert_of_not_mem {k : String} (h : k ∉ ms.keys) (v : Datum) :
    ms.insert k v = ms ++ [(k, v)] := by
  induction ms with
  | nil => rfl
  | cons m ms ih =>
    obtain ⟨k', v'⟩ := m
    simp only [keys, map_cons, mem_cons, not_or] at h
    rw [insert, if_neg (Ne.symm h.1), ih h.2]
    rfl

theorem foldl_insert {done more : Members} (h : (keys (done ++ more)).Nodup) :
    more.foldl (fun members p => insert members p.1 p.2) done = done ++ more := by
  induction more generalizing done with
  | nil => simp
  | cons m more ih =>
    obtain ⟨k, v⟩ := m
    have hfresh : k ∉ keys done := by
      simp only [keys, map_append, map_cons, nodup_append] at h
      intro hmem
      exact h.2.2 k hmem k (by simp) rfl
    rw [foldl_cons, insert_of_not_mem hfresh, ih (by simpa using h)]
    simp

theorem mem_of_get? (h : ms.get? key = some v) : (key, v) ∈ ms := by
  induction ms with
  | nil => cases h
  | cons m ms ih =>
    obtain ⟨k, w⟩ := m
    rw [get?] at h
    split at h
    · rename_i hk
      obtain rfl := Option.some.inj h
      simp [hk]
    · exact mem_cons_of_mem _ (ih h)

theorem get?_of_mem (hkeys : ms.keys.Nodup) (h : (key, v) ∈ ms) : ms.get? key = some v := by
  induction ms with
  | nil => cases h
  | cons m ms ih =>
    obtain ⟨k, w⟩ := m
    have hcons : k ∉ keys ms ∧ (keys ms).Nodup := nodup_cons.mp hkeys
    rcases mem_cons.mp h with heq | hmem
    · obtain ⟨rfl, rfl⟩ := Prod.mk.inj heq
      rw [get?, if_pos rfl]
    · have hne : k ≠ key := fun he => hcons.1 (he ▸ mem_map_of_mem hmem)
      rw [get?, if_neg hne, ih hcons.2 hmem]

theorem keys_insert (ms : Members) (key : String) (v : Datum) :
    (ms.insert key v).keys = if key ∈ ms.keys then ms.keys else ms.keys ++ [key] := by
  induction ms with
  | nil => rfl
  | cons m ms ih =>
    obtain ⟨k, w⟩ := m
    by_cases hk : k = key
    · simp [insert, keys, hk]
    · have hcons : ∀ x, keys ((k, w) :: x) = k :: keys x := fun _ => rfl
      rw [insert, if_neg hk, hcons, hcons, ih]
      by_cases hmem : key ∈ keys ms <;> simp [hmem, Ne.symm hk]

theorem isSome_get?_iff : (ms.get? key).isSome = true ↔ key ∈ ms.keys := by
  constructor
  · intro h
    obtain ⟨v, hv⟩ := Option.isSome_iff_exists.mp h
    exact mem_map_of_mem (mem_of_get? hv)
  · intro h
    induction ms with
    | nil => cases h
    | cons m ms ih =>
      obtain ⟨k, w⟩ := m
      by_cases hk : k = key
      · simp [get?, hk]
      · have hrest : key ∈ keys ms := (mem_cons.mp h).resolve_left (Ne.symm hk)
        rw [get?, if_neg hk, ih hrest]

theorem insert_insert_self (ms : Members) (key : String) (v w : Datum) :
    (ms.insert key v).insert key w = ms.insert key w := by
  induction ms with
  | nil => simp [insert]
  | cons m ms ih =>
    obtain ⟨k, x⟩ := m
    by_cases hk : k = key <;> simp [insert, hk, ih]

/-- Members with the same keys in the same order that read the same are the same. -/
theorem ext_get? {ns : Members} (hkeys : ms.keys = ns.keys) (hdistinct : ms.keys.Nodup)
    (h : ∀ key, ms.get? key = ns.get? key) : ms = ns := by
  induction ms generalizing ns with
  | nil =>
    cases ns with
    | nil => rfl
    | cons n ns => cases hkeys
  | cons m ms ih =>
    obtain ⟨key, v⟩ := m
    cases ns with
    | nil => cases hkeys
    | cons n ns =>
      obtain ⟨other, w⟩ := n
      obtain ⟨rfl, hrest⟩ : key = other ∧ keys ms = keys ns := List.cons.inj hkeys
      have hcons : key ∉ keys ms ∧ (keys ms).Nodup := nodup_cons.mp hdistinct
      have hv : v = w := by simpa [get?] using h key
      have hrestGet : ∀ k, get? ms k = get? ns k := by
        intro k
        by_cases hk : key = k
        · subst hk
          rw [get?_of_not_mem hcons.1, get?_of_not_mem (hrest ▸ hcons.1)]
        · simpa [get?, hk] using h k
      rw [hv, ih hrest hcons.2 hrestGet]

theorem nodup_keys_insert (h : ms.keys.Nodup) (key : String) (v : Datum) :
    (ms.insert key v).keys.Nodup := by
  rw [keys_insert]
  split
  · exact h
  · rename_i hkey
    exact nodup_append.mpr ⟨h, by simp, fun k hk l hl hkl => hkey (mem_singleton.mp hl ▸ hkl ▸ hk)⟩

theorem nodup_keys_ofPairs (pairs : List (String × Datum)) : (ofPairs pairs).keys.Nodup := by
  have hfold : ∀ ms : Members, ms.keys.Nodup →
      (keys (pairs.foldl (fun ms p => insert ms p.1 p.2) ms)).Nodup := by
    induction pairs with
    | nil => exact fun _ h => h
    | cons p pairs ih => exact fun ms h => ih _ (nodup_keys_insert h p.1 p.2)
  exact hfold [] (by simp [keys])

theorem mem_of_mem_insert {m : String × Datum} (h : m ∈ ms.insert key v) :
    m = (key, v) ∨ m ∈ ms := by
  induction ms with
  | nil => exact .inl (mem_singleton.mp h)
  | cons first ms ih =>
    obtain ⟨k, w⟩ := first
    rw [insert] at h
    split at h
    · rename_i hk
      rcases mem_cons.mp h with rfl | h
      · exact .inl (by rw [hk])
      · exact .inr (mem_cons_of_mem _ h)
    · rcases mem_cons.mp h with rfl | h
      · exact .inr mem_cons_self
      · exact (ih h).imp_right (mem_cons_of_mem _)

end CookbookAtlas.Members
