import CookbookAtlas.Proofs.Files.Removal
import CookbookAtlas.Proofs.Path.Components

/-! File trees in order: every place is listed once, under names that files can have, and lies in
a directory. What is found in such a tree is what it lists, and nothing lies below what is not a
directory. -/
namespace CookbookAtlas.Files
namespace Tree

open List
variable {e : Entry} {place : Place} {t : Tree}

structure Proper (t : Tree) : Prop where
  distinct : (t.entries.map Prod.fst).Nodup
  named : ∀ e ∈ t.entries, ∀ n ∈ e.1, Path.IsName n
  held : ∀ e ∈ t.entries, t.get? e.1.dropLast = some .directory

theorem get?_of_ne (h : place ≠ []) : t.get? place = lookup place t.entries :=
  if_neg h

@[simp] theorem get?_root (t : Tree) : t.get? [] = some .directory := rfl

theorem mem_of_lookup {entries : List (Place × Entry)} (h : lookup place entries = some e) :
    (place, e) ∈ entries := by
  induction entries with
  | nil => simp [lookup] at h
  | cons f rest ih =>
    obtain ⟨k, old⟩ := f
    by_cases hk : k = place
    · have hold : old = e := by simpa [lookup, hk] using h
      simp [hk, hold]
    · exact mem_cons_of_mem _ (ih (by simpa [lookup, hk] using h))

theorem lookup_of_mem {entries : List (Place × Entry)} (hdistinct : (entries.map Prod.fst).Nodup)
    (h : (place, e) ∈ entries) : lookup place entries = some e := by
  induction entries with
  | nil => simp at h
  | cons f rest ih =>
    obtain ⟨k, old⟩ := f
    obtain ⟨hk, hrest⟩ := nodup_cons.1 hdistinct
    rcases mem_cons.1 h with hhere | hthere
    · cases hhere
      simp [lookup]
    · have hne : k ≠ place := by
        rintro rfl
        exact hk (mem_map.2 ⟨_, hthere, rfl⟩)
      simpa [lookup, hne] using ih hrest hthere

/-- In a tree that lists every place once, what is listed is what is found. -/
theorem mem_entries_iff (hdistinct : (t.entries.map Prod.fst).Nodup) (hne : place ≠ [])
    (e : Entry) : (place, e) ∈ t.entries ↔ t.get? place = some e := by
  rw [get?_of_ne hne]
  exact ⟨lookup_of_mem hdistinct, mem_of_lookup⟩

theorem keys_replace (place : Place) (entry : Entry) (entries : List (Place × Entry)) :
    (replace place entry entries).map Prod.fst =
      if place ∈ entries.map Prod.fst then entries.map Prod.fst
      else entries.map Prod.fst ++ [place] := by
  induction entries with
  | nil => simp [replace]
  | cons f rest ih =>
    obtain ⟨k, old⟩ := f
    by_cases hk : k = place
    · simp [replace, hk]
    · simp only [replace, hk, if_false, map_cons, ih, mem_cons, Ne.symm hk, false_or]
      split <;> simp

theorem distinct_put (h : (t.entries.map Prod.fst).Nodup) (place : Place) (entry : Entry) :
    ((t.put place entry).entries.map Prod.fst).Nodup := by
  unfold put
  split
  · exact h
  · rw [keys_replace]
    split
    · exact h
    · rename_i hnew
      refine nodup_append.2 ⟨h, by simp, ?_⟩
      rintro k hk other hother rfl
      have hplace : k = place := by simpa using hother
      exact hnew (hplace ▸ hk)

theorem distinct_filter (h : (t.entries.map Prod.fst).Nodup) (keep : Place × Entry → Bool) :
    ((t.entries.filter keep).map Prod.fst).Nodup :=
  h.sublist ((filter_sublist).map Prod.fst)

namespace Proper

variable {t : Tree}

theorem mem_iff (h : t.Proper) (hne : place ≠ []) (e : Entry) :
    (place, e) ∈ t.entries ↔ t.get? place = some e :=
  mem_entries_iff h.distinct hne e

theorem isName (h : t.Proper) (hget : t.get? place = some e) : ∀ n ∈ place, Path.IsName n := by
  by_cases hne : place = []
  · simp [hne]
  · exact h.named (place, e) ((h.mem_iff hne e).2 hget)

theorem directory_above (h : t.Proper) {rest : Place} (hrest : rest ≠ [])
    (hsome : (t.get? (place ++ rest)).isSome) : t.get? place = some .directory := by
  induction rest using List.reverseRecOn with
  | nil => exact absurd rfl hrest
  | append_singleton rest n ih =>
    obtain ⟨e, he⟩ := Option.isSome_iff_exists.1 hsome
    have hmem : (place ++ (rest ++ [n]), e) ∈ t.entries := (h.mem_iff (by simp) e).2 he
    have hup : t.get? (place ++ rest) = some .directory := by
      have hheld := h.held _ hmem
      rwa [← append_assoc, dropLast_concat] at hheld
    by_cases hempty : rest = []
    · simpa [hempty] using hup
    · exact ih hempty (by simp [hup])

theorem none_below (h : t.Proper) (hplace : t.get? place ≠ some .directory) {rest : Place}
    (hrest : rest ≠ []) : t.get? (place ++ rest) = none := by
  by_contra hsome
  exact hplace (h.directory_above hrest (Option.isSome_iff_ne_none.2 hsome))

theorem none_under (h : t.Proper) {other : Place} (hplace : t.get? place = none)
    (hother : place <+: other) : t.get? other = none := by
  obtain ⟨rest, rfl⟩ := hother
  by_cases hrest : rest = []
  · simpa [hrest] using hplace
  · exact h.none_below (by simp [hplace]) hrest

/-- Writing an entry into a directory keeps the order, unless it is a file in place of a
directory. -/
theorem put (h : t.Proper) {n : String} {entry : Entry} (hplace : t.get? place = some .directory)
    (hname : Path.IsName n)
    (hentry : entry = .directory ∨ t.get? (place ++ [n]) ≠ some .directory) :
    (t.put (place ++ [n]) entry).Proper := by
  have hne : place ++ [n] ≠ [] := by simp
  have hdistinct := distinct_put h.distinct (place ++ [n]) entry
  have hnames : ∀ m ∈ place ++ [n], Path.IsName m := by
    intro m hm
    rcases mem_append.1 hm with hm | hm
    · exact h.isName hplace m hm
    · simpa [mem_singleton.1 hm] using hname
  have hmem : ∀ e ∈ (t.put (place ++ [n]) entry).entries, e.1 = [] ∨ e.1 = place ++ [n] ∨
      e ∈ t.entries := by
    rintro ⟨k, e⟩ he
    by_cases hroot : k = []
    · exact .inl hroot
    · by_cases hk : k = place ++ [n]
      · exact .inr (.inl hk)
      · have hget := (mem_entries_iff hdistinct hroot e).1 he
        rw [get?_put t k entry hne, if_neg (Ne.symm hk)] at hget
        exact .inr (.inr ((h.mem_iff hroot e).2 hget))
  refine ⟨hdistinct, fun e he => ?_, fun e he => ?_⟩
  · rcases hmem e he with hroot | hk | hold
    · simp [hroot]
    · simpa only [hk] using hnames
    · exact h.named e hold
  · have hheld : t.get? e.1.dropLast = some .directory := by
      rcases hmem e he with hroot | hk | hold
      · simp [hroot]
      · simpa [hk] using hplace
      · exact h.held e hold
    rw [get?_put t _ entry hne]
    split
    · rename_i heq
      rcases hentry with rfl | hfile
      · rfl
      · exact absurd (heq ▸ hheld) hfile
    · exact hheld

theorem remove (h : t.Proper) (place : Place) : (t.remove place).Proper := by
  have hmem : ∀ e ∈ (t.remove place).entries, e ∈ t.entries ∧ ¬ place <+: e.1 := by
    intro e he
    obtain ⟨hold, hkept⟩ := mem_filter.1 he
    exact ⟨hold, fun hpre => by simp [List.isPrefixOf_iff_prefix.2 hpre] at hkept⟩
  refine ⟨distinct_filter h.distinct _, fun e he => h.named e (hmem e he).1, fun e he => ?_⟩
  obtain ⟨hold, hout⟩ := hmem e he
  have hheld := h.held e hold
  by_cases hroot : e.1.dropLast = []
  · simp [hroot]
  · have hkept : ¬ place <+: e.1.dropLast := fun hpre => hout (hpre.trans (List.dropLast_prefix _))
    have hne : place ≠ [] := fun hnil => hkept (hnil ▸ nil_prefix)
    rw [get?_remove t hne, if_neg hkept]
    exact hheld

end Proper
end Tree
end CookbookAtlas.Files
