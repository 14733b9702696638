import CookbookAtlas.Proofs.Attribute.Discovery

/-! Mappings with one name. Whether a mapping qualifies is remembered by its dotted name, and keys
may hold points, so two key paths can spell the same name. All mappings of a name that qualifies are
reported. One of them has members, and mappings only; the others need not. -/
namespace CookbookAtlas.Attribute

open List

/-- Whether a reported entry has items, and mappings only. -/
def Collection.IsProper (c : Collection) : Prop :=
  c.items ≠ [] ∧ ∀ m ∈ c.values, m.2.isMapping = true

theorem Collection.isProper_iff {c : Collection} : c.IsProper ↔ ofMappings c.values := by
  simp [IsProper, ofMappings, items, Members.keys]

def Mapping.entry (s : Mapping) : Collection := ⟨dotted s.1, s.2⟩

/-- Two mappings of a value at different key paths that spell the same name. -/
structure Namesakes (root : Datum) (s t : Mapping) : Prop where
  first : s ∈ mappingsBelow root.members
  second : t ∈ mappingsBelow root.members
  name : dotted s.1 = dotted t.1
  ne : s.1 ≠ t.1

theorem Namesakes.exists_point {root : Datum} {s t : Mapping} (h : Namesakes root s t) :
    ∃ key ∈ s.1 ++ t.1, '.' ∈ key.toList := by
  by_contra hnone
  refine h.ne (dotted_inj (ne_nil_of_mem_mappingsBelow h.first) (ne_nil_of_mem_mappingsBelow h.second) ?_ h.name)
  exact fun key hkey hpoint => hnone ⟨key, hkey, hpoint⟩

section
variable {root : Datum} {c : Collection}

theorem exists_reported (h : c ∈ collections root) :
    ∃ s ∈ mappingsBelow root.members, s.entry = c ∧ c.path ∈ qualifying (namedMappings root) := by
  rw [collections, mappingsFrom_members] at h
  simp only [mem_map, mem_filter, contains_iff_mem] at h
  obtain ⟨m, ⟨hm, hname⟩, rfl⟩ := h
  obtain ⟨s, hs, rfl⟩ := mem_map.mp hm
  exact ⟨s, hs, rfl, hname⟩

theorem entry_mem_collections {t : Mapping} (ht : t ∈ mappingsBelow root.members)
    (hname : dotted t.1 ∈ qualifying (namedMappings root)) : t.entry ∈ collections root :=
  mem_collections.mpr ⟨mem_namedMappings ht, hname⟩

/-- Among the mappings of a reported name is one with members, and mappings only. -/
theorem exists_proper (h : c ∈ collections root) :
    ∃ t ∈ mappingsBelow root.members, dotted t.1 = c.path ∧ t.entry ∈ collections root ∧
    t.entry.IsProper := by
  obtain ⟨-, -, -, hname⟩ := exists_reported h
  obtain ⟨members, hmem, hof⟩ := exists_ofMappings hname
  obtain ⟨t, ht, heq⟩ := mem_map.mp hmem
  obtain ⟨hpath, rfl⟩ := Prod.mk.inj heq
  exact ⟨t, ht, hpath, entry_mem_collections ht (hpath ▸ hname), Collection.isProper_iff.mpr hof⟩

/-- An entry that is not proper has a namesake that is, and a key that leads to one of the two holds
a point. -/
theorem exists_namesake (hkeys : root.isKeyed = true) (h : c ∈ collections root)
    (hnot : ¬c.IsProper) :
    ∃ s t, Namesakes root s t ∧ s.entry = c ∧ t.entry ∈ collections root ∧ t.entry.IsProper ∧
      ∃ key ∈ s.1 ++ t.1, '.' ∈ key.toList := by
  obtain ⟨s, hs, rfl, -⟩ := exists_reported h
  obtain ⟨t, ht, hname, hreported, hproper⟩ := exists_proper h
  have hne : s.1 ≠ t.1 := by
    intro heq
    obtain rfl : s = t := inj_on_of_nodup_map (nodup_paths_members hkeys) hs ht heq
    exact hnot hproper
  have hnamesakes : Namesakes root s t := ⟨hs, ht, hname.symm, hne⟩
  exact ⟨s, t, hnamesakes, rfl, hreported, hproper, hnamesakes.exists_point⟩

/-- Where no key holds a point, every collection has an item. -/
theorem values_ne_nil (hkeys : root.isKeyed = true) (hplain : PlainKeys root)
    (h : c ∈ collections root) : c.values ≠ [] := by
  intro hnil
  have hnot : ¬c.IsProper := fun hproper => (Collection.isProper_iff.mp hproper).1 hnil
  obtain ⟨s, t, hnamesakes, -, -, -, key, hkey, hpoint⟩ := exists_namesake hkeys h hnot
  rcases mem_append.mp hkey with hkey | hkey
  · exact hplain s hnamesakes.first key hkey hpoint
  · exact hplain t hnamesakes.second key hkey hpoint

/-- An entry whose name belongs to one key path only has items, and mappings only. All mappings that
share the name of an entry are entries, and one of them is proper; so an entry that is not shares
its name with one that is, and a key that leads to one of the two holds a point. -/
theorem reported_proper_unless_namesake (hkeys : root.isKeyed = true) (h : c ∈ collections root) :
    ((∀ s t, Namesakes root s t → dotted s.1 ≠ c.path) →
    c.items ≠ [] ∧ ∀ m ∈ c.values, m.2.isMapping = true) ∧
      (∀ s ∈ mappingsBelow root.members, dotted s.1 = c.path → s.entry ∈ collections root) ∧
      (¬c.IsProper → ∃ s t, Namesakes root s t ∧ s.entry = c ∧ t.entry ∈ collections root ∧
      t.entry.IsProper ∧
        ∃ key ∈ s.1 ++ t.1, '.' ∈ key.toList) := by
  obtain ⟨-, -, -, hname⟩ := exists_reported h
  refine ⟨fun hone => ?_, fun s hs heq => entry_mem_collections hs (heq ▸ hname),
    exists_namesake hkeys h⟩
  by_contra hnot
  obtain ⟨s, t, hnamesakes, rfl, -⟩ := exists_namesake hkeys h hnot
  exact hone s t hnamesakes rfl

end

/-- Two key paths that spell `a.b.c`: one leads to a collection, the other to an empty mapping. -/
def sharedName : Datum := .object
  [("a", .object [("b.c", .object [("d", .object [])])]), ("a.b", .object [("c", .object [])])]

theorem sharedName_isKeyed : sharedName.isKeyed = true := by decide +kernel

theorem mem_sharedName_empty :
    ((["a.b", "c"], []) : Mapping) ∈ mappingsBelow sharedName.members := by
  simp [sharedName, Datum.members, mappingsBelow, mappingsOf, Mapping.under]

theorem mem_sharedName_single :
    ((["a.b"], [("c", .object [])]) : Mapping) ∈ mappingsBelow sharedName.members := by
  simp [sharedName, Datum.members, mappingsBelow, mappingsOf, Mapping.under]

theorem sharedName_empty_reported : (⟨"a.b.c", []⟩ : Collection) ∈ collections sharedName :=
  entry_mem_collections mem_sharedName_empty (by decide +kernel)

theorem sharedName_single : ∀ s t, Namesakes sharedName s t → dotted s.1 ≠ "a.b" := by
  intro s t h hname
  have hpaths : ((mappingsBelow sharedName.members).map Prod.fst).filter
      (fun p => dotted p == "a.b") = [["a.b"]] := by
    decide +kernel
  have hone : ∀ u ∈ mappingsBelow sharedName.members, dotted u.1 = "a.b" → u.1 = ["a.b"] := by
    intro u hu heq
    have hmem : u.1 ∈ ((mappingsBelow sharedName.members).map Prod.fst).filter (fun p => dotted p == "a.b") :=
      mem_filter.mpr ⟨mem_map_of_mem hu, by rw [heq]; rfl⟩
    rwa [hpaths, mem_singleton] at hmem
  exact h.ne ((hone s h.first hname).trans (hone t h.second (h.name ▸ hname)).symm)

theorem sharedName_reported : sharedName.isKeyed = true ∧
    (⟨"a.b", [("c", .object [])]⟩ : Collection) ∈ collections sharedName ∧
    Collection.IsProper ⟨"a.b", [("c", .object [])]⟩ ∧ ⟨"a.b.c", []⟩ ∈ collections sharedName ∧
    ∃ s t, Namesakes sharedName s t ∧ s.entry = ⟨"a.b.c", []⟩ ∧ t.entry ∈ collections sharedName ∧
    t.entry.IsProper := by
  have hsingle : (⟨"a.b", [("c", .object [])]⟩ : Collection) ∈ collections sharedName :=
    entry_mem_collections mem_sharedName_single (by decide +kernel)
  have hproper := (reported_proper_unless_namesake sharedName_isKeyed hsingle).1 sharedName_single
  obtain ⟨s, t, hnamesakes, hs, ht, htproper, -⟩ :=
    (reported_proper_unless_namesake sharedName_isKeyed sharedName_empty_reported).2.2 fun h =>
      h.1 rfl
  exact ⟨sharedName_isKeyed, hsingle, hproper, sharedName_empty_reported, s, t, hnamesakes, hs, ht,
    htproper⟩

theorem empty_mapping_reported :
    ¬∀ (root : Datum) (c : Collection), root.isKeyed = true → c ∈ collections root →
      c.items ≠ [] ∧ ∀ m ∈ c.values, m.2.isMapping = true :=
  fun h => (h sharedName _ sharedName_isKeyed sharedName_empty_reported).1 rfl

end CookbookAtlas.Attribute
