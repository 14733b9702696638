import CookbookAtlas.Proofs.Attribute.Nesting
import CookbookAtlas.Proofs.Attribute.Reading
import CookbookAtlas.Proofs.Path.Components

/-! Which collections a value has, by recursion. A mapping qualifies when it has members, all of
them mappings that do not qualify. Where keys hold no points, the collections of a value are the
mappings below its root that qualify, in pre-order and each of them once. -/
namespace CookbookAtlas.Attribute

open List

mutual
/-- Whether a value is a mapping that has members, mappings only, and none that qualifies. -/
def qualifies : Datum → Bool
  | .object members => !members.isEmpty && areMappingsPassedOver members
  | _ => false

def areMappingsPassedOver : List (String × Datum) → Bool
  | [] => true
  | (_, v) :: rest => v.isMapping && !qualifies v && areMappingsPassedOver rest
end

theorem areMappingsPassedOver_iff {members : Members} :
    areMappingsPassedOver members = true ↔
    ∀ m ∈ members, m.2.isMapping = true ∧ qualifies m.2 = false := by
  induction members with
  | nil => simp [areMappingsPassedOver]
  | cons m rest ih => simp [areMappingsPassedOver, ih]

theorem qualifies_object {members : Members} :
    qualifies (.object members) = true ↔
    ofMappings members ∧ ∀ m ∈ members, qualifies m.2 = false := by
  rw [qualifies, Bool.and_eq_true, areMappingsPassedOver_iff, ofMappings]
  simp only [Bool.not_eq_true', isEmpty_eq_false_iff]
  constructor
  · rintro ⟨hne, hall⟩
    exact ⟨⟨hne, fun m hm => (hall m hm).1⟩, fun m hm => (hall m hm).2⟩
  · rintro ⟨⟨hne, hmappings⟩, hnone⟩
    exact ⟨hne, fun m hm => ⟨hmappings m hm, hnone m hm⟩⟩

mutual
theorem nodup_paths : ∀ (v : Datum), v.isKeyed = true → ((mappingsOf v).map Prod.fst).Nodup
  | .object members, h => by
    simp only [Datum.isKeyed, Bool.and_eq_true, decide_eq_true_eq] at h
    rw [mappingsOf, map_cons, nodup_cons]
    refine ⟨fun hmem => ?_, nodup_paths_below members h.1 h.2⟩
    obtain ⟨⟨_, inner⟩, hs, rfl⟩ := mem_map.mp hmem
    exact nil_not_mem_mappingsBelow members inner hs
  | .null, _ | .bool _, _ | .number _, _ | .string _, _ | .array _, _ => by simp [mappingsOf]

theorem nodup_paths_below : ∀ (members : List (String × Datum)), (Members.keys members).Nodup →
    Datum.areKeyed members = true → ((mappingsBelow members).map Prod.fst).Nodup
  | [], _, _ => by simp [mappingsBelow]
  | (key, v) :: rest, hkeys, h => by
    simp only [Datum.areKeyed, Bool.and_eq_true] at h
    have hcons : key ∉ Members.keys rest ∧ (Members.keys rest).Nodup := nodup_cons.mp hkeys
    have hhere : ((mappingsOf v).map (Mapping.under key)).map Prod.fst =
        ((mappingsOf v).map Prod.fst).map (key :: ·) := by
      simp [Mapping.under]
    rw [mappingsBelow, map_append, hhere, nodup_append]
    refine ⟨(nodup_paths v h.1).map cons_injective, nodup_paths_below rest hcons.2 h.2, ?_⟩
    rintro path hpath other hother rfl
    obtain ⟨p, -, rfl⟩ := mem_map.mp hpath
    obtain ⟨⟨_, inner⟩, hs, rfl⟩ := mem_map.mp hother
    obtain ⟨w, hw, -⟩ := mem_mappingsBelow_cons.mp hs
    exact hcons.1 (mem_map_of_mem hw)
end

theorem dotted_inj {p q : List String} (hp : p ≠ []) (hq : q ≠ [])
    (hpoints : ∀ key ∈ p ++ q, '.' ∉ key.toList) (h : dotted p = dotted q) : p = q := by
  have hsplit : ∀ r : List String, r ≠ [] → (∀ key ∈ r, '.' ∉ key.toList) →
      Text.splitOnChar '.' (dotted r).toList = r.map String.toList := by
    intro r hr hkeys
    rw [dotted, String.toList_intercalate]
    exact Text.splitOnChar_intercalate (by simpa using hr) (by simpa using hkeys)
  have hfields : p.map String.toList = q.map String.toList := by
    rw [← hsplit p hp fun key hkey => hpoints key (mem_append_left _ hkey),
      ← hsplit q hq fun key hkey => hpoints key (mem_append_right _ hkey), h]
  exact map_injective_iff.mpr (fun _ _ => String.toList_inj.mp) hfields

/-- No key that leads to a mapping below the root holds a point. -/
def PlainKeys (root : Datum) : Prop :=
  ∀ s ∈ mappingsBelow root.members, ∀ key ∈ s.1, '.' ∉ key.toList

theorem nodup_paths_members {root : Datum} (hkeys : root.isKeyed = true) :
    ((mappingsBelow root.members).map Prod.fst).Nodup := by
  cases root with
  | object members =>
    simp only [Datum.isKeyed, Bool.and_eq_true, decide_eq_true_eq] at hkeys
    exact nodup_paths_below members hkeys.1 hkeys.2
  | _ => simp [Datum.members, mappingsBelow]

theorem distinctNames_of_plainKeys {root : Datum} (hkeys : root.isKeyed = true)
    (hplain : PlainKeys root) : DistinctNames root := by
  have hpaths := nodup_paths_members hkeys
  have hnames : (namedMappings root).map Prod.fst =
      ((mappingsBelow root.members).map Prod.fst).map dotted := by
    simp [namedMappings]
  rw [DistinctNames, hnames]
  refine List.Nodup.map_on (fun p hp q hq heq => ?_) hpaths
  obtain ⟨s, hs, rfl⟩ := mem_map.mp hp
  obtain ⟨t, ht, rfl⟩ := mem_map.mp hq
  refine dotted_inj (ne_nil_of_mem_mappingsBelow hs) (ne_nil_of_mem_mappingsBelow ht) (fun key hkey => ?_) heq
  exact (mem_append.mp hkey).elim (hplain s hs key) (hplain t ht key)

/-- Where names are distinct, the mappings reported are those that qualify by recursion. -/
theorem reports_iff_qualifies {root : Datum} (hnames : DistinctNames root) {path : List String}
    {members : Members} (hplace : (path, members) ∈ mappingsBelow root.members) :
    Reports root path ↔ qualifies (.object members) = true := by
  rw [reports_iff_members hnames hplace, qualifies_object]
  refine and_congr_right fun hof => forall₂_congr fun m hm => ?_
  obtain ⟨key, v⟩ := m
  cases v with
  | object inner =>
    have hinner : (path ++ [key], inner) ∈ mappingsBelow root.members :=
      (member_after_below hplace hm).subset (by simp)
    rw [reports_iff_qualifies hnames hinner, Bool.not_eq_true]
  | _ => cases hof.2 _ hm
termination_by sizeOf members
decreasing_by
  have := sizeOf_lt_of_mem hm
  simp at this
  omega

/-- The collections of a value whose keys hold no points are the mappings below its root that
qualify by recursion, in pre-order, each with its dotted path, its keys and its members; no two of
them have the same path. -/
theorem collections_eq_qualifying {root : Datum} (hkeys : root.isKeyed = true)
    (hplain : PlainKeys root) : ((collections root).map fun c => (c.path, c.items, c.values)) =
      (((mappingsBelow root.members).filter fun s => qualifies (.object s.2)).map fun s =>
        (dotted s.1, s.2.map Prod.fst, s.2)) ∧
    ((collections root).map Collection.path).Nodup := by
  have hnames := distinctNames_of_plainKeys hkeys hplain
  have hfound : ∀ s ∈ mappingsBelow root.members,
      (qualifying (namedMappings root)).contains (dotted s.1) = qualifies (.object s.2) := by
    intro s hs
    rw [Bool.eq_iff_iff, contains_iff_mem, ← reports_iff hs, reports_iff_qualifies hnames hs]
  rw [collections, mappingsFrom_members]
  constructor
  · have hfilter : (namedMappings root).filter (fun m => (qualifying (namedMappings root)).contains m.1) =
        ((mappingsBelow root.members).filter fun s => qualifies (.object s.2)).map fun s =>
        (dotted s.1, s.2) := by
      conv_lhs => rw [namedMappings, filter_map]
      exact congrArg _ (filter_congr hfound)
    simp only [hfilter, map_map]
    rfl
  · rw [map_map]
    exact hnames.sublist (filter_sublist.map _)

/-- Sites beside a port, a level that holds one collection only, and an empty mapping. -/
def sitesAndUsers : Datum := .object
  [("nginx", .object [("port", .number (.int 80)),
      ("sites", .object [("a", .object [("port", .number (.int 81))]),
      ("b", .object [("port", .number (.int 82))])])]),
    ("people", .object [("users", .object [("alice", .object []),
    ("bob", .object [("uid", .number (.int 2))])])]),
    ("empty", .object [])]

theorem sitesAndUsers_plainKeys : PlainKeys sitesAndUsers := by
  rw [PlainKeys]
  decide +kernel

/-- The level above the users is passed over, since its only member qualifies. -/
theorem sitesAndUsers_collections : sitesAndUsers.isKeyed = true ∧ PlainKeys sitesAndUsers ∧
    ((collections sitesAndUsers).map fun c => (c.path, c.items)) =
      [("nginx.sites", ["a", "b"]), ("people.users", ["alice", "bob"])] := by
  have hkeys : sitesAndUsers.isKeyed = true := by decide +kernel
  obtain ⟨heq, -⟩ := collections_eq_qualifying hkeys sitesAndUsers_plainKeys
  have hpairs := congrArg (List.map fun t => (t.1, t.2.1)) heq
  rw [map_map] at hpairs
  refine ⟨hkeys, sitesAndUsers_plainKeys, hpairs.trans ?_⟩
  decide +kernel

end CookbookAtlas.Attribute
