import CookbookAtlas.Attribute.Collection
import Mathlib.Data.List.Nodup

/-! Collections inside collections. The mappings of a value are named by their keys, joined by
points. Where no two mappings have the same name, a mapping of mappings is a collection exactly
when none of its members is one, so collections never stand directly below each other; two levels
further down there may be another one. -/
namespace CookbookAtlas.Attribute

open List
variable {mappings : List (String × Members)} {v : Datum} {path : List String} {inner members :
  Members} {key name : String}

abbrev Mapping := List String × Members

def Mapping.under (key : String) (s : Mapping) : Mapping := (key :: s.1, s.2)

mutual
/-- The mappings of a value, itself included, in pre-order. -/
def mappingsOf : Datum → List Mapping
  | .object members => ([], members) :: mappingsBelow members
  | _ => []

def mappingsBelow : List (String × Datum) → List Mapping
  | [] => []
  | (key, v) :: rest => (mappingsOf v).map (Mapping.under key) ++ mappingsBelow rest
end

def dotted (path : List String) : String := String.intercalate "." path

theorem dotted_snoc (hpath : path ≠ []) (key : String) :
    dotted (path ++ [key]) = dotted path ++ "." ++ key := by
  rw [dotted, String.intercalate_append_of_ne_nil hpath (by simp), String.intercalate_singleton]
  rfl

/-- A mapping as the walk gives it, when the walk starts below `above`. -/
def Mapping.named (above : List String) (s : Mapping) : String × Members :=
  (dotted (above ++ s.1), s.2)

def sitesAt (above : List String) (members : Members) : Sites :=
  members.map fun m => (dotted (above ++ [m.1]), m.2)

theorem sitesAt_nil (members : Members) : sitesAt [] members = members := by
  have hsame : (fun m : String × Datum => (dotted ([] ++ [m.1]), m.2)) = id := by
    funext m
    simp [dotted]
  rw [sitesAt, hsame, map_id]

theorem sitesAt_of_ne_nil {above : List String} (habove : above ≠ []) (members : Members) :
    sitesAt above members = memberSites (dotted above) members := by
  rw [sitesAt, memberSites]
  exact map_congr_left fun m _ => by rw [dotted_snoc habove]

theorem mappingsFrom_append (xs ys : Sites) :
    mappingsFrom (xs ++ ys) = mappingsFrom xs ++ mappingsFrom ys := by
  fun_induction mappingsFrom xs with
  | case1 => rfl
  | case2 path members rest ih =>
    rw [cons_append, mappingsFrom, ← append_assoc, ih]
    rfl
  | case3 path v rest hv ih =>
    rw [cons_append, mappingsFrom, ih]
    exact hv

mutual
theorem mappingsFrom_value (above : List String) (key : String) (v : Datum) :
    mappingsFrom [(dotted (above ++ [key]), v)] =
      ((mappingsOf v).map (Mapping.under key)).map (Mapping.named above) := by
  match v with
  | .object members =>
    have hne : above ++ [key] ≠ [] := by simp
    have hbelow := mappingsFrom_sitesAt (above ++ [key]) members
    rw [sitesAt_of_ne_nil hne] at hbelow
    rw [mappingsFrom, append_nil, hbelow, mappingsOf]
    simp [Mapping.under, Mapping.named]
  | .null | .bool _ | .number _ | .string _ | .array _ => simp [mappingsFrom, mappingsOf]

theorem mappingsFrom_sitesAt (above : List String) (members : List (String × Datum)) :
    mappingsFrom (sitesAt above members) = (mappingsBelow members).map (Mapping.named above) := by
  match members with
  | [] => simp [sitesAt, mappingsFrom, mappingsBelow]
  | (key, v) :: rest =>
    have hsplit : sitesAt above ((key, v) :: rest) =
        [(dotted (above ++ [key]), v)] ++ sitesAt above rest := rfl
    rw [hsplit, mappingsFrom_append, mappingsFrom_value, mappingsFrom_sitesAt, mappingsBelow,
      map_append]
end

/-- The mappings below the root of a value, under their names. -/
def namedMappings (root : Datum) : List (String × Members) :=
  (mappingsBelow root.members).map fun s => (dotted s.1, s.2)

theorem mappingsFrom_members (root : Datum) : mappingsFrom root.members = namedMappings root := by
  have hwalk := mappingsFrom_sitesAt [] root.members
  rw [sitesAt_nil] at hwalk
  exact hwalk

theorem nil_not_mem_mappingsBelow (members inner : Members) :
    ([], inner) ∉ mappingsBelow members := by
  induction members with
  | nil => simp [mappingsBelow]
  | cons m rest ih => simp [mappingsBelow, Mapping.under, ih]

theorem mem_mappingsOf_nil : ([], members) ∈ mappingsOf v ↔ v = .object members := by
  cases v <;> simp [mappingsOf, nil_not_mem_mappingsBelow, eq_comm]

theorem mem_mappingsBelow_cons :
    (key :: path, inner) ∈ mappingsBelow members ↔
    ∃ v, (key, v) ∈ members ∧ (path, inner) ∈ mappingsOf v := by
  induction members with
  | nil => simp [mappingsBelow]
  | cons m rest ih =>
    obtain ⟨k, v⟩ := m
    simp only [mappingsBelow, mem_append, mem_map, mem_cons, ih]
    constructor
    · rintro (⟨s, hs, heq⟩ | ⟨w, hw, hinner⟩)
      · obtain ⟨⟨rfl, rfl⟩, rfl⟩ : (k = key ∧ s.1 = path) ∧ s.2 = inner := by simpa [Mapping.under] using heq
        exact ⟨v, .inl rfl, hs⟩
      · exact ⟨w, .inr hw, hinner⟩
    · rintro ⟨w, heq | hw, hinner⟩
      · obtain ⟨rfl, rfl⟩ := Prod.mk.inj heq
        exact .inl ⟨(path, inner), hinner, rfl⟩
      · exact .inr ⟨w, hw, hinner⟩

theorem mem_mappingsOf_cons :
    (key :: path, inner) ∈ mappingsOf v ↔ (key :: path, inner) ∈ mappingsBelow v.members := by
  cases v <;> simp [mappingsOf, mappingsBelow, Datum.members]

theorem mem_mappingsBelow_of_mem (h : (key, .object inner) ∈ members) :
    ([key], inner) ∈ mappingsBelow members :=
  mem_mappingsBelow_cons.mpr ⟨_, h, mem_mappingsOf_nil.mpr rfl⟩

mutual
theorem member_after {v : Datum} {s : Mapping} {key : String} {inner : Members}
    (hs : s ∈ mappingsOf v)
    (hmember : (key, .object inner) ∈ s.2) : [s, (s.1 ++ [key], inner)].Sublist (mappingsOf v) := by
  match v with
  | .object members =>
    rw [mappingsOf, mem_cons] at hs
    rw [mappingsOf]
    rcases hs with rfl | hs
    · have hbelow : ([key], inner) ∈ mappingsBelow members := mem_mappingsBelow_of_mem hmember
      exact (singleton_sublist.mpr hbelow).cons_cons _
    · exact (member_after_below hs hmember).cons _
  | .null | .bool _ | .number _ | .string _ | .array _ => simp [mappingsOf] at hs

theorem member_after_below {members : List (String × Datum)} {s : Mapping} {key : String}
    {inner : Members} (hs : s ∈ mappingsBelow members) (hmember : (key, .object inner) ∈ s.2) :
    [s, (s.1 ++ [key], inner)].Sublist (mappingsBelow members) := by
  match members with
  | [] => simp [mappingsBelow] at hs
  | (k, v) :: rest =>
    rw [mappingsBelow, mem_append, mem_map] at hs
    rw [mappingsBelow]
    rcases hs with ⟨t, ht, rfl⟩ | hs
    · exact ((member_after ht hmember).map (Mapping.under k)).trans (sublist_append_left _ _)
    · exact (member_after_below hs hmember).trans (sublist_append_right _ _)
end

theorem exists_holder (h : (path ++ [key], inner) ∈ mappingsOf v) :
    ∃ holder, (path, holder) ∈ mappingsOf v ∧ (key, .object inner) ∈ holder := by
  induction path generalizing v with
  | nil =>
    obtain ⟨w, hw, hinner⟩ := mem_mappingsBelow_cons.mp (mem_mappingsOf_cons.mp h)
    obtain rfl := mem_mappingsOf_nil.mp hinner
    cases v with
    | object members => exact ⟨members, mem_mappingsOf_nil.mpr rfl, hw⟩
    | _ => simp [Datum.members] at hw
  | cons k path ih =>
    obtain ⟨w, hw, hinner⟩ := mem_mappingsBelow_cons.mp (mem_mappingsOf_cons.mp h)
    obtain ⟨holder, hholder, hmember⟩ := ih hinner
    exact ⟨holder, mem_mappingsOf_cons.mpr (mem_mappingsBelow_cons.mpr ⟨w, hw, hholder⟩), hmember⟩

def ofMappings (members : Members) : Prop := members ≠ [] ∧ ∀ m ∈ members, m.2.isMapping = true

theorem mem_qualify {path : String} {found : List String} :
    name ∈ qualify (path, members) found ↔
      name ∈ found ∨ name = path ∧ ofMappings members ∧
      ∀ m ∈ members, path ++ "." ++ m.1 ∉ found := by
  have hcond : (!members.isEmpty && members.all (fun m => m.2.isMapping)
      && !members.any fun m => found.contains (path ++ "." ++ m.1)) = true ↔
      ofMappings members ∧ ∀ m ∈ members, path ++ "." ++ m.1 ∉ found := by
    simp [ofMappings]
  rw [qualify]
  split
  · rename_i h
    rw [mem_cons]
    tauto
  · rename_i h
    rw [hcond] at h
    tauto

/-- A name qualifies only through a mapping that has members, and mappings only. -/
theorem exists_ofMappings (h : name ∈ qualifying mappings) :
    ∃ members, (name, members) ∈ mappings ∧ ofMappings members := by
  induction mappings with
  | nil => simp [qualifying] at h
  | cons m rest ih =>
    obtain ⟨path, members⟩ := m
    rw [qualifying, foldr_cons, mem_qualify] at h
    rcases h with h | ⟨rfl, hof, -⟩
    · obtain ⟨inner, hinner, hof⟩ := ih h
      exact ⟨inner, mem_cons_of_mem _ hinner, hof⟩
    · exact ⟨members, mem_cons_self, hof⟩

theorem mem_names_of_mem_qualifying (h : name ∈ qualifying mappings) :
    name ∈ mappings.map Prod.fst := by
  obtain ⟨members, hmem, -⟩ := exists_ofMappings h
  exact mem_map_of_mem hmem

/-- A name other than that of the first mapping is decided by the rest. -/
theorem mem_qualifying_cons {path : String} {rest : List (String × Members)} (hne : name ≠ path) :
    name ∈ qualifying ((path, members) :: rest) ↔ name ∈ qualifying rest := by
  rw [qualifying, foldr_cons, mem_qualify]
  simp [hne, qualifying]

/-- Where names are distinct and members come after the mapping that holds them, a mapping of
mappings qualifies when none of its members does. -/
theorem mem_qualifying_iff (hnames : (mappings.map Prod.fst).Nodup)
    {path : String} (hm : (path, members) ∈ mappings)
    (hafter : ∀ m ∈ members, m.2.isMapping = true →
      ∃ inner, [(path, members), (path ++ "." ++ m.1, inner)].Sublist mappings) :
    path ∈ qualifying mappings ↔
      ofMappings members ∧ ∀ m ∈ members, path ++ "." ++ m.1 ∉ qualifying mappings := by
  induction mappings with
  | nil => simp at hm
  | cons first rest ih =>
    obtain ⟨name, inner⟩ := first
    rw [map_cons, nodup_cons] at hnames
    obtain ⟨hfresh, hrest⟩ := hnames
    have hlater : ∀ m ∈ members, m.2.isMapping = true → path ++ "." ++ m.1 ∈ rest.map Prod.fst := by
      intro m hmem hmapping
      obtain ⟨below, hsub⟩ := hafter m hmem hmapping
      have hin : (path ++ "." ++ m.1, below) ∈ rest := by
        cases hsub with
        | cons _ h | cons_cons _ h => exact h.subset (by simp)
      exact mem_map_of_mem hin
    have hmembers : ofMappings members →
        ((∀ m ∈ members, path ++ "." ++ m.1 ∉ qualifying ((name, inner) :: rest)) ↔
        ∀ m ∈ members, path ++ "." ++ m.1 ∉ qualifying rest) := by
      intro hof
      refine forall₂_congr fun m hmem => not_congr (mem_qualifying_cons ?_)
      rintro rfl
      exact hfresh (hlater m hmem (hof.2 m hmem))
    rw [and_congr_right hmembers]
    by_cases hpath : path = name
    · subst hpath
      have hsame : members = inner := by
        rcases mem_cons.mp hm with heq | hin
        · exact (Prod.mk.inj heq).2
        · exact absurd (mem_map_of_mem hin) hfresh
      have hnot : path ∉ qualifying rest := fun h => hfresh (mem_names_of_mem_qualifying h)
      subst hsame
      rw [qualifying, foldr_cons, mem_qualify]
      simpa [qualifying] using fun h => absurd h hnot
    · have hin : (path, members) ∈ rest := by simpa [hpath] using hm
      rw [mem_qualifying_cons hpath]
      refine ih hrest hin fun m hmem hmapping => ?_
      obtain ⟨below, hsub⟩ := hafter m hmem hmapping
      refine ⟨below, ?_⟩
      cases hsub with
      | cons _ h => exact h
      | cons_cons _ h => exact absurd rfl hpath

def DistinctNames (root : Datum) : Prop := ((namedMappings root).map Prod.fst).Nodup

/-- Whether the mapping at a key path is among the collections of a value. -/
def Reports (root : Datum) (path : List String) : Prop :=
  ∃ members, (path, members) ∈ mappingsBelow root.members ∧
    ⟨dotted path, members⟩ ∈ collections root

section
variable {root : Datum} {path : List String} {members : Members}

theorem mem_collections : (⟨dotted path, members⟩ : Collection) ∈ collections root ↔
    (dotted path, members) ∈ namedMappings root ∧
    dotted path ∈ qualifying (namedMappings root) := by
  rw [collections, mappingsFrom_members]
  simp only [mem_map, mem_filter, contains_iff_mem, Collection.mk.injEq]
  constructor
  · rintro ⟨m, ⟨hm, hname⟩, hpath, rfl⟩
    rw [← hpath]
    exact ⟨hm, hname⟩
  · rintro ⟨hm, hname⟩
    exact ⟨_, ⟨hm, hname⟩, rfl, rfl⟩

theorem mem_namedMappings (hplace : (path, members) ∈ mappingsBelow root.members) :
    (dotted path, members) ∈ namedMappings root := mem_map.mpr ⟨_, hplace, rfl⟩

/-- The mapping at a key path is a collection when its name qualifies. -/
theorem reports_iff (hplace : (path, members) ∈ mappingsBelow root.members) :
    Reports root path ↔ dotted path ∈ qualifying (namedMappings root) := by
  constructor
  · rintro ⟨found, -, hfound⟩
    exact (mem_collections.mp hfound).2
  · intro hname
    exact ⟨members, hplace, mem_collections.mpr ⟨mem_namedMappings hplace, hname⟩⟩

theorem ne_nil_of_mem_mappingsBelow (hplace : (path, members) ∈ mappingsBelow root.members) :
    path ≠ [] := by
  rintro rfl
  exact nil_not_mem_mappingsBelow _ _ hplace

theorem DistinctNames.members_eq {others : Members} (hnames : DistinctNames root)
    (hplace : (path, members) ∈ mappingsBelow root.members)
    (hother : (path, others) ∈ mappingsBelow root.members) : others = members := by
  have heq : (dotted path, others) = (dotted path, members) :=
    inj_on_of_nodup_map hnames (mem_namedMappings hother) (mem_namedMappings hplace) rfl
  exact (Prod.mk.inj heq).2

/-- A mapping of mappings is a collection when none of its members is. -/
theorem reports_iff_members (hnames : DistinctNames root)
    (hplace : (path, members) ∈ mappingsBelow root.members) :
    Reports root path ↔ ofMappings members ∧ ∀ m ∈ members, ¬Reports root (path ++ [m.1]) := by
  have hpath := ne_nil_of_mem_mappingsBelow hplace
  have hafter : ∀ m ∈ members, m.2.isMapping = true →
      ∃ inner, (path ++ [m.1], inner) ∈ mappingsBelow root.members ∧
      [(dotted path, members), (dotted path ++ "." ++ m.1, inner)].Sublist (namedMappings root) := by
    rintro ⟨key, v⟩ hm hmapping
    obtain ⟨inner, rfl⟩ : ∃ inner, v = .object inner := by
      cases v with
      | object inner => exact ⟨inner, rfl⟩
      | _ => simp [Datum.isMapping] at hmapping
    have hsub := member_after_below hplace hm
    have hnamed := hsub.map fun s : Mapping => (dotted s.1, s.2)
    rw [map_cons, map_singleton, dotted_snoc hpath] at hnamed
    exact ⟨inner, hsub.subset (by simp), hnamed⟩
  have hqualifies := mem_qualifying_iff hnames (mem_namedMappings hplace) fun m hm hmapping =>
    (hafter m hm hmapping).imp fun _ h => h.2
  rw [reports_iff hplace, hqualifies]
  refine and_congr_right fun hof => forall₂_congr fun m hm => not_congr ?_
  obtain ⟨inner, hinner, -⟩ := hafter m hm (hof.2 m hm)
  rw [reports_iff hinner, dotted_snoc hpath]

theorem not_reports_snoc (hnames : DistinctNames root) (h : Reports root path) (key : String) :
    ¬Reports root (path ++ [key]) := by
  rintro ⟨inner, hinner, hfound⟩
  have ⟨members, hplace, _⟩ := h
  have hpath := ne_nil_of_mem_mappingsBelow hplace
  have hwhole : (path ++ [key], inner) ∈ mappingsOf (.object root.members) :=
    mem_cons_of_mem _ hinner
  obtain ⟨holder, hholder, hmember⟩ := exists_holder hwhole
  have hbelow : (path, holder) ∈ mappingsBelow root.members := by
    rw [mappingsOf, mem_cons] at hholder
    exact hholder.resolve_left fun heq => hpath (Prod.mk.inj heq).1
  obtain rfl := hnames.members_eq hplace hbelow
  have hnone := ((reports_iff_members hnames hplace).mp h).2
  exact hnone _ hmember ⟨inner, hinner, hfound⟩

/-- Where names are distinct, a mapping is a collection exactly when it has members, all of them
mappings and none a collection. So of two collections, one inside the other, the inner one is at
least two keys further down. -/
theorem collections_apart (hnames : DistinctNames root)
    (hplace : (path, members) ∈ mappingsBelow root.members) :
    (Reports root path ↔ ofMappings members ∧ ∀ m ∈ members, ¬Reports root (path ++ [m.1])) ∧
      ∀ inside, Reports root path → Reports root inside → path <+: inside →
        inside = path ∨ path.length + 2 ≤ inside.length := by
  refine ⟨reports_iff_members hnames hplace, fun inside hpath hinside hprefix => ?_⟩
  obtain ⟨further, rfl⟩ := hprefix
  match further with
  | [] => exact .inl (by simp)
  | [key] => exact absurd hinside (not_reports_snoc hnames hpath key)
  | _ :: _ :: _ => exact .inr (by simp)

end

/-- Four mappings, each the only member of the one before. -/
def nest : Datum := .object [("a", .object [("b", .object [("c", .object [("d", .object [])])])])]

theorem nest_names : DistinctNames nest := by
  rw [DistinctNames]
  decide +kernel

theorem nest_outermost :
    (["a"], [("b", .object [("c", .object [("d", .object [])])])]) ∈ mappingsBelow nest.members :=
  .head _

theorem nest_reports : Reports nest ["a"] ∧ Reports nest ["a", "b", "c"] := by
  have hinner : (["a", "b", "c"], [("d", .object [])]) ∈ mappingsBelow nest.members :=
    .tail _ (.tail _ (.head _))
  rw [reports_iff nest_outermost, reports_iff hinner]
  decide +kernel

theorem collection_inside_collection :
    ¬∀ root path inside, Reports root path → path <+: inside → inside ≠ path →
    ¬Reports root inside := by
  intro h
  obtain ⟨houter, hinner⟩ := nest_reports
  exact h nest ["a"] ["a", "b", "c"] houter ⟨["b", "c"], rfl⟩ (by decide) hinner

theorem nest_apart : DistinctNames nest ∧ Reports nest ["a"] ∧ ¬Reports nest ["a", "b"] ∧
    Reports nest ["a", "b", "c"] := by
  obtain ⟨houter, hinner⟩ := nest_reports
  have hmembers := ((collections_apart nest_names nest_outermost).1.mp houter).2
  exact ⟨nest_names, houter, hmembers _ (.head _), hinner⟩

end CookbookAtlas.Attribute
