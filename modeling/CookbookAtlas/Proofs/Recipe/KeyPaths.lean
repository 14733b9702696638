import CookbookAtlas.Proofs.Attribute.Nesting

/-! Key paths by recursion. A key comes before the keys in its value, and what stands in an array is
named as if it stood in the array's place. The walk over a list of values still to visit finds the
dotted names of these trails of keys in the same order, each where it occurs first. -/
namespace CookbookAtlas.Recipe

open List
open Attribute (dotted dotted_snoc)

variable {found : List String}

mutual
/-- The trails of keys in a value that the keys `above` lead to, in pre-order. -/
def trails (above : List String) : Datum → List (List String)
  | .object members => memberTrails above members
  | .array items => itemTrails above items
  | _ => []

def itemTrails (above : List String) : List Datum → List (List String)
  | [] => []
  | v :: rest => trails above v ++ itemTrails above rest

def memberTrails (above : List String) : List (String × Datum) → List (List String)
  | [] => []
  | (key, v) :: rest => (above ++ [key]) :: (trails (above ++ [key]) v ++ memberTrails above rest)
end

theorem note_of_mem {p : String} (h : p ∈ found) : note found (some p) = found :=
  if_pos (contains_iff_mem.mpr h)

theorem note_of_not_mem {p : String} (h : p ∉ found) : note found (some p) = p :: found :=
  if_neg fun hfound => h (contains_iff_mem.mp hfound)

theorem mem_note (found : List String) (p : String) : p ∈ note found (some p) := by
  by_cases hfound : p ∈ found
  · rwa [note_of_mem hfound]
  · simp [note_of_not_mem hfound]

theorem nodup_note (h : found.Nodup) (path : Option String) : (note found path).Nodup := by
  cases path with
  | none => exact h
  | some p =>
    by_cases hfound : p ∈ found
    · rwa [note_of_mem hfound]
    · rw [note_of_not_mem hfound]
      exact nodup_cons.mpr ⟨hfound, h⟩

theorem nodup_keyPathsFrom (h : found.Nodup) (visits : List Visit) :
    (keyPathsFrom found visits).Nodup := by
  fun_induction keyPathsFrom found visits with
  | case1 found => exact nodup_reverse.mpr h
  | case2 found path v rest ih => exact ih (nodup_note h path)

/-- Noting a path before others is the same as finding it first among them. -/
theorem note_then (found : List String) (path : Option String) (later : List String) :
    (note found path).reverse ++ (later.removeAll (note found path)).eraseDups =
      found.reverse ++ ((path.toList ++ later).removeAll found).eraseDups := by
  cases path with
  | none => rfl
  | some p =>
    by_cases hfound : p ∈ found
    · rw [note_of_mem hfound]
      simp [List.removeAll, hfound]
    · have hkept : (p :: later).removeAll found = p :: later.removeAll found := by
        simp [List.removeAll, hfound]
      have hlater : later.removeAll (p :: found) = (later.removeAll found).filter fun q => !q == p := by
        rw [List.removeAll, List.removeAll, filter_filter]
        exact filter_congr fun q _ => Bool.eq_iff_iff.mpr (by simp)
      rw [note_of_not_mem hfound, Option.toList_some, singleton_append, hkept, eraseDups_cons, hlater]
      simp

/-- The path under which a value is visited: none for the document itself. -/
def trailName (keys : List String) : Option String := if keys = [] then none else some (dotted keys)

theorem trailName_snoc (keys : List String) (key : String) :
    trailName (keys ++ [key]) = some (dotted (keys ++ [key])) :=
  if_neg (by simp)

theorem keyPath_trailName (keys : List String) (key : String) :
    keyPath (trailName keys) key = dotted (keys ++ [key]) := by
  by_cases hkeys : keys = []
  · subst hkeys
    simp [trailName, keyPath, dotted]
  · rw [trailName, if_neg hkeys, keyPath, dotted_snoc hkeys]

abbrev Site := List String × Datum

def Site.visit (site : Site) : Visit := (trailName site.1, site.2)

def Site.paths (site : Site) : List String :=
  (trailName site.1).toList ++ (trails site.1 site.2).map dotted

def sitesBelow (keys : List String) : Datum → List Site
  | .object members => members.map fun m => (keys ++ [m.1], m.2)
  | .array items => items.map fun v => (keys, v)
  | _ => []

theorem below_trailName (keys : List String) (v : Datum) :
    below (trailName keys) v = (sitesBelow keys v).map Site.visit := by
  cases v with
  | object members =>
    rw [below, sitesBelow, map_map]
    refine map_congr_left fun m _ => ?_
    simp [Site.visit, keyPath_trailName, trailName_snoc]
  | array items => simp [below, sitesBelow, Site.visit]
  | _ => rfl

theorem paths_memberSites (keys : List String) (members : Members) :
    (sitesBelow keys (.object members)).flatMap Site.paths =
    (memberTrails keys members).map dotted := by
  induction members with
  | nil => rfl
  | cons m rest ih =>
    obtain ⟨key, v⟩ := m
    simp only [sitesBelow, map_cons, flatMap_cons] at ih ⊢
    rw [ih, memberTrails, Site.paths, trailName_snoc]
    simp

/-- So are the items of an array, but each of them also under the array's own path. -/
theorem paths_itemSites {keys : List String} (hfound : ∀ p ∈ trailName keys, p ∈ found)
    (items : List Datum) : ((sitesBelow keys (.array items)).flatMap Site.paths).removeAll found =
      ((itemTrails keys items).map dotted).removeAll found := by
  have hown : (trailName keys).toList.removeAll found = [] := by
    simpa [List.removeAll] using hfound
  induction items with
  | nil => rfl
  | cons v rest ih =>
    simp only [sitesBelow, map_cons, flatMap_cons, Site.paths, itemTrails, map_append,
      List.removeAll, filter_append] at ih hown ⊢
    rw [hown, ih, nil_append]

theorem paths_sitesBelow {keys : List String} (hfound : ∀ p ∈ trailName keys, p ∈ found)
    (v : Datum) :
    ((sitesBelow keys v).flatMap Site.paths).removeAll found =
    ((trails keys v).map dotted).removeAll found := by
  cases v with
  | object members => rw [paths_memberSites, trails]
  | array items => rw [paths_itemSites hfound, trails]
  | _ => rfl

/-- The walk finds, behind what was found before it, the paths of its sites where they
occur first. -/
theorem keyPathsFrom_sites (found : List String) (sites : List Site) :
    keyPathsFrom found (sites.map Site.visit) =
      found.reverse ++ ((sites.flatMap Site.paths).removeAll found).eraseDups := by
  generalize hvisits : sites.map Site.visit = visits
  fun_induction keyPathsFrom found visits generalizing sites with
  | case1 found =>
    obtain rfl := map_eq_nil_iff.mp hvisits
    simp [List.removeAll]
  | case2 found path v rest ih =>
    obtain ⟨⟨keys, w⟩, more, rfl, hvisit, rfl⟩ := map_eq_cons_iff.mp hvisits
    obtain ⟨rfl, rfl⟩ : trailName keys = path ∧ w = v := Prod.mk.inj hvisit
    have hwalk := ih (sitesBelow keys w ++ more) (by rw [map_append, below_trailName])
    have hsites : ((sitesBelow keys w ++ more).flatMap Site.paths).removeAll (note found (trailName keys)) =
        ((trails keys w).map dotted ++ more.flatMap Site.paths).removeAll (note found (trailName keys)) := by
      have hnoted : ∀ p ∈ trailName keys, p ∈ note found (trailName keys) := by
        intro p hp
        rw [show trailName keys = some p from hp]
        exact mem_note found p
      have hbelow := paths_sitesBelow hnoted w
      rw [flatMap_append]
      simp only [List.removeAll, filter_append] at hbelow ⊢
      rw [hbelow]
    rw [hwalk, hsites, note_then, flatMap_cons, Site.paths, append_assoc]

/-- The key paths of a value are the dotted names of its trails, in pre-order, each where it occurs
first and none twice. -/
theorem keyPaths_eq_trails (v : Datum) :
    keyPaths v = ((trails [] v).map dotted).eraseDups ∧ (keyPaths v).Nodup := by
  have hwalk := keyPathsFrom_sites [] [([], v)]
  refine ⟨?_, nodup_keyPathsFrom nodup_nil _⟩
  simpa [keyPaths, Site.visit, Site.paths, trailName, List.removeAll] using hwalk

example :
    keyPaths (.object [("a", .array [.object [("b", .null)], .object [("b", .null), ("c", .null)]]),
    ("a.c", .array [.array [.object [("d", .null)]]])]) = ["a", "a.b", "a.c", "a.c.d"] := by
  decide +kernel

end CookbookAtlas.Recipe
