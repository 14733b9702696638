import CookbookAtlas.Proofs.Files.Places

/-! What normalization does to a path. Every `..` takes back the name before it, and one that has no
name before it takes back nothing, or the root. So a path that climbs above the place it starts from
is turned into another one; all others lead where they led before. -/
namespace CookbookAtlas

open List

namespace Path

/-- How far components lead above the place that they start from. -/
def climb : List Component → Nat
  | [] => 0
  | .parent :: cs => climb cs + 1
  | .name _ :: cs => climb cs - 1
  | _ :: cs => climb cs

def kept : List Component → List String
  | [] => []
  | .name n :: cs => if climb cs = 0 then n :: kept cs else kept cs
  | _ :: cs => kept cs

def nameCount (cs : List Component) : Nat := cs.countP fun c => c.name?.isSome

def StaysInside (p : Path) : Prop := ∀ pre, pre <+: p.components → pre.count .parent ≤ nameCount pre

theorem climb_le_iff {cs : List Component} {k : Nat} :
    climb cs ≤ k ↔ ∀ pre, pre <+: cs → pre.count .parent ≤ nameCount pre + k := by
  induction cs generalizing k with
  | nil => simp [climb, prefix_nil]
  | cons c cs ih =>
    have hcons : (∀ pre, pre <+: c :: cs → pre.count .parent ≤ nameCount pre + k) ↔
        ∀ pre, pre <+: cs → (c :: pre).count .parent ≤ nameCount (c :: pre) + k := by
      constructor
      · exact fun h pre hpre => h (c :: pre) (cons_prefix_cons.2 ⟨rfl, hpre⟩)
      · intro h pre hpre
        rcases prefix_cons_iff.1 hpre with rfl | ⟨pre, rfl, hshort⟩
        · simp
        · exact h pre hshort
    rw [hcons]
    cases c with
    | name n =>
      have hstep : climb (.name n :: cs) ≤ k ↔ climb cs ≤ k + 1 := by
        rw [climb]
        omega
      rw [hstep, ih]
      refine forall₂_congr fun pre _ => ?_
      have hcount : (Component.name n :: pre).count .parent = pre.count .parent := by simp
      have hnames : nameCount (.name n :: pre) = nameCount pre + 1 := by simp [nameCount, Component.name?]
      omega
    | parent =>
      cases k with
      | zero =>
        have hnever : ¬ climb (.parent :: cs) ≤ 0 := Nat.not_succ_le_zero _
        refine iff_of_false hnever fun h => ?_
        simpa [nameCount, Component.name?] using h [] nil_prefix
      | succ k =>
        have hstep : climb (.parent :: cs) ≤ k + 1 ↔ climb cs ≤ k := Nat.succ_le_succ_iff
        rw [hstep, ih]
        refine forall₂_congr fun pre _ => ?_
        have hcount : (Component.parent :: pre).count .parent = pre.count .parent + 1 := count_cons_self
        have hnames : nameCount (.parent :: pre) = nameCount pre := by simp [nameCount, Component.name?]
        omega
    | _ => simpa [climb, nameCount, Component.name?] using ih (k := k)

theorem staysInside_iff {p : Path} : p.StaysInside ↔ climb p.components = 0 := by
  rw [← Nat.le_zero, climb_le_iff]
  rfl

instance (p : Path) : Decidable p.StaysInside := decidable_of_iff _ staysInside_iff.symm

theorem root_not_mem_body (cs : List Char) : .root ∉ body cs := not_mem_body (.inl rfl)

theorem climb_components (p : Path) : climb p.components = climb (body p.chars) := by
  rw [components_eq]
  rcases lead_cases p.chars with h | h | h <;> rw [h] <;> rfl

theorem kept_components (p : Path) : kept p.components = kept (body p.chars) := by
  rw [components_eq]
  rcases lead_cases p.chars with h | h | h <;> rw [h] <;> rfl

section Walk

variable {α : Type} {name : String → α} {step : List α → Component → List α}

/-- A walk along components, in which every `..` takes back the last step: what is left of the start
is followed by the names that are kept. -/
theorem foldl_walk (hcurrent : ∀ l, step l .current = l)
    (hparent : ∀ l, step l .parent = l.dropLast)
    (hname : ∀ l n, step l (.name n) = l ++ [name n]) {cs : List Component} (hroot : .root ∉ cs)
    (l : List α) : cs.foldl step l = l.rdrop (climb cs) ++ (kept cs).map name := by
  induction cs generalizing l with
  | nil => simp [climb, kept]
  | cons c cs ih =>
    have hrest := ih fun h => hroot (mem_cons_of_mem _ h)
    rw [foldl_cons]
    cases c with
    | root => exact absurd mem_cons_self hroot
    | current => rw [hcurrent, hrest]; rfl
    | parent =>
      have hdrop : l.dropLast.rdrop (climb cs) = l.rdrop (climb cs + 1) := by
        rw [List.rdrop, List.rdrop, dropLast_eq_take, take_take, length_take]
        congr 1
        omega
      rw [hparent, hrest, hdrop]
      rfl
    | name n =>
      rw [hname, hrest, climb, kept]
      cases climb cs with
      | zero | succ k => simp

theorem foldl_components (hcurrent : ∀ l, step l .current = l)
    (hparent : ∀ l, step l .parent = l.dropLast)
    (hname : ∀ l n, step l (.name n) = l ++ [name n]) (p : Path) (l : List α) :
    p.components.foldl step l =
      (if p.isAbsolute then step l .root
      else l).rdrop (climb p.components) ++ (kept p.components).map name := by
  have hlead : (lead p.chars).foldl step l = if p.isAbsolute then step l .root else l := by
    by_cases habs : p.isAbsolute = true
    · rw [lead_of_isAbsolute habs, if_pos habs]
      rfl
    · rw [if_neg habs]
      rcases lead_of_not_isAbsolute (Bool.eq_false_iff.2 habs) with h | h <;> rw [h]
      · rfl
      · exact hcurrent l
  rw [climb_components, kept_components, components_eq, foldl_append, hlead,
    foldl_walk hcurrent hparent hname (root_not_mem_body _)]

end Walk

theorem climb_names (ns : List String) : climb (ns.map Component.name) = 0 := by
  induction ns with
  | nil => rfl
  | cons n ns ih => simp [climb, ih]

theorem kept_names (ns : List String) : kept (ns.map Component.name) = ns := by
  induction ns with
  | nil => rfl
  | cons n ns ih => simp [kept, climb_names, ih]

theorem mem_of_mem_kept {cs : List Component} {n : String} (h : n ∈ kept cs) : .name n ∈ cs := by
  induction cs with
  | nil => simp [kept] at h
  | cons c cs ih =>
    cases c with
    | name m =>
      rw [kept] at h
      split at h
      · rcases mem_cons.1 h with rfl | h
        · exact mem_cons_self
        · exact mem_cons_of_mem _ (ih h)
      · exact mem_cons_of_mem _ (ih h)
    | _ => exact mem_cons_of_mem _ (ih h)

def settle (done : List Component) : Component → List Component
  | .current => done
  | .parent => done.dropLast
  | c => done ++ [c]

theorem normalizeParts_eq_foldl (cs : List Component) : normalizeParts cs = cs.foldl settle [] :=
  rfl

theorem foldl_settle {cs : List Component} (hroot : .root ∉ cs) (done : List Component) :
    cs.foldl settle done = done.rdrop (climb cs) ++ (kept cs).map Component.name :=
  foldl_walk (fun _ => rfl) (fun _ => rfl) (fun _ _ => rfl) hroot done

def rootOf (p : Path) : List Component := if p.isAbsolute then [.root] else []

/-- Normalization leaves the names that are kept, behind the root if the path does not climb. -/
theorem normalizeParts_components (p : Path) : normalizeParts p.components =
    p.rootOf.rdrop (climb p.components) ++ (kept p.components).map Component.name :=
  foldl_components (fun _ => rfl) (fun _ => rfl) (fun _ _ => rfl) p []

theorem components_normalize_eq (p : Path) :
    p.normalize.components = normalizeParts p.components := by
  have hnames : ∀ n ∈ kept p.components, IsName n :=
    fun n hn => isName_of_mem_components (mem_of_mem_kept hn)
  have hroot : (ofComponents (p.rootOf.rdrop (climb p.components))).components =
      p.rootOf.rdrop (climb p.components) := by
    unfold rootOf
    split
    · cases climb p.components with
      | zero => rw [rdrop_zero]; decide
      | succ k => rw [show [Component.root].rdrop (k + 1) = [] by simp [List.rdrop]]; decide
    · rw [rdrop_nil]
      decide
  rw [normalize, normalizeParts_components]
  exact components_ofComponents_append hroot hnames

theorem normalize_eq_iff {p q : Path} :
    p.normalize = q.normalize ↔ normalizeParts p.components = normalizeParts q.components := by
  constructor
  · intro h
    rw [← components_normalize_eq, ← components_normalize_eq, h]
  · intro h
    rw [normalize, normalize, h]

theorem names_normalize (p : Path) : p.normalize.names = kept p.components := by
  have hroot : (p.rootOf.rdrop (climb p.components)).filterMap Component.name? = [] := by
    refine filterMap_eq_nil_iff.2 fun c hc => ?_
    have hmem : c ∈ p.rootOf := mem_of_mem_take hc
    unfold rootOf at hmem
    split at hmem <;> simp at hmem
    rw [hmem]
    rfl
  have hnames : (kept p.components).filterMap (Component.name? ∘ Component.name) =
      kept p.components :=
    (filterMap_congr fun n _ => rfl).trans filterMap_some
  rw [names, components_normalize_eq, normalizeParts_components, filterMap_append, hroot,
    nil_append, filterMap_map, hnames]

/-- Normalization keeps a path absolute exactly if the path does not climb above the root. -/
theorem isAbsolute_normalize_iff (p : Path) :
    p.normalize.isAbsolute = true ↔ p.isAbsolute = true ∧ climb p.components = 0 := by
  have hnames : .root ∉ (kept p.components).map Component.name := by simp
  rw [isAbsolute_iff, components_normalize_eq, normalizeParts_components, mem_append,
    or_iff_left hnames, rootOf]
  by_cases habs : p.isAbsolute = true
  · rw [if_pos habs]
    cases climb p.components with
    | zero => simp [habs]
    | succ k => simp [List.rdrop]
  · simp [habs]

section Below

variable {b p : Path} (habs : b.isAbsolute = true) (hup : .parent ∉ b.components)
include habs hup

/-- Below an absolute path without `..`, every `..` that a path climbs by takes back a component. -/
theorem normalizeParts_join (hp : p.isAbsolute = false) : normalizeParts (b.join p).components =
    b.components.rdrop (climb p.components) ++ (kept p.components).map Component.name := by
  have hchars : b.chars ≠ [] := by
    intro hnil
    simp [isAbsolute, hnil] at habs
  have hself : normalizeParts b.components = b.components := by
    rw [components_of_isAbsolute habs hup, normalizeParts_names]
  rw [components_join hchars hp, normalizeParts_eq_foldl, foldl_append, ← normalizeParts_eq_foldl,
    hself, foldl_settle (root_not_mem_body _), climb_components, kept_components]

/-- A relative path can be normalized before it is put below an absolute one exactly if it does not
climb. -/
theorem normalize_join_normalize_iff (hp : p.isAbsolute = false) :
    (b.join p.normalize).normalize = (b.join p).normalize ↔ climb p.components = 0 := by
  have hrelative : p.normalize.isAbsolute = false := by
    rw [Bool.eq_false_iff, ne_eq, isAbsolute_normalize_iff]
    simp [hp]
  have hparts : p.normalize.components = (kept p.components).map Component.name := by
    rw [components_normalize_eq, normalizeParts_components, rootOf, hp]
    simp
  have hlength : 0 < b.components.length :=
    length_pos_of_mem (isAbsolute_iff.1 habs)
  rw [normalize_eq_iff, normalizeParts_join habs hup hrelative, normalizeParts_join habs hup hp,
    hparts, climb_names, kept_names, rdrop_zero, append_left_inj]
  constructor
  · intro h
    have hsame := congrArg List.length h
    rw [List.rdrop, length_take] at hsame
    omega
  · intro h
    rw [h, rdrop_zero]

end Below

end Path

namespace World

open Files (Place Tree)
open CookbookAtlas.Path (Component)

theorem foldl_of_follow {t : Tree} {place q : Place} {cs : List Component}
    (h : follow t place cs = .ok q) : q = cs.foldl stepTo place := by
  induction cs generalizing place with
  | nil => exact (Except.ok.inj h).symm
  | cons c cs ih => exact ih (follow_cons_iff.1 h).2

/-- A path leads to the names of its normal form, below the place that is as far above its start as
the path climbs. -/
theorem place_eq_normalize {w : World} {p : Path} {q : Place} (h : w.place p = .ok q) :
    q = (w.base p).rdrop (Path.climb p.components) ++ p.normalize.names := by
  have hwalk : p.components.foldl stepTo w.here =
      (w.base p).rdrop (Path.climb p.components) ++ (Path.kept p.components).map id :=
    Path.foldl_components (fun _ => rfl) (fun _ => rfl) (fun _ _ => rfl) p w.here
  rw [foldl_of_follow (follow_of_place h), hwalk, map_id, Path.names_normalize]

end World

namespace Path

open Files (Place)

/-- Normalization does not move a path that stays inside: below an absolute path without `..`, a
relative path may be normalized before or after it is put there exactly if it stays inside, and an
absolute path remains absolute exactly if it stays inside. Two paths that lead somewhere and have
the same normal form lead to the same place if both stay inside, and if both are absolute. -/
theorem normalize_keeps_staysInside (p : Path) :
    (∀ b : Path, b.isAbsolute = true → .parent ∉ b.components → p.isAbsolute = false →
      ((b.join p.normalize).normalize = (b.join p).normalize ↔ p.StaysInside)) ∧
    (p.isAbsolute = true → (p.normalize.isAbsolute = true ↔ p.StaysInside)) ∧
    ∀ (w : World) (p' : Path) (q q' : Place), w.place p = .ok q → w.place p' = .ok q' →
      p.normalize.same p'.normalize = true →
      (p.StaysInside ∧ p'.StaysInside) ∨ (p.isAbsolute = true ∧ p'.isAbsolute = true) → q = q' := by
  refine ⟨fun b habs hup hp => ?_, fun habs => ?_, fun w p' q q' hq hq' hsame hinside => ?_⟩
  · rw [staysInside_iff]
    exact normalize_join_normalize_iff habs hup hp
  · rw [staysInside_iff, isAbsolute_normalize_iff, and_iff_right habs]
  · have hparts : p.normalize.components = p'.normalize.components := by simpa [same] using hsame
    have hnames : p.normalize.names = p'.normalize.names := by rw [names, names, hparts]
    have hroot : p.normalize.isAbsolute = true ↔ p'.normalize.isAbsolute = true := by
      rw [isAbsolute_iff, isAbsolute_iff, hparts]
    rw [World.place_eq_normalize hq, World.place_eq_normalize hq', hnames]
    congr 1
    rcases hinside with ⟨hp, hp'⟩ | ⟨hp, hp'⟩
    · rw [staysInside_iff] at hp hp'
      rw [isAbsolute_normalize_iff, isAbsolute_normalize_iff, and_iff_left hp, and_iff_left hp'] at hroot
      rw [hp, hp', World.base, World.base, Bool.eq_iff_iff.2 hroot]
    · simp [World.base, hp, hp']

theorem detour_keeps_place :
    let w : World := ⟨⟨[(["srv"], .directory), (["srv", "web"], .directory)]⟩, ["srv"], [], [], []⟩
    (⟨"web/../db"⟩ : Path).StaysInside ∧
    ((⟨"/srv"⟩ : Path).join (⟨"web/../db"⟩ : Path).normalize).normalize =
      ((⟨"/srv"⟩ : Path).join ⟨"web/../db"⟩).normalize ∧
    (⟨"/srv/web/../../srv"⟩ : Path).normalize.isAbsolute = true ∧
    w.place ⟨"web/../db"⟩ = .ok ["srv", "db"] ∧ w.place ⟨"./db"⟩ = .ok ["srv", "db"] := by
  intro w
  have hinside : (⟨"web/../db"⟩ : Path).StaysInside := by decide +kernel
  obtain ⟨hjoin, -, hsame⟩ := normalize_keeps_staysInside ⟨"web/../db"⟩
  obtain ⟨-, hroot, -⟩ := normalize_keeps_staysInside ⟨"/srv/web/../../srv"⟩
  have hplace : w.place ⟨"web/../db"⟩ = .ok ["srv", "db"] := by decide +kernel
  refine ⟨hinside, (hjoin ⟨"/srv"⟩ (by decide) (by decide +kernel) (by decide)).2 hinside,
    (hroot (by decide)).2 (by decide +kernel), hplace, ?_⟩
  have hleads : ∃ q, w.place ⟨"./db"⟩ = .ok q := ⟨["srv", "db"], by decide +kernel⟩
  obtain ⟨q, hq⟩ := hleads
  rw [hq, hsame w _ _ _ hplace hq (by decide +kernel) (.inl ⟨hinside, by decide +kernel⟩)]

/-- A path that climbs is turned into another one: below `/a`, the normal form of `../x` does not
lead to `/x`. One that climbs above the root is relative afterwards. From `/a`, the paths `../x` and
`x` lead to different places and have one normal form. -/
theorem climbing_moved :
    let w : World := ⟨⟨[(["a"], .directory)]⟩, ["a"], [], [], []⟩
    (⟨"../x"⟩ : Path).isAbsolute = false ∧ (⟨"/a"⟩ : Path).components = [.root, .name "a"] ∧
    ((⟨"/a"⟩ : Path).join (⟨"../x"⟩ : Path).normalize).normalize = ⟨"/a/x"⟩ ∧
    ((⟨"/a"⟩ : Path).join ⟨"../x"⟩).normalize = ⟨"/x"⟩ ∧
    (⟨"/../x"⟩ : Path).isAbsolute = true ∧ (⟨"/../x"⟩ : Path).normalize = ⟨"x"⟩ ∧
    (⟨"../x"⟩ : Path).normalize = (⟨"x"⟩ : Path).normalize ∧
    w.place ⟨"../x"⟩ = .ok ["x"] ∧ w.place ⟨"x"⟩ = .ok ["a", "x"] := by
  decide +kernel

end Path
end CookbookAtlas
