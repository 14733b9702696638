import CookbookAtlas.Proofs.Files.Proper

/-! Where paths lead. A path without `..` leads to its names below the root or below the directory
that the program runs in; to follow it, everything before its last name has to be a directory, and
to make it, nothing on it may be a file. -/
namespace CookbookAtlas

open List
variable {rest : List Path.Component} {ns : List String} {p : Path} {place q : Files.Place} {n : String}

namespace Path

theorem isAbsolute_child (p : Path) (h : IsName n) : (p.child n).isAbsolute = p.isAbsolute := by
  have hhead : (p.child n).chars.head? = some '/' ↔ p.chars.head? = some '/' := by
    rcases join_cases p (not_isAbsolute_name h) with ⟨hnil, hjoin⟩ | ⟨xs, hxs, hjoin⟩
    · have hn : n.toList.head? ≠ some '/' := fun he => h.2.2.2 (mem_of_head? he)
      rw [child, hjoin, hnil]
      simpa [chars] using hn
    · rw [child, hjoin]
      rcases hxs with ⟨hne, hxs⟩ | hxs
      · obtain ⟨c, cs, rfl⟩ := exists_cons_of_ne_nil hne
        simp [hxs]
      · cases xs <;> simp [hxs]
  apply Bool.eq_iff_iff.2
  simpa [isAbsolute] using hhead

theorem text_child_ne (p : Path) (h : IsName n) : (p.child n).text.isEmpty = false := by
  rw [Bool.eq_false_iff]
  intro hempty
  have htext : (p.child n).text = "" := by simpa using hempty
  obtain ⟨before, hfields⟩ := fields_child p h
  have hnone : fields (p.child n).chars = [[]] := by simp [chars, htext, fields, Text.splitOnChar]
  have hlast : some [] = some n.toList := by
    simpa only [hnone, List.getLast?_singleton,
      List.getLast?_concat] using congrArg List.getLast? hfields
  exact h.1 (String.toList_injective (Option.some.inj hlast).symm)

end Path

namespace World

open Files (Tree Place Entry)
open CookbookAtlas.Path (IsName Component)

def base (w : World) (p : Path) : Place := if p.isAbsolute then [] else w.here

/-- The place that a path without `..` leads to, whether or not it can be followed. -/
def spot (w : World) (p : Path) : Place := w.base p ++ p.names

theorem spot_child (w : World) (p : Path) (h : IsName n) :
    w.spot (p.child n) = w.spot p ++ [n] := by
  simp [spot, base, Path.isAbsolute_child p h, Path.names_child p h]

theorem spot_congr (w : World) {q : Path} (h : p.components = q.components) :
    w.spot p = w.spot q := by
  have habs : p.isAbsolute = q.isAbsolute :=
    Bool.eq_iff_iff.2 (by rw [Path.isAbsolute_iff, Path.isAbsolute_iff, h])
  rw [spot, spot, base, base, habs, Path.names, Path.names, h]

theorem not_namesDirectory_child (p : Path) (h : IsName n) :
    namesDirectory (p.child n) = false := by
  obtain ⟨before, hfields⟩ := Path.fields_child p h
  have hempty : n.toList ≠ [] := fun he => h.1 (String.toList_injective he)
  have hdot : n.toList ≠ ['.'] := fun he => h.2.1 (String.toList_injective he)
  unfold namesDirectory
  rw [hfields, List.getLast?_concat]
  split
  · rename_i he
    exact absurd (Option.some.inj he) hempty
  · rename_i he
    exact absurd (Option.some.inj he) hdot
  · rfl

theorem lastField?_child (p : Path) (h : IsName n) : lastField? (p.child n) = some n.toList := by
  obtain ⟨before, hfields⟩ := Path.fields_child p h
  have hempty : n.toList ≠ [] := fun he => h.1 (String.toList_injective he)
  simp [lastField?, hfields, hempty]

section Follow

variable {t : Tree}

/-- Where one component leads from a place, if it can be followed. -/
def stepTo (place : Place) : Component → Place
  | .root => []
  | .current => place
  | .parent => place.dropLast
  | .name n => place ++ [n]

/-- A component other than the root is followed from a directory only. -/
theorem follow_cons_iff {c : Component} :
    follow t place (c :: rest) = .ok q ↔
      (c = .root ∨ t.get? place = some .directory) ∧ follow t (stepTo place c) rest = .ok q := by
  cases c with
  | root => simp [follow, stepTo]
  | _ =>
    cases hget : t.get? place with
    | none => simp [follow, hget]
    | some e => cases e <;> simp [follow, hget, stepTo]

theorem follow_name (place : Place) (n : String) (rest : List Component)
    (h : t.get? place = some .directory) :
    follow t place (.name n :: rest) = follow t (place ++ [n]) rest := by
  simp [follow, h]

theorem directory_of_follow_name (h : follow t place (.name n :: rest) = .ok q) :
    t.get? place = some .directory :=
  (follow_cons_iff.1 h).1.resolve_left (by simp)

theorem follow_append_iff {r : Place} {cs : List Component} (h : follow t place cs = .ok q) :
    follow t place (cs ++ rest) = .ok r ↔ follow t q rest = .ok r := by
  induction cs generalizing place with
  | nil =>
    obtain rfl : place = q := by simpa [follow] using h
    rfl
  | cons c cs ih =>
    obtain ⟨hplace, hcs⟩ := follow_cons_iff.1 h
    rw [cons_append, follow_cons_iff, ih hcs, and_iff_right hplace]

/-- Names are followed exactly where everything before the last one is a directory. -/
theorem follow_names_iff :
    follow t place (ns.map Component.name) = .ok q ↔
      q = place ++ ns ∧ ∀ pre, pre <+: ns → pre ≠ ns → t.get? (place ++ pre) = some .directory := by
  induction ns generalizing place with
  | nil => simp [follow, eq_comm]
  | cons n ns ih =>
    rw [map_cons]
    constructor
    · intro h
      have hplace := directory_of_follow_name h
      rw [follow_name _ _ _ hplace] at h
      obtain ⟨rfl, habove⟩ := ih.1 h
      refine ⟨by simp, fun pre hpre hne => ?_⟩
      rcases prefix_cons_iff.1 hpre with rfl | ⟨pre, rfl, hshort⟩
      · simpa using hplace
      · simpa using habove pre hshort fun he => hne (by rw [he])
    · rintro ⟨rfl, habove⟩
      have hplace : t.get? place = some .directory := by simpa using habove [] nil_prefix (by simp)
      rw [follow_name _ _ _ hplace]
      refine ih.2 ⟨by simp, fun pre hpre hne => ?_⟩
      simpa using habove (n :: pre) (cons_prefix_cons.2 ⟨rfl, hpre⟩) fun he => hne (List.cons.inj he).2

theorem follow_mono {t' : Tree}
    (h : ∀ place, t'.get? place = some .directory → t.get? place = some .directory)
    {cs : List Component} (hq : follow t' place cs = .ok q) : follow t place cs = .ok q := by
  induction cs generalizing place with
  | nil => exact hq
  | cons c cs ih =>
    obtain ⟨hplace, hcs⟩ := follow_cons_iff.1 hq
    exact follow_cons_iff.2 ⟨hplace.imp_right (h place), ih hcs⟩

theorem follow_components (hup : .parent ∉ p.components) (hnames : p.names ≠ []) (here : Place) :
    follow t here p.components = follow t (if p.isAbsolute then []
    else here) (p.names.map Component.name) := by
  obtain ⟨n, ns, hn⟩ := exists_cons_of_ne_nil hnames
  rw [Path.components_eq_names hup]
  by_cases habs : p.isAbsolute = true
  · rw [Path.lead_of_isAbsolute habs, if_pos habs]
    rfl
  · rw [if_neg habs]
    rcases Path.lead_of_not_isAbsolute (Bool.eq_false_iff.2 habs) with hlead | hlead
    · simp [hlead]
    · -- both the leading `.` and the first name ask for the directory to start from
      rw [hlead, hn]
      cases hget : t.get? here with
      | none => simp [follow, hget]
      | some e => cases e <;> simp [follow, hget]

end Follow

theorem follow_of_place {w : World} (h : w.place p = .ok place) :
    follow w.files w.here p.components = .ok place := by
  unfold World.place at h
  split at h
  · cases h
  · exact h

theorem place_iff {w : World} (htext : p.text.isEmpty = false) (hup : .parent ∉ p.components)
    (hnames : p.names ≠ []) : w.place p = .ok q ↔
      q = w.spot p ∧ ∀ pre, pre <+: p.names → pre ≠ p.names →
      w.files.get? (w.base p ++ pre) = some .directory := by
  rw [place, htext, if_neg (by simp), follow_components hup hnames]
  exact follow_names_iff

theorem removeDirectory_gone (w : World) (p : Path) :
    Act.Ends (removeDirectory p) w fun r w' => r = .ok () → w'.has p = false := by
  refine (removeDirectory_done w p).weaken fun r w' hdone hr => ?_
  rcases hdone hr with ⟨rfl, fault, hfault⟩ | ⟨place, hne, ⟨hplace, -⟩, rfl⟩
  · simp [has, hfault, Except.toOption]
  · have hget := w.files.get?_remove hne
    have hfewer : ∀ other, (w.files.remove place).get? other = some .directory →
        w.files.get? other = some .directory := by
      intro other hother
      rw [hget] at hother
      split at hother
      · cases hother
      · exact hother
    unfold has entry
    cases hq : World.place { w with files := w.files.remove place } p with
    | error fault => rfl
    | ok q =>
      have hsame : w.place p = .ok q := by
        unfold World.place at hq ⊢
        by_cases htext : p.text.isEmpty = true
        · rw [if_pos htext] at hq
          cases hq
        · rw [if_neg htext] at hq ⊢
          exact follow_mono hfewer hq
      obtain rfl : place = q := by simpa [hplace] using hsame
      simp [hget, Except.toOption]

section Make

variable (t : Tree)

theorem makeOnWay_components (hup : .parent ∉ p.components) (here : Place) :
    makeOnWay t here p.components = makeOnWay t (if p.isAbsolute then []
    else here) (p.names.map Component.name) := by
  rw [Path.components_eq_names hup]
  by_cases habs : p.isAbsolute = true
  · rw [Path.lead_of_isAbsolute habs, if_pos habs]
    rfl
  · rw [if_neg habs]
    rcases Path.lead_of_not_isAbsolute (Bool.eq_false_iff.2 habs) with hlead | hlead <;> rw [hlead]
      <;> rfl

/-- Making a way changes nothing but places on the way where nothing was. -/
theorem makeOnWay_other (place : Place) (ns : List String) {other : Place}
    (h : ∀ pre, pre <+: ns → pre ≠ [] → other = place ++ pre → t.get? other ≠ none) :
    (makeOnWay t place (ns.map Component.name)).1.get? other = t.get? other := by
  induction ns generalizing t place with
  | nil => rfl
  | cons n ns ih =>
    have hrest : ∀ pre, pre <+: ns → pre ≠ [] → other = place ++ [n] ++ pre → t.get? other ≠ none := by
      intro pre hpre _ he
      exact h (n :: pre) (cons_prefix_cons.2 ⟨rfl, hpre⟩) (by simp) (by simpa using he)
    rw [map_cons, makeOnWay]
    cases hget : t.get? (place ++ [n]) with
    | some e =>
      cases e with
      | directory => exact ih t (place ++ [n]) hrest
      | file bytes executable => rfl
    | none =>
      have hne : other ≠ place ++ [n] := by
        intro he
        exact h [n] (cons_prefix_cons.2 ⟨rfl, nil_prefix⟩) (by simp) he (he ▸ hget)
      have hput : (t.put (place ++ [n]) .directory).get? other = t.get? other := by
        rw [Tree.get?_put t other .directory (by simp), if_neg (Ne.symm hne)]
      have hnext := ih (t.put (place ++ [n]) .directory) (place ++ [n]) (by rw [hput]; exact hrest)
      exact hnext.trans hput

/-- A way on which nothing is a file is made, and consists of directories. -/
theorem makeOnWay_made (place : Place) (ns : List String)
    (h : ∀ pre, pre <+: ns → pre ≠ [] →
    ∀ bytes executable, t.get? (place ++ pre) ≠ some (.file bytes executable)) :
    (makeOnWay t place (ns.map Component.name)).2 = none ∧
    ∀ pre, pre <+: ns → pre ≠ [] →
      (makeOnWay t place (ns.map Component.name)).1.get? (place ++ pre) = some .directory := by
  induction ns generalizing t place with
  | nil => exact ⟨rfl, fun pre hpre hne => absurd (prefix_nil.1 hpre) hne⟩
  | cons n ns ih =>
    have hstep : ∃ t', makeOnWay t place ((n :: ns).map Component.name) =
        makeOnWay t' (place ++ [n]) (ns.map Component.name) ∧ t'.get? (place ++ [n]) = some .directory ∧
        ∀ other, other ≠ place ++ [n] → t'.get? other = t.get? other := by
      cases hget : t.get? (place ++ [n]) with
      | none =>
        refine ⟨t.put (place ++ [n]) .directory, by simp [makeOnWay, hget], ?_, fun other hother => ?_⟩
        · rw [Tree.get?_put _ _ _ (by simp), if_pos rfl]
        · rw [Tree.get?_put _ _ _ (by simp), if_neg (Ne.symm hother)]
      | some e =>
        cases e with
        | directory => exact ⟨t, by simp [makeOnWay, hget], hget, fun _ _ => rfl⟩
        | file bytes executable =>
          exact absurd hget (h [n] (cons_prefix_cons.2 ⟨rfl, nil_prefix⟩) (by simp) bytes executable)
    obtain ⟨t', hmake, hdir, hsame⟩ := hstep
    have hrest : ∀ pre, pre <+: ns → pre ≠ [] → ∀ bytes executable,
        t'.get? (place ++ [n] ++ pre) ≠ some (.file bytes executable) := by
      intro pre hpre hne bytes executable
      rw [hsame _ (by simpa using hne)]
      simpa using h (n :: pre) (cons_prefix_cons.2 ⟨rfl, hpre⟩) (by simp) bytes executable
    obtain ⟨hfault, hmade⟩ := ih t' (place ++ [n]) hrest
    rw [hmake]
    refine ⟨hfault, fun pre hpre hne => ?_⟩
    rcases prefix_cons_iff.1 hpre with rfl | ⟨pre, rfl, hshort⟩
    · exact absurd rfl hne
    · by_cases hempty : pre = []
      · rw [hempty]
        rw [makeOnWay_other t' (place ++ [n]) ns (fun _ _ _ _ => by simp [hdir])]
        exact hdir
      · simpa using hmade pre hshort hempty

theorem no_file_of_made (h : (makeOnWay t place (ns.map Component.name)).2 = none) :
    ∀ pre, pre <+: ns → pre ≠ [] →
    ∀ bytes executable, t.get? (place ++ pre) ≠ some (.file bytes executable) := by
  induction ns generalizing t place with
  | nil => exact fun pre hpre hne => absurd (prefix_nil.1 hpre) hne
  | cons n ns ih =>
    intro pre hpre hne bytes executable hfile
    rcases prefix_cons_iff.1 hpre with rfl | ⟨pre, rfl, hshort⟩
    · exact hne rfl
    rw [map_cons, makeOnWay] at h
    cases hget : t.get? (place ++ [n]) with
    | some e =>
      cases e with
      | file bytes executable => simp [hget] at h
      | directory =>
        rw [hget] at h
        by_cases hempty : pre = []
        · simp [hempty, hget] at hfile
        · exact ih t h pre hshort hempty bytes executable (by simpa using hfile)
    | none =>
      rw [hget] at h
      by_cases hempty : pre = []
      · simp [hempty, hget] at hfile
      · refine ih _ h pre hshort hempty bytes executable ?_
        rw [Tree.get?_put _ _ _ (by simp), if_neg (by simpa using Ne.symm hempty)]
        simpa using hfile

theorem proper_makeOnWay {t : Tree} (h : t.Proper) (hns : ∀ n ∈ ns, IsName n)
    (hplace : t.get? place = some .directory) :
    (makeOnWay t place (ns.map Component.name)).1.Proper := by
  induction ns generalizing t place with
  | nil => exact h
  | cons n ns ih =>
    have hrest : ∀ m ∈ ns, IsName m := fun m hm => hns m (mem_cons_of_mem _ hm)
    rw [map_cons, makeOnWay]
    cases hget : t.get? (place ++ [n]) with
    | none =>
      refine ih (h.put hplace (hns n mem_cons_self) (.inl rfl)) hrest ?_
      rw [Tree.get?_put _ _ _ (by simp), if_pos rfl]
    | some e =>
      cases e with
      | directory => exact ih h hrest hget
      | file bytes executable => exact h

end Make

end World
end CookbookAtlas
