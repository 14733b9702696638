import CookbookAtlas.Files.Edit

/-! How an act ends: what holds of its result and of the world after it, with one rule for each
way acts are built. By these rules, what removing a directory takes away and what it leaves. -/
namespace CookbookAtlas

open List

namespace Act

/-- Started in `w`, the act ends with a result and a world of which `Q` holds. -/
structure Ends {α : Type} (x : Act α) (w : World) (Q : Except Trouble α → World → Prop) : Prop where
  after : Q (x.run.run w).1 (x.run.run w).2

theorem run_bind {α β : Type} (x : Act α) (f : α → Act β) (w : World) :
    (x >>= f).run.run w =
      match x.run.run w with
      | (.ok a, w') => (f a).run.run w'
      | (.error t, w') => (.error t, w') := by
  rw [ExceptT.run_bind, StateT.run_bind]
  obtain ⟨r, w'⟩ := x.run.run w
  cases r <;> rfl

theorem run_get {α : Type} (f : World → Act α) (w : World) :
    (get >>= f).run.run w = (f w).run.run w := rfl

theorem ok_of_bind {α β : Type} {x : Act α} {f : α → Act β} {w w' : World} {b : β}
    (h : (x >>= f).run.run w = (.ok b, w')) :
    ∃ a w₁, x.run.run w = (.ok a, w₁) ∧ (f a).run.run w₁ = (.ok b, w') := by
  rw [run_bind] at h
  cases hx : x.run.run w with
  | mk r w₁ =>
    rw [hx] at h
    cases r with
    | ok a => exact ⟨a, w₁, rfl, h⟩
    | error t => cases (Prod.mk.inj h).1

theorem ok_of_toOption {α : Type} {r : Except Trouble α} {a : α} (h : r.toOption = some a) :
    r = .ok a := by
  cases r with
  | error t => cases h
  | ok b => rw [Option.some.inj h]

theorem run_tryCatch {α : Type} (x : Act α) (handle : Trouble → Act α) (w : World) :
    (tryCatch x handle).run.run w =
      match x.run.run w with
      | (.ok a, w') => (.ok a, w')
      | (.error t, w') => (handle t).run.run w' := by
  simp only [tryCatch, tryCatchThe, MonadExceptOf.tryCatch, ExceptT.tryCatch, ExceptT.run_mk]
  rw [StateT.run_bind]
  change (do let p ← x.run.run w; _) = _
  obtain ⟨r, w'⟩ := x.run.run w
  cases r <;> rfl

namespace Ends

variable {α β : Type} {x : Act α} {w : World} {Q R : Except Trouble α → World → Prop}

theorem weaken (hx : Ends x w Q) (h : ∀ r w', Q r w' → R r w') : Ends x w R := ⟨h _ _ hx.after⟩

theorem pure {a : α} (h : Q (.ok a) w) : Ends (Pure.pure a) w Q := ⟨h⟩

theorem throw {t : Trouble} (h : Q (.error t) w) : Ends (MonadExcept.throw t) w Q := ⟨h⟩

theorem lift {e : Except Trouble α} (h : Q e w) : Ends (ExceptT.mk (Pure.pure e)) w Q := ⟨h⟩

theorem setFiles {t : Files.Tree} {Q : Except Trouble Unit → World → Prop}
    (h : Q (.ok ()) { w with files := t }) : Ends (World.setFiles t) w Q := ⟨h⟩

theorem get {f : World → Act α} (h : Ends (f w) w Q) : Ends (MonadState.get >>= f) w Q := ⟨h.after⟩

/-- A sequence goes on where its first act returned, and stops where it failed. -/
theorem bind {f : α → Act β} {P : Except Trouble β → World → Prop}
    (hx : Ends x w fun r w' =>
      match r with
      | .ok a => Ends (f a) w' P
      | .error t => P (.error t) w') :
    Ends (x >>= f) w P := by
  obtain ⟨hx⟩ := hx
  constructor
  rw [run_bind]
  generalize x.run.run w = ending at hx ⊢
  obtain ⟨r, w'⟩ := ending
  cases r with
  | ok a => exact hx.after
  | error t => exact hx

theorem tryCatch {handle : Trouble → Act α}
    (hx : Ends x w fun r w' =>
      match r with
      | .ok a => Q (.ok a) w'
      | .error t => Ends (handle t) w' Q) :
    Ends (MonadExcept.tryCatch x handle) w Q := by
  obtain ⟨hx⟩ := hx
  constructor
  rw [run_tryCatch]
  generalize x.run.run w = ending at hx ⊢
  obtain ⟨r, w'⟩ := ending
  cases r with
  | ok a => exact hx
  | error t => exact hx.after

end Ends
end Act

namespace Files.Tree

/-- Where entries are kept by their place, what is kept is found as before. -/
theorem lookup_filter (keep : Place → Bool) (other : Place) (entries : List (Place × Entry)) :
    lookup other (entries.filter fun e => keep e.1) = if keep other then lookup other entries
    else none := by
  induction entries with
  | nil => simp [lookup]
  | cons e rest ih =>
    obtain ⟨k, entry⟩ := e
    by_cases hk : k = other
    · subst hk
      cases hkeep : keep k <;> simp [lookup, ih, hkeep]
    · cases hkeep : keep k <;> simp [lookup, ih, hkeep, hk]

theorem get?_filter (t : Tree) (keep : Place → Bool) {other : Place} (h : other ≠ []) :
    Tree.get? ⟨t.entries.filter fun e => keep e.1⟩ other = if keep other then t.get? other
    else none := by
  simp [get?, h, lookup_filter]

/-- What is removed is gone with everything below it, and nothing else is. -/
theorem get?_remove (t : Tree) {place : Place} (h : place ≠ []) (other : Place) :
    (t.remove place).get? other = if place <+: other then none else t.get? other := by
  by_cases hroot : other = []
  · have hout : ¬ place <+: [] := fun hpre => h (prefix_nil.1 hpre)
    rw [hroot, if_neg hout]
    rfl
  · rw [remove, get?_filter t (fun k => !place.isPrefixOf k) hroot]
    by_cases hpre : place <+: other
    · have htrue : place.isPrefixOf other = true := isPrefixOf_iff_prefix.2 hpre
      simp [hpre, htrue]
    · have hfalse : place.isPrefixOf other = false :=
        Bool.eq_false_iff.2 (mt isPrefixOf_iff_prefix.1 hpre)
      simp [hpre, hfalse]

end Files.Tree

namespace World
variable {place : Files.Place} {w : World}

def DirectoryAt (w : World) (p : Path) (place : Files.Place) : Prop :=
  w.place p = .ok place ∧ w.files.get? place = some .directory

/-- From `w` to `w'` a directory has lost everything in it, and is gone itself or left empty.
Nothing else has changed. -/
structure Emptied (w : World) (place : Files.Place) (w' : World) : Prop where
  inside : ∀ other, place <+: other → other ≠ place → w'.files.get? other = none
  itself : w'.files.get? place = none ∨ w'.files.get? place = some .directory
  outside : ∀ other, ¬ place <+: other → w'.files.get? other = w.files.get? other
  rest : w' = { w with files := w'.files }

/-- From `w` to `w'` the directory that the path leads to, if any, has been emptied. -/
structure Swept (w : World) (p : Path) (w' : World) : Prop where
  emptied : ∀ place, w.DirectoryAt p place → w.Emptied place w'
  unchanged : (∀ place, ¬ w.DirectoryAt p place) → w' = w

theorem entry_eq_directory_iff (w : World) (p : Path) :
    w.entry p = .ok .directory ↔ ∃ place, w.DirectoryAt p place := by
  unfold entry DirectoryAt
  cases hplace : w.place p with
  | error fault => simp
  | ok place =>
    cases hfile : w.files.get? place with
    | none => simp [hfile]
    | some e =>
      cases e with
      | directory => simp [hfile]
      | file bytes executable => by_cases hp : namesDirectory p <;> simp [hfile, hp]

/-- What keeps everything outside a directory and nothing in it empties the directory, whether or
not it keeps the directory itself. -/
theorem emptied_filter (keep : Files.Place → Bool) (hdir : w.files.get? place = some .directory)
    (hin : ∀ other, place <+: other → other ≠ place → keep other = false)
    (hout : ∀ other, ¬ place <+: other → keep other = true) :
    w.Emptied place { w with files := ⟨w.files.entries.filter fun e => keep e.1⟩ } where
  inside other hbelow hne := by
    have hother : other ≠ [] := by
      rintro rfl
      exact hne (prefix_nil.1 hbelow).symm
    simp [Files.Tree.get?_filter _ keep hother, hin other hbelow hne]
  itself := by
    by_cases h : place = []
    · exact .inr (by simp [Files.Tree.get?, h])
    · cases hkeep : keep place with
      | false => exact .inl (by simp [Files.Tree.get?_filter _ keep h, hkeep])
      | true => exact .inr (by simpa [Files.Tree.get?_filter _ keep h, hkeep] using hdir)
  outside other hother := by
    by_cases h : other = []
    · simp [Files.Tree.get?, h]
    · simp [Files.Tree.get?_filter _ keep h, hout other hother]
  rest := rfl

theorem emptied_remove (hdir : w.files.get? place = some .directory) :
    w.Emptied place { w with files := w.files.remove place } :=
  emptied_filter (fun k => !place.isPrefixOf k) hdir
    (fun other hbelow _ => by simpa using isPrefixOf_iff_prefix.2 hbelow)
    (fun other hother => by simp [Bool.eq_false_iff.2 (mt isPrefixOf_iff_prefix.1 hother)])

theorem emptied_clear (hdir : w.files.get? place = some .directory) :
    w.Emptied place { w with files := w.files.clear place } :=
  emptied_filter (fun k => !(place.isPrefixOf k && k != place)) hdir
    (fun other hbelow hne => by simp [List.isPrefixOf_iff_prefix.2 hbelow, hne])
    (fun other hother => by simp [Bool.eq_false_iff.2 (mt isPrefixOf_iff_prefix.1 hother)])

theorem removeDirectory_ends (w : World) (p : Path) :
    Act.Ends (removeDirectory p) w fun _ w' => w.Swept p w' := by
  apply Act.Ends.get
  by_cases hentry : w.entry p = .ok .directory
  · obtain ⟨place, hplace, hdir⟩ := (entry_eq_directory_iff w p).1 hentry
    have hswept : ∀ w', w.Emptied place w' → w.Swept p w' := fun w' he =>
      { emptied := fun other hother => by
          obtain rfl : place = other := by simpa [hplace] using hother.1
          exact he
        unchanged := fun hnone => absurd ⟨hplace, hdir⟩ (hnone place) }
    rw [hentry, hplace]
    dsimp only
    split
    · exact Act.Ends.bind (.setFiles (.throw (hswept _ (emptied_clear hdir))))
    · exact .setFiles (hswept _ (emptied_remove hdir))
  · have hswept : w.Swept p w :=
      { emptied := fun place hplace => absurd ((entry_eq_directory_iff w p).2 ⟨place, hplace⟩) hentry
        unchanged := fun _ => rfl }
    split
    · contradiction
    · exact .throw hswept
    · exact .pure hswept

/-- A removal that succeeds has found nothing, or has removed a directory that is not the root. -/
theorem removeDirectory_done (w : World) (p : Path) :
    Act.Ends (removeDirectory p) w fun r w' => r = .ok () →
      (w' = w ∧ ∃ fault, w.entry p = .error fault) ∨
      ∃ place, place ≠ [] ∧ w.DirectoryAt p place ∧
      w' = { w with files := w.files.remove place } := by
  apply Act.Ends.get
  cases hentry : w.entry p with
  | error fault => exact .pure fun _ => .inl ⟨rfl, fault, rfl⟩
  | ok e =>
    cases e with
    | file bytes executable => exact .throw fun h => (nomatch h)
    | directory =>
      obtain ⟨place, hplace, hdir⟩ := (entry_eq_directory_iff w p).1 hentry
      rw [hplace]
      dsimp only
      split
      · exact Act.Ends.bind (.setFiles (.throw fun h => (nomatch h)))
      · rename_i hplain
        exact .setFiles fun _ => .inr ⟨place, fun hroot => hplain (.inl hroot), ⟨hplace, hdir⟩, rfl⟩

end World
end CookbookAtlas
