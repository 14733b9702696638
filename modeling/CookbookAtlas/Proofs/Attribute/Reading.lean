import CookbookAtlas.Attribute.Merge
import Mathlib.Data.List.Basic

/-! Reading attribute trees at key paths. A write is merged into what its path held and leaves every
path alone that neither leads to it nor goes on from it, so a path reads as the last value written
there, if that value is no mapping. -/
namespace CookbookAtlas

open List Datum

/-- What a key path leads to; only mappings have anything below them. -/
def Datum.at? (v : Datum) : List String → Option Datum
  | [] => some v
  | key :: rest => (v.members.get? key).bind fun inner => inner.at? rest

@[simp] theorem Datum.at?_nil (v : Datum) : v.at? [] = some v := rfl

theorem Datum.at?_cons (v : Datum) (key : String) (rest : List String) :
    v.at? (key :: rest) = (v.members.get? key).bind fun inner => inner.at? rest := rfl

theorem Datum.at?_append (v : Datum) (p q : List String) :
    v.at? (p ++ q) = (v.at? p).bind fun inner => inner.at? q := by
  induction p generalizing v with
  | nil => rfl
  | cons key rest ih => cases h : v.members.get? key <;> simp [at?_cons, h, ih]

@[simp] theorem Datum.at?_emptyMapping (key : String) (rest : List String) :
    emptyMapping.at? (key :: rest) = none := rfl

mutual
def Datum.isKeyed : Datum → Bool
  | .object members => decide (Members.keys members).Nodup && areKeyed members
  | _ => true

def Datum.areKeyed : List (String × Datum) → Bool
  | [] => true
  | (_, v) :: rest => isKeyed v && areKeyed rest
end

namespace Attribute
variable {p path q : List String}

def Apart (p q : List String) : Prop := ¬ p <+: q ∧ ¬ q <+: p

instance (p q : List String) : Decidable (Apart p q) := inferInstanceAs (Decidable (_ ∧ _))

theorem Apart.symm (h : Apart p q) : Apart q p := ⟨h.2, h.1⟩

theorem Apart.ne_nil (h : Apart p q) : q ≠ [] := by
  rintro rfl
  exact h.2 nil_prefix

theorem Apart.of_cons {key : String} (h : Apart (key :: p) (key :: q)) : Apart p q :=
  ⟨fun hp => h.1 (cons_prefix_cons.2 ⟨rfl, hp⟩), fun hq => h.2 (cons_prefix_cons.2 ⟨rfl, hq⟩)⟩

theorem merge_of_not_isMapping (old : Datum) {v : Datum} (h : v.isMapping = false) :
    merge old v = v := by
  cases v with
  | object members => cases h
  | _ => cases old <;> simp [merge]

/-- The value that a written one leaves where `old` was. -/
def mergedInto (old : Option Datum) (v : Datum) : Datum :=
  match old with
  | some old => merge old v
  | none => v

theorem mergedInto_of_not_isMapping (old : Option Datum) {v : Datum} (h : v.isMapping = false) :
    mergedInto old v = v := by
  cases old with
  | none => rfl
  | some old => exact merge_of_not_isMapping old h

/-- What a write leaves under the first key of its path, where `old` was. -/
def setBelow (old : Option Datum) (rest : List String) (v : Datum) : Datum :=
  match rest with
  | [] => mergedInto old v
  | next :: more => insertPath (old.getD emptyMapping) (next :: more) v

/-- The first key of a path is the only member of the root that a write changes. -/
theorem insertPath_cons (root : Datum) (key : String) (rest : List String) (v : Datum) :
    insertPath root (key :: rest) v =
    .object (root.members.insert key (setBelow (root.members.get? key) rest v)) := by
  cases rest with
  | nil | cons next more => rfl

theorem members_insertPath (root : Datum) (key : String) (rest : List String) (v : Datum) :
    (insertPath root (key :: rest) v).members =
    root.members.insert key (setBelow (root.members.get? key) rest v) := by
  rw [insertPath_cons, Datum.members]

theorem at?_insertPath_self (root : Datum) (hpath : path ≠ []) (v : Datum) :
    (insertPath root path v).at? path = some (mergedInto (root.at? path) v) := by
  induction path generalizing root with
  | nil => exact absurd rfl hpath
  | cons key rest ih =>
    rw [at?_cons, members_insertPath, Members.get?_insert_self, at?_cons]
    cases rest with
    | nil => cases root.members.get? key <;> simp [setBelow, mergedInto]
    | cons next more =>
      have hinner := ih ((root.members.get? key).getD emptyMapping) (by simp)
      cases hget : root.members.get? key with
      | none | some inner => simpa [setBelow, hget] using hinner

theorem at?_insertPath_of_apart (root : Datum) {other : List String} (h : Apart path other)
    (v : Datum) : (insertPath root path v).at? other = root.at? other := by
  induction path generalizing root other with
  | nil => exact absurd nil_prefix h.1
  | cons key rest ih =>
    obtain ⟨first, more, rfl⟩ := exists_cons_of_ne_nil h.ne_nil
    rw [at?_cons, at?_cons, members_insertPath]
    by_cases hkey : key = first
    · subst hkey
      have hinner : Apart rest more := h.of_cons
      rw [Members.get?_insert_self]
      cases rest with
      | nil => exact absurd nil_prefix hinner.1
      | cons next rest =>
        have hsame := ih ((root.members.get? key).getD emptyMapping) hinner
        obtain ⟨second, later, rfl⟩ := exists_cons_of_ne_nil hinner.ne_nil
        cases hget : root.members.get? key with
        | none | some inner => simpa [setBelow, hget] using hsame
    · rw [Members.get?_insert_ne _ _ hkey]

@[simp] theorem applyWrites_append (root : Datum) (ws vs : List Write) :
    applyWrites root (ws ++ vs) = applyWrites (applyWrites root ws) vs := by simp [applyWrites]
theorem applyWrites_cons (root : Datum) (w : Write) (ws : List Write) :
    applyWrites root (w :: ws) = applyWrites (insertPath root w.path w.value) ws := rfl

theorem at?_applyWrites_of_apart (root : Datum) {ws : List Write}
    (h : ∀ w ∈ ws, Apart w.path path) : (applyWrites root ws).at? path = root.at? path := by
  induction ws generalizing root with
  | nil => rfl
  | cons w ws ih =>
    have hrest := ih (insertPath root w.path w.value) fun u hu => h u (mem_cons_of_mem _ hu)
    rw [applyWrites_cons, hrest, at?_insertPath_of_apart root (h w mem_cons_self)]

/-- A path reads as the value of a write, if no later write touches the path. -/
theorem at?_applyWrites_last (root : Datum) (before : List Write) {w : Write} {after : List Write}
    (hpath : w.path ≠ []) (hvalue : w.value.isMapping = false)
    (hafter : ∀ u ∈ after, Apart u.path w.path) :
    (applyWrites root (before ++ w :: after)).at? w.path = some w.value := by
  rw [applyWrites_append, applyWrites_cons, at?_applyWrites_of_apart _ hafter,
    at?_insertPath_self _ hpath, mergedInto_of_not_isMapping _ hvalue]

end Attribute
end CookbookAtlas
