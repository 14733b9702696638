import CookbookAtlas.Proofs.Files.Places
import Mathlib.Data.List.Lex

/-! Directories in a directory. They are the directories that lie one name further down, and they
are listed in the order of paths, each once. -/
namespace CookbookAtlas

open List
variable {p : Path} {place : Files.Place} {n : String} {t : Files.Tree}

namespace Path

namespace Component

def rank : Component → Nat
  | .root => 0
  | .current => 1
  | .parent => 2
  | .name _ => 3

/-- Components go by their kind, and names by their text. -/
def Before : Component → Component → Prop
  | .name m, .name n => m < n
  | c, d => c.rank < d.rank

instance : Std.Asymm Before where
  asymm c d h := by
    cases c <;> cases d <;> simp only [Before, rank] at h ⊢
    case name.name => exact String.lt_asymm h
    all_goals omega

end Component

/-- Paths go by their first components that differ; a path goes before what is below it. -/
def Before (p q : Path) : Prop := List.Lex Component.Before p.components q.components

theorem Before.asymm {q : Path} (h : p.Before q) : ¬ q.Before p :=
  Std.Asymm.asymm (r := List.Lex Component.Before) p.components q.components h

theorem before_children (p : Path) {m : String} (hm : IsName m) (hn : IsName n) (h : m < n) :
    (p.child m).Before (p.child n) := by
  have hnames : List.Lex Component.Before [.name m] [.name n] := .rel h
  rw [Before, components_child p hm, components_child p hn]
  exact hnames.append_left _ p.components

theorem child_ne (p : Path) (h : IsName n) : p.child n ≠ p := by
  intro he
  have hlength := congrArg List.length (components_child p h)
  rw [he] at hlength
  simp at hlength

end Path

namespace Files.Tree

theorem exists_name_listing (t : Tree) (place : Place) : ∃ f : Place × Entry → Option String,
    t.names place = (t.entries.filterMap f).mergeSort (fun a b => decide (a ≤ b)) ∧
    ∀ e n, f e = some n ↔ e.1 = place ++ [n] := by
  refine ⟨_, rfl, fun e n => ?_⟩
  cases hlast : e.1.getLast? with
  | none => simp [List.getLast?_eq_none_iff.1 hlast]
  | some last =>
    obtain ⟨up, hup⟩ := List.getLast?_eq_some_iff.1 hlast
    simp [hup]

theorem mem_names_iff : n ∈ t.names place ↔ ∃ e, (place ++ [n], e) ∈ t.entries := by
  obtain ⟨f, hnames, hf⟩ := exists_name_listing t place
  rw [hnames, mem_mergeSort, mem_filterMap]
  constructor
  · rintro ⟨⟨k, e⟩, hmem, hk⟩
    obtain rfl : k = place ++ [n] := (hf _ _).1 hk
    exact ⟨e, hmem⟩
  · rintro ⟨e, hmem⟩
    exact ⟨_, hmem, (hf _ _).2 rfl⟩

theorem Proper.isName_of_mem_names (ht : t.Proper) (h : n ∈ t.names place) : Path.IsName n := by
  obtain ⟨e, he⟩ := mem_names_iff.1 h
  exact ht.named _ he n (by simp)

theorem pairwise_names (hdistinct : (t.entries.map Prod.fst).Nodup) (place : Place) :
    (t.names place).Pairwise (· < ·) := by
  obtain ⟨f, hnames, hf⟩ := exists_name_listing t place
  have hsorted : (t.names place).Pairwise (· ≤ ·) := by
    have htrans : ∀ a b c : String, decide (a ≤ b) = true → decide (b ≤ c) = true →
        decide (a ≤ c) = true := by
      intro a b c hab hbc
      exact decide_eq_true (String.le_trans (of_decide_eq_true hab) (of_decide_eq_true hbc))
    have htotal : ∀ a b : String, (decide (a ≤ b) || decide (b ≤ a)) = true := by
      intro a b
      simpa using String.le_total a b
    rw [hnames]
    exact (pairwise_mergeSort htrans htotal _).imp of_decide_eq_true
  have honce : (t.names place).Nodup := by
    rw [hnames, (mergeSort_perm _ _).nodup_iff, List.Nodup, pairwise_filterMap]
    refine (pairwise_map.1 hdistinct).imp fun {e e'} hne n hn n' hn' hsame => hne ?_
    rw [(hf e n).1 hn, (hf e' n').1 hn', hsame]
  refine (hsorted.and honce).imp fun {m n} h => ?_
  exact String.not_le.1 fun hback => h.2 (String.le_antisymm h.1 hback)

end Files.Tree

namespace World

open Files (Tree Place Entry)
open CookbookAtlas.Path (IsName Component)

variable {w : World}

theorem isDirectory_iff : w.isDirectory p = true ↔ ∃ place, w.DirectoryAt p place := by
  rw [← entry_eq_directory_iff]
  unfold isDirectory
  cases w.entry p with
  | error fault => simp [Except.toOption]
  | ok e => cases e <;> simp [Except.toOption, Files.Entry.isDirectory]

theorem place_child (hp : w.DirectoryAt p place) (hn : IsName n) :
    w.place (p.child n) = .ok (place ++ [n]) := by
  obtain ⟨hplace, hdir⟩ := hp
  rw [World.place, Path.text_child_ne p hn, if_neg (by simp), Path.components_child p hn,
    follow_append_iff (follow_of_place hplace), follow_name _ _ _ hdir]
  rfl

theorem names_eq_ok_iff {names : List String} :
    w.names p = .ok names ↔ ∃ place, w.DirectoryAt p place ∧ names = w.files.names place := by
  by_cases hentry : w.entry p = .ok .directory
  · obtain ⟨place, hplace, hdir⟩ := (entry_eq_directory_iff w p).1 hentry
    simp [World.names, hentry, hplace, DirectoryAt, hdir, eq_comm]
  · constructor
    · intro hnames
      unfold World.names at hnames
      split at hnames
      · rename_i hdir _
        exact absurd hdir hentry
      all_goals cases hnames
    · rintro ⟨place, hplace, -⟩
      exact absurd ((entry_eq_directory_iff w p).2 ⟨place, hplace⟩) hentry

/-- `d` leads from the directory `dir` by one name to a directory. -/
def IsSubdirectory (w : World) (dir d : Path) : Prop :=
  w.isDirectory dir = true ∧ w.isDirectory d = true ∧ ∃ n, IsName n ∧ d = dir.child n

theorem IsSubdirectory.ne {dir d : Path} (h : w.IsSubdirectory dir d) : d ≠ dir := by
  obtain ⟨-, -, n, hn, rfl⟩ := h
  exact dir.child_ne hn

theorem mem_childDirectories_iff (hw : w.files.Proper) {dir d : Path} :
    d ∈ w.childDirectories dir ↔ w.IsSubdirectory dir d := by
  unfold childDirectories IsSubdirectory
  cases hnames : w.names dir with
  | error fault =>
    have hnone : w.isDirectory dir ≠ true := by
      intro hdir
      obtain ⟨place, hplace⟩ := isDirectory_iff.1 hdir
      rw [names_eq_ok_iff.2 ⟨place, hplace, rfl⟩] at hnames
      cases hnames
    simp [hnone]
  | ok names =>
    obtain ⟨place, hplace, rfl⟩ := names_eq_ok_iff.1 hnames
    simp only [mem_filter, mem_map, isDirectory_iff.2 ⟨place, hplace⟩, true_and]
    constructor
    · rintro ⟨⟨n, hn, rfl⟩, hd⟩
      exact ⟨hd, n, hw.isName_of_mem_names hn, rfl⟩
    · rintro ⟨hd, n, hn, rfl⟩
      refine ⟨⟨n, Tree.mem_names_iff.2 ⟨.directory, ?_⟩, rfl⟩, hd⟩
      obtain ⟨q, hq, hdir⟩ := isDirectory_iff.1 hd
      obtain rfl : place ++ [n] = q := by simpa [place_child hplace hn] using hq
      exact (hw.mem_iff (by simp) _).2 hdir

theorem pairwise_childDirectories (hw : w.files.Proper) (dir : Path) :
    (w.childDirectories dir).Pairwise Path.Before := by
  unfold childDirectories
  cases hnames : w.names dir with
  | error fault => exact .nil
  | ok names =>
    obtain ⟨place, -, rfl⟩ := names_eq_ok_iff.1 hnames
    apply List.Pairwise.filter
    rw [pairwise_map]
    refine (Tree.pairwise_names hw.distinct place).imp_of_mem fun {m n} hm hn hlt => ?_
    exact dir.before_children (hw.isName_of_mem_names hm) (hw.isName_of_mem_names hn) hlt

end World
end CookbookAtlas
