import CookbookAtlas.Proofs.Files.Places
import Mathlib.Data.String.Basic
import Mathlib.Data.List.Lex
import Mathlib.Data.List.Nodup

/-! Copying a directory tree. Entries are written in the order of a walk, so that every directory is
there before what is in it; where nothing was before, the copy is the tree that was copied, and
nothing but the way to it changes elsewhere. -/
namespace CookbookAtlas

open List
variable {e : Files.Entry} {p : Path} {rel : Files.Place} {w : World}

namespace Path

/-- A path that is written without `..` and ends in a name. -/
def Straight (p : Path) : Prop :=
  ∃ (dir : Path) (n : String), p = dir.child n ∧ IsName n ∧ .parent ∉ dir.components

namespace Straight

variable {p : Path}

theorem up (h : p.Straight) : .parent ∉ p.components := by
  obtain ⟨dir, n, rfl, hn, hup⟩ := h
  simpa [components_child dir hn] using hup

theorem text_ne (h : p.Straight) : p.text.isEmpty = false := by
  obtain ⟨dir, n, rfl, hn, -⟩ := h
  exact text_child_ne dir hn

theorem names_ne (h : p.Straight) : p.names ≠ [] := by
  obtain ⟨dir, n, rfl, hn, -⟩ := h
  simp [names_child dir hn]

theorem not_namesDirectory (h : p.Straight) : World.namesDirectory p = false := by
  obtain ⟨dir, n, rfl, hn, -⟩ := h
  exact World.not_namesDirectory_child dir hn

theorem lastField?_ne_dot (h : p.Straight) : World.lastField? p ≠ some ['.'] := by
  obtain ⟨dir, n, rfl, hn, -⟩ := h
  rw [World.lastField?_child dir hn]
  intro he
  exact hn.2.1 (String.toList_injective (Option.some.inj he))

theorem child (h : p.Straight) {n : String} (hn : IsName n) : (p.child n).Straight :=
  ⟨p, n, rfl, hn, h.up⟩

theorem foldl_child (h : p.Straight) {rel : List String} (hrel : ∀ n ∈ rel, IsName n) :
    (rel.foldl Path.child p).Straight := by
  induction rel generalizing p with
  | nil => exact h
  | cons n rel ih =>
    exact ih (h.child (hrel n mem_cons_self)) fun m hm => hrel m (mem_cons_of_mem _ hm)

end Straight

theorem foldl_child (p : Path) {rel : List String} (hrel : ∀ n ∈ rel, IsName n) :
    (rel.foldl Path.child p).names = p.names ++ rel ∧
    (rel.foldl Path.child p).isAbsolute = p.isAbsolute := by
  induction rel generalizing p with
  | nil => simp
  | cons n rel ih =>
    have hn : IsName n := hrel n mem_cons_self
    obtain ⟨hnames, habsolute⟩ := ih (p.child n) fun m hm => hrel m (mem_cons_of_mem _ hm)
    rw [foldl_cons, hnames, habsolute, names_child p hn, isAbsolute_child p hn]
    simp

end Path

namespace Files.Tree

theorem lt_of_prefix {up place : Place} (h : up <+: place) (hne : up ≠ place) : up < place := by
  induction up generalizing place with
  | nil =>
    cases place with
    | nil => exact absurd rfl hne
    | cons n place => exact nil_lt_cons n place
  | cons n up ih =>
    obtain ⟨rest, rfl⟩ := h
    have hrest : up < up ++ rest :=
      ih (prefix_append up rest) fun he => hne (by rw [cons_append, ← he])
    simpa using hrest

theorem mem_below_iff {t : Tree} (hdistinct : (t.entries.map Prod.fst).Nodup) {place : Place} :
    (rel, e) ∈ t.below place ↔ rel ≠ [] ∧ t.get? (place ++ rel) = some e := by
  have hlisted : (rel, e) ∈ t.below place ↔ rel ≠ [] ∧ (place ++ rel, e) ∈ t.entries := by
    unfold below
    rw [mem_mergeSort, mem_filterMap]
    constructor
    · rintro ⟨⟨k, old⟩, hmem, hk⟩
      split at hk
      · rename_i hbelow
        obtain ⟨hpre, hne⟩ : place <+: k ∧ k ≠ place := by simpa using hbelow
        obtain ⟨rest, rfl⟩ := hpre
        obtain ⟨hrel, rfl⟩ : rest = rel ∧ old = e := by simpa using hk
        rw [hrel] at hne hmem
        exact ⟨fun he => hne (by simp [he]), hmem⟩
      · simp at hk
    · rintro ⟨hrel, hmem⟩
      refine ⟨(place ++ rel, e), hmem, ?_⟩
      have hpre : place.isPrefixOf (place ++ rel) = true :=
        isPrefixOf_iff_prefix.2 (prefix_append place rel)
      simp [hpre, hrel]
  rw [hlisted]
  constructor
  · rintro ⟨hrel, hmem⟩
    exact ⟨hrel, (mem_entries_iff hdistinct (by simp [hrel]) e).1 hmem⟩
  · rintro ⟨hrel, hget⟩
    exact ⟨hrel, (mem_entries_iff hdistinct (by simp [hrel]) e).2 hget⟩

theorem distinct_below {t : Tree} (hdistinct : (t.entries.map Prod.fst).Nodup) (place : Place) :
    ((t.below place).map Prod.fst).Nodup := by
  have hkeys : (t.entries.filterMap fun e =>
      if place.isPrefixOf e.1 && e.1 != place then some (e.1.drop place.length, e.2)
      else none).map Prod.fst =
      (t.entries.map Prod.fst).filterMap fun k =>
        if place.isPrefixOf k && k != place then some (k.drop place.length) else none := by
    rw [map_filterMap, filterMap_map]
    congr 1
    funext e
    dsimp only [Function.comp]
    split <;> rfl
  have hlisted : ((t.entries.map Prod.fst).filterMap fun k =>
      if place.isPrefixOf k && k != place then some (k.drop place.length) else none).Nodup := by
    refine List.Nodup.filterMap (fun k k' rel hk hk' => ?_) hdistinct
    have hunique : ∀ k : Place, rel ∈ (if place.isPrefixOf k && k != place
        then some (k.drop place.length) else none) →
        k = place ++ rel := by
      intro k hk
      split at hk
      · rename_i hbelow
        obtain ⟨rest, rfl⟩ : place <+: k := by simpa using (Bool.and_eq_true_iff.1 hbelow).1
        have hrest : rest = rel := by simpa using hk
        rw [hrest]
      · simp at hk
    rw [hunique k hk, hunique k' hk']
  rw [← hkeys] at hlisted
  exact (((mergeSort_perm _ _).map Prod.fst).nodup_iff).2 hlisted

theorem pairwise_below (t : Tree) (place : Place) :
    (t.below place).Pairwise fun a b => ¬ b.1 < a.1 := by
  have htrans : ∀ a b c : Place × Entry,
      (!decide (b.1 < a.1)) = true → (!decide (c.1 < b.1)) = true →
      (!decide (c.1 < a.1)) = true := by
    intro a b c hab hbc
    simp only [Bool.not_eq_true', decide_eq_false_iff_not, not_lt] at hab hbc ⊢
    exact hab.trans hbc
  have htotal : ∀ a b : Place × Entry, ((!decide (b.1 < a.1)) || (!decide (a.1 < b.1))) = true := by
    intro a b
    simp only [Bool.or_eq_true, Bool.not_eq_true', decide_eq_false_iff_not, not_lt]
    exact le_total a.1 b.1
  exact (pairwise_mergeSort htrans htotal _).imp fun h => by simpa using h

end Files.Tree

namespace World

open Files (Tree Place Entry)

/-- From `w` to `w'` directories have been made where nothing was, on the way that a path leads.
Nothing else has changed. -/
structure Extended (w : World) (p : Path) (w' : World) : Prop where
  kept : ∀ other, (∀ pre, pre <+: p.names → pre ≠ [] → other = w.base p ++ pre →
    w.files.get? other ≠ none) →
    w'.files.get? other = w.files.get? other
  proper : w.files.Proper → w'.files.Proper
  rest : w' = { w with files := w'.files }

theorem Extended.refl (w : World) (p : Path) : w.Extended p w := ⟨fun _ _ => rfl, id, rfl⟩

theorem spot_ne_nil (w : World) (hp : p.Straight) : w.spot p ≠ [] := by
  simp [spot, hp.names_ne]

theorem entry_of_straight (hp : p.Straight) :
    w.entry p = .ok e ↔
      w.files.get? (w.spot p) = some e ∧
      ∀ pre, pre <+: p.names → pre ≠ p.names →
      w.files.get? (w.base p ++ pre) = some .directory := by
  have hplace := fun q => place_iff (w := w) hp.text_ne hp.up hp.names_ne (q := q)
  cases hfollow : w.place p with
  | error fault =>
    have hentry : w.entry p = .error fault := by simp [entry, hfollow]
    refine ⟨fun h => ?_, fun h => ?_⟩
    · rw [hentry] at h
      cases h
    · have hok := (hplace (w.spot p)).2 ⟨rfl, h.2⟩
      rw [hfollow] at hok
      cases hok
  | ok q =>
    obtain ⟨rfl, habove⟩ := (hplace q).1 hfollow
    have hentry : w.entry p = .ok e ↔ w.files.get? (w.spot p) = some e := by
      cases hget : w.files.get? (w.spot p) with
      | none => simp [entry, hfollow, hget]
      | some found => cases found <;> simp [entry, hfollow, hget, hp.not_namesDirectory]
    rw [hentry]
    exact ⟨fun h => ⟨h, habove⟩, fun h => h.1⟩

theorem entry_of_get? (hw : w.files.Proper) (hp : p.Straight)
    (h : w.files.get? (w.spot p) = some e) : w.entry p = .ok e := by
  refine (entry_of_straight hp).2 ⟨h, ?_⟩
  rintro pre ⟨rest, hrest⟩ hpre
  have hmore : rest ≠ [] := fun hnil => hpre (by simpa [hnil] using hrest)
  refine hw.directory_above hmore ?_
  rw [append_assoc, hrest]
  exact Option.isSome_iff_exists.2 ⟨e, h⟩

theorem text_of_file {u v : World} (hv : v.files.Proper) (hp : p.Straight)
    (hfile : ∀ bytes executable, u.files.get? (u.spot p) = some (.file bytes executable) →
      v.files.get? (v.spot p) = some (.file bytes executable))
    {cs : List Char} (h : u.text p = .ok cs) : v.text p = .ok cs := by
  cases hentry : u.entry p with
  | error fault => simp [text, bytes, hentry] at h
  | ok e =>
    cases e with
    | directory => simp [text, bytes, hentry] at h
    | file content executable =>
      have hfound := entry_of_get? hv hp (hfile content executable ((entry_of_straight hp).1 hentry).1)
      unfold text bytes at h ⊢
      rw [hentry] at h
      rw [hfound]
      exact h

/-- A directory that was asked for is there afterwards, with the way to it. -/
theorem ensureDirectory_ends (w : World) (hp : p.Straight) :
    Act.Ends (ensureDirectory p) w fun r w' =>
      w.Extended p w' ∧
      (r = .ok () → ∀ pre, pre <+: p.names → w'.files.get? (w.base p ++ pre) = some .directory) ∧
      (w.files.get? (w.base p) = some .directory →
        (∀ pre, pre <+: p.names → pre ≠ [] → ∀ bytes executable,
          w.files.get? (w.base p ++ pre) ≠ some (.file bytes executable)) → r = .ok ()) := by
  apply Act.Ends.get
  by_cases hhas : w.has p = true
  · rw [if_pos hhas]
    obtain ⟨e, he⟩ : ∃ e, w.entry p = .ok e := by
      unfold has at hhas
      cases hentry : w.entry p with
      | error fault => simp [hentry, Except.toOption] at hhas
      | ok e => exact ⟨e, rfl⟩
    obtain ⟨hget, habove⟩ := (entry_of_straight hp).1 he
    cases e with
    | directory =>
      rw [if_pos (by simp [isDirectory, he, Except.toOption, Files.Entry.isDirectory])]
      refine .pure ⟨.refl w p, fun _ pre hpre => ?_, fun _ _ => rfl⟩
      by_cases hall : pre = p.names
      · rw [hall]
        exact hget
      · exact habove pre hpre hall
    | file bytes executable =>
      rw [if_neg (by simp [isDirectory, he, Except.toOption, Files.Entry.isDirectory])]
      refine .throw ⟨.refl w p, fun h => (by cases h), fun _ hway => ?_⟩
      exact absurd hget (hway p.names (prefix_refl _) hp.names_ne bytes executable)
  · rw [if_neg hhas]
    by_cases hbase : (!p.isAbsolute && w.files.get? w.here != some .directory) = true
    · have hmake : makeDirectory w p = (w.files, some .notFound) := by rw [makeDirectory, if_pos hbase]
      rw [hmake]
      refine .bind (.setFiles (.throw ⟨.refl w p, fun h => (by cases h), fun hdir _ => ?_⟩))
      obtain ⟨habs, hhere⟩ : p.isAbsolute = false ∧ w.files.get? w.here ≠ some .directory := by
        simpa using hbase
      simp [base, habs] at hdir
      exact absurd hdir hhere
    · have hmake : makeDirectory w p = makeOnWay w.files (w.base p) (p.names.map Path.Component.name) := by
        rw [makeDirectory, if_neg hbase, if_neg hp.lastField?_ne_dot, makeOnWay_components _ hp.up]
        rfl
      have hstart : w.files.get? (w.base p) = some .directory := by
        unfold base
        split
        · rfl
        · rename_i habs
          simpa [habs] using hbase
      rw [hmake]
      have hextended : w.Extended p
          { w with files := (makeOnWay w.files (w.base p) (p.names.map Path.Component.name)).1 } :=
        ⟨fun other hother => makeOnWay_other w.files (w.base p) p.names hother,
          fun hw => proper_makeOnWay hw (fun n hn => Path.isName_of_mem_names hn) hstart, rfl⟩
      cases hmade : makeOnWay w.files (w.base p) (p.names.map Path.Component.name) with
      | mk t fault =>
        rw [hmade] at hextended
        cases fault with
        | none =>
          refine .bind (.setFiles (.pure ⟨hextended, fun _ pre hpre => ?_, fun _ _ => rfl⟩))
          have hfiles := no_file_of_made w.files (by rw [hmade])
          obtain ⟨-, hway⟩ := makeOnWay_made w.files (w.base p) p.names hfiles
          rw [hmade] at hway
          by_cases hempty : pre = []
          · rw [hempty, append_nil]
            exact (hextended.kept (w.base p) fun _ _ _ _ => by simp [hstart]).trans hstart
          · exact hway pre hpre hempty
        | some fault =>
          refine .bind (.setFiles (.throw ⟨hextended, fun h => (by cases h), fun _ hfiles => ?_⟩))
          have hnone := (makeOnWay_made w.files (w.base p) p.names hfiles).1
          rw [hmade] at hnone
          cases hnone

/-- A directory that was removed is gone, with everything below it and nothing else. -/
theorem removeDirectory_straight (hw : w.files.Proper) (hp : p.Straight) :
    Act.Ends (removeDirectory p) w fun r w' => r = .ok () →
      (∀ other, w'.files.get? other = if w.spot p <+: other then none else w.files.get? other) ∧
      w'.files.Proper ∧ w' = { w with files := w'.files } := by
  refine (removeDirectory_done w p).weaken fun r w' hdone hr => ?_
  rcases hdone hr with ⟨rfl, fault, hfault⟩ | ⟨place, hne, ⟨hplace, -⟩, rfl⟩
  · -- in a proper tree nothing is where a path leads that cannot be followed
    have hnone : w'.files.get? (w'.spot p) = none := by
      by_contra hsome
      obtain ⟨e, he⟩ := Option.ne_none_iff_exists'.1 hsome
      have hok := entry_of_get? hw hp he
      rw [hfault] at hok
      cases hok
    refine ⟨fun other => ?_, hw, rfl⟩
    split
    · rename_i hpre
      exact hw.none_under hnone hpre
    · rfl
  · obtain ⟨rfl, -⟩ := (place_iff hp.text_ne hp.up hp.names_ne).1 hplace
    exact ⟨Files.Tree.get?_remove w.files hne, hw.remove _, rfl⟩

theorem base_foldl_child (w : World) (p : Path) (hrel : ∀ n ∈ rel, Path.IsName n) :
    w.base (rel.foldl Path.child p) = w.base p := by
  rw [base, base, (Path.foldl_child p hrel).2]

theorem spot_foldl_child (w : World) (p : Path) (hrel : ∀ n ∈ rel, Path.IsName n) :
    w.spot (rel.foldl Path.child p) = w.spot p ++ rel := by
  rw [spot, spot, base_foldl_child w p hrel, (Path.foldl_child p hrel).1, append_assoc]

/-- What leads to a place below another leads to the other, or goes on from it. -/
theorem prefix_append_cases {pre xs ys : Place} (h : pre <+: xs ++ ys) :
    pre <+: xs ∨ ∃ up, pre = xs ++ up ∧ up <+: ys := by
  rcases prefix_or_prefix_of_prefix h (prefix_append xs ys) with hpre | ⟨up, rfl⟩
  · exact .inl hpre
  · exact .inr ⟨up, rfl, (prefix_append_right_inj xs).1 h⟩

section Copy

variable {source target : Path}

/-- An entry whose directory is there is written where nothing was, and nothing else changes. -/
theorem copyEntry_ends (v : World) (hs : source.Straight) (ht : target.Straight)
    (hapart : v.spot source ≠ v.spot target) (hrel : rel ≠ []) (hnames : ∀ n ∈ rel, Path.IsName n)
    (hway : ∀ pre, pre <+: target.names → v.files.get? (v.base target ++ pre) = some .directory)
    (hup : ∀ up, up <+: rel → up ≠ rel → v.files.get? (v.spot target ++ up) = some .directory)
    (hfresh : v.files.get? (v.spot target ++ rel) = none) (entry : Entry) :
    Act.Ends (copyEntry source target (rel, entry)) v fun r v' =>
      r = .ok () ∧
      (∀ other, v'.files.get? other = if other = v.spot target ++ rel then some entry
      else v.files.get? other) ∧ v' = { v with files := v'.files } := by
  have hdest : (rel.foldl Path.child target).Straight := ht.foldl_child hnames
  have hspot := spot_foldl_child v target hnames
  have hbase := base_foldl_child v target hnames
  have hdestNames := (Path.foldl_child target hnames).1
  have habove : ∀ pre, pre <+: target.names ++ rel → pre ≠ target.names ++ rel →
      v.files.get? (v.base target ++ pre) = some .directory := by
    intro pre hpre hne
    rcases prefix_append_cases hpre with hshort | ⟨up, rfl, hlong⟩
    · exact hway pre hshort
    · have hdir := hup up hlong fun he => hne (by rw [he])
      rwa [spot, append_assoc] at hdir
  have hlast : v.base target ++ (target.names ++ rel) = v.spot target ++ rel := by
    rw [spot, append_assoc]
  cases entry with
  | directory =>
    refine (ensureDirectory_ends v hdest).weaken ?_
    rintro r v' ⟨hextended, hmade, hok⟩
    rw [hbase, hdestNames] at hmade hok
    have hr : r = .ok () := by
      refine hok (by simpa using hway [] nil_prefix) fun pre hpre _ bytes executable hfile => ?_
      by_cases hall : pre = target.names ++ rel
      · rw [hall, hlast, hfresh] at hfile
        cases hfile
      · rw [habove pre hpre hall] at hfile
        cases hfile
    refine ⟨hr, fun other => ?_, hextended.rest⟩
    split
    · rename_i he
      rw [he, ← hlast]
      exact hmade hr _ (prefix_refl _)
    · rename_i hne
      refine hextended.kept other fun pre hpre _ he => ?_
      rw [hbase, hdestNames] at *
      by_cases hall : pre = target.names ++ rel
      · exact absurd (by rw [he, hall, hlast]) hne
      · rw [he, habove pre hpre hall]
        simp
  | file bytes executable =>
    have hplace : v.place (rel.foldl Path.child target) = .ok (v.spot target ++ rel) := by
      refine (place_iff hdest.text_ne hdest.up hdest.names_ne).2 ⟨hspot.symm, ?_⟩
      rw [hdestNames, hbase]
      exact habove
    have hdir : v.isDirectory (rel.foldl Path.child target) = false := by
      simp [isDirectory, World.entry, hplace, hfresh, Except.toOption]
    have honto : ((v.place (rel.foldl Path.child source)).toOption == some (v.spot target ++ rel)) =
        false := by
      have horigin : (rel.foldl Path.child source).Straight := hs.foldl_child hnames
      cases hq : v.place (rel.foldl Path.child source) with
      | error fault => rfl
      | ok q =>
        obtain ⟨rfl, -⟩ := (place_iff horigin.text_ne horigin.up horigin.names_ne).1 hq
        rw [spot_foldl_child v source hnames]
        simpa [Except.toOption] using hapart
    have hne : v.spot target ++ rel ≠ [] := by simp [hrel]
    apply Act.Ends.get
    rw [hplace]
    dsimp only
    rw [hdir, honto]
    refine .setFiles ⟨rfl, fun other => ?_, rfl⟩
    simp only [Files.Tree.get?_put _ _ _ hne, eq_comm, Bool.false_eq_true, if_false]

/-- Entries that are listed after the directories they are in are all written. -/
theorem copyEntries_ends (hs : source.Straight) (ht : target.Straight) (todo : List (Place × Entry))
    (v : World) (hapart : v.spot source ≠ v.spot target) (hdistinct : (todo.map Prod.fst).Nodup)
    (hnames : ∀ e ∈ todo, e.1 ≠ [] ∧ ∀ n ∈ e.1, Path.IsName n)
    (hway : ∀ pre, pre <+: target.names → v.files.get? (v.base target ++ pre) = some .directory)
    (hup : ∀ done e rest, todo = done ++ e :: rest → ∀ up, up <+: e.1 → up ≠ e.1 →
      v.files.get? (v.spot target ++ up) = some .directory ∨ (up, .directory) ∈ done)
    (hfresh : ∀ e ∈ todo, v.files.get? (v.spot target ++ e.1) = none) :
    Act.Ends (copyEntries source target todo) v fun r v' =>
      r = .ok () ∧ (∀ e ∈ todo, v'.files.get? (v.spot target ++ e.1) = some e.2) ∧
      (∀ other, (∀ e ∈ todo, other ≠ v.spot target ++ e.1) →
      v'.files.get? other = v.files.get? other) ∧ v' = { v with files := v'.files } := by
  induction todo generalizing v with
  | nil => exact .pure ⟨rfl, by simp, fun _ _ => rfl, rfl⟩
  | cons e rest ih =>
    obtain ⟨hnew, hrest⟩ := nodup_cons.1 hdistinct
    obtain ⟨hne, hplain⟩ := hnames e mem_cons_self
    have hready : ∀ up, up <+: e.1 → up ≠ e.1 → v.files.get? (v.spot target ++ up) = some .directory := by
      intro up hpre hother
      simpa using hup [] e rest rfl up hpre hother
    refine .bind ((copyEntry_ends v hs ht hapart hne hplain hway hready (hfresh e mem_cons_self) e.2).weaken ?_)
    rintro r v₁ ⟨rfl, hget, hv₁⟩
    have hspot : ∀ p, v₁.spot p = v.spot p := fun p => by rw [hv₁]; rfl
    have hbase : ∀ p, v₁.base p = v.base p := fun p => by rw [hv₁]; rfl
    have hother : ∀ f ∈ rest, f.1 ≠ e.1 := fun f hf he => hnew (he ▸ mem_map_of_mem hf)
    -- what was a directory is one still: nothing was where the entry is now
    have hstill : ∀ place, v.files.get? place = some .directory →
        v₁.files.get? place = some .directory := by
      intro place hdir
      rw [hget, if_neg, hdir]
      rintro rfl
      rw [hfresh e mem_cons_self] at hdir
      cases hdir
    refine (ih v₁ (by rwa [hspot, hspot]) hrest (fun f hf => hnames f (mem_cons_of_mem _ hf)) ?_ ?_ ?_).weaken ?_
    · intro pre hpre
      rw [hbase]
      exact hstill _ (hway pre hpre)
    · intro done f after hsplit up hpre hne
      rw [hspot]
      rcases hup (e :: done) f after (by rw [hsplit]; rfl) up hpre hne with hdir | hmem
      · exact .inl (hstill _ hdir)
      · rcases mem_cons.1 hmem with he | hdone
        · left
          rw [hget, ← he, if_pos rfl]
        · exact .inr hdone
    · intro f hf
      rw [hspot, hget, if_neg (by simpa using hother f hf)]
      exact hfresh f (mem_cons_of_mem _ hf)
    · rintro r v' ⟨hr, hdone, hkept, hv'⟩
      rw [hspot] at hdone hkept
      refine ⟨hr, fun f hf => ?_, fun other hout => ?_, ?_⟩
      · rcases mem_cons.1 hf with rfl | hf
        · rw [hkept _ fun g hg => by simpa using Ne.symm (hother g hg), hget, if_pos rfl]
        · exact hdone f hf
      · rw [hkept other fun g hg => hout g (mem_cons_of_mem _ hg), hget, if_neg (hout e mem_cons_self)]
      · rw [hv', hv₁]

/-- A copy made where nothing was is the tree that was copied. Apart from it there are new
directories at most. -/
theorem copyDirectory_ends (hw : w.files.Proper) (hs : source.Straight) (ht : target.Straight)
    (hout : ¬ w.spot source <+: w.spot target) (hempty : w.files.get? (w.spot target) = none) :
    Act.Ends (copyDirectory source target) w fun r w' => r = .ok () →
      w.files.get? (w.spot source) = some .directory ∧
      (∀ rel, w'.files.get? (w.spot target ++ rel) = w.files.get? (w.spot source ++ rel)) ∧
      (∀ other, ¬ w.spot target <+: other → w'.files.get? other = w.files.get? other ∨
        w.files.get? other = none ∧ w'.files.get? other = some .directory) ∧
      w' = { w with files := w'.files } := by
  refine .bind ((ensureDirectory_ends w ht).weaken ?_)
  rintro (t | ⟨⟩) w₁ ⟨hextended, hmade, -⟩
  · intro h
    cases h
  have hway := hmade rfl
  have hw₁ := hextended.rest
  have hspot : ∀ p, w₁.spot p = w.spot p := fun p => by rw [hw₁]; rfl
  have hbase : ∀ p, w₁.base p = w.base p := fun p => by rw [hw₁]; rfl
  have hstays : ∀ rel, w₁.files.get? (w.spot source ++ rel) =
      w.files.get? (w.spot source ++ rel) := by
    intro rel
    refine hextended.kept _ fun pre hpre _ he => absurd ?_ hout
    have hprefix : w.base target ++ pre <+: w.spot target := (prefix_append_right_inj _).2 hpre
    exact ((prefix_append _ rel).trans (he ▸ prefix_refl _)).trans hprefix
  have hvoid : ∀ rel, rel ≠ [] → w₁.files.get? (w.spot target ++ rel) = none := by
    intro rel hrel
    rw [hextended.kept, hw.none_under hempty (prefix_append _ rel)]
    intro pre hpre _ he
    have hlength := congrArg List.length he
    have hshort := hpre.length_le
    have hpos := length_pos_iff.2 hrel
    simp only [spot, length_append] at hlength
    omega
  have hroot : w₁.files.get? (w.spot target) = some .directory := hway target.names (prefix_refl _)
  apply Act.Ends.get
  split
  case h_2 | h_3 => exact .throw fun h => by cases h
  rename_i names place hnames hplace
  obtain ⟨rfl, -⟩ := (place_iff hs.text_ne hs.up hs.names_ne).1 hplace
  have hdir : w.files.get? (w.spot source) = some .directory := by
    unfold World.names at hnames
    cases hentry : w₁.entry source with
    | error fault => simp [hentry] at hnames
    | ok e =>
      obtain ⟨hget, -⟩ := (entry_of_straight hs).1 hentry
      cases e with
      | file bytes executable => simp [hentry] at hnames
      | directory =>
        rw [hspot] at hget
        simpa using (hstays []).symm.trans (by simpa using hget)
  rw [hspot]
  have hdistinct₁ := (hextended.proper hw).distinct
  have hbelow : ∀ rel e, (rel, e) ∈ w₁.files.below (w.spot source) ↔
      rel ≠ [] ∧ w.files.get? (w.spot source ++ rel) = some e := by
    intro rel e
    rw [Files.Tree.mem_below_iff hdistinct₁, hstays]
  have hkeys : ((w₁.files.below (w.spot source)).map Prod.fst).Nodup :=
    Files.Tree.distinct_below hdistinct₁ _
  have hapart : w₁.spot source ≠ w₁.spot target := by
    rw [hspot, hspot]
    intro he
    exact hout (he ▸ prefix_refl _)
  refine (copyEntries_ends hs ht (w₁.files.below (w.spot source)) w₁ hapart hkeys ?_ ?_ ?_ ?_).weaken ?_
  · rintro ⟨rel, e⟩ he
    obtain ⟨hne, hget⟩ := (hbelow rel e).1 he
    exact ⟨hne, fun n hn => hw.isName hget n (mem_append_right _ hn)⟩
  · intro pre hpre
    rw [hbase]
    exact hway pre hpre
  · rintro done ⟨rel, e⟩ rest hsplit up hpre hne
    rw [hspot]
    by_cases hup : up = []
    · left
      simpa [hup] using hroot
    · right
      have hget := ((hbelow rel e).1 (by rw [hsplit]; simp)).2
      obtain ⟨last, rfl⟩ := hpre
      have hlast : last ≠ [] := fun he => hne (by simp [he])
      have hdirectory : w.files.get? (w.spot source ++ up) = some .directory := by
        refine hw.directory_above hlast ?_
        rw [append_assoc, hget]
        rfl
      have hlisted : (up, .directory) ∈ done ++ (up ++ last, e) :: rest := by
        rw [← hsplit]
        exact (hbelow up .directory).2 ⟨hup, hdirectory⟩
      have hsorted := Files.Tree.pairwise_below w₁.files (w.spot source)
      rw [hsplit, pairwise_append, pairwise_cons] at hsorted
      rcases mem_append.1 hlisted with hdone | hlater
      · exact hdone
      · rcases mem_cons.1 hlater with he | hrest
        · exact absurd (Prod.ext_iff.1 he).1 hne
        · exact absurd (Files.Tree.lt_of_prefix (prefix_append up last) hne) (hsorted.2.1.1 _ hrest)
  · rintro ⟨rel, e⟩ he
    rw [hspot]
    exact hvoid rel ((hbelow rel e).1 he).1
  · rintro r w' ⟨-, hwritten, hkept, hw'⟩ -
    rw [hspot] at hwritten hkept
    refine ⟨hdir, fun rel => ?_, fun other hother => ?_, by rw [hw', hw₁]⟩
    · by_cases hrel : rel = []
      · have hnone : ∀ f ∈ w₁.files.below (w.spot source), w.spot target ++ rel ≠ w.spot target ++ f.1 := by
          rintro ⟨k, e⟩ hf he
          have hk : k = [] := by simpa [hrel, eq_comm] using he
          exact ((hbelow k e).1 hf).1 hk
        rw [hkept _ hnone]
        simp only [hrel, append_nil]
        rw [hroot, hdir]
      · cases hget : w.files.get? (w.spot source ++ rel) with
        | some e => exact hwritten (rel, e) ((hbelow rel e).2 ⟨hrel, hget⟩)
        | none =>
          rw [hkept, hvoid rel hrel]
          rintro ⟨k, e⟩ hf he
          obtain rfl : rel = k := by simpa using he
          rw [((hbelow rel e).1 hf).2] at hget
          cases hget
    · have hsame : w'.files.get? other = w₁.files.get? other :=
        hkept other fun f _ he => hother (he ▸ prefix_append _ _)
      rw [hsame]
      by_cases hnew : ∃ pre, pre <+: target.names ∧ other = w.base target ++ pre ∧
        w.files.get? other = none
      · obtain ⟨pre, hpre, rfl, hnone⟩ := hnew
        exact .inr ⟨hnone, hway pre hpre⟩
      · exact .inl (hextended.kept other fun pre hpre _ he hnone => hnew ⟨pre, hpre, he, hnone⟩)

end Copy

end World
end CookbookAtlas
