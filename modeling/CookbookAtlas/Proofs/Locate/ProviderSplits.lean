import CookbookAtlas.Proofs.Locate.FirstMatch

/-! Files of custom resources. The name of a resource type is split at each of its underscores into
a cookbook and a provider; the search takes the shortest cookbook name that has a match, wherever
the directory of that cookbook stands in the list. -/
namespace CookbookAtlas

namespace ProviderName

/-- The name is the two parts with an underscore between them, and neither part is empty. -/
def IsSplit (n : ProviderName) (a b : String) : Prop := a ≠ "" ∧ b ≠ "" ∧ a ++ "_" ++ b = n.text

theorem mem_splitsFrom_iff {before cs : List Char} {a b : String} :
    (a, b) ∈ splitsFrom before cs ↔
      a ≠ "" ∧ b ≠ "" ∧ ∃ mid, a.toList = before.reverse ++ mid ∧ cs = mid ++ '_' :: b.toList := by
  induction cs generalizing before with
  | nil => simp [splitsFrom]
  | cons c rest ih =>
    have hlater : (a, b) ∈ splitsFrom (c :: before) rest ↔
        a ≠ "" ∧ b ≠ "" ∧ ∃ mid, a.toList = before.reverse ++ c :: mid ∧
        c :: rest = c :: mid ++ '_' :: b.toList := by
      simpa using @ih (c :: before)
    have hhere : (c = '_' ∧ before ≠ [] ∧ rest ≠ []) ∧
        (a, b) = (String.ofList before.reverse, String.ofList rest) ↔
        a ≠ "" ∧ b ≠ "" ∧ a.toList = before.reverse ++ [] ∧ c :: rest = '_' :: b.toList := by
      constructor
      · rintro ⟨⟨rfl, hbefore, hrest⟩, hab⟩
        cases hab
        simp [hbefore, hrest]
      · rintro ⟨ha, hb, hbefore, hcs⟩
        obtain ⟨rfl, rfl⟩ := List.cons.inj hcs
        rw [List.append_nil] at hbefore
        refine ⟨⟨rfl, ?_, by simpa using hb⟩, by rw [← hbefore]; simp⟩
        rintro rfl
        exact ha (String.toList_injective hbefore)
    have hcases : (a, b) ∈ splitsFrom before (c :: rest) ↔
        ((c = '_' ∧ before ≠ [] ∧ rest ≠ []) ∧
        (a, b) = (String.ofList before.reverse, String.ofList rest)) ∨
          (a, b) ∈ splitsFrom (c :: before) rest := by
      rw [splitsFrom]
      split <;> simp_all
    rw [hcases, hhere, hlater]
    constructor
    · rintro (⟨ha, hb, hbefore, hcs⟩ | ⟨ha, hb, mid, hbefore, hcs⟩)
      · exact ⟨ha, hb, [], hbefore, hcs⟩
      · exact ⟨ha, hb, c :: mid, hbefore, hcs⟩
    · rintro ⟨ha, hb, mid, hbefore, hcs⟩
      cases mid with
      | nil => exact .inl ⟨ha, hb, hbefore, hcs⟩
      | cons m mid =>
        obtain ⟨rfl, -⟩ := List.cons.inj hcs
        exact .inr ⟨ha, hb, mid, hbefore, hcs⟩

theorem mem_splits_iff {n : ProviderName} {a b : String} : (a, b) ∈ n.splits ↔ n.IsSplit a b := by
  have htext : a ++ "_" ++ b = n.text ↔ n.text.toList = a.toList ++ '_' :: b.toList := by
    rw [← String.toList_inj, eq_comm]
    simp
  rw [splits, mem_splitsFrom_iff, IsSplit, htext]
  simp

theorem pairwise_splitsFrom (before cs : List Char) :
    (splitsFrom before cs).Pairwise fun x y => x.1.length < y.1.length := by
  induction cs generalizing before with
  | nil => exact .nil
  | cons c rest ih =>
    rw [splitsFrom]
    split
    · refine List.pairwise_cons.2 ⟨?_, ih (c :: before)⟩
      rintro ⟨a, b⟩ hmem
      obtain ⟨-, -, mid, ha, -⟩ := mem_splitsFrom_iff.1 hmem
      have hlength : a.length = before.length + (mid.length + 1) := by
        rw [← String.length_toList, ha]
        simp
      simp only [String.length_ofList, List.length_reverse]
      omega
    · exact ih (c :: before)

end ProviderName

namespace Locate

variable {w : World}

/-- The files that a provider may stand in, in order of preference. -/
def providerPaths (provider : String) : List String :=
  ["providers/" ++ provider ++ ".rb", "resources/" ++ provider ++ ".rb"]

theorem fileIn?_isSome_iff (hw : w.files.Proper) {name : String} {dirs : List Path}
    {relatives : List String} :
    (fileIn? w name dirs relatives).isSome = true ↔
    ∃ dir ∈ dirs, ∃ d, Offers w name dir d ∧ Holds w relatives d := by
  rw [Option.isSome_iff_ne_none, ne_eq, fileIn?_eq_none_iff hw]
  simp

/-- The splits of a name are all the ways to write it as two parts, neither empty, with an
underscore between them; they are listed by the length of the first part, each once. A file is found
exactly if a directory of the first part holds a file of the second one for some split. It is the
first match for the split with the shortest first part that has a match, whatever directory of the
list that is in. -/
theorem provider_shortest_split (hw : w.files.Proper) (n : ProviderName) (dirs : List Path) :
    (∀ a b, (a, b) ∈ n.splits ↔ n.IsSplit a b) ∧ n.splits.Nodup ∧
    n.splits.Pairwise (fun x y => x.1.length < y.1.length) ∧
    ((providerFile? w dirs n).isSome = true ↔
      ∃ a b, n.IsSplit a b ∧ ∃ dir ∈ dirs, ∃ d, Offers w a dir d ∧ Holds w (providerPaths b) d) ∧
    ∀ file, providerFile? w dirs n = some file ↔
      ∃ a b, n.IsSplit a b ∧ IsFirst w a (providerPaths b) dirs file ∧
        ∀ a' b', n.IsSplit a' b' → a'.length < a.length →
          ∀ dir ∈ dirs, ∀ d, Offers w a' dir d → ¬ Holds w (providerPaths b') d := by
  have hordered : n.splits.Pairwise fun x y => x.1.length < y.1.length :=
    ProviderName.pairwise_splitsFrom [] n.text.toList
  have honce : n.splits.Nodup := by
    refine hordered.imp fun {x y} hlt => ?_
    rintro rfl
    exact Nat.lt_irrefl _ hlt
  have hsearch : providerFile? w dirs n =
      n.splits.findSome? fun s => fileIn? w s.1 dirs (providerPaths s.2) := rfl
  refine ⟨fun a b => ProviderName.mem_splits_iff, honce, hordered, ?_, fun file => ?_⟩
  · simp only [hsearch, List.findSome?_isSome_iff, fileIn?_isSome_iff hw, Prod.exists,
      ProviderName.mem_splits_iff]
  · rw [hsearch, findSome?_of_pairwise (fun _ _ => Nat.lt_asymm) hordered]
    simp only [Prod.exists, Prod.forall, ProviderName.mem_splits_iff, fileIn?_eq_some_iff hw,
      fileIn?_eq_none_iff hw]

/-- The longer cookbook name has a match in the first directory, the shorter one in the second. -/
def crossed : World :=
  ⟨⟨[(["one"], .directory), (["one", "my_app"], .directory), (["one", "my_app", "resources"], .directory),
    (["one", "my_app", "resources", "vhost.rb"], .file [] false), (["two"], .directory),
    (["two", "my"], .directory), (["two", "my", "providers"], .directory),
    (["two", "my", "providers", "app_vhost.rb"], .file [] false)]⟩, [], [], [], []⟩

theorem crossed_shortest_split :
    crossed.files.Proper ∧ Offers crossed "my_app" ⟨"/one"⟩ ⟨"/one/my_app"⟩ ∧
    Holds crossed (providerPaths "vhost") ⟨"/one/my_app"⟩ ∧
    providerFile? crossed [⟨"/one"⟩, ⟨"/two"⟩] ⟨"my_app_vhost"⟩ =
      some ⟨"/two/my/providers/app_vhost.rb"⟩ ∧
    ∃ a b, (⟨"my_app_vhost"⟩ : ProviderName).IsSplit a b ∧
      IsFirst crossed a (providerPaths b) [⟨"/one"⟩, ⟨"/two"⟩] ⟨"/two/my/providers/app_vhost.rb"⟩ := by
  have hproper : crossed.files.Proper := ⟨by decide, by decide, by decide⟩
  have hoffers : Offers crossed "my_app" ⟨"/one"⟩ ⟨"/one/my_app"⟩ :=
    (mem_cookbookDirs_iff hproper).1 (by decide +kernel)
  have hholds : Holds crossed (providerPaths "vhost") ⟨"/one/my_app"⟩ :=
    ⟨"resources/vhost.rb", by decide, by decide +kernel⟩
  have hfound : providerFile? crossed [⟨"/one"⟩, ⟨"/two"⟩] ⟨"my_app_vhost"⟩ =
      some ⟨"/two/my/providers/app_vhost.rb"⟩ := by decide +kernel
  obtain ⟨-, -, -, -, hmatch⟩ :=
    provider_shortest_split hproper ⟨"my_app_vhost"⟩ [⟨"/one"⟩, ⟨"/two"⟩]
  obtain ⟨a, b, hsplit, hfirst, -⟩ := (hmatch _).1 hfound
  exact ⟨hproper, hoffers, hholds, hfound, a, b, hsplit, hfirst⟩

end Locate
end CookbookAtlas
