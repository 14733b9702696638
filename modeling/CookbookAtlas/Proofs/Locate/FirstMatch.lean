import CookbookAtlas.Proofs.Files.Children
import CookbookAtlas.Proofs.Locate.Versioned

/-! The search for the files of a cookbook. Directories are searched in the order in which they are
given. Each of them is tried before the directories in it, and these are tried in path order; in
every directory of the cookbook the wanted files have an order of their own. What is found is the
first match in these three orders, and nothing is found only where there is no match. -/
namespace CookbookAtlas.Locate

open List

/-- A search through a list in order finds what belongs to the first element with a result. -/
theorem findSome?_of_pairwise {α β : Type} {R : α → α → Prop} (hasymm : ∀ a b, R a b → ¬ R b a)
    {l : List α} (hl : l.Pairwise R) {f : α → Option β} {b : β} :
    l.findSome? f = some b ↔ ∃ a ∈ l, f a = some b ∧ ∀ c ∈ l, R c a → f c = none := by
  constructor
  · intro h
    obtain ⟨before, a, after, rfl, ha, hbefore⟩ := List.findSome?_eq_some_iff.1 h
    refine ⟨a, by simp, ha, fun c hc hca => ?_⟩
    rcases mem_append.1 hc with hc | hc
    · exact hbefore c hc
    · rcases mem_cons.1 hc with rfl | hc
      · exact absurd hca (hasymm c c hca)
      · have hac : R a c := rel_of_pairwise_cons (pairwise_append.1 hl).2.1 hc
        exact absurd hca (hasymm a c hac)
  · rintro ⟨a, ha, hb, hfirst⟩
    cases hfound : l.findSome? f with
    | none => simp [List.findSome?_eq_none_iff.1 hfound a ha] at hb
    | some b' =>
      obtain ⟨before, a', after, rfl, ha', hbefore⟩ := List.findSome?_eq_some_iff.1 hfound
      rcases mem_append.1 ha with ha | ha
      · simp [hbefore a ha] at hb
      · rcases mem_cons.1 ha with rfl | ha
        · rw [← ha', hb]
        · have hsooner : R a' a := rel_of_pairwise_cons (pairwise_append.1 hl).2.1 ha
          simp [hfirst a' (by simp) hsooner] at ha'

section Directories

/-- The metadata of a directory declare a name: those in the script form if it is there, and in the
JSON form only if it is not. -/
inductive Declares (w : World) (dir : Path) (name : String) : Prop
  | script {cs : List Char} (hscript : w.isFile (dir.child "metadata.rb") = true)
    (htext : w.text (dir.child "metadata.rb") = .ok cs) (hname : (Metadata.ofScript cs).name = some name)
  | document {cs : List Char} {m : Metadata} (hscript : w.isFile (dir.child "metadata.rb") = false)
    (hdocument : w.isFile (dir.child "metadata.json") = true)
    (htext : w.text (dir.child "metadata.json") = .ok cs) (hread : Metadata.ofJson? cs = some m)
    (hname : m.name = some name)

theorem declaredName?_eq_some_iff {w : World} {dir : Path} {name : String} :
    declaredName? w dir = some name ↔ Declares w dir name := by
  unfold declaredName? metadata metadataScript metadataDocument
  constructor
  · intro h
    by_cases hscript : w.isFile (dir.child "metadata.rb") = true
    · cases htext : w.text (dir.child "metadata.rb") with
      | error fault => simp [hscript, htext] at h
      | ok cs => exact .script hscript htext (by simpa [hscript, htext] using h)
    · by_cases hdocument : w.isFile (dir.child "metadata.json") = true
      · cases htext : w.text (dir.child "metadata.json") with
        | error fault => simp [hscript, hdocument, htext] at h
        | ok cs =>
          cases hread : Metadata.ofJson? cs with
          | none => simp [hscript, hdocument, htext, hread] at h
          | some m =>
            exact .document (by simpa using hscript) hdocument htext hread
              (by simpa [hscript, hdocument, htext, hread] using h)
      · simp [hscript, hdocument] at h
  · rintro (⟨hscript, htext, hname⟩ | ⟨hscript, hdocument, htext, hread, hname⟩)
    · simp [hscript, htext, hname]
    · simp [hscript, hdocument, htext, hread, hname]

/-- A script that cannot be read declares nothing, and the JSON form beside it is not asked. -/
theorem declaredName?_of_unreadable {w : World} {dir : Path} {fault : SystemFault}
    (hscript : w.isFile (dir.child "metadata.rb") = true)
    (htext : w.text (dir.child "metadata.rb") = .error fault) : declaredName? w dir = none := by
  rw [Option.eq_none_iff_forall_ne_some]
  intro name hname
  rcases declaredName?_eq_some_iff.mp hname with ⟨-, hread, -⟩ | ⟨hnone, -⟩
  · rw [htext] at hread
    cases hread
  · rw [hscript] at hnone
    cases hnone

/-- The directory is called by the cookbook's name, or so with a version or an identifier behind it,
or its metadata declare the name. -/
def Matches (w : World) (dir : Path) (name : String) : Prop :=
  ∃ dirName, dir.fileName? = some dirName ∧
    (dirName = name ∨ (∃ suffix : String, Version.isSuffix suffix.toList = true ∧
    dirName = name ++ "-" ++ suffix) ∨
      Declares w dir name)

/-- `d` is a directory of the cookbook `name`, and it is `dir` or lies right in it. -/
def Offers (w : World) (name : String) (dir d : Path) : Prop :=
  (w.isDirectory d = true ∧ d = dir ∨ w.IsSubdirectory dir d) ∧ Matches w d name

/-- At `dir`, the directory `d` is tried before `e`: `dir` itself before those in it, and these in
path order. -/
def Sooner (dir d e : Path) : Prop := e ≠ dir ∧ (d = dir ∨ d.Before e)

theorem Sooner.asymm {dir d e : Path} (h : Sooner dir d e) : ¬ Sooner dir e d := by
  rintro ⟨hd, he⟩
  exact (h.2.resolve_left hd).asymm (he.resolve_left h.1)

theorem isCookbook_iff {w : World} {dir : Path} {name : String} :
    isCookbook w dir name = true ↔ Matches w dir name := by
  unfold isCookbook Matches
  cases dir.fileName? with
  | none => simp
  | some dirName =>
    simp only [Bool.or_eq_true, beq_iff_eq, isVersioned_iff, declaredName?_eq_some_iff,
      Option.some.injEq, exists_eq_left', or_assoc]

variable {w : World}

theorem mem_cookbookDirs_iff (hw : w.files.Proper) {dir d : Path} {name : String} :
    d ∈ cookbookDirs w dir name ↔ Offers w name dir d := by
  have hself : d ∈ (if w.isDirectory dir && isCookbook w dir name then [dir] else []) ↔
      (w.isDirectory d = true ∧ d = dir) ∧ Matches w d name := by
    rw [← isCookbook_iff]
    by_cases hd : d = dir
    · subst hd
      by_cases hdir : w.isDirectory d = true <;> simp [hdir]
    · split <;> simp [hd]
  unfold cookbookDirs Offers
  rw [mem_append, hself, mem_filter, World.mem_childDirectories_iff hw, isCookbook_iff, or_and_right]

theorem pairwise_cookbookDirs (hw : w.files.Proper) (dir : Path) (name : String) :
    (cookbookDirs w dir name).Pairwise (Sooner dir) := by
  have hinside : ∀ d ∈ w.childDirectories dir, d ≠ dir :=
    fun d hd => ((World.mem_childDirectories_iff hw).1 hd).ne
  apply pairwise_append.2
  refine ⟨?_, ?_, ?_⟩
  · split <;> simp
  · apply List.Pairwise.filter
    refine (World.pairwise_childDirectories hw dir).imp_of_mem fun {d e} hd he hbefore => ?_
    exact ⟨hinside e he, .inr hbefore⟩
  · intro d hd e he
    refine ⟨hinside e (mem_of_mem_filter he), .inl ?_⟩
    split at hd <;> simp at hd
    exact hd

end Directories

section Files

def Holds (w : World) (relatives : List String) (d : Path) : Prop :=
  ∃ r ∈ relatives, w.isFile (d.join ⟨r⟩) = true

/-- `file` is the first match of a search: of the files `relatives`, it is the first one that its
directory holds, and no directory of the cookbook that is tried before holds any of them. -/
def IsFirst (w : World) (name : String) (relatives : List String) (dirs : List Path) (file : Path) :
    Prop :=
  ∃ dir d relative, file = d.join ⟨relative⟩ ∧ w.isFile file = true ∧ Offers w name dir d ∧
    (∃ earlier later, dirs = earlier ++ dir :: later ∧
      ∀ e ∈ earlier, ∀ d', Offers w name e d' → ¬ Holds w relatives d') ∧
    (∀ d', Offers w name dir d' → Sooner dir d' d → ¬ Holds w relatives d') ∧
    (∃ preferred others, relatives = preferred ++ relative :: others ∧
      ∀ r ∈ preferred, w.isFile (d.join ⟨r⟩) = false)

variable {w : World} {name : String} {relatives : List String}

def heldFile? (w : World) (relatives : List String) (d : Path) : Option Path :=
  (relatives.map fun relative => d.join ⟨relative⟩).find? w.isFile

theorem heldFile?_eq_none_iff {d : Path} :
    heldFile? w relatives d = none ↔ ¬ Holds w relatives d := by
  simp [heldFile?, Holds]

theorem heldFile?_eq_some_iff {d file : Path} :
    heldFile? w relatives d = some file ↔
    ∃ relative, file = d.join ⟨relative⟩ ∧ w.isFile file = true ∧
      ∃ preferred others, relatives = preferred ++ relative :: others ∧
        ∀ r ∈ preferred, w.isFile (d.join ⟨r⟩) = false := by
  rw [heldFile?, List.find?_eq_some_iff_append]
  constructor
  · rintro ⟨hfile, before, after, hsplit, hbefore⟩
    obtain ⟨preferred, rest, hrelatives, rfl, hrest⟩ := map_eq_append_iff.1 hsplit
    obtain ⟨relative, others, rfl, hjoin, -⟩ := map_eq_cons_iff.1 hrest
    exact ⟨relative, hjoin.symm, hfile, preferred, others, hrelatives, by simpa using hbefore⟩
  · rintro ⟨relative, rfl, hfile, preferred, others, rfl, hpreferred⟩
    exact ⟨hfile, _, _, map_append, by simpa using hpreferred⟩

theorem findSome?_cookbookDirs (hw : w.files.Proper) {dir file : Path} :
    (cookbookDirs w dir name).findSome? (heldFile? w relatives) = some file ↔
      ∃ d, Offers w name dir d ∧ heldFile? w relatives d = some file ∧
        ∀ d', Offers w name dir d' → Sooner dir d' d → ¬ Holds w relatives d' := by
  rw [findSome?_of_pairwise (fun _ _ => Sooner.asymm) (pairwise_cookbookDirs hw dir name)]
  simp only [mem_cookbookDirs_iff hw, heldFile?_eq_none_iff]

theorem findSome?_cookbookDirs_eq_none (hw : w.files.Proper) {dir : Path} :
    (cookbookDirs w dir name).findSome? (heldFile? w relatives) = none ↔
      ∀ d, Offers w name dir d → ¬ Holds w relatives d := by
  simp only [List.findSome?_eq_none_iff, mem_cookbookDirs_iff hw, heldFile?_eq_none_iff]

theorem fileIn?_eq_none_iff (hw : w.files.Proper) {dirs : List Path} :
    fileIn? w name dirs relatives = none ↔
    ∀ dir ∈ dirs, ∀ d, Offers w name dir d → ¬ Holds w relatives d := by
  change dirs.findSome? (fun dir => (cookbookDirs w dir name).findSome? (heldFile? w relatives)) =
    none ↔ _
  simp only [List.findSome?_eq_none_iff (l := dirs), findSome?_cookbookDirs_eq_none hw]

theorem fileIn?_eq_some_iff (hw : w.files.Proper) {dirs : List Path} {file : Path} :
    fileIn? w name dirs relatives = some file ↔ IsFirst w name relatives dirs file := by
  change dirs.findSome? (fun dir => (cookbookDirs w dir name).findSome? (heldFile? w relatives)) =
    some file ↔ _
  simp only [List.findSome?_eq_some_iff, findSome?_cookbookDirs hw, heldFile?_eq_some_iff,
    findSome?_cookbookDirs_eq_none hw]
  constructor
  · rintro ⟨earlier, dir, later, hdirs,
      ⟨d, hoffers, ⟨relative, hfile, hisFile, hpreferred⟩, hsooner⟩, hearlier⟩
    exact ⟨dir, d, relative, hfile, hisFile, hoffers, ⟨earlier, later, hdirs, hearlier⟩, hsooner,
      hpreferred⟩
  · rintro ⟨dir, d, relative, hfile, hisFile, hoffers, ⟨earlier, later, hdirs, hearlier⟩, hsooner,
      hpreferred⟩
    exact ⟨earlier, dir, later, hdirs,
      ⟨d, hoffers, ⟨relative, hfile, hisFile, hpreferred⟩, hsooner⟩, hearlier⟩

end Files

/-- The files that a recipe may stand in, in order of preference. -/
def recipePaths (recipe : String) : List String :=
  ["recipes/" ++ recipe ++ ".rb", "recipes/" ++ recipe ++ ".yml", "recipes/" ++ recipe ++ ".yaml"]

theorem recipeFile?_eq_fileIn? (w : World) (dirs : List Path) (n : RecipeName) :
    recipeFile? w dirs n = fileIn? w n.cookbook.text dirs (recipePaths n.recipe) := by
  simp [recipeFile?, recipeExtensions, recipePaths, String.append_assoc]

/-- More directories are searched only where the first ones have no match; so it is for recipes, for
attributes and for cookbooks themselves. A recipe is not found exactly if no directory of its
cookbook, among those given and those in them, holds one of its files; otherwise the first match is
found. -/
theorem recipe_first_match {w : World} (hw : w.files.Proper) (n : RecipeName) (dirs : List Path) :
    (∀ more, recipeFile? w (dirs ++ more) n = (recipeFile? w dirs n).or (recipeFile? w more n)) ∧
    (∀ more c, attributesFile? w (dirs ++ more) c = (attributesFile? w dirs c).or (attributesFile? w more c)) ∧
    (∀ more c, cookbookDir? w (dirs ++ more) c = (cookbookDir? w dirs c).or (cookbookDir? w more c)) ∧
    (recipeFile? w dirs n = none ↔
      ∀ dir ∈ dirs, ∀ d, Offers w n.cookbook.text dir d → ¬ Holds w (recipePaths n.recipe) d) ∧
    ∀ file, recipeFile? w dirs n = some file ↔
      IsFirst w n.cookbook.text (recipePaths n.recipe) dirs file := by
  refine ⟨fun more => List.findSome?_append, fun more c => List.findSome?_append,
    fun more c => List.findSome?_append, ?_, fun file => ?_⟩
  · rw [recipeFile?_eq_fileIn?]
    exact fileIn?_eq_none_iff hw
  · rw [recipeFile?_eq_fileIn?]
    exact fileIn?_eq_some_iff hw

/-- A cookbook without recipes in one directory, and with a version but without recipes in the next.
Its recipes are in a directory with another name, whose two metadata files disagree. -/
def layered : World :=
  ⟨⟨[(["first"], .directory), (["first", "app"], .directory), (["second"], .directory),
    (["second", "app-1.0.0"], .directory), (["third"], .directory),
    (["third", "legacy"], .directory),
    (["third", "legacy", "metadata.json"],
    .file (Text.Utf8.encode "\x7b\"name\":\"old\"\x7d".toList) false),
    (["third", "legacy", "metadata.rb"], .file (Text.Utf8.encode "name 'app'\n".toList) false),
    (["third", "legacy", "recipes"], .directory),
    (["third", "legacy", "recipes", "default.yaml"], .file [] false),
    (["third", "legacy", "recipes", "default.yml"], .file [] false)]⟩, [], [], [], []⟩

theorem layered_first_match :
    layered.files.Proper ∧ Offers layered "app" ⟨"/first"⟩ ⟨"/first/app"⟩ ∧
    Offers layered "app" ⟨"/second"⟩ ⟨"/second/app-1.0.0"⟩ ∧
    Declares layered ⟨"/third/legacy"⟩ "app" ∧
    recipeFile? layered [⟨"/first"⟩, ⟨"/second"⟩, ⟨"/third"⟩] ⟨⟨"app"⟩, "default"⟩ =
      some ⟨"/third/legacy/recipes/default.yml"⟩ ∧
    IsFirst layered "app" ["recipes/default.rb", "recipes/default.yml", "recipes/default.yaml"]
      [⟨"/first"⟩, ⟨"/second"⟩, ⟨"/third"⟩] ⟨"/third/legacy/recipes/default.yml"⟩ := by
  have hproper : layered.files.Proper := ⟨by decide, by decide, by decide⟩
  have hoffers : Offers layered "app" ⟨"/first"⟩ ⟨"/first/app"⟩ :=
    (mem_cookbookDirs_iff hproper).1 (by decide +kernel)
  have hversioned : Offers layered "app" ⟨"/second"⟩ ⟨"/second/app-1.0.0"⟩ :=
    (mem_cookbookDirs_iff hproper).1 (by decide +kernel)
  have hdeclares : Declares layered ⟨"/third/legacy"⟩ "app" :=
    declaredName?_eq_some_iff.1 (by decide +kernel)
  have hbefore : recipeFile? layered [⟨"/first"⟩, ⟨"/second"⟩] ⟨⟨"app"⟩, "default"⟩ = none := by
    decide +kernel
  have hthird : recipeFile? layered [⟨"/third"⟩] ⟨⟨"app"⟩, "default"⟩ =
      some ⟨"/third/legacy/recipes/default.yml"⟩ := by decide +kernel
  have hfound : recipeFile? layered [⟨"/first"⟩, ⟨"/second"⟩, ⟨"/third"⟩] ⟨⟨"app"⟩, "default"⟩ =
      some ⟨"/third/legacy/recipes/default.yml"⟩ := by
    have happend := (recipe_first_match hproper ⟨⟨"app"⟩, "default"⟩ [⟨"/first"⟩, ⟨"/second"⟩]).1 [⟨"/third"⟩]
    rw [hbefore, hthird] at happend
    exact happend
  have hmatch := ((recipe_first_match hproper ⟨⟨"app"⟩, "default"⟩
    [⟨"/first"⟩, ⟨"/second"⟩, ⟨"/third"⟩]).2.2.2.2 _).1 hfound
  exact ⟨hproper, hoffers, hversioned, hdeclares, hfound, hmatch⟩

end CookbookAtlas.Locate
