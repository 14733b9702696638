import CookbookAtlas.Execution.Build
import CookbookAtlas.Proofs.Name.RoundTrip
import CookbookAtlas.Proofs.Path.Components

/-! Cookbook directories with a version or an identifier behind the name. The name of the cookbook
is told from the front when its directory is looked for and from the back when its recipes are
displayed; both agree exactly for the suffixes that hold no dash. -/
namespace CookbookAtlas

open List CookbookAtlas.Path
variable {mark : Char} {cs : List Char} {name suffix : String}

namespace Text

theorem splitLast?_of_not_mem (h : mark ∉ cs) : splitLast? mark cs = none := by
  induction cs with
  | nil => rfl
  | cons c cs ih =>
    have hc : c ≠ mark := fun he => h (he ▸ mem_cons_self)
    have hrest : splitLast? mark cs = none := ih fun hmem => h (mem_cons_of_mem _ hmem)
    simp [splitLast?, hrest, hc]

theorem splitLast?_append (xs : List Char) {ys : List Char} (h : mark ∉ ys) :
    splitLast? mark (xs ++ mark :: ys) = some (xs, ys) := by
  induction xs with
  | nil => simp [splitLast?, splitLast?_of_not_mem h]
  | cons x xs ih => simp [splitLast?, ih]

theorem exists_last (h : mark ∈ cs) :
    ∃ before after, cs = before ++ mark :: after ∧ mark ∉ after := by
  induction cs with
  | nil => simp at h
  | cons c cs ih =>
    by_cases hmem : mark ∈ cs
    · obtain ⟨before, after, hcs, hafter⟩ := ih hmem
      exact ⟨c :: before, after, by simp [hcs], hafter⟩
    · have hc : mark = c := by simpa [hmem] using h
      exact ⟨[], cs, by simp [hc], hmem⟩

theorem mem_field_of_mem (mark : Char) {c : Char} (h : c ∈ cs) :
    c = mark ∨ ∃ field ∈ splitOnChar mark cs, c ∈ field := by
  induction cs with
  | nil => simp at h
  | cons d cs ih =>
    by_cases hd : d = mark
    · have hfields : splitOnChar mark (d :: cs) = [] :: splitOnChar mark cs := by simp [splitOnChar, hd]
      rcases mem_cons.1 h with rfl | hmem
      · exact .inl hd
      · rcases ih hmem with hc | ⟨field, hfield, hc⟩
        · exact .inl hc
        · exact .inr ⟨field, by simp [hfields, hfield], hc⟩
    · obtain ⟨first, rest, hcs⟩ := exists_cons_of_ne_nil (splitOnChar_ne_nil mark cs)
      have hfields : splitOnChar mark (d :: cs) = (d :: first) :: rest := by simp [splitOnChar, hd, hcs]
      rcases mem_cons.1 h with rfl | hmem
      · exact .inr ⟨c :: first, by simp [hfields], by simp⟩
      · rcases ih hmem with hc | ⟨field, hfield, hc⟩
        · exact .inl hc
        · rcases mem_cons.1 (hcs ▸ hfield) with rfl | hfield
          · exact .inr ⟨d :: field, by simp [hfields], by simp [hc]⟩
          · exact .inr ⟨field, by simp [hfields, hfield], hc⟩

end Text

namespace Version

def isSuffixChar (c : Char) : Bool := isLabelChar c || Text.isDecimal c || c == '.' || c == '+'

theorem isSuffixChar_of_fields {p : List Char → Bool}
    (hall : (Text.splitOnChar '.' cs).all p = true)
    (hp : ∀ field, p field = true → ∀ c ∈ field, isSuffixChar c = true) :
    ∀ c ∈ cs, isSuffixChar c = true := by
  intro c hc
  rcases Text.mem_field_of_mem '.' hc with rfl | ⟨field, hfield, hmem⟩
  · decide
  · exact hp field (all_eq_true.1 hall field hfield) c hmem

theorem isSuffixChar_of_isBuildLabel {field : List Char} (h : isBuildLabel field = true) :
    ∀ c ∈ field, isSuffixChar c = true := by
  intro c hc
  simp only [isBuildLabel, Bool.and_eq_true, all_eq_true] at h
  simp [isSuffixChar, h.2 c hc]

theorem isSuffixChar_of_isReleaseLabel {field : List Char} (h : isReleaseLabel field = true) :
    ∀ c ∈ field, isSuffixChar c = true := by
  simp only [isReleaseLabel, Bool.and_eq_true] at h
  exact isSuffixChar_of_isBuildLabel h.1

theorem isSuffixChar_of_isTail (h : isTail cs = true) : ∀ c ∈ cs, isSuffixChar c = true := by
  unfold isTail at h
  split at h
  · simp
  · rename_i rest
    have hrest : ∀ c ∈ rest, isSuffixChar c = true := by
      split at h
      · rename_i release build hsplit
        simp only [Bool.and_eq_true] at h
        have hrelease := isSuffixChar_of_fields h.1 fun _ => isSuffixChar_of_isReleaseLabel
        have hbuild := isSuffixChar_of_fields h.2 fun _ => isSuffixChar_of_isBuildLabel
        intro c hc
        rw [Text.eq_of_splitFirst? hsplit, append_assoc, singleton_append] at hc
        rcases mem_append.1 hc with hc | hc
        · exact hrelease c hc
        · rcases mem_cons.1 hc with rfl | hc
          · decide
          · exact hbuild c hc
      · exact isSuffixChar_of_fields h fun _ => isSuffixChar_of_isReleaseLabel
    intro c hc
    rcases mem_cons.1 hc with rfl | hc
    · decide
    · exact hrest c hc
  · rename_i build
    have hbuild := isSuffixChar_of_fields h fun _ => isSuffixChar_of_isBuildLabel
    intro c hc
    rcases mem_cons.1 hc with rfl | hc
    · decide
    · exact hbuild c hc
  · cases h

theorem isSuffixChar_of_isSemantic (h : isSemantic cs = true) :
    ∀ c ∈ cs, isSuffixChar c = true := by
  let core := cs.takeWhile fun c => Text.isAsciiDigit c || c == '.'
  have htail : isTail (cs.drop core.length) = true := by
    simp only [isSemantic, Bool.and_eq_true] at h
    exact h.2
  have hcs : core ++ cs.drop core.length = cs := prefix_iff_eq_append.1 (List.takeWhile_prefix _)
  intro c hc
  rw [← hcs] at hc
  rcases mem_append.1 hc with hc | hc
  · have hdigit := mem_takeWhile_imp hc
    rcases Bool.or_eq_true_iff.1 hdigit with hd | hd
    · simp [isSuffixChar, isLabelChar, Text.isAsciiAlphanumeric, hd]
    · simp [isSuffixChar, hd]
  · exact isSuffixChar_of_isTail htail c hc

/-- Versions of numbers and points are written without a dash, in whatever digits. -/
theorem dashless_of_isDotted (h : isDotted cs = true) :
    ∀ c ∈ cs, isSuffixChar c = true ∧ c ≠ '-' := by
  intro c hc
  rcases Text.mem_field_of_mem '.' hc with rfl | ⟨field, hfield, hmem⟩
  · decide
  · have hall := all_eq_true.1 h field hfield
    simp only [Bool.and_eq_true, all_eq_true] at hall
    have hdecimal : Text.isDecimal c = true := hall.2 c hmem
    refine ⟨by simp [isSuffixChar, hdecimal], ?_⟩
    rintro rfl
    revert hdecimal
    decide

theorem dashless_of_isDigest (h : isDigest cs = true) :
    ∀ c ∈ cs, isSuffixChar c = true ∧ c ≠ '-' := by
  intro c hc
  simp only [isDigest, Bool.and_eq_true, all_eq_true] at h
  have hhex : isLowerHex c = true := h.2 c hc
  refine ⟨?_, ?_⟩
  · simp only [isLowerHex, Bool.or_eq_true, Bool.and_eq_true, decide_eq_true_eq] at hhex
    rcases hhex with hd | ⟨ha, hf⟩
    · simp [isSuffixChar, isLabelChar, Text.isAsciiAlphanumeric, hd]
    · have hz : c ≤ 'z' := Char.le_trans hf (by decide)
      simp [isSuffixChar, isLabelChar, Text.isAsciiAlphanumeric, Text.isAsciiAlphabetic,
        Text.isAsciiLower, ha, hz]
  · rintro rfl
    revert hhex
    decide

theorem isSuffixChar_of_isSuffix (h : isSuffix cs = true) : ∀ c ∈ cs, isSuffixChar c = true := by
  simp only [isSuffix, Bool.or_eq_true] at h
  rcases h with (hsemantic | hdotted) | hdigest
  · exact isSuffixChar_of_isSemantic hsemantic
  · exact fun c hc => (dashless_of_isDotted hdotted c hc).1
  · exact fun c hc => (dashless_of_isDigest hdigest c hc).1

end Version

namespace Execution

/-- What follows the last cookbook folder is found whatever stands before. -/
theorem afterFolder_last (above : Option String) (before : List String) {folder next : String}
    {rest : List String} (hfolder : cookbookFolders.contains folder = true)
    (hrest : ∀ c ∈ next :: rest, cookbookFolders.contains c = false) :
    afterFolder above (before ++ folder :: next :: rest) = some next := by
  induction before generalizing above with
  | nil =>
    have hkeep : ∀ (cs : List String) (found : Option String),
        (∀ c ∈ cs, cookbookFolders.contains c = false) → afterFolder found cs = found := by
      intro cs
      induction cs with
      | nil => exact fun _ _ => rfl
      | cons c cs ih =>
        intro found hcs
        rw [afterFolder, hcs c mem_cons_self]
        exact ih found fun d hd => hcs d (mem_cons_of_mem _ hd)
    rw [nil_append, afterFolder, hfolder]
    exact hkeep (next :: rest) (some next) hrest
  | cons c before ih => exact ih _

/-- The name in front of a suffix is told exactly if the suffix holds no dash. -/
theorem withoutSuffix_eq_iff (hname : name ≠ "") (hsuffix : Version.isSuffix suffix.toList = true) :
    withoutSuffix (name ++ "-" ++ suffix) = name ↔ '-' ∉ suffix.toList := by
  have hchars : (name ++ "-" ++ suffix).toList = name.toList ++ '-' :: suffix.toList := by simp
  have hne : name.toList.isEmpty = false := by simpa using hname
  constructor
  · intro hwithout hdash
    obtain ⟨before, after, hsplit, hafter⟩ := Text.exists_last hdash
    have hlast : Text.splitLast? '-' (name ++ "-" ++ suffix).toList =
        some (name.toList ++ '-' :: before, after) := by
      rw [hchars, hsplit]
      simpa using Text.splitLast?_append (name.toList ++ '-' :: before) hafter
    -- what is cut off is too short, so what is left is longer than the name
    have hlonger : ∀ cs : List Char, String.ofList (name.toList ++ '-' :: cs) ≠ name := by
      intro cs he
      have hlength := congrArg (fun s => s.toList.length) he
      simp at hlength
    rw [withoutSuffix, hlast] at hwithout
    dsimp only at hwithout
    split at hwithout
    · exact hlonger before hwithout
    · refine hlonger suffix.toList ?_
      rw [← hchars, String.ofList_toList]
      exact hwithout
  · intro hdash
    have hlast : Text.splitLast? '-' (name ++ "-" ++ suffix).toList =
        some (name.toList, suffix.toList) := by
      rw [hchars]
      exact Text.splitLast?_append name.toList hdash
    rw [withoutSuffix, hlast]
    simp [hsuffix, hname]

end Execution

namespace Locate

open Execution

/-- The directory of a cookbook with a suffix, in the folder `cookbooks`. -/
def versionedDir (base : Path) (n : CookbookName) (suffix : String) : Path :=
  (base.child "cookbooks").child (n.text ++ "-" ++ suffix)

def recipeIn (dir : Path) (recipe : String) : Path := (dir.child "recipes").child (recipe ++ ".rb")

theorem isVersioned_iff {dirName : String} :
    isVersioned dirName name = true ↔
      ∃ suffix : String, Version.isSuffix suffix.toList = true ∧
      dirName = name ++ "-" ++ suffix := by
  have hchars : ∀ suffix : List Char, dirName.toList = (name.toList ++ ['-']) ++ suffix ↔
      dirName = name ++ "-" ++ String.ofList suffix := by
    intro suffix
    rw [← String.toList_inj]
    simp
  unfold isVersioned
  constructor
  · intro h
    split at h
    · rename_i suffix hafter
      exact ⟨String.ofList suffix, by simpa using h, (hchars suffix).1 (Text.after?_eq_some_iff.1 hafter)⟩
    · cases h
  · rintro ⟨suffix, hsuffix, hname⟩
    rw [Text.after?_eq_some_iff.2 ((hchars suffix.toList).2 (by simpa using hname))]
    exact hsuffix

theorem isVersioned_append (name : String) (h : Version.isSuffix suffix.toList = true) :
    isVersioned (name ++ "-" ++ suffix) name = true :=
  isVersioned_iff.2 ⟨suffix, h, rfl⟩

theorem accepted_of_readRecipe {text : List Char} {n : RecipeName}
    (h : RecipeName.read text = .ok n) :
    CookbookName.accepts n.cookbook.text.toList = true ∧
    RecipeName.acceptsRecipe n.recipe.toList = true :=
  ⟨(RecipeName.wellFormed_of_read h).cookbook, (RecipeName.wellFormed_of_read h).recipe⟩

theorem isName_versioned (hname : CookbookName.accepts name.toList = true)
    (hsuffix : Version.isSuffix suffix.toList = true) : IsName (name ++ "-" ++ suffix) := by
  have hdash : '-' ∈ (name ++ "-" ++ suffix).toList := by simp
  have hne : ∀ s : String, '-' ∉ s.toList → name ++ "-" ++ suffix ≠ s :=
    fun s hs he => hs (he ▸ hdash)
  refine ⟨hne "" (by decide), hne "." (by decide), hne ".." (by decide), ?_⟩
  simp only [CookbookName.accepts, Bool.and_eq_true, Bool.not_eq_true', any_eq_false] at hname
  have hslash : '/' ∉ name.toList := fun hmem => hname.2 '/' hmem (by decide)
  have hplain : '/' ∉ suffix.toList := fun hmem => by
    have hchar := Version.isSuffixChar_of_isSuffix hsuffix '/' hmem
    revert hchar
    decide
  simp [hslash, hplain]

theorem isName_recipeFile {recipe : String} (h : RecipeName.acceptsRecipe recipe.toList = true) :
    IsName (recipe ++ ".rb") := by
  have hlast : 'b' ∈ (recipe ++ ".rb").toList := by simp
  have hne : ∀ s : String, 'b' ∉ s.toList → recipe ++ ".rb" ≠ s := fun s hs he => hs (he ▸ hlast)
  simp only [RecipeName.acceptsRecipe, Bool.and_eq_true, Bool.not_eq_true', contains_eq_mem,
    decide_eq_false_iff_not] at h
  exact ⟨hne "" (by decide), hne "." (by decide), hne ".." (by decide), by simp [h.2]⟩

section
variable {base : Path} {n : CookbookName} {suffix recipe : String}

theorem components_recipeIn (hname : CookbookName.accepts n.text.toList = true)
    (hsuffix : Version.isSuffix suffix.toList = true)
    (hrecipe : RecipeName.acceptsRecipe recipe.toList = true) :
    (recipeIn (versionedDir base n suffix) recipe).components =
      base.components ++ [.name "cookbooks", .name (n.text ++ "-" ++ suffix), .name "recipes",
        .name (recipe ++ ".rb")] := by
  rw [recipeIn, versionedDir, components_child _ (isName_recipeFile hrecipe),
    components_child _ (by decide), components_child _ (isName_versioned hname hsuffix),
    components_child _ (by decide)]
  simp

theorem cookbookOf_recipeIn (hname : CookbookName.accepts n.text.toList = true)
    (hsuffix : Version.isSuffix suffix.toList = true)
    (hrecipe : RecipeName.acceptsRecipe recipe.toList = true) :
    cookbookOf (recipeIn (versionedDir base n suffix) recipe) = n.text ++ "-" ++ suffix := by
  have hdash : '-' ∈ (n.text ++ "-" ++ suffix).toList := by simp
  have hdir : ∀ s : String, '-' ∉ s.toList → n.text ++ "-" ++ suffix ≠ s :=
    fun s hs he => hs (he ▸ hdash)
  have hpoint : '.' ∈ (recipe ++ ".rb").toList := by simp
  have hfile : ∀ s : String, '.' ∉ s.toList → recipe ++ ".rb" ≠ s := fun s hs he => hs (he ▸ hpoint)
  have hrest : ∀ c ∈ [n.text ++ "-" ++ suffix, "recipes", recipe ++ ".rb"],
      cookbookFolders.contains c = false := by
    have hthis : cookbookFolders.contains (n.text ++ "-" ++ suffix) = false := by
      simp [cookbookFolders, hdir "cookbooks" (by decide), hdir "cookbook" (by decide),
        hdir "cookbook_artifacts" (by decide)]
    have hlast : cookbookFolders.contains (recipe ++ ".rb") = false := by
      simp [cookbookFolders, hfile "cookbooks" (by decide), hfile "cookbook" (by decide),
        hfile "cookbook_artifacts" (by decide)]
    intro c hc
    simp only [mem_cons, not_mem_nil, or_false] at hc
    rcases hc with rfl | rfl | rfl
    · exact hthis
    · decide
    · exact hlast
  have hfound : afterFolder none ((recipeIn (versionedDir base n suffix) recipe).components.map Component.text) =
      some (n.text ++ "-" ++ suffix) := by
    rw [components_recipeIn hname hsuffix hrecipe, map_append]
    exact afterFolder_last none _ (by decide) hrest
  have hrecipes : n.text ++ "-" ++ suffix ≠ "recipes" := hdir "recipes" (by decide)
  rw [cookbookOf, hfound]
  simp [Option.filter, hrecipes]

theorem fileStem?_recipeIn (hname : CookbookName.accepts n.text.toList = true)
    (hsuffix : Version.isSuffix suffix.toList = true)
    (hrecipe : RecipeName.acceptsRecipe recipe.toList = true) :
    (recipeIn (versionedDir base n suffix) recipe).fileStem? = some recipe := by
  have hsplit : Text.splitLast? '.' (recipe ++ ".rb").toList =
      some (recipe.toList, ['r', 'b']) := by
    have hlast : Text.splitLast? '.' (recipe.toList ++ '.' :: ['r', 'b']) =
        some (recipe.toList, ['r', 'b']) :=
      Text.splitLast?_append recipe.toList (by decide)
    simpa using hlast
  have hne : recipe ≠ "" := by
    rintro rfl
    revert hrecipe
    decide
  have hfile : (recipeIn (versionedDir base n suffix) recipe).fileName? =
      some (recipe ++ ".rb") := by
    rw [fileName?, components_recipeIn hname hsuffix hrecipe]
    simp [Component.name?]
  rw [fileStem?, hfile, Option.map_some, splitName, hsplit]
  simp [hne]

end

/-- A directory that is named for a cookbook and a version or an identifier is a directory of that
cookbook, whatever it holds. The node of a recipe in it is called by the recipe's name exactly if
the suffix holds no dash, so always behind a plain version of numbers or an identifier. -/
theorem recipe_named_iff_dashless {text : List Char} {n : RecipeName}
    (hn : RecipeName.read text = .ok n)
    {suffix : String} (hsuffix : Version.isSuffix suffix.toList = true) (base : Path) (w : World) :
    isCookbook w (versionedDir base n.cookbook suffix) n.cookbook.text = true ∧
    ((Plan.recipeInfo (recipeIn (versionedDir base n.cookbook suffix) n.recipe)).name = n.text ↔
      '-' ∉ suffix.toList) ∧
    (Version.isDotted suffix.toList = true ∨ Version.isDigest suffix.toList = true →
    '-' ∉ suffix.toList) := by
  obtain ⟨hcookbook, hrecipe⟩ := accepted_of_readRecipe hn
  have hne : n.cookbook.text ≠ "" := by
    intro he
    rw [he] at hcookbook
    revert hcookbook
    decide
  refine ⟨?_, ?_, ?_⟩
  · have hfile : (versionedDir base n.cookbook suffix).fileName? =
        some (n.cookbook.text ++ "-" ++ suffix) := by
      rw [fileName?, versionedDir, components_child _ (isName_versioned hcookbook hsuffix)]
      simp [Component.name?]
    simp [isCookbook, hfile, isVersioned_append n.cookbook.text hsuffix]
  · have hdisplay : (Plan.recipeInfo (recipeIn (versionedDir base n.cookbook suffix) n.recipe)).name =
        withoutSuffix (n.cookbook.text ++ "-" ++ suffix) ++ "::" ++ n.recipe := by
      change displayName _ = _
      rw [displayName, cookbookOf_recipeIn hcookbook hsuffix hrecipe,
        fileStem?_recipeIn hcookbook hsuffix hrecipe]
      rfl
    rw [hdisplay, RecipeName.text, ← withoutSuffix_eq_iff hne hsuffix, String.append_left_inj,
      String.append_left_inj]
  · rintro (hdotted | hdigest) hdash
    · exact (Version.dashless_of_isDotted hdotted '-' hdash).2 rfl
    · exact (Version.dashless_of_isDigest hdigest '-' hdash).2 rfl

/-- The recipe `site` of a cookbook `nginx` that is exported under its identifier. -/
theorem nginx_site_named :
    RecipeName.read "recipe[nginx::site]".toList = .ok ⟨⟨"nginx"⟩, "site"⟩ ∧
    Version.isSuffix "3f2a9c0".toList = true ∧
    isCookbook ⟨.empty, [], [], [], []⟩ ⟨"/w/cookbooks/nginx-3f2a9c0"⟩ "nginx" = true ∧
    (Plan.recipeInfo ⟨"/w/cookbooks/nginx-3f2a9c0/recipes/site.rb"⟩).name = "nginx::site" := by
  have hread : RecipeName.read "recipe[nginx::site]".toList = .ok ⟨⟨"nginx"⟩, "site"⟩ := by
    decide +kernel
  have hsuffix : Version.isSuffix "3f2a9c0".toList = true := by decide
  obtain ⟨hcookbook, hname, hplain⟩ :=
    recipe_named_iff_dashless hread hsuffix ⟨"/w"⟩ ⟨.empty, [], [], [], []⟩
  have hdash : '-' ∉ "3f2a9c0".toList := hplain (.inr (by decide))
  exact ⟨hread, hsuffix, hcookbook, hname.2 hdash⟩

/-- A version with a pre-release is accepted behind the name, but it is not taken off again. -/
theorem prerelease_misnamed :
    RecipeName.read "nginx".toList = .ok ⟨⟨"nginx"⟩, "default"⟩ ∧
    Version.isSuffix "1.0.0-rc.1".toList = true ∧
    isCookbook ⟨.empty, [], [], [], []⟩ ⟨"cookbooks/nginx-1.0.0-rc.1"⟩ "nginx" = true ∧
    displayName ⟨"/w/cookbooks/nginx-1.0.0-rc.1/recipes/default.rb"⟩ =
      "nginx-1.0.0-rc.1::default" := by
  decide +kernel

end Locate
end CookbookAtlas
