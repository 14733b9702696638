import CookbookAtlas.Name
import CookbookAtlas.Proofs.Text.Class
import CookbookAtlas.Proofs.Text.Marks

/-! Recipe names, printed and read again. A printed name is read back unless its cookbook ends in a
colon, which then counts to the mark behind it, or the whole looks like a name in its
run-list form. -/
namespace CookbookAtlas

open List

namespace Text

theorem not_isBlank_of_head?_dropWhile {cs : List Char} {c : Char}
    (h : (cs.dropWhile isBlank).head? = some c) : isBlank c = false := by
  have hfirst := List.head?_dropWhile_not isBlank cs
  rw [h] at hfirst
  exact hfirst

theorem not_isBlank_getLast_trim (cs : List Char) :
    ∀ c ∈ (trim cs).getLast?, isBlank c = false := by
  intro c hc
  rw [trim, trimRight, Option.mem_def, List.getLast?_reverse] at hc
  exact not_isBlank_of_head?_dropWhile hc

theorem trimRight_isPrefix (cs : List Char) : trimRight cs <+: cs := by
  have hsuffix : cs.reverse.dropWhile isBlank <:+ cs.reverse := dropWhile_suffix isBlank
  simpa [trimRight] using reverse_prefix.2 hsuffix

theorem not_isBlank_head_trim (cs : List Char) : ∀ c ∈ (trim cs).head?, isBlank c = false := by
  intro c hc
  obtain ⟨rest, hrest⟩ := trimRight_isPrefix (trimLeft cs)
  obtain ⟨tail, htail⟩ := List.head?_eq_some_iff.1 hc
  have hfirst : (trimLeft cs).head? = some c := by
    rw [← hrest, ← trim, htail]
    rfl
  exact not_isBlank_of_head?_dropWhile hfirst

theorem trim_trim (cs : List Char) : trim (trim cs) = trim cs :=
  trim_eq_self (not_isBlank_head_trim cs) (not_isBlank_getLast_trim cs)

theorem length_trim_le (cs : List Char) : (trim cs).length ≤ cs.length :=
  Nat.le_trans (trimRight_isPrefix _).length_le (dropWhile_suffix isBlank).length_le

/-- Trimming does not reach into a part that starts and ends with something. -/
theorem trim_append {u : List Char} (hfirst : ∀ c ∈ u.head?, isBlank c = false)
    (hlast : ∀ c ∈ u.getLast?, isBlank c = false) (hne : u ≠ []) (ys : List Char) :
    trim (u ++ ys) = u ++ trimRight ys := by
  have hleft : trimLeft (u ++ ys) = u ++ ys := by
    obtain ⟨c, u, rfl⟩ := exists_cons_of_ne_nil hne
    exact trimLeft_of_head (hfirst c rfl)
  have hright : u.reverse.dropWhile isBlank = u.reverse := by
    cases hu : u.reverse with
    | nil => rfl
    | cons c rest =>
      have hc : isBlank c = false := hlast c (by rw [Option.mem_def, ← List.head?_reverse, hu]; rfl)
      simp [hc]
  rw [trim, hleft, trimRight, trimRight, reverse_append, dropWhile_append, hright]
  split
  · rename_i hblank
    simp [List.isEmpty_iff.1 hblank]
  · simp

end Text

theorem CookbookName.read_eq_ok_iff {s : List Char} {c : CookbookName} :
    CookbookName.read s = .ok c ↔ accepts (Text.trim s) = true ∧ c.text.toList = Text.trim s := by
  obtain ⟨text⟩ := c
  unfold CookbookName.read
  dsimp only
  split
  · rename_i haccepts
    simp [haccepts, ← String.toList_inj, eq_comm]
  · rename_i haccepts
    simp [haccepts]

namespace RecipeName

theorem read_eq_ok_iff {s : List Char} {n : RecipeName} :
    read s = .ok n ↔ acceptsRecipe (halves (bare s)).2 = true ∧
      CookbookName.read (halves (bare s)).1 = .ok n.cookbook ∧
      n.recipe.toList = (halves (bare s)).2 := by
  obtain ⟨cookbook, recipe⟩ := n
  unfold read
  dsimp only
  split
  · rename_i haccepts
    split
    · rename_i name hname
      simp [haccepts, hname, ← String.toList_inj, eq_comm]
    · rename_i fault hname
      simp [hname]
  · rename_i haccepts
    simp [haccepts]

/-- What a name that was read consists of. -/
structure WellFormed (n : RecipeName) : Prop where
  cookbook : CookbookName.accepts n.cookbook.text.toList = true
  recipe : acceptsRecipe n.recipe.toList = true
  trimmed : Text.trim n.recipe.toList = n.recipe.toList

theorem wellFormed_of_read {s : List Char} {n : RecipeName} (h : read s = .ok n) :
    n.WellFormed := by
  obtain ⟨hrecipe, hcookbook, htext⟩ := read_eq_ok_iff.1 h
  obtain ⟨haccepts, hname⟩ := CookbookName.read_eq_ok_iff.1 hcookbook
  refine ⟨hname ▸ haccepts, htext ▸ hrecipe, ?_⟩
  rw [htext]
  unfold halves
  split
  · exact Text.trim_trim _
  · rfl

/-- The cookbook that is read is no longer than what stands before any mark. -/
theorem length_cookbook_le {s xs ys : List Char} {n : RecipeName} (h : read s = .ok n)
    (hbare : bare s = xs ++ [':', ':'] ++ ys) : n.cookbook.text.toList.length ≤ xs.length := by
  obtain ⟨-, hcookbook, -⟩ := read_eq_ok_iff.1 h
  obtain ⟨before, rest, hsplit, hle⟩ := Text.splitFirst?_le [':', ':'] xs ys
  have hhalves : (halves (bare s)).1 = before := by rw [hbare, halves, hsplit]
  rw [(CookbookName.read_eq_ok_iff.1 hcookbook).2, hhalves]
  exact Nat.le_trans (Text.length_trim_le before) hle

theorem unwrap?_eq_some_iff {cs inner : List Char} :
    unwrap? cs = some inner ↔ cs = "recipe[".toList ++ (inner ++ [']']) := by
  unfold unwrap?
  constructor
  · intro h
    split at h
    · rename_i rest hafter
      obtain ⟨hlast, rfl⟩ : rest.getLast? = some ']' ∧ rest.dropLast = inner := by simpa using h
      obtain ⟨start, rfl⟩ := List.getLast?_eq_some_iff.1 hlast
      rw [Text.after?_eq_some_iff.1 hafter, dropLast_concat]
    · cases h
  · rintro rfl
    rw [Text.after?_append]
    simp

section Printed

variable {n : RecipeName}

/-- The cookbook starts and the recipe ends as a run-list form does. -/
def LooksWrapped (n : RecipeName) : Prop :=
  "recipe[".toList <+: n.cookbook.text.toList ∧ n.recipe.toList.getLast? = some ']'

instance (n : RecipeName) : Decidable n.LooksWrapped := inferInstanceAs (Decidable (_ ∧ _))

theorem toList_text (n : RecipeName) :
    n.text.toList = n.cookbook.text.toList ++ [':', ':'] ++ n.recipe.toList := by
  simp [text]

namespace WellFormed

theorem cookbook_ne (h : n.WellFormed) : n.cookbook.text.toList ≠ [] := by
  intro hnil
  have haccepts := h.cookbook
  rw [hnil] at haccepts
  cases haccepts

theorem recipe_ne (h : n.WellFormed) : n.recipe.toList ≠ [] := by
  intro hnil
  have haccepts := h.recipe
  rw [hnil] at haccepts
  cases haccepts

theorem cookbook_not_blank (h : n.WellFormed) :
    ∀ c ∈ n.cookbook.text.toList, Text.isBlank c = false := by
  have haccepts := h.cookbook
  simp only [CookbookName.accepts, Bool.and_eq_true, Bool.not_eq_true', any_eq_false] at haccepts
  intro c hc
  have hallowed := haccepts.2 c hc
  simp only [CookbookName.isForbidden, Bool.or_eq_true, not_or, Bool.not_eq_true] at hallowed
  exact hallowed.1.1

theorem no_mark_in_cookbook (h : n.WellFormed) : ¬ [':', ':'] <:+: n.cookbook.text.toList := by
  have haccepts := h.cookbook
  simp only [CookbookName.accepts, Bool.and_eq_true, Bool.not_eq_true'] at haccepts
  rw [← Text.occursIn_iff]
  simp [haccepts.1.2]

theorem trim_text (h : n.WellFormed) : Text.trim n.text.toList = n.text.toList := by
  rw [toList_text]
  apply Text.trim_eq_self
  · intro c hc
    rw [append_assoc, List.head?_append_of_ne_nil _ h.cookbook_ne] at hc
    exact h.cookbook_not_blank c (mem_of_mem_head? hc)
  · intro c hc
    rw [List.getLast?_append_of_ne_nil _ h.recipe_ne, ← h.trimmed] at hc
    exact Text.not_isBlank_getLast_trim _ c hc

theorem looksWrapped_of_unwrap? (h : n.WellFormed) {inner : List Char}
    (hinner : unwrap? n.text.toList = some inner) : n.LooksWrapped := by
  have htext := unwrap?_eq_some_iff.1 hinner
  have hstart : "recipe[".toList <+: n.text.toList := ⟨inner ++ [']'], htext.symm⟩
  have hcolon : n.cookbook.text.toList ++ [':'] <+: n.text.toList :=
    ⟨':' :: n.recipe.toList, by simp [text]⟩
  refine ⟨?_, ?_⟩
  · rcases prefix_or_prefix_of_prefix hstart hcolon with hshort | hlong
    · rcases prefix_concat_iff.1 hshort with hall | hfront
      · have hlast := congrArg List.getLast? hall
        rw [List.getLast?_concat] at hlast
        exact absurd hlast (by decide)
      · exact hfront
    · have hmem : ':' ∈ "recipe[".toList := hlong.subset (by simp)
      exact absurd hmem (by decide)
  · have hlast := congrArg List.getLast? htext
    rw [toList_text, List.getLast?_append_of_ne_nil _ h.recipe_ne, ← append_assoc,
      List.getLast?_concat] at hlast
    exact hlast

theorem bare_text (h : n.WellFormed) (hplain : ¬ n.LooksWrapped) :
    bare n.text.toList = n.text.toList := by
  have hnone : unwrap? n.text.toList = none := by
    rw [Option.eq_none_iff_forall_ne_some]
    exact fun inner hinner => hplain (h.looksWrapped_of_unwrap? hinner)
  rw [bare, h.trim_text, hnone]

/-- A printed name without a colon at the end of its cookbook is read back, if it is no run-list
form. -/
theorem read_back (h : n.WellFormed) (hcolon : n.cookbook.text.toList.getLast? ≠ some ':')
    (hplain : ¬ n.LooksWrapped) : read n.text.toList = .ok n := by
  have hfirst : ¬ [':', ':'] <:+: n.cookbook.text.toList ++ [':'] := by
    intro hmark
    rcases infix_concat_iff.1 hmark with hend | hinside
    · obtain ⟨before, hbefore⟩ := hend
      have hcookbook : (before ++ [':']) ++ [':'] = n.cookbook.text.toList ++ [':'] := by
        simpa using hbefore
      exact hcolon (List.getLast?_eq_some_iff.2 ⟨before, (append_cancel_right hcookbook).symm⟩)
    · exact h.no_mark_in_cookbook hinside
  have hhalves : halves (bare n.text.toList) = (n.cookbook.text.toList, n.recipe.toList) := by
    rw [h.bare_text hplain, toList_text, halves, Text.splitFirst?_append (by simp) hfirst]
    simp only [h.trimmed]
  refine read_eq_ok_iff.2 ?_
  rw [hhalves]
  refine ⟨h.recipe, CookbookName.read_eq_ok_iff.2 ?_, rfl⟩
  rw [Text.trim_word h.cookbook_not_blank]
  exact ⟨h.cookbook, rfl⟩

/-- A run-list form is taken apart: what is read has a shorter cookbook. -/
theorem read_ne_of_looksWrapped (h : n.WellFormed) (hwrapped : n.LooksWrapped) :
    read n.text.toList ≠ .ok n := by
  intro hread
  obtain ⟨⟨rest, hrest⟩, hlast⟩ := hwrapped
  obtain ⟨front, hfront⟩ := List.getLast?_eq_some_iff.1 hlast
  have hunwrap : unwrap? n.text.toList = some (rest ++ [':', ':'] ++ front) := by
    rw [unwrap?_eq_some_iff, toList_text, ← hrest, hfront]
    simp
  have hblank : ∀ c ∈ rest ++ [':', ':'], Text.isBlank c = false := by
    intro c hc
    rcases mem_append.1 hc with hc | hc
    · exact h.cookbook_not_blank c (hrest ▸ mem_append_right _ hc)
    · obtain rfl : c = ':' := by simpa using hc
      decide
  have hbare : bare n.text.toList = rest ++ [':', ':'] ++ Text.trimRight front := by
    rw [bare, h.trim_text, hunwrap]
    exact Text.trim_append (fun c hc => hblank c (mem_of_mem_head? hc))
      (fun c hc => hblank c (mem_of_getLast? hc)) (by simp) front
  have hle := length_cookbook_le hread hbare
  rw [← hrest, length_append] at hle
  have hlength : "recipe[".toList.length = 7 := by decide
  omega

/-- A colon at the end of the cookbook is taken for the start of the mark. -/
theorem read_ne_of_colon (h : n.WellFormed) (hcolon : n.cookbook.text.toList.getLast? = some ':')
    (hplain : ¬ n.LooksWrapped) : read n.text.toList ≠ .ok n := by
  intro hread
  obtain ⟨front, hfront⟩ := List.getLast?_eq_some_iff.1 hcolon
  have hbare : bare n.text.toList = front ++ [':', ':'] ++ ':' :: n.recipe.toList := by
    rw [h.bare_text hplain, toList_text, hfront]
    simp
  have hle := length_cookbook_le hread hbare
  rw [hfront, length_append, length_singleton] at hle
  omega

end WellFormed

end Printed

/-- A name that was read is printed as a text that reads back as the same name, unless its cookbook
ends in a colon, or its cookbook starts with `recipe[` and its recipe ends in `]`. In these cases
the text reads as another name, or as none. -/
theorem read_printed_iff {s : List Char} {n : RecipeName} (h : read s = .ok n) :
    read n.text.toList = .ok n ↔ n.cookbook.text.toList.getLast? ≠ some ':' ∧ ¬ n.LooksWrapped := by
  have hn := wellFormed_of_read h
  constructor
  · intro hread
    have hplain : ¬ n.LooksWrapped := fun hwrapped => hn.read_ne_of_looksWrapped hwrapped hread
    exact ⟨fun hcolon => hn.read_ne_of_colon hcolon hplain hread, hplain⟩
  · rintro ⟨hcolon, hplain⟩
    exact hn.read_back hcolon hplain

/-- A name with blanks around its halves and colons inside them, in the run-list form. -/
theorem spaced_read_printed :
    read " recipe[ a:b :: :c] ] ".toList = .ok ⟨⟨"a:b"⟩, ":c]"⟩ ∧
    read "a:b:::c]".toList = .ok ⟨⟨"a:b"⟩, ":c]"⟩ := by
  have hread : read " recipe[ a:b :: :c] ] ".toList = .ok ⟨⟨"a:b"⟩, ":c]"⟩ := by decide +kernel
  exact ⟨hread, (read_printed_iff hread).2 ⟨by decide, by decide⟩⟩

/-- The lone cookbook `a:` is printed as the recipe `:default` of the cookbook `a`, and the name in
two run-list forms is printed as one in one. -/
theorem printed_misread :
    read "a:".toList = .ok ⟨⟨"a:"⟩, "default"⟩ ∧ (⟨⟨"a:"⟩, "default"⟩ : RecipeName).text =
    "a:::default" ∧ read "a:::default".toList = .ok ⟨⟨"a"⟩, ":default"⟩ ∧
    read "recipe[recipe[a::b]]".toList = .ok ⟨⟨"recipe[a"⟩, "b]"⟩ ∧
    (⟨⟨"recipe[a"⟩, "b]"⟩ : RecipeName).text = "recipe[a::b]" ∧
    read "recipe[a::b]".toList = .ok ⟨⟨"a"⟩, "b"⟩ := by
  decide +kernel

end RecipeName
end CookbookAtlas
