import CookbookAtlas.Execution.Render
import CookbookAtlas.Proofs.Text.Layout
import Mathlib.Data.List.Forall2

/-! Reading a rendering back. Every line tells the depth of its node and its label, and the depths
and labels in pre-order tell the tree. -/
namespace CookbookAtlas.Execution

open List Text

/-- Characters of the indent under nodes that are, or are not, the last among their siblings. -/
def indentChars (lasts : List Bool) : List Char :=
  lasts.flatMap fun last => (indentBelow last).toList

theorem indentChars_append_singleton (lasts : List Bool) (last : Bool) :
    indentChars (lasts ++ [last]) = indentChars lasts ++ (indentBelow last).toList := by
  simp [indentChars]

theorem mark_chars (last : Bool) :
    (mark last).toList = (if last then ['└', '─', '─', ' '] else ['├', '─', '─', ' ']) := by
  cases last <;> rfl

theorem dropGroups_indentChars (lasts : List Bool) (rest : List Char) :
    dropGroups (indentChars lasts ++ rest) =
    ((dropGroups rest).1 + lasts.length, (dropGroups rest).2) := by
  induction lasts with
  | nil => rfl
  | cons last lasts ih =>
    cases last with
    | false =>
      change dropGroups ('│' :: ' ' :: ' ' :: ' ' :: (indentChars lasts ++ rest)) = _
      rw [dropGroups, ih]
      simp [Nat.add_assoc]
    | true =>
      change dropGroups (' ' :: ' ' :: ' ' :: ' ' :: (indentChars lasts ++ rest)) = _
      rw [dropGroups, ih]
      simp [Nat.add_assoc]

theorem dropGroups_mark (last : Bool) (label : List Char) :
    dropGroups ((mark last).toList ++ label) = (0, (mark last).toList ++ label) := by
  cases last <;> rfl

def entryOf (line : List Char) : Nat × List Char :=
  let (groups, rest) := dropGroups line
  if branch.toList.isPrefixOf rest || lastBranch.toList.isPrefixOf rest then
    (groups + 1, rest.drop branch.toList.length)
  else (0, line)

theorem lineDepth_eq (line : List Char) : lineDepth line = (entryOf line).1 := by
  rw [lineDepth, entryOf]
  generalize dropGroups line = dropped
  obtain ⟨groups, rest⟩ := dropped
  dsimp only
  split <;> rfl

theorem entryOf_marked (lasts : List Bool) (last : Bool) (label : List Char) :
    entryOf (indentChars lasts ++ ((mark last).toList ++ label)) = (lasts.length + 1, label) := by
  rw [entryOf, dropGroups_indentChars, dropGroups_mark]
  cases last <;> simp [mark_chars, branch, lastBranch]

mutual
def Node.entries (depth : Nat) : Node → List (Nat × List Char)
  | .mk info children => (depth, info.label.toList) :: entriesAll (depth + 1) children

def entriesAll (depth : Nat) : List Node → List (Nat × List Char)
  | [] => []
  | n :: rest => n.entries depth ++ entriesAll depth rest
end

mutual
theorem map_fst_entries (depth : Nat) (n : Node) :
    (n.entries depth).map Prod.fst = n.depthsFrom depth := by
  match n with
  | .mk info children => simp [Node.entries, Node.depthsFrom, map_fst_entriesAll]

theorem map_fst_entriesAll (depth : Nat) (ns : List Node) :
    (entriesAll depth ns).map Prod.fst = Node.depthsOfAll depth ns := by
  match ns with
  | [] => rfl
  | n :: rest => simp [entriesAll, Node.depthsOfAll, map_fst_entries, map_fst_entriesAll]
end

mutual
theorem length_entries (depth : Nat) (n : Node) : (n.entries depth).length = n.count := by
  match n with
  | .mk info children => simp [Node.entries, Node.count, length_entriesAll, Nat.add_comm]

theorem length_entriesAll (depth : Nat) (ns : List Node) :
    (entriesAll depth ns).length = Node.countAll ns := by
  match ns with
  | [] => rfl
  | n :: rest => simp [entriesAll, Node.countAll, length_entries, length_entriesAll]
end

@[simp] theorem isCut_none (depth : Nat) (children : List Node) :
    isCut none depth children = false := rfl

theorem lines_mk (depth : Nat) (lead below : String) (info : Info) (children : List Node) :
    (Node.mk info children).lines none depth lead below =
      (lead ++ info.label) :: siblingLines none (depth + 1) below children := by
  simp [Node.lines, lineText]

mutual
theorem map_entryOf_lines (depth : Nat) {lasts : List Bool} {last : Bool} {lead below : String}
    (n : Node) (hlead : lead.toList = indentChars lasts ++ (mark last).toList)
    (hbelow : below.toList = indentChars (lasts ++ [last])) :
    (n.lines none depth lead below).map (fun l => entryOf l.toList) =
      n.entries (lasts.length + 1) := by
  match n with
  | .mk info children =>
    have hfirst : entryOf (lead ++ info.label).toList = (lasts.length + 1, info.label.toList) := by
      rw [String.toList_append, hlead, append_assoc, entryOf_marked]
    have hrest := map_entryOf_siblingLines (depth + 1) children hbelow
    rw [length_append, length_singleton] at hrest
    rw [lines_mk, map_cons, hfirst, hrest, Node.entries]

theorem map_entryOf_siblingLines (depth : Nat) {lasts : List Bool} {indent : String}
    (ns : List Node) (hindent : indent.toList = indentChars lasts) :
    (siblingLines none depth indent ns).map (fun l => entryOf l.toList) =
      entriesAll (lasts.length + 1) ns := by
  match ns with
  | [] => rfl
  | n :: rest =>
    have hlead : (indent ++ mark rest.isEmpty).toList =
        indentChars lasts ++ (mark rest.isEmpty).toList := by
      rw [String.toList_append, hindent]
    have hbelow : (indent ++ indentBelow rest.isEmpty).toList =
        indentChars (lasts ++ [rest.isEmpty]) := by
      rw [String.toList_append, hindent, indentChars_append_singleton]
    rw [siblingLines, map_append, map_entryOf_lines depth n hlead hbelow,
      map_entryOf_siblingLines depth rest hindent, entriesAll]
end

def IsRemark (cs : List Char) : Prop := cs = [] ∨ ∃ mid, cs = ' ' :: '(' :: (mid ++ [')'])

theorem label_cases (i : Info) :
    ∃ remark : String, i.label = collapsed i.name ++ remark ∧ IsRemark remark.toList := by
  have hplain : i.label = collapsed i.name →
      ∃ remark : String, i.label = collapsed i.name ++ remark ∧ IsRemark remark.toList :=
    fun h => ⟨"", by rw [h, String.append_empty], .inl rfl⟩
  cases hkind : i.kind with
  | recipe | resource | conditional | loopItem => exact hplain (by simp [Info.label, hkind])
  | customResource =>
    cases hprovider : i.provider with
    | none =>
      exact ⟨" (custom resource)", by simp [Info.label, hkind, hprovider], .inr ⟨"custom resource".toList, rfl⟩⟩
    | some provider =>
      refine ⟨" (custom resource: " ++ Info.shortPath provider ++ ")",
        by simp [Info.label, hkind, hprovider, String.append_assoc], .inr ?_⟩
      exact ⟨"custom resource: ".toList ++ (Info.shortPath provider).toList, by simp⟩
  | loop => exact ⟨" (loop)", by simp [Info.label, hkind], .inr ⟨"loop".toList, rfl⟩⟩
  | circular =>
    exact ⟨" (circular reference)", by simp [Info.label, hkind], .inr ⟨"circular reference".toList, rfl⟩⟩
  | unresolved =>
    cases hnames : i.suggestions.isEmpty with
    | true =>
      exact ⟨" (recipe not analyzed)", by simp [Info.label, hkind, hnames],
        .inr ⟨"recipe not analyzed".toList, rfl⟩⟩
    | false =>
      refine ⟨" (recipe not analyzed; did you mean " ++ String.intercalate ", " i.suggestions ++
        "?)", by simp [Info.label, hkind, hnames, String.append_assoc], .inr ?_⟩
      exact ⟨"recipe not analyzed; did you mean ".toList ++
        (String.intercalate ", " i.suggestions).toList ++ ['?'], by simp⟩
  | truncated =>
    exact ⟨" (max depth reached)", by simp [Info.label, hkind], .inr ⟨"max depth reached".toList, rfl⟩⟩

theorem label_chars (i : Info) :
    ∃ remark, i.label.toList = collapse i.name.toList ++ remark ∧ IsRemark remark := by
  obtain ⟨remark, hlabel, hremark⟩ := label_cases i
  exact ⟨remark.toList, by rw [hlabel, String.toList_append, collapsed, String.toList_ofList], hremark⟩

/-- Both forms of an indent group have spaces in the second and third place. -/
theorem dropGroups_of_ne {cs : List Char} (h : ∀ a rest, cs ≠ a :: ' ' :: ' ' :: rest) :
    dropGroups cs = (0, cs) := by
  unfold dropGroups
  split
  · exact absurd rfl (h _ _)
  · exact absurd rfl (h _ _)
  · rfl

theorem not_isBlank_head {w : List Char} (h : Text.IsWord w) {c : Char} {rest more : List Char}
    (he : w ++ rest = c :: more) : isBlank c = false := by
  obtain ⟨hne, hblank⟩ := h
  cases w with
  | nil => exact absurd rfl hne
  | cons d w =>
    have hd : d = c := (List.cons.inj he).1
    exact hd ▸ hblank d mem_cons_self

/-- A label does not start with an indent group: words have single spaces between them. -/
theorem label_ne (i : Info) (a : Char) (rest : List Char) :
    i.label.toList ≠ a :: ' ' :: ' ' :: rest := by
  have hspace : isBlank ' ' = true := isBlank_space
  obtain ⟨remark, hlabel, hremark⟩ := label_chars i
  -- after one character of a word comes another, or a space before a word or a parenthesis
  have hword : ∀ w more : List Char, Text.IsWord w → (∀ rest, more ≠ ' ' :: ' ' :: rest) →
      w ++ more ≠ a :: ' ' :: ' ' :: rest := by
    intro w more hw hmore he
    cases w with
    | nil => exact hw.1 rfl
    | cons c w =>
      cases w with
      | nil =>
        cases he
        exact hmore _ rfl
      | cons d w =>
        have hd : d = ' ' := (List.cons.inj (List.cons.inj he).2).1
        simpa [hd, hspace] using hw.2 d (by simp)
  have hremark_ne : ∀ rest, remark ≠ ' ' :: ' ' :: rest := by
    rintro rest rfl
    rcases hremark with h | ⟨mid, h⟩ <;> cases h
  rw [hlabel]
  rcases collapse_cases i.name.toList with he | ⟨w, hw, he | ⟨v, more, hv, he⟩⟩
  · rw [he, nil_append]
    rintro rfl
    rcases hremark with h | ⟨mid, h⟩ <;> cases h
  · rw [he]
    exact hword w remark hw hremark_ne
  · rw [he, append_assoc]
    refine hword w _ hw fun rest hrest => ?_
    have htail : v ++ (more ++ remark) = ' ' :: rest := by simpa using hrest
    simpa [hspace] using not_isBlank_head hv htail

theorem dropGroups_label (i : Info) : dropGroups i.label.toList = (0, i.label.toList) :=
  dropGroups_of_ne (label_ne i)

theorem getLast_label_ne_return (i : Info) : i.label.toList.getLast? ≠ some '\r' := by
  obtain ⟨remark, hlabel, rfl | ⟨mid, rfl⟩⟩ := label_chars i
  · rw [hlabel, append_nil]
    intro hlast
    have hblank := not_isBlank_getLast_collapse i.name.toList '\r' hlast
    exact absurd hblank (by decide)
  · have hend : i.label.toList = (collapse i.name.toList ++ ' ' :: '(' :: mid) ++ [')'] := by
      rw [hlabel]
      simp
    rw [hend, List.getLast?_append_of_ne_nil _ (by simp)]
    decide

/-- A tree whose rendering can be read: one line to a label, and a root that shows no branch. -/
structure Node.Legible (t : Node) : Prop where
  no_newline : ∀ m ∈ t.preorder, '\n' ∉ m.info.label.toList
  no_branch : ¬branch.toList <+: t.info.label.toList
  no_lastBranch : ¬lastBranch.toList <+: t.info.label.toList

mutual
theorem isLine_lines (depth : Nat) {lead below : String} (n : Node)
    (hlead : Text.IsLine lead.toList)
    (hbelow : Text.IsLine below.toList) (h : ∀ m ∈ n.preorder, '\n' ∉ m.info.label.toList) :
    ∀ l ∈ n.lines none depth lead below, Text.IsLine l.toList := by
  match n with
  | .mk info children =>
    intro l hl
    rw [lines_mk] at hl
    rcases mem_cons.mp hl with rfl | hl
    · have hlabel : '\n' ∉ info.label.toList := h (.mk info children) mem_cons_self
      rw [String.toList_append]
      exact hlead.append ⟨hlabel, getLast_label_ne_return info⟩
    · exact isLine_siblingLines (depth + 1) children hbelow (fun m hm => h m (mem_cons_of_mem _ hm)) l hl

theorem isLine_siblingLines (depth : Nat) {indent : String} (ns : List Node)
    (hindent : Text.IsLine indent.toList)
    (h : ∀ m ∈ Node.preorderAll ns, '\n' ∉ m.info.label.toList) :
    ∀ l ∈ siblingLines none depth indent ns, Text.IsLine l.toList := by
  match ns with
  | [] => simp [siblingLines]
  | n :: rest =>
    intro l hl
    have hmark : Text.IsLine (mark rest.isEmpty).toList := by cases rest.isEmpty <;> decide
    have hbelow : Text.IsLine (indentBelow rest.isEmpty).toList := by cases rest.isEmpty <;> decide
    rw [siblingLines] at hl
    rcases mem_append.mp hl with hl | hl
    · refine isLine_lines depth n ?_ ?_ (fun m hm => h m (mem_append_left _ hm)) l hl
      · rw [String.toList_append]
        exact hindent.append hmark
      · rw [String.toList_append]
        exact hindent.append hbelow
    · exact isLine_siblingLines depth rest hindent (fun m hm => h m (mem_append_right _ hm)) l hl
end

theorem toList_join (ls : List String) : (String.join ls).toList = ls.flatMap String.toList := by
  induction ls with
  | nil => rfl
  | cons l ls ih => simp [ih]

theorem lines_render {t : Node} (h : t.Legible) :
    lines (t.render none).toList = (t.lines none 0 "" "").map String.toList := by
  have hempty : Text.IsLine "".toList := by decide
  have hlines := isLine_lines 0 t hempty hempty h.no_newline
  have htext : (t.render none).toList =
      ((t.lines none 0 "" "").map String.toList).flatMap fun l => l ++ ['\n'] := by
    rw [Node.render, toList_join, flatMap_map, flatMap_map]
    simp
  rw [htext]
  refine lines_flatMap fun l hl => ?_
  obtain ⟨line, hline, rfl⟩ := mem_map.mp hl
  exact hlines line hline

theorem map_entryOf_render {t : Node} (h : t.Legible) :
    (lines (t.render none).toList).map entryOf = t.entries 0 := by
  obtain ⟨info, children⟩ := t
  have hroot : entryOf info.label.toList = (0, info.label.toList) := by
    have hbranch : branch.toList.isPrefixOf info.label.toList = false :=
      Bool.eq_false_iff.mpr fun hp => h.no_branch (List.isPrefixOf_iff_prefix.mp hp)
    have hlast : lastBranch.toList.isPrefixOf info.label.toList = false :=
      Bool.eq_false_iff.mpr fun hp => h.no_lastBranch (List.isPrefixOf_iff_prefix.mp hp)
    simp [entryOf, dropGroups_label, hbranch, hlast]
  have hbelow := @map_entryOf_siblingLines 1 [] "" children rfl
  rw [lines_render h, lines_mk, map_map, map_cons, Node.entries]
  simpa [hroot, Function.comp_def] using hbelow

/-- The same shape and the same label at every place. -/
inductive Alike : Node → Node → Prop
  | mk {a b : Info} {xs ys : List Node} : a.label = b.label → List.Forall₂ Alike xs ys →
    Alike (.mk a xs) (.mk b ys)

mutual
theorem le_of_mem_entries {depth : Nat} {n : Node} : ∀ e ∈ n.entries depth, depth ≤ e.1 := by
  match n with
  | .mk info children =>
    intro e he
    rcases mem_cons.mp he with rfl | he
    · exact Nat.le_refl _
    · exact Nat.le_of_succ_le (le_of_mem_entriesAll e he)

theorem le_of_mem_entriesAll {depth : Nat} {ns : List Node} :
    ∀ e ∈ entriesAll depth ns, depth ≤ e.1 := by
  match ns with
  | [] => simp [entriesAll]
  | n :: rest =>
    intro e he
    rcases mem_append.mp he with he | he
    · exact le_of_mem_entries e he
    · exact le_of_mem_entriesAll e he
end

/-- Entries below a node end where the next sibling of the node starts. -/
theorem span_entriesAll (depth : Nat) (below siblings : List Node) :
    (entriesAll (depth + 1) below ++ entriesAll depth siblings).takeWhile (fun e => decide (depth < e.1)) =
        entriesAll (depth + 1) below ∧
      (entriesAll (depth + 1) below ++ entriesAll depth siblings).dropWhile
        (fun e => decide (depth < e.1)) = entriesAll depth siblings := by
  have hbelow : ∀ e ∈ entriesAll (depth + 1) below, decide (depth < e.1) = true := by
    intro e he
    exact decide_eq_true (le_of_mem_entriesAll e he)
  rw [takeWhile_append_of_pos hbelow, dropWhile_append_of_pos hbelow]
  match siblings with
  | [] => simp [entriesAll]
  | .mk info children :: rest => simp [entriesAll, Node.entries]

theorem alike_of_entriesAll {depth : Nat} {xs ys : List Node}
    (h : entriesAll depth xs = entriesAll depth ys) : List.Forall₂ Alike xs ys := by
  match xs, ys with
  | [], [] => exact .nil
  | [], .mk b ds :: ys | .mk a cs :: xs, [] => simp [entriesAll, Node.entries] at h
  | .mk a cs :: xs, .mk b ds :: ys =>
    simp only [entriesAll, Node.entries, cons_append, List.cons.injEq, Prod.mk.injEq, true_and] at h
    obtain ⟨hlabel, hrest⟩ := h
    have hcut := span_entriesAll depth cs xs
    rw [hrest] at hcut
    obtain ⟨htake, hdrop⟩ := span_entriesAll depth ds ys
    have hbelow : entriesAll (depth + 1) cs = entriesAll (depth + 1) ds := hcut.1.symm.trans htake
    have hnext : entriesAll depth xs = entriesAll depth ys := hcut.2.symm.trans hdrop
    exact .cons (.mk (String.toList_inj.mp hlabel) (alike_of_entriesAll hbelow)) (alike_of_entriesAll hnext)

theorem alike_of_entries {t u : Node} (h : t.entries 0 = u.entries 0) : Alike t u := by
  obtain ⟨a, xs⟩ := t
  obtain ⟨b, ys⟩ := u
  simp only [Node.entries, List.cons.injEq, Prod.mk.injEq, true_and] at h
  exact .mk (String.toList_inj.mp h.1) (alike_of_entriesAll h.2)

/-- The rendering of a legible tree shows the depth of every node, has one line to a node, and is
the rendering of no legible tree of another shape or with another label. -/
theorem render_tells_tree (t : Node) (h : t.Legible) :
    depthProfile (t.render none).toList = t.depths ∧
    (lines (t.render none).toList).length = t.count ∧
    ∀ u : Node, u.Legible → u.render none = t.render none → Alike u t := by
  have hentries := map_entryOf_render h
  refine ⟨?_, ?_, fun u hu hsame => ?_⟩
  · have hdepths := congrArg (List.map Prod.fst) hentries
    rw [map_fst_entries, map_map] at hdepths
    rw [depthProfile, Node.depths, ← hdepths]
    exact map_congr_left fun line _ => lineDepth_eq line
  · rw [← length_entries 0 t, ← hentries, length_map]
  · apply alike_of_entries
    rw [← map_entryOf_render hu, hsame, hentries]

/-- Labels that hold box-drawing characters, or nothing at all. -/
def boxedTree : Node :=
  .mk (Info.plain .recipe "│   web::default")
    [.mk (Info.plain .conditional "├── if x") [.leaf (Info.plain .resource ""), .leaf (Info.plain .loop "└── ")],
      .leaf (Info.plain .unresolved "    cache")]

theorem boxedTree_legible : boxedTree.Legible where
  no_newline := by decide +kernel
  no_branch := by decide +kernel
  no_lastBranch := by decide +kernel

theorem boxedTree_told :
    boxedTree.Legible ∧ depthProfile (boxedTree.render none).toList = [0, 1, 2, 2, 1] ∧
    (lines (boxedTree.render none).toList).length = 5 ∧
    ∀ u : Node, u.Legible → u.render none = boxedTree.render none → Alike u boxedTree :=
  ⟨boxedTree_legible, render_tells_tree boxedTree boxedTree_legible⟩

end CookbookAtlas.Execution
