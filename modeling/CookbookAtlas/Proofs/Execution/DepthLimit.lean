import CookbookAtlas.Proofs.Execution.Rendering
import CookbookAtlas.Total

/-! Renderings down to a depth. The lines of the nodes that are shown are their lines in the whole
rendering, and what is left out below a node is counted on its line, so that lines and counts add up
to the number of nodes. -/
namespace CookbookAtlas.Execution

open List Text Node
variable {d depth : Nat}

mutual
theorem length_preorder (n : Node) : n.preorder.length = n.count := by
  match n with
  | .mk info children => simp [Node.preorder, Node.count, length_preorderAll, Nat.add_comm]

theorem length_preorderAll (ns : List Node) : (preorderAll ns).length = countAll ns := by
  match ns with
  | [] => rfl
  | n :: rest => simp [preorderAll, countAll, length_preorder, length_preorderAll]
end

theorem length_depthsFrom (depth : Nat) (n : Node) : (n.depthsFrom depth).length = n.count := by
  rw [← map_fst_entries, length_map, length_entries]

mutual
theorem length_lines (depth : Nat) (lead below : String) (n : Node) :
    (n.lines none depth lead below).length = n.count := by
  match n with
  | .mk info children => rw [lines_mk, length_cons, length_siblingLines, Node.count, Nat.add_comm]

theorem length_siblingLines (depth : Nat) (indent : String) (ns : List Node) :
    (siblingLines none depth indent ns).length = countAll ns := by
  match ns with
  | [] => rfl
  | n :: rest => rw [siblingLines, length_append, length_lines, length_siblingLines, countAll]
end

/-- What a whole rendering shows: the depth of each node, the node, and its line. -/
abbrev Row := (Nat × Node) × String

def Node.rows (depth : Nat) (lead below : String) (n : Node) : List (Row) :=
  ((n.depthsFrom depth).zip n.preorder).zip (n.lines none depth lead below)

def siblingRows (depth : Nat) (indent : String) (ns : List Node) : List (Row) :=
  ((depthsOfAll depth ns).zip (preorderAll ns)).zip (siblingLines none depth indent ns)

theorem rows_mk (depth : Nat) (lead below : String) (info : Info) (children : List Node) :
    (Node.mk info children).rows depth lead below =
      ((depth, .mk info children), lead ++ info.label) ::
      siblingRows (depth + 1) below children := by
  rw [Node.rows, lines_mk]
  rfl

theorem siblingRows_cons (depth : Nat) (indent : String) (n : Node) (rest : List Node) :
    siblingRows depth indent (n :: rest) =
      n.rows depth (indent ++ mark rest.isEmpty) (indent ++ indentBelow rest.isEmpty) ++
      siblingRows depth indent rest := by
  have hnodes : (n.depthsFrom depth).length = n.preorder.length := by
    rw [length_depthsFrom, length_preorder]
  have hlines : ((n.depthsFrom depth).zip n.preorder).length =
      (n.lines none depth (indent ++ mark rest.isEmpty)
      (indent ++ indentBelow rest.isEmpty)).length := by
    rw [length_zip, length_depthsFrom, length_preorder, length_lines, Nat.min_self]
  rw [siblingRows, depthsOfAll, preorderAll, siblingLines, zip_append hnodes, zip_append hlines]
  rfl

theorem le_of_mem_siblingRows {indent : String} {ns : List Node} {row : Row}
    (h : row ∈ siblingRows depth indent ns) : depth ≤ row.1.1 := by
  have hdepth : row.1.1 ∈ depthsOfAll depth ns := (of_mem_zip (of_mem_zip h).1).1
  rw [← map_fst_entriesAll] at hdepth
  obtain ⟨entry, hentry, heq⟩ := mem_map.mp hdepth
  exact heq ▸ le_of_mem_entriesAll entry hentry

def omission (n : Node) : String := " [" ++ toString (n.count - 1) ++ " more]"

/-- Whether a node at `depth` is the last one shown, with more below it. -/
def isSummary (d depth : Nat) (n : Node) : Bool := depth == d && !n.children.isEmpty

/-- The line that stands for a row down to depth `d`: none below it, and with a remark where
something is left out. -/
def shownLine (d : Nat) (row : Row) : Option String :=
  if d < row.1.1 then none
  else some (if isSummary d row.1.1 row.1.2 then row.2 ++ omission row.1.2 else row.2)

theorem isCut_iff_isSummary (h : depth ≤ d) (info : Info) (children : List Node) :
    isCut (some d) depth children = isSummary d depth (.mk info children) := by
  have hbool : decide (d ≤ depth) = (depth == d) := by
    rw [Bool.eq_iff_iff]
    simp only [decide_eq_true_eq, beq_iff_eq]
    omega
  simp [isCut, isSummary, hbool, Node.children]

theorem shownLine_mk (h : depth ≤ d) (lead : String) (info : Info) (children : List Node) :
    shownLine d ((depth, .mk info children), lead ++ info.label) =
      some (lead ++ lineText (some d) depth info children) := by
  have hcount : (Node.mk info children).count - 1 = countAll children := by simp [Node.count]
  have htext : s!"{info.label} [{countAll children} more]" =
      info.label ++ omission (.mk info children) := by
    simp [omission, hcount, String.append_assoc, toString]
  rw [shownLine, if_neg (Nat.not_lt.mpr h), lineText, isCut_iff_isSummary h info, htext]
  split <;> simp [String.append_assoc]

theorem filterMap_shownLine_below (h : d < depth) (indent : String) (ns : List Node) :
    (siblingRows depth indent ns).filterMap (shownLine d) = [] := by
  rw [filterMap_eq_nil_iff]
  intro row hrow
  have hdepth := le_of_mem_siblingRows hrow
  rw [shownLine, if_pos (by omega)]

mutual
theorem lines_some {d depth : Nat} (h : depth ≤ d) (lead below : String) (n : Node) :
    n.lines (some d) depth lead below = (n.rows depth lead below).filterMap (shownLine d) := by
  match n with
  | .mk info children =>
    rw [rows_mk, filterMap_cons_some (shownLine_mk h lead info children), Node.lines]
    by_cases hlimit : depth = d
    · rw [filterMap_shownLine_below (by omega)]
      cases children with
      | nil => simp [isCut, siblingLines]
      | cons child rest => simp [isCut, hlimit]
    · have hopen : isCut (some d) depth children = false := by
        rw [isCut_iff_isSummary h info]
        simp [isSummary, hlimit]
      rw [hopen, siblingLines_some (by omega) below children]
      simp

theorem siblingLines_some {d depth : Nat} (h : depth ≤ d) (indent : String) (ns : List Node) :
    siblingLines (some d) depth indent ns =
    (siblingRows depth indent ns).filterMap (shownLine d) := by
  match ns with
  | [] => rfl
  | n :: rest =>
    rw [siblingLines, siblingRows_cons, filterMap_append, lines_some h, siblingLines_some h]
end

/-- How many nodes the line of a node at `depth` leaves out. -/
def omitted (d : Nat) (placed : Nat × Node) : Nat :=
  if isSummary d placed.1 placed.2 then placed.2.count - 1 else 0

theorem omitted_of_ne (h : depth ≠ d) (n : Node) : omitted d (depth, n) = 0 := by
  simp [omitted, isSummary, h]

theorem total_omitted_below (h : d < depth) (indent : String) (ns : List Node) :
    total ((siblingRows depth indent ns).map fun row => omitted d row.1) = 0 := by
  have hdeeper : ∀ row ∈ siblingRows depth indent ns, d < row.1.1 := fun row hrow =>
    Nat.lt_of_lt_of_le h (le_of_mem_siblingRows hrow)
  generalize siblingRows depth indent ns = rows at hdeeper
  induction rows with
  | nil => rfl
  | cons row rows ih =>
    have hrow : omitted d row.1 = 0 :=
      omitted_of_ne (Nat.ne_of_gt (hdeeper row mem_cons_self)) row.1.2
    rw [map_cons, total_cons, hrow, ih fun other hother => hdeeper other (mem_cons_of_mem _ hother)]

mutual
theorem length_add_total_rows {d depth : Nat} (h : depth ≤ d) (lead below : String) (n : Node) :
    ((n.rows depth lead below).filterMap (shownLine d)).length +
      total ((n.rows depth lead below).map fun row => omitted d row.1) = n.count := by
  match n with
  | .mk info children =>
    rw [rows_mk, filterMap_cons_some (shownLine_mk h lead info children), map_cons, total_cons,
      length_cons]
    by_cases hlimit : depth = d
    · have hroot : omitted d (depth, .mk info children) = countAll children := by
        cases children <;> simp [omitted, isSummary, hlimit, Node.children, Node.count, countAll]
      rw [filterMap_shownLine_below (by omega), total_omitted_below (by omega), hroot, Node.count]
      simp
    · have hbelow := length_add_total_siblingRows (by omega : depth + 1 ≤ d) below children
      rw [omitted_of_ne hlimit, Node.count]
      omega

theorem length_add_total_siblingRows {d depth : Nat} (h : depth ≤ d) (indent : String)
    (ns : List Node) : ((siblingRows depth indent ns).filterMap (shownLine d)).length +
      total ((siblingRows depth indent ns).map fun row => omitted d row.1) = countAll ns := by
  match ns with
  | [] => rfl
  | n :: rest =>
    have hfirst := length_add_total_rows h (indent ++ mark rest.isEmpty) (indent ++ indentBelow rest.isEmpty) n
    have hrest := length_add_total_siblingRows h indent rest
    rw [siblingRows_cons, filterMap_append, map_append, total_append, length_append, countAll]
    omega
end

def Node.height (t : Node) : Nat := t.depths.foldr max 0

theorem le_height {t : Node} (h : depth ∈ t.depths) : depth ≤ t.height := by
  rw [Node.height]
  revert h
  generalize t.depths = depths
  intro h
  induction depths with
  | nil => simp at h
  | cons first depths ih =>
    rcases mem_cons.mp h with rfl | h
    · exact Nat.le_max_left _ _
    · exact Nat.le_trans (ih h) (Nat.le_max_right _ _)

mutual
theorem lines_some_of_le {d depth : Nat} (lead below : String) (n : Node)
    (h : ∀ x ∈ n.depthsFrom depth, x ≤ d) :
    n.lines (some d) depth lead below = n.lines none depth lead below := by
  match n with
  | .mk info children =>
    have hchildren : ∀ x ∈ depthsOfAll (depth + 1) children, x ≤ d :=
      fun x hx => h x (mem_cons_of_mem _ hx)
    have hopen : isCut (some d) depth children = false := by
      cases children with
      | nil => simp [isCut]
      | cons child rest =>
        obtain ⟨childInfo, grandchildren⟩ := child
        have hchild : depth + 1 ≤ d := hchildren _ (by simp [depthsOfAll, depthsFrom])
        simp [isCut]
        omega
    rw [lines_mk, Node.lines, lineText, hopen, siblingLines_some_of_le below children hchildren]
    simp

theorem siblingLines_some_of_le {d depth : Nat} (indent : String) (ns : List Node)
    (h : ∀ x ∈ depthsOfAll depth ns, x ≤ d) :
    siblingLines (some d) depth indent ns = siblingLines none depth indent ns := by
  match ns with
  | [] => rfl
  | n :: rest =>
    have hfirst : ∀ x ∈ n.depthsFrom depth, x ≤ d := fun x hx => h x (mem_append_left _ hx)
    have hrest : ∀ x ∈ depthsOfAll depth rest, x ≤ d := fun x hx => h x (mem_append_right _ hx)
    rw [siblingLines, siblingLines, lines_some_of_le _ _ n hfirst,
      siblingLines_some_of_le indent rest hrest]
end

theorem linesOf_join {ls : List String} (h : ∀ l ∈ ls, Text.IsLine l.toList) :
    linesOf (String.join (ls.map (· ++ "\n"))) = ls := by
  have htext : (String.join (ls.map (· ++ "\n"))).toList =
      (ls.map String.toList).flatMap fun l => l ++ ['\n'] := by
    rw [toList_join, flatMap_map, flatMap_map]
    simp
  have hlines : ∀ l ∈ ls.map String.toList, Text.IsLine l := by
    intro l hl
    obtain ⟨line, hline, rfl⟩ := mem_map.mp hl
    exact h line hline
  rw [linesOf, htext, lines_flatMap hlines, map_map]
  simp [Function.comp_def]

theorem isLine_omission (n : Node) : Text.IsLine (omission n).toList := by
  have hdigits : '\n' ∉ (toString (n.count - 1)).toList := by
    intro hmem
    have hdigit := Nat.isDigit_of_mem_toDigits (b := 10) (by decide) (by decide)
      (by simpa [toString] using hmem)
    exact absurd hdigit (by decide)
  rw [omission, String.toList_append]
  refine ⟨by simpa using hdigits, ?_⟩
  rw [List.getLast?_append_of_ne_nil _ (by decide)]
  decide

/-- Lines shown are lines: they are those of the whole rendering, with or without a remark. -/
theorem isLine_shownLine {row : Row} {line : String} (hline : Text.IsLine row.2.toList)
    (h : shownLine d row = some line) : Text.IsLine line.toList := by
  rw [shownLine] at h
  split at h
  · cases h
  · cases h
    split
    · rw [String.toList_append]
      exact hline.append (isLine_omission row.1.2)
    · exact hline

section
variable {t : Node}

theorem linesOf_render (h : ∀ m ∈ t.preorder, '\n' ∉ m.info.label.toList) :
    linesOf (t.render none) = t.lines none 0 "" "" :=
  linesOf_join (isLine_lines 0 t (by decide) (by decide) h)

theorem linesOf_render_some (h : ∀ m ∈ t.preorder, '\n' ∉ m.info.label.toList) (d : Nat) :
    linesOf (t.render (some d)) = (t.rows 0 "" "").filterMap (shownLine d) := by
  rw [Node.render, lines_some (Nat.zero_le d)]
  refine linesOf_join fun line hline => ?_
  obtain ⟨row, hrow, hshown⟩ := mem_filterMap.mp hline
  have hmem : row.2 ∈ t.lines none 0 "" "" := (of_mem_zip hrow).2
  exact isLine_shownLine (isLine_lines 0 t (by decide) (by decide) h row.2 hmem) hshown

end

/-- A rendering down to depth `d` has the line of every node down to that depth, in pre-order and as
in the whole rendering, with the number of nodes below it added where a node at depth `d` has
children. So lines and numbers add up to all nodes, and a limit that is not below the height of the
tree changes nothing. -/
theorem render_down_to (t : Node) (d : Nat) (h : ∀ m ∈ t.preorder, '\n' ∉ m.info.label.toList) :
    (linesOf (t.render none)).length = t.count ∧ (t.depths.zip t.preorder).length = t.count ∧
    linesOf (t.render (some d)) =
      ((t.depths.zip t.preorder).zip (linesOf (t.render none))).filterMap (shownLine d) ∧
    (linesOf (t.render (some d))).length + total ((t.depths.zip t.preorder).map (omitted d)) =
      t.count ∧
    (t.height ≤ d → t.render (some d) = t.render none) := by
  have hplaced : (t.depths.zip t.preorder).length = t.count := by
    rw [Node.depths, length_zip, length_depthsFrom, length_preorder, Nat.min_self]
  have hrows : (t.rows 0 "" "").map Prod.fst = t.depths.zip t.preorder :=
    map_fst_zip (Nat.le_of_eq (hplaced.trans (length_lines 0 "" "" t).symm))
  refine ⟨by rw [linesOf_render h, length_lines], hplaced, ?_, ?_, fun hheight => ?_⟩
  · rw [linesOf_render_some h, linesOf_render h]
    rfl
  · have hcounted := length_add_total_rows (Nat.zero_le d) "" "" t
    rw [linesOf_render_some h, ← hrows, map_map]
    exact hcounted
  · have hdepths : ∀ x ∈ t.depthsFrom 0, x ≤ d := fun x hx => Nat.le_trans (le_height hx) hheight
    rw [Node.render, Node.render, lines_some_of_le "" "" t hdepths]

/-- Two levels below the root; one child at the limit has children of its own, one has none. -/
def tieredTree : Node :=
  .mk (Info.plain .recipe "web::default")
    [.mk (Info.plain .recipe "cache::default") [.leaf (Info.plain .resource "package[redis]"),
      .leaf (Info.plain .loop "x")],
      .leaf (Info.plain .resource "service[web]")]

theorem tieredTree_down_to_one : (∀ m ∈ tieredTree.preorder, '\n' ∉ m.info.label.toList) ∧
    linesOf (tieredTree.render (some 1)) =
      ["web::default", "├── cache::default [2 more]", "└── service[web]"] := by
  have hlabels : ∀ m ∈ tieredTree.preorder, '\n' ∉ m.info.label.toList := by decide +kernel
  refine ⟨hlabels, ?_⟩
  rw [(render_down_to tieredTree 1 hlabels).2.2.1]
  decide +kernel

end CookbookAtlas.Execution
