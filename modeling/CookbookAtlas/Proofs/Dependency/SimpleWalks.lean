import CookbookAtlas.Dependency.TreeText
import CookbookAtlas.Proofs.Dependency.Numbering

/-! The tree of dependencies below a name. Its lines are the walks along dependencies that repeat no
name before their last one, depth first and in the order of insertion. A walk that ends in a name it
has met is told to be circular, and only such a walk. -/
namespace CookbookAtlas.Dependency

open List

theorem nodup_firstMentions (known names : List String) : (firstMentions known names).Nodup := by
  induction names generalizing known with
  | nil => exact nodup_nil
  | cons name names ih =>
    by_cases hknown : name ∈ known
    · simpa [firstMentions, hknown] using ih known
    · rw [firstMentions, if_neg hknown, nodup_cons, mem_firstMentions]
      exact ⟨fun h => h.2 (by simp), ih _⟩

/-- A walk: the names up to the last one, and the last one. -/
structure Walk where
  trunk : List String
  tip : String
deriving DecidableEq

variable {g : Graph} {name : String} {w : Walk}

namespace Walk

def names (w : Walk) : List String := w.trunk ++ [w.tip]

end Walk

namespace Graph

/-- A walk from `root` along dependencies that repeats no name before its last one. -/
structure IsWalk (g : Graph) (root : String) (w : Walk) : Prop where
  starts : w.trunk.head? = some root
  follows : w.names.IsChain g.DependsOn
  distinct : w.trunk.Nodup

/-- Whether `dep` was added last to what `name` depends on. -/
def isLastOf (g : Graph) (name dep : String) : Bool := (g.direct name).getLast? == some dep

/-- The indent below a path: one group for each step of it. -/
def indentOf (g : Graph) (path : List String) : String :=
  String.join ((path.zip path.tail).map fun step => branchIndent (g.isLastOf step.1 step.2))

def lineOf (g : Graph) (w : Walk) : String :=
  g.indentOf w.trunk ++ branchMark (w.trunk.getLast?.any fun name => g.isLastOf name w.tip) ++ w.tip

/-- The line of a walk, and a remark one level below it if the walk ends in a name it has met. -/
def linesOf (g : Graph) (w : Walk) : List String :=
  g.lineOf w :: if w.tip ∈ w.trunk
    then [g.indentOf w.names ++ branchMark true ++ "(circular reference)"] else []

/-- Depth first, and in the order of insertion where two paths part. -/
def Before (g : Graph) (p q : List String) : Prop :=
  (p <+: q ∧ p ≠ q) ∨ ∃ stem name a b, stem ++ [name, a] <+: p ∧ stem ++ [name, b] <+: q ∧
    [a, b].Sublist (g.direct name)

theorem Built.exists_calls (h : g.Built) : ∃ calls, g = ofCalls calls := by
  induction h with
  | empty => exact ⟨[], rfl⟩
  | ensureNode name _ ih =>
    obtain ⟨calls, rfl⟩ := ih
    exact ⟨calls ++ [.mention name], by rw [ofCalls_snoc]; rfl⟩
  | add source target constraint _ ih =>
    obtain ⟨calls, rfl⟩ := ih
    exact ⟨calls ++ [.depend ⟨source, target, constraint⟩], by rw [ofCalls_snoc]; rfl⟩

theorem Built.nodup_direct (h : g.Built) (name : String) : (g.direct name).Nodup := by
  obtain ⟨calls, rfl⟩ := h.exists_calls
  rw [direct_ofCalls]
  exact nodup_firstMentions _ _

theorem Built.mem_nodes_of_direct (h : g.Built) {dep : String} (hdep : dep ∈ g.direct name) :
    dep ∈ g.nodes := by
  obtain ⟨calls, rfl⟩ := h.exists_calls
  obtain ⟨l, hl, -, rfl⟩ := mem_direct_iff.mp hdep
  have hpair : l.pair ∈ (added calls).map Link.pair :=
    (mem_pairs_ofCalls calls l.pair).mp (mem_map_of_mem hl)
  obtain ⟨first, hfirst, heq⟩ := mem_map.mp hpair
  obtain ⟨call, hcall, hlink⟩ := mem_filterMap.mp hfirst
  have htarget : first.target = l.target := congrArg Prod.snd heq
  refine (mem_nodes_ofCalls calls l.target).mpr (mem_flatMap.mpr ⟨call, hcall, ?_⟩)
  cases call with
  | mention other => cases hlink
  | depend link =>
    cases hlink
    simp [Call.names, htarget]

end Graph

/-- Walks that go on from `trunk` with one of the names given. -/
def walksFrom (g : Graph) (free trunk : List String) : List String → List Walk
  | [] => []
  | name :: rest =>
    ⟨trunk, name⟩ ::
      ((if name ∈ free then walksFrom g (free.erase name) (trunk ++ [name]) (g.direct name) else [])
        ++ walksFrom g free trunk rest)
termination_by names => (free.length, names.length)
decreasing_by
  · rename_i h
    have := length_erase_of_mem h
    have := length_pos_of_mem h
    exact Prod.Lex.left _ _ (by omega)
  · exact Prod.Lex.right _ (by simp)

/-- The free names are the nodes that a trunk has not met. -/
structure Open (g : Graph) (free trunk : List String) : Prop where
  free_nodup : free.Nodup
  free_iff : ∀ name ∈ g.nodes, name ∈ free ↔ name ∉ trunk
  trunk_nodup : trunk.Nodup

section
variable {g : Graph} {free trunk : List String}

theorem Open.step (h : Open g free trunk) (hfree : name ∈ free) (hnode : name ∈ g.nodes) :
    Open g (free.erase name) (trunk ++ [name]) where
  free_nodup := h.free_nodup.erase name
  free_iff := by
    intro other hother
    rw [h.free_nodup.mem_erase_iff, h.free_iff other hother]
    simp [and_comm]
  trunk_nodup := List.Nodup.append h.trunk_nodup (nodup_singleton name)
    (by simpa using (h.free_iff name hnode).mp hfree)

theorem open_root (h : g.Built) (root : String) : Open g (g.nodes.erase root) [root] where
  free_nodup := h.nodup_nodes.erase root
  free_iff := by
    intro name hname
    rw [h.nodup_nodes.mem_erase_iff]
    simp [hname]
  trunk_nodup := nodup_singleton root

/-- The sources of links that are not on a branch. -/
def Graph.sourcesOff (g : Graph) (branch : List String) : List String :=
  (g.links.map Link.source).filter (· ∉ branch)

/-- A name that a branch goes on with was such a source, or nothing comes after it. -/
theorem sourcesOff_snoc {branch : List String} (h : name ∉ branch) :
    (g.sourcesOff (branch ++ [name])).length < (g.sourcesOff branch).length ∨
      (g.sourcesOff (branch ++ [name])).length = (g.sourcesOff branch).length ∧
      g.direct name = [] := by
  have hsplit : g.sourcesOff (branch ++ [name]) = (g.sourcesOff branch).filter (· ≠ name) := by
    simp [Graph.sourcesOff, filter_filter, not_or, and_comm]
  rw [hsplit]
  by_cases hsource : name ∈ g.links.map Link.source
  · left
    rw [length_filter_lt_length_iff_exists]
    exact ⟨name, mem_filter.mpr ⟨hsource, by simpa using h⟩, by simp⟩
  · right
    have hkept : ∀ other ∈ g.sourcesOff branch, decide (other ≠ name) = true := by
      intro other hother
      have hne : other ≠ name := fun heq => hsource (heq ▸ (mem_filter.mp hother).1)
      simpa using hne
    refine ⟨by rw [filter_eq_self.mpr hkept], ?_⟩
    rw [Graph.direct, filterMap_eq_nil_iff]
    refine fun l hl => if_neg fun heq => hsource ?_
    rw [← heq]
    exact mem_map_of_mem hl

/-- Lines of siblings below a branch. A name on the branch is not followed again. -/
def branchLines (g : Graph) (branch : List String) (indent : String) : List String → List String
  | [] => []
  | name :: rest =>
    let last := rest.isEmpty
    let below := indent ++ branchIndent last
    (indent ++ branchMark last ++ name) ::
      ((if name ∈ branch then [below ++ branchMark true ++ "(circular reference)"]
        else branchLines g (branch ++ [name]) below (g.direct name))
        ++ branchLines g branch indent rest)
termination_by names => ((g.sourcesOff branch).length, names.length)
decreasing_by
  · rename_i h
    rcases sourcesOff_snoc h with hless | ⟨hsame, hnil⟩
    · exact Prod.Lex.left _ _ hless
    · rw [hsame, hnil]
      exact Prod.Lex.right _ (by simp)
  · exact Prod.Lex.right _ (by simp)

theorem treeLines_eq_branchLines (hbuilt : g.Built) {names : List String}
    (hopen : Open g free trunk) (hnodes : ∀ name ∈ names, name ∈ g.nodes) (indent : String) :
    treeLines g free indent names = branchLines g trunk indent names := by
  induction free, trunk, names using walksFrom.induct g generalizing indent with
  | case1 free trunk => rw [treeLines, branchLines]
  | case2 free trunk name rest ihbelow ihrest =>
    have hnode := hnodes name mem_cons_self
    have hmet := hopen.free_iff name hnode
    have hrest : ∀ other ∈ rest, other ∈ g.nodes := fun other hother =>
      hnodes other (mem_cons_of_mem _ hother)
    rw [treeLines, branchLines, ihrest hopen hrest]
    by_cases hfree : name ∈ free
    · have hbelow := ihbelow hfree (hopen.step hfree hnode) fun dep hdep =>
        hbuilt.mem_nodes_of_direct hdep
      simp only [if_pos hfree, if_neg (hmet.mp hfree), hbelow]
    · have hcircular : name ∈ trunk := by simpa using mt hmet.mpr hfree
      simp only [if_neg hfree, if_pos hcircular]

theorem treeText_eq_branchLines (hbuilt : g.Built) (root : String) :
    g.treeText root =
      String.join ((root :: branchLines g [root] "" (g.direct root)).map (· ++ "\n")) := by
  rw [Graph.treeText,
    treeLines_eq_branchLines hbuilt (open_root hbuilt root) fun dep => hbuilt.mem_nodes_of_direct]

theorem indentOf_snoc (g : Graph) (stem : List String) (name dep : String) :
    g.indentOf (stem ++ [name, dep]) =
    g.indentOf (stem ++ [name]) ++ branchIndent (g.isLastOf name dep) := by
  have hsteps : (stem ++ [name, dep]).zip (stem ++ [name, dep]).tail =
      (stem ++ [name]).zip (stem ++ [name]).tail ++ [(name, dep)] := by
    induction stem with
    | nil => rfl
    | cons first stem ih =>
      cases stem with
      | nil => rfl
      | cons second stem => simpa using ih
  rw [Graph.indentOf, hsteps, map_append, String.join_append]
  rfl

/-- Siblings are printed from what is left of the list of dependencies. -/
theorem isLastOf_eq (h : g.Built) {dep : String} {rest : List String}
    (hleft : dep :: rest <:+ g.direct name) : g.isLastOf name dep = rest.isEmpty := by
  obtain ⟨before, hdirect⟩ := hleft
  have hnodup := h.nodup_direct name
  rw [← hdirect] at hnodup
  rw [Graph.isLastOf, ← hdirect, List.getLast?_append_of_ne_nil _ (by simp)]
  cases rest with
  | nil => simp
  | cons next rest =>
    have hdep : dep ∉ next :: rest := (nodup_cons.mp hnodup.of_append_right).1
    rw [List.getLast?_cons_cons, List.getLast?_eq_some_getLast (by simp)]
    have hne : (next :: rest).getLast (by simp) ≠ dep := fun heq => hdep (heq ▸ getLast_mem _)
    simpa using hne

theorem treeLines_eq (hbuilt : g.Built) {names : List String} (hopen : Open g free trunk)
    (hlast : trunk.getLast? = some name) (hleft : names <:+ g.direct name) :
    treeLines g free (g.indentOf trunk) names =
      (walksFrom g free trunk names).flatMap g.linesOf := by
  induction free, trunk, names using walksFrom.induct g generalizing name with
  | case1 free trunk => simp [treeLines, walksFrom]
  | case2 free trunk dep rest ihbelow ihrest =>
    have hend := isLastOf_eq hbuilt hleft
    have hnode := hbuilt.mem_nodes_of_direct (hleft.subset mem_cons_self)
    have hmet := hopen.free_iff dep hnode
    have hindent : g.indentOf trunk ++ branchIndent rest.isEmpty = g.indentOf (trunk ++ [dep]) := by
      obtain ⟨stem, rfl⟩ := List.getLast?_eq_some_iff.mp hlast
      rw [append_assoc, singleton_append, indentOf_snoc, hend]
    have hline : g.lineOf ⟨trunk, dep⟩ = g.indentOf trunk ++ branchMark rest.isEmpty ++ dep := by
      simp [Graph.lineOf, hlast, hend]
    rw [treeLines, walksFrom, flatMap_cons, flatMap_append, Graph.linesOf, hline,
      ihrest hopen hlast ((suffix_cons dep rest).trans hleft)]
    dsimp only
    rw [hindent]
    by_cases hfree : dep ∈ free
    · have hbelow := ihbelow hfree (hopen.step hfree hnode) (by simp) (suffix_refl _)
      simp [hfree, hmet.mp hfree, hbelow]
    · have hcircular : dep ∈ trunk := by simpa using mt hmet.mpr hfree
      simp [hfree, hcircular, Walk.names]

/-- A walk that goes on from `trunk` with one of the names given, and repeats none before
its last. -/
def Extends (g : Graph) (trunk names : List String) (w : Walk) : Prop :=
  ∃ mid, w.trunk = trunk ++ mid ∧ (∃ a ∈ names, (mid ++ [w.tip]).head? = some a) ∧
    (mid ++ [w.tip]).IsChain g.DependsOn ∧ w.trunk.Nodup

/-- A chain goes on with one of the names that its first name depends on. -/
theorem isChain_cons_iff {tip : String} {mid : List String} :
    (name :: (mid ++ [tip])).IsChain g.DependsOn ↔
      (∃ a ∈ g.direct name, (mid ++ [tip]).head? = some a) ∧
      (mid ++ [tip]).IsChain g.DependsOn := by
  cases hnext : mid ++ [tip] with
  | nil => simp at hnext
  | cons a more => simp [isChain_cons_cons, Graph.mem_direct_iff]

theorem extends_nil : ¬Extends g trunk [] w := by
  rintro ⟨mid, -, ⟨a, ha, -⟩, -⟩
  cases ha

/-- Three ways to go on: end at the first name, go on from it if it is new, or take another name. -/
theorem extends_cons (hnodup : trunk.Nodup) {rest : List String} :
    Extends g trunk (name :: rest) w ↔ w = ⟨trunk, name⟩ ∨
      (name ∉ trunk ∧ Extends g (trunk ++ [name]) (g.direct name) w) ∨ Extends g trunk rest w := by
  constructor
  · rintro ⟨mid, htrunk, ⟨a, ha, hhead⟩, hchain, hdistinct⟩
    rcases mem_cons.mp ha with rfl | ha
    · cases mid with
      | nil =>
        obtain ⟨wtrunk, wtip⟩ := w
        simp only [append_nil, nil_append, List.head?_cons, Option.some.injEq] at htrunk hhead
        exact .inl (by rw [htrunk, hhead])
      | cons first mid =>
        obtain rfl : first = a := by simpa using hhead
        obtain ⟨hnext, hchain⟩ := isChain_cons_iff.mp hchain
        have hfresh : first ∉ trunk := fun hmem =>
          (nodup_append.mp (htrunk ▸ hdistinct)).2.2 first hmem first mem_cons_self rfl
        exact .inr (.inl ⟨hfresh, mid, by simp [htrunk], hnext, hchain, hdistinct⟩)
    · exact .inr (.inr ⟨mid, htrunk, ⟨a, ha, hhead⟩, hchain, hdistinct⟩)
  · rintro (rfl | ⟨-, mid, htrunk, hnext, hchain, hdistinct⟩ | ⟨mid, htrunk, ⟨a, ha, hhead⟩, hchain, hdistinct⟩)
    · exact ⟨[], by simp, ⟨name, by simp, rfl⟩, isChain_singleton _, hnodup⟩
    · exact ⟨name :: mid, by simp [htrunk], ⟨name, by simp, rfl⟩,
        isChain_cons_iff.mpr ⟨hnext, hchain⟩, hdistinct⟩
    · exact ⟨mid, htrunk, ⟨a, mem_cons_of_mem _ ha, hhead⟩, hchain, hdistinct⟩

theorem mem_walksFrom_iff (hbuilt : g.Built) {names : List String} (hopen : Open g free trunk)
    (hnodes : ∀ name ∈ names, name ∈ g.nodes) (w : Walk) :
    w ∈ walksFrom g free trunk names ↔ Extends g trunk names w := by
  induction free, trunk, names using walksFrom.induct g with
  | case1 free trunk => simp [walksFrom, extends_nil]
  | case2 free trunk name rest ihbelow ihrest =>
    have hnode := hnodes name mem_cons_self
    have hafter := ihrest hopen fun other hother => hnodes other (mem_cons_of_mem _ hother)
    rw [walksFrom, extends_cons hopen.trunk_nodup, mem_cons, mem_append, hafter]
    refine or_congr Iff.rfl (or_congr ?_ Iff.rfl)
    have hmet := hopen.free_iff name hnode
    by_cases hfree : name ∈ free
    · have hbelow := ihbelow hfree (hopen.step hfree hnode) fun dep hdep =>
        hbuilt.mem_nodes_of_direct hdep
      rw [if_pos hfree, hbelow]
      exact (and_iff_right (hmet.mp hfree)).symm
    · rw [if_neg hfree]
      exact iff_of_false not_mem_nil fun h => hfree (hmet.mpr h.1)

theorem extends_root_iff {root : String} :
    Extends g [root] (g.direct root) w ↔ g.IsWalk root w := by
  constructor
  · rintro ⟨mid, htrunk, hnext, hchain, hdistinct⟩
    refine ⟨by simp [htrunk], ?_, hdistinct⟩
    rw [Walk.names, htrunk]
    exact isChain_cons_iff.mpr ⟨hnext, hchain⟩
  · rintro ⟨hstarts, hfollows, hdistinct⟩
    obtain ⟨mid, htrunk⟩ := List.head?_eq_some_iff.mp hstarts
    rw [Walk.names, htrunk] at hfollows
    obtain ⟨hnext, hchain⟩ := isChain_cons_iff.mp hfollows
    exact ⟨mid, htrunk, hnext, hchain, hdistinct⟩

theorem exists_prefix_of_mem {names : List String} (h : w ∈ walksFrom g free trunk names) :
    ∃ a ∈ names, trunk ++ [a] <+: w.names := by
  induction free, trunk, names using walksFrom.induct g with
  | case1 free trunk => simp [walksFrom] at h
  | case2 free trunk name rest ihbelow ihrest =>
    rw [walksFrom, mem_cons, mem_append] at h
    rcases h with rfl | hbelow | hafter
    · exact ⟨name, mem_cons_self, prefix_refl _⟩
    · by_cases hfree : name ∈ free
      · rw [if_pos hfree] at hbelow
        obtain ⟨a, -, ha⟩ := ihbelow hfree hbelow
        exact ⟨name, mem_cons_self, (prefix_append _ _).trans ha⟩
      · rw [if_neg hfree] at hbelow
        cases hbelow
    · obtain ⟨a, ha, hprefix⟩ := ihrest hafter
      exact ⟨a, mem_cons_of_mem _ ha, hprefix⟩

theorem pairwise_walksFrom {names : List String} (hlast : trunk.getLast? = some name)
    (hleft : names <:+ g.direct name) :
    (walksFrom g free trunk names).Pairwise fun v w => g.Before v.names w.names := by
  induction free, trunk, names using walksFrom.induct g generalizing name with
  | case1 free trunk => simp [walksFrom]
  | case2 free trunk dep rest ihbelow ihrest =>
    have hsiblings : ∀ v w : Walk, trunk ++ [dep] <+: v.names → w ∈ walksFrom g free trunk rest →
        g.Before v.names w.names := by
      intro v w hv hw
      obtain ⟨later, hlater, hprefix⟩ := exists_prefix_of_mem hw
      obtain ⟨stem, rfl⟩ := List.getLast?_eq_some_iff.mp hlast
      refine .inr ⟨stem, name, dep, later, by simpa using hv, by simpa using hprefix, ?_⟩
      exact (List.Sublist.cons_cons dep (singleton_sublist.mpr hlater)).trans hleft.sublist
    have hthrough : ∀ v ∈ (if dep ∈ free then walksFrom g (free.erase dep) (trunk ++ [dep]) (g.direct dep)
        else []),
        ∃ a, trunk ++ [dep, a] <+: v.names := by
      intro v hv
      by_cases hfree : dep ∈ free
      · rw [if_pos hfree] at hv
        obtain ⟨a, -, ha⟩ := exists_prefix_of_mem hv
        exact ⟨a, by simpa using ha⟩
      · rw [if_neg hfree] at hv
        cases hv
    have hdep : ∀ v : Walk, (∃ a, trunk ++ [dep, a] <+: v.names) → trunk ++ [dep] <+: v.names := by
      rintro v ⟨a, ha⟩
      exact (by simp : trunk ++ [dep] <+: trunk ++ [dep, a]).trans ha
    rw [walksFrom, pairwise_cons, pairwise_append]
    refine ⟨fun w hw => ?_, ?_, ihrest hlast ((suffix_cons dep rest).trans hleft), fun v hv w hw => ?_⟩
    · rcases mem_append.mp hw with hw | hw
      · obtain ⟨a, ha⟩ := hthrough w hw
        refine .inl ⟨hdep w ⟨a, ha⟩, fun heq => ?_⟩
        have hlength := ha.length_le
        rw [← heq] at hlength
        simp [Walk.names] at hlength
      · exact hsiblings ⟨trunk, dep⟩ w (prefix_refl _) hw
    · by_cases hfree : dep ∈ free
      · rw [if_pos hfree]
        exact ihbelow hfree (by simp) (suffix_refl _)
      · rw [if_neg hfree]
        exact List.Pairwise.nil
    · exact hsiblings v w (hdep v (hthrough v hv)) hw

theorem not_before_self (hbuilt : g.Built) (path : List String) : ¬g.Before path path := by
  rintro (⟨-, hne⟩ | ⟨stem, name, a, b, ha, hb, hsublist⟩)
  · exact hne rfl
  · have hsame : stem ++ [name, a] = stem ++ [name, b] :=
      (prefix_of_prefix_length_le ha hb (by simp)).eq_of_length (by simp)
    obtain rfl : a = b := by simpa using hsame
    have hnodup := (hbuilt.nodup_direct name).sublist hsublist
    simp at hnodup

theorem mem_nodes_of_trunk (hbuilt : g.Built) {path : List String} {tip : String}
    (h : (path ++ [tip]).IsChain g.DependsOn) : ∀ name ∈ path, name ∈ g.nodes := by
  induction path with
  | nil => simp
  | cons first path ih =>
    obtain ⟨⟨next, hnext, -⟩, hrest⟩ := isChain_cons_iff.mp h
    intro name hname
    rcases mem_cons.mp hname with rfl | hname
    · obtain ⟨l, hl, hsource, -⟩ := Graph.mem_direct_iff.mp hnext
      exact hsource ▸ hbuilt.source_mem l hl
    · exact ih hrest name hname

end

/-- Below the line of the root, the tree has one line for each walk from it that repeats no name
before its last one, depth first and in the order of insertion; none is longer than there are nodes.
A remark follows the line of a walk that ends in a name it has met, and no other line. -/
theorem treeText_lists_walks (g : Graph) (h : g.Built) (root : String) :
    ∃ ws : List Walk, ws.Nodup ∧ (∀ w, w ∈ ws ↔ g.IsWalk root w) ∧
      ws.Pairwise (fun v w => g.Before v.names w.names) ∧
      (∀ w ∈ ws, w.trunk.length ≤ g.nodes.length) ∧
      g.treeText root = String.join ((root :: ws.flatMap g.linesOf).map (· ++ "\n")) := by
  have hmem : ∀ w, w ∈ walksFrom g (g.nodes.erase root) [root] (g.direct root) ↔ g.IsWalk root w :=
    fun w =>
    (mem_walksFrom_iff h (open_root h root) (fun dep => h.mem_nodes_of_direct) w).trans extends_root_iff
  have hordered : (walksFrom g (g.nodes.erase root) [root] (g.direct root)).Pairwise
      fun v w => g.Before v.names w.names := pairwise_walksFrom rfl (suffix_refl _)
  refine ⟨walksFrom g (g.nodes.erase root) [root] (g.direct root), ?_, hmem, hordered,
    fun w hw => ?_, ?_⟩
  · refine hordered.imp fun {v w} hbefore heq => ?_
    subst heq
    exact not_before_self h _ hbefore
  · have hwalk := (hmem w).mp hw
    exact (hwalk.distinct.subperm (mem_nodes_of_trunk h hwalk.follows)).length_le
  · have hlines : treeLines g (g.nodes.erase root) "" (g.direct root) =
        (walksFrom g (g.nodes.erase root) [root] (g.direct root)).flatMap g.linesOf :=
      treeLines_eq h (open_root h root) rfl (suffix_refl _)
    rw [Graph.treeText, hlines]

/-- A name that leads back to the root, and one that is shared. -/
def backGraph : Graph :=
  Graph.ofCalls [.depend ⟨"a", "b", ""⟩, .depend ⟨"a", "c", ""⟩, .depend ⟨"b", "a", ""⟩,
    .depend ⟨"b", "c", ""⟩]

theorem backGraph_walks : backGraph.Built ∧
    backGraph.treeText "a" = "a\n├── b\n│   ├── a\n│   │   └── (circular reference)\n│   └── c\n└── c\n" ∧
    ∃ ws : List Walk, ws.Nodup ∧ (∀ w, w ∈ ws ↔ backGraph.IsWalk "a" w) ∧
      ws.Pairwise (fun v w => backGraph.Before v.names w.names) ∧ (∀ w ∈ ws, w.trunk.length ≤ 3) ∧
      backGraph.treeText "a" = String.join (("a" :: ws.flatMap backGraph.linesOf).map (· ++ "\n")) := by
  have hbuilt : backGraph.Built := Graph.built_ofCalls _
  have hnodes : backGraph.nodes = ["a", "b", "c"] := by decide +kernel
  have ha : backGraph.direct "a" = ["b", "c"] := by decide +kernel
  have hb : backGraph.direct "b" = ["a", "c"] := by decide +kernel
  have hc : backGraph.direct "c" = [] := by decide +kernel
  refine ⟨hbuilt, ?_, ?_⟩
  · simp [Graph.treeText, treeLines, hnodes, ha, hb, hc, branchMark, branchIndent]
  · have hwalks := treeText_lists_walks backGraph hbuilt "a"
    rw [hnodes] at hwalks
    exact hwalks

end CookbookAtlas.Dependency
