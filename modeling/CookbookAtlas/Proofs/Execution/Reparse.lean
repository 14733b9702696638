import CookbookAtlas.Proofs.Execution.Recursion
import CookbookAtlas.Proofs.Survey.Collected

/-! Trees with and without an index of files. A build takes what a recipe executes from the survey
or reads the recipe's file again. Both say the same up to the way in which the file is written, and
the steps of a build do not look at that. -/
namespace CookbookAtlas

open List Recipe Survey Locate

open Recipe (Item itemsNormalized executed)

namespace Execution

/-- A node without its children, with normalized paths of the files that it stands in. -/
def Info.normalized (i : Info) : Info :=
  { i with file := i.file.map Path.normalize, resource :=
    i.resource.map fun r => r.inFile r.file.normalize }

mutual
def Node.normalized : Node → Node
  | .mk info children => .mk info.normalized (nodesNormalized children)

def nodesNormalized : List Node → List Node
  | [] => []
  | n :: rest => n.normalized :: nodesNormalized rest
end

theorem nodesNormalized_eq_map (nodes : List Node) :
    nodesNormalized nodes = nodes.map Node.normalized := by
  induction nodes with
  | nil => rfl
  | cons n rest ih => rw [nodesNormalized, ih, map_cons]

theorem normalized_loopNode (info : Info) (body : List Node) (c : Attribute.Collection) :
    (loopNode info body c).normalized = loopNode info.normalized (nodesNormalized body) c := by
  have hitem : Node.normalized ∘ loopItem body = loopItem (nodesNormalized body) := by
    funext member
    rfl
  rw [loopNode, Node.normalized, nodesNormalized_eq_map, map_map, hitem]
  rfl

theorem normalized_expandLoop (collections : List Attribute.Collection) (n : Node) :
    (expandLoop collections n).normalized = expandLoop collections n.normalized := by
  obtain ⟨info, children⟩ := n
  have hinfo : (Node.mk info children).normalized.info = info.normalized := rfl
  have hchildren : (Node.mk info children).normalized.children = nodesNormalized children := rfl
  have hkind : info.normalized.kind = info.kind := rfl
  have hname : info.normalized.name = info.name := rfl
  unfold expandLoop
  rw [hinfo, hchildren, hkind, hname, Node.info, Node.children]
  by_cases hloop : info.kind = .conditional ∧ Text.hasPart info.name loopMark = true
  · rw [if_pos hloop, if_pos hloop]
    cases matchCollection? collections info.name with
    | none => rfl
    | some c => exact normalized_loopNode info children c
  · rw [if_neg hloop, if_neg hloop]

namespace Plan
variable {path : Path} {r : Reference}

theorem itemFile?_normalized (item : Item) :
    itemFile? item.normalized = (itemFile? item).map Path.normalize := by
  cases item <;> rfl

theorem findSome?_normalized (items : List Item) :
    (itemsNormalized items).findSome? itemFile? =
    (items.findSome? itemFile?).map Path.normalize := by
  induction items with
  | nil => rfl
  | cons item rest ih =>
    rw [Recipe.itemsNormalized, List.findSome?_cons, List.findSome?_cons, itemFile?_normalized, ih]
    cases itemFile? item <;> rfl

theorem normalized_blockInfo (h : Heading) (children : List Item) :
    (blockInfo h children).normalized = blockInfo h (itemsNormalized children) := by
  simp [blockInfo, Info.normalized, Info.plain, findSome?_normalized]

theorem normalized_resourceNode (p : Plan) (r : Resource) :
    (p.resourceNode r).normalized = p.resourceNode (r.inFile r.file.normalize) := rfl

theorem normalized_includeLeaf (kind : Kind) (name : String) (r : Reference) :
    (includeLeaf kind name r).normalized = includeLeaf kind name (r.inFile r.file.normalize) := rfl

/-- Plans that differ at most in where they take the items of recipes from. -/
structure Agree (p q : Plan) : Prop where
  world : p.world = q.world
  dirs : p.dirs = q.dirs
  maxDepth : p.maxDepth = q.maxDepth
  collections : p.survey.collections = q.survey.collections
  recipeNames : p.survey.recipeNames = q.survey.recipeNames
  items : ∀ {text : List Char} {name : RecipeName} {path : Path}, RecipeName.read text = .ok name →
    recipeFile? p.world p.dirs name = some path →
    (p.items path).map itemsNormalized = (q.items path).map itemsNormalized

variable {p q : Plan}

theorem Agree.resourceNode (h : p.Agree q) {r r' : Resource}
    (hr : r.inFile r.file.normalize = r'.inFile r'.file.normalize) :
    (p.resourceNode r).normalized = (q.resourceNode r').normalized := by
  rw [normalized_resourceNode, normalized_resourceNode, hr, Plan.resourceNode, Plan.resourceNode,
    h.world, h.dirs]

theorem Agree.expandInclude (h : p.Agree q) {r' : Reference}
    (hr : r.inFile r.file.normalize = r'.inFile r'.file.normalize) (visited : List Path)
    (depth : Nat) : Sum.map Info.normalized id (p.expandInclude visited depth r) =
      Sum.map Info.normalized id (q.expandInclude visited depth r') := by
  have hrecipe : r.recipe? = r'.recipe? := by
    have hsame := congrArg Reference.recipe? hr
    exact hsame
  have htarget : r.target = r'.target := by
    have hsame := congrArg Reference.target hr
    exact hsame
  have hleaf : ∀ kind name, (includeLeaf kind name r).normalized =
      (includeLeaf kind name r').normalized := by
    intro kind name
    rw [normalized_includeLeaf, normalized_includeLeaf, hr]
  unfold Plan.expandInclude
  rw [hrecipe, htarget, h.world, h.dirs, h.maxDepth, h.recipeNames]
  cases r'.recipe? with
  | none => exact congrArg Sum.inl (hleaf _ _)
  | some name =>
    dsimp only
    by_cases hdeep : q.maxDepth < depth
    · rw [if_pos hdeep, if_pos hdeep]
      exact congrArg Sum.inl (hleaf _ _)
    · rw [if_neg hdeep, if_neg hdeep]
      cases recipeFile? q.world q.dirs name with
      | none =>
        have hsuggested : ∀ names, ({ includeLeaf .unresolved name.text r with suggestions :=
          names } : Info).normalized =
            ({ includeLeaf .unresolved name.text r' with suggestions := names } : Info).normalized := fun names =>
          congrArg (fun i : Info => { i with suggestions := names }) (hleaf .unresolved name.text)
        exact congrArg Sum.inl (hsuggested _)
      | some path => rfl

theorem read_of_recipe? {name : RecipeName} (h : r.recipe? = some name) :
    ∃ text, RecipeName.read text = .ok name := by
  unfold Reference.recipe? at h
  split at h
  · cases hread : RecipeName.read r.target.toList with
    | error fault => simp [hread, Except.toOption] at h
    | ok other =>
      obtain rfl : other = name := by simpa [hread, Except.toOption] using h
      exact ⟨_, hread⟩
  · cases h

theorem located_of_expandInclude {visited : List Path} {depth : Nat}
    (h : p.expandInclude visited depth r = .inr path) :
    ∃ text name, RecipeName.read text = .ok name ∧ recipeFile? p.world p.dirs name = some path := by
  unfold Plan.expandInclude at h
  cases hrecipe : r.recipe? with
  | none => simp [hrecipe] at h
  | some name =>
    obtain ⟨text, hread⟩ := read_of_recipe? hrecipe
    refine ⟨text, name, hread, ?_⟩
    simp only [hrecipe] at h
    split at h
    · cases h
    · cases hfile : recipeFile? p.world p.dirs name with
      | none => simp [hfile] at h
      | some other =>
        simp only [hfile] at h
        split at h
        · cases h
        · exact congrArg some (Sum.inr.inj h)

def Open.normalized (o : Open) : Open :=
  ⟨o.info.normalized, o.done.map Node.normalized, itemsNormalized o.rest, o.depth⟩

namespace Build

/-- Builds at the same point, but for the way in which files are written. -/
structure Alike (b : Build p) (c : Build q) : Prop where
  visited : b.visited = c.visited
  top : b.top.normalized = c.top.normalized
  outer : b.outer.map Open.normalized = c.outer.map Open.normalized

theorem close_alike (h : p.Agree q) {o o' : Open} (ho : o.normalized = o'.normalized) :
    (close p o).normalized = (close q o').normalized := by
  have hinfo : o.info.normalized = o'.info.normalized := congrArg Open.info ho
  have hdone : o.done.map Node.normalized = o'.done.map Node.normalized := congrArg Open.done ho
  have hview : ∀ (p : Plan) (o : Open), (close p o).normalized =
      .mk o.info.normalized (((o.done.map Node.normalized).reverse).map (expandLoop p.survey.collections)) := by
    intro p o
    rw [close, Node.normalized, nodesNormalized_eq_map, map_map, ← map_reverse, map_map]
    congr 2
    funext n
    exact normalized_expandLoop _ n
  rw [hview, hview, hinfo, hdone, h.collections]

inductive StepsAlike : Option (Node ⊕ Build p) → Option (Node ⊕ Build q) → Prop
  | stuck : StepsAlike none none
  | finished {n n' : Node} : n.normalized = n'.normalized →
    StepsAlike (some (.inl n)) (some (.inl n'))
  | next {b : Build p} {c : Build q} : Alike b c → StepsAlike (some (.inr b)) (some (.inr c))

theorem Alike.add {b : Build p} {c : Build q} (h : Alike b c) {rest rest' : List Item}
    (hrest : itemsNormalized rest = itemsNormalized rest') {n n' : Node}
    (hn : n.normalized = n'.normalized) : Alike (b.add rest n) (c.add rest' n') := by
  obtain ⟨hvisited, htop, houter⟩ := h
  refine ⟨hvisited, ?_, houter⟩
  simp only [Open.normalized, Open.mk.injEq] at htop
  simp [Build.add, Open.normalized, htop, hrest, hn]

theorem Alike.enter {b : Build p} {c : Build q} (h : Alike b c) {rest rest' : List Item}
    (hrest : itemsNormalized rest = itemsNormalized rest') {inner inner' : Open}
    (hinner : inner.normalized = inner'.normalized) :
    Alike (b.enter rest inner) (c.enter rest' inner') := by
  obtain ⟨hvisited, htop, houter⟩ := h
  refine ⟨hvisited, hinner, ?_⟩
  simp only [Open.normalized, Open.mk.injEq] at htop
  simp [Build.enter, Open.normalized, htop, hrest, houter]

section
variable {b : Build p} {c : Build q}

theorem Alike.depth (h : Alike b c) : b.top.depth = c.top.depth := by
  have hsame := congrArg Open.depth h.top
  exact hsame

theorem Alike.rest (h : Alike b c) : itemsNormalized b.top.rest = itemsNormalized c.top.rest := by
  have hsame := congrArg Open.rest h.top
  exact hsame

theorem step_alike_include (h : p.Agree q) (hbc : Alike b c) {r r' : Reference}
    {rest rest' : List Item}
    (hb : b.top.rest = .inclusion r :: rest) (hc : c.top.rest = .inclusion r' :: rest')
    (hr : r.inFile r.file.normalize = r'.inFile r'.file.normalize)
    (hrest : itemsNormalized rest = itemsNormalized rest') : StepsAlike b.step c.step := by
  have hinclude := h.expandInclude hr b.visited (b.top.depth + 1)
  have hsame : q.expandInclude b.visited (b.top.depth + 1) r' =
      q.expandInclude c.visited (c.top.depth + 1) r' := by
    rw [hbc.visited, hbc.depth]
  rw [hsame] at hinclude
  cases hexpand : p.expandInclude b.visited (b.top.depth + 1) r with
  | inl info =>
    rw [hexpand] at hinclude
    cases hexpand' : q.expandInclude c.visited (c.top.depth + 1) r' with
    | inr path => simp [hexpand'] at hinclude
    | inl info' =>
      rw [hexpand', Sum.map_inl, Sum.map_inl, Sum.inl.injEq] at hinclude
      have hleaf : (Node.leaf info).normalized = (Node.leaf info').normalized :=
        congrArg (Node.mk · []) hinclude
      have hstep : b.step = some (.inr (b.add rest (.leaf info))) := by simp [step, hb, hexpand]
      have hstep' : c.step = some (.inr (c.add rest' (.leaf info'))) := by simp [step, hc, hexpand']
      rw [hstep, hstep']
      exact .next (hbc.add hrest hleaf)
  | inr path =>
    rw [hexpand] at hinclude
    cases hexpand' : q.expandInclude c.visited (c.top.depth + 1) r' with
    | inl info' => simp [hexpand'] at hinclude
    | inr path' =>
      obtain rfl : path = path' := by simpa [hexpand'] using hinclude
      obtain ⟨text, name, hread, hfile⟩ := located_of_expandInclude hexpand
      have hitems := h.items hread hfile
      cases hp : p.items path with
      | none =>
        have hq : q.items path = none := by simpa [hp] using hitems.symm
        have hstep : b.step = none := by simp [step, hb, hexpand, hp]
        have hstep' : c.step = none := by simp [step, hc, hexpand', hq]
        rw [hstep, hstep']
        exact .stuck
      | some items =>
        rw [hp, Option.map_some, eq_comm, Option.map_eq_some_iff] at hitems
        obtain ⟨items', hq, hown⟩ := hitems
        have hstep : b.step = some (.inr ({ b with visited := path.normalize :: b.visited }.enter rest
            ⟨recipeInfo path, [], items, b.top.depth + 1⟩)) := by simp [step, hb, hexpand, hp]
        have hstep' : c.step = some (.inr ({ c with visited := path.normalize :: c.visited }.enter rest'
            ⟨recipeInfo path, [], items', c.top.depth + 1⟩)) := by simp [step, hc, hexpand', hq]
        have hvisited : Alike (p := p) (q := q) { b with visited := path.normalize :: b.visited }
            { c with visited := path.normalize :: c.visited } := ⟨by rw [hbc.visited], hbc.top, hbc.outer⟩
        rw [hstep, hstep']
        refine .next (hvisited.enter hrest ?_)
        simp [Open.normalized, hown, hbc.depth]

theorem step_alike_close (h : p.Agree q) (hbc : Alike b c) (hb : b.top.rest = [])
    (hc : c.top.rest = []) : StepsAlike b.step c.step := by
  have hclosed := close_alike h hbc.top
  have houter := hbc.outer
  cases hob : b.outer with
  | nil =>
    cases hoc : c.outer with
    | cons parent' outer' => simp [hob, hoc] at houter
    | nil =>
      have hstep : b.step = some (.inl (close p b.top)) := by simp [step, hb, hob]
      have hstep' : c.step = some (.inl (close q c.top)) := by simp [step, hc, hoc]
      rw [hstep, hstep']
      exact .finished hclosed
  | cons parent outer =>
    cases hoc : c.outer with
    | nil => simp [hob, hoc] at houter
    | cons parent' outer' =>
      rw [hob, hoc, map_cons, map_cons, List.cons.injEq] at houter
      obtain ⟨hparent, hmore⟩ := houter
      have hstep : b.step = some (.inr ⟨b.visited,
          { parent with done := close p b.top :: parent.done }, outer⟩) := by
        simp [step, hb, hob]
      have hstep' :
          c.step = some (.inr ⟨c.visited, { parent' with done := close q c.top :: parent'.done }, outer'⟩) := by
        simp [step, hc, hoc]
      rw [hstep, hstep']
      refine .next ⟨hbc.visited, ?_, hmore⟩
      simp only [Open.normalized, Open.mk.injEq] at hparent
      simp [Open.normalized, hparent, hclosed]

theorem step_alike (h : p.Agree q) (hbc : Alike b c) : StepsAlike b.step c.step := by
  have hrest := hbc.rest
  cases hb : b.top.rest with
  | nil =>
    cases hc : c.top.rest with
    | nil => exact step_alike_close h hbc hb hc
    | cons item' rest' => simp [hb, hc, Recipe.itemsNormalized] at hrest
  | cons item rest =>
    cases hc : c.top.rest with
    | nil => simp [hb, hc, Recipe.itemsNormalized] at hrest
    | cons item' rest' =>
      rw [hb, hc, Recipe.itemsNormalized, Recipe.itemsNormalized, List.cons.injEq] at hrest
      obtain ⟨hitem, hmore⟩ := hrest
      cases item with
      | resource r =>
        cases item' with
        | resource r' =>
          have hr : r.inFile r.file.normalize = r'.inFile r'.file.normalize := by
            simpa [Item.normalized] using hitem
          have hstep : b.step = some (.inr (b.add rest (p.resourceNode r))) := by simp [step, hb]
          have hstep' : c.step = some (.inr (c.add rest' (q.resourceNode r'))) := by simp [step, hc]
          rw [hstep, hstep']
          exact .next (hbc.add hmore (h.resourceNode hr))
        | _ => simp [Item.normalized] at hitem
      | block heading children =>
        cases item' with
        | block heading' children' =>
          simp only [Item.normalized, Item.block.injEq] at hitem
          obtain ⟨rfl, hchildren⟩ := hitem
          have hstep : b.step = some (.inr
              (b.enter rest ⟨blockInfo heading children, [], children, b.top.depth⟩)) := by
            simp [step, hb]
          have hstep' : c.step =
              some (.inr (c.enter rest' ⟨blockInfo heading children', [], children', c.top.depth⟩)) := by
            simp [step, hc]
          rw [hstep, hstep']
          refine .next (hbc.enter hmore ?_)
          simp [Open.normalized, normalized_blockInfo, hchildren, hbc.depth]
        | _ => simp [Item.normalized] at hitem
      | inclusion r =>
        cases item' with
        | inclusion r' => exact step_alike_include h hbc hb hc (by simpa [Item.normalized] using hitem) hmore
        | _ => simp [Item.normalized] at hitem

end

theorem run_alike (h : p.Agree q) {b : Build p} {c : Build q} (hbc : Alike b c) :
    b.run.map Node.normalized = c.run.map Node.normalized := by
  have hstep := step_alike h hbc
  fun_induction run b generalizing c with
  | case1 b hb =>
    rw [hb] at hstep
    generalize hc : c.step = next at hstep
    cases hstep with
    | stuck => rw [run_stuck hc]
  | case2 b root hb =>
    rw [hb] at hstep
    generalize hc : c.step = next at hstep
    cases hstep with
    | finished hroot =>
      rw [run_finished hc]
      exact congrArg some hroot
  | case3 b next hb ih =>
    rw [hb] at hstep
    generalize hc : c.step = next' at hstep
    cases hstep with
    | next hnext =>
      rw [run_of_leads hc]
      exact ih hnext (step_alike h hnext)

end Build

theorem Agree.tree (h : p.Agree q) {text : List Char} {name : RecipeName}
    (hread : RecipeName.read text = .ok name)
    (hfile : recipeFile? p.world p.dirs name = some path) :
    (p.tree path).map Node.normalized = (q.tree path).map Node.normalized := by
  have hitems := h.items hread hfile
  rw [Plan.tree, Plan.tree]
  cases hp : p.items path with
  | none =>
    have hq : q.items path = none := by simpa [hp] using hitems.symm
    rw [hq]
  | some items =>
    rw [hp, Option.map_some, eq_comm, Option.map_eq_some_iff] at hitems
    obtain ⟨items', hq, hown⟩ := hitems
    rw [hq]
    refine Build.run_alike h ⟨rfl, ?_, rfl⟩
    simp [Build.start, Open.normalized, hown]

namespace Build

theorem step_ne_none (h : ∀ path, p.items path ≠ none) (b : Build p) : b.step ≠ none := by
  unfold step
  split
  · simp
  · simp
  · simp
  · simp
  · split
    · simp
    · simpa using h _

theorem run_ne_none (h : ∀ path, p.items path ≠ none) (b : Build p) : b.run ≠ none := by
  fun_induction run b with
  | case1 b hb => exact absurd hb (step_ne_none h b)
  | case2 b root hb => simp
  | case3 b next hb ih => exact ih

end Build

theorem tree_ne_none (hplain : ∀ file bytes, p.world.bytes file = .ok bytes →
    Token.PlainIndents (Text.Utf8.decodeLossy bytes)) (path : Path) : p.tree path ≠ none := by
  have hitems : ∀ path, p.items path ≠ none := by
    intro path
    unfold Plan.items
    split
    · simp
    · simpa using tryFile_ne_none (hplain path) p.limit
  unfold Plan.tree
  split
  · exact absurd ‹_› (hitems path)
  · exact Build.run_ne_none hitems _

theorem items_unindexed (h : p.survey.entry? path = none) :
    (p.items path).map itemsNormalized = executed (parseFile p.world p.limit path) := by
  rw [Plan.items, h]
  simp only [tryFile]
  cases parseFile p.world p.limit path with
  | ok parsed => rfl
  | error fault => cases fault <;> rfl

/-- A survey of the directories has what reading a located file again gives. -/
theorem items_collected (hw : p.world.files.Proper) (hdirs : ∀ d ∈ p.dirs, d.Fixed) {limit : Nat}
    (hsurvey : ofDirectories p.world limit p.dirs = some p.survey) (hpath : path.Fixed)
    (hfile : p.world.isFile path = true) (again : Nat) :
    (p.items path).map itemsNormalized = executed (parseFile p.world again path) := by
  cases hentry : p.survey.entry? path with
  | none => rw [items_unindexed hentry, executed_parseFile rfl hfile hfile]
  | some e =>
    obtain ⟨entries, hcollect, hofEntries⟩ := Option.map_eq_some_iff.1 hsurvey
    have hmem : e ∈ entries := by
      have hfound := mem_of_find?_eq_some hentry
      rw [← hofEntries] at hfound
      simpa [ofEntries] using hfound
    obtain ⟨hfixed, htry⟩ := mem_collect hw hdirs hcollect e hmem
    have hwritten : e.path.normalize.same path.normalize = true := by
      rw [Survey.entry?] at hentry
      simpa using List.find?_some hentry
    have hsame : e.path.components = path.components := hfixed.components_of_same hpath hwritten
    have hparse := parseFile_of_tryFile htry
    have hagain := executed_parseFile hsame (isFile_of_parseFile hparse) hfile limit again
    rw [hparse] at hagain
    rw [Plan.items, hentry, ← hagain]
    rfl

/-- Trees are the same, up to the way in which files are written, whether the items of recipes come
from the survey of the directories or every recipe is read again. There are such trees if the
indents of heredocs are ASCII. -/
theorem tree_indexed_eq_reread {w : World} (hw : w.files.Proper) {dirs : List Path}
    (hdirs : ∀ d ∈ dirs, d.Fixed)
    {limit : Nat} {s t : Survey} (hs : ofDirectories w limit dirs = some s)
    (hcollections : t.collections = s.collections) (hnames : t.recipeNames = s.recipeNames)
    (hindex : ∀ path : Path, path.Fixed → t.entry? path = none) (maxDepth l m : Nat)
    {text : List Char} {name : RecipeName} (hname : RecipeName.read text = .ok name) :
    entry ⟨w, s, dirs, maxDepth, l⟩ name = entry ⟨w, t, dirs, maxDepth, m⟩ name ∧
    ∀ path, entry ⟨w, s, dirs, maxDepth, l⟩ name = .ok path →
      (tree ⟨w, s, dirs, maxDepth, l⟩ path).map Node.normalized =
        (tree ⟨w, t, dirs, maxDepth, m⟩ path).map Node.normalized ∧
      ((∀ file bytes, w.bytes file = .ok bytes → Token.PlainIndents (Text.Utf8.decodeLossy bytes)) →
        tree ⟨w, s, dirs, maxDepth, l⟩ path ≠ none) := by
  let p : Plan := ⟨w, s, dirs, maxDepth, l⟩
  let q : Plan := ⟨w, t, dirs, maxDepth, m⟩
  have hagree : p.Agree q := by
    refine ⟨rfl, rfl, rfl, hcollections.symm, hnames.symm, ?_⟩
    intro text name path hread hlocated
    obtain ⟨hpath, hfile⟩ := fixed_of_recipeFile? hw hdirs hread hlocated
    have hcollected := items_collected (p := p) hw hdirs hs hpath hfile m
    have hreread := items_unindexed (p := q) (hindex path hpath)
    exact hcollected.trans hreread.symm
  refine ⟨rfl, fun path hentry => ?_⟩
  have hlocated : recipeFile? w dirs name = some path := by
    simp only [entry] at hentry
    split at hentry
    · rename_i found hfound
      cases hentry
      exact hfound
    · cases hentry
  exact ⟨hagree.tree hname hlocated, fun hplain => tree_ne_none (p := p) hplain path⟩

theorem entry?_eq_none_of_relative {s : Survey}
    (h : ∀ e ∈ s.entries, .root ∉ e.path.normalize.components)
    (hpath : path.Fixed) : s.entry? path = none := by
  rw [Survey.entry?, List.find?_eq_none]
  intro e he hsame
  have hcomponents : e.path.normalize.components = path.components := by
    rw [← Path.components_normalize hpath.absolute hpath.down]
    simpa [Path.same] using hsame
  refine h e (by simpa using he) ?_
  rw [hcomponents]
  exact Path.isAbsolute_iff.1 hpath.absolute

def nested : World :=
  ⟨⟨[(["w"], .directory), (["w", "metadata.rb"], .file [] false), (["w", "web"], .directory),
    (["w", "web", "recipes"], .directory),
    (["w", "web", "recipes", "default.rb"],
    .file ("package 'x'\n".toList.map fun c => c.toNat.toUInt8) false)]⟩,
    [], [], [], []⟩

/-- The inner cookbook is found in the first directory, and collected from the second one. -/
def nestedDirs : List Path := [⟨"/w"⟩, ⟨"/w//web"⟩]

theorem nested_located :
    recipeFile? nested nestedDirs ⟨⟨"web"⟩, "default"⟩ = some ⟨"/w/web/recipes/default.rb"⟩ := by
  -- A sort of two names does not reduce: the names stand in order already.
  have hsorted : nested.files.names ["w"] = ["metadata.rb", "web"] := by
    have hordered : ["metadata.rb", "web"].Pairwise fun a b => decide (a ≤ b) = true := by
      decide +kernel
    exact mergeSort_of_pairwise hordered
  have hnames : nested.names ⟨"/w"⟩ = .ok ["metadata.rb", "web"] := by
    have hentry : nested.entry ⟨"/w"⟩ = .ok .directory := by rfl
    have hplace : nested.place ⟨"/w"⟩ = .ok ["w"] := by rfl
    simp only [World.names, hentry, hplace, hsorted]
  have hcookbooks : cookbookDirs nested ⟨"/w"⟩ "web" = [⟨"/w/web"⟩] := by
    rw [cookbookDirs, World.childDirectories, hnames]
    decide +kernel
  simp only [recipeFile?, fileIn?, nestedDirs, List.findSome?_cons, hcookbooks]
  decide +kernel

theorem nested_plain (file : Path) (bytes : List UInt8) (h : nested.bytes file = .ok bytes) :
    Token.PlainIndents (Text.Utf8.decodeLossy bytes) := by
  obtain ⟨place, own, executable, -, hget, hbytes⟩ :=
    World.exists_bytes_of_isFile (World.isFile_of_bytes h)
  obtain rfl : own = bytes := by simpa [hbytes] using h
  have hcontents : own = [] ∨ own = "package 'x'\n".toList.map fun c => c.toNat.toUInt8 := by
    simp only [nested, Files.Tree.get?, Files.Tree.lookup] at hget
    split_ifs at hget <;> simp_all
  rcases hcontents with rfl | rfl <;> decide +kernel

theorem nested_reread : ∃ s t : Survey,
    nested.files.Proper ∧ (∀ d ∈ nestedDirs, d.Fixed) ∧
    ofDirectories nested 80 nestedDirs = some s ∧
    t.collections = s.collections ∧ t.recipeNames = s.recipeNames ∧
    (∀ path : Path, path.Fixed → t.entry? path = none) ∧
    (s.entry? ⟨"/w/web/recipes/default.rb"⟩).map Entry.path = some ⟨"/w//web/recipes/default.rb"⟩ ∧
    entry ⟨nested, s, nestedDirs, 5, 80⟩ ⟨⟨"web"⟩, "default"⟩ = .ok ⟨"/w/web/recipes/default.rb"⟩ ∧
    (tree ⟨nested, s, nestedDirs, 5, 80⟩ ⟨"/w/web/recipes/default.rb"⟩).map Node.normalized =
      (tree ⟨nested, t, nestedDirs, 5, 40⟩ ⟨"/w/web/recipes/default.rb"⟩).map Node.normalized ∧
    tree ⟨nested, s, nestedDirs, 5, 80⟩ ⟨"/w/web/recipes/default.rb"⟩ ≠ none := by
  have hproper : nested.files.Proper := ⟨by decide, by decide, by decide⟩
  have hdirs : ∀ d ∈ nestedDirs, d.Fixed := by
    have hall : ∀ d ∈ nestedDirs, d.isAbsolute = true ∧ .parent ∉ d.components := by decide
    exact fun d hd => ⟨(hall d hd).1, (hall d hd).2⟩
  have hknown : (ofDirectories nested 80 nestedDirs).map (fun s => (s.recipeNames,
      (s.entry? ⟨"/w/web/recipes/default.rb"⟩).map Entry.path)) =
      some (["web::default"], some ⟨"/w//web/recipes/default.rb"⟩) := by decide +kernel
  obtain ⟨s, hs, hview⟩ := Option.map_eq_some_iff.1 hknown
  obtain ⟨hnames, hentry⟩ := Prod.mk.inj hview
  let t : Survey := ⟨[⟨⟨"default.rb"⟩, "web", .recipe, .empty⟩], .null, s.collections⟩
  have htnames : t.recipeNames = s.recipeNames := by
    have hown : (Entry.mk ⟨"default.rb"⟩ "web" .recipe .empty).recipeName? = some "web::default" := by
      decide +kernel
    rw [hnames]
    simp [t, Survey.recipeNames, hown]
  have hindex : ∀ path : Path, path.Fixed → t.entry? path = none := by
    have hrelative : ∀ e ∈ t.entries, .root ∉ e.path.normalize.components := by
      intro e he
      obtain rfl : e = ⟨⟨"default.rb"⟩, "web", .recipe, .empty⟩ := by simpa [t] using he
      decide
    exact fun path hpath => entry?_eq_none_of_relative hrelative hpath
  have hfound : entry ⟨nested, s, nestedDirs, 5, 80⟩ ⟨⟨"web"⟩, "default"⟩ =
      .ok ⟨"/w/web/recipes/default.rb"⟩ := by
    simp [entry, nested_located]
  have hread : RecipeName.read "web".toList = .ok ⟨⟨"web"⟩, "default"⟩ := by decide +kernel
  obtain ⟨-, htrees⟩ := tree_indexed_eq_reread hproper hdirs hs (t :=
    t) rfl htnames hindex 5 80 40 hread
  obtain ⟨hsame, hexists⟩ := htrees _ hfound
  exact ⟨s, t, hproper, hdirs, hs, rfl, htnames, hindex, hentry, hfound, hsame, hexists nested_plain⟩

end Plan
end Execution
end CookbookAtlas
