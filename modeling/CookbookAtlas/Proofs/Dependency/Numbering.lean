import CookbookAtlas.Proofs.Dependency.Cycle
import Mathlib.Data.Finset.Dedup
import Mathlib.Data.Finset.Card

/-! How a graph comes about, call by call. A graph with numbered nodes keeps a table from names to
numbers beside a store of nodes and edges, which tells the neighbors of a node newest first. After
every sequence of calls the table and the names are inverse to each other, each ordered pair of
names has one edge with the first constraint given for it, and all that can be asked is as in the
graph of names and links. -/
namespace CookbookAtlas.Dependency

open List
variable {g : Graph} {l : Link} {i j : Nat}

inductive Call
  | mention (name : String)
  | depend (link : Link)

namespace Call

def names : Call → List String
  | .mention name => [name]
  | .depend link => [link.source, link.target]

def link? : Call → Option Link
  | .mention _ => none
  | .depend link => some link

end Call

/-- The names that calls mention, each as often as it is mentioned. -/
def mentioned (calls : List Call) : List String := calls.flatMap Call.names

/-- The dependencies that calls add, also those added before. -/
def added (calls : List Call) : List Link := calls.filterMap Call.link?

theorem added_snoc (calls : List Call) (call : Call) :
    added (calls ++ [call]) = added calls ++ call.link?.toList := by
  simp only [added, filterMap_append]
  cases call <;> rfl

namespace Link

def pair (l : Link) : String × String := (l.source, l.target)

end Link

namespace Graph

def apply (g : Graph) : Call → Graph
  | .mention name => g.ensureNode name
  | .depend link => g.add link.source link.target link.constraint

def ofCalls (calls : List Call) : Graph := calls.foldl apply empty

theorem ofCalls_snoc (calls : List Call) (call : Call) :
    ofCalls (calls ++ [call]) = (ofCalls calls).apply call := by
  simp [ofCalls]

theorem built_ofCalls (calls : List Call) : (ofCalls calls).Built := by
  refine Built.foldl (fun g call h => ?_) .empty calls
  cases call with
  | mention name => exact h.ensureNode name
  | depend link => exact h.add link.source link.target link.constraint

end Graph

/-- The calls that enter a registry into a graph: its cookbooks, then its edges. -/
def callsOf (r : Lock.Registry) : List Call :=
  r.records.map (fun record => .mention record.name) ++
    (r.edges.map Prod.snd).flatMap fun edge =>
      edge.dependencies.map fun t => .depend ⟨edge.cookbook, t.name, t.constraint⟩

theorem ofRegistry_eq_ofCalls (r : Lock.Registry) :
    Graph.ofRegistry r = Graph.ofCalls (callsOf r) := by
  rw [Graph.ofCalls, callsOf, foldl_append, foldl_map, foldl_flatMap, Graph.ofRegistry]
  simp only [foldl_map]
  rfl

namespace Graph

theorem nodup_ensureNode (h : g.nodes.Nodup) (name : String) : (g.ensureNode name).nodes.Nodup := by
  by_cases hname : name ∈ g.nodes
  · simpa [ensureNode, hname] using h
  · simpa [ensureNode, hname] using List.Nodup.append h (nodup_singleton name)
      (by simpa using hname)

theorem Built.nodup_nodes (h : g.Built) : g.nodes.Nodup := by
  induction h with
  | empty => simp [Graph.empty]
  | ensureNode name _ ih => exact nodup_ensureNode ih name
  | add source target constraint _ ih =>
    rw [nodes_add]
    exact nodup_ensureNode (nodup_ensureNode ih source) target

theorem hasLink_eq_true_iff {source target : String} :
    g.hasLink source target = true ↔ (source, target) ∈ g.links.map Link.pair := by
  simp [hasLink, Link.pair]

theorem links_add (g : Graph) (l : Link) :
    (g.add l.source l.target l.constraint).links = if l.pair ∈ g.links.map Link.pair then g.links
    else g.links ++ [l] := by
  have hsame : ((g.ensureNode l.source).ensureNode l.target).links = g.links := by
    rw [links_ensureNode, links_ensureNode]
  have hlink : ((g.ensureNode l.source).ensureNode l.target).hasLink l.source l.target = true ↔
      l.pair ∈ g.links.map Link.pair := by
    rw [hasLink_eq_true_iff, hsame]
    rfl
  rw [add]
  simp only [hlink]
  split
  · exact hsame
  · simp only [hsame]

theorem mem_nodes_ofCalls (calls : List Call) (name : String) :
    name ∈ (ofCalls calls).nodes ↔ name ∈ mentioned calls := by
  induction calls using List.reverseRecOn with
  | nil => simp [ofCalls, empty, mentioned]
  | append_singleton calls call ih =>
    have hsplit : mentioned (calls ++ [call]) = mentioned calls ++ call.names := by simp [mentioned]
    rw [ofCalls_snoc, hsplit, mem_append, ← ih]
    cases call with
    | mention other => simp [apply, Call.names]
    | depend link => simp [apply, Call.names, nodes_add, or_assoc]

theorem find?_links_ofCalls (calls : List Call) (pair : String × String) :
    (ofCalls calls).links.find? (fun l => l.pair == pair) =
    (added calls).find? fun l => l.pair == pair := by
  induction calls using List.reverseRecOn with
  | nil => rfl
  | append_singleton calls call ih =>
    rw [ofCalls_snoc, added_snoc, List.find?_append, ← ih]
    cases call with
    | mention name => simp [apply, links_ensureNode, Call.link?]
    | depend link =>
      rw [apply, links_add]
      split
      · rename_i hmem
        -- the pair has its link already, so what is added is never found
        obtain ⟨first, hfirst, hpair⟩ := mem_map.mp hmem
        by_cases hlink : link.pair = pair
        · have hsome : ((ofCalls calls).links.find? fun l => l.pair == pair).isSome = true :=
            List.find?_isSome.mpr ⟨first, hfirst, by simp [hpair, hlink]⟩
          rw [Option.or_of_isSome hsome]
        · simp [Call.link?, hlink]
      · simp [List.find?_append, Call.link?]

theorem nodup_pairs_ofCalls (calls : List Call) : ((ofCalls calls).links.map Link.pair).Nodup := by
  induction calls using List.reverseRecOn with
  | nil => exact nodup_nil
  | append_singleton calls call ih =>
    rw [ofCalls_snoc]
    cases call with
    | mention name => simpa [apply, links_ensureNode] using ih
    | depend link =>
      rw [apply, links_add]
      split
      · exact ih
      · rename_i hnew
        rw [map_append, map_singleton]
        exact List.Nodup.append ih (nodup_singleton _) (by simpa using hnew)

theorem mem_pairs_ofCalls (calls : List Call) (pair : String × String) :
    pair ∈ (ofCalls calls).links.map Link.pair ↔ pair ∈ (added calls).map Link.pair := by
  have hfound : ∀ links : List Link, pair ∈ links.map Link.pair ↔
      (links.find? fun l => l.pair == pair).isSome = true := by
    intro links
    simp [List.find?_isSome]
  rw [hfound, hfound, find?_links_ofCalls]

end Graph

theorem firstMentions_append (known xs ys : List String) :
    firstMentions known (xs ++ ys) =
    firstMentions known xs ++ firstMentions (known ++ firstMentions known xs) ys := by
  induction xs generalizing known with
  | nil => simp [firstMentions]
  | cons name xs ih =>
    by_cases hknown : name ∈ known
    · simpa [firstMentions, hknown] using ih known
    · simp [firstMentions, hknown, ih]

def targetsAdded (calls : List Call) (name : String) : List String :=
  ((added calls).filter fun l => l.source == name).map Link.target

theorem Graph.direct_ofCalls (calls : List Call) (name : String) :
    (ofCalls calls).direct name = firstMentions [] (targetsAdded calls name) := by
  induction calls using List.reverseRecOn with
  | nil => rfl
  | append_singleton calls call ih =>
    rw [ofCalls_snoc]
    cases call with
    | mention other => simpa [apply, targetsAdded, added_snoc, Call.link?] using ih
    | depend link =>
      have hsplit : targetsAdded (calls ++ [.depend link]) name =
          targetsAdded calls name ++ if link.source = name then [link.target] else [] := by
        by_cases hsource : link.source = name <;> simp [targetsAdded, added_snoc, Call.link?, hsource]
      rw [apply, direct_add, ih, hsplit, firstMentions_append]
      by_cases hsource : link.source = name <;> simp [hsource, firstMentions]

structure NumberedEdge where
  source : Nat
  target : Nat
  constraint : String

variable {e : NumberedEdge}

/-- A store of nodes with names, which it numbers, and of edges between the numbers: its operations,
and what they do to the nodes and to the edges in order of insertion. -/
structure Store (σ : Type) where
  empty : σ
  addNode : σ → String → σ × Nat
  addEdge : σ → NumberedEdge → σ
  names : σ → List String
  edges : σ → List NumberedEdge
  hasEdge : σ → Nat → Nat → Bool
  neighbors : σ → Nat → List Nat
  nodeCount : σ → Nat
  edgeCount : σ → Nat
  names_empty : names empty = []
  names_addNode : ∀ s name, names (addNode s name).1 = names s ++ [name]
  names_addEdge : ∀ s e, names (addEdge s e) = names s
  number_addNode : ∀ s name, (addNode s name).2 = (names s).length
  edges_empty : edges empty = []
  edges_addNode : ∀ s name, edges (addNode s name).1 = edges s
  edges_addEdge : ∀ s e, edges (addEdge s e) = edges s ++ [e]
  hasEdge_iff : ∀ s i j, hasEdge s i j = true ↔ ∃ e ∈ edges s, e.source = i ∧ e.target = j
  neighbors_newest_first : ∀ s i, neighbors s i =
    (edges s).reverse.filterMap fun e => if e.source = i then some e.target else none
  nodeCount_eq : ∀ s, nodeCount s = (names s).length
  edgeCount_eq : ∀ s, edgeCount s = (edges s).length

attribute [simp] Store.names_empty Store.names_addNode Store.names_addEdge Store.number_addNode
  Store.edges_empty Store.edges_addNode Store.edges_addEdge

/-- Two lists, the edges newest first. -/
def Store.ofLists : Store (List String × List NumberedEdge) where
  empty := ([], [])
  addNode s name := ((s.1 ++ [name], s.2), s.1.length)
  addEdge s e := (s.1, e :: s.2)
  names s := s.1
  edges s := s.2.reverse
  hasEdge s i j := s.2.any fun e => e.source == i && e.target == j
  neighbors s i := s.2.filterMap fun e => if e.source = i then some e.target else none
  nodeCount s := s.1.length
  edgeCount s := s.2.length
  names_empty := rfl
  names_addNode _ _ := rfl
  names_addEdge _ _ := rfl
  number_addNode _ _ := rfl
  edges_empty := rfl
  edges_addNode _ _ := rfl
  edges_addEdge _ _ := reverse_cons
  hasEdge_iff s i j := by simp
  neighbors_newest_first s i := by rw [reverse_reverse]
  nodeCount_eq _ := rfl
  edgeCount_eq _ := length_reverse.symm

/-- A graph whose nodes are numbered in order of first mention, with the number of every name. -/
structure Numbered (σ : Type) where
  store : σ
  numbers : List (String × Nat)

namespace Numbered
variable {σ : Type}

def number? (x : Numbered σ) (name : String) : Option Nat := x.numbers.lookup name

section
variable (S : Store σ)

def empty : Numbered σ := ⟨S.empty, []⟩

/-- The number of a name, which is a new one if the name has none. -/
def ensure (x : Numbered σ) (name : String) : Numbered σ × Nat :=
  match x.number? name with
  | some i => (x, i)
  | none =>
    let added := S.addNode x.store name
    (⟨added.1, (name, added.2) :: x.numbers⟩, added.2)

def add (x : Numbered σ) (l : Link) : Numbered σ :=
  let first := x.ensure S l.source
  let second := first.1.ensure S l.target
  if S.hasEdge second.1.store first.2 second.2 then second.1
  else { second.1 with store := S.addEdge second.1.store ⟨first.2, second.2, l.constraint⟩ }

def direct (x : Numbered σ) (name : String) : List String :=
  match x.number? name with
  | some i => ((S.neighbors x.store i).filterMap fun j => (S.names x.store)[j]?).reverse
  | none => []

def apply (x : Numbered σ) : Call → Numbered σ
  | .mention name => (x.ensure S name).1
  | .depend link => x.add S link

def ofCalls (calls : List Call) : Numbered σ := calls.foldl (apply S) (empty S)

end

def named (names : List String) (e : NumberedEdge) : Option Link := do
  let source ← names[e.source]?
  let target ← names[e.target]?
  return ⟨source, target, e.constraint⟩

/-- A numbered graph stands for a graph of names: the table and the names are inverse to each other,
and the edges are the links. -/
structure Represents (S : Store σ) (x : Numbered σ) (g : Graph) : Prop where
  names_eq : S.names x.store = g.nodes
  number?_iff : ∀ name i, x.number? name = some i ↔ (S.names x.store)[i]? = some name
  edges_named : (S.edges x.store).map (named (S.names x.store)) = g.links.map some

theorem named_eq_some {names : List String} :
    named names e = some l ↔
      names[e.source]? = some l.source ∧ names[e.target]? = some l.target ∧
      e.constraint = l.constraint := by
  obtain ⟨source, target, constraint⟩ := l
  constructor
  · intro h
    simp only [named, Option.bind_eq_bind, Option.bind_eq_some_iff, Option.pure_def,
      Option.some.injEq, Link.mk.injEq] at h
    obtain ⟨s, hs, t, ht, rfl, rfl, rfl⟩ := h
    exact ⟨hs, ht, rfl⟩
  · rintro ⟨hs, ht, hc⟩
    simp only at hs ht hc
    simp [named, hs, ht, hc]

theorem getElem?_snoc_eq_some {names : List String} {name other : String} :
    (names ++ [name])[i]? = some other ↔
    names[i]? = some other ∨ (i = names.length ∧ other = name) := by
  rcases Nat.lt_trichotomy i names.length with hlt | rfl | hgt
  · rw [List.getElem?_append_left hlt]
    exact ⟨.inl, fun h => h.resolve_right fun hend => Nat.ne_of_lt hlt hend.1⟩
  · simp [eq_comm]
  · have hlong : (names ++ [name]).length ≤ i := by
      rw [length_append, length_singleton]
      exact hgt
    simp [List.getElem?_eq_none hlong, Nat.ne_of_gt hgt, Nat.le_of_lt hgt]

theorem named_append {names more : List String} (h : named names e = some l) :
    named (names ++ more) e = some l := by
  obtain ⟨hs, ht, hc⟩ := named_eq_some.mp h
  have hkept : ∀ {i : Nat} {name : String}, names[i]? = some name →
      (names ++ more)[i]? = some name := fun hi => by
    rw [List.getElem?_append_left (List.getElem?_eq_some_iff.mp hi).1, hi]
  exact named_eq_some.mpr ⟨hkept hs, hkept ht, hc⟩

theorem getElem?_ensure {S : Store σ} {x : Numbered σ} {a : String}
    (h : (S.names x.store)[i]? = some a) (name : String) :
    (S.names (x.ensure S name).1.store)[i]? = some a := by
  rw [Numbered.ensure]
  split
  · exact h
  · dsimp only
    rw [S.names_addNode]
    exact getElem?_snoc_eq_some.mpr (.inl h)

namespace Represents
section
variable {S : Store σ} {x : Numbered σ} {g : Graph}

theorem number_unique (h : Represents S x g) {name : String}
    (hi : (S.names x.store)[i]? = some name) (hj : (S.names x.store)[j]? = some name) : i = j :=
  Option.some.inj (((h.number?_iff name i).mpr hi).symm.trans ((h.number?_iff name j).mpr hj))

theorem named_of_mem (h : Represents S x g) (he : e ∈ S.edges x.store) :
    ∃ l ∈ g.links, named (S.names x.store) e = some l := by
  have hmem : named (S.names x.store) e ∈ g.links.map some := by
    rw [← h.edges_named]
    exact mem_map_of_mem he
  obtain ⟨l, hl, heq⟩ := mem_map.mp hmem
  exact ⟨l, hl, heq.symm⟩

theorem mem_nodes_iff (h : Represents S x g) (name : String) :
    name ∈ g.nodes ↔ ∃ i, x.number? name = some i := by
  rw [← h.names_eq, mem_iff_getElem?]
  exact exists_congr fun i => (h.number?_iff name i).symm

theorem ensure (h : Represents S x g) (name : String) :
    Represents S (x.ensure S name).1 (g.ensureNode name) ∧
      (S.names (x.ensure S name).1.store)[(x.ensure S name).2]? = some name := by
  cases hnumber : x.number? name with
  | some i =>
    have hmem : name ∈ g.nodes := (h.mem_nodes_iff name).mpr ⟨i, hnumber⟩
    have hsame : x.ensure S name = (x, i) := by rw [Numbered.ensure, hnumber]
    rw [hsame, Graph.ensureNode, if_pos hmem]
    exact ⟨h, (h.number?_iff name i).mp hnumber⟩
  | none =>
    have hnew : name ∉ g.nodes := fun hmem => by
      obtain ⟨i, hi⟩ := (h.mem_nodes_iff name).mp hmem
      rw [hnumber] at hi
      cases hi
    have hgrown : x.ensure S name =
        (⟨(S.addNode x.store name).1, (name, (S.names x.store).length) :: x.numbers⟩,
          (S.names x.store).length) := by
      rw [Numbered.ensure, hnumber, ← S.number_addNode x.store name]
    rw [hgrown, Graph.ensureNode, if_neg hnew]
    refine ⟨⟨by simp [h.names_eq], fun other i => ?_, ?_⟩, by simp⟩
    · rw [S.names_addNode, getElem?_snoc_eq_some, ← h.number?_iff]
      by_cases hother : other = name
      · subst hother
        rw [hnumber]
        simp [number?, eq_comm]
      · have hne : (other == name) = false := by simpa using hother
        simp [number?, lookup_cons, hne, hother]
    · rw [S.edges_addNode, S.names_addNode, ← h.edges_named]
      refine map_congr_left fun e he => ?_
      obtain ⟨l, -, hl⟩ := h.named_of_mem he
      rw [hl]
      exact named_append hl

theorem edge_of_mem (h : Represents S x g) (hl : l ∈ g.links) :
    ∃ e ∈ S.edges x.store, named (S.names x.store) e = some l := by
  have hmem : some l ∈ (S.edges x.store).map (named (S.names x.store)) := by
    rw [h.edges_named]
    exact mem_map_of_mem hl
  exact mem_map.mp hmem

theorem number_eq_iff (h : Represents S x g) {a b : String} (hi : (S.names x.store)[i]? = some a)
    (hj : (S.names x.store)[j]? = some b) : i = j ↔ a = b := by
  constructor
  · rintro rfl
    exact Option.some.inj (hi.symm.trans hj)
  · rintro rfl
    exact h.number_unique hi hj

theorem hasEdge_iff (h : Represents S x g) {source target : String}
    (hi : (S.names x.store)[i]? = some source) (hj : (S.names x.store)[j]? = some target) :
    S.hasEdge x.store i j = true ↔ (source, target) ∈ g.links.map Link.pair := by
  simp only [S.hasEdge_iff, mem_map, Link.pair, Prod.mk.injEq]
  constructor
  · rintro ⟨e, he, hsource, htarget⟩
    obtain ⟨l, hl, hnamed⟩ := h.named_of_mem he
    obtain ⟨hs, ht, -⟩ := named_eq_some.mp hnamed
    exact ⟨l, hl, (h.number_eq_iff hs hi).mp hsource, (h.number_eq_iff ht hj).mp htarget⟩
  · rintro ⟨l, hl, hsource, htarget⟩
    obtain ⟨e, he, hnamed⟩ := h.edge_of_mem hl
    obtain ⟨hs, ht, -⟩ := named_eq_some.mp hnamed
    exact ⟨e, he, (h.number_eq_iff hs hi).mpr hsource, (h.number_eq_iff ht hj).mpr htarget⟩

theorem add (h : Represents S x g) (l : Link) :
    Represents S (x.add S l) (g.add l.source l.target l.constraint) := by
  obtain ⟨hfirst, hnumber⟩ := h.ensure l.source
  obtain ⟨hsecond, htarget⟩ := hfirst.ensure l.target
  have hsource := getElem?_ensure hnumber l.target
  have hlink := (hsecond.hasEdge_iff hsource htarget).trans Graph.hasLink_eq_true_iff.symm
  rw [Numbered.add, Graph.add]
  simp only [hlink]
  split
  · exact hsecond
  · refine ⟨?_, fun name i => ?_, ?_⟩
    · rw [S.names_addEdge]
      exact hsecond.names_eq
    · rw [S.names_addEdge]
      exact hsecond.number?_iff name i
    · have hnew : named (S.names ((x.ensure S l.source).1.ensure S l.target).1.store)
          ⟨(x.ensure S l.source).2, ((x.ensure S l.source).1.ensure S l.target).2, l.constraint⟩ = some l :=
        named_eq_some.mpr ⟨hsource, htarget, rfl⟩
      rw [S.names_addEdge, S.edges_addEdge, map_append, map_append, hsecond.edges_named,
        map_singleton, hnew]
      rfl

theorem apply (h : Represents S x g) (call : Call) :
    Represents S (x.apply S call) (g.apply call) := by
  cases call with
  | mention name => exact (h.ensure name).1
  | depend link => exact h.add link

/-- What is collected from the edges is what is collected from the links. -/
theorem filterMap_edges (h : Represents S x g) {f : NumberedEdge → Option String}
    {k : Link → Option String} (hfk : ∀ e l, named (S.names x.store) e = some l → f e = k l) :
    (S.edges x.store).filterMap f = g.links.filterMap k := by
  have hpointwise : ∀ e ∈ S.edges x.store, f e = (named (S.names x.store) e).bind k := by
    intro e he
    obtain ⟨l, -, hl⟩ := h.named_of_mem he
    rw [hl, hfk e l hl]
    rfl
  calc (S.edges x.store).filterMap f
      = ((S.edges x.store).map (named (S.names x.store))).filterMap fun o => o.bind k := by
        rw [filterMap_map]
        exact filterMap_congr hpointwise
    _ = g.links.filterMap k := by
        rw [h.edges_named, filterMap_map]
        rfl

theorem direct_eq (h : Represents S x g) (name : String) : x.direct S name = g.direct name := by
  cases hnumber : x.number? name with
  | none =>
    have hnone : g.direct name = [] := by
      rw [Graph.direct, filterMap_eq_nil_iff]
      intro l hl
      obtain ⟨e, -, hnamed⟩ := h.edge_of_mem hl
      refine if_neg fun hsource => ?_
      have hsome := (h.number?_iff l.source e.source).mpr (named_eq_some.mp hnamed).1
      rw [hsource, hnumber] at hsome
      cases hsome
    rw [hnone, Numbered.direct, hnumber]
  | some i =>
    have hi : (S.names x.store)[i]? = some name := (h.number?_iff name i).mp hnumber
    have hcollected : x.direct S name = (S.edges x.store).filterMap fun e =>
        (if e.source = i then some e.target else none).bind fun j => (S.names x.store)[j]? := by
      rw [Numbered.direct, hnumber]
      dsimp only
      rw [S.neighbors_newest_first, filterMap_filterMap, ← filterMap_reverse, reverse_reverse]
    rw [hcollected]
    refine h.filterMap_edges fun e l hl => ?_
    obtain ⟨hs, ht, -⟩ := named_eq_some.mp hl
    by_cases hsource : e.source = i
    · simp [hsource, (h.number_eq_iff hs hi).mp hsource, ht]
    · simp [hsource, mt (h.number_eq_iff hs hi).mpr hsource]

theorem nodup_ends (h : Represents S x g) (hpairs : (g.links.map Link.pair).Nodup) :
    ((S.edges x.store).map fun e => (e.source, e.target)).Nodup := by
  have hnames : ((S.edges x.store).map fun e => (e.source, e.target)).map
        (fun p => ((S.names x.store)[p.1]?, (S.names x.store)[p.2]?)) =
      (g.links.map Link.pair).map fun p => (some p.1, some p.2) := by
    have hends := congrArg (List.map fun o : Option Link => (o.map Link.source, o.map Link.target))
      h.edges_named
    rw [map_map, map_map] at hends ⊢
    refine Eq.trans (map_congr_left fun e he => ?_) hends
    obtain ⟨l, -, hl⟩ := h.named_of_mem he
    obtain ⟨hs, ht, -⟩ := named_eq_some.mp hl
    simp [hl, hs, ht]
  have hinjective : Function.Injective fun p : String × String => (some p.1, some p.2) := by
    rintro ⟨a, b⟩ ⟨c, d⟩ heq
    simpa using heq
  exact List.Nodup.of_map _ (hnames ▸ hpairs.map hinjective)

theorem nodeCount_eq (h : Represents S x g) : S.nodeCount x.store = g.nodes.length := by
  rw [S.nodeCount_eq, h.names_eq]

theorem edgeCount_eq (h : Represents S x g) : S.edgeCount x.store = g.links.length := by
  have hlength := congrArg List.length h.edges_named
  rw [length_map, length_map] at hlength
  rw [S.edgeCount_eq, hlength]

end
end Represents

theorem represents_ofCalls (S : Store σ) (calls : List Call) :
    Represents S (ofCalls S calls) (Graph.ofCalls calls) := by
  induction calls using List.reverseRecOn with
  | nil =>
    exact ⟨S.names_empty, by simp [ofCalls, empty, number?],
      by simp [ofCalls, empty, Graph.ofCalls, Graph.empty]⟩
  | append_singleton calls call ih =>
    rw [Graph.ofCalls_snoc, ofCalls, foldl_append]
    exact ih.apply call

end Numbered

/-- What graphs keep of the calls that made them, the one with numbers beside the one without. -/
structure Recorded {σ : Type} (S : Store σ) (calls : List Call) (x : Numbered σ) (g : Graph) :
    Prop where
  /-- Table and names are inverse to each other, and edges are links. -/
  represents : Numbered.Represents S x g
  numbered_iff : ∀ name, (∃ i, x.number? name = some i) ↔ name ∈ mentioned calls
  /-- An ordered pair has one edge at most. -/
  ends_nodup : ((S.edges x.store).map fun e => (e.source, e.target)).Nodup
  pairs_nodup : (g.links.map Link.pair).Nodup
  /-- A link is the first one added for its pair. -/
  link_iff : ∀ l, l ∈ g.links ↔ (added calls).find? (fun m => m.pair == l.pair) = some l
  node_count : g.nodes.length = (mentioned calls).toFinset.card
  edge_count : g.links.length = ((added calls).map Link.pair).toFinset.card
  direct_eq : ∀ name, g.direct name = firstMentions [] (targetsAdded calls name)
  numbered_node_count : S.nodeCount x.store = g.nodes.length
  numbered_edge_count : S.edgeCount x.store = g.links.length
  numbered_direct_eq : ∀ name, x.direct S name = g.direct name

namespace Graph

theorem length_nodes_ofCalls (calls : List Call) :
    (ofCalls calls).nodes.length = (mentioned calls).toFinset.card := by
  rw [← toFinset_card_of_nodup (built_ofCalls calls).nodup_nodes]
  congr 1
  ext name
  rw [mem_toFinset, mem_toFinset, mem_nodes_ofCalls]

theorem length_links_ofCalls (calls : List Call) :
    (ofCalls calls).links.length = ((added calls).map Link.pair).toFinset.card := by
  rw [← length_map Link.pair, ← toFinset_card_of_nodup (nodup_pairs_ofCalls calls)]
  congr 1
  ext pair
  rw [mem_toFinset, mem_toFinset, mem_pairs_ofCalls]

theorem mem_links_iff_find? {links : List Link} (h : (links.map Link.pair).Nodup) (l : Link) :
    l ∈ links ↔ links.find? (fun m => m.pair == l.pair) = some l := by
  refine ⟨fun hl => ?_, mem_of_find?_eq_some⟩
  have hsome : (links.find? fun m => m.pair == l.pair).isSome = true :=
    List.find?_isSome.mpr ⟨l, hl, by simp⟩
  obtain ⟨found, hfound⟩ := Option.isSome_iff_exists.mp hsome
  have hpair : found.pair = l.pair := by simpa using List.find?_some hfound
  rw [hfound, inj_on_of_nodup_map h (mem_of_find?_eq_some hfound) hl hpair]

end Graph

/-- Every sequence of calls is recorded, in every store that keeps its laws: names have one number
each, a pair of names has one link with the first constraint given for it, counts are those of
different names and pairs, and what a name depends on stands in the order in which it was first
added. The graph of a registry comes from such calls. -/
theorem calls_recorded :
    (∀ (σ : Type) (S : Store σ) calls,
    Recorded S calls (Numbered.ofCalls S calls) (Graph.ofCalls calls)) ∧
    ∀ r : Lock.Registry, Graph.ofRegistry r = Graph.ofCalls (callsOf r) := by
  refine ⟨fun σ S calls => ?_, ofRegistry_eq_ofCalls⟩
  have h := Numbered.represents_ofCalls S calls
  have hpairs := Graph.nodup_pairs_ofCalls calls
  exact {
    represents := h
    numbered_iff := fun name => (h.mem_nodes_iff name).symm.trans (Graph.mem_nodes_ofCalls calls name)
    ends_nodup := h.nodup_ends hpairs
    pairs_nodup := hpairs
    link_iff := fun l => by rw [Graph.mem_links_iff_find? hpairs, Graph.find?_links_ofCalls]
    node_count := Graph.length_nodes_ofCalls calls
    edge_count := Graph.length_links_ofCalls calls
    direct_eq := Graph.direct_ofCalls calls
    numbered_node_count := h.nodeCount_eq
    numbered_edge_count := h.edgeCount_eq
    numbered_direct_eq := h.direct_eq }

/-- A pair given twice, and a name that depends on itself. -/
def repeatedCalls : List Call :=
  [.depend ⟨"a", "b", ">= 1.0"⟩, .mention "c", .depend ⟨"a", "a", ""⟩, .depend ⟨"a", "b", "= 2.0"⟩]

theorem repeatedCalls_recorded :
    Recorded .ofLists repeatedCalls (Numbered.ofCalls .ofLists repeatedCalls) (Graph.ofCalls repeatedCalls) ∧
      (Numbered.ofCalls .ofLists repeatedCalls).direct .ofLists "a" = ["b", "a"] ∧
      (Graph.ofCalls repeatedCalls).links = [⟨"a", "b", ">= 1.0"⟩, ⟨"a", "a", ""⟩] :=
  ⟨calls_recorded.1 _ .ofLists repeatedCalls, by decide +kernel, by decide +kernel⟩

end CookbookAtlas.Dependency
