import CookbookAtlas.Proofs.Json.RoundTrip
import CookbookAtlas.Proofs.Lock.Keyed
import Mathlib.Data.List.Nodup
import Mathlib.Data.List.Perm.Basic

/-! Lock documents that are written and read back. Reading gives every record and every edge that
was written, once, and nothing else; each dependency of an edge carries what is locked under its
name. -/
namespace CookbookAtlas.Lock

open List Text Json

namespace Table

variable {α : Type} {t : Table α}

theorem perm_insert {name : String} (h : name ∉ t.keys) (value : α) :
    (t.insert name value).Perm ((name, value) :: t) := by
  induction t with
  | nil => exact List.Perm.refl _
  | cons first t ih =>
    obtain ⟨k, v⟩ := first
    have hnot : name ≠ k ∧ name ∉ keys t := by simpa [keys] using h
    rw [Table.insert, if_neg (Ne.symm hnot.1)]
    by_cases hlt : name < k
    · rw [if_pos hlt]
    · rw [if_neg hlt]
      exact ((ih hnot.2).cons (k, v)).trans (List.Perm.swap _ _ _)

/-- A table of entries with distinct names holds each of them, and nothing else. -/
theorem perm_ofList {entries : List (String × α)} (h : (entries.map Prod.fst).Nodup) :
    (ofList entries).Perm entries := by
  have hfold : ∀ (xs : List (String × α)) (t : Table α), (t.keys ++ xs.map Prod.fst).Nodup →
      (xs.foldl (fun table e => table.insert e.1 e.2) t).Perm (t ++ xs) := by
    intro xs
    induction xs with
    | nil => simp
    | cons e xs ih =>
      intro t ht
      have hfresh : e.1 ∉ t.keys := fun hmem => (nodup_append.1 ht).2.2 _ hmem _ mem_cons_self rfl
      have hinsert : (t.insert e.1 e.2).Perm (e :: t) := perm_insert hfresh e.2
      have hmoved : (t.insert e.1 e.2 ++ xs).Perm (t ++ e :: xs) :=
        (hinsert.append_right xs).trans perm_middle.symm
      have hnodup : ((t.insert e.1 e.2).keys ++ xs.map Prod.fst).Nodup := by
        have hkeys := hmoved.map Prod.fst
        rw [map_append, map_append] at hkeys
        exact (hkeys.nodup_iff).2 ht
      exact (ih (t.insert e.1 e.2) hnodup).trans hmoved
  exact hfold entries [] (by simpa [keys] using h)

/-- Names are looked up in a sorted table as they are among its entries in any order. -/
theorem Sorted.get?_of_perm (h : t.Sorted) {entries : List (String × α)} (hperm : t.Perm entries)
    (name : String) : t.get? name = (entries.find? fun e => e.1 = name).map Prod.snd := by
  cases hfind : entries.find? fun e => e.1 = name with
  | none =>
    have hnot : name ∉ t.keys := by
      intro hmem
      obtain ⟨e, he, hname⟩ := mem_map.1 hmem
      simpa [hname] using List.find?_eq_none.1 hfind e (hperm.mem_iff.1 he)
    cases hget : t.get? name with
    | none => rfl
    | some value => exact absurd (mem_map_of_mem (mem_of_get? hget)) hnot
  | some e =>
    have hname : e.1 = name := by simpa using List.find?_some hfind
    have hmem : e ∈ t := hperm.mem_iff.2 (mem_of_find?_eq_some hfind)
    have hget : t.get? e.1 = some e.2 := h.get?_of_mem hmem
    rw [← hname, hget]
    rfl

end Table

theorem parenthesized?_version {version : List Char} (h : ')' ∉ version) :
    parenthesized? (' ' :: '(' :: (version ++ [')'])) = some version := by
  have hother : ∀ c ∈ version, decide (c ≠ ')') = true :=
    fun c hc => decide_eq_true fun he => h (he ▸ hc)
  have htrim : trimLeft (' ' :: '(' :: (version ++ [')'])) = '(' :: (version ++ [')']) := rfl
  have hdrop : (version ++ [')']).dropWhile (· ≠ ')') = [')'] := by
    rw [dropWhile_append_of_pos hother]
    rfl
  have htake : (version ++ [')']).takeWhile (· ≠ ')') = version := by
    rw [takeWhile_append_of_pos hother]
    simp
  rw [parenthesized?, htrim]
  simp only [hdrop, htake]
  rfl

theorem parenthesized?_inside {name : List Char} (hne : name ≠ []) (hopening : '(' ∉ name)
    (hlast : ∀ c ∈ name.getLast?, isBlank c = false) (rest : List Char) :
    parenthesized? (name ++ rest) = none := by
  induction name with
  | nil => exact absurd rfl hne
  | cons c name ih =>
    by_cases hblank : isBlank c = true
    · have hmore : name ≠ [] := by
        rintro rfl
        simp [hblank] at hlast
      have hskip : parenthesized? (c :: (name ++ rest)) = parenthesized? (name ++ rest) := by
        simp [parenthesized?, trimLeft, hblank]
      rw [cons_append, hskip]
      refine ih hmore (fun hmem => hopening (mem_cons_of_mem _ hmem)) ?_
      rwa [List.getLast?_cons_of_ne_nil hmore] at hlast
    · have hc : c ≠ '(' := fun he => hopening (he ▸ mem_cons_self)
      have hkept : trimLeft (c :: (name ++ rest)) = c :: (name ++ rest) := by simp [trimLeft, hblank]
      rw [cons_append, parenthesized?, hkept]
      simp [hc]

theorem keyFrom_name {name version : List Char} (hopening : '(' ∉ name) (hnewline : '\n' ∉ name)
    (hlast : ∀ c ∈ name.getLast?, isBlank c = false) (hversion : ')' ∉ version) (done : List Char) :
    keyFrom done (name ++ ' ' :: '(' :: (version ++ [')'])) =
      some (done.reverse ++ name, version) := by
  induction name generalizing done with
  | nil =>
    rw [keyFrom.eq_def]
    simp [parenthesized?_version hversion]
  | cons c name ih =>
    have hinside := parenthesized?_inside
      (by simp) hopening hlast (' ' :: '(' :: (version ++ [')']))
    have hc : c ≠ '\n' := fun he => hnewline (he ▸ mem_cons_self)
    have hrest := ih (fun hmem => hopening (mem_cons_of_mem _ hmem))
      (fun hmem => hnewline (mem_cons_of_mem _ hmem))
      (fun d hd => hlast d (mem_getLast?_cons hd)) (c :: done)
    rw [keyFrom.eq_def, hinside]
    simpa [hc] using hrest

/-- Where a cookbook was found: under a path that is the source itself or one of its options, or
elsewhere. -/
inductive Place
  | source (path : String)
  | option (path : String)
  | remote (origin cacheKey : Option String)

/-- A member that is left out where there is nothing to say. -/
def stated (name : String) : Option String → Members
  | some text => [(name, .string text)]
  | none => []

namespace Place

def origin : Place → Origin
  | .source path | .option path => .localPath ⟨path⟩
  | .remote origin key => .remote origin key

def members : Place → Members
  | .source path => [("source", .string path)]
  | .option path => [("source_options", .object [("path", .string path)])]
  | .remote origin key => stated "origin" origin ++ stated "cache_key" key

end Place

structure Locked where
  name : String
  version : String
  identifier : String
  place : Place

namespace Locked

def record (l : Locked) : Record := ⟨l.name, l.version, l.identifier, l.place.origin⟩

def datum (l : Locked) : Datum :=
  .object (("version", .string l.version) :: ("identifier", .string l.identifier) :: l.place.members)

end Locked

/-- The dependencies of a cookbook, each with its constraint. A name and a version can be told apart
in the key that they are written to. -/
structure Solved where
  name : String
  version : String
  dependencies : List (String × String)
  name_ne : name ≠ ""
  opening_not_mem : '(' ∉ name.toList
  newline_not_mem : '\n' ∉ name.toList
  last_not_blank : ∀ c ∈ name.toList.getLast?, isBlank c = false
  closing_not_mem : ')' ∉ version.toList

namespace Solved

def key (s : Solved) : String := s.name ++ " (" ++ s.version ++ ")"

def datum (s : Solved) : Datum :=
  .array (s.dependencies.map fun d => .array [.string d.1, .string d.2])

theorem edgeKey_key (s : Solved) : edgeKey s.key = (s.name, s.version) := by
  have hne : s.name.toList ≠ [] := fun h => s.name_ne (by simpa using h)
  obtain ⟨c, cs, hname⟩ := exists_cons_of_ne_nil hne
  have hopening := s.opening_not_mem
  have hnewline := s.newline_not_mem
  have hlast := s.last_not_blank
  rw [hname] at hopening hnewline hlast
  have hc : c ≠ '\n' := fun he => hnewline (he ▸ mem_cons_self)
  have hcut := keyFrom_name (fun hmem => hopening (mem_cons_of_mem _ hmem))
    (fun hmem => hnewline (mem_cons_of_mem _ hmem)) (fun d hd => hlast d (mem_getLast?_cons hd))
    s.closing_not_mem [c]
  have hchars : s.key.toList = c :: (cs ++ ' ' :: '(' :: (s.version.toList ++ [')'])) := by
    simp [key, hname]
  have hback : String.ofList (c :: cs) = s.name := by rw [← hname, String.ofList_toList]
  rw [edgeKey, hchars]
  simp [hc, hcut, hback]

end Solved

/-- A lock: cookbooks and dependencies, both by name. -/
structure Document where
  policyName : Option String
  locks : List Locked
  solved : List Solved
  locks_nodup : (locks.map Locked.name).Nodup
  solved_nodup : (solved.map Solved.name).Nodup

namespace Document

def datum (d : Document) : Datum :=
  .object (stated "name" d.policyName ++
    [("cookbook_locks", .object (d.locks.map fun l => (l.name, l.datum))),
      ("solution_dependencies", .object [("dependencies", .object (d.solved.map fun s => (s.key, s.datum)))])])

def text (d : Document) : List Char := (Json.compact d.datum).toList

def locked? (d : Document) (name : String) : Option Locked := d.locks.find? fun l => l.name = name

def solved? (d : Document) (name : String) : Option Solved := d.solved.find? fun s => s.name = name

def target (d : Document) (dependency : String × String) : Target :=
  ⟨dependency.1, dependency.2, (d.locked? dependency.1).map Locked.identifier,
    (d.locked? dependency.1).map Locked.version⟩

def edge (d : Document) (s : Solved) : Edge := ⟨s.name, s.version, s.dependencies.map d.target⟩

end Document

theorem numberless_stated {name : String} {text : Option String} {m : String × Datum}
    (h : m ∈ stated name text) : isNumberless m.2 = true := by
  cases text with
  | none => simp [stated] at h
  | some text =>
    obtain rfl : m = (name, .string text) := by simpa [stated] using h
    rfl

theorem Place.numberless_members (p : Place) : ∀ m ∈ p.members, isNumberless m.2 = true := by
  intro m hm
  cases p with
  | source path =>
    obtain rfl : m = ("source", .string path) := by simpa [members] using hm
    rfl
  | option path =>
    obtain rfl : m = ("source_options", .object [("path", .string path)]) := by
      simpa [members] using hm
    rfl
  | remote origin key =>
    rcases mem_append.1 hm with hm | hm
    · exact numberless_stated hm
    · exact numberless_stated hm

theorem Locked.numberless_datum (l : Locked) : isNumberless l.datum = true := by
  have hmembers : hasNumberless l.place.members = true := by
    rw [hasNumberless_eq_all, all_eq_true]
    exact l.place.numberless_members
  simp [datum, isNumberless, hasNumberless, hmembers]

theorem Solved.numberless_datum (s : Solved) : isNumberless s.datum = true := by
  simp [datum, isNumberless, areNumberless_eq_all]

theorem Document.numberless_datum (d : Document) : isNumberless d.datum = true := by
  rw [datum, isNumberless, hasNumberless_eq_all, all_append, Bool.and_eq_true]
  constructor
  · rw [all_eq_true]
    exact fun m hm => numberless_stated hm
  · simp [isNumberless, hasNumberless_eq_all, Locked.numberless_datum, Solved.numberless_datum]

def Locked.entry (l : Locked) : Entry :=
  match l.place with
  | .source path => ⟨l.version, l.identifier, some path, none, none, none⟩
  | .option path =>
    ⟨l.version, l.identifier, none, some (.object [("path", .string path)]), none, none⟩
  | .remote origin key => ⟨l.version, l.identifier, none, none, origin, key⟩

theorem Locked.record_entry (l : Locked) : l.entry.record l.name = l.record := by
  unfold entry record Entry.record Entry.originOf Entry.localSource? Place.origin
  cases l.place <;> rfl

theorem keys_stated (name : String) (text : Option String) :
    (stated name text).keys.Sublist [name] := by
  cases text with
  | none => exact nil_sublist _
  | some text => exact List.Sublist.refl _

theorem Locked.keys_nodup (l : Locked) :
    (Members.keys
      (("version", .string l.version) :: ("identifier", .string l.identifier) :: l.place.members)).Nodup := by
  cases hplace : l.place with
  | source path | option path => simp [Members.keys, Place.members]
  | remote origin key =>
    have hkeys : (Members.keys (stated "origin" origin ++ stated "cache_key" key)).Sublist
        ["origin", "cache_key"] := by
      rw [Members.keys, map_append]
      exact (keys_stated "origin" origin).append (keys_stated "cache_key" key)
    exact List.Nodup.sublist ((hkeys.cons_cons "identifier").cons_cons "version") (by decide)

theorem Locked.decode_datum (l : Locked) (depth : Nat) :
    Entry.decode (depth + 2) (Json.docOf l.datum) = some l.entry := by
  rw [datum, Entry.decode, record?_docOf l.keys_nodup]
  obtain ⟨name, version, identifier, place⟩ := l
  rcases place with path | path | ⟨_ | origin, _ | key⟩ <;>
    simp [entry, Entry.fieldNames, Place.members, stated, Members.get?, Fields.required,
      Fields.optional,
      Fields.withDefault, Fields.get, Json.docOf, docMembers, Decoder.string, Decoder.datum,
      Decoder.nullable, Doc.datum?, membersDatum?, Members.ofPairs, Members.insert,
      StringText.text?]

theorem Solved.decode_datum (s : Solved) (depth : Nat) :
    Decoder.list (Decoder.list Decoder.string) (depth + 2) (Json.docOf s.datum) =
      some (s.dependencies.map fun d => [d.1, d.2]) := by
  have hdoc : Json.docOf s.datum =
      .array (s.dependencies.map fun d => .array [.string ⟨d.1, true⟩, .string ⟨d.2, true⟩]) := by
    rw [datum, Json.docOf, docItems_eq_map, map_map]
    rfl
  rw [hdoc, Decoder.list]
  exact Decoder.all_map fun d _ => rfl

namespace Document

variable (d : Document)

def solution :
    Solution := d.solved.map fun s => (s.key, s.dependencies.map fun dep => [dep.1, dep.2])

theorem decode_locks (depth : Nat) :
    Decoder.map Entry.decode (depth + 3) (Json.docOf (.object (d.locks.map fun l => (l.name, l.datum)))) =
      some (d.locks.map fun l => (l.name, l.entry)) := by
  rw [Json.docOf, docMembers_eq_map, map_map, Decoder.map]
  exact Decoder.pairs_map fun l _ => l.decode_datum depth

theorem decode_solution (depth : Nat) :
    decodeSolution (depth + 4)
      (Json.docOf (.object [("dependencies", .object (d.solved.map fun s => (s.key, s.datum)))])) =
      some d.solution := by
  have hpairs : Decoder.map (Decoder.list (Decoder.list Decoder.string)) (depth + 3)
      (Json.docOf (.object (d.solved.map fun s => (s.key, s.datum)))) = some d.solution := by
    rw [Json.docOf, docMembers_eq_map, map_map, Decoder.map]
    exact Decoder.pairs_map fun s _ => s.decode_datum depth
  rw [decodeSolution, record?_docOf (by simp [Members.keys])]
  simpa [solutionFields, Members.get?, Fields.withDefault, Fields.get] using hpairs

theorem decode_datum (depth : Nat) :
    Sections.decode (depth + 5) (Json.docOf d.datum) =
      some ⟨d.policyName, some (d.locks.map fun l => (l.name, l.entry)), some d.solution⟩ := by
  let members : Members := stated "name" d.policyName ++
    [("cookbook_locks", .object (d.locks.map fun l => (l.name, l.datum))),
      ("solution_dependencies", .object [("dependencies", .object (d.solved.map fun s => (s.key, s.datum)))])]
  let fields : Fields := ⟨depth + 4,
    Sections.fieldNames.map fun name => (members.get? name).map Json.docOf⟩
  have hrecord : Json.record? Sections.fieldNames (depth + 5) (Json.docOf d.datum) =
      some fields := by
    have hkeys : members.keys.Sublist ["name", "cookbook_locks", "solution_dependencies"] := by
      have hrest := (keys_stated "name" d.policyName).append
        (List.Sublist.refl ["cookbook_locks", "solution_dependencies"])
      simpa [members, Members.keys] using hrest
    exact record?_docOf (List.Nodup.sublist hkeys (by decide)) _ _
  have hget : ∀ {i : Nat} {name : String}, Sections.fieldNames[i]? = some name →
      fields.get i = (members.get? name).map Json.docOf := fun h => Fields.get_map h _ _
  have hname : fields.optional 0 Decoder.string = some d.policyName := by
    rw [Fields.optional, Fields.withDefault, hget rfl]
    cases hpolicy : d.policyName with
    | none => simp [members, hpolicy, stated, Members.get?]
    | some text => simp [members, hpolicy, stated, Members.get?, Json.docOf, Decoder.nullable,
        Decoder.string, StringText.text?]
  have hlocks : fields.get 1 = some (Json.docOf (.object (d.locks.map fun l => (l.name, l.datum)))) := by
    rw [hget rfl]
    cases hpolicy : d.policyName <;> simp [members, hpolicy, stated, Members.get?]
  have hsolution : fields.get 2 = some (Json.docOf
      (.object [("dependencies", .object (d.solved.map fun s => (s.key, s.datum)))])) := by
    rw [hget rfl]
    cases hpolicy : d.policyName <;> simp [members, hpolicy, stated, Members.get?]
  rw [Sections.decode, hrecord]
  simp only [Option.bind_eq_bind, Option.bind_some, hname, Fields.optional_object hlocks,
    Fields.optional_object hsolution]
  have hread := d.decode_locks (depth + 1)
  have hsolved := d.decode_solution depth
  rw [show fields.depth = depth + 4 from rfl, hread, hsolved]
  rfl

theorem target?_written {cookbooks : Table Record}
    (h : ∀ name, cookbooks.get? name = (d.locked? name).map Locked.record)
    (dependency : String × String) :
    target? cookbooks [dependency.1, dependency.2] = some (d.target dependency) := by
  have hidentifier : Record.identifier ∘ Locked.record = Locked.identifier := rfl
  have hversion : Record.version ∘ Locked.record = Locked.version := rfl
  simp [target?, target, h, hidentifier, hversion]

theorem edgeOf_written {cookbooks : Table Record}
    (h : ∀ name, cookbooks.get? name = (d.locked? name).map Locked.record) (s : Solved) :
    edgeOf cookbooks (s.key, s.dependencies.map fun dep => [dep.1, dep.2]) =
      (s.name, d.edge s) := by
  have htargets : (s.dependencies.map fun dep => [dep.1, dep.2]).filterMap (target? cookbooks) =
      s.dependencies.map d.target := by
    rw [filterMap_map, ← filterMap_eq_map]
    exact filterMap_congr fun dep _ => d.target?_written h dep
  rw [edgeOf, s.edgeKey_key, htargets]
  rfl

theorem nodup_keys : (d.solution.map Prod.fst).Nodup := by
  have hkeys : d.solution.map Prod.fst = d.solved.map Solved.key := by
    simp [solution, Function.comp_def]
  have hnames : (d.solved.map Solved.key).map (fun key => (edgeKey key).1) =
      d.solved.map Solved.name := by
    simp [Solved.edgeKey_key, Function.comp_def]
  rw [hkeys]
  exact List.Nodup.of_map (fun key => (edgeKey key).1) (hnames ▸ d.solved_nodup)

/-- A lock that is written is read back: its records are those that were written, and for every name
with dependencies there is one edge, with what is locked under the names of the dependencies. -/
theorem read_text : ∃ r, read d.text = .ok r ∧ r.policyName = d.policyName ∧
    r.records.Perm (d.locks.map Locked.record) ∧
    (∀ name, r.get? name = (d.locked? name).map Locked.record) ∧
    (r.edges.map Prod.snd).Perm (d.solved.map d.edge) ∧
    (∀ name, r.edge? name = (d.solved? name).map d.edge) := by
  have hdecode : Json.decode? Sections.decode d.text =
      some ⟨d.policyName, some (d.locks.map fun l => (l.name, l.entry)), some d.solution⟩ := by
    rw [Json.decode?, text, readDoc?_compact d.numberless_datum]
    exact d.decode_datum 122
  let cookbooks : Table Record :=
    (Table.ofList (d.locks.map fun l => (l.name, l.entry))).map fun e => (e.1, e.2.record e.1)
  let r : Registry := ⟨d.policyName, cookbooks, edgesOf cookbooks d.solution, none⟩
  have hread : read d.text = .ok r := by
    rw [read, hdecode]
  have hkeyed : r.Keyed := Registry.keyed_of_read hread
  have hcookbooks : cookbooks.Perm (d.locks.map fun l => (l.name, l.record)) := by
    have hnodup : ((d.locks.map fun l => (l.name, l.entry)).map Prod.fst).Nodup := by
      simpa [Function.comp_def] using d.locks_nodup
    have hperm := (Table.perm_ofList hnodup).map fun e => (e.1, e.2.record e.1)
    simpa [cookbooks, Function.comp_def, Locked.record_entry] using hperm
  have hlocked : ∀ name, cookbooks.get? name = (d.locked? name).map Locked.record := by
    intro name
    rw [hkeyed.cookbooks_sorted.get?_of_perm hcookbooks, List.find?_map, Option.map_map]
    rfl
  have hedges : r.edges.Perm (d.solved.map fun s => (s.name, d.edge s)) := by
    have hinner := (Table.perm_ofList d.nodup_keys).map (edgeOf cookbooks)
    have hsolution : d.solution.map (edgeOf cookbooks) = d.solved.map fun s => (s.name, d.edge s) := by
      rw [solution, map_map]
      exact map_congr_left fun s _ => d.edgeOf_written hlocked s
    rw [hsolution] at hinner
    have hnodup : (((Table.ofList d.solution).map (edgeOf cookbooks)).map Prod.fst).Nodup := by
      rw [(hinner.map Prod.fst).nodup_iff]
      simpa [Function.comp_def] using d.solved_nodup
    exact (Table.perm_ofList hnodup).trans hinner
  refine ⟨r, hread, rfl, ?_, hlocked, ?_, ?_⟩
  · have hrecords := hcookbooks.map Prod.snd
    simpa [Registry.records, r, Function.comp_def] using hrecords
  · have hvalues := hedges.map Prod.snd
    simpa [Function.comp_def] using hvalues
  · intro name
    rw [Registry.edge?, hkeyed.edges_sorted.get?_of_perm hedges, List.find?_map, Option.map_map]
    rfl

example : String.ofList (text ⟨none, [],
    [⟨" a) b", "1 (\n2",
    [("apt", "~> 7.0")], by simp, by simp, by simp, by rintro c ⟨⟩; decide, by simp⟩], by simp,
      by simp⟩) =
    "\x7b\"cookbook_locks\":\x7b\x7d,\"solution_dependencies\":\x7b\"dependencies\":" ++
      "\x7b\" a) b (1 (\\n2)\":[[\"apt\",\"~> 7.0\"]]\x7d\x7d\x7d" := by
  decide +kernel

end Document
end CookbookAtlas.Lock
