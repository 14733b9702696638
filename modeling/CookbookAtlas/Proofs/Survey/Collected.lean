import CookbookAtlas.Proofs.Files.Children
import CookbookAtlas.Proofs.Locate.Versioned
import CookbookAtlas.Proofs.Recipe.Relocation
import CookbookAtlas.Proofs.Token.Progress

/-! Files that are collected and files that are located. Below absolute directories without `..`
both are told by their components, so a file that was collected and a file that is located are read
alike whenever their normalized paths are the same. -/
namespace CookbookAtlas

open List Recipe

open Files (Place)

variable {entries : List Survey.Entry} {dirs : List Path} {limit : Nat} {dir p q : Path}

namespace Path

/-- An absolute path that never goes up. -/
structure Fixed (p : Path) : Prop where
  absolute : p.isAbsolute = true
  down : .parent ∉ p.components

theorem Fixed.child (h : p.Fixed) {n : String} (hn : IsName n) : (p.child n).Fixed := by
  refine ⟨by rw [isAbsolute_child p hn, h.absolute], ?_⟩
  rw [components_child p hn]
  simpa using h.down

theorem Fixed.descend (h : p.Fixed) {ns : List String} (hns : ∀ n ∈ ns, IsName n) :
    (ns.foldl Path.child p).Fixed := by
  induction ns generalizing p with
  | nil => exact h
  | cons n ns ih =>
    exact ih (h.child (hns n mem_cons_self)) fun m hm => hns m (mem_cons_of_mem _ hm)

/-- Fixed paths with the same normalized path have the same components. -/
theorem Fixed.components_of_same (hp : p.Fixed) (hq : q.Fixed)
    (h : p.normalize.same q.normalize = true) : p.components = q.components := by
  have hsame : p.normalize.components = q.normalize.components := by simpa [same] using h
  rwa [components_normalize hp.absolute hp.down, components_normalize hq.absolute hq.down] at hsame

end Path

namespace World

variable {w : World}

theorem exists_bytes_of_isFile (h : w.isFile p = true) :
    ∃ place bytes executable, w.place p = .ok place ∧
    w.files.get? place = some (.file bytes executable) ∧
      w.bytes p = .ok bytes := by
  cases hplace : w.place p with
  | error fault => simp [isFile, entry, hplace, Except.toOption] at h
  | ok place =>
    cases hget : w.files.get? place with
    | none => simp [isFile, entry, hplace, hget, Except.toOption] at h
    | some found =>
      cases found with
      | directory => simp [isFile, entry, hplace, hget, Except.toOption, Files.Entry.isDirectory] at h
      | file bytes executable =>
        by_cases hslash : namesDirectory p = true
        · simp [isFile, entry, hplace, hget, hslash, Except.toOption] at h
        · exact ⟨place, bytes, executable, rfl, hget, by simp [World.bytes, entry, hplace, hget, hslash]⟩

theorem isFile_of_bytes {bytes : List UInt8} (h : w.bytes p = .ok bytes) : w.isFile p = true := by
  unfold World.bytes at h
  cases hentry : w.entry p with
  | error fault => simp [hentry] at h
  | ok found =>
    cases found with
    | directory => simp [hentry] at h
    | file bytes executable => simp [isFile, hentry, Except.toOption, Files.Entry.isDirectory]

theorem bytes_congr (h : p.components = q.components) (hp : w.isFile p = true)
    (hq : w.isFile q = true) : w.bytes p = w.bytes q := by
  obtain ⟨place, bytes, executable, hplace, hget, hbytes⟩ := exists_bytes_of_isFile hp
  obtain ⟨place', bytes', executable', hplace', hget', hbytes'⟩ := exists_bytes_of_isFile hq
  have hsame : place = place' := by
    have hthere := follow_of_place hplace
    rw [h, follow_of_place hplace'] at hthere
    exact (Except.ok.inj hthere).symm
  subst hsame
  rw [hget] at hget'
  cases hget'
  rw [hbytes, hbytes']

theorem fixed_childDirectory (hw : w.files.Proper) {d : Path} (hp : p.Fixed)
    (h : d ∈ w.childDirectories p) : d.Fixed := by
  obtain ⟨-, -, n, hn, rfl⟩ := (mem_childDirectories_iff hw).1 h
  exact hp.child hn

theorem fixed_of_mem_filesBelow (hw : w.files.Proper) {f : Path} (hp : p.Fixed)
    (h : f ∈ w.filesBelow p) : f.Fixed := by
  unfold filesBelow at h
  cases hplace : w.place p with
  | error fault => simp [hplace] at h
  | ok place =>
    simp only [hplace] at h
    obtain ⟨e, he, hf⟩ := mem_filterMap.1 h
    have hnames : ∀ n ∈ e.1, Path.IsName n := by
      rw [Files.Tree.below, mem_mergeSort] at he
      obtain ⟨old, hold, hdrop⟩ := mem_filterMap.1 he
      simp only [Option.ite_none_right_eq_some, Option.some.injEq] at hdrop
      intro n hn
      rw [← hdrop.2] at hn
      exact hw.named old hold n (mem_of_mem_drop hn)
    simp only [Option.ite_none_left_eq_some, Option.some.injEq] at hf
    exact hf.2 ▸ hp.descend hnames

end World

namespace Survey

open Recipe (executed)

variable {w : World}

theorem fixed_of_mem_roots (hw : w.files.Proper) {root : Path} (hdir : dir.Fixed)
    (h : root ∈ roots w dir) : root.Fixed := by
  unfold roots at h
  split at h
  · obtain rfl : root = dir := by simpa using h
    exact hdir
  · exact World.fixed_childDirectory hw hdir (mem_of_mem_filter h)

theorem fixed_of_mem_sources (hw : w.files.Proper) (hdir : dir.Fixed) {source : Path × Role}
    (h : source ∈ sources w dir) : source.1.Fixed := by
  rcases mem_append.1 h with hmetadata | hlisted
  · obtain ⟨path, hpath, rfl⟩ := mem_map.1 hmetadata
    obtain ⟨n, hn, rfl⟩ := mem_map.1 (mem_of_mem_filter hpath)
    have hname : Path.IsName n := by
      rcases mem_cons.1 hn with rfl | hn
      · decide
      · obtain rfl : n = Locate.metadataDocument := by simpa using hn
        decide
    exact hdir.child hname
  · obtain ⟨⟨folder, role⟩, hfolder, hmem⟩ := mem_flatMap.1 hlisted
    have hname : Path.IsName folder := by
      have hall : ∀ l ∈ layout, Path.IsName l.1 := by decide
      exact hall _ hfolder
    dsimp only at hmem
    split at hmem
    · obtain ⟨path, hpath, rfl⟩ := mem_map.1 hmem
      exact World.fixed_of_mem_filesBelow hw (hdir.child hname) (mem_of_mem_filter hpath)
    · simp at hmem

theorem mem_of_mem_distinctFrom {seen : List Path} (h : dir ∈ distinctFrom seen dirs) :
    dir ∈ dirs := by
  induction dirs generalizing seen with
  | nil => simp [distinctFrom] at h
  | cons p rest ih =>
    rw [distinctFrom] at h
    split at h
    · exact mem_cons_of_mem _ (ih h)
    · rcases mem_cons.1 h with rfl | h
      · exact mem_cons_self
      · exact mem_cons_of_mem _ (ih h)

theorem mem_readSources {cookbook : String} {list : List (Path × Role)}
    (h : readSources w limit cookbook list = some entries) :
    ∀ e ∈ entries, (e.path, e.role) ∈ list ∧ tryFile w limit e.path = some (some e.parsed) := by
  induction list generalizing entries with
  | nil =>
    obtain rfl : entries = [] := by simpa [readSources, eq_comm] using h
    simp
  | cons source rest ih =>
    obtain ⟨path, role⟩ := source
    simp only [readSources, Option.bind_eq_bind, Option.bind_eq_some_iff, Option.pure_def,
      Option.some.injEq] at h
    obtain ⟨parsed, hparsed, more, hmore, hentries⟩ := h
    intro e he
    cases parsed with
    | none =>
      obtain rfl : more = entries := hentries
      exact (ih hmore e he).imp_left (mem_cons_of_mem _)
    | some parsed =>
      rw [← hentries] at he
      rcases mem_cons.1 he with rfl | he
      · exact ⟨mem_cons_self, hparsed⟩
      · exact (ih hmore e he).imp_left (mem_cons_of_mem _)

theorem mem_readCookbooks (h : readCookbooks w limit dirs = some entries) :
    ∀ e ∈ entries, ∃ dir ∈ dirs, (e.path, e.role) ∈ sources w dir ∧
    tryFile w limit e.path = some (some e.parsed) := by
  induction dirs generalizing entries with
  | nil =>
    obtain rfl : entries = [] := by simpa [readCookbooks, eq_comm] using h
    simp
  | cons dir rest ih =>
    simp only [readCookbooks, Option.bind_eq_bind, Option.bind_eq_some_iff, Option.pure_def,
      Option.some.injEq] at h
    obtain ⟨own, hown, more, hmore, rfl⟩ := h
    intro e he
    rcases mem_append.1 he with he | he
    · exact ⟨dir, mem_cons_self, mem_readSources hown e he⟩
    · obtain ⟨other, hother, hread⟩ := ih hmore e he
      exact ⟨other, mem_cons_of_mem _ hother, hread⟩

/-- Every collected file is below the directories, and its entry is what its text says. -/
theorem mem_collect (hw : w.files.Proper) (hdirs : ∀ d ∈ dirs, d.Fixed)
    (h : collect w limit dirs = some entries) :
    ∀ e ∈ entries, e.path.Fixed ∧ tryFile w limit e.path = some (some e.parsed) := by
  intro e he
  obtain ⟨root, hroot, hsource, hread⟩ := mem_readCookbooks h e he
  obtain ⟨dir, hdir, hmem⟩ := mem_flatMap.1 (mem_of_mem_distinctFrom hroot)
  exact ⟨fixed_of_mem_sources hw (fixed_of_mem_roots hw (hdirs dir hdir) hmem) hsource, hread⟩

/-- What a file executes does not depend on how its path is written, nor on the display limit. -/
theorem executed_parseFile (h : p.components = q.components) (hp : w.isFile p = true)
    (hq : w.isFile q = true)
    (limit limit' : Nat) : executed (parseFile w limit p) = executed (parseFile w limit' q) := by
  obtain ⟨place, bytes, executable, -, -, hbytes⟩ := World.exists_bytes_of_isFile hp
  have hsame : w.bytes q = .ok bytes := by rw [← World.bytes_congr h hp hq, hbytes]
  rw [parseFile, parseFile, hbytes, hsame]
  exact executed_elsewhere ⟨Text.Utf8.decodeLossy bytes, q, limit'⟩ h limit

theorem parseSource_of_scan? {s : Source} {tokens : List Token}
    (h : Token.scan? s.chars = some tokens) : parseSource s ≠ .error .splitCharacter := by
  have hdata : ∀ {fault : ParseFault} (value : Option Datum), fault ≠ .splitCharacter →
      parseData fault value ≠ .error .splitCharacter := by
    intro fault value hfault
    cases value with
    | some v => simp [parseData]
    | none => simpa [parseData] using hfault
  unfold parseSource
  dsimp only
  split
  · split
    · simp
    · exact hdata _ (by simp)
  · split
    · simp
    · exact hdata _ (by simp)
  · simp [Recipe.parse?, h]

theorem tryFile_ne_none (hplain : ∀ bytes, w.bytes p = .ok bytes →
    Token.PlainIndents (Text.Utf8.decodeLossy bytes)) (limit : Nat) : tryFile w limit p ≠ none := by
  have hparse : parseFile w limit p ≠ .error .splitCharacter := by
    unfold parseFile
    cases hbytes : w.bytes p with
    | error fault => simp
    | ok bytes =>
      obtain ⟨tokens, htokens⟩ := Token.Scan.Reached.start.scans (hplain bytes hbytes)
      exact parseSource_of_scan? (s := ⟨Text.Utf8.decodeLossy bytes, p, limit⟩) htokens
  unfold tryFile
  split
  · simp
  · contradiction
  · simp

theorem parseFile_of_tryFile {parsed : Parsed} (h : tryFile w limit p = some (some parsed)) :
    parseFile w limit p = .ok parsed := by
  unfold tryFile at h
  split at h
  · rename_i other hparse
    obtain rfl : other = parsed := by simpa using h
    exact hparse
  · cases h
  · cases h

theorem isFile_of_parseFile {parsed : Parsed} (h : parseFile w limit p = .ok parsed) :
    w.isFile p = true := by
  unfold parseFile at h
  cases hbytes : w.bytes p with
  | error fault => simp [hbytes] at h
  | ok bytes => exact World.isFile_of_bytes hbytes

end Survey

namespace Locate

variable {w : World}

theorem isName_withExtension {recipe ext : String} (hrecipe : '/' ∉ recipe.toList)
    (hext : ext ∈ recipeExtensions) : Path.IsName (recipe ++ "." ++ ext) := by
  have hall : ∀ x ∈ recipeExtensions, '/' ∉ x.toList ∧ x.toList.any (· != '.') = true := by decide
  obtain ⟨hslash, hany⟩ := hall ext hext
  obtain ⟨c, hc, hpoint⟩ := any_eq_true.1 hany
  have hmem : c ∈ (recipe ++ "." ++ ext).toList := by simp [hc]
  have hne : ∀ s : String, c ∉ s.toList → recipe ++ "." ++ ext ≠ s := fun s hs he => hs (he ▸ hmem)
  exact ⟨hne "" (by simp), hne "." (by simpa using hpoint),
    hne ".." (by simpa using hpoint), by simp [hrecipe, hslash]⟩

theorem fixed_of_mem_cookbookDirs (hw : w.files.Proper) {cookbook : Path} {name : String}
    (hdir : dir.Fixed) (h : cookbook ∈ cookbookDirs w dir name) : cookbook.Fixed := by
  rcases mem_append.1 h with hself | hchild
  · split at hself
    · obtain rfl : cookbook = dir := by simpa using hself
      exact hdir
    · simp at hself
  · exact World.fixed_childDirectory hw hdir (mem_of_mem_filter hchild)

theorem fixed_recipe {cookbook : Path} (h : cookbook.Fixed) {file : String}
    (hfile : Path.IsName file) : (cookbook.join ⟨"recipes/" ++ file⟩).Fixed := by
  have hchars : (⟨"recipes/" ++ file⟩ : Path).chars = "recipes".toList ++ '/' :: file.toList := by
    simp [Path.chars]
  have hrelative : (⟨"recipes/" ++ file⟩ : Path).isAbsolute = false := by
    rw [Path.isAbsolute, hchars]
    rfl
  have hne : cookbook.chars ≠ [] := by
    intro hnil
    simpa [Path.isAbsolute, hnil] using h.absolute
  have hcomponents : (cookbook.join ⟨"recipes/" ++ file⟩).components =
      cookbook.components ++ [.name "recipes", .name file] := by
    rw [Path.components_join hne hrelative, hchars, Path.body_append, Path.body_name (by decide),
      Path.body_name hfile]
    rfl
  refine ⟨?_, ?_⟩
  · rw [Path.isAbsolute_iff, hcomponents]
    exact mem_append_left _ (Path.isAbsolute_iff.1 h.absolute)
  · rw [hcomponents]
    simpa using h.down

theorem fixed_of_recipeFile? (hw : w.files.Proper) (hdirs : ∀ d ∈ dirs, d.Fixed) {text : List Char}
    {n : RecipeName}
    (hn : RecipeName.read text = .ok n) {path : Path} (h : recipeFile? w dirs n = some path) :
    path.Fixed ∧ w.isFile path = true := by
  obtain ⟨-, hrecipe⟩ := accepted_of_readRecipe hn
  have hslash : '/' ∉ n.recipe.toList := by
    simp only [RecipeName.acceptsRecipe, Bool.and_eq_true, Bool.not_eq_true', contains_eq_mem,
      decide_eq_false_iff_not] at hrecipe
    exact hrecipe.2
  obtain ⟨dir, hdir, hfound⟩ := exists_of_findSome?_eq_some h
  obtain ⟨cookbook, hcookbook, hfile⟩ := exists_of_findSome?_eq_some hfound
  refine ⟨?_, List.find?_some hfile⟩
  have hfixed := fixed_of_mem_cookbookDirs hw (hdirs dir hdir) hcookbook
  obtain ⟨relative, hrelative, rfl⟩ := mem_map.1 (mem_of_find?_eq_some hfile)
  obtain ⟨ext, hext, rfl⟩ := mem_map.1 hrelative
  have hbelow := fixed_recipe hfixed (isName_withExtension hslash hext)
  simpa [String.append_assoc] using hbelow

end Locate
end CookbookAtlas
