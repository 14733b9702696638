import CookbookAtlas.Path.Basic
import Mathlib.Data.List.DropRight
import Mathlib.Data.List.Induction

/-! The components of a path: those of a path below another, of its parent, and of a path that is
put together from components. -/
namespace CookbookAtlas

open List
variable {mark : Char} {cs : List Char} {p : Path} {n : String}

namespace Text

theorem splitOnChar_ne_nil (mark : Char) (cs : List Char) : splitOnChar mark cs ≠ [] := by
  cases cs with
  | nil => simp [splitOnChar]
  | cons c cs =>
    simp only [splitOnChar]
    split
    · simp
    · split <;> simp

theorem splitOnChar_append (mark : Char) (xs ys : List Char) :
    splitOnChar mark (xs ++ mark :: ys) = splitOnChar mark xs ++ splitOnChar mark ys := by
  induction xs with
  | nil => simp [splitOnChar]
  | cons x xs ih =>
    by_cases hx : x = mark
    · simp [splitOnChar, hx, ih]
    · obtain ⟨field, fields, hxs⟩ := exists_cons_of_ne_nil (splitOnChar_ne_nil mark xs)
      rw [hxs] at ih
      simp [splitOnChar, hx, ih, hxs]

theorem splitOnChar_of_not_mem (h : mark ∉ cs) : splitOnChar mark cs = [cs] := by
  induction cs with
  | nil => rfl
  | cons c cs ih =>
    have hc : c ≠ mark := fun he => h (he ▸ mem_cons_self)
    have hcs : mark ∉ cs := fun hmem => h (mem_cons_of_mem _ hmem)
    simp [splitOnChar, hc, ih hcs]

theorem not_mem_of_mem_splitOnChar {field : List Char} (h : field ∈ splitOnChar mark cs) :
    mark ∉ field := by
  induction cs generalizing field with
  | nil =>
    have hfield : field = [] := by simpa [splitOnChar] using h
    simp [hfield]
  | cons c cs ih =>
    by_cases hc : c = mark
    · rcases mem_cons.1 (by simpa [splitOnChar, hc] using h) with rfl | hmem
      · simp
      · exact ih hmem
    · obtain ⟨first, rest, hcs⟩ := exists_cons_of_ne_nil (splitOnChar_ne_nil mark cs)
      rw [hcs] at ih
      rcases mem_cons.1 (by simpa [splitOnChar, hc, hcs] using h) with rfl | hmem
      · have hfirst : mark ∉ first := ih mem_cons_self
        simp [Ne.symm hc, hfirst]
      · exact ih (mem_cons_of_mem _ hmem)

theorem splitOnChar_intercalate {fields : List (List Char)} (hne : fields ≠ [])
    (h : ∀ field ∈ fields, mark ∉ field) :
    splitOnChar mark (List.intercalate [mark] fields) = fields := by
  induction fields with
  | nil => exact absurd rfl hne
  | cons field rest ih =>
    have hfield : mark ∉ field := h field mem_cons_self
    cases rest with
    | nil => simpa [List.intercalate] using splitOnChar_of_not_mem hfield
    | cons next rest =>
      have hrest := ih (by simp) fun f hf => h f (mem_cons_of_mem _ hf)
      have hjoin : List.intercalate [mark] (field :: next :: rest) =
          field ++ mark :: List.intercalate [mark] (next :: rest) := by
        simp [List.intercalate, List.intersperse]
      rw [hjoin, splitOnChar_append, hrest, splitOnChar_of_not_mem hfield]
      rfl

/-- Where the text is split into more than one field, the first field ends at a mark. -/
theorem eq_of_splitOnChar_cons {first second : List Char} {rest : List (List Char)}
    (h : splitOnChar mark cs = first :: second :: rest) :
    ∃ tail, cs = first ++ mark :: tail ∧ splitOnChar mark tail = second :: rest := by
  induction cs generalizing first with
  | nil => simp [splitOnChar] at h
  | cons c cs ih =>
    by_cases hc : c = mark
    · obtain ⟨rfl, hcs⟩ : [] = first ∧ splitOnChar mark cs = second :: rest := by
        simpa [splitOnChar, hc] using h
      exact ⟨cs, by rw [hc]; rfl, hcs⟩
    · obtain ⟨field, more, hcs⟩ := exists_cons_of_ne_nil (splitOnChar_ne_nil mark cs)
      obtain ⟨rfl, rfl⟩ : c :: field = first ∧ more = second :: rest := by
        simpa [splitOnChar, hc, hcs] using h
      obtain ⟨tail, rfl, htail⟩ := ih hcs
      exact ⟨tail, rfl, htail⟩

theorem eq_of_splitOnChar_append {before after : List (List Char)} (hbefore : before ≠ [])
    (hafter : after ≠ []) (h : splitOnChar mark cs = before ++ after) :
    ∃ tail, cs = List.intercalate [mark] before ++ mark :: tail := by
  induction before generalizing cs with
  | nil => exact absurd rfl hbefore
  | cons first before ih =>
    cases before with
    | nil =>
      obtain ⟨second, rest, rfl⟩ := exists_cons_of_ne_nil hafter
      obtain ⟨tail, htail, -⟩ := eq_of_splitOnChar_cons h
      exact ⟨tail, by simpa [List.intercalate] using htail⟩
    | cons second before =>
      obtain ⟨tail, rfl, htail⟩ := eq_of_splitOnChar_cons h
      obtain ⟨tail, rfl⟩ := ih (by simp) htail
      exact ⟨tail, by simp [List.intercalate, List.intersperse]⟩

end Text

namespace Path

/-- A text that is the name of a file: one component wherever it stands in a path. -/
def IsName (n : String) : Prop := n ≠ "" ∧ n ≠ "." ∧ n ≠ ".." ∧ '/' ∉ n.toList

instance (n : String) : Decidable (IsName n) := inferInstanceAs (Decidable (_ ∧ _))

/-- The components that the fields of a path write, without its lead. -/
def body (cs : List Char) : List Component := (fields cs).filterMap Component.ofField?

theorem components_eq (p : Path) : p.components = lead p.chars ++ body p.chars := rfl

theorem ofField?_eq_some_iff {field : List Char} {c : Component} :
    Component.ofField? field = some c ↔
      (c = .parent ∧ field = ['.', '.']) ∨
      (field ≠ [] ∧ field ≠ ['.'] ∧ field ≠ ['.', '.'] ∧ c = .name (String.ofList field)) := by
  unfold Component.ofField?
  by_cases hnone : field = [] ∨ field = ['.']
  · rcases hnone with rfl | rfl <;> simp
  · obtain ⟨hempty, hdot⟩ := not_or.1 hnone
    rw [if_neg hnone]
    by_cases hparent : field = ['.', '.']
    · simp [hparent, @eq_comm _ Component.parent]
    · simp [hempty, hdot, hparent, @eq_comm _ (Component.name _)]

theorem ofField?_of_isName (h : IsName n) : Component.ofField? n.toList = some (.name n) := by
  obtain ⟨hempty, hdot, hparent, -⟩ := h
  have hne : ∀ s : String, n ≠ s → n.toList ≠ s.toList :=
    fun s hs he => hs (String.toList_injective he)
  exact ofField?_eq_some_iff.2 (.inr ⟨hne "" hempty, hne "." hdot, hne ".." hparent, by simp⟩)

@[simp] theorem body_nil : body [] = [] := rfl

theorem body_append (xs ys : List Char) : body (xs ++ '/' :: ys) = body xs ++ body ys := by
  simp [body, fields, Text.splitOnChar_append]

theorem body_name (h : IsName n) : body n.toList = [.name n] := by
  simp [body, fields, Text.splitOnChar_of_not_mem h.2.2.2, ofField?_of_isName h]

theorem lead_name (h : IsName n) : lead n.toList = [] := by
  have hhead : n.toList.head? ≠ some '/' := fun he => h.2.2.2 (mem_of_head? he)
  have hdot : n.toList ≠ ['.'] := fun he => h.2.1 (String.toList_injective he)
  simp [lead, fields, Text.splitOnChar_of_not_mem h.2.2.2, hhead, hdot]

theorem lead_append {xs : List Char} (hne : xs ≠ []) (ys : List Char) :
    lead (xs ++ '/' :: ys) = lead xs := by
  obtain ⟨x, rest, hx⟩ := exists_cons_of_ne_nil hne
  obtain ⟨field, more, hfield⟩ := exists_cons_of_ne_nil (Text.splitOnChar_ne_nil '/' xs)
  have hhead : (xs ++ '/' :: ys).head? = xs.head? := by simp [hx]
  have hfirst : (fields (xs ++ '/' :: ys)).head? = (fields xs).head? := by
    simp [fields, Text.splitOnChar_append, hfield]
  rw [lead, lead, hhead, hfirst]

theorem not_isAbsolute_name (h : IsName n) : isAbsolute ⟨n⟩ = false := by
  have hhead : n.toList.head? ≠ some '/' := fun he => h.2.2.2 (mem_of_head? he)
  simpa [isAbsolute, chars] using hhead

/-- How a relative path is put below another: after a separator, unless there is nothing before. -/
theorem join_cases (p : Path) {q : Path} (hq : q.isAbsolute = false) :
    (p.chars = [] ∧ (p.join q).chars = q.chars) ∨
    ∃ xs, (xs ≠ [] ∧ p.chars = xs ∨ p.chars = xs ++ ['/']) ∧
    (p.join q).chars = xs ++ '/' :: q.chars := by
  unfold join
  rw [hq, if_neg (by simp)]
  by_cases hempty : p.text = ""
  · left
    simp [chars, hempty]
  · have hchars : p.chars ≠ [] := fun he => hempty (String.toList_injective he)
    right
    by_cases hslash : p.chars.getLast? = some '/'
    · obtain ⟨xs, hxs⟩ := List.getLast?_eq_some_iff.1 hslash
      have htext : p.text.toList = xs ++ ['/'] := hxs
      rw [if_pos (by simp [hslash])]
      exact ⟨xs, .inr hxs, by simp [chars, htext]⟩
    · rw [if_neg (by simp [hempty, hslash])]
      exact ⟨p.chars, .inl ⟨hchars, rfl⟩, by simp [chars]⟩

/-- A relative path adds its components, without its lead, to those of the path it is put below. -/
theorem components_join {q : Path} (hp : p.chars ≠ []) (hq : q.isAbsolute = false) :
    (p.join q).components = p.components ++ body q.chars := by
  rcases join_cases p hq with ⟨hnil, -⟩ | ⟨xs, hxs, hjoin⟩
  · exact absurd hnil hp
  rw [components_eq, components_eq, hjoin, body_append]
  rcases hxs with ⟨hne, hxs⟩ | hxs
  · rw [hxs, lead_append hne, append_assoc]
  · have hlead : lead (xs ++ '/' :: q.chars) = lead (xs ++ ['/']) := by
      by_cases hne : xs = []
      · simp [hne, lead]
      · rw [lead_append hne, lead_append hne]
    rw [hxs, hlead, body_append, body_nil]
    simp

theorem components_child (p : Path) (h : IsName n) :
    (p.child n).components = p.components ++ [.name n] := by
  by_cases hp : p.chars = []
  · have hjoin : (p.child n).chars = n.toList := by
      rcases join_cases p (not_isAbsolute_name h) with ⟨-, hjoin⟩ | ⟨xs, hxs, -⟩
      · exact hjoin
      · rcases hxs with ⟨hne, hxs⟩ | hxs <;> simp_all
    rw [components_eq, hjoin, lead_name h, body_name h, components_eq, hp]
    rfl
  · rw [child, components_join hp (not_isAbsolute_name h)]
    exact congrArg _ (body_name h)

theorem fields_child (p : Path) (h : IsName n) :
    ∃ before, fields (p.child n).chars = before ++ [n.toList] := by
  have hn : Text.splitOnChar '/' n.toList = [n.toList] := Text.splitOnChar_of_not_mem h.2.2.2
  rcases join_cases p (not_isAbsolute_name h) with ⟨-, hjoin⟩ | ⟨xs, -, hjoin⟩
  · exact ⟨[], by rw [child, hjoin]; exact hn⟩
  · exact ⟨fields xs, by rw [child, hjoin, fields, Text.splitOnChar_append]; exact congrArg _ hn⟩

/-- The directory itself, by the name that every directory has for itself. -/
theorem components_child_dot (hp : p.chars ≠ []) : (p.child ".").components = p.components := by
  rw [child, components_join hp (by decide)]
  exact append_nil _

theorem isName_of_mem_body (h : .name n ∈ body cs) : IsName n := by
  obtain ⟨field, hmem, hfield⟩ := mem_filterMap.1 h
  have hslash : '/' ∉ field := Text.not_mem_of_mem_splitOnChar hmem
  rcases ofField?_eq_some_iff.1 hfield with ⟨hparent, -⟩ | ⟨hempty, hdot, hup, hname⟩
  · cases hparent
  · obtain rfl : n = String.ofList field := by simpa using hname
    have hne : ∀ s : String, field ≠ s.toList → String.ofList field ≠ s := by
      rintro s hs rfl
      simp at hs
    exact ⟨hne "" hempty, hne "." hdot, hne ".." hup, by simpa using hslash⟩

theorem not_mem_body {c : Component} (h : c = .root ∨ c = .current) : c ∉ body cs := by
  intro hmem
  obtain ⟨field, -, hfield⟩ := mem_filterMap.1 hmem
  rcases ofField?_eq_some_iff.1 hfield with ⟨rfl, -⟩ | ⟨-, -, -, rfl⟩ <;> simp at h

theorem lead_cases (cs : List Char) : lead cs = [] ∨ lead cs = [.root] ∨ lead cs = [.current] := by
  unfold lead
  split
  · simp
  · split <;> simp

theorem isName_of_mem_components (h : .name n ∈ p.components) : IsName n := by
  rw [components_eq, mem_append] at h
  rcases h with hlead | hbody
  · rcases lead_cases p.chars with he | he | he <;> simp [he] at hlead
  · exact isName_of_mem_body hbody

theorem body_eq_map_name (h : .parent ∉ body cs) :
    body cs = ((body cs).filterMap Component.name?).map Component.name := by
  have hnames : ∀ c ∈ body cs, ∃ n, c = .name n := by
    intro c hc
    cases c with
    | root => exact absurd hc (not_mem_body (.inl rfl))
    | current => exact absurd hc (not_mem_body (.inr rfl))
    | parent => exact absurd hc h
    | name n => exact ⟨n, rfl⟩
  generalize body cs = parts at hnames
  induction parts with
  | nil => rfl
  | cons c parts ih =>
    obtain ⟨n, rfl⟩ := hnames c mem_cons_self
    have hrest := ih fun d hd => hnames d (mem_cons_of_mem _ hd)
    simpa [Component.name?] using hrest

theorem lead_of_isAbsolute (h : p.isAbsolute = true) : lead p.chars = [.root] := by
  have hhead : p.chars.head? = some '/' := by simpa [isAbsolute] using h
  simp [lead, hhead]

theorem lead_of_not_isAbsolute (h : p.isAbsolute = false) :
    lead p.chars = [] ∨ lead p.chars = [.current] := by
  have hhead : p.chars.head? ≠ some '/' := by simpa [isAbsolute] using h
  unfold lead
  rw [if_neg hhead]
  split <;> simp

def names (p : Path) : List String := p.components.filterMap Component.name?

theorem names_child (p : Path) (h : IsName n) : (p.child n).names = p.names ++ [n] := by
  simp [names, components_child p h, Component.name?]

theorem isName_of_mem_names (h : n ∈ p.names) : IsName n := by
  obtain ⟨c, hc, hname⟩ := mem_filterMap.1 h
  cases c with
  | name m =>
    obtain rfl : m = n := by simpa [Component.name?] using hname
    exact isName_of_mem_components hc
  | _ => simp [Component.name?] at hname

theorem components_eq_names (hup : .parent ∉ p.components) :
    p.components = lead p.chars ++ p.names.map Component.name := by
  have hbody : .parent ∉ body p.chars := fun h => hup (mem_append_right _ h)
  have hnames : p.names = (body p.chars).filterMap Component.name? := by
    rw [names, components_eq, filterMap_append]
    rcases lead_cases p.chars with h | h | h <;> simp [h, Component.name?]
  rw [components_eq, hnames, ← body_eq_map_name hbody]

theorem components_of_isAbsolute (habs : p.isAbsolute = true) (hup : .parent ∉ p.components) :
    p.components = .root :: p.names.map Component.name := by
  rw [components_eq_names hup, lead_of_isAbsolute habs]
  rfl

/-- Names that are put behind components become components of the path. -/
theorem components_ofComponents_append {cs : List Component}
    (hcs : (ofComponents cs).components = cs) {ns : List String} (h : ∀ n ∈ ns, IsName n) :
    (ofComponents (cs ++ ns.map Component.name)).components = cs ++ ns.map Component.name := by
  induction ns using List.reverseRecOn with
  | nil => simpa using hcs
  | append_singleton ns n ih =>
    have hlast : ofComponents (cs ++ (ns ++ [n]).map Component.name) =
        (ofComponents (cs ++ ns.map Component.name)).child n := by
      simp [ofComponents, child, Component.text]
    rw [hlast, components_child _ (h n (by simp)), ih fun m hm => h m (by simp [hm])]
    simp

/-- The root and names are put together to a path that has them as its components. -/
theorem components_ofComponents {ns : List String} (h : ∀ n ∈ ns, IsName n) :
    (ofComponents (.root :: ns.map Component.name)).components =
    .root :: ns.map Component.name := by
  have hroot : (ofComponents [.root]).components = [.root] := by decide
  exact components_ofComponents_append hroot h

theorem normalizeParts_names (ns : List String) :
    normalizeParts (.root :: ns.map Component.name) = .root :: ns.map Component.name := by
  induction ns using List.reverseRecOn with
  | nil => rfl
  | append_singleton ns n ih =>
    have hlast : normalizeParts (.root :: (ns ++ [n]).map Component.name) =
        normalizeParts (.root :: ns.map Component.name) ++ [.name n] := by
      simp [normalizeParts]
    rw [hlast, ih]
    simp

theorem components_normalize (habs : p.isAbsolute = true) (hup : .parent ∉ p.components) :
    p.normalize.components = p.components := by
  have hp := components_of_isAbsolute habs hup
  rw [normalize, hp, normalizeParts_names, components_ofComponents fun n hn => isName_of_mem_names hn]

theorem isAbsolute_iff : p.isAbsolute = true ↔ .root ∈ p.components := by
  constructor
  · intro habs
    simp [components_eq, lead_of_isAbsolute habs]
  · intro hroot
    rw [components_eq, mem_append] at hroot
    have hlead := hroot.resolve_right (not_mem_body (.inl rfl))
    by_contra habs
    rcases lead_of_not_isAbsolute (Bool.eq_false_iff.2 habs) with h | h <;> simp [h] at hlead

section Parent

theorem body_intercalate {fs : List (List Char)} (h : ∀ f ∈ fs, '/' ∉ f) :
    body (List.intercalate ['/'] fs) = fs.filterMap Component.ofField? := by
  by_cases hne : fs = []
  · simp [hne, List.intercalate]
  · rw [body, fields, Text.splitOnChar_intercalate hne h]

/-- Fields without those at the end that are no component. -/
def trimmed (fs : List (List Char)) : List (List Char) :=
  fs.rdropWhile fun f => (Component.ofField? f).isNone

theorem prefix_trimmed (fs : List (List Char)) : trimmed fs <+: fs := rdropWhile_prefix _ _

theorem filterMap_trimmed (fs : List (List Char)) :
    (trimmed fs).filterMap Component.ofField? = fs.filterMap Component.ofField? := by
  let junk := fs.rtakeWhile fun f => (Component.ofField? f).isNone
  have hsplit : trimmed fs ++ junk = fs := rdropWhile_append_rtakeWhile
  have hjunk : junk.filterMap Component.ofField? = [] :=
    filterMap_eq_nil_iff.2 fun f hf => by simpa using mem_rtakeWhile_imp hf
  conv_rhs => rw [← hsplit, filterMap_append, hjunk, append_nil]

theorem parent?_of_fields {fs : List (List Char)} {last : List Char}
    (hfields : fields (p.chars.drop (leadLength p.chars)) = fs ++ [last])
    (hlast : (Component.ofField? last).isSome) :
    p.parent? = some ⟨String.ofList
      (p.chars.take (leadLength p.chars) ++ List.intercalate ['/'] (trimmed fs))⟩ := by
  have htrim : trimFields (fs ++ [last]).reverse = last :: fs.reverse := by
    simp [trimFields, Option.isNone_eq_false_iff.2 hlast]
  unfold parent?
  simp only [hfields, htrim]
  simp [joinFields, trimmed, trimFields, List.rdropWhile]

theorem leadLength_le_one (cs : List Char) : leadLength cs ≤ 1 := by
  rcases lead_cases cs with h | h | h <;> simp [leadLength, h]

theorem text_of_lead (cs : List Char) :
    lead cs = [] ∨ (lead cs = [.root] ∧ ∃ rest, cs = '/' :: rest) ∨
      (lead cs = [.current] ∧ (cs = ['.'] ∨ ∃ rest, cs = '.' :: '/' :: rest)) := by
  cases cs with
  | nil => left; rfl
  | cons c cs =>
    by_cases hroot : c = '/'
    · right; left
      exact ⟨by simp [lead, hroot], cs, by rw [hroot]⟩
    by_cases hdot : (fields (c :: cs)).head? = some ['.']
    · right; right
      refine ⟨by simp [lead, hroot, hdot], ?_⟩
      obtain ⟨field, more, hcs⟩ := exists_cons_of_ne_nil (Text.splitOnChar_ne_nil '/' cs)
      obtain ⟨rfl, rfl⟩ : c = '.' ∧ field = [] := by
        simpa [fields, Text.splitOnChar, hroot, hcs] using hdot
      cases cs with
      | nil => left; rfl
      | cons d cs =>
        have hd : d = '/' := by
          by_contra hd
          obtain ⟨field, more, hrest⟩ := exists_cons_of_ne_nil (Text.splitOnChar_ne_nil '/' cs)
          simp [Text.splitOnChar, hd, hrest] at hcs
        exact .inr ⟨cs, by rw [hd]⟩
    · left
      simp [lead, hroot, hdot]

theorem leadLength_le (cs : List Char) : leadLength cs ≤ cs.length := by
  rcases text_of_lead cs with h | ⟨h, rest, rfl⟩ | ⟨h, rfl | ⟨rest, rfl⟩⟩ <;> simp [leadLength, h]

theorem lead_take (cs : List Char) : lead (cs.take (leadLength cs)) = lead cs := by
  rcases text_of_lead cs with h | ⟨h, rest, rfl⟩ | ⟨h, rfl | ⟨rest, rfl⟩⟩ <;> rw [leadLength, h]
    <;> rfl

theorem body_drop_lead (cs : List Char) : body (cs.drop (leadLength cs)) = body cs := by
  rcases text_of_lead cs with h | ⟨h, rest, rfl⟩ | ⟨h, rfl | ⟨rest, rfl⟩⟩ <;> rw [leadLength, h]
  · rfl
  · exact (body_append [] rest).symm
  · rfl
  · exact (body_append [] rest).trans (body_append ['.'] rest).symm

theorem fields_drop_lead_child (dir : Path) (h : IsName n) :
    ∃ fs, fields ((dir.child n).chars.drop (leadLength (dir.child n).chars)) =
    fs ++ [n.toList] := by
  have hn : fields n.toList = [n.toList] := Text.splitOnChar_of_not_mem h.2.2.2
  have hone := leadLength_le_one (dir.child n).chars
  rcases join_cases dir (not_isAbsolute_name h) with ⟨-, hjoin⟩ | ⟨xs, -, hjoin⟩
  · have hlead : leadLength (dir.child n).chars = 0 := by
      rw [leadLength, child, hjoin]
      exact congrArg List.length (lead_name h)
    exact ⟨[], by rw [hlead, child, hjoin]; exact hn⟩
  · rw [child, hjoin] at hone ⊢
    generalize leadLength (xs ++ '/' :: (Path.mk n).chars) = k at hone ⊢
    by_cases hk : k ≤ xs.length
    · refine ⟨fields (xs.drop k), ?_⟩
      rw [drop_append_of_le_length hk, fields, Text.splitOnChar_append]
      exact congrArg _ hn
    · obtain ⟨rfl, rfl⟩ : xs = [] ∧ k = 1 := by
        refine ⟨eq_nil_of_length_eq_zero ?_, ?_⟩ <;> omega
      exact ⟨[], hn⟩

/-- The parent of a path to a file called `n` leads where the directory does that the file is in. -/
theorem parent?_child (dir : Path) (h : IsName n) :
    ∃ q, (dir.child n).parent? = some q ∧ q.components = dir.components := by
  have hcomponents := components_child dir h
  obtain ⟨fs, hfields⟩ := fields_drop_lead_child dir h
  generalize dir.child n = p at hcomponents hfields
  have hname : (Component.ofField? n.toList).isSome := by simp [ofField?_of_isName h]
  let kept := p.chars.take (leadLength p.chars)
  let joined := List.intercalate ['/'] (trimmed fs)
  have hlead : lead (kept ++ joined) = lead p.chars := by
    by_cases hjoined : joined = []
    · rw [hjoined, append_nil, lead_take]
    · have hne : trimmed fs ≠ [] := by
        rintro hnil
        simp [joined, hnil, List.intercalate] at hjoined
      obtain ⟨junk, hjunk⟩ := prefix_trimmed fs
      obtain ⟨tail, htail⟩ := Text.eq_of_splitOnChar_append hne (by simp)
        (show fields _ = trimmed fs ++ (junk ++ [n.toList]) by rw [hfields, ← append_assoc, hjunk])
      have hchars : p.chars = kept ++ joined ++ '/' :: tail := by
        rw [append_assoc, ← htail, take_append_drop]
      rw [hchars, lead_append (by simp [hjoined])]
  have hkept : kept.length = leadLength p.chars := length_take_of_le (leadLength_le p.chars)
  have hslash : ∀ f ∈ trimmed fs, '/' ∉ f := by
    intro f hf
    have hmem : f ∈ fields (p.chars.drop (leadLength p.chars)) := by
      rw [hfields]
      exact mem_append_left _ ((prefix_trimmed fs).subset hf)
    exact Text.not_mem_of_mem_splitOnChar hmem
  have hbody : body (kept ++ joined) = fs.filterMap Component.ofField? := by
    rw [← body_drop_lead, leadLength, hlead, ← leadLength, ← hkept, drop_left,
      body_intercalate hslash, filterMap_trimmed]
  have hp : dir.components ++ [.name n] =
      lead p.chars ++ fs.filterMap Component.ofField? ++ [.name n] := by
    rw [← hcomponents, components_eq, ← body_drop_lead, body, hfields, filterMap_append, append_assoc]
    simp [ofField?_of_isName h]
  refine ⟨_, parent?_of_fields hfields hname, ?_⟩
  rw [components_eq, append_cancel_right hp, ← hlead, ← hbody]
  simp [chars, kept, joined]

end Parent

end Path
end CookbookAtlas
