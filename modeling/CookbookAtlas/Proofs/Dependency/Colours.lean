import CookbookAtlas.Proofs.Dependency.SimpleWalks

/-! The search for a cycle with a colour for every name. White names are not met yet, gray ones are
on the path, black ones are left behind. It finds what the search without colours finds, and never
asks for the colour of a name that has none. -/
namespace CookbookAtlas.Dependency

open List

inductive Colour
  | white
  | gray
  | black
deriving DecidableEq

abbrev Colouring := List (String × Colour)

namespace Colouring
variable {colours : Colouring} {name : String}

def allWhite (names : List String) : Colouring := names.map fun name => (name, .white)

def colour? (colours : Colouring) (name : String) : Option Colour := List.lookup name colours

def paint (colours : Colouring) (name : String) (colour : Colour) : Colouring :=
  List.map (fun entry => if entry.1 = name then (name, colour) else entry) colours

def whites (colours : Colouring) : Nat := List.countP (fun entry => entry.2 = .white) colours

theorem colour?_cons (key : String) (old : Colour) (colours : Colouring) (name : String) :
    colour? ((key, old) :: colours) name = if name = key then some old
    else colours.colour? name := by
  by_cases h : name = key
  · simp [colour?, h]
  · have hne : (name == key) = false := beq_false_of_ne h
    simp [colour?, lookup_cons, h, hne]

theorem paint_cons (key : String) (old : Colour) (colours : Colouring) (name : String)
    (colour : Colour) : paint ((key, old) :: colours) name colour =
      (key, if key = name then colour else old) :: colours.paint name colour := by
  by_cases h : key = name <;> simp [paint, h]

theorem colour?_paint (colours : Colouring) (name : String) (colour : Colour) (other : String) :
    (colours.paint name colour).colour? other =
      if other = name then (colours.colour? name).map fun _ => colour
      else colours.colour? other := by
  induction colours with
  | nil => simp [paint, colour?]
  | cons entry colours ih =>
    obtain ⟨key, old⟩ := entry
    rw [paint_cons, colour?_cons, colour?_cons, colour?_cons, ih]
    by_cases hkey : key = name <;> by_cases hother : other = key <;> simp_all [eq_comm]

theorem colour?_allWhite (names : List String) (name : String) :
    (allWhite names).colour? name = if name ∈ names then some .white else none := by
  induction names with
  | nil => rfl
  | cons first names ih =>
    rw [allWhite, map_cons, colour?_cons, ← allWhite, ih]
    by_cases h : name = first <;> simp [h]

theorem whites_cons (key : String) (old : Colour) (colours : Colouring) :
    whites ((key, old) :: colours) = colours.whites + if old = .white then 1 else 0 := by
  simp [whites, countP_cons]

theorem whites_paint_le {colour : Colour} (hcolour : colour ≠ .white) (colours : Colouring)
    (name : String) : (colours.paint name colour).whites ≤ colours.whites := by
  induction colours with
  | nil => simp [paint, whites]
  | cons entry colours ih =>
    obtain ⟨key, old⟩ := entry
    rw [paint_cons, whites_cons, whites_cons]
    by_cases hkey : key = name
    · simp only [hkey, if_true, if_neg hcolour]
      omega
    · simp only [hkey, if_false]
      omega

theorem whites_paint_gray (h : colours.colour? name = some .white) :
    (colours.paint name .gray).whites < colours.whites := by
  induction colours with
  | nil => simp [colour?] at h
  | cons entry colours ih =>
    obtain ⟨key, old⟩ := entry
    have hrest := whites_paint_le (by simp : Colour.gray ≠ .white) colours name
    rw [colour?_cons] at h
    rw [paint_cons, whites_cons, whites_cons]
    by_cases hkey : name = key
    · obtain rfl : old = .white := by simpa [hkey] using h
      simp only [hkey, if_true, reduceCtorEq, if_false]
      rw [hkey] at hrest
      omega
    · have hlater := ih (by simpa [hkey] using h)
      simp only [Ne.symm hkey, if_false]
      omega

end Colouring

/-- The names of a path from `name` on, or all of them, and then `name`. -/
def cycleSlice (path : List String) (name : String) : List String :=
  path.reverse.drop ((path.reverse.idxOf? name).getD 0) ++ [name]

theorem cycleSlice_eq_closedPath {path : List String} {name : String} (hdistinct : path.Nodup)
    (hname : name ∈ path) : cycleSlice path name = closedPath path name := by
  obtain ⟨above, below, rfl⟩ := append_of_mem hname
  obtain ⟨-, hbelow, hdisjoint⟩ := nodup_append.mp hdistinct
  have habove : ∀ x ∈ above, x ≠ name := fun x hx => hdisjoint x hx name mem_cons_self
  have hnot : name ∉ below.reverse := by simpa using (nodup_cons.mp hbelow).1
  have hwalked : (above ++ name :: below).takeWhile (· ≠ name) = above := by
    rw [takeWhile_append_of_pos (by simpa using habove)]
    simp
  have hindex : (above ++ name :: below).reverse.idxOf? name = some below.length := by
    rw [reverse_append, reverse_cons, append_assoc, List.idxOf?_eq_some_iff]
    refine ⟨by simp, by simp, fun j hj hsame => hnot ?_⟩
    rw [getElem_append_left (by simpa using hj)] at hsame
    rw [← hsame]
    exact getElem_mem _
  rw [cycleSlice, closedPath, hwalked, hindex]
  simp

/-- A search that keeps the colours. There is no answer if a name has no colour. -/
def colourSearch (g : Graph) (colours : Colouring) (path : List String)
    (pending : List (List String)) : Option (List String ⊕ Colouring) :=
  match pending with
  | [] => some (.inr colours)
  | [] :: rest =>
    match path with
    | [] => colourSearch g colours [] rest
    | done :: path => colourSearch g (colours.paint done .black) path rest
  | (name :: more) :: rest =>
    if colours.colour? name = some .gray then some (.inl (cycleSlice path name))
    else if colours.colour? name = some .white then
      colourSearch g (colours.paint name .gray) (name :: path) (g.direct name :: more :: rest)
    else if colours.colour? name = some .black then colourSearch g colours path (more :: rest)
    else none
termination_by (colours.whites, pendingSize pending)
decreasing_by
  · exact Prod.Lex.right _ (by simp [pendingSize])
  · rcases Nat.lt_or_eq_of_le (Colouring.whites_paint_le (by simp : Colour.black ≠ .white) colours done)
      with hless | hsame
    · exact Prod.Lex.left _ _ hless
    · rw [hsame]
      exact Prod.Lex.right _ (by simp [pendingSize])
  · exact Prod.Lex.left _ _ (Colouring.whites_paint_gray ‹_›)
  · exact Prod.Lex.right _ (by simp [pendingSize])

def colourFrom (g : Graph) (colours : Colouring) : List String → Option (Option (List String))
  | [] => some none
  | start :: starts =>
    match colours.colour? start with
    | none => none
    | some .white =>
      match colourSearch g (colours.paint start .gray) [start] [g.direct start] with
      | none => none
      | some (.inl cycle) => some (some cycle)
      | some (.inr colours) => colourFrom g colours starts
    | some _ => colourFrom g colours starts

/-- Colours tell which names are not met and which are on the path. -/
structure Coloured (g : Graph) (colours : Colouring) (unmet path : List String) : Prop where
  known : ∀ name ∈ g.nodes, (colours.colour? name).isSome = true
  white_iff : ∀ name, colours.colour? name = some .white ↔ name ∈ unmet
  gray_iff : ∀ name, colours.colour? name = some .gray ↔ name ∈ path
  unmet_nodup : unmet.Nodup
  path_nodup : path.Nodup

section
variable {g : Graph} {colours : Colouring} {unmet path : List String} {name : String}

theorem coloured_allWhite (hbuilt : g.Built) : Coloured g (.allWhite g.nodes) g.nodes [] where
  known name hname := by simp [Colouring.colour?_allWhite, hname]
  white_iff name := by simp [Colouring.colour?_allWhite]
  gray_iff name := by simp [Colouring.colour?_allWhite]
  unmet_nodup := hbuilt.nodup_nodes
  path_nodup := nodup_nil

theorem Coloured.known_paint (h : Coloured g colours unmet path) (colour : Colour) :
    ∀ other ∈ g.nodes, ((colours.paint name colour).colour? other).isSome = true := by
  intro other hother
  rw [Colouring.colour?_paint]
  split
  · rename_i heq
    simpa [heq] using h.known other hother
  · exact h.known other hother

theorem Coloured.enter (h : Coloured g colours unmet path)
    (hwhite : colours.colour? name = some .white) :
    Coloured g (colours.paint name .gray) (unmet.erase name) (name :: path) := by
  have hpath : name ∉ path := fun hmem => by simpa [hwhite] using (h.gray_iff name).mpr hmem
  refine ⟨h.known_paint .gray, fun other => ?_, fun other => ?_, h.unmet_nodup.erase name,
    nodup_cons.mpr ⟨hpath, h.path_nodup⟩⟩
  · rw [Colouring.colour?_paint, h.unmet_nodup.mem_erase_iff]
    by_cases hother : other = name
    · simp [hother, hwhite]
    · simp [hother, h.white_iff]
  · rw [Colouring.colour?_paint]
    by_cases hother : other = name
    · simp [hother, hwhite]
    · simp [hother, h.gray_iff]

theorem Coloured.leave {done : String} (h : Coloured g colours unmet (done :: path)) :
    Coloured g (colours.paint done .black) unmet path := by
  have hgray : colours.colour? done = some .gray := (h.gray_iff done).mpr mem_cons_self
  have hunmet : done ∉ unmet := fun hmem => by simpa [hgray] using (h.white_iff done).mpr hmem
  obtain ⟨hpath, hdistinct⟩ := nodup_cons.mp h.path_nodup
  refine ⟨h.known_paint .black, fun other => ?_, fun other => ?_, h.unmet_nodup, hdistinct⟩
  · rw [Colouring.colour?_paint]
    by_cases hother : other = done
    · simp [hother, hgray, hunmet]
    · simp [hother, h.white_iff]
  · rw [Colouring.colour?_paint]
    by_cases hother : other = done
    · simp [hother, hgray, hpath]
    · simp [hother, h.gray_iff]

end

/-- The two searches answer with the same cycle, or leave the same names unmet. -/
def SameAnswer (g : Graph) : List String ⊕ List String → Option (List String ⊕ Colouring) → Prop
  | .inl cycle, some (.inl found) => found = cycle
  | .inr left, some (.inr colours) => Coloured g colours left []
  | _, _ => False

theorem sameAnswer_search {g : Graph} (hbuilt : g.Built) {colours : Colouring}
    {unmet path : List String} {pending : List (List String)} (h : Coloured g colours unmet path)
    (hlevels : path.length = pending.length) (hnodes : ∀ deps ∈ pending, ∀ d ∈ deps, d ∈ g.nodes) :
    SameAnswer g (search g unmet path pending) (colourSearch g colours path pending) := by
  fun_induction search g unmet path pending generalizing colours with
  | case1 unmet path =>
    obtain rfl : path = [] := eq_nil_of_length_eq_zero hlevels
    rw [colourSearch]
    exact h
  | case2 unmet path rest ih =>
    rw [forall_mem_cons] at hnodes
    cases path with
    | nil => simp at hlevels
    | cons done path =>
      rw [colourSearch]
      exact ih h.leave (by simpa using hlevels) hnodes.2
  | case3 unmet path name more rest hpath =>
    have hgray := (h.gray_iff name).mpr hpath
    rw [colourSearch, if_pos hgray]
    exact cycleSlice_eq_closedPath h.path_nodup hpath
  | case4 unmet path name more rest hpath hunmet ih =>
    have hwhite := (h.white_iff name).mpr hunmet
    simp only [forall_mem_cons] at hnodes ih
    rw [colourSearch, if_neg (by simp [hwhite]), if_pos hwhite]
    exact ih (h.enter hwhite) (by simpa using hlevels)
      ⟨fun d hd => hbuilt.mem_nodes_of_direct hd, hnodes.1.2, hnodes.2⟩
  | case5 unmet path name more rest hpath hunmet ih =>
    simp only [forall_mem_cons] at hnodes ih
    have hblack : colours.colour? name = some .black := by
      have hsome := h.known name hnodes.1.1
      have hwhite := mt (h.white_iff name).mp hunmet
      have hgray := mt (h.gray_iff name).mp hpath
      cases hcolour : colours.colour? name with
      | none => simp [hcolour] at hsome
      | some colour => cases colour <;> simp_all
    rw [colourSearch, if_neg (by simp [hblack]), if_neg (by simp [hblack]), if_pos hblack]
    exact ih h (by simpa using hlevels) ⟨hnodes.1.2, hnodes.2⟩

theorem colourFrom_eq {g : Graph} (hbuilt : g.Built) {colours : Colouring}
    {unmet starts : List String}
    (h : Coloured g colours unmet []) (hnodes : ∀ start ∈ starts, start ∈ g.nodes) :
    colourFrom g colours starts = some (cycleFrom g unmet starts) := by
  induction starts generalizing colours unmet with
  | nil => rfl
  | cons start starts ih =>
    rw [forall_mem_cons] at hnodes
    obtain ⟨colour, hcolour⟩ := Option.isSome_iff_exists.mp (h.known start hnodes.1)
    rw [colourFrom, cycleFrom, hcolour]
    by_cases hunmet : start ∈ unmet
    · have hwhite := (h.white_iff start).mpr hunmet
      obtain rfl : colour = .white := Option.some.inj (hcolour.symm.trans hwhite)
      have hnext : ∀ deps ∈ [g.direct start], ∀ d ∈ deps, d ∈ g.nodes := by
        simpa using fun d hd => hbuilt.mem_nodes_of_direct hd
      have hsame := sameAnswer_search hbuilt (h.enter hwhite) rfl hnext
      simp only [if_pos hunmet]
      generalize search g (unmet.erase start) [start] [g.direct start] = plain at hsame
      generalize colourSearch g (colours.paint start .gray) [start] [g.direct start] = found at hsame
      rcases plain with cycle | left <;> rcases found with _ | found | after
      case inl.some.inl => rw [show found = cycle from hsame]
      case inr.some.inr => exact ih hsame hnodes.2
      all_goals exact hsame.elim
    · have hwhite : colour ≠ .white := fun heq => hunmet ((h.white_iff start).mp (heq ▸ hcolour))
      rw [if_neg hunmet, ← ih h hnodes.2]
      cases colour <;> simp_all

/-- The first cycle found with colours is the one found without them. -/
theorem colourFrom_eq_cycle? {g : Graph} (hbuilt : g.Built) :
    colourFrom g (.allWhite g.nodes) g.nodes = some g.cycle? :=
  colourFrom_eq hbuilt (coloured_allWhite hbuilt) fun _ hstart => hstart

end CookbookAtlas.Dependency
