import CookbookAtlas.Proofs.Recipe.Depth
import CookbookAtlas.Proofs.Recipe.WorkList
import Mathlib.Data.List.Forall2

/-! The stack of open blocks between two turns. The file itself is its lowest level. Every arm
stands on its `case`, a clause takes the place of another clause, an `end` takes off one block with
its arm, and at the end of the text the file alone is left. -/
namespace CookbookAtlas
namespace Recipe

open List

/-- A block without the properties that it may still get. -/
def Shape.bare : Shape → Shape
  | .resource call start => .resource { call with properties := [] } start
  | shape => shape

/-- A level of the stack: the file, or a block that is open in it. -/
inductive Level
  | file (items : List Item)
  | block (frame : Frame)

namespace Level

def isFile : Level → Bool
  | .file _ => true
  | .block _ => false

/-- The same level, maybe with more items at its end or with more properties. -/
def Grows : Level → Level → Prop
  | .file old, .file new => old <+: new
  | .block old, .block new => old.items <+: new.items ∧ old.shape.bare = new.shape.bare
  | _, _ => False

theorem Grows.refl (level : Level) : level.Grows level := by
  cases level with
  | file items => exact prefix_refl items
  | block frame => exact ⟨prefix_refl _, rfl⟩

theorem Grows.trans {x y z : Level} (hxy : x.Grows y) (hyz : y.Grows z) : x.Grows z := by
  cases x <;> cases y <;> cases z
  case file.file.file => exact List.IsPrefix.trans hxy hyz
  case block.block.block => exact ⟨hxy.1.trans hyz.1, hxy.2.trans hyz.2⟩
  all_goals first | exact hxy.elim | exact hyz.elim

end Level

namespace Assembly

def levels (a : Assembly) : List Level := a.frames.map .block ++ [.file a.items]

def Grown (old new : List Level) : Prop := List.Forall₂ Level.Grows old new

theorem Grown.refl (levels : List Level) : Grown levels levels :=
  forall₂_same.mpr fun level _ => Level.Grows.refl level

theorem Grown.trans {x y z : List Level} (hxy : Grown x y) (hyz : Grown y z) : Grown x z := by
  induction hxy generalizing z with
  | nil => exact hyz
  | cons hlevel _ ih =>
    cases hyz with
    | cons hnext hrest => exact .cons (hlevel.trans hnext) (ih hrest)

theorem Grown.tail {x y : List Level} (h : Grown x y) : Grown x.tail y.tail := by
  cases h with
  | nil => exact .nil
  | cons _ hrest => exact hrest

section
variable (s : Source) (a : Assembly)

theorem grown_addItems (items : List Item) : Grown a.levels (a.addItems items).levels := by
  obtain ⟨frames, old, facts⟩ := a
  cases frames with
  | nil =>
    have hfile : Level.Grows (.file old) (.file (old ++ items)) := prefix_append old items
    exact .cons hfile .nil
  | cons frame rest =>
    have hframe : Level.Grows (.block frame) (.block { frame with items := frame.items ++ items }) :=
      ⟨prefix_append _ _, rfl⟩
    exact .cons hframe (Grown.refl _)

theorem grown_addResource (r : Resource) : Grown a.levels (a.addResource r).levels :=
  grown_addItems (a.addFact (.resource r)) [.resource r]

theorem grown_addProperty (key value : String) :
    Grown a.levels (a.addProperty key value).levels := by
  obtain ⟨frames, old, facts⟩ := a
  induction frames with
  | nil => exact .refl _
  | cons frame rest ih =>
    obtain ⟨shape, inner⟩ := frame
    cases shape with
    | resource call start =>
      have hcall : Level.Grows (.block ⟨.resource call start, inner⟩)
          (.block ⟨.resource (call.addProperty key value) start, inner⟩) := ⟨prefix_refl _, rfl⟩
      exact .cons hcall (Grown.refl _)
    | _ => exact .cons (.refl _) ih

theorem grown_absorb (frame : Frame) (stop : Nat) (guard : Option String) :
    Grown a.levels (absorb s a frame stop guard).levels := by
  rw [absorb]
  split
  · exact grown_addResource a _
  · exact grown_addItems a _
  · exact grown_addItems a _
  · exact grown_addItems a _
  · split
    · exact grown_addProperty a _ _
    · exact .refl _
  · exact .refl _

theorem grown_pop (stop : Nat) (guard : Option String) (hopen : a.frames ≠ []) :
    Grown a.levels.tail (a.pop s stop guard).levels := by
  obtain ⟨frames, items, facts⟩ := a
  cases frames with
  | nil => exact absurd rfl hopen
  | cons frame rest => exact grown_absorb s ⟨rest, items, facts⟩ frame stop guard

end

/-- What an `end` does: at the file it does nothing, elsewhere it takes off the innermost block, and
with an arm its `case`. -/
def Ends (a b : Assembly) : Prop :=
  match a.frames with
  | [] => b = a
  | frame :: below =>
    if isArm frame then
      ∃ heading items rest, below = ⟨.caseOf heading, items⟩ :: rest ∧ Grown (a.levels.drop 2) b.levels
    else Grown (a.levels.drop 1) b.levels

theorem exists_case_of_role {below : List Frame}
    (h : (below.map fun frame => frame.shape.role).head? = some .caseOf) :
    ∃ heading items rest, below = ⟨.caseOf heading, items⟩ :: rest := by
  cases below with
  | nil => simp at h
  | cons frame rest =>
    obtain ⟨shape, items⟩ := frame
    cases shape with
    | caseOf heading => exact ⟨heading, items, rest, rfl⟩
    | conditional heading arm => cases arm <;> simp [Shape.role] at h
    | _ => simp [Shape.role] at h

theorem Seated.below (above : List Frame) {frames below : List Frame} {frame : Frame}
    (h : Seated (frames.map fun frame => frame.shape.role))
    (hframes : frames = above ++ frame :: below) (harm : isArm frame = true) :
    ∃ heading items rest, below = ⟨.caseOf heading, items⟩ :: rest := by
  subst hframes
  induction above with
  | nil => exact exists_case_of_role (h.1 ((isArm_iff frame).mp harm))
  | cons _ above ih => exact ih h.2

theorem close_ends (s : Source) {a : Assembly} (h : Seated a.roles) (stop : Nat)
    (guard : Option String) : Ends a (a.close s stop guard) := by
  have hpop := grown_pop s a stop guard
  rw [Ends]
  split
  · rename_i hframes
    simp [close, hframes, pop]
  · rename_i frame below hframes
    have hone : Grown (a.levels.drop 1) (a.pop s stop guard).levels := by
      rw [drop_one]
      exact hpop (by simp [hframes])
    by_cases harm : isArm frame = true
    · obtain ⟨heading, items, rest, rfl⟩ := h.below [] hframes harm
      have hroles : (a.pop s stop guard).roles ≠ [] := by
        rw [roles_pop, roles, hframes]
        simp
      have hopen : (a.pop s stop guard).frames ≠ [] := fun hnil => hroles (by rw [roles, hnil]; rfl)
      have htwo := grown_pop s (a.pop s stop guard) stop none hopen
      have hboth : Grown (a.levels.drop 2) ((a.pop s stop guard).pop s stop none).levels := by
        have hbelow := hone.tail
        rw [tail_drop] at hbelow
        exact hbelow.trans htwo
      rw [if_pos harm]
      refine ⟨heading, items, rest, rfl, ?_⟩
      simpa [close, hframes, harm] using hboth
    · rw [if_neg harm]
      simpa [close, hframes, harm] using hone

theorem length_levels (a : Assembly) : a.levels.length = a.roles.length + 1 := by
  simp [levels, roles]

/-- Takes off one block, and tells whether the level below it closes with it. The lowest level
stays. -/
def popLevel (s : Source) (a : Assembly) (stop : Nat) (guard : Option String) : Assembly × Bool :=
  if a.levels.length ≤ 1 then (a, false)
  else (a.pop s stop guard, a.frames.head?.any isArm)

theorem length_popLevel {s : Source} {a : Assembly} {stop : Nat} {guard : Option String}
    (hmore : (a.popLevel s stop guard).2 = true) :
    (a.popLevel s stop guard).1.levels.length < a.levels.length := by
  rw [popLevel] at hmore ⊢
  split
  · rename_i hlow
    rw [if_pos hlow] at hmore
    cases hmore
  · simp only [length_levels, roles_pop, length_tail] at *
    omega

/-- Takes off levels for as long as each one takes the next with it. The guard is for the first. -/
def closeLevels (s : Source) (a : Assembly) (stop : Nat) (guard : Option String) : Assembly :=
  if _h : (a.popLevel s stop guard).2 = true then
    closeLevels s (a.popLevel s stop guard).1 stop none
  else (a.popLevel s stop guard).1
termination_by a.levels.length
decreasing_by exact length_popLevel _h

theorem popLevel_nil (s : Source) {a : Assembly} (stop : Nat) (guard : Option String)
    (hroles : a.roles = []) : a.popLevel s stop guard = (a, false) := by
  rw [popLevel, if_pos (by simp [length_levels, hroles])]

theorem popLevel_cons (s : Source) {a : Assembly} (stop : Nat) (guard : Option String) {role : Role}
    {rest : List Role} (hroles : a.roles = role :: rest) :
    a.popLevel s stop guard = (a.pop s stop guard, decide (role = .arm)) := by
  have hhead := head_roles a
  rw [popLevel, if_neg (by simp [length_levels, hroles])]
  by_cases harm : role = .arm <;> simp_all

/-- No more than two levels go: below an arm stands its `case`, which takes nothing with it. -/
theorem closeLevels_eq_close (s : Source) {a : Assembly} (h : Seated a.roles) (stop : Nat)
    (guard : Option String) : a.closeLevels s stop guard = a.close s stop guard := by
  have hhead := head_roles a
  rw [closeLevels, close]
  cases hroles : a.roles with
  | nil =>
    have hpop : a.pop s stop guard = a := by
      have hframes : a.frames = [] := by simpa [roles] using hroles
      simp [pop, hframes]
    simp_all [popLevel_nil]
  | cons role rest =>
    rw [hroles] at h
    rw [popLevel_cons s stop guard hroles]
    by_cases harm : role = .arm
    · obtain ⟨below, hbelow⟩ : ∃ below, rest = .caseOf :: below := by
        cases rest with
        | nil | cons next below => simpa using h.1 harm
      have hpop : (a.pop s stop guard).roles = .caseOf :: below := by
        rw [roles_pop, hroles, tail_cons, hbelow]
      rw [closeLevels, popLevel_cons s stop none hpop]
      simp_all
    · simp_all

theorem Seated.turn {s : Source} {a : Assembly} (h : Seated a.roles) (toks : Statement) :
    Seated (a.turn s toks).1.roles := by
  cases toks with
  | nil => exact h
  | cons first rest =>
    rw [Assembly.turn]
    split
    · split
      · split
        · exact h
        · rename_i next hnext
          exact h.clause hnext
      · exact h
    · exact h.statement _

theorem depth_turn {s : Source} {a : Assembly} {first : Token} (rest : List Token)
    (hclause : first.ident?.any isClause = true) :
    (a.turn s (first :: rest)).1.depth = a.depth := by
  have hword : isClause (first.ident?.getD "") = true := by
    cases hident : first.ident? <;> simp_all
  rw [turn]
  simp only [hword, if_true]
  split
  · split
    · rfl
    · rename_i next hnext
      rw [depth_eq, depth_eq]
      rcases roles_clause a hnext with hroles | ⟨-, hroles⟩ <;> simp [hroles]
  · rfl

theorem turn_end {s : Source} {a : Assembly} {first : Token} (rest : List Token)
    (hend : first.ident? = some "end") :
    (a.turn s (first :: rest)).1 = a.close s first.stop (endGuard? s rest) := by
  simp only [turn, hend, Option.getD_some]
  rw [statement]
  simp [isClause, hend]

theorem levels_finish (s : Source) (a : Assembly) :
    (a.finish s).levels = [.file (a.finish s).items] := by
  have hframes : (a.finish s).frames = [] := frames_closeAll s _ _ (Nat.le_refl _)
  rw [levels, hframes]
  rfl

end Assembly

namespace Reading

theorem seated_next {s : Source} {r : Reading} (h : Assembly.Seated r.assembly.roles) :
    Assembly.Seated (r.next s).assembly.roles := by
  obtain ⟨a, work⟩ := r
  cases work with
  | nil => exact h
  | cons toks work => exact h.turn toks

theorem seated_turns (s : Source) (tokens : List Token) (n : Nat) :
    Assembly.Seated ((next s)^[n] (.start tokens)).assembly.roles := by
  induction n with
  | zero => trivial
  | succ n ih =>
    rw [Function.iterate_succ_apply']
    exact seated_next ih

open Assembly in
/-- What holds of the stack between two turns, and of the turn that comes. -/
structure Stacked (s : Source) (r : Reading) : Prop where
  /-- The file is the lowest level and no other one. -/
  bottom : ∃ blocks, r.assembly.levels = blocks ++ [.file r.assembly.items] ∧
    ∀ level ∈ blocks, level.isFile = false
  /-- Every arm stands on its `case`. -/
  arms : ∀ above frame below, r.assembly.frames = above ++ frame :: below → isArm frame = true →
    ∃ heading items rest, below = ⟨.caseOf heading, items⟩ :: rest
  clauses : ∀ first rest work, r.work = (first :: rest) :: work → first.ident?.any isClause = true →
    (r.next s).assembly.depth = r.assembly.depth
  ends : ∀ first rest work, r.work = (first :: rest) :: work → first.ident? = some "end" →
    Ends r.assembly (r.next s).assembly
  /-- The loop over the levels takes off what `close` takes off. -/
  closing : ∀ stop guard, r.assembly.closeLevels s stop guard = r.assembly.close s stop guard
  /-- If the text ended here the file would be the only level left. -/
  finished : (r.assembly.finish s).levels = [.file (r.assembly.finish s).items]

theorem Stacked.of_seated (s : Source) {r : Reading} (h : Assembly.Seated r.assembly.roles) :
    Stacked s r where
  bottom := by
    refine ⟨r.assembly.frames.map .block, rfl, fun level hlevel => ?_⟩
    obtain ⟨frame, -, rfl⟩ := mem_map.mp hlevel
    rfl
  arms above frame below hframes harm := h.below above hframes harm
  clauses first rest work hwork hclause := by
    obtain ⟨a, list⟩ := r
    obtain rfl : list = (first :: rest) :: work := hwork
    exact Assembly.depth_turn rest hclause
  ends first rest work hwork hend := by
    obtain ⟨a, list⟩ := r
    obtain rfl : list = (first :: rest) :: work := hwork
    have hturn := Assembly.turn_end (s := s) (a := a) rest hend
    rw [next_cons]
    simp only [hturn]
    exact Assembly.close_ends s h _ _
  closing := Assembly.closeLevels_eq_close s h
  finished := Assembly.levels_finish s r.assembly

/-- The stack is in order after any number of turns, whatever the tokens are. The turns come to an
end, and the items of the file are then the execution order. -/
theorem stacked_after_turns (s : Source) (tokens : List Token) :
    (∀ n, Stacked s ((next s)^[n] (.start tokens))) ∧
      ∃ n ≤ tokens.length, ((next s)^[n] (.start tokens)).work = [] ∧
        (((next s)^[n] (.start tokens)).assembly.finish s).levels =
        [.file (parseTokens s tokens).execution] := by
  have hstacked : ∀ n, Stacked s ((next s)^[n] (.start tokens)) :=
    fun n => .of_seated s (seated_turns s tokens n)
  obtain ⟨n, hn, hturns⟩ := turns_of_tokens s tokens
  refine ⟨hstacked, n, hn, by rw [hturns], ?_⟩
  rw [(hstacked n).finished, hturns]
  rfl

end Reading
end Recipe
end CookbookAtlas
