import CookbookAtlas.Recipe.File
import Mathlib.Data.List.Basic

/-! The same text in another file. Nothing but the file that resources and references carry depends
on where a text stands, and what is executed does not depend on the display limit. -/
namespace CookbookAtlas.Recipe

open Recipe.Frame

def Resource.inFile (g : Path) (r : Resource) : Resource := { r with file := g }

def Reference.inFile (g : Path) (r : Reference) : Reference := { r with file := g }

mutual
def Item.inFile (g : Path) : Item → Item
  | .resource r => .resource (r.inFile g)
  | .inclusion r => .inclusion (r.inFile g)
  | .block heading children => .block heading (itemsInFile g children)

def itemsInFile (g : Path) : List Item → List Item
  | [] => []
  | item :: rest => item.inFile g :: itemsInFile g rest
end

theorem itemsInFile_eq_map (g : Path) (items : List Item) :
    itemsInFile g items = items.map (Item.inFile g) := by
  induction items with
  | nil => rfl
  | cons item rest ih => rw [itemsInFile, ih, List.map_cons]

def Shape.inFile (g : Path) : Shape → Shape
  | .resource call start => .resource (call.inFile g) start
  | shape => shape

def Frame.inFile (g : Path) (frame : Frame) : Frame :=
  ⟨frame.shape.inFile g, itemsInFile g frame.items⟩

def Source.elsewhere (s : Source) (g : Path) (limit : Nat) : Source := ⟨s.chars, g, limit⟩

section
variable (s : Source) (g : Path) (limit : Nat)

@[simp] theorem between_elsewhere (start stop : Nat) :
    (s.elsewhere g limit).between start stop = s.between start stop := rfl
@[simp] theorem text_elsewhere (toks : List Token) :
    (s.elsewhere g limit).text toks = s.text toks := rfl

theorem argument_elsewhere : argument (s.elsewhere g limit) = argument s := rfl

theorem resourceCall?_elsewhere (head : List Token) (hasBlock : Bool) :
    resourceCall? (s.elsewhere g limit) head hasBlock =
    (resourceCall? s head hasBlock).map (Resource.inFile g) := by
  unfold resourceCall?
  cases head with
  | nil => rfl
  | cons first rest =>
    cases hword : first.ident? with
    | none => simp [hword]
    | some word =>
      by_cases hcall : callsResource word (rest.head?.map Token.kind) hasBlock = true
      · simp only [hword, hcall, if_true, argument_elsewhere]
        rfl
      · simp [hword, hcall]

theorem references_elsewhere (kind : ReferenceKind) (toks : Statement) :
    references (s.elsewhere g limit) kind toks =
    (references s kind toks).map (Reference.inFile g) := by
  rw [references, references, List.map_map]
  rfl

theorem keyText_elsewhere : keyText (s.elsewhere g limit) = keyText s := rfl

theorem assignmentPath_elsewhere (path : List String) (key : Option (Nat × List Token))
    (toks : List Token) :
    assignmentPath (s.elsewhere g limit) path key toks = assignmentPath s path key toks := by
  fun_induction assignmentPath s path key toks <;> rw [assignmentPath.eq_def]
    <;> simp_all [keyText_elsewhere]

theorem isSome_assignment?_elsewhere (toks : Statement) :
    (assignment? (s.elsewhere g limit) toks).isSome = (assignment? s toks).isSome := by
  unfold assignment?
  cases afterNode toks with
  | nil => rfl
  | cons level rest =>
    simp only [assignmentPath_elsewhere]
    split
    · split <;> rfl
    · rfl

end

namespace Assembly

theorem ite_inFile {c : Prop} [Decidable c] {g : Path} {x x' y y' : Shape × Option Fact}
    (hx : x'.1 = x.1.inFile g)
    (hy : y'.1 = y.1.inFile g) : (if c then x' else y').1 = (if c then x else y).1.inFile g := by
  by_cases hc : c
  · rw [if_pos hc, if_pos hc, hx]
  · rw [if_neg hc, if_neg hc, hy]

/-- The block that an opener pushes is the same but for the file of a resource. -/
theorem opener_elsewhere (s : Source) (g : Path) (limit : Nat) (toks : Statement) :
    (opener (s.elsewhere g limit) toks).1 = (opener s toks).1.inFile g := by
  have hassignment := isSome_assignment?_elsewhere s g limit toks
  unfold opener
  simp only [resourceCall?_elsewhere]
  refine ite_inFile rfl (ite_inFile rfl (ite_inFile rfl (ite_inFile rfl (ite_inFile rfl (ite_inFile rfl
    (ite_inFile rfl (ite_inFile rfl ?_)))))))
  cases hthere : assignment? (s.elsewhere g limit) toks with
  | some x =>
    obtain ⟨y, hy⟩ := Option.isSome_iff_exists.1 (by simpa [hthere] using hassignment.symm)
    rw [hy]
    rfl
  | none =>
    have hhere : assignment? s toks = none := by simpa [hthere] using hassignment.symm
    rw [hhere]
    cases blockDo? toks with
    | none => rfl
    | some block =>
      obtain ⟨head, parameters⟩ := block
      cases hcall : resourceCall? s head true with
      | some call =>
        simp only [hcall, Option.map_some]
        rfl
      | none =>
        simp only [hcall, Option.map_none]
        cases eachCall? head with
        | none | some each => rfl

/-- One assembly has the open blocks and the items of another, in the file `g`. -/
structure Moved (g : Path) (a b : Assembly) : Prop where
  frames : b.frames = a.frames.map (inFile g)
  items : b.items = itemsInFile g a.items

section
variable {g : Path} {a b : Assembly}

theorem settingOf_inFile (frames : List Frame) :
    settingOf (frames.map (inFile g)) = settingOf frames := by
  induction frames with
  | nil => rfl
  | cons frame rest ih =>
    obtain ⟨shape, items⟩ := frame
    cases shape with
    | scope => exact ih
    | _ => rfl

theorem Moved.setting (h : Moved g a b) : b.setting = a.setting := by
  rw [Assembly.setting, Assembly.setting, h.frames, settingOf_inFile]

theorem Moved.chain (h : Moved g a b) : b.chain = a.chain := by
  unfold Assembly.chain
  rw [h.frames]
  cases a.frames with
  | nil => rfl
  | cons frame rest =>
    obtain ⟨shape, items⟩ := frame
    cases shape <;> rfl

theorem isArm_inFile (frame : Frame) : isArm (frame.inFile g) = isArm frame := by
  obtain ⟨shape, items⟩ := frame
  cases shape <;> rfl

theorem Moved.push (h : Moved g a b) (shape : Shape) :
    Moved g (a.push shape) (b.push (shape.inFile g)) := by
  refine ⟨?_, h.items⟩
  simp [Assembly.push, h.frames, inFile, itemsInFile]

theorem Moved.noted (h : Moved g a b) (fact fact' : Fact) :
    Moved g (a.addFact fact) (b.addFact fact') :=
  ⟨h.frames, h.items⟩

theorem Moved.addItems (h : Moved g a b) (items : List Item) :
    Moved g (a.addItems items) (b.addItems (itemsInFile g items)) := by
  have happend : ∀ done, itemsInFile g (done ++ items) =
      itemsInFile g done ++ itemsInFile g items := by
    simp [itemsInFile_eq_map]
  have hframes := h.frames
  obtain ⟨frames, own, facts⟩ := a
  obtain ⟨frames', own', facts'⟩ := b
  obtain rfl : frames' = frames.map (inFile g) := hframes
  obtain rfl : own' = itemsInFile g own := h.items
  cases frames with
  | nil => exact ⟨rfl, (happend own).symm⟩
  | cons frame rest =>
    refine ⟨?_, rfl⟩
    simp [Assembly.addItems, inFile, happend]

theorem Moved.addResource (h : Moved g a b) (r : Resource) :
    Moved g (a.addResource r) (b.addResource (r.inFile g)) :=
  (h.noted _ _).addItems [.resource r]

theorem amendResource_inFile (key value : String) (frames : List Frame) :
    amendResource key value (frames.map (inFile g)) =
    (amendResource key value frames).map (inFile g) := by
  induction frames with
  | nil => rfl
  | cons frame rest ih =>
    obtain ⟨shape, items⟩ := frame
    cases shape with
    | resource call start => rfl
    | _ => simpa [amendResource, inFile, Shape.inFile] using ih

theorem Moved.addProperty (h : Moved g a b) (key value : String) :
    Moved g (a.addProperty key value) (b.addProperty key value) :=
  ⟨by simp [Assembly.addProperty, h.frames, amendResource_inFile], h.items⟩

variable (s : Source) (limit : Nat)

theorem Moved.absorb (h : Moved g a b) (frame : Frame) (stop : Nat) (guard : Option String) :
    Moved g (a.absorb s frame stop guard) (b.absorb (s.elsewhere g limit) (frame.inFile g) stop guard) := by
  obtain ⟨shape, items⟩ := frame
  cases shape with
  | resource call start =>
    cases guard with
    | none | some text => exact h.addResource _
  | conditional heading arm | caseOf heading => exact h.addItems [.block heading items]
  | transparent => exact h.addItems items
  | definition | scope => exact h
  | captured key start =>
    cases key with
    | none => exact h
    | some key =>
      by_cases hknown : isKnownProperty key = true
      · simpa [Assembly.absorb, inFile, Shape.inFile, hknown] using h.addProperty key (s.between start stop)
      · simpa [Assembly.absorb, inFile, Shape.inFile, hknown] using h

theorem Moved.pop (h : Moved g a b) (stop : Nat) (guard : Option String) :
    Moved g (a.pop s stop guard) (b.pop (s.elsewhere g limit) stop guard) := by
  have hframes := h.frames
  unfold Assembly.pop
  cases htop : a.frames with
  | nil =>
    rw [hframes, htop]
    exact h
  | cons frame rest =>
    rw [hframes, htop]
    have hbelow : Moved g { a with frames := rest } { b with frames := rest.map (inFile g) } :=
      ⟨rfl, h.items⟩
    exact hbelow.absorb s limit frame stop guard

theorem Moved.close (h : Moved g a b) (stop : Nat) (guard : Option String) :
    Moved g (a.close s stop guard) (b.close (s.elsewhere g limit) stop guard) := by
  have harm : b.frames.head?.any isArm = a.frames.head?.any isArm := by
    rw [h.frames, List.head?_map]
    cases a.frames.head? <;> simp [isArm_inFile]
  unfold Assembly.close
  rw [harm]
  by_cases hhead : a.frames.head?.any isArm = true
  · simpa [hhead] using (h.pop s limit stop guard).pop s limit stop none
  · simpa [hhead] using h.pop s limit stop guard

theorem Moved.openBlocks (h : Moved g a b) (toks : Statement) (count : Nat) :
    Moved g (a.openBlocks s toks count) (b.openBlocks (s.elsewhere g limit) toks count) := by
  have hpush : ∀ {x y : Assembly} (filler : Shape), filler.inFile g = filler → Moved g x y →
      Moved g ((List.replicate count filler).foldl Assembly.push x)
        ((List.replicate count filler).foldl Assembly.push y) := by
    intro x y filler hfiller hxy
    induction count generalizing x y with
    | zero => exact hxy
    | succ count ih =>
      have hnext := hxy.push filler
      rw [hfiller] at hnext
      exact ih hnext
  unfold Assembly.openBlocks
  rw [h.setting]
  cases a.setting with
  | inCapture => exact hpush _ rfl (h.push _)
  | inResource =>
    have hinner : (innerOpener toks).inFile g = innerOpener toks := by
      unfold innerOpener
      split
      · rfl
      · split <;> rfl
    have hopened := h.push (innerOpener toks)
    rw [hinner] at hopened
    exact hpush _ rfl hopened
  | normal =>
    have hshape := opener_elsewhere s g limit toks
    dsimp only
    rw [hshape]
    refine hpush _ rfl (Moved.push ?_ _)
    cases (opener s toks).2 <;> cases (opener (s.elsewhere g limit) toks).2
      <;> exact ⟨h.frames, h.items⟩

theorem Moved.property (h : Moved g a b) (toks : Statement) :
    Moved g (a.property s toks) (b.property (s.elsewhere g limit) toks) := by
  unfold Assembly.property
  cases (splitModifier 0 none toks).1 with
  | nil => exact h
  | cons first rest =>
    cases hkey : first.ident? with
    | none => simpa only [hkey] using h
    | some key =>
      simp only [hkey, text_elsewhere]
      by_cases hassign : (rest.head?.map Token.kind).any Token.Kind.isAssignment = true
      · simpa only [if_pos hassign] using h.addProperty key (s.text (rest.drop 1))
      · by_cases hknown : isKnownProperty key = true
        · simpa only [if_neg hassign, if_pos hknown] using h.addProperty key (s.text (stripParens rest))
        · simpa only [if_neg hassign, if_neg hknown] using h

theorem guarded_elsewhere (line : Nat) (guard : List Token) (item : Item) :
    guarded (s.elsewhere g limit) line guard (item.inFile g) =
    (guarded s line guard item).inFile g := by
  unfold guarded
  cases guard.head?.bind Token.ident? with
  | none => rfl
  | some word =>
    dsimp only
    by_cases hif : word = "if"
    · rw [if_pos hif, if_pos hif]
      rfl
    · by_cases hunless : word = "unless"
      · rw [if_neg hif, if_neg hif, if_pos hunless, if_pos hunless]
        rfl
      · rw [if_neg hif, if_neg hif, if_neg hunless, if_neg hunless]

theorem Moved.addInclude (h : Moved g a b) (line : Nat) (guard : List Token) (r : Reference) :
    Moved g (Assembly.addInclude s line guard a r)
      (Assembly.addInclude (s.elsewhere g limit) line guard b (r.inFile g)) := by
  have hitems := (h.noted (.reference r) (.reference (r.inFile g))).addItems [guarded s line guard (.inclusion r)]
  have hguarded := guarded_elsewhere (g := g) s limit line guard (.inclusion r)
  rw [itemsInFile, itemsInFile, ← hguarded] at hitems
  exact hitems

theorem inlineProperty_elsewhere (r : Resource) (after : List Token) :
    inlineProperty (s.elsewhere g limit) (r.inFile g) after =
    (inlineProperty s r after).inFile g := by
  unfold inlineProperty
  split
  · split
    · split <;> rfl
    · rfl
  · rfl

theorem Moved.resourceLine (h : Moved g a b) (toks main guard : List Token) :
    Moved g (a.resourceLine s toks main guard) (b.resourceLine (s.elsewhere g limit) toks main guard) := by
  have hcalled : ∀ call : Resource,
      Moved g
        (a.addResource (if guard.isEmpty then { call with raw := s.text toks }
          else ({ call with raw := s.text toks } : Resource).addProperty "guard" (s.line guard)))
        (b.addResource (if guard.isEmpty then { call.inFile g with raw := s.text toks }
          else ({ call.inFile g with raw := s.text toks } : Resource).addProperty "guard" (s.line guard))) := by
    intro call
    by_cases hguard : guard.isEmpty = true
    · rw [if_pos hguard, if_pos hguard]
      exact h.addResource { call with raw := s.text toks }
    · rw [if_neg hguard, if_neg hguard]
      exact h.addResource (({ call with raw := s.text toks } : Resource).addProperty "guard" (s.line guard))
  unfold Assembly.resourceLine
  simp only [resourceCall?_elsewhere]
  cases resourceCall? s (((splitFirstDo none main).map Prod.fst).getD main) (splitFirstDo none main).isSome with
  | none => exact h
  | some call =>
    simp only [Option.map_some]
    cases splitFirstDo none main with
    | none => exact hcalled call
    | some block =>
      simp only [inlineProperty_elsewhere]
      exact hcalled (inlineProperty s call block.2)

theorem Moved.includes (h : Moved g a b) (line : Nat) (guard : List Token) (rs : List Reference) :
    Moved g (rs.foldl (Assembly.addInclude s line guard) a)
      ((rs.map (Reference.inFile g)).foldl (Assembly.addInclude (s.elsewhere g limit) line guard) b) := by
  induction rs generalizing a b with
  | nil => exact h
  | cons r rs ih => exact ih (h.addInclude s limit line guard r)

theorem Moved.requires (h : Moved g a b) (rs rs' : List Reference) :
    Moved g (rs.foldl (fun a r => a.addFact (.reference r)) a)
    (rs'.foldl (fun a r => a.addFact (.reference r)) b) := by
  have hkept : ∀ (rs : List Reference) (a : Assembly),
      (rs.foldl (fun a r => a.addFact (.reference r)) a).frames = a.frames ∧
        (rs.foldl (fun a r => a.addFact (.reference r)) a).items = a.items := by
    intro rs
    induction rs with
    | nil => exact fun _ => ⟨rfl, rfl⟩
    | cons r rs ih => exact fun a => ih (a.addFact (.reference r))
  obtain ⟨hframes, hitems⟩ := hkept rs a
  obtain ⟨hframes', hitems'⟩ := hkept rs' b
  exact ⟨by rw [hframes, hframes', h.frames], by rw [hitems, hitems', h.items]⟩

theorem Moved.plain (h : Moved g a b) (toks : Statement) :
    Moved g (a.plain s toks) (b.plain (s.elsewhere g limit) toks) := by
  unfold Assembly.plain
  obtain ⟨main, guard⟩ := splitModifier 0 none toks
  simp only [references_elsewhere]
  have hassignment := isSome_assignment?_elsewhere s g limit main
  split_ifs with hinclude hrequire hrelative
  · exact h.includes s limit _ guard _
  · exact h.requires _ _
  · exact h.requires _ _
  · cases hthere : assignment? (s.elsewhere g limit) main with
    | some x =>
      obtain ⟨y, hy⟩ := Option.isSome_iff_exists.1 (by simpa [hthere] using hassignment.symm)
      rw [hy]
      exact h.noted _ _
    | none =>
      have hhere : assignment? s main = none := by simpa [hthere] using hassignment.symm
      rw [hhere]
      exact h.resourceLine s limit toks main guard

theorem Moved.ordinary (h : Moved g a b) (toks : Statement) :
    Moved g (a.ordinary s toks) (b.ordinary (s.elsewhere g limit) toks) := by
  unfold Assembly.ordinary
  rw [h.setting]
  split
  · exact h.openBlocks s limit toks _
  · cases a.setting with
    | inCapture => exact h
    | inResource => exact h.property s limit toks
    | normal => exact h.plain s limit toks

theorem Moved.clause? (h : Moved g a b) (word : String) (head : List Token) :
    (a.clause? s word head = none ∧ b.clause? (s.elsewhere g limit) word head = none) ∨
      ∃ a' b', a.clause? s word head = some a' ∧
      b.clause? (s.elsewhere g limit) word head = some b' ∧
        Moved g a' b' := by
  unfold Assembly.clause?
  rw [h.chain]
  cases clauseKind? word a.chain with
  | none => exact .inl ⟨rfl, rfl⟩
  | some clause =>
    refine .inr ⟨_, _, rfl, rfl, ?_⟩
    refine Moved.push ?_ (.conditional (heading s clause.1 head) clause.2)
    by_cases hcase : a.chain = .caseOf
    · simpa only [if_pos hcase] using h
    · simpa only [if_neg hcase] using h.pop s limit _ none

theorem Moved.statement (h : Moved g a b) (toks : Statement) :
    Moved g (a.statement s toks) (b.statement (s.elsewhere g limit) toks) := by
  fun_induction Assembly.statement s a toks generalizing b with
  | case1 a =>
    rw [Assembly.statement]
    exact h
  | case2 a first rest word =>
    rename_i hend
    rw [Assembly.statement, if_pos hend]
    exact h.close s limit first.stop (endGuard? s rest)
  | case3 a first rest word hend hclause hnormal =>
    rename_i hnone
    have hthere : b.clause? (s.elsewhere g limit) word (splitClause word (first :: rest)).1 = none := by
      rcases h.clause? s limit word (splitClause word (first :: rest)).1 with
        ⟨-, hthere⟩ | ⟨a', b', hsome, -, -⟩
      · exact hthere
      · simp [hnone] at hsome
    rw [Assembly.statement, if_neg hend, if_pos hclause, if_pos (h.setting.trans hnormal), hthere]
    exact h
  | case4 a first rest word hend hclause hnormal next hsome =>
    rename_i ih
    obtain ⟨b', hthere, hnext⟩ : ∃ b',
        b.clause? (s.elsewhere g limit) word (splitClause word (first :: rest)).1 = some b' ∧
        Moved g next b' := by
      rcases h.clause? s limit word (splitClause word (first :: rest)).1 with
        ⟨hnone, -⟩ | ⟨a', b', hsome', hthere, hmoved⟩
      · simp [hsome] at hnone
      · obtain rfl : next = a' := Option.some.inj (hsome.symm.trans hsome')
        exact ⟨b', hthere, hmoved⟩
    rw [Assembly.statement, if_neg hend, if_pos hclause, if_pos (h.setting.trans hnormal), hthere]
    exact ih hnext
  | case5 a first rest word hend hclause =>
    rename_i hsetting
    rw [Assembly.statement, if_neg hend, if_pos hclause, if_neg (h.setting ▸ hsetting)]
    exact h
  | case6 a first rest word hend hclause =>
    rename_i hrescue
    rw [Assembly.statement, if_neg hend, if_neg hclause, if_pos hrescue]
    exact h
  | case7 a first rest word hend hclause =>
    rename_i hrescue
    rw [Assembly.statement, if_neg hend, if_neg hclause, if_neg hrescue]
    exact h.ordinary s limit (first :: rest)

theorem Moved.run (h : Moved g a b) (list : List Statement) :
    Moved g (a.run s list) (b.run (s.elsewhere g limit) list) := by
  induction list generalizing a b with
  | nil => exact h
  | cons toks list ih => exact ih (h.statement s limit toks)

theorem Moved.closeAll (h : Moved g a b) (stop count : Nat) :
    Moved g (a.closeAll s stop count) (b.closeAll (s.elsewhere g limit) stop count) := by
  induction count generalizing a b with
  | zero => exact h
  | succ count ih => exact ih (h.pop s limit stop none)

end
end Assembly

/-- What a text executes is the same in another file, but for the file. -/
theorem execution_elsewhere (s : Source) (g : Path) (limit : Nat) (tokens : List Token) :
    (parseTokens (s.elsewhere g limit) tokens).execution =
    itemsInFile g (parseTokens s tokens).execution := by
  have hstart : Assembly.Moved g .start .start := ⟨rfl, rfl⟩
  have hrun := hstart.run s limit (statements tokens)
  have hlength : ((Assembly.start.run (s.elsewhere g limit) (statements tokens))).frames.length =
      (Assembly.start.run s (statements tokens)).frames.length := by
    rw [hrun.frames, List.length_map]
  have hdone := hrun.closeAll s limit (Text.byteLength s.chars)
    (Assembly.start.run s (statements tokens)).frames.length
  have hitems : ((Assembly.start.run (s.elsewhere g limit) (statements tokens)).finish
      (s.elsewhere g limit)).items =
      itemsInFile g ((Assembly.start.run s (statements tokens)).finish s).items := by
    rw [Assembly.finish, Assembly.finish, hlength]
    exact hdone.items
  exact hitems

mutual
/-- An item with the normalized path of the file that it stands in. -/
def Item.normalized : Item → Item
  | .resource r => .resource (r.inFile r.file.normalize)
  | .inclusion r => .inclusion (r.inFile r.file.normalize)
  | .block heading children => .block heading (itemsNormalized children)

def itemsNormalized : List Item → List Item
  | [] => []
  | item :: rest => item.normalized :: itemsNormalized rest
end

mutual
theorem normalized_inFile {f g : Path} (h : f.normalize = g.normalize) :
    ∀ item : Item, (item.inFile f).normalized = (item.inFile g).normalized
  | .resource r => by simp [Item.inFile, Item.normalized, Resource.inFile, h]
  | .inclusion r => by simp [Item.inFile, Item.normalized, Reference.inFile, h]
  | .block heading children => by
    rw [Item.inFile, Item.normalized, Item.inFile, Item.normalized, itemsNormalized_inFile h children]

theorem itemsNormalized_inFile {f g : Path} (h : f.normalize = g.normalize) :
    ∀ items : List Item, itemsNormalized (itemsInFile f items) =
    itemsNormalized (itemsInFile g items)
  | [] => rfl
  | item :: rest => by
    rw [itemsInFile, itemsNormalized, itemsInFile, itemsNormalized, normalized_inFile h item,
      itemsNormalized_inFile h rest]
end

/-- What reading a source lets execute: nothing of a source that is left out. -/
def executed : Except ParseFault Parsed → Option (List Item)
  | .ok parsed => some (itemsNormalized parsed.execution)
  | .error .splitCharacter => none
  | .error _ => some []

theorem normalize_congr {f g : Path} (h : f.components = g.components) :
    f.normalize = g.normalize := by
  rw [Path.normalize, Path.normalize, h]

theorem Format.ofPath?_congr {f g : Path} (h : f.components = g.components) :
    ofPath? f = ofPath? g := by
  rw [ofPath?, ofPath?, Path.extension?, Path.extension?, Path.fileName?, Path.fileName?, h]

theorem execution_inFile (s : Source) (tokens : List Token) :
    (parseTokens s tokens).execution = itemsInFile s.file (parseTokens s tokens).execution :=
  execution_elsewhere s s.file s.displayLimit tokens

theorem executed_parseData (fault fault' : ParseFault) (hfault : fault ≠ .splitCharacter)
    (hfault' : fault' ≠ .splitCharacter) (value : Option Datum) :
    executed (parseData fault value) = executed (parseData fault' value) := by
  cases value with
  | some v => rfl
  | none =>
    cases fault with
    | splitCharacter => exact absurd rfl hfault
    | _ => cases fault' with
      | splitCharacter => exact absurd rfl hfault'
      | _ => rfl

theorem executed_script {s : Source}
    (h : Format.ofPath? s.file = none ∨ Format.ofPath? s.file = some .ruby) :
    executed (parseSource s) = (parse? s).map fun parsed => itemsNormalized parsed.execution := by
  unfold parseSource
  rcases h with h | h
  · rw [h]
    cases parse? s <;> rfl
  · rw [h]
    cases parse? s <;> rfl

theorem parse?_elsewhere (s : Source) {g : Path} (hg : g.components = s.file.components)
    (limit : Nat) :
    ((parse? (s.elsewhere g limit)).map fun parsed => itemsNormalized parsed.execution) =
      (parse? s).map fun parsed => itemsNormalized parsed.execution := by
  have hchars : (s.elsewhere g limit).chars = s.chars := rfl
  rw [parse?, parse?, hchars]
  cases Token.scan? s.chars with
  | none => simp only [Option.map_none]
  | some tokens =>
    have hitems : itemsNormalized (parseTokens (s.elsewhere g limit) tokens).execution =
        itemsNormalized (parseTokens s tokens).execution := by
      rw [execution_elsewhere, itemsNormalized_inFile (normalize_congr hg), ← execution_inFile]
    simp only [Option.map_some, hitems]

/-- Reading a text from another way of writing its file lets the same be executed. -/
theorem executed_elsewhere (s : Source) {g : Path} (hg : g.components = s.file.components)
    (limit : Nat) : executed (parseSource (s.elsewhere g limit)) = executed (parseSource s) := by
  have hformat : Format.ofPath? (s.elsewhere g limit).file = Format.ofPath? s.file :=
    Format.ofPath?_congr hg
  have hchars : (s.elsewhere g limit).chars = s.chars := rfl
  cases hs : Format.ofPath? s.file with
  | none =>
    rw [executed_script (.inl (hformat.trans hs)), executed_script (.inl hs), parse?_elsewhere s hg]
  | some format =>
    cases format with
    | ruby => rw [executed_script (.inr (hformat.trans hs)), executed_script (.inr hs), parse?_elsewhere s hg]
    | json | yaml =>
      simp only [parseSource, hformat, hchars, hs]
      by_cases hblank : (Text.trim s.chars).isEmpty = true
      · simp only [hblank, if_true]
      · simp only [if_neg hblank]
        exact executed_parseData _ _ (by simp) (by simp) _

end CookbookAtlas.Recipe
