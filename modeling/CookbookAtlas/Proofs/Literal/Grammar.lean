import CookbookAtlas.Literal.Evaluate
import CookbookAtlas.Proofs.Datum.Members
import Mathlib.Data.List.Induction

/-! The grammar of literals. A value is one token, a signed number, or an array or a hash whose
parts are values, with commas between them and perhaps behind the last one, and it stands in no more
containers than the limit. The evaluation of a list of tokens finds a value exactly if the whole
list without its line breaks is derived from the grammar. -/
namespace CookbookAtlas.Literal

open Token List Option Members

namespace Grammar

/-- Tokens of a value that holds no others. -/
inductive Atom : List Kind → Datum → Prop
  | string (text : String) : Atom [.string text false] (.string text)
  | symbol (name : String) : Atom [.symbol name] (.string name)
  | number {text : String} {v : Datum} (h : number? text false = some v) : Atom [.number text] v
  | negative {text : String} {v : Datum} (h : number? text true = some v) :
    Atom [.op "-", .number text] v
  | yes : Atom [.ident "true"] (.bool true)
  | no : Atom [.ident "false"] (.bool false)
  | nil : Atom [.ident "nil"] .null
  | words (items : List String) : Atom [.words items] (.array (items.map .string))

/-- What stands between a key and its value. -/
inductive Mark : Kind → Prop
  | arrow : Mark .fatArrow
  | colon : Mark (.op ":")

/-- Tokens before a value in a hash. A number is taken as it is written. -/
inductive Key : List Kind → String → Prop
  | label (name : String) : Key [.label name] name
  | string (text : String) {mark : Kind} (h : Mark mark) : Key [.string text false, mark] text
  | symbol (name : String) {mark : Kind} (h : Mark mark) : Key [.symbol name, mark] name
  | number (text : String) {mark : Kind} (h : Mark mark) : Key [.number text, mark] text

/-- The members that pairs leave: a repeated key keeps its first place and takes its last value. -/
structure Settled (pairs members : Members) : Prop where
  keys : members.keys = pairs.keys.eraseDups
  values : ∀ key, members.get? key = Members.get? pairs.reverse key

mutual
/-- Tokens of a value with `depth` containers around it. -/
inductive Value : Nat → List Kind → Datum → Prop
  | atom {depth : Nat} {ks : List Kind} {v : Datum} (hdepth : depth ≤ nestingLimit) (h :
    Atom ks v) : Value depth ks v
  | array {depth : Nat} {ks : List Kind} {items : List Datum} (hdepth : depth ≤ nestingLimit)
      (h : Items (depth + 1) ks items) :
        Value depth (.leftBracket :: (ks ++ [.rightBracket])) (.array items)
  | hash {depth : Nat} {ks : List Kind} {pairs members : Members} (hdepth : depth ≤ nestingLimit)
      (h : Pairs (depth + 1) ks pairs) (hmembers : Settled pairs members) :
      Value depth (.leftBrace :: (ks ++ [.rightBrace])) (.object members)

/-- Tokens between the brackets of an array. The items after a comma may be none. -/
inductive Items : Nat → List Kind → List Datum → Prop
  | none {depth : Nat} : Items depth [] []
  | last {depth : Nat} {ks : List Kind} {v : Datum} (h : Value depth ks v) : Items depth ks [v]
  | cons {depth : Nat} {ks more : List Kind} {v : Datum} {items : List Datum} (h : Value depth ks v)
      (hmore : Items depth more items) : Items depth (ks ++ .comma :: more) (v :: items)

/-- Tokens between the braces of a hash. The pairs after a comma may be none. -/
inductive Pairs : Nat → List Kind → Members → Prop
  | none {depth : Nat} : Pairs depth [] []
  | last {depth : Nat} {ks ls : List Kind} {key : String} {v : Datum} (hkey : Key ks key) (h : Value depth ls v) :
      Pairs depth (ks ++ ls) [(key, v)]
  | cons {depth : Nat} {ks ls more : List Kind} {key : String} {v : Datum} {pairs : Members} (hkey : Key ks key)
      (h : Value depth ls v) (hmore : Pairs depth more pairs) :
        Pairs depth (ks ++ ls ++ .comma :: more) ((key, v) :: pairs)
end

theorem settled_ofPairs (pairs : Members) : Settled pairs (ofPairs pairs) := by
  induction pairs using List.reverseRecOn with
  | nil => exact ⟨rfl, fun _ => rfl⟩
  | append_singleton pairs p ih =>
    obtain ⟨key, v⟩ := p
    have hlast : ofPairs (pairs ++ [(key, v)]) = (ofPairs pairs).insert key v := by
      simp [ofPairs]
    have hkeys : Members.keys (pairs ++ [(key, v)]) = Members.keys pairs ++ [key] := by
      simp [Members.keys]
    refine ⟨?_, fun k => ?_⟩
    · rw [hlast, keys_insert, ih.keys, hkeys, eraseDups_append]
      simp only [mem_eraseDups]
      split <;> simp_all [List.removeAll, eraseDups_cons]
    · rw [hlast, reverse_append, reverse_singleton, singleton_append, Members.get?]
      split
      · rename_i hk
        rw [← hk, get?_insert_self]
      · rename_i hk
        rw [get?_insert_ne _ _ hk, ih.values]

theorem Settled.eq_ofPairs {pairs members : Members} (h : Settled pairs members) :
    members = ofPairs pairs := by
  have hpairs := settled_ofPairs pairs
  exact (ext_get? (hpairs.keys.trans h.keys.symm) (nodup_keys_ofPairs pairs)
    fun key => (hpairs.values key).trans (h.values key).symm).symm

end Grammar

namespace State

theorem run_cons (s : State) (kind : Kind) (rest : List Kind) :
    s.run (kind :: rest) = (s.step kind).bind fun t => t.run rest := by
  rw [run]
  cases s.step kind <;> rfl

/-- A value is expected and may stand here. -/
structure Awaits (s : State) : Prop where
  positive : s.negative = false
  expects : s.expectsValue = true
  shallow : s.frames.length ≤ nestingLimit

theorem Awaits.step {s : State} (h : s.Awaits) {kind : Kind} (hkind : kind ≠ .rightBracket) :
    s.step kind = s.valueStep kind := by
  obtain ⟨frames, negative, result⟩ := s
  have hpositive := h.positive
  have hexpects := h.expects
  simp only at hpositive
  subst hpositive
  cases frames with
  | nil =>
    have hnone : result.isNone = true := hexpects
    simp [State.step, hnone]
  | cons frame frames => cases frame <;> simp_all [State.step, expectsValue]

section
variable {s : State}

theorem Awaits.step_string (h : s.Awaits) (text : String) :
    s.step (.string text false) = s.value (.string text) := by
  rw [h.step (by simp), valueStep, if_neg (Nat.not_lt.mpr h.shallow)]

theorem Awaits.step_word (h : s.Awaits) (word : String) :
    s.step (.ident word) =
      if word = "true" then s.value (.bool true)
      else if word = "false" then s.value (.bool false)
      else if word = "nil" then s.value .null
      else none := by
  rw [h.step (by simp), valueStep, if_neg (Nat.not_lt.mpr h.shallow)]

theorem Awaits.step_number (h : s.Awaits) (text : String) :
    s.step (.number text) = (number? text false).bind s.value := by
  rw [h.step (by simp), valueStep, if_neg (Nat.not_lt.mpr h.shallow)]

theorem Awaits.step_minus (h : s.Awaits) : s.step (.op "-") = some { s with negative := true } := by
  rw [h.step (by simp), valueStep, if_neg (Nat.not_lt.mpr h.shallow), if_pos rfl]

theorem Awaits.step_leftBracket (h : s.Awaits) :
    s.step .leftBracket = some { s with frames := .arrayNext [] :: s.frames } := by
  rw [h.step (by simp), valueStep, if_neg (Nat.not_lt.mpr h.shallow)]

theorem Awaits.step_leftBrace (h : s.Awaits) :
    s.step .leftBrace = some { s with frames := .hashNext [] :: s.frames } := by
  rw [h.step (by simp), valueStep, if_neg (Nat.not_lt.mpr h.shallow)]

end

end State

namespace State

open Grammar

theorem Awaits.run_atom {s : State} (h : s.Awaits) {ks : List Kind} {v : Datum} (hv : Atom ks v)
    (rest : List Kind) : s.run (ks ++ rest) = (s.value v).bind fun t => t.run rest := by
  cases hv with
  | string text => exact (run_cons s _ rest).trans (by rw [h.step_string])
  | symbol name | words items =>
    exact (run_cons s _ rest).trans
      (by rw [h.step (by simp), State.valueStep, if_neg (Nat.not_lt.mpr h.shallow)])
  | number hnumber => exact (run_cons s _ rest).trans (by rw [h.step_number, hnumber, bind_some])
  | @negative text v hnumber =>
    have hsame : ({ s with negative := false } : State) = s := by rw [← h.positive]
    rw [cons_append, run_cons, h.step_minus, bind_some, cons_append, run_cons, nil_append]
    simp only [State.step, if_true, hnumber, bind_some, hsame]
  | yes => exact (run_cons s _ rest).trans (by rw [h.step_word, if_pos rfl])
  | no => exact (run_cons s _ rest).trans (by rw [h.step_word, if_neg (by decide), if_pos rfl])
  | nil =>
    exact (run_cons s _ rest).trans
      (by rw [h.step_word, if_neg (by decide), if_neg (by decide), if_pos rfl])

theorem run_key {ks : List Kind} {key : String} (h : Key ks key) (members : Members)
    (frames : List Frame) (result : Option Datum) (rest : List Kind) :
    (⟨.hashNext members :: frames, false, result⟩ : State).run (ks ++ rest) =
      (⟨.hashItem members key :: frames, false, result⟩ : State).run rest := by
  cases h with
  | label name => rfl
  | string text hmark | symbol name hmark | number text hmark => cases hmark <;> rfl

mutual
theorem run_value : ∀ {depth : Nat} {ks : List Kind} {v : Datum}, Value depth ks v →
    ∀ {s : State} (rest : List Kind),
    s.negative = false → s.expectsValue = true → s.frames.length = depth →
    s.run (ks ++ rest) = (s.value v).bind fun t => t.run rest
  | _, _, _, .atom hdepth h, s, rest, hpositive, hexpects, hlength =>
    Awaits.run_atom ⟨hpositive, hexpects, hlength ▸ hdepth⟩ h rest
  | _, _, _, .array hdepth h, s, rest, hpositive, hexpects, hlength => by
    have hawaits : s.Awaits := ⟨hpositive, hexpects, hlength ▸ hdepth⟩
    have hsame : (⟨s.frames, false, s.result⟩ : State) = s := by rw [← hpositive]
    rw [cons_append, append_assoc, run_cons, hawaits.step_leftBracket, bind_some, hpositive,
      singleton_append, run_items h [] s.frames s.result rest (by rw [hlength]), hsame]
    rfl
  | _, _, _, .hash hdepth h hmembers, s, rest, hpositive, hexpects, hlength => by
    have hawaits : s.Awaits := ⟨hpositive, hexpects, hlength ▸ hdepth⟩
    have hsame : (⟨s.frames, false, s.result⟩ : State) = s := by rw [← hpositive]
    rw [cons_append, append_assoc, run_cons, hawaits.step_leftBrace, bind_some, hpositive,
      singleton_append, run_pairs h [] s.frames s.result rest (by rw [hlength]), hsame,
      hmembers.eq_ofPairs]
    rfl

theorem run_items : ∀ {depth : Nat} {ks : List Kind} {items : List Datum}, Items depth ks items →
    ∀ (done : List Datum) (frames : List Frame) (result : Option Datum) (rest : List Kind),
    frames.length + 1 = depth →
    (⟨.arrayNext done :: frames, false, result⟩ : State).run (ks ++ .rightBracket :: rest) =
      ((⟨frames, false, result⟩ : State).value (.array (done.reverse ++ items))).bind fun t =>
      t.run rest
  | _, _, _, .none, done, frames, result, rest, hlength => by
    rw [append_nil]
    exact run_cons _ _ _
  | _, _, _, .last h, done, frames, result, rest, hlength => by
    rw [run_value h (s := ⟨.arrayNext done :: frames, false, result⟩) _ rfl rfl hlength, ← reverse_cons]
    exact run_cons _ _ _
  | _, _, _, .cons (v := v) h hmore, done, frames, result, rest, hlength => by
    have hrest := run_items hmore (v :: done) frames result rest hlength
    rw [reverse_cons, append_assoc, singleton_append] at hrest
    rw [append_assoc, cons_append,
      run_value h (s := ⟨.arrayNext done :: frames, false, result⟩) _ rfl rfl hlength, ← hrest]
    rfl

theorem run_pairs : ∀ {depth : Nat} {ks : List Kind} {pairs : Members}, Pairs depth ks pairs →
    ∀ (done : Members) (frames : List Frame) (result : Option Datum) (rest : List Kind),
    frames.length + 1 = depth →
    (⟨.hashNext done :: frames, false, result⟩ : State).run (ks ++ .rightBrace :: rest) =
      ((⟨frames, false, result⟩ : State).value
        (.object (pairs.foldl (fun members p => Members.insert members p.1 p.2) done))).bind
        fun t => t.run rest
  | _, _, _, .none, done, frames, result, rest, hlength => run_cons _ _ _
  | _, _, _, @Pairs.last _ _ _ key _ hkey h, done, frames, result, rest, hlength => by
    rw [append_assoc, run_key hkey,
      run_value h (s := ⟨.hashItem done key :: frames, false, result⟩) _ rfl rfl hlength]
    exact run_cons _ _ _
  | _, _, _, @Pairs.cons _ _ _ _ key v _ hkey h hmore, done, frames, result, rest, hlength => by
    have hrest := run_pairs hmore (Members.insert done key v) frames result rest hlength
    rw [append_assoc, append_assoc, run_key hkey, cons_append,
      run_value h (s := ⟨.hashItem done key :: frames, false, result⟩) _ rfl rfl hlength,
      foldl_cons, ← hrest]
    rfl
end

theorem valueStep_cases {s t : State} {k : Kind} (h : s.valueStep k = some t) :
    s.frames.length ≤ nestingLimit ∧
      ((∃ v, Atom [k] v ∧ s.value v = some t) ∨ (k = .op "-" ∧ t = { s with negative := true }) ∨
        (k = .leftBracket ∧ t = { s with frames := .arrayNext [] :: s.frames }) ∨
        (k = .leftBrace ∧ t = { s with frames := .hashNext [] :: s.frames })) := by
  rw [valueStep.eq_def] at h
  split at h
  · cases h
  · rename_i hdepth
    refine ⟨Nat.not_lt.mp hdepth, ?_⟩
    split at h
    · exact .inl ⟨_, .string _, h⟩
    · exact .inl ⟨_, .symbol _, h⟩
    · obtain ⟨v, hnumber, hvalue⟩ := bind_eq_some_iff.mp h
      exact .inl ⟨v, .number hnumber, hvalue⟩
    · split at h
      · rename_i hop
        exact .inr (.inl ⟨by rw [hop], (Option.some.inj h).symm⟩)
      · cases h
    · split at h
      · rename_i hword
        exact .inl ⟨_, hword ▸ .yes, h⟩
      · split at h
        · rename_i hword
          exact .inl ⟨_, hword ▸ .no, h⟩
        · split at h
          · rename_i hword
            exact .inl ⟨_, hword ▸ .nil, h⟩
          · cases h
    · exact .inl ⟨_, .words _, h⟩
    · exact .inr (.inr (.inl ⟨rfl, (Option.some.inj h).symm⟩))
    · exact .inr (.inr (.inr ⟨rfl, (Option.some.inj h).symm⟩))
    · cases h

theorem keyStep_cases {s t : State} {members : Members} {frames : List Frame} {k : Kind}
    (h : s.keyStep members frames k = some t) :
    (∃ key, Key [k] key ∧ t = { s with frames := .hashItem members key :: frames }) ∨
      ∃ key, (∀ mark, Mark mark → Key [k, mark] key) ∧
      t = { s with frames := .hashMark members key :: frames } := by
  rw [keyStep.eq_def] at h
  split at h
  · exact .inl ⟨_, .label _, (Option.some.inj h).symm⟩
  · exact .inr ⟨_, fun _ => .string _, (Option.some.inj h).symm⟩
  · exact .inr ⟨_, fun _ => .symbol _, (Option.some.inj h).symm⟩
  · exact .inr ⟨_, fun _ => .number _, (Option.some.inj h).symm⟩
  · cases h

/-- All containers are closed and no sign waits for its number. -/
structure Closed (s : State) : Prop where
  frames : s.frames = []
  positive : s.negative = false

def ReadsValue (final : State) (ks : List Kind) : Prop :=
  ∀ s : State, s.negative = false → ∀ k rest, ks = k :: rest →
    ((s.valueStep k).bind fun t => t.run rest) = some final →
    ∃ first more v t, ks = first ++ more ∧ more.length < ks.length ∧ Value s.frames.length first v ∧
      s.value v = some t ∧ t.run more = some final

def ReadsItems (final : State) (ks : List Kind) : Prop :=
  ∀ done frames result, (⟨.arrayNext done :: frames, false, result⟩ : State).run ks = some final →
    ∃ body more items t, ks = body ++ .rightBracket :: more ∧ Items (frames.length + 1) body items ∧
      (⟨frames, false, result⟩ : State).value (.array (done.reverse ++ items)) = some t ∧
      t.run more = some final

def ReadsPairs (final : State) (ks : List Kind) : Prop :=
  ∀ done frames result, (⟨.hashNext done :: frames, false, result⟩ : State).run ks = some final →
    ∃ body more pairs t, ks = body ++ .rightBrace :: more ∧ Pairs (frames.length + 1) body pairs ∧
      (⟨frames, false, result⟩ : State).value
        (.object (pairs.foldl (fun members p => Members.insert members p.1 p.2) done)) = some t ∧
      t.run more = some final

section
variable {final : State} (hfinal : final.Closed) {ks : List Kind}

include hfinal in
theorem exists_step {frame : Frame} {frames : List Frame} {result : Option Datum}
    (h : (⟨frame :: frames, false, result⟩ : State).run ks = some final) :
    ∃ k rest t, ks = k :: rest ∧ (⟨frame :: frames, false, result⟩ : State).step k = some t ∧
    t.run rest = some final := by
  cases ks with
  | nil =>
    obtain rfl := Option.some.inj h
    cases hfinal.frames
  | cons k rest =>
    rw [run_cons] at h
    obtain ⟨t, hstep, hrest⟩ := bind_eq_some_iff.mp h
    exact ⟨k, rest, t, rfl, hstep, hrest⟩

include hfinal in
theorem readsValue_of_shorter
    (hitems : ∀ ls : List Kind, ls.length < ks.length → ReadsItems final ls)
    (hpairs : ∀ ls : List Kind, ls.length < ks.length → ReadsPairs final ls) :
    ReadsValue final ks := by
  rintro s hpositive k rest rfl h
  obtain ⟨t, hstep, hrest⟩ := bind_eq_some_iff.mp h
  have hsame : (⟨s.frames, false, s.result⟩ : State) = s := by rw [← hpositive]
  obtain ⟨hdepth, ⟨v, hatom, hvalue⟩ | ⟨rfl, rfl⟩ | ⟨rfl, rfl⟩ | ⟨rfl, rfl⟩⟩ :=
    valueStep_cases hstep
  · exact ⟨[k], rest, v, t, rfl, by simp, .atom hdepth hatom, hvalue, hrest⟩
  · cases rest with
    | nil =>
      obtain rfl := Option.some.inj hrest
      cases hfinal.positive
    | cons k rest =>
      rw [run_cons] at hrest
      obtain ⟨t, hnumber, hend⟩ := bind_eq_some_iff.mp hrest
      simp only [step, if_true] at hnumber
      split at hnumber
      · obtain ⟨v, hread, hvalue⟩ := bind_eq_some_iff.mp hnumber
        rw [hsame] at hvalue
        exact ⟨[.op "-", .number _], rest, v, t,
          rfl, by simp only [length_cons]; omega, .atom hdepth (.negative hread), hvalue, hend⟩
      · cases hnumber
  · rw [hpositive] at hrest
    obtain ⟨body, more, items, t, rfl, hbody, hvalue, hmore⟩ :=
      hitems rest (by simp) [] s.frames s.result hrest
    rw [hsame] at hvalue
    exact ⟨.leftBracket :: (body ++ [.rightBracket]), more, _,
      t, by simp, by simp; omega, .array hdepth hbody, hvalue, hmore⟩
  · rw [hpositive] at hrest
    obtain ⟨body, more, pairs, t, rfl, hbody, hvalue, hmore⟩ :=
      hpairs rest (by simp) [] s.frames s.result hrest
    rw [hsame] at hvalue
    exact ⟨.leftBrace :: (body ++ [.rightBrace]), more, _, t, by simp, by simp; omega,
      .hash hdepth hbody (settled_ofPairs pairs), hvalue, hmore⟩

include hfinal in
theorem readsItems_of_shorter (hvalue : ReadsValue final ks)
    (hitems : ∀ ls : List Kind, ls.length < ks.length → ReadsItems final ls) :
    ReadsItems final ks := by
  intro done frames result h
  obtain ⟨k, rest, t, rfl, hstep, hrest⟩ := exists_step hfinal h
  by_cases hclose : k = .rightBracket
  · subst hclose
    exact ⟨[], rest, [], t, rfl, .none, by rwa [append_nil], hrest⟩
  · have hopen : (⟨.arrayNext done :: frames, false, result⟩ : State).step k =
        (⟨.arrayNext done :: frames, false, result⟩ : State).valueStep k := by simp [step, hclose]
    rw [hopen] at hstep
    obtain ⟨first, more, v, t, hsplit, hshorter, hv, hplaced, hmore⟩ :=
      hvalue ⟨.arrayNext done :: frames, false, result⟩ rfl k rest rfl (by rwa [hstep, bind_some])
    rw [hsplit] at hitems hshorter ⊢
    obtain rfl := Option.some.inj hplaced
    obtain ⟨k, rest, t, rfl, hstep, hrest⟩ := exists_step hfinal hmore
    by_cases hcomma : k = .comma
    · subst hcomma
      obtain rfl := Option.some.inj hstep
      obtain ⟨body, more, items, t, rfl, hbody, hvalue, hmore⟩ :=
        hitems rest (by simp at hshorter ⊢; omega) (v :: done) frames result hrest
      exact ⟨first ++ .comma :: body, more, v :: items,
        t, by simp, .cons hv hbody, by simpa using hvalue, hmore⟩
    · by_cases hend : k = .rightBracket
      · subst hend
        exact ⟨first, rest, [v], t, rfl, .last hv, by rw [← reverse_cons]; exact hstep, hrest⟩
      · simp [step, hcomma, hend] at hstep

include hfinal in
theorem readsPairs_of_shorter
    (hvalue : ∀ ls : List Kind, ls.length < ks.length → ReadsValue final ls)
    (hpairs : ∀ ls : List Kind, ls.length < ks.length → ReadsPairs final ls) :
    ReadsPairs final ks := by
  intro done frames result h
  obtain ⟨k, rest, t, rfl, hstep, hrest⟩ := exists_step hfinal h
  by_cases hclose : k = .rightBrace
  · subst hclose
    exact ⟨[], rest, [], t, rfl, .none, hstep, hrest⟩
  · have hopen : (⟨.hashNext done :: frames, false, result⟩ : State).step k =
        (⟨.hashNext done :: frames, false, result⟩ : State).keyStep done frames k := by simp [step, hclose]
    rw [hopen] at hstep
    obtain ⟨ks, more, key, hsplit, hkey, hmore⟩ : ∃ ks more key, k :: rest = ks ++ more ∧ Key ks key ∧
        (⟨.hashItem done key :: frames, false, result⟩ : State).run more = some final := by
      rcases keyStep_cases hstep with ⟨key, hkey, rfl⟩ | ⟨key, hkey, rfl⟩
      · exact ⟨[k], rest, key, rfl, hkey, hrest⟩
      · obtain ⟨mark, rest, t, rfl, hmark, hrest⟩ := exists_step hfinal hrest
        by_cases harrow : mark = .fatArrow
        · subst harrow
          obtain rfl := Option.some.inj hmark
          exact ⟨[k, .fatArrow], rest, key, rfl, hkey _ .arrow, hrest⟩
        · by_cases hcolon : mark = .op ":"
          · subst hcolon
            obtain rfl := Option.some.inj hmark
            exact ⟨[k, .op ":"], rest, key, rfl, hkey _ .colon, hrest⟩
          · simp [step, harrow, hcolon] at hmark
    have hshort : more.length < (k :: rest).length := by
      have hpos : 0 < ks.length := by cases hkey <;> simp
      rw [hsplit, length_append]
      omega
    obtain ⟨k', rest', t', rfl, hstep', hrest'⟩ := exists_step hfinal hmore
    obtain ⟨first, more, v, t, hread, hshorter, hv, hplaced, hmore⟩ :=
      hvalue _ hshort ⟨.hashItem done key :: frames, false, result⟩ rfl k' rest' rfl
        (by rw [← hrest', ← bind_some (f := fun t => State.run t rest'), ← hstep']; rfl)
    rw [hread] at hshort hsplit
    rw [hsplit] at hpairs hshort ⊢
    obtain rfl := Option.some.inj hplaced
    obtain ⟨k, rest, t, rfl, hstep, hrest⟩ := exists_step hfinal hmore
    by_cases hcomma : k = .comma
    · subst hcomma
      obtain rfl := Option.some.inj hstep
      obtain ⟨body, more, pairs, t, rfl, hbody, hvalue, hmore⟩ :=
        hpairs rest (by simp; omega) (Members.insert done key v) frames result hrest
      exact ⟨ks ++ first ++ .comma :: body, more, (key, v) :: pairs,
        t, by simp, .cons hkey hv hbody, hvalue, hmore⟩
    · by_cases hend : k = .rightBrace
      · subst hend
        exact ⟨ks ++ first, rest, [(key, v)], t, by simp, .last hkey hv, hstep, hrest⟩
      · simp [step, hcomma, hend] at hstep

include hfinal in
theorem reads_all (ks : List Kind) :
    ReadsValue final ks ∧ ReadsItems final ks ∧ ReadsPairs final ks := by
  induction hlength : ks.length using Nat.strongRecOn generalizing ks with
  | ind length ih =>
    have hshorter : ∀ ls : List Kind, ls.length < ks.length →
        ReadsValue final ls ∧ ReadsItems final ls ∧ ReadsPairs final ls :=
        fun ls hls => ih ls.length (hlength ▸ hls) ls rfl
    have hvalue : ReadsValue final ks :=
      readsValue_of_shorter hfinal (fun ls hls => (hshorter ls hls).2.1)
      fun ls hls => (hshorter ls hls).2.2
    exact ⟨hvalue, readsItems_of_shorter hfinal hvalue fun ls hls => (hshorter ls hls).2.1,
      readsPairs_of_shorter hfinal (fun ls hls => (hshorter ls hls).1) fun ls hls =>
      (hshorter ls hls).2.2⟩

end

/-- A run from the start ends with a value exactly if the tokens are those of the value. -/
theorem run_start_iff {ks : List Kind} {v : Datum} :
    start.run ks = some ⟨[], false, some v⟩ ↔ Value 0 ks v := by
  constructor
  · intro h
    cases ks with
    | nil => cases h
    | cons k rest =>
      rw [run_cons] at h
      have hclosed : Closed ⟨[], false, some v⟩ := ⟨rfl, rfl⟩
      have hread := (reads_all hclosed (k :: rest)).1 start rfl k rest rfl h
      obtain ⟨first, more, w, t, hsplit, -, hw, hplaced, hmore⟩ := hread
      obtain rfl := Option.some.inj hplaced
      cases more with
      | nil =>
        obtain rfl : w = v := by simpa [run, start] using hmore
        rwa [hsplit, append_nil]
      | cons k more => simp [run_cons, step, start] at hmore
  · intro h
    have hrun := run_value h (s := start) [] rfl rfl rfl
    rwa [append_nil] at hrun

end State

theorem evaluateKinds?_eq_some_iff {ks : List Kind} {v : Datum} :
    evaluateKinds? ks = some v ↔ Grammar.Value 0 (ks.filter (· != .newline)) v := by
  rw [← State.run_start_iff, evaluateKinds?]
  split
  · rename_i result hrun
    rw [hrun]
    simp
  · rename_i hother
    constructor
    · intro h
      cases h
    · intro h
      exact absurd h (hother _)

/-- Tokens are evaluated to a value exactly if they are, without their line breaks, the tokens of
that value by the grammar of literals; all others have none. -/
theorem evaluate?_eq_some_iff (tokens : List Token) (v : Datum) :
    evaluate? tokens = some v ↔ Grammar.Value 0 ((tokens.map Token.kind).filter (· != .newline)) v :=
  evaluateKinds?_eq_some_iff

end CookbookAtlas.Literal
