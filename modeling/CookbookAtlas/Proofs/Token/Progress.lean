import CookbookAtlas.Proofs.Token.Coverage

/-! A scan comes to its end. Every step passes at least one character, and a step fails only where
the common indent of a heredoc cannot be cut off, which cannot happen when indents are ASCII. -/
namespace CookbookAtlas.Token

open List Text
variable {c : Char} {lines : List (List Char)} {cs line : List Char}

theorem utf8Size_of_isAscii (hc : isAscii c = true) : c.utf8Size = 1 := by
  have hlt : c.toNat < 128 := isAscii_iff.mp hc
  have hle : c.val ≤ 127 := UInt32.le_iff_toNat_le.mpr (Nat.le_of_lt_succ hlt)
  exact Char.utf8Size_eq_one_iff.mpr hle

theorem byteLength_ascii (hcs : ∀ c ∈ cs, isAscii c = true) : byteLength cs = cs.length := by
  induction cs with
  | nil => rfl
  | cons c cs ih =>
    rw [byteLength_cons, utf8Size_of_isAscii (hcs c mem_cons_self),
      ih fun d hd => hcs d (mem_cons_of_mem c hd), length_cons, Nat.add_comm]

theorem cutBytes?_append (xs ys : List Char) : cutBytes? (byteLength xs) (xs ++ ys) = some ys := by
  induction xs with
  | nil => cases ys <;> rfl
  | cons c xs ih =>
    have hc := c.utf8Size_pos
    obtain ⟨n, hn⟩ : ∃ n, c.utf8Size + byteLength xs = n + 1 :=
      ⟨c.utf8Size + byteLength xs - 1, by omega⟩
    rw [byteLength_cons, cons_append, hn, cutBytes?, if_pos (by omega),
      show n + 1 - c.utf8Size = byteLength xs by omega, ih]

theorem cutBytes?_ascii {xs ys : List Char} (hxs : ∀ c ∈ xs, isAscii c = true) {n : Nat}
    (hn : n ≤ xs.length) : cutBytes? n (xs ++ ys) = some (xs.drop n ++ ys) := by
  have htake : byteLength (xs.take n) = n := by
    rw [byteLength_ascii fun c hc => hxs c (mem_of_mem_take hc), length_take, Nat.min_eq_left hn]
  calc cutBytes? n (xs ++ ys)
      = cutBytes? (byteLength (xs.take n)) (xs.take n ++ (xs.drop n ++ ys)) := by
        rw [htake, ← append_assoc, take_append_drop]
    _ = some (xs.drop n ++ ys) := cutBytes?_append _ _

namespace Heredoc

def IndentedPlainly (line : List Char) : Prop := ∀ c ∈ line.takeWhile isBlank, isAscii c = true

theorem indentOf_plain (h : IndentedPlainly line) :
    indentOf line = (line.takeWhile isBlank).length := byteLength_ascii h

theorem commonIndent_le (hline : line ∈ lines) (htext : trim line ≠ []) :
    commonIndent lines ≤ indentOf line := by
  have hmem : indentOf line ∈ (lines.filter fun l => !(trim l).isEmpty).map indentOf :=
    mem_map_of_mem (mem_filter.mpr ⟨hline, by simpa using htext⟩)
  rw [commonIndent]
  cases hmin : ((lines.filter fun l => !(trim l).isEmpty).map indentOf).min? with
  | none => exact Nat.zero_le _
  | some least => exact (List.min?_eq_some_iff.mp hmin).2 _ hmem

theorem dropWhile_of_trim (h : trim line = []) : line.dropWhile isBlank = [] := by
  have hall : ∀ c ∈ (line.dropWhile isBlank).reverse, isBlank c = true :=
    dropWhile_eq_nil_iff.mp (reverse_eq_nil_iff.mp h)
  cases hrest : line.dropWhile isBlank with
  | nil => rfl
  | cons c rest =>
    have hblank : isBlank c = true := hall c (by simp [hrest])
    have hhead := List.head?_dropWhile_not isBlank line
    simp [hrest, hblank] at hhead

theorem dedentLine?_isSome (hline : line ∈ lines) (hplain : IndentedPlainly line) :
    (dedentLine? (commonIndent lines) line).isSome = true := by
  have hsplit : line.takeWhile isBlank ++ line.dropWhile isBlank = line :=
    takeWhile_append_dropWhile
  rw [dedentLine?]
  split
  · rename_i hle
    have hindent : commonIndent lines ≤ (line.takeWhile isBlank).length := by
      by_cases htext : trim line = []
      · rw [dropWhile_of_trim htext, append_nil] at hsplit
        rw [hsplit]
        have hbytes := indentOf_plain hplain
        rw [indentOf, hsplit] at hbytes
        omega
      · exact indentOf_plain hplain ▸ commonIndent_le hline htext
    rw [← hsplit, cutBytes?_ascii hplain hindent]
    rfl
  · rfl

theorem dedent?_isSome (h : ∀ line ∈ lines, IndentedPlainly line) :
    (dedent? lines).isSome = true := by
  have hall : ∀ part : List (List Char), (∀ line ∈ part, line ∈ lines) →
      (part.mapM (dedentLine? (commonIndent lines))).isSome = true := by
    intro part hpart
    induction part with
    | nil => rfl
    | cons line part ih =>
      have hline := hpart line mem_cons_self
      obtain ⟨first, hfirst⟩ := Option.isSome_iff_exists.mp (dedentLine?_isSome hline (h line hline))
      obtain ⟨rest, hrest⟩ := Option.isSome_iff_exists.mp (ih fun l hl => hpart l (mem_cons_of_mem line hl))
      simp [hfirst, hrest]
  exact hall lines fun line hline => hline

/-- The lines of a body, and the characters up to the end of its terminator line. -/
def body (h : Heredoc) (cs : List Char) : List (List Char) × Nat := h.readLines [] [] 0 cs

def Plain (h : Heredoc) (lines : List (List Char)) : Prop :=
  h.squiggly = true → ∀ line ∈ lines, IndentedPlainly line

theorem readContent?_isSome {h : Heredoc} (hplain : h.Plain (h.body cs).1) :
    ∃ content, h.readContent? cs = some content ∧ content.width = (h.body cs).2 := by
  have hlines : (if h.squiggly then dedent? (h.body cs).1.reverse
      else some (h.body cs).1.reverse).isSome = true := by
    split
    · rename_i hsquiggly
      exact dedent?_isSome fun line hline => hplain hsquiggly line (mem_reverse.mp hline)
    · rfl
  obtain ⟨lines, hlines⟩ := Option.isSome_iff_exists.mp hlines
  refine ⟨_, Option.map_eq_some_iff.mpr ⟨lines, hlines, rfl⟩, rfl⟩

end Heredoc

/-- The heredocs and the lines of their bodies, where the bodies start with the text. -/
def bodyLines : List Heredoc → List Char → List (Heredoc × List (List Char))
  | [], _ => []
  | h :: docs, cs => (h, (h.body cs).1) :: bodyLines docs (cs.drop (h.body cs).2)

namespace Scan

theorem readBodies?_isSome {docs : List Heredoc} (tokens : List Token)
    (hplain : ∀ read ∈ bodyLines docs cs, read.1.Plain read.2) :
    (readBodies? tokens docs cs).isSome = true := by
  induction docs generalizing tokens cs with
  | nil => rfl
  | cons h docs ih =>
    obtain ⟨content, hcontent, hwidth⟩ := Heredoc.readContent?_isSome (hplain (h, _) mem_cons_self)
    have hrest := ih (fill tokens h.start (.string (String.ofList content.value) content.interpolated))
      fun read hread => hplain read (mem_cons_of_mem _ hread)
    rw [← hwidth] at hrest
    obtain ⟨⟨out, width⟩, hout⟩ := Option.isSome_iff_exists.mp hrest
    simp [readBodies?, hcontent, hout]

def bodiesNext (s : Scan) (c : Char) (cs : List Char) : List (Heredoc × List (List Char)) :=
  let lexeme := readLexeme s.last s.place.fresh s.place.offset c cs
  if lexeme.kind = some .newline then bodyLines s.pending (cs.drop lexeme.width) else []

theorem step?_isSome {s : Scan} {passed : List Char}
    (hfresh : s.place.fresh = true → AtLineStart passed)
    (hplain : ∀ read ∈ s.bodiesNext c cs, read.1.Plain read.2) : (s.step? c cs).isSome = true := by
  rcases readLexeme_cases s.last s.place.fresh s.place.offset c cs hfresh with
    ⟨kind, htells⟩ | ⟨width, -, hskip, -⟩
  · generalize hlexeme : readLexeme s.last s.place.fresh s.place.offset c cs = lexeme at htells
    obtain ⟨hkind, -, hspells, hopens⟩ := htells
    by_cases hbodies : kind = .newline ∧ s.pending ≠ []
    · obtain ⟨rfl, hpending⟩ := hbodies
      rw [step?_bodies hlexeme hkind hspells (hopens.eq_none rfl) hpending, Option.isSome_map]
      refine readBodies?_isSome _ ?_
      rwa [bodiesNext, hlexeme, if_pos hkind] at hplain
    · have hempty : kind = .newline → s.pending ++ lexeme.heredoc.toList = [] := by
        rintro rfl
        have hpending : s.pending = [] := by simpa using hbodies
        rw [hpending, hopens.eq_none rfl]
        rfl
      rw [step?_token hlexeme hkind hempty]
      rfl
  · rw [step?_skip hskip]
    rfl

theorem length_step? {s t : Scan} {rest : List Char} (h : s.step? c cs = some (t, rest)) :
    rest.length < (c :: cs).length := by
  rw [step?] at h
  split at h
  · obtain ⟨⟨tokens, width⟩, -, heq⟩ := Option.map_eq_some_iff.mp h
    cases heq
    simp only [length_drop, length_cons]
    omega
  · cases h
    simp only [length_drop, length_cons]
    omega

def bodiesFrom (s : Scan) : List Char → List (Heredoc × List (List Char))
  | [] => []
  | c :: cs =>
    s.bodiesNext c cs ++ match h : s.step? c cs with
      | some (t, rest) =>
        have := length_step? h
        bodiesFrom t rest
      | none => []
termination_by cs => cs.length
decreasing_by exact this

/-- States that a scan goes through, with the text left. -/
inductive Reached (source : List Char) : Scan → List Char → Prop
  | start : Reached source Scan.start source
  | step {s t : Scan} {c : Char} {cs rest : List Char} (h : Reached source s (c :: cs))
    (hstep : s.step? c cs = some (t, rest)) : Reached source t rest

end Scan

/-- Heredocs of a source text with the lines of their bodies. -/
def heredocBodies (source : List Char) : List (Heredoc × List (List Char)) :=
  Scan.start.bodiesFrom source

/-- In a heredoc that is freed of its common indent, all white space before the text of a line is
ASCII. -/
def PlainIndents (source : List Char) : Prop := ∀ read ∈ heredocBodies source, read.1.Plain read.2

instance (line : List Char) : Decidable (Heredoc.IndentedPlainly line) :=
  List.decidableBAll (fun c => isAscii c = true) (line.takeWhile isBlank)

instance (h : Heredoc) (lines : List (List Char)) : Decidable (h.Plain lines) :=
  inferInstanceAs (Decidable (h.squiggly = true → ∀ line ∈ lines, Heredoc.IndentedPlainly line))

instance (source : List Char) : Decidable (PlainIndents source) :=
  inferInstanceAs (Decidable (∀ read ∈ heredocBodies source, read.1.Plain read.2))

namespace Scan.Reached
variable {source cs rest : List Char} {s : Scan} {c : Char}

theorem laid (h : Reached source s rest) : ∃ passed, s.Laid source passed rest := by
  induction h with
  | start => exact ⟨[], laid_start source⟩
  | step _ hstep ih =>
    obtain ⟨passed, hlaid⟩ := ih
    obtain ⟨text, htext, hstep⟩ := step_of_step? hlaid.fresh hstep
    rw [htext] at hlaid
    exact ⟨passed ++ text, hlaid.step hstep⟩

theorem bodies_subset (h : Reached source s rest) : s.bodiesFrom rest ⊆ heredocBodies source := by
  induction h with
  | start => exact List.Subset.refl _
  | @step s t c cs rest _ hstep ih =>
    refine List.Subset.trans ?_ ih
    intro read hread
    rw [bodiesFrom]
    refine mem_append_right _ ?_
    split
    · rename_i hstep'
      rw [hstep'] at hstep
      cases hstep
      exact hread
    · rename_i hnone
      rw [hnone] at hstep
      cases hstep

/-- One step of a scan of a text with plain indents: it is taken, it passes at least one byte, and
it goes from one character boundary to another. -/
def Advances (source : List Char) (s : Scan) (c : Char) (cs : List Char) : Prop :=
  ∃ t rest passed text, s.step? c cs = some (t, rest) ∧ source = passed ++ text ++ rest ∧
    text ++ rest = c :: cs ∧
    s.place.offset = byteLength passed ∧ t.place.offset = byteLength (passed ++ text) ∧
    s.place.offset < t.place.offset

theorem advances (h : Reached source s (c :: cs)) (hplain : PlainIndents source) :
    Advances source s c cs := by
  obtain ⟨passed, hlaid⟩ := h.laid
  have hnext : ∀ read ∈ s.bodiesNext c cs, read.1.Plain read.2 := by
    intro read hread
    refine hplain read (h.bodies_subset ?_)
    rw [bodiesFrom]
    exact mem_append_left _ hread
  obtain ⟨⟨t, rest⟩, hstep⟩ := Option.isSome_iff_exists.mp (step?_isSome hlaid.fresh hnext)
  obtain ⟨text, htext, hkind⟩ := step_of_step? hlaid.fresh hstep
  rw [htext] at hlaid
  have hpassed := (hlaid.step hkind).offset_eq
  have hpos := byteLength_pos hkind.ne_nil
  refine ⟨t, rest, passed, text, hstep, ?_, htext.symm, hlaid.offset_eq, hpassed, ?_⟩
  · rw [hlaid.source_eq, append_assoc]
  · rw [hpassed, hlaid.offset_eq, byteLength_append]
    omega

theorem scans (h : Reached source s rest) (hplain : PlainIndents source) :
    ∃ tokens, scanFrom s rest = some tokens := by
  induction hlength : rest.length using Nat.strongRecOn generalizing s rest with
  | ind length ih =>
    cases rest with
    | nil => exact ⟨_, scanFrom.eq_1 s⟩
    | cons c cs =>
      obtain ⟨t, rest, -, -, hstep, -⟩ := h.advances hplain
      have hlt := length_step? hstep
      obtain ⟨tokens, htokens⟩ := ih rest.length (hlength ▸ hlt) (h.step hstep) rfl
      exact ⟨tokens, by rw [scanFrom_cons, hstep]; exact htokens⟩

end Scan.Reached

end CookbookAtlas.Token
