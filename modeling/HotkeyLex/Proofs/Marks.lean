import HotkeyLex.Proofs.Juxtapositions
import HotkeyLex.Proofs.TokenBounds

/-!
# Marks

Which end of the token a rule leaves marked, also where it declines (`Kind.Marks`). Three rules mark
nothing, and a line break is marked only where it is accepted. The other two mark before they know their
verdict: a juxtaposition as soon as an operand begins behind the blanks, and a section as soon as its
parenthesis is found. What they leave is then the end of the blanks or of the parenthesis, or else what
was marked before.

A rule that marks reads on from there, so the mark is never ahead of the place of reading
(`rule_leaves_mark`).
-/

namespace HotkeyLex

/-! ## What may be left -/

/-- The marked end is the end of a text from the beginning of the script. -/
def Cursor.MarkedBehind (c : Cursor) (front : List Char) : Prop :=
  ∃ stop, c.mark = some stop ∧ stop.toNat = byteSize front

/-- The marked end is right behind a parenthesis with nothing but spaces in front of it. -/
def Cursor.MarkedBehindParen (c : Cursor) (before rest : List Char) : Prop :=
  ∃ spaces after, rest = spaces ++ '(' :: after ∧ (∀ ch ∈ spaces, isSpace ch = true) ∧
    c.MarkedBehind (before ++ (spaces ++ ['(']))

/-- What the rule of a kind leaves marked, if it starts between two texts with the mark `entry`. -/
def Kind.Marks (kind : Kind) (before rest : List Char) (entry : Option UInt32) (o : Outcome) : Prop :=
  match kind with
  | .optional | .omitted | .declaration => o.cursor.mark = entry
  | .lineBreak => o.cursor.mark = if o.accepted then some o.cursor.pos else entry
  | .juxtaposition =>
    (o.cursor.mark = entry ∨ o.cursor.MarkedBehind (before ++ rest.takeWhile isBlank)) ∧
    (o.accepted = true → o.cursor.MarkedBehind (before ++ rest.takeWhile isBlank)) ∧
    ∀ blanks next after, rest = blanks ++ next :: after → SomeRun isBlank blanks (next :: after) →
      beginsOperand next = true → o.cursor.MarkedBehind (before ++ rest.takeWhile isBlank)
  | .sectionOpen =>
    (o.cursor.mark = entry ∨ o.cursor.MarkedBehindParen before rest) ∧
    (o.accepted = true → o.cursor.MarkedBehindParen before rest)

/-! ## One lemma for each rule that marks -/

namespace Rule

variable (c : Cursor)

/-- A line break leaves a mark behind itself, or the mark it found. -/
theorem lineBreak_mark : (lineBreak c).cursor.mark =
    if (lineBreak c).accepted then some (lineBreak c).cursor.pos else c.mark := by
  simp only [lineBreak]
  split
  · simp only [Cursor.marked, if_true]
  · split
    · simp only [Cursor.marked, if_true]
    · exact (Cursor.Passes.passBlanks c .skip).mark_eq

/-- An operand behind blanks. Its beginning excludes everything else that makes the rule give up. -/
theorem juxtaposition_mark : (juxtaposition c).cursor.mark =
    if (c.passBlanks .take).accepted && !(c.passBlanks .take).cursor.atEnd &&
      beginsOperand (c.passBlanks .take).cursor.look then some (c.passBlanks .take).cursor.pos else c.mark := by
  have kept : (c.passBlanks .take).cursor.mark = c.mark := (Cursor.Passes.passBlanks c .take).mark_eq
  simp only [juxtaposition]
  split
  · next stopped =>
    rw [kept, if_neg]
    intro ahead
    simp only [Bool.and_eq_true, Bool.not_eq_true'] at ahead
    obtain ⟨⟨gap, more⟩, operand⟩ := ahead
    have clear := Shortcuts.lossless_ofRule.operator _ (beginsOperand_iff.1 operand)
    rw [Shortcuts.ofRule_operator] at clear
    rw [gap, more, isLineEnd_of_beginsOperand operand, clear] at stopped
    cases stopped
  · next allowed =>
    simp only [Bool.or_eq_true, Bool.not_eq_true', not_or, Bool.not_eq_true, Bool.not_eq_false] at allowed
    obtain ⟨⟨⟨gap, more⟩, -⟩, -⟩ := allowed
    simp only [gap, more, Bool.not_false, Bool.true_and]
    split
    · next sign =>
      rw [if_pos (beginsOperand_of_isSign sign)]
      exact (Cursor.Passes.signedOperand _).mark_eq
    · split
      · exact (Cursor.Passes.plainOperand _).mark_eq
      · exact kept

/-- A section leaves a mark behind its parenthesis, if it comes that far. -/
theorem sectionOpen_mark : (sectionOpen c).cursor.mark = c.mark ∨
    ((c.passBlanks .skip).cursor.passSpaces .skip).look = '(' ∧
      (sectionOpen c).cursor.mark = some (((c.passBlanks .skip).cursor.passSpaces .skip).pass .take).pos := by
  have gap := Cursor.Passes.passBlanks c .skip
  simp only [sectionOpen]
  split
  · exact .inl gap.mark_eq
  · split
    · next opens =>
      have options : Cursor.Passes (((c.passBlanks .skip).cursor.passSpaces .skip).pass .take).marked _ :=
        (Cursor.Passes.passBlanks _ .take).trans (.sectionOptions _)
      exact .inr ⟨beq_iff_eq.1 opens, options.mark_eq⟩
    · exact .inl (gap.trans (Cursor.Passes.passSpaces _ .skip)).mark_eq

end Rule

/-! ## The marks in the text -/

namespace Cursor

section

variable {c : Cursor} {before rest beyond : List Char} (h : c.Between before rest beyond)
include h

/-- A juxtaposition marks the end of the gap as soon as an operand may begin. -/
theorem juxtaposition_marks :
    Kind.juxtaposition.Marks before rest c.mark (Rule.juxtaposition c) := by
  have behind := h.passWhile .take isBlank
  have stops : ∀ {d : Cursor}, d.mark = some (c.passBlanks .take).cursor.pos →
      d.MarkedBehind (before ++ rest.takeWhile isBlank) :=
    fun marked => ⟨_, marked, behind.pos⟩
  refine ⟨?_, fun accepted => ?_, ?_⟩
  · rw [Rule.juxtaposition_mark c]
    split
    · next ahead => exact .inr (stops ((Rule.juxtaposition_mark c).trans (if_pos ahead)))
    · exact .inl rfl
  · exact stops (Rule.juxtaposition_passes accepted).2.mark_eq
  · rintro blanks next after rfl ⟨some, longest⟩ operand
    have gap : (c.passBlanks .take).accepted = true := by
      rw [h.passBlanks_accepted, longest.takeWhile_eq]
      exact decide_eq_true (List.length_pos_iff.2 some)
    rw [longest.dropWhile_eq] at behind
    have look : (c.passBlanks .take).cursor.look = next := behind.look_cons
    have more : (c.passBlanks .take).cursor.atEnd = false := behind.atEnd_cons
    exact stops ((Rule.juxtaposition_mark c).trans (if_pos (by rw [gap, more, look, operand]; rfl)))

/-- The parenthesis that a section needs, in the text. -/
theorem markedBehindParen (ends : ReadsAsEnd beyond) {d : Cursor}
    (opens : ((c.passBlanks .skip).cursor.passSpaces .skip).look = '(')
    (marked : d.mark = some (((c.passBlanks .skip).cursor.passSpaces .skip).pass .take).pos) :
    d.MarkedBehindParen before rest := by
  obtain ⟨blanks, after, rfl, gap, atLine⟩ := (recognizes_run .skip isBlank).sound h ends rfl
  obtain ⟨spaces, after, rfl, run, atParen⟩ := (recognizes_run .skip isSpace).sound atLine ends rfl
  obtain ⟨after, rfl⟩ := atParen.rest_of_look ends opens (by decide)
  refine ⟨blanks ++ spaces, after, (List.append_assoc _ _ _).symm, ?_, _, marked, ?_⟩
  · intro ch member
    rcases List.mem_append.1 member with blank | space
    · have inside := gap.inside ch blank
      simp [isSpace, inside]
    · exact run.inside ch space
  · have behind := (atParen.pass .take).pos
    simp only [List.append_assoc] at behind ⊢
    exact behind

theorem sectionOpen_marks (ends : ReadsAsEnd beyond) :
    Kind.sectionOpen.Marks before rest c.mark (Rule.sectionOpen c) := by
  refine ⟨?_, fun accepted => ?_⟩
  · rcases Rule.sectionOpen_mark c with kept | ⟨opens, marked⟩
    · exact .inl kept
    · exact .inr (markedBehindParen h ends opens marked)
  · obtain ⟨opens, options⟩ := Rule.sectionOpen_passes accepted
    exact markedBehindParen h ends opens options.mark_eq

/-- Each rule leaves the mark that its kind asks for. -/
theorem rule_marks (ends : ReadsAsEnd beyond) (kind : Kind) :
    kind.Marks before rest c.mark (kind.rule .byChar c) := by
  cases kind with
  | optional => exact (Passes.optional c).mark_eq
  | omitted => exact (Passes.omitted c).mark_eq
  | declaration => exact (Passes.declaration c).mark_eq
  | lineBreak => exact Rule.lineBreak_mark c
  | juxtaposition => exact juxtaposition_marks h
  | sectionOpen => exact sectionOpen_marks h ends

end

/-- From every cursor that a walk may lead to, each rule leaves the mark that its kind may leave, whatever
its verdict, and never a mark ahead of where it stops reading. The text may be longer than offsets can
tell, if a zero byte stands where it is cut. -/
theorem rule_leaves_mark {text : String}
    (closed : text.utf8ByteSize ≤ 0xFFFFFFFF ∨ (Script.ofText text).byteAt 0xFFFFFFFF = 0) {entry : Cursor}
    (opened : Opened (Script.ofText text) entry) (search : ParenSearch) (list : List Move) (kind : Kind) :
    let c := ((Walk.start entry).moves search list).cursor
    ∃ before rest beyond, text.toList = before ++ (rest ++ beyond) ∧ c.Between before rest beyond ∧
      kind.Marks before rest c.mark (kind.rule search c) ∧
      ∀ stop, (kind.rule search c).cursor.mark = some stop → stop ≤ (kind.rule search c).cursor.pos := by
  intro c
  have stop := (Script.closed_ofText closed).isBoundary_size
  have walked := (Walk.All.start (opened.soundIn stop)).sound_moves search list
  obtain ⟨inText, sound⟩ : c.SoundIn (Script.ofText text) := walked.cursor
  obtain ⟨before, rest, beyond, split, h, ends⟩ := exists_between_closed closed inText.1 inText.isBoundary
  have same : kind.rule search c = kind.rule .byChar c := by
    cases search with
    | byByte => exact inText.rule_eq kind
    | byChar => rfl
  rw [same]
  refine ⟨before, rest, beyond, split, h, rule_marks h ends kind, fun stop marked => ?_⟩
  have after : (kind.rule .byChar c).cursor.SoundIn (Script.ofText text) := .reaches (.rule kind c) ⟨inText, sound⟩
  exact (after.sound.mark_between stop marked).2

/-- Behind an accented letter whose end is marked, a section that is declined for the text behind its
parenthesis leaves the end of the parenthesis. -/
theorem rule_leaves_mark_declined :
    (∃ before rest beyond, "é\n (x".toList = before ++ (rest ++ beyond) ∧ 2 = byteSize before ∧
      Kind.sectionOpen.Marks before rest (some 2) (Rule.sectionOpen (fresh (Script.ofText "é\n (x") 2).marked)) ∧
    (Rule.sectionOpen (fresh (Script.ofText "é\n (x") 2).marked).accepted = false ∧
    (Rule.sectionOpen (fresh (Script.ofText "é\n (x") 2).marked).cursor.mark = some 5 := by
  have position : (Script.ofText "é\n (x").isPosition 2 = true := by decide +kernel
  obtain ⟨before, rest, beyond, split, h, marks, -⟩ := rule_leaves_mark (.inl (by decide))
    (.place 2 (fresh (Script.ofText "é\n (x") 2) (if_pos position)) .byByte [.mark] .sectionOpen
  exact ⟨⟨before, rest, beyond, split, h.pos, marks⟩, by decide +kernel, by decide +kernel⟩

end Cursor

end HotkeyLex
