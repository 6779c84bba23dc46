import HotkeyLex.Proofs.Grammar

/-!
# Rules that decide behind a gap

An optional mark, an omitted argument and a line break are told by one character behind a run of spaces
or blanks. Their grammars (`OptionalMark`, `OmittedArgument`, `LineBreak`) name the characters one by one,
and the rules accept exactly them.

A rule that declines is not undone by itself, so it matters how far it has read. It has passed the run and
nothing else, and stands in front of the character that decided (`Outcome.Reads`). The end of the script
decides for an optional mark, and a null character in the text does not, although both look alike.
-/

namespace HotkeyLex

/-! ## The grammars -/

/-- Characters that stand behind an optional mark and its gap. -/
def followerChars : List Char := [')', ']', '\x7d', ',', ':']

/-- A question mark and its gap, in front of a follower or at the very end. -/
inductive OptionalMark : List Char → List Char → Prop where
  | intro {gap after : List Char} (run : Longest spaceChars.contains gap after)
      (follows : after = [] ∨ ∃ ch ∈ followerChars, after.head? = some ch) : OptionalMark ('?' :: gap) after

/-- How far an optional mark is looked for: not at all without a question mark, else behind its gap. -/
inductive OptionalFront : List Char → List Char → Prop where
  | other {after : List Char} (first : after.head? ≠ some '?') : OptionalFront [] after
  | gap {gap after : List Char} (run : Longest spaceChars.contains gap after) : OptionalFront ('?' :: gap) after

/-- A gap in front of a comma. -/
inductive OmittedArgument : List Char → List Char → Prop where
  | intro {gap after : List Char} (space : ∀ ch ∈ gap, ch ∈ spaceChars) : OmittedArgument gap (',' :: after)

/-- A gap in the line and one break, where a carriage return takes a line feed behind it along. -/
inductive LineBreak : List Char → List Char → Prop where
  | intro {gap feed after : List Char} (run : Longest blankChars.contains gap (feed ++ after))
      (one : feed = ['\n'] ∨ feed = ['\r', '\n'] ∨ feed = ['\r'] ∧ after.head? ≠ some '\n') :
      LineBreak (gap ++ feed) after

/-- The rule has accepted if a piece of the rest is in its grammar, and it stands behind that piece, or
else behind the part that it may read in vain. -/
structure Outcome.Reads (o : Outcome) (grammar vain : List Char → List Char → Prop)
    (before rest beyond : List Char) : Prop where
  accepted : o.accepted = true ↔ ∃ front after, rest = front ++ after ∧ grammar front after
  passed : ∃ front after, rest = front ++ after ∧
    (if o.accepted then grammar front after else vain front after) ∧ o.cursor.Between (before ++ front) after beyond

theorem mayFollowOptional_iff (ch : Char) : mayFollowOptional ch = true ↔ ch ∈ followerChars := List.contains_iff_mem

namespace Outcome.Reads

variable {o : Outcome} {grammar vain : List Char → List Char → Prop} {before rest beyond : List Char}

/-- A rule that accepts every piece of its grammar and only stops behind such pieces. -/
theorem of_passed (complete : ∀ front after, rest = front ++ after → grammar front after → o.accepted = true)
    {front after : List Char} (split : rest = front ++ after)
    (reads : if o.accepted then grammar front after else vain front after)
    (stands : o.cursor.Between (before ++ front) after beyond) : o.Reads grammar vain before rest beyond where
  accepted := by
    constructor
    · intro accepted
      rw [if_pos accepted] at reads
      exact ⟨front, after, split, reads⟩
    · rintro ⟨front, after, split, reads⟩
      exact complete front after split reads
  passed := ⟨front, after, split, reads, stands⟩

/-- A rule that accepts behind one line break. -/
theorem of_feed {feed after : List Char}
    (ahead : rest.dropWhile blankChars.contains = feed ++ after)
    (one : feed = ['\n'] ∨ feed = ['\r', '\n'] ∨ feed = ['\r'] ∧ after.head? ≠ some '\n') (accepted : o.accepted = true)
    (stands : o.cursor.Between (before ++ rest.takeWhile blankChars.contains ++ feed) after beyond) :
    o.Reads LineBreak vain before rest beyond := by
  have run : Longest blankChars.contains _ _ := .of_takeWhile blankChars.contains rest
  have split : rest = rest.takeWhile blankChars.contains ++ feed ++ after := by
    rw [List.append_assoc, ← ahead, List.takeWhile_append_dropWhile]
  rw [ahead] at run
  rw [List.append_assoc] at stands
  refine of_passed (fun _ _ _ _ => accepted) split ?_ stands
  rw [if_pos accepted]
  exact .intro run one

end Outcome.Reads

namespace Cursor

theorem passSpaces_between {c : Cursor} {before rest beyond : List Char} (h : c.Between before rest beyond)
    (step : Step) : (c.passSpaces step).Between (before ++ rest.takeWhile spaceChars.contains)
      (rest.dropWhile spaceChars.contains) beyond := by
  rw [← isSpace_eq]
  exact h.passWhile step isSpace

theorem passBlanks_between {c : Cursor} {before rest beyond : List Char} (h : c.Between before rest beyond)
    (step : Step) : (c.passBlanks step).cursor.Between (before ++ rest.takeWhile blankChars.contains)
      (rest.dropWhile blankChars.contains) beyond := by
  rw [← isBlank_eq]
  exact h.passWhile step isBlank

section

variable {c : Cursor} {before rest beyond : List Char} (h : c.Between before rest beyond) (ends : ReadsAsEnd beyond)
include h ends

/-! ## Optional marks -/

/-- What decides behind the gap of a question mark. -/
theorem follows_iff : (c.atEnd || mayFollowOptional c.look) = true ↔
    rest = [] ∨ ∃ ch ∈ followerChars, rest.head? = some ch := by
  rw [Bool.or_eq_true, h.atEnd_iff, mayFollowOptional_iff, h.look_eq ends]
  cases rest with
  | nil => simp
  | cons ch rest => simp

theorem optional_reads : (Rule.optional c).Reads OptionalMark OptionalFront before rest beyond := by
  by_cases asks : c.look = '?'
  · obtain ⟨tail, rfl⟩ := h.rest_of_look ends asks (by decide)
    have behind := passSpaces_between (h.pass .take) .skip
    rw [List.append_assoc, List.singleton_append] at behind
    have run : Longest spaceChars.contains _ _ := .of_takeWhile spaceChars.contains tail
    have rule : Rule.optional c = ⟨((c.pass .take).passSpaces .skip).atEnd ||
        mayFollowOptional ((c.pass .take).passSpaces .skip).look, (c.pass .take).passSpaces .skip⟩ := by
      rw [Rule.optional, if_pos (beq_iff_eq.2 asks)]
    rw [rule]
    refine .of_passed ?_ (congrArg ('?' :: ·) List.takeWhile_append_dropWhile.symm) ?_ behind
    · rintro _ after split ⟨whole, follows⟩
      rw [List.cons_append, List.cons.injEq] at split
      obtain ⟨-, rfl⟩ := split
      rw [whole.dropWhile_eq] at behind
      exact (follows_iff behind ends).2 follows
    · split
      · next accepted => exact .intro run ((follows_iff behind ends).1 accepted)
      · exact .gap run
  · have rule : Rule.optional c = ⟨false, c⟩ := by rw [Rule.optional, if_neg (by simp [asks])]
    have stays : c.Between (before ++ []) rest beyond := by rwa [List.append_nil]
    have other : rest.head? ≠ some '?' := by
      intro first
      rw [h.look_eq ends, List.headD_eq_head?_getD, first] at asks
      exact asks rfl
    rw [rule]
    refine .of_passed ?_ (List.nil_append rest).symm (.other other) stays
    rintro _ after rfl ⟨-, -⟩
    exact absurd rfl other

/-! ## Omitted arguments -/

theorem omitted_reads :
    (Rule.omitted c).Reads OmittedArgument (Longest spaceChars.contains) before rest beyond := by
  have behind := passSpaces_between h .skip
  have run : Longest spaceChars.contains _ _ := .of_takeWhile spaceChars.contains rest
  refine .of_passed ?_ List.takeWhile_append_dropWhile.symm ?_ behind
  · rintro gap _ rfl ⟨space⟩
    next after =>
    have whole : Longest spaceChars.contains gap (',' :: after) :=
      .of_cons (fun ch member => List.contains_iff_mem.2 (space ch member)) rfl
    rw [whole.dropWhile_eq] at behind
    exact beq_iff_eq.2 behind.look_cons
  · split
    · next comma =>
      obtain ⟨after, same⟩ := behind.rest_of_look ends (beq_iff_eq.1 comma) (by decide)
      rw [same]
      exact .intro fun ch member => List.contains_iff_mem.1 (run.inside ch member)
    · exact run

/-! ## Line breaks -/

theorem lineBreak_reads :
    (Rule.lineBreak c).Reads LineBreak (Longest blankChars.contains) before rest beyond := by
  have behind := passBlanks_between h .skip
  simp only [Rule.lineBreak]
  split
  · next feed =>
    obtain ⟨after, ahead⟩ := behind.rest_of_look ends (beq_iff_eq.1 feed) (by decide)
    rw [ahead] at behind
    exact .of_feed ahead (.inl rfl) rfl ((behind.pass .take).of_place rfl rfl)
  · next other =>
    split
    · next back =>
      obtain ⟨after, ahead⟩ := behind.rest_of_look ends (beq_iff_eq.1 back) (by decide)
      rw [ahead] at behind
      have next := behind.pass .take
      split
      · next feed =>
        obtain ⟨after, rfl⟩ := next.rest_of_look ends (beq_iff_eq.1 feed) (by decide)
        have last := next.pass .take
        rw [List.append_assoc _ ['\r']] at last
        exact .of_feed ahead (.inr (.inl rfl)) rfl (last.of_place rfl rfl)
      · next single =>
        refine .of_feed ahead (.inr (.inr ⟨rfl, fun feed => single ?_⟩)) rfl (next.of_place rfl rfl)
        rw [beq_iff_eq, next.look_eq ends, List.headD_eq_head?_getD, feed]
        rfl
    · next neither =>
      refine .of_passed ?_ List.takeWhile_append_dropWhile.symm (.of_takeWhile blankChars.contains rest) behind
      rintro _ after rfl (@⟨gap, feed, _, run, one⟩)
      rw [List.append_assoc, run.dropWhile_eq] at behind
      rcases one with rfl | rfl | ⟨rfl, -⟩
      · exact absurd (beq_iff_eq.2 behind.look_cons) other
      · exact absurd (beq_iff_eq.2 behind.look_cons) neither
      · exact absurd (beq_iff_eq.2 behind.look_cons) neither

end

/-- From every cursor in a text, an optional mark, an omitted argument and a line break are accepted exactly
where their grammars say so, and each rule stands behind what it has accepted, or else in front of the first
character that it does not read: where it began without a question mark, and behind the gap otherwise. The
text may be longer than offsets can tell, if a zero byte stands where it is cut. -/
theorem gap_rules_accept_their_grammars {text : String}
    (closed : text.utf8ByteSize ≤ 0xFFFFFFFF ∨ (Script.ofText text).byteAt 0xFFFFFFFF = 0) {c : Cursor}
    (script : c.script = Script.ofText text) (placed : c.script.isBoundary c.pos = true) :
    ∃ before rest beyond, text.toList = before ++ (rest ++ beyond) ∧ c.Between before rest beyond ∧
      (Rule.optional c).Reads OptionalMark OptionalFront before rest beyond ∧
      (Rule.omitted c).Reads OmittedArgument (Longest spaceChars.contains) before rest beyond ∧
      (Rule.lineBreak c).Reads LineBreak (Longest blankChars.contains) before rest beyond := by
  obtain ⟨before, rest, beyond, split, h, ends⟩ := exists_between_closed closed script placed
  exact ⟨before, rest, beyond, split, h, optional_reads h ends, omitted_reads h ends, lineBreak_reads h ends⟩

/-- Behind an accented letter, a question mark whose gap ends at a null character: no optional mark, although
nothing but the gap was read. -/
theorem gap_rules_accept_their_grammars_null : ∃ before rest beyond,
    "é? \r\n\x00)".toList = before ++ (rest ++ beyond) ∧ 2 = byteSize before ∧
    (¬ ∃ front after, rest = front ++ after ∧ OptionalMark front after) ∧
    ∃ front after, rest = front ++ after ∧ OptionalFront front after ∧ 6 = byteSize (before ++ front) := by
  have boundary : (Script.ofText "é? \r\n\x00)").isBoundary 2 = true := by decide +kernel
  have declined : (Rule.optional ⟨Script.ofText "é? \r\n\x00)", 2, 0, some 2, true⟩).accepted = false := by
    decide +kernel
  have stops : (Rule.optional ⟨Script.ofText "é? \r\n\x00)", 2, 0, some 2, true⟩).cursor.pos = 6 := by
    decide +kernel
  obtain ⟨before, rest, beyond, split, h, reads, -⟩ := gap_rules_accept_their_grammars (.inl (by decide))
    (c := ⟨Script.ofText "é? \r\n\x00)", 2, 0, some 2, true⟩) rfl boundary
  obtain ⟨front, after, cut, vain, stands⟩ := reads.passed
  have behind := stands.pos
  have none := reads.accepted.not
  rw [stops] at behind
  rw [declined] at vain none
  exact ⟨before, rest, beyond, split, h.pos, none.1 Bool.false_ne_true, front, after, cut, vain, behind⟩

end Cursor

end HotkeyLex
