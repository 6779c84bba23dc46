import HotkeyLex.Proofs.Displacement
import HotkeyLex.Proofs.ParenSearch
import Mathlib.Data.List.TakeWhile

/-!
# What a token covers

A token is found at a place of a script. In front of it there may be a gap, which its rule passes
over, and its last character may lie far in front of the place where the rule stopped reading.
`Kind.Covers` says for each kind what the gap and the token consist of, up to the character that
follows.

The span is settled by the passes before the last mark. From there on a rule only passes characters,
which changes neither end (`Passes.mark_eq`, `Passes.start_eq`).
-/

namespace HotkeyLex

/-! ## The end of a script -/

/-- What the size of a script leaves out reads as the end: nothing, or a null character first. -/
def ReadsAsEnd (beyond : List Char) : Prop := beyond.headD '\x00' = '\x00'

theorem ReadsAsEnd.headD_append {beyond : List Char} (ends : ReadsAsEnd beyond) (rest : List Char) :
    (rest ++ beyond).headD '\x00' = rest.headD '\x00' := by
  cases rest with
  | nil => exact ends
  | cons ch rest => rfl

/-- The byte right behind the text is zero. -/
def Script.Closed (s : Script) : Prop := s.byteAt s.size = 0

/-- A text whose offsets fit has a zero behind it. -/
theorem Script.closed_ofText {text : String}
    (zero : text.utf8ByteSize ≤ 0xFFFFFFFF ∨ (ofText text).byteAt 0xFFFFFFFF = 0) : (ofText text).Closed := by
  obtain ⟨chars, rfl⟩ := text.exists_eq_ofList
  rw [utf8ByteSize_ofList] at zero
  by_cases fits : byteSize chars < UInt32.size
  · rw [Closed, byteAt, byteOf_ofText, toNat_size_ofText fits, List.getD_eq_default]
    rw [length_encoded]
  · have long : ¬ byteSize chars ≤ 0xFFFFFFFF := fun short => fits (Nat.lt_succ_of_le short)
    have size : (ofText (String.ofList chars)).size = 0xFFFFFFFF := by
      rw [← UInt32.toNat_inj, toNat_size_eq]
      exact Nat.min_eq_right (Nat.le_of_not_le long)
    rw [Closed, size]
    exact zero.resolve_left long

theorem Script.Closed.isBoundary_size {s : Script} (closed : s.Closed) : s.isBoundary s.size = true := by
  rw [isBoundary, show s.byteAt s.size = 0 from closed, Bool.and_eq_true, decide_eq_true_eq]
  exact ⟨UInt32.le_refl _, rfl⟩

namespace Cursor.Between

variable {c : Cursor} {before rest beyond : List Char}

/-- Where a script is cut in front of a zero, the rest begins with the null character or there is none. -/
theorem readsAsEnd (h : c.Between before rest beyond) (closed : c.script.Closed) : ReadsAsEnd beyond := by
  cases beyond with
  | nil => rfl
  | cons ch beyond =>
    obtain ⟨lead, tail, encoding⟩ := exists_encoding ch
    have first : Script.byteOf c.script.buffer (byteSize (before ++ rest) + 0) = lead := by
      rw [h.script, Script.byteOf_ofText, ← List.append_assoc, getD_encoded_append, encoded_cons, encoding.bytes]
      rfl
    have zero : lead = 0 := by
      rw [← first, Nat.add_zero, ← h.size]
      exact closed
    have null : ch.toNat = 0 := by
      rw [encoding.narrow (by rw [zero]; decide), zero]
      rfl
    exact Char.toNat_inj.1 null

/-- What is read is the first character of the rest, and null where there is none. -/
theorem look_eq (h : c.Between before rest beyond) (ends : ReadsAsEnd beyond) : c.look = rest.headD '\x00' := by
  cases rest with
  | cons ch rest => exact h.look_cons
  | nil =>
    cases beyond with
    | nil => exact h.look_nil
    | cons ch beyond =>
      obtain rfl : ch = '\x00' := ends
      have zero : c.script.byteAt c.pos = 0 := h.byteAt
      simp [look, Script.charAt, zero]

/-- A character other than the null character is seen only where it stands. -/
theorem rest_of_look (h : c.Between before rest beyond) (ends : ReadsAsEnd beyond) {ch : Char}
    (seen : c.look = ch) (solid : ch ≠ '\x00') : ∃ tail, rest = ch :: tail := by
  rw [h.look_eq ends] at seen
  cases rest with
  | nil => exact absurd seen.symm solid
  | cons first tail => exact ⟨tail, congrArg (· :: tail) seen⟩

end Cursor.Between

/-! ## Gaps and tokens -/

/-- All of `run` is in the class, and the text behind it does not go on so. -/
structure Longest (p : Char → Bool) (run after : List Char) : Prop where
  inside : ∀ ch ∈ run, p ch = true
  stops : ∀ ch ∈ after.head?, p ch = false

/-- A run over a class without the null character is longest, also where the text is cut. -/
theorem longest_takeWhile {p : Char → Bool} (null : p '\x00' = false) (rest : List Char) {beyond : List Char}
    (ends : ReadsAsEnd beyond) : Longest p (rest.takeWhile p) (rest.dropWhile p ++ beyond) where
  inside ch member := List.mem_takeWhile_imp member
  stops ch first := by
    cases split : rest.dropWhile p with
    | nil =>
      rw [split, List.nil_append] at first
      rw [ReadsAsEnd, List.headD_eq_head?_getD, Option.mem_def.1 first, Option.getD_some] at ends
      rw [ends, null]
    | cons next tail =>
      rw [split, List.cons_append, List.head?_cons, Option.mem_some_iff] at first
      have outside := List.head?_dropWhile_not p rest
      rw [split, List.head?_cons] at outside
      rw [← first]
      simpa using outside

/-- What stands between the place of a choice and the token, in the token, and behind it. -/
def Kind.Covers (kind : Kind) (gap inside after : List Char) : Prop :=
  match kind with
  | .omitted | .declaration => gap = [] ∧ inside = []
  | .optional => gap = [] ∧ ∃ spaces, inside = '?' :: spaces ∧ Longest isSpace spaces after
  | .juxtaposition => gap = [] ∧ inside ≠ [] ∧ Longest isBlank inside after
  | .sectionOpen => (∀ ch ∈ gap, isSpace ch = true) ∧ ('\r' ∈ gap ∨ '\n' ∈ gap) ∧ inside = ['(']
  | .lineBreak => (∀ ch ∈ gap, isBlank ch = true) ∧
      (inside = ['\r', '\n'] ∨ inside = ['\n'] ∨ inside = ['\r'] ∧ after.head? ≠ some '\n')

/-- The token lies in the text that begins with `front` and goes on with `rest` from the place of the
choice. -/
def Token.Covers (token : Token) (front rest : List Char) : Prop :=
  ∃ gap inside after, rest = gap ++ (inside ++ after) ∧
    token.span.start.toNat = byteSize (front ++ gap) ∧
    token.span.stop.toNat = byteSize (front ++ gap ++ inside) ∧ token.kind.Covers gap inside after

/-! ## Where the ends come to lie -/

namespace Cursor

/-- Nothing was done with the cursor but moving it. -/
def Untouched (c : Cursor) : Prop := c = fresh c.script c.pos

namespace Untouched

variable {c : Cursor}

theorem start_eq (h : c.Untouched) : c.start = c.pos := by
  rw [h]
  rfl

theorem mark_eq (h : c.Untouched) : c.mark = none := by
  rw [h]
  rfl

theorem pass (h : c.Untouched) : (c.pass .skip).Untouched := by
  rw [h]
  unfold Cursor.pass
  split <;> rfl

theorem passWhile (h : c.Untouched) (p : Char → Bool) : (c.passWhile .skip p).cursor.Untouched := by
  rw [Cursor.passWhile]
  generalize (0 : UInt32) = count
  fun_induction Cursor.passCounting .skip p count c with
  | case1 count c _ _ ih => exact ih h.pass
  | case2 | case3 => exact h

end Untouched

/-- The first taken character fixes the start of the token. -/
theorem pass_take_start (c : Cursor) : (c.pass .take).start = c.start := by
  unfold pass
  split <;> rfl

end Cursor

namespace Rule

variable {c : Cursor}

/-- A juxtaposition that is accepted marks its end behind the blanks. -/
theorem juxtaposition_passes (accepted : (juxtaposition c).accepted = true) :
    (c.passBlanks .take).accepted = true ∧
      Cursor.Passes (c.passBlanks .take).cursor.marked (juxtaposition c).cursor := by
  simp only [juxtaposition] at accepted ⊢
  split at accepted
  · cases accepted
  · next allowed =>
    have gap : (c.passBlanks .take).accepted = true := by
      simp only [Bool.or_eq_true, Bool.not_eq_true', not_or, Bool.not_eq_false] at allowed
      exact allowed.1.1.1
    refine ⟨gap, ?_⟩
    rw [if_neg allowed]
    split at accepted
    · next sign =>
      rw [if_pos sign]
      exact .signedOperand _
    · next other =>
      rw [if_neg other]
      split at accepted
      · next operand =>
        rw [if_pos operand]
        exact .plainOperand _
      · cases accepted

/-- A section that is accepted marks its end behind the parenthesis. -/
theorem sectionOpen_passes (accepted : (sectionOpen c).accepted = true) :
    ((c.passBlanks .skip).cursor.passSpaces .skip).look = '(' ∧
      Cursor.Passes (((c.passBlanks .skip).cursor.passSpaces .skip).pass .take).marked (sectionOpen c).cursor := by
  simp only [sectionOpen] at accepted ⊢
  split at accepted
  · cases accepted
  · next line =>
    rw [if_neg line]
    split at accepted
    · next opens =>
      rw [if_pos opens]
      exact ⟨beq_iff_eq.1 opens, (Cursor.Passes.passBlanks _ .take).trans (.sectionOptions _)⟩
    · cases accepted

end Rule

/-! ## The six kinds -/

/-- A token from the place of one cursor to the place of another. -/
theorem Token.covers_of_places {kind : Kind} {d x y : Cursor} {front gap inside after tail beyond : List Char}
    (start : d.start = x.pos) (stop : d.mark.getD d.pos = y.pos) (first : x.Between (front ++ gap) tail beyond)
    (last : y.Between (front ++ gap ++ inside) after beyond) (covers : kind.Covers gap inside (after ++ beyond)) :
    Token.Covers ⟨kind, d.span⟩ front (gap ++ (inside ++ after) ++ beyond) := by
  refine ⟨gap, inside, after ++ beyond, ?_, ?_, ?_, covers⟩
  · simp only [List.append_assoc]
  · rw [← first.pos, ← start]
    rfl
  · rw [← last.pos, ← stop]
    rfl

/-- A token whose end was marked at the place of the other cursor. Whatever was passed since then is
no part of it. -/
theorem Token.covers_of_mark {kind : Kind} {d x y : Cursor} {front gap inside after tail beyond : List Char}
    (run : Cursor.Passes y.marked d) (start : y.start = x.pos) (first : x.Between (front ++ gap) tail beyond)
    (last : y.Between (front ++ gap ++ inside) after beyond) (covers : kind.Covers gap inside (after ++ beyond)) :
    Token.Covers ⟨kind, d.span⟩ front (gap ++ (inside ++ after) ++ beyond) := by
  refine Token.covers_of_places ?_ ?_ first last covers
  · exact (run.start_eq y.settled_marked).trans start
  · rw [run.mark_eq]
    rfl

section

variable {c : Cursor} {front rest beyond : List Char} (h : c.Between front rest beyond) (ends : ReadsAsEnd beyond)
  (untouched : c.Untouched)
include h untouched

/-- An end that is marked on entry, and by no rule, leaves an empty token. -/
theorem empty_covers (kind : Kind) (empty : kind.Covers [] [] (rest ++ beyond)) {d : Cursor}
    (run : Cursor.Passes c.marked d) : Token.Covers ⟨kind, d.span⟩ front (rest ++ beyond) := by
  have here : c.Between (front ++ []) rest beyond := by rwa [List.append_nil]
  have there : c.Between (front ++ [] ++ []) rest beyond := by rwa [List.append_nil]
  exact Token.covers_of_mark run untouched.start_eq here there empty

include ends

/-- The token of an optional mark is the mark with the space behind it. -/
theorem optional_covers (accepted : (Rule.optional c).accepted = true) :
    Token.Covers ⟨.optional, (Rule.optional c).cursor.span⟩ front (rest ++ beyond) := by
  have mark := Rule.optional_needs accepted
  obtain ⟨tail, rfl⟩ := h.rest_of_look ends mark (by decide)
  have passed : (Rule.optional c).cursor = (c.pass .take).passSpaces .skip := by
    rw [Rule.optional, if_pos (beq_iff_eq.2 mark)]
  have run : Cursor.Passes (c.pass .take) (Rule.optional c).cursor := by
    rw [passed]
    exact .passSpaces _ .skip
  have here : c.Between (front ++ []) ('?' :: tail) beyond := by rwa [List.append_nil]
  have behind := (here.pass .take).passWhile .skip isSpace
  rw [List.append_assoc _ ['?']] at behind
  rw [← List.takeWhile_append_dropWhile (p := isSpace) (l := tail)]
  refine Token.covers_of_places ?_ ?_ here behind ⟨rfl, _, rfl, longest_takeWhile (by decide) tail ends⟩
  · have settled : (c.pass .take).Settled := by
      rw [h.pass_eq]
      exact .inl rfl
    rw [run.start_eq settled, c.pass_take_start, untouched.start_eq]
  · rw [run.mark_eq, Cursor.pass_mark, untouched.mark_eq, passed]
    rfl

/-- The token of a juxtaposition is the gap between the operands. -/
theorem juxtaposition_covers (accepted : (Rule.juxtaposition c.marked).accepted = true) :
    Token.Covers ⟨.juxtaposition, (Rule.juxtaposition c.marked).cursor.span⟩ front (rest ++ beyond) := by
  obtain ⟨gap, run⟩ := Rule.juxtaposition_passes accepted
  have entry : c.marked.Between (front ++ []) rest beyond := by
    rw [List.append_nil]
    exact h.of_place rfl rfl
  have behind := entry.passWhile .take isBlank
  have blanks : Cursor.Passes c.marked (c.marked.passBlanks .take).cursor := .passBlanks _ .take
  have start : (c.marked.passBlanks .take).cursor.start = c.marked.pos :=
    (blanks.start_eq c.settled_marked).trans untouched.start_eq
  rw [entry.passBlanks_accepted, decide_eq_true_eq, List.length_pos_iff] at gap
  rw [← List.takeWhile_append_dropWhile (p := isBlank) (l := rest)]
  exact Token.covers_of_mark run start entry behind ⟨rfl, gap, longest_takeWhile (by decide) rest ends⟩

/-- The token of a section is its parenthesis, without the lines in front of it. -/
theorem sectionOpen_covers (accepted : (Rule.sectionOpen c).accepted = true) :
    Token.Covers ⟨.sectionOpen, (Rule.sectionOpen c).cursor.span⟩ front (rest ++ beyond) := by
  obtain ⟨opens, run⟩ := Rule.sectionOpen_passes accepted
  have line := (Rule.sectionOpen_needs accepted).1
  have blanks := h.passWhile .skip isBlank
  have spaces := blanks.passWhile .skip isSpace
  obtain ⟨tail, options⟩ := spaces.rest_of_look ends opens (by decide)
  rw [options, List.append_assoc] at spaces
  have before : ((c.passBlanks .skip).cursor.passSpaces .skip).Untouched :=
    (untouched.passWhile isBlank).passWhile isSpace
  have start := (Cursor.pass_take_start _).trans before.start_eq
  have gap : ∀ ch ∈ rest.takeWhile isBlank ++ (rest.dropWhile isBlank).takeWhile isSpace, isSpace ch = true := by
    intro ch member
    rcases List.mem_append.1 member with blank | space
    · simp [isSpace, List.mem_takeWhile_imp blank]
    · exact List.mem_takeWhile_imp space
  -- the spaces behind the blanks begin with the line break
  have breaks : ∀ ch, c.gapEnd = ch → ch ≠ '\x00' → isSpace ch = true →
      ch ∈ rest.takeWhile isBlank ++ (rest.dropWhile isBlank).takeWhile isSpace := by
    intro ch seen solid space
    obtain ⟨more, behind⟩ := blanks.rest_of_look ends seen solid
    rw [behind, List.takeWhile_cons_of_pos space]
    simp
  have whole : rest = (rest.takeWhile isBlank ++ (rest.dropWhile isBlank).takeWhile isSpace) ++ (['('] ++ tail) := by
    rw [List.append_assoc, List.singleton_append, ← options, List.takeWhile_append_dropWhile,
      List.takeWhile_append_dropWhile]
  rw [whole]
  refine Token.covers_of_mark run start spaces (spaces.pass .take) ⟨gap, ?_, rfl⟩
  rcases line with feed | back
  · exact .inr (breaks _ feed (by decide) rfl)
  · exact .inl (breaks _ back (by decide) rfl)

/-- The token of a line break is the break, without the blanks in front of it. -/
theorem lineBreak_covers (accepted : (Rule.lineBreak c).accepted = true) :
    Token.Covers ⟨.lineBreak, (Rule.lineBreak c).cursor.span⟩ front (rest ++ beyond) := by
  have blanks : (c.passBlanks .skip).cursor.Between _ _ _ := h.passWhile .skip isBlank
  have before : (c.passBlanks .skip).cursor.Untouched := untouched.passWhile isBlank
  have start := (Cursor.pass_take_start _).trans before.start_eq
  have gap : ∀ ch ∈ rest.takeWhile isBlank, isBlank ch = true := fun ch member => List.mem_takeWhile_imp member
  rw [← List.takeWhile_append_dropWhile (p := isBlank) (l := rest)]
  simp only [Rule.lineBreak] at accepted ⊢
  split at accepted
  · next feed =>
    rw [if_pos feed]
    obtain ⟨tail, behind⟩ := blanks.rest_of_look ends (beq_iff_eq.1 feed) (by decide)
    rw [behind] at blanks ⊢
    exact Token.covers_of_mark (.refl _) start blanks (blanks.pass .take) ⟨gap, .inr (.inl rfl)⟩
  · next other =>
    rw [if_neg other]
    split at accepted
    · next back =>
      rw [if_pos back]
      obtain ⟨tail, behind⟩ := blanks.rest_of_look ends (beq_iff_eq.1 back) (by decide)
      rw [behind] at blanks ⊢
      have next := blanks.pass .take
      split
      · next feed =>
        obtain ⟨tail, rfl⟩ := next.rest_of_look ends (beq_iff_eq.1 feed) (by decide)
        have last := next.pass .take
        rw [List.append_assoc _ ['\r']] at last
        exact Token.covers_of_mark (.refl _) ((Cursor.pass_take_start _).trans start) blanks last ⟨gap, .inl rfl⟩
      · next single =>
        refine Token.covers_of_mark (.refl _) start blanks next ⟨gap, .inr (.inr ⟨rfl, fun feed => single ?_⟩)⟩
        rw [beq_iff_eq, next.look_eq ends, ← ends.headD_append, List.headD_eq_head?_getD, feed]
        rfl
    · cases accepted

end

/-- Whatever is accepted at a fresh cursor covers what its kind says. -/
theorem attempt_covers {c : Cursor} {front rest beyond : List Char} (h : c.Between front rest beyond)
    (ends : ReadsAsEnd beyond) (untouched : c.Untouched) {kind : Kind}
    (accepted : ((kind.row .byChar).attempt c).accepted = true) :
    Token.Covers ⟨kind, ((kind.row .byChar).attempt c).cursor.span⟩ front (rest ++ beyond) := by
  cases kind with
  | optional => exact optional_covers h ends untouched accepted
  | declaration => exact empty_covers h untouched .declaration ⟨rfl, rfl⟩ (.declaration _)
  | omitted => exact empty_covers h untouched .omitted ⟨rfl, rfl⟩ (.omitted _)
  | juxtaposition => exact juxtaposition_covers h ends untouched accepted
  | sectionOpen => exact sectionOpen_covers h ends untouched accepted
  | lineBreak => exact lineBreak_covers h ends untouched accepted

/-- No token begins with a null character, and none at the end of a script. -/
theorem Cursor.choose_eq_none_of_null {c : Cursor} (null : c.look = '\x00') (search : ParenSearch)
    (valid : KindSet) : (c.choose search valid).kind? = none := by
  have gap : c.gapEnd = '\x00' := by
    rw [gapEnd_eq_look (by rw [null]; rfl), null]
  have space : c.spaceEnd = '\x00' := by
    rw [spaceEnd_eq_gapEnd (by rw [gap]; decide) (by rw [gap]; decide), gap]
  rw [choose_eq_none_iff]
  intro kind _
  rw [Bool.eq_false_iff]
  intro accepted
  have needs := Kind.needs_of_rule accepted
  cases kind <;> simp [Kind.Needs, null, gap, space, isBlank, isWordChar, Char.isAlphanum] at needs

namespace Script

variable {text : String}

/-- A token that is found covers text of its kind, behind the gap that the kind allows. -/
theorem tokenAt?_covers (closed : (ofText text).Closed) {offset : UInt32} {valid : KindSet} {token : Token}
    (found : (ofText text).tokenAt? offset valid = some token) :
    valid.has token.kind = true ∧ ∃ front rest, text.toList = front ++ rest ∧ offset.toNat = byteSize front ∧
      token.Covers front rest := by
  cases position : (ofText text).isPosition offset with
  | false =>
    rw [tokenAt?_of_not_isPosition position] at found
    cases found
  | true =>
    have boundary : (ofText text).isBoundary offset = true := by
      rw [isPosition, Bool.and_eq_true] at position
      exact position.2
    obtain ⟨front, rest, beyond, split, h⟩ :=
      Cursor.exists_between (c := .fresh (ofText text) offset) rfl closed.isBoundary_size boundary
    have inText : (Cursor.fresh (ofText text) offset).InText (ofText text) := ⟨rfl, front, rest, beyond, h⟩
    rw [tokenAt?_of_isPosition position, inText.choose_eq, Choice.token?, Option.map_eq_some_iff] at found
    obtain ⟨kind, chosen, rfl⟩ := found
    obtain ⟨allowed, accepted, -⟩ := Cursor.choose_eq_some_iff.1 chosen
    refine ⟨allowed, front, rest ++ beyond, split, h.pos, ?_⟩
    rw [Cursor.choose_cursor, chosen]
    exact attempt_covers h (h.readsAsEnd closed) rfl (Cursor.attempt_accepted.trans accepted)

/-- At the end of a closed script there is no token. -/
theorem tokenAt?_size (closed : (ofText text).Closed) (valid : KindSet) :
    (ofText text).tokenAt? (ofText text).size valid = none := by
  cases position : (ofText text).isPosition (ofText text).size with
  | false => exact tokenAt?_of_not_isPosition position valid
  | true =>
    have zero : (ofText text).byteAt (ofText text).size = 0 := closed
    have null : (Cursor.fresh (ofText text) (ofText text).size).look = '\x00' := by
      simp [Cursor.look, Cursor.fresh, charAt, zero]
    rw [tokenAt?_of_isPosition position, Choice.token?, Cursor.choose_eq_none_of_null null]
    rfl

/-- Every token is of a valid kind and covers exactly what its kind says: nothing at the place of the
choice; a question mark and the spaces behind it; the blanks between two operands; one opening
parenthesis behind spaces with a line break among them; one line break behind blanks. There is no
token at the end of a script. The text may be longer than offsets can tell, if a zero byte stands
where it is cut. -/
theorem token_covers_text_of_its_kind
    (closed : text.utf8ByteSize ≤ 0xFFFFFFFF ∨ (ofText text).byteAt 0xFFFFFFFF = 0) (valid : KindSet) :
    (∀ (offset : UInt32) (token : Token), (ofText text).tokenAt? offset valid = some token →
      valid.has token.kind = true ∧ ∃ front rest, text.toList = front ++ rest ∧
        offset.toNat = byteSize front ∧ token.Covers front rest) ∧
    (ofText text).tokenAt? (ofText text).size valid = none := by
  have ends := closed_ofText closed
  constructor
  · intro offset token found
    exact tokenAt?_covers ends found
  · exact tokenAt?_size ends valid

/-- A section behind an accented letter, blanks and two line breaks, and the token of its parenthesis. -/
theorem token_covers_text_of_its_kind_section :
    (ofText "é \r\n\t\n( join-x\n").tokenAt? 2 .all = some ⟨.sectionOpen, 7, 8⟩ ∧
    ∃ front rest, "é \r\n\t\n( join-x\n".toList = front ++ rest ∧ (2 : UInt32).toNat = byteSize front ∧
      Token.Covers ⟨.sectionOpen, 7, 8⟩ front rest := by
  have found : (ofText "é \r\n\t\n( join-x\n").tokenAt? 2 .all = some ⟨.sectionOpen, 7, 8⟩ := by decide +kernel
  exact ⟨found, ((token_covers_text_of_its_kind (.inl (by decide)) .all).1 2 _ found).2⟩

end Script

end HotkeyLex
