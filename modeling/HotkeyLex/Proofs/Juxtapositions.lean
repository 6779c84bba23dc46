import HotkeyLex.Proofs.Grammar

/-!
# Juxtapositions

What joins two operands, as a grammar: a run of blanks and an operand behind it (`JoinsOperands`). The
operand is one that has a sign, which touches it and is not doubled, or one that has none and is not one
of the operators that are spelled as words.

The rule saves itself work in three ways: it gives up in front of an operator, it reads a word only if
its first letter is one of an operator, and it keeps only the first characters of that word. With the
three as parameters (`Shortcuts`), the grammar is accepted whatever they are, as long as they never give
up an operand and never miss an operator (`juxtapositionWith_accepted_iff`). The rule's own shortcuts are
of this kind, and so is doing without them, so that they never show in its verdict
(`juxtaposition_accepts_its_grammar`).
-/

namespace HotkeyLex

/-! ## The grammar -/

/-- The signs of an operand. -/
def signChars : List Char := ['+', '-']

/-- Characters that an operand can begin with. -/
def operandChars : List Char := wordChars ++ ['\x22', '\x27', '(', '+', '-', '%']

/-- First letters of the operators that are spelled as words. -/
def verbChars : List Char := ['a', 'n', 'i', 'o', 'c', 'A', 'N', 'I', 'O', 'C']

/-- The text begins with an operand that may stand behind another one. -/
inductive OperandAhead : List Char → Prop where
  | signed {sign next : Char} {after : List Char} (signs : sign ∈ signChars) (touches : next ∈ operandChars)
      (single : next ≠ sign) : OperandAhead (sign :: next :: after)
  | plain {first : Char} {after : List Char} (begins : first ∈ operandChars) (unsigned : first ∉ signChars)
      (free : ¬ SpellsOneOf ((first :: after).takeWhile wordChars.contains) Vocabulary.operators) :
      OperandAhead (first :: after)

/-- The text begins with blanks and such an operand. -/
inductive JoinsOperands : List Char → Prop where
  | intro {blanks after : List Char} (gap : SomeRun blankChars.contains blanks after) (operand : OperandAhead after) :
      JoinsOperands (blanks ++ after)

/-- The signs are plus and minus. -/
theorem isSign_iff {ch : Char} : isSign ch = true ↔ ch ∈ signChars := by
  simp [isSign, signChars]

/-- An operand begins with a word character, a quote, a parenthesis, a sign or a percent sign. -/
theorem beginsOperand_iff {ch : Char} : beginsOperand ch = true ↔ ch ∈ operandChars := by
  rw [beginsOperand, isWordChar_eq, operandChars, Bool.or_eq_true, List.mem_append, List.contains_iff_mem,
    List.contains_iff_mem]

/-- Operators that are spelled as words begin with one of five letters, in either case. -/
theorem beginsVerb_iff {ch : Char} : beginsVerb ch = true ↔ ch ∈ verbChars := by
  have same : beginsVerb = verbChars.contains := by
    apply eq_contains
    · intro ch wide
      simp [beginsVerb, toLower_wide wide, ne_of_wide wide]
    · decide
    · decide +kernel
  rw [same, List.contains_iff_mem]

theorem beginsOperand_of_isSign {ch : Char} (sign : isSign ch = true) : beginsOperand ch = true := by
  simp only [isSign, Bool.or_eq_true, beq_iff_eq] at sign
  rcases sign with rfl | rfl <;> rfl

theorem isBlank_of_beginsOperand {ch : Char} (operand : beginsOperand ch = true) : isBlank ch = false :=
  isBlank_eq_false (isSpace_eq_false (by decide) operand)

theorem isLineEnd_of_beginsOperand {ch : Char} (operand : beginsOperand ch = true) : isLineEnd ch = false := by
  rw [Bool.eq_false_iff]
  intro line
  simp only [isLineEnd, Bool.or_eq_true, beq_iff_eq] at line
  rcases line with (rfl | rfl) | rfl <;> cases operand

theorem OperandAhead.begins {rest : List Char} (h : OperandAhead rest) :
    ∃ first after, rest = first :: after ∧ beginsOperand first = true := by
  cases h with
  | signed signs _ _ => exact ⟨_, _, rfl, beginsOperand_of_isSign (isSign_iff.2 signs)⟩
  | plain begins _ _ => exact ⟨_, _, rfl, beginsOperand_iff.2 begins⟩

/-! ## Shortcuts -/

/-- What a juxtaposition does to save work. -/
structure Shortcuts where
  /-- Characters in front of which it gives up. -/
  operator : Char → Bool
  /-- First characters of words that are read. -/
  verb : Char → Bool
  /-- How many characters of a word are kept. -/
  capacity : Nat

namespace Shortcuts

/-- No operand is given up and no operator is missed. -/
structure Lossless (s : Shortcuts) : Prop where
  operator : ∀ ch ∈ operandChars, s.operator ch = false
  verb : ∀ ch ∈ verbChars, s.verb ch = true
  capacity : ∀ keyword ∈ Vocabulary.operators, keyword.length ≤ s.capacity

/-- The shortcuts of the rule. -/
def ofRule : Shortcuts := ⟨beginsOperator, beginsVerb, Vocabulary.operatorCapacity⟩

theorem ofRule_operator : ofRule.operator = beginsOperator := rfl

theorem ofRule_verb : ofRule.verb = beginsVerb := rfl

theorem ofRule_capacity : ofRule.capacity = Vocabulary.operatorCapacity := rfl

/-- The shortcuts of the rule take no character that begins an operand for an operator, and read every word that
may be one. -/
theorem lossless_ofRule : ofRule.Lossless where
  operator := by
    have apart : operandChars.all (!beginsOperator ·) = true := by decide +kernel
    intro ch operand
    rw [ofRule_operator, ← Bool.not_eq_true']
    exact List.all_eq_true.1 apart ch operand
  verb _ verb := beginsVerb_iff.2 verb
  capacity := by decide

/-- No operator is looked for in advance, every word is read, and as much of it is kept as is wanted. -/
def none (capacity : Nat) : Shortcuts := ⟨fun _ => false, fun _ => true, capacity⟩

/-- Without shortcuts nothing is lost, if words have room. -/
theorem lossless_none {capacity : Nat} (room : Vocabulary.operatorCapacity ≤ capacity) : (none capacity).Lossless where
  operator _ _ := rfl
  verb _ _ := rfl
  capacity keyword member := Nat.le_trans (lossless_ofRule.capacity keyword member) room

end Shortcuts

namespace Rule

variable (s : Shortcuts) (c : Cursor)

/-- An operand that is no operator, with a look at its first letter before it is read. -/
def plainOperandWith : Outcome :=
  if s.verb c.look then
    let read := c.readWord s.capacity
    ⟨!read.word.isIn Vocabulary.isOperatorWord, read.cursor⟩
  else ⟨true, c⟩

/-- The operand behind the blanks. -/
def operandWith : Outcome :=
  if isSign c.look then signedOperand c.marked
  else if beginsOperand c.look then plainOperandWith s c.marked
  else ⟨false, c⟩

/-- A juxtaposition with other shortcuts. -/
def juxtapositionWith : Outcome :=
  let gap := c.passBlanks .take
  let c := gap.cursor
  if !gap.accepted || c.atEnd || isLineEnd c.look || s.operator c.look then ⟨false, c⟩ else operandWith s c

/-- With its own shortcuts the rule is the one that runs. -/
theorem juxtapositionWith_ofRule : juxtapositionWith .ofRule c = juxtaposition c := by
  have plain : ∀ d, plainOperandWith .ofRule d = plainOperand d := by
    intro d
    rw [plainOperandWith, Shortcuts.ofRule_verb, Shortcuts.ofRule_capacity, plainOperand]
  rw [juxtapositionWith, Shortcuts.ofRule_operator]
  simp only [operandWith, plain, juxtaposition]

end Rule

/-! ## One lemma for each part of the rule -/

namespace Cursor

section

variable {c : Cursor} {before rest beyond : List Char}

/-- A signed operand begins right behind the sign, and not with the sign again. -/
theorem signedOperand_accepted_iff {sign : Char} (h : c.Between before (sign :: rest) beyond) :
    (Rule.signedOperand c).accepted = true ↔
      ∃ next after, rest = next :: after ∧ beginsOperand next = true ∧ next ≠ sign := by
  have look : c.look = sign := h.look_cons
  have atGap := h.pass .take
  have behind := atGap.passWhile .take isBlank
  -- the end and a blank are declined by tests of their own, which no operand would pass either
  cases rest with
  | nil =>
    have done : ((c.pass .take).passBlanks .take).cursor.atEnd = true := behind.atEnd_nil
    simp [Rule.signedOperand, done]
  | cons next after =>
    have gap := atGap.passBlanks_accepted .take
    cases blank : isBlank next with
    | true =>
      have solid : beginsOperand next = false := by
        rw [Bool.eq_false_iff]
        intro operand
        rw [isBlank_of_beginsOperand operand] at blank
        cases blank
      rw [List.takeWhile_cons_of_pos blank] at gap
      simp [Rule.signedOperand, gap, solid]
    | false =>
      have outside : ¬ isBlank next = true := by simp [blank]
      rw [List.takeWhile_cons_of_neg outside] at gap
      rw [List.takeWhile_cons_of_neg outside, List.dropWhile_cons_of_neg outside] at behind
      have ahead : ((c.pass .take).passBlanks .take).cursor.look = next := behind.look_cons
      have more : ((c.pass .take).passBlanks .take).cursor.atEnd = false := behind.atEnd_cons
      simp [Rule.signedOperand, gap, look, ahead, more, and_comm]

/-- Only the whole word decides, also where it is not read. -/
theorem plainOperandWith_accepted_iff {s : Shortcuts} (lossless : s.Lossless) (h : c.Between before rest beyond) :
    (Rule.plainOperandWith s c).accepted = true ↔
      ¬ SpellsOneOf (rest.takeWhile wordChars.contains) Vocabulary.operators := by
  rw [← isWordChar_eq]
  have asks : ∀ run, (Word.ofRun s.capacity run).isIn Vocabulary.isOperatorWord = true ↔
      SpellsOneOf run Vocabulary.operators :=
    Word.isIn_table_iff lossless.capacity (by decide) fun _ => rfl
  simp only [Rule.plainOperandWith]
  split
  · rw [h.readWord_word, Bool.not_eq_true', ← Bool.not_eq_true, asks]
  · next unread =>
    refine iff_of_true rfl fun spells => unread ?_
    obtain ⟨first, tail, run, letter⟩ := spells.begins (p := ['a', 'n', 'i', 'o', 'c'].contains) (by decide)
    obtain ⟨after, rfl⟩ : ∃ after, rest = first :: after := by
      obtain ⟨after, same⟩ := List.takeWhile_prefix (l := rest) isWordChar
      exact ⟨tail ++ after, by rw [← same, run]; rfl⟩
    rw [h.look_cons]
    exact lossless.verb first (beginsVerb_iff.1 letter)

/-- With lossless shortcuts the rule accepts exactly what begins an operand. -/
theorem operandWith_accepted_iff {s : Shortcuts} (lossless : s.Lossless) (h : c.Between before rest beyond)
    (ends : ReadsAsEnd beyond) : (Rule.operandWith s c).accepted = true ↔ OperandAhead rest := by
  have atMark : c.marked.Between before rest beyond := h.of_place rfl rfl
  constructor
  · intro accepted
    simp only [Rule.operandWith] at accepted
    split at accepted
    · next sign =>
      obtain ⟨after, rfl⟩ := h.rest_of_look ends rfl (ne_null_of (p := isSign) rfl sign)
      obtain ⟨next, after, rfl, touches, single⟩ := (signedOperand_accepted_iff atMark).1 accepted
      exact .signed (isSign_iff.1 sign) (beginsOperand_iff.1 touches) single
    · next unsigned =>
      split at accepted
      · next begins =>
        obtain ⟨after, rfl⟩ := h.rest_of_look ends rfl (ne_null_of (p := beginsOperand) rfl begins)
        have free := (plainOperandWith_accepted_iff lossless atMark).1 accepted
        exact .plain (beginsOperand_iff.1 begins) (isSign_iff.not.1 unsigned) free
      · cases accepted
  · intro operand
    cases operand with
    | @signed sign next after signs touches single =>
      rw [Rule.operandWith, h.look_cons, if_pos (isSign_iff.2 signs)]
      exact (signedOperand_accepted_iff atMark).2 ⟨next, after, rfl, beginsOperand_iff.2 touches, single⟩
    | plain begins unsigned free =>
      rw [Rule.operandWith, h.look_cons, if_neg (isSign_iff.not.2 unsigned), if_pos (beginsOperand_iff.2 begins)]
      exact (plainOperandWith_accepted_iff lossless atMark).2 free

/-- Blanks and an operand are accepted, whatever shortcuts are taken. -/
theorem juxtapositionWith_accepted_iff {s : Shortcuts} (lossless : s.Lossless) (h : c.Between before rest beyond)
    (ends : ReadsAsEnd beyond) : (Rule.juxtapositionWith s c).accepted = true ↔ JoinsOperands rest := by
  constructor
  · intro accepted
    simp only [Rule.juxtapositionWith] at accepted
    split at accepted
    · cases accepted
    · next allowed =>
      have gap : (c.passBlanks .take).accepted = true := by
        simp only [Bool.or_eq_true, Bool.not_eq_true', not_or, Bool.not_eq_false] at allowed
        exact allowed.1.1.1
      obtain ⟨blanks, after, rfl, run, behind⟩ := (recognizes_passBlanks .take).sound h ends gap
      rw [isBlank_eq] at run
      exact .intro run ((operandWith_accepted_iff lossless behind ends).1 accepted)
  · rintro ⟨run, operand⟩
    rw [← isBlank_eq] at run
    obtain ⟨gap, behind⟩ := (recognizes_passBlanks .take).complete h ends run
    have taken := (operandWith_accepted_iff lossless behind ends).2 operand
    -- none of the reasons to give up is there in front of an operand
    obtain ⟨first, after, rfl, begins⟩ := operand.begins
    have look : (c.passBlanks .take).cursor.look = first := behind.look_cons
    have more : (c.passBlanks .take).cursor.atEnd = false := behind.atEnd_cons
    have allowed : ¬ (!(c.passBlanks .take).accepted || (c.passBlanks .take).cursor.atEnd ||
        isLineEnd (c.passBlanks .take).cursor.look || s.operator (c.passBlanks .take).cursor.look) = true := by
      simp [gap, more, look, isLineEnd_of_beginsOperand begins,
        lossless.operator first (beginsOperand_iff.1 begins)]
    simpa only [Rule.juxtapositionWith, if_neg allowed] using taken

end

/-! ## The whole rule -/

/-- A juxtaposition is accepted exactly where the text in front of the cursor begins with blanks and an
operand, and neither looking for operators in advance, nor reading only words that begin like one, nor
keeping only a part of a word changes that. The text may be longer than offsets can tell, if a zero byte
stands where it is cut. -/
theorem juxtaposition_accepts_its_grammar {text : String}
    (closed : text.utf8ByteSize ≤ 0xFFFFFFFF ∨ (Script.ofText text).byteAt 0xFFFFFFFF = 0) {c : Cursor}
    (script : c.script = Script.ofText text) (placed : c.script.isBoundary c.pos = true) :
    ∃ before rest beyond, text.toList = before ++ (rest ++ beyond) ∧ c.Between before rest beyond ∧
      ((Rule.juxtaposition c).accepted = true ↔ JoinsOperands rest) ∧
      ∀ s : Shortcuts, s.Lossless → (Rule.juxtapositionWith s c).accepted = (Rule.juxtaposition c).accepted := by
  obtain ⟨before, rest, beyond, split, h, ends⟩ := exists_between_closed closed script placed
  have reads : (Rule.juxtaposition c).accepted = true ↔ JoinsOperands rest := by
    rw [← Rule.juxtapositionWith_ofRule]
    exact juxtapositionWith_accepted_iff Shortcuts.lossless_ofRule h ends
  refine ⟨before, rest, beyond, split, h, reads, fun s lossless => ?_⟩
  rw [Bool.eq_iff_iff, juxtapositionWith_accepted_iff lossless h ends, reads]

/-- Behind an accented letter, a word that is longer than what is kept of it and begins with an operator. It
is an operand also without shortcuts. -/
theorem juxtaposition_accepts_its_grammar_long : ∃ before rest beyond,
    "é \tContainsAll".toList = before ++ (rest ++ beyond) ∧ 2 = byteSize before ∧ JoinsOperands rest ∧
    (Rule.juxtapositionWith (.none 20) ⟨Script.ofText "é \tContainsAll", 2, 0, some 2, true⟩).accepted = true := by
  have boundary : (Script.ofText "é \tContainsAll").isBoundary 2 = true := by decide +kernel
  have accepted : (Rule.juxtaposition ⟨Script.ofText "é \tContainsAll", 2, 0, some 2, true⟩).accepted = true := by
    decide +kernel
  obtain ⟨before, rest, beyond, split, h, reads, shortcuts⟩ := juxtaposition_accepts_its_grammar (.inl (by decide))
    (c := ⟨Script.ofText "é \tContainsAll", 2, 0, some 2, true⟩) rfl boundary
  refine ⟨before, rest, beyond, split, h.pos, reads.1 accepted, ?_⟩
  rw [shortcuts _ (Shortcuts.lossless_none (by decide)), accepted]

end Cursor

end HotkeyLex
