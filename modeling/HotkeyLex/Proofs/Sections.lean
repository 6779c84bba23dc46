import HotkeyLex.Proofs.Grammar

/-!
# Sections

What opens a continuation section, as a grammar: a line break, an opening parenthesis as the first
character of a line, and options up to the next line break (`OpensSection`). An option is `join` with all
that is glued to it, a whole word from the tables of comments and trimming, or a backtick. Nothing has to
stand between two options except what keeps the first from being longer.

The rule goes by the first letter of an option and keeps only the first characters of a word. It still
accepts exactly what the grammar describes, for any number of options (`sectionOpen_accepts_its_grammar`).
That the options are read in the one way in which they can be read rests on their first letters: an
option never begins with a blank or a line break, so the gaps in front of it are as long as they can be.
-/

namespace HotkeyLex

/-! ## The grammar -/

/-- Characters that end what is glued to `join`. -/
def glueEnds : List Char := [' ', '\t', '\r', '\n', '\x00']

/-- An option, as long as it can be. -/
inductive SectionOption : List Char → List Char → Prop where
  | join {word glued after : List Char} (spelled : sameWord (String.ofList word) "join" = true)
      (whole : Longest (!glueEnds.contains ·) glued after) : SectionOption (word ++ glued) after
  | comment {word after : List Char} (whole : Longest wordChars.contains word after)
      (listed : SpellsOneOf word Vocabulary.comments) : SectionOption word after
  | trim {word after : List Char} (whole : Longest wordChars.contains word after)
      (listed : SpellsOneOf word Vocabulary.trims) : SectionOption word after
  | backtick {after : List Char} : SectionOption ['\x60'] after

/-- The text begins with options, with blanks behind each of them or not, and a line break. -/
inductive ListsOptions : List Char → Prop where
  | stop {feed : Char} {after : List Char} (line : feed = '\n' ∨ feed = '\r') : ListsOptions (feed :: after)
  | more {option blanks after : List Char} (first : SectionOption option (blanks ++ after))
      (blank : ∀ ch ∈ blanks, ch ∈ blankChars) (others : ListsOptions after) :
      ListsOptions (option ++ (blanks ++ after))

/-- The text begins with a line break, a parenthesis that comes first on its line, and options. -/
inductive OpensSection : List Char → Prop where
  | intro {blanks spaces gap after : List Char} {feed : Char} (front : ∀ ch ∈ blanks, ch ∈ blankChars)
      (line : feed = '\n' ∨ feed = '\r') (space : ∀ ch ∈ spaces, ch ∈ spaceChars)
      (back : ∀ ch ∈ gap, ch ∈ blankChars) (options : ListsOptions after) :
      OpensSection (blanks ++ feed :: (spaces ++ '(' :: (gap ++ after)))

/-- Glued to `join` is all that is neither a space nor the null character. -/
theorem isGlued_eq : Rule.isGlued = (!glueEnds.contains ·) := by
  funext ch
  have ends : glueEnds = spaceChars ++ ['\x00'] := rfl
  rw [Rule.isGlued, isSpace_eq, ends, Bool.eq_iff_iff]
  simp only [Bool.and_eq_true, bne_iff_ne, Bool.not_eq_true', Bool.eq_false_iff, ne_eq, List.contains_iff_mem,
    List.mem_append, List.mem_singleton, not_or]
  exact and_comm

/-! ## First letters -/

/-- First letters of options, in either case, and the backtick. -/
def beginsOption (ch : Char) : Bool := ['j', 'c', 'l', 'r', '\x60'].contains ch.toLower

theorem isSpace_of_beginsOption {ch : Char} (begins : beginsOption ch = true) : isSpace ch = false :=
  isSpace_eq_false (by decide) begins

theorem isBlank_feed {feed : Char} (line : feed = '\n' ∨ feed = '\r') : isBlank feed = false := by
  rcases line with rfl | rfl <;> rfl

theorem isSpace_feed {feed : Char} (line : feed = '\n' ∨ feed = '\r') : isSpace feed = true := by
  rcases line with rfl | rfl <;> rfl

/-- The word for joining lines begins with its letter in either case. -/
theorem begins_join {word : List Char} (spelled : sameWord (String.ofList word) "join" = true) :
    ∃ first tail, word = first :: tail ∧ first.toLower = 'j' := by
  have listed : SpellsOneOf word ["join"] := ⟨"join", List.mem_singleton_self _, spelled⟩
  obtain ⟨first, tail, rfl, letter⟩ := listed.begins (p := (· == 'j')) (by decide)
  exact ⟨first, tail, rfl, beq_iff_eq.1 letter⟩

theorem begins_comment {word : List Char} (listed : SpellsOneOf word Vocabulary.comments) :
    ∃ first tail, word = first :: tail ∧ first.toLower = 'c' := by
  obtain ⟨first, tail, rfl, letter⟩ := listed.begins (p := (· == 'c')) (by decide)
  exact ⟨first, tail, rfl, beq_iff_eq.1 letter⟩

theorem begins_trim {word : List Char} (listed : SpellsOneOf word Vocabulary.trims) :
    ∃ first tail, word = first :: tail ∧ (first.toLower = 'l' ∨ first.toLower = 'r') := by
  obtain ⟨first, tail, rfl, letter⟩ := listed.begins (p := fun ch => ch == 'l' || ch == 'r') (by decide)
  exact ⟨first, tail, rfl, by simpa using letter⟩

/-- An option has a first character, and that one tells it from a gap. -/
theorem SectionOption.begins {option after : List Char} (h : SectionOption option after) :
    ∃ first tail, option = first :: tail ∧ beginsOption first = true := by
  cases h with
  | join spelled _ =>
    obtain ⟨first, tail, rfl, letter⟩ := begins_join spelled
    exact ⟨first, _, rfl, by simp [beginsOption, letter]⟩
  | comment _ listed =>
    obtain ⟨first, tail, rfl, letter⟩ := begins_comment listed
    exact ⟨first, tail, rfl, by simp [beginsOption, letter]⟩
  | trim _ listed =>
    obtain ⟨first, tail, rfl, letter⟩ := begins_trim listed
    exact ⟨first, tail, rfl, by rcases letter with letter | letter <;> simp [beginsOption, letter]⟩
  | backtick => exact ⟨_, [], rfl, by decide⟩

/-- Blanks in front of options end there. -/
theorem ListsOptions.longest {blanks after : List Char} (h : ListsOptions after)
    (blank : ∀ ch ∈ blanks, ch ∈ blankChars) : Longest isBlank blanks after := by
  have inside : ∀ ch ∈ blanks, isBlank ch = true := fun ch member => isBlank_iff.2 (blank ch member)
  cases h with
  | stop line => exact .of_cons inside (isBlank_feed line)
  | more first _ _ =>
    obtain ⟨letter, tail, rfl, begins⟩ := first.begins
    exact .of_cons inside (isBlank_eq_false (isSpace_of_beginsOption begins))

/-! ## One option -/

namespace Cursor

/-- The rule for joining lines takes the word and what is glued to it. -/
theorem recognizes_joinOption : Recognizes Rule.joinOption
    (Sequence (fun word _ => sameWord (String.ofList word) "join" = true) (Longest (!glueEnds.contains ·))) := by
  rw [← isGlued_eq]
  have join : Recognizes (·.passKeyword "join") _ := recognizes_passKeyword (by decide)
  have glued := join.andThen (recognizes_run .take Rule.isGlued) fun _ declined => declined
  exact glued

/-- The rule for comments takes a whole word and looks it up. -/
theorem recognizes_commentOption : Recognizes (Rule.wordOption · Vocabulary.isCommentWord)
    (fun word after => Longest wordChars.contains word after ∧ SpellsOneOf word Vocabulary.comments) := by
  rw [← isWordChar_eq]
  exact recognizes_word (Word.isIn_table_iff (by decide) (by decide) fun _ => rfl)

theorem recognizes_trimOption : Recognizes (Rule.wordOption · Vocabulary.isTrimWord)
    (fun word after => Longest wordChars.contains word after ∧ SpellsOneOf word Vocabulary.trims) := by
  rw [← isWordChar_eq]
  exact recognizes_word (Word.isIn_table_iff (by decide) (by decide) fun _ => rfl)

/-- The rule for options recognizes their grammar. -/
theorem recognizes_sectionOption : Recognizes Rule.sectionOption SectionOption where
  sound {c before rest beyond} h ends accepted := by
    simp only [Rule.sectionOption] at accepted ⊢
    split_ifs at accepted ⊢ with join comment trim backtick
    · obtain ⟨_, after, rfl, ⟨word, glued, rfl, spelled, whole⟩, last⟩ := recognizes_joinOption.sound h ends accepted
      exact ⟨_, after, rfl, .join spelled whole, last⟩
    · obtain ⟨word, after, rfl, ⟨whole, listed⟩, last⟩ := recognizes_commentOption.sound h ends accepted
      exact ⟨word, after, rfl, .comment whole listed, last⟩
    · obtain ⟨word, after, rfl, ⟨whole, listed⟩, last⟩ := recognizes_trimOption.sound h ends accepted
      exact ⟨word, after, rfl, .trim whole listed, last⟩
    · obtain ⟨after, rfl⟩ := h.rest_of_look ends (eq_of_toLower_eq (beq_iff_eq.1 backtick) rfl) (by decide)
      exact ⟨['\x60'], after, rfl, .backtick, h.pass .take⟩
  complete {c before option after beyond} h ends reads := by
    cases reads with
    | join spelled whole =>
      next word glued =>
      obtain ⟨first, tail, rfl, letter⟩ := begins_join spelled
      have look : c.look = first := h.look_cons
      rw [show Rule.sectionOption c = Rule.joinOption c by simp [Rule.sectionOption, look, letter]]
      exact recognizes_joinOption.complete h ends ⟨_, glued, rfl, spelled, whole⟩
    | comment whole listed =>
      obtain ⟨first, tail, rfl, letter⟩ := begins_comment listed
      have look : c.look = first := h.look_cons
      have word : Rule.sectionOption c = Rule.wordOption c Vocabulary.isCommentWord := by
        simp [Rule.sectionOption, look, letter]
      rw [word]
      exact recognizes_commentOption.complete h ends ⟨whole, listed⟩
    | trim whole listed =>
      obtain ⟨first, tail, rfl, letter⟩ := begins_trim listed
      have look : c.look = first := h.look_cons
      have word : Rule.sectionOption c = Rule.wordOption c Vocabulary.isTrimWord := by
        rcases letter with letter | letter <;> simp [Rule.sectionOption, look, letter]
      rw [word]
      exact recognizes_trimOption.complete h ends ⟨whole, listed⟩
    | backtick =>
      have look : c.look = '\x60' := h.look_cons
      rw [show Rule.sectionOption c = ⟨true, c.pass .take⟩ by simp [Rule.sectionOption, look]]
      exact ⟨rfl, h.pass .take⟩

/-! ## All options -/

/-- A cursor further on in the same text has a larger offset. -/
theorem Between.pos_lt {c d : Cursor} {before front rest after beyond past : List Char}
    (h : c.Between before rest beyond) (later : d.Between (before ++ front) after past) (some : front ≠ []) :
    c.pos < d.pos := by
  have size : 0 < byteSize front := byteSize_pos_iff.2 (List.length_pos_iff.2 some)
  rw [UInt32.lt_iff_toNat_lt, h.pos, later.pos, byteSize_append]
  omega

/-- What the loop accepts is a line of options, turn by turn. -/
theorem listsOptions_of_accepted {c : Cursor} {before rest beyond : List Char} (h : c.Between before rest beyond)
    (ends : ReadsAsEnd beyond) (accepted : (Rule.sectionOptions c).accepted = true) : ListsOptions rest := by
  -- on what is still to be read, as the loop itself
  induction c using later_induction generalizing before rest with
  | turn c ih =>
    rw [Rule.sectionOptions.eq_def] at accepted
    extract_lets at accepted
    split_ifs at accepted with line takes progress
    · simp only [Bool.or_eq_true, beq_iff_eq] at line
      have solid : c.look ≠ '\x00' := by rcases line with line | line <;> rw [line] <;> decide
      obtain ⟨after, rfl⟩ := h.rest_of_look ends rfl solid
      exact .stop line
    · obtain ⟨front, after, rfl, first, atGap⟩ := recognizes_sectionOption.sound h ends takes
      obtain ⟨blanks, after, rfl, run, atNext⟩ := (recognizes_run .take isBlank).sound atGap ends rfl
      exact .more first (fun ch member => isBlank_iff.1 (run.inside ch member)) (ih _ progress atNext accepted)
    · exact absurd accepted takes

/-- A line of options is accepted, option by option. -/
theorem accepted_of_listsOptions {c : Cursor} {before rest beyond : List Char} (h : c.Between before rest beyond)
    (ends : ReadsAsEnd beyond) (lists : ListsOptions rest) : (Rule.sectionOptions c).accepted = true := by
  induction lists generalizing c before with
  | stop line =>
    have look := h.look_cons
    rw [Rule.sectionOptions.eq_def, if_pos]
    simpa [look] using line
  | @more option blanks after first blank others ih =>
    obtain ⟨takes, atGap⟩ := recognizes_sectionOption.complete h ends first
    have atNext := atGap.passRun (others.longest blank) .take
    obtain ⟨letter, tail, rfl, begins⟩ := first.begins
    have look : c.look = letter := h.look_cons
    have inLine : ¬ (c.look == '\n' || c.look == '\r') = true := by
      have outside := isSpace_of_beginsOption begins
      simp only [isSpace, Bool.or_eq_false_iff] at outside
      simp [look, outside.1.2, outside.2]
    have progress : c.pos < ((Rule.sectionOption c).cursor.passBlanks .take).cursor.pos := by
      rw [List.append_assoc] at atNext
      exact h.pos_lt atNext (List.cons_ne_nil _ _)
    rw [Rule.sectionOptions.eq_def, if_neg inLine]
    simp only [if_pos takes, if_pos progress]
    exact ih atNext

/-! ## The whole rule -/

section

variable {c : Cursor} {before rest beyond : List Char} (h : c.Between before rest beyond) (ends : ReadsAsEnd beyond)
include h ends

theorem opensSection_of_accepted (accepted : (Rule.sectionOpen c).accepted = true) : OpensSection rest := by
  -- the rule takes a null character for the end of a line too, but no spaces lead from there to a parenthesis
  obtain ⟨line, -⟩ := Rule.sectionOpen_needs accepted
  obtain ⟨blanks, after, rfl, front, atLine⟩ := (recognizes_run .skip isBlank).sound h ends rfl
  have solid : c.gapEnd ≠ '\x00' := by rcases line with line | line <;> rw [line] <;> decide
  have look : (c.passWhile .skip isBlank).cursor.look = c.gapEnd := rfl
  obtain ⟨tail, rfl⟩ := atLine.rest_of_look ends look solid
  have atParen := atLine.passWhile .skip isSpace
  rw [List.takeWhile_cons_of_pos (isSpace_feed line), List.dropWhile_cons_of_pos (isSpace_feed line)] at atParen
  simp only [Rule.sectionOpen] at accepted
  split at accepted
  · cases accepted
  · split at accepted
    · next opens =>
      obtain ⟨after, behind⟩ := atParen.rest_of_look ends (beq_iff_eq.1 opens) (by decide)
      rw [behind] at atParen
      have marked := (atParen.pass .take).of_place (d := (Cursor.pass _ .take).marked) rfl rfl
      obtain ⟨gap, after, rfl, back, atOption⟩ := (recognizes_run .take isBlank).sound marked ends rfl
      have options := listsOptions_of_accepted atOption ends accepted
      rw [← List.takeWhile_append_dropWhile (p := isSpace) (l := tail), behind]
      refine .intro ?_ line ?_ ?_ options
      · exact fun ch member => isBlank_iff.1 (front.inside ch member)
      · exact fun ch member => isSpace_iff.1 (List.mem_takeWhile_imp member)
      · exact fun ch member => isBlank_iff.1 (back.inside ch member)
    · cases accepted

theorem accepted_of_opensSection (opens : OpensSection rest) : (Rule.sectionOpen c).accepted = true := by
  obtain ⟨front, line, space, back, options⟩ := opens
  next blanks spaces gap after feed =>
  have blank : ∀ ch ∈ blanks, isBlank ch = true := fun ch member => isBlank_iff.2 (front ch member)
  have atLine := h.passRun (.of_cons blank (isBlank_feed line)) .skip
  have inLine : ¬ ((c.passBlanks .skip).cursor.atEnd || !isLineEnd (c.passBlanks .skip).cursor.look) = true := by
    have look : (c.passBlanks .skip).cursor.look = feed := atLine.look_cons
    have more : (c.passBlanks .skip).cursor.atEnd = false := atLine.atEnd_cons
    rcases line with rfl | rfl <;> simp [look, more, isLineEnd]
  have inside : ∀ ch ∈ feed :: spaces, isSpace ch = true := by
    rintro ch (_ | ⟨_, member⟩)
    · exact isSpace_feed line
    · exact isSpace_iff.2 (space ch member)
  rw [← List.cons_append] at atLine
  have atParen := atLine.passRun (.of_cons inside rfl) .skip
  have paren : ((c.passBlanks .skip).cursor.passSpaces .skip).look = '(' := atParen.look_cons
  have marked := (atParen.pass .take).of_place (d := (Cursor.pass _ .take).marked) rfl rfl
  have atOption := marked.passRun (options.longest back) .take
  simp only [Rule.sectionOpen, if_neg inLine, paren, beq_self_eq_true, if_true]
  exact accepted_of_listsOptions atOption ends options

end

/-- A section is opened exactly where the text in front of the cursor begins with what opens one: blanks,
a line break, spaces, a parenthesis and any number of options up to the next line break. The end of the
script and a null character are no line breaks. The text may be longer than offsets can tell, if a zero
byte stands where it is cut. -/
theorem sectionOpen_accepts_its_grammar {text : String}
    (closed : text.utf8ByteSize ≤ 0xFFFFFFFF ∨ (Script.ofText text).byteAt 0xFFFFFFFF = 0) {c : Cursor}
    (script : c.script = Script.ofText text) (placed : c.script.isBoundary c.pos = true) :
    ∃ before rest beyond, text.toList = before ++ (rest ++ beyond) ∧ c.Between before rest beyond ∧
      ((Rule.sectionOpen c).accepted = true ↔ OpensSection rest) := by
  obtain ⟨before, rest, beyond, split, h, ends⟩ := exists_between_closed closed script placed
  exact ⟨before, rest, beyond, split, h, opensSection_of_accepted h ends, accepted_of_opensSection h ends⟩

/-- Options that touch each other behind an accented letter: a comment option in front of a backtick, and
`join` with all that is glued to it. -/
theorem sectionOpen_accepts_its_grammar_adjacent : ∃ before rest beyond,
    "é \r\n\t( C\x60JOINltrim\x60 LTrim0\ntext".toList = before ++ (rest ++ beyond) ∧ 2 = byteSize before ∧
    OpensSection rest := by
  have boundary : (Script.ofText "é \r\n\t( C\x60JOINltrim\x60 LTrim0\ntext").isBoundary 2 = true := by
    decide +kernel
  have accepted : (Rule.sectionOpen
      ⟨Script.ofText "é \r\n\t( C\x60JOINltrim\x60 LTrim0\ntext", 2, 0, some 2, true⟩).accepted = true := by
    decide +kernel
  obtain ⟨before, rest, beyond, split, h, reads⟩ := sectionOpen_accepts_its_grammar (.inl (by decide))
    (c := ⟨Script.ofText "é \r\n\t( C\x60JOINltrim\x60 LTrim0\ntext", 2, 0, some 2, true⟩) rfl boundary
  exact ⟨before, rest, beyond, split, h.pos, reads.1 accepted⟩

end Cursor

end HotkeyLex
