import HotkeyLex.Proofs.Grammar

/-!
# What a word that was read tells

A word keeps at most so many characters of the run that it is read from, and counts the rest. Nothing
that is asked of it depends on what it drops: its length and whether it is cut are those of the run, and
its folded form, where it has one, is the whole run in lower case (`Word.Tells`).

The rules look such words up in four tables, with three capacities, a first look at the length of the
word in one case and at its first letter in another. None of this shows: for a run of any length a
look-up succeeds exactly if the table holds the run in lower case (`readWord_tells_whole_run`).
-/

namespace HotkeyLex

/-! ## The word of a run -/

/-- What a word answers, in terms of the whole run that it was read from. -/
structure Word.Tells (w : Word) (capacity : Nat) (run : List Char) : Prop where
  length : w.length = run.length
  truncated : w.isTruncated = true ↔ capacity < run.length
  folded : w.folded? = if run.length ≤ capacity then some (lowered run) else none
  spells : ∀ keyword, w.spells keyword = true ↔
    run.length ≤ capacity ∧ sameWord (String.ofList run) keyword = true

/-- A word tells what the run was that it was read from. -/
theorem Word.tells_ofRun (capacity : Nat) (run : List Char) : (ofRun capacity run).Tells capacity run where
  length := rfl
  truncated := decide_eq_true_iff
  folded := by
    by_cases short : run.length ≤ capacity
    · have whole : ¬ capacity < run.length := by omega
      simp [folded?, isTruncated, ofRun, short, whole, List.take_of_length_le short]
    · have cut : capacity < run.length := by omega
      simp [folded?, isTruncated, ofRun, short, cut]
  spells keyword := by rw [Word.spells, isIn_ofRun, sameWord_lowered]

/-! ## Look-ups at a cursor -/

namespace Cursor.Between

variable {c : Cursor} {before run after beyond : List Char} (h : c.Between before (run ++ after) beyond)
  (longest : Longest isWordChar run after)
include h longest

/-- The word is what fits of the run. -/
theorem word_eq_ofRun (capacity : Nat) : (c.readWord capacity).word = .ofRun capacity run := by
  rw [h.readWord_word, longest.takeWhile_eq]

theorem readWord_eq_passMany (capacity : Nat) : (c.readWord capacity).cursor = c.passMany .take run.length := by
  rw [readWord_cursor, passWord, h.passWhile_cursor, longest.takeWhile_eq]

theorem readWord_run (capacity : Nat) : (c.readWord capacity).cursor.Between (before ++ run) after beyond := by
  rw [readWord_cursor]
  exact h.passRun longest .take

/-- A look-up goes by the whole run, if no word of the table is longer than what is kept. -/
theorem isIn_iff_mem {capacity : Nat} {table : List String} {vocabulary : String → Bool}
    (short : ∀ keyword ∈ table, keyword.length ≤ capacity) (lower : IsLower table)
    (asks : ∀ word, vocabulary word = table.contains word) :
    (c.readWord capacity).word.isIn vocabulary = true ↔ lowered run ∈ table := by
  rw [h.word_eq_ofRun longest, Word.isIn_table_iff short lower asks, spellsOneOf_iff lower]

/-- The first letter of an operator is looked at before the word is read, and never decides by itself. -/
theorem isIn_operators_iff :
    (beginsVerb c.look && (c.readWord Vocabulary.operatorCapacity).word.isIn Vocabulary.isOperatorWord) = true ↔
      lowered run ∈ Vocabulary.operators := by
  have lower : IsLower Vocabulary.operators := by decide
  have found : (c.readWord Vocabulary.operatorCapacity).word.isIn Vocabulary.isOperatorWord = true ↔
      lowered run ∈ Vocabulary.operators :=
    h.isIn_iff_mem longest (by decide) lower fun _ => rfl
  rw [Bool.and_eq_true, found, and_iff_right_iff_imp]
  intro member
  have spells := (spellsOneOf_iff lower run).2 member
  obtain ⟨first, tail, rfl, letter⟩ := spells.begins (p := ['a', 'n', 'i', 'o', 'c'].contains) (by decide)
  rw [h.look_cons]
  exact letter

end Cursor.Between

/-- A word that is read at a cursor, whatever it has room for, tells all about the run of word characters
there, and the look-ups of the rules answer as if the whole run were kept. The text may be longer than
offsets can tell, if a zero byte stands where it is cut. -/
theorem Cursor.readWord_tells_whole_run {text : String}
    (closed : text.utf8ByteSize ≤ 0xFFFFFFFF ∨ (Script.ofText text).byteAt 0xFFFFFFFF = 0) {c : Cursor}
    (script : c.script = Script.ofText text) (placed : c.script.isBoundary c.pos = true) :
    ∃ before run after beyond, text.toList = before ++ (run ++ after ++ beyond) ∧
      c.Between before (run ++ after) beyond ∧ Longest isWordChar run (after ++ beyond) ∧
      (∀ capacity, (c.readWord capacity).word.Tells capacity run ∧
        (c.readWord capacity).cursor = c.passMany .take run.length ∧
        (c.readWord capacity).cursor.Between (before ++ run) after beyond) ∧
      (∀ word, Vocabulary.isReservedWord word = true ↔ word ∈ Vocabulary.reserved) ∧
      ((c.readWord Vocabulary.nameCapacity).word.isIn Vocabulary.isReservedWord = true ↔
        lowered run ∈ Vocabulary.reserved) ∧
      ((beginsVerb c.look && (c.readWord Vocabulary.operatorCapacity).word.isIn Vocabulary.isOperatorWord) = true ↔
        lowered run ∈ Vocabulary.operators) ∧
      ((Rule.wordOption c Vocabulary.isCommentWord).accepted = true ↔ lowered run ∈ Vocabulary.comments) ∧
      ((Rule.wordOption c Vocabulary.isTrimWord).accepted = true ↔ lowered run ∈ Vocabulary.trims) := by
  obtain ⟨before, rest, beyond, split, h, ends⟩ := exists_between_closed closed script placed
  have cut : rest = rest.takeWhile isWordChar ++ rest.dropWhile isWordChar := List.takeWhile_append_dropWhile.symm
  have whole := longest_takeWhile (p := isWordChar) rfl rest ends
  have longest := Longest.of_takeWhile isWordChar rest
  generalize rest.takeWhile isWordChar = run at cut whole longest
  generalize rest.dropWhile isWordChar = after at cut whole longest
  subst cut
  refine ⟨before, run, after, beyond, split, h, whole, fun capacity => ⟨?_, ?_, ?_⟩, fun word => ?_, ?_, ?_, ?_, ?_⟩
  · rw [h.word_eq_ofRun longest]
    exact Word.tells_ofRun capacity run
  · exact h.readWord_eq_passMany longest capacity
  · exact h.readWord_run longest capacity
  · rw [Vocabulary.isReservedWord_eq, List.contains_iff_mem]
  · exact h.isIn_iff_mem longest (by decide) (by decide) Vocabulary.isReservedWord_eq
  · exact h.isIn_operators_iff longest
  · exact h.isIn_iff_mem longest (by decide) (by decide) fun _ => rfl
  · exact h.isIn_iff_mem longest (by decide) (by decide) fun _ => rfl

/-- Behind an accented letter, a word with one character more than the longest operator, which it begins
with. Kept in part it has no folded form; with one more place it has, and it is no operator. -/
theorem Cursor.readWord_tells_whole_run_long : ∃ before run after beyond,
    "é Contains9(".toList = before ++ (run ++ after ++ beyond) ∧ 3 = byteSize before ∧ run.length = 9 ∧
    ((fresh (Script.ofText "é Contains9(") 3).readWord 8).word.folded? = none ∧
    ((fresh (Script.ofText "é Contains9(") 3).readWord 9).word.folded? = some "contains9" ∧
    lowered run ∉ Vocabulary.operators := by
  have boundary : (Script.ofText "é Contains9(").isBoundary 3 = true := by decide +kernel
  obtain ⟨before, run, after, beyond, split, h, -, tells, -, -, operator, -⟩ := readWord_tells_whole_run
    (.inl (by decide)) (c := fresh (Script.ofText "é Contains9(") 3) rfl boundary
  have length : run.length = 9 := by
    rw [← (tells 8).1.length]
    decide +kernel
  refine ⟨before, run, after, beyond, split, h.pos, length, ?_, ?_, ?_⟩
  · rw [(tells 8).1.folded, if_neg (by omega)]
  · decide +kernel
  · rw [← operator]
    decide +kernel

end HotkeyLex
