import HotkeyLex.Proofs.Parameters

/-!
# Words in a vocabulary

A word that is read keeps a part of itself, and still it is found in a vocabulary exactly if the whole
run of word characters spells one of its words, however long the run is: no word of a table is longer
than the part that is kept for it (`isIn_ofRun_iff`). What the look-ups answer on a folded word is
membership in their tables, also where they go by length first (`isReservedWord_eq`).

A keyword that is read letter by letter agrees with the text up to some character. It is passed exactly
up to there, and accepted if that is its whole length (`Between.passLetters_eq`). The end of a script
needs no test of its own, since no keyword has a null character.
-/

namespace HotkeyLex

/-! ## Lower case -/

theorem toLower_toLower (ch : Char) : ch.toLower.toLower = ch.toLower := by
  by_cases wide : 0x80 ≤ ch.toNat
  · rw [toLower_wide wide, toLower_wide wide]
  · have twice := toLower_toLower_ascii ⟨ch.toNat, by omega⟩
    rwa [Char.ofNat_toNat] at twice

/-- What is no letter in lower case comes from itself alone. -/
theorem eq_of_toLower_eq {ch lower : Char} (same : ch.toLower = lower) (other : lower.isLower = false) :
    ch = lower := by
  have ascii : ∀ n : Fin 128, (Char.ofNat n).toLower = Char.ofNat n ∨ (Char.ofNat n).toLower.isLower = true := by
    decide +kernel
  have kept : ch.toLower = ch := by
    by_cases wide : 0x80 ≤ ch.toNat
    · exact toLower_wide wide
    · have near := ascii ⟨ch.toNat, by omega⟩
      rw [Char.ofNat_toNat, same, other] at near
      simpa [same] using near
  rw [← same, kept]

/-- A run of characters as a word in lower case. -/
def lowered (run : List Char) : String := String.ofList (run.map Char.toLower)

/-- The run spells a word of the table in some mixture of cases. -/
def SpellsOneOf (run : List Char) (table : List String) : Prop :=
  ∃ keyword ∈ table, sameWord (String.ofList run) keyword = true

/-- Words are the same if their letters have the same lower case. -/
theorem sameWord_ofList (run : List Char) (keyword : String) :
    sameWord (String.ofList run) keyword = true ↔ run.map Char.toLower = keyword.toList.map Char.toLower := by
  rw [sameWord, beq_iff_eq, String.toList_ofList]

/-- Folding a run does not change which words it spells. -/
theorem sameWord_lowered (run : List Char) (keyword : String) :
    sameWord (lowered run) keyword = sameWord (String.ofList run) keyword := by
  have twice : (run.map Char.toLower).map Char.toLower = run.map Char.toLower := by
    rw [List.map_map]
    exact List.map_congr_left fun ch _ => toLower_toLower ch
  rw [lowered, Bool.eq_iff_iff, sameWord_ofList, sameWord_ofList, twice]

/-- A run has as many characters as the word it spells. -/
theorem length_of_sameWord {run : List Char} {keyword : String} (same : sameWord (String.ofList run) keyword = true) :
    run.length = keyword.length := by
  have lengths := congrArg List.length ((sameWord_ofList run keyword).1 same)
  rwa [List.length_map, List.length_map, String.length_toList] at lengths

/-- All words of the table are in lower case. -/
def IsLower (table : List String) : Prop := ∀ keyword ∈ table, keyword.toList.map Char.toLower = keyword.toList

instance (table : List String) : Decidable (IsLower table) :=
  inferInstanceAs (Decidable (∀ keyword ∈ table, _))

/-- In a table of lower case, a word is looked up by its lower case. -/
theorem spellsOneOf_iff {table : List String} (lower : IsLower table) (run : List Char) :
    SpellsOneOf run table ↔ lowered run ∈ table := by
  have spelled : ∀ keyword ∈ table, sameWord (String.ofList run) keyword = true ↔ lowered run = keyword := by
    intro keyword member
    rw [sameWord_ofList, lower keyword member, lowered, ← String.toList_inj, String.toList_ofList]
  constructor
  · rintro ⟨keyword, member, same⟩
    rwa [(spelled keyword member).1 same]
  · intro member
    exact ⟨lowered run, member, (spelled _ member).2 rfl⟩

/-- What holds of the first letter of every word in a table holds of the first letter of the run. -/
theorem SpellsOneOf.begins {run : List Char} {table : List String} (spells : SpellsOneOf run table) {p : Char → Bool}
    (begin : ∀ keyword ∈ table, (keyword.toList.map Char.toLower).head?.any p = true) :
    ∃ first tail, run = first :: tail ∧ p first.toLower = true := by
  obtain ⟨keyword, member, same⟩ := spells
  have holds := begin keyword member
  rw [← (sameWord_ofList run keyword).1 same] at holds
  cases run with
  | nil => cases holds
  | cons first tail => exact ⟨first, tail, rfl, holds⟩

/-! ## Look-ups -/

namespace Vocabulary

/-- Reserved words are looked up among those of the same size, which loses none. -/
theorem mem_reservedOfSize (word : String) : word ∈ reservedOfSize word.utf8ByteSize ↔ word ∈ reserved := by
  constructor
  · have bucket : ∀ n, ∀ word ∈ reservedOfSize n, word ∈ reserved := by
      intro n
      fun_cases reservedOfSize n
      all_goals decide
    exact bucket _ word
  · have all : ∀ word ∈ reserved, word ∈ reservedOfSize word.utf8ByteSize := by decide
    exact all word

/-- Going by length first does not change the answer. -/
theorem isReservedWord_eq (word : String) : isReservedWord word = reserved.contains word := by
  rw [isReservedWord, Bool.eq_iff_iff, List.contains_iff_mem, List.contains_iff_mem, mem_reservedOfSize]

end Vocabulary

/-! ## The word that is read -/

/-- The word that a run leaves, whatever its length. -/
def Word.ofRun (capacity : Nat) (run : List Char) : Word := ⟨capacity, lowered (run.take capacity), run.length⟩

namespace Word

theorem ofRun_nil (capacity : Nat) : ofRun capacity [] = empty capacity := by
  simp [ofRun, empty, lowered]

/-- A pushed character extends the run that the word was read from. -/
theorem push_ofRun (capacity : Nat) (run : List Char) (ch : Char) :
    (ofRun capacity run).push ch = ofRun capacity (run ++ [ch]) := by
  by_cases room : run.length < capacity
  · simp [push, ofRun, room, lowered, List.take_of_length_le (Nat.le_of_lt room), List.take_of_length_le,
      Nat.succ_le_of_lt room]
  · simp [push, ofRun, room, List.take_append_of_le_length (Nat.le_of_not_lt room)]

/-- A word is in a vocabulary if it was kept whole and its lower case is. -/
theorem isIn_ofRun (capacity : Nat) (run : List Char) (vocabulary : String → Bool) :
    (ofRun capacity run).isIn vocabulary = true ↔ run.length ≤ capacity ∧ vocabulary (lowered run) = true := by
  by_cases long : capacity < run.length
  · simp [isIn, folded?, isTruncated, ofRun, long]
  · have short := Nat.le_of_not_lt long
    simp [isIn, folded?, isTruncated, ofRun, long, short, List.take_of_length_le short]

/-- A look-up finds the whole run, if no word that it knows is longer than what is kept. -/
theorem isIn_ofRun_iff {capacity : Nat} {table : List String} {vocabulary : String → Bool}
    (short : ∀ keyword ∈ table, keyword.length ≤ capacity)
    (asks : ∀ run, vocabulary (lowered run) = true ↔ SpellsOneOf run table) (run : List Char) :
    (ofRun capacity run).isIn vocabulary = true ↔ SpellsOneOf run table := by
  rw [isIn_ofRun, asks, and_iff_right_iff_imp]
  rintro ⟨keyword, member, same⟩
  rw [length_of_sameWord same]
  exact short keyword member

/-- With room for every word of a table, a word is found there if its run spells one of them. -/
theorem isIn_table_iff {capacity : Nat} {table : List String} {vocabulary : String → Bool}
    (short : ∀ keyword ∈ table, keyword.length ≤ capacity) (lower : IsLower table)
    (asks : ∀ word, vocabulary word = table.contains word) (run : List Char) :
    (ofRun capacity run).isIn vocabulary = true ↔ SpellsOneOf run table := by
  refine isIn_ofRun_iff short (fun run => ?_) run
  rw [asks, List.contains_iff_mem, spellsOneOf_iff lower]

/-- A word spells a keyword that it has room for if its run does. -/
theorem spells_ofRun_iff {capacity : Nat} {keyword : String} (short : keyword.length ≤ capacity) (run : List Char) :
    (ofRun capacity run).spells keyword = true ↔ SpellsOneOf run [keyword] := by
  refine isIn_ofRun_iff (by simpa using short) (fun run => ?_) run
  simp only [SpellsOneOf, List.mem_singleton, exists_eq_left, sameWord_lowered]

end Word

/-! ## Keywords letter by letter -/

/-- How many leading letters agree with a text in some mixture of cases. -/
def agreement : List Char → List Char → Nat
  | letter :: letters, ch :: text => if sameLetter ch letter then agreement letters text + 1 else 0
  | _, _ => 0

theorem sameLetter_null {letter : Char} (solid : letter ≠ '\x00') : sameLetter '\x00' letter = false := by
  have lower : letter.toLower ≠ '\x00' := fun null => solid (eq_of_toLower_eq null rfl)
  exact beq_eq_false_iff_ne.2 lower.symm

/-- All letters agree exactly if the text begins with them. -/
theorem agreement_eq_length_iff (letters text : List Char) : agreement letters text = letters.length ↔
    ∃ word tail, text = word ++ tail ∧ word.map Char.toLower = letters.map Char.toLower := by
  induction letters generalizing text with
  | nil => simp [agreement]
  | cons letter letters ih =>
    constructor
    · intro agrees
      cases text with
      | nil => simp [agreement] at agrees
      | cons ch text =>
        cases same : sameLetter ch letter with
        | true =>
          simp only [agreement, same, if_true, List.length_cons, Nat.add_right_cancel_iff, ih] at agrees
          obtain ⟨word, tail, rfl, spelled⟩ := agrees
          exact ⟨ch :: word, tail, rfl, by rw [List.map_cons, List.map_cons, spelled, beq_iff_eq.1 same]⟩
        | false => simp [agreement, same] at agrees
    · rintro ⟨word, tail, rfl, spelled⟩
      cases word with
      | nil => cases spelled
      | cons ch word =>
        obtain ⟨lower, spelled⟩ := List.cons.inj spelled
        have same : sameLetter ch letter = true := beq_iff_eq.2 lower
        have others := (ih (word ++ tail)).2 ⟨word, tail, rfl, spelled⟩
        rw [List.cons_append, agreement, if_pos same, others, List.length_cons]

namespace Cursor.Between

variable {c : Cursor} {before rest beyond : List Char}

/-- The rest of a run is added to what was read of it. -/
theorem readOnto_eq (h : c.Between before rest beyond) (capacity : Nat) (run : List Char) :
    (readOnto (.ofRun capacity run) c).word = .ofRun capacity (run ++ rest.takeWhile isWordChar) := by
  induction rest generalizing c before run with
  | nil =>
    rw [readOnto.eq_def, if_neg (h.not_pos_lt_pass .take), ite_self, List.takeWhile_nil, List.append_nil]
  | cons ch rest ih =>
    cases inside : isWordChar ch with
    | true =>
      rw [readOnto.eq_def, h.look_cons, if_pos inside, if_pos (h.pos_lt_pass .take), Word.push_ofRun,
        ih (h.pass .take), List.takeWhile_cons_of_pos inside, List.append_assoc, List.singleton_append]
    | false =>
      rw [readOnto.eq_def, h.look_cons, if_neg (by simp [inside]), List.takeWhile_cons_of_neg (by simp [inside]),
        List.append_nil]

theorem readWord_word (h : c.Between before rest beyond) (capacity : Nat) :
    (c.readWord capacity).word = .ofRun capacity (rest.takeWhile isWordChar) := by
  rw [Cursor.readWord, ← Word.ofRun_nil, h.readOnto_eq, List.nil_append]

theorem readWord (h : c.Between before rest beyond) (capacity : Nat) : (c.readWord capacity).cursor.Between
    (before ++ rest.takeWhile isWordChar) (rest.dropWhile isWordChar) beyond := by
  rw [readWord_cursor]
  exact h.passWhile .take isWordChar

/-- A keyword is taken as far as it agrees, and accepted if it agrees to its end. -/
theorem passLetters_eq (h : c.Between before rest beyond) (ends : ReadsAsEnd beyond) {letters : List Char}
    (solid : '\x00' ∉ letters) : c.passLetters letters =
      ⟨decide (agreement letters rest = letters.length), c.passMany .take (agreement letters rest)⟩ := by
  induction letters generalizing c before rest with
  | nil => cases rest <;> rfl
  | cons letter letters ih =>
    rw [List.mem_cons, not_or] at solid
    rw [Cursor.passLetters]
    cases rest with
    | nil =>
      have null : c.look = '\x00' := h.look_eq ends
      rw [null, sameLetter_null (Ne.symm solid.1)]
      simp [agreement, Cursor.passMany]
    | cons ch rest =>
      rw [h.look_cons]
      cases same : sameLetter ch letter with
      | true => simp [agreement, same, ih (h.pass .take) solid.2, Cursor.passMany]
      | false => simp [agreement, same, Cursor.passMany]

end Cursor.Between

end HotkeyLex
