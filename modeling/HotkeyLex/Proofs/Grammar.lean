import HotkeyLex.Proofs.Words

/-!
# Grammars

A grammar says of a piece of text and of the text behind it whether the piece is read there as a whole.
That the text behind is in view is what makes a piece the longest of its kind. `Recognizes` ties such a
grammar to a function on cursors: the function accepts exactly if some piece in front of it is in the
grammar, and whichever piece that is, it then stands right behind it. So a grammar that is put together
from others is recognized by running their functions one after the other (`Recognizes.andThen`).

The script may be longer than its size tells, as long as what is left out reads as the end
(`exists_between_closed`).
-/

namespace HotkeyLex

/-! ## Runs -/

namespace Longest

variable {p : Char → Bool} {run after : List Char}

/-- The longest run is what the library takes. -/
theorem takeWhile_eq (h : Longest p run after) : (run ++ after).takeWhile p = run := by
  rw [List.takeWhile_append_of_pos h.inside]
  cases after with
  | nil => rw [List.takeWhile_nil, List.append_nil]
  | cons ch after => rw [List.takeWhile_cons_of_neg (by simp [h.stops ch rfl]), List.append_nil]

theorem dropWhile_eq (h : Longest p run after) : (run ++ after).dropWhile p = after := by
  have whole := List.takeWhile_append_dropWhile (p := p) (l := run ++ after)
  rwa [h.takeWhile_eq, List.append_cancel_left_eq] at whole

theorem of_takeWhile (p : Char → Bool) (rest : List Char) : Longest p (rest.takeWhile p) (rest.dropWhile p) where
  inside ch member := List.mem_takeWhile_imp member
  stops ch first := by
    have outside := List.head?_dropWhile_not p rest
    rw [Option.mem_def.1 first] at outside
    simpa using outside

/-- A run ends in front of a character outside the class. -/
theorem of_cons (inside : ∀ ch ∈ run, p ch = true) {ch : Char} (outside : p ch = false) :
    Longest p run (ch :: after) where
  inside := inside
  stops := by
    rintro _ ⟨⟩
    exact outside

end Longest

/-! ## Classes by their characters -/

/-- The characters of a gap inside a line. -/
def blankChars : List Char := [' ', '\t']

/-- The characters of a gap that may go over several lines. -/
def spaceChars : List Char := [' ', '\t', '\r', '\n']

/-- The characters of a word. -/
def wordChars : List Char :=
  ['a', 'b', 'c', 'd', 'e', 'f', 'g', 'h', 'i', 'j', 'k', 'l', 'm',
   'n', 'o', 'p', 'q', 'r', 's', 't', 'u', 'v', 'w', 'x', 'y', 'z',
   'A', 'B', 'C', 'D', 'E', 'F', 'G', 'H', 'I', 'J', 'K', 'L', 'M',
   'N', 'O', 'P', 'Q', 'R', 'S', 'T', 'U', 'V', 'W', 'X', 'Y', 'Z',
   '0', '1', '2', '3', '4', '5', '6', '7', '8', '9', '_']

/-- A class within ASCII holds the listed characters if that shows on the 128 code points there. -/
theorem eq_contains {p : Char → Bool} {chars : List Char} (wide : ∀ ch : Char, 0x80 ≤ ch.toNat → p ch = false)
    (narrow : (chars.map Char.toNat).all (· < 0x80) = true)
    (ascii : ∀ n : Fin 128, p (Char.ofNat n) = (chars.map Char.toNat).contains n.val) : p = chars.contains := by
  funext ch
  have listed : chars.contains ch = (chars.map Char.toNat).contains ch.toNat := by
    rw [Bool.eq_iff_iff, List.contains_iff_mem, List.contains_iff_mem,
      List.mem_map_of_injective fun _ _ => Char.toNat_inj.1]
  rw [listed]
  by_cases far : 0x80 ≤ ch.toNat
  · rw [wide ch far, eq_comm, Bool.eq_false_iff]
    intro member
    have near := List.all_eq_true.1 narrow ch.toNat (List.contains_iff_mem.1 member)
    rw [decide_eq_true_eq] at near
    omega
  · have same := ascii ⟨ch.toNat, by omega⟩
    rwa [Char.ofNat_toNat] at same

/-- Blanks are the space and the tab. -/
theorem isBlank_eq : isBlank = blankChars.contains := by
  apply eq_contains
  · intro ch wide
    simp [isBlank, ne_of_wide wide]
  · decide
  · decide +kernel

/-- Spaces are the blanks and the two characters of a line break. -/
theorem isSpace_eq : isSpace = spaceChars.contains := by
  apply eq_contains
  · intro ch wide
    simp [isSpace, isBlank, ne_of_wide wide]
  · decide
  · decide +kernel

/-- Word characters are the letters and digits of ASCII and the underscore. -/
theorem isWordChar_eq : isWordChar = wordChars.contains := by
  apply eq_contains
  · intro ch wide
    exact isWordChar_wide wide
  · decide +kernel
  · decide +kernel

theorem isBlank_iff {ch : Char} : isBlank ch = true ↔ ch ∈ blankChars := by
  rw [isBlank_eq, List.contains_iff_mem]

theorem isSpace_iff {ch : Char} : isSpace ch = true ↔ ch ∈ spaceChars := by
  rw [isSpace_eq, List.contains_iff_mem]

/-- A class without any of the four spaces. -/
theorem isSpace_eq_false {p : Char → Bool} (apart : spaceChars.any p = false) {ch : Char}
    (inside : p ch = true) : isSpace ch = false := by
  rw [Bool.eq_false_iff]
  intro space
  have found := List.any_eq_true.2 ⟨ch, isSpace_iff.1 space, inside⟩
  rw [apart] at found
  cases found

/-- Every blank is a space. -/
theorem isBlank_eq_false {ch : Char} (outside : isSpace ch = false) : isBlank ch = false := by
  simp only [isSpace, Bool.or_eq_false_iff] at outside
  exact outside.1.1

/-- A run with something in it. -/
def SomeRun (p : Char → Bool) (run after : List Char) : Prop := run ≠ [] ∧ Longest p run after

theorem SomeRun.begins {p : Char → Bool} {run after : List Char} (h : SomeRun p run after) :
    ∃ first tail, run = first :: tail ∧ p first = true := by
  obtain ⟨some, longest⟩ := h
  obtain ⟨first, tail, rfl⟩ := List.exists_cons_of_ne_nil some
  exact ⟨first, tail, rfl, longest.inside first List.mem_cons_self⟩

/-- One piece right behind another. -/
def Sequence (G H : List Char → List Char → Prop) (front after : List Char) : Prop :=
  ∃ first second, front = first ++ second ∧ G first (second ++ after) ∧ H second after

/-! ## Functions and their grammars -/

namespace Cursor

/-- The function reads what the grammar describes: `G front after` says that `front` is accepted where
`after` follows. -/
structure Recognizes (f : Cursor → Outcome) (G : List Char → List Char → Prop) : Prop where
  sound {c : Cursor} {before rest beyond : List Char} : c.Between before rest beyond → ReadsAsEnd beyond →
    (f c).accepted = true →
    ∃ front after, rest = front ++ after ∧ G front after ∧ (f c).cursor.Between (before ++ front) after beyond
  complete {c : Cursor} {before front after beyond : List Char} : c.Between before (front ++ after) beyond →
    ReadsAsEnd beyond → G front after →
    (f c).accepted = true ∧ (f c).cursor.Between (before ++ front) after beyond

namespace Between

variable {c : Cursor} {before rest beyond : List Char}

/-- A run over the longest beginning puts the cursor behind it. -/
theorem passRun {run after : List Char} {p : Char → Bool} (h : c.Between before (run ++ after) beyond)
    (longest : Longest p run after) (step : Step) :
    (c.passWhile step p).cursor.Between (before ++ run) after beyond := by
  have passed := h.passWhile step p
  rwa [longest.takeWhile_eq, longest.dropWhile_eq] at passed

end Between

/-- A function that goes on where another one has stopped. Where the first declines, all that matters is
that the whole declines too. -/
theorem Recognizes.andThen {f g other : Cursor → Outcome} {G H : List Char → List Char → Prop}
    (first : Recognizes f G) (second : Recognizes g H)
    (declines : ∀ c, (f c).accepted ≠ true → (other c).accepted ≠ true) :
    Recognizes (fun c => if (f c).accepted then g (f c).cursor else other c) (Sequence G H) where
  sound h ends accepted := by
    split at accepted
    · next taken =>
      obtain ⟨front, _, rfl, reads, next⟩ := first.sound h ends taken
      obtain ⟨back, after, rfl, readsOn, last⟩ := second.sound next ends accepted
      rw [if_pos taken]
      rw [List.append_assoc] at last
      exact ⟨front ++ back, after, (List.append_assoc front back after).symm, ⟨front, back, rfl, reads, readsOn⟩, last⟩
    · next declined => exact absurd accepted (declines _ declined)
  complete h ends := by
    rintro ⟨front, back, rfl, reads, readsOn⟩
    rw [List.append_assoc] at h
    obtain ⟨taken, next⟩ := first.complete h ends reads
    obtain ⟨accepted, last⟩ := second.complete next ends readsOn
    rw [if_pos taken]
    rw [List.append_assoc] at last
    exact ⟨accepted, last⟩

/-- A run recognizes the longest beginning in its class. -/
theorem recognizes_run (step : Step) (p : Char → Bool) :
    Recognizes (fun c => ⟨true, (c.passWhile step p).cursor⟩) (Longest p) where
  sound {c before rest beyond} h _ _ := by
    refine ⟨rest.takeWhile p, rest.dropWhile p, ?_, .of_takeWhile p rest, h.passWhile step p⟩
    rw [List.takeWhile_append_dropWhile]
  complete h _ longest := ⟨rfl, h.passRun longest step⟩

/-- A run that is not empty recognizes the same with a character at least. -/
theorem recognizes_someRun (step : Step) (p : Char → Bool) :
    Recognizes (fun c => ⟨0 < (c.passWhile step p).count, (c.passWhile step p).cursor⟩) (SomeRun p) where
  sound {c before rest beyond} h _ accepted := by
    rw [decide_eq_true_eq, UInt32.lt_iff_toNat_lt, h.toNat_count] at accepted
    refine ⟨rest.takeWhile p, rest.dropWhile p, ?_, ⟨?_, .of_takeWhile p rest⟩, h.passWhile step p⟩
    · rw [List.takeWhile_append_dropWhile]
    · exact List.length_pos_iff.1 accepted
  complete h _ run := by
    obtain ⟨some, longest⟩ := run
    refine ⟨?_, h.passRun longest step⟩
    rw [decide_eq_true_eq, UInt32.lt_iff_toNat_lt, h.toNat_count, longest.takeWhile_eq]
    exact List.length_pos_iff.2 some

theorem recognizes_passBlanks (step : Step) : Recognizes (·.passBlanks step) (SomeRun isBlank) :=
  recognizes_someRun step isBlank

/-- A word is looked up as a whole. -/
theorem recognizes_word {capacity : Nat} {table : List String} {vocabulary : String → Bool}
    (asks : ∀ run, (Word.ofRun capacity run).isIn vocabulary = true ↔ SpellsOneOf run table) :
    Recognizes (fun c => ⟨(c.readWord capacity).word.isIn vocabulary, (c.readWord capacity).cursor⟩)
      (fun word after => Longest isWordChar word after ∧ SpellsOneOf word table) where
  sound {c before rest beyond} h _ accepted := by
    rw [h.readWord_word, asks] at accepted
    refine ⟨rest.takeWhile isWordChar, rest.dropWhile isWordChar, ?_, ⟨.of_takeWhile _ rest, accepted⟩,
      h.readWord capacity⟩
    rw [List.takeWhile_append_dropWhile]
  complete h _ word := by
    obtain ⟨longest, spells⟩ := word
    have read := h.readWord capacity
    rw [longest.takeWhile_eq, longest.dropWhile_eq] at read
    refine ⟨?_, read⟩
    rw [h.readWord_word, longest.takeWhile_eq, asks]
    exact spells

/-- A keyword is passed wherever the text begins with it, whatever follows. -/
theorem recognizes_passKeyword {keyword : String} (solid : '\x00' ∉ keyword.toList) :
    Recognizes (·.passKeyword keyword) (fun front _ => sameWord (String.ofList front) keyword = true) where
  sound {c before rest beyond} h ends accepted := by
    rw [Cursor.passKeyword, h.passLetters_eq ends solid] at accepted ⊢
    have agrees := of_decide_eq_true accepted
    obtain ⟨word, tail, rfl, spelled⟩ := (agreement_eq_length_iff keyword.toList rest).1 agrees
    have spells := (sameWord_ofList word keyword).2 spelled
    rw [agrees, String.length_toList, ← length_of_sameWord spells]
    exact ⟨word, tail, rfl, spells, h.passMany word .take⟩
  complete {c before front after beyond} h ends spells := by
    have spelled := (sameWord_ofList front keyword).1 spells
    have agrees := (agreement_eq_length_iff keyword.toList (front ++ after)).2 ⟨front, after, rfl, spelled⟩
    rw [Cursor.passKeyword, h.passLetters_eq ends solid]
    refine ⟨decide_eq_true agrees, ?_⟩
    rw [agrees, String.length_toList, ← length_of_sameWord spells]
    exact h.passMany front .take

/-! ## Cursors of a script -/

/-- What a cursor has in front of it, if a zero byte stands behind the script. -/
theorem exists_between_closed {text : String}
    (closed : text.utf8ByteSize ≤ 0xFFFFFFFF ∨ (Script.ofText text).byteAt 0xFFFFFFFF = 0) {c : Cursor}
    (script : c.script = Script.ofText text) (placed : c.script.isBoundary c.pos = true) :
    ∃ before rest beyond, text.toList = before ++ (rest ++ beyond) ∧ c.Between before rest beyond ∧
      ReadsAsEnd beyond := by
  have zero : c.script.Closed := by
    rw [script]
    exact Script.closed_ofText closed
  obtain ⟨before, rest, beyond, split, between⟩ := exists_between script zero.isBoundary_size placed
  exact ⟨before, rest, beyond, split, between, between.readsAsEnd zero⟩

end Cursor

end HotkeyLex
