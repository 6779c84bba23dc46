import HotkeyLex.Proofs.Endings
import Mathlib.Data.List.Forall2

/-!
# How far a run and a keyword reach

A loop over a cursor passes a stretch of the text: the next characters, up to one that it does not want.
How far it gets is a question about the text alone. A run over a class passes the longest stretch inside
the class (`passWhile_passes_longest_run`), and a keyword is passed for as long as the text agrees with it,
case aside (`passKeyword_passes_longest_agreement`).

What becomes of the token depends on the step and on whether anything was passed at all, not on the
characters (`Takes`, `Skips`).
-/

namespace HotkeyLex

/-! ## The longest beginning -/

/-- `part` is the longest beginning of `text` with a property. -/
structure LongestBeginning (P : List Char → Prop) (part text : List Char) : Prop where
  begins : part <+: text
  holds : P part
  longest : ∀ other, other <+: text → P other → other.length ≤ part.length

/-- The library's `takeWhile` finds the longest beginning in a class. -/
theorem longestBeginning_takeWhile (p : Char → Bool) (text : List Char) :
    LongestBeginning (fun part => ∀ ch ∈ part, p ch = true) (text.takeWhile p) text where
  begins := List.takeWhile_prefix p
  holds _ member := List.mem_takeWhile_imp member
  longest other begins inside := by
    obtain ⟨tail, rfl⟩ := begins
    rw [List.takeWhile_append_of_pos inside, List.length_append]
    exact Nat.le_add_right _ _

/-! ## The token while a stretch is passed -/

namespace Cursor

/-- So many characters were taken: neither end of the token has changed, and one is enough to note that
something was taken. -/
structure Takes (c d : Cursor) (count : Nat) : Prop where
  start : d.start = c.start
  mark : d.mark = c.mark
  taken : d.taken = true ↔ c.taken = true ∨ 0 < count

/-- Characters were skipped: the start of the token has come along if nothing was taken and no end is
marked. -/
structure Skips (c d : Cursor) : Prop where
  mark : d.mark = c.mark
  taken : d.taken = c.taken
  start : d.start = if c.taken = false ∧ c.mark = none then d.pos else c.start

/-- Skipping moves the start along exactly while the token is idle. -/
theorem skips_movedTo (c : Cursor) (pos : UInt32) : c.Skips (c.movedTo .skip pos) := by
  by_cases idle : (!c.taken && c.mark.isNone) = true
  · have still : c.taken = false ∧ c.mark = none := by simpa using idle
    simp only [movedTo, if_pos idle]
    exact ⟨rfl, rfl, (if_pos still).symm⟩
  · have settled : ¬ (c.taken = false ∧ c.mark = none) := by simpa using idle
    simp only [movedTo, if_neg idle]
    exact ⟨rfl, rfl, (if_neg settled).symm⟩

namespace Between

variable {c : Cursor} {before part rest beyond : List Char}

/-- Taking characters is noted if there are any. -/
theorem takes_passMany (h : c.Between before (part ++ rest) beyond) :
    c.Takes (c.passMany .take part.length) part.length := by
  by_cases empty : part = []
  · subst empty
    refine ⟨rfl, rfl, ?_⟩
    simp [Cursor.passMany]
  · rw [h.passMany_eq .take empty]
    refine ⟨rfl, rfl, ?_⟩
    simp [movedTo, List.length_pos_iff.2 empty]

/-- An empty stretch leaves the start alone, so a token that moves along has to be at the place of reading
already. -/
theorem skips_passMany (h : c.Between before (part ++ rest) beyond)
    (idle : c.taken = false → c.mark = none → c.start = c.pos) : c.Skips (c.passMany .skip part.length) := by
  by_cases empty : part = []
  · subst empty
    refine ⟨rfl, rfl, ?_⟩
    change c.start = if c.taken = false ∧ c.mark = none then c.pos else c.start
    split
    · next still => exact idle still.1 still.2
    · rfl
  · rw [h.passMany_eq .skip empty]
    exact c.skips_movedTo _

/-! ## Runs over a class -/

theorem split_run (h : c.Between before rest beyond) (p : Char → Bool) :
    c.Between before (rest.takeWhile p ++ rest.dropWhile p) beyond := by
  rwa [List.takeWhile_append_dropWhile]

theorem takes_passWhile (h : c.Between before rest beyond) (p : Char → Bool) :
    c.Takes (c.passWhile .take p).cursor (c.passWhile .take p).count.toNat := by
  rw [h.passWhile_cursor, h.toNat_count]
  exact (h.split_run p).takes_passMany

/-- A run that skips moves the start to its end or leaves it. -/
theorem skips_passWhile (h : c.Between before rest beyond)
    (idle : c.taken = false → c.mark = none → c.start = c.pos) (p : Char → Bool) :
    c.Skips (c.passWhile .skip p).cursor := by
  rw [h.passWhile_cursor]
  exact (h.split_run p).skips_passMany idle

/-- Behind a run over a class there is nothing left to pass. -/
theorem passWhile_again (h : c.Between before rest beyond) (step again : Step) (p : Char → Bool) :
    (c.passWhile step p).cursor.passWhile again p = ⟨0, (c.passWhile step p).cursor⟩ := by
  have behind := h.passWhile step p
  have none : Longest p [] (rest.dropWhile p) := ⟨nofun, (Longest.of_takeWhile p rest).stops⟩
  have nothing : (rest.dropWhile p).takeWhile p = [] := none.takeWhile_eq
  rw [Cursor.passWhile, behind.passCounting_eq, nothing]
  rfl

end Between

/-- From every cursor that a walk may lead to, a run over a class without the null character comes to an
end, the loop without its guard as well, and has then passed the longest beginning of the rest that lies in
the class and counted its characters. The marked end stays; what is taken is noted and moves no end, and
what is skipped moves the start along exactly while the token is idle. A second run has nothing to pass. The
text may be longer than offsets can tell, if a zero byte stands where it is cut. -/
theorem passWhile_passes_longest_run {text : String}
    (closed : text.utf8ByteSize ≤ 0xFFFFFFFF ∨ (Script.ofText text).byteAt 0xFFFFFFFF = 0) {entry : Cursor}
    (opened : Opened (Script.ofText text) entry) (search : ParenSearch) (list : List Move) (step : Step)
    {p : Char → Bool} (solid : p '\x00' = false) :
    let c := ((Walk.start entry).moves search list).cursor
    let result := c.passWhile step p
    Machine.unguarded.passWhile c step p = .some result ∧
    (∃ before run after beyond, text.toList = before ++ (run ++ after ++ beyond) ∧
      c.Between before (run ++ after) beyond ∧
      LongestBeginning (fun part => ∀ ch ∈ part, p ch = true) run (run ++ after) ∧
      result.count.toNat = run.length ∧
      result.cursor.Between (before ++ run) after beyond) ∧
    (step = .take → c.Takes result.cursor result.count.toNat) ∧
    (step = .skip → c.Skips result.cursor) ∧
    ∀ again, result.cursor.passWhile again p = ⟨0, result.cursor⟩ := by
  intro c result
  have zero := Script.closed_ofText closed
  have walked := (Walk.All.start (opened.soundIn zero.isBoundary_size)).sound_moves search list
  obtain ⟨inText, sound⟩ : c.SoundIn (Script.ofText text) := walked.cursor
  obtain ⟨before, rest, beyond, split, h, -⟩ := exists_between_closed closed inText.1 inText.isBoundary
  have unguarded := (Machine.unguarded_faithful zero).passWhile inText step (.inr solid)
  refine ⟨unguarded, ?_, ?_, ?_, fun again => h.passWhile_again step again p⟩
  · refine ⟨before, rest.takeWhile p, rest.dropWhile p, beyond, ?_, h.split_run p, ?_, h.toNat_count step p,
      h.passWhile step p⟩
    · rw [List.takeWhile_append_dropWhile, split]
    · rw [List.takeWhile_append_dropWhile]
      exact longestBeginning_takeWhile p rest
  · rintro rfl
    exact h.takes_passWhile p
  · rintro rfl
    exact h.skips_passWhile sound.idle p

/-- A byte order mark, a space that is skipped, two accented letters and a null character: a run over letters
outside ASCII stops there after two characters of two bytes each, and the start of the token comes along. -/
theorem passWhile_passes_longest_run_accented :
    let c := ((Walk.start (ofScript (Script.ofText "\ufeff éé\x00é"))).moves .byByte [.passBlanks .skip]).cursor
    let result := c.passWhile .skip (fun ch => 0x80 ≤ ch.toNat)
    result.count = 2 ∧ result.cursor.pos = 8 ∧ result.cursor.start = 8 ∧
    result.cursor.passWhile .take (fun ch => 0x80 ≤ ch.toNat) = ⟨0, result.cursor⟩ := by
  intro c result
  have opened : Opened (Script.ofText "\ufeff éé\x00é") (ofScript (Script.ofText "\ufeff éé\x00é")) := .body
  obtain ⟨-, -, -, skips, again⟩ := passWhile_passes_longest_run (.inl (by decide)) opened .byByte
    [.passBlanks .skip] .skip (p := fun ch => 0x80 ≤ ch.toNat) rfl
  have stop : result.cursor.pos = 8 := by decide +kernel
  have start : result.cursor.start = 8 := by
    rw [show result.cursor.start = _ from (skips rfl).start]
    decide +kernel
  exact ⟨by decide +kernel, stop, start, again .take⟩

end Cursor

/-! ## Keywords -/

/-- The same character, or the two cases of one letter of ASCII. -/
def SameButCase (a b : Char) : Prop :=
  a = b ∨ a.isUpper = true ∧ b.toNat = a.toNat + 32 ∨ b.isUpper = true ∧ a.toNat = b.toNat + 32

theorem isUpper_iff (ch : Char) : ch.isUpper = true ↔ 65 ≤ ch.toNat ∧ ch.toNat ≤ 90 := by
  delta Char.isUpper
  rw [decide_eq_true_eq, ge_iff_le, UInt32.le_iff_toNat_le, UInt32.le_iff_toNat_le]
  rfl

/-- The lower case of a letter is thirty-two further on. -/
theorem toNat_toLower (ch : Char) : ch.toLower.toNat = if ch.isUpper = true then ch.toNat + 32 else ch.toNat := by
  by_cases wide : 0x80 ≤ ch.toNat
  · have other : ¬ ch.isUpper = true := by
      rw [isUpper_iff]
      omega
    rw [toLower_wide wide, if_neg other]
  · have ascii : ∀ n : Fin 128, (Char.ofNat n).toLower.toNat =
        if (Char.ofNat n).isUpper = true then (Char.ofNat n).toNat + 32 else (Char.ofNat n).toNat := by
      decide +kernel
    have near := ascii ⟨ch.toNat, by omega⟩
    rwa [Char.ofNat_toNat] at near

/-- Letters are compared without regard to case, by their code points. -/
theorem sameLetter_iff (a b : Char) : sameLetter a b = true ↔ SameButCase a b := by
  rw [sameLetter, beq_iff_eq, SameButCase, ← Char.toNat_inj, ← Char.toNat_inj (c := a), toNat_toLower, toNat_toLower]
  simp only [isUpper_iff]
  split <;> split <;> omega

/-- The text is a beginning of the keyword, case aside. -/
def AgreesWith (letters part : List Char) : Prop := List.Forall₂ SameButCase part (letters.take part.length)

theorem agreesWith_nil (letters : List Char) : AgreesWith letters [] := .nil

theorem agreesWith_cons_iff {letter ch : Char} {letters part : List Char} :
    AgreesWith (letter :: letters) (ch :: part) ↔ sameLetter ch letter = true ∧ AgreesWith letters part := by
  rw [AgreesWith, List.length_cons, List.take_succ_cons, List.forall₂_cons, sameLetter_iff]
  rfl

/-- The beginnings of a text that agree with a keyword are those up to the first character that does not. -/
theorem agreesWith_iff {letters text part : List Char} (begins : part <+: text) :
    AgreesWith letters part ↔ part.length ≤ agreement letters text := by
  fun_induction agreement letters text generalizing part with
  | case1 letter letters ch text same ih =>
    obtain rfl | ⟨tail, rfl, later⟩ := List.prefix_cons_iff.1 begins
    · exact iff_of_true (agreesWith_nil _) (Nat.zero_le _)
    · rw [agreesWith_cons_iff, ih later, List.length_cons, Nat.add_le_add_iff_right]
      exact and_iff_right same
  | case2 letter letters ch text other =>
    obtain rfl | ⟨tail, rfl, -⟩ := List.prefix_cons_iff.1 begins
    · exact iff_of_true (agreesWith_nil _) (Nat.zero_le _)
    · rw [agreesWith_cons_iff]
      exact iff_of_false (fun agrees => other agrees.1) (Nat.not_succ_le_zero _)
  | case3 letters text ended =>
    -- the keyword or the text has no further character
    cases part with
    | nil => exact iff_of_true (agreesWith_nil _) (Nat.zero_le _)
    | cons ch part =>
      obtain ⟨tail, rfl⟩ := begins
      cases letters with
      | nil => exact iff_of_false (by simp [AgreesWith]) (Nat.not_succ_le_zero _)
      | cons letter letters => exact absurd rfl (ended letter letters ch (part ++ tail) rfl)

theorem agreement_le_length (letters text : List Char) : agreement letters text ≤ text.length := by
  fun_induction agreement letters text with
  | case1 letter letters ch text same ih => exact Nat.succ_le_succ ih
  | case2 | case3 => exact Nat.zero_le _

/-- What is passed of a keyword is the longest beginning that agrees with it. -/
theorem longestBeginning_agreement (letters text : List Char) :
    LongestBeginning (AgreesWith letters) (text.take (agreement letters text)) text where
  begins := List.take_prefix _ _
  holds := (agreesWith_iff (List.take_prefix _ _)).2 (List.length_take_le _ _)
  longest other begins agrees := by
    rw [List.length_take_of_le (agreement_le_length letters text)]
    exact (agreesWith_iff begins).1 agrees

/-- Texts that agree but for case are those of one lower case. -/
theorem forall₂_sameButCase_iff (word letters : List Char) :
    List.Forall₂ SameButCase word letters ↔ word.map Char.toLower = letters.map Char.toLower := by
  have folded : SameButCase = fun a b => a.toLower = b.toLower := by
    funext a b
    rw [← sameLetter_iff, sameLetter, beq_iff_eq]
  rw [folded, ← List.forall₂_eq_eq_eq, List.forall₂_map_left_iff, List.forall₂_map_right_iff]

/-- Agreement ends at a null character, since a keyword has none, and at the end of the text. -/
theorem agreement_le_of_null {letters front tail : List Char} (solid : '\x00' ∉ letters)
    (null : tail.headD '\x00' = '\x00') : agreement letters (front ++ tail) ≤ front.length := by
  induction front generalizing letters with
  | nil =>
    rw [List.nil_append]
    fun_cases agreement letters tail with
    | case1 letter letters ch tail same =>
      rw [List.mem_cons, not_or] at solid
      obtain rfl : ch = '\x00' := null
      rw [sameLetter_null (Ne.symm solid.1)] at same
      cases same
    | case2 | case3 => exact Nat.le_refl 0
  | cons first front ih =>
    cases letters with
    | nil => exact Nat.zero_le _
    | cons letter letters =>
      rw [List.mem_cons, not_or] at solid
      rw [List.cons_append, agreement]
      split
      · exact Nat.succ_le_succ (ih solid.2)
      · exact Nat.zero_le _

/-- The letters are taken up to the first that does not agree, and accepted if there is none. -/
theorem Cursor.Between.exists_agreeing {c : Cursor} {before rest beyond letters : List Char}
    (h : c.Between before rest beyond) (ends : ReadsAsEnd beyond) (solid : '\x00' ∉ letters) :
    ∃ part after, rest = part ++ after ∧ LongestBeginning (AgreesWith letters) part rest ∧
      c.passLetters letters = ⟨decide (part.length = letters.length), c.passMany .take part.length⟩ := by
  refine ⟨rest.take (agreement letters rest), rest.drop (agreement letters rest),
    (List.take_append_drop _ rest).symm, longestBeginning_agreement letters rest, ?_⟩
  rw [h.passLetters_eq ends solid, List.length_take_of_le (agreement_le_length letters rest)]

/-- At every cursor a keyword without a null character is passed for as long as the text agrees with it, case
of ASCII letters aside, and it is accepted if all of it was passed. That is so wherever the text begins with
it, whatever comes behind, and never if a null character or the end comes first. The characters passed are
taken. The text may be longer than offsets can tell, if a zero byte stands where it is cut. -/
theorem Cursor.passKeyword_passes_longest_agreement {text : String}
    (closed : text.utf8ByteSize ≤ 0xFFFFFFFF ∨ (Script.ofText text).byteAt 0xFFFFFFFF = 0) {c : Cursor}
    (script : c.script = Script.ofText text) (placed : c.script.isBoundary c.pos = true) {keyword : String}
    (solid : '\x00' ∉ keyword.toList) :
    let result := c.passKeyword keyword
    ∃ before rest beyond, text.toList = before ++ (rest ++ beyond) ∧ c.Between before rest beyond ∧
      (∃ part after, rest = part ++ after ∧ LongestBeginning (AgreesWith keyword.toList) part rest ∧
        result.cursor.Between (before ++ part) after beyond ∧
        c.Takes result.cursor part.length ∧
        (result.accepted = true ↔ part.length = keyword.length)) ∧
      (result.accepted = true ↔
        ∃ word tail, rest = word ++ tail ∧ List.Forall₂ SameButCase word keyword.toList) ∧
      ∀ front tail, rest = front ++ tail → tail.headD '\x00' = '\x00' → front.length < keyword.length →
        result.accepted = false := by
  intro result
  obtain ⟨before, rest, beyond, split, h, ends⟩ := exists_between_closed closed script placed
  have accepted : result.accepted = true ↔ agreement keyword.toList rest = keyword.toList.length := by
    rw [show result = _ from h.passLetters_eq ends solid, decide_eq_true_eq]
  refine ⟨before, rest, beyond, split, h, ?_, ?_, ?_⟩
  · obtain ⟨part, after, rfl, longest, reads⟩ := h.exists_agreeing ends solid
    rw [show result = _ from reads, decide_eq_true_eq, String.length_toList]
    exact ⟨part, after, rfl, longest, h.passMany part .take, h.takes_passMany, Iff.rfl⟩
  · simp only [accepted, agreement_eq_length_iff, forall₂_sameButCase_iff]
  · intro front tail cut null early
    have stops : agreement keyword.toList (front ++ tail) ≤ front.length := agreement_le_of_null solid null
    rw [← cut] at stops
    rw [Bool.eq_false_iff, ne_eq, accepted, String.length_toList]
    omega

/-- A keyword with a letter outside ASCII, which the text goes on from without a break. In front of the other
case of that letter it is declined at once. -/
theorem Cursor.passKeyword_passes_longest_agreement_accented :
    (∃ before rest beyond part after, "ÉéJOINt".toList = before ++ (rest ++ beyond) ∧ 2 = byteSize before ∧
      rest = part ++ after ∧ LongestBeginning (AgreesWith "éJoin".toList) part rest ∧ part.length = 5) ∧
    ((fresh (Script.ofText "ÉéJOINt") 2).passKeyword "éJoin").accepted = true ∧
    ((fresh (Script.ofText "ÉéJOINt") 2).passKeyword "éJoin").cursor.pos = 8 ∧
    ((fresh (Script.ofText "ÉéJOINt") 0).passKeyword "éJoin").cursor.pos = 0 := by
  have boundary : (Script.ofText "ÉéJOINt").isBoundary 2 = true := by decide +kernel
  have accepted : ((fresh (Script.ofText "ÉéJOINt") 2).passKeyword "éJoin").accepted = true := by decide +kernel
  obtain ⟨before, rest, beyond, split, h, ⟨part, after, cut, longest, -, -, all⟩, -⟩ :=
    passKeyword_passes_longest_agreement (.inl (by decide)) (c := fresh (Script.ofText "ÉéJOINt") 2) rfl boundary
      (show '\x00' ∉ "éJoin".toList by decide)
  refine ⟨⟨before, rest, beyond, part, after, split, h.pos, cut, longest, all.1 accepted⟩, accepted, ?_, ?_⟩
  · decide +kernel
  · decide +kernel

end HotkeyLex
