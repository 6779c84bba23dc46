import HotkeyLex.Proofs.TokenBounds
import Mathlib.Data.List.TFAE
import Mathlib.Data.Set.Card
import Mathlib.Tactic.TFAE

/-!
# Where a cursor can stand

A cursor may be put at an offset if the byte there does not go on with a character, and it moves by what
leading bytes tell. Both give the same places: the offsets from the body on that split the text between
two characters. So a cursor that is put down sees what a cursor sees that has read up to there, and there
is one place in front of every character of the body and one at its end
(`placed_where_cursors_get`).
-/

namespace HotkeyLex

/-! ## The body of a text -/

/-- The byte order mark in front of a text, if there is one. -/
def markOf : List Char → List Char
  | '\ufeff' :: _ => ['\ufeff']
  | _ => []

/-- What a text holds behind its byte order mark. -/
def bodyOf : List Char → List Char
  | '\ufeff' :: body => body
  | text => text

theorem markOf_append_bodyOf (text : List Char) : markOf text ++ bodyOf text = text := by
  fun_cases markOf text with
  | case1 => rfl
  | case2 _ other =>
    rw [List.nil_append]
    fun_cases bodyOf text with
    | case1 body => exact absurd rfl (other body)
    | case2 => rfl

/-- The body begins behind the byte order mark. -/
theorem toNat_bodyStart (text : List Char) :
    (Script.ofText (String.ofList text)).bodyStart.toNat = byteSize (markOf text) := by
  have marked := Script.hasMark_iff text
  simp only [Script.ofText]
  fun_cases markOf text with
  | case1 body =>
    rw [if_pos (marked.2 ⟨body, rfl⟩)]
    rfl
  | case2 _ other =>
    rw [if_neg]
    · rfl
    · intro mark
      obtain ⟨body, same⟩ := marked.1 mark
      exact other body same

/-- The places of a script are the offsets that split its text, from the body on. -/
theorem Script.isPosition_iff (text : String) (offset : UInt32) : (ofText text).isPosition offset = true ↔
    (ofText text).bodyStart ≤ offset ∧
      ∃ before rest, text.toList = before ++ rest ∧ offset.toNat = byteSize before := by
  obtain ⟨chars, rfl⟩ := text.exists_eq_ofList
  rw [isPosition, Bool.and_eq_true, decide_eq_true_eq, isBoundary_iff, String.toList_ofList]

namespace Cursor

/-- A cursor is handed out at the positions of a script, and it is fresh. -/
theorem at?_eq_some_iff {s : Script} {offset : UInt32} {c : Cursor} :
    at? s offset = some c ↔ s.isPosition offset = true ∧ c = fresh s offset := by
  rw [at?, Option.ite_none_right_eq_some, Option.some_inj, eq_comm (a := c)]

theorem isSome_at?_iff (s : Script) (offset : UInt32) : (at? s offset).isSome = true ↔ s.isPosition offset = true := by
  simp only [Option.isSome_iff_exists, at?_eq_some_iff, exists_and_left, exists_eq, and_true]

/-! ## Getting there -/

/-- From where a cursor stands it can pass to every boundary further on. -/
theorem Between.exists_passMany {c : Cursor} {before rest beyond : List Char} (h : c.Between before rest beyond)
    {offset : UInt32} (boundary : c.script.isBoundary offset = true) (ahead : c.pos ≤ offset) (step : Step) :
    ∃ n, (c.passMany step n).pos = offset := by
  have inside := Script.le_size_of_isBoundary boundary
  rw [UInt32.le_iff_toNat_le, h.size, byteSize_append] at inside
  rw [UInt32.le_iff_toNat_le, h.pos] at ahead
  rw [h.script, Script.isBoundary_iff] at boundary
  obtain ⟨front, behind, split, offset_eq⟩ := boundary
  rw [offset_eq] at inside ahead
  -- what lies between the cursor and the offset is the beginning of the rest
  obtain ⟨middle, rfl, more⟩ := split_of_byteSize_le split ahead
  rw [byteSize_append] at inside
  obtain ⟨tail, rfl, -⟩ := split_of_byteSize_le more.symm (by omega)
  refine ⟨middle.length, ?_⟩
  rw [← UInt32.toNat_inj, offset_eq]
  exact (h.passMany middle step).pos

section

variable {text : String} (whole : (Script.ofText text).isBoundary (Script.ofText text).size = true)
include whole

theorem inText_ofScript : (ofScript (Script.ofText text)).InText (Script.ofText text) := by
  obtain ⟨before, rest, beyond, -, between⟩ :=
    exists_between (c := ofScript (Script.ofText text)) rfl whole (isBoundary_bodyStart text)
  exact ⟨rfl, before, rest, beyond, between⟩

/-- Passing characters leads from place to place. -/
theorem Passes.isPosition {d : Cursor} (run : Passes (ofScript (Script.ofText text)) d) :
    d.script = Script.ofText text ∧ (Script.ofText text).isPosition d.pos = true := by
  have start := inText_ofScript whole
  have there := start.reaches run.reaches
  have later := start.pos_le_of_reaches run.reaches
  have boundary := there.isBoundary
  rw [there.1] at boundary
  rw [Script.isPosition, boundary, Bool.and_true, decide_eq_true_eq]
  exact ⟨there.1, later⟩

/-- Every position is reached from the beginning of the body by passing characters. -/
theorem exists_passMany_of_isPosition {offset : UInt32}
    (position : (Script.ofText text).isPosition offset = true) (step : Step) :
    ∃ n, ((ofScript (Script.ofText text)).passMany step n).pos = offset := by
  obtain ⟨-, before, rest, beyond, between⟩ := inText_ofScript whole
  rw [Script.isPosition, Bool.and_eq_true, decide_eq_true_eq] at position
  exact between.exists_passMany position.2 position.1 step

end

/-! ## Counting places -/

/-- The offset behind the first characters of the body. -/
def placeBehind (text : List Char) (n : Nat) : UInt32 :=
  (byteSize (markOf text ++ (bodyOf text).take n)).toUInt32

section

variable {text : List Char} (fits : byteSize text < UInt32.size)
include fits

/-- The place behind some characters of the body lies behind the mark and those characters. -/
theorem toNat_placeBehind (n : Nat) :
    (placeBehind text n).toNat = byteSize (markOf text ++ (bodyOf text).take n) := by
  have parts := congrArg byteSize (markOf_append_bodyOf text)
  have body := congrArg byteSize (List.take_append_drop n (bodyOf text))
  rw [byteSize_append] at parts body
  apply UInt32.toNat_ofNat_of_lt'
  rw [byteSize_append]
  omega

/-- The places are the offsets behind the first characters of the body, from none of them to all. -/
theorem isPosition_iff_placeBehind (offset : UInt32) :
    (Script.ofText (String.ofList text)).isPosition offset = true ↔
      ∃ n ≤ (bodyOf text).length, placeBehind text n = offset := by
  rw [Script.isPosition_iff, UInt32.le_iff_toNat_le, toNat_bodyStart, String.toList_ofList]
  constructor
  · rintro ⟨behind, before, rest, split, offset_eq⟩
    rw [offset_eq] at behind
    have parts := markOf_append_bodyOf text
    rw [split] at parts
    obtain ⟨part, same, body⟩ := split_of_byteSize_le parts (by rwa [split] at behind)
    rw [← split] at same body
    refine ⟨part.length, ?_, ?_⟩
    · rw [body, List.length_append]
      omega
    · rw [← UInt32.toNat_inj, toNat_placeBehind fits, body, List.take_left, ← same, offset_eq]
  · rintro ⟨n, -, rfl⟩
    rw [toNat_placeBehind fits]
    refine ⟨?_, markOf text ++ (bodyOf text).take n, (bodyOf text).drop n, ?_, rfl⟩
    · rw [byteSize_append]
      omega
    · rw [List.append_assoc, List.take_append_drop, markOf_append_bodyOf]

/-- Two counts of characters have one place only if they are one. -/
theorem placeBehind_inj {m n : Nat} (first : m ≤ (bodyOf text).length) (second : n ≤ (bodyOf text).length)
    (same : placeBehind text m = placeBehind text n) : m = n := by
  rw [← UInt32.toNat_inj, toNat_placeBehind fits, toNat_placeBehind fits, byteSize_append, byteSize_append,
    Nat.add_left_cancel_iff] at same
  have cuts : (bodyOf text).take m ++ (bodyOf text).drop m = (bodyOf text).take n ++ (bodyOf text).drop n := by
    rw [List.take_append_drop, List.take_append_drop]
  have lengths := congrArg List.length (split_unique cuts same).1
  rwa [List.length_take_of_le first, List.length_take_of_le second] at lengths

/-- There is one position for each character of the body, and the end. -/
theorem ncard_positions : {offset | (Script.ofText (String.ofList text)).isPosition offset = true}.ncard =
    (bodyOf text).length + 1 := by
  have image : {offset | (Script.ofText (String.ofList text)).isPosition offset = true} =
      placeBehind text '' ↑(Finset.range ((bodyOf text).length + 1)) := by
    ext offset
    rw [Set.mem_ofPred_eq, isPosition_iff_placeBehind fits, Set.mem_image]
    simp only [Finset.coe_range, Set.mem_Iio, Nat.lt_succ_iff]
  have apart : Set.InjOn (placeBehind text) ↑(Finset.range ((bodyOf text).length + 1)) := by
    intro m first n second same
    simp only [Finset.coe_range, Set.mem_Iio, Nat.lt_succ_iff] at first second
    exact placeBehind_inj fits first second same
  rw [image, apart.ncard_image, Set.ncard_coe_finset, Finset.card_range]

end

/-- A cursor may be put exactly where a cursor gets that reads from the beginning of the body, and these
are the offsets that split the text from there on. Whichever way it got there it sees the same. There is
one place more than there are characters in the body. The text may be longer than offsets can tell, unless
the cut then goes through a character; only the count is about texts that fit. -/
theorem placed_where_cursors_get {text : String}
    (whole : text.utf8ByteSize ≤ 0xFFFFFFFF ∨ (Script.ofText text).isBoundary 0xFFFFFFFF = true) :
    (∀ offset : UInt32, List.TFAE [
      (at? (Script.ofText text) offset).isSome = true,
      (Script.ofText text).bodyStart ≤ offset ∧
        ∃ before rest, text.toList = before ++ rest ∧ offset.toNat = byteSize before,
      ∃ d, Passes (ofScript (Script.ofText text)) d ∧ d.pos = offset,
      ∀ step, ∃ n, ((ofScript (Script.ofText text)).passMany step n).pos = offset]) ∧
    (∀ c d offset, at? (Script.ofText text) offset = some c → Passes (ofScript (Script.ofText text)) d →
      d.pos = offset → c.pos = d.pos ∧ c.look = d.look ∧ c.atEnd = d.atEnd) ∧
    (text.utf8ByteSize ≤ 0xFFFFFFFF →
      {offset | (at? (Script.ofText text) offset).isSome = true}.ncard = (bodyOf text.toList).length + 1) := by
  have stop : (Script.ofText text).isBoundary (Script.ofText text).size = true :=
    whole.elim (fun fits => isBoundary_size (Nat.lt_succ_of_le fits)) Script.isBoundary_size_of_max
  refine ⟨fun offset => ?_, fun c d offset found run there => ?_, fun fits => ?_⟩
  · tfae_have 1 ↔ 2 := (isSome_at?_iff _ offset).trans (Script.isPosition_iff text offset)
    tfae_have 1 → 4 := fun placed => exists_passMany_of_isPosition stop ((isSome_at?_iff _ offset).1 placed)
    tfae_have 4 → 3 := fun reached => by
      obtain ⟨n, there⟩ := reached .take
      exact ⟨_, Passes.passMany _ .take n, there⟩
    tfae_have 3 → 1 := by
      rintro ⟨d, run, rfl⟩
      exact (isSome_at?_iff _ d.pos).2 (Passes.isPosition stop run).2
    tfae_finish
  · obtain ⟨-, rfl⟩ := at?_eq_some_iff.1 found
    obtain ⟨script, -⟩ := Passes.isPosition stop run
    have place : SamePlace (fresh (Script.ofText text) offset) d := ⟨script.symm, there.symm⟩
    exact ⟨there.symm, place.look, place.atEnd⟩
  · obtain ⟨chars, rfl⟩ := text.exists_eq_ofList
    rw [utf8ByteSize_ofList] at fits
    simp only [isSome_at?_iff, String.toList_ofList]
    exact ncard_positions (Nat.lt_succ_of_le fits)

/-- Behind a byte order mark, an accented letter, a null character and a parenthesis: four places, one of
them behind the letter. -/
theorem placed_where_cursors_get_marked :
    (at? (Script.ofText "\ufeffé\x00(") 5).isSome = true ∧
    (∃ n, ((ofScript (Script.ofText "\ufeffé\x00(")).passMany .skip n).pos = 5) ∧
    {offset | (at? (Script.ofText "\ufeffé\x00(") offset).isSome = true}.ncard = 4 := by
  have fits : "\ufeffé\x00(".utf8ByteSize ≤ 0xFFFFFFFF := by decide
  obtain ⟨places, -, count⟩ := placed_where_cursors_get (.inl fits)
  have placed : (at? (Script.ofText "\ufeffé\x00(") 5).isSome = true := by decide +kernel
  have reached : ∀ step, ∃ n, ((ofScript (Script.ofText "\ufeffé\x00(")).passMany step n).pos = 5 :=
    ((places 5).out 0 3).1 placed
  exact ⟨placed, reached .skip, count fits⟩

end Cursor

end HotkeyLex
