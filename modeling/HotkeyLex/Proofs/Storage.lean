import HotkeyLex.Proofs.Positions
import HotkeyLex.Proofs.Sweep
import Mathlib.Order.Bounds.Basic

/-!
# What a script stores

A script stores the bytes of its text unchanged, with zeros behind them up to a whole number of lines, and
at least one (`Script.Stores`). Its body begins behind a byte order mark.

The flaws of a script are found by a search for zero bytes. A zero byte is always a whole character and
begins no byte order mark, so these are exactly the places where a cursor may be put and sees a null
character although the text goes on (`mem_nullOffsets_iff`), and the warnings about a file name them one by
one in order.
-/

namespace HotkeyLex

namespace Script

/-! ## Whole lines -/

/-- The padded size is the least whole number of lines with room for a zero. -/
theorem isLeast_paddedSize (n : Nat) : IsLeast {size | lineBytes ∣ size ∧ n < size} (paddedSize n) := by
  refine ⟨⟨Nat.dvd_mul_left _ _, lt_paddedSize n⟩, ?_⟩
  rintro _ ⟨⟨lines, rfl⟩, more⟩
  simp only [paddedSize, lineBytes] at more ⊢
  omega

/-- A mask that clears the six lowest bits leaves a whole number of lines. -/
theorem toNat_and_lineMask (n : UInt64) : (n &&& ~~~63).toNat = n.toNat / lineBytes * lineBytes := by
  have lines : n.toNat / lineBytes * lineBytes = (n.toNat >>> 6) <<< 6 := by
    rw [Nat.shiftRight_eq_div_pow, Nat.shiftLeft_eq]
    rfl
  have mask : (~~~(63 : UInt64)).toNat = 2 ^ 64 - (63 + 1) := rfl
  have low : ∀ i, Nat.testBit 63 i = decide (i < 6) := Nat.testBit_two_pow_sub_one 6
  rw [lines, UInt64.toNat_and, mask]
  apply Nat.eq_of_testBit_eq
  intro i
  rw [Nat.testBit_and, Nat.testBit_two_pow_sub_succ (by decide), low, Nat.testBit_shiftLeft, Nat.testBit_shiftRight]
  by_cases small : i < 6
  · simp [small]
  · have high : 6 + (i - 6) = i := by omega
    by_cases inside : i < 64
    · simp [small, inside, high, Nat.le_of_not_lt small]
    · have beyond : n.toNat.testBit i = false := by
        apply Nat.testBit_lt_two_pow
        calc n.toNat < 2 ^ 64 := n.toNat_lt
          _ ≤ 2 ^ i := Nat.pow_le_pow_right (by decide) (Nat.le_of_not_lt inside)
      simp [high, beyond]

/-- The size of the buffer can be told by a mask, in words of 64 bits. -/
theorem paddedSize_eq_masked {n : Nat} (small : n < UInt32.size) :
    paddedSize n = ((n.toUInt64 + 1 + 64 - 1) &&& ~~~63).toNat := by
  have size : UInt32.size = 2 ^ 32 := rfl
  have sum : (n.toUInt64 + 1 + 64 - 1).toNat = n + 64 := by
    have word : n.toUInt64.toNat = n := UInt64.toNat_ofNat_of_lt' (by rw [UInt64.size]; omega)
    rw [UInt64.toNat_sub, UInt64.toNat_add, UInt64.toNat_add, word]
    simp only [UInt64.toNat_one, UInt64.reduceToNat]
    omega
  rw [toNat_and_lineMask, sum, paddedSize, lineBytes]
  omega

/-! ## The bytes of the text and behind it -/

/-- How a script stores a text. -/
structure Stores (s : Script) (text : String) : Prop where
  size : s.size.toNat = text.utf8ByteSize
  bytes : s.text = text.toUTF8
  lines : IsLeast {size | lineBytes ∣ size ∧ text.utf8ByteSize < size} s.buffer.size
  masked : s.buffer.size = ((text.utf8ByteSize.toUInt64 + 1 + 64 - 1) &&& ~~~63).toNat
  zeros : ∀ i, text.utf8ByteSize ≤ i → ∀ inside : i < s.buffer.size, s.buffer[i] = 0
  body : s.bodyStart = if text.toList.head? = some '\ufeff' then 3 else 0

theorem size_buffer_ofText (text : String) : (ofText text).buffer.size = paddedSize text.utf8ByteSize := by
  have room := lt_paddedSize text.toUTF8.size
  have size : text.toUTF8.size = text.utf8ByteSize := rfl
  simp only [ofText, padded, ByteArray.size_append]
  change text.toUTF8.size + (Array.replicate (paddedSize text.toUTF8.size - text.toUTF8.size) 0).size = _
  rw [Array.size_replicate, ← size]
  omega

theorem text_ofText {text : String} (fits : text.utf8ByteSize < UInt32.size) : (ofText text).text = text.toUTF8 := by
  obtain ⟨chars, rfl⟩ := text.exists_eq_ofList
  rw [utf8ByteSize_ofList] at fits
  obtain ⟨zeros, -, data⟩ := data_ofText chars
  apply ByteArray.ext
  apply Array.toList_inj.1
  rw [Script.text, toNat_size_ofText fits, ByteArray.data_extract, Array.toList_extract, data, List.extract,
    List.drop_zero, Nat.sub_zero, List.take_left' (length_encoded chars), toUTF8_ofList, List.data_toByteArray]

theorem getElem_buffer_ofText (text : String) {i : Nat} (behind : text.utf8ByteSize ≤ i)
    (inside : i < (ofText text).buffer.size) : (ofText text).buffer[i] = 0 := by
  obtain ⟨chars, rfl⟩ := text.exists_eq_ofList
  have byte := byteOf_ofText chars i
  rw [utf8ByteSize_ofList] at behind
  rw [byteOf, dif_pos inside] at byte
  rw [byte, List.getD_eq_default _ _ (by rw [length_encoded]; exact behind)]

/-- The body begins behind a byte order mark, and at the beginning without one. -/
theorem bodyStart_ofText (text : String) :
    (ofText text).bodyStart = if text.toList.head? = some '\ufeff' then 3 else 0 := by
  obtain ⟨chars, rfl⟩ := text.exists_eq_ofList
  have marked : hasMark (String.ofList chars).toUTF8 = true ↔ chars.head? = some '\ufeff' := by
    rw [hasMark_iff, List.head?_eq_some_iff]
  simp only [ofText, marked, String.toList_ofList]

/-- A script stores a text whose offsets fit. -/
theorem stores_ofText {text : String} (fits : text.utf8ByteSize < UInt32.size) : (ofText text).Stores text where
  size := by
    obtain ⟨chars, rfl⟩ := text.exists_eq_ofList
    rw [utf8ByteSize_ofList] at fits ⊢
    exact toNat_size_ofText fits
  bytes := text_ofText fits
  lines := size_buffer_ofText text ▸ isLeast_paddedSize text.utf8ByteSize
  masked := (size_buffer_ofText text).trans (paddedSize_eq_masked fits)
  zeros _ behind inside := getElem_buffer_ofText text behind inside
  body := bodyStart_ofText text

/-! ## Null bytes -/

/-- The offsets of the null bytes of a text. -/
def nullOffsets (bytes : ByteArray) : List UInt32 :=
  ((List.range bytes.size).filter fun i => byteOf bytes i == 0 && i < UInt32.size).map Nat.toUInt32

/-- The flaws of a script are the null bytes of its text, each with its offset. -/
theorem flaws_ofText (text : String) :
    (ofText text).flaws = (nullOffsets text.toUTF8).map fun offset => ⟨.nullByte, offset, 1⟩ := by
  rw [nullOffsets, List.map_map]
  rfl

theorem pairwise_nullOffsets (bytes : ByteArray) : (nullOffsets bytes).Pairwise (· < ·) := by
  refine pairwise_toUInt32 (List.pairwise_lt_range.filter _) fun i member => ?_
  have test := (List.mem_filter.1 member).2
  rw [Bool.and_eq_true, decide_eq_true_eq] at test
  exact test.2

/-- A null byte is noted wherever there is one that an offset can tell. -/
theorem mem_nullOffsets {bytes : ByteArray} {offset : UInt32} :
    offset ∈ nullOffsets bytes ↔ offset.toNat < bytes.size ∧ byteOf bytes offset.toNat = 0 := by
  simp only [nullOffsets, List.mem_map, List.mem_filter, List.mem_range, Bool.and_eq_true, beq_iff_eq,
    decide_eq_true_eq]
  constructor
  · rintro ⟨i, ⟨inside, null, small⟩, rfl⟩
    rw [show i.toUInt32.toNat = i from UInt32.toNat_ofNat_of_lt' small]
    exact ⟨inside, null⟩
  · rintro ⟨inside, null⟩
    exact ⟨offset.toNat, ⟨inside, null, offset.toNat_lt⟩, UInt32.ofNat_toNat⟩

theorem byteOf_toUTF8 (text : String) (i : Nat) : byteOf text.toUTF8 i = byteOf (ofText text).buffer i := by
  obtain ⟨chars, rfl⟩ := text.exists_eq_ofList
  rw [byteOf_ofText, byteOf_eq_getD, toUTF8_ofList, List.data_toByteArray]

/-- The three bytes of a byte order mark are not zero. -/
theorem bodyStart_le_of_null {text : String} {offset : UInt32} (null : (ofText text).byteAt offset = 0) :
    (ofText text).bodyStart ≤ offset := by
  rw [UInt32.le_iff_toNat_le]
  by_cases marked : hasMark text.toUTF8 = true
  · rw [show (ofText text).bodyStart = 3 from if_pos marked]
    rw [hasMark, Bool.and_eq_true, beq_iff_eq] at marked
    rw [byteAt, ← byteOf_toUTF8] at null
    have solid : ∀ b ∈ [byteOf text.toUTF8 0, byteOf text.toUTF8 1, byteOf text.toUTF8 2], b ≠ 0 := by
      rw [marked.2]
      simp [byteOrderMark]
    apply Nat.le_of_not_lt
    intro (front : offset.toNat < 3)
    have places : offset.toNat = 0 ∨ offset.toNat = 1 ∨ offset.toNat = 2 := by omega
    refine solid _ ?_ null
    rcases places with first | second | third
    · simp [first]
    · simp [second]
    · simp [third]
  · rw [show (ofText text).bodyStart = 0 from if_neg marked]
    exact Nat.zero_le _

/-- A null byte is a character of its own, so a cursor may be put in front of it. -/
theorem isPosition_of_null {text : String} {offset : UInt32} (inside : offset ≤ (ofText text).size)
    (null : (ofText text).byteAt offset = 0) : (ofText text).isPosition offset = true := by
  rw [isPosition, isBoundary, null, Bool.and_eq_true, Bool.and_eq_true, decide_eq_true_eq, decide_eq_true_eq]
  exact ⟨bodyStart_le_of_null null, inside, rfl⟩

end Script

namespace Cursor

/-- A null character is seen where the byte is zero, and nowhere else. -/
theorem look_eq_null_iff (c : Cursor) : c.look = '\x00' ↔ c.script.byteAt c.pos = 0 := by
  have lead : ∀ n : Fin 256, plainLead (UInt8.ofNat n) = '\x00' ↔ UInt8.ofNat n = 0 := by decide +kernel
  have byte := lead ⟨(c.script.byteAt c.pos).toNat, (c.script.byteAt c.pos).toNat_lt⟩
  rw [UInt8.ofNat_toNat] at byte
  rw [← (show Firm '\x00' by decide).plain_eq_iff, c.plain_look, byte]

/-- The null bytes of a text are where a cursor can be put that sees a null character before the end. -/
theorem mem_nullOffsets_iff {text : String} (fits : text.utf8ByteSize < UInt32.size) (offset : UInt32) :
    offset ∈ Script.nullOffsets text.toUTF8 ↔
      ∃ c, at? (Script.ofText text) offset = some c ∧ c.look = '\x00' ∧ c.atEnd = false := by
  have size := (Script.stores_ofText fits).size
  have inside : (fresh (Script.ofText text) offset).atEnd = false ↔ offset.toNat < text.toUTF8.size := by
    rw [atEnd, decide_eq_false_iff_not, UInt32.le_iff_toNat_le, Nat.not_le]
    change offset.toNat < (Script.ofText text).size.toNat ↔ _
    rw [size]
    rfl
  have look := look_eq_null_iff (fresh (Script.ofText text) offset)
  have byte : (Script.ofText text).byteAt offset = Script.byteOf text.toUTF8 offset.toNat :=
    (Script.byteOf_toUTF8 text offset.toNat).symm
  rw [Script.mem_nullOffsets]
  constructor
  · rintro ⟨within, null⟩
    rw [← byte] at null
    have position : (Script.ofText text).isPosition offset = true := by
      apply Script.isPosition_of_null _ null
      rw [UInt32.le_iff_toNat_le, size]
      exact Nat.le_of_lt within
    exact ⟨_, at?_eq_some_iff.2 ⟨position, rfl⟩, look.2 null, inside.2 within⟩
  · rintro ⟨c, found, null, more⟩
    obtain ⟨-, rfl⟩ := at?_eq_some_iff.1 found
    rw [← byte]
    exact ⟨inside.1 more, look.1 null⟩

end Cursor

namespace Tool

/-- The warning about a null byte. -/
def nullWarning (path : String) (offset : UInt32) : String :=
  "warning: " ++ path ++ ": null byte at byte " ++ decimal offset.toNat ++ " reads as end of line\n"

/-- There is one warning for each null byte, in order. -/
theorem warnings_ofText (path text : String) :
    warnings path (Script.ofText text) = (Script.nullOffsets text.toUTF8).map (nullWarning path) := by
  rw [warnings, Script.flaws_ofText, List.map_map]
  apply List.map_congr_left
  intro offset _
  have words : ": null byte at byte " = ": " ++ "null byte" ++ " at byte " := by decide
  simp only [Function.comp_apply, FlawKind.phrase, nullWarning, words, String.append_assoc]

/-- A script stores its text as it is, and notes a flaw for every place, in order, where a cursor will see a
null character before the end. What is written about the file are the warnings of these places. -/
theorem script_stores_its_text {text : String} (fits : text.utf8ByteSize ≤ 0xFFFFFFFF) :
    (Script.ofText text).Stores text ∧
    ∃ nulls : List UInt32, nulls.Pairwise (· < ·) ∧
      (∀ offset, offset ∈ nulls ↔
        ∃ c, Cursor.at? (Script.ofText text) offset = some c ∧ c.look = '\x00' ∧ c.atEnd = false) ∧
      (Script.ofText text).flaws = nulls.map (fun offset => ⟨.nullByte, offset, 1⟩) ∧
      ∀ (read : FileAccess) (path : String) (act : Script → Except Fault (List String)), read path = .ok text.toUTF8 →
        (withScript read path (.ofLimit none) (.ofLimit none) act).diag.written =
          (String.join (nulls.map (nullWarning path))).toUTF8 := by
  have small : text.utf8ByteSize < UInt32.size := Nat.lt_succ_of_le fits
  refine ⟨Script.stores_ofText small, Script.nullOffsets text.toUTF8, Script.pairwise_nullOffsets _,
    Cursor.mem_nullOffsets_iff small, Script.flaws_ofText text, fun read path act found => ?_⟩
  rw [withScript_diag act (textOf_of_text found), warnings_ofText]

/-- A byte order mark, and null bytes in front of a longer character and behind it. -/
theorem script_stores_its_text_nulls :
    (Script.ofText "\ufeffa\x00é\x00").flaws = [⟨.nullByte, 4, 1⟩, ⟨.nullByte, 7, 1⟩] ∧
    (Script.ofText "\ufeffa\x00é\x00").Stores "\ufeffa\x00é\x00" ∧
    ∃ c, Cursor.at? (Script.ofText "\ufeffa\x00é\x00") 7 = some c ∧ c.look = '\x00' ∧ c.atEnd = false := by
  obtain ⟨stores, nulls, -, places, noted, -⟩ := @script_stores_its_text "\ufeffa\x00é\x00" (by decide)
  have flaws : (Script.ofText "\ufeffa\x00é\x00").flaws = [⟨.nullByte, 4, 1⟩, ⟨.nullByte, 7, 1⟩] := by
    decide +kernel
  have offsets : nulls = [4, 7] := by
    have same := congrArg (List.map Flaw.pos) (noted.symm.trans flaws)
    rw [List.map_map] at same
    exact (List.map_id nulls).symm.trans same
  refine ⟨flaws, stores, (places 7).1 ?_⟩
  rw [offsets]
  decide

end Tool

end HotkeyLex
