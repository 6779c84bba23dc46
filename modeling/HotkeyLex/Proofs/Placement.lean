import HotkeyLex.Cursor.Basic
import HotkeyLex.Proofs.Encoding

/-!
# Where a cursor stands

A cursor over bytes is understood through two lists of characters: those in front of it and those
behind. `Cursor.Between` ties the two views together, and the lemmas below say what each primitive
reading does in terms of the lists. None of the safeguards in the definitions is ever needed there:
the character is decoded from its own bytes, and the next offset neither wraps nor passes the end.
-/

namespace HotkeyLex

/-! ## The buffer of a text -/

namespace Script

theorem byteOf_eq_getD (bytes : ByteArray) (i : Nat) : byteOf bytes i = bytes.data.toList.getD i 0 := by
  unfold byteOf
  split
  · next inside =>
    rw [List.getD_eq_getElem _ _ (by simpa using inside)]
    rfl
  · next outside =>
    rw [List.getD_eq_default _ _ (by simpa using outside)]

theorem lt_paddedSize (n : Nat) : n < paddedSize n := by
  simp only [paddedSize, lineBytes]
  omega

/-- A script is its encoded text and at least one zero. -/
theorem data_ofText (text : List Char) : ∃ zeros, 0 < zeros ∧
    (ofText (String.ofList text)).buffer.data.toList = encoded text ++ List.replicate zeros 0 := by
  have room := lt_paddedSize (encoded text).toByteArray.size
  refine ⟨paddedSize (encoded text).toByteArray.size - (encoded text).toByteArray.size, by omega, ?_⟩
  simp only [ofText, padded, toUTF8_ofList, ByteArray.data_append, Array.toList_append,
    List.data_toByteArray, Array.toList_replicate]

/-- The buffer holds the bytes of the text and zeros from there on. -/
theorem byteOf_ofText (text : List Char) (i : Nat) :
    byteOf (ofText (String.ofList text)).buffer i = (encoded text).getD i 0 := by
  obtain ⟨zeros, -, data⟩ := data_ofText text
  rw [byteOf_eq_getD, data]
  by_cases inside : i < (encoded text).length
  · rw [List.getD_append _ _ _ _ inside]
  · rw [List.getD_append_right _ _ _ _ (by omega), List.getD_eq_getElem?_getD,
      List.getElem?_getD_replicate_default_eq, List.getD_eq_default _ _ (by omega)]

theorem size_lt_buffer (text : List Char) :
    byteSize text < (ofText (String.ofList text)).buffer.size := by
  obtain ⟨zeros, positive, data⟩ := data_ofText text
  have length := congrArg List.length data
  simp only [Array.length_toList, List.length_append, length_encoded, List.length_replicate] at length
  have size : (ofText (String.ofList text)).buffer.size =
      (ofText (String.ofList text)).buffer.data.size := rfl
  omega

/-- A text that does not fit is cut. -/
theorem toNat_size_eq (text : List Char) :
    (ofText (String.ofList text)).size.toNat = min (byteSize text) 0xFFFFFFFF := by
  have size : (encoded text).toByteArray.size = byteSize text := by simp
  simp only [ofText, clampSize, toUTF8_ofList, size]
  split
  · next fits =>
    rw [show (byteSize text).toUInt32.toNat = byteSize text from UInt32.toNat_ofNat_of_lt' fits]
    exact (Nat.min_eq_left (Nat.le_of_lt_succ fits)).symm
  · next long => exact (Nat.min_eq_right (Nat.le_of_succ_le (Nat.le_of_not_lt long))).symm

theorem toNat_size_ofText {text : List Char} (fits : byteSize text < UInt32.size) :
    (ofText (String.ofList text)).size.toNat = byteSize text := by
  rw [toNat_size_eq, Nat.min_eq_left (Nat.le_of_lt_succ fits)]

theorem le_size_of_isBoundary {s : Script} {offset : UInt32} (boundary : s.isBoundary offset = true) :
    offset ≤ s.size := by
  rw [isBoundary, Bool.and_eq_true, decide_eq_true_eq] at boundary
  exact boundary.1

/-- The boundaries are the offsets that split the text into characters. -/
theorem isBoundary_iff (text : List Char) (offset : UInt32) :
    (ofText (String.ofList text)).isBoundary offset = true ↔
      ∃ before rest, text = before ++ rest ∧ offset.toNat = byteSize before := by
  rw [isBoundary, Bool.and_eq_true, decide_eq_true_eq, UInt32.le_iff_toNat_le, toNat_size_eq, byteAt,
    byteOf_ofText, Bool.not_eq_true']
  constructor
  · rintro ⟨inside, leads⟩
    obtain ⟨before, rest, split, size⟩ := exists_split text offset.toNat (by omega) leads
    exact ⟨before, rest, split, size.symm⟩
  · rintro ⟨before, rest, rfl, pos⟩
    have bound := offset.toNat_lt
    have first := getD_encoded_append before rest 0
    rw [Nat.add_zero] at first
    rw [pos, first, byteSize_append]
    exact ⟨by omega, isContinuation_head rest⟩

/-- A boundary at the greatest offset is the end of the script. -/
theorem isBoundary_size_of_max {s : Script} (last : s.isBoundary 0xFFFFFFFF = true) :
    s.isBoundary s.size = true := by
  have reached : 0xFFFFFFFF ≤ s.size := le_size_of_isBoundary last
  have most : s.size = 0xFFFFFFFF := by
    have bound := s.size.toNat_lt
    rw [UInt32.le_iff_toNat_le] at reached
    rw [← UInt32.toNat_inj]
    change 4294967295 ≤ s.size.toNat at reached
    change s.size.toNat = 4294967295
    omega
  rw [most]
  exact last

/-- A byte order mark is three bytes at the beginning. -/
theorem hasMark_toByteArray (bytes : List UInt8) :
    hasMark bytes.toByteArray = true ↔ ∃ rest, bytes = 0xEF :: 0xBB :: 0xBF :: rest := by
  simp only [hasMark, byteOrderMark, byteOf_eq_getD, List.data_toByteArray, List.size_toByteArray,
    Bool.and_eq_true, decide_eq_true_eq, beq_iff_eq]
  match bytes with
  | [] | [_] | [_, _] => simp
  | a :: b :: c :: rest => simp

/-- A byte order mark is the character U+FEFF at the beginning. -/
theorem hasMark_iff (text : List Char) :
    hasMark (String.ofList text).toUTF8 = true ↔ ∃ body, text = '\ufeff' :: body := by
  have mark : String.utf8EncodeChar '\ufeff' = [0xEF, 0xBB, 0xBF] := by decide
  rw [toUTF8_ofList, hasMark_toByteArray]
  constructor
  · rintro ⟨rest, bytes⟩
    cases text with
    | nil => cases bytes
    | cons ch body =>
      obtain ⟨lead, tail, encoding⟩ := exists_encoding ch
      rw [encoded_cons, encoding.bytes, List.cons_append] at bytes
      obtain ⟨rfl, others⟩ := List.cons.inj bytes
      -- the first byte tells that the other two belong to the same character
      have width : 3 = tail.length + 1 := encoding.width
      have follow : tail = [0xBB, 0xBF] := by
        have front := congrArg (List.take 2) others
        rw [List.take_left' (by omega)] at front
        exact front
      have same : ch = '\ufeff' := by
        apply utf8EncodeChar_inj
        rw [encoding.bytes, follow, mark]
      exact ⟨body, by rw [same]⟩
  · rintro ⟨body, rfl⟩
    rw [encoded_cons, mark]
    exact ⟨encoded body, rfl⟩

/-- The bytes of one character, cut out of the buffer. -/
theorem extract_ofText (before rest : List Char) (ch : Char) :
    (ofText (String.ofList (before ++ ch :: rest))).buffer.extract (byteSize before)
      (byteSize before + ch.utf8Size) = [ch].utf8Encode := by
  obtain ⟨zeros, -, data⟩ := data_ofText (before ++ ch :: rest)
  apply ByteArray.ext
  apply Array.toList_inj.1
  rw [ByteArray.data_extract, Array.toList_extract, data, List.extract, encoded_append, encoded_cons,
    List.append_assoc, List.append_assoc, List.drop_left' (length_encoded before),
    Nat.add_sub_cancel_left, List.take_left' (String.length_utf8EncodeChar ch)]
  simp [List.utf8Encode]

end Script

/-! ## Characters in front of a cursor and behind it -/

namespace Cursor

/-- The cursor stands in a script right behind `before`, with `rest` up to the end. What lies
`beyond` is text that the size of the script leaves out; offsets of 32 bits do not reach it. Nothing
is said about the token that is being built. -/
structure Between (c : Cursor) (before rest beyond : List Char) : Prop where
  script : c.script = Script.ofText (String.ofList (before ++ (rest ++ beyond)))
  size : c.script.size.toNat = byteSize (before ++ rest)
  pos : c.pos.toNat = byteSize before

/-- What is read depends on the script and the offset alone. -/
theorem Between.of_place {c d : Cursor} {before rest beyond : List Char} (h : c.Between before rest beyond)
    (script : d.script = c.script) (pos : d.pos = c.pos) : d.Between before rest beyond :=
  ⟨by rw [script, h.script], by rw [script, h.size], by rw [pos, h.pos]⟩

namespace Between

variable {c : Cursor} {before rest beyond : List Char} {ch : Char}

theorem pos_le_size (h : c.Between before rest beyond) : c.pos.toNat ≤ c.script.size.toNat := by
  rw [h.size, h.pos, byteSize_append]
  omega

theorem size_lt_buffer (h : c.Between before rest beyond) : c.script.size.toNat < c.script.buffer.size := by
  have room := Script.size_lt_buffer (before ++ (rest ++ beyond))
  rw [h.size, h.script]
  simp only [byteSize_append] at room ⊢
  omega

/-- The bytes from the cursor on are those of the characters behind it. -/
theorem byteOf (h : c.Between before rest beyond) (k : Nat) :
    Script.byteOf c.script.buffer (c.pos.toNat + k) = (encoded (rest ++ beyond)).getD k 0 := by
  rw [h.script, h.pos, Script.byteOf_ofText, getD_encoded_append]

theorem byteAt (h : c.Between before rest beyond) :
    c.script.byteAt c.pos = (encoded (rest ++ beyond)).getD 0 0 :=
  h.byteOf 0

/-- The end is where nothing is left. -/
theorem atEnd_iff (h : c.Between before rest beyond) : c.atEnd = true ↔ rest = [] := by
  have size := h.size
  have pos := h.pos
  rw [byteSize_append] at size
  rw [atEnd, decide_eq_true_eq, UInt32.le_iff_toNat_le, ← byteSize_eq_zero_iff]
  omega

/-- The leading byte tells the length of the next character. -/
theorem width (h : c.Between before (ch :: rest) beyond) :
    (Script.leadWidth (c.script.byteAt c.pos)).toNat = ch.utf8Size := by
  obtain ⟨lead, tail, encoding⟩ := exists_encoding ch
  rw [h.byteAt, List.cons_append, encoded_cons, encoding.bytes, encoding.utf8Size]
  exact encoding.width

/-- The next character lies whole in front of the end of the text. -/
theorem width_le (h : c.Between before (ch :: rest) beyond) :
    c.pos.toNat + (Script.leadWidth (c.script.byteAt c.pos)).toNat ≤ c.script.size.toNat := by
  rw [h.width, h.size, h.pos, byteSize_append, byteSize_cons]
  omega

/-- The bytes of the next character are decoded without a fallback. -/
theorem decode (h : c.Between before (ch :: rest) beyond) :
    (c.script.buffer.extract c.pos.toNat
      (c.pos.toNat + (Script.leadWidth (c.script.byteAt c.pos)).toNat)).utf8DecodeChar? 0 = some ch := by
  rw [h.width, h.script, h.pos, List.cons_append, Script.extract_ofText]
  exact List.utf8DecodeChar?_utf8Encode_singleton

theorem look_nil (h : c.Between before [] []) : c.look = '\x00' := by
  have zero : c.script.byteAt c.pos = 0 := h.byteAt
  simp [look, Script.charAt, zero]

/-- The next character is read as it stands in the text. -/
theorem look_cons (h : c.Between before (ch :: rest) beyond) : c.look = ch := by
  obtain ⟨lead, tail, encoding⟩ := exists_encoding ch
  have first : c.script.byteAt c.pos = lead := by
    rw [h.byteAt, List.cons_append, encoded_cons, encoding.bytes]
    rfl
  have whole := h.width_le
  have decoded := h.decode
  rw [first] at whole decoded
  rw [look, Script.charAt, first]
  by_cases ascii : lead < 0x80
  · rw [if_pos ascii, ← encoding.narrow (UInt8.lt_iff_toNat_lt.1 ascii), Char.ofNat_toNat]
  · simp only [if_neg ascii, Nat.min_eq_left whole, decoded, Option.getD_some]

/-- The next offset is the sum of the two words, which neither wraps nor passes the end. -/
theorem nextPos_eq (h : c.Between before (ch :: rest) beyond) :
    c.nextPos = c.pos + Script.leadWidth (c.script.byteAt c.pos) := by
  have whole := h.width_le
  have bound := c.script.size.toNat_lt
  apply Std.LawfulOrderLeftLeaningMin.min_eq_left
  rw [UInt32.le_iff_toNat_le, UInt32.toNat_add]
  omega

/-- The next offset lies behind the next character. -/
theorem toNat_nextPos (h : c.Between before (ch :: rest) beyond) :
    c.nextPos.toNat = byteSize (before ++ [ch]) := by
  have whole := h.width_le
  have bound := c.script.size.toNat_lt
  rw [h.nextPos_eq, UInt32.toNat_add, h.width, h.pos, byteSize_append, byteSize_cons, byteSize_nil]
  rw [h.width, h.pos] at whole
  omega

end Between

/-! ## Places a cursor may be put -/

/-- A boundary of a script lies between two characters, if the script does not end inside of one. -/
theorem exists_between {text : String} {c : Cursor} (script : c.script = Script.ofText text)
    (whole : c.script.isBoundary c.script.size = true) (placed : c.script.isBoundary c.pos = true) :
    ∃ before rest beyond, text.toList = before ++ (rest ++ beyond) ∧ c.Between before rest beyond := by
  obtain ⟨chars, rfl⟩ := text.exists_eq_ofList
  have bound : c.script.size.toNat ≤ byteSize chars := by
    rw [script, Script.toNat_size_eq]
    exact Nat.min_le_left _ _
  simp only [Script.isBoundary, Bool.and_eq_true, decide_eq_true_eq, UInt32.le_iff_toNat_le, Script.byteAt,
    Bool.not_eq_true'] at whole placed
  rw [script, Script.byteOf_ofText, ← script] at whole placed
  obtain ⟨before, behind, rfl, start⟩ := exists_split chars c.pos.toNat (Nat.le_trans placed.1 bound) placed.2
  -- the end of the script splits what is behind the cursor once more
  have length : c.script.size.toNat = byteSize before + (c.script.size.toNat - byteSize before) := by omega
  rw [length, getD_encoded_append] at whole
  rw [byteSize_append] at bound
  obtain ⟨rest, beyond, rfl, stop⟩ := exists_split behind _ (by omega) whole.2
  exact ⟨before, rest, beyond, String.toList_ofList, script, by rw [byteSize_append]; omega, start.symm⟩

/-- Between two parts of a text there is a boundary. -/
theorem Between.isBoundary {c : Cursor} {before rest beyond : List Char} (h : c.Between before rest beyond) :
    c.script.isBoundary c.pos = true := by
  rw [h.script, Script.isBoundary_iff]
  exact ⟨before, rest ++ beyond, rfl, h.pos⟩

/-- A text whose size fits in 32 bits is read to its end. -/
theorem between_ofText {before rest : List Char} (fits : byteSize (before ++ rest) < UInt32.size) {c : Cursor}
    (script : c.script = Script.ofText (String.ofList (before ++ rest))) (pos : c.pos.toNat = byteSize before) :
    c.Between before rest [] where
  script := by rw [List.append_nil, script]
  size := by rw [script, Script.toNat_size_ofText fits]
  pos := pos

/-- The end of such a text is a boundary of its script. -/
theorem isBoundary_size {text : String} (fits : text.utf8ByteSize < UInt32.size) :
    (Script.ofText text).isBoundary (Script.ofText text).size = true := by
  obtain ⟨chars, rfl⟩ := text.exists_eq_ofList
  rw [utf8ByteSize_ofList] at fits
  rw [Script.isBoundary_iff]
  exact ⟨chars, [], (List.append_nil chars).symm, Script.toNat_size_ofText fits⟩

/-- In a script of such a text a boundary has nothing beyond its rest. -/
theorem exists_between_ofText {text : String} (fits : text.utf8ByteSize < UInt32.size) {c : Cursor}
    (script : c.script = Script.ofText text) (placed : c.script.isBoundary c.pos = true) :
    ∃ before rest, text.toList = before ++ rest ∧ c.Between before rest [] := by
  have whole : c.script.isBoundary c.script.size = true := by
    rw [script]
    exact isBoundary_size fits
  obtain ⟨before, rest, beyond, same, between⟩ := exists_between script whole placed
  obtain ⟨chars, rfl⟩ := text.exists_eq_ofList
  rw [utf8ByteSize_ofList] at fits
  rw [String.toList_ofList] at same ⊢
  have nothing : beyond = [] := by
    have size := between.size
    rw [script, Script.toNat_size_ofText fits, same] at size
    rw [← byteSize_eq_zero_iff]
    simp only [byteSize_append] at size
    omega
  subst nothing
  exact ⟨before, rest, by rw [same, List.append_nil], between⟩

/-- The cursors that a script hands out. -/
inductive Opened (s : Script) : Cursor → Prop where
  | body : Opened s (ofScript s)
  | place (offset : UInt32) (c : Cursor) (found : at? s offset = some c) : Opened s c

/-- The body begins at a boundary, with a byte order mark or without. -/
theorem isBoundary_bodyStart (text : String) :
    (Script.ofText text).isBoundary (Script.ofText text).bodyStart = true := by
  obtain ⟨chars, rfl⟩ := text.exists_eq_ofList
  rw [Script.isBoundary_iff]
  by_cases marked : Script.hasMark (String.ofList chars).toUTF8 = true
  · rw [show (Script.ofText (String.ofList chars)).bodyStart = 3 from if_pos marked]
    obtain ⟨body, rfl⟩ := (Script.hasMark_iff chars).1 marked
    exact ⟨['\ufeff'], body, rfl, rfl⟩
  · rw [show (Script.ofText (String.ofList chars)).bodyStart = 0 from if_neg marked]
    exact ⟨[], chars, rfl, rfl⟩

/-- A cursor that a script hands out has read nothing and stands at a position. -/
theorem Opened.isPosition {text : String} {c : Cursor} (h : Opened (Script.ofText text) c) :
    c = fresh (Script.ofText text) c.pos ∧ (Script.ofText text).isPosition c.pos = true := by
  cases h with
  | body =>
    refine ⟨rfl, ?_⟩
    rw [Script.isPosition, Bool.and_eq_true, decide_eq_true_eq]
    exact ⟨UInt32.le_refl _, isBoundary_bodyStart text⟩
  | place offset c found =>
    rw [at?] at found
    split at found
    · next position =>
      cases found
      exact ⟨rfl, position⟩
    · cases found

theorem Opened.isBoundary {text : String} {c : Cursor} (h : Opened (Script.ofText text) c) :
    c.script = Script.ofText text ∧ c.script.isBoundary c.pos = true := by
  obtain ⟨same, position⟩ := h.isPosition
  have script : c.script = Script.ofText text := congrArg Cursor.script same
  rw [Script.isPosition, Bool.and_eq_true] at position
  exact ⟨script, script ▸ position.2⟩

/-- A cursor that a script hands out cuts its text in two. -/
theorem Opened.between {text : String} (fits : text.utf8ByteSize < UInt32.size) {c : Cursor}
    (h : Opened (Script.ofText text) c) :
    ∃ before rest, text.toList = before ++ rest ∧ c.Between before rest [] := by
  obtain ⟨script, placed⟩ := h.isBoundary
  exact exists_between_ofText fits script placed

end Cursor

end HotkeyLex
