import HotkeyLex.Script
import HotkeyLex.Text.CharClass
import Mathlib.Data.List.GetD

/-!
# The bytes of a text

A character is a leading byte and some continuation bytes. The leading byte alone tells how many
bytes there are, no continuation byte can be taken for a leading one, and a byte below 128 is always
a whole character. `exists_encoding` says this once; everything about offsets in a text follows from
it: which offsets lie between two characters (`exists_split`), and that a search for a byte of ASCII
cannot end inside a character (`isParenByte_encodeChar`).
-/

namespace HotkeyLex

/-- The UTF-8 bytes of a list of characters. -/
def encoded (text : List Char) : List UInt8 := text.flatMap String.utf8EncodeChar

/-- Number of UTF-8 bytes of a list of characters. -/
def byteSize : List Char → Nat
  | [] => 0
  | ch :: text => ch.utf8Size + byteSize text

@[simp] theorem byteSize_nil : byteSize [] = 0 := rfl

@[simp] theorem byteSize_cons (ch : Char) (text : List Char) :
    byteSize (ch :: text) = ch.utf8Size + byteSize text := rfl

@[simp] theorem byteSize_append (a b : List Char) : byteSize (a ++ b) = byteSize a + byteSize b := by
  induction a with
  | nil => simp
  | cons ch a ih => rw [List.cons_append, byteSize_cons, byteSize_cons, ih, Nat.add_assoc]

@[simp] theorem encoded_nil : encoded [] = [] := rfl

@[simp] theorem encoded_cons (ch : Char) (text : List Char) :
    encoded (ch :: text) = String.utf8EncodeChar ch ++ encoded text := by
  simp [encoded]

@[simp] theorem encoded_append (a b : List Char) : encoded (a ++ b) = encoded a ++ encoded b := by
  simp [encoded]

/-- The size of a text is the number of its bytes. -/
@[simp] theorem length_encoded (text : List Char) : (encoded text).length = byteSize text := by
  induction text with
  | nil => rfl
  | cons ch text ih => rw [encoded_cons, List.length_append, String.length_utf8EncodeChar, ih, byteSize_cons]

/-- A text is empty exactly if it has no bytes. -/
theorem byteSize_pos_iff {text : List Char} : 0 < byteSize text ↔ 0 < text.length := by
  cases text with
  | nil => simp
  | cons ch text =>
    have positive := ch.utf8Size_pos
    simp only [byteSize_cons, List.length_cons]
    omega

theorem byteSize_eq_zero_iff {text : List Char} : byteSize text = 0 ↔ text = [] := by
  have positive := @byteSize_pos_iff text
  rw [← List.length_eq_zero_iff]
  omega

/-- A text has no more characters than bytes. -/
theorem length_le_byteSize (text : List Char) : text.length ≤ byteSize text := by
  induction text with
  | nil => simp
  | cons ch text ih =>
    have positive := ch.utf8Size_pos
    simp only [byteSize_cons, List.length_cons]
    omega

/-- The bytes of a text are those of its characters in order. -/
theorem toUTF8_ofList (text : List Char) :
    (String.ofList text).toUTF8 = (encoded text).toByteArray := by
  rw [String.toUTF8_eq_toByteArray, String.toByteArray_ofList]
  rfl

theorem utf8ByteSize_ofList (text : List Char) : (String.ofList text).utf8ByteSize = byteSize text := by
  rw [String.utf8ByteSize, String.toByteArray_ofList, ← length_encoded]
  exact List.size_toByteArray

/-! ## Leading and continuation bytes -/

/-- The width of a character by the range of its first byte. -/
theorem leadWidth_toNat (lead : UInt8) : (Script.leadWidth lead).toNat =
    if 0xC0 ≤ lead.toNat ∧ lead.toNat ≤ 0xDF then 2
    else if 0xE0 ≤ lead.toNat ∧ lead.toNat ≤ 0xEF then 3
    else if 0xF0 ≤ lead.toNat ∧ lead.toNat ≤ 0xF7 then 4
    else 1 := by
  simp only [Script.leadWidth, UInt8.le_iff_toNat_le, Bool.and_eq_true, decide_eq_true_eq,
    apply_ite UInt32.toNat]
  rfl

theorem isContinuation_iff (b : UInt8) :
    Script.isContinuation b = true ↔ 0x80 ≤ b.toNat ∧ b.toNat ≤ 0xBF := by
  simp [Script.isContinuation, UInt8.le_iff_toNat_le]

/-- Six bits of a number under the mark of a continuation byte. -/
theorem isContinuation_low (n : Nat) : Script.isContinuation (UInt8.ofNat (n % 0x40 + 0x80)) := by
  rw [isContinuation_iff, UInt8.toNat_ofNat']
  omega

/-- The bytes of a character, taken apart. -/
structure Encoding (ch : Char) (lead : UInt8) (tail : List UInt8) : Prop where
  bytes : String.utf8EncodeChar ch = lead :: tail
  width : (Script.leadWidth lead).toNat = tail.length + 1
  leads : Script.isContinuation lead = false
  follow : ∀ b ∈ tail, Script.isContinuation b
  narrow : lead.toNat < 0x80 → ch.toNat = lead.toNat
  wide : 0x80 ≤ lead.toNat → 0x80 ≤ ch.toNat

namespace Encoding

/-- The four lengths of an encoding by the range of its leading byte. -/
theorem of_range {ch : Char} {lead : UInt8} {tail : List UInt8}
    (bytes : String.utf8EncodeChar ch = lead :: tail)
    (range : lead.toNat < 0x80 ∧ ch.toNat = lead.toNat ∧ tail.length = 0 ∨
      0x80 ≤ ch.toNat ∧ (0xC0 ≤ lead.toNat ∧ lead.toNat ≤ 0xDF ∧ tail.length = 1 ∨
        0xE0 ≤ lead.toNat ∧ lead.toNat ≤ 0xEF ∧ tail.length = 2 ∨
        0xF0 ≤ lead.toNat ∧ lead.toNat ≤ 0xF7 ∧ tail.length = 3))
    (follow : ∀ b ∈ tail, Script.isContinuation b) : Encoding ch lead tail where
  bytes := bytes
  width := by
    rw [leadWidth_toNat]
    split
    · omega
    · split
      · omega
      · split <;> omega
  leads := by
    rw [Bool.eq_false_iff, ne_eq, isContinuation_iff]
    omega
  follow := follow
  narrow := by omega
  wide := by omega

variable {ch : Char} {lead : UInt8} {tail : List UInt8}

/-- A character has as many bytes as its first one tells. -/
theorem utf8Size (h : Encoding ch lead tail) : ch.utf8Size = tail.length + 1 := by
  rw [← String.length_utf8EncodeChar, h.bytes, List.length_cons]

/-- Behind the first byte of a character there are continuation bytes only. -/
theorem isContinuation_getD (h : Encoding ch lead tail) {k : Nat} (inside : 0 < k)
    (bound : k < ch.utf8Size) (rest : List UInt8) :
    Script.isContinuation ((String.utf8EncodeChar ch ++ rest).getD k 0) := by
  have size := h.utf8Size
  rw [List.getD_append _ _ _ _ (by rw [String.length_utf8EncodeChar]; exact bound), h.bytes]
  obtain ⟨k, rfl⟩ : ∃ j, k = j + 1 := ⟨k - 1, by omega⟩
  rw [List.getD_cons_succ, List.getD_eq_getElem _ _ (by omega)]
  exact h.follow _ (List.getElem_mem _)

end Encoding

/-- Every character has an encoding. -/
theorem exists_encoding (ch : Char) : ∃ lead tail, Encoding ch lead tail := by
  have scalar : ch.toNat < 0x110000 := by
    have valid := ch.valid
    simp only [UInt32.isValidChar, Nat.isValidChar] at valid
    simp only [Char.toNat]
    omega
  have bytes := Eq.refl (String.utf8EncodeChar ch)
  conv at bytes => rhs; simp only [String.utf8EncodeChar, show ch.val.toNat = ch.toNat from rfl]
  split at bytes
  · exact ⟨_, _, .of_range bytes (by simp; omega) (by simp)⟩
  · split at bytes
    · exact ⟨_, _, .of_range bytes (by simp; omega) (by simp [isContinuation_low, -UInt8.ofNat_add])⟩
    · split at bytes
      · exact ⟨_, _, .of_range bytes (by simp; omega) (by simp [isContinuation_low, -UInt8.ofNat_add])⟩
      · exact ⟨_, _, .of_range bytes (by simp; omega) (by simp [isContinuation_low, -UInt8.ofNat_add])⟩

/-- No two characters are encoded alike. -/
theorem utf8EncodeChar_inj {a b : Char} (same : String.utf8EncodeChar a = String.utf8EncodeChar b) : a = b := by
  have bytes : [a].utf8Encode = [b].utf8Encode := by simp [List.utf8Encode, same]
  have decoded := @List.utf8DecodeChar?_utf8Encode_singleton a
  rw [bytes, List.utf8DecodeChar?_utf8Encode_singleton] at decoded
  exact (Option.some.inj decoded).symm

/-- The characters of ASCII are those of one byte. -/
theorem utf8Size_eq_one_iff {ch : Char} : ch.utf8Size = 1 ↔ ch.toNat < 0x80 := by
  rw [Char.utf8Size_eq_one_iff, UInt32.le_iff_toNat_le]
  exact Nat.lt_succ_iff.symm

/-! ## Offsets in a text -/

/-- Bytes behind a front part are the bytes of the rest. -/
theorem getD_encoded_append (before rest : List Char) (k : Nat) :
    (encoded (before ++ rest)).getD (byteSize before + k) 0 = (encoded rest).getD k 0 := by
  rw [encoded_append, List.getD_append_right _ _ _ _ (by simp), length_encoded, Nat.add_sub_cancel_left]

/-- The byte right behind a character, or behind the whole text, is no continuation byte. -/
theorem isContinuation_head (text : List Char) :
    Script.isContinuation ((encoded text).getD 0 0) = false := by
  cases text with
  | nil => rfl
  | cons ch text =>
    obtain ⟨lead, tail, h⟩ := exists_encoding ch
    rw [encoded_cons, h.bytes]
    exact h.leads

/-- An offset without a continuation byte lies between two characters. -/
theorem exists_split (text : List Char) (i : Nat) (bound : i ≤ byteSize text)
    (boundary : Script.isContinuation ((encoded text).getD i 0) = false) :
    ∃ before rest, text = before ++ rest ∧ byteSize before = i := by
  induction text generalizing i with
  | nil => exact ⟨[], [], rfl, by simp only [byteSize_nil] at bound ⊢; omega⟩
  | cons ch text ih =>
    obtain ⟨lead, tail, h⟩ := exists_encoding ch
    by_cases first : i = 0
    · exact ⟨[], ch :: text, rfl, by rw [first]; rfl⟩
    by_cases inside : i < ch.utf8Size
    · have follows := h.isContinuation_getD (Nat.pos_of_ne_zero first) inside (encoded text)
      rw [encoded_cons, follows] at boundary
      cases boundary
    · -- the offset is behind the first character, where the text goes on
      have shift : i = byteSize [ch] + (i - ch.utf8Size) := by simp; omega
      rw [shift, ← List.singleton_append, getD_encoded_append] at boundary
      have room : i - ch.utf8Size ≤ byteSize text := by simp only [byteSize_cons] at bound; omega
      obtain ⟨before, rest, same, size⟩ := ih _ room boundary
      exact ⟨ch :: before, rest, by rw [same]; rfl, by rw [byteSize_cons, size]; omega⟩

/-- Of two cuts through a text, the one with fewer bytes in front comes first. -/
theorem split_of_byteSize_le {a b c d : List Char} (same : a ++ b = c ++ d) (near : byteSize a ≤ byteSize c) :
    ∃ middle, c = a ++ middle ∧ b = middle ++ d := by
  rcases List.append_eq_append_iff.1 same with ⟨middle, first, last⟩ | ⟨middle, rfl, rfl⟩
  · exact ⟨middle, first, last⟩
  · rw [byteSize_append] at near
    obtain rfl : middle = [] := byteSize_eq_zero_iff.1 (by omega)
    exact ⟨[], by simp, by simp⟩

/-- A cut is given by the number of bytes in front of it. -/
theorem split_unique {a b c d : List Char} (same : a ++ b = c ++ d) (size : byteSize a = byteSize c) :
    a = c ∧ b = d := by
  obtain ⟨middle, rfl, rfl⟩ := split_of_byteSize_le same (Nat.le_of_eq size)
  rw [byteSize_append] at size
  obtain rfl : middle = [] := byteSize_eq_zero_iff.1 (by omega)
  exact ⟨by simp, by simp⟩

/-! ## Parentheses -/

theorem isParenByte_iff (b : UInt8) : Script.isParenByte b = true ↔ b.toNat = 0x28 ∨ b.toNat = 0x29 := by
  simp [Script.isParenByte, ← UInt8.toNat_inj]

theorem isParen_iff (ch : Char) : isParen ch = true ↔ ch.toNat = 0x28 ∨ ch.toNat = 0x29 := by
  simp [isParen, ← Char.toNat_inj]

/-- A character is a parenthesis exactly if its first byte is the byte of one. -/
theorem isParenByte_lead {ch : Char} {lead : UInt8} {tail : List UInt8} (h : Encoding ch lead tail) :
    Script.isParenByte lead = isParen ch := by
  have narrow := h.narrow
  have wide := h.wide
  rw [Bool.eq_iff_iff, isParenByte_iff, isParen_iff]
  omega

/-- No byte of another character is the byte of a parenthesis. -/
theorem isParenByte_encodeChar {ch : Char} (other : isParen ch = false) :
    ∀ b ∈ String.utf8EncodeChar ch, Script.isParenByte b = false := by
  obtain ⟨lead, tail, h⟩ := exists_encoding ch
  intro b member
  rw [h.bytes, List.mem_cons] at member
  rcases member with rfl | member
  · rw [isParenByte_lead h, other]
  · have range := (isContinuation_iff b).1 (h.follow b member)
    rw [Bool.eq_false_iff, ne_eq, isParenByte_iff]
    omega

end HotkeyLex
