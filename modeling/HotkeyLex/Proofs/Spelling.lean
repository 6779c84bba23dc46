import HotkeyLex.Choice
import HotkeyLex.Proofs.Placement

/-!
# What the rules see of a character

No rule cares about the case of a letter, about which blank it meets, or about which character
outside ASCII. `plain` forgets these differences, and a question about characters that can be asked
of the plain ones is `Coarse`. Every class of characters is coarse, and so are the comparisons with
single characters and letters that the rules make.

The plain form of the character at an offset can be told from the byte there alone, whatever bytes
follow (`plain_charAt`).
-/

namespace HotkeyLex

/-- A letter without its case, a space for a blank, and one character for all outside ASCII. -/
def plain (ch : Char) : Char :=
  if 0x80 ≤ ch.toNat then '\u0080' else if ch == '\t' then ' ' else ch.toLower

/-- The answer depends on the plain form of a character alone. -/
def Coarse {α : Type} (p : Char → α) : Prop := ∀ ch, p (plain ch) = p ch

/-- Characters of one plain form have one image under a coarse function. -/
theorem Coarse.eq {α : Type} {p : Char → α} (h : Coarse p) {a b : Char} (same : plain a = plain b) :
    p a = p b := by
  rw [← h a, same, h b]

/-- All characters outside of ASCII have one plain form. -/
theorem plain_wide {ch : Char} (wide : 0x80 ≤ ch.toNat) : plain ch = '\u0080' := if_pos wide

theorem ne_of_wide {ch x : Char} (wide : 0x80 ≤ ch.toNat) (ascii : x.toNat < 0x80) : ch ≠ x := by
  rintro rfl
  omega

/-- A question is coarse if that shows on the 128 characters of ASCII and all others get one answer. -/
theorem coarse_of {p : Char → Bool} (ascii : ∀ n : Fin 128, p (plain (Char.ofNat n)) = p (Char.ofNat n))
    (wide : ∀ ch : Char, 0x80 ≤ ch.toNat → p ch = p '\u0080') : Coarse p := by
  intro ch
  by_cases far : 0x80 ≤ ch.toNat
  · rw [plain_wide far, wide ch far]
  · have near := ascii ⟨ch.toNat, by omega⟩
    rwa [Char.ofNat_toNat] at near

/-! ## Classes -/

theorem isAlphanum_wide {ch : Char} (wide : 0x80 ≤ ch.toNat) : ch.isAlphanum = false := by
  delta Char.isAlphanum Char.isAlpha Char.isUpper Char.isLower Char.isDigit
  simp only [ge_iff_le, UInt32.le_iff_toNat_le, Bool.or_eq_false_iff, Bool.and_eq_false_iff,
    decide_eq_false_iff_not]
  simp
  omega

/-- Only letters of ASCII have a lower case here. -/
theorem toLower_wide {ch : Char} (wide : 0x80 ≤ ch.toNat) : ch.toLower = ch := by
  delta Char.toLower
  simp [UInt32.le_iff_toNat_le]
  omega

theorem isWordChar_wide {ch : Char} (wide : 0x80 ≤ ch.toNat) : isWordChar ch = false := by
  simp [isWordChar, isAlphanum_wide wide, ne_of_wide wide]

/-- Whether a character belongs to a word does not depend on its case. -/
theorem coarse_isWordChar : Coarse isWordChar := by
  apply coarse_of
  · decide +kernel
  · intro ch wide
    rw [isWordChar_wide wide]
    rfl

/-- The two blanks have one plain form, so the class cannot tell them apart. -/
theorem coarse_isBlank : Coarse isBlank := by
  apply coarse_of
  · decide +kernel
  · intro ch wide
    simp [isBlank, ne_of_wide wide]

/-! ## Single characters -/

/-- Only letters have another case, which is a letter too. -/
theorem toLower_ascii : ∀ n : Fin 128, (Char.ofNat n).toLower = Char.ofNat n ∨
    (Char.ofNat n).isAlpha = true ∧ (Char.ofNat n).toLower.isAlpha = true := by
  decide +kernel

theorem toLower_toLower_ascii : ∀ n : Fin 128,
    (Char.ofNat n).toLower.toLower = (Char.ofNat n).toLower := by
  decide +kernel

/-- The plain form of a character of ASCII is its lower case, the tab apart. -/
theorem plain_narrow {ch : Char} (narrow : ch.toNat < 0x80) (solid : ch ≠ '\t') :
    plain ch = ch.toLower := by
  rw [plain, if_neg (by omega), if_neg (by simpa using solid)]

/-- Neither a letter nor a blank nor outside ASCII. -/
def Firm (x : Char) : Prop := x.toNat < 0x80 ∧ isBlank x = false ∧ x.isAlpha = false

instance (x : Char) : Decidable (Firm x) := inferInstanceAs (Decidable (_ ∧ _ ∧ _))

/-- Such a character is its own plain form, and that of no other. -/
theorem Firm.plain_eq_iff {x : Char} (firm : Firm x) (ch : Char) : plain ch = x ↔ ch = x := by
  obtain ⟨ascii, solid, other⟩ := firm
  by_cases wide : 0x80 ≤ ch.toNat
  · rw [plain_wide wide]
    exact iff_of_false (ne_of_wide (by decide) ascii) (ne_of_wide wide ascii)
  by_cases tab : ch = '\t'
  · subst tab
    constructor
    · rintro rfl
      cases solid
    · rintro rfl
      cases solid
  rw [plain_narrow (by omega) tab]
  have change := toLower_ascii ⟨ch.toNat, by omega⟩
  rw [Char.ofNat_toNat] at change
  rcases change with same | ⟨letter, lower⟩
  · rw [same]
  · constructor
    · rintro rfl
      simp [lower] at other
    · rintro rfl
      simp [letter] at other

/-- A firm character is told from all others by the plain form. -/
theorem Firm.coarse {x : Char} (firm : Firm x) : Coarse (· == x) := by
  intro ch
  rw [Bool.eq_iff_iff, beq_iff_eq, beq_iff_eq, firm.plain_eq_iff]

theorem Firm.beq_eq {x a b : Char} (firm : Firm x) (same : plain a = plain b) : (a == x) = (b == x) :=
  firm.coarse.eq same

/-- A sign stands for itself. -/
theorem eq_of_isSign {a b : Char} (same : plain a = plain b) (sign : isSign a = true) : a = b := by
  simp only [isSign, Bool.or_eq_true, beq_iff_eq] at sign
  rcases sign with rfl | rfl
  · exact (((show Firm '+' by decide).plain_eq_iff b).1 same.symm).symm
  · exact (((show Firm '-' by decide).plain_eq_iff b).1 same.symm).symm

/-- A question about letters regardless of case. -/
theorem coarse_toLower {p : Char → Bool} (blank : p ' ' = p '\t')
    (wide : ∀ ch : Char, 0x80 ≤ ch.toNat → p ch = p '\u0080') : Coarse fun ch => p ch.toLower := by
  intro ch
  simp only
  by_cases far : 0x80 ≤ ch.toNat
  · rw [plain_wide far, toLower_wide far, toLower_wide (by decide), wide ch far]
  by_cases tab : ch = '\t'
  · subst tab
    exact blank
  have twice := toLower_toLower_ascii ⟨ch.toNat, by omega⟩
  rw [Char.ofNat_toNat] at twice
  rw [plain_narrow (by omega) tab, twice]

/-- Comparison with a letter in either case. -/
theorem coarse_letter {x : Char} (ascii : x.toNat < 0x80) (solid : isBlank x = false) :
    Coarse fun ch => ch.toLower == x := by
  refine coarse_toLower (p := (· == x)) ?_ fun ch wide => ?_
  · have space : ' ' ≠ x := by rintro rfl; cases solid
    have tab : '\t' ≠ x := by rintro rfl; cases solid
    simp [space, tab]
  · have far : ch ≠ x := ne_of_wide wide ascii
    have bound : '\u0080' ≠ x := ne_of_wide (by decide) ascii
    simp [far, bound]

/-- A word character is kept up to its case. -/
theorem toLower_eq_of_isWordChar {a b : Char} (same : plain a = plain b) (word : isWordChar a = true) :
    a.toLower = b.toLower := by
  have keeps : ∀ ch, isWordChar ch = true → plain ch = ch.toLower := by
    intro ch inside
    apply plain_narrow
    · apply Nat.lt_of_not_le
      intro wide
      rw [isWordChar_wide wide] at inside
      cases inside
    · rintro rfl
      cases inside
  rw [← keeps a word, same, keeps b (coarse_isWordChar.eq same ▸ word)]

/-! ## Questions made of others -/

theorem Coarse.or {p q : Char → Bool} (first : Coarse p) (second : Coarse q) : Coarse fun ch => p ch || q ch := by
  intro ch
  simp only [first ch, second ch]

/-- A list of firm characters is a coarse class. -/
theorem coarse_contains {l : List Char} (firm : l.all (fun x => Firm x) = true) : Coarse l.contains := by
  intro ch
  simp only [List.all_eq_true, decide_eq_true_eq] at firm
  rw [Bool.eq_iff_iff, List.contains_iff_mem, List.contains_iff_mem]
  constructor
  · intro member
    rwa [((firm _ member).plain_eq_iff ch).1 rfl]
  · intro member
    rwa [((firm _ member).plain_eq_iff ch).2 rfl]

theorem coarse_isSpace : Coarse isSpace :=
  (coarse_isBlank.or (Firm.coarse (by decide))).or (Firm.coarse (by decide))

theorem coarse_isLineEnd : Coarse isLineEnd :=
  ((Firm.coarse (by decide)).or (Firm.coarse (by decide))).or (Firm.coarse (by decide))

theorem coarse_beginsOperator : Coarse beginsOperator := coarse_contains (by decide)

theorem coarse_isSign : Coarse isSign := (Firm.coarse (by decide)).or (Firm.coarse (by decide))

theorem coarse_beginsOperand : Coarse beginsOperand := coarse_isWordChar.or (coarse_contains (by decide))

theorem coarse_mayFollowOptional : Coarse mayFollowOptional := coarse_contains (by decide)

/-- Operators spelled as words begin with letters in either case. -/
theorem coarse_beginsVerb : Coarse beginsVerb := by
  apply coarse_toLower
  · decide
  · intro ch wide
    simp [ne_of_wide wide]

theorem coarse_isParen : Coarse isParen := (Firm.coarse (by decide)).or (Firm.coarse (by decide))

/-- What is not glued is a blank, a line end or null. -/
theorem coarse_isGlued : Coarse Rule.isGlued := by
  intro ch
  simp only [Rule.isGlued, bne, coarse_isSpace ch, (show Firm '\x00' by decide).coarse ch]

/-! ## Characters by their first byte -/

/-- The plain form of a character that begins with a byte. -/
def plainLead (lead : UInt8) : Char := if lead < 0x80 then plain (Char.ofNat lead.toNat) else '\u0080'

/-- A parenthesis is told from its byte. -/
theorem isParenByte_eq (b : UInt8) : Script.isParenByte b = isParen (plainLead b) := by
  have all : ∀ n : Fin 256, Script.isParenByte (UInt8.ofNat n) = isParen (plainLead (UInt8.ofNat n)) := by
    decide +kernel
  have one := all ⟨b.toNat, b.toNat_lt⟩
  rwa [UInt8.ofNat_toNat] at one

namespace Script

/-- Whatever is decoded from a byte outside ASCII is outside ASCII. -/
theorem wide_of_decoded {bytes : ByteArray} {i stop : Nat} {ch : Char}
    (decoded : (bytes.extract i stop).utf8DecodeChar? 0 = some ch) (wide : 0x80 ≤ (byteOf bytes i).toNat) :
    0x80 ≤ ch.toNat := by
  obtain ⟨rest, whole⟩ := ByteArray.exists_of_utf8DecodeChar?_eq_some decoded
  obtain ⟨lead, tail, encoding⟩ := exists_encoding ch
  have first : (bytes.extract i stop).data.toList[0]? = some lead := by
    rw [whole, ByteArray.data_append, Array.toList_append]
    simp [encoding.bytes]
  rw [ByteArray.data_extract, Array.toList_extract, List.extract, List.getElem?_take] at first
  split at first
  · rw [List.getElem?_drop, Nat.add_zero] at first
    rw [byteOf_eq_getD, List.getD_eq_getElem?_getD, first] at wide
    exact encoding.wide wide
  · cases first

/-- The plain form of a character is told by its first byte. -/
theorem plain_charAt (s : Script) (offset : UInt32) : plain (s.charAt offset) = plainLead (s.byteAt offset) := by
  simp only [charAt, plainLead]
  split
  · rfl
  · next far =>
    have wide : 0x80 ≤ (s.byteAt offset).toNat := by
      rw [UInt8.lt_iff_toNat_lt] at far
      exact Nat.le_of_not_lt far
    apply plain_wide
    cases decoded : (s.buffer.extract offset.toNat
        (min (offset.toNat + (leadWidth (s.byteAt offset)).toNat) s.size.toNat)).utf8DecodeChar? 0 with
    | none => decide
    | some ch => exact wide_of_decoded decoded wide

end Script

/-- A cursor tells the plain form of the next character from one byte. -/
theorem Cursor.plain_look (c : Cursor) : plain c.look = plainLead (c.script.byteAt c.pos) :=
  c.script.plain_charAt c.pos

end HotkeyLex
