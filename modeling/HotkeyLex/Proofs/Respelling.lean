import HotkeyLex.Proofs.Likeness
import HotkeyLex.Tool.Listing
import Mathlib.Data.List.Forall2

/-!
# Scripts that differ in spelling

The case of letters, the choice between space and tab, and the identity of characters outside ASCII
are a matter of spelling as long as no character changes its number of bytes. Scripts that differ in
spelling have the same tokens at the same offsets, found by the same attempts, and so the same sweep.

In such scripts all bytes agree in what a cursor makes of a byte: the plain form of the character
that begins there, its width, and whether a character begins there at all (`ByteLike`). Nothing else
is needed, so the texts may be of any size.
-/

namespace HotkeyLex

/-- One character may stand for the other. -/
inductive Respelled : Char → Char → Prop where
  | same (ch : Char) : Respelled ch ch
  /-- The same letter of ASCII in either case. -/
  | letter {a b : Char} (alpha : a.isAlpha = true) (folded : a.toLower = b.toLower) : Respelled a b
  | blank {a b : Char} (first : isBlank a = true) (second : isBlank b = true) : Respelled a b
  /-- Two characters outside ASCII of the same width. -/
  | wide {a b : Char} (first : 0x80 ≤ a.toNat) (second : 0x80 ≤ b.toNat)
      (width : a.utf8Size = b.utf8Size) : Respelled a b

theorem narrow_of_isBlank {ch : Char} (blank : isBlank ch = true) : ch.toNat < 0x80 := by
  simp only [isBlank, Bool.or_eq_true, beq_iff_eq] at blank
  rcases blank with rfl | rfl
  · decide
  · decide

theorem narrow_of_isAlpha {ch : Char} (alpha : ch.isAlpha = true) : ch.toNat < 0x80 := by
  apply Nat.lt_of_not_le
  intro wide
  have none := isAlphanum_wide wide
  rw [Char.isAlphanum, alpha] at none
  cases none

theorem isAlpha_toLower {ch : Char} (alpha : ch.isAlpha = true) : ch.toLower.isAlpha = true := by
  have change := toLower_ascii ⟨ch.toNat, narrow_of_isAlpha alpha⟩
  rw [Char.ofNat_toNat] at change
  rcases change with same | ⟨-, lower⟩
  · rw [same, alpha]
  · exact lower

/-- What the four cases have in common. -/
theorem Respelled.plain_eq {a b : Char} (h : Respelled a b) : plain a = plain b ∧ a.utf8Size = b.utf8Size := by
  cases h with
  | same => exact ⟨rfl, rfl⟩
  | letter alpha folded =>
    have first := narrow_of_isAlpha alpha
    have lower : b.toLower.isAlpha = true := by
      rw [← folded]
      exact isAlpha_toLower alpha
    have second : b.toNat < 0x80 := by
      apply Nat.lt_of_not_le
      intro wide
      rw [toLower_wide wide] at lower
      have narrow := narrow_of_isAlpha lower
      omega
    have solid : a ≠ '\t' ∧ b ≠ '\t' := by
      constructor
      · rintro rfl
        cases alpha
      · rintro rfl
        cases lower
    rw [plain_narrow first solid.1, plain_narrow second solid.2, folded, utf8Size_eq_one_iff.2 first,
      utf8Size_eq_one_iff.2 second]
    exact ⟨rfl, rfl⟩
  | blank first second =>
    have space : ∀ ch, isBlank ch = true → plain ch = ' ' := by
      intro ch blank
      simp only [isBlank, Bool.or_eq_true, beq_iff_eq] at blank
      rcases blank with rfl | rfl
      · rfl
      · rfl
    rw [space a first, space b second, utf8Size_eq_one_iff.2 (narrow_of_isBlank first),
      utf8Size_eq_one_iff.2 (narrow_of_isBlank second)]
    exact ⟨rfl, rfl⟩
  | wide first second width => exact ⟨by rw [plain_wide first, plain_wide second], width⟩

/-! ## Bytes -/

/-- Two bytes of which a cursor makes the same. -/
structure ByteLike (b c : UInt8) : Prop where
  plain : plainLead b = plainLead c
  width : Script.leadWidth b = Script.leadWidth c
  inner : Script.isContinuation b = Script.isContinuation c

theorem byteLike_refl (b : UInt8) : ByteLike b b := ⟨rfl, rfl, rfl⟩

/-- Bytes inside of characters are alike, since nothing reads them one by one. -/
theorem byteLike_of_isContinuation {b c : UInt8} (first : Script.isContinuation b = true)
    (second : Script.isContinuation c = true) : ByteLike b c := by
  have facts : ∀ b, Script.isContinuation b = true → plainLead b = '\u0080' ∧ Script.leadWidth b = 1 := by
    intro b inner
    rw [isContinuation_iff] at inner
    constructor
    · rw [plainLead, if_neg]
      rw [UInt8.lt_iff_toNat_lt]
      exact Nat.not_lt.2 inner.1
    · rw [← UInt32.toNat_inj, leadWidth_toNat, if_neg (by omega), if_neg (by omega), if_neg (by omega)]
      rfl
  exact ⟨by rw [(facts b first).1, (facts c second).1], by rw [(facts b first).2, (facts c second).2],
    by rw [first, second]⟩

/-- The bytes behind the first are alike wherever there are as many. -/
theorem byteLike_follow {l m : List UInt8} (length : l.length = m.length)
    (first : ∀ b ∈ l, Script.isContinuation b = true) (second : ∀ b ∈ m, Script.isContinuation b = true) :
    List.Forall₂ ByteLike l m := by
  rw [List.forall₂_iff_zip]
  refine ⟨length, fun member => ?_⟩
  obtain ⟨inL, inM⟩ := List.of_mem_zip member
  exact byteLike_of_isContinuation (first _ inL) (second _ inM)

/-- The first byte tells the plain form. -/
theorem Encoding.plainLead_eq {ch : Char} {lead : UInt8} {tail : List UInt8} (h : Encoding ch lead tail) :
    plainLead lead = plain ch := by
  unfold plainLead
  split
  · next narrow => rw [← h.narrow (UInt8.lt_iff_toNat_lt.1 narrow), Char.ofNat_toNat]
  · next wide =>
    rw [UInt8.lt_iff_toNat_lt] at wide
    rw [plain_wide (h.wide (Nat.le_of_not_lt wide))]

/-- A character and its respelling have alike bytes, one for one. -/
theorem Respelled.bytes {a b : Char} (h : Respelled a b) :
    List.Forall₂ ByteLike (String.utf8EncodeChar a) (String.utf8EncodeChar b) := by
  obtain ⟨same, size⟩ := h.plain_eq
  obtain ⟨lead, tail, first⟩ := exists_encoding a
  obtain ⟨lead', tail', second⟩ := exists_encoding b
  have length : tail.length = tail'.length := by
    rw [first.utf8Size, second.utf8Size] at size
    omega
  rw [first.bytes, second.bytes]
  refine .cons ⟨?_, ?_, ?_⟩ (byteLike_follow length first.follow second.follow)
  · rw [first.plainLead_eq, second.plainLead_eq, same]
  · rw [← UInt32.toNat_inj, first.width, second.width, length]
  · rw [first.leads, second.leads]

/-- Texts that are respelled character by character have alike bytes. -/
theorem byteLike_encoded {a b : List Char} (h : List.Forall₂ Respelled a b) :
    List.Forall₂ ByteLike (encoded a) (encoded b) := by
  induction h with
  | nil => exact .nil
  | cons head _ ih =>
    rw [encoded_cons, encoded_cons]
    exact List.rel_append head.bytes ih

/-- Behind their ends alike texts have zeros. -/
theorem byteLike_getD {l m : List UInt8} (h : List.Forall₂ ByteLike l m) (i : Nat) :
    ByteLike (l.getD i 0) (m.getD i 0) := by
  induction h generalizing i with
  | nil => exact byteLike_refl 0
  | cons head _ ih =>
    cases i with
    | zero => exact head
    | succ i => exact ih i

/-! ## Scripts and cursors -/

/-- The scripts agree in all that a cursor makes of their bytes. -/
structure Script.Respelt (s t : Script) : Prop where
  size : s.size = t.size
  bodyStart : s.bodyStart = t.bodyStart
  bytes : ∀ i, ByteLike (byteOf s.buffer i) (byteOf t.buffer i)

namespace Script.Respelt

variable {s t : Script} {a b : List Char}

/-- A respelled text makes a respelled script, as long as the byte order mark stays. -/
theorem of_text (h : List.Forall₂ Respelled a b) (mark : a.head? = some '\ufeff' ↔ b.head? = some '\ufeff') :
    Respelt (ofText (String.ofList a)) (ofText (String.ofList b)) := by
  rw [List.head?_eq_some_iff, List.head?_eq_some_iff] at mark
  have bytes := byteLike_encoded h
  refine ⟨?_, ?_, fun i => ?_⟩
  · simp only [ofText, toUTF8_ofList, List.size_toByteArray, bytes.length_eq]
  · have same : hasMark (String.ofList a).toUTF8 = hasMark (String.ofList b).toUTF8 := by
      rw [Bool.eq_iff_iff, hasMark_iff, hasMark_iff, mark]
    simp only [ofText, same]
  · rw [byteOf_ofText, byteOf_ofText]
    exact byteLike_getD bytes i

theorem isBoundary (h : Respelt s t) (offset : UInt32) : s.isBoundary offset = t.isBoundary offset := by
  simp only [Script.isBoundary, byteAt, h.size, (h.bytes offset.toNat).inner]

theorem isPosition (h : Respelt s t) (offset : UInt32) : s.isPosition offset = t.isPosition offset := by
  simp only [Script.isPosition, h.bodyStart, h.isBoundary]

/-- Parentheses stay parentheses, and nothing else becomes one. -/
theorem isParenByte (h : Respelt s t) (i : Nat) :
    Script.isParenByte (byteOf s.buffer i) = Script.isParenByte (byteOf t.buffer i) := by
  rw [isParenByte_eq, isParenByte_eq, (h.bytes i).plain]

/-- The search over bytes finds the same offsets. -/
theorem parenDistance (h : Respelt s t) (offset : UInt32) : s.parenDistance offset = t.parenDistance offset := by
  have search : ∀ i stop, parenFrom s.buffer i stop = parenFrom t.buffer i stop := by
    intro i stop
    fun_induction parenFrom s.buffer i stop with
    | case1 i more found => rw [parenFrom, if_pos more, if_pos (h.isParenByte i ▸ found)]
    | case2 i more other ih =>
      rw [ih, parenFrom.eq_def t.buffer i, if_pos more, if_neg (h.isParenByte i ▸ other)]
    | case3 i done => rw [parenFrom, if_neg done]
  simp only [Script.parenDistance, h.size, search]

end Script.Respelt

namespace Cursor

/-- The same cursor in a script that differs in spelling. -/
structure Respelt (t : Script) (c d : Cursor) : Prop where
  same : d = c.inScript t
  script : c.script.Respelt t

namespace Respelt

variable {t : Script} {c d : Cursor}

theorem atEnd (h : Respelt t c d) : c.atEnd = d.atEnd := by
  rw [h.same, Cursor.atEnd, Cursor.atEnd, h.script.size]
  rfl

theorem nextPos (h : Respelt t c d) : d.nextPos = c.nextPos := by
  rw [h.same, Cursor.nextPos, Cursor.nextPos, h.script.size]
  simp only [Script.byteAt, (h.script.bytes c.pos.toNat).width]
  rfl

theorem movedTo (h : Respelt t c d) (step : Step) (pos : UInt32) :
    Respelt t (c.movedTo step pos) (d.movedTo step pos) :=
  ⟨by rw [h.same, inScript_movedTo], by rw [movedTo_script]; exact h.script⟩

theorem pass (h : Respelt t c d) (step : Step) : Respelt t (c.pass step) (d.pass step) := by
  cases done : c.atEnd with
  | true =>
    rw [pass_of_atEnd step done, pass_of_atEnd step (h.atEnd ▸ done)]
    exact h
  | false =>
    rw [pass_of_not_atEnd step done, pass_of_not_atEnd step (h.atEnd ▸ done), h.nextPos]
    exact h.movedTo step c.nextPos

theorem toParenByByte (h : Respelt t c d) : Respelt t c.toParenByByte d.toParenByByte := by
  obtain ⟨rfl, script⟩ := h
  have distance : t.parenDistance c.pos = c.script.parenDistance c.pos := (script.parenDistance c.pos).symm
  simp only [Cursor.toParenByByte, inScript, distance]
  split
  · exact ⟨rfl, script⟩
  · exact ⟨rfl, script⟩

end Respelt

/-- No rule tells a script from its respelling. -/
theorem likeness_respelt (t : Script) : FullLikeness (Respelt t) Never where
  look {c d} like := by
    rw [plain_look, plain_look, like.same]
    exact (like.script.bytes c.pos.toNat).plain
  atEnd := Respelt.atEnd
  progress := by
    intro a b c d first last
    rw [first.same, last.same]
    rfl
  pass like step _ := like.pass step
  marked like := ⟨by rw [like.same, inScript_marked], like.script⟩
  ahead _ := nofun
  strays _ _ _ := nofun
  lost_pass := nofun
  lost_marked := nofun
  toParenByByte := by
    intro c d like
    constructor
    · exact nofun
    · intro _
      exact ⟨rfl, (like id).toParenByByte⟩

/-- Tokens have the same ends in both scripts. -/
theorem Respelt.span {t : Script} {c d : Cursor} (h : Respelt t c d) : c.span = d.span := by
  rw [h.same]
  rfl

end Cursor

namespace Script.Respelt

variable {s t : Script}

/-- At each offset both scripts have a choice or neither, and the choices are alike. -/
theorem choiceAt? (h : Respelt s t) (offset : UInt32) (valid : KindSet) :
    Option.Rel (Cursor.ChoiceLike (Cursor.Respelt t)) (s.choiceAt? offset valid) (t.choiceAt? offset valid) := by
  simp only [Script.choiceAt?, Cursor.at?, h.isPosition offset]
  split
  · have here : Cursor.Respelt t (.fresh s offset) (.fresh t offset) := ⟨rfl, h⟩
    exact .some ((Cursor.likeness_respelt t).choose_alike here .byByte valid)
  · exact .none

/-- The same token is found at every offset. -/
theorem tokenAt? (h : Respelt s t) (offset : UInt32) (valid : KindSet) :
    s.tokenAt? offset valid = t.tokenAt? offset valid := by
  have choices := h.choiceAt? offset valid
  unfold Script.tokenAt?
  generalize s.choiceAt? offset valid = first, t.choiceAt? offset valid = second at choices ⊢
  cases choices with
  | none => rfl
  | some like => simp only [Option.bind_some, Choice.token?, like.kind?, like.cursor.span]

/-- The same rules are tried at every offset, with the same verdicts. -/
theorem attempts (h : Respelt s t) (offset : UInt32) (valid : KindSet) :
    (s.choiceAt? offset valid).map Choice.attempts = (t.choiceAt? offset valid).map Choice.attempts := by
  have choices := h.choiceAt? offset valid
  generalize s.choiceAt? offset valid = first, t.choiceAt? offset valid = second at choices ⊢
  cases choices with
  | none => rfl
  | some like => simp only [Option.map_some, like.attempts]

/-- The listing of a script is that of its respelling, byte for byte. -/
theorem sweepLines (h : Respelt s t) (valid : KindSet) : Tool.sweepLines s valid = Tool.sweepLines t valid := by
  have offsets : s.offsets = t.offsets := by simp only [Script.offsets, h.bodyStart, h.size]
  have visit : Tool.Sweep.visit s valid = Tool.Sweep.visit t valid := by
    funext w offset
    simp only [Tool.Sweep.visit, h.isBoundary, h.tokenAt?]
  simp only [Tool.sweepLines, Tool.Sweep.ofScript, offsets, visit]

end Script.Respelt

/-- How a script is spelled does not matter. Two texts of any size that differ only in the case of
letters, in spaces and tabs, and in characters outside ASCII of the same width have the same tokens
with the same spans, found by the same attempts, at all offsets, and the same sweep. A byte order
mark is no matter of spelling: both have one or neither. -/
theorem choice_ignores_spelling {a b : String} (respelled : List.Forall₂ Respelled a.toList b.toList)
    (mark : a.toList.head? = some '\ufeff' ↔ b.toList.head? = some '\ufeff') (valid : KindSet) :
    (∀ offset, (Script.ofText a).tokenAt? offset valid = (Script.ofText b).tokenAt? offset valid ∧
      ((Script.ofText a).choiceAt? offset valid).map Choice.attempts =
        ((Script.ofText b).choiceAt? offset valid).map Choice.attempts) ∧
    Tool.sweepLines (Script.ofText a) valid = Tool.sweepLines (Script.ofText b) valid := by
  obtain ⟨chars, rfl⟩ := a.exists_eq_ofList
  obtain ⟨others, rfl⟩ := b.exists_eq_ofList
  rw [String.toList_ofList] at respelled mark
  rw [String.toList_ofList] at respelled mark
  have scripts := Script.Respelt.of_text respelled mark
  exact ⟨fun offset => ⟨scripts.tokenAt? offset valid, scripts.attempts offset valid⟩, scripts.sweepLines valid⟩

/-- Two operands with another accent, a tab for the space and the second in other letters. -/
theorem choice_ignores_spelling_operands :
    (Script.ofText "é nOte").tokenAt? 2 .all = some ⟨.juxtaposition, 2, 3⟩ ∧
    (Script.ofText "é nOte").tokenAt? 2 .all = (Script.ofText "ñ\tNotE").tokenAt? 2 .all ∧
    Tool.sweepLines (Script.ofText "é nOte") .all = Tool.sweepLines (Script.ofText "ñ\tNotE") .all := by
  have found : (Script.ofText "é nOte").tokenAt? 2 .all = some ⟨.juxtaposition, 2, 3⟩ := by decide +kernel
  have respelled : List.Forall₂ Respelled ['é', ' ', 'n', 'O', 't', 'e'] ['ñ', '\t', 'N', 'o', 't', 'E'] :=
    .cons (.wide (by decide) (by decide) rfl) (.cons (.blank rfl rfl) (.cons (.letter rfl rfl)
      (.cons (.letter rfl rfl) (.cons (.same _) (.cons (.letter rfl rfl) .nil)))))
  obtain ⟨places, sweep⟩ := @choice_ignores_spelling "é nOte" "ñ\tNotE" respelled (by decide) .all
  exact ⟨found, (places 2).1, sweep⟩

end HotkeyLex
