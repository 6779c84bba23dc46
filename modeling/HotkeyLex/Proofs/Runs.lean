import HotkeyLex.Cursor.Run
import HotkeyLex.Proofs.Placement

/-!
# What a run passes

Passing a character moves it from the list behind the cursor to the list in front. Every loop of a
cursor is then a repetition of this one step, so a run over a class passes exactly the longest part
of the rest that lies in the class, and both searches for a parenthesis pass the longest part
without one.
-/

namespace HotkeyLex

/-- Words add up as the numbers do that they are cut from. -/
theorem toUInt32_add (a b : Nat) : (a + b).toUInt32 = a.toUInt32 + b.toUInt32 :=
  UInt32.ofNat_add a b

namespace Cursor

/-! ## The token while characters are passed -/

/-- The cursor at another offset, as it is after one character or more was passed on the way. -/
def movedTo (c : Cursor) (step : Step) (pos : UInt32) : Cursor :=
  match step with
  | .take => { c with pos := pos, taken := true }
  | .skip =>
    if !c.taken && c.mark.isNone then { c with pos := pos, start := pos } else { c with pos := pos }

@[simp] theorem movedTo_pos (c : Cursor) (step : Step) (pos : UInt32) :
    (c.movedTo step pos).pos = pos := by
  cases step with
  | take => rfl
  | skip => simp only [movedTo]; split <;> rfl

@[simp] theorem movedTo_script (c : Cursor) (step : Step) (pos : UInt32) :
    (c.movedTo step pos).script = c.script := by
  cases step with
  | take => rfl
  | skip => simp only [movedTo]; split <;> rfl

/-- Only the last of several moves counts. -/
@[simp] theorem movedTo_movedTo (c : Cursor) (step : Step) (p q : UInt32) :
    (c.movedTo step p).movedTo step q = c.movedTo step q := by
  cases step with
  | take => rfl
  | skip =>
    simp only [movedTo]
    split <;> simp

/-- The same cursor in another script. -/
def inScript (c : Cursor) (s : Script) : Cursor := { c with script := s }

@[simp] theorem inScript_pos (c : Cursor) (s : Script) : (c.inScript s).pos = c.pos := rfl

@[simp] theorem inScript_marked (c : Cursor) (s : Script) : (c.inScript s).marked = c.marked.inScript s := rfl

/-- Moving asks nothing of the script. -/
@[simp] theorem inScript_movedTo (c : Cursor) (s : Script) (step : Step) (pos : UInt32) :
    (c.inScript s).movedTo step pos = (c.movedTo step pos).inScript s := by
  cases step with
  | take => rfl
  | skip =>
    by_cases idle : (!c.taken && c.mark.isNone) = true
    · simp [movedTo, inScript, idle]
    · simp [movedTo, inScript, idle]

theorem pass_of_atEnd {c : Cursor} (step : Step) (done : c.atEnd = true) : c.pass step = c := by
  simp [pass, done]

theorem pass_of_not_atEnd {c : Cursor} (step : Step) (more : c.atEnd = false) :
    c.pass step = c.movedTo step c.nextPos := by
  simp only [pass, more, Bool.false_eq_true, if_false]
  rfl

/-! ## One turn of a run -/

section

variable {c : Cursor} {step : Step} {p : Char → Bool} {count : UInt32}

/-- A turn inside the class counts and goes on. -/
theorem passCounting_inside (inside : p c.look = true) (progress : c.pos < (c.pass step).pos) :
    c.passCounting step p count = (c.pass step).passCounting step p (count + 1) := by
  rw [passCounting, if_pos inside, if_pos progress]

theorem passCounting_outside (outside : p c.look = false) : c.passCounting step p count = ⟨count, c⟩ := by
  rw [passCounting, if_neg (by simp [outside])]

/-- A run that gets stuck ends where it is. -/
theorem passCounting_stuck (stuck : ¬ c.pos < (c.pass step).pos) :
    c.passCounting step p count = ⟨count, c⟩ := by
  rw [passCounting, if_neg stuck, ite_self]

end

namespace Between

variable {c : Cursor} {before rest beyond : List Char} {ch : Char}

theorem atEnd_nil (h : c.Between before [] beyond) : c.atEnd = true := h.atEnd_iff.2 rfl

theorem atEnd_cons (h : c.Between before (ch :: rest) beyond) : c.atEnd = false := by
  rw [Bool.eq_false_iff, ne_eq, h.atEnd_iff]
  exact List.cons_ne_nil ch rest

theorem pass_nil (h : c.Between before [] beyond) (step : Step) : c.pass step = c :=
  pass_of_atEnd step h.atEnd_nil

theorem pass_eq (h : c.Between before (ch :: rest) beyond) (step : Step) :
    c.pass step = c.movedTo step c.nextPos :=
  pass_of_not_atEnd step h.atEnd_cons

/-- Passing takes exactly one character from the rest. -/
theorem pass (h : c.Between before (ch :: rest) beyond) (step : Step) :
    (c.pass step).Between (before ++ [ch]) rest beyond where
  script := by rw [h.pass_eq, movedTo_script, h.script, List.append_assoc]; rfl
  size := by rw [h.pass_eq, movedTo_script, h.size, List.append_assoc]; rfl
  pos := by rw [h.pass_eq, movedTo_pos, h.toNat_nextPos]

/-- A character has a byte at least, so passing it moves on. -/
theorem pos_lt_pass (h : c.Between before (ch :: rest) beyond) (step : Step) : c.pos < (c.pass step).pos := by
  have positive := ch.utf8Size_pos
  rw [UInt32.lt_iff_toNat_lt, (h.pass step).pos, h.pos, byteSize_append, byteSize_cons]
  omega

/-- In another script with the same character at the same place a pass does the same. -/
theorem pass_inScript {d : Cursor} {s : Script} {other past : List Char} (h : c.Between before (ch :: rest) beyond)
    (there : d.Between before (ch :: other) past) (same : d = c.inScript s) (step : Step) :
    d.pass step = (c.pass step).inScript s := by
  have offset : d.nextPos = c.nextPos := by
    rw [← UInt32.toNat_inj, h.toNat_nextPos, there.toNat_nextPos]
  rw [h.pass_eq, there.pass_eq, offset, same, inScript_movedTo]

/-- At the end of the text no step makes progress. -/
theorem not_pos_lt_pass (h : c.Between before [] beyond) (step : Step) : ¬ c.pos < (c.pass step).pos := by
  rw [h.pass_nil, UInt32.lt_iff_toNat_lt]
  exact Nat.lt_irrefl _

/-! ## Several characters -/

/-- Passing a beginning of the rest character by character puts the cursor behind it. -/
theorem passMany (run : List Char) {rest : List Char} (h : c.Between before (run ++ rest) beyond) (step : Step) :
    (c.passMany step run.length).Between (before ++ run) rest beyond := by
  induction run generalizing c before with
  | nil => rw [List.append_nil]; exact h
  | cons ch run ih =>
    have next := ih (h.pass step)
    rwa [List.append_assoc, List.singleton_append] at next

/-- Passing a stretch of text is one move over all its bytes. -/
theorem passMany_eq {run rest : List Char} (h : c.Between before (run ++ rest) beyond) (step : Step)
    (some : run ≠ []) :
    c.passMany step run.length = c.movedTo step (c.pos + (byteSize run).toUInt32) := by
  induction run generalizing c before with
  | nil => exact absurd rfl some
  | cons ch run ih =>
    have first : c.nextPos = c.pos + ch.utf8Size.toUInt32 := by
      rw [h.nextPos_eq, ← h.width]
      simp
    rw [List.length_cons, Cursor.passMany]
    by_cases single : run = []
    · subst single
      rw [h.pass_eq, first]
      simp [Cursor.passMany]
    · rw [ih (h.pass step) single, h.pass_eq, movedTo_movedTo, movedTo_pos, first, byteSize_cons,
        toUInt32_add, UInt32.add_assoc]

/-! ## Runs over a class -/

/-- A run stops at the first character outside the class. The end of the text needs no test of its
own: if the class held the null character, the next pass would make no progress. -/
theorem passCounting_eq (h : c.Between before rest beyond) (step : Step) (p : Char → Bool) (count : UInt32) :
    c.passCounting step p count = ⟨count + (rest.takeWhile p).length.toUInt32,
      c.passMany step (rest.takeWhile p).length⟩ := by
  induction rest generalizing c before count with
  | nil =>
    rw [passCounting_stuck (h.not_pos_lt_pass step)]
    simp [Cursor.passMany]
  | cons ch rest ih =>
    have look := h.look_cons
    cases inside : p ch with
    | true =>
      rw [passCounting_inside (look ▸ inside) (h.pos_lt_pass step), ih (h.pass step),
        List.takeWhile_cons_of_pos inside, List.length_cons, Nat.add_comm, toUInt32_add, UInt32.add_assoc,
        Nat.add_comm]
      rfl
    | false =>
      rw [passCounting_outside (look ▸ inside), List.takeWhile_cons_of_neg (by simp [inside])]
      simp [Cursor.passMany]

/-- A run passes the longest beginning of the rest in the class. -/
theorem passWhile_cursor (h : c.Between before rest beyond) (step : Step) (p : Char → Bool) :
    (c.passWhile step p).cursor = c.passMany step (rest.takeWhile p).length := by
  rw [Cursor.passWhile, h.passCounting_eq]

/-- The count of a run is the length of that beginning, as a word. -/
theorem passWhile_count (h : c.Between before rest beyond) (step : Step) (p : Char → Bool) :
    (c.passWhile step p).count = (rest.takeWhile p).length.toUInt32 := by
  rw [Cursor.passWhile, h.passCounting_eq, UInt32.zero_add]

/-- The count of a run does not overflow. -/
theorem toNat_count (h : c.Between before rest beyond) (step : Step) (p : Char → Bool) :
    (c.passWhile step p).count.toNat = (rest.takeWhile p).length := by
  have size := h.size
  have bound := c.script.size.toNat_lt
  have few := length_le_byteSize rest
  have part := (List.takeWhile_prefix (l := rest) p).length_le
  rw [h.passWhile_count]
  apply UInt32.toNat_ofNat_of_lt'
  rw [byteSize_append] at size
  simp only [UInt32.size]
  omega

theorem passBlanks_accepted (h : c.Between before rest beyond) (step : Step) :
    (c.passBlanks step).accepted = decide (0 < (rest.takeWhile isBlank).length) := by
  simp only [passBlanks, UInt32.lt_iff_toNat_lt, h.toNat_count]
  rfl

/-- Behind a run stands what the class leaves of the rest. -/
theorem passWhile (h : c.Between before rest beyond) (step : Step) (p : Char → Bool) :
    (c.passWhile step p).cursor.Between (before ++ rest.takeWhile p) (rest.dropWhile p) beyond := by
  rw [h.passWhile_cursor]
  apply Between.passMany
  rw [List.takeWhile_append_dropWhile]
  exact h

end Between

end Cursor

/-! ## The two searches for a parenthesis -/

namespace Script

/-- The search over bytes stops at the first byte of a parenthesis, or at the end. -/
theorem parenFrom_eq (bytes : ByteArray) (part : List UInt8) (i : Nat)
    (same : ∀ k, k < part.length → byteOf bytes (i + k) = part.getD k 0) :
    parenFrom bytes i (i + part.length) = i + (part.takeWhile (!isParenByte ·)).length := by
  induction part generalizing i with
  | nil =>
    unfold parenFrom
    rw [if_neg (by simp)]
    rfl
  | cons b part ih =>
    have first : byteOf bytes i = b := same 0 (by simp)
    have later : ∀ k, k < part.length → byteOf bytes (i + 1 + k) = part.getD k 0 := by
      intro k bound
      rw [Nat.add_assoc, Nat.add_comm 1 k]
      exact same (k + 1) (by simpa using bound)
    unfold parenFrom
    rw [if_pos (by simp), first]
    by_cases paren : isParenByte b = true
    · rw [if_pos paren, List.takeWhile_cons_of_neg (by simp [paren])]
      rfl
    · have step := ih (i + 1) later
      rw [if_neg paren, List.takeWhile_cons_of_pos (by simp [paren]), List.length_cons, List.length_cons,
        Nat.add_comm part.length 1, ← Nat.add_assoc, step]
      omega

end Script

/-- The first parenthesis of a text is where the first byte of one is: no byte of another character
can be mistaken for it. -/
theorem length_takeWhile_encoded (text : List Char) :
    ((encoded text).takeWhile (!Script.isParenByte ·)).length = byteSize (text.takeWhile (!isParen ·)) := by
  induction text with
  | nil => rfl
  | cons ch text ih =>
    rw [encoded_cons]
    by_cases paren : isParen ch = true
    · obtain ⟨lead, tail, h⟩ := exists_encoding ch
      have first : Script.isParenByte lead = true := by rw [isParenByte_lead h, paren]
      rw [h.bytes, List.cons_append, List.takeWhile_cons_of_neg (by simp [first]),
        List.takeWhile_cons_of_neg (by simp [paren])]
      rfl
    · have other : ∀ b ∈ String.utf8EncodeChar ch, (!Script.isParenByte b) = true := by
        intro b member
        rw [isParenByte_encodeChar (by simpa using paren) b member]
        rfl
      rw [List.takeWhile_append_of_pos other, List.takeWhile_cons_of_pos (by simp [paren]),
        List.length_append, String.length_utf8EncodeChar, ih, byteSize_cons]

namespace Cursor.Between

variable {c : Cursor} {before rest beyond : List Char}

/-- The distance to a parenthesis is the size of what stands in front of it. -/
theorem parenDistance (h : c.Between before rest beyond) :
    c.script.parenDistance c.pos = byteSize (rest.takeWhile (!isParen ·)) := by
  have stop : c.script.size.toNat = c.pos.toNat + (encoded rest).length := by
    rw [h.size, h.pos, byteSize_append, length_encoded]
  have found := Script.parenFrom_eq c.script.buffer (encoded rest) c.pos.toNat fun k inside => by
    rw [h.byteOf, encoded_append, List.getD_append _ _ _ _ inside]
  rw [Script.parenDistance, stop, found, length_takeWhile_encoded, Nat.add_sub_cancel_left]

/-- The search over characters takes what stands in front of the next parenthesis. -/
theorem toParenByChar_eq (h : c.Between before rest beyond) :
    c.toParenByChar = c.passMany .take (rest.takeWhile (!isParen ·)).length := by
  induction rest generalizing c before with
  | nil =>
    unfold toParenByChar
    rw [h.atEnd_nil]
    rfl
  | cons ch rest ih =>
    unfold toParenByChar
    rw [h.atEnd_cons, h.look_cons]
    by_cases paren : isParen ch = true
    · rw [List.takeWhile_cons_of_neg (by simp [paren]), if_neg (by simp [paren])]
      rfl
    · rw [List.takeWhile_cons_of_pos (by simp [paren]), if_pos (by simp [paren]),
        if_pos (h.pos_lt_pass .take), ih (h.pass .take)]
      rfl

/-- The jump over bytes and the loop over characters leave the same cursor. -/
theorem toParenByByte_eq (h : c.Between before rest beyond) : c.toParenByByte = c.toParenByChar := by
  have split : c.Between before (rest.takeWhile (!isParen ·) ++ rest.dropWhile (!isParen ·)) beyond := by
    rw [List.takeWhile_append_dropWhile]
    exact h
  rw [h.toParenByChar_eq, toParenByByte, h.parenDistance]
  by_cases here : rest.takeWhile (!isParen ·) = []
  · rw [here]
    rfl
  · have some : 0 < byteSize (rest.takeWhile (!isParen ·)) :=
      byteSize_pos_iff.2 (List.length_pos_iff.2 here)
    simp only [some, if_true, split.passMany_eq .take here]
    rfl

/-- Either search takes what stands in front of the next parenthesis. -/
theorem toParen_eq (h : c.Between before rest beyond) (search : ParenSearch) :
    c.toParen search = c.passMany .take (rest.takeWhile (!isParen ·)).length := by
  cases search with
  | byByte => exact h.toParenByByte_eq.trans h.toParenByChar_eq
  | byChar => exact h.toParenByChar_eq

/-- Behind a search stands the next parenthesis or nothing. -/
theorem toParen (h : c.Between before rest beyond) (search : ParenSearch) :
    (c.toParen search).Between (before ++ rest.takeWhile (!isParen ·)) (rest.dropWhile (!isParen ·)) beyond := by
  rw [h.toParen_eq]
  apply Between.passMany
  rw [List.takeWhile_append_dropWhile]
  exact h

end Cursor.Between

end HotkeyLex
