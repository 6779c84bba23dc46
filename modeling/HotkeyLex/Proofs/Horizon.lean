import HotkeyLex.Proofs.Likeness

/-!
# How far a rule sees

The character at which a rule stops is the last one it has seen. Text behind that character may be
replaced by any other, shorter or longer, and the rule comes to the same verdict and the same token.

Up to that character the two scripts are one, so the runs go side by side there (`Shared`). A run
that passes it has left the common part for good (`Beyond`).
-/

namespace HotkeyLex

namespace Cursor

section

/-- The cursors stand at one place of `a`, or right behind it, with one token under construction.
Both scripts go on with `ch`, and then with texts of their own. -/
structure Shared (a : List Char) (ch : Char) (t u : List Char) (s : Script) (c d : Cursor) : Prop where
  same : d = c.inScript s
  place : ∃ before rest, a = before ++ rest ∧ c.Between before (rest ++ ch :: t) [] ∧
    d.Between before (rest ++ ch :: u) []

/-- The cursor has left `a` and the next character. -/
structure Beyond (a : List Char) (c : Cursor) : Prop where
  place : ∃ before rest, c.Between before rest []
  far : byteSize a < c.pos.toNat

variable {a t u : List Char} {ch : Char} {s : Script} {c d x y : Cursor}

namespace Shared

theorem pos (h : Shared a ch t u s c d) : d.pos = c.pos := by rw [h.same, inScript_pos]

theorem pos_le (h : Shared a ch t u s c d) : c.pos.toNat ≤ byteSize a := by
  obtain ⟨before, rest, rfl, first, -⟩ := h.place
  rw [first.pos, byteSize_append]
  omega

/-- Both cursors have the same next character, and there is one. -/
theorem next (h : Shared a ch t u s c d) : ∃ before here after other,
    c.Between before (here :: after) [] ∧ d.Between before (here :: other) [] := by
  obtain ⟨before, rest, -, first, second⟩ := h.place
  cases rest with
  | nil => exact ⟨before, ch, t, u, first, second⟩
  | cons here rest => exact ⟨before, here, _, _, first, second⟩

theorem marked (h : Shared a ch t u s c d) : Shared a ch t u s c.marked d.marked := by
  obtain ⟨before, rest, whole, first, second⟩ := h.place
  refine ⟨by rw [h.same, inScript_marked], before, rest, whole, ?_, ?_⟩
  · exact first.of_place rfl rfl
  · exact second.of_place rfl rfl

/-- A pass keeps the runs side by side, unless it leaves the common part. -/
theorem pass (h : Shared a ch t u s c d) (step : Step) (near : ¬ Beyond a (c.pass step)) :
    Shared a ch t u s (c.pass step) (d.pass step) := by
  obtain ⟨before, rest, rfl, first, second⟩ := h.place
  cases rest with
  | nil =>
    refine absurd ⟨⟨_, _, first.pass step⟩, ?_⟩ near
    have positive := ch.utf8Size_pos
    rw [(first.pass step).pos, List.append_nil, byteSize_append, byteSize_cons]
    omega
  | cons here rest =>
    exact ⟨first.pass_inScript second h.same step, before ++ [here], rest, by simp, first.pass step, second.pass step⟩

/-- Where the first run leaves the common part, so does the second. -/
theorem strays (h : Shared a ch t u s x y) (step : Step) (gone : Beyond a (x.pass step)) :
    byteSize a < (y.pass step).pos.toNat := by
  obtain ⟨before, here, after, other, first, second⟩ := h.next
  have far := gone.far
  rw [(first.pass step).pos] at far
  rw [(second.pass step).pos]
  exact far

end Shared

/-- A cursor that has left the shared part does not come back. -/
theorem Beyond.pass (h : Beyond a c) (step : Step) : Beyond a (c.pass step) := by
  obtain ⟨before, rest, between⟩ := h.place
  have far := h.far
  cases rest with
  | nil =>
    rw [between.pass_nil]
    exact h
  | cons here rest =>
    refine ⟨⟨_, _, between.pass step⟩, ?_⟩
    have progress := between.pos_lt_pass step
    rw [UInt32.lt_iff_toNat_lt] at progress
    omega

/-- Until one of them leaves the shared part, two scripts look alike. -/
theorem likeness_shared : FullLikeness (Shared a ch t u s) (Beyond a) := by
  have base : Likeness (Shared a ch t u s) (Beyond a) := {
    look := by
      intro c d like
      obtain ⟨before, here, after, other, first, second⟩ := like.next
      rw [first.look_cons, second.look_cons]
    atEnd := by
      intro c d like
      obtain ⟨before, here, after, other, first, second⟩ := like.next
      rw [first.atEnd_cons, second.atEnd_cons]
    progress := by
      intro a b c d first last
      rw [first.pos, last.pos]
    pass := Shared.pass
    marked := Shared.marked
    ahead := by
      intro c d x like gone
      have near := like.pos_le
      have far := gone.far
      rw [UInt32.lt_iff_toNat_lt]
      omega
    strays := by
      intro c d x y like there step gone
      have near := like.pos_le
      have far := there.strays step gone
      rw [UInt32.lt_iff_toNat_lt, like.pos]
      omega
    lost_pass := Beyond.pass
    lost_marked := by
      rintro c ⟨⟨before, rest, between⟩, far⟩
      exact ⟨⟨before, rest, between.of_place rfl rfl⟩, far⟩ }
  apply base.full
  · rintro c d ⟨-, before, rest, -, first, second⟩
    exact ⟨first.toParenByByte_eq, second.toParenByByte_eq⟩
  · rintro c ⟨⟨before, rest, between⟩, -⟩
    exact between.toParenByByte_eq

/-- A cursor in the first script is in the common part or beyond it. -/
theorem shared_of_not_beyond (fits : byteSize (a ++ ch :: t) < UInt32.size)
    (fits' : byteSize (a ++ ch :: u) < UInt32.size)
    (script : c.script = Script.ofText (String.ofList (a ++ ch :: t))) (placed : c.script.isBoundary c.pos = true)
    (near : ¬ Beyond a c) :
    Shared a ch t u (Script.ofText (String.ofList (a ++ ch :: u))) c
      (c.inScript (Script.ofText (String.ofList (a ++ ch :: u)))) := by
  obtain ⟨before, behind, whole, between⟩ :=
    exists_between_ofText (by rwa [utf8ByteSize_ofList]) script placed
  rw [String.toList_ofList] at whole
  have pos := between.pos
  have bound : byteSize before ≤ byteSize a := by
    apply Nat.le_of_not_lt
    intro far
    exact near ⟨⟨before, behind, between⟩, by omega⟩
  -- the cursor cuts `a` in two, possibly with nothing behind
  obtain ⟨rest, rfl, rfl⟩ := split_of_byteSize_le whole.symm bound
  refine ⟨rfl, before, rest, rfl, between, ?_⟩
  apply between_ofText
  · rwa [← List.append_assoc]
  · rw [← List.append_assoc]
    rfl
  · exact pos

end

theorem push_append (a t : String) (ch : Char) :
    a.push ch ++ t = String.ofList (a.toList ++ ch :: t.toList) := by
  rw [← String.ofList_toList (s := a.push ch ++ t)]
  simp

/-- A rule that stops in front of a character decides by the text up to that character and the
character itself: with any other text behind it, the same cursor comes to the same verdict and the
same place, token and mark. -/
theorem rule_ignores_unread_text (search : ParenSearch) (kind : Kind) (a : String) (ch : Char) (t u : String)
    (fits : (a.push ch ++ t).utf8ByteSize ≤ 0xFFFFFFFF) {c : Cursor}
    (script : c.script = Script.ofText (a.push ch ++ t)) (placed : c.script.isBoundary c.pos = true)
    (stops : (kind.rule search c).cursor.pos.toNat = a.utf8ByteSize)
    (fits' : (a.push ch ++ u).utf8ByteSize ≤ 0xFFFFFFFF) :
    (kind.rule search { c with script := Script.ofText (a.push ch ++ u) }).accepted =
        (kind.rule search c).accepted ∧
      (kind.rule search { c with script := Script.ofText (a.push ch ++ u) }).cursor =
        { (kind.rule search c).cursor with script := Script.ofText (a.push ch ++ u) } := by
  rw [push_append] at fits fits' script ⊢
  rw [utf8ByteSize_ofList] at fits fits'
  have like := shared_of_not_beyond (Nat.lt_succ_of_le fits) (Nat.lt_succ_of_le fits') script placed
  have run := likeness_shared.rule like search kind
  have near : ¬ Beyond a.toList (kind.rule search c).cursor := by
    intro gone
    have far := gone.far
    rw [stops, ← utf8ByteSize_ofList, String.ofList_toList] at far
    omega
  obtain ⟨verdict, shared⟩ := run.alike near
  exact ⟨verdict.symm, shared.same⟩

/-- A declaration with an arrow is accepted in front of the tip of the arrow, whatever follows it. -/
theorem rule_ignores_unread_text_arrow :
    (Kind.declaration.rule .byByte ⟨Script.ofText "é f(ñ) => 1", 2, 0, some 2, true⟩).cursor.pos.toNat =
      "é f(ñ) =".utf8ByteSize ∧
    (Kind.declaration.rule .byByte ⟨Script.ofText "é f(ñ) =>\x00((", 2, 0, some 2, true⟩).cursor =
      { (Kind.declaration.rule .byByte ⟨Script.ofText "é f(ñ) => 1", 2, 0, some 2, true⟩).cursor with
        script := Script.ofText "é f(ñ) =>\x00((" } := by
  have stops : (Kind.declaration.rule .byByte ⟨Script.ofText "é f(ñ) => 1", 2, 0, some 2, true⟩).cursor.pos.toNat =
      "é f(ñ) =".utf8ByteSize := by
    decide +kernel
  have boundary : (Script.ofText "é f(ñ) => 1").isBoundary 2 = true := by decide +kernel
  have same := rule_ignores_unread_text .byByte .declaration "é f(ñ) =" '>' " 1" "\x00((" (by decide) rfl boundary
    stops (by decide)
  exact ⟨stops, same.2⟩

end Cursor

end HotkeyLex
