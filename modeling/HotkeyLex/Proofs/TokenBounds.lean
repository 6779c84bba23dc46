import HotkeyLex.Proofs.ParenSearch

/-!
# The bounds of a token under construction

A cursor that a script hands out keeps its token inside the body of the script and never ahead of the
place of reading, whatever is done with it: both ends of the token and the place of reading are
boundaries of the script, and the end does not come before the start. As long as nothing was taken
and no end is marked, the token is empty and moves along.

Passing a character keeps these bounds because the cursor moves to a later boundary (`InText`), and
marking keeps them because it marks the place of reading. All other moves come down to these two.
-/

namespace HotkeyLex

namespace Cursor

/-- The token under construction is in order. Its boundaries are offsets that split the text into
characters (`Script.isBoundary_iff`). -/
structure Sound (c : Cursor) : Prop where
  body_le_start : c.script.bodyStart ≤ c.start
  start_le_pos : c.start ≤ c.pos
  pos_le_size : c.pos ≤ c.script.size
  mark_between : ∀ stop, c.mark = some stop → c.start ≤ stop ∧ stop ≤ c.pos
  start_boundary : c.script.isBoundary c.start = true
  pos_boundary : c.script.isBoundary c.pos = true
  mark_boundary : ∀ stop, c.mark = some stop → c.script.isBoundary stop = true
  /-- A token without an end that nothing was taken for begins where it is read. -/
  idle : c.taken = false → c.mark = none → c.start = c.pos

namespace Sound

variable {c : Cursor}

theorem fresh {s : Script} {offset : UInt32} (position : s.isPosition offset = true) :
    (fresh s offset).Sound := by
  rw [Script.isPosition, Bool.and_eq_true, decide_eq_true_eq] at position
  obtain ⟨body, boundary⟩ := position
  refine ⟨body, UInt32.le_refl _, Script.le_size_of_isBoundary boundary, ?_, boundary, boundary, ?_, fun _ _ => rfl⟩
  · intro stop marked
    cases marked
  · intro stop marked
    cases marked

/-- An end marked where the cursor reads is sound. -/
theorem marked (h : c.Sound) : c.marked.Sound where
  body_le_start := h.body_le_start
  start_le_pos := h.start_le_pos
  pos_le_size := h.pos_le_size
  mark_between := by
    rintro _ ⟨⟩
    exact ⟨h.start_le_pos, UInt32.le_refl _⟩
  start_boundary := h.start_boundary
  pos_boundary := h.pos_boundary
  mark_boundary := by
    rintro _ ⟨⟩
    exact h.pos_boundary
  idle := nofun

section

variable {pos : UInt32} (h : c.Sound) (onward : c.pos ≤ pos) (boundary : c.script.isBoundary pos = true)
include h onward boundary

/-- The place of reading moves on alone, once something was taken or an end is marked. -/
theorem ahead {taken : Bool} (busy : taken = false → c.mark ≠ none) :
    Sound { c with pos := pos, taken := taken } where
  body_le_start := h.body_le_start
  start_le_pos := UInt32.le_trans h.start_le_pos onward
  pos_le_size := Script.le_size_of_isBoundary boundary
  mark_between stop marked := by
    obtain ⟨first, last⟩ := h.mark_between stop marked
    exact ⟨first, UInt32.le_trans last onward⟩
  start_boundary := h.start_boundary
  pos_boundary := boundary
  mark_boundary := h.mark_boundary
  idle none unmarked := absurd unmarked (busy none)

/-- A token without an end moves along as a whole. -/
theorem along (unmarked : c.mark = none) : Sound { c with pos := pos, start := pos } where
  body_le_start := UInt32.le_trans (UInt32.le_trans h.body_le_start h.start_le_pos) onward
  start_le_pos := UInt32.le_refl _
  pos_le_size := Script.le_size_of_isBoundary boundary
  mark_between stop marked := by
    rw [show c.mark = some stop from marked] at unmarked
    cases unmarked
  start_boundary := boundary
  pos_boundary := boundary
  mark_boundary := h.mark_boundary
  idle _ _ := rfl

/-- A cursor moved to a later boundary is sound. -/
theorem movedTo (step : Step) : (c.movedTo step pos).Sound := by
  cases step with
  | take => exact h.ahead onward boundary nofun
  | skip =>
    by_cases idle : (!c.taken && c.mark.isNone) = true
    · simp only [Cursor.movedTo, idle, if_true]
      rw [Bool.and_eq_true, Option.isNone_iff_eq_none] at idle
      exact h.along onward boundary idle.2
    · simp only [Cursor.movedTo, if_neg idle]
      refine h.ahead onward boundary fun none unmarked => idle ?_
      rw [none, unmarked]
      rfl

end

/-! ## The span -/

/-- A sound token does not end in front of its start. -/
theorem span_le (h : c.Sound) : c.span.start ≤ c.span.stop := by
  simp only [span]
  cases marked : c.mark with
  | none => exact h.start_le_pos
  | some stop => exact (h.mark_between stop marked).1

/-- The number of bytes of the token is the difference of its ends, without a borrow. -/
theorem toNat_size_span (h : c.Sound) : c.span.start.toNat + c.span.size.toNat = c.span.stop.toNat := by
  have order := h.span_le
  rw [Span.size, UInt32.toNat_sub_of_le _ _ order]
  exact Nat.add_sub_of_le (UInt32.le_iff_toNat_le.1 order)

end Sound

namespace InText

variable {s : Script} {c d : Cursor}

theorem pos_le_pass (h : InText s c) (step : Step) : c.pos ≤ (c.pass step).pos := by
  obtain ⟨-, before, rest, beyond, between⟩ := h
  cases rest with
  | nil =>
    rw [between.pass_nil]
    exact UInt32.le_refl _
  | cons ch rest => exact UInt32.le_of_lt (between.pos_lt_pass step)

theorem sound_pass (h : InText s c) (sound : c.Sound) (step : Step) : (c.pass step).Sound := by
  cases done : c.atEnd with
  | true =>
    rw [pass_of_atEnd step done]
    exact sound
  | false =>
    have onward := h.pos_le_pass step
    have boundary := (h.pass step).isBoundary
    rw [pass_of_not_atEnd step done, movedTo_pos] at onward boundary
    rw [pass_of_not_atEnd step done]
    rw [movedTo_script] at boundary
    exact sound.movedTo onward boundary step

/-- Nothing that passes and marks goes back. -/
theorem pos_le_of_reaches (h : InText s c) (run : Reaches c d) : c.pos ≤ d.pos := by
  have kept : InText s d ∧ c.pos ≤ d.pos := by
    refine @Reaches.invariant (fun d => InText s d ∧ c.pos ≤ d.pos) ?_ ?_ c d run ⟨h, UInt32.le_refl _⟩
    · rintro d step ⟨here, later⟩
      exact ⟨here.pass step, UInt32.le_trans later (here.pos_le_pass step)⟩
    · rintro d ⟨here, later⟩
      exact ⟨here.marked, later⟩
  exact kept.2

end InText

/-- A sound cursor in a text. -/
structure SoundIn (s : Script) (c : Cursor) : Prop where
  inText : c.InText s
  sound : c.Sound

/-- Whatever is reached from a sound cursor is sound. -/
theorem SoundIn.reaches {s : Script} {c d : Cursor} (run : Reaches c d) (h : c.SoundIn s) : d.SoundIn s := by
  refine run.invariant ?_ ?_ h
  · intro d step here
    exact ⟨here.inText.pass step, here.inText.sound_pass here.sound step⟩
  · intro d here
    exact ⟨here.inText.marked, here.sound.marked⟩

/-- A script hands out sound cursors, if it does not end inside a character. -/
theorem Opened.soundIn {text : String} {c : Cursor} (opened : Opened (Script.ofText text) c)
    (whole : (Script.ofText text).isBoundary (Script.ofText text).size = true) :
    c.SoundIn (Script.ofText text) := by
  obtain ⟨script, boundary⟩ := opened.isBoundary
  obtain ⟨same, position⟩ := opened.isPosition
  obtain ⟨before, rest, beyond, -, between⟩ := exists_between script (by rw [script]; exact whole) boundary
  refine ⟨⟨script, before, rest, beyond, between⟩, ?_⟩
  rw [same]
  exact .fresh position

end Cursor

namespace Walk

variable {s : Script} {w : Walk}

theorem InText.of_all (h : w.All (Cursor.SoundIn s)) : w.InText s :=
  ⟨h.cursor.inText, fun c aside => (h.saved c aside).inText⟩

/-- Either search leads through sound cursors only. -/
theorem All.sound_moves (h : w.All (Cursor.SoundIn s)) (search : ParenSearch) (list : List Move) :
    (w.moves search list).All (Cursor.SoundIn s) := by
  have walked := h.moves Cursor.SoundIn.reaches list
  cases search with
  | byByte =>
    rw [((InText.of_all h).moves list).2]
    exact walked
  | byChar => exact walked

/-- Only going back to a copy leads to an earlier offset. -/
theorem InText.pos_le_move (h : w.InText s) (search : ParenSearch) {m : Move} (onward : m ≠ .restore) :
    w.cursor.pos ≤ (w.move search m).2.cursor.pos := by
  have later := h.cursor.pos_le_of_reaches (w.reaches_move onward)
  cases search with
  | byByte =>
    rw [h.move_eq]
    exact later
  | byChar => exact later

end Walk

/-- After any sequence of moves from a cursor that a script hands out, going back to copies included,
the token under construction is in order, so that its span has a length, and no further move reads
backwards except going back. The text may be longer than offsets can tell, unless the cut then goes
through a character. -/
theorem Cursor.walk_keeps_token_bounds {text : String}
    (whole : text.utf8ByteSize ≤ 0xFFFFFFFF ∨ (Script.ofText text).isBoundary 0xFFFFFFFF = true) {c : Cursor}
    (opened : Opened (Script.ofText text) c) (search : ParenSearch) (list : List Move) :
    let w := (Walk.start c).moves search list
    (w.cursor.script = Script.ofText text ∧ w.cursor.Sound) ∧
    (∀ saved ∈ w.saved, saved.script = Script.ofText text ∧ saved.Sound) ∧
    w.cursor.span.start ≤ w.cursor.span.stop ∧
    w.cursor.span.start.toNat + w.cursor.span.size.toNat = w.cursor.span.stop.toNat ∧
    ∀ m : Move, m ≠ .restore → w.cursor.pos ≤ (w.move search m).2.cursor.pos := by
  intro w
  have stop : (Script.ofText text).isBoundary (Script.ofText text).size = true :=
    whole.elim (fun fits => isBoundary_size (Nat.lt_succ_of_le fits)) Script.isBoundary_size_of_max
  have walked : w.All (SoundIn (Script.ofText text)) :=
    (Walk.All.start (opened.soundIn stop)).sound_moves search list
  obtain ⟨inText, sound⟩ := walked.cursor
  refine ⟨⟨inText.1, sound⟩, fun saved aside => ?_, sound.span_le, sound.toNat_size_span, fun m onward => ?_⟩
  · obtain ⟨there, well⟩ := walked.saved saved aside
    exact ⟨there.1, well⟩
  · exact (Walk.InText.of_all walked).pos_le_move search onward

/-- Behind a byte order mark, with a copy put aside, a rule run in between and the copy taken back. -/
theorem Cursor.walk_keeps_token_bounds_restored :
    ((Walk.start (ofScript (Script.ofText "\ufeffé (x"))).moves .byByte
      [.pass .take 1, .save, .mark, .rule .omitted, .toParen, .restore, .passBlanks .skip, .mark,
        .pass .skip 1]).cursor.span = ⟨3, 6⟩ ∧
    ((Walk.start (ofScript (Script.ofText "\ufeffé (x"))).moves .byByte
      [.pass .take 1, .save, .mark, .rule .omitted, .toParen, .restore, .passBlanks .skip, .mark,
        .pass .skip 1]).cursor.Sound :=
  ⟨by decide +kernel, (Cursor.walk_keeps_token_bounds (.inl (by decide)) .body .byByte _).1.2⟩

end HotkeyLex
