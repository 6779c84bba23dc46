import HotkeyLex.Proofs.Sections
import HotkeyLex.Proofs.Unguarded

/-!
# Every loop ends

At the end of a script the null character is read again and again, and nothing is passed there. So a loop
without a guard gets on only if its test excludes the end; over a class with the null character it does not
(`counting_endless`). The tests of the scanner do, each in its own way: a class without the null character, a
test for the end, a parenthesis that was found, an option that is never empty (`moving_inText`). Hence the
machine without guards is faithful in a text, and no rule needs the guards of the loops, also in a text with
null characters or with parentheses that are not closed.
-/

namespace HotkeyLex

open Cursor (InText Passes)

namespace Cursor.InText

variable {s : Script} {c : Cursor} (closed : s.Closed) (h : InText s c)
include closed h

/-- An option that is accepted has a character at least. -/
theorem moves_of_option (takes : (Rule.sectionOption c).accepted = true) :
    c.pos.toNat < (Rule.sectionOption c).cursor.pos.toNat := by
  obtain ⟨script, before, rest, beyond, between⟩ := h
  rw [← script] at closed
  obtain ⟨front, after, rfl, option, behind⟩ :=
    recognizes_sectionOption.sound between (between.readsAsEnd closed) takes
  obtain ⟨letter, tail, rfl, -⟩ := option.begins
  exact UInt32.lt_iff_toNat_lt.1 (between.pos_lt behind (List.cons_ne_nil letter tail))

end Cursor.InText

/-- In a text, each loop that goes on has something to pass. -/
theorem moving_inText {s : Script} (closed : s.Closed) : Moving (InText s) where
  solid h := h.more_of_look closed
  ahead h more step := UInt32.lt_iff_toNat_lt.2 (h.pos_lt_pass more step)
  paren h search solid := by
    obtain ⟨found, later⟩ := h.toParen search
    have passed := found.pos_lt_pass (found.more_of_look closed solid) .take
    exact UInt32.lt_iff_toNat_lt.2 (Nat.lt_of_le_of_lt later passed)
  option {c} h takes := by
    have inner := h.reaches (Passes.sectionOption c).reaches
    have gap := inner.pos_le_of_reaches (Passes.passBlanks _ .take).reaches
    exact UInt32.lt_iff_toNat_lt.2
      (Nat.lt_of_lt_of_le (h.moves_of_option closed takes) (UInt32.le_iff_toNat_le.1 gap))

namespace Machine

section

variable {s : Script} (closed : s.Closed)
include closed

/-- In a text, the machine without guards does what the guarded one does. -/
theorem unguarded_faithful : unguarded.Faithful False (InText s) where
  kept := InText.reaches
  pass _ _ := rfl
  jump h := ⟨rfl, (h.toParen .byByte).1⟩
  tally _ _ := rfl
  idle _ := ⟨_, rfl⟩
  iterate turns _ start := Loop.run_eq turns start
  moving := .inr (moving_inText closed)

/-! ## Turns, whatever was counted before -/

/-- A run gets on whatever it has counted so far. -/
theorem unguarded_counting_turnsTo (step : Step) {p : Char → Bool} (solid : p '\x00' = false) (run : Run)
    (h : InText s run.cursor) :
    (unguarded.counting step p).TurnsTo False (InText s ·.cursor)
      (fun run => run.cursor.passCounting step p run.count) run :=
  (unguarded_faithful closed).counting_turnsTo step (.inr solid) (fun _ here => here)
    (fun _ here _ => ⟨rfl, here.pass step⟩) run h

omit closed in
theorem unguarded_nests (search : ParenSearch) : unguarded.Nests (InText s) search (InText s ·.cursor) where
  inside h := h
  deeper h _ := ⟨rfl, fun _ => (h.toParen search).1.pass .take⟩
  shallower h _ _ := ⟨rfl, fun _ => (h.toParen search).1.pass .take⟩

/-- Parentheses are closed from any depth. -/
theorem unguarded_closing_turnsTo (search : ParenSearch) (nest : Nesting) (h : InText s nest.cursor) :
    (unguarded.closing search).TurnsTo False (InText s ·.cursor)
      (fun nest => Rule.closeParens search nest.depth nest.cursor) nest :=
  (unguarded_faithful closed).closing_turnsTo (unguarded_nests search) nest h

/-- The count of parentheses ends without a guard. -/
theorem unguarded_closeParens {c : Cursor} (h : InText s c) (search : ParenSearch) (depth : UInt32) :
    (unguarded.closing search).run ⟨depth, c⟩ = .some (Rule.closeParens search depth c) :=
  Loop.run_eq (unguarded_closing_turnsTo closed search) h

theorem unguarded_closesLists : unguarded.ClosesLists (InText s) := by
  intro c search h _ list _
  have named := h.reaches (Passes.declaredName c).reaches
  have inner : InText s list := named.reaches (Passes.passBlanks _ .take).reaches
  exact unguarded_closeParens closed (inner.pass .take) search 1

end

/-- With the null character in its class, a run that has come to the end goes on forever. -/
theorem counting_endless {s : Script} (closed : s.Closed) {c : Cursor} (h : InText s c) (step : Step)
    {p : Char → Bool} (null : p '\x00' = true) (done : c.atEnd = true) (count : UInt32) :
    (unguarded.counting step p).run ⟨count, c⟩ = .none := by
  have look : c.look = '\x00' := by
    by_contra solid
    rw [h.more_of_look closed solid] at done
    cases done
  refine Part.eq_none_iff.2 fun result ends => ?_
  -- every turn goes on from the same cursor
  have moved : (⟨count, c⟩ : Run).cursor ≠ c := by
    refine PFun.fixInduction ends fun run _ others here => ?_
    have goes : .inr ⟨run.count + 1, run.cursor.pass step⟩ ∈ (unguarded.counting step p).turn run := by
      simp [counting, unguarded, here, look, null]
    refine others _ goes ?_
    rw [here, Cursor.pass_of_atEnd step done]
  exact moved rfl

end Machine

/-- Wherever a walk leads, every turn of a loop that goes on moves the cursor and leaves it in the text, every
loop ends, and so does every rule and every choice, with what the guarded form gives. The text may be longer
than offsets can tell, if a zero byte stands where it is cut. -/
theorem Cursor.every_loop_ends {text : String}
    (closed : text.utf8ByteSize ≤ 0xFFFFFFFF ∨ (Script.ofText text).byteAt 0xFFFFFFFF = 0) {entry : Cursor}
    (opened : Opened (Script.ofText text) entry) (search : ParenSearch) (list : List Move) :
    let c := ((Walk.start entry).moves search list).cursor
    (∀ (step : Step) (p : Char → Bool), p '\x00' = false →
      ∀ count, (Machine.unguarded.counting step p).Ends ⟨count, c⟩) ∧
    (∀ word, Machine.unguarded.reading.Ends ⟨word, c⟩) ∧
    Machine.unguarded.searching.Ends c ∧
    (∀ way depth, (Machine.unguarded.closing way).Ends ⟨depth, c⟩) ∧
    Machine.unguarded.options.Ends c ∧
    (∀ (kind : Kind) way, Machine.unguarded.rule kind way c = .some (kind.rule way c)) ∧
    ∀ way valid, Machine.unguarded.choose c way valid = .some (c.choose way valid) := by
  intro c
  have zero := Script.closed_ofText closed
  have walked := (Walk.All.start (opened.soundIn zero.isBoundary_size)).sound_moves search list
  obtain ⟨h, -⟩ : c.SoundIn (Script.ofText text) := walked.cursor
  have f := Machine.unguarded_faithful zero
  have lists := Machine.unguarded_closesLists zero
  refine ⟨?_, ?_, ?_, ?_, ?_, ?_, ?_⟩
  · intro step p solid count
    exact Loop.ends (Machine.unguarded_counting_turnsTo zero step solid) (fun _ here => here) h
  · intro word
    have turns : ∀ read : WordRead, InText (Script.ofText text) read.cursor → _ := f.reading_turnsTo
    exact Loop.ends turns (fun _ here => here) h
  · exact Loop.ends f.searching_turnsTo (fun _ here => here) h
  · intro way depth
    exact Loop.ends (Machine.unguarded_closing_turnsTo zero way) (fun _ here => here) h
  · exact Loop.ends f.options_turnsTo (fun _ here => here) h
  · intro kind way
    exact f.rule h lists kind way
  · intro way valid
    exact f.choose h lists way valid

/-- A list that is never closed, with a null character in it, is read to the end of the text. -/
theorem Cursor.every_loop_ends_open :
    (Machine.unguarded.counting .skip isSpace).Ends ⟨0, ofScript (Script.ofText "f((\x00")⟩ ∧
    (Machine.unguarded.rule .declaration .byChar (ofScript (Script.ofText "f((\x00"))).map (·.cursor.pos) =
      .some 4 := by
  have opened : Opened (Script.ofText "f((\x00") (ofScript (Script.ofText "f((\x00")) := .body
  obtain ⟨runs, -, -, -, -, rules, -⟩ := every_loop_ends (.inl (by decide)) opened .byChar []
  refine ⟨runs .skip isSpace rfl 0, ?_⟩
  have returns : Machine.unguarded.rule .declaration .byChar (ofScript (Script.ofText "f((\x00")) =
      .some (Rule.declaration .byChar (ofScript (Script.ofText "f((\x00"))) := rules .declaration .byChar
  rw [returns, Part.map_some]
  exact congrArg Part.some (by decide +kernel)

end HotkeyLex
