import HotkeyLex.Proofs.Machines
import HotkeyLex.Proofs.Runs
import HotkeyLex.Walk

/-!
# Checked arithmetic

The offsets of a cursor, the count of a run and the depth of a parameter list are words of 32 bits, whose
arithmetic wraps. The machine `checked` has arithmetic that fails where a word would wrap or a number would
be cut to become one. It also fails where one of the bounds is missed that keep the words from wrapping: the
next offset lies in the text, a run counts no more characters than it passes bytes, and the depth is at most
the number of parentheses opened so far, of which there are fewer than bytes in the script. The last two are
the bounds of the loops, and are tested before each of their turns.

A checked walk does on this machine what a walk does.
-/

namespace HotkeyLex

/-! ## Words -/

/-- The sum of two words, if it is one. -/
def sum? (a b : UInt32) : Option UInt32 := if a.toNat + b.toNat < UInt32.size then some (a + b) else none

/-- The difference of two words, if it is one. -/
def difference? (a b : UInt32) : Option UInt32 := if b.toNat ≤ a.toNat then some (a - b) else none

/-- A number as a word, if it is one. -/
def word? (n : Nat) : Option UInt32 := if n < UInt32.size then some n.toUInt32 else none

namespace Cursor

/-! ## Cursors -/

/-- The next offset is the sum as it is, without a cut at the end of the text. -/
def pass? (c : Cursor) (step : Step) : Option Cursor :=
  if c.atEnd then return c
  else do
    let next ← sum? c.pos (Script.leadWidth (c.script.byteAt c.pos))
    guard (next ≤ c.script.size)
    return c.movedTo step next

/-- The distance becomes a word as it is. -/
def toParenByByte? (c : Cursor) : Option Cursor :=
  let distance := c.script.parenDistance c.pos
  if 0 < distance then do
    let pos ← sum? c.pos (← word? distance)
    guard (pos ≤ c.script.size)
    return { c with pos := pos, taken := true }
  else return c

end Cursor

/-- The machine whose words never wrap: it has no result where one would, or where a bound is missed. -/
def Machine.checked : Machine Option where
  pass := Cursor.pass?
  jump := Cursor.toParenByByte?
  -- a turn that passes nothing is given up, and its count with it
  tally c d count := if c.pos < d.pos then sum? count 1 else return count
  deeper depth := sum? depth 1
  shallower depth := difference? depth 1
  iterate l state := l.guarded (fun held => guard held) state state

namespace Walk

/-! ## Walks -/

/-- One move of a walk on the checked machine. -/
def move? (w : Walk) (search : ParenSearch) : Move → Option (Answer × Walk)
  | .pass step times => do return (.done, { w with cursor := ← Machine.checked.passMany w.cursor step times })
  | .mark => return w.move search .mark
  | .passWhile step p => do
    let run ← Machine.checked.passWhile w.cursor step p
    return (.count run.count, { w with cursor := run.cursor })
  | .passBlanks step => do
    let outcome ← Machine.checked.passBlanks w.cursor step
    return (.verdict outcome.accepted, { w with cursor := outcome.cursor })
  | .passSpaces step => do return (.done, { w with cursor := ← Machine.checked.passSpaces w.cursor step })
  | .toParen => do return (.done, { w with cursor := ← Machine.checked.toParen w.cursor search })
  | .readWord capacity => do
    let read ← Machine.checked.readWord w.cursor capacity
    return (.word read.word, { w with cursor := read.cursor })
  | .passWord => do
    let run ← Machine.checked.passWord w.cursor
    return (.count run.count, { w with cursor := run.cursor })
  | .passKeyword keyword => do
    let outcome ← Machine.checked.passKeyword w.cursor keyword
    return (.verdict outcome.accepted, { w with cursor := outcome.cursor })
  | .rule kind => do
    let outcome ← Machine.checked.rule kind search w.cursor
    return (.verdict outcome.accepted, { w with cursor := outcome.cursor })
  | .choose valid => do
    let v ← Machine.checked.choose w.cursor search valid
    return (.choice v.kind? v.attempts, { w with cursor := v.cursor })
  | .save => return w.move search .save
  | .restore => return w.move search .restore

/-- Moves one after the other on the checked machine. -/
def moves? (w : Walk) (search : ParenSearch) (list : List Move) : Option Walk :=
  list.foldlM (fun w m => do return (← w.move? search m).2) w

end Walk

end HotkeyLex
