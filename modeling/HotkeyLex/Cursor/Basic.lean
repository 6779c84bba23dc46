import HotkeyLex.Script
import HotkeyLex.Span
import HotkeyLex.Text.CharClass

/-!
# Cursors

A cursor reads a script forward, one character at a time, and keeps the ends of the token that is
being built. It is a plain value: whoever wants to try something keeps the old cursor and drops
the new one.

A character is either taken or skipped. Skipped characters move the start of the token as long as
nothing was taken and no end is marked; afterwards they are passed over without a trace. The end
of the token is the last mark, or the place of reading if there is none.
-/

namespace HotkeyLex

/-- Whether a passed character counts for the token. -/
inductive Step where
  | take
  | skip
  deriving DecidableEq, Repr

structure Cursor where
  script : Script
  /-- Offset of the next character. -/
  pos : UInt32
  /-- Start of the token. -/
  start : UInt32
  /-- Marked end of the token. -/
  mark : Option UInt32
  /-- Something was taken. -/
  taken : Bool

/-- The verdict of a test and the cursor it leaves behind. A failed test may have read on. -/
structure Outcome where
  accepted : Bool
  cursor : Cursor

namespace Cursor

/-- A cursor that has read nothing, at an offset. -/
def fresh (s : Script) (offset : UInt32) : Cursor := ⟨s, offset, offset, none, false⟩

/-- A fresh cursor at the beginning of the body. -/
def ofScript (s : Script) : Cursor := fresh s s.bodyStart

/-- A fresh cursor at a position of the script. -/
def at? (s : Script) (offset : UInt32) : Option Cursor :=
  if s.isPosition offset then some (fresh s offset) else none

/-- The next character; the null character at the end. -/
def look (c : Cursor) : Char := c.script.charAt c.pos

def atEnd (c : Cursor) : Bool := c.script.size ≤ c.pos

/-- The offset behind the next character, never past the end of the text. -/
def nextPos (c : Cursor) : UInt32 :=
  min (c.pos + Script.leadWidth (c.script.byteAt c.pos)) c.script.size

/-- Passes one character; nothing happens at the end. -/
def pass (c : Cursor) (step : Step) : Cursor :=
  if c.atEnd then c
  else match step with
    | .take => { c with pos := c.nextPos, taken := true }
    | .skip =>
      if !c.taken && c.mark.isNone then { c with pos := c.nextPos, start := c.nextPos }
      else { c with pos := c.nextPos }

/-- Offsets above the place of reading. Every loop over a script ends because this falls. -/
def room (c : Cursor) : Nat := UInt32.size - c.pos.toNat

theorem room_lt {c d : Cursor} (progress : c.pos < d.pos) : d.room < c.room := by
  have before := UInt32.lt_iff_toNat_lt.mp progress
  have bound := d.pos.toNat_lt
  simp only [room, UInt32.size]
  omega

/-- The token, if accepted, ends here. -/
def marked (c : Cursor) : Cursor := { c with mark := some c.pos }

def span (c : Cursor) : Span := ⟨c.start, c.mark.getD c.pos⟩

/-- Passes up to `n` characters. -/
def passMany (c : Cursor) (step : Step) : Nat → Cursor
  | 0 => c
  | n + 1 => (c.pass step).passMany step n

end Cursor

end HotkeyLex
