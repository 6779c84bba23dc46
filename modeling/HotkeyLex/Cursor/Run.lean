import HotkeyLex.Cursor.Basic

/-!
# Runs

Maximal runs of characters. A run goes on while the next character is in a class and reading it
makes progress; the second condition only matters for a class that holds the null character, where
the first one would never fail at the end of a script.

The search for a parenthesis has two forms, one on bytes and one on characters. They end at the
same place, since a byte below 128 never occurs inside a longer character.
-/

namespace HotkeyLex

/-- A cursor behind a run and the number of characters in the run. -/
structure Run where
  count : UInt32
  cursor : Cursor

/-- How to look for a parenthesis. -/
inductive ParenSearch where
  | byByte
  | byChar
  deriving DecidableEq, Repr

namespace Cursor

/-- Passes characters while `p` holds, counting on from `count`. -/
def passCounting (step : Step) (p : Char → Bool) (count : UInt32) (c : Cursor) : Run :=
  if p c.look then
    if c.pos < (c.pass step).pos then passCounting step p (count + 1) (c.pass step)
    else ⟨count, c⟩
  else ⟨count, c⟩
  termination_by c.room
  decreasing_by exact Cursor.room_lt (by assumption)

/-- Passes the longest run of characters for which `p` holds. -/
def passWhile (c : Cursor) (step : Step) (p : Char → Bool) : Run := c.passCounting step p 0

/-- Passes spaces and tabs and tells whether there were any. -/
def passBlanks (c : Cursor) (step : Step) : Outcome :=
  let run := c.passWhile step isBlank
  ⟨0 < run.count, run.cursor⟩

/-- Passes spaces, tabs and line breaks. -/
def passSpaces (c : Cursor) (step : Step) : Cursor := (c.passWhile step isSpace).cursor

/-- Takes word characters. -/
def passWord (c : Cursor) : Run := c.passWhile .take isWordChar

/-- Jumps to the next parenthesis, or to the end, by a search over bytes. -/
def toParenByByte (c : Cursor) : Cursor :=
  let distance := c.script.parenDistance c.pos
  if 0 < distance then { c with pos := c.pos + distance.toUInt32, taken := true } else c

/-- Takes characters up to the next parenthesis, or to the end. -/
def toParenByChar (c : Cursor) : Cursor :=
  if !c.atEnd && !isParen c.look then
    if c.pos < (c.pass .take).pos then toParenByChar (c.pass .take) else c
  else c
  termination_by c.room
  decreasing_by exact Cursor.room_lt (by assumption)

def toParen (c : Cursor) : ParenSearch → Cursor
  | .byByte => c.toParenByByte
  | .byChar => c.toParenByChar

end Cursor

end HotkeyLex
