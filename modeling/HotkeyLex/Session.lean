import HotkeyLex.Choice
import HotkeyLex.Event

/-!
# Sessions

An editor parses a script again and again and keeps what a lexer wants to remember between calls.
This one remembers nothing: its saved state is empty, and any other state that is handed to it
came from somewhere else and is ignored.
-/

namespace HotkeyLex

/-- One parse of a script. -/
structure Session where
  deriving DecidableEq, Repr

namespace Session

/-- Bytes an editor sets aside for a saved state. -/
def stateRoom : Nat := 1024

def fresh : Session := {}

/-- Gets ready for another script. -/
def restart (_ : Session) : Session := fresh

/-- Writes the state into the editor's room and tells how many bytes it took. -/
def save (_ : Session) (room : ByteArray) : ByteArray × Nat := (room, 0)

/-- Takes over a saved state. An empty one means a fresh session. -/
def restore (s : Session) (state : ByteArray) : Session × List Event :=
  (s, if state.size == 0 then [] else [.ignoredState state.size])

def choose (_ : Session) (c : Cursor) (search : ParenSearch) (valid : KindSet) : Choice :=
  c.choose search valid

end Session

end HotkeyLex
