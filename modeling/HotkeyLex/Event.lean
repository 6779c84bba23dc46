/-!
# Events

What a log would say about a run.
-/

namespace HotkeyLex

inductive Event where
  /-- A state of so many bytes was handed over and ignored. -/
  | ignoredState (size : Nat)
  /-- A script was read from a file. -/
  | loaded (path : String) (size : Nat)
  deriving DecidableEq, Repr

def Event.message : Event → String
  | .ignoredState _ => "ignoring external scanner state; the scanner is stateless"
  | .loaded .. => "loaded script"

end HotkeyLex
