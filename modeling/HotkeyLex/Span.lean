import HotkeyLex.Text.Decimal

/-!
# Spans

A half-open range of byte offsets in a script.
-/

namespace HotkeyLex

structure Span where
  start : UInt32
  stop : UInt32
  deriving DecidableEq, Repr, Inhabited

namespace Span

/-- Number of bytes covered. -/
def size (s : Span) : UInt32 := s.stop - s.start

def isEmpty (s : Span) : Bool := s.start == s.stop

/-- Both ends in decimal with two dots between them. -/
def render (s : Span) : String := decimal s.start.toNat ++ ".." ++ decimal s.stop.toNat

/-- The empty span at the very beginning. -/
def origin : Span := ⟨0, 0⟩

end Span

end HotkeyLex
