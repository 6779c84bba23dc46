import HotkeyLex.Cursor.Run

/-!
# Optional mark

In `f(a, b?)` the question mark makes `b` optional; in `x ? a : b` it asks. It is a mark exactly
if only spaces and line breaks lie between it and a closing bracket, a comma, a colon or the end
of the script.
-/

namespace HotkeyLex.Rule

/-- Accepts a question mark with a follower of an optional mark. The token is the question mark
and the spaces behind it. -/
def optional (c : Cursor) : Outcome :=
  if c.look == '?' then
    let c := (c.pass .take).passSpaces .skip
    ⟨c.atEnd || mayFollowOptional c.look, c⟩
  else ⟨false, c⟩

end HotkeyLex.Rule
