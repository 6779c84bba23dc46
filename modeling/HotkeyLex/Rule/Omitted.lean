import HotkeyLex.Cursor.Run

/-!
# Omitted argument

In `f(a, , c)` nothing stands between two commas. The grammar asks only behind a separator, so a
comma with nothing but spaces in front of it is enough.
-/

namespace HotkeyLex.Rule

/-- Accepts spaces in front of a comma. The comma is left alone. -/
def omitted (c : Cursor) : Outcome :=
  let c := c.passSpaces .skip
  ⟨c.look == ',', c⟩

end HotkeyLex.Rule
