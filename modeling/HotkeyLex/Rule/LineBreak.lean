import HotkeyLex.Cursor.Run

/-!
# Line break in a section

A carriage return with a line feed right behind it is one break. What the next line begins with is
left alone, since it may be content of the section.
-/

namespace HotkeyLex.Rule

/-- Accepts a line break, possibly with blanks in front. The token is the break without the
blanks. -/
def lineBreak (c : Cursor) : Outcome :=
  let c := (c.passBlanks .skip).cursor
  if c.look == '\n' then ⟨true, (c.pass .take).marked⟩
  else if c.look == '\r' then
    let c := c.pass .take
    ⟨true, (if c.look == '\n' then c.pass .take else c).marked⟩
  else ⟨false, c⟩

end HotkeyLex.Rule
