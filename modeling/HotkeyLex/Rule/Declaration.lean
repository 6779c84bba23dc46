import HotkeyLex.Vocabulary
import HotkeyLex.Word

/-!
# Function declaration

A name and a parameter list begin a declaration if a block or an arrow follows the list, and a
call otherwise. Control flow such as `if (x)` is never a declaration, and behind `static` stands
the real name, which may then be any word.

The parameter list is passed by counting parentheses alone, through quotes, line breaks and null
bytes.
-/

namespace HotkeyLex.Rule

/-- Takes everything up to the parenthesis that closes the last of `depth` open ones. Fails only
at the end of the script. -/
def closeParens (search : ParenSearch) (depth : UInt32) (c : Cursor) : Outcome :=
  if depth == 0 then ⟨true, c⟩
  else
    let found := c.toParen search
    let next := found.pass .take
    if c.pos < next.pos then
      if found.look == '(' then closeParens search (depth + 1) next
      else if found.look == ')' then closeParens search (depth - 1) next
      else ⟨false, found⟩
    else ⟨false, found⟩
  termination_by c.room
  decreasing_by all_goals exact Cursor.room_lt (by assumption)

/-- Takes the name that is declared, and `static` in front of it. -/
def declaredName (c : Cursor) : Outcome :=
  let first := c.readWord Vocabulary.nameCapacity
  if first.word.spells Vocabulary.storage then
    let gap := first.cursor.passBlanks .take
    if gap.accepted then
      let name := gap.cursor.passWord
      ⟨0 < name.count, name.cursor⟩
    else ⟨false, gap.cursor⟩
  else ⟨!first.word.isIn Vocabulary.isReservedWord, first.cursor⟩

/-- A block or an arrow. -/
def bodyFollows (c : Cursor) : Outcome :=
  if c.look == '\x7b' then ⟨true, c⟩
  else if c.look == '=' then
    let c := c.pass .take
    ⟨c.look == '>', c⟩
  else ⟨false, c⟩

/-- Takes a parameter list, possibly with blanks in front. -/
def parameters (search : ParenSearch) (c : Cursor) : Outcome :=
  let c := (c.passBlanks .take).cursor
  if c.look == '(' then closeParens search 1 (c.pass .take) else ⟨false, c⟩

/-- Accepts a name, a parameter list and the beginning of a body. -/
def declaration (search : ParenSearch) (c : Cursor) : Outcome :=
  let c := c.passSpaces .skip
  if isWordChar c.look then
    let name := declaredName c
    if name.accepted then
      let list := parameters search name.cursor
      if list.accepted then bodyFollows (list.cursor.passSpaces .skip) else list
    else name
  else ⟨false, c⟩

end HotkeyLex.Rule
