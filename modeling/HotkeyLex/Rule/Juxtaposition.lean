import HotkeyLex.Vocabulary
import HotkeyLex.Word

/-!
# Juxtaposition

Blanks between two operands join them: `"a" "b"` and `x y`. Blanks also separate everything else,
so the rule excludes the other readings of the gap: the line ends, an operator follows, a sign
follows that stands apart from its operand or is doubled, or the next word is a verbal operator.
-/

namespace HotkeyLex.Rule

/-- A sign that belongs to the operand right behind it, as in `x -y`. -/
def signedOperand (c : Cursor) : Outcome :=
  let sign := c.look
  let gap := (c.pass .take).passBlanks .take
  let c := gap.cursor
  ⟨!(gap.accepted || c.look == sign || c.atEnd) && beginsOperand c.look, c⟩

/-- An operand that is not a verbal operator. Only a word with the right first letter is read. -/
def plainOperand (c : Cursor) : Outcome :=
  if beginsVerb c.look then
    let read := c.readWord Vocabulary.operatorCapacity
    ⟨!read.word.isIn Vocabulary.isOperatorWord, read.cursor⟩
  else ⟨true, c⟩

/-- Accepts blanks in front of an operand. The end is marked behind the blanks, also before a sign
that turns out to be an operator. -/
def juxtaposition (c : Cursor) : Outcome :=
  let gap := c.passBlanks .take
  let c := gap.cursor
  if !gap.accepted || c.atEnd || isLineEnd c.look || beginsOperator c.look then ⟨false, c⟩
  else if isSign c.look then signedOperand c.marked
  else if beginsOperand c.look then plainOperand c.marked
  else ⟨false, c⟩

end HotkeyLex.Rule
