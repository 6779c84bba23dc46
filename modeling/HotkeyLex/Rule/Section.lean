import HotkeyLex.Vocabulary
import HotkeyLex.Word

/-!
# Continuation section

A continuation section folds several lines into one. It opens with a parenthesis that is the first
character of a line and has nothing but options behind it:

    text := "
    ( LTrim Join`s Comments
        first line
        second line
    )"

The options are `join` with any text glued to it, the spellings of comments and trimming, and a
lone backtick. With anything else on its line the parenthesis opens an ordinary expression.
-/

namespace HotkeyLex.Rule

/-- Text that may be glued to `join`. -/
def isGlued (c : Char) : Bool := c != '\x00' && !isSpace c

/-- Takes a word and looks it up. -/
def wordOption (c : Cursor) (vocabulary : String → Bool) : Outcome :=
  let read := c.readWord Vocabulary.optionCapacity
  ⟨read.word.isIn vocabulary, read.cursor⟩

/-- Takes `join` and the text glued to it. -/
def joinOption (c : Cursor) : Outcome :=
  let head := c.passKeyword "join"
  if head.accepted then ⟨true, (head.cursor.passWhile .take isGlued).cursor⟩ else head

/-- Takes one option. Its first letter decides which one it can be. -/
def sectionOption (c : Cursor) : Outcome :=
  let first := c.look.toLower
  if first == 'j' then joinOption c
  else if first == 'c' then wordOption c Vocabulary.isCommentWord
  else if first == 'l' || first == 'r' then wordOption c Vocabulary.isTrimWord
  else if first == '\x60' then ⟨true, c.pass .take⟩
  else ⟨false, c⟩

/-- Takes options, with blanks between them or not, up to a line break. An option is never empty.
-/
def sectionOptions (c : Cursor) : Outcome :=
  if c.look == '\n' || c.look == '\r' then ⟨true, c⟩
  else
    let option := sectionOption c
    if option.accepted then
      let next := (option.cursor.passBlanks .take).cursor
      if c.pos < next.pos then sectionOptions next else ⟨false, c⟩
    else option
  termination_by c.room
  decreasing_by exact Cursor.room_lt (by assumption)

/-- Accepts the opening parenthesis of a section. The token is the parenthesis alone; the options
are read but not part of it. -/
def sectionOpen (c : Cursor) : Outcome :=
  let c := (c.passBlanks .skip).cursor
  if c.atEnd || !isLineEnd c.look then ⟨false, c⟩
  else
    let c := c.passSpaces .skip
    if c.look == '(' then sectionOptions ((c.pass .take).marked.passBlanks .take).cursor
    else ⟨false, c⟩

end HotkeyLex.Rule
