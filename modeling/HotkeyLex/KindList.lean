import HotkeyLex.KindSet
import HotkeyLex.Text.Fold
import HotkeyLex.Text.Pieces
import HotkeyLex.Text.White

/-!
# Lists of kinds

A set of kinds is written as a list of names with commas between them. White characters around a
name do not count, and neither do empty pieces.
-/

namespace HotkeyLex

/-- The text of a piece without white characters around it. -/
def trimmedPiece (piece : List Char) : String := String.ofList (trimWhite piece)

/-- The names in a list; empty pieces are no names. -/
def listedNames (list : String) : List String :=
  ((pieces ',' list.toList).map trimmedPiece).filter (· ≠ "")

/-- The set that a list describes. The word `all` in any mixture of cases is every kind, but only
if it is the whole list. -/
def KindSet.ofList (list : String) : Except UnknownKind KindSet :=
  if sameWord list "all" then .ok all else ofNames (listedNames list)

end HotkeyLex
