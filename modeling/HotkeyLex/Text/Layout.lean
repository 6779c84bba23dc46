/-!
# Columns

Text in a column of a given width. Widths count characters; a text that is too long for its column
keeps its length, and `cut` is the only operation that shortens.
-/

namespace HotkeyLex

inductive Align where
  | left
  | right
  | center
  deriving DecidableEq, Repr

/-- Blanks in front of a text for which `spare` columns are left. A centered text has the odd
blank behind it. -/
def Align.leading (a : Align) (spare : Nat) : Nat :=
  match a with
  | .left => 0
  | .right => spare
  | .center => spare / 2

/-- At most `most` characters of a text. -/
def cut (most : Option Nat) (text : String) : String :=
  match most with
  | none => text
  | some n => String.ofList (text.toList.take n)

/-- Fills a text with blanks up to `width` characters. -/
def pad (a : Align) (width : Nat) (text : String) : String :=
  let spare := width - text.length
  let front := a.leading spare
  String.ofList (List.replicate front ' ' ++ text.toList ++ List.replicate (spare - front) ' ')

end HotkeyLex
