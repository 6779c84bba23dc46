/-!
# Pieces between separators

A text cut at every occurrence of a character. The character itself is in no piece, and there is
always one more piece than there are occurrences.
-/

namespace HotkeyLex

/-- The stretches of a text between the characters `sep`, in order. -/
def pieces (sep : Char) : List Char → List (List Char)
  | [] => [[]]
  | c :: text =>
    if c == sep then [] :: pieces sep text
    else match pieces sep text with
      | [] => [[c]]
      | piece :: rest => (c :: piece) :: rest

end HotkeyLex
