/-!
# Comparison without case

Keywords are compared by their ASCII letters regardless of case; every other character stands only
for itself.
-/

namespace HotkeyLex

/-- The same character, or the same ASCII letter in either case. -/
def sameLetter (a b : Char) : Bool := a.toLower == b.toLower

/-- Letter by letter equality of two texts. -/
def sameWord (a b : String) : Bool := a.toList.map Char.toLower == b.toList.map Char.toLower

end HotkeyLex
