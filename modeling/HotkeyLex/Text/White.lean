/-!
# Trimming

The characters with the Unicode property `White_Space`, and texts without them at either end.
-/

namespace HotkeyLex

/-- Code point ranges of the property `White_Space`, both ends included, in increasing order. -/
def whiteRanges : List (Nat × Nat) :=
  [(0x9, 0xD), (0x20, 0x20), (0x85, 0x85), (0xA0, 0xA0), (0x1680, 0x1680), (0x2000, 0x200A),
   (0x2028, 0x2029), (0x202F, 0x202F), (0x205F, 0x205F), (0x3000, 0x3000)]

def isWhite (c : Char) : Bool := whiteRanges.any fun (lo, hi) => lo ≤ c.toNat && c.toNat ≤ hi

/-- The text between the first and the last character that is not white. -/
def trimWhite (text : List Char) : List Char :=
  ((text.dropWhile isWhite).reverse.dropWhile isWhite).reverse

end HotkeyLex
