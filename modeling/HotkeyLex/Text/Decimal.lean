/-!
# Decimal numbers

Numbers are written in decimal without leading zeros. An offset is read more freely: at most one
plus sign may stand in front and zeros may lead, as long as the value fits in 32 bits.
-/

namespace HotkeyLex

def decimal (n : Nat) : String := String.ofList (Nat.toDigits 10 n)

/-- The number that a list of digits spells, after a part worth `value`. -/
def digitsFrom (value : Nat) : List Char → Option Nat
  | [] => some value
  | c :: cs => if c.isDigit then digitsFrom (10 * value + (c.toNat - '0'.toNat)) cs else none

/-- At least one digit and nothing else. -/
def digits? (text : List Char) : Option Nat :=
  match text with
  | [] => none
  | c :: cs => digitsFrom 0 (c :: cs)

def offset? (text : String) : Option UInt32 :=
  let unsigned := match text.toList with
    | '+' :: cs => cs
    | cs => cs
  match digits? unsigned with
  | some n => if n < UInt32.size then some n.toUInt32 else none
  | none => none

end HotkeyLex
