import HotkeyLex.Cursor.Run
import HotkeyLex.Text.Fold

/-!
# Words

A word that was read keeps its first characters in lower case, up to a capacity, and its full
length. A word longer than its capacity has no folded form at all, so it never passes for a
keyword that it merely begins with.

A keyword can also be read letter by letter without regard to what follows it.
-/

namespace HotkeyLex

structure Word where
  capacity : Nat
  /-- The first characters in lower case, at most `capacity` of them. -/
  kept : String
  /-- Number of characters, kept or not. -/
  length : Nat
  deriving DecidableEq, Repr

namespace Word

def empty (capacity : Nat) : Word := ⟨capacity, "", 0⟩

/-- One more character. -/
def push (w : Word) (c : Char) : Word :=
  { w with
    kept := if w.length < w.capacity then w.kept.push c.toLower else w.kept
    length := w.length + 1 }

def isEmpty (w : Word) : Bool := w.length == 0

def isTruncated (w : Word) : Bool := w.capacity < w.length

/-- The word in lower case, unless it was too long. -/
def folded? (w : Word) : Option String := if w.isTruncated then none else some w.kept

/-- The word was kept whole and is in a vocabulary. -/
def isIn (w : Word) (vocabulary : String → Bool) : Bool := w.folded?.any vocabulary

/-- The word was kept whole and is `keyword` in some mixture of cases. -/
def spells (w : Word) (keyword : String) : Bool := w.isIn (sameWord · keyword)

end Word

/-- A word and the cursor behind it. -/
structure WordRead where
  word : Word
  cursor : Cursor

namespace Cursor

/-- Takes word characters and adds them to a word. -/
def readOnto (word : Word) (c : Cursor) : WordRead :=
  if isWordChar c.look then
    if c.pos < (c.pass .take).pos then readOnto (word.push c.look) (c.pass .take)
    else ⟨word, c⟩
  else ⟨word, c⟩
  termination_by c.room
  decreasing_by exact Cursor.room_lt (by assumption)

/-- Takes a maximal run of word characters, possibly an empty one. -/
def readWord (c : Cursor) (capacity : Nat) : WordRead := c.readOnto (.empty capacity)

/-- Takes the given letters in either case. Stops at the first that differs; what agreed before it
stays taken. -/
def passLetters (c : Cursor) : List Char → Outcome
  | [] => ⟨true, c⟩
  | letter :: letters =>
    if sameLetter c.look letter then (c.pass .take).passLetters letters else ⟨false, c⟩

def passKeyword (c : Cursor) (keyword : String) : Outcome := c.passLetters keyword.toList

end Cursor

end HotkeyLex
