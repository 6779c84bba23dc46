import HotkeyLex.Choice

/-!
# Walks

Everything a reader can do with a cursor, as a sequence of moves. A walk keeps the cursor and the
copies that were put aside, and each move gives an answer.
-/

namespace HotkeyLex

inductive Move where
  | pass (step : Step) (times : Nat)
  | mark
  | passWhile (step : Step) (p : Char → Bool)
  | passBlanks (step : Step)
  | passSpaces (step : Step)
  | toParen
  | readWord (capacity : Nat)
  | passWord
  | passKeyword (keyword : String)
  /-- Runs the rule of one kind; what a declined rule has read stays read. -/
  | rule (kind : Kind)
  | choose (valid : KindSet)
  /-- Puts a copy of the cursor aside. -/
  | save
  /-- Goes back to the copy put aside last. -/
  | restore

/-- What a move tells. -/
inductive Answer where
  | done
  | count (n : UInt32)
  | verdict (holds : Bool)
  | word (w : Word)
  | choice (kind? : Option Kind) (attempts : List Attempt)
  deriving DecidableEq, Repr

structure Walk where
  cursor : Cursor
  saved : List Cursor

namespace Walk

def start (c : Cursor) : Walk := ⟨c, []⟩

/-- One move. The copies stay as they are except in `save` and `restore`. -/
def move (w : Walk) (search : ParenSearch) : Move → Answer × Walk
  | .pass step times => (.done, { w with cursor := w.cursor.passMany step times })
  | .mark => (.done, { w with cursor := w.cursor.marked })
  | .passWhile step p =>
    let run := w.cursor.passWhile step p
    (.count run.count, { w with cursor := run.cursor })
  | .passBlanks step =>
    let outcome := w.cursor.passBlanks step
    (.verdict outcome.accepted, { w with cursor := outcome.cursor })
  | .passSpaces step => (.done, { w with cursor := w.cursor.passSpaces step })
  | .toParen => (.done, { w with cursor := w.cursor.toParen search })
  | .readWord capacity =>
    let read := w.cursor.readWord capacity
    (.word read.word, { w with cursor := read.cursor })
  | .passWord =>
    let run := w.cursor.passWord
    (.count run.count, { w with cursor := run.cursor })
  | .passKeyword keyword =>
    let outcome := w.cursor.passKeyword keyword
    (.verdict outcome.accepted, { w with cursor := outcome.cursor })
  | .rule kind =>
    let outcome := kind.rule search w.cursor
    (.verdict outcome.accepted, { w with cursor := outcome.cursor })
  | .choose valid =>
    let v := w.cursor.choose search valid
    (.choice v.kind? v.attempts, { w with cursor := v.cursor })
  | .save => (.done, { w with saved := w.cursor :: w.saved })
  | .restore =>
    match w.saved with
    | [] => (.verdict false, w)
    | c :: saved => (.verdict true, ⟨c, saved⟩)

/-- The walk after a sequence of moves. -/
def moves (w : Walk) (search : ParenSearch) (list : List Move) : Walk :=
  list.foldl (fun w m => (w.move search m).2) w

end Walk

end HotkeyLex
