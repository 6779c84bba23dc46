import HotkeyLex.Choice
import HotkeyLex.Text.Decimal
import HotkeyLex.Text.Layout
import HotkeyLex.Tool.Fault

/-!
# Listings

The lines that each command writes. A sweep goes through the offsets of a script, has a line for every
one with a token, and counts the kinds as it goes. At the end it tells the total and every kind that
occurred.
-/

namespace HotkeyLex.Tool

/-- The warnings about a script. -/
def warnings (path : String) (s : Script) : List String :=
  s.flaws.map fun flaw =>
    "warning: " ++ path ++ ": " ++ flaw.kind.phrase ++ " at byte " ++ decimal flaw.pos.toNat ++
      " reads as end of line\n"

/-- The line of a probe that found a token, and of one that did not. -/
def probeLine (offset : UInt32) : Option Token → String
  | some token => token.kind.name ++ " @ " ++ token.span.render ++ "\n"
  | none => "no external token at " ++ decimal offset.toNat ++ "\n"

/-- One token of a sweep: offset, kind and span in columns. -/
def sweepLine (found : UInt32 × Token) : String :=
  pad .right 6 (decimal found.1.toNat) ++ "  " ++ pad .left 26 found.2.kind.name ++ " " ++
    found.2.span.render ++ "\n"

/-- A sweep on its way: the lines so far, and a counter for each kind at its number. -/
structure Sweep where
  lines : Array String
  counts : Array Nat

namespace Sweep

def start : Sweep := ⟨#[], Array.replicate Kind.all.length 0⟩

/-- One offset. A token is looked for only where a character begins. -/
def visit (s : Script) (valid : KindSet) (w : Sweep) (offset : UInt32) : Sweep :=
  if s.isBoundary offset then
    match s.tokenAt? offset valid with
    | some token => ⟨w.lines.push (sweepLine (offset, token)), w.counts.modify token.kind.index (· + 1)⟩
    | none => w
  else w

/-- The counters of all kinds together. -/
def total (w : Sweep) : Nat := w.counts.foldl (· + ·) 0

/-- The line that counts a kind, if there is something to count. -/
def countLine? (w : Sweep) (kind : Kind) : Option String :=
  let count := w.counts.getD kind.index 0
  if 0 < count then some ("  " ++ kind.name ++ ": " ++ decimal count ++ "\n") else none

/-- The total and the counts of the kinds that occur. -/
def summaryLines (w : Sweep) : List String :=
  (decimal w.total ++ " external tokens\n") :: Kind.all.filterMap w.countLine?

/-- A sweep behind the last offset. -/
def ofScript (s : Script) (valid : KindSet) : Sweep := s.offsets.foldl (visit s valid) start

end Sweep

def sweepLines (s : Script) (valid : KindSet) : List String :=
  let w := Sweep.ofScript s valid
  w.lines.toList ++ w.summaryLines

def kindLines : List String :=
  Kind.all.map fun kind => decimal kind.index ++ " " ++ kind.name ++ "\n"

/-- The line of a probe, unless no cursor may be put at the offset. -/
def probeLines (s : Script) (offset : UInt32) (valid : KindSet) : Except Fault (List String) :=
  match Cursor.at? s offset with
  | none => .error (.noPosition offset s.size)
  | some _ => .ok [probeLine offset (s.tokenAt? offset valid)]

end HotkeyLex.Tool
