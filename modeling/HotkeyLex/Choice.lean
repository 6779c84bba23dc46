import HotkeyLex.KindSet
import HotkeyLex.Rule.Optional
import HotkeyLex.Rule.Omitted
import HotkeyLex.Rule.Juxtaposition
import HotkeyLex.Rule.Section
import HotkeyLex.Rule.LineBreak
import HotkeyLex.Rule.Declaration

/-!
# Choice of a token

The rules are tried in a fixed order, each only if its kind is asked for, and the first that
accepts wins. The declaration comes last because it may read to the end of the script.

Every attempt starts from the same cursor. A declined attempt is dropped with all it read and
marked; an accepted one gives the new cursor.
-/

namespace HotkeyLex

/-- One rule in its place. -/
structure Row where
  kind : Kind
  /-- The end is marked before the rule runs, so that the token is empty unless the rule marks
  again. -/
  marksEntry : Bool
  rule : Cursor → Outcome

/-- A rule that was tried and its verdict. -/
structure Attempt where
  kind : Kind
  accepted : Bool
  deriving DecidableEq, Repr

/-- An accepted token. -/
structure Token where
  kind : Kind
  span : Span
  deriving DecidableEq, Repr

/-- What a choice came to: the kind, the cursor to go on with, and the attempts in order. -/
structure Choice where
  kind? : Option Kind
  cursor : Cursor
  attempts : List Attempt

/-- The accepted kind with the span that the cursor has built. -/
def Choice.token? (v : Choice) : Option Token := v.kind?.map (⟨·, v.cursor.span⟩)

/-- The rule of a kind. -/
def Kind.rule (kind : Kind) (search : ParenSearch) : Cursor → Outcome :=
  match kind with
  | .optional => Rule.optional
  | .declaration => Rule.declaration search
  | .omitted => Rule.omitted
  | .juxtaposition => Rule.juxtaposition
  | .sectionOpen => Rule.sectionOpen
  | .lineBreak => Rule.lineBreak

/-- The kinds whose end is marked before their rule runs. -/
def Kind.marksEntry : Kind → Bool
  | .omitted | .juxtaposition | .declaration => true
  | .optional | .sectionOpen | .lineBreak => false

/-- The order in which kinds are tried. -/
def priority : List Kind :=
  [.optional, .omitted, .juxtaposition, .sectionOpen, .lineBreak, .declaration]

def Kind.row (search : ParenSearch) (kind : Kind) : Row :=
  ⟨kind, kind.marksEntry, kind.rule search⟩

@[simp] theorem Kind.row_kind (search : ParenSearch) (kind : Kind) : (kind.row search).kind = kind := rfl

/-- The rules in the order in which they are tried. -/
def table (search : ParenSearch) : List Row := priority.map (Kind.row search)

/-- Runs the rule of a row from a cursor. -/
def Row.attempt (row : Row) (c : Cursor) : Outcome :=
  row.rule (if row.marksEntry then c.marked else c)

namespace Cursor

/-- The first row whose kind is valid and whose rule accepts. -/
def firstOf (c : Cursor) (valid : KindSet) : List Row → Choice
  | [] => ⟨none, c, []⟩
  | row :: rows =>
    if valid.has row.kind then
      let outcome := row.attempt c
      if outcome.accepted then ⟨some row.kind, outcome.cursor, [⟨row.kind, true⟩]⟩
      else
        let rest := c.firstOf valid rows
        { rest with attempts := ⟨row.kind, false⟩ :: rest.attempts }
    else c.firstOf valid rows

/-- The token at a cursor among the valid kinds. -/
def choose (c : Cursor) (search : ParenSearch) (valid : KindSet) : Choice :=
  c.firstOf valid (table search)

end Cursor

namespace Script

/-- The choice at an offset, if a cursor may be put there. -/
def choiceAt? (s : Script) (offset : UInt32) (valid : KindSet) : Option Choice :=
  (Cursor.at? s offset).map (·.choose .byByte valid)

/-- The token at an offset, if there is one. -/
def tokenAt? (s : Script) (offset : UInt32) (valid : KindSet) : Option Token :=
  (s.choiceAt? offset valid).bind Choice.token?

end Script

end HotkeyLex
