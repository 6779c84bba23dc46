import HotkeyLex.Event
import HotkeyLex.Tool.Channel
import HotkeyLex.Tool.Listing
import HotkeyLex.Tool.Request

/-!
# Reports

How a command runs: results go to one channel, warnings to another. A file is read through a
function, so that a run is a plain value.
-/

namespace HotkeyLex.Tool

/-- The bytes of a file, or why it could not be read. -/
abbrev FileAccess := String → Except SystemFault ByteArray

/-- What a command leaves behind. -/
structure Report where
  result : Except Fault Unit
  out : Channel
  diag : Channel
  events : List Event

/-- Writes the lines of a command. -/
def Report.print (out diag : Channel) (events : List Event) (lines : List String) : Report :=
  let (fits, out) := out.writeAll lines
  ⟨if fits then .ok () else .error (.unwritable .channelFull), out, diag, events⟩

/-- The text of a file. -/
def textOf (read : FileAccess) (path : String) : Except Fault String :=
  match read path with
  | .error cause => .error (.unreadable path cause)
  | .ok bytes => match String.fromUTF8? bytes with
    | none => .error (.notUnicode path)
    | some text => .ok text

/-- Reads a script, warns about it, and goes on with it. -/
def withScript (read : FileAccess) (path : String) (out diag : Channel)
    (act : Script → Except Fault (List String)) : Report :=
  match textOf read path with
  | .error fault => ⟨.error fault, out, diag, []⟩
  | .ok text =>
    let script := Script.ofText text
    let events := [Event.loaded path text.utf8ByteSize]
    match diag.writeAll (warnings path script) with
    | (false, diag) => ⟨.error (.unwritable .channelFull), out, diag, events⟩
    | (true, diag) => match act script with
      | .error fault => ⟨.error fault, out, diag, events⟩
      | .ok lines => Report.print out diag events lines

/-- Runs a command. -/
def Request.run (request : Request) (read : FileAccess) (out diag : Channel) : Report :=
  match request.command with
  | .probe path offset => withScript read path out diag (probeLines · offset request.valid)
  | .sweep path => withScript read path out diag fun s => .ok (sweepLines s request.valid)
  | .kinds => Report.print out diag [] kindLines

end HotkeyLex.Tool
