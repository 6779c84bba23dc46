import HotkeyLex.KindList
import HotkeyLex.Text.Decimal
import HotkeyLex.Tool.Fault

/-!
# Command lines

    probe <file> --at=<offset> [--valid=<kinds>]
    sweep <file> [--valid=<kinds>]
    kinds

Options and the file may come in any order behind the command. The arguments are judged from left
to right, and the first bad one decides, before the command word is looked at. An option given
twice has its last value.
-/

namespace HotkeyLex.Tool

inductive Command where
  /-- Chooses a token at one offset. -/
  | probe (path : String) (offset : UInt32)
  /-- Chooses a token at every position. -/
  | sweep (path : String)
  /-- Lists the kinds. -/
  | kinds
  deriving DecidableEq, Repr

/-- The file a command reads. -/
def Command.path? : Command → Option String
  | .probe path _ => some path
  | .sweep path => some path
  | .kinds => none

structure Request where
  command : Command
  /-- Kinds that may be found. -/
  valid : KindSet
  deriving DecidableEq, Repr

/-- An argument behind the command, by its form. -/
inductive Argument where
  | offset (text : String)
  | kinds (list : String)
  /-- Begins with a dash and is no known option. -/
  | stray
  | operand
  deriving DecidableEq, Repr

/-- What is left of a text behind its first characters `head`. -/
def after? (head text : String) : Option String :=
  (head.toList.isPrefixOf? text.toList).map String.ofList

def Argument.ofText (text : String) : Argument :=
  match after? "--at=" text with
  | some rest => .offset rest
  | none => match after? "--valid=" text with
    | some rest => .kinds rest
    | none => if (after? "-" text).isSome then .stray else .operand

/-- What the arguments so far have settled. -/
structure Settings where
  path : Option String
  offset : Option UInt32
  valid : KindSet
  deriving DecidableEq, Repr

namespace Settings

def initial : Settings := ⟨none, none, .all⟩

/-- Judges one argument. -/
def add (s : Settings) (text : String) : Except Fault Settings :=
  match Argument.ofText text with
  | .offset value => match offset? value with
    | some offset => .ok { s with offset := some offset }
    | none => .error (.badOffset value)
  | .kinds list => match KindSet.ofList list with
    | .ok valid => .ok { s with valid }
    | .error cause => .error (.unknownKind cause)
  | .stray => .error (.unknownOption text)
  | .operand =>
    if s.path.isNone then .ok { s with path := some text } else .error (.unknownOption text)

/-- Judges arguments from left to right up to the first bad one. -/
def addAll (s : Settings) : List String → Except Fault Settings
  | [] => .ok s
  | text :: texts => match s.add text with
    | .ok s => s.addAll texts
    | .error fault => .error fault

/-- The command with what it needs. A missing file is noticed before a missing offset. -/
def command (s : Settings) (word : String) : Except Fault Command :=
  if word == "probe" then
    match s.path, s.offset with
    | none, _ => .error (.missing .path)
    | some _, none => .error (.missing .offset)
    | some path, some offset => .ok (.probe path offset)
  else if word == "sweep" then
    match s.path with
    | none => .error (.missing .path)
    | some path => .ok (.sweep path)
  else if word == "kinds" then .ok .kinds
  else .error (.unknownCommand word)

end Settings

/-- Reads a command line. -/
def Request.ofArgs : List String → Except Fault Request
  | [] => .error (.missing .command)
  | word :: texts => match Settings.initial.addAll texts with
    | .error fault => .error fault
    | .ok settings => match settings.command word with
      | .error fault => .error fault
      | .ok command => .ok ⟨command, settings.valid⟩

end HotkeyLex.Tool
