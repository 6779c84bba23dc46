import HotkeyLex.Kind
import HotkeyLex.Text.Decimal

/-!
# Faults of the tool

Everything that can keep a command from finishing, as a cause. The wording is in `Fault.message`
alone.
-/

namespace HotkeyLex.Tool

/-- Why a file or a channel failed: the words of the system and, if it gave one, its number. -/
structure SystemFault where
  words : String
  code : Option Nat
  deriving DecidableEq, Repr

namespace SystemFault

def message (f : SystemFault) : String :=
  match f.code with
  | some code => f.words ++ " (os error " ++ decimal code ++ ")"
  | none => f.words

def notFound : SystemFault := ⟨"No such file or directory", some 2⟩

def notDirectory : SystemFault := ⟨"Not a directory", some 20⟩

def isDirectory : SystemFault := ⟨"Is a directory", some 21⟩

def nameTooLong : SystemFault := ⟨"File name too long", some 36⟩

/-- No path holds a null character. -/
def nullInName : SystemFault := ⟨"file name contained an unexpected NUL byte", none⟩

/-- A channel took no more bytes. -/
def channelFull : SystemFault := ⟨"failed to write whole buffer", none⟩

end SystemFault

/-- Parts a command line can lack. -/
inductive Part where
  | command
  | path
  | offset
  deriving DecidableEq, Repr

def Part.phrase : Part → String
  | .command => "command"
  | .path => "file path"
  | .offset => "--at=<offset>"

inductive Fault where
  | unreadable (path : String) (cause : SystemFault)
  | notUnicode (path : String)
  | badOffset (text : String)
  /-- No cursor may be put at the offset in a script of this size. -/
  | noPosition (offset size : UInt32)
  | unknownKind (cause : UnknownKind)
  | unknownCommand (word : String)
  | unknownOption (word : String)
  | missing (part : Part)
  | unwritable (cause : SystemFault)
  deriving DecidableEq, Repr

def Fault.message : Fault → String
  | .unreadable path cause => "cannot read '" ++ path ++ "': " ++ cause.message
  | .notUnicode path => "'" ++ path ++ "' contains invalid UTF-8 data"
  | .badOffset text => "invalid offset '" ++ text ++ "': expected a byte offset"
  | .noPosition offset size =>
    "offset " ++ decimal offset.toNat ++ " is not a character boundary of the script (" ++
      decimal size.toNat ++ " bytes)"
  | .unknownKind cause => cause.message
  | .unknownCommand word => "unknown command '" ++ word ++ "'"
  | .unknownOption word => "unknown option '" ++ word ++ "'"
  | .missing part => "missing " ++ part.phrase
  | .unwritable cause => "cannot write output: " ++ cause.message

end HotkeyLex.Tool
