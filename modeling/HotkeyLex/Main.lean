import HotkeyLex.Tool.Program

/-!
# Command line

Reads the one file that the arguments name, runs the program on it, and writes its two texts.
-/

namespace HotkeyLex.Tool

/-- The words and the number of an error of the system. -/
def SystemFault.ofError : IO.Error → SystemFault
  | .alreadyExists _ code words | .interrupted _ code words | .noFileOrDirectory _ code words
  | .invalidArgument _ code words | .permissionDenied _ code words
  | .resourceExhausted _ code words | .inappropriateType _ code words
  | .noSuchThing _ code words | .otherError code words | .resourceBusy code words
  | .resourceVanished code words | .unsupportedOperation code words | .hardwareFault code words
  | .unsatisfiedConstraints code words | .illegalOperation code words
  | .protocolError code words | .timeExpired code words => ⟨words, some code.toNat⟩
  | .unexpectedEof => ⟨"unexpected end of file", none⟩
  | .userError words => ⟨words, none⟩

/-- The content of a file on disk. -/
def contentOf (path : String) : IO (Except SystemFault ByteArray) := do
  try
    let file ← IO.FS.Handle.mk path .read
    return .ok (← file.readBinToEnd)
  catch e => return .error (.ofError e)

/-- Access to the file that the arguments name. -/
def accessFor (args : List String) : IO FileAccess := do
  match (Request.ofArgs args).toOption.bind (·.command.path?) with
  | none => return fun _ => .error .notFound
  | some path =>
    let content ← contentOf path
    return fun _ => content

end HotkeyLex.Tool

open HotkeyLex.Tool in
def main (args : List String) : IO UInt32 := do
  let exit := program args (← accessFor args)
  (← IO.getStderr).write exit.diag
  try
    (← IO.getStdout).write exit.out
    (← IO.getStdout).flush
    return exit.code
  catch e =>
    (← IO.getStderr).putStr (Fault.unwritable (.ofError e)).line
    return 1
