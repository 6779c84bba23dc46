import HotkeyLex.Tool.Report

/-!
# The program

One run of the tool: its arguments and a way to read files in, an exit code and two texts out.
-/

namespace HotkeyLex.Tool

def usage : String :=
  "Usage: ahk-scan <command> [options]\n" ++
  "\n" ++
  "Commands:\n" ++
  "  probe <file> --at=<offset>   Run the external scanner at a byte offset\n" ++
  "  sweep <file>                 Run it at every character boundary\n" ++
  "  kinds                        List the external token kinds\n" ++
  "\n" ++
  "Options:\n" ++
  "  --valid=<kinds>   Comma-separated kinds the grammar accepts (default: all)\n" ++
  "\n" ++
  "Set RUST_LOG=trace to log every recognizer attempt.\n"

structure Exit where
  code : UInt32
  out : ByteArray
  diag : ByteArray

/-- The first argument asks for help, or there is none. -/
def asksForHelp : List String → Bool
  | [] => true
  | word :: _ => ["help", "--help", "-h"].contains word

/-- The line that reports a fault. -/
def Fault.line (fault : Fault) : String := "error: " ++ fault.message ++ "\n"

/-- What a finished command makes of the two channels. -/
def Report.exit (report : Report) : Exit :=
  match report.result with
  | .ok _ => ⟨0, report.out.written, report.diag.written⟩
  | .error fault => ⟨1, report.out.written, report.diag.written ++ fault.line.toUTF8⟩

def program (args : List String) (read : FileAccess) : Exit :=
  if asksForHelp args then ⟨0, .empty, usage.toUTF8⟩
  else match Request.ofArgs args with
    | .error fault => ⟨1, .empty, (fault.line ++ "\n" ++ usage).toUTF8⟩
    | .ok config => (config.run read (.ofLimit none) (.ofLimit none)).exit

end HotkeyLex.Tool
