/-!
# Channels

A channel collects the bytes written to it. It may have room for only so many; a text that does
not fit leaves the bytes that do, and the write has failed.
-/

namespace HotkeyLex.Tool

structure Channel where
  /-- Most bytes the channel takes in all. -/
  limit : Option Nat
  written : ByteArray

namespace Channel

def ofLimit (limit : Option Nat) : Channel := ⟨limit, .empty⟩

/-- The bytes of a text for which there is room. -/
def fitting (ch : Channel) (bytes : ByteArray) : ByteArray :=
  match ch.limit with
  | none => bytes
  | some limit => bytes.extract 0 (limit - ch.written.size)

/-- Writes what fits; tells whether that was all. -/
def write (ch : Channel) (text : String) : Bool × Channel :=
  let bytes := text.toUTF8
  let part := ch.fitting bytes
  (part.size == bytes.size, { ch with written := ch.written ++ part })

/-- Writes texts one after the other and stops at the first that does not fit. -/
def writeAll (ch : Channel) : List String → Bool × Channel
  | [] => (true, ch)
  | text :: texts => match ch.write text with
    | (true, ch) => ch.writeAll texts
    | (false, ch) => (false, ch)

end Channel

end HotkeyLex.Tool
