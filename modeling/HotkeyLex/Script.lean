/-!
# Scripts

A script is its UTF-8 bytes with zeros behind them. The zero right after the text lets a reader
look at the end without asking first, and more zeros fill the buffer up to a whole number of
64-byte lines.

A leading byte order mark is part of the text, but the body begins behind it. A null byte inside
the text is legal; it is noted as a flaw because readers take it for the end of a line.
-/

namespace HotkeyLex

/-- What can be noted about a script. -/
inductive FlawKind where
  /-- A null byte inside the text. -/
  | nullByte
  deriving DecidableEq, Repr

/-- The name of a flaw in a warning. -/
def FlawKind.phrase : FlawKind → String
  | .nullByte => "null byte"

/-- A flaw with its place and its extent in bytes. -/
structure Flaw where
  kind : FlawKind
  pos : UInt32
  size : UInt32
  deriving DecidableEq, Repr

structure Script where
  /-- The text and the zeros behind it. -/
  buffer : ByteArray
  /-- Number of bytes of the text. -/
  size : UInt32
  /-- Offset of the first byte that is not part of a byte order mark. -/
  bodyStart : UInt32
  /-- Null bytes of the text in increasing order. -/
  flaws : List Flaw

namespace Script

/-- Bytes in one line of the buffer. -/
def lineBytes : Nat := 64

/-- The least whole number of lines with room for `n` bytes and a zero. -/
def paddedSize (n : Nat) : Nat := (n / lineBytes + 1) * lineBytes

/-- The byte order mark in UTF-8. -/
def byteOrderMark : List UInt8 := [0xEF, 0xBB, 0xBF]

/-- Byte `i`, and zero behind the end. -/
def byteOf (bytes : ByteArray) (i : Nat) : UInt8 :=
  if h : i < bytes.size then bytes[i] else 0

def hasMark (bytes : ByteArray) : Bool :=
  3 ≤ bytes.size && [byteOf bytes 0, byteOf bytes 1, byteOf bytes 2] == byteOrderMark

/-- The null bytes of a text whose offset fits in 32 bits. -/
def nullsOf (bytes : ByteArray) : List Flaw :=
  ((List.range bytes.size).filter fun i => byteOf bytes i == 0 && i < UInt32.size).map
    fun i => ⟨.nullByte, i.toUInt32, 1⟩

/-- The buffer of a text: its bytes, then zeros. -/
def padded (bytes : ByteArray) : ByteArray :=
  bytes ++ ⟨Array.replicate (paddedSize bytes.size - bytes.size) 0⟩

/-- A length in 32 bits; one that does not fit becomes the largest that does. -/
def clampSize (n : Nat) : UInt32 := if n < UInt32.size then n.toUInt32 else 0xFFFFFFFF

def ofText (text : String) : Script :=
  let bytes := text.toUTF8
  { buffer := padded bytes
    size := clampSize bytes.size
    bodyStart := if hasMark bytes then 3 else 0
    flaws := nullsOf bytes }

/-- The bytes of the text. -/
def text (s : Script) : ByteArray := s.buffer.extract 0 s.size.toNat

def isEmpty (s : Script) : Bool := s.size == 0

/-- The byte at an offset; zero from the end of the text on. -/
def byteAt (s : Script) (offset : UInt32) : UInt8 := byteOf s.buffer offset.toNat

/-- Bytes `10xxxxxx`, which never begin a character. -/
def isContinuation (b : UInt8) : Bool := 0x80 ≤ b && b ≤ 0xBF

/-- The offset begins a character or is the end of the text. -/
def isBoundary (s : Script) (offset : UInt32) : Bool :=
  offset ≤ s.size && !isContinuation (s.byteAt offset)

/-- A reader may be put here: a boundary that is not in front of the body. -/
def isPosition (s : Script) (offset : UInt32) : Bool :=
  s.bodyStart ≤ offset && s.isBoundary offset

/-- All offsets from the body to the end of the text, both ends included. -/
def offsets (s : Script) : List UInt32 :=
  (List.range' s.bodyStart.toNat (s.size.toNat + 1 - s.bodyStart.toNat)).map Nat.toUInt32

/-- Number of bytes of the character that begins with `lead`. -/
def leadWidth (lead : UInt8) : UInt32 :=
  if 0xC0 ≤ lead && lead ≤ 0xDF then 2
  else if 0xE0 ≤ lead && lead ≤ 0xEF then 3
  else if 0xF0 ≤ lead && lead ≤ 0xF7 then 4
  else 1

/-- The character at an offset, with U+FFFD for bytes that encode none. -/
def charAt (s : Script) (offset : UInt32) : Char :=
  let lead := s.byteAt offset
  if lead < 0x80 then Char.ofNat lead.toNat
  else
    let stop := min (offset.toNat + (leadWidth lead).toNat) s.size.toNat
    ((s.buffer.extract offset.toNat stop).utf8DecodeChar? 0).getD '\ufffd'

/-- The bytes of the two parentheses. -/
def isParenByte (b : UInt8) : Bool := b == 0x28 || b == 0x29

/-- The first index of a parenthesis at or after `i`, and `stop` if there is none before it. -/
def parenFrom (bytes : ByteArray) (i stop : Nat) : Nat :=
  if i < stop then
    if isParenByte (byteOf bytes i) then i else parenFrom bytes (i + 1) stop
  else i
  termination_by stop - i

/-- Number of bytes from an offset to the next parenthesis, or to the end of the text. -/
def parenDistance (s : Script) (offset : UInt32) : Nat :=
  parenFrom s.buffer offset.toNat s.size.toNat - offset.toNat

end Script

end HotkeyLex
