import HotkeyLex.Walk
import HotkeyLex.Proofs.Runs

/-!
# Readers

A reader is a cursor without bytes: the characters it has passed and the characters that remain.
The elementary acts of a cursor are simple operations on these two lists. A cursor that a script has
handed out follows its reader through every sequence of such acts, gives the same answers, and never
leaves the characters of the text for a byte inside one.
-/

namespace HotkeyLex

/-- A text with the place where it is read. -/
structure Reader where
  passed : List Char
  rest : List Char

/-- What can be done with a cursor without a rule. A class for a run does not hold the null
character, which stands for the end of the script. -/
inductive Act where
  | pass (step : Step)
  | mark
  | passWhile (step : Step) (p : Char → Bool) (stops : p '\x00' = false)
  | passBlanks (step : Step)
  | passSpaces (step : Step)
  | toParen

def Act.toMove : Act → Move
  | .pass step => .pass step 1
  | .mark => .mark
  | .passWhile step p _ => .passWhile step p
  | .passBlanks step => .passBlanks step
  | .passSpaces step => .passSpaces step
  | .toParen => .toParen

namespace Reader

def text (r : Reader) : List Char := r.passed ++ r.rest

/-- The next character, and the null character at the end. -/
def look (r : Reader) : Char := r.rest.headD '\x00'

/-- Passes one character if there is one. -/
def pass (r : Reader) : Reader :=
  match r.rest with
  | [] => r
  | ch :: rest => ⟨r.passed ++ [ch], rest⟩

/-- Passes the longest part of the rest that lies in a class. -/
def passWhile (r : Reader) (p : Char → Bool) : Reader :=
  ⟨r.passed ++ r.rest.takeWhile p, r.rest.dropWhile p⟩

/-- Number of characters that `passWhile` passes. -/
def runLength (r : Reader) (p : Char → Bool) : Nat := (r.rest.takeWhile p).length

/-- What an act tells of a text and where it leads. -/
def act (r : Reader) : Act → Answer × Reader
  | .pass _ => (.done, r.pass)
  | .mark => (.done, r)
  | .passWhile _ p _ => (.count (r.runLength p).toUInt32, r.passWhile p)
  | .passBlanks _ => (.verdict (decide (0 < r.runLength isBlank)), r.passWhile isBlank)
  | .passSpaces _ => (.done, r.passWhile isSpace)
  | .toParen => (.done, r.passWhile (!isParen ·))

def acts (r : Reader) (list : List Act) : Reader := list.foldl (fun r a => (r.act a).2) r

@[simp] theorem text_pass (r : Reader) : r.pass.text = r.text := by
  obtain ⟨passed, rest⟩ := r
  cases rest <;> simp [pass, text]

@[simp] theorem text_passWhile (r : Reader) (p : Char → Bool) : (r.passWhile p).text = r.text := by
  simp [passWhile, text, List.append_assoc]

/-- No act changes the text. -/
theorem text_acts (r : Reader) (list : List Act) : (r.acts list).text = r.text := by
  induction list generalizing r with
  | nil => rfl
  | cons act list ih =>
    refine (ih (r.act act).2).trans ?_
    cases act <;> simp [Reader.act]

end Reader

/-- Everything that can be seen of a reader in its cursor. The last five facts say that the
safeguards of a cursor are idle: the leading byte tells the true width, no offset wraps or is held
back at the end, no bytes are taken for U+FFFD, and no look at the buffer falls outside it. -/
structure Cursor.Shows (c : Cursor) (r : Reader) : Prop where
  pos : c.pos.toNat = byteSize r.passed
  look : c.look = r.look
  null : c.look = '\x00' ↔ r.rest = [] ∨ r.rest.head? = some '\x00'
  atEnd : c.atEnd = true ↔ r.rest = []
  stay : r.rest = [] → ∀ step, c.pass step = c
  width : ∀ ch ∈ r.rest.head?, (Script.leadWidth (c.script.byteAt c.pos)).toNat = ch.utf8Size
  whole : ∀ ch ∈ r.rest.head?, c.pos.toNat + ch.utf8Size ≤ c.script.size.toNat
  next : ∀ ch ∈ r.rest.head?, c.nextPos.toNat = c.pos.toNat + ch.utf8Size
  decode : ∀ ch ∈ r.rest.head?, (c.script.buffer.extract c.pos.toNat
    (c.pos.toNat + ch.utf8Size)).utf8DecodeChar? 0 = some ch
  inside : c.pos.toNat ≤ c.script.size.toNat ∧ c.script.size.toNat < c.script.buffer.size

namespace Cursor

/-- The cursor stands where the reader does. -/
def Follows (c : Cursor) (r : Reader) : Prop := c.Between r.passed r.rest []

variable {c : Cursor} {r : Reader}

/-- A cursor that follows a reader shows what the reader sees. -/
theorem Follows.shows (h : c.Follows r) : c.Shows r := by
  obtain ⟨passed, rest⟩ := r
  have between : c.Between passed rest [] := h
  cases rest with
  | nil =>
    refine ⟨between.pos, between.look_nil, ?_, between.atEnd_iff, fun _ => between.pass_nil, ?_, ?_, ?_, ?_,
      between.pos_le_size, between.size_lt_buffer⟩
    · simp [between.look_nil]
    all_goals simp
  | cons ch rest =>
    have width := between.width
    have whole := between.width_le
    have decode := between.decode
    rw [width] at whole decode
    refine ⟨between.pos, between.look_cons, ?_, between.atEnd_iff, nofun, ?_, ?_, ?_, ?_,
      between.pos_le_size, between.size_lt_buffer⟩
    · simp [between.look_cons]
    · simpa using width
    · simpa using whole
    · simpa [between.pos] using between.toNat_nextPos
    · simpa using decode

/-- One act: the answers agree and the cursor follows on. -/
theorem Follows.act {w : Walk} (h : w.cursor.Follows r) (search : ParenSearch) (act : Act) :
    (w.move search act.toMove).1 = (r.act act).1 ∧
      (w.move search act.toMove).2.cursor.Follows (r.act act).2 := by
  obtain ⟨passed, rest⟩ := r
  have between : w.cursor.Between passed rest [] := h
  cases act with
  | pass step =>
    refine ⟨rfl, ?_⟩
    cases rest with
    | nil =>
      change (w.cursor.pass step).Between passed [] []
      rw [between.pass_nil]
      exact between
    | cons ch rest => exact between.pass step
  | mark => exact ⟨rfl, between.of_place rfl rfl⟩
  | passWhile step p _ =>
    exact ⟨congrArg Answer.count (between.passWhile_count step p), between.passWhile step p⟩
  | passBlanks step =>
    exact ⟨congrArg Answer.verdict (between.passBlanks_accepted step), between.passWhile step isBlank⟩
  | passSpaces step => exact ⟨rfl, between.passWhile step isSpace⟩
  | toParen => exact ⟨rfl, between.toParen search⟩

/-- A whole sequence of acts. -/
theorem Follows.acts {w : Walk} (h : w.cursor.Follows r) (search : ParenSearch) (list : List Act) :
    (w.moves search (list.map Act.toMove)).cursor.Follows (r.acts list) := by
  induction list generalizing w r with
  | nil => exact h
  | cons act list ih => exact ih (h.act search act).2

/-- A cursor over the bytes of a script is a reader of its characters: after any sequence of acts it
shows the characters that the reader has left, and its next answer is the reader's. -/
theorem walk_follows_reader {text : String} (fits : text.utf8ByteSize ≤ 0xFFFFFFFF) {c : Cursor}
    (opened : Opened (Script.ofText text) c) (search : ParenSearch) :
    ∃ r : Reader, r.text = text.toList ∧ ∀ list : List Act,
      (r.acts list).text = text.toList ∧
      ((Walk.start c).moves search (list.map Act.toMove)).cursor.Shows (r.acts list) ∧
      ∀ act : Act, (((Walk.start c).moves search (list.map Act.toMove)).move search act.toMove).1 =
        ((r.acts list).act act).1 := by
  have small : text.utf8ByteSize < UInt32.size := Nat.lt_succ_of_le fits
  obtain ⟨before, rest, same, between⟩ := opened.between small
  refine ⟨⟨before, rest⟩, same.symm, fun list => ?_⟩
  have entry : (Walk.start c).cursor.Follows ⟨before, rest⟩ := between
  have follows := entry.acts search list
  exact ⟨(Reader.text_acts _ list).trans same.symm, follows.shows, fun act => (follows.act search act).1⟩

/-- A script with a byte order mark, accented letters and a null byte, read past a search and a run. -/
theorem walk_follows_reader_marked : ∃ r : Reader, r.text = "\ufeffñé(\x00ü".toList ∧
    ((Walk.start (ofScript (Script.ofText "\ufeffñé(\x00ü"))).moves .byByte [.toParen, .pass .take 1]).cursor.Shows
      (r.acts [.toParen, .pass .take]) := by
  have small : "\ufeffñé(\x00ü".utf8ByteSize ≤ 0xFFFFFFFF := by decide
  obtain ⟨r, text, follows⟩ := walk_follows_reader small .body .byByte
  exact ⟨r, text, (follows [.toParen, .pass .take]).2.1⟩

end Cursor

end HotkeyLex
