import HotkeyLex.Proofs.Priority

/-!
# The rules on any machine

The loops and the rules once more, over what they rest on: how a character is passed, how the words of 32
bits are counted up and down, and how a loop is run. A `Machine` has these as its fields, with results in a
monad, so that an operation may fail or never come to an end. One set of definitions then has several
forms. On the machine `direct` the rules are the ones that run; other machines check their arithmetic, or
run their loops without a look at what the turns have done.

A loop is given by its turns. What it comes to when it is stuck, and which bound its words keep, is part of
the loop too, and each machine makes of it what it will.
-/

namespace HotkeyLex

/-- A loop over a cursor. A turn ends the loop with a result or goes on in another state. -/
structure Loop (m : Type → Type) (σ ρ : Type) where
  cursor : σ → Cursor
  turn : σ → m (ρ ⊕ σ)
  /-- What comes of the loop where a turn has not moved the cursor. -/
  stuck : σ → m ρ
  /-- What keeps the words of a state from wrapping, as seen from the state where the loop began. -/
  bound : σ → σ → Bool := fun _ _ => true

/-- What loops and rules rest on. -/
structure Machine (m : Type → Type) where
  pass : Cursor → Step → m Cursor
  /-- The search for a parenthesis over bytes. -/
  jump : Cursor → m Cursor
  /-- The count of a run behind one character more, which took it from one cursor to another. -/
  tally : Cursor → Cursor → UInt32 → m UInt32
  /-- The depth behind an opening parenthesis. -/
  deeper : UInt32 → m UInt32
  /-- The depth behind a closing parenthesis. -/
  shallower : UInt32 → m UInt32
  iterate {σ ρ : Type} : Loop m σ ρ → σ → m ρ

/-- Parentheses that are open at a cursor. -/
structure Nesting where
  depth : UInt32
  cursor : Cursor

/-- Opening parentheses between two offsets. -/
def Script.openings (s : Script) (start stop : UInt32) : Nat :=
  (List.range' start.toNat (stop.toNat - start.toNat)).countP fun i => byteOf s.buffer i == 0x28

variable {m : Type → Type} [Monad m]

/-- Turn after turn, each with a test of the bound before it and a look whether it has moved the cursor. -/
def Loop.guarded {σ ρ : Type} (l : Loop m σ ρ) (test : Bool → m Unit) (first state : σ) : m ρ := do
  test (l.bound first state)
  match ← l.turn state with
  | .inl result => return result
  | .inr next =>
    if (l.cursor state).pos < (l.cursor next).pos then l.guarded test first next else l.stuck state
  termination_by (l.cursor state).room
  decreasing_by exact Cursor.room_lt (by assumption)

namespace Machine

/-- The machine that the rules run on. Words wrap, and nothing is tested. -/
def direct : Machine Id where
  pass c step := c.pass step
  jump c := c.toParenByByte
  tally _ _ count := count + 1
  deeper depth := depth + 1
  shallower depth := depth - 1
  iterate l state := l.guarded (fun _ => pure ()) state state

variable (M : Machine m)

/-! ## Runs and words -/

/-- Passes characters of a class and counts them. -/
def counting (step : Step) (p : Char → Bool) : Loop m Run Run where
  cursor run := run.cursor
  turn run :=
    if p run.cursor.look then do
      let next ← M.pass run.cursor step
      return .inr ⟨← M.tally run.cursor next run.count, next⟩
    else return .inl run
  stuck run := return run
  -- a run counts no more characters than it passes bytes
  bound first run := first.cursor.pos.toNat + run.count.toNat ≤ run.cursor.pos.toNat + first.count.toNat

/-- Takes word characters and adds them to a word. -/
def reading : Loop m WordRead WordRead where
  cursor read := read.cursor
  turn read :=
    if isWordChar read.cursor.look then do
      return .inr ⟨read.word.push read.cursor.look, ← M.pass read.cursor .take⟩
    else return .inl read
  stuck read := return read

/-- Takes characters up to a parenthesis. -/
def searching : Loop m Cursor Cursor where
  cursor c := c
  turn c := if !c.atEnd && !isParen c.look then do return .inr (← M.pass c .take) else return .inl c
  stuck c := return c

/-- Passes up to `n` characters. -/
def passMany (c : Cursor) (step : Step) : Nat → m Cursor
  | 0 => return c
  | n + 1 => do passMany (← M.pass c step) step n

/-- Passes the longest run of a class and counts its characters. -/
def passWhile (c : Cursor) (step : Step) (p : Char → Bool) : m Run := M.iterate (M.counting step p) ⟨0, c⟩

/-- Passes spaces and tabs, and says whether there were any. -/
def passBlanks (c : Cursor) (step : Step) : m Outcome := do
  let run ← M.passWhile c step isBlank
  return ⟨0 < run.count, run.cursor⟩

/-- Passes blanks and line breaks. -/
def passSpaces (c : Cursor) (step : Step) : m Cursor := do
  let run ← M.passWhile c step isSpace
  return run.cursor

/-- Takes a word without keeping it. -/
def passWord (c : Cursor) : m Run := M.passWhile c .take isWordChar

/-- Takes a word and keeps what fits of it. -/
def readWord (c : Cursor) (capacity : Nat) : m WordRead := M.iterate M.reading ⟨.empty capacity, c⟩

/-- Goes on to the next parenthesis or to the end of the text. -/
def toParen (c : Cursor) : ParenSearch → m Cursor
  | .byByte => M.jump c
  | .byChar => M.iterate M.searching c

/-- Takes letters as long as they agree, and says whether all did. -/
def passLetters (c : Cursor) : List Char → m Outcome
  | [] => return ⟨true, c⟩
  | letter :: letters =>
    if sameLetter c.look letter then do passLetters (← M.pass c .take) letters else return ⟨false, c⟩

def passKeyword (c : Cursor) (keyword : String) : m Outcome := M.passLetters c keyword.toList

/-! ## Rules -/

/-- Accepts a question mark that may end its expression. -/
def optional (c : Cursor) : m Outcome :=
  if c.look == '?' then do
    let c ← M.passSpaces (← M.pass c .take) .skip
    return ⟨c.atEnd || mayFollowOptional c.look, c⟩
  else return ⟨false, c⟩

/-- Accepts a comma behind space. -/
def omitted (c : Cursor) : m Outcome := do
  let c ← M.passSpaces c .skip
  return ⟨c.look == ',', c⟩

/-- A sign with an operand right behind it, and no second sign. -/
def signedOperand (c : Cursor) : m Outcome := do
  let sign := c.look
  let gap ← M.passBlanks (← M.pass c .take) .take
  let c := gap.cursor
  return ⟨!(gap.accepted || c.look == sign || c.atEnd) && beginsOperand c.look, c⟩

/-- An operand that is no operator spelled as a word. -/
def plainOperand (c : Cursor) : m Outcome :=
  if beginsVerb c.look then do
    let read ← M.readWord c Vocabulary.operatorCapacity
    return ⟨!read.word.isIn Vocabulary.isOperatorWord, read.cursor⟩
  else return ⟨true, c⟩

/-- Accepts blanks between two operands. -/
def juxtaposition (c : Cursor) : m Outcome := do
  let gap ← M.passBlanks c .take
  let c := gap.cursor
  if !gap.accepted || c.atEnd || isLineEnd c.look || beginsOperator c.look then return ⟨false, c⟩
  else if isSign c.look then M.signedOperand c.marked
  else if beginsOperand c.look then M.plainOperand c.marked
  else return ⟨false, c⟩

/-- Takes a word and asks whether it is in the vocabulary. -/
def wordOption (c : Cursor) (vocabulary : String → Bool) : m Outcome := do
  let read ← M.readWord c Vocabulary.optionCapacity
  return ⟨read.word.isIn vocabulary, read.cursor⟩

/-- Takes the word for joining lines and what is glued to it. -/
def joinOption (c : Cursor) : m Outcome := do
  let head ← M.passKeyword c "join"
  if head.accepted then
    let run ← M.passWhile head.cursor .take Rule.isGlued
    return ⟨true, run.cursor⟩
  else return head

/-- Takes one option of a section, told by its first letter. -/
def sectionOption (c : Cursor) : m Outcome :=
  let first := c.look.toLower
  if first == 'j' then M.joinOption c
  else if first == 'c' then M.wordOption c Vocabulary.isCommentWord
  else if first == 'l' || first == 'r' then M.wordOption c Vocabulary.isTrimWord
  else if first == '\x60' then do return ⟨true, ← M.pass c .take⟩
  else return ⟨false, c⟩

/-- Takes options and the blanks behind them up to a line break. -/
def options : Loop m Cursor Outcome where
  cursor c := c
  turn c :=
    if c.look == '\n' || c.look == '\r' then return .inl ⟨true, c⟩
    else do
      let option ← M.sectionOption c
      if option.accepted then
        let gap ← M.passBlanks option.cursor .take
        return .inr gap.cursor
      else return .inl option
  stuck c := return ⟨false, c⟩

/-- Accepts a parenthesis at the beginning of a line, with its options. -/
def sectionOpen (c : Cursor) : m Outcome := do
  let gap ← M.passBlanks c .skip
  let c := gap.cursor
  if c.atEnd || !isLineEnd c.look then return ⟨false, c⟩
  else
    let c ← M.passSpaces c .skip
    if c.look == '(' then
      let c ← M.pass c .take
      let gap ← M.passBlanks c.marked .take
      M.iterate M.options gap.cursor
    else return ⟨false, c⟩

/-- Accepts one line break, possibly with blanks in front. -/
def lineBreak (c : Cursor) : m Outcome := do
  let gap ← M.passBlanks c .skip
  let c := gap.cursor
  if c.look == '\n' then do
    let c ← M.pass c .take
    return ⟨true, c.marked⟩
  else if c.look == '\r' then
    let c ← M.pass c .take
    let c ← if c.look == '\n' then M.pass c .take else pure c
    return ⟨true, c.marked⟩
  else return ⟨false, c⟩

/-- Takes parentheses and what stands between them, until all are closed. -/
def closing (search : ParenSearch) : Loop m Nesting Outcome where
  cursor nest := nest.cursor
  turn nest :=
    if nest.depth == 0 then return .inl ⟨true, nest.cursor⟩
    else do
      let found ← M.toParen nest.cursor search
      if found.look == '(' then return .inr ⟨← M.deeper nest.depth, ← M.pass found .take⟩
      else if found.look == ')' then return .inr ⟨← M.shallower nest.depth, ← M.pass found .take⟩
      else return .inl ⟨false, found⟩
  stuck nest := do return ⟨false, ← M.toParen nest.cursor search⟩
  -- the depth is at most the number of parentheses opened so far, fewer than there are bytes in the script
  bound first nest :=
    let opened := first.depth.toNat + nest.cursor.script.openings first.cursor.pos nest.cursor.pos
    nest.depth.toNat ≤ opened ∧ opened < nest.cursor.script.size.toNat

/-- Takes the name that is declared, and `static` in front of it. -/
def declaredName (c : Cursor) : m Outcome := do
  let first ← M.readWord c Vocabulary.nameCapacity
  if first.word.spells Vocabulary.storage then
    let gap ← M.passBlanks first.cursor .take
    if gap.accepted then
      let name ← M.passWord gap.cursor
      return ⟨0 < name.count, name.cursor⟩
    else return ⟨false, gap.cursor⟩
  else return ⟨!first.word.isIn Vocabulary.isReservedWord, first.cursor⟩

def bodyFollows (c : Cursor) : m Outcome :=
  if c.look == '\x7b' then return ⟨true, c⟩
  else if c.look == '=' then do
    let c ← M.pass c .take
    return ⟨c.look == '>', c⟩
  else return ⟨false, c⟩

/-- Takes a parameter list, possibly with blanks in front. -/
def parameters (search : ParenSearch) (c : Cursor) : m Outcome := do
  let gap ← M.passBlanks c .take
  let c := gap.cursor
  if c.look == '(' then M.iterate (M.closing search) ⟨1, ← M.pass c .take⟩ else return ⟨false, c⟩

/-- Accepts a name, a parameter list and the beginning of a body. -/
def declaration (search : ParenSearch) (c : Cursor) : m Outcome := do
  let c ← M.passSpaces c .skip
  if isWordChar c.look then
    let name ← M.declaredName c
    if name.accepted then
      let list ← M.parameters search name.cursor
      if list.accepted then M.bodyFollows (← M.passSpaces list.cursor .skip) else return list
    else return name
  else return ⟨false, c⟩

/-! ## Choices -/

/-- The rule of a kind. -/
def rule (kind : Kind) (search : ParenSearch) : Cursor → m Outcome :=
  match kind with
  | .optional => M.optional
  | .declaration => M.declaration search
  | .omitted => M.omitted
  | .juxtaposition => M.juxtaposition
  | .sectionOpen => M.sectionOpen
  | .lineBreak => M.lineBreak

/-- Tries the rules of the valid kinds in an order, each from the same cursor. -/
def chooseIn (c : Cursor) (search : ParenSearch) (order : List Kind) (valid : KindSet) : m Choice :=
  match order with
  | [] => return ⟨none, c, []⟩
  | kind :: order =>
    if valid.has kind then do
      let outcome ← M.rule kind search (if kind.marksEntry then c.marked else c)
      if outcome.accepted then return ⟨some kind, outcome.cursor, [⟨kind, true⟩]⟩
      else
        let rest ← chooseIn c search order valid
        return { rest with attempts := ⟨kind, false⟩ :: rest.attempts }
    else chooseIn c search order valid

/-- The token at a cursor among the valid kinds. -/
def choose (c : Cursor) (search : ParenSearch) (valid : KindSet) : m Choice := M.chooseIn c search priority valid

end Machine

end HotkeyLex
