import HotkeyLex.Proofs.Coverage

/-!
# Parameter lists

The rule for declarations jumps from parenthesis to parenthesis and counts. Seen from the characters it
reads them one by one (`closeParens_open`, `closeParens_close`, `closeParens_other`), so it accepts
exactly if the text behind the opening parenthesis has a part in which parentheses are balanced, with
the closing one right behind it (`closeParens_accepted_iff`). The count never wraps, because a script
has fewer characters than offsets.

What stands in front of the opening parenthesis are spaces and words (`Between.heading`).
-/

namespace HotkeyLex

/-! ## Balanced text -/

/-- The text closes `depth` parentheses and all those that it opens, and does not close more anywhere
on the way. At depth zero it is balanced. -/
structure Closes (depth : Nat) (text : List Char) : Prop where
  never : ∀ k, (text.take k).count ')' ≤ depth + (text.take k).count '('
  total : text.count ')' = depth + text.count '('

namespace Closes

variable {depth : Nat} {text : List Char} {ch : Char}

theorem nil_iff : Closes depth [] ↔ depth = 0 := by
  constructor
  · intro h
    have total := h.total
    simp only [List.count_nil] at total
    omega
  · rintro rfl
    exact ⟨by simp, rfl⟩

/-- Balance over a text with a character in front, prefix by prefix. -/
theorem cons_iff : Closes depth (ch :: text) ↔
    (∀ k, ((ch :: text.take k).count ')') ≤ depth + (ch :: text.take k).count '(') ∧
      (ch :: text).count ')' = depth + (ch :: text).count '(' := by
  constructor
  · intro h
    exact ⟨fun k => h.never (k + 1), h.total⟩
  · rintro ⟨never, total⟩
    refine ⟨fun k => ?_, total⟩
    cases k with
    | zero => simp
    | succ k => exact never k

/-- An opening parenthesis asks for one more to close it. -/
theorem open_iff : Closes depth ('(' :: text) ↔ Closes (depth + 1) text := by
  simp only [cons_iff, List.count_cons_self, List.count_cons_of_ne (show '(' ≠ ')' by decide)]
  constructor
  · rintro ⟨never, total⟩
    exact ⟨fun k => by have := never k; omega, by omega⟩
  · rintro ⟨never, total⟩
    exact ⟨fun k => by have := never k; omega, by omega⟩

/-- A closing parenthesis takes one from what is open. -/
theorem close_iff : Closes (depth + 1) (')' :: text) ↔ Closes depth text := by
  simp only [cons_iff, List.count_cons_self, List.count_cons_of_ne (show ')' ≠ '(' by decide)]
  constructor
  · rintro ⟨never, total⟩
    exact ⟨fun k => by have := never k; omega, by omega⟩
  · rintro ⟨never, total⟩
    exact ⟨fun k => by have := never k; omega, by omega⟩

theorem not_close : ¬ Closes 0 (')' :: text) := by
  intro h
  have first := h.never 1
  simp at first

theorem other_iff (other : isParen ch = false) : Closes depth (ch :: text) ↔ Closes depth text := by
  simp only [isParen, Bool.or_eq_false_iff, beq_eq_false_iff_ne] at other
  simp only [cons_iff, List.count_cons_of_ne other.1, List.count_cons_of_ne other.2]
  constructor
  · rintro ⟨never, total⟩
    exact ⟨never, total⟩
  · rintro ⟨never, total⟩
    exact ⟨never, total⟩

end Closes

/-! ## One character at a time -/

/-- One more open parenthesis, if the count has room. -/
theorem toNat_add_one {depth : UInt32} {n : Nat} (count : depth.toNat = n) (room : n + 1 < UInt32.size) :
    (depth + 1).toNat = n + 1 := by
  rw [UInt32.toNat_add, count, show (1 : UInt32).toNat = 1 from rfl]
  exact Nat.mod_eq_of_lt room

/-- The depth falls as its number does, as long as something is open. -/
theorem toNat_sub_one {depth : UInt32} {n : Nat} (count : depth.toNat = n + 1) : (depth - 1).toNat = n := by
  have positive : 1 ≤ depth := by
    rw [UInt32.le_iff_toNat_le, count]
    exact Nat.le_add_left 1 n
  rw [UInt32.toNat_sub_of_le _ _ positive, count]
  rfl

theorem ne_zero_of_toNat {depth : UInt32} {n : Nat} (count : depth.toNat = n + 1) : depth ≠ 0 := by
  rintro rfl
  cases count

/-- One turn of the count, with a parenthesis open. -/
theorem Rule.closeParens_turn (search : ParenSearch) {depth : UInt32} (opened : depth ≠ 0) (c : Cursor) :
    closeParens search depth c =
      if c.pos < ((c.toParen search).pass .take).pos then
        if (c.toParen search).look = '(' then closeParens search (depth + 1) ((c.toParen search).pass .take)
        else if (c.toParen search).look = ')' then closeParens search (depth - 1) ((c.toParen search).pass .take)
        else ⟨false, c.toParen search⟩
      else ⟨false, c.toParen search⟩ := by
  rw [closeParens.eq_def, if_neg (by simpa using opened)]
  simp only [beq_iff_eq]

namespace Cursor.Between

variable {c : Cursor} {before rest beyond : List Char} {ch : Char} {search : ParenSearch} {depth : UInt32}

/-- In front of a parenthesis the search stays where it is. -/
theorem toParen_of_isParen (h : c.Between before (ch :: rest) beyond) (paren : isParen ch = true) :
    c.toParen search = c := by
  rw [h.toParen_eq, List.takeWhile_cons_of_neg (by simp [paren])]
  rfl

theorem toParen_of_not_isParen (h : c.Between before (ch :: rest) beyond) (other : isParen ch = false) :
    c.toParen search = (c.pass .take).toParen search := by
  rw [h.toParen_eq, (h.pass .take).toParen_eq, List.takeWhile_cons_of_pos (by simp [other])]
  rfl

/-- At the end, open parentheses stay open. -/
theorem closeParens_nil (h : c.Between before [] beyond) (opened : depth ≠ 0) :
    Rule.closeParens search depth c = ⟨false, c⟩ := by
  have stays : c.toParen search = c := by
    rw [h.toParen_eq]
    rfl
  rw [Rule.closeParens_turn search opened, stays, if_neg (h.not_pos_lt_pass .take)]

/-- An opening parenthesis makes the list deeper. -/
theorem closeParens_open (h : c.Between before ('(' :: rest) beyond) (opened : depth ≠ 0) :
    Rule.closeParens search depth c = Rule.closeParens search (depth + 1) (c.pass .take) := by
  rw [Rule.closeParens_turn search opened, h.toParen_of_isParen rfl, if_pos (h.pos_lt_pass .take),
    if_pos h.look_cons]

theorem closeParens_close (h : c.Between before (')' :: rest) beyond) (opened : depth ≠ 0) :
    Rule.closeParens search depth c = Rule.closeParens search (depth - 1) (c.pass .take) := by
  have other : c.look ≠ '(' := by
    rw [h.look_cons]
    decide
  rw [Rule.closeParens_turn search opened, h.toParen_of_isParen rfl, if_pos (h.pos_lt_pass .take), if_neg other,
    if_pos h.look_cons]

/-- Any other character may be passed before the search. -/
theorem closeParens_other (h : c.Between before (ch :: rest) beyond) (ends : ReadsAsEnd beyond)
    (other : isParen ch = false) (opened : depth ≠ 0) :
    Rule.closeParens search depth c = Rule.closeParens search depth (c.pass .take) := by
  have found := (h.pass .take).toParen search
  rw [Rule.closeParens_turn search opened c, Rule.closeParens_turn search opened (c.pass .take),
    h.toParen_of_not_isParen other]
  cases split : rest.dropWhile (!isParen ·) with
  | nil =>
    -- nothing is found, whether the last turn makes progress or not
    rw [split] at found
    have null : ((c.pass .take).toParen search).look = '\x00' := found.look_eq ends
    simp [null]
  | cons paren tail =>
    rw [split] at found
    have first := h.pos_lt_pass .take
    have later := found.pos_lt_pass .take
    have start := (h.pass .take).pos
    have stop := found.pos
    rw [byteSize_append] at stop
    rw [UInt32.lt_iff_toNat_lt] at first later
    have near : (c.pass .take).pos < (((c.pass .take).toParen search).pass .take).pos := by
      rw [UInt32.lt_iff_toNat_lt]
      omega
    have far : c.pos < (((c.pass .take).toParen search).pass .take).pos := by
      rw [UInt32.lt_iff_toNat_lt]
      omega
    rw [if_pos near, if_pos far]

/-! ## The closing parenthesis -/

variable {n : Nat}

/-- The count is exact as long as there is room in it for all characters that are left. -/
theorem closeParens_of_closes {inner after : List Char} (h : c.Between before (inner ++ ')' :: after) beyond)
    (ends : ReadsAsEnd beyond) (count : depth.toNat = n + 1)
    (bound : n + 1 + byteSize (inner ++ ')' :: after) < UInt32.size) (closes : Closes n inner) :
    Rule.closeParens search depth c = ⟨true, c.passMany .take (inner.length + 1)⟩ := by
  induction inner generalizing c before depth n with
  | nil =>
    obtain rfl := Closes.nil_iff.1 closes
    have one : depth = 1 := UInt32.toNat_inj.1 count
    rw [List.nil_append] at h
    rw [one, h.closeParens_close (by decide), Rule.closeParens]
    rfl
  | cons ch inner ih =>
    have opened := ne_zero_of_toNat count
    have size := ch.utf8Size_pos
    rw [List.cons_append, byteSize_cons] at bound
    have next := h.pass .take
    rw [List.length_cons, Cursor.passMany]
    by_cases opens : ch = '('
    · subst opens
      rw [h.closeParens_open opened]
      exact ih next (toNat_add_one count (by omega)) (by omega) (Closes.open_iff.1 closes)
    by_cases shuts : ch = ')'
    · subst shuts
      cases n with
      | zero => exact absurd closes Closes.not_close
      | succ n =>
        rw [h.closeParens_close opened]
        exact ih next (toNat_sub_one count) (by omega) (Closes.close_iff.1 closes)
    · have other : isParen ch = false := by simp [isParen, opens, shuts]
      rw [h.closeParens_other ends other opened]
      exact ih next count (by omega) ((Closes.other_iff other).1 closes)

/-- An accepted list has a part that closes all but the last parenthesis, with that one behind it. -/
theorem closes_of_closeParens (h : c.Between before rest beyond) (ends : ReadsAsEnd beyond)
    (count : depth.toNat = n + 1) (bound : n + 1 + byteSize rest < UInt32.size)
    (accepted : (Rule.closeParens search depth c).accepted = true) :
    ∃ inner after, rest = inner ++ ')' :: after ∧ Closes n inner := by
  induction rest generalizing c before depth n with
  | nil =>
    rw [h.closeParens_nil (ne_zero_of_toNat count)] at accepted
    cases accepted
  | cons ch rest ih =>
    have opened := ne_zero_of_toNat count
    have size := ch.utf8Size_pos
    rw [byteSize_cons] at bound
    have next := h.pass .take
    by_cases opens : ch = '('
    · subst opens
      rw [h.closeParens_open opened] at accepted
      obtain ⟨inner, after, rfl, closes⟩ := ih next (toNat_add_one count (by omega)) (by omega) accepted
      exact ⟨'(' :: inner, after, rfl, Closes.open_iff.2 closes⟩
    by_cases shuts : ch = ')'
    · subst shuts
      cases n with
      | zero => exact ⟨[], rest, rfl, Closes.nil_iff.2 rfl⟩
      | succ n =>
        rw [h.closeParens_close opened] at accepted
        obtain ⟨inner, after, rfl, closes⟩ := ih next (toNat_sub_one count) (by omega) accepted
        exact ⟨')' :: inner, after, rfl, Closes.close_iff.2 closes⟩
    · have other : isParen ch = false := by simp [isParen, opens, shuts]
      rw [h.closeParens_other ends other opened] at accepted
      obtain ⟨inner, after, rfl, closes⟩ := ih next count (by omega) accepted
      exact ⟨ch :: inner, after, rfl, (Closes.other_iff other).2 closes⟩

/-- Behind an opening parenthesis the count has room, since the parenthesis itself has a byte. -/
theorem room_of_opened (h : c.Between (before ++ ['(']) rest beyond) : 0 + 1 + byteSize rest < UInt32.size := by
  have size := h.size
  have limit := c.script.size.toNat_lt
  have paren := '('.utf8Size_pos
  rw [byteSize_append, byteSize_append, byteSize_cons] at size
  simp only [UInt32.size]
  omega

/-- A balanced text and the parenthesis behind it are taken to the last character. -/
theorem closeParens_eq {inner after : List Char} (h : c.Between (before ++ ['(']) (inner ++ ')' :: after) beyond)
    (ends : ReadsAsEnd beyond) (balanced : Closes 0 inner) :
    Rule.closeParens search 1 c = ⟨true, c.passMany .take (inner.length + 1)⟩ :=
  h.closeParens_of_closes ends rfl h.room_of_opened balanced

/-- A list is accepted if a balanced text and a closing parenthesis are ahead. -/
theorem closeParens_accepted_iff (h : c.Between (before ++ ['(']) rest beyond) (ends : ReadsAsEnd beyond) :
    (Rule.closeParens search 1 c).accepted = true ↔ ∃ inner after, rest = inner ++ ')' :: after ∧ Closes 0 inner := by
  constructor
  · exact h.closes_of_closeParens ends rfl h.room_of_opened
  · rintro ⟨inner, after, rfl, balanced⟩
    rw [h.closeParens_eq ends balanced]

end Cursor.Between

/-! ## In front of the list -/

namespace Rule

/-- The part of a declaration up to the opening parenthesis, which is taken too. -/
def heading (c : Cursor) : Outcome :=
  let c := c.passSpaces .skip
  if isWordChar c.look then
    let name := declaredName c
    if name.accepted then
      let c := (name.cursor.passBlanks .take).cursor
      if c.look == '(' then ⟨true, c.pass .take⟩ else ⟨false, c⟩
    else name
  else ⟨false, c⟩

/-- The part of a declaration behind the opening parenthesis. -/
def listAndBody (search : ParenSearch) (c : Cursor) : Outcome :=
  let list := closeParens search 1 c
  if list.accepted then bodyFollows (list.cursor.passSpaces .skip) else list

/-- A declaration is its heading, and behind that its list and body. -/
theorem declaration_eq (search : ParenSearch) (c : Cursor) : declaration search c =
    if (heading c).accepted then listAndBody search (heading c).cursor else heading c := by
  simp only [declaration, heading, parameters, listAndBody]
  split
  · split
    · split
      · rfl
      · rfl
    · rfl
  · rfl

/-- What is accepted has a list that is closed. -/
theorem closed_of_listAndBody {search : ParenSearch} {c : Cursor} (accepted : (listAndBody search c).accepted = true) :
    (closeParens search 1 c).accepted = true := by
  simp only [listAndBody] at accepted
  split at accepted
  · next closed => exact closed
  · exact accepted

end Rule

/-- Spaces and word characters, which are all that stands in front of a parameter list. -/
def inHeading (ch : Char) : Bool := isSpace ch || isWordChar ch

namespace Cursor

/-- The cursor stands where a stretch of spaces and word characters was passed. -/
def BehindHeading (d : Cursor) (before rest beyond : List Char) : Prop :=
  ∃ head tail, rest = head ++ tail ∧ (∀ ch ∈ head, inHeading ch = true) ∧ d.Between (before ++ head) tail beyond

/-- Reading a word passes what taking it does. -/
theorem readWord_cursor (c : Cursor) (capacity : Nat) : (c.readWord capacity).cursor = c.passWord.cursor := by
  rw [readWord, passWord, passWhile]
  generalize Word.empty capacity = word, (0 : UInt32) = count
  fun_induction readOnto word c generalizing count with
  | case1 word c inside progress ih => rw [passCounting_inside inside progress, ih (count + 1)]
  | case2 word c inside stuck => rw [passCounting_stuck stuck]
  | case3 word c outside => rw [passCounting_outside (by simpa using outside)]

namespace BehindHeading

variable {c : Cursor} {before rest beyond : List Char}

theorem of_between (h : c.Between before rest beyond) : c.BehindHeading before rest beyond :=
  ⟨[], rest, rfl, nofun, by rwa [List.append_nil]⟩

/-- A run over characters of a heading stays in the heading, because the parenthesis stops it. -/
theorem passWhile (h : c.BehindHeading before rest beyond) (step : Step) {p : Char → Bool}
    (allowed : ∀ ch, p ch = true → inHeading ch = true) :
    (c.passWhile step p).cursor.BehindHeading before rest beyond := by
  obtain ⟨head, tail, rfl, inside, between⟩ := h
  have next := between.passWhile step p
  rw [List.append_assoc] at next
  refine ⟨head ++ tail.takeWhile p, tail.dropWhile p, ?_, ?_, next⟩
  · rw [List.append_assoc, List.takeWhile_append_dropWhile]
  · intro ch member
    rcases List.mem_append.1 member with first | last
    · exact inside ch first
    · exact allowed ch (List.mem_takeWhile_imp last)

theorem passSpaces (h : c.BehindHeading before rest beyond) (step : Step) :
    (c.passSpaces step).BehindHeading before rest beyond :=
  h.passWhile step fun ch space => by simp [inHeading, space]

theorem passBlanks (h : c.BehindHeading before rest beyond) (step : Step) :
    (c.passBlanks step).cursor.BehindHeading before rest beyond :=
  h.passWhile step fun ch blank => by simp [inHeading, isSpace, blank]

theorem passWord (h : c.BehindHeading before rest beyond) :
    c.passWord.cursor.BehindHeading before rest beyond :=
  h.passWhile .take fun ch word => by simp [inHeading, word]

theorem declaredName (h : c.BehindHeading before rest beyond) :
    (Rule.declaredName c).cursor.BehindHeading before rest beyond := by
  have first : (c.readWord Vocabulary.nameCapacity).cursor.BehindHeading before rest beyond := by
    rw [readWord_cursor]
    exact h.passWord
  simp only [Rule.declaredName]
  split
  · split
    · exact (first.passBlanks .take).passWord
    · exact first.passBlanks .take
  · exact first

end BehindHeading

/-- The list opens with the first parenthesis behind the cursor. -/
theorem Between.heading {c : Cursor} {before rest beyond : List Char} (h : c.Between before rest beyond)
    (ends : ReadsAsEnd beyond) (accepted : (Rule.heading c).accepted = true) :
    ∃ head tail, rest = head ++ '(' :: tail ∧ (∀ ch ∈ head, inHeading ch = true) ∧
      (Rule.heading c).cursor.Between (before ++ head ++ ['(']) tail beyond := by
  have start := (BehindHeading.of_between h).passSpaces .skip
  simp only [Rule.heading] at accepted ⊢
  split at accepted
  · next word =>
    simp only [if_pos word]
    split at accepted
    · next named =>
      simp only [if_pos named]
      split at accepted
      · next opens =>
        simp only [if_pos opens]
        obtain ⟨head, tail, rfl, inside, between⟩ := start.declaredName.passBlanks .take
        obtain ⟨tail, rfl⟩ := between.rest_of_look ends (beq_iff_eq.1 opens) (by decide)
        exact ⟨head, tail, rfl, inside, between.pass .take⟩
      · cases accepted
    · next unnamed => exact absurd accepted unnamed
  · cases accepted

end Cursor

end HotkeyLex
