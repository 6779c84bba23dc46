import HotkeyLex.Proofs.Stretches

/-!
# Where a parameter list is closed

Parentheses are counted from one on, for a list that was opened already, and the count is back at zero behind
the shortest part of the text that closes one parenthesis more than it opens. If no part does, everything is
taken: the search for the next parenthesis finds none only at the end of the text, though a null character
looks the same (`closeParens_finds_matching_close`).

One character at a time the count and what is still to be closed change alike (`ClosingOf.cons`). The count
has room for all parentheses that the text opens (`room_of_passed`).
-/

namespace HotkeyLex

/-! ## The shortest beginning -/

/-- `part` is the shortest beginning of `text` with a property. -/
structure ShortestBeginning (P : List Char → Prop) (part text : List Char) : Prop where
  begins : part <+: text
  holds : P part
  shortest : ∀ other, other <+: text → P other → part.length ≤ other.length

section

variable {P Q : List Char → Prop} {ch : Char} {part text : List Char} (empty : ¬ P [])
  (turn : ∀ other, P (ch :: other) ↔ Q other)
include empty turn

/-- The shortest beginning grows by a character that turns one property into the other. -/
theorem ShortestBeginning.cons (h : ShortestBeginning Q part text) :
    ShortestBeginning P (ch :: part) (ch :: text) where
  begins := List.cons_prefix_cons.2 ⟨rfl, h.begins⟩
  holds := (turn part).2 h.holds
  shortest other begins holds := by
    obtain rfl | ⟨tail, rfl, later⟩ := List.prefix_cons_iff.1 begins
    · exact absurd holds empty
    · exact Nat.succ_le_succ (h.shortest tail later ((turn tail).1 holds))

/-- Without such a beginning behind a character there is none in front of it. -/
theorem no_beginning_cons (none : ∀ other, other <+: text → ¬ Q other) :
    ∀ other, other <+: ch :: text → ¬ P other := by
  intro other begins holds
  obtain rfl | ⟨tail, rfl, later⟩ := List.prefix_cons_iff.1 begins
  · exact empty holds
  · exact none tail later ((turn tail).1 holds)

end

/-! ## What is still to be closed -/

/-- The text closes so many parentheses more than it opens. -/
def ClosesMore (count : Nat) (part : List Char) : Prop := part.count ')' = part.count '(' + count

namespace ClosesMore

variable {n : Nat} {part : List Char} {ch : Char}

theorem nil_iff : ClosesMore n [] ↔ n = 0 := by
  simp only [ClosesMore, List.count_nil]
  omega

/-- An opening parenthesis is one more to close. -/
theorem open_iff : ClosesMore n ('(' :: part) ↔ ClosesMore (n + 1) part := by
  simp only [ClosesMore, List.count_cons_self, List.count_cons_of_ne (show '(' ≠ ')' by decide)]
  omega

theorem close_iff : ClosesMore (n + 1) (')' :: part) ↔ ClosesMore n part := by
  simp only [ClosesMore, List.count_cons_self, List.count_cons_of_ne (show ')' ≠ '(' by decide)]
  omega

theorem other_iff (other : isParen ch = false) : ClosesMore n (ch :: part) ↔ ClosesMore n part := by
  simp only [isParen, Bool.or_eq_false_iff, beq_eq_false_iff_ne] at other
  rw [ClosesMore, List.count_cons_of_ne other.1, List.count_cons_of_ne other.2]
  rfl

end ClosesMore

/-- What comes of taking characters until `n` parentheses are closed: they are taken up to the first place
where that is so, or to the end if there is none. -/
inductive ClosingOf (n : Nat) (rest : List Char) (c : Cursor) : Outcome → Prop where
  | found {part : List Char} (shortest : ShortestBeginning (ClosesMore n) part rest) :
      ClosingOf n rest c ⟨true, c.passMany .take part.length⟩
  | missing (none : ∀ part, part <+: rest → ¬ ClosesMore n part) :
      ClosingOf n rest c ⟨false, c.passMany .take rest.length⟩

namespace ClosingOf

variable {n m : Nat} {rest : List Char} {c : Cursor} {ch : Char} {o : Outcome}

/-- With nothing to close, nothing is taken. -/
theorem zero {depth : UInt32} (count : depth.toNat = 0) (search : ParenSearch) (rest : List Char) (c : Cursor) :
    ClosingOf 0 rest c (Rule.closeParens search depth c) := by
  have nothing : ShortestBeginning (ClosesMore 0) [] rest := ⟨List.nil_prefix, rfl, fun _ _ _ => Nat.zero_le _⟩
  obtain rfl : depth = 0 := UInt32.toNat_inj.1 count
  rw [Rule.closeParens]
  exact .found nothing

theorem nil (n : Nat) (c : Cursor) : ClosingOf (n + 1) [] c ⟨false, c⟩ := by
  have none : ∀ part, part <+: [] → ¬ ClosesMore (n + 1) part := by
    intro part begins closes
    rw [List.prefix_nil.1 begins, ClosesMore.nil_iff] at closes
    cases closes
  exact .missing none

/-- One turn of the count, seen from the end it comes to. -/
theorem cons (turn : ∀ other, ClosesMore (n + 1) (ch :: other) ↔ ClosesMore m other)
    (later : ClosingOf m rest (c.pass .take) o) : ClosingOf (n + 1) (ch :: rest) c o := by
  have empty : ¬ ClosesMore (n + 1) [] := by
    rw [ClosesMore.nil_iff]
    exact Nat.succ_ne_zero n
  cases later with
  | found shortest => exact .found (shortest.cons empty turn)
  | missing none => exact .missing (no_beginning_cons empty turn none)

end ClosingOf

/-! ## The count -/

namespace Cursor

namespace Between

variable {c : Cursor} {before rest beyond : List Char} {search : ParenSearch} {depth : UInt32} {n : Nat}

/-- The count is exact if it has room for all parentheses that are opened. -/
theorem closingOf_closeParens (h : c.Between before rest beyond) (ends : ReadsAsEnd beyond)
    (count : depth.toNat = n) (room : n + rest.count '(' < UInt32.size) :
    ClosingOf n rest c (Rule.closeParens search depth c) := by
  induction rest generalizing c before depth n with
  | nil =>
    cases n with
    | zero => exact .zero count search [] c
    | succ n =>
      rw [h.closeParens_nil (ne_zero_of_toNat count)]
      exact .nil n c
  | cons ch rest ih =>
    cases n with
    | zero => exact .zero count search (ch :: rest) c
    | succ n =>
      have opened := ne_zero_of_toNat count
      have next := h.pass .take
      by_cases opens : ch = '('
      · subst opens
        rw [List.count_cons_self] at room
        rw [h.closeParens_open opened]
        exact .cons (fun _ => ClosesMore.open_iff) (ih next (toNat_add_one count (by omega)) (by omega))
      rw [List.count_cons_of_ne opens] at room
      by_cases shuts : ch = ')'
      · subst shuts
        rw [h.closeParens_close opened]
        exact .cons (fun _ => ClosesMore.close_iff) (ih next (toNat_sub_one count) (by omega))
      · have other : isParen ch = false := by simp [isParen, opens, shuts]
        rw [h.closeParens_other ends other opened]
        exact .cons (fun _ => ClosesMore.other_iff other) (ih next count room)

/-- Behind some character there is room in the count: a script has fewer characters than offsets. -/
theorem room_of_passed (h : c.Between before rest beyond) (passed : 0 < c.pos) :
    1 + rest.count '(' < UInt32.size := by
  have size := h.size
  have limit := c.script.size.toNat_lt
  have few := length_le_byteSize rest
  have some := List.count_le_length (a := '(') (l := rest)
  have front : 0 < c.pos.toNat := UInt32.lt_iff_toNat_lt.1 passed
  rw [h.pos] at front
  rw [byteSize_append] at size
  simp only [UInt32.size]
  omega

end Between

end Cursor

/-! ## What the outcome tells -/

namespace ClosingOf

open Cursor

variable {n : Nat} {before rest beyond : List Char} {c : Cursor} {o : Outcome}

/-- Either way a stretch of the rest was taken. -/
theorem exists_taken (h : ClosingOf n rest c o) :
    ∃ part after, rest = part ++ after ∧ o.cursor = c.passMany .take part.length := by
  cases h with
  | found shortest =>
    obtain ⟨after, rfl⟩ := shortest.begins
    exact ⟨_, after, rfl, rfl⟩
  | missing => exact ⟨rest, [], (List.append_nil rest).symm, rfl⟩

/-- If some beginning closes all that is open, the count stops behind the shortest. -/
theorem accepted_of_closes (h : ClosingOf n rest c o) (between : c.Between before rest beyond)
    (closes : ∃ part, part <+: rest ∧ ClosesMore n part) :
    o.accepted = true ∧ ∃ part after, rest = part ++ after ∧ ShortestBeginning (ClosesMore n) part rest ∧
      o.cursor.Between (before ++ part) after beyond := by
  cases h with
  | @found part shortest =>
    obtain ⟨after, rfl⟩ := shortest.begins
    exact ⟨rfl, part, after, rfl, shortest, between.passMany part .take⟩
  | missing none =>
    obtain ⟨part, begins, closes⟩ := closes
    exact absurd closes (none part begins)

/-- If none does, the count fails at the end of the text. -/
theorem atEnd_of_open (h : ClosingOf n rest c o) (between : c.Between before rest beyond)
    (none : ∀ part, part <+: rest → ¬ ClosesMore n part) :
    o.accepted = false ∧ o.cursor.atEnd = true ∧ o.cursor.Between (before ++ rest) [] beyond := by
  cases h with
  | found shortest => exact absurd shortest.holds (none _ shortest.begins)
  | missing =>
    have whole : c.Between before (rest ++ []) beyond := by rwa [List.append_nil]
    have stop := whole.passMany rest .take
    exact ⟨rfl, stop.atEnd_nil, stop⟩

/-- The token has both its ends, and something was taken for it if a byte was passed. -/
theorem token (h : ClosingOf n rest c o) (between : c.Between before rest beyond) :
    o.cursor.start = c.start ∧ o.cursor.mark = c.mark ∧
      (o.cursor.taken = true ↔ c.taken = true ∨ c.pos < o.cursor.pos) := by
  obtain ⟨part, after, rfl, stop⟩ := h.exists_taken
  have takes := between.takes_passMany
  have behind := between.passMany part .take
  have moved : c.pos < (c.passMany .take part.length).pos ↔ 0 < part.length := by
    rw [UInt32.lt_iff_toNat_lt, between.pos, behind.pos, byteSize_append, ← byteSize_pos_iff]
    omega
  rw [stop, moved]
  exact ⟨takes.start, takes.mark, takes.taken⟩

end ClosingOf

/-- At every cursor, whatever its token, counting parentheses from one on comes to an end, the loop without its
guard as well. If some part of the rest closes one parenthesis more than it opens, the count ends behind the
shortest such part; otherwise everything is taken up to the end of the text, null characters included. Neither
end of the token moves. The count begins at one for a parenthesis in front of the cursor, and then has room for
all that the script can open behind it; with nothing in front of the cursor the script must open fewer than its
greatest size. The text may be longer than offsets can tell, if a zero byte stands where it is cut. -/
theorem Cursor.closeParens_finds_matching_close {text : String}
    (closed : text.utf8ByteSize ≤ 0xFFFFFFFF ∨ (Script.ofText text).byteAt 0xFFFFFFFF = 0) {c : Cursor}
    (script : c.script = Script.ofText text) (placed : c.script.isBoundary c.pos = true)
    (room : 0 < c.pos ∨ text.toList.count '(' < 0xFFFFFFFF) (search : ParenSearch) :
    let result := Rule.closeParens search 1 c
    (Machine.unguarded.closing search).run ⟨1, c⟩ = .some result ∧
    (∃ before rest beyond, text.toList = before ++ (rest ++ beyond) ∧ c.Between before rest beyond ∧
      ((∃ part, part <+: rest ∧ ClosesMore 1 part) → result.accepted = true ∧
        ∃ part after, rest = part ++ after ∧ ShortestBeginning (ClosesMore 1) part rest ∧
          result.cursor.Between (before ++ part) after beyond) ∧
      ((∀ part, part <+: rest → ¬ ClosesMore 1 part) → result.accepted = false ∧
        result.cursor.atEnd = true ∧ result.cursor.Between (before ++ rest) [] beyond)) ∧
    result.cursor.start = c.start ∧ result.cursor.mark = c.mark ∧
    (result.cursor.taken = true ↔ c.taken = true ∨ c.pos < result.cursor.pos) := by
  intro result
  obtain ⟨before, rest, beyond, split, h, ends⟩ := exists_between_closed closed script placed
  have counts : 1 + rest.count '(' < UInt32.size := by
    rcases room with passed | few
    · exact h.room_of_passed passed
    · rw [split, List.count_append, List.count_append] at few
      simp only [UInt32.size]
      omega
  have closing : ClosingOf 1 rest c result := h.closingOf_closeParens ends rfl counts
  refine ⟨?_, ⟨before, rest, beyond, split, h, closing.accepted_of_closes h, closing.atEnd_of_open h⟩,
    closing.token h⟩
  exact Machine.unguarded_closeParens (Script.closed_ofText closed) ⟨script, before, rest, beyond, h⟩ search 1

/-- Behind the parenthesis of a list with a list and a null character in it, the one that closes the first is
found and the one behind it is left. Where a parenthesis is missing, the end of the text is found instead of the
null character in front of it. -/
theorem Cursor.closeParens_finds_matching_close_nested :
    (∃ before rest beyond part after, "é(a(\x00)b)c)".toList = before ++ (rest ++ beyond) ∧ 3 = byteSize before ∧
      rest = part ++ after ∧ ShortestBeginning (ClosesMore 1) part rest ∧ 9 = byteSize (before ++ part)) ∧
    (Rule.closeParens .byByte 1 (fresh (Script.ofText "((\x00)\x00é") 1)).accepted = false ∧
    (Rule.closeParens .byByte 1 (fresh (Script.ofText "((\x00)\x00é") 1)).cursor.pos = 7 := by
  have boundary : (Script.ofText "é(a(\x00)b)c)").isBoundary 3 = true := by decide +kernel
  obtain ⟨-, ⟨before, rest, beyond, split, h, found, missing⟩, -⟩ := closeParens_finds_matching_close
    (.inl (by decide)) (c := fresh (Script.ofText "é(a(\x00)b)c)") 3) rfl boundary (.inl (by decide)) .byByte
  have accepted : (Rule.closeParens .byByte 1 (fresh (Script.ofText "é(a(\x00)b)c)") 3)).accepted = true := by
    decide +kernel
  have closes : ∃ part, part <+: rest ∧ ClosesMore 1 part := by
    by_contra none
    have declined := (missing fun part begins closes => none ⟨part, begins, closes⟩).1
    rw [accepted] at declined
    cases declined
  obtain ⟨-, part, after, cut, shortest, behind⟩ := found closes
  have stop : (Rule.closeParens .byByte 1 (fresh (Script.ofText "é(a(\x00)b)c)") 3)).cursor.pos = 9 := by
    decide +kernel
  refine ⟨⟨before, rest, beyond, part, after, split, h.pos, cut, shortest, ?_⟩, ?_, ?_⟩
  · rw [← behind.pos, stop]
    rfl
  · decide +kernel
  · decide +kernel

end HotkeyLex
