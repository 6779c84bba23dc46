import HotkeyLex.Proofs.Checked
import HotkeyLex.Proofs.Faithfulness
import HotkeyLex.Proofs.TokenBounds

/-!
# The arithmetic of cursors is exact

No word wraps and no number is cut in whatever is done with a cursor of a script, up to the longest text
whose offsets fit in 32 bits: the checked form of every walk gives what the walk gives. For this it is enough
that the checked machine is faithful where a cursor is in the text (`checked_faithful`) and closes the lists
there (`checked_closesLists`).

Three arguments carry this. The next character lies whole in front of the end of the text, so the next
offset does. Each turn of a run passes a byte or more, so the count falls behind the offset. And the depth
of a parameter list is at most the number of parentheses opened, each of which is a byte in front of the
cursor, as is the name in front of all of them.
-/

namespace HotkeyLex

section

variable {a b : UInt32}

theorem sum?_eq (room : a.toNat + b.toNat < UInt32.size) : sum? a b = some (a + b) := if_pos room

theorem sum?_one (room : a.toNat + 1 < UInt32.size) : sum? a 1 = some (a + 1) := sum?_eq room

theorem difference?_eq (enough : b.toNat ≤ a.toNat) : difference? a b = some (a - b) := if_pos enough

theorem word?_eq {n : Nat} (fits : n < UInt32.size) : word? n = some n.toUInt32 := if_pos fits

end

namespace Cursor.InText

variable {s : Script} {c : Cursor}

/-! ## One character -/

/-- What lies in front of the cursor lies in front of the end. -/
theorem lt_size (h : InText s c) {n : Nat} (behind : n < c.pos.toNat) : n < c.script.size.toNat := by
  obtain ⟨-, before, rest, beyond, between⟩ := h
  exact Nat.lt_of_lt_of_le behind between.pos_le_size

/-- Before the end there is a character to pass. -/
theorem exists_ahead (h : InText s c) (more : c.atEnd = false) :
    ∃ before ch rest beyond, c.Between before (ch :: rest) beyond := by
  obtain ⟨-, before, rest, beyond, between⟩ := h
  cases rest with
  | nil =>
    rw [between.atEnd_nil] at more
    cases more
  | cons ch rest => exact ⟨before, ch, rest, beyond, between⟩

/-- The last character too ends within the text. -/
theorem width_le (h : InText s c) (more : c.atEnd = false) :
    c.pos.toNat + (Script.leadWidth (c.script.byteAt c.pos)).toNat ≤ c.script.size.toNat := by
  obtain ⟨before, ch, rest, beyond, between⟩ := h.exists_ahead more
  exact between.width_le

/-- A character has a byte at least. -/
theorem pos_lt_pass (h : InText s c) (more : c.atEnd = false) (step : Step) :
    c.pos.toNat < (c.pass step).pos.toNat := by
  obtain ⟨before, ch, rest, beyond, between⟩ := h.exists_ahead more
  exact UInt32.lt_iff_toNat_lt.1 (between.pos_lt_pass step)

/-- What is read at the end is the null character. -/
theorem more_of_look (closed : s.Closed) (h : InText s c) (solid : c.look ≠ '\x00') : c.atEnd = false := by
  obtain ⟨script, before, rest, beyond, between⟩ := h
  rw [← script] at closed
  cases rest with
  | nil => exact absurd (between.look_eq (between.readsAsEnd closed)) solid
  | cons ch rest => exact between.atEnd_cons

/-- The next offset fits, and there is no need to cut it. -/
theorem pass?_eq (h : InText s c) (step : Step) : c.pass? step = some (c.pass step) := by
  cases done : c.atEnd with
  | true =>
    rw [pass_of_atEnd step done, pass?, if_pos done]
    rfl
  | false =>
    obtain ⟨before, ch, rest, beyond, between⟩ := h.exists_ahead done
    have sum : sum? c.pos (Script.leadWidth (c.script.byteAt c.pos)) = some c.nextPos := by
      rw [sum?_eq (Nat.lt_of_le_of_lt between.width_le c.script.size.toNat_lt), between.nextPos_eq]
    have inside : c.nextPos ≤ c.script.size := Std.min_le_right
    rw [pass_of_not_atEnd step done, pass?, if_neg (by simp [done]), sum]
    simp only [Option.bind_eq_bind, Option.bind_some, guard, if_pos inside]
    rfl

/-- A run counts no more characters than it passes bytes. -/
theorem count_le (h : InText s c) (step : Step) (p : Char → Bool) :
    c.pos.toNat + (c.passWhile step p).count.toNat ≤ (c.passWhile step p).cursor.pos.toNat := by
  obtain ⟨-, before, rest, beyond, between⟩ := h
  have few := length_le_byteSize (rest.takeWhile p)
  rw [between.toNat_count, (between.passWhile step p).pos, between.pos, byteSize_append]
  omega

/-! ## The search for a parenthesis -/

/-- The next parenthesis lies in front of the end, and without one the end itself is found. -/
theorem parenDistance_le (h : InText s c) :
    c.pos.toNat + c.script.parenDistance c.pos ≤ c.script.size.toNat := by
  obtain ⟨-, before, rest, beyond, between⟩ := h
  have parts := congrArg byteSize (List.takeWhile_append_dropWhile (p := (!isParen ·)) (l := rest))
  rw [byteSize_append] at parts
  rw [between.parenDistance, between.pos, between.size, byteSize_append]
  omega

/-- The distance to a parenthesis is a word, and so is the offset of the parenthesis. -/
theorem toParenByByte?_eq (h : InText s c) : c.toParenByByte? = some c.toParenByByte := by
  have whole := h.parenDistance_le
  have bound := c.script.size.toNat_lt
  simp only [toParenByByte?, toParenByByte]
  generalize c.script.parenDistance c.pos = distance at whole
  have fits : distance < UInt32.size := by
    rw [UInt32.size]
    omega
  have number : distance.toUInt32.toNat = distance := UInt32.toNat_ofNat_of_lt' fits
  have room : c.pos.toNat + distance.toUInt32.toNat < UInt32.size := by
    rw [number]
    exact Nat.lt_of_le_of_lt whole bound
  have inside : c.pos + distance.toUInt32 ≤ c.script.size := by
    rw [UInt32.le_iff_toNat_le, UInt32.toNat_add, Nat.mod_eq_of_lt room, number]
    exact whole
  split
  · rw [word?_eq fits]
    simp only [Option.bind_eq_bind, Option.bind_some, sum?_eq room, guard, if_pos inside]
    rfl
  · rfl

/-- Either search goes on in the text. -/
theorem toParen (h : InText s c) (search : ParenSearch) :
    InText s (c.toParen search) ∧ c.pos.toNat ≤ (c.toParen search).pos.toNat := by
  have run := (Passes.toParenByChar c).reaches
  have found : InText s c.toParenByChar ∧ c.pos.toNat ≤ c.toParenByChar.pos.toNat :=
    ⟨h.reaches run, UInt32.le_iff_toNat_le.1 (h.pos_le_of_reaches run)⟩
  cases search with
  | byByte =>
    rw [h.toParen_eq]
    exact found
  | byChar => exact found

end Cursor.InText

open Cursor (InText Passes)

/-- Where cursors are in the text, the checked machine does what they do. -/
theorem Machine.checked_faithful (s : Script) : checked.Faithful True (InText s) where
  kept := InText.reaches
  pass := InText.pass?_eq
  jump h := ⟨h.toParenByByte?_eq, (h.toParen .byByte).1⟩
  tally {_ d _} progress behind := by
    have bound := d.pos.toNat_lt
    refine (if_pos progress).trans (sum?_one ?_)
    rw [UInt32.size]
    omega
  idle stays := ⟨_, if_neg stays⟩
  iterate turns held start := Loop.guarded_eq turns (fun state h => by rw [held state h]; rfl) start
  moving := .inl trivial

/-! ## Parameter lists -/

namespace Script

variable {s : Script} {start middle stop : UInt32}

theorem openings_le (s : Script) (start stop : UInt32) : s.openings start stop ≤ stop.toNat - start.toNat := by
  rw [openings]
  exact Nat.le_trans List.countP_le_length (Nat.le_of_eq List.length_range')

/-- Openings add up along the text. -/
theorem openings_append (low : start.toNat ≤ middle.toNat) (high : middle.toNat ≤ stop.toNat) :
    s.openings start stop = s.openings start middle + s.openings middle stop := by
  have whole : stop.toNat - start.toNat = middle.toNat - start.toNat + (stop.toNat - middle.toNat) := by omega
  have parts : List.range' start.toNat (stop.toNat - start.toNat) =
      List.range' start.toNat (middle.toNat - start.toNat) ++ List.range' middle.toNat (stop.toNat - middle.toNat) := by
    rw [whole, ← List.range'_append_1, Nat.add_sub_cancel' low]
  rw [openings, parts, List.countP_append]
  rfl

/-- An opening parenthesis counts from where it stands. -/
theorem openings_pos (opens : s.byteAt middle = 0x28) (low : start.toNat ≤ middle.toNat)
    (high : middle.toNat < stop.toNat) : 0 < s.openings start stop := by
  rw [openings, List.countP_pos_iff]
  refine ⟨middle.toNat, ?_, beq_iff_eq.2 opens⟩
  rw [List.mem_range'_1]
  omega

end Script

/-- The depth of `nest` is at most what was opened on the way from `first`, all of it in the text. -/
structure Nesting.Within (s : Script) (first nest : Nesting) : Prop where
  inText : InText s nest.cursor
  later : first.cursor.pos.toNat ≤ nest.cursor.pos.toNat
  depth : nest.depth.toNat ≤ first.depth.toNat + nest.cursor.script.openings first.cursor.pos nest.cursor.pos

namespace Nesting.Within

variable {s : Script} {first nest : Nesting} (within : Within s first nest)
include within

/-- Every parenthesis that was opened is a byte in front of the cursor. -/
theorem opened_lt (room : first.depth.toNat < first.cursor.pos.toNat) :
    first.depth.toNat + nest.cursor.script.openings first.cursor.pos nest.cursor.pos < nest.cursor.pos.toNat := by
  have few := nest.cursor.script.openings_le first.cursor.pos nest.cursor.pos
  have later := within.later
  omega

/-- It stays so wherever no more is open than parentheses were passed. -/
theorem onward {depth : UInt32} {d : Cursor} (inText : InText s d) (later : nest.cursor.pos.toNat ≤ d.pos.toNat)
    (few : depth.toNat ≤ nest.depth.toNat + d.script.openings nest.cursor.pos d.pos) :
    Within s first ⟨depth, d⟩ := by
  have same : nest.cursor.script = d.script := within.inText.1.trans inText.1.symm
  have before := within.later
  have opened := within.depth
  rw [same] at opened
  refine ⟨inText, Nat.le_trans before later, ?_⟩
  change depth.toNat ≤ first.depth.toNat + d.script.openings first.cursor.pos d.pos
  rw [Script.openings_append before later]
  omega

/-- The next parenthesis opens one more. -/
theorem deeper (room : first.depth.toNat < first.cursor.pos.toNat) {search : ParenSearch}
    (opens : (nest.cursor.toParen search).look = '(') (more : (nest.cursor.toParen search).atEnd = false) :
    nest.depth.toNat + 1 < UInt32.size ∧
      Within s first ⟨nest.depth + 1, (nest.cursor.toParen search).pass .take⟩ := by
  have opened := within.opened_lt room
  have depth := within.depth
  have bound := nest.cursor.pos.toNat_lt
  obtain ⟨found, later⟩ := within.inText.toParen search
  have passed := found.pos_lt_pass more .take
  obtain ⟨before, ch, rest, beyond, between⟩ := found.exists_ahead more
  obtain rfl : ch = '(' := between.look_cons.symm.trans opens
  have same : ((nest.cursor.toParen search).pass .take).script = (nest.cursor.toParen search).script :=
    (found.pass .take).1.trans found.1.symm
  have one := Script.openings_pos between.byteAt later passed
  have fits : nest.depth.toNat + 1 < UInt32.size := by
    rw [UInt32.size]
    omega
  refine ⟨fits, within.onward (found.pass .take) (Nat.le_of_lt (Nat.lt_of_le_of_lt later passed)) ?_⟩
  rw [same, toNat_add_one rfl fits]
  exact Nat.add_le_add_left one _

/-- With a parenthesis open, the next one may close it. -/
theorem shallower (opened : nest.depth ≠ 0) (search : ParenSearch) :
    UInt32.toNat 1 ≤ nest.depth.toNat ∧
      Within s first ⟨nest.depth - 1, (nest.cursor.toParen search).pass .take⟩ := by
  obtain ⟨found, later⟩ := within.inText.toParen search
  have passed := UInt32.le_iff_toNat_le.1 (found.pos_le_pass .take)
  have enough : UInt32.toNat 1 ≤ nest.depth.toNat := by
    apply Nat.pos_of_ne_zero
    intro none
    exact opened (UInt32.toNat_inj.1 none)
  refine ⟨enough, within.onward (found.pass .take) (Nat.le_trans later passed) ?_⟩
  rw [UInt32.toNat_sub_of_le _ _ (UInt32.le_iff_toNat_le.2 enough)]
  exact Nat.le_add_right_of_le (Nat.sub_le _ _)

end Nesting.Within

/-- The checked machine keeps count of the parentheses that are open. -/
theorem Machine.checked_nests {s : Script} (closed : s.Closed) {first : Nesting}
    (room : first.depth.toNat < first.cursor.pos.toNat) (search : ParenSearch) :
    checked.Nests (InText s) search (Nesting.Within s first) where
  inside within := within.inText
  deeper {depth c} within opens := by
    have more : (c.toParen search).atEnd = false :=
      (within.inText.toParen search).1.more_of_look closed (by rw [opens]; decide)
    obtain ⟨fits, next⟩ := within.deeper room opens more
    exact ⟨sum?_one fits, fun _ => next⟩
  shallower {depth c} within opened _ := by
    obtain ⟨enough, next⟩ := within.shallower opened search
    exact ⟨difference?_eq enough, fun _ => next⟩

/-- A name has a byte at least. -/
theorem Cursor.InText.pos_lt_declaredName {s : Script} {c : Cursor} (closed : s.Closed) (h : InText s c)
    (word : isWordChar c.look = true) : c.pos.toNat < (Rule.declaredName c).cursor.pos.toNat := by
  have solid : c.look ≠ '\x00' := by
    intro null
    rw [null] at word
    revert word
    decide
  have passed := h.pos_lt_pass (h.more_of_look closed solid) .take
  have letters : Passes (c.pass .take) (c.readWord Vocabulary.nameCapacity).cursor := by
    rw [readWord_cursor, passWord, passWhile, passCounting_inside word (UInt32.lt_iff_toNat_lt.2 passed)]
    exact .passCounting .take isWordChar _ _
  have onward {d : Cursor} (run : Passes (c.readWord Vocabulary.nameCapacity).cursor d) :
      c.pos.toNat < d.pos.toNat :=
    Nat.lt_of_lt_of_le passed
      (UInt32.le_iff_toNat_le.1 ((h.pass .take).pos_le_of_reaches (letters.trans run).reaches))
  simp only [Rule.declaredName]
  split
  · split
    · exact onward ((Passes.passBlanks _ .take).trans (.passWord _))
    · exact onward (.passBlanks _ .take)
  · exact onward (.refl _)

/-- The opening parenthesis and the name in front of it are two bytes or more. -/
theorem Machine.checked_closesLists {s : Script} (closed : s.Closed) : checked.ClosesLists (InText s) := by
  intro c search h word list opens
  have named := h.reaches (Passes.declaredName c).reaches
  have gap := (Passes.passBlanks (Rule.declaredName c).cursor .take).reaches
  have inner : InText s list := named.reaches gap
  have name := h.pos_lt_declaredName closed word
  have later : (Rule.declaredName c).cursor.pos.toNat ≤ list.pos.toNat :=
    UInt32.le_iff_toNat_le.1 (named.pos_le_of_reaches gap)
  have passed := inner.pos_lt_pass (inner.more_of_look closed (by rw [opens]; decide)) .take
  have room : UInt32.toNat 1 < (list.pass .take).pos.toNat := by
    rw [UInt32.toNat_one]
    omega
  have nests : checked.Nests (InText s) search (Nesting.Within s ⟨1, list.pass .take⟩) :=
    checked_nests closed room search
  have turns := (checked_faithful s).closing_turnsTo nests
  refine (checked_faithful s).iterate turns ?_ ⟨inner.pass .take, Nat.le_refl _, Nat.le_add_right _ _⟩
  intro nest within
  have opened := within.opened_lt room
  exact decide_eq_true ⟨within.depth, within.inText.lt_size opened⟩

/-! ## Walks -/

namespace Walk.InText

variable {s : Script} {text : String} {w : Walk}

/-- Every move on the checked machine gives what the move gives. -/
theorem move?_eq (closed : s.Closed) (h : w.InText s) (search : ParenSearch) (m : Move) :
    w.move? search m = some (w.move search m) := by
  have here := h.cursor
  have f := Machine.checked_faithful s
  have lists := Machine.checked_closesLists closed
  cases m with
  | pass step times => rw [move?, f.passMany here]; rfl
  | passWhile step p => rw [move?, f.passWhile here step (.inl trivial)]; rfl
  | passBlanks step => rw [move?, f.passBlanks here]; rfl
  | passSpaces step => rw [move?, f.passSpaces here]; rfl
  | toParen => rw [move?, (f.toParen here search).1]; rfl
  | readWord capacity => rw [move?, f.readWord here]; rfl
  | passWord => rw [move?, f.passWord here]; rfl
  | passKeyword keyword => rw [move?, f.passKeyword here]; rfl
  | rule kind => rw [move?, f.rule here lists]; rfl
  | choose valid => rw [move?, f.choose here lists]; rfl
  | mark | save | restore => rfl

/-- Either search keeps a walk in the text. -/
theorem moved (h : w.InText s) (search : ParenSearch) (m : Move) : (w.move search m).2.InText s := by
  cases search with
  | byByte =>
    rw [h.move_eq]
    exact h.move m
  | byChar => exact h.move m

/-- A checked walk has a result after any moves, and it is where the walk is. -/
theorem moves?_eq (closed : s.Closed) (h : w.InText s) (search : ParenSearch) (list : List Move) :
    w.moves? search list = some (w.moves search list) ∧ (w.moves search list).InText s := by
  induction list generalizing w with
  | nil => exact ⟨rfl, h⟩
  | cons m list ih =>
    obtain ⟨agrees, inText⟩ := ih (h.moved search m)
    refine ⟨?_, inText⟩
    rw [moves?, List.foldlM_cons, h.move?_eq closed]
    exact agrees

end Walk.InText

/-- No word wraps and no number is cut on any walk from a cursor that a script hands out: the checked walk
gives what the walk gives. Wherever a walk leads, the next character and the next parenthesis lie whole in
the text, of which the script has every byte, and a run counts no more characters than it passes bytes. -/
theorem Cursor.walk_eq_checked_walk {text : String} (fits : text.utf8ByteSize ≤ 0xFFFFFFFF) {c : Cursor}
    (opened : Opened (Script.ofText text) c) (search : ParenSearch) (list : List Move) :
    let w := (Walk.start c).moves search list
    (Walk.start c).moves? search list = some w ∧
    (∀ m : Move, w.move? search m = some (w.move search m)) ∧
    w.cursor.script.size.toNat = text.utf8ByteSize ∧
    (w.cursor.atEnd = false → w.cursor.pos.toNat +
      (Script.leadWidth (w.cursor.script.byteAt w.cursor.pos)).toNat ≤ w.cursor.script.size.toNat) ∧
    w.cursor.pos.toNat + w.cursor.script.parenDistance w.cursor.pos ≤ w.cursor.script.size.toNat ∧
    ∀ step p, w.cursor.pos.toNat + (w.cursor.passWhile step p).count.toNat ≤
      (w.cursor.passWhile step p).cursor.pos.toNat := by
  intro w
  have closed := Script.closed_ofText (.inl fits)
  have start : (Walk.start c).InText (Script.ofText text) := ⟨(opened.soundIn closed.isBoundary_size).inText, nofun⟩
  obtain ⟨agrees, inText⟩ := start.moves?_eq closed search list
  have here := inText.cursor
  have size : w.cursor.script.size.toNat = text.utf8ByteSize := by
    obtain ⟨chars, rfl⟩ := text.exists_eq_ofList
    rw [utf8ByteSize_ofList] at fits ⊢
    rw [here.1, Script.toNat_size_ofText (Nat.lt_succ_of_le fits)]
  exact ⟨agrees, inText.move?_eq closed search, size, here.width_le, here.parenDistance_le, here.count_le⟩

/-- A declaration with parentheses in its list, read once by its rule and once by the choice. -/
theorem Cursor.walk_eq_checked_walk_nested :
    ((Walk.start (ofScript (Script.ofText "f(ñ()) \x7b"))).moves? .byByte
      [.save, .rule .declaration, .restore, .choose .all]).map (·.cursor.pos) = some 8 := by
  rw [(Cursor.walk_eq_checked_walk (by decide) .body .byByte _).1]
  decide +kernel

end HotkeyLex
