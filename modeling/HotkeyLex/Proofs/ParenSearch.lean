import HotkeyLex.Proofs.Motion
import HotkeyLex.Proofs.Priority
import HotkeyLex.Proofs.Runs

/-!
# The two searches are one

A cursor between two characters of a text stays between two characters whatever is done with it.
There the search for a parenthesis over bytes and the search over characters leave the same cursor,
so no rule, no choice and no walk can tell which of the two is used.
-/

namespace HotkeyLex

namespace Cursor

/-- The cursor stands somewhere between the characters of a script. -/
def InText (s : Script) (c : Cursor) : Prop :=
  c.script = s ∧ ∃ before rest beyond, c.Between before rest beyond

namespace InText

variable {s : Script} {c d : Cursor}

theorem marked (h : InText s c) : InText s c.marked := by
  obtain ⟨script, before, rest, beyond, between⟩ := h
  exact ⟨script, before, rest, beyond, between.of_place rfl rfl⟩

/-- A cursor in the text passes to the next character or stays at the end. -/
theorem pass (h : InText s c) (step : Step) : InText s (c.pass step) := by
  obtain ⟨script, before, rest, beyond, between⟩ := h
  cases rest with
  | nil =>
    rw [between.pass_nil]
    exact ⟨script, before, [], beyond, between⟩
  | cons ch rest =>
    refine ⟨?_, before ++ [ch], rest, beyond, between.pass step⟩
    rw [between.pass_eq, movedTo_script, script]

/-- Whatever is reached from a cursor in the text is in the text. -/
theorem reaches (h : InText s c) (run : Reaches c d) : InText s d :=
  run.invariant (fun _ step here => here.pass step) (fun _ here => here.marked) h

theorem isBoundary (h : InText s c) : c.script.isBoundary c.pos = true := by
  obtain ⟨-, before, rest, beyond, between⟩ := h
  exact between.isBoundary

/-! ## From the search to the choice -/

/-- In the text both searches come to the same cursor. -/
theorem toParen_eq (h : InText s c) : c.toParen .byByte = c.toParen .byChar := by
  obtain ⟨-, before, rest, beyond, between⟩ := h
  exact between.toParenByByte_eq

/-- The count of parentheses does not see how they were searched for. -/
theorem closeParens_eq (depth : UInt32) (h : InText s c) :
    Rule.closeParens .byByte depth c = Rule.closeParens .byChar depth c := by
  fun_induction Rule.closeParens .byChar depth c with
  | case1 depth c zero => rw [Rule.closeParens, if_pos zero]
  | case2 depth c positive found next progress opens ih =>
    -- every turn begins again between two characters, behind the parenthesis just found
    rw [Rule.closeParens, if_neg positive, h.toParen_eq]
    simp only [found, next] at progress opens ih
    simp only [progress, opens, if_true]
    exact ih (h.reaches ((Passes.toParenByChar c).trans (.pass_one _ .take)).reaches)
  | case3 depth c positive found next progress other closes ih =>
    rw [Rule.closeParens, if_neg positive, h.toParen_eq]
    simp only [found, next] at progress other closes ih
    simp only [progress, if_true, if_neg other, closes]
    exact ih (h.reaches ((Passes.toParenByChar c).trans (.pass_one _ .take)).reaches)
  | case4 depth c positive found next progress other neither =>
    rw [Rule.closeParens, if_neg positive, h.toParen_eq]
    simp only [found, next] at progress other neither
    simp only [progress, if_true, if_neg other, if_neg neither]
    rfl
  | case5 depth c positive found next stuck =>
    rw [Rule.closeParens, if_neg positive, h.toParen_eq]
    simp only [found, next] at stuck
    simp only [if_neg stuck]
    rfl

theorem parameters_eq (h : InText s c) : Rule.parameters .byByte c = Rule.parameters .byChar c := by
  have inner := h.reaches ((Passes.passBlanks c .take).trans (.pass_one _ .take)).reaches
  simp only [Rule.parameters, inner.closeParens_eq 1]

/-- No declaration depends on the search, whatever its verdict. -/
theorem declaration_eq (h : InText s c) : Rule.declaration .byByte c = Rule.declaration .byChar c := by
  have inner := h.reaches ((Passes.passSpaces c .skip).trans (.declaredName _)).reaches
  simp only [Rule.declaration, inner.parameters_eq]

/-- The declaration is the only rule that searches. -/
theorem rule_eq (h : InText s c) (kind : Kind) : kind.rule .byByte c = kind.rule .byChar c := by
  cases kind with
  | declaration => exact h.declaration_eq
  | optional | omitted | juxtaposition | sectionOpen | lineBreak => rfl

theorem attempt_eq (h : InText s c) (kind : Kind) :
    (kind.row .byByte).attempt c = (kind.row .byChar).attempt c := by
  have entry : InText s (if kind.marksEntry then c.marked else c) := by
    split
    · exact h.marked
    · exact h
  exact entry.rule_eq kind

theorem choose_eq (h : InText s c) (valid : KindSet) : c.choose .byByte valid = c.choose .byChar valid :=
  choose_congr (fun _ => rfl) h.attempt_eq

end InText

end Cursor

/-! ## Walks -/

namespace Walk

/-- The cursor and all copies put aside stand in a text. -/
structure InText (s : Script) (w : Walk) : Prop where
  cursor : w.cursor.InText s
  saved : ∀ c ∈ w.saved, Cursor.InText s c

variable {s : Script} {w : Walk}

/-- A walk over characters stays in the text, and so do its copies. -/
theorem InText.move (h : w.InText s) (m : Move) : (w.move .byChar m).2.InText s := by
  have all : (w.move .byChar m).2.All (Cursor.InText s) :=
    All.move (fun run here => here.reaches run) ⟨h.cursor, h.saved⟩ m
  exact ⟨all.cursor, all.saved⟩

/-- One move is the same with either search. -/
theorem InText.move_eq (h : w.InText s) (m : Move) : w.move .byByte m = w.move .byChar m := by
  cases m with
  | toParen => simp only [Walk.move, h.cursor.toParen_eq]
  | rule kind => simp only [Walk.move, h.cursor.rule_eq]
  | choose valid => simp only [Walk.move, h.cursor.choose_eq]
  | _ => rfl

/-- Both searches lead a walk to the same place, in the text. -/
theorem InText.moves (h : w.InText s) (list : List Move) :
    (w.moves .byByte list).InText s ∧ w.moves .byByte list = w.moves .byChar list := by
  induction list generalizing w with
  | nil => exact ⟨h, rfl⟩
  | cons m list ih =>
    have next := ih (h.move m)
    simp only [Walk.moves, List.foldl_cons, h.move_eq m] at next ⊢
    exact next

end Walk

/-- A cursor on a boundary of a script, with any token under construction, does not show how
parentheses are searched: not in the search itself, not in a rule, not in a choice with its
attempts, and not in any walk from there, which only meets further boundaries of the script. The
text may be longer than offsets can tell, unless the cut then goes through a character. -/
theorem Cursor.search_by_byte_eq_by_char {text : String}
    (whole : text.utf8ByteSize ≤ 0xFFFFFFFF ∨ (Script.ofText text).isBoundary 0xFFFFFFFF = true) {c : Cursor}
    (script : c.script = Script.ofText text) (placed : c.script.isBoundary c.pos = true) :
    c.toParen .byByte = c.toParen .byChar ∧
    (∀ kind : Kind, kind.rule .byByte c = kind.rule .byChar c) ∧
    (∀ valid, c.choose .byByte valid = c.choose .byChar valid) ∧
    ∀ list, (Walk.start c).moves .byByte list = (Walk.start c).moves .byChar list ∧
      (∀ m, ((Walk.start c).moves .byByte list).move .byByte m =
        ((Walk.start c).moves .byByte list).move .byChar m) ∧
      ((Walk.start c).moves .byByte list).cursor.script = Script.ofText text ∧
      (Script.ofText text).isBoundary ((Walk.start c).moves .byByte list).cursor.pos = true := by
  have stop : c.script.isBoundary c.script.size = true := by
    rw [script]
    exact whole.elim (fun fits => isBoundary_size (Nat.lt_succ_of_le fits)) Script.isBoundary_size_of_max
  obtain ⟨before, rest, beyond, -, between⟩ := exists_between script stop placed
  have here : c.InText (Script.ofText text) := ⟨script, before, rest, beyond, between⟩
  refine ⟨here.toParen_eq, here.rule_eq, here.choose_eq, fun list => ?_⟩
  have start : (Walk.start c).InText (Script.ofText text) := ⟨here, by simp [Walk.start]⟩
  obtain ⟨inside, same⟩ := start.moves list
  have reached := inside.cursor.1
  exact ⟨same, inside.move_eq, reached, reached ▸ inside.cursor.isBoundary⟩

/-- A cursor behind an accented letter, with a marked end and a start of its own. -/
theorem Cursor.search_by_byte_eq_by_char_accented :
    (Script.ofText "é f(ñ) \x7b").isBoundary 2 = true ∧
    Cursor.choose ⟨Script.ofText "é f(ñ) \x7b", 2, 1, some 0, true⟩ .byByte .all =
      Cursor.choose ⟨Script.ofText "é f(ñ) \x7b", 2, 1, some 0, true⟩ .byChar .all :=
  have boundary : (Script.ofText "é f(ñ) \x7b").isBoundary 2 = true := by decide +kernel
  ⟨boundary, (Cursor.search_by_byte_eq_by_char (.inl (by decide)) rfl boundary).2.2.1 .all⟩

end HotkeyLex
