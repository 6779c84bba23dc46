import HotkeyLex.Proofs.Machines
import HotkeyLex.Proofs.Motion
import HotkeyLex.Proofs.Parameters

/-!
# Faithful machines

A machine is faithful on a set of cursors if it passes characters and counts as cursors do, and if its loops
come to what their turns lead up to (`Machine.Faithful`). Then it does whatever the rules do: the loops
one turn at a time (`Loop.TurnsTo`), the rules from the loops, and the choice from the rules
(`Faithful.choose`). Nothing of this asks how a machine runs its loops, or why its words do not wrap.

A machine that looks whether a turn has moved the cursor may find that it has not, and then has to come to
what the loops of the rules come to there. For a machine that does not look, all turns that go on have to
move (`Moving`).

The machine that the rules run on is faithful everywhere (`direct_rule`).
-/

namespace HotkeyLex

open Cursor (Passes Reaches)

variable {m : Type → Type} [Monad m] {σ ρ : Type}

/-! ## Loops -/

/-- A turn ends the loop with what is expected, or moves on to where the same is expected. If the machine
looks at it, a turn may also get stuck, as long as that comes to what is expected. -/
inductive Loop.TurnsTo (l : Loop m σ ρ) (looks : Prop) (J : σ → Prop) (expected : σ → ρ) (state : σ) : Prop where
  | done (turn : l.turn state = pure (.inl (expected state))) : TurnsTo l looks J expected state
  | onward {next : σ} (turn : l.turn state = pure (.inr next))
      (progress : (l.cursor state).pos < (l.cursor next).pos) (keeps : J next)
      (same : expected state = expected next) : TurnsTo l looks J expected state
  | stuck {next : σ} (allowed : looks) (turn : l.turn state = pure (.inr next))
      (still : ¬ (l.cursor state).pos < (l.cursor next).pos) (comes : l.stuck state = pure (expected state)) :
      TurnsTo l looks J expected state

/-- A turn that goes on, where what is expected is told by a look whether the cursor has moved, as it is in the
guarded loops. -/
theorem Loop.TurnsTo.of_next {l : Loop m σ ρ} {looks : Prop} {J : σ → Prop} {expected : σ → ρ} {state next : σ}
    {otherwise : ρ} (turn : l.turn state = pure (.inr next))
    (moves : looks ∨ (l.cursor state).pos < (l.cursor next).pos)
    (keeps : (l.cursor state).pos < (l.cursor next).pos → J next) (gives : l.stuck state = pure otherwise)
    (rule : expected state = if (l.cursor state).pos < (l.cursor next).pos then expected next else otherwise) :
    l.TurnsTo looks J expected state := by
  by_cases progress : (l.cursor state).pos < (l.cursor next).pos
  · rw [if_pos progress] at rule
    exact .onward turn progress (keeps progress) rule
  · rw [if_neg progress] at rule
    refine .stuck (moves.resolve_right progress) turn progress ?_
    rw [gives, rule]

/-- What the turns of a guarded loop lead up to is what it comes to. -/
theorem Loop.guarded_eq [LawfulMonad m] {l : Loop m σ ρ} {J : σ → Prop} {expected : σ → ρ} {test : Bool → m Unit}
    {first : σ} (turns : ∀ state, J state → l.TurnsTo True J expected state)
    (holds : ∀ state, J state → test (l.bound first state) = pure ()) {state : σ} (h : J state) :
    l.guarded test first state = pure (expected state) := by
  generalize here : l.cursor state = c
  induction c using Cursor.later_induction generalizing state with
  | turn c ih =>
    rw [Loop.guarded, holds state h, pure_bind]
    cases turns state h with
    | done turn => rw [turn, pure_bind]
    | onward turn progress keeps same =>
      rw [turn, pure_bind, same]
      simp only [if_pos progress]
      exact ih _ (here ▸ progress) keeps rfl
    | stuck _ turn still comes =>
      rw [turn, pure_bind]
      simp only [if_neg still, comes]

/-- Wherever a loop of the rules goes on, the cursor moves. -/
structure Moving (P : Cursor → Prop) : Prop where
  /-- The null character that is read at the end is never taken for another. -/
  solid {c : Cursor} : P c → c.look ≠ '\x00' → c.atEnd = false
  ahead {c : Cursor} : P c → c.atEnd = false → ∀ step, c.pos < (c.pass step).pos
  paren {c : Cursor} : P c → ∀ search, (c.toParen search).look ≠ '\x00' →
    c.pos < ((c.toParen search).pass .take).pos
  option {c : Cursor} : P c → (Rule.sectionOption c).accepted = true →
    c.pos < ((Rule.sectionOption c).cursor.passBlanks .take).cursor.pos

namespace Machine

/-- On the cursors of `P`, the machine does what cursors do. `looks` says whether its loops look whether a
turn has moved the cursor. -/
structure Faithful (M : Machine m) (looks : Prop) (P : Cursor → Prop) : Prop where
  kept {c d : Cursor} : P c → Reaches c d → P d
  pass {c : Cursor} : P c → ∀ step, M.pass c step = pure (c.pass step)
  jump {c : Cursor} : P c → M.jump c = pure c.toParenByByte ∧ P c.toParenByByte
  /-- A count that has not caught up with the offset is exact. -/
  tally {c d : Cursor} {n : UInt32} : c.pos < d.pos → n.toNat < d.pos.toNat → M.tally c d n = pure (n + 1)
  /-- A turn that passes nothing may count what it likes, since it is given up. -/
  idle {c d : Cursor} {n : UInt32} : ¬ c.pos < d.pos → ∃ k, M.tally c d n = pure k
  /-- What turns lead up to, with the bounds kept, is what a loop comes to. -/
  iterate {σ ρ : Type} {l : Loop m σ ρ} {J : σ → Prop} {expected : σ → ρ} {first : σ} :
    (∀ state, J state → l.TurnsTo looks J expected state) → (∀ state, J state → l.bound first state = true) →
    J first → M.iterate l first = pure (expected first)
  moving : looks ∨ Moving P

/-- Where `J` holds, the machine gets the depth of the next turn right, and `J` holds again. -/
structure Nests (M : Machine m) (P : Cursor → Prop) (search : ParenSearch) (J : Nesting → Prop) : Prop where
  inside {depth : UInt32} {c : Cursor} : J ⟨depth, c⟩ → P c
  deeper {depth : UInt32} {c : Cursor} : J ⟨depth, c⟩ → (c.toParen search).look = '(' →
    M.deeper depth = pure (depth + 1) ∧
      (c.pos < ((c.toParen search).pass .take).pos → J ⟨depth + 1, (c.toParen search).pass .take⟩)
  shallower {depth : UInt32} {c : Cursor} : J ⟨depth, c⟩ → depth ≠ 0 → (c.toParen search).look = ')' →
    M.shallower depth = pure (depth - 1) ∧
      (c.pos < ((c.toParen search).pass .take).pos → J ⟨depth - 1, (c.toParen search).pass .take⟩)

/-- The machine closes the parentheses of a list that stands behind a name. -/
def ClosesLists (M : Machine m) (P : Cursor → Prop) : Prop :=
  ∀ c search, P c → isWordChar c.look = true →
    let list := ((Rule.declaredName c).cursor.passBlanks .take).cursor
    list.look = '(' →
      M.iterate (M.closing search) ⟨1, list.pass .take⟩ = pure (Rule.closeParens search 1 (list.pass .take))

namespace Faithful

variable {M : Machine m} {looks : Prop} {P : Cursor → Prop}

/-! ## Turns -/

section

variable (f : M.Faithful looks P)
include f

/-- A turn over a character of a class without the null character moves. -/
theorem progress {p : Char → Bool} (solid : looks ∨ p '\x00' = false) {c : Cursor} (h : P c)
    (inside : p c.look = true) (step : Step) : looks ∨ c.pos < (c.pass step).pos := by
  rcases solid with allowed | solid
  · exact .inl allowed
  rcases f.moving with allowed | moving
  · exact .inl allowed
  · refine .inr (moving.ahead h (moving.solid h ?_) step)
    intro null
    rw [null, solid] at inside
    cases inside

variable [LawfulMonad m]

/-- A turn of a run, as long as the count stays right. -/
theorem counting_turnsTo (step : Step) {p : Char → Bool} (solid : looks ∨ p '\x00' = false) {J : Run → Prop}
    (inside : ∀ run, J run → P run.cursor)
    (counts : ∀ run, J run → run.cursor.pos < (run.cursor.pass step).pos →
      M.tally run.cursor (run.cursor.pass step) run.count = pure (run.count + 1) ∧
        J ⟨run.count + 1, run.cursor.pass step⟩)
    (run : Run) (h : J run) :
    (M.counting step p).TurnsTo looks J (fun run => run.cursor.passCounting step p run.count) run := by
  have passed := f.pass (inside run h) step
  by_cases member : p run.cursor.look = true
  · by_cases progress : run.cursor.pos < (run.cursor.pass step).pos
    · obtain ⟨counted, keeps⟩ := counts run h progress
      have turn : (M.counting step p).turn run = pure (.inr ⟨run.count + 1, run.cursor.pass step⟩) := by
        simp only [counting, if_pos member, passed, counted, pure_bind]
      exact .onward turn progress keeps (Cursor.passCounting_inside member progress)
    · obtain ⟨k, counted⟩ := f.idle (n := run.count) progress
      have turn : (M.counting step p).turn run = pure (.inr ⟨k, run.cursor.pass step⟩) := by
        simp only [counting, if_pos member, passed, counted, pure_bind]
      have allowed := (f.progress solid (inside run h) member step).resolve_right progress
      refine .stuck allowed turn progress ?_
      rw [Cursor.passCounting, if_pos member, if_neg progress]
      rfl
  · refine .done ?_
    rw [Cursor.passCounting, if_neg member]
    exact if_neg member

/-- A turn over a word, which needs no bound: the word knows its own capacity. -/
theorem reading_turnsTo (read : WordRead) (h : P read.cursor) :
    M.reading.TurnsTo looks (P ·.cursor) (fun read => read.cursor.readOnto read.word) read := by
  by_cases member : isWordChar read.cursor.look = true
  · have turn : M.reading.turn read = pure (.inr ⟨read.word.push read.cursor.look, read.cursor.pass .take⟩) := by
      simp only [reading, if_pos member, f.pass h, pure_bind]
    have moves := f.progress (.inr (by decide)) h member .take
    refine .of_next turn moves (fun _ => f.kept h (Passes.pass_one _ .take).reaches) rfl ?_
    rw [Cursor.readOnto, if_pos member]
    rfl
  · refine .done ?_
    rw [Cursor.readOnto, if_neg member]
    exact if_neg member

/-- A turn of the search, which stops at the end by its own test. -/
theorem searching_turnsTo (c : Cursor) (h : P c) :
    M.searching.TurnsTo looks P Cursor.toParenByChar c := by
  by_cases other : (!c.atEnd && !isParen c.look) = true
  · have turn : M.searching.turn c = pure (.inr (c.pass .take)) := by
      simp only [searching, if_pos other, f.pass h, pure_bind]
    have more : c.atEnd = false := by
      rw [Bool.and_eq_true, Bool.not_eq_true'] at other
      exact other.1
    have moves := f.moving.imp_right fun moving => moving.ahead h more .take
    refine .of_next turn moves (fun _ => f.kept h (Passes.pass_one c .take).reaches) rfl ?_
    rw [Cursor.toParenByChar, if_pos other]
    rfl
  · refine .done ?_
    rw [Cursor.toParenByChar, if_neg other]
    exact if_neg other

end

/-! ## Runs and words -/

section

variable [LawfulMonad m] (f : M.Faithful looks P) {c : Cursor} (h : P c)
include f h

/-- The count of a run cannot catch up with the offset, so each of its turns is exact. -/
theorem passWhile (step : Step) {p : Char → Bool} (solid : looks ∨ p '\x00' = false) :
    M.passWhile c step p = pure (c.passWhile step p) := by
  -- the count falls behind, because each turn passes a byte or more
  have turns := f.counting_turnsTo step solid
    (J := fun run => P run.cursor ∧ c.pos.toNat + run.count.toNat ≤ run.cursor.pos.toNat) (fun _ here => here.1) ?_
  · refine f.iterate turns ?_ ⟨h, Nat.le_refl _⟩
    rintro run ⟨-, behind⟩
    exact decide_eq_true (Nat.le_add_right_of_le behind)
  · rintro run ⟨here, behind⟩ progress
    have later := UInt32.lt_iff_toNat_lt.1 progress
    have bound := (run.cursor.pass step).pos.toNat_lt
    refine ⟨f.tally progress (by omega), f.kept here (Passes.pass_one _ step).reaches, ?_⟩
    change c.pos.toNat + (run.count + 1).toNat ≤ (run.cursor.pass step).pos.toNat
    rw [toNat_add_one rfl (by rw [UInt32.size]; omega)]
    omega

theorem passBlanks (step : Step) : M.passBlanks c step = pure (c.passBlanks step) := by
  rw [Machine.passBlanks, f.passWhile h step (.inr rfl), pure_bind]
  rfl

/-- Space excludes the null character, so that the run needs no look at what its turns have done. -/
theorem passSpaces (step : Step) : M.passSpaces c step = pure (c.passSpaces step) := by
  rw [Machine.passSpaces, f.passWhile h step (.inr rfl), pure_bind]
  rfl

theorem passWord : M.passWord c = pure c.passWord := f.passWhile h .take (.inr (by decide))

/-- A word is read as far as it goes, whatever it keeps of it. -/
theorem readWord (capacity : Nat) : M.readWord c capacity = pure (c.readWord capacity) := by
  have turns : ∀ read : WordRead, P read.cursor → _ := f.reading_turnsTo
  exact f.iterate turns (fun _ _ => rfl) h

/-- Either search comes to the same parenthesis and stays where the machine is faithful. -/
theorem toParen (search : ParenSearch) :
    M.toParen c search = pure (c.toParen search) ∧ P (c.toParen search) := by
  cases search with
  | byByte => exact f.jump h
  | byChar =>
    refine ⟨?_, f.kept h (Passes.toParenByChar c).reaches⟩
    exact f.iterate f.searching_turnsTo (fun _ _ => rfl) h

theorem passMany (step : Step) (n : Nat) : M.passMany c step n = pure (c.passMany step n) := by
  induction n generalizing c with
  | zero => rfl
  | succ n ih =>
    rw [Machine.passMany, f.pass h, pure_bind]
    exact ih (f.kept h (Passes.pass_one c step).reaches)

/-- A keyword is passed letter by letter as long as it agrees. -/
theorem passKeyword (keyword : String) : M.passKeyword c keyword = pure (c.passKeyword keyword) := by
  rw [Machine.passKeyword, Cursor.passKeyword]
  fun_induction Cursor.passLetters c keyword.toList with
  | case1 c => rfl
  | case2 c letter letters same ih =>
    rw [passLetters, if_pos same, f.pass h, pure_bind]
    exact ih (f.kept h (Passes.pass_one c .take).reaches)
  | case3 c letter letters other => rw [passLetters, if_neg other]

/-! ## Rules -/

theorem optional : M.optional c = pure (Rule.optional c) := by
  have behind := f.kept h (Passes.pass_one c .take).reaches
  simp only [Machine.optional, Rule.optional, f.pass h, f.passSpaces behind, pure_bind, apply_ite pure]

theorem omitted : M.omitted c = pure (Rule.omitted c) := by
  simp only [Machine.omitted, Rule.omitted, f.passSpaces h, pure_bind]

theorem signedOperand : M.signedOperand c = pure (Rule.signedOperand c) := by
  have behind := f.kept h (Passes.pass_one c .take).reaches
  simp only [Machine.signedOperand, Rule.signedOperand, f.pass h, f.passBlanks behind, pure_bind]

theorem plainOperand : M.plainOperand c = pure (Rule.plainOperand c) := by
  simp only [Machine.plainOperand, Rule.plainOperand, f.readWord h, pure_bind, apply_ite pure]

/-- The mark in front of an operand is part of no loop. -/
theorem juxtaposition : M.juxtaposition c = pure (Rule.juxtaposition c) := by
  have inner := f.kept h ((Passes.passBlanks c .take).reaches.trans (.mark_one _))
  simp only [Machine.juxtaposition, Rule.juxtaposition, f.passBlanks h, f.signedOperand inner, f.plainOperand inner,
    pure_bind, apply_ite pure]

theorem wordOption (vocabulary : String → Bool) :
    M.wordOption c vocabulary = pure (Rule.wordOption c vocabulary) := by
  simp only [Machine.wordOption, Rule.wordOption, f.readWord h, pure_bind]

/-- What is glued to the word is a run over a class without the null character. -/
theorem joinOption : M.joinOption c = pure (Rule.joinOption c) := by
  have inner := f.kept h (Passes.passKeyword c "join").reaches
  have glued := f.passWhile inner .take (p := Rule.isGlued) (.inr rfl)
  simp only [Machine.joinOption, Rule.joinOption, f.passKeyword h, glued, pure_bind, apply_ite pure]

/-- Every option is told by its first letter, on any machine. -/
theorem sectionOption : M.sectionOption c = pure (Rule.sectionOption c) := by
  simp only [Machine.sectionOption, Rule.sectionOption, f.joinOption h, f.wordOption h, f.pass h, pure_bind,
    apply_ite pure]

omit h in
/-- A turn over an option and the blanks behind it. -/
theorem options_turnsTo (c : Cursor) (h : P c) : M.options.TurnsTo looks P Rule.sectionOptions c := by
  by_cases line : (c.look == '\n' || c.look == '\r') = true
  · refine .done ?_
    rw [Rule.sectionOptions, if_pos line]
    exact if_pos line
  have option := f.sectionOption h
  have inner := f.kept h (Passes.sectionOption c).reaches
  by_cases takes : (Rule.sectionOption c).accepted = true
  · have turn : M.options.turn c = pure (.inr ((Rule.sectionOption c).cursor.passBlanks .take).cursor) := by
      simp only [options, if_neg line, option, pure_bind, if_pos takes, f.passBlanks inner]
    have moves := f.moving.imp_right fun moving => moving.option h takes
    refine .of_next turn moves (fun _ => f.kept inner (Passes.passBlanks _ .take).reaches) rfl ?_
    rw [Rule.sectionOptions, if_neg line]
    simp only [if_pos takes]
    rfl
  · refine .done ?_
    rw [Rule.sectionOptions, if_neg line]
    simp only [options, if_neg line, option, pure_bind, if_neg takes]

theorem sectionOptions : M.iterate M.options c = pure (Rule.sectionOptions c) :=
  f.iterate f.options_turnsTo (fun _ _ => rfl) h

theorem sectionOpen : M.sectionOpen c = pure (Rule.sectionOpen c) := by
  have line := f.kept h (Passes.passBlanks c .skip).reaches
  have inner := f.kept line (Passes.passSpaces _ .skip).reaches
  have behind := f.kept inner ((Passes.pass_one _ .take).reaches.trans (.mark_one _))
  have option := f.kept behind (Passes.passBlanks _ .take).reaches
  simp only [Machine.sectionOpen, Rule.sectionOpen, f.passBlanks h, f.passSpaces line, f.pass inner,
    f.passBlanks behind, f.sectionOptions option, pure_bind, apply_ite pure]

theorem lineBreak : M.lineBreak c = pure (Rule.lineBreak c) := by
  have line := f.kept h (Passes.passBlanks c .skip).reaches
  have next := f.kept line (Passes.pass_one _ .take).reaches
  simp only [Machine.lineBreak, Rule.lineBreak, f.passBlanks h, f.pass line, f.pass next, pure_bind, apply_ite pure,
    apply_ite Cursor.marked, apply_ite (Outcome.mk true)]

theorem declaredName : M.declaredName c = pure (Rule.declaredName c) := by
  have behind := f.kept h (Passes.readWord c Vocabulary.nameCapacity).reaches
  have inner := f.kept behind (Passes.passBlanks _ .take).reaches
  simp only [Machine.declaredName, Rule.declaredName, f.readWord h, f.passBlanks behind, f.passWord inner, pure_bind,
    apply_ite pure]

theorem bodyFollows : M.bodyFollows c = pure (Rule.bodyFollows c) := by
  simp only [Machine.bodyFollows, Rule.bodyFollows, f.pass h, pure_bind, apply_ite pure]

/-! ## Parameter lists -/

/-- The whole list stays where the machine is faithful. -/
theorem kept_closeParens (search : ParenSearch) (depth : UInt32) : P (Rule.closeParens search depth c).cursor := by
  fun_induction Rule.closeParens search depth c with
  | case1 => exact h
  | case2 depth c _ found next _ _ ih | case3 depth c _ found next _ _ _ ih =>
    exact ih (f.kept (f.toParen h search).2 (Passes.pass_one found .take).reaches)
  | case4 depth c _ found | case5 depth c _ found => exact (f.toParen h search).2

/-- A list is read where the machine is faithful, with either search. -/
theorem kept_parameters (search : ParenSearch) : P (Rule.parameters search c).cursor := by
  have list := f.kept h (Passes.passBlanks c .take).reaches
  rw [Rule.parameters, apply_ite Outcome.cursor]
  split
  · exact f.kept_closeParens (f.kept list (Passes.pass_one _ .take).reaches) search 1
  · exact list

omit h in
/-- A turn with parentheses open, as long as the depth stays right. -/
theorem closing_turnsTo {search : ParenSearch} {J : Nesting → Prop} (nests : M.Nests P search J) (nest : Nesting)
    (held : J nest) :
    (M.closing search).TurnsTo looks J (fun nest => Rule.closeParens search nest.depth nest.cursor) nest := by
  obtain ⟨depth, c⟩ := nest
  have here : P c := nests.inside held
  obtain ⟨found, there⟩ := f.toParen here search
  by_cases zero : depth = 0
  · refine .done ?_
    rw [Rule.closeParens, if_pos (beq_iff_eq.2 zero)]
    exact if_pos (beq_iff_eq.2 zero)
  have rule := Rule.closeParens_turn search zero c
  have passed := f.pass there .take
  have stays : (M.closing search).stuck ⟨depth, c⟩ = pure ⟨false, c.toParen search⟩ := by
    simp only [closing, found, pure_bind]
  -- a parenthesis that was found is passed, unless the machine looks and finds that it is not
  have moves (solid : (c.toParen search).look ≠ '\x00') : looks ∨ c.pos < ((c.toParen search).pass .take).pos :=
    f.moving.imp_right fun moving => moving.paren here search solid
  by_cases opens : (c.toParen search).look = '('
  · obtain ⟨deeper, keeps⟩ := nests.deeper held opens
    have turn : (M.closing search).turn ⟨depth, c⟩ = pure (.inr ⟨depth + 1, (c.toParen search).pass .take⟩) := by
      simp only [closing, beq_iff_eq, if_neg zero, found, pure_bind, if_pos opens, deeper, passed]
    refine .of_next turn (moves (by rw [opens]; decide)) keeps stays ?_
    rw [rule, if_pos opens]
    rfl
  by_cases closes : (c.toParen search).look = ')'
  · obtain ⟨shallower, keeps⟩ := nests.shallower held zero closes
    have turn : (M.closing search).turn ⟨depth, c⟩ = pure (.inr ⟨depth - 1, (c.toParen search).pass .take⟩) := by
      simp only [closing, beq_iff_eq, if_neg zero, found, pure_bind, if_neg opens, if_pos closes, shallower, passed]
    refine .of_next turn (moves (by rw [closes]; decide)) keeps stays ?_
    rw [rule, if_neg opens, if_pos closes]
    rfl
  · refine .done ?_
    rw [rule]
    simp only [closing, beq_iff_eq, if_neg zero, found, pure_bind, if_neg opens, if_neg closes, ite_self]

variable (lists : M.ClosesLists P)
include lists

/-- A list behind a name is closed as the rules close it. -/
theorem parameters (search : ParenSearch) (word : isWordChar c.look = true) :
    M.parameters search (Rule.declaredName c).cursor =
      pure (Rule.parameters search (Rule.declaredName c).cursor) := by
  have named := f.kept h (Passes.declaredName c).reaches
  have list := f.kept named (Passes.passBlanks _ .take).reaches
  simp only [Machine.parameters, Rule.parameters, f.passBlanks named, f.pass list, pure_bind]
  split
  · next opens => exact lists c search h word (beq_iff_eq.1 opens)
  · rfl

theorem declaration (search : ParenSearch) : M.declaration search c = pure (Rule.declaration search c) := by
  have inner := f.kept h (Passes.passSpaces c .skip).reaches
  have named := f.kept inner (Passes.declaredName _).reaches
  have listed := f.kept_parameters named search
  have behind := f.kept listed (Passes.passSpaces _ .skip).reaches
  simp only [Machine.declaration, Rule.declaration, f.passSpaces h, pure_bind]
  split
  · next word =>
    simp only [f.declaredName inner, f.parameters inner lists search word, f.passSpaces listed, f.bodyFollows behind,
      pure_bind, apply_ite pure]
  · rfl

/-! ## Choices -/

/-- A faithful machine does what the rule of a kind does. -/
theorem rule (kind : Kind) (search : ParenSearch) : M.rule kind search c = pure (kind.rule search c) := by
  cases kind with
  | optional => exact f.optional h
  | declaration => exact f.declaration h lists search
  | omitted => exact f.omitted h
  | juxtaposition => exact f.juxtaposition h
  | sectionOpen => exact f.sectionOpen h
  | lineBreak => exact f.lineBreak h

/-- The rules are tried in the same order, and each verdict is the same. -/
theorem chooseIn (search : ParenSearch) (order : List Kind) (valid : KindSet) :
    M.chooseIn c search order valid = pure (c.chooseIn search order valid) := by
  induction order with
  | nil => rfl
  | cons kind order ih =>
    have entry : P (if kind.marksEntry then c.marked else c) := by
      split
      · exact f.kept h (.mark_one c)
      · exact h
    have attempt : M.rule kind search (if kind.marksEntry then c.marked else c) =
        pure ((kind.row search).attempt c) := f.rule entry lists kind search
    cases allowed : valid.has kind with
    | false =>
      rw [Cursor.chooseIn_invalid allowed, Machine.chooseIn, if_neg (by simp [allowed])]
      exact ih
    | true =>
      rw [Machine.chooseIn, if_pos allowed, attempt, pure_bind, Cursor.attempt_accepted]
      cases verdict : c.accepts search kind with
      | true =>
        rw [Cursor.chooseIn_accepted allowed verdict]
        rfl
      | false =>
        rw [Cursor.chooseIn_declined allowed verdict, ih, if_neg (by decide), pure_bind]

/-- The machine chooses what is chosen. -/
theorem choose (search : ParenSearch) (valid : KindSet) : M.choose c search valid = pure (c.choose search valid) :=
  f.chooseIn h lists search priority valid

end

end Faithful

/-! ## The machine that the rules run on -/

/-- Nothing can go wrong where nothing is tested. -/
theorem direct_faithful : direct.Faithful True fun _ => True where
  kept _ _ := trivial
  pass _ _ := rfl
  jump _ := ⟨rfl, trivial⟩
  tally _ _ := rfl
  idle _ := ⟨_, rfl⟩
  iterate turns _ start := Loop.guarded_eq turns (fun _ _ => rfl) start
  moving := .inl trivial

theorem direct_nests (search : ParenSearch) : direct.Nests (fun _ => True) search fun _ => True where
  inside _ := trivial
  deeper _ _ := ⟨rfl, fun _ => trivial⟩
  shallower _ _ _ := ⟨rfl, fun _ => trivial⟩

/-- The count of parentheses is the rule's own. -/
theorem direct_closesLists : direct.ClosesLists fun _ => True := by
  intro c search _ _ list _
  have turns := direct_faithful.closing_turnsTo (direct_nests search)
  exact Loop.guarded_eq turns (fun _ _ => rfl) trivial

/-- The rules are what the machine `direct` does. -/
theorem direct_rule (kind : Kind) (search : ParenSearch) : direct.rule kind search = kind.rule search :=
  funext fun _ => direct_faithful.rule trivial direct_closesLists kind search

/-- The choice is what the machine `direct` makes. -/
theorem direct_choose (c : Cursor) (search : ParenSearch) (valid : KindSet) :
    direct.choose c search valid = c.choose search valid :=
  direct_faithful.choose trivial direct_closesLists search valid

end Machine

end HotkeyLex
