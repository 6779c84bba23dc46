import HotkeyLex.Choice
import HotkeyLex.Proofs.Runs
import HotkeyLex.Proofs.Spelling

/-!
# Cursors that look alike

A rule sees a cursor only through the plain form of its next character, its end and whether it gets
on. A relation that keeps these and is kept by passing and marking is a `Likeness`, and no rule tells
two related cursors apart: it gives the same verdict and leaves related cursors. The proof follows
the rules one by one, and never says what the relation is.

The relation may hold for a part of a script only. A run that leaves this part is lost, and nothing
is said about it, except that it stays lost and is ahead of everything that is not.

Most rules turn away from a null character, whether the script ends there or not. For them it is enough
that the runs agree wherever another character is seen (`WeakLikeness`). The two that care are the
optional mark, which may stand at the end of a script only, and the search for a parenthesis, which goes
through null characters.

Two cursors at one place are alike (`SamePlace`), so the token under construction has no part in a
verdict. In particular an end marked in advance does not change what a rule says.
-/

namespace HotkeyLex

namespace Cursor

/-- Two runs side by side, the first one from `c`, that come to `a` and `b`. If the first is not lost
by then, the verdicts are one and the cursors are alike. -/
structure Abreast (R : Cursor → Cursor → Prop) (Lost : Cursor → Prop) (c : Cursor) (a b : Outcome) : Prop where
  lost : Lost c → Lost a.cursor
  alike : ¬ Lost a.cursor → a.accepted = b.accepted ∧ R a.cursor b.cursor

/-- A relation that the steps of two runs keep until the first is lost. -/
structure Likeness (R : Cursor → Cursor → Prop) (Lost : Cursor → Prop) : Prop where
  look {c d : Cursor} : R c d → plain c.look = plain d.look
  atEnd {c d : Cursor} : R c d → c.atEnd = d.atEnd
  progress {a b c d : Cursor} : R a c → R b d → (a.pos < b.pos ↔ c.pos < d.pos)
  pass {c d : Cursor} : R c d → ∀ step, ¬ Lost (c.pass step) → R (c.pass step) (d.pass step)
  marked {c d : Cursor} : R c d → R c.marked d.marked
  ahead {c d a : Cursor} : R c d → Lost a → c.pos < a.pos
  strays {c d a b : Cursor} : R c d → R a b → ∀ step, Lost (a.pass step) → d.pos < (b.pass step).pos
  lost_pass {c : Cursor} : Lost c → ∀ step, Lost (c.pass step)
  lost_marked {c : Cursor} : Lost c → Lost c.marked

/-- A relation that the steps of two runs keep wherever they see a character other than null. -/
structure WeakLikeness (R : Cursor → Cursor → Prop) (Lost : Cursor → Prop) : Prop where
  look {c d : Cursor} : R c d → plain c.look = plain d.look
  atEnd {c d : Cursor} : R c d → c.look ≠ '\x00' → c.atEnd = d.atEnd
  progress {a b c d : Cursor} : R a c → R b d → (a.pos < b.pos ↔ c.pos < d.pos)
  pass {c d : Cursor} : R c d → c.look ≠ '\x00' → ∀ step, ¬ Lost (c.pass step) → R (c.pass step) (d.pass step)
  marked {c d : Cursor} : R c d → R c.marked d.marked
  ahead {c d a : Cursor} : R c d → Lost a → c.pos < a.pos
  strays {c d a b : Cursor} : R c d → R a b → a.look ≠ '\x00' → ∀ step, Lost (a.pass step) → d.pos < (b.pass step).pos
  lost_pass {c : Cursor} : Lost c → ∀ step, Lost (c.pass step)
  lost_marked {c : Cursor} : Lost c → Lost c.marked

/-- What holds everywhere holds where another character than null is seen. -/
theorem Likeness.weak {R : Cursor → Cursor → Prop} {Lost : Cursor → Prop} (h : Likeness R Lost) :
    WeakLikeness R Lost where
  look := h.look
  atEnd like _ := h.atEnd like
  progress := h.progress
  pass like _ := h.pass like
  marked := h.marked
  ahead := h.ahead
  strays like there _ := h.strays like there
  lost_pass := h.lost_pass
  lost_marked := h.lost_marked

namespace Abreast

variable {R : Cursor → Cursor → Prop} {Lost : Cursor → Prop} {c d : Cursor} {a b x y : Outcome}

theorem like (h : Abreast R Lost c a b) (near : ¬ Lost a.cursor) : R a.cursor b.cursor := (h.alike near).2

theorem verdict (h : Abreast R Lost c a b) (near : ¬ Lost a.cursor) : a.accepted = true ↔ b.accepted = true := by
  rw [(h.alike near).1]

/-- Two runs go on side by side from where they came to. -/
theorem trans (first : Abreast R Lost c a b) (last : Abreast R Lost a.cursor x y) : Abreast R Lost c x y :=
  ⟨fun gone => last.lost (first.lost gone), last.alike⟩

/-- The runs end where they are. -/
theorem here {v w : Bool} (like : ¬ Lost c → R c d) (same : ¬ Lost c → v = w) :
    Abreast R Lost c ⟨v, c⟩ ⟨w, d⟩ :=
  ⟨id, fun near => ⟨same near, like near⟩⟩

/-- Seen from its end, a run has no way to go. -/
theorem ended (h : Abreast R Lost c a b) : Abreast R Lost a.cursor a b := ⟨id, h.alike⟩

/-- A branch on conditions that agree, where each case may use its condition. -/
theorem ite_of {p q : Prop} [Decidable p] [Decidable q] (same : ¬ Lost c → (p ↔ q))
    (yes : p → Abreast R Lost c a x) (no : ¬ p → Abreast R Lost c b y) :
    Abreast R Lost c (if p then a else b) (if q then x else y) := by
  by_cases holds : p
  · have run := yes holds
    rw [if_pos holds]
    refine ⟨run.lost, fun near => ?_⟩
    rw [if_pos ((same (mt run.lost near)).1 holds)]
    exact run.alike near
  · have run := no holds
    rw [if_neg holds]
    refine ⟨run.lost, fun near => ?_⟩
    rw [if_neg (mt (same (mt run.lost near)).2 holds)]
    exact run.alike near

theorem ite {p q : Prop} [Decidable p] [Decidable q] (same : ¬ Lost c → (p ↔ q))
    (yes : Abreast R Lost c a x) (no : Abreast R Lost c b y) :
    Abreast R Lost c (if p then a else b) (if q then x else y) :=
  ite_of same (fun _ => yes) fun _ => no

end Abreast

/-- Induction over what is still to be read. -/
theorem later_induction {P : Cursor → Prop} (turn : ∀ c, (∀ d, c.pos < d.pos → P d) → P c) (c : Cursor) :
    P c := by
  induction room : c.room using Nat.strongRecOn generalizing c with
  | ind n ih =>
    apply turn
    intro d progress
    exact ih d.room (room ▸ room_lt progress) d rfl

/-- A character of a class without the null character. -/
theorem ne_null_of {p : Char → Bool} (null : p '\x00' = false) {ch : Char} (inside : p ch = true) : ch ≠ '\x00' := by
  rintro rfl
  rw [null] at inside
  cases inside

/-- No section opens in front of a null character, whether the script ends there or not. -/
theorem sectionOpen_of_null {c : Cursor} (null : (c.passBlanks .skip).cursor.look = '\x00') :
    Rule.sectionOpen c = ⟨false, (c.passBlanks .skip).cursor⟩ := by
  have stays : (c.passBlanks .skip).cursor.passSpaces .skip = (c.passBlanks .skip).cursor := by
    rw [passSpaces, passWhile, passCounting_outside (by rw [null]; rfl)]
  simp [Rule.sectionOpen, stays, null]

namespace WeakLikeness

variable {R : Cursor → Cursor → Prop} {Lost : Cursor → Prop} (h : WeakLikeness R Lost) {a b c d : Cursor}
include h

/-- Both runs get past a place by a pass or neither does, even if it loses the first one. -/
theorem passes (like : R c d) (there : R a b) (solid : a.look ≠ '\x00') (step : Step) :
    c.pos < (a.pass step).pos ↔ d.pos < (b.pass step).pos := by
  by_cases gone : Lost (a.pass step)
  · exact iff_of_true (h.ahead like gone) (h.strays like there solid step gone)
  · exact h.progress like (h.pass there solid step gone)

/-- Whether a run is at its end does not matter where a null character settles the question anyway. -/
theorem atEnd_or (like : R c d) {p : Char → Bool} (coarse : Coarse p) (null : p '\x00' = true) :
    (c.atEnd || p c.look) = (d.atEnd || p d.look) := by
  rw [← coarse.eq (h.look like)]
  by_cases nothing : c.look = '\x00'
  · rw [nothing, null, Bool.or_true, Bool.or_true]
  · rw [h.atEnd like nothing]

variable (like : ¬ Lost c → R c d)
include like

/-- Past a character other than null the runs are still alike, or the first is lost. -/
theorem pass_abreast (solid : c.look ≠ '\x00') (step : Step) :
    Abreast R Lost c ⟨true, c.pass step⟩ ⟨true, d.pass step⟩ where
  lost gone := h.lost_pass gone step
  alike near := ⟨rfl, h.pass (like fun gone => near (h.lost_pass gone step)) solid step near⟩

theorem marked_abreast : Abreast R Lost c ⟨true, c.marked⟩ ⟨true, d.marked⟩ where
  lost := h.lost_marked
  alike near := ⟨rfl, h.marked (like (mt h.lost_marked near))⟩

/-! ## Loops -/

/-- Both runs stop at the same turn, because the class sees the plain form only and the first character outside
of it stops both. -/
theorem passCounting {p : Char → Bool} (coarse : Coarse p) (null : p '\x00' = false) (step : Step)
    (count : UInt32) (q : UInt32 → Bool) :
    Abreast R Lost c ⟨q (c.passCounting step p count).count, (c.passCounting step p count).cursor⟩
      ⟨q (d.passCounting step p count).count, (d.passCounting step p count).cursor⟩ := by
  fun_induction Cursor.passCounting step p count c generalizing d with
  | case1 count c inside progress ih =>
    have solid := ne_null_of null inside
    have next := h.pass_abreast like solid step
    have run := next.trans (ih next.like)
    refine ⟨run.lost, fun near => ?_⟩
    have here := like (mt run.lost near)
    rw [coarse.eq (h.look here)] at inside
    rw [passCounting_inside inside ((h.passes here here solid step).1 progress)]
    exact run.alike near
  | case2 count c inside stuck =>
    have solid := ne_null_of null inside
    refine ⟨id, fun near => ?_⟩
    rw [passCounting_stuck (mt (h.passes (like near) (like near) solid step).2 stuck)]
    exact ⟨rfl, like near⟩
  | case3 count c outside =>
    refine ⟨id, fun near => ?_⟩
    rw [coarse.eq (h.look (like near)), Bool.not_eq_true] at outside
    rw [passCounting_outside outside]
    exact ⟨rfl, like near⟩

theorem passBlanks (step : Step) : Abreast R Lost c (c.passBlanks step) (d.passBlanks step) :=
  h.passCounting like coarse_isBlank rfl step 0 fun count => decide (0 < count)

theorem passSpaces (step : Step) : Abreast R Lost c ⟨true, c.passSpaces step⟩ ⟨true, d.passSpaces step⟩ :=
  h.passCounting like coarse_isSpace rfl step 0 fun _ => true

/-- Words are kept in their plain form, so both runs read the same word. -/
theorem readWord (capacity : Nat) (q : Word → Bool) :
    Abreast R Lost c ⟨q (c.readWord capacity).word, (c.readWord capacity).cursor⟩
      ⟨q (d.readWord capacity).word, (d.readWord capacity).cursor⟩ := by
  rw [Cursor.readWord, Cursor.readWord]
  generalize Word.empty capacity = word
  fun_induction Cursor.readOnto word c generalizing d with
  | case1 word c inside progress ih =>
    have solid := ne_null_of (p := isWordChar) rfl inside
    have next := h.pass_abreast like solid .take
    have run := next.trans (ih next.like)
    refine ⟨run.lost, fun near => ?_⟩
    have here := like (mt run.lost near)
    have look := h.look here
    have letter : word.push c.look = word.push d.look := by
      simp only [Word.push, toLower_eq_of_isWordChar look inside]
    rw [letter] at run near ⊢
    rw [coarse_isWordChar.eq look] at inside
    rw [readOnto.eq_def _ d, if_pos inside, if_pos ((h.passes here here solid .take).1 progress)]
    exact run.alike near
  | case2 word c inside stuck =>
    have solid := ne_null_of (p := isWordChar) rfl inside
    refine ⟨id, fun near => ?_⟩
    rw [readOnto.eq_def _ d, if_neg (mt (h.passes (like near) (like near) solid .take).2 stuck), ite_self]
    exact ⟨rfl, like near⟩
  | case3 word c outside =>
    refine ⟨id, fun near => ?_⟩
    rw [coarse_isWordChar.eq (h.look (like near))] at outside
    rw [readOnto.eq_def _ d, if_neg outside]
    exact ⟨rfl, like near⟩

/-- A keyword is compared exactly, so it must have neither blanks nor characters outside ASCII. -/
theorem passKeyword (keyword : String) (plainly : keyword.toList.all (fun letter =>
      letter.toLower.toNat < 0x80 && !isBlank letter.toLower && !sameLetter '\x00' letter) = true) :
    Abreast R Lost c (c.passKeyword keyword) (d.passKeyword keyword) := by
  unfold Cursor.passKeyword
  generalize keyword.toList = letters at plainly
  induction letters generalizing c d with
  | nil => exact .here like fun _ => rfl
  | cons letter letters ih =>
    simp only [List.all_cons, Bool.and_eq_true, decide_eq_true_eq, Bool.not_eq_true'] at plainly
    obtain ⟨⟨⟨ascii, blank⟩, null⟩, others⟩ := plainly
    refine .ite_of (fun near => ?_) (fun agrees => ?_) fun _ => .here like fun _ => rfl
    · have look := h.look (like near)
      rw [show sameLetter c.look letter = sameLetter d.look letter from (coarse_letter ascii blank).eq look]
    · have next := h.pass_abreast like (ne_null_of (p := (sameLetter · letter)) null agrees) .take
      exact next.trans (ih next.like (List.all_eq_true.2 (by simpa using others)))

/-! ## Rules -/

theorem omitted : Abreast R Lost c (Rule.omitted c) (Rule.omitted d) := by
  have behind := h.passSpaces like .skip
  refine behind.trans (.here behind.like fun near => ?_)
  rw [(show Firm ',' by decide).beq_eq (h.look (behind.like near))]

/-- A sign is seen as the same sign from both sides. -/
theorem signedOperand (sign : isSign c.look = true) :
    Abreast R Lost c (Rule.signedOperand c) (Rule.signedOperand d) := by
  have first := h.pass_abreast like (ne_null_of (p := isSign) rfl sign) .take
  have gap := h.passBlanks first.like .take
  have run := first.trans gap
  refine ⟨run.lost, fun near => ⟨?_, run.like near⟩⟩
  have look := h.look (run.like near)
  have same : c.look = d.look := eq_of_isSign (h.look (like (mt run.lost near))) sign
  have firm : Firm d.look := by
    rw [same, isSign, Bool.or_eq_true, beq_iff_eq, beq_iff_eq] at sign
    rcases sign with plus | minus
    · rw [plus]
      decide
    · rw [minus]
      decide
  -- no operand begins with a null character
  have other : Coarse (!beginsOperand ·) := fun ch => congrArg (!·) (coarse_beginsOperand ch)
  have last := congrArg (!·) (h.atEnd_or (run.like near) other rfl)
  simp only [Bool.not_or, Bool.not_not] at last
  simp only [Rule.signedOperand, Bool.not_or, Bool.and_assoc, same, (run.alike near).1, firm.beq_eq look, last]

theorem plainOperand : Abreast R Lost c (Rule.plainOperand c) (Rule.plainOperand d) := by
  unfold Rule.plainOperand
  refine .ite (fun near => ?_) ?_ (.here like fun _ => rfl)
  · rw [coarse_beginsVerb.eq (h.look (like near))]
  · exact h.readWord like Vocabulary.operatorCapacity fun word => !word.isIn Vocabulary.isOperatorWord

/-- The tests in front of an operand see plain forms. -/
theorem juxtaposition : Abreast R Lost c (Rule.juxtaposition c) (Rule.juxtaposition d) := by
  have gap := h.passBlanks like .take
  have marked := h.marked_abreast gap.like
  refine gap.trans ?_
  unfold Rule.juxtaposition
  refine .ite (fun near => ?_) (.here gap.like fun _ => rfl) ?_
  · have there := gap.like near
    have look := h.look there
    rw [Bool.or_assoc (!_), Bool.or_assoc (!_), (gap.alike near).1, h.atEnd_or there coarse_isLineEnd rfl,
      coarse_beginsOperator.eq look, ← Bool.or_assoc, ← Bool.or_assoc]
  refine .ite_of (fun near => ?_) (fun sign => marked.trans (h.signedOperand marked.like sign)) fun _ => ?_
  · rw [coarse_isSign.eq (h.look (gap.like near))]
  refine .ite (fun near => ?_) (marked.trans (h.plainOperand marked.like)) (.here gap.like fun _ => rfl)
  rw [coarse_beginsOperand.eq (h.look (gap.like near))]

theorem wordOption (vocabulary : String → Bool) :
    Abreast R Lost c (Rule.wordOption c vocabulary) (Rule.wordOption d vocabulary) :=
  h.readWord like Vocabulary.optionCapacity fun word => word.isIn vocabulary

theorem joinOption : Abreast R Lost c (Rule.joinOption c) (Rule.joinOption d) := by
  have head := h.passKeyword like "join" (by decide)
  refine head.trans ?_
  unfold Rule.joinOption
  refine .ite (head.verdict) ?_ head.ended
  exact h.passCounting head.like coarse_isGlued rfl .take 0 fun _ => true

/-- The first letter of an option is told without regard to case. -/
theorem sectionOption : Abreast R Lost c (Rule.sectionOption c) (Rule.sectionOption d) := by
  have letter : ¬ Lost c → ∀ x : Char, x.toNat < 0x80 → isBlank x = false →
      (c.look.toLower == x) = (d.look.toLower == x) :=
    fun near x ascii solid => (coarse_letter ascii solid).eq (h.look (like near))
  unfold Rule.sectionOption
  refine .ite (fun near => ?_) (h.joinOption like) ?_
  · rw [letter near 'j' (by decide) rfl]
  refine .ite (fun near => ?_) (h.wordOption like _) ?_
  · rw [letter near 'c' (by decide) rfl]
  refine .ite (fun near => ?_) (h.wordOption like _) ?_
  · rw [letter near 'l' (by decide) rfl, letter near 'r' (by decide) rfl]
  refine .ite_of (fun near => ?_) (fun tick => ?_) fun _ => .here like fun _ => rfl
  · rw [letter near '\x60' (by decide) rfl]
  · exact h.pass_abreast like (ne_null_of (p := (·.toLower == '\x60')) rfl tick) .take

/-- Options are gone through turn by turn in both runs, since progress is the same. -/
theorem sectionOptions : Abreast R Lost c (Rule.sectionOptions c) (Rule.sectionOptions d) := by
  induction c using later_induction generalizing d with
  | turn c ih =>
    have option := h.sectionOption like
    have next := h.passBlanks option.like .take
    rw [Rule.sectionOptions.eq_def c, Rule.sectionOptions.eq_def d]
    refine .ite (fun near => ?_) (.here like fun _ => rfl) ?_
    · have look := h.look (like near)
      rw [(show Firm '\n' by decide).beq_eq look, (show Firm '\r' by decide).beq_eq look]
    refine option.trans (.ite option.verdict (next.trans ?_) option.ended)
    refine .ite_of (fun near => ?_) (fun progress => ih _ progress next.like) fun stuck => ?_
    · have start := like (mt (option.trans next).lost near)
      exact h.progress start (next.like near)
    · -- a lost run is ahead of all places where it was not yet lost
      refine ⟨fun gone => ?_, fun near => ⟨rfl, like near⟩⟩
      apply Classical.byContradiction
      intro near
      exact stuck (h.ahead (like near) gone)

/-- In front of a null character no section opens in either run. -/
theorem sectionOpen : Abreast R Lost c (Rule.sectionOpen c) (Rule.sectionOpen d) := by
  have gap := h.passBlanks like .skip
  have behind := h.passSpaces gap.like .skip
  by_cases null : (c.passBlanks .skip).cursor.look = '\x00'
  · rw [sectionOpen_of_null null]
    refine ⟨gap.lost, fun near => ?_⟩
    have look := h.look (gap.like near)
    rw [null] at look
    rw [sectionOpen_of_null (((show Firm '\x00' by decide).plain_eq_iff _).1 look.symm)]
    exact ⟨rfl, gap.like near⟩
  refine gap.trans ?_
  unfold Rule.sectionOpen
  refine .ite (fun near => ?_) (.here gap.like fun _ => rfl) (behind.trans ?_)
  · have there := gap.like near
    rw [h.atEnd there null, coarse_isLineEnd.eq (h.look there)]
  refine .ite_of (fun near => ?_) (fun opens => ?_) fun _ => .here behind.like fun _ => rfl
  · rw [(show Firm '(' by decide).beq_eq (h.look (behind.like near))]
  · have opened := h.pass_abreast behind.like (ne_null_of (p := (· == '(')) rfl opens) .take
    have marked := h.marked_abreast opened.like
    have inner := h.passBlanks marked.like .take
    exact opened.trans (marked.trans (inner.trans (h.sectionOptions inner.like)))

/-- The end of a line behind its carriage return. -/
theorem markFeed : Abreast R Lost c ⟨true, (if c.look == '\n' then c.pass .take else c).marked⟩
    ⟨true, (if d.look == '\n' then d.pass .take else d).marked⟩ := by
  simp only [apply_ite Cursor.marked, apply_ite (Outcome.mk true)]
  refine .ite_of (fun near => ?_) (fun feeds => ?_) fun _ => h.marked_abreast like
  · rw [(show Firm '\n' by decide).beq_eq (h.look (like near))]
  · have feed := h.pass_abreast like (ne_null_of (p := (· == '\n')) rfl feeds) .take
    exact feed.trans (h.marked_abreast feed.like)

/-- A line break is one or two characters, neither of them null. -/
theorem lineBreak : Abreast R Lost c (Rule.lineBreak c) (Rule.lineBreak d) := by
  have gap := h.passBlanks like .skip
  refine gap.trans ?_
  unfold Rule.lineBreak
  refine .ite_of (fun near => ?_) (fun feeds => ?_) fun _ => ?_
  · rw [(show Firm '\n' by decide).beq_eq (h.look (gap.like near))]
  · have next := h.pass_abreast gap.like (ne_null_of (p := (· == '\n')) rfl feeds) .take
    exact next.trans (h.marked_abreast next.like)
  refine .ite_of (fun near => ?_) (fun returns => ?_) fun _ => .here gap.like fun _ => rfl
  · rw [(show Firm '\r' by decide).beq_eq (h.look (gap.like near))]
  · have next := h.pass_abreast gap.like (ne_null_of (p := (· == '\r')) rfl returns) .take
    exact next.trans (h.markFeed next.like)

/-- Both names are `static` or neither is. -/
theorem declaredName : Abreast R Lost c (Rule.declaredName c) (Rule.declaredName d) := by
  have storage := h.readWord like Vocabulary.nameCapacity fun word => word.spells Vocabulary.storage
  have gap := h.passBlanks storage.like .take
  have named := h.passCounting gap.like coarse_isWordChar rfl .take 0 fun count => decide (0 < count)
  refine storage.trans ?_
  unfold Rule.declaredName
  refine .ite (storage.verdict) (gap.trans (.ite (fun near => ?_) named
    (.here gap.like fun _ => rfl))) ?_
  · rw [(gap.alike near).1]
  · exact (h.readWord like Vocabulary.nameCapacity fun word => !word.isIn Vocabulary.isReservedWord).ended

/-- Neither a block nor an arrow is mistaken for a null character. -/
theorem bodyFollows : Abreast R Lost c (Rule.bodyFollows c) (Rule.bodyFollows d) := by
  unfold Rule.bodyFollows
  refine .ite (fun near => ?_) (.here like fun _ => rfl) ?_
  · rw [(show Firm '\x7b' by decide).beq_eq (h.look (like near))]
  refine .ite_of (fun near => ?_) (fun arrow => ?_) fun _ => .here like fun _ => rfl
  · rw [(show Firm '=' by decide).beq_eq (h.look (like near))]
  · have next := h.pass_abreast like (ne_null_of (p := (· == '=')) rfl arrow) .take
    refine next.trans (.here next.like fun near => ?_)
    rw [(show Firm '>' by decide).beq_eq (h.look (next.like near))]

end WeakLikeness

/-! ## Null characters -/

namespace Likeness

variable {R : Cursor → Cursor → Prop} {Lost : Cursor → Prop} (h : Likeness R Lost) {a b c d : Cursor}
include h

/-- Both runs get past a place by a pass or neither does, even if it loses the first one. -/
theorem passes (like : R c d) (there : R a b) (step : Step) :
    c.pos < (a.pass step).pos ↔ d.pos < (b.pass step).pos := by
  by_cases gone : Lost (a.pass step)
  · exact iff_of_true (h.ahead like gone) (h.strays like there step gone)
  · exact h.progress like (h.pass there step gone)

variable (like : ¬ Lost c → R c d)
include like

/-- Where the ends agree as well, any character may be passed. -/
theorem pass_abreast (step : Step) : Abreast R Lost c ⟨true, c.pass step⟩ ⟨true, d.pass step⟩ where
  lost gone := h.lost_pass gone step
  alike near := ⟨rfl, h.pass (like fun gone => near (h.lost_pass gone step)) step near⟩

/-- The search over characters goes through null characters, so it needs the ends to agree. -/
theorem toParenByChar : Abreast R Lost c ⟨true, c.toParenByChar⟩ ⟨true, d.toParenByChar⟩ := by
  fun_induction Cursor.toParenByChar c generalizing d with
  | case1 c inside progress ih =>
    have next := h.pass_abreast like .take
    have run := next.trans (ih next.like)
    refine ⟨run.lost, fun near => ?_⟩
    have here := like (mt run.lost near)
    rw [h.atEnd here, coarse_isParen.eq (h.look here)] at inside
    rw [toParenByChar.eq_def d, if_pos inside, if_pos ((h.passes here here .take).1 progress)]
    exact run.alike near
  | case2 c inside stuck =>
    refine ⟨id, fun near => ?_⟩
    rw [toParenByChar.eq_def d, if_neg (mt (h.passes (like near) (like near) .take).2 stuck), ite_self]
    exact ⟨rfl, like near⟩
  | case3 c outside =>
    refine ⟨id, fun near => ?_⟩
    rw [h.atEnd (like near), coarse_isParen.eq (h.look (like near))] at outside
    rw [toParenByChar.eq_def d, if_neg outside]
    exact ⟨rfl, like near⟩

/-- At the end an optional mark is accepted, so here too the ends have to agree. -/
theorem optional : Abreast R Lost c (Rule.optional c) (Rule.optional d) := by
  have first := h.pass_abreast like .take
  have behind := h.weak.passSpaces first.like .skip
  unfold Rule.optional
  refine .ite (fun near => ?_) (first.trans (behind.trans (.here behind.like fun near => ?_)))
    (.here like fun _ => rfl)
  · rw [(show Firm '?' by decide).beq_eq (h.look (like near))]
  · have there := behind.like near
    rw [h.atEnd there, coarse_mayFollowOptional.eq (h.look there)]

end Likeness

/-- A likeness that the search over bytes keeps too. -/
structure FullLikeness (R : Cursor → Cursor → Prop) (Lost : Cursor → Prop) : Prop extends Likeness R Lost where
  toParenByByte {c d : Cursor} : (¬ Lost c → R c d) →
    Abreast R Lost c ⟨true, c.toParenByByte⟩ ⟨true, d.toParenByByte⟩

/-- Where the two searches are one, there is nothing more to show. -/
theorem Likeness.full {R : Cursor → Cursor → Prop} {Lost : Cursor → Prop} (h : Likeness R Lost)
    (same : ∀ c d, R c d → c.toParenByByte = c.toParenByChar ∧ d.toParenByByte = d.toParenByChar)
    (lost : ∀ c, Lost c → c.toParenByByte = c.toParenByChar) : FullLikeness R Lost where
  toLikeness := h
  toParenByByte := by
    intro c d like
    have run := h.toParenByChar like
    by_cases gone : Lost c
    · rw [lost c gone]
      exact ⟨run.lost, fun near => absurd (run.lost gone) near⟩
    · obtain ⟨first, second⟩ := same c d (like gone)
      rw [first, second]
      exact run

namespace FullLikeness

variable {R : Cursor → Cursor → Prop} {Lost : Cursor → Prop} (h : FullLikeness R Lost) {c d : Cursor}
  (like : ¬ Lost c → R c d)
include h like

theorem toParen (search : ParenSearch) :
    Abreast R Lost c ⟨true, c.toParen search⟩ ⟨true, d.toParen search⟩ := by
  cases search with
  | byByte => exact h.toParenByByte like
  | byChar => exact h.toParenByChar like

/-- The depth is the same in both runs at every turn. -/
theorem closeParens (search : ParenSearch) (depth : UInt32) :
    Abreast R Lost c (Rule.closeParens search depth c) (Rule.closeParens search depth d) := by
  induction c using later_induction generalizing d depth with
  | turn c ih =>
    have found := h.toParen like search
    have next := h.pass_abreast found.like .take
    rw [Rule.closeParens.eq_def search depth c, Rule.closeParens.eq_def search depth d]
    refine .ite (fun _ => Iff.rfl) (.here like fun _ => rfl) (found.trans ?_)
    refine .ite_of (fun near => ?_) (fun progress => ?_) fun _ => .here found.like fun _ => rfl
    · exact h.passes (like (mt found.lost near)) (found.like near) .take
    have inner : ∀ depth, Abreast R Lost (c.toParen search)
        (Rule.closeParens search depth ((c.toParen search).pass .take))
        (Rule.closeParens search depth ((d.toParen search).pass .take)) :=
      fun depth => next.trans (ih _ progress next.like depth)
    refine .ite (fun near => ?_) (inner (depth + 1)) ?_
    · rw [(show Firm '(' by decide).beq_eq (h.look (found.like near))]
    refine .ite (fun near => ?_) (inner (depth - 1)) (.here found.like fun _ => rfl)
    rw [(show Firm ')' by decide).beq_eq (h.look (found.like near))]

theorem parameters (search : ParenSearch) :
    Abreast R Lost c (Rule.parameters search c) (Rule.parameters search d) := by
  have gap := h.weak.passBlanks like .take
  have opened := h.pass_abreast gap.like .take
  refine gap.trans ?_
  unfold Rule.parameters
  refine .ite (fun near => ?_) (opened.trans (h.closeParens opened.like search 1)) (.here gap.like fun _ => rfl)
  rw [(show Firm '(' by decide).beq_eq (h.look (gap.like near))]

/-- A declaration is told by plain forms, ends and parentheses. -/
theorem declaration (search : ParenSearch) :
    Abreast R Lost c (Rule.declaration search c) (Rule.declaration search d) := by
  have start := h.weak.passSpaces like .skip
  have name := h.weak.declaredName start.like
  have list := h.parameters name.like search
  have behind := h.weak.passSpaces list.like .skip
  refine start.trans ?_
  unfold Rule.declaration
  refine .ite (fun near => ?_) (name.trans ?_) (.here start.like fun _ => rfl)
  · rw [coarse_isWordChar.eq (h.look (start.like near))]
  refine .ite name.verdict (list.trans ?_) name.ended
  exact .ite list.verdict (behind.trans (h.weak.bodyFollows behind.like)) list.ended

/-- No rule tells cursors apart that are alike. -/
theorem rule (search : ParenSearch) (kind : Kind) :
    Abreast R Lost c (kind.rule search c) (kind.rule search d) := by
  cases kind with
  | optional => exact h.optional like
  | declaration => exact h.declaration like search
  | omitted => exact h.weak.omitted like
  | juxtaposition => exact h.weak.juxtaposition like
  | sectionOpen => exact h.weak.sectionOpen like
  | lineBreak => exact h.weak.lineBreak like

end FullLikeness

/-! ## Runs that are never lost -/

/-- No cursor is lost. -/
def Never (_ : Cursor) : Prop := False

/-- Choices of one kind after the same attempts, with related cursors. -/
structure ChoiceLike (R : Cursor → Cursor → Prop) (v w : Choice) : Prop where
  kind? : v.kind? = w.kind?
  attempts : v.attempts = w.attempts
  cursor : R v.cursor w.cursor

namespace FullLikeness

variable {R : Cursor → Cursor → Prop} (h : FullLikeness R Never) {c d : Cursor} (like : R c d)
include h like

/-- A rule gives the same verdict and leaves cursors that are alike. -/
theorem rule_alike (search : ParenSearch) (kind : Kind) :
    (kind.rule search c).accepted = (kind.rule search d).accepted ∧
      R (kind.rule search c).cursor (kind.rule search d).cursor :=
  (h.rule (fun _ => like) search kind).alike id

theorem attempt_alike (search : ParenSearch) (kind : Kind) :
    ((kind.row search).attempt c).accepted = ((kind.row search).attempt d).accepted ∧
      R ((kind.row search).attempt c).cursor ((kind.row search).attempt d).cursor := by
  have entry : R (if kind.marksEntry then c.marked else c) (if kind.marksEntry then d.marked else d) := by
    split
    · exact h.marked like
    · exact like
  exact h.rule_alike entry search kind

/-- The choice tries the same rules with the same verdicts. -/
theorem firstOf_alike (search : ParenSearch) (valid : KindSet) (order : List Kind) :
    ChoiceLike R (c.firstOf valid (order.map (Kind.row search)))
      (d.firstOf valid (order.map (Kind.row search))) := by
  induction order with
  | nil => exact ⟨rfl, rfl, like⟩
  | cons kind order ih =>
    obtain ⟨verdict, cursor⟩ := h.attempt_alike like search kind
    simp only [List.map_cons, Cursor.firstOf, ← verdict]
    split
    · split
      · exact ⟨rfl, rfl, cursor⟩
      · exact ⟨ih.kind?, by rw [ih.attempts], ih.cursor⟩
    · exact ih

/-- No choice tells cursors apart that are alike. -/
theorem choose_alike (search : ParenSearch) (valid : KindSet) :
    ChoiceLike R (c.choose search valid) (d.choose search valid) :=
  h.firstOf_alike like search valid priority

end FullLikeness

/-! ## Cursors at one place -/

/-- Two cursors that read the same, whatever token they build. -/
structure SamePlace (c d : Cursor) : Prop where
  script : c.script = d.script
  pos : c.pos = d.pos

theorem samePlace_marked (c : Cursor) : SamePlace c.marked c := ⟨rfl, rfl⟩

namespace SamePlace

variable {c d : Cursor}

theorem look (h : SamePlace c d) : c.look = d.look := by
  rw [Cursor.look, Cursor.look, h.script, h.pos]

theorem atEnd (h : SamePlace c d) : c.atEnd = d.atEnd := by
  rw [Cursor.atEnd, Cursor.atEnd, h.script, h.pos]

theorem nextPos (h : SamePlace c d) : c.nextPos = d.nextPos := by
  rw [Cursor.nextPos, Cursor.nextPos, h.script, h.pos]

/-- A step at one place leads to one place, whether it takes or skips. -/
theorem pass (h : SamePlace c d) (s t : Step) : SamePlace (c.pass s) (d.pass t) := by
  cases done : d.atEnd with
  | true =>
    rw [pass_of_atEnd s (h.atEnd.trans done), pass_of_atEnd t done]
    exact h
  | false =>
    rw [pass_of_not_atEnd s (h.atEnd.trans done), pass_of_not_atEnd t done]
    exact ⟨by simp [h.script], by simp [h.nextPos]⟩

/-- Where a run ends does not depend on the kind of step. -/
theorem passCounting (h : SamePlace c d) (s t : Step) (p : Char → Bool) (m n : UInt32) :
    SamePlace (c.passCounting s p m).cursor (d.passCounting t p n).cursor := by
  have next := h.pass s t
  fun_induction Cursor.passCounting s p m c generalizing d n with
  | case1 m c inside progress ih =>
    rw [h.look] at inside
    rw [h.pos, next.pos] at progress
    rw [passCounting_inside inside progress]
    exact ih next (n + 1) (next.pass s t)
  | case2 m c inside stuck =>
    rw [h.pos, next.pos] at stuck
    rw [passCounting_stuck stuck]
    exact h
  | case3 m c outside =>
    rw [h.look, Bool.not_eq_true] at outside
    rw [passCounting_outside outside]
    exact h

theorem passBlanks (h : SamePlace c d) (s t : Step) :
    SamePlace (c.passBlanks s).cursor (d.passBlanks t).cursor :=
  h.passCounting s t isBlank 0 0

theorem passSpaces (h : SamePlace c d) (s t : Step) : SamePlace (c.passSpaces s) (d.passSpaces t) :=
  h.passCounting s t isSpace 0 0

end SamePlace

/-- Being at one place is kept by everything, and nothing is ever lost. -/
theorem likeness_samePlace : FullLikeness SamePlace Never where
  look like := by rw [like.look]
  atEnd := SamePlace.atEnd
  progress := by
    intro a b c d first last
    rw [first.pos, last.pos]
  pass like step _ := like.pass step step
  marked like := ⟨like.script, like.pos⟩
  ahead _ := nofun
  strays _ _ _ := nofun
  lost_pass := nofun
  lost_marked := nofun
  toParenByByte := by
    intro c d like
    refine ⟨nofun, fun near => ⟨rfl, ?_⟩⟩
    have here := like id
    have distance : c.script.parenDistance c.pos = d.script.parenDistance d.pos := by
      rw [here.script, here.pos]
    simp only [Cursor.toParenByByte, distance]
    split
    · exact ⟨here.script, by simp only [here.pos]⟩
    · exact here

end Cursor

end HotkeyLex
