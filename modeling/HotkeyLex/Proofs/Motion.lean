import HotkeyLex.Walk

/-!
# Motion

Whatever is done with a cursor comes down to passing characters and marking ends. `Reaches` records
this once for every loop, every rule and the choice between rules. What passing and marking preserve
is then preserved by all of them (`Reaches.invariant`), without another look at their definitions, and
by every walk (`Walk.All.moves`): a walk only goes back to cursors where it was before.

Most of them mark nothing, which `Passes` records. They leave a marked end where it is, and the start
of the token too as soon as something was taken or an end is marked.

The search for a parenthesis over bytes is the one operation that jumps, so the statements here are
about the search over characters.
-/

namespace HotkeyLex

namespace Cursor

/-- `d` comes out of `c` by passing characters. -/
inductive Passes : Cursor → Cursor → Prop where
  | refl (c : Cursor) : Passes c c
  | pass {c d : Cursor} (step : Step) : Passes (c.pass step) d → Passes c d

/-- `d` comes out of `c` by passing characters and marking ends. -/
inductive Reaches : Cursor → Cursor → Prop where
  | refl (c : Cursor) : Reaches c c
  | pass {c d : Cursor} (step : Step) : Reaches (c.pass step) d → Reaches c d
  | mark {c d : Cursor} : Reaches c.marked d → Reaches c d

namespace Passes

theorem trans {a b c : Cursor} (first : Passes a b) (last : Passes b c) : Passes a c := by
  induction first with
  | refl => exact last
  | pass step _ ih => exact .pass step (ih last)

theorem pass_one (c : Cursor) (step : Step) : Passes c (c.pass step) := .pass step (.refl _)

/-- What passes characters reaches its end without a mark on the way. -/
theorem reaches {c d : Cursor} (run : Passes c d) : Reaches c d := by
  induction run with
  | refl => exact .refl _
  | pass step _ ih => exact .pass step ih

/-! ## Loops -/

theorem passMany (c : Cursor) (step : Step) (n : Nat) : Passes c (c.passMany step n) := by
  induction n generalizing c with
  | zero => exact .refl c
  | succ n ih => exact .pass step (ih (c.pass step))

/-- Whatever it counts, a loop over a class only passes characters. -/
theorem passCounting (step : Step) (p : Char → Bool) (count : UInt32) (c : Cursor) :
    Passes c (c.passCounting step p count).cursor := by
  fun_induction Cursor.passCounting step p count c with
  | case1 count c _ _ ih => exact .pass step ih
  | case2 | case3 => exact .refl _

/-- A run passes characters until one is outside the class, also where it gets stuck. -/
theorem passWhile (c : Cursor) (step : Step) (p : Char → Bool) : Passes c (c.passWhile step p).cursor :=
  passCounting step p 0 c

theorem passBlanks (c : Cursor) (step : Step) : Passes c (c.passBlanks step).cursor :=
  passWhile c step isBlank

theorem passSpaces (c : Cursor) (step : Step) : Passes c (c.passSpaces step) :=
  passWhile c step isSpace

theorem passWord (c : Cursor) : Passes c c.passWord.cursor :=
  passWhile c .take isWordChar

/-- The search over characters takes one after the other. -/
theorem toParenByChar (c : Cursor) : Passes c c.toParenByChar := by
  fun_induction Cursor.toParenByChar c with
  | case1 c _ _ ih => exact .pass .take ih
  | case2 | case3 => exact .refl _

/-- A word is taken character by character, also where it is too long to keep. -/
theorem readWord (c : Cursor) (capacity : Nat) : Passes c (c.readWord capacity).cursor := by
  rw [Cursor.readWord]
  generalize Word.empty capacity = word
  fun_induction Cursor.readOnto word c with
  | case1 word c _ _ ih => exact .pass .take ih
  | case2 | case3 => exact .refl _

/-- A keyword is taken as far as it agrees. -/
theorem passKeyword (c : Cursor) (keyword : String) : Passes c (c.passKeyword keyword).cursor := by
  rw [Cursor.passKeyword]
  fun_induction Cursor.passLetters c keyword.toList with
  | case1 | case3 => exact .refl _
  | case2 c letter letters _ ih => exact .pass .take ih

/-! ## Rules and their parts -/

/-- The optional mark is taken and the space behind it skipped, with no mark. -/
theorem optional (c : Cursor) : Passes c (Rule.optional c).cursor := by
  unfold Rule.optional
  split
  · exact .pass .take (passSpaces _ .skip)
  · exact .refl c

theorem omitted (c : Cursor) : Passes c (Rule.omitted c).cursor := passSpaces c .skip

theorem signedOperand (c : Cursor) : Passes c (Rule.signedOperand c).cursor :=
  .pass .take (passBlanks _ .take)

/-- Only an operand that may be an operator is read. -/
theorem plainOperand (c : Cursor) : Passes c (Rule.plainOperand c).cursor := by
  unfold Rule.plainOperand
  split
  · exact readWord c _
  · exact .refl c

theorem wordOption (c : Cursor) (vocabulary : String → Bool) :
    Passes c (Rule.wordOption c vocabulary).cursor :=
  readWord c _

/-- What is glued to the word is taken with it. -/
theorem joinOption (c : Cursor) : Passes c (Rule.joinOption c).cursor := by
  refine (passKeyword c "join").trans ?_
  simp only [Rule.joinOption]
  split
  · exact passWhile _ .take Rule.isGlued
  · exact .refl _

/-- Each option is taken by its own rule, and a character that begins none stays ahead. -/
theorem sectionOption (c : Cursor) : Passes c (Rule.sectionOption c).cursor := by
  simp only [Rule.sectionOption]
  split
  · exact joinOption c
  · split
    · exact wordOption c _
    · split
      · exact wordOption c _
      · split
        · exact pass_one c .take
        · exact .refl c

/-- Options and the blanks between them are taken up to the line break. -/
theorem sectionOptions (c : Cursor) : Passes c (Rule.sectionOptions c).cursor := by
  fun_induction Rule.sectionOptions c with
  | case1 | case3 => exact .refl _
  | case2 c _ option _ next _ ih => exact ((sectionOption c).trans (passBlanks _ .take)).trans ih
  | case4 c _ option _ => exact sectionOption c

/-- The count goes from parenthesis to parenthesis and takes what stands between them. -/
theorem closeParens (depth : UInt32) (c : Cursor) :
    Passes c (Rule.closeParens .byChar depth c).cursor := by
  fun_induction Rule.closeParens .byChar depth c with
  | case1 => exact .refl _
  | case2 depth c _ found next _ _ ih | case3 depth c _ found next _ _ _ ih =>
    exact (toParenByChar c).trans (.pass .take ih)
  | case4 depth c | case5 depth c => exact toParenByChar c

/-- A name is taken, with `static` and the blanks in front of it. -/
theorem declaredName (c : Cursor) : Passes c (Rule.declaredName c).cursor := by
  refine (readWord c Vocabulary.nameCapacity).trans ?_
  simp only [Rule.declaredName]
  split
  · refine (passBlanks _ .take).trans ?_
    split
    · exact passWord _
    · exact .refl _
  · exact .refl _

/-- A parameter list is taken with the blanks in front of it, as far as it goes. -/
theorem parameters (c : Cursor) : Passes c (Rule.parameters .byChar c).cursor := by
  refine (passBlanks c .take).trans ?_
  simp only [Rule.parameters]
  split
  · exact .pass .take (closeParens 1 _)
  · exact .refl _

/-- A block is only looked at, and of an arrow the first character is taken. -/
theorem bodyFollows (c : Cursor) : Passes c (Rule.bodyFollows c).cursor := by
  simp only [Rule.bodyFollows]
  split
  · exact .refl c
  · split
    · exact pass_one c .take
    · exact .refl c

/-- A declaration is taken from the name on and marks nothing, so its token keeps the end it came with. -/
theorem declaration (c : Cursor) : Passes c (Rule.declaration .byChar c).cursor := by
  refine (passSpaces c .skip).trans ?_
  simp only [Rule.declaration]
  split
  · refine (declaredName _).trans ?_
    split
    · refine (parameters _).trans ?_
      split
      · exact (passSpaces _ .skip).trans (bodyFollows _)
      · exact .refl _
    · exact .refl _
  · exact .refl _

end Passes

/-! ## What passing leaves alone -/

/-- Something was taken or an end is marked, so the start of the token no longer moves. -/
def Settled (c : Cursor) : Prop := c.taken = true ∨ c.mark.isSome = true

/-- A marked end settles the token. -/
theorem settled_marked (c : Cursor) : c.marked.Settled := .inr rfl

/-- Passing a character leaves the marked end. -/
theorem pass_mark (c : Cursor) (step : Step) : (c.pass step).mark = c.mark := by
  unfold pass
  split
  · rfl
  · cases step with
    | take => rfl
    | skip => dsimp only; split <;> rfl

/-- A settled token stays settled and keeps its start, whether characters are taken or skipped. -/
theorem Settled.pass {c : Cursor} (h : c.Settled) (step : Step) :
    (c.pass step).Settled ∧ (c.pass step).start = c.start := by
  have busy : (!c.taken && c.mark.isNone) = false := by
    rcases h with taken | marked
    · rw [taken]
      rfl
    · rw [← Option.not_isSome, marked, Bool.not_true, Bool.and_false]
  unfold Cursor.pass
  split
  · exact ⟨h, rfl⟩
  · cases step with
    | take => exact ⟨.inl rfl, rfl⟩
    | skip =>
      simp only [busy]
      exact ⟨h, rfl⟩

namespace Passes

variable {c d : Cursor}

/-- A run without marks leaves the marked end. -/
theorem mark_eq (run : Passes c d) : d.mark = c.mark := by
  induction run with
  | refl => rfl
  | pass step _ ih => rw [ih, pass_mark]

/-- A run without marks leaves the start of a settled token. -/
theorem start_eq (run : Passes c d) (settled : c.Settled) : d.start = c.start := by
  induction run with
  | refl => rfl
  | pass step _ ih =>
    obtain ⟨next, start⟩ := settled.pass step
    rw [ih next, start]

end Passes

namespace Reaches

theorem trans {a b c : Cursor} (first : Reaches a b) (last : Reaches b c) : Reaches a c := by
  induction first with
  | refl => exact last
  | pass step _ ih => exact .pass step (ih last)
  | mark _ ih => exact .mark (ih last)

/-- What passing and marking preserve holds of everything that is reached. -/
theorem invariant {Inv : Cursor → Prop} (pass : ∀ c step, Inv c → Inv (c.pass step))
    (mark : ∀ c, Inv c → Inv c.marked) {c d : Cursor} (run : Reaches c d) (initial : Inv c) : Inv d := by
  induction run with
  | refl => exact initial
  | pass step _ ih => exact ih (pass _ step initial)
  | mark _ ih => exact ih (mark _ initial)

theorem mark_one (c : Cursor) : Reaches c c.marked := .mark (.refl _)

/-! ## Rules that mark an end -/

/-- A juxtaposition marks its end in front of the operand and reads on behind the mark. -/
theorem juxtaposition (c : Cursor) : Reaches c (Rule.juxtaposition c).cursor := by
  refine (Passes.passBlanks c .take).reaches.trans ?_
  simp only [Rule.juxtaposition]
  split
  · exact .refl _
  · split
    · exact .mark (Passes.signedOperand _).reaches
    · split
      · exact .mark (Passes.plainOperand _).reaches
      · exact .refl _

/-- A section marks its end behind the parenthesis and reads its options behind the mark. -/
theorem sectionOpen (c : Cursor) : Reaches c (Rule.sectionOpen c).cursor := by
  refine (Passes.passBlanks c .skip).reaches.trans ?_
  simp only [Rule.sectionOpen]
  split
  · exact .refl _
  · refine (Passes.passSpaces _ .skip).reaches.trans ?_
    split
    · exact .pass .take (.mark ((Passes.passBlanks _ .take).trans (.sectionOptions _)).reaches)
    · exact .refl _

/-- A line break marks its end behind itself, with the carriage return and the line feed as one. -/
theorem lineBreak (c : Cursor) : Reaches c (Rule.lineBreak c).cursor := by
  refine (Passes.passBlanks c .skip).reaches.trans ?_
  simp only [Rule.lineBreak]
  split
  · exact .pass .take (mark_one _)
  · split
    · refine .pass .take ?_
      split
      · exact .pass .take (mark_one _)
      · exact mark_one _
    · exact .refl _

/-- Every rule passes characters and marks ends. -/
theorem rule (kind : Kind) (c : Cursor) : Reaches c (kind.rule .byChar c).cursor := by
  cases kind with
  | optional => exact (Passes.optional c).reaches
  | declaration => exact (Passes.declaration c).reaches
  | omitted => exact (Passes.omitted c).reaches
  | juxtaposition => exact juxtaposition c
  | sectionOpen => exact sectionOpen c
  | lineBreak => exact lineBreak c

theorem attempt (kind : Kind) (c : Cursor) : Reaches c ((kind.row .byChar).attempt c).cursor := by
  unfold Row.attempt
  split
  · exact .mark (rule kind _)
  · exact rule kind c

/-- The rules that decline leave nothing behind, and the one that accepts passes and marks. -/
theorem firstOf (c : Cursor) (valid : KindSet) (order : List Kind) :
    Reaches c (c.firstOf valid (order.map (Kind.row .byChar))).cursor := by
  induction order with
  | nil => exact .refl c
  | cons kind order ih =>
    simp only [List.map_cons, Cursor.firstOf]
    split
    · split
      · exact attempt kind c
      · exact ih
    · exact ih

/-- The choice marks an end in advance for some kinds, and drops it with a declined attempt. -/
theorem choose (c : Cursor) (valid : KindSet) : Reaches c (c.choose .byChar valid).cursor :=
  firstOf c valid priority

end Reaches

end Cursor

/-! ## Walks -/

namespace Walk

/-- The cursor and all copies put aside have a property. -/
structure All (P : Cursor → Prop) (w : Walk) : Prop where
  cursor : P w.cursor
  saved : ∀ c ∈ w.saved, P c

/-- A walk begins with nothing put aside. -/
theorem All.start {P : Cursor → Prop} {c : Cursor} (h : P c) : (Walk.start c).All P := ⟨h, nofun⟩

/-- Every move except going back is made of passing and marking. -/
theorem reaches_move (w : Walk) {m : Move} (onward : m ≠ .restore) :
    Cursor.Reaches w.cursor (w.move .byChar m).2.cursor := by
  cases m with
  | pass step times => exact (Cursor.Passes.passMany _ step times).reaches
  | mark => exact .mark_one _
  | passWhile step p => exact (Cursor.Passes.passWhile _ step p).reaches
  | passBlanks step => exact (Cursor.Passes.passBlanks _ step).reaches
  | passSpaces step => exact (Cursor.Passes.passSpaces _ step).reaches
  | toParen => exact (Cursor.Passes.toParenByChar _).reaches
  | readWord capacity => exact (Cursor.Passes.readWord _ capacity).reaches
  | passWord => exact (Cursor.Passes.passWord _).reaches
  | passKeyword keyword => exact (Cursor.Passes.passKeyword _ keyword).reaches
  | rule kind => exact .rule kind _
  | choose valid => exact .choose _ valid
  | save => exact .refl _
  | restore => exact absurd rfl onward

/-- A move puts nothing aside but the cursor itself. -/
theorem mem_saved_move {w : Walk} {m : Move} {search : ParenSearch} {c : Cursor}
    (aside : c ∈ (w.move search m).2.saved) : c = w.cursor ∨ c ∈ w.saved := by
  cases m with
  | save => exact List.mem_cons.1 aside
  | restore =>
    obtain ⟨cursor, saved⟩ := w
    cases saved with
    | nil => cases aside
    | cons _ saved => exact .inr (List.mem_cons_of_mem _ aside)
  | _ => exact .inr aside

/-- Going back leads to a copy put aside, and nowhere if there is none. -/
theorem cursor_restore (w : Walk) (search : ParenSearch) :
    (w.move search .restore).2.cursor = w.cursor ∨ (w.move search .restore).2.cursor ∈ w.saved := by
  obtain ⟨cursor, saved⟩ := w
  cases saved with
  | nil => exact .inl rfl
  | cons c saved => exact .inr List.mem_cons_self

section

variable {P : Cursor → Prop} {w : Walk} (keeps : ∀ {c d : Cursor}, Cursor.Reaches c d → P c → P d)
include keeps

/-- One move keeps what passing and marking keep, for the cursor and for the copies. -/
theorem All.move (h : w.All P) (m : Move) : (w.move .byChar m).2.All P where
  cursor := by
    by_cases back : m = .restore
    · subst back
      rcases w.cursor_restore .byChar with same | aside
      · rw [same]
        exact h.cursor
      · exact h.saved _ aside
    · exact keeps (w.reaches_move back) h.cursor
  saved c aside := by
    rcases mem_saved_move aside with rfl | before
    · exact h.cursor
    · exact h.saved c before

/-- A whole walk keeps what passing and marking keep. -/
theorem All.moves (h : w.All P) (list : List Move) : (w.moves .byChar list).All P := by
  induction list generalizing w with
  | nil => exact h
  | cons m list ih => exact ih (h.move keeps m)

end

end Walk

end HotkeyLex
