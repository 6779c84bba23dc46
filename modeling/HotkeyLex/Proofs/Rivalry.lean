import HotkeyLex.Proofs.Priority

/-!
# Which rules compete

Three characters decide which rules can accept at a place: the next one, the first one that is no
blank and the first one that is no space. Each rule needs something of these (`Kind.Needs`), and only
four pairs of rules can have what they need at once. So only the relative order of these pairs is
seen in a choice; any other change of the order goes unnoticed, and a change of one of them does not.

Nothing is assumed about the bytes of the script or about the token that is being built.
-/

namespace HotkeyLex

namespace Cursor

/-! ## The characters that decide -/

/-- The first character that is no blank. -/
def gapEnd (c : Cursor) : Char := (c.passBlanks .skip).cursor.look

/-- The first character that is no space. -/
def spaceEnd (c : Cursor) : Char := (c.passSpaces .skip).look

/-- A run over a smaller class in front of a run is part of it. -/
theorem passCounting_widen {p q : Char → Bool} (wider : ∀ ch, p ch = true → q ch = true) (s : Step)
    (m n k : UInt32) (c : Cursor) :
    SamePlace ((c.passCounting s p m).cursor.passCounting s q n).cursor (c.passCounting s q k).cursor := by
  fun_induction Cursor.passCounting s p m c generalizing k with
  | case1 m c inside progress ih =>
    rw [passCounting_inside (c := c) (wider _ inside) progress]
    exact ih (k + 1)
  | case2 m c | case3 m c => exact SamePlace.passCounting ⟨rfl, rfl⟩ s s q n k

/-- A run ends outside its class, or where no step makes progress. -/
theorem passCounting_stops (s : Step) (p : Char → Bool) (n : UInt32) (c : Cursor) :
    p (c.passCounting s p n).cursor.look = false ∨
      ¬ (c.passCounting s p n).cursor.pos < ((c.passCounting s p n).cursor.pass s).pos := by
  fun_induction Cursor.passCounting s p n c with
  | case1 n c inside progress ih => exact ih
  | case2 n c inside stuck => exact .inr stuck
  | case3 n c outside => exact .inl (Bool.eq_false_iff.2 outside)

/-- Space is skipped as far behind the blanks as in front of them. -/
theorem look_passSpaces_passBlanks (c : Cursor) :
    ((c.passBlanks .skip).cursor.passSpaces .skip).look = c.spaceEnd :=
  (passCounting_widen (fun ch blank => by simp [isSpace, blank]) .skip 0 0 0 c).look

/-- Spaces go on behind the blanks only with a line break. -/
theorem spaceEnd_eq_gapEnd {c : Cursor} (same : c.gapEnd ≠ '\n') (other : c.gapEnd ≠ '\r') :
    c.spaceEnd = c.gapEnd := by
  have ends : isBlank (c.passBlanks .skip).cursor.look = false ∨
      ¬ (c.passBlanks .skip).cursor.pos < ((c.passBlanks .skip).cursor.pass .skip).pos :=
    passCounting_stops .skip isBlank 0 c
  rw [gapEnd] at same other
  rw [← look_passSpaces_passBlanks, gapEnd, passSpaces, passWhile]
  rcases ends with outside | stuck
  · have solid : isSpace (c.passBlanks .skip).cursor.look = false := by
      simp [isSpace, outside, same, other]
    rw [passCounting_outside solid]
  · rw [passCounting_stuck stuck]

theorem gapEnd_eq_look {c : Cursor} (solid : isBlank c.look = false) : c.gapEnd = c.look := by
  rw [gapEnd, passBlanks, passWhile, passCounting_outside solid]

theorem isBlank_of_passBlanks {c : Cursor} {step : Step} (gap : (c.passBlanks step).accepted = true) :
    isBlank c.look = true := by
  cases first : isBlank c.look with
  | true => rfl
  | false =>
    rw [passBlanks, passWhile, passCounting_outside first] at gap
    cases gap

theorem SamePlace.gapEnd {c d : Cursor} (h : SamePlace c d) : c.gapEnd = d.gapEnd :=
  (h.passBlanks .skip .skip).look

theorem SamePlace.spaceEnd {c d : Cursor} (h : SamePlace c d) : c.spaceEnd = d.spaceEnd :=
  (h.passSpaces .skip .skip).look

end Cursor

/-! ## What a rule needs -/

/-- What a rule asks of the three characters before it can accept. -/
def Kind.Needs (kind : Kind) (c : Cursor) : Prop :=
  match kind with
  | .optional => c.look = '?'
  | .omitted => c.spaceEnd = ','
  | .juxtaposition => isBlank c.look = true ∧ isLineEnd c.gapEnd = false ∧ beginsOperator c.gapEnd = false
  | .sectionOpen => (c.gapEnd = '\n' ∨ c.gapEnd = '\r') ∧ c.spaceEnd = '('
  | .lineBreak => c.gapEnd = '\n' ∨ c.gapEnd = '\r'
  | .declaration => isWordChar c.spaceEnd = true

/-- What a rule needs depends on the place alone. -/
theorem Kind.Needs.of_place {kind : Kind} {c d : Cursor} (h : Kind.Needs kind c) (place : c.SamePlace d) :
    Kind.Needs kind d := by
  cases kind <;> simpa only [Kind.Needs, place.look, place.gapEnd, place.spaceEnd] using h

namespace Rule

variable {c : Cursor}

theorem optional_needs (accepted : (optional c).accepted = true) : c.look = '?' := by
  unfold optional at accepted
  split at accepted
  · next mark => exact beq_iff_eq.1 mark
  · cases accepted

theorem omitted_needs (accepted : (omitted c).accepted = true) : c.spaceEnd = ',' :=
  beq_iff_eq.1 accepted

/-- A juxtaposition needs a gap, and neither a line end nor an operator behind it. -/
theorem juxtaposition_needs (accepted : (juxtaposition c).accepted = true) :
    isBlank c.look = true ∧ isLineEnd c.gapEnd = false ∧ beginsOperator c.gapEnd = false := by
  have place : (c.passBlanks .take).cursor.look = c.gapEnd :=
    (Cursor.SamePlace.passBlanks ⟨rfl, rfl⟩ .take .skip).look
  simp only [juxtaposition] at accepted
  split at accepted
  · cases accepted
  · next allowed =>
    simp only [Bool.or_eq_true, Bool.not_eq_true', not_or, Bool.not_eq_true, Bool.not_eq_false, place] at allowed
    obtain ⟨⟨⟨gap, -⟩, line⟩, operator⟩ := allowed
    exact ⟨Cursor.isBlank_of_passBlanks gap, line, operator⟩

/-- A section needs a line break behind blanks and a parenthesis behind space. -/
theorem sectionOpen_needs (accepted : (sectionOpen c).accepted = true) :
    (c.gapEnd = '\n' ∨ c.gapEnd = '\r') ∧ c.spaceEnd = '(' := by
  have place : (c.passBlanks .skip).cursor.look = c.gapEnd := rfl
  simp only [sectionOpen, Cursor.look_passSpaces_passBlanks, place] at accepted
  split at accepted
  · cases accepted
  · next line =>
    split at accepted
    · next opens =>
      have paren : c.spaceEnd = '(' := beq_iff_eq.1 opens
      refine ⟨?_, paren⟩
      -- a null byte ends a line too, but no spaces follow it and it is no parenthesis
      by_contra other
      rw [not_or] at other
      have same := Cursor.spaceEnd_eq_gapEnd other.1 other.2
      simp [← same, paren, isLineEnd] at line
    · cases accepted

/-- A line break is accepted wherever there is one behind blanks. -/
theorem lineBreak_accepted_iff : (lineBreak c).accepted = true ↔ c.gapEnd = '\n' ∨ c.gapEnd = '\r' := by
  have place : (c.passBlanks .skip).cursor.look = c.gapEnd := rfl
  simp only [lineBreak, place]
  split
  · next feed => simp [beq_iff_eq.1 feed]
  · next notFeed =>
    split
    · next back => simp [beq_iff_eq.1 back]
    · next notBack =>
      rw [beq_iff_eq] at notFeed notBack
      simp [notFeed, notBack]

theorem declaration_needs {search : ParenSearch} (accepted : (declaration search c).accepted = true) :
    isWordChar c.spaceEnd = true := by
  simp only [declaration] at accepted
  split at accepted
  · next word => exact word
  · cases accepted

end Rule

/-- A rule that accepts has what it needs. -/
theorem Kind.needs_of_rule {kind : Kind} {search : ParenSearch} {c : Cursor}
    (accepted : (kind.rule search c).accepted = true) : kind.Needs c := by
  cases kind with
  | optional => exact Rule.optional_needs accepted
  | declaration => exact Rule.declaration_needs accepted
  | omitted => exact Rule.omitted_needs accepted
  | juxtaposition => exact Rule.juxtaposition_needs accepted
  | sectionOpen => exact Rule.sectionOpen_needs accepted
  | lineBreak => exact Rule.lineBreak_accepted_iff.1 accepted

/-! ## Pairs -/

/-- The pairs of kinds that may both be accepted at one place, the one that is tried first in
front. -/
def rivals : List (Kind × Kind) :=
  [(.omitted, .lineBreak), (.sectionOpen, .lineBreak), (.juxtaposition, .declaration),
   (.lineBreak, .declaration)]

/-- All other pairs. -/
def strangers : List (Kind × Kind) :=
  [(.optional, .omitted), (.optional, .juxtaposition), (.optional, .sectionOpen), (.optional, .lineBreak),
   (.optional, .declaration), (.omitted, .juxtaposition), (.omitted, .sectionOpen),
   (.omitted, .declaration), (.juxtaposition, .sectionOpen), (.juxtaposition, .lineBreak),
   (.sectionOpen, .declaration)]

/-- Any two kinds are rivals or strangers. -/
theorem rivals_or_strangers (j k : Kind) (different : j ≠ k) :
    ((j, k) ∈ rivals ∨ (k, j) ∈ rivals) ∨ (j, k) ∈ strangers ∨ (k, j) ∈ strangers := by
  cases j <;> cases k <;> first | exact absurd rfl different | decide

theorem rivals_in_order : ∀ p ∈ rivals, priority.idxOf p.1 < priority.idxOf p.2 := by
  decide

/-- No blank or space is in front of a question mark that comes next. -/
theorem question_ends {c : Cursor} (mark : c.look = '?') : c.gapEnd = '?' ∧ c.spaceEnd = '?' := by
  have gap : c.gapEnd = '?' := by rw [Cursor.gapEnd_eq_look (by rw [mark]; rfl), mark]
  exact ⟨gap, by rw [Cursor.spaceEnd_eq_gapEnd (by rw [gap]; decide) (by rw [gap]; decide), gap]⟩

/-- What juxtaposition needs is no line break, so the spaces end with the blanks. -/
theorem juxtaposition_ends {c : Cursor} (line : isLineEnd c.gapEnd = false) :
    c.gapEnd ≠ '\n' ∧ c.gapEnd ≠ '\r' ∧ c.spaceEnd = c.gapEnd := by
  have feed : c.gapEnd ≠ '\n' := by
    intro same
    rw [same] at line
    cases line
  have back : c.gapEnd ≠ '\r' := by
    intro same
    rw [same] at line
    cases line
  exact ⟨feed, back, Cursor.spaceEnd_eq_gapEnd feed back⟩

/-- Strangers never both have what they need. -/
theorem not_needs_of_strangers {c : Cursor} {p : Kind × Kind} (pair : p ∈ strangers)
    (first : p.1.Needs c) (second : p.2.Needs c) : False := by
  simp only [strangers, List.mem_cons, List.not_mem_nil, or_false] at pair
  rcases pair with rfl | rfl | rfl | rfl | rfl | rfl | rfl | rfl | rfl | rfl | rfl
  all_goals simp only [Kind.Needs] at first second
  -- a question mark is none of the characters that the other rules need
  · rw [(question_ends first).2] at second
    exact absurd second (by decide)
  · rw [first] at second
    exact absurd second.1 (by decide)
  · rw [(question_ends first).1] at second
    exact absurd second.1 (by decide)
  · rw [(question_ends first).1] at second
    exact absurd second (by decide)
  · rw [(question_ends first).2] at second
    exact absurd second (by decide)
  -- a comma begins an operator and is neither a parenthesis nor a word character
  · rw [← (juxtaposition_ends second.2.1).2.2, first] at second
    exact absurd second.2.2 (by decide)
  · rw [first] at second
    exact absurd second.2 (by decide)
  · rw [first] at second
    exact absurd second (by decide)
  -- blanks that join two operands end at no line break
  · exact second.1.elim (juxtaposition_ends first.2.1).1 (juxtaposition_ends first.2.1).2.1
  · exact second.elim (juxtaposition_ends first.2.1).1 (juxtaposition_ends first.2.1).2.1
  · rw [first.2] at second
    exact absurd second (by decide)

/-- Two rules that both have what they need are rivals. -/
theorem rivals_of_needs {c : Cursor} {j k : Kind} (different : j ≠ k) (first : j.Needs c) (second : k.Needs c) :
    (j, k) ∈ rivals ∨ (k, j) ∈ rivals := by
  rcases rivals_or_strangers j k different with pair | pair | pair
  · exact pair
  · exact (not_needs_of_strangers pair first second).elim
  · exact (not_needs_of_strangers pair second first).elim

/-! ## Other orders -/

namespace Cursor

variable {c : Cursor} {search : ParenSearch} {order : List Kind}

theorem mem_of_perm (reordered : order.Perm priority) (kind : Kind) : kind ∈ order :=
  reordered.symm.subset (mem_priority kind)

/-- An order that keeps every pair of rivals chooses the same kind. -/
theorem chooseIn_eq_choose (reordered : order.Perm priority)
    (keeps : ∀ p ∈ rivals, order.idxOf p.1 < order.idxOf p.2) (valid : KindSet) :
    (c.chooseIn search order valid).kind? = (c.choose search valid).kind? := by
  have complete := mem_of_perm reordered
  cases chosen : (c.choose search valid).kind? with
  | none => exact (chooseIn_eq_none_iff complete).2 (choose_eq_none_iff.1 chosen)
  | some kind =>
    obtain ⟨allowed, accepted, least⟩ := choose_eq_some_iff.1 chosen
    refine (chooseIn_eq_some_iff complete).2 ⟨allowed, accepted, fun j has good => ?_⟩
    by_cases same : kind = j
    · rw [same]
    · rcases rivals_of_needs same (Kind.needs_of_rule accepted) (Kind.needs_of_rule good) with pair | pair
      · exact Nat.le_of_lt (keeps _ pair)
      · -- the other one comes first in both orders, so it would have been chosen
        exact absurd (rivals_in_order _ pair) (Nat.not_lt.2 (least j has good))

/-- With two valid kinds that both accept, the order of the two is the choice. -/
theorem chooseIn_pair {a b : Kind} (complete : ∀ kind, kind ∈ order) (first : c.accepts search a = true)
    (before : order.idxOf a < order.idxOf b) {valid : KindSet}
    (pair : ∀ kind, valid.has kind = true ↔ kind = a ∨ kind = b) :
    (c.chooseIn search order valid).kind? = some a := by
  refine (chooseIn_eq_some_iff complete).2 ⟨(pair a).2 (.inl rfl), first, fun j has _ => ?_⟩
  rcases (pair j).1 has with rfl | rfl
  · exact Nat.le_refl _
  · exact Nat.le_of_lt before

/-- Turning two kinds around is seen where both accept and nothing else is valid. -/
theorem chooseIn_ne_choose {a b : Kind} (first : c.accepts search a = true) (second : c.accepts search b = true)
    (sooner : priority.idxOf a < priority.idxOf b) (reordered : order.Perm priority)
    (turned : order.idxOf b < order.idxOf a) :
    (c.chooseIn search order ((KindSet.of a).union (.of b))).kind? ≠
      (c.choose search ((KindSet.of a).union (.of b))).kind? := by
  have pair : ∀ kind, ((KindSet.of a).union (.of b)).has kind = true ↔ kind = a ∨ kind = b := by
    intro kind
    rw [KindSet.has_union, Bool.or_eq_true, KindSet.has_of, KindSet.has_of, decide_eq_true_eq, decide_eq_true_eq,
      eq_comm, @eq_comm _ b]
  have here := chooseIn_pair mem_priority first sooner pair
  have there := chooseIn_pair (mem_of_perm reordered) second turned fun kind => (pair kind).trans or_comm
  rw [there, ← chooseIn_priority, here]
  intro same
  cases same
  exact Nat.lt_irrefl _ sooner

/-- Both rules of each pair of rivals accept at the beginning of some script. -/
theorem rivals_meet (search : ParenSearch) : ∀ p ∈ rivals, ∃ text c, at? (Script.ofText text) 0 = some c ∧
    c.accepts search p.1 = true ∧ c.accepts search p.2 = true := by
  have met : ∀ text a b, (Script.ofText text).isPosition 0 = true →
      (fresh (Script.ofText text) 0).accepts search a = true →
      (fresh (Script.ofText text) 0).accepts search b = true →
      ∃ text c, at? (Script.ofText text) 0 = some c ∧ c.accepts search a = true ∧ c.accepts search b = true := by
    intro text a b position first second
    exact ⟨text, fresh (Script.ofText text) 0, if_pos position, first, second⟩
  intro p pair
  simp only [rivals, List.mem_cons, List.not_mem_nil, or_false] at pair
  rcases pair with rfl | rfl | rfl | rfl
  · apply met "\n," <;> cases search <;> decide +kernel
  · apply met "\n(\n" <;> cases search <;> decide +kernel
  · apply met " f()\x7b" <;> cases search <;> decide +kernel
  · apply met "\nf()\x7b" <;> cases search <;> decide +kernel

/-- Only rivals are ever accepted at one place, from cursors with whatever tokens under construction,
and a section opens only where a line breaks. An order of the table that keeps the rivals in place
chooses the same kind with the same cursor, and one that turns a pair of rivals around chooses
another kind in some script. -/
theorem rules_compete_in_four_pairs (search : ParenSearch) :
    (∀ (c d : Cursor) (j k : Kind), c.script = d.script → c.pos = d.pos → j ≠ k →
      (j.rule search c).accepted = true → (k.rule search d).accepted = true →
      (j, k) ∈ rivals ∨ (k, j) ∈ rivals) ∧
    (∀ c : Cursor, (Kind.sectionOpen.rule search c).accepted = true →
      (Kind.lineBreak.rule search c).accepted = true) ∧
    (∀ order : List Kind, order.Perm priority → (∀ p ∈ rivals, order.idxOf p.1 < order.idxOf p.2) →
      ∀ (c : Cursor) (valid : KindSet),
        (c.firstOf valid (order.map (Kind.row search))).kind? = (c.choose search valid).kind? ∧
        (c.firstOf valid (order.map (Kind.row search))).cursor = (c.choose search valid).cursor) ∧
    ∀ p ∈ rivals, ∃ (text : String) (c : Cursor) (valid : KindSet), at? (Script.ofText text) 0 = some c ∧
      ∀ order : List Kind, order.Perm priority → order.idxOf p.2 < order.idxOf p.1 →
        (c.firstOf valid (order.map (Kind.row search))).kind? ≠ (c.choose search valid).kind? := by
  refine ⟨?_, ?_, ?_, ?_⟩
  · intro c d j k script pos different first second
    have place : d.SamePlace c := ⟨script.symm, pos.symm⟩
    exact rivals_of_needs different (Kind.needs_of_rule first) ((Kind.needs_of_rule second).of_place place)
  · intro c opens
    exact Rule.lineBreak_accepted_iff.2 (Rule.sectionOpen_needs opens).1
  · intro order reordered keeps c valid
    have same : (c.chooseIn search order valid).kind? = (c.choose search valid).kind? :=
      chooseIn_eq_choose reordered keeps valid
    refine ⟨same, ?_⟩
    change (c.chooseIn search order valid).cursor = _
    rw [chooseIn_cursor, choose_cursor, same]
  · intro p pair
    obtain ⟨text, c, opened, first, second⟩ := rivals_meet search p pair
    exact ⟨text, c, (KindSet.of p.1).union (.of p.2), opened, fun order reordered turned =>
      chooseIn_ne_choose first second (rivals_in_order p pair) reordered turned⟩

/-- A comma behind a line break, where an omitted argument and the break itself compete, and an order
that is far from the table's but keeps its rivals. -/
theorem rules_compete_in_four_pairs_comma :
    (Kind.omitted.rule .byByte (fresh (Script.ofText "\n,") 0)).accepted = true ∧
    (Kind.lineBreak.rule .byByte (fresh (Script.ofText "\n,") 0)).accepted = true ∧
    ((Kind.omitted, Kind.lineBreak) ∈ rivals ∨ (Kind.lineBreak, Kind.omitted) ∈ rivals) ∧
    ((fresh (Script.ofText "\n,") 0).firstOf .all
      ([.sectionOpen, .omitted, .lineBreak, .juxtaposition, .declaration, .optional].map
        (Kind.row .byByte))).kind? = ((fresh (Script.ofText "\n,") 0).choose .byByte .all).kind? := by
  have omitted : (Kind.omitted.rule .byByte (fresh (Script.ofText "\n,") 0)).accepted = true := by decide +kernel
  have breaks : (Kind.lineBreak.rule .byByte (fresh (Script.ofText "\n,") 0)).accepted = true := by decide +kernel
  obtain ⟨compete, -, reorder, -⟩ := rules_compete_in_four_pairs .byByte
  exact ⟨omitted, breaks, compete _ _ _ _ rfl rfl (by decide) omitted breaks,
    (reorder _ (by decide) (by decide) _ .all).1⟩

end Cursor

end HotkeyLex
