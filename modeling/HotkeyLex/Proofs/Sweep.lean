import HotkeyLex.Proofs.Channels
import HotkeyLex.Proofs.Placement
import Mathlib.Algebra.GroupWithZero.Nat

/-!
# Sweeps and probes

A sweep goes through all offsets from the body to the end and asks for a token where a character begins.
These are the offsets at which a probe may be made (`mem_positions`), though the two commands test for them
in different ways. The line of a probe tells its token (`probeLine_eq_iff`), so what the two commands print
can be compared.

On its way a sweep has the lines of the tokens found so far and counts them kind by kind. One offset keeps
it so (`Tells.visit`), hence the whole loop does (`tells_ofScript`): its counters are those of its lines, and
add up to their number.
-/

namespace HotkeyLex

/-! ## Positions -/

namespace Script

variable {s : Script} {offset : UInt32}

/-- The offsets at which a sweep asks for a token. -/
def positions (s : Script) : List UInt32 := s.offsets.filter s.isBoundary

theorem mem_offsets : offset ∈ s.offsets ↔ s.bodyStart ≤ offset ∧ offset ≤ s.size := by
  rw [offsets, List.mem_map, UInt32.le_iff_toNat_le, UInt32.le_iff_toNat_le]
  constructor
  · rintro ⟨i, member, rfl⟩
    have bound := s.size.toNat_lt
    rw [List.mem_range'_1] at member
    rw [UInt32.toNat_ofNat_of_lt' (show i < UInt32.size by rw [UInt32.size]; omega)]
    omega
  · rintro ⟨behind, inside⟩
    refine ⟨offset.toNat, ?_, UInt32.ofNat_toNat⟩
    rw [List.mem_range'_1]
    omega

/-- A sweep asks where a reader may be put. -/
theorem mem_positions : offset ∈ s.positions ↔ s.isPosition offset = true := by
  rw [positions, List.mem_filter, mem_offsets, isPosition, Bool.and_eq_true, decide_eq_true_eq, and_assoc]
  exact and_congr_right fun _ => and_iff_right_of_imp le_size_of_isBoundary

/-- Numbers that fit in 32 bits keep their order there. -/
theorem pairwise_toUInt32 {list : List Nat} (sorted : list.Pairwise (· < ·)) (small : ∀ i ∈ list, i < UInt32.size) :
    (list.map Nat.toUInt32).Pairwise (· < ·) := by
  rw [List.pairwise_map]
  apply List.Pairwise.imp_of_mem _ sorted
  intro i j first last less
  have kept : ∀ k ∈ list, k.toUInt32.toNat = k := fun k member => UInt32.toNat_ofNat_of_lt' (small k member)
  rwa [UInt32.lt_iff_toNat_lt, kept i first, kept j last]

theorem pairwise_positions (s : Script) : s.positions.Pairwise (· < ·) := by
  apply List.Pairwise.filter
  refine pairwise_toUInt32 List.pairwise_lt_range' fun i member => ?_
  have bound := s.size.toNat_lt
  rw [List.mem_range'_1] at member
  rw [UInt32.size]
  omega

/-- A token is found only where a cursor may be put. -/
theorem isPosition_of_tokenAt? {valid : KindSet} {token : Token} (found : s.tokenAt? offset valid = some token) :
    s.isPosition offset = true := by
  apply Classical.byContradiction
  intro astray
  rw [tokenAt?, choiceAt?, Cursor.at?, if_neg astray] at found
  cases found

end Script

/-! ## What a line tells -/

/-- What stands in front of the first mark of a kind, and what follows it. -/
theorem split_at_mark {mark : Char} {a b r t : List Char} (left : mark ∉ a) (right : mark ∉ b)
    (same : a ++ mark :: r = b ++ mark :: t) : a = b ∧ r = t := by
  induction a generalizing b with
  | nil =>
    cases b with
    | nil => exact ⟨rfl, (List.cons.inj same).2⟩
    | cons ch b => exact absurd (.inl (List.cons.inj same).1) (List.mem_cons.not.1 right)
  | cons ch a ih =>
    cases b with
    | nil => exact absurd (.inl (List.cons.inj same).1.symm) (List.mem_cons.not.1 left)
    | cons other b =>
      obtain ⟨first, others⟩ := List.cons.inj same
      obtain ⟨front, back⟩ := ih (List.not_mem_of_not_mem_cons left) (List.not_mem_of_not_mem_cons right) others
      exact ⟨by rw [first, front], back⟩

theorem decimal_inj {m n : Nat} (same : decimal m = decimal n) : m = n := by
  have digits : Nat.toDigits 10 m = Nat.toDigits 10 n := String.ofList_injective same
  have value := congrArg (Nat.ofDigitChars 10 · 0) digits
  simp only [Nat.ofDigitChars_toDigits (show 1 < 10 by decide) (Nat.le_refl 10)] at value
  exact value

/-- No other character stands in a number. -/
theorem notMem_decimal {ch : Char} (other : ch.isDigit = false) (n : Nat) : ch ∉ (decimal n).toList := by
  intro member
  rw [decimal, String.toList_ofList] at member
  have digit := Nat.isDigit_of_mem_toDigits (by decide) (by decide) member
  rw [other] at digit
  cases digit

theorem Span.render_inj {a b : Span} (same : a.render = b.render) : a = b := by
  obtain ⟨start, stop⟩ := a
  obtain ⟨start', stop'⟩ := b
  have dot (n : Nat) : '.' ∉ (decimal n).toList := notMem_decimal rfl n
  have lists := congrArg String.toList same
  simp only [render, String.toList_append, List.append_assoc, show "..".toList = ['.', '.'] from rfl,
    List.cons_append, List.nil_append] at lists
  obtain ⟨first, last⟩ := split_at_mark (dot _) (dot _) lists
  have starts := decimal_inj (String.toList_inj.1 first)
  have stops := decimal_inj (String.toList_inj.1 (List.cons.inj last).2)
  rw [UInt32.toNat_inj.1 starts, UInt32.toNat_inj.1 stops]

theorem Kind.name_inj {a b : Kind} (same : a.name = b.name) : a = b := by
  cases a <;> cases b <;> first | rfl | exact absurd same (by decide)

theorem Kind.blank_notMem_name (kind : Kind) : ' ' ∉ kind.name.toList := by
  cases kind <;> decide

namespace Tool

/-- The characters of the line of a token, up to the first blank and behind it. -/
theorem toList_tokenLine (token : Token) : (token.kind.name ++ " @ " ++ token.span.render ++ "\n").toList =
    token.kind.name.toList ++ ' ' :: ('@' :: ' ' :: (token.span.render.toList ++ ['\n'])) := by
  simp [String.toList_append]

theorem toList_emptyLine (offset : UInt32) : (probeLine offset none).toList =
    ['n', 'o'] ++ ' ' :: ("external token at ".toList ++ ((decimal offset.toNat).toList ++ ['\n'])) := by
  have words : "no external token at ".toList = ['n', 'o'] ++ ' ' :: "external token at ".toList := by decide
  unfold probeLine
  simp only [String.toList_append, words, List.append_assoc, List.cons_append]
  rfl

/-- The line of a probe tells whether there is a token, and which one. -/
theorem probeLine_eq_iff {offset : UInt32} {found : Option Token} {token : Token} :
    probeLine offset found = token.kind.name ++ " @ " ++ token.span.render ++ "\n" ↔ found = some token := by
  constructor
  · intro same
    have lists := congrArg String.toList same
    rw [toList_tokenLine] at lists
    cases found with
    | none =>
      rw [toList_emptyLine] at lists
      obtain ⟨name, -⟩ := split_at_mark (by decide) token.kind.blank_notMem_name lists
      exact absurd name (by cases token.kind <;> decide)
    | some other =>
      have line : (probeLine offset (some other)).toList = _ := toList_tokenLine other
      rw [line] at lists
      obtain ⟨name, behind⟩ := split_at_mark other.kind.blank_notMem_name token.kind.blank_notMem_name lists
      have spans := List.append_cancel_right (List.cons.inj (List.cons.inj behind).2).2
      obtain ⟨kind, span⟩ := other
      obtain rfl := Kind.name_inj (String.toList_inj.1 name)
      obtain rfl := Span.render_inj (String.toList_inj.1 spans)
      rfl
  · rintro rfl
    rfl

/-! ## Lines in columns -/

/-- Blanks that fill a column. -/
def blanks (n : Nat) : String := String.ofList (List.replicate n ' ')

theorem pad_right (width : Nat) (text : String) : pad .right width text = blanks (width - text.length) ++ text := by
  rw [← String.toList_inj]
  simp [pad, Align.leading, blanks, String.toList_append]

theorem pad_left (width : Nat) (text : String) : pad .left width text = text ++ blanks (width - text.length) := by
  rw [← String.toList_inj]
  simp [pad, Align.leading, blanks, String.toList_append]

/-! ## The tokens of a sweep -/

variable {s : Script} {valid : KindSet} {offset : UInt32} {token : Token}

/-- The tokens that are found at some offsets, with their offsets. -/
def tokensAt (s : Script) (valid : KindSet) (offsets : List UInt32) : List (UInt32 × Token) :=
  (offsets.filter s.isBoundary).filterMap fun offset => (s.tokenAt? offset valid).map (offset, ·)

/-- The tokens that a sweep finds. -/
def sweepTokens (s : Script) (valid : KindSet) : List (UInt32 × Token) := tokensAt s valid s.offsets

/-- A sweep finds the tokens that are found offset by offset. -/
theorem mem_sweepTokens : (offset, token) ∈ sweepTokens s valid ↔ s.tokenAt? offset valid = some token := by
  simp only [sweepTokens, tokensAt, List.mem_filterMap, Option.map_eq_some_iff]
  constructor
  · rintro ⟨place, -, other, found, same⟩
    cases same
    exact found
  · intro found
    exact ⟨offset, Script.mem_positions.2 (Script.isPosition_of_tokenAt? found), token, found, rfl⟩

theorem pairwise_sweepTokens (s : Script) (valid : KindSet) : (sweepTokens s valid).Pairwise (·.1 < ·.1) := by
  rw [sweepTokens, tokensAt, List.pairwise_filterMap]
  apply s.pairwise_positions.imp
  intro first last less a found b other
  simp only [Option.map_eq_some_iff] at found other
  obtain ⟨token, -, rfl⟩ := found
  obtain ⟨token, -, rfl⟩ := other
  exact less

/-- A probe is turned down exactly where a sweep does not go. -/
theorem mem_positions_iff_probe (valid : KindSet) :
    offset ∈ s.positions ↔ probeLines s offset valid ≠ .error (.noPosition offset s.size) := by
  rw [Script.mem_positions]
  constructor
  · intro position
    rw [probeLines_of_position position]
    exact nofun
  · intro accepted
    apply Classical.byContradiction
    intro astray
    exact accepted (probeLines_astray (Bool.eq_false_iff.2 astray) valid)

/-- A sweep lists what a probe at the same offset prints. -/
theorem mem_sweepTokens_iff_probe : (offset, token) ∈ sweepTokens s valid ↔
    probeLines s offset valid = .ok [token.kind.name ++ " @ " ++ token.span.render ++ "\n"] := by
  rw [mem_sweepTokens]
  cases position : s.isPosition offset with
  | true =>
    rw [probeLines_of_position position, Except.ok.injEq, List.cons.injEq, probeLine_eq_iff]
    exact (and_iff_left rfl).symm
  | false =>
    rw [probeLines_astray position]
    refine iff_of_false (fun found => ?_) nofun
    rw [Script.isPosition_of_tokenAt? found] at position
    cases position

/-! ## Counting -/

variable {tokens : List (UInt32 × Token)}

/-- How often a kind was found. -/
def countOf (tokens : List (UInt32 × Token)) (kind : Kind) : Nat := tokens.countP (·.2.kind == kind)

/-- The kinds that occur, by number, with how often they do. -/
def counts (tokens : List (UInt32 × Token)) : List (Kind × Nat) :=
  (Kind.all.map fun kind => (kind, countOf tokens kind)).filter fun row => decide (0 < row.2)

/-- The counts leave out kinds that were not found. -/
theorem mem_counts {kind : Kind} {count : Nat} :
    (kind, count) ∈ counts tokens ↔ count = countOf tokens kind ∧ 0 < count := by
  rw [counts, List.mem_filter, List.mem_map, decide_eq_true_eq]
  apply and_congr_left'
  constructor
  · rintro ⟨other, -, same⟩
    cases same
    rfl
  · rintro rfl
    exact ⟨kind, by cases kind <;> decide, rfl⟩

theorem pairwise_counts (tokens : List (UInt32 × Token)) :
    ((counts tokens).map (·.1.index)).Pairwise (· < ·) := by
  rw [List.pairwise_map, counts]
  apply List.Pairwise.filter
  rw [List.pairwise_map]
  have order : Kind.all.Pairwise (·.index < ·.index) := by decide
  exact order

/-- Every token is counted once, under its own kind. -/
theorem sum_countOf (tokens : List (UInt32 × Token)) : (Kind.all.map (countOf tokens)).sum = tokens.length := by
  induction tokens with
  | nil => rfl
  | cons found tokens ih =>
    simp only [Kind.all, List.map_cons, List.map_nil, List.sum_cons, List.sum_nil, countOf, List.countP_cons] at ih ⊢
    rw [List.length_cons, ← ih]
    cases found.2.kind <;> simp <;> omega

/-- Kinds that do not occur add nothing to the total. -/
theorem sum_counts (tokens : List (UInt32 × Token)) : ((counts tokens).map (·.2)).sum = tokens.length := by
  have positive (rows : List (Kind × Nat)) :
      ((rows.filter fun row => decide (0 < row.2)).map (·.2)).sum = (rows.map (·.2)).sum := by
    induction rows with
    | nil => rfl
    | cons row rows ih =>
      by_cases occurs : 0 < row.2
      · rw [List.filter_cons_of_pos (by simpa using occurs), List.map_cons, List.map_cons, List.sum_cons,
          List.sum_cons, ih]
      · rw [List.filter_cons_of_neg (by simpa using occurs), List.map_cons, List.sum_cons, ih]
        omega
  rw [← sum_countOf, counts, positive, List.map_map]
  rfl

/-! ## The loop -/

namespace Sweep

variable {w : Sweep} {found : List (UInt32 × Token)}

/-- The sweep has the lines of the tokens found so far, and its counters count them. -/
structure Tells (w : Sweep) (found : List (UInt32 × Token)) : Prop where
  lines : w.lines.toList = found.map sweepLine
  counts : w.counts.toList = Kind.all.map (countOf found)

theorem tells_start : start.Tells [] := ⟨rfl, rfl⟩

/-- One more token adds one to the counter at the number of its kind. -/
theorem modify_countOf (found : List (UInt32 × Token)) (offset : UInt32) (token : Token) :
    (Kind.all.map (countOf found)).modify token.kind.index (· + 1) =
      Kind.all.map (countOf (found ++ [(offset, token)])) := by
  obtain ⟨kind, span⟩ := token
  simp only [Kind.all, List.map_cons, List.map_nil, countOf, List.countP_append, List.countP_singleton]
  cases kind <;> rfl

/-- One offset adds its token to the lines and to the count of its kind. -/
theorem Tells.visit (h : w.Tells found) (s : Script) (valid : KindSet) (offset : UInt32) :
    (w.visit s valid offset).Tells (found ++ tokensAt s valid [offset]) := by
  unfold Sweep.visit
  split
  · next begins =>
    cases asked : s.tokenAt? offset valid with
    | none =>
      have silent : tokensAt s valid [offset] = [] := by simp [tokensAt, begins, asked]
      rw [silent, List.append_nil]
      exact h
    | some token =>
      have one : tokensAt s valid [offset] = [(offset, token)] := by simp [tokensAt, begins, asked]
      rw [one]
      constructor
      · simp [h.lines]
      · rw [Array.toList_modify, h.counts]
        exact modify_countOf found offset token
  · next inner =>
    have silent : tokensAt s valid [offset] = [] := by simp [tokensAt, inner]
    rw [silent, List.append_nil]
    exact h

/-- The loop tells what is found at all the offsets it has visited. -/
theorem Tells.visits (h : w.Tells found) (s : Script) (valid : KindSet) (offsets : List UInt32) :
    (offsets.foldl (Sweep.visit s valid) w).Tells (found ++ tokensAt s valid offsets) := by
  induction offsets generalizing w found with
  | nil => simpa [tokensAt] using h
  | cons offset offsets ih =>
    have cut : tokensAt s valid (offset :: offsets) = tokensAt s valid [offset] ++ tokensAt s valid offsets := by
      simp only [tokensAt, ← List.filterMap_append, ← List.filter_append]
      rfl
    rw [cut, ← List.append_assoc]
    exact ih (h.visit s valid offset)

/-- Behind the last offset the sweep tells of all tokens. -/
theorem tells_ofScript (s : Script) (valid : KindSet) : (ofScript s valid).Tells (sweepTokens s valid) :=
  tells_start.visits s valid s.offsets

theorem Tells.total_eq (h : w.Tells found) : w.total = found.length := by
  rw [total, ← Array.foldl_toList, h.counts, ← List.sum_eq_foldl_nat, sum_countOf]

theorem Tells.count_eq (h : w.Tells found) (kind : Kind) : w.counts.getD kind.index 0 = countOf found kind := by
  have listed : w.counts = (Kind.all.map (countOf found)).toArray := by rw [← h.counts]
  rw [listed]
  cases kind <;> rfl

/-- The lines of the counts are those of the kinds that were found. -/
theorem Tells.filterMap_countLine? (h : w.Tells found) : Kind.all.filterMap w.countLine? =
    (Tool.counts found).map fun row => "  " ++ row.1.name ++ ": " ++ decimal row.2 ++ "\n" := by
  rw [Tool.counts]
  induction Kind.all with
  | nil => rfl
  | cons kind kinds ih =>
    by_cases occurs : 0 < countOf found kind
    · rw [List.map_cons, List.filter_cons_of_pos (by simpa using occurs), List.map_cons, ← ih, List.filterMap_cons]
      simp only [countLine?, h.count_eq, if_pos occurs]
    · rw [List.map_cons, List.filter_cons_of_neg (by simpa using occurs), ← ih, List.filterMap_cons]
      simp only [countLine?, h.count_eq, if_neg occurs]

end Sweep

/-- The loop of a sweep comes to the lines of its tokens, their number, and the number of each kind. -/
theorem sweepLines_eq (s : Script) (valid : KindSet) : sweepLines s valid =
    (sweepTokens s valid).map sweepLine ++ (decimal (sweepTokens s valid).length ++ " external tokens\n") ::
      (counts (sweepTokens s valid)).map fun row => "  " ++ row.1.name ++ ": " ++ decimal row.2 ++ "\n" := by
  have tells := Sweep.tells_ofScript s valid
  simp only [sweepLines, tells.lines, Sweep.summaryLines, tells.total_eq, tells.filterMap_countLine?]

/-- A sweep agrees with the probes. It visits the offsets that a probe does not turn down, and writes a
line, with offset and kind in columns, for each offset at which the probe has a line for a token. Behind
these lines stand their number and, for each kind that occurs, the number of its lines. -/
theorem sweep_agrees_with_probes (s : Script) (valid : KindSet) (diag : Channel) (events : List Event) :
    (∀ offset, offset ∈ s.positions ↔ probeLines s offset valid ≠ .error (.noPosition offset s.size)) ∧
    s.positions.Pairwise (· < ·) ∧
    ∃ (found : List (UInt32 × Token)) (counted : List (Kind × Nat)),
      (∀ offset token, (offset, token) ∈ found ↔
        probeLines s offset valid = .ok [token.kind.name ++ " @ " ++ token.span.render ++ "\n"]) ∧
      found.Pairwise (·.1 < ·.1) ∧
      (∀ kind count, (kind, count) ∈ counted ↔
        count = (found.filter fun row => row.2.kind = kind).length ∧ 0 < count) ∧
      (counted.map (·.1.index)).Pairwise (· < ·) ∧
      (counted.map (·.2)).sum = found.length ∧
      Report.print (.ofLimit none) diag events (sweepLines s valid) = ⟨.ok (), ⟨none, (String.join (
        (found.map fun (offset, token) =>
          blanks (6 - (decimal offset.toNat).length) ++ decimal offset.toNat ++ "  " ++
            (token.kind.name ++ blanks (26 - token.kind.name.length)) ++ " " ++ token.span.render ++ "\n") ++
        (decimal found.length ++ " external tokens\n") ::
        counted.map fun (kind, count) => "  " ++ kind.name ++ ": " ++ decimal count ++ "\n")).toUTF8⟩,
        diag, events⟩ := by
  refine ⟨fun _ => mem_positions_iff_probe valid, s.pairwise_positions, sweepTokens s valid,
    counts (sweepTokens s valid), fun _ _ => mem_sweepTokens_iff_probe, pairwise_sweepTokens s valid, ?_,
    pairwise_counts _, sum_counts _, ?_⟩
  · intro kind count
    rw [mem_counts, countOf, List.countP_eq_length_filter]
    rfl
  · rw [Report.print_unlimited, sweepLines_eq]
    simp only [← pad_left, ← pad_right]
    rfl

end Tool

end HotkeyLex
