import HotkeyLex.Proofs.Likeness
import Mathlib.Data.List.Basic
import Mathlib.Data.Nat.Bitwise

/-!
# Choice by priority

A choice is decided by two facts about each kind: whether it is valid and whether its rule accepts
from the cursor. The first kind of the order with both wins, and the cursor it leaves depends on
nothing but the kind. So a choice over a union is the better of two choices, narrowing a set to the
winner changes nothing, and bits that belong to no kind are never seen.
-/

namespace HotkeyLex

/-! ## Members of a set -/

namespace KindSet

/-- The set of one kind is the bit of its number. -/
theorem toNat_of (kind : Kind) : (of kind).bits.toNat = 2 ^ kind.index := by
  cases kind <;> rfl

/-- A kind is in a set exactly if its bit is. -/
theorem has_eq_testBit (a : KindSet) (kind : Kind) : a.has kind = a.bits.toNat.testBit kind.index := by
  rw [Bool.eq_iff_iff, has, contains, beq_iff_eq, ← UInt8.toNat_inj, UInt8.toNat_and, toNat_of,
    Nat.and_two_pow]
  have positive : 0 < 2 ^ kind.index := Nat.two_pow_pos _
  cases a.bits.toNat.testBit kind.index with
  | false => simp; omega
  | true => simp

@[simp] theorem has_union (a b : KindSet) (kind : Kind) : (a.union b).has kind = (a.has kind || b.has kind) := by
  simp only [has_eq_testBit, union, UInt8.toNat_or, Nat.testBit_or]

/-- The set of one kind has that kind alone. -/
@[simp] theorem has_of (j kind : Kind) : (of j).has kind = decide (j = kind) := by
  cases j <;> cases kind <;> rfl

/-- The two bits without a kind do not count. -/
@[simp] theorem has_truncate (a : KindSet) (kind : Kind) : a.truncate.has kind = a.has kind := by
  have known : all.bits.toNat.testBit kind.index = true := by cases kind <;> rfl
  simp only [has_eq_testBit, truncate, inter, UInt8.toNat_and, Nat.testBit_and, known, Bool.and_true]

end KindSet

/-! ## The first of a list -/

/-- What is found first is what has the least place among all that could be found. -/
theorem find?_eq_some_iff_idxOf {α : Type} [DecidableEq α] {l : List α} {p : α → Bool} {a : α} :
    l.find? p = some a ↔ p a = true ∧ a ∈ l ∧ ∀ b ∈ l, p b = true → l.idxOf a ≤ l.idxOf b := by
  induction l with
  | nil => simp
  | cons x l ih =>
    by_cases found : p x = true
    · rw [List.find?_cons_of_pos found, Option.some.injEq]
      constructor
      · rintro rfl
        exact ⟨found, List.mem_cons_self, fun b _ _ => by simp⟩
      · rintro ⟨-, -, least⟩
        have zero := least x List.mem_cons_self found
        rw [List.idxOf_cons_self, Nat.le_zero] at zero
        by_contra other
        rw [List.idxOf_cons_ne l other] at zero
        cases zero
    · rw [List.find?_cons_of_neg found, ih]
      have shift : ∀ b, p b = true → (x :: l).idxOf b = l.idxOf b + 1 := by
        intro b holds
        exact List.idxOf_cons_ne l fun same => found (same ▸ holds)
      constructor
      · rintro ⟨holds, member, least⟩
        refine ⟨holds, List.mem_cons_of_mem x member, fun b inside good => ?_⟩
        rw [shift a holds, shift b good]
        have later : b ∈ l := (List.mem_cons.1 inside).resolve_left fun same => found (same ▸ good)
        exact Nat.succ_le_succ (least b later good)
      · rintro ⟨holds, member, least⟩
        refine ⟨holds, (List.mem_cons.1 member).resolve_left fun same => found (same ▸ holds), ?_⟩
        intro b inside good
        have place := least b (List.mem_cons_of_mem x inside) good
        rw [shift a holds, shift b good] at place
        exact Nat.le_of_succ_le_succ place

namespace Cursor

/-! ## What decides a choice -/

/-- The choice with the kinds tried in a given order. -/
def chooseIn (c : Cursor) (search : ParenSearch) (order : List Kind) (valid : KindSet) : Choice :=
  c.firstOf valid (order.map (Kind.row search))

/-- The rule of a kind accepts from the cursor. -/
def accepts (c : Cursor) (search : ParenSearch) (kind : Kind) : Bool := (kind.rule search c).accepted

/-- The cursor that an accepted kind leaves; the old one without a kind. -/
def after (c : Cursor) (search : ParenSearch) : Option Kind → Cursor
  | none => c
  | some kind => ((kind.row search).attempt c).cursor

section

variable {c : Cursor} {search : ParenSearch} {valid : KindSet} {kind : Kind} {order : List Kind}

/-- An end that is marked before the rule runs has no part in the verdict. -/
@[simp] theorem attempt_accepted : ((kind.row search).attempt c).accepted = c.accepts search kind := by
  unfold Row.attempt
  split
  · exact (likeness_samePlace.rule_alike c.samePlace_marked search kind).1
  · rfl

theorem chooseIn_priority : c.chooseIn search priority valid = c.choose search valid := rfl

theorem chooseIn_invalid (invalid : valid.has kind = false) :
    c.chooseIn search (kind :: order) valid = c.chooseIn search order valid := by
  simp [chooseIn, firstOf, invalid]

/-- The first valid kind whose rule accepts is chosen. -/
theorem chooseIn_accepted (allowed : valid.has kind = true) (accepted : c.accepts search kind = true) :
    c.chooseIn search (kind :: order) valid = ⟨some kind, c.after search (some kind), [⟨kind, true⟩]⟩ := by
  simp [chooseIn, firstOf, after, allowed, accepted]

/-- A declined attempt leaves its verdict and nothing else. -/
theorem chooseIn_declined (allowed : valid.has kind = true) (declined : c.accepts search kind = false) :
    c.chooseIn search (kind :: order) valid = { c.chooseIn search order valid with
      attempts := ⟨kind, false⟩ :: (c.chooseIn search order valid).attempts } := by
  simp [chooseIn, firstOf, allowed, declined]

end

variable (c : Cursor) (search : ParenSearch) (order : List Kind) (valid : KindSet)

/-- What is chosen is the first valid kind in the order whose rule accepts. -/
theorem chooseIn_kind? : (c.chooseIn search order valid).kind? =
    order.find? (fun kind => valid.has kind && c.accepts search kind) := by
  induction order with
  | nil => rfl
  | cons kind order ih =>
    cases allowed : valid.has kind with
    | false => rw [chooseIn_invalid allowed, List.find?_cons_of_neg (by simp [allowed]), ih]
    | true =>
      cases verdict : c.accepts search kind with
      | false => rw [chooseIn_declined allowed verdict, List.find?_cons_of_neg (by simp [verdict]), ← ih]
      | true => rw [chooseIn_accepted allowed verdict, List.find?_cons_of_pos (by simp [allowed, verdict])]

/-- The cursor after a choice depends on the chosen kind alone. -/
theorem chooseIn_cursor : (c.chooseIn search order valid).cursor =
    c.after search (c.chooseIn search order valid).kind? := by
  induction order with
  | nil => rfl
  | cons kind order ih =>
    cases allowed : valid.has kind with
    | false => rw [chooseIn_invalid allowed, ih]
    | true =>
      cases verdict : c.accepts search kind with
      | false => rw [chooseIn_declined allowed verdict, ih]
      | true => rw [chooseIn_accepted allowed verdict]

/-- The attempts run through the valid kinds up to the first that accepts. -/
theorem chooseIn_attempts : (c.chooseIn search order valid).attempts =
    ((order.filter valid.has).take ((order.filter valid.has).findIdx (c.accepts search) + 1)).map
      fun kind => ⟨kind, c.accepts search kind⟩ := by
  induction order with
  | nil => rfl
  | cons kind order ih =>
    cases allowed : valid.has kind with
    | false => rw [chooseIn_invalid allowed, List.filter_cons_of_neg (by simp [allowed]), ih]
    | true =>
      rw [List.filter_cons_of_pos allowed]
      cases verdict : c.accepts search kind with
      | false =>
        rw [chooseIn_declined allowed verdict, ih, List.findIdx_cons, verdict]
        simp [verdict]
      | true =>
        rw [chooseIn_accepted allowed verdict, List.findIdx_cons, verdict]
        simp [verdict]

/-! ## The winner by its place -/

section

variable {c : Cursor} {search : ParenSearch} {valid : KindSet} {kind : Kind} {order : List Kind}

/-- In an order with all kinds, the chosen kind is the earliest of those that are valid and accept. -/
theorem chooseIn_eq_some_iff (complete : ∀ kind, kind ∈ order) :
    (c.chooseIn search order valid).kind? = some kind ↔
      valid.has kind = true ∧ c.accepts search kind = true ∧
        ∀ j, valid.has j = true → c.accepts search j = true → order.idxOf kind ≤ order.idxOf j := by
  rw [chooseIn_kind?, find?_eq_some_iff_idxOf]
  simp only [Bool.and_eq_true]
  constructor
  · rintro ⟨⟨allowed, accepted⟩, -, least⟩
    exact ⟨allowed, accepted, fun j has accepts => least j (complete j) ⟨has, accepts⟩⟩
  · rintro ⟨allowed, accepted, least⟩
    exact ⟨⟨allowed, accepted⟩, complete kind, fun j _ good => least j good.1 good.2⟩

theorem chooseIn_eq_none_iff (complete : ∀ kind, kind ∈ order) :
    (c.chooseIn search order valid).kind? = none ↔
      ∀ j, valid.has j = true → c.accepts search j = false := by
  rw [chooseIn_kind?, List.find?_eq_none]
  simp only [Bool.and_eq_true, not_and, Bool.not_eq_true]
  exact ⟨fun none j => none j (complete j), fun none j _ => none j⟩

end

end Cursor

theorem mem_priority (kind : Kind) : kind ∈ priority := by
  cases kind <;> decide

/-- Of two choices the one whose kind is tried first. A choice without a kind gives way. -/
def Choice.sooner (a b : Choice) : Choice :=
  match a.kind?, b.kind? with
  | none, _ => b
  | some _, none => a
  | some j, some k => if priority.idxOf j ≤ priority.idxOf k then a else b

theorem Choice.eq_of_parts {a b : Choice} (kind : a.kind? = b.kind?) (cursor : a.cursor = b.cursor)
    (attempts : a.attempts = b.attempts) : a = b := by
  cases a
  cases b
  cases kind
  cases cursor
  cases attempts
  rfl

theorem Choice.sooner_eq_or (a b : Choice) : a.sooner b = a ∨ a.sooner b = b := by
  unfold sooner
  split
  · exact .inr rfl
  · exact .inl rfl
  · split
    · exact .inl rfl
    · exact .inr rfl

namespace Cursor

variable {c : Cursor} {search : ParenSearch} {v w : KindSet} {kind : Kind}

/-- The chosen kind has priority over all that are valid and accept. -/
theorem choose_eq_some_iff : (c.choose search v).kind? = some kind ↔
    v.has kind = true ∧ c.accepts search kind = true ∧
      ∀ j, v.has j = true → c.accepts search j = true → priority.idxOf kind ≤ priority.idxOf j :=
  chooseIn_eq_some_iff mem_priority

theorem choose_eq_none_iff : (c.choose search v).kind? = none ↔
    ∀ j, v.has j = true → c.accepts search j = false :=
  chooseIn_eq_none_iff mem_priority

/-- The choice leaves the cursor of the chosen rule, and the old one if there is none. -/
theorem choose_cursor : (c.choose search v).cursor = c.after search (c.choose search v).kind? :=
  chooseIn_cursor c search priority v

/-- The valid rules are tried in order up to the first that accepts. -/
theorem choose_attempts : (c.choose search v).attempts =
    ((priority.filter v.has).take ((priority.filter v.has).findIdx (c.accepts search) + 1)).map
      fun kind => ⟨kind, c.accepts search kind⟩ :=
  chooseIn_attempts c search priority v

/-- The choice among two sets is the sooner of the two choices. -/
theorem choose_union : (c.choose search (v.union w)).kind? =
    ((c.choose search v).sooner (c.choose search w)).kind? := by
  unfold Choice.sooner
  split
  · next none =>
    -- nothing valid in `v` accepts, so only the kinds of `w` count
    rw [choose_eq_none_iff] at none
    cases found : (c.choose search w).kind? with
    | none =>
      rw [choose_eq_none_iff] at found ⊢
      intro j has
      rw [KindSet.has_union, Bool.or_eq_true] at has
      exact has.elim (none j) (found j)
    | some k =>
      rw [choose_eq_some_iff] at found ⊢
      refine ⟨by rw [KindSet.has_union, found.1, Bool.or_true], found.2.1, fun j has accepted => ?_⟩
      rw [KindSet.has_union, Bool.or_eq_true] at has
      rcases has with left | right
      · rw [none j left] at accepted
        cases accepted
      · exact found.2.2 j right accepted
  · next k found none =>
    rw [found]
    rw [choose_eq_none_iff] at none
    rw [choose_eq_some_iff] at found ⊢
    refine ⟨by rw [KindSet.has_union, found.1, Bool.true_or], found.2.1, fun j has accepted => ?_⟩
    rw [KindSet.has_union, Bool.or_eq_true] at has
    rcases has with left | right
    · exact found.2.2 j left accepted
    · rw [none j right] at accepted
      cases accepted
  · next j k first second =>
    have winner : ∀ kind, (v.union w).has kind = true → c.accepts search kind = true →
        priority.idxOf kind ≤ priority.idxOf j → priority.idxOf kind ≤ priority.idxOf k →
        (c.choose search (v.union w)).kind? = some kind := by
      intro kind has accepted left right
      rw [choose_eq_some_iff] at first second ⊢
      refine ⟨has, accepted, fun other member good => ?_⟩
      rw [KindSet.has_union, Bool.or_eq_true] at member
      rcases member with inV | inW
      · exact left.trans (first.2.2 other inV good)
      · exact right.trans (second.2.2 other inW good)
    have memberV := choose_eq_some_iff.1 first
    have memberW := choose_eq_some_iff.1 second
    split
    · next before =>
      rw [first]
      exact winner j (by rw [KindSet.has_union, memberV.1, Bool.true_or]) memberV.2.1 le_rfl before
    · next behind =>
      rw [second]
      exact winner k (by rw [KindSet.has_union, memberW.1, Bool.or_true]) memberW.2.1 (by omega) le_rfl

/-- A choice sees the kinds in a set and what each rule comes to, not the bits of the set and not
how a rule gets there. -/
theorem choose_congr {other : ParenSearch} (members : ∀ kind, v.has kind = w.has kind)
    (outcomes : ∀ kind : Kind, (kind.row search).attempt c = (kind.row other).attempt c) :
    c.choose search v = c.choose other w := by
  have valid : v.has = w.has := funext members
  have verdicts : c.accepts search = c.accepts other := by
    funext kind
    rw [← attempt_accepted, outcomes kind, attempt_accepted]
  have kinds : (c.choose search v).kind? = (c.choose other w).kind? := by
    rw [← chooseIn_priority, ← chooseIn_priority, chooseIn_kind?, chooseIn_kind?, valid, verdicts]
  apply Choice.eq_of_parts kinds
  · rw [choose_cursor, choose_cursor, kinds]
    cases (c.choose other w).kind? with
    | none => rfl
    | some kind => exact congrArg Outcome.cursor (outcomes kind)
  · rw [choose_attempts, choose_attempts, valid, verdicts]

/-- Among fewer kinds the winner of a choice still wins, as long as it may. -/
theorem choose_narrow (chosen : (c.choose search v).kind? = some kind) (kept : w.has kind = true)
    (fewer : ∀ j, w.has j = true → v.has j = true) : (c.choose search w).kind? = some kind := by
  rw [choose_eq_some_iff] at chosen ⊢
  obtain ⟨-, accepted, least⟩ := chosen
  exact ⟨kept, accepted, fun j has good => least j (fewer j has) good⟩

/-- With one valid kind there is one attempt. -/
theorem choose_of_attempts : (c.choose search (.of kind)).attempts = [⟨kind, c.accepts search kind⟩] := by
  have alone : priority.filter (KindSet.of kind).has = [kind] := by cases kind <;> rfl
  rw [choose_attempts, alone, List.take_succ_cons, List.take_nil]
  rfl

/-- A choice is by priority among the valid kinds. Over a union it is the sooner of the two choices,
with its cursor; a smaller set that keeps the chosen kind keeps the choice; a choice without a kind
leaves the cursor as it was; sets that differ in bits without a kind give the same choice; and the
attempts are the valid kinds in order up to the first that accepts, each with the verdict that its
rule gives from the cursor, and that it has when it is tried alone. -/
theorem choose_is_by_priority (c : Cursor) (search : ParenSearch) (v w : KindSet) :
    ((c.choose search (v.union w)).kind? = ((c.choose search v).sooner (c.choose search w)).kind? ∧
      (c.choose search (v.union w)).cursor = ((c.choose search v).sooner (c.choose search w)).cursor) ∧
    (∀ kind, (c.choose search v).kind? = some kind → w.has kind = true →
      (∀ j, w.has j = true → v.has j = true) →
      (c.choose search w).kind? = some kind ∧ (c.choose search w).cursor = (c.choose search v).cursor) ∧
    ((c.choose search v).kind? = none → (c.choose search v).cursor = c) ∧
    (v.truncate = w.truncate → c.choose search v = c.choose search w) ∧
    (c.choose search v).attempts =
      ((priority.filter v.has).take ((priority.filter v.has).findIdx (c.accepts search) + 1)).map
        (fun kind => ⟨kind, c.accepts search kind⟩) ∧
    ∀ kind, (c.choose search (.of kind)).attempts = [⟨kind, c.accepts search kind⟩] := by
  refine ⟨⟨choose_union, ?_⟩, ?_, ?_, ?_, choose_attempts, fun _ => choose_of_attempts⟩
  · rw [choose_cursor, choose_union]
    rcases Choice.sooner_eq_or (c.choose search v) (c.choose search w) with first | second
    · rw [first, choose_cursor]
    · rw [second, choose_cursor]
  · intro kind chosen kept fewer
    have narrowed := choose_narrow chosen kept fewer
    exact ⟨narrowed, by rw [choose_cursor, choose_cursor, narrowed, chosen]⟩
  · intro none
    rw [choose_cursor, none]
    rfl
  · intro known
    refine choose_congr (fun kind => ?_) (fun _ => rfl)
    rw [← KindSet.has_truncate v, known, KindSet.has_truncate]

/-- A gap in front of a declaration: with all eight bits set the gap is chosen, and with its own bit
alone just the same; a set without it leaves the cursor. -/
theorem choose_is_by_priority_gap :
    ((fresh (Script.ofText " f()\x7b") 0).choose .byByte ⟨0xFF⟩).kind? = some .juxtaposition ∧
    ((fresh (Script.ofText " f()\x7b") 0).choose .byByte (.of .juxtaposition)).kind? = some .juxtaposition ∧
    (fresh (Script.ofText " f()\x7b") 0).choose .byByte ⟨0xFF⟩ =
      (fresh (Script.ofText " f()\x7b") 0).choose .byByte .all ∧
    ((fresh (Script.ofText " f()\x7b") 0).choose .byByte (.of .lineBreak)).kind? = none ∧
    ((fresh (Script.ofText " f()\x7b") 0).choose .byByte (.of .lineBreak)).cursor =
      fresh (Script.ofText " f()\x7b") 0 := by
  have chosen : ((fresh (Script.ofText " f()\x7b") 0).choose .byByte ⟨0xFF⟩).kind? = some .juxtaposition := by
    decide +kernel
  have none : ((fresh (Script.ofText " f()\x7b") 0).choose .byByte (.of .lineBreak)).kind? = none := by
    decide +kernel
  obtain ⟨-, narrow, -⟩ := choose_is_by_priority (fresh (Script.ofText " f()\x7b") 0) .byByte ⟨0xFF⟩
    (.of .juxtaposition)
  obtain ⟨-, -, -, unknown, -⟩ := choose_is_by_priority (fresh (Script.ofText " f()\x7b") 0) .byByte ⟨0xFF⟩ .all
  obtain ⟨-, -, untouched, -⟩ := choose_is_by_priority (fresh (Script.ofText " f()\x7b") 0) .byByte
    (.of .lineBreak) .all
  have fewer : ∀ j, (KindSet.of .juxtaposition).has j = true → KindSet.has ⟨0xFF⟩ j = true := by
    intro j _
    cases j <;> rfl
  exact ⟨chosen, (narrow _ chosen rfl fewer).1, unknown rfl, none, untouched none⟩

end Cursor

end HotkeyLex
