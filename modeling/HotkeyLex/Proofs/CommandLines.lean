import HotkeyLex.Tool.Request
import Mathlib.Data.List.Induction
import Mathlib.Data.List.Perm.Basic
import Mathlib.Tactic.Tauto

/-!
# What a command line means

The language of command lines, without the reader's state (`Means`): the first bad argument decides, seen
from the arguments in front of it (`Offends`), then the command, then what the command lacks. A line
without a fault means its only operand, its last offset and its last list of kinds.

The reader goes through the arguments once. What it has settled is always what the arguments so far say
(`Settled`), which one argument keeps (`Settled.add_of_fine`). So the reader finds exactly what the line means
(`ofArgs_eq_iff`), and the order of the arguments counts for nothing but errors and repeated options
(`Means.perm`).
-/

namespace HotkeyLex.Tool

/-! ## Arguments -/

/-- The text has this beginning. -/
def Begins (head text : String) : Prop := ∃ rest, text = head ++ rest

/-- A file is named by what does not begin with a dash, also by nothing at all. -/
def IsOperand (text : String) : Prop := ¬ Begins "-" text

/-- Digits, possibly with one plus sign in front, that tell a number of 32 bits. -/
def SpellsOffset (text : String) (offset : UInt32) : Prop :=
  ∃ digits, (text.toList = digits ∨ text.toList = '+' :: digits) ∧ digits ≠ [] ∧
    (∀ ch ∈ digits, ch.isDigit = true) ∧ Nat.ofDigitChars 10 digits 0 = offset.toNat

/-- An argument is bad behind the arguments `earlier`. -/
inductive Offends (earlier : List String) : String → Fault → Prop where
  | offset {value : String} (astray : ∀ offset, ¬ SpellsOffset value offset) :
      Offends earlier ("--at=" ++ value) (.badOffset value)
  | kinds {list : String} {cause : UnknownKind} (unknown : KindSet.ofList list = .error cause) :
      Offends earlier ("--valid=" ++ list) (.unknownKind cause)
  | stray {text : String} (dashed : Begins "-" text) (noOffset : ¬ Begins "--at=" text)
      (noKinds : ¬ Begins "--valid=" text) : Offends earlier text (.unknownOption text)
  | second {text : String} (operand : IsOperand text) (first : ∃ other ∈ earlier, IsOperand other) :
      Offends earlier text (.unknownOption text)

/-- No argument is bad behind those in front of it. -/
def Clean (texts : List String) : Prop :=
  ∀ earlier text later, texts = earlier ++ text :: later → ∀ fault, ¬ Offends earlier text fault

/-- No argument has this beginning. -/
def Lacks (head : String) (texts : List String) : Prop := ∀ text ∈ texts, ¬ Begins head text

/-- The last argument with this beginning goes on with `rest`. -/
def LastBehind (head : String) (texts : List String) (rest : String) : Prop :=
  ∃ earlier later, texts = earlier ++ (head ++ rest) :: later ∧ Lacks head later

/-- The kinds that the last list names, and all of them without a list. -/
def Allows (texts : List String) (set : KindSet) : Prop :=
  (Lacks "--valid=" texts ∧ set = .all) ∨
    ∃ list, LastBehind "--valid=" texts list ∧ KindSet.ofList list = .ok set

/-! ## Command lines -/

/-- What a command line asks for, or what is wrong with it. -/
inductive Means : List String → Except Fault Request → Prop where
  | nothing : Means [] (.error (.missing .command))
  | badArgument {word text : String} {earlier later : List String} {fault : Fault} (fine : Clean earlier)
      (bad : Offends earlier text fault) : Means (word :: (earlier ++ text :: later)) (.error fault)
  | badCommand {word : String} {texts : List String} (fine : Clean texts)
      (other : word ∉ ["probe", "sweep", "kinds"]) : Means (word :: texts) (.error (.unknownCommand word))
  | noPath {word : String} {texts : List String} (fine : Clean texts) (reads : word ∈ ["probe", "sweep"])
      (unnamed : ∀ text ∈ texts, ¬ IsOperand text) : Means (word :: texts) (.error (.missing .path))
  | noOffset {path : String} {texts : List String} (fine : Clean texts) (named : path ∈ texts)
      (operand : IsOperand path) (lacks : Lacks "--at=" texts) :
      Means ("probe" :: texts) (.error (.missing .offset))
  | probe {path value : String} {texts : List String} {offset : UInt32} {set : KindSet} (fine : Clean texts)
      (named : path ∈ texts) (operand : IsOperand path) (last : LastBehind "--at=" texts value)
      (spelled : SpellsOffset value offset) (allowed : Allows texts set) :
      Means ("probe" :: texts) (.ok ⟨.probe path offset, set⟩)
  | sweep {path : String} {texts : List String} {set : KindSet} (fine : Clean texts) (named : path ∈ texts)
      (operand : IsOperand path) (allowed : Allows texts set) : Means ("sweep" :: texts) (.ok ⟨.sweep path, set⟩)
  | kinds {texts : List String} {set : KindSet} (fine : Clean texts) (allowed : Allows texts set) :
      Means ("kinds" :: texts) (.ok ⟨.kinds, set⟩)

/-! ## Beginnings -/

/-- Taking a beginning off leaves the rest of the text. -/
theorem isPrefixOf?_eq_some_iff {head text rest : List Char} :
    head.isPrefixOf? text = some rest ↔ text = head ++ rest := by
  induction head generalizing text with
  | nil => rw [List.isPrefixOf?, Option.some.injEq, List.nil_append]
  | cons ch head ih =>
    cases text with
    | nil => simp [List.isPrefixOf?]
    | cons first text =>
      by_cases same : ch = first
      · simp [List.isPrefixOf?, same, ih]
      · simp [List.isPrefixOf?, same, Ne.symm same]

/-- The text behind a beginning, if it has that beginning. -/
theorem after?_eq_some_iff {head text rest : String} : after? head text = some rest ↔ text = head ++ rest := by
  rw [after?, Option.map_eq_some_iff, ← String.toList_inj, String.toList_append]
  constructor
  · rintro ⟨chars, found, rfl⟩
    rw [String.toList_ofList]
    exact isPrefixOf?_eq_some_iff.1 found
  · intro same
    exact ⟨rest.toList, isPrefixOf?_eq_some_iff.2 same, String.ofList_toList⟩

theorem after?_isSome_iff {head text : String} : (after? head text).isSome = true ↔ Begins head text := by
  rw [Option.isSome_iff_exists]
  exact exists_congr fun _ => after?_eq_some_iff

theorem after?_eq_none_iff {head text : String} : after? head text = none ↔ ¬ Begins head text := by
  rw [← Option.not_isSome_iff_eq_none, after?_isSome_iff]

instance (head text : String) : Decidable (Begins head text) := decidable_of_iff _ after?_isSome_iff

theorem begins_append (head rest : String) : Begins head (head ++ rest) := ⟨rest, rfl⟩

/-- What begins with a dash makes everything that begins with it an option. -/
theorem Begins.trans {first head text : String} (begins : Begins first head) (longer : Begins head text) :
    Begins first text := by
  obtain ⟨tail, rfl⟩ := begins
  obtain ⟨rest, rfl⟩ := longer
  exact ⟨tail ++ rest, String.append_assoc ..⟩

theorem dash_offset : Begins "-" "--at=" := ⟨"-at=", rfl⟩

theorem dash_kinds : Begins "-" "--valid=" := ⟨"-valid=", rfl⟩

theorem not_begins_kinds (value : String) : ¬ Begins "--valid=" ("--at=" ++ value) := by
  rintro ⟨list, same⟩
  have lists := congrArg String.toList same
  simp at lists

theorem not_begins_offset (list : String) : ¬ Begins "--at=" ("--valid=" ++ list) := by
  rintro ⟨value, same⟩
  have lists := congrArg String.toList same
  simp at lists

/-- A list with one more entry is cut at that entry or in front of it. -/
theorem snoc_eq_split {texts earlier later : List String} {text other : String}
    (same : texts ++ [text] = earlier ++ other :: later) :
    (earlier = texts ∧ other = text ∧ later = []) ∨
      ∃ front, later = front ++ [text] ∧ texts = earlier ++ other :: front := by
  induction later using List.reverseRecOn with
  | nil =>
    obtain ⟨rfl, last⟩ := List.append_inj' same rfl
    exact .inl ⟨rfl, (List.singleton_inj.1 last).symm, rfl⟩
  | append_singleton front last _ =>
    rw [← List.cons_append, ← List.append_assoc] at same
    obtain ⟨rfl, last⟩ := List.append_inj' same rfl
    exact .inr ⟨front, by rw [last], rfl⟩

/-- A beginning is lacking if the last argument lacks it too. -/
theorem lacks_snoc {head text : String} {texts : List String} :
    Lacks head (texts ++ [text]) ↔ Lacks head texts ∧ ¬ Begins head text := by
  simp only [Lacks, List.mem_append, List.mem_singleton, or_imp, forall_and, forall_eq]

/-- One more argument is the last of its beginning, or it does not count. -/
theorem lastBehind_snoc {head text rest : String} {texts : List String} :
    LastBehind head (texts ++ [text]) rest ↔ text = head ++ rest ∨ ¬ Begins head text ∧ LastBehind head texts rest := by
  constructor
  · rintro ⟨earlier, later, same, lacks⟩
    rcases snoc_eq_split same with ⟨-, last, -⟩ | ⟨front, rfl, rfl⟩
    · exact .inl last.symm
    · obtain ⟨lacks, other⟩ := lacks_snoc.1 lacks
      exact .inr ⟨other, earlier, front, rfl, lacks⟩
  · rintro (rfl | ⟨other, earlier, later, rfl, lacks⟩)
    · exact ⟨texts, [], rfl, fun _ none => absurd none List.not_mem_nil⟩
    · refine ⟨earlier, later ++ [text], ?_, lacks_snoc.2 ⟨lacks, other⟩⟩
      rw [List.append_assoc, List.cons_append]

/-- The argument added last is the last with its beginning. -/
theorem lastBehind_self {head value rest : String} {texts : List String} :
    LastBehind head (texts ++ [head ++ value]) rest ↔ value = rest := by
  rw [lastBehind_snoc, String.append_right_inj, or_iff_left]
  exact fun ⟨other, _⟩ => other (begins_append head value)

/-- An argument with another beginning does not come last for this one. -/
theorem lastBehind_other {head text rest : String} {texts : List String} (other : ¬ Begins head text) :
    LastBehind head (texts ++ [text]) rest ↔ LastBehind head texts rest := by
  rw [lastBehind_snoc, and_iff_right other, or_iff_right]
  exact fun same => other ⟨rest, same⟩

theorem lacks_self {head value : String} {texts : List String} : ¬ Lacks head (texts ++ [head ++ value]) := by
  rw [lacks_snoc]
  exact fun ⟨_, other⟩ => other (begins_append head value)

theorem lacks_other {head text : String} {texts : List String} (other : ¬ Begins head text) :
    Lacks head (texts ++ [text]) ↔ Lacks head texts := by
  rw [lacks_snoc, and_iff_left other]

/-- A list that comes last decides which kinds are valid. -/
theorem allows_self {list : String} {texts : List String} {set : KindSet} :
    Allows (texts ++ ["--valid=" ++ list]) set ↔ KindSet.ofList list = .ok set := by
  simp only [Allows, lacks_self, false_and, false_or, lastBehind_self, exists_eq_left']

theorem allows_other {text : String} {texts : List String} {set : KindSet} (other : ¬ Begins "--valid=" text) :
    Allows (texts ++ [text]) set ↔ Allows texts set := by
  simp only [Allows, lacks_other other, lastBehind_other other]

theorem mem_operands_other {text name : String} {texts : List String} (other : ¬ IsOperand text) :
    name ∈ texts ++ [text] ∧ IsOperand name ↔ name ∈ texts ∧ IsOperand name := by
  rw [List.mem_append, List.mem_singleton, or_and_right, or_iff_left]
  rintro ⟨rfl, operand⟩
  exact other operand

/-- One argument more is clean if it is not bad behind those in front of it. -/
theorem clean_snoc {text : String} {texts : List String} :
    Clean (texts ++ [text]) ↔ Clean texts ∧ ∀ fault, ¬ Offends texts text fault := by
  constructor
  · intro clean
    refine ⟨?_, clean texts text [] rfl⟩
    rintro earlier other later rfl
    refine clean earlier other (later ++ [text]) ?_
    rw [List.append_assoc, List.cons_append]
  · rintro ⟨clean, last⟩ earlier other later same
    rcases snoc_eq_split same with ⟨rfl, rfl, -⟩ | ⟨front, -, split⟩
    · exact last
    · exact clean earlier other front split

theorem clean_nil : Clean [] := by
  intro earlier text later same
  simp at same

/-- A line is clean, or some argument is the first bad one. -/
theorem clean_or_offends (texts : List String) : Clean texts ∨
    ∃ earlier text later fault, texts = earlier ++ text :: later ∧ Clean earlier ∧ Offends earlier text fault := by
  induction texts using List.reverseRecOn with
  | nil => exact .inl clean_nil
  | append_singleton texts text ih =>
    rcases ih with clean | ⟨earlier, other, later, fault, rfl, clean, bad⟩
    · by_cases fine : ∀ fault, ¬ Offends texts text fault
      · exact .inl (clean_snoc.2 ⟨clean, fine⟩)
      · simp only [not_forall, not_not] at fine
        obtain ⟨fault, bad⟩ := fine
        exact .inr ⟨texts, text, [], fault, rfl, clean, bad⟩
    · refine .inr ⟨earlier, other, later ++ [text], fault, ?_, clean, bad⟩
      rw [List.append_assoc, List.cons_append]

/-! ## Offsets -/

/-- Digits are read from left to right, each with the weight of its place. -/
theorem digitsFrom_eq_some_iff {value n : Nat} {text : List Char} : digitsFrom value text = some n ↔
    (∀ ch ∈ text, ch.isDigit = true) ∧ Nat.ofDigitChars 10 text value = n := by
  induction text generalizing value with
  | nil => simp [digitsFrom, Nat.ofDigitChars]
  | cons ch text ih =>
    by_cases digit : ch.isDigit = true
    · simp [digitsFrom, digit, ih, Nat.ofDigitChars_cons]
    · simp [digitsFrom, digit]

theorem digits?_eq_some_iff {n : Nat} {text : List Char} : digits? text = some n ↔
    text ≠ [] ∧ (∀ ch ∈ text, ch.isDigit = true) ∧ Nat.ofDigitChars 10 text 0 = n := by
  cases text with
  | nil => simp [digits?]
  | cons ch text => simp only [digits?, digitsFrom_eq_some_iff, ne_eq, reduceCtorEq, not_false_eq_true, true_and]

/-- A number becomes an offset exactly if it is the value of one. -/
theorem fitting_eq_some_iff {n : Nat} {offset : UInt32} :
    (if n < UInt32.size then some n.toUInt32 else none) = some offset ↔ n = offset.toNat := by
  by_cases fits : n < UInt32.size
  · have value : n.toUInt32.toNat = n := UInt32.toNat_ofNat_of_lt' fits
    rw [if_pos fits, Option.some.injEq, ← UInt32.toNat_inj, value]
  · have bound := offset.toNat_lt
    have other : n ≠ offset.toNat := by
      rw [UInt32.size] at fits
      omega
    rw [if_neg fits]
    exact iff_of_false (Option.some_ne_none offset).symm other

/-- The reader of offsets accepts exactly what spells one. -/
theorem offset?_eq_some_iff {text : String} {offset : UInt32} :
    offset? text = some offset ↔ SpellsOffset text offset := by
  unfold offset?
  extract_lets unsigned
  have spelled : digits? unsigned = some offset.toNat ↔ SpellsOffset text offset := by
    rw [digits?_eq_some_iff, SpellsOffset]
    simp only [unsigned]
    split
    · next cs signed =>
      rw [signed]
      constructor
      · rintro ⟨some, digits, value⟩
        exact ⟨cs, .inr rfl, some, digits, value⟩
      · rintro ⟨_, rfl | same, some, digits, value⟩
        · exact absurd (digits '+' List.mem_cons_self) (by decide)
        · obtain ⟨-, rfl⟩ := List.cons.inj same
          exact ⟨some, digits, value⟩
    · next unsigned =>
      constructor
      · rintro ⟨some, digits, value⟩
        exact ⟨_, .inl rfl, some, digits, value⟩
      · rintro ⟨_, rfl | same, some, digits, value⟩
        · exact ⟨some, digits, value⟩
        · exact absurd same (unsigned _)
  rw [← spelled]
  cases digits? unsigned with
  | none => exact iff_of_false (Option.some_ne_none offset).symm (Option.some_ne_none _).symm
  | some n => exact fitting_eq_some_iff.trans (Option.some.injEq ..).symm.to_iff

theorem offset?_eq_none_iff {text : String} : offset? text = none ↔ ∀ offset, ¬ SpellsOffset text offset := by
  rw [Option.eq_none_iff_forall_ne_some]
  exact forall_congr' fun _ => not_congr offset?_eq_some_iff

/-! ## One argument -/

/-- The four forms of an argument. -/
inductive Form (text : String) : Argument → Prop where
  | offset {value : String} (same : text = "--at=" ++ value) : Form text (.offset value)
  | kinds {list : String} (same : text = "--valid=" ++ list) : Form text (.kinds list)
  | stray (dashed : Begins "-" text) (noOffset : ¬ Begins "--at=" text) (noKinds : ¬ Begins "--valid=" text) :
      Form text .stray
  | operand (free : IsOperand text) : Form text .operand

theorem form_ofText (text : String) : Form text (Argument.ofText text) := by
  rw [Argument.ofText]
  split
  · next value found => exact .offset (after?_eq_some_iff.1 found)
  · next noOffset =>
    split
    · next list found => exact .kinds (after?_eq_some_iff.1 found)
    · next noKinds =>
      rw [after?_eq_none_iff] at noOffset noKinds
      split
      · next dashed => exact .stray (after?_isSome_iff.1 dashed) noOffset noKinds
      · next free => exact .operand (mt after?_isSome_iff.2 free)

theorem Form.ofText_eq {text : String} {argument : Argument} (form : Form text argument) :
    Argument.ofText text = argument := by
  cases form with
  | offset same => rw [Argument.ofText, after?_eq_some_iff.2 same]
  | kinds same =>
    have noOffset := after?_eq_none_iff.2 (same ▸ not_begins_offset _)
    rw [Argument.ofText, noOffset, after?_eq_some_iff.2 same]
  | stray dashed noOffset noKinds =>
    rw [Argument.ofText, after?_eq_none_iff.2 noOffset, after?_eq_none_iff.2 noKinds]
    exact if_pos (after?_isSome_iff.2 dashed)
  | operand free =>
    have noOffset := after?_eq_none_iff.2 fun begins => free (dash_offset.trans begins)
    have noKinds := after?_eq_none_iff.2 fun begins => free (dash_kinds.trans begins)
    rw [Argument.ofText, noOffset, noKinds]
    exact if_neg (mt after?_isSome_iff.1 free)

/-! ## What the arguments so far have settled -/

/-- The settings are what the arguments say. -/
structure Settled (texts : List String) (s : Settings) : Prop where
  path : ∀ text, s.path = some text ↔ text ∈ texts ∧ IsOperand text
  offset : ∀ offset, s.offset = some offset ↔
    ∃ value, LastBehind "--at=" texts value ∧ SpellsOffset value offset
  noOffset : s.offset = none ↔ Lacks "--at=" texts
  valid : ∀ set, s.valid = set ↔ Allows texts set

namespace Settled

variable {texts : List String} {text : String} {s : Settings}

theorem initial : Settled [] .initial where
  path := by simp [Settings.initial]
  offset := by simp [Settings.initial, LastBehind]
  noOffset := by simp [Settings.initial, Lacks]
  valid := by simp [Settings.initial, Allows, Lacks, LastBehind, eq_comm]

/-- No file is named before the first operand. -/
theorem path_isNone_iff (h : Settled texts s) : s.path.isNone = true ↔ ∀ text ∈ texts, ¬ IsOperand text := by
  rw [Option.isNone_iff_eq_none, Option.eq_none_iff_forall_ne_some]
  simp only [ne_eq, h.path, not_and]

/-- A bad argument is refused with its fault. -/
theorem add_of_offends (h : Settled texts s) {fault : Fault} (bad : Offends texts text fault) :
    s.add text = .error fault := by
  cases bad with
  | offset astray =>
    rw [Settings.add, (Form.offset rfl).ofText_eq]
    simp only [offset?_eq_none_iff.2 astray]
  | kinds unknown =>
    rw [Settings.add, (Form.kinds rfl).ofText_eq]
    simp only [unknown]
  | stray dashed noOffset noKinds => rw [Settings.add, (Form.stray dashed noOffset noKinds).ofText_eq]
  | second operand first =>
    obtain ⟨other, member, also⟩ := first
    rw [Settings.add, (Form.operand operand).ofText_eq]
    exact if_neg fun unnamed => h.path_isNone_iff.1 unnamed other member also

/-- The last offset replaces those in front of it. -/
theorem withOffset (h : Settled texts s) {value : String} {offset : UInt32} (spelled : SpellsOffset value offset) :
    Settled (texts ++ ["--at=" ++ value]) { s with offset := some offset } where
  path name := by
    rw [mem_operands_other (not_not.2 (dash_offset.trans (begins_append _ _)))]
    exact h.path name
  offset number := by
    have found := offset?_eq_some_iff.2 spelled
    simp only [lastBehind_self, exists_eq_left', ← offset?_eq_some_iff, found]
  noOffset := iff_of_false (Option.some_ne_none _) lacks_self
  valid set := by
    rw [allows_other (not_begins_kinds value)]
    exact h.valid set

/-- The last list replaces those in front of it. -/
theorem withKinds (h : Settled texts s) {list : String} {valid : KindSet} (named : KindSet.ofList list = .ok valid) :
    Settled (texts ++ ["--valid=" ++ list]) { s with valid } where
  path name := by
    rw [mem_operands_other (not_not.2 (dash_kinds.trans (begins_append _ _)))]
    exact h.path name
  offset number := by
    simp only [lastBehind_other (not_begins_offset list)]
    exact h.offset number
  noOffset := by
    rw [lacks_other (not_begins_offset list)]
    exact h.noOffset
  valid set := by rw [allows_self, named, Except.ok.injEq]

/-- The only operand is the path. -/
theorem withOperand (h : Settled texts s) (free : IsOperand text) (alone : ∀ other ∈ texts, ¬ IsOperand other) :
    Settled (texts ++ [text]) { s with path := some text } where
  path name := by
    rw [Option.some.injEq, List.mem_append, List.mem_singleton]
    constructor
    · rintro rfl
      exact ⟨.inr rfl, free⟩
    · rintro ⟨member | rfl, operand⟩
      · exact absurd operand (alone name member)
      · rfl
  offset number := by
    simp only [lastBehind_other fun begins => free (dash_offset.trans begins)]
    exact h.offset number
  noOffset := by
    rw [lacks_other fun begins => free (dash_offset.trans begins)]
    exact h.noOffset
  valid set := by
    rw [allows_other fun begins => free (dash_kinds.trans begins)]
    exact h.valid set

/-- Any other argument is added to what is settled. -/
theorem add_of_fine (h : Settled texts s) (fine : ∀ fault, ¬ Offends texts text fault) :
    ∃ t, s.add text = .ok t ∧ Settled (texts ++ [text]) t := by
  have form := form_ofText text
  rw [Settings.add]
  generalize Argument.ofText text = argument at form
  cases form with
  | @offset value same =>
    subst same
    cases found : offset? value with
    | none => exact absurd (.offset (offset?_eq_none_iff.1 found)) (fine _)
    | some offset =>
      simp only [found]
      exact ⟨_, rfl, h.withOffset (offset?_eq_some_iff.1 found)⟩
  | @kinds list same =>
    subst same
    cases named : KindSet.ofList list with
    | error cause => exact absurd (.kinds named) (fine _)
    | ok valid =>
      simp only [named]
      exact ⟨_, rfl, h.withKinds named⟩
  | stray dashed noOffset noKinds => exact absurd (.stray dashed noOffset noKinds) (fine _)
  | operand free =>
    have alone : ∀ other ∈ texts, ¬ IsOperand other :=
      fun other member also => fine _ (.second free ⟨other, member, also⟩)
    simp only [h.path_isNone_iff.2 alone, if_true]
    exact ⟨_, rfl, h.withOperand free alone⟩

end Settled

/-! ## All arguments -/

/-- Arguments are read one after the other, and the first fault ends the reading. -/
theorem addAll_append (s : Settings) (front back : List String) :
    s.addAll (front ++ back) = (s.addAll front).bind (·.addAll back) := by
  induction front generalizing s with
  | nil => rfl
  | cons text front ih =>
    rw [List.cons_append, Settings.addAll, Settings.addAll]
    cases s.add text with
    | ok t => exact ih t
    | error fault => rfl

/-- A clean line is read to its end. -/
theorem addAll_of_clean {texts : List String} (clean : Clean texts) :
    ∃ s, Settings.initial.addAll texts = .ok s ∧ Settled texts s := by
  induction texts using List.reverseRecOn with
  | nil => exact ⟨.initial, rfl, .initial⟩
  | append_singleton texts text ih =>
    obtain ⟨clean, fine⟩ := clean_snoc.1 clean
    obtain ⟨s, read, settled⟩ := ih clean
    obtain ⟨t, added, next⟩ := settled.add_of_fine fine
    refine ⟨t, ?_, next⟩
    rw [addAll_append, read]
    change s.addAll [text] = .ok t
    rw [Settings.addAll, added]
    rfl

/-- The first bad argument ends the reading. -/
theorem addAll_of_offends {earlier later : List String} {text : String} {fault : Fault} (clean : Clean earlier)
    (bad : Offends earlier text fault) : Settings.initial.addAll (earlier ++ text :: later) = .error fault := by
  obtain ⟨s, read, settled⟩ := addAll_of_clean clean
  rw [addAll_append, read]
  change s.addAll (text :: later) = .error fault
  rw [Settings.addAll, settled.add_of_offends bad]

/-! ## The command -/

/-- If the arguments are read, the command decides about the rest. -/
theorem ofArgs_of_addAll {word : String} {texts : List String} {s : Settings}
    (read : Settings.initial.addAll texts = .ok s) :
    Request.ofArgs (word :: texts) = (s.command word).map (⟨·, s.valid⟩) := by
  simp only [Request.ofArgs, read]
  cases s.command word with
  | ok command => rfl
  | error fault => rfl

/-- The reader finds what a line means. -/
theorem ofArgs_of_means {args : List String} {result : Except Fault Request} (means : Means args result) :
    Request.ofArgs args = result := by
  cases means with
  | nothing => rfl
  | badArgument fine bad => rw [Request.ofArgs, addAll_of_offends fine bad]
  | badCommand fine other =>
    obtain ⟨s, read, -⟩ := addAll_of_clean fine
    simp only [List.mem_cons, List.not_mem_nil, or_false, not_or] at other
    rw [ofArgs_of_addAll read]
    simp [Settings.command, other, Except.map]
  | noPath fine reads unnamed =>
    obtain ⟨s, read, settled⟩ := addAll_of_clean fine
    have none := Option.isNone_iff_eq_none.1 (settled.path_isNone_iff.2 unnamed)
    simp only [List.mem_cons, List.not_mem_nil, or_false] at reads
    rw [ofArgs_of_addAll read]
    rcases reads with rfl | rfl
    · simp [Settings.command, none, Except.map]
    · simp [Settings.command, none, Except.map]
  | noOffset fine named operand lacks =>
    obtain ⟨s, read, settled⟩ := addAll_of_clean fine
    rw [ofArgs_of_addAll read]
    simp [Settings.command, (settled.path _).2 ⟨named, operand⟩, settled.noOffset.2 lacks, Except.map]
  | probe fine named operand last spelled allowed =>
    obtain ⟨s, read, settled⟩ := addAll_of_clean fine
    rw [ofArgs_of_addAll read]
    simp [Settings.command, (settled.path _).2 ⟨named, operand⟩, (settled.offset _).2 ⟨_, last, spelled⟩,
      (settled.valid _).2 allowed, Except.map]
  | sweep fine named operand allowed =>
    obtain ⟨s, read, settled⟩ := addAll_of_clean fine
    rw [ofArgs_of_addAll read]
    simp [Settings.command, (settled.path _).2 ⟨named, operand⟩, (settled.valid _).2 allowed, Except.map]
  | kinds fine allowed =>
    obtain ⟨s, read, settled⟩ := addAll_of_clean fine
    rw [ofArgs_of_addAll read]
    simp [Settings.command, (settled.valid _).2 allowed, Except.map]

/-- Every line has a meaning. -/
theorem exists_means (args : List String) : ∃ result, Means args result := by
  cases args with
  | nil => exact ⟨_, .nothing⟩
  | cons word texts =>
    rcases clean_or_offends texts with fine | ⟨earlier, text, later, fault, rfl, fine, bad⟩
    · obtain ⟨s, -, settled⟩ := addAll_of_clean fine
      have allowed := (settled.valid s.valid).1 rfl
      by_cases other : word ∉ ["probe", "sweep", "kinds"]
      · exact ⟨_, .badCommand fine other⟩
      · simp only [List.mem_cons, List.not_mem_nil, or_false, not_not] at other
        rcases other with rfl | rfl | rfl
        · cases path : s.path with
          | none => exact ⟨_, .noPath fine (by simp) (settled.path_isNone_iff.1 (by rw [path]; rfl))⟩
          | some path =>
            obtain ⟨named, operand⟩ := (settled.path _).1 path
            cases offset : s.offset with
            | none => exact ⟨_, .noOffset fine named operand (settled.noOffset.1 offset)⟩
            | some offset =>
              obtain ⟨value, last, spelled⟩ := (settled.offset _).1 offset
              exact ⟨_, .probe fine named operand last spelled allowed⟩
        · cases path : s.path with
          | none => exact ⟨_, .noPath fine (by simp) (settled.path_isNone_iff.1 (by rw [path]; rfl))⟩
          | some path =>
            obtain ⟨named, operand⟩ := (settled.path _).1 path
            exact ⟨_, .sweep fine named operand allowed⟩
        · exact ⟨_, .kinds fine allowed⟩
    · exact ⟨_, .badArgument fine bad⟩

/-- A line means one thing, and the reader finds it. -/
theorem ofArgs_eq_iff {args : List String} {result : Except Fault Request} :
    Request.ofArgs args = result ↔ Means args result := by
  constructor
  · rintro rfl
    obtain ⟨result, means⟩ := exists_means args
    rwa [ofArgs_of_means means]
  · exact ofArgs_of_means

/-! ## Arguments in another order -/

/-- Only a second operand is bad because of what stands in front of it. -/
theorem fine_iff {earlier : List String} {text : String} : (∀ fault, ¬ Offends earlier text fault) ↔
    (∀ fault, ¬ Offends [] text fault) ∧ ∀ other ∈ earlier, ¬ (IsOperand other ∧ IsOperand text) := by
  constructor
  · intro fine
    refine ⟨fun fault bad => ?_, fun other member both => fine _ (.second both.2 ⟨other, member, both.1⟩)⟩
    cases bad with
    | offset astray => exact fine _ (.offset astray)
    | kinds unknown => exact fine _ (.kinds unknown)
    | stray dashed noOffset noKinds => exact fine _ (.stray dashed noOffset noKinds)
    | second _ first =>
      obtain ⟨_, none, _⟩ := first
      cases none
  · rintro ⟨alone, pairs⟩ fault bad
    cases bad with
    | offset astray => exact alone _ (.offset astray)
    | kinds unknown => exact alone _ (.kinds unknown)
    | stray dashed noOffset noKinds => exact alone _ (.stray dashed noOffset noKinds)
    | second operand first =>
      obtain ⟨other, member, also⟩ := first
      exact pairs other member ⟨also, operand⟩

/-- Whether a line is clean does not depend on the order. -/
theorem clean_iff {texts : List String} : Clean texts ↔ (∀ text ∈ texts, ∀ fault, ¬ Offends [] text fault) ∧
    texts.Pairwise fun a b => ¬ (IsOperand a ∧ IsOperand b) := by
  induction texts using List.reverseRecOn with
  | nil => simp [clean_nil]
  | append_singleton texts text ih =>
    have alone : (∀ other ∈ texts ++ [text], ∀ fault, ¬ Offends [] other fault) ↔
        (∀ other ∈ texts, ∀ fault, ¬ Offends [] other fault) ∧ ∀ fault, ¬ Offends [] text fault := by
      simp only [List.mem_append, List.mem_singleton, or_imp, forall_and, forall_eq]
    have pairs : (texts ++ [text]).Pairwise (fun a b => ¬ (IsOperand a ∧ IsOperand b)) ↔
        texts.Pairwise (fun a b => ¬ (IsOperand a ∧ IsOperand b)) ∧
          ∀ other ∈ texts, ¬ (IsOperand other ∧ IsOperand text) := by
      simp only [List.pairwise_append, List.pairwise_singleton, true_and, List.mem_singleton, forall_eq]
    rw [clean_snoc, ih, fine_iff, alone, pairs]
    tauto

/-- Whether a clean line stays clean has nothing to do with the order of its arguments. -/
theorem Clean.perm {texts others : List String} (clean : Clean texts) (perm : texts.Perm others) : Clean others := by
  rw [clean_iff] at clean ⊢
  obtain ⟨alone, pairs⟩ := clean
  refine ⟨fun text member => alone text (perm.mem_iff.2 member), ?_⟩
  exact (perm.pairwise_iff fun apart both => apart both.symm).1 pairs

/-- The last argument with a beginning is the last of those with that beginning. -/
theorem lastBehind_iff {head rest : String} {texts : List String} :
    LastBehind head texts rest ↔ (texts.filter (Begins head ·)).getLast? = some (head ++ rest) := by
  induction texts using List.reverseRecOn with
  | nil => simp [LastBehind]
  | append_singleton texts text ih =>
    rw [lastBehind_snoc, List.filter_append, List.getLast?_append]
    by_cases begins : Begins head text
    · simp [begins]
    · have other : text ≠ head ++ rest := fun same => begins ⟨rest, same⟩
      simp [begins, other, ih]

/-- The same arguments in another order, with those of one beginning in the same order as before. -/
theorem LastBehind.perm {head rest : String} {texts others : List String} (last : LastBehind head texts rest)
    (kept : texts.filter (Begins head ·) = others.filter (Begins head ·)) : LastBehind head others rest := by
  rwa [lastBehind_iff, ← kept, ← lastBehind_iff]

/-- The valid kinds depend on the order of the lists alone. -/
theorem Allows.perm {texts others : List String} {set : KindSet} (allowed : Allows texts set)
    (perm : texts.Perm others)
    (kept : texts.filter (Begins "--valid=" ·) = others.filter (Begins "--valid=" ·)) : Allows others set := by
  rcases allowed with ⟨lacks, all⟩ | ⟨list, last, named⟩
  · exact .inl ⟨fun text member => lacks text (perm.mem_iff.2 member), all⟩
  · exact .inr ⟨list, last.perm kept, named⟩

/-- A line that means a request means it in any order that keeps repeated options in place. -/
theorem Means.perm {word : String} {texts others : List String} {request : Request}
    (means : Means (word :: texts) (.ok request)) (perm : texts.Perm others)
    (offsets : texts.filter (Begins "--at=" ·) = others.filter (Begins "--at=" ·))
    (kinds : texts.filter (Begins "--valid=" ·) = others.filter (Begins "--valid=" ·)) :
    Means (word :: others) (.ok request) := by
  cases means with
  | probe fine named operand last spelled allowed =>
    exact .probe (fine.perm perm) (perm.mem_iff.1 named) operand (last.perm offsets) spelled (allowed.perm perm kinds)
  | sweep fine named operand allowed =>
    exact .sweep (fine.perm perm) (perm.mem_iff.1 named) operand (allowed.perm perm kinds)
  | kinds fine allowed => exact .kinds (fine.perm perm) (allowed.perm perm kinds)

/-- A command line is read as what it means, and it asks for the same in any order of its arguments that
keeps the offsets and the lists of kinds in their orders. -/
theorem command_line_means_request :
    (∀ (args : List String) (result : Except Fault Request), Request.ofArgs args = result ↔ Means args result) ∧
    ∀ (word : String) (texts others : List String), texts.Perm others →
      texts.filter (Begins "--at=" ·) = others.filter (Begins "--at=" ·) →
      texts.filter (Begins "--valid=" ·) = others.filter (Begins "--valid=" ·) →
      ∀ request, Request.ofArgs (word :: texts) = .ok request ↔ Request.ofArgs (word :: others) = .ok request := by
  refine ⟨fun args result => ofArgs_eq_iff, fun word texts others perm offsets kinds request => ?_⟩
  rw [ofArgs_eq_iff, ofArgs_eq_iff]
  constructor
  · intro means
    exact means.perm perm offsets kinds
  · intro means
    exact means.perm perm.symm offsets.symm kinds.symm

/-- Two offsets and two lists of kinds, with the file between them and the last ones deciding. -/
theorem command_line_means_request_repeated :
    Request.ofArgs ["probe", "--at=1", "--valid=all", "", "--valid= empty_arg,", "--at=+07"] =
      .ok ⟨.probe "" 7, .of .omitted⟩ ∧
    Request.ofArgs ["probe", "--valid=all", "--valid= empty_arg,", "--at=1", "--at=+07", ""] =
      .ok ⟨.probe "" 7, .of .omitted⟩ := by
  have read : Request.ofArgs ["probe", "--at=1", "--valid=all", "", "--valid= empty_arg,", "--at=+07"] =
      .ok ⟨.probe "" 7, .of .omitted⟩ := by decide +kernel
  exact ⟨read, (command_line_means_request.2 "probe" _ _ (by decide) (by decide +kernel) (by decide +kernel) _).1 read⟩

end HotkeyLex.Tool
