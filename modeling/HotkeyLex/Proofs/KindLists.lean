import HotkeyLex.KindList
import HotkeyLex.Proofs.Sweep
import HotkeyLex.Proofs.Words
import Mathlib.Data.List.DropRight
import Mathlib.Data.List.Forall2
import Mathlib.Data.Set.List

/-!
# What a list of kinds describes

The meaning of a list without the way it is read (`Describes`): the word `all`, or the kinds whose names
stand between its commas (`Lists`), or the first of these that names no kind.

A list is cut, trimmed and read name by name, and each step keeps concatenations: two lists with a comma
between them describe the union of their sets (`ofList_comma`). Only the names count in a set, neither
their order nor their number, so lists whose pieces name the same kinds describe the same set
(`Reshaped.ofList_eq`). The word `all` is no name of a kind; it does not compose, and no list of names
becomes it by accident.
-/

namespace HotkeyLex

/-! ## Names between commas -/

/-- The word `all` in any mixture of cases. -/
def IsAll (list : String) : Prop := list.toLower = "all"

/-- The texts between the commas of a list. -/
structure SplitsInto (list : String) (parts : List String) : Prop where
  nonempty : parts ≠ []
  apart : ∀ part ∈ parts, ',' ∉ part.toList
  joined : ",".intercalate parts = list

/-- Nothing but white characters. -/
def AllWhite (text : String) : Prop := ∀ ch ∈ text.toList, isWhite ch = true

instance (text : String) : Decidable (AllWhite text) :=
  decidable_of_iff (text.toList.all isWhite = true) List.all_eq_true

/-- A text and what is left of it without the white characters around it. -/
structure TrimsTo (part core : String) : Prop where
  within : ∃ front back, AllWhite front ∧ AllWhite back ∧ part = front ++ core ++ back
  begins : ∀ ch ∈ core.toList.head?, isWhite ch = false
  ends : ∀ ch ∈ core.toList.getLast?, isWhite ch = false

/-- The names that stand between the commas of a list. Where nothing is left there is no name. -/
def Lists (list : String) (names : List String) : Prop :=
  ∃ parts cores, SplitsInto list parts ∧ List.Forall₂ TrimsTo parts cores ∧ names = cores.filter (· ≠ "")

/-- Some kind has this name. -/
def IsKindName (name : String) : Prop := ∃ kind : Kind, kind.name = name

/-- The set of exactly the kinds with a property, without bits that belong to no kind. -/
structure KindSet.Collects (set : KindSet) (p : Kind → Prop) : Prop where
  has_iff : ∀ kind, set.has kind = true ↔ p kind
  known : set.truncate = set

/-- The set that a list describes, or the first name in it that belongs to no kind. -/
inductive Describes (list : String) : Except UnknownKind KindSet → Prop where
  | all {set : KindSet} (whole : IsAll list) (every : set.Collects fun _ => True) : Describes list (.ok set)
  | kinds {names : List String} {set : KindSet} (part : ¬ IsAll list) (lists : Lists list names)
      (known : ∀ name ∈ names, IsKindName name) (exactly : set.Collects (·.name ∈ names)) :
      Describes list (.ok set)
  | unknown {front back : List String} {name : String} (part : ¬ IsAll list)
      (lists : Lists list (front ++ name :: back)) (known : ∀ other ∈ front, IsKindName other)
      (first : ¬ IsKindName name) : Describes list (.error ⟨name⟩)

/-- The union of two sets, or the first error. -/
def unionOf : Except UnknownKind KindSet → Except UnknownKind KindSet → Except UnknownKind KindSet
  | .ok a, .ok b => .ok (a.union b)
  | .error cause, _ => .error cause
  | .ok _, .error cause => .error cause

/-- The same pieces in another order or more than once, among empty ones, or with white characters around
them. -/
inductive Reshaped : List String → List String → Prop where
  | reordered {parts others : List String} (perm : parts.Perm others) : Reshaped parts others
  | repeated {part : String} {parts : List String} (member : part ∈ parts) : Reshaped parts (part :: parts)
  | empty {parts : List String} : Reshaped parts ("" :: parts)
  | padded {front part back : String} {parts : List String} (before : AllWhite front) (behind : AllWhite back) :
      Reshaped (part :: parts) ((front ++ part ++ back) :: parts)
  | symm {parts others : List String} (back : Reshaped parts others) : Reshaped others parts
  | trans {parts others more : List String} (first : Reshaped parts others) (second : Reshaped others more) :
      Reshaped parts more

/-! ## Cutting -/

/-- A character that is no separator goes to the first piece. -/
theorem pieces_cons_of_ne {sep ch : Char} (other : ch ≠ sep) (text : List Char) :
    ∃ piece rest, pieces sep text = piece :: rest ∧ pieces sep (ch :: text) = (ch :: piece) :: rest := by
  induction text generalizing ch with
  | nil => exact ⟨[], [], rfl, by simp [pieces, other]⟩
  | cons next text ih =>
    by_cases cut : next = sep
    · exact ⟨[], pieces sep text, by simp [pieces, cut], by simp [pieces, cut, other]⟩
    · obtain ⟨piece, rest, -, split⟩ := ih cut
      refine ⟨next :: piece, rest, split, ?_⟩
      rw [pieces, split]
      simp [other]

/-- The texts between the separators are those that the library finds. -/
theorem pieces_eq_splitOn (sep : Char) (text : List Char) : pieces sep text = text.splitOn sep := by
  induction text with
  | nil => rfl
  | cons ch text ih =>
    rw [List.splitOn, List.splitOnP_cons_eq_if_modifyHead, ← List.splitOn, ← ih]
    by_cases cut : ch = sep
    · simp [pieces, cut]
    · obtain ⟨piece, rest, split, longer⟩ := pieces_cons_of_ne cut text
      simp [longer, split, cut]

theorem notMem_pieces (sep : Char) (text : List Char) : ∀ piece ∈ pieces sep text, sep ∉ piece := by
  induction text with
  | nil => simp [pieces]
  | cons ch text ih =>
    by_cases cut : ch = sep
    · simpa [pieces, cut] using ih
    · obtain ⟨piece, rest, split, longer⟩ := pieces_cons_of_ne cut text
      rw [split] at ih
      rw [longer]
      simpa [Ne.symm cut] using ih

/-- The pieces are the only way to cut a list at its commas. -/
theorem splitsInto_iff {list : String} {parts : List String} :
    SplitsInto list parts ↔ (pieces ',' list.toList).map String.ofList = parts := by
  have comma : ",".toList = [','] := rfl
  constructor
  · rintro ⟨nonempty, apart, rfl⟩
    have split := List.splitOn_intercalate ',' (List.forall_mem_map.2 apart) (by simpa using nonempty)
    rw [String.toList_intercalate, comma, pieces_eq_splitOn, split, List.map_map]
    simp [Function.comp_def]
  · rintro rfl
    refine ⟨?_, ?_, ?_⟩
    · rw [pieces_eq_splitOn]
      simp
    · simpa using notMem_pieces ',' list.toList
    · rw [← String.toList_inj, String.toList_intercalate, comma, List.map_map]
      simp [Function.comp_def, pieces_eq_splitOn, List.intercalate_splitOn]

theorem exists_splitsInto (list : String) : ∃ parts, SplitsInto list parts := ⟨_, splitsInto_iff.2 rfl⟩

/-! ## Trimming -/

/-- A front part in the class is dropped whole, and no more where the rest begins outside of it. -/
theorem dropWhile_front {p : Char → Bool} {front : List Char} (before : ∀ ch ∈ front, p ch = true) {rest : List Char}
    (stops : ∀ ch ∈ rest.head?, p ch = false) : (front ++ rest).dropWhile p = rest := by
  rw [List.dropWhile_append_of_pos before]
  cases rest with
  | nil => rfl
  | cons ch rest => exact List.dropWhile_cons_of_neg (by simp [stops ch rfl])

/-- What is left of a text that ends between two blank ones. -/
theorem trimWhite_around {front core back : List Char} (before : ∀ ch ∈ front, isWhite ch = true)
    (behind : ∀ ch ∈ back, isWhite ch = true) (begins : ∀ ch ∈ core.head?, isWhite ch = false)
    (ends : ∀ ch ∈ core.getLast?, isWhite ch = false) : trimWhite (front ++ core ++ back) = core := by
  have backward : ∀ ch ∈ back.reverse, isWhite ch = true := by simpa using behind
  cases core with
  | nil =>
    have blank : ∀ ch ∈ front ++ back, isWhite ch = true := by
      simpa [or_imp, forall_and] using ⟨before, behind⟩
    have left : (front ++ back ++ []).dropWhile isWhite = [] := dropWhile_front blank (by simp)
    rw [List.append_nil] at left ⊢
    rw [trimWhite, left]
    rfl
  | cons ch core =>
    have left : (front ++ (ch :: core ++ back)).dropWhile isWhite = ch :: core ++ back := dropWhile_front before begins
    have right : (back.reverse ++ (ch :: core).reverse).dropWhile isWhite = (ch :: core).reverse :=
      dropWhile_front backward (by rwa [List.head?_reverse])
    rw [trimWhite, List.append_assoc, left, List.reverse_append, right, List.reverse_reverse]

theorem trimsTo_self {core : String} (solid : ∀ ch ∈ core.toList, isWhite ch = false) : TrimsTo core core where
  within := ⟨"", "", by simp [AllWhite], by simp [AllWhite], by simp⟩
  begins ch first := solid ch (List.mem_of_mem_head? first)
  ends ch last := solid ch (List.mem_of_getLast? last)

/-- Trimming takes white characters from both ends and nothing else. -/
theorem trimsTo_trimmedPiece (part : String) : TrimsTo part (trimmedPiece part.toList) := by
  obtain ⟨text, rfl⟩ := part.exists_eq_ofList
  rw [String.toList_ofList, trimmedPiece]
  -- the white characters in front and then those behind
  have left : text.takeWhile isWhite ++ text.dropWhile isWhite = text := List.takeWhile_append_dropWhile
  have right : trimWhite text ++ (text.dropWhile isWhite).rtakeWhile isWhite = text.dropWhile isWhite :=
    List.rdropWhile_append_rtakeWhile ..
  refine ⟨⟨String.ofList (text.takeWhile isWhite), String.ofList ((text.dropWhile isWhite).rtakeWhile isWhite),
    ?_, ?_, ?_⟩, ?_, ?_⟩
  · intro ch member
    rw [String.toList_ofList] at member
    exact List.mem_takeWhile_imp member
  · intro ch member
    rw [String.toList_ofList] at member
    exact List.mem_rtakeWhile_imp member
  · rw [← String.ofList_append, ← String.ofList_append, List.append_assoc, right, left]
  · intro ch member
    rw [String.toList_ofList] at member
    have first : ch ∈ (text.dropWhile isWhite).head? := by
      rw [← right]
      exact List.mem_head?_append_of_mem_head? member
    have stops := List.head?_dropWhile_not isWhite text
    rw [Option.mem_def.1 first] at stops
    simpa using stops
  · intro ch member
    rw [String.toList_ofList] at member
    obtain ⟨nonempty, rfl⟩ := List.mem_getLast?_eq_getLast member
    exact Bool.eq_false_iff.2 (List.rdropWhile_last_not isWhite (text.dropWhile isWhite) nonempty)

theorem trimsTo_iff {part core : String} : TrimsTo part core ↔ trimmedPiece part.toList = core := by
  constructor
  · rintro ⟨⟨front, back, before, behind, rfl⟩, begins, ends⟩
    rw [trimmedPiece, String.toList_append, String.toList_append, trimWhite_around before behind begins ends,
      String.ofList_toList]
  · rintro rfl
    exact trimsTo_trimmedPiece part

/-! ## The names in a list -/

/-- The names that some pieces leave. -/
def namesOf (parts : List String) : List String :=
  (parts.map fun part => trimmedPiece part.toList).filter (· ≠ "")

theorem listedNames_of_splitsInto {list : String} {parts : List String} (splits : SplitsInto list parts) :
    listedNames list = namesOf parts := by
  rw [← splitsInto_iff.1 splits, namesOf, List.map_map, listedNames]
  simp [Function.comp_def]

/-- The names that stand in a list are found by cutting and trimming. -/
theorem lists_iff {list : String} {names : List String} : Lists list names ↔ listedNames list = names := by
  constructor
  · rintro ⟨parts, cores, splits, trims, rfl⟩
    have same : parts.map (fun part => trimmedPiece part.toList) = cores := by
      rw [← List.forall₂_eq_eq_eq, List.forall₂_map_left_iff]
      exact trims.imp fun part core => trimsTo_iff.1
    rw [listedNames_of_splitsInto splits, namesOf, same]
  · rintro rfl
    obtain ⟨parts, splits⟩ := exists_splitsInto list
    refine ⟨parts, _, splits, ?_, listedNames_of_splitsInto splits⟩
    rw [List.forall₂_map_right_iff]
    exact List.forall₂_same.2 fun part _ => trimsTo_trimmedPiece part

theorem splitsInto_self {list : String} (apart : ',' ∉ list.toList) : SplitsInto list [list] where
  nonempty := List.cons_ne_nil list []
  apart := by simpa using apart
  joined := String.intercalate_singleton

/-- A name is what is left of a piece, unless nothing is left. -/
theorem mem_namesOf {parts : List String} {name : String} :
    name ∈ namesOf parts ↔ (∃ part ∈ parts, trimmedPiece part.toList = name) ∧ name ≠ "" := by
  simp [namesOf]

/-! ## The word for every kind -/

theorem toList_toLower (text : String) : text.toLower.toList = text.toList.map Char.toLower := String.toList_map

/-- The word is compared letter by letter without regard to case. -/
theorem sameWord_all_iff {list : String} : sameWord list "all" = true ↔ IsAll list := by
  rw [sameWord, beq_iff_eq, IsAll, ← String.toList_inj, toList_toLower]
  rfl

instance (list : String) : Decidable (IsAll list) := decidable_of_iff _ sameWord_all_iff

/-- No kind is named by the word for all of them. -/
theorem not_isAll_name (kind : Kind) : ¬ IsAll kind.name := by
  cases kind <;> decide

/-- What stands in the word is one of its three letters, up to case. -/
theorem IsAll.toLower_mem {list : String} (whole : IsAll list) {ch : Char} (member : ch ∈ list.toList) :
    ch.toLower ∈ ['a', 'l', 'l'] := by
  have lower : list.toList.map Char.toLower = "all".toList := by
    rw [← toList_toLower, whole]
  have letter : ch.toLower ∈ list.toList.map Char.toLower := List.mem_map_of_mem member
  rwa [lower] at letter

theorem not_isAll_of_comma {list : String} (comma : ',' ∈ list.toList) : ¬ IsAll list :=
  fun whole => absurd (whole.toLower_mem comma) (by decide)

/-- Letters change case, white characters do not. -/
theorem isWhite_toLower (ch : Char) : isWhite ch.toLower = isWhite ch := by
  have ascii : ∀ n : Fin 128, isWhite (Char.ofNat n).toLower = isWhite (Char.ofNat n) := by decide +kernel
  by_cases wide : 0x80 ≤ ch.toNat
  · rw [toLower_wide wide]
  · have near := ascii ⟨ch.toNat, by omega⟩
    rwa [Char.ofNat_toNat] at near

theorem IsAll.solid {list : String} (whole : IsAll list) (ch : Char) (member : ch ∈ list.toList) :
    isWhite ch = false := by
  have letters : ∀ letter ∈ ['a', 'l', 'l'], isWhite letter = false := by simp [isWhite, whiteRanges]
  rw [← isWhite_toLower]
  exact letters _ (whole.toLower_mem member)

/-- The word is its only piece, and trimming does not change it. -/
theorem IsAll.mem_listedNames {list : String} (whole : IsAll list) : list ∈ listedNames list := by
  have alone := splitsInto_self fun comma => not_isAll_of_comma comma whole
  have trims := trimsTo_self whole.solid
  rw [listedNames_of_splitsInto alone]
  refine mem_namesOf.2 ⟨⟨list, List.mem_singleton_self list, trimsTo_iff.1 trims⟩, ?_⟩
  rintro rfl
  exact absurd whole (by decide)

/-- A list of names of kinds is not the word by accident. -/
theorem not_isAll_of_known {list : String} (known : ∀ name ∈ listedNames list, IsKindName name) : ¬ IsAll list := by
  intro whole
  obtain ⟨kind, same⟩ := known list whole.mem_listedNames
  exact not_isAll_name kind (same ▸ whole)

/-! ## Sets by their members -/

namespace KindSet

section

variable {a b : KindSet} {p q : Kind → Prop}

theorem Collects.congr (h : a.Collects p) (same : ∀ kind, p kind ↔ q kind) : a.Collects q :=
  ⟨fun kind => (h.has_iff kind).trans (same kind), h.known⟩

/-- The union has the kinds of both sets, and no other bits. -/
theorem Collects.union (left : a.Collects p) (right : b.Collects q) :
    (a.union b).Collects fun kind => p kind ∨ q kind where
  has_iff kind := by rw [has_union, Bool.or_eq_true, left.has_iff, right.has_iff]
  known := by
    have bits := congrArg (·.bits.toNat) left.known
    have bits' := congrArg (·.bits.toNat) right.known
    simp only [truncate, inter, UInt8.toNat_and] at bits bits'
    rw [truncate, inter, KindSet.union, mk.injEq, ← UInt8.toNat_inj, UInt8.toNat_and, UInt8.toNat_or,
      Nat.and_or_distrib_right, bits, bits']

/-- A set of kinds has no bits above those of the kinds. -/
theorem testBit_of_known (known : a.truncate = a) {i : Nat} (large : 6 ≤ i) : a.bits.toNat.testBit i = false := by
  rw [← known, truncate, inter, UInt8.toNat_and, Nat.testBit_and]
  have none : all.bits.toNat.testBit i = false := by
    have mask : all.bits.toNat = 2 ^ 6 - 1 := rfl
    rw [mask, Nat.testBit_two_pow_sub_one, decide_eq_false_iff_not]
    omega
  rw [none, Bool.and_false]

/-- There is one set of the kinds with a property. -/
theorem Collects.unique (left : a.Collects p) (right : b.Collects p) : a = b := by
  have same : a.bits = b.bits := by
    rw [← UInt8.toNat_inj]
    apply Nat.eq_of_testBit_eq
    intro i
    -- the lower six bits have a kind each, the others are not set
    by_cases small : i < 6
    · have numbers : ∀ i : Fin 6, (Kind.all[i.val]).index = i.val := by decide
      have number : (Kind.all[i]).index = i := numbers ⟨i, small⟩
      rw [← number, ← has_eq_testBit, ← has_eq_testBit, Bool.eq_iff_iff, left.has_iff, right.has_iff]
    · rw [testBit_of_known left.known (by omega), testBit_of_known right.known (by omega)]
  cases a
  cases b
  simpa using same

end

theorem collects_empty : empty.Collects fun _ => False where
  has_iff kind := by cases kind <;> decide
  known := rfl

theorem collects_all : all.Collects fun _ => True where
  has_iff kind := by cases kind <;> decide
  known := rfl

theorem collects_of (kind : Kind) : (of kind).Collects (kind = ·) where
  has_iff other := by rw [has_of, decide_eq_true_iff]
  known := by cases kind <;> rfl

/-- Kinds are added one by one to those collected before. -/
theorem collects_foldl {set : KindSet} {p : Kind → Prop} (start : set.Collects p) (kinds : List Kind) :
    (kinds.foldl (fun set kind => set.union (of kind)) set).Collects fun kind => p kind ∨ kind ∈ kinds := by
  induction kinds generalizing set p with
  | nil => exact start.congr fun kind => by simp
  | cons first kinds ih =>
    refine (ih (start.union (collects_of first))).congr fun kind => ?_
    rw [or_assoc, List.mem_cons, eq_comm]

/-- The set of a list of kinds has the kinds of the list. -/
theorem collects_ofKinds (kinds : List Kind) : (ofKinds kinds).Collects (· ∈ kinds) :=
  (collects_foldl collects_empty kinds).congr fun _ => by rw [false_or]

/-- The set of a concatenation is the union of the sets. -/
theorem ofKinds_append (front back : List Kind) : ofKinds (front ++ back) = (ofKinds front).union (ofKinds back) := by
  have joined := (collects_ofKinds front).union (collects_ofKinds back)
  exact (collects_ofKinds (front ++ back)).unique (joined.congr fun kind => List.mem_append.symm)

end KindSet

/-! ## Names one by one -/

theorem ofName_name (kind : Kind) : Kind.ofName kind.name = .ok kind := by
  cases kind <;> rfl

/-- What names no kind is the error itself. -/
theorem ofName_unknown {name : String} (unknown : ¬ IsKindName name) : Kind.ofName name = .error ⟨name⟩ := by
  have none : Kind.all.find? (·.name == name) = none :=
    List.find?_eq_none.2 fun kind _ same => unknown ⟨kind, eq_of_beq same⟩
  rw [Kind.ofName, none]

theorem mapM_ofName_name (kinds : List Kind) : (kinds.map Kind.name).mapM Kind.ofName = .ok kinds := by
  induction kinds with
  | nil => rfl
  | cons kind kinds ih =>
    rw [List.map_cons, List.mapM_cons, ofName_name, ih]
    rfl

/-- Names of kinds are the names of a list of kinds. -/
theorem exists_kinds {names : List String} (known : ∀ name ∈ names, IsKindName name) :
    ∃ kinds : List Kind, kinds.map Kind.name = names := by
  have range : names ∈ Set.range (List.map Kind.name) := by
    rw [Set.range_list_map]
    exact known
  exact range

/-- All names belong to kinds, or there is a first one that does not. -/
theorem known_or_first (names : List String) : (∀ name ∈ names, IsKindName name) ∨
    ∃ front name back, names = front ++ name :: back ∧ (∀ other ∈ front, IsKindName other) ∧ ¬ IsKindName name := by
  induction names with
  | nil => exact .inl fun _ none => absurd none List.not_mem_nil
  | cons name names ih =>
    by_cases known : IsKindName name
    · rcases ih with others | ⟨front, other, back, rfl, others, unknown⟩
      · exact .inl (List.forall_mem_cons.2 ⟨known, others⟩)
      · exact .inr ⟨name :: front, other, back, rfl, List.forall_mem_cons.2 ⟨known, others⟩, unknown⟩
    · exact .inr ⟨[], name, names, rfl, fun _ none => absurd none List.not_mem_nil, known⟩

namespace KindSet

/-- Names are read from left to right, so the first error of the front wins. -/
theorem ofNames_append (front back : List String) :
    ofNames (front ++ back) = unionOf (ofNames front) (ofNames back) := by
  rw [ofNames, ofNames, ofNames, List.mapM_append]
  cases front.mapM Kind.ofName with
  | error cause => rfl
  | ok left =>
    cases back.mapM Kind.ofName with
    | error cause => rfl
    | ok right => exact congrArg Except.ok (ofKinds_append left right)

/-- Names that are all known make the set of their kinds. -/
theorem ofNames_known {names : List String} (known : ∀ name ∈ names, IsKindName name) :
    ∃ set, ofNames names = .ok set ∧ set.Collects (·.name ∈ names) := by
  obtain ⟨kinds, rfl⟩ := exists_kinds known
  refine ⟨ofKinds kinds, ?_, (collects_ofKinds kinds).congr fun kind => ?_⟩
  · rw [ofNames, mapM_ofName_name]
    rfl
  · exact (List.mem_map_of_injective fun _ _ => Kind.name_inj).symm

/-- The first name that is not known is the error, whatever comes behind it. -/
theorem ofNames_unknown {front back : List String} {name : String} (known : ∀ other ∈ front, IsKindName other)
    (first : ¬ IsKindName name) : ofNames (front ++ name :: back) = .error ⟨name⟩ := by
  obtain ⟨set, read, -⟩ := ofNames_known known
  have stops : ofNames (name :: back) = .error ⟨name⟩ := by
    rw [ofNames, List.mapM_cons, ofName_unknown first]
    rfl
  rw [ofNames_append, read, stops, unionOf]

theorem known_of_ofNames {names : List String} {set : KindSet} (read : ofNames names = .ok set) :
    ∀ name ∈ names, IsKindName name := by
  rcases known_or_first names with known | ⟨front, name, back, rfl, known, first⟩
  · exact known
  · rw [ofNames_unknown known first] at read
    cases read

/-! ## Whole lists -/

theorem ofList_of_all {list : String} (whole : IsAll list) : ofList list = .ok all := by
  rw [ofList, if_pos (sameWord_all_iff.2 whole)]

theorem ofList_of_part {list : String} (part : ¬ IsAll list) : ofList list = ofNames (listedNames list) := by
  rw [ofList, if_neg (sameWord_all_iff.not.2 part)]

/-- A list whose names are known is not the word for all kinds, and is read as the set of its names. -/
theorem ofList_of_known {list : String} {set : KindSet} (known : ∀ name ∈ listedNames list, IsKindName name)
    (exactly : set.Collects (·.name ∈ listedNames list)) : ofList list = .ok set := by
  obtain ⟨_, read, collects⟩ := ofNames_known known
  rw [ofList_of_part (not_isAll_of_known known), read, collects.unique exactly]

/-- The reader finds what a list describes. -/
theorem ofList_of_describes {list : String} {result : Except UnknownKind KindSet} (describes : Describes list result) :
    ofList list = result := by
  cases describes with
  | all whole every => rw [ofList_of_all whole, collects_all.unique every]
  | kinds _ lists known exactly =>
    obtain rfl := lists_iff.1 lists
    exact ofList_of_known known exactly
  | unknown part lists known first => rw [ofList_of_part part, lists_iff.1 lists, ofNames_unknown known first]

/-- Every list has a meaning. -/
theorem exists_describes (list : String) : ∃ result, Describes list result := by
  by_cases whole : IsAll list
  · exact ⟨_, .all whole collects_all⟩
  · rcases known_or_first (listedNames list) with known | ⟨front, name, back, same, known, first⟩
    · obtain ⟨set, -, collects⟩ := ofNames_known known
      exact ⟨_, .kinds whole (lists_iff.2 rfl) known collects⟩
    · exact ⟨_, .unknown whole (lists_iff.2 same) known first⟩

/-- A list describes one thing, and the reader finds it. -/
theorem ofList_eq_iff {list : String} {result : Except UnknownKind KindSet} :
    ofList list = result ↔ Describes list result := by
  constructor
  · rintro rfl
    obtain ⟨result, describes⟩ := exists_describes list
    rwa [ofList_of_describes describes]
  · exact ofList_of_describes

end KindSet

/-! ## Two lists -/

/-- Joining with commas keeps concatenations of lists that are not empty. -/
theorem intercalate_append {parts others : List String} (some : parts ≠ []) (more : others ≠ []) :
    ",".intercalate (parts ++ others) = ",".intercalate parts ++ "," ++ ",".intercalate others := by
  induction parts with
  | nil => exact absurd rfl some
  | cons part parts ih =>
    cases parts with
    | nil =>
      obtain ⟨other, others, rfl⟩ := List.exists_cons_of_ne_nil more
      simp
    | cons next parts =>
      have rest := ih (List.cons_ne_nil next parts)
      simp only [List.cons_append, String.intercalate_cons_cons, String.append_assoc] at rest ⊢
      rw [rest]

theorem SplitsInto.append {front back : String} {parts others : List String} (first : SplitsInto front parts)
    (second : SplitsInto back others) : SplitsInto (front ++ "," ++ back) (parts ++ others) where
  nonempty := List.append_ne_nil_of_left_ne_nil first.nonempty others
  apart := List.forall_mem_append.2 ⟨first.apart, second.apart⟩
  joined := by rw [intercalate_append first.nonempty second.nonempty, first.joined, second.joined]

/-- A comma between two lists puts their names one behind the other. -/
theorem listedNames_comma (front back : String) :
    listedNames (front ++ "," ++ back) = listedNames front ++ listedNames back := by
  obtain ⟨parts, splits⟩ := exists_splitsInto front
  obtain ⟨others, splits'⟩ := exists_splitsInto back
  rw [listedNames_of_splitsInto (splits.append splits'), listedNames_of_splitsInto splits,
    listedNames_of_splitsInto splits', namesOf, List.map_append, List.filter_append]
  rfl

/-- A comma between two lists joins their sets. The word `all` would become a name. -/
theorem ofList_comma {front back : String} (first : ¬ IsAll front) (second : ¬ IsAll back) :
    KindSet.ofList (front ++ "," ++ back) = unionOf (KindSet.ofList front) (KindSet.ofList back) := by
  have comma : ',' ∈ (front ++ "," ++ back).toList := by simp
  rw [KindSet.ofList_of_part (not_isAll_of_comma comma), listedNames_comma, KindSet.ofNames_append,
    KindSet.ofList_of_part first, KindSet.ofList_of_part second]

/-! ## Other shapes of a list -/

/-- White characters around a text make no difference to its core. -/
theorem TrimsTo.pad {front part back core : String} (trims : TrimsTo part core) (before : AllWhite front)
    (behind : AllWhite back) : TrimsTo (front ++ part ++ back) core where
  within := by
    obtain ⟨left, right, white, white', rfl⟩ := trims.within
    refine ⟨front ++ left, right ++ back, ?_, ?_, ?_⟩
    · simpa [AllWhite, or_imp, forall_and] using ⟨before, white⟩
    · simpa [AllWhite, or_imp, forall_and] using ⟨white', behind⟩
    · simp only [String.append_assoc]
  begins := trims.begins
  ends := trims.ends

/-- Another shape of the pieces leaves the same names. -/
theorem Reshaped.mem_namesOf_iff {parts others : List String} (reshaped : Reshaped parts others) (name : String) :
    name ∈ namesOf parts ↔ name ∈ namesOf others := by
  induction reshaped with
  | reordered perm => simp only [mem_namesOf, perm.mem_iff]
  | @repeated part parts member =>
    have again : part :: parts ⊆ parts := List.cons_subset.2 ⟨member, List.Subset.refl parts⟩
    have same : ∀ other, other ∈ parts ↔ other ∈ part :: parts :=
      fun other => ⟨List.mem_cons_of_mem part, fun inside => again inside⟩
    simp only [mem_namesOf, same]
  | empty => rfl
  | @padded front part back parts before behind =>
    have core := trimsTo_iff.1 ((trimsTo_trimmedPiece part).pad before behind)
    rw [namesOf, namesOf, List.map_cons, List.map_cons, core]
  | symm _ ih => exact ih.symm
  | trans _ _ ih ih' => exact ih.trans ih'

/-- Another shape of a list that is understood is understood alike. -/
theorem Reshaped.ofList_eq {list other : String} {parts others : List String} {set : KindSet}
    (reshaped : Reshaped parts others) (splits : SplitsInto list parts) (splits' : SplitsInto other others)
    (part : ¬ IsAll list) (read : KindSet.ofList list = .ok set) : KindSet.ofList other = .ok set := by
  have same : ∀ name, name ∈ listedNames list ↔ name ∈ listedNames other := by
    intro name
    rw [listedNames_of_splitsInto splits, listedNames_of_splitsInto splits']
    exact reshaped.mem_namesOf_iff name
  rw [KindSet.ofList_of_part part] at read
  have known := KindSet.known_of_ofNames read
  -- no name is read from the other list that was not read from this one, so it fails nowhere
  obtain ⟨_, again, exactly⟩ := KindSet.ofNames_known known
  rw [read, Except.ok.injEq] at again
  subst again
  exact KindSet.ofList_of_known (fun name member => known name ((same name).2 member))
    (exactly.congr fun kind => same kind.name)

/-! ## Names of a set -/

theorem trimsTo_name (kind : Kind) : TrimsTo kind.name kind.name := by
  have solid : kind.name.toList.all (!isWhite ·) = true := by cases kind <;> decide
  apply trimsTo_self
  intro ch member
  simpa using List.all_eq_true.1 solid ch member

/-- Names of kinds are trimmed already, and none is empty. -/
theorem namesOf_names (order : List Kind) : namesOf (order.map Kind.name) = order.map Kind.name := by
  have same : (fun kind : Kind => trimmedPiece kind.name.toList) = Kind.name := by
    funext kind
    exact trimsTo_iff.1 (trimsTo_name kind)
  have some : ∀ kind : Kind, kind.name ≠ "" := by
    intro kind
    cases kind <;> decide
  rw [namesOf, List.map_map, Function.comp_def, same]
  exact List.filter_eq_self.2 (List.forall_mem_map.2 fun kind _ => decide_eq_true (some kind))

/-- Names with commas between them are read back as they are. -/
theorem listedNames_names (order : List Kind) :
    listedNames (",".intercalate (order.map Kind.name)) = order.map Kind.name := by
  cases order with
  | nil => rfl
  | cons kind order =>
    have apart : ∀ kind : Kind, ',' ∉ kind.name.toList := by
      intro kind
      cases kind <;> decide
    rw [listedNames_of_splitsInto ⟨by simp, List.forall_mem_map.2 fun kind _ => apart kind, rfl⟩, namesOf_names]

/-- The names of the kinds in a set describe it in any order. -/
theorem ofList_names {set : KindSet} (known : set.truncate = set) {order : List Kind}
    (members : ∀ kind, kind ∈ order ↔ set.has kind = true) :
    KindSet.ofList (",".intercalate (order.map Kind.name)) = .ok set := by
  apply KindSet.ofList_of_known
  · rw [listedNames_names]
    exact List.forall_mem_map.2 fun kind _ => ⟨kind, rfl⟩
  · refine ⟨fun kind => ?_, known⟩
    rw [listedNames_names, ← members, List.mem_map_of_injective fun _ _ => Kind.name_inj]

/-- A list of kinds is read as what it describes. A comma between two lists is a union, a list that is
understood may be reshaped, and the names of a set describe it. -/
theorem kind_list_describes_set :
    (∀ (list : String) (result : Except UnknownKind KindSet), KindSet.ofList list = result ↔ Describes list result) ∧
    (∀ front back : String, ¬ IsAll front → ¬ IsAll back →
      KindSet.ofList (front ++ "," ++ back) = unionOf (KindSet.ofList front) (KindSet.ofList back)) ∧
    (∀ (list other : String) (parts others : List String), SplitsInto list parts → SplitsInto other others →
      Reshaped parts others → ¬ IsAll list →
      ∀ set, KindSet.ofList list = .ok set → KindSet.ofList other = .ok set) ∧
    ∀ set : KindSet, set.truncate = set → ∀ order : List Kind, (∀ kind, kind ∈ order ↔ set.has kind = true) →
      KindSet.ofList (",".intercalate (order.map Kind.name)) = .ok set := by
  refine ⟨?_, ?_, ?_, ?_⟩
  · intro list result
    exact KindSet.ofList_eq_iff
  · intro front back first second
    exact ofList_comma first second
  · intro list other parts others splits splits' reshaped part set read
    exact reshaped.ofList_eq splits splits' part read
  · intro set known order members
    exact ofList_names known members

/-- A word that became a name, two kinds in another shape of list, and their names turned around. -/
theorem kind_list_describes_set_pair :
    KindSet.ofList ("empty_arg" ++ "," ++ "all ") = .error ⟨"all"⟩ ∧
    KindSet.ofList " empty_arg ,,optional_marker,empty_arg" = .ok ⟨5⟩ ∧
    KindSet.ofList (",".intercalate ([Kind.omitted, Kind.optional].map Kind.name)) = .ok ⟨5⟩ := by
  refine ⟨?_, ?_, ?_⟩
  · rw [kind_list_describes_set.2.1 "empty_arg" "all " (by decide) (by decide)]
    decide +kernel
  · have twice : Reshaped ["optional_marker", "empty_arg"] ["empty_arg", "optional_marker", "empty_arg"] :=
      .repeated (by decide)
    have padded : Reshaped ["empty_arg", "", "optional_marker", "empty_arg"]
        [" " ++ "empty_arg" ++ " ", "", "optional_marker", "empty_arg"] := .padded (by decide) (by decide)
    have reshaped := twice.trans (.trans .empty (.trans (.reordered (.swap ..)) padded))
    exact kind_list_describes_set.2.2.1 "optional_marker,empty_arg" _ _ _ ⟨by decide, by decide, by decide +kernel⟩
      ⟨by decide, by decide, by decide +kernel⟩ reshaped (by decide) ⟨5⟩ (by decide +kernel)
  · refine kind_list_describes_set.2.2.2 ⟨5⟩ rfl [.omitted, .optional] fun kind => ?_
    cases kind <;> decide

end HotkeyLex
