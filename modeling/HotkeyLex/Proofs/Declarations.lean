import HotkeyLex.Proofs.Grammar

/-!
# Declarations

What the rule for declarations accepts, as a grammar: a name in front of a balanced parameter list, and
behind the list a block or an arrow (`BeginsDeclaration`). The name is a whole word that is neither
`static` nor reserved, or `static`, blanks and any whole word.

The rule keeps only the first characters of a name, jumps over the parameter list, and counts
parentheses in a machine word. None of this shows in its verdict: it accepts exactly what the grammar
describes, for names, gaps and lists of any length (`declaration_accepts_its_grammar`).
-/

namespace HotkeyLex

/-! ## The grammar -/

/-- The words in front of a parameter list. -/
inductive DeclaredName : List Char → List Char → Prop where
  | plain {name after : List Char} (whole : SomeRun wordChars.contains name after)
      (other : ¬ SpellsOneOf name [Vocabulary.storage]) (free : ¬ SpellsOneOf name Vocabulary.reserved) :
      DeclaredName name after
  | static {word blanks name after : List Char} (whole : SomeRun wordChars.contains word (blanks ++ name ++ after))
      (storage : SpellsOneOf word [Vocabulary.storage]) (apart : blanks ≠ [])
      (blank : ∀ ch ∈ blanks, ch ∈ blankChars) (named : SomeRun wordChars.contains name after) :
      DeclaredName (word ++ (blanks ++ name)) after

/-- A parameter list, with blanks in front of it or not. -/
inductive ParameterList : List Char → Prop where
  | list {blanks inner : List Char} (blank : ∀ ch ∈ blanks, ch ∈ blankChars) (balanced : Closes 0 inner) :
      ParameterList (blanks ++ '(' :: (inner ++ [')']))

/-- The text begins with a declaration up to its body. -/
inductive BeginsDeclaration : List Char → Prop where
  | intro {spaces name list gap body after : List Char} (front : ∀ ch ∈ spaces, ch ∈ spaceChars)
      (named : DeclaredName name (list ++ (gap ++ (body ++ after)))) (parameters : ParameterList list)
      (back : ∀ ch ∈ gap, ch ∈ spaceChars) (opens : body = ['\x7b'] ∨ body = ['=', '>']) :
      BeginsDeclaration (spaces ++ (name ++ (list ++ (gap ++ (body ++ after)))))

/-- A word of the grammar is a word of the reader. -/
theorem someRun_wordChars {run after : List Char} :
    SomeRun wordChars.contains run after ↔ SomeRun isWordChar run after := by
  rw [isWordChar_eq]

/-- A name begins with a word character. -/
theorem DeclaredName.begins {front after : List Char} (named : DeclaredName front after) :
    ∃ first tail, front = first :: tail ∧ isWordChar first = true := by
  cases named with
  | plain whole _ _ => exact (someRun_wordChars.1 whole).begins
  | static whole _ _ _ _ =>
    obtain ⟨first, tail, rfl, word⟩ := (someRun_wordChars.1 whole).begins
    exact ⟨first, _, rfl, word⟩

theorem isSpace_of_isWordChar {ch : Char} (word : isWordChar ch = true) : isSpace ch = false :=
  isSpace_eq_false (by decide) word

/-! ## One lemma for each part of the rule -/

namespace Rule

/-- The name behind `static`. -/
def nameApart (c : Cursor) : Outcome :=
  let gap := c.passBlanks .take
  if gap.accepted then
    let name := gap.cursor.passWord
    ⟨0 < name.count, name.cursor⟩
  else ⟨false, gap.cursor⟩

/-- The name, if a word character comes first. -/
def nameAhead (c : Cursor) : Outcome := if isWordChar c.look then declaredName c else ⟨false, c⟩

theorem declaredName_eq (c : Cursor) : declaredName c =
    if (c.readWord Vocabulary.nameCapacity).word.spells Vocabulary.storage then
      nameApart (c.readWord Vocabulary.nameCapacity).cursor
    else ⟨!(c.readWord Vocabulary.nameCapacity).word.isIn Vocabulary.isReservedWord,
      (c.readWord Vocabulary.nameCapacity).cursor⟩ := by
  simp only [declaredName, nameApart]

/-- A declaration is accepted if its name, its list and its body are, one behind the other. -/
theorem declaration_accepted_iff (search : ParenSearch) (c : Cursor) : (declaration search c).accepted = true ↔
    (nameAhead (c.passSpaces .skip)).accepted = true ∧
    (parameters search (nameAhead (c.passSpaces .skip)).cursor).accepted = true ∧
    (bodyFollows ((parameters search (nameAhead (c.passSpaces .skip)).cursor).cursor.passSpaces .skip)).accepted =
      true := by
  simp only [declaration, nameAhead]
  split
  · split
    · next named =>
      rw [and_iff_right named]
      split
      · next closed => rw [and_iff_right closed]
      · next unclosed => exact ⟨fun accepted => absurd accepted unclosed, fun both => both.1⟩
    · next unnamed => exact ⟨fun accepted => absurd accepted unnamed, fun both => both.1⟩
  · constructor
    · intro accepted
      cases accepted
    · rintro ⟨named, -⟩
      cases named

end Rule

namespace Cursor

/-- Behind `static` stand blanks and another word. -/
theorem recognizes_nameApart : Recognizes Rule.nameApart (Sequence (SomeRun isBlank) (SomeRun isWordChar)) :=
  (recognizes_passBlanks .take).andThen (recognizes_someRun .take isWordChar) fun _ _ => Bool.false_ne_true

section

variable {c : Cursor} {before rest beyond : List Char} (h : c.Between before rest beyond)
include h

/-- `static` is told from the whole word. -/
theorem Between.spells_storage :
    (c.readWord Vocabulary.nameCapacity).word.spells Vocabulary.storage = true ↔
      SpellsOneOf (rest.takeWhile isWordChar) [Vocabulary.storage] := by
  rw [h.readWord_word, Word.spells_ofRun_iff (by decide)]

/-- A reserved word is told from the whole word. -/
theorem Between.isIn_reserved :
    (c.readWord Vocabulary.nameCapacity).word.isIn Vocabulary.isReservedWord = true ↔
      SpellsOneOf (rest.takeWhile isWordChar) Vocabulary.reserved := by
  rw [h.readWord_word, Word.isIn_table_iff (by decide) (by decide) Vocabulary.isReservedWord_eq]

end

/-- The name that is declared is recognized with what stands in front of it. -/
theorem recognizes_nameAhead : Recognizes Rule.nameAhead DeclaredName where
  sound {c before rest beyond} h ends accepted := by
    simp only [Rule.nameAhead] at accepted ⊢
    split at accepted
    · next word =>
      obtain ⟨tail, same⟩ := h.rest_of_look ends rfl (ne_null_of (p := isWordChar) rfl word)
      have whole : SomeRun isWordChar (rest.takeWhile isWordChar) (rest.dropWhile isWordChar) := by
        refine ⟨?_, .of_takeWhile _ rest⟩
        rw [same, List.takeWhile_cons_of_pos word]
        exact List.cons_ne_nil _ _
      have read := h.readWord Vocabulary.nameCapacity
      have cut : rest = rest.takeWhile isWordChar ++ rest.dropWhile isWordChar :=
        List.takeWhile_append_dropWhile.symm
      rw [Rule.declaredName_eq] at accepted ⊢
      rw [if_pos word]
      split at accepted
      · next storage =>
        rw [if_pos storage]
        obtain ⟨_, after, behind, ⟨blanks, name, rfl, ⟨apart, run⟩, named⟩, last⟩ :=
          recognizes_nameApart.sound read ends accepted
        rw [behind] at cut whole
        rw [List.append_assoc] at last
        have blank : ∀ ch ∈ blanks, ch ∈ blankChars := fun ch member => isBlank_iff.1 (run.inside ch member)
        refine ⟨_, after, ?_, .static (someRun_wordChars.2 whole) (h.spells_storage.1 storage) apart blank
          (someRun_wordChars.2 named), last⟩
        rw [List.append_assoc]
        exact cut
      · next other =>
        rw [if_neg other]
        rw [Bool.not_eq_true', ← Bool.not_eq_true, h.isIn_reserved] at accepted
        exact ⟨_, _, cut, .plain (someRun_wordChars.2 whole) (mt h.spells_storage.2 other) accepted, read⟩
    · cases accepted
  complete {c before front after beyond} h ends named := by
    obtain ⟨first, tail, rfl, word⟩ := named.begins
    have look : c.look = first := h.look_cons
    rw [Rule.nameAhead, look, if_pos word, Rule.declaredName_eq]
    generalize first :: tail = front at h named
    cases named with
    | plain whole other free =>
      rw [someRun_wordChars] at whole
      have read := h.readWord Vocabulary.nameCapacity
      rw [whole.2.takeWhile_eq, whole.2.dropWhile_eq] at read
      rw [← whole.2.takeWhile_eq, ← h.spells_storage] at other
      rw [← whole.2.takeWhile_eq, ← h.isIn_reserved, Bool.not_eq_true, ← Bool.not_eq_true'] at free
      rw [if_neg other]
      exact ⟨free, read⟩
    | @static word blanks name _ whole storage apart blank named =>
      rw [someRun_wordChars] at whole named
      rw [List.append_assoc] at h
      have read := h.readWord Vocabulary.nameCapacity
      rw [whole.2.takeWhile_eq, whole.2.dropWhile_eq] at read
      rw [← whole.2.takeWhile_eq, ← h.spells_storage] at storage
      -- the blanks end where the name begins
      have run : SomeRun isBlank blanks (name ++ after) := by
        obtain ⟨first, tail, rfl, letter⟩ := named.begins
        have inside : ∀ ch ∈ blanks, isBlank ch = true := fun ch member => isBlank_iff.2 (blank ch member)
        exact ⟨apart, .of_cons inside (isBlank_eq_false (isSpace_of_isWordChar letter))⟩
      have apart := recognizes_nameApart.complete read ends ⟨blanks, name, rfl, run, named⟩
      rwa [if_pos storage, ← List.append_assoc]

/-- Behind an opening parenthesis, a balanced text is passed together with the parenthesis that
closes it. -/
theorem Between.closeParens {c : Cursor} {before inner after beyond : List Char}
    (h : c.Between (before ++ ['(']) (inner ++ ')' :: after) beyond) (ends : ReadsAsEnd beyond)
    (balanced : Closes 0 inner) (search : ParenSearch) : (Rule.closeParens search 1 c).accepted = true ∧
      (Rule.closeParens search 1 c).cursor.Between (before ++ '(' :: (inner ++ [')'])) after beyond := by
  rw [h.closeParens_eq ends balanced]
  rw [List.append_cons inner] at h
  have last := h.passMany (inner ++ [')']) .take
  rw [List.length_append, List.length_singleton, List.append_assoc before, List.singleton_append] at last
  exact ⟨rfl, last⟩

/-- A parameter list is recognized by its parentheses alone. -/
theorem recognizes_parameters (search : ParenSearch) :
    Recognizes (Rule.parameters search) (fun front _ => ParameterList front) where
  sound {c before rest beyond} h ends accepted := by
    obtain ⟨blanks, after, rfl, run, next⟩ := (recognizes_run .take isBlank).sound h ends rfl
    simp only [Rule.parameters] at accepted ⊢
    split at accepted
    · next opens =>
      rw [if_pos opens]
      obtain ⟨tail, rfl⟩ := next.rest_of_look ends (beq_iff_eq.1 opens) (by decide)
      have inside := next.pass .take
      obtain ⟨inner, after, rfl, balanced⟩ := (inside.closeParens_accepted_iff ends).1 accepted
      obtain ⟨-, last⟩ := inside.closeParens ends balanced search
      refine ⟨_, after, ?_, .list (fun ch member => isBlank_iff.1 (run.inside ch member)) balanced, ?_⟩
      · simp
      · rwa [List.append_assoc] at last
    · cases accepted
  complete {c before front after beyond} h ends list := by
    obtain ⟨blank, balanced⟩ := list
    next blanks inner =>
    rw [List.append_assoc, List.cons_append, List.append_assoc] at h
    have inside : ∀ ch ∈ blanks, isBlank ch = true := fun ch member => isBlank_iff.2 (blank ch member)
    have next := h.passRun (.of_cons inside rfl) .take
    have opens : (c.passBlanks .take).cursor.look = '(' := next.look_cons
    obtain ⟨accepted, last⟩ := (next.pass .take).closeParens ends balanced search
    simp only [Rule.parameters, opens, beq_self_eq_true, if_true]
    rw [List.append_assoc] at last
    exact ⟨accepted, last⟩

theorem bodyFollows_accepted_iff {c : Cursor} {before rest beyond : List Char} (h : c.Between before rest beyond)
    (ends : ReadsAsEnd beyond) : (Rule.bodyFollows c).accepted = true ↔
      ∃ body after, rest = body ++ after ∧ (body = ['\x7b'] ∨ body = ['=', '>']) := by
  constructor
  · intro accepted
    simp only [Rule.bodyFollows] at accepted
    split at accepted
    · next block =>
      obtain ⟨tail, rfl⟩ := h.rest_of_look ends (beq_iff_eq.1 block) (by decide)
      exact ⟨['\x7b'], tail, rfl, .inl rfl⟩
    · split at accepted
      · next stem =>
        obtain ⟨tail, rfl⟩ := h.rest_of_look ends (beq_iff_eq.1 stem) (by decide)
        obtain ⟨tail, rfl⟩ := (h.pass .take).rest_of_look ends (beq_iff_eq.1 accepted) (by decide)
        exact ⟨['=', '>'], tail, rfl, .inr rfl⟩
      · cases accepted
  · rintro ⟨body, after, rfl, rfl | rfl⟩
    · simp [Rule.bodyFollows, show c.look = '\x7b' from h.look_cons]
    · simp [Rule.bodyFollows, show c.look = '=' from h.look_cons,
        show (c.pass .take).look = '>' from (h.pass .take).look_cons]

/-! ## The whole rule -/

section

variable {c : Cursor} {before rest beyond : List Char} (h : c.Between before rest beyond) (ends : ReadsAsEnd beyond)
  (search : ParenSearch)
include h ends

theorem beginsDeclaration_of_accepted (accepted : (Rule.declaration search c).accepted = true) :
    BeginsDeclaration rest := by
  rw [Rule.declaration_accepted_iff] at accepted
  obtain ⟨named, listed, follows⟩ := accepted
  obtain ⟨spaces, after, rfl, front, atName⟩ := (recognizes_run .skip isSpace).sound h ends rfl
  obtain ⟨name, after, rfl, naming, atList⟩ := recognizes_nameAhead.sound atName ends named
  obtain ⟨list, after, rfl, listing, atGap⟩ := (recognizes_parameters search).sound atList ends listed
  obtain ⟨gap, after, rfl, back, atBody⟩ := (recognizes_run .skip isSpace).sound atGap ends rfl
  obtain ⟨body, after, rfl, opens⟩ := (bodyFollows_accepted_iff atBody ends).1 follows
  exact .intro (fun ch member => isSpace_iff.1 (front.inside ch member)) naming listing
    (fun ch member => isSpace_iff.1 (back.inside ch member)) opens

/-- What begins a declaration is accepted, by either search. -/
theorem accepted_of_beginsDeclaration (declares : BeginsDeclaration rest) :
    (Rule.declaration search c).accepted = true := by
  obtain ⟨front, named, listed, back, opens⟩ := declares
  next spaces name list gap body after =>
  have space {run : List Char} (listed : ∀ ch ∈ run, ch ∈ spaceChars) : ∀ ch ∈ run, isSpace ch = true :=
    fun ch member => isSpace_iff.2 (listed ch member)
  -- the runs of spaces are as long as they can be, because of what stands behind them
  have first : Longest isSpace spaces (name ++ (list ++ (gap ++ (body ++ after)))) := by
    obtain ⟨first, tail, rfl, word⟩ := named.begins
    exact .of_cons (space front) (isSpace_of_isWordChar word)
  have last : Longest isSpace gap (body ++ after) := by
    rcases opens with rfl | rfl
    · exact .of_cons (space back) rfl
    · exact .of_cons (space back) rfl
  obtain ⟨-, atName⟩ := (recognizes_run .skip isSpace).complete h ends first
  obtain ⟨named, atList⟩ := recognizes_nameAhead.complete atName ends named
  obtain ⟨listed, atGap⟩ := (recognizes_parameters search).complete atList ends listed
  obtain ⟨-, atBody⟩ := (recognizes_run .skip isSpace).complete atGap ends last
  rw [Rule.declaration_accepted_iff]
  exact ⟨named, listed, (bodyFollows_accepted_iff atBody ends).2 ⟨body, after, rfl, opens⟩⟩

end

/-- A declaration is accepted exactly where the text in front of the cursor begins with one: spaces, a
name, blanks, a parameter list of any length and nesting, spaces, and a block or an arrow. The text may
be longer than offsets can tell, if a zero byte stands where it is cut. -/
theorem declaration_accepts_its_grammar {text : String}
    (closed : text.utf8ByteSize ≤ 0xFFFFFFFF ∨ (Script.ofText text).byteAt 0xFFFFFFFF = 0) {c : Cursor}
    (script : c.script = Script.ofText text) (placed : c.script.isBoundary c.pos = true) (search : ParenSearch) :
    ∃ before rest beyond, text.toList = before ++ (rest ++ beyond) ∧ c.Between before rest beyond ∧
      ((Rule.declaration search c).accepted = true ↔ BeginsDeclaration rest) := by
  obtain ⟨before, rest, beyond, split, h, ends⟩ := exists_between_closed closed script placed
  exact ⟨before, rest, beyond, split, h, beginsDeclaration_of_accepted h ends search,
    accepted_of_beginsDeclaration h ends search⟩

/-- A static method whose name is a reserved word, behind an accented letter, with a nested list that
holds a null character, and an arrow on the next line. -/
theorem declaration_accepts_its_grammar_static : ∃ before rest beyond,
    "é Static  If (a:=(1), \x00ñ)\n=> 1".toList = before ++ (rest ++ beyond) ∧ 2 = byteSize before ∧
    BeginsDeclaration rest := by
  have boundary : (Script.ofText "é Static  If (a:=(1), \x00ñ)\n=> 1").isBoundary 2 = true := by decide +kernel
  have accepted : (Rule.declaration .byByte
      ⟨Script.ofText "é Static  If (a:=(1), \x00ñ)\n=> 1", 2, 0, some 2, true⟩).accepted = true := by
    decide +kernel
  obtain ⟨before, rest, beyond, split, h, reads⟩ := declaration_accepts_its_grammar (.inl (by decide))
    (c := ⟨Script.ofText "é Static  If (a:=(1), \x00ñ)\n=> 1", 2, 0, some 2, true⟩) rfl boundary .byByte
  exact ⟨before, rest, beyond, split, h.pos, reads.1 accepted⟩

end Cursor

end HotkeyLex
