import HotkeyLex.Proofs.Rivalry

/-!
# Text in front of a cursor

Nothing that lies in front of a cursor has a part in what a rule or a choice says: cursors with the
same rest come to the same verdicts and read equally far, in whatever scripts they stand and
whatever tokens they build. If they build corresponding tokens too (`Displaced`), then the tokens
stay at the distance of the two places.

So text put in front of a script moves every token by the bytes of that text. It does not even
matter that a byte order mark may then no longer be the first character: no token begins there.
-/

namespace HotkeyLex

/-! ## Corresponding offsets and cursors -/

/-- Two offsets that lie equally far behind `m` and `n`. -/
def Apart (m n : Nat) (x y : UInt32) : Prop := ∃ k, x.toNat = m + k ∧ y.toNat = n + k

namespace Cursor

/-- Two cursors with one rest that build corresponding tokens. -/
structure Displaced (m n : Nat) (c d : Cursor) : Prop where
  rest : ∃ before other rest beyond, c.Between before rest beyond ∧ d.Between other rest beyond
  pos : Apart m n c.pos d.pos
  start : Apart m n c.start d.start
  mark : Option.Rel (Apart m n) c.mark d.mark
  taken : c.taken = d.taken

namespace Displaced

variable {m n : Nat} {c d : Cursor}

theorem idle (h : Displaced m n c d) : (!c.taken && c.mark.isNone) = (!d.taken && d.mark.isNone) := by
  have mark := h.mark
  rw [h.taken]
  generalize c.mark = first, d.mark = second at mark ⊢
  cases mark with
  | none => rfl
  | some _ => rfl

/-- The token after corresponding moves. -/
theorem movedTo (h : Displaced m n c d) (step : Step) {p q : UInt32} (there : Apart m n p q)
    (rest : ∃ before other rest beyond, (c.movedTo step p).Between before rest beyond ∧
      (d.movedTo step q).Between other rest beyond) :
    Displaced m n (c.movedTo step p) (d.movedTo step q) := by
  cases step with
  | take => exact ⟨rest, there, h.start, h.mark, rfl⟩
  | skip =>
    simp only [Cursor.movedTo, h.idle] at rest ⊢
    split at rest
    · next idle =>
      simp only [if_pos idle]
      exact ⟨rest, there, there, h.mark, h.taken⟩
    · next busy =>
      simp only [if_neg busy]
      exact ⟨rest, there, h.start, h.mark, h.taken⟩

/-- Passing a character keeps the distance of two cursors. -/
theorem pass (h : Displaced m n c d) (step : Step) : Displaced m n (c.pass step) (d.pass step) := by
  obtain ⟨before, other, rest, beyond, first, second⟩ := h.rest
  cases rest with
  | nil =>
    rw [first.pass_nil, second.pass_nil]
    exact h
  | cons ch rest =>
    have next : Apart m n c.nextPos d.nextPos := by
      obtain ⟨k, left, right⟩ := h.pos
      have firstPos := first.pos
      have secondPos := second.pos
      refine ⟨k + ch.utf8Size, ?_, ?_⟩
      · rw [first.toNat_nextPos, byteSize_append, byteSize_cons, byteSize_nil]
        omega
      · rw [second.toNat_nextPos, byteSize_append, byteSize_cons, byteSize_nil]
        omega
    have places := And.intro (first.pass step) (second.pass step)
    rw [first.pass_eq, second.pass_eq] at places ⊢
    exact h.movedTo step next ⟨_, _, _, _, places⟩

theorem marked (h : Displaced m n c d) : Displaced m n c.marked d.marked := by
  obtain ⟨before, other, rest, beyond, first, second⟩ := h.rest
  exact ⟨⟨before, other, rest, beyond, first.of_place rfl rfl, second.of_place rfl rfl⟩, h.pos, h.start,
    .some h.pos, h.taken⟩

end Displaced

/-- The next byte is one and the same, also where the script ends. -/
theorem likeness_displaced (m n : Nat) : FullLikeness (Displaced m n) Never := by
  have base : Likeness (Displaced m n) Never := {
    look := by
      rintro c d ⟨⟨before, other, rest, beyond, first, second⟩, -⟩
      rw [plain_look, plain_look, first.byteAt, second.byteAt]
    atEnd := by
      rintro c d ⟨⟨before, other, rest, beyond, first, second⟩, -⟩
      rw [Bool.eq_iff_iff, first.atEnd_iff, second.atEnd_iff]
    progress := by
      intro a b c d start stop
      obtain ⟨i, ha, hc⟩ := start.pos
      obtain ⟨j, hb, hd⟩ := stop.pos
      rw [UInt32.lt_iff_toNat_lt, UInt32.lt_iff_toNat_lt]
      omega
    pass := fun like step _ => like.pass step
    marked := Displaced.marked
    ahead := fun _ => nofun
    strays := fun _ _ _ => nofun
    lost_pass := nofun
    lost_marked := nofun }
  apply base.full
  · rintro c d ⟨⟨before, other, rest, beyond, first, second⟩, -⟩
    exact ⟨first.toParenByByte_eq, second.toParenByByte_eq⟩
  · exact nofun

/-- Fresh cursors in front of the same rest are displaced as their offsets are. -/
theorem displaced_fresh {s t : Script} {p q : UInt32} {m n : Nat} {before other rest beyond : List Char}
    (first : (fresh s p).Between before rest beyond) (second : (fresh t q).Between other rest beyond)
    (there : Apart m n p q) : Displaced m n (fresh s p) (fresh t q) :=
  ⟨⟨before, other, rest, beyond, first, second⟩, there, there, .none, rfl⟩

/-! ## Any tokens under construction -/

section

variable {before other rest beyond : List Char} {c d : Cursor}

theorem samePlace_fresh (c : Cursor) : SamePlace c (fresh c.script c.pos) := ⟨rfl, rfl⟩

/-- Cursors in front of the same rest see the same text from there on. -/
theorem Between.displaced (first : c.Between before rest beyond) (second : d.Between other rest beyond) :
    Displaced c.pos.toNat d.pos.toNat (fresh c.script c.pos) (fresh d.script d.pos) :=
  displaced_fresh (first.of_place rfl rfl) (second.of_place rfl rfl) ⟨0, rfl, rfl⟩

/-- Cursors with one rest come to one verdict and read equally far. -/
theorem Between.rule_eq (first : c.Between before rest beyond) (second : d.Between other rest beyond)
    (search : ParenSearch) (kind : Kind) :
    (kind.rule search c).accepted = (kind.rule search d).accepted ∧
      Apart c.pos.toNat d.pos.toNat (kind.rule search c).cursor.pos (kind.rule search d).cursor.pos := by
  obtain ⟨here, start⟩ := likeness_samePlace.rule_alike c.samePlace_fresh search kind
  obtain ⟨there, stop⟩ := likeness_samePlace.rule_alike d.samePlace_fresh search kind
  obtain ⟨verdict, displaced⟩ := (likeness_displaced _ _).rule_alike (first.displaced second) search kind
  rw [here, there, start.pos, stop.pos]
  exact ⟨verdict, displaced.pos⟩

/-- In front of the same rest the same is chosen, and both cursors go the same way. -/
theorem Between.choose_eq (first : c.Between before rest beyond) (second : d.Between other rest beyond)
    (search : ParenSearch) (valid : KindSet) :
    (c.choose search valid).kind? = (d.choose search valid).kind? ∧
      (c.choose search valid).attempts = (d.choose search valid).attempts ∧
      Apart c.pos.toNat d.pos.toNat (c.choose search valid).cursor.pos (d.choose search valid).cursor.pos := by
  have start := likeness_samePlace.choose_alike c.samePlace_fresh search valid
  have stop := likeness_samePlace.choose_alike d.samePlace_fresh search valid
  have displaced := (likeness_displaced _ _).choose_alike (first.displaced second) search valid
  rw [start.kind?, stop.kind?, start.attempts, stop.attempts, start.cursor.pos, stop.cursor.pos]
  exact ⟨displaced.kind?, displaced.attempts, displaced.cursor.pos⟩

end

end Cursor

/-! ## Text in front of a script -/

/-- The same token so many bytes further on. -/
structure Token.MovedBy (n : Nat) (t u : Token) : Prop where
  kind : t.kind = u.kind
  start : t.span.start.toNat + n = u.span.start.toNat
  stop : t.span.stop.toNat + n = u.span.stop.toNat

/-- Tokens of cursors at a distance are at that distance. -/
theorem Cursor.Displaced.token {n : Nat} {v w : Choice} (h : ChoiceLike (Displaced n 0) v w) :
    Option.Rel (Token.MovedBy n) w.token? v.token? := by
  have stop : Apart n 0 v.cursor.span.stop w.cursor.span.stop := by
    have mark := h.cursor.mark
    simp only [Cursor.span]
    generalize v.cursor.mark = first, w.cursor.mark = second at mark ⊢
    cases mark with
    | none => exact h.cursor.pos
    | some there => exact there
  obtain ⟨j, firstStart, secondStart⟩ := h.cursor.start
  obtain ⟨k, firstStop, secondStop⟩ := stop
  simp only [Choice.token?, h.kind?]
  cases w.kind? with
  | none => exact .none
  | some kind =>
    refine .some ⟨rfl, ?_, ?_⟩
    · simp only [Cursor.span]
      omega
    · simp only
      omega

/-- No token begins with a character outside ASCII. -/
theorem Cursor.choose_eq_none_of_wide {c : Cursor} (wide : 0x80 ≤ c.look.toNat) (search : ParenSearch)
    (valid : KindSet) : (c.choose search valid).kind? = none := by
  have gap : c.gapEnd = c.look := gapEnd_eq_look (by simp [isBlank, ne_of_wide wide])
  have space : c.spaceEnd = c.look := by
    rw [← gap]
    apply spaceEnd_eq_gapEnd
    · rw [gap]
      exact ne_of_wide wide (by decide)
    · rw [gap]
      exact ne_of_wide wide (by decide)
  rw [choose_eq_none_iff]
  intro kind _
  rw [Bool.eq_false_iff]
  intro accepted
  have needs := Kind.needs_of_rule accepted
  cases kind <;>
    simp [Kind.Needs, gap, space, ne_of_wide wide, isBlank, isWordChar_wide wide] at needs

namespace Script

theorem tokenAt?_of_isPosition {s : Script} {offset : UInt32} (position : s.isPosition offset = true)
    (valid : KindSet) :
    s.tokenAt? offset valid = ((Cursor.fresh s offset).choose .byByte valid).token? := by
  rw [tokenAt?, choiceAt?, Cursor.at?, if_pos position]
  rfl

theorem tokenAt?_of_not_isPosition {s : Script} {offset : UInt32} (outside : s.isPosition offset = false)
    (valid : KindSet) : s.tokenAt? offset valid = none := by
  rw [tokenAt?, choiceAt?, Cursor.at?, if_neg (by simp [outside])]
  rfl

variable {front text : List Char} {o q : UInt32}

/-- Text in front moves boundaries along. -/
theorem isBoundary_append (fits : byteSize (front ++ text) < UInt32.size)
    (there : q.toNat = byteSize front + o.toNat) :
    (ofText (String.ofList (front ++ text))).isBoundary q = (ofText (String.ofList text)).isBoundary o := by
  have small : byteSize text < UInt32.size := by
    rw [byteSize_append] at fits
    omega
  have size := toNat_size_ofText fits
  have shorter := toNat_size_ofText small
  have inside : (q ≤ (ofText (String.ofList (front ++ text))).size) = (o ≤ (ofText (String.ofList text)).size) := by
    rw [UInt32.le_iff_toNat_le, UInt32.le_iff_toNat_le, size, shorter, there, byteSize_append,
      Nat.add_le_add_iff_left]
  simp only [isBoundary, byteAt, byteOf_ofText, inside, there, getD_encoded_append]

/-- A byte order mark is at most the first character of the text in front. -/
theorem bodyStart_le (some : front ≠ []) :
    (ofText (String.ofList (front ++ text))).bodyStart.toNat ≤ byteSize front := by
  by_cases marked : hasMark (String.ofList (front ++ text)).toUTF8 = true
  · obtain ⟨body, whole⟩ := (hasMark_iff _).1 marked
    obtain ⟨first, others, rfl⟩ := List.exists_cons_of_ne_nil some
    obtain ⟨rfl, -⟩ := List.cons.inj whole
    simp only [ofText, if_pos marked]
    exact Nat.le_add_right 3 _
  · simp only [ofText, if_neg marked]
    exact Nat.zero_le _

/-- A boundary that is no position lies in front of a byte order mark. -/
theorem wide_of_not_isPosition {before rest : List Char} (split : text = before ++ rest)
    (pos : o.toNat = byteSize before) (boundary : (ofText (String.ofList text)).isBoundary o = true)
    (outside : (ofText (String.ofList text)).isPosition o = false) :
    ∃ mark body, rest = mark :: body ∧ 0x80 ≤ mark.toNat := by
  rw [isPosition, boundary, Bool.and_true, decide_eq_false_iff_not, UInt32.le_iff_toNat_le] at outside
  by_cases marked : hasMark (String.ofList text).toUTF8 = true
  · obtain ⟨body, whole⟩ := (hasMark_iff text).1 marked
    simp only [ofText, if_pos marked] at outside
    rw [split] at whole
    cases before with
    | nil => exact ⟨_, body, whole, by decide⟩
    | cons first others =>
      obtain ⟨rfl, -⟩ := List.cons.inj whole
      rw [pos] at outside
      exact absurd (Nat.le_add_right 3 _) outside
  · simp only [ofText, if_neg marked] at outside
    exact absurd (Nat.zero_le _) outside

/-- A cursor at a boundary of the text has the same rest behind the longer front. -/
theorem between_append (fits : byteSize (front ++ text) < UInt32.size) (there : q.toNat = byteSize front + o.toNat)
    (boundary : (ofText (String.ofList text)).isBoundary o = true) : ∃ before rest, text = before ++ rest ∧
      (Cursor.fresh (ofText (String.ofList text)) o).Between before rest [] ∧
      (Cursor.fresh (ofText (String.ofList (front ++ text))) q).Between (front ++ before) rest [] := by
  have small : (String.ofList text).utf8ByteSize < UInt32.size := by
    rw [byteSize_append] at fits
    rw [utf8ByteSize_ofList]
    omega
  obtain ⟨before, rest, split, first⟩ :=
    Cursor.exists_between_ofText small (c := Cursor.fresh (ofText (String.ofList text)) o) rfl boundary
  rw [String.toList_ofList] at split
  have pos : o.toNat = byteSize before := first.pos
  refine ⟨before, rest, split, first, ?_⟩
  apply Cursor.between_ofText
  · rwa [List.append_assoc, ← split]
  · rw [List.append_assoc, ← split]
    rfl
  · change q.toNat = _
    rw [byteSize_append]
    omega

/-- Text in front moves tokens along. -/
theorem tokenAt?_append (fits : byteSize (front ++ text) < UInt32.size) (there : q.toNat = byteSize front + o.toNat)
    (valid : KindSet) : Option.Rel (Token.MovedBy (byteSize front)) ((ofText (String.ofList text)).tokenAt? o valid)
      ((ofText (String.ofList (front ++ text))).tokenAt? q valid) := by
  by_cases empty : front = []
  · subst empty
    have same : q = o := by
      rw [← UInt32.toNat_inj, there, byteSize_nil, Nat.zero_add]
    rw [List.nil_append, same]
    cases (ofText (String.ofList text)).tokenAt? o valid with
    | none => exact .none
    | some token => exact .some ⟨rfl, rfl, rfl⟩
  have boundaries := isBoundary_append fits there
  cases boundary : (ofText (String.ofList text)).isBoundary o with
  | false =>
    rw [boundary] at boundaries
    rw [tokenAt?_of_not_isPosition (by rw [isPosition, boundary, Bool.and_false]),
      tokenAt?_of_not_isPosition (by rw [isPosition, boundaries, Bool.and_false])]
    exact .none
  | true =>
    have behind := @bodyStart_le front text empty
    have position : (ofText (String.ofList (front ++ text))).isPosition q = true := by
      rw [isPosition, boundaries, boundary, Bool.and_true, decide_eq_true_eq, UInt32.le_iff_toNat_le]
      omega
    obtain ⟨before, rest, split, first, second⟩ := between_append fits there boundary
    rw [tokenAt?_of_isPosition position]
    cases inside : (ofText (String.ofList text)).isPosition o with
    | true =>
      rw [tokenAt?_of_isPosition inside]
      apply Cursor.Displaced.token
      apply (Cursor.likeness_displaced _ _).choose_alike
      exact Cursor.displaced_fresh second first ⟨o.toNat, there, (Nat.zero_add _).symm⟩
    | false =>
      obtain ⟨mark, body, rfl, wide⟩ := wide_of_not_isPosition split first.pos boundary inside
      rw [tokenAt?_of_not_isPosition inside, Choice.token?,
        Cursor.choose_eq_none_of_wide (by rwa [second.look_cons])]
      exact .none

end Script

/-- What stands in front of a cursor is never looked at. Cursors with the same rest, in any scripts and
with any tokens under construction, come to the same verdicts and choices and read equally far. So
text in front of a script moves all its tokens by the bytes of that text: an offset has a token
exactly if the offset moved along has one, of the same kind and with both ends moved. -/
theorem choice_ignores_text_in_front (search : ParenSearch) :
    (∀ {before other rest beyond : List Char} {c d : Cursor},
      c.Between before rest beyond → d.Between other rest beyond →
      (∀ kind : Kind, (kind.rule search c).accepted = (kind.rule search d).accepted ∧
        Apart c.pos.toNat d.pos.toNat (kind.rule search c).cursor.pos (kind.rule search d).cursor.pos) ∧
      ∀ valid : KindSet, (c.choose search valid).kind? = (d.choose search valid).kind? ∧
        (c.choose search valid).attempts = (d.choose search valid).attempts ∧
        Apart c.pos.toNat d.pos.toNat (c.choose search valid).cursor.pos (d.choose search valid).cursor.pos) ∧
    ∀ (front text : String) (offset : UInt32) (valid : KindSet), (front ++ text).utf8ByteSize ≤ 0xFFFFFFFF →
      front.utf8ByteSize + offset.toNat ≤ 0xFFFFFFFF →
      Option.Rel (Token.MovedBy front.utf8ByteSize) ((Script.ofText text).tokenAt? offset valid)
        ((Script.ofText (front ++ text)).tokenAt? (front.utf8ByteSize.toUInt32 + offset) valid) := by
  refine ⟨fun first second => ⟨first.rule_eq second search, first.choose_eq second search⟩, ?_⟩
  intro front text offset valid fits room
  obtain ⟨front, rfl⟩ := front.exists_eq_ofList
  obtain ⟨text, rfl⟩ := text.exists_eq_ofList
  rw [← String.ofList_append, utf8ByteSize_ofList] at fits
  rw [utf8ByteSize_ofList] at room ⊢
  rw [← String.ofList_append]
  apply Script.tokenAt?_append (Nat.lt_succ_of_le fits)
  rw [UInt32.toNat_add]
  change (byteSize front % 4294967296 + offset.toNat) % 4294967296 = _
  omega

/-- An omitted argument with and without a byte order mark in front of the script, and a gap in front of
a comma behind two different texts. -/
theorem choice_ignores_text_in_front_marked :
    (Script.ofText "f(a, , c)").tokenAt? 5 .all = some ⟨.omitted, 5, 5⟩ ∧
    Option.Rel (Token.MovedBy 3) ((Script.ofText "f(a, , c)").tokenAt? 5 .all)
      ((Script.ofText ("\ufeff" ++ "f(a, , c)")).tokenAt? (3 + 5) .all) ∧
    (Cursor.choose ⟨Script.ofText "x ,", 1, 0, some 0, true⟩ .byByte .all).kind? =
      (Cursor.choose ⟨Script.ofText "é? ,", 3, 2, none, false⟩ .byByte .all).kind? := by
  have found : (Script.ofText "f(a, , c)").tokenAt? 5 .all = some ⟨.omitted, 5, 5⟩ := by decide +kernel
  obtain ⟨cursors, scripts⟩ := choice_ignores_text_in_front .byByte
  have first : Cursor.Between ⟨Script.ofText "x ,", 1, 0, some 0, true⟩ ['x'] [' ', ','] [] :=
    Cursor.between_ofText (by decide) rfl rfl
  have second : Cursor.Between ⟨Script.ofText "é? ,", 3, 2, none, false⟩ ['é', '?'] [' ', ','] [] :=
    Cursor.between_ofText (by decide) rfl rfl
  exact ⟨found, scripts "\ufeff" "f(a, , c)" 5 .all (by decide) (by decide), ((cursors first second).2 .all).1⟩

end HotkeyLex
