import HotkeyLex.Proofs.Horizon
import HotkeyLex.Proofs.Parameters

/-!
# Null characters

A null character inside a script is read like the end of one. To see how far this goes, a text is
compared with the same text that goes on behind a null character. A cursor in the shorter one and its
copy in the longer one see the same characters up to there, and only one of them is at its end
(`Stopped`). This is a weak likeness, so most rules do not tell the two apart.

An optional mark does: nothing but spaces may follow it at the end of a script, but not at a null
character. So does a declaration, whose parameter list may go on behind the null character. The list
is then the only thing that can differ, since a list that closes in the shorter text closes at the
same place in the longer one (`listAndBody_of_closes`).
-/

namespace HotkeyLex

namespace Cursor

/-- A question mark and nothing but spaces behind it. -/
def EndsInMark (text : List Char) : Prop := ∃ spaces, text = '?' :: spaces ∧ ∀ ch ∈ spaces, isSpace ch = true

/-- One cursor stands in the text `a`. The other is its copy in the script `s`, where `a` goes on with a
null character and `t`. -/
structure Stopped (a t beyond : List Char) (s : Script) (c d : Cursor) : Prop where
  same : d = c.inScript s
  place : ∃ before rest, a = before ++ rest ∧ c.Between before rest [] ∧
    d.Between before (rest ++ '\x00' :: t) beyond

variable {a t beyond : List Char} {s : Script} {c d : Cursor}

namespace Stopped

theorem pos (h : Stopped a t beyond s c d) : d.pos = c.pos := by rw [h.same, inScript_pos]

/-- A cut of the shorter text where the cursor stands is the place of both. -/
theorem between (h : Stopped a t beyond s c d) {front tail : List Char} (here : c.Between front tail [])
    (whole : a = front ++ tail) : d.Between front (tail ++ '\x00' :: t) beyond := by
  obtain ⟨before, rest, same, first, second⟩ := h.place
  have size : byteSize before = byteSize front := by rw [← first.pos, here.pos]
  obtain ⟨rfl, rfl⟩ := split_unique (same.symm.trans whole) size
  exact second

/-- What is read at the end of the one script is the null character of the other. -/
theorem look (h : Stopped a t beyond s c d) : c.look = d.look := by
  obtain ⟨before, rest, -, first, second⟩ := h.place
  cases rest with
  | nil => rw [first.look_nil, second.look_cons]
  | cons ch rest => rw [first.look_cons, second.look_cons]

/-- The copy has at least the null character in front of it. -/
theorem atEnd_copy (h : Stopped a t beyond s c d) : d.atEnd = false := by
  obtain ⟨before, rest, -, -, second⟩ := h.place
  cases rest with
  | nil => exact second.atEnd_cons
  | cons ch rest => exact second.atEnd_cons

theorem look_of_atEnd (h : Stopped a t beyond s c d) (done : c.atEnd = true) : c.look = '\x00' := by
  obtain ⟨before, rest, -, first, -⟩ := h.place
  rw [first.atEnd_iff] at done
  subst done
  exact first.look_nil

theorem more_of_look (h : Stopped a t beyond s c d) (solid : c.look ≠ '\x00') : c.atEnd = false := by
  rw [Bool.eq_false_iff]
  intro done
  exact solid (h.look_of_atEnd done)

theorem pass (h : Stopped a t beyond s c d) (more : c.atEnd = false) (step : Step) :
    Stopped a t beyond s (c.pass step) (d.pass step) := by
  obtain ⟨before, rest, rfl, first, second⟩ := h.place
  cases rest with
  | nil =>
    rw [first.atEnd_nil] at more
    cases more
  | cons ch rest =>
    exact ⟨first.pass_inScript second h.same step, before ++ [ch], rest, by simp, first.pass step, second.pass step⟩

theorem marked (h : Stopped a t beyond s c d) : Stopped a t beyond s c.marked d.marked := by
  obtain ⟨before, rest, whole, first, second⟩ := h.place
  refine ⟨by rw [h.same, inScript_marked], before, rest, whole, ?_, ?_⟩
  · exact first.of_place rfl rfl
  · exact second.of_place rfl rfl

/-- Any part of the shorter text is passed by both, null characters in it or not. -/
theorem passMany (h : Stopped a t beyond s c d) {before run rest : List Char}
    (here : c.Between before (run ++ rest) []) (step : Step) :
    Stopped a t beyond s (c.passMany step run.length) (d.passMany step run.length) := by
  induction run generalizing c d before with
  | nil => exact h
  | cons ch run ih => exact ih (h.pass here.atEnd_cons step) (here.pass step)

end Stopped

/-- A script that goes on behind a null character is like one that ends there, wherever another character is
seen. -/
theorem weakLikeness_stopped : WeakLikeness (Stopped a t beyond s) Never where
  look like := by rw [like.look]
  atEnd like solid := by rw [like.more_of_look solid, like.atEnd_copy]
  progress := by
    intro a b c d first last
    rw [first.pos, last.pos]
  pass like solid step _ := like.pass (like.more_of_look solid) step
  marked := Stopped.marked
  ahead _ := nofun
  strays _ _ _ _ := nofun
  lost_pass := nofun
  lost_marked := nofun

/-- Up to the opening parenthesis a declaration is read like anything else. -/
theorem WeakLikeness.heading {R : Cursor → Cursor → Prop} {Lost : Cursor → Prop} (h : WeakLikeness R Lost)
    (like : ¬ Lost c → R c d) : Abreast R Lost c (Rule.heading c) (Rule.heading d) := by
  have start := h.passSpaces like .skip
  have name := h.declaredName start.like
  have gap := h.passBlanks name.like .take
  refine start.trans ?_
  unfold Rule.heading
  refine .ite (fun near => ?_) (name.trans ?_) (.here start.like fun _ => rfl)
  · rw [coarse_isWordChar.eq (h.look (start.like near))]
  refine .ite name.verdict (gap.trans ?_) name.ended
  refine .ite_of (fun near => ?_) (fun opens => ?_) fun _ => .here gap.like fun _ => rfl
  · rw [(show Firm '(' by decide).beq_eq (h.look (gap.like near))]
  · exact h.pass_abreast gap.like (ne_null_of (p := (· == '(')) rfl opens) .take

namespace Stopped

/-- The rules that turn away from a null character, and do not ask for the end. -/
theorem rule (h : Stopped a t beyond s c d) (search : ParenSearch) {kind : Kind} (other : kind ≠ .optional)
    (last : kind ≠ .declaration) : (kind.rule search c).accepted = (kind.rule search d).accepted ∧
      Stopped a t beyond s (kind.rule search c).cursor (kind.rule search d).cursor := by
  cases kind with
  | optional => exact absurd rfl other
  | declaration => exact absurd rfl last
  | omitted => exact (weakLikeness_stopped.omitted fun _ => h).alike id
  | juxtaposition => exact (weakLikeness_stopped.juxtaposition fun _ => h).alike id
  | sectionOpen => exact (weakLikeness_stopped.sectionOpen fun _ => h).alike id
  | lineBreak => exact (weakLikeness_stopped.lineBreak fun _ => h).alike id

/-! ## The optional mark -/

/-- An optional mark comes to the end if only space is behind it. -/
theorem atEnd_behind_mark {before rest : List Char} (here : c.Between before rest []) (mark : c.look = '?') :
    ((c.pass .take).passSpaces .skip).atEnd = true ↔ EndsInMark rest := by
  obtain ⟨tail, rfl⟩ := here.rest_of_look rfl mark (by decide)
  have behind := (here.pass .take).passWhile .skip isSpace
  rw [show (c.pass .take).passSpaces .skip = ((c.pass .take).passWhile .skip isSpace).cursor from rfl,
    behind.atEnd_iff, List.dropWhile_eq_nil_iff]
  constructor
  · intro spaces
    exact ⟨tail, rfl, spaces⟩
  · rintro ⟨spaces, same, all⟩
    obtain ⟨-, rfl⟩ := List.cons.inj same
    exact all

/-- In front of a null character an optional mark is accepted as it is at the end of the text, except where only
space stands between. -/
theorem optional (h : Stopped a t beyond s c d) {before rest : List Char} (here : c.Between before rest []) :
    (Rule.optional d).accepted = true ↔ (Rule.optional c).accepted = true ∧ ¬ EndsInMark rest := by
  unfold Rule.optional
  rw [← h.look]
  split
  · next mark =>
    rw [beq_iff_eq] at mark
    have solid : c.look ≠ '\x00' := by
      rw [mark]
      decide
    have next := h.pass (h.more_of_look solid) .take
    have behind := (weakLikeness_stopped.passSpaces (fun _ => next) .skip).like id
    rw [← atEnd_behind_mark here mark]
    simp only [behind.atEnd_copy, ← behind.look, Bool.false_or, Bool.or_eq_true, Bool.not_eq_true]
    constructor
    · intro follows
      refine ⟨.inr follows, ?_⟩
      rw [Bool.eq_false_iff]
      intro done
      rw [behind.look_of_atEnd done] at follows
      cases follows
    · rintro ⟨done | follows, more⟩
      · rw [done] at more
        cases more
      · exact follows
  · exact ⟨nofun, fun both => nomatch both.1⟩

/-! ## The declaration -/

variable {search : ParenSearch}

/-- Everything in front of a parameter list is read alike. -/
theorem heading (h : Stopped a t beyond s c d) :
    (Rule.heading c).accepted = (Rule.heading d).accepted ∧
      Stopped a t beyond s (Rule.heading c).cursor (Rule.heading d).cursor :=
  (weakLikeness_stopped.heading fun _ => h).alike id

/-- A list that closes in the shorter text is passed by both cursors, and so is what follows it. -/
theorem listAndBody_of_closes (h : Stopped a t beyond s c d) (ends : ReadsAsEnd beyond)
    {before inner after : List Char} (here : c.Between (before ++ ['(']) (inner ++ ')' :: after) [])
    (whole : a = before ++ ['('] ++ (inner ++ ')' :: after)) (balanced : Closes 0 inner) :
    (Rule.listAndBody search c).accepted = (Rule.listAndBody search d).accepted := by
  have there := h.between here whole
  rw [List.append_assoc, List.cons_append] at there
  -- both counts end at the same parenthesis, in front of the null character
  have first : Rule.closeParens search 1 c = _ := here.closeParens_eq rfl balanced
  have second : Rule.closeParens search 1 d = _ := there.closeParens_eq ends balanced
  have closed : Stopped a t beyond s (c.passMany .take (inner.length + 1)) (d.passMany .take (inner.length + 1)) := by
    have run : c.Between (before ++ ['(']) ((inner ++ [')']) ++ after) [] := by rwa [List.append_assoc]
    have passed := h.passMany run .take
    rwa [List.length_append] at passed
  have behind := (weakLikeness_stopped.passSpaces (fun _ => closed) .skip).like id
  have body := (weakLikeness_stopped.bodyFollows fun _ => behind).alike id
  simp only [Rule.listAndBody, first, second, if_true]
  exact body.1

/-- What is declared before the end is declared in front of a null character too. -/
theorem declaration (h : Stopped a t beyond s c d) (ends : ReadsAsEnd beyond)
    (accepted : (Rule.declaration search c).accepted = true) : (Rule.declaration search d).accepted = true := by
  obtain ⟨before, rest, whole, here, -⟩ := h.place
  obtain ⟨verdict, next⟩ := h.heading
  rw [Rule.declaration_eq] at accepted ⊢
  split at accepted
  · next headed =>
    obtain ⟨head, tail, rfl, -, opened⟩ := here.heading rfl headed
    obtain ⟨inner, after, rfl, balanced⟩ :=
      (opened.closeParens_accepted_iff rfl).1 (Rule.closed_of_listAndBody accepted)
    rw [if_pos (verdict ▸ headed), ← next.listAndBody_of_closes ends opened (by rw [whole]; simp) balanced]
    exact accepted
  · next other => exact absurd accepted other

/-- A declaration in the longer text alone has a list that goes on behind the null character. -/
theorem declaration_copy (h : Stopped a t beyond s c d) (ends : ReadsAsEnd beyond)
    (accepted : (Rule.declaration search d).accepted = true) (declined : (Rule.declaration search c).accepted = false)
    {before rest : List Char} (here : c.Between before rest []) (whole : a = before ++ rest) :
    ∃ head inner back, rest ++ '\x00' :: t = head ++ '(' :: (inner ++ ')' :: back) ∧
      (∀ ch ∈ head, inHeading ch = true) ∧ Closes 0 inner ∧
      byteSize (before ++ head) < byteSize a ∧ byteSize a < byteSize (before ++ head ++ '(' :: inner) := by
  obtain ⟨verdict, next⟩ := h.heading
  rw [Rule.declaration_eq] at accepted declined
  split at accepted
  · next headed =>
    rw [← verdict] at headed
    rw [if_pos headed] at declined
    obtain ⟨head, tail, rfl, inside, opened⟩ := here.heading rfl headed
    have cut : a = before ++ head ++ ['('] ++ tail := by rw [whole]; simp
    have there := next.between opened cut
    obtain ⟨inner, back, split, balanced⟩ :=
      (there.closeParens_accepted_iff ends).1 (Rule.closed_of_listAndBody accepted)
    have far : byteSize tail < byteSize inner := by
      by_cases near : byteSize (inner ++ [')']) ≤ byteSize tail
      · -- the list closes in the shorter text, where both cursors come to the same verdict
        have again : (inner ++ [')']) ++ back = tail ++ '\x00' :: t := by rw [split, List.append_assoc]; rfl
        obtain ⟨after, closes, -⟩ := split_of_byteSize_le again near
        rw [List.append_assoc] at closes
        rw [closes] at opened cut
        rw [next.listAndBody_of_closes ends opened cut balanced, accepted] at declined
        cases declined
      · -- the list does not end in front of the null character either, which is no parenthesis
        have paren : byteSize [')'] = 1 := by decide
        rw [byteSize_append] at near
        obtain ⟨middle, rfl, more⟩ := split_of_byteSize_le split (by omega)
        cases middle with
        | nil => cases more
        | cons ch middle =>
          have positive := ch.utf8Size_pos
          rw [byteSize_append, byteSize_cons]
          omega
    have paren := '('.utf8Size_pos
    refine ⟨head, inner, back, by simp [split], inside, balanced, ?_, ?_⟩
    · rw [cut]
      simp only [byteSize_append, byteSize_cons]
      omega
    · rw [cut]
      simp only [byteSize_append, byteSize_cons, byteSize_nil]
      omega
  · next other => exact absurd accepted other

end Stopped

/-! ## Texts with a null character -/

/-- A cursor of the shorter text and its copy in the longer one. Offsets may fail to reach the end of
the longer one, but they reach the null character. -/
theorem stopped_of_closed {text more : List Char} (fits : byteSize text < 0xFFFFFFFF)
    (longer : s = Script.ofText (String.ofList (text ++ '\x00' :: more))) (closed : s.Closed)
    (script : c.script = Script.ofText (String.ofList text)) (placed : c.script.isBoundary c.pos = true) :
    ∃ t beyond, more = t ++ beyond ∧ ReadsAsEnd beyond ∧ Stopped text t beyond s c (c.inScript s) := by
  obtain ⟨before, rest, whole, here⟩ :=
    exists_between_ofText (by rw [utf8ByteSize_ofList, UInt32.size]; omega) script placed
  rw [String.toList_ofList] at whole
  have boundary : s.isBoundary c.pos = true := by
    rw [longer, Script.isBoundary_iff]
    exact ⟨before, rest ++ '\x00' :: more, by rw [whole, List.append_assoc], here.pos⟩
  obtain ⟨front, tail, beyond, cut, there⟩ :=
    exists_between (c := c.inScript s) longer closed.isBoundary_size boundary
  rw [String.toList_ofList, whole, List.append_assoc] at cut
  obtain ⟨rfl, back⟩ := split_unique cut (here.pos.symm.trans there.pos)
  have room : byteSize (rest ++ ['\x00']) ≤ byteSize tail := by
    have size : s.size.toNat = byteSize (before ++ tail) := there.size
    have null : '\x00'.utf8Size = 1 := by decide
    rw [longer, Script.toNat_size_eq, whole] at size
    rw [whole] at fits
    simp only [byteSize_append, byteSize_cons, byteSize_nil] at fits size ⊢
    omega
  rw [List.append_cons] at back
  obtain ⟨t, rfl, rfl⟩ := split_of_byteSize_le back room
  rw [List.append_assoc] at there
  exact ⟨t, beyond, rfl, there.readsAsEnd closed, rfl, before, rest, whole, here, there⟩

/-- A null character is read like the end of a script by four rules: where it stands behind a text, they
come to the same verdict, place, token and mark as in the text alone. It is not read so by an optional
mark with only spaces up to it. A declaration in the text alone remains one; if there is one only because
the text goes on, the null character is inside of its parameter list. The text may be longer than offsets
can tell, if they reach the null character and a zero byte stands where it is cut. -/
theorem null_reads_like_end (search : ParenSearch) (a t : String) (fits : a.utf8ByteSize < 0xFFFFFFFF)
    (closed : (a.push '\x00' ++ t).utf8ByteSize ≤ 0xFFFFFFFF ∨
      (Script.ofText (a.push '\x00' ++ t)).byteAt 0xFFFFFFFF = 0)
    {c d : Cursor} (script : c.script = Script.ofText a) (placed : c.script.isBoundary c.pos = true)
    (copy : d = { c with script := Script.ofText (a.push '\x00' ++ t) }) :
    (∀ kind : Kind, kind ≠ .optional → kind ≠ .declaration →
      (kind.rule search d).accepted = (kind.rule search c).accepted ∧
      (kind.rule search d).cursor = { (kind.rule search c).cursor with script := d.script }) ∧
    ((Rule.optional d).accepted = true ↔ (Rule.optional c).accepted = true ∧
      ¬ ∃ front rest, a.toList = front ++ rest ∧ c.pos.toNat = byteSize front ∧ EndsInMark rest) ∧
    ((Rule.declaration search c).accepted = true → (Rule.declaration search d).accepted = true) ∧
    ((Rule.declaration search d).accepted = true → (Rule.declaration search c).accepted = false →
      ∃ front head inner back,
        a.toList ++ '\x00' :: t.toList = front ++ (head ++ '(' :: (inner ++ ')' :: back)) ∧
        c.pos.toNat = byteSize front ∧ (∀ ch ∈ head, inHeading ch = true) ∧ Closes 0 inner ∧
        byteSize (front ++ head) < a.utf8ByteSize ∧
        a.utf8ByteSize < byteSize (front ++ head ++ '(' :: inner)) := by
  have ends := Script.closed_ofText closed
  obtain ⟨text, rfl⟩ := a.exists_eq_ofList
  obtain ⟨more, rfl⟩ := t.exists_eq_ofList
  simp only [push_append, String.toList_ofList, utf8ByteSize_ofList] at fits ends copy ⊢
  obtain ⟨t, beyond, rfl, past, stopped⟩ := stopped_of_closed fits rfl ends script placed
  rw [show c.inScript _ = d from copy.symm] at stopped
  obtain ⟨front, rest, rfl, here, -⟩ := stopped.place
  refine ⟨?_, ?_, stopped.declaration past, ?_⟩
  · intro kind other last
    obtain ⟨verdict, run⟩ := stopped.rule search other last
    refine ⟨verdict.symm, ?_⟩
    rw [run.same, copy]
    rfl
  · rw [stopped.optional here]
    refine and_congr_right fun _ => not_congr ?_
    constructor
    · intro mark
      exact ⟨front, rest, rfl, here.pos, mark⟩
    · rintro ⟨before, behind, same, pos, mark⟩
      obtain ⟨-, rfl⟩ := split_unique same (here.pos.symm.trans pos)
      exact mark
  · intro accepted declined
    obtain ⟨head, inner, back, cut, inside, balanced, opens, closes⟩ :=
      stopped.declaration_copy past accepted declined here rfl
    refine ⟨front, head, inner, back ++ beyond, ?_, here.pos, inside, balanced, opens, closes⟩
    have longer := congrArg (front ++ · ++ beyond) cut
    simpa using longer

/-- A list that is open at the end of `é f(x`, and closed behind a null character in the longer text. -/
theorem null_reads_like_end_list :
    (Rule.declaration .byByte ⟨Script.ofText ("é f(x".push '\x00' ++ ") \x7b"), 2, 0, some 2, true⟩).accepted = true ∧
    ∃ front head inner back,
      "é f(x".toList ++ '\x00' :: ") \x7b".toList = front ++ (head ++ '(' :: (inner ++ ')' :: back)) ∧
      2 = byteSize front ∧ (∀ ch ∈ head, inHeading ch = true) ∧ Closes 0 inner ∧
      byteSize (front ++ head) < "é f(x".utf8ByteSize ∧
      "é f(x".utf8ByteSize < byteSize (front ++ head ++ '(' :: inner) := by
  have boundary : (Script.ofText "é f(x").isBoundary 2 = true := by decide +kernel
  have accepted : (Rule.declaration .byByte
      ⟨Script.ofText ("é f(x".push '\x00' ++ ") \x7b"), 2, 0, some 2, true⟩).accepted = true := by decide +kernel
  have declined : (Rule.declaration .byByte ⟨Script.ofText "é f(x", 2, 0, some 2, true⟩).accepted = false := by
    decide +kernel
  have same := null_reads_like_end .byByte "é f(x" ") \x7b" (by decide) (.inl (by decide))
    (c := ⟨Script.ofText "é f(x", 2, 0, some 2, true⟩) rfl boundary rfl
  exact ⟨accepted, same.2.2.2 accepted declined⟩

end Cursor

end HotkeyLex
