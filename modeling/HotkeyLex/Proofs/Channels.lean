import HotkeyLex.Tool.Report

/-!
# Channels that run full

A command writes its lines one by one, and a channel may run full in the middle of any of them. That
makes no difference: lines written one after the other are one text (`writeAll_eq_write_join`), of which
a channel keeps the first bytes. So a run is settled by the text of its warnings and the text of its
lines, and a limit takes away the end of one of them and nothing else.
-/

namespace HotkeyLex.Tool

/-- Bytes up to a limit behind their end are all bytes. -/
theorem extract_of_size_le {bytes : ByteArray} {k : Nat} (fits : bytes.size ≤ k) : bytes.extract 0 k = bytes := by
  rw [← Nat.max_eq_left fits]
  exact ByteArray.extract_zero_max_size

/-- Cutting at the end of the bytes cuts nothing. -/
theorem extract_min_size (bytes : ByteArray) (n : Nat) : bytes.extract 0 (min n bytes.size) = bytes.extract 0 n := by
  rcases Nat.le_total n bytes.size with inside | past
  · rw [Nat.min_eq_left inside]
  · rw [Nat.min_eq_right past, ByteArray.extract_zero_size, extract_of_size_le past]

namespace Channel

/-! ## Lines as one text -/

theorem fitting_of_fits {ch : Channel} {a : ByteArray} (fits : (ch.fitting a).size = a.size) : ch.fitting a = a := by
  unfold fitting at fits ⊢
  cases limit : ch.limit with
  | none => rfl
  | some n =>
    simp only [limit, ByteArray.size_extract] at fits ⊢
    exact extract_of_size_le (by omega)

/-- A text that fits leaves the rest of the room to the next one. -/
theorem fitting_append_of_fits {ch : Channel} {a : ByteArray} (b : ByteArray) (fits : (ch.fitting a).size = a.size) :
    ch.fitting (a ++ b) = a ++ { ch with written := ch.written ++ a }.fitting b := by
  unfold fitting at fits ⊢
  cases limit : ch.limit with
  | none => rfl
  | some n =>
    simp only [limit, ByteArray.size_extract] at fits ⊢
    rw [ByteArray.extract_append, extract_of_size_le (by omega), Nat.zero_sub, ByteArray.size_append,
      Nat.sub_add_eq]

/-- Behind a text that does not fit there is no room. -/
theorem fitting_append_of_not_fits {ch : Channel} {a : ByteArray} (b : ByteArray)
    (short : (ch.fitting a).size ≠ a.size) : ch.fitting (a ++ b) = ch.fitting a ∧ (ch.fitting a).size < a.size := by
  unfold fitting at short ⊢
  cases limit : ch.limit with
  | none =>
    rw [limit] at short
    exact absurd rfl short
  | some n =>
    simp only [limit, ByteArray.size_extract] at short ⊢
    have full : n - ch.written.size - a.size = 0 := by omega
    rw [ByteArray.extract_append, Nat.zero_sub, full, ByteArray.extract_same, ByteArray.append_empty]
    exact ⟨rfl, by omega⟩

/-- A first text that fits leaves the room for the second one as if both were written at once. -/
theorem write_append_of_fits {ch : Channel} {a : String} (b : String)
    (fits : (ch.fitting a.toUTF8).size = a.toUTF8.size) :
    ch.write a = (true, { ch with written := ch.written ++ a.toUTF8 }) ∧
      ch.write (a ++ b) = { ch with written := ch.written ++ a.toUTF8 }.write b := by
  have bytes : (a ++ b).toUTF8 = a.toUTF8 ++ b.toUTF8 := String.toByteArray_append
  constructor
  · simp only [write, fitting_of_fits fits, beq_self_eq_true]
  · have shift (k l : Nat) : (a.toUTF8.size + k == a.toUTF8.size + l) = (k == l) := by
      rw [Bool.eq_iff_iff, beq_iff_eq, beq_iff_eq]
      omega
    simp only [write, bytes, fitting_append_of_fits _ fits, ByteArray.append_assoc, ByteArray.size_append, shift]

/-- A first text that does not fit fills the channel, with or without a second one. -/
theorem write_append_of_not_fits {ch : Channel} {a : String} (b : String)
    (short : (ch.fitting a.toUTF8).size ≠ a.toUTF8.size) :
    ch.write a = (false, { ch with written := ch.written ++ ch.fitting a.toUTF8 }) ∧
      ch.write (a ++ b) = (false, { ch with written := ch.written ++ ch.fitting a.toUTF8 }) := by
  have bytes : (a ++ b).toUTF8 = a.toUTF8 ++ b.toUTF8 := String.toByteArray_append
  obtain ⟨same, less⟩ := fitting_append_of_not_fits b.toUTF8 short
  have first : ((ch.fitting a.toUTF8).size == a.toUTF8.size) = false := beq_eq_false_iff_ne.2 short
  have both : ((ch.fitting a.toUTF8).size == a.toUTF8.size + b.toUTF8.size) = false := by
    rw [beq_eq_false_iff_ne]
    omega
  constructor
  · simp only [write, first]
  · simp only [write, bytes, same, ByteArray.size_append, both]

/-- Texts written one after the other are written as one, wherever the channel runs full. -/
theorem writeAll_eq_write_join (ch : Channel) (texts : List String) :
    ch.writeAll texts = ch.write (String.join texts) := by
  induction texts generalizing ch with
  | nil =>
    have nothing : ch.fitting .empty = .empty := by
      unfold fitting
      cases ch.limit with
      | none => rfl
      | some n => simp
    have empty : (String.join []).toUTF8 = .empty := rfl
    simp only [writeAll, write, empty, nothing, ByteArray.append_empty, beq_self_eq_true]
  | cons text texts ih =>
    rw [writeAll, String.join_cons]
    by_cases fits : (ch.fitting text.toUTF8).size = text.toUTF8.size
    · -- the rest is written on a channel with less room, so the statement is about every channel
      obtain ⟨first, whole⟩ := write_append_of_fits (String.join texts) fits
      rw [first, whole]
      exact ih _
    · obtain ⟨first, whole⟩ := write_append_of_not_fits (String.join texts) fits
      rw [first, whole]

/-! ## Fresh channels -/

theorem write_unlimited (text : String) : (ofLimit none).write text = (true, ⟨none, text.toUTF8⟩) := by
  simp [write, fitting, ofLimit]

/-- With a limit the bytes up to it are written. -/
theorem write_limited (n : Nat) (text : String) :
    (ofLimit (some n)).write text = (decide (text.toUTF8.size ≤ n), ⟨some n, text.toUTF8.extract 0 n⟩) := by
  have fits : (min n text.toUTF8.size == text.toUTF8.size) = decide (text.toUTF8.size ≤ n) := by
    rw [Bool.eq_iff_iff, beq_iff_eq, decide_eq_true_eq]
    omega
  simp only [write, fitting, ofLimit, ByteArray.size_empty, Nat.sub_zero, ByteArray.size_extract,
    ByteArray.empty_append, fits]

end Channel

/-! ## How a run ends -/

namespace Report

/-- The run ended before it printed anything, with these warnings. -/
structure Stops (report : Report) (fault : Fault) (warned : ByteArray) : Prop where
  result : report.result = .error fault
  out : report.out.written = .empty
  diag : report.diag.written = warned

/-- The run printed what its channel takes of a text, after these warnings. -/
structure Prints (report : Report) (n : Nat) (text warned : ByteArray) : Prop where
  result : report.result = if text.size ≤ n then .ok () else .error (.unwritable .channelFull)
  out : report.out.written = text.extract 0 (min n text.size)
  diag : report.diag.written = warned

/-- Without a limit all lines are printed, and the other channel is left alone. -/
theorem print_unlimited (diag : Channel) (events : List Event) (lines : List String) :
    print (.ofLimit none) diag events lines = ⟨.ok (), ⟨none, (String.join lines).toUTF8⟩, diag, events⟩ := by
  simp only [print, Channel.writeAll_eq_write_join, Channel.write_unlimited, if_true]

/-- With a limit the bytes of the lines are printed up to it, and the run fails if some are left. -/
theorem print_limited (n : Nat) (diag : Channel) (events : List Event) (lines : List String) :
    (print (.ofLimit (some n)) diag events lines).Prints n (String.join lines).toUTF8 diag.written := by
  simp only [print, Channel.writeAll_eq_write_join, Channel.write_limited, decide_eq_true_eq]
  exact ⟨rfl, (extract_min_size _ n).symm, rfl⟩

end Report

/-! ## Commands with a script -/

section

variable {read : FileAccess} {path : String}

theorem textOf_of_unreadable {cause : SystemFault} (failed : read path = .error cause) :
    textOf read path = .error (.unreadable path cause) := by
  rw [textOf, failed]

/-- Bytes that no text has. -/
theorem textOf_of_no_text {bytes : ByteArray} (found : read path = .ok bytes)
    (other : ∀ text : String, text.toUTF8 ≠ bytes) : textOf read path = .error (.notUnicode path) := by
  have invalid : ¬ bytes.IsValidUTF8 := by
    intro valid
    exact other (String.fromUTF8 bytes valid) rfl
  rw [textOf, found]
  simp only [String.fromUTF8?, dif_neg invalid]

theorem textOf_of_text {text : String} (found : read path = .ok text.toUTF8) : textOf read path = .ok text := by
  have valid : text.toUTF8.IsValidUTF8 := text.isValidUTF8
  rw [textOf, found]
  simp only [String.fromUTF8?, dif_pos valid]
  rfl

variable (act : Script → Except Fault (List String)) (n m : Nat)

/-- A run without a text stops before it prints or warns. -/
theorem withScript_of_fault {fault : Fault} (failed : textOf read path = .error fault) :
    (withScript read path (.ofLimit (some n)) (.ofLimit (some m)) act).Stops fault .empty := by
  rw [withScript, failed]
  exact ⟨rfl, rfl, rfl⟩

variable {text : String} (loaded : textOf read path = .ok text)
include loaded

/-- A script is warned about in one text, and its lines are another. -/
theorem withScript_eq (out diag : Channel) : ∃ events, withScript read path out diag act =
    match diag.write (String.join (warnings path (Script.ofText text))) with
    | (false, diag) => ⟨.error (.unwritable .channelFull), out, diag, events⟩
    | (true, diag) => match act (Script.ofText text) with
      | .error fault => ⟨.error fault, out, diag, events⟩
      | .ok lines => .print out diag events lines := by
  refine ⟨[Event.loaded path text.utf8ByteSize], ?_⟩
  have writes := diag.writeAll_eq_write_join (warnings path (Script.ofText text))
  rcases warned : diag.write (String.join (warnings path (Script.ofText text))) with ⟨_ | _, later⟩
  · simp only [withScript, loaded, writes, warned]
  · cases acted : act (Script.ofText text) with
    | error fault => simp only [withScript, loaded, writes, warned, acted]
    | ok lines => simp only [withScript, loaded, writes, warned, acted]

/-- Warnings go to the other channel, one line each. -/
theorem withScript_diag : (withScript read path (.ofLimit none) (.ofLimit none) act).diag.written =
    (String.join (warnings path (Script.ofText text))).toUTF8 := by
  obtain ⟨events, same⟩ := withScript_eq act loaded (.ofLimit none) (.ofLimit none)
  rw [same, Channel.write_unlimited]
  cases act (Script.ofText text) with
  | error fault => rfl
  | ok lines => simp only [Report.print_unlimited]

/-- What is printed without a limit is the text of the lines. -/
theorem withScript_out {lines : List String} (listed : act (Script.ofText text) = .ok lines) :
    (withScript read path (.ofLimit none) (.ofLimit none) act).out.written = (String.join lines).toUTF8 := by
  obtain ⟨events, same⟩ := withScript_eq act loaded (.ofLimit none) (.ofLimit none)
  rw [same, Channel.write_unlimited]
  simp only [listed, Report.print_unlimited]

variable {D : ByteArray} (warned : D = (String.join (warnings path (Script.ofText text))).toUTF8)
include warned

/-- A run whose warnings do not fit stops among them. -/
theorem withScript_stops_full (short : m < D.size) :
    (withScript read path (.ofLimit (some n)) (.ofLimit (some m)) act).Stops (.unwritable .channelFull)
      (D.extract 0 m) := by
  subst warned
  obtain ⟨events, same⟩ := withScript_eq act loaded (.ofLimit (some n)) (.ofLimit (some m))
  rw [same, Channel.write_limited, decide_eq_false (Nat.not_le.2 short)]
  exact ⟨rfl, rfl, rfl⟩

variable (room : D.size ≤ m)
include room

/-- A run whose request fails has warned before. -/
theorem withScript_stops {fault : Fault} (failed : act (Script.ofText text) = .error fault) :
    (withScript read path (.ofLimit (some n)) (.ofLimit (some m)) act).Stops fault D := by
  subst warned
  obtain ⟨events, same⟩ := withScript_eq act loaded (.ofLimit (some n)) (.ofLimit (some m))
  rw [same, Channel.write_limited, decide_eq_true room, extract_of_size_le room]
  simp only [failed]
  exact ⟨rfl, rfl, rfl⟩

/-- A run that lists something warns first and then prints. -/
theorem withScript_prints {lines : List String} (listed : act (Script.ofText text) = .ok lines) :
    (withScript read path (.ofLimit (some n)) (.ofLimit (some m)) act).Prints n (String.join lines).toUTF8 D := by
  subst warned
  obtain ⟨events, same⟩ := withScript_eq act loaded (.ofLimit (some n)) (.ofLimit (some m))
  rw [same, Channel.write_limited, decide_eq_true room, extract_of_size_le room]
  simp only [listed]
  exact Report.print_limited n ⟨some m, _⟩ events lines

end

/-! ## Every command -/

theorem probeLines_of_position {s : Script} {offset : UInt32} (position : s.isPosition offset = true)
    (valid : KindSet) : probeLines s offset valid = .ok [probeLine offset (s.tokenAt? offset valid)] := by
  rw [probeLines, Cursor.at?, if_pos position]

theorem probeLines_astray {s : Script} {offset : UInt32} (astray : s.isPosition offset = false) (valid : KindSet) :
    probeLines s offset valid = .error (.noPosition offset s.size) := by
  rw [probeLines, Cursor.at?, if_neg (Bool.eq_false_iff.1 astray)]

/-- The lines of a command for a script. A list of kinds is the same for all. -/
def Request.lines (request : Request) (s : Script) : Except Fault (List String) :=
  match request.command with
  | .probe _ offset => probeLines s offset request.valid
  | .sweep _ => .ok (sweepLines s request.valid)
  | .kinds => .ok kindLines

theorem Request.run_eq_withScript {request : Request} {path : String} (named : request.command.path? = some path)
    (read : FileAccess) (out diag : Channel) :
    request.run read out diag = withScript read path out diag request.lines := by
  obtain ⟨command, valid⟩ := request
  cases command with
  | probe file offset =>
    cases named
    rfl
  | sweep file =>
    cases named
    rfl
  | kinds => cases named

/-- The kinds are listed without a look at any file. -/
theorem Request.run_eq_print {request : Request} (kinds : request.command = .kinds) (read : FileAccess)
    (out diag : Channel) : request.run read out diag = .print out diag [] kindLines := by
  rw [run, kinds]

/-- Nothing but a probe at no position keeps a command from listing something. -/
theorem Request.exists_lines {request : Request} {path : String} (named : request.command.path? = some path)
    {s : Script} (placed : ∀ offset, request.command = .probe path offset → s.isPosition offset = true) :
    ∃ lines, request.lines s = .ok lines := by
  obtain ⟨command, valid⟩ := request
  cases command with
  | probe file offset =>
    cases named
    exact ⟨_, probeLines_of_position (placed offset rfl) valid⟩
  | sweep file => exact ⟨_, rfl⟩
  | kinds => exact ⟨_, rfl⟩

/-- Channels that take `n` and `m` bytes lose only the end of what a run writes. A script that cannot be
read leaves both empty. Warnings that do not fit stop the run behind the last byte that does; a probe at
no position stops it behind the warnings; and otherwise the first bytes of the output, which is the text
of the lines of the command, are written, as many as fit, and the run succeeds if that is all of it. A list
of kinds asks for no file. -/
theorem run_loses_only_the_tail (request : Request) (read : FileAccess) (n m : Nat) :
    let report := request.run read (.ofLimit (some n)) (.ofLimit (some m))
    let O := (request.run read (.ofLimit none) (.ofLimit none)).out.written
    let D := (request.run read (.ofLimit none) (.ofLimit none)).diag.written
    (∀ path, request.command.path? = some path →
      (∀ cause, read path = .error cause → report.Stops (.unreadable path cause) .empty) ∧
      (∀ bytes, read path = .ok bytes → (∀ text : String, text.toUTF8 ≠ bytes) →
        report.Stops (.notUnicode path) .empty) ∧
      (∀ text : String, read path = .ok text.toUTF8 →
        D = (String.join (warnings path (Script.ofText text))).toUTF8 ∧
        (m < D.size → report.Stops (.unwritable .channelFull) (D.extract 0 m)) ∧
        (D.size ≤ m → ∀ offset, request.command = .probe path offset →
          (Script.ofText text).isPosition offset = false →
          report.Stops (.noPosition offset (Script.ofText text).size) D) ∧
        ((∀ offset, request.command = .probe path offset → (Script.ofText text).isPosition offset = true) →
          ∃ lines, request.lines (Script.ofText text) = .ok lines ∧ O = (String.join lines).toUTF8 ∧
            (D.size ≤ m → report.Prints n O D)))) ∧
    (request.command = .kinds → O = (String.join kindLines).toUTF8 ∧ D = .empty ∧ report.Prints n O .empty ∧
      ∀ other, request.run other (.ofLimit (some n)) (.ofLimit (some m)) = report) := by
  intro report O D
  constructor
  · intro path named
    have run := Request.run_eq_withScript named read
    refine ⟨?_, ?_, ?_⟩
    · intro cause failed
      rw [show report = _ from run _ _]
      exact withScript_of_fault request.lines n m (textOf_of_unreadable failed)
    · intro bytes found other
      rw [show report = _ from run _ _]
      exact withScript_of_fault request.lines n m (textOf_of_no_text found other)
    · intro text found
      have loaded := textOf_of_text found
      have warned : D = (String.join (warnings path (Script.ofText text))).toUTF8 := by
        rw [show D = _ from congrArg (·.diag.written) (run _ _)]
        exact withScript_diag request.lines loaded
      rw [show report = _ from run _ _, show O = _ from congrArg (·.out.written) (run _ _)]
      refine ⟨warned, ?_, ?_, ?_⟩
      · intro short
        exact withScript_stops_full request.lines n m loaded warned short
      · intro room offset probe astray
        apply withScript_stops request.lines n m loaded warned room
        rw [Request.lines, probe]
        exact probeLines_astray astray request.valid
      · intro placed
        obtain ⟨lines, listed⟩ := Request.exists_lines named placed
        rw [withScript_out request.lines loaded listed]
        exact ⟨lines, listed, rfl, fun room => withScript_prints request.lines n m loaded warned room listed⟩
  · intro kinds
    have run := Request.run_eq_print kinds
    have full := Report.print_unlimited (.ofLimit none) [] kindLines
    rw [← run read] at full
    refine ⟨?_, ?_, ?_, ?_⟩
    · exact congrArg (·.out.written) full
    · rw [show D = _ from congrArg (·.diag.written) full]
      rfl
    · rw [show report = _ from run read _ _, show O = _ from congrArg (·.out.written) full]
      exact Report.print_limited n (.ofLimit (some m)) [] kindLines
    · intro other
      rw [run other, show report = _ from run read _ _]

end HotkeyLex.Tool
