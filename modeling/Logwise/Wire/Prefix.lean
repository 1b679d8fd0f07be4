import Logwise.Wire.RoundTrip

/-!
# Formatted text against everything that was passed

A formatter that goes on after an error is given credit for all its chunks: `passed` is what it
handed to `write_str`, whatever the answers were. The value on the wire is a prefix of that exactly
when nothing got into the room that a cut left free.
-/

namespace Logwise

namespace Formatter

/-- The concatenation of the chunks a formatter passes to a buffer of `free` bytes. -/
def passed : Formatter → ℕ → List Char
  | .done, _ => []
  | .writeStr chunk onOk onErr, free =>
    chunk.toList ++
      if Utf8.size chunk.toList ≤ free then passed onOk (free - Utf8.size chunk.toList)
      else passed onErr (free - Utf8.size (Utf8.takeBytes chunk.toList free))

/-- As long as nothing is cut, the formatter passes its text. -/
theorem passed_of_le {formatter : Formatter} {free : ℕ}
    (h : Utf8.size formatter.text.toList ≤ free) :
    formatter.passed free = formatter.text.toList := by
  induction formatter generalizing free with
  | done => rfl
  | writeStr chunk onOk onErr ihOk ihErr =>
    rw [text_writeStr, Utf8.size_append] at h
    rw [passed, if_pos (by omega), ihOk (by omega), text_writeStr]

/-- What a cut leaves of the text has been passed. -/
theorem takeBytes_text_isPrefix_passed (formatter : Formatter) (free : ℕ) :
    Utf8.takeBytes formatter.text.toList free <+: formatter.passed free := by
  induction formatter generalizing free with
  | done => exact List.prefix_rfl
  | writeStr chunk onOk onErr ihOk ihErr =>
    rw [passed, text_writeStr]
    by_cases hfits : Utf8.size chunk.toList ≤ free
    · rw [if_pos hfits, Utf8.takeBytes_append_of_le hfits, List.prefix_append_right_inj]
      apply ihOk
    · rw [if_neg hfits, Utf8.takeBytes_append_of_lt (by omega)]
      exact (Utf8.takeBytes_isPrefix ..).trans (List.prefix_append ..)

/-- A character that gets in fits. -/
theorem utf8Size_le_of_firstFitting {formatter : Formatter} {free : ℕ} {d : Char}
    (h : formatter.firstFitting free = some d) : d.utf8Size ≤ free := by
  induction formatter generalizing free with
  | done => cases h
  | writeStr chunk onOk onErr ihOk ihErr =>
    rw [firstFitting] at h
    split at h
    · exact ihOk h
    · split at h
      next hfits =>
        cases h
        exact hfits
      next => exact ihErr h

/-- **Never in place**: a character that gets in after a cut is smaller than the one it follows on,
which was passed and did not fit. -/
theorem exists_passed_of_resumed {formatter : Formatter} {free : ℕ} {d : Char}
    (h : formatter.resumed free = some d) :
    ∃ c rest, formatter.passed free = Utf8.takeBytes formatter.text.toList free ++ c :: rest ∧
      c ≠ d := by
  induction formatter generalizing free with
  | done => cases h
  | writeStr chunk onOk onErr ihOk ihErr =>
    rw [resumed] at h
    rw [passed, text_writeStr]
    by_cases hfits : Utf8.size chunk.toList ≤ free
    · rw [if_pos hfits] at h ⊢
      obtain ⟨c, rest, hpassed, hne⟩ := ihOk h
      refine ⟨c, rest, ?_, hne⟩
      rw [Utf8.takeBytes_append_of_le hfits, hpassed, List.append_assoc]
    · rw [if_neg hfits] at h ⊢
      have hsmall := utf8Size_le_of_firstFitting h
      have hpos := d.utf8Size_pos
      obtain ⟨c, rest, hchunk, hlarge⟩ := Utf8.exists_takeBytes_append (Nat.lt_of_not_le hfits)
      rw [Utf8.takeBytes_append_of_lt (Nat.lt_of_not_le hfits)]
      generalize Utf8.takeBytes chunk.toList free = kept at *
      refine ⟨c, rest ++ onErr.passed (free - Utf8.size kept), ?_, ?_⟩
      · rw [hchunk, List.append_assoc, List.cons_append]
      · rintro rfl
        omega

/-- **Where the value is a prefix**: cut to `limit` bytes, what was captured is a prefix of all that
was passed exactly when nothing after a cut gets into them. -/
theorem takeBytes_captured_isPrefix_iff (formatter : Formatter) (limit free : ℕ) :
    Utf8.takeBytes (formatter.captured free).1 limit <+: formatter.passed free ↔
      formatter.StopsWhenCut limit free := by
  have hkept := takeBytes_text_isPrefix_passed formatter free
  constructor
  · intro hprefix d hd
    obtain ⟨extra, hextra, hhead⟩ := exists_captured_eq formatter free
    obtain ⟨c, rest, hpassed, hne⟩ := exists_passed_of_resumed hd
    obtain ⟨more, hmore⟩ : ∃ more, extra = d :: more :=
      List.head?_eq_some_iff.mp (hhead.trans hd)
    by_contra hfits
    -- the character is then in the value, where another one was passed
    have hin : Utf8.takeBytes (formatter.captured free).1 limit =
        Utf8.takeBytes formatter.text.toList free ++
          d :: Utf8.takeBytes more
            (limit - Utf8.size (Utf8.takeBytes formatter.text.toList free) - d.utf8Size) := by
      rw [hextra, hmore, Utf8.takeBytes_append_of_le (by omega), Utf8.takeBytes, if_pos (by omega)]
    rw [hin, hpassed, List.prefix_append_right_inj, List.cons_prefix_cons] at hprefix
    exact hne hprefix.1.symm
  · intro hstops
    rw [(takeBytes_captured_iff formatter limit free).mpr hstops, ← Utf8.takeBytes_takeBytes]
    exact (Utf8.takeBytes_isPrefix ..).trans hkept

end Formatter

namespace Wire

/-- The chunks a formatter passes to `write_str`, those after an error included. -/
def ScratchWriter.passed : Formatter → ScratchWriter → List String
  | .done, _ => []
  | .writeStr chunk onOk onErr, writer =>
    chunk :: match writer.writeStr chunk with
      | .ok (true, writer) => passed onOk writer
      | .ok (false, writer) => passed onErr writer
      | .error _ => []

/-- The writer's answers depend on the room that is left alone. -/
theorem ScratchWriter.flatMap_passed (formatter : Formatter) {writer : ScratchWriter}
    {cs : List Char} (h : writer.Holds cs) :
    (writer.passed formatter).flatMap String.toList =
      formatter.passed (writer.output.length - writer.position) := by
  induction formatter generalizing writer cs with
  | done => rfl
  | writeStr chunk onOk onErr ihOk ihErr =>
    obtain ⟨output, hwrite, hholds, hlen⟩ := writeStr_eq h chunk
    rw [passed, hwrite, Formatter.passed, List.flatMap_cons]
    refine congrArg (chunk.toList ++ ·) ?_
    by_cases hfits : Utf8.size chunk.toList ≤ writer.output.length - writer.position
    · rw [if_pos hfits]
      have hrest := ihOk hholds
      simp only [hlen, hfits, decide_true, Utf8.takeBytes_eq_self hfits, ← Nat.sub_sub] at hrest ⊢
      exact hrest
    · rw [if_neg hfits]
      have hrest := ihErr hholds
      simp only [hlen, hfits, decide_false, ← Nat.sub_sub] at hrest ⊢
      exact hrest

namespace Encoder

/-- Everything a value's formatter passes to the scratch writer. -/
def passed (arguments : Formatter) (encoder : Encoder) : List Char :=
  (ScratchWriter.passed arguments
    { output := encoder.scratch, position := 0, truncated := false }).flatMap String.toList

variable {limit free : ℕ}

theorem Ready.passed_eq {encoder : Encoder} (h : encoder.Ready limit free) (arguments : Formatter) :
    encoder.passed arguments = arguments.passed free := by
  have hempty : ScratchWriter.Holds
      { output := encoder.scratch, position := 0, truncated := false } [] :=
    ⟨rfl, Nat.zero_le _, rfl⟩
  rw [passed, ScratchWriter.flatMap_passed arguments hempty]
  exact congrArg arguments.passed (by rw [h.scratch, Nat.sub_zero])

/-- An operation that succeeded has appended its bytes. -/
theorem Writes.appends {operation : Encode Unit} {valid : Prop} {bytes : List UInt8} {cut : ℕ}
    (hwrites : Writes limit free operation valid bytes cut) {encoder encoder' : Encoder}
    (hready : encoder.Ready limit free) (h : operation encoder = .ok () encoder') :
    encoder.Appends bytes cut encoder' := by
  obtain ⟨refusal, hwrites⟩ := hwrites
  by_cases hroom : valid ∧ bytes.length ≤ encoder.room
  · obtain ⟨stopped, hrun, -, happends⟩ := (hwrites encoder hready).1 hroom.1 hroom.2
    cases h.symm.trans hrun
    exact happends
  · obtain ⟨stopped, herror⟩ := (hwrites encoder hready).2 hroom
    cases h.symm.trans herror

/-- What is not counted as truncated is on the wire whole. -/
theorem takeBytes_captured_of_uncut {arguments : Formatter}
    (h : ¬ ((arguments.captured free).2 = true ∨ limit < Utf8.size (arguments.captured free).1)) :
    Utf8.takeBytes (arguments.captured free).1 limit = arguments.passed free := by
  obtain ⟨hcut, hlong⟩ := not_or.mp h
  have hfits : Utf8.size arguments.text.toList ≤ free :=
    Nat.le_of_not_lt fun hlt => hcut ((arguments.captured_snd free).mpr hlt)
  rw [Utf8.takeBytes_eq_self (Nat.le_of_not_lt hlong), Formatter.captured_fst_of_le hfits,
    Formatter.passed_of_le hfits]

/-- **A prefix**: the value on the wire is a prefix of everything that was passed, and counted as
truncated where it is not all of it, exactly when nothing that follows a cut got into it. -/
theorem formatted_isPrefix_iff (hlimit : limit ≤ u16Max) {arguments : Formatter}
    {encoder encoder' : Encoder} (hready : encoder.Ready limit free)
    (h : formatted arguments encoder = .ok () encoder') :
    ∃ value, encoder'.written = encoder.written ++ Codec.textBytes value ∧
      ((value <+: encoder.passed arguments ∧ (value ≠ encoder.passed arguments →
        encoder'.truncatedValues = min u32Max (encoder.truncatedValues + 1))) ↔
        arguments.StopsWhenCut limit free) := by
  refine ⟨Utf8.takeBytes (arguments.captured free).1 limit, ?_⟩
  have happends := (writes_formatted hlimit arguments).appends hready h
  refine ⟨happends.written, ?_⟩
  rw [hready.passed_eq, Formatter.takeBytes_captured_isPrefix_iff]
  refine and_iff_left fun hpart => ?_
  have hcounted := happends.truncated
  rwa [if_pos] at hcounted
  by_contra huncut
  exact hpart (takeBytes_captured_of_uncut huncut)

theorem formatted_isPrefix_literal : ∃ encoder',
    formatted (.literal "ready") (Encoder.new 100 (List.replicate 16 0) [0, 0, 0, 0]) =
        .ok () encoder' ∧
      ∃ value, encoder'.written = [] ++ Codec.textBytes value ∧
        ((value <+: (Encoder.new 100 (List.replicate 16 0) [0, 0, 0, 0]).passed (.literal "ready") ∧
          (value ≠ (Encoder.new 100 (List.replicate 16 0) [0, 0, 0, 0]).passed (.literal "ready") →
            encoder'.truncatedValues = min u32Max (0 + 1))) ↔
          (Formatter.literal "ready").StopsWhenCut 100 4) := by
  have hready : Ready 100 4 (Encoder.new 100 (List.replicate 16 0) [0, 0, 0, 0]) :=
    ⟨Nat.zero_le _, rfl, rfl, Nat.zero_le _⟩
  obtain ⟨refusal, hwrites⟩ := writes_formatted (by decide : 100 ≤ u16Max) (.literal "ready")
  obtain ⟨encoder', hrun, -, -⟩ := (hwrites _ hready).1 trivial (by decide)
  exact ⟨encoder', hrun, formatted_isPrefix_iff (by decide : 100 ≤ u16Max) hready hrun⟩

/-- The chunk after the cut goes into the byte it left: "aab" of "aaé" and "b". -/
theorem heedless_not_isPrefix : ∃ encoder',
    formatted heedless (Encoder.new 100 (List.replicate 16 0) [0, 0, 0]) = .ok () encoder' ∧
      encoder'.written = Codec.textBytes "aab".toList ∧
        ¬ "aab".toList <+: (Encoder.new 100 (List.replicate 16 0) [0, 0, 0]).passed heedless := by
  have hready : Ready 100 3 (Encoder.new 100 (List.replicate 16 0) [0, 0, 0]) :=
    ⟨Nat.zero_le _, rfl, rfl, Nat.zero_le _⟩
  obtain ⟨refusal, hwrites⟩ := writes_formatted (by decide : 100 ≤ u16Max) heedless
  obtain ⟨encoder', hrun, -, happends⟩ := (hwrites _ hready).1 trivial (by decide)
  refine ⟨encoder', hrun, happends.written, ?_⟩
  rw [hready.passed_eq]
  decide

end Encoder

end Wire

end Logwise
