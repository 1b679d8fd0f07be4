import Logwise.Wire.Scratch

/-!
# What the encoder writes

Every operation of the encoder appends bytes that do not depend on the buffers, or fails with an
error because they do not fit or because a length overflows its prefix. `Writes` states that for one
operation, and composes.
-/

namespace Logwise.Wire

/-! ## Buffers -/

theorem splice_eq {buffer bytes : List UInt8} {start stop : ℕ} (hstart : start ≤ stop)
    (hstop : stop ≤ buffer.length) (hlen : bytes.length = stop - start) :
    splice buffer start stop bytes = .ok (buffer.take start ++ (bytes ++ buffer.drop stop)) :=
  if_pos ⟨hstart, hstop, hlen⟩

theorem length_spliced {buffer bytes : List UInt8} {start stop : ℕ} (hstart : start ≤ stop)
    (hstop : stop ≤ buffer.length) (hlen : bytes.length = stop - start) :
    (buffer.take start ++ (bytes ++ buffer.drop stop)).length = buffer.length := by
  simp only [List.length_append, List.length_take, List.length_drop]
  omega

theorem take_spliced {buffer bytes : List UInt8} {start stop : ℕ} (hstart : start ≤ stop)
    (hstop : stop ≤ buffer.length) (hlen : bytes.length = stop - start) :
    (buffer.take start ++ (bytes ++ buffer.drop stop)).take stop = buffer.take start ++ bytes := by
  rw [← List.append_assoc]
  refine List.take_left' ?_
  rw [List.length_append, List.length_take]
  omega

theorem drop_spliced {buffer bytes : List UInt8} {start stop : ℕ} (hstart : start ≤ stop)
    (hstop : stop ≤ buffer.length) (hlen : bytes.length = stop - start) (more : ℕ) :
    (buffer.take start ++ (bytes ++ buffer.drop stop)).drop (stop + more) =
      buffer.drop (stop + more) := by
  have hlength : (buffer.take start ++ bytes).length = stop := by
    rw [List.length_append, List.length_take]
    omega
  rw [← List.append_assoc, ← List.drop_drop, List.drop_left' hlength, List.drop_drop]

theorem slicePrefix_eq {bytes : List UInt8} {length : ℕ} (h : length ≤ bytes.length) :
    slicePrefix bytes length = .ok (bytes.take length) := if_pos h

/-! ## The scratch buffer -/

namespace ScratchWriter

/-- The writer has the text `cs` behind it. -/
structure Holds (writer : ScratchWriter) (cs : List Char) : Prop where
  position : writer.position = Utf8.size cs
  bound : writer.position ≤ writer.output.length
  written : writer.output.take writer.position = Utf8.encode cs

/-- `write_str` appends the longest prefix that fits, and says whether that is everything. -/
theorem writeStr_eq {writer : ScratchWriter} {cs : List Char} (h : writer.Holds cs)
    (value : String) : ∃ output,
    let kept := Utf8.takeBytes value.toList (writer.output.length - writer.position)
    let fits := decide (Utf8.size value.toList ≤ writer.output.length - writer.position)
    let writer' : ScratchWriter := { output := output, position := writer.position + Utf8.size kept
                                     truncated := writer.truncated || !fits }
    writer.writeStr value = .ok (fits, writer') ∧ writer'.Holds (cs ++ kept) ∧
      output.length = writer.output.length := by
  obtain ⟨hposition, hbound, hwritten⟩ := h
  have hlength := Utf8.backOff_min_size value.toList (writer.output.length - writer.position)
  have hkept := Utf8.size_takeBytes_le value.toList (writer.output.length - writer.position)
  have hwhole : Utf8.size (Utf8.takeBytes value.toList (writer.output.length - writer.position)) =
      Utf8.size value.toList ↔ _ := Utf8.size_takeBytes_eq_iff
  have hprefix := Utf8.size_le_of_prefix (Utf8.takeBytes_isPrefix value.toList
    (writer.output.length - writer.position))
  have htake := Utf8.take_encode_takeBytes value.toList (writer.output.length - writer.position)
  generalize Utf8.takeBytes value.toList (writer.output.length - writer.position) = kept at *
  have hlen : (Utf8.encode kept).length =
      writer.position + Utf8.size kept - writer.position := by
    rw [Utf8.length_encode]
    omega
  have hstop : writer.position + Utf8.size kept ≤ writer.output.length := by omega
  refine ⟨_, ?_, ⟨?_, ?_, ?_⟩, length_spliced (Nat.le_add_right ..) hstop hlen⟩
  · rw [writeStr]
    dsimp only
    rw [hlength, slicePrefix_eq (by rw [Utf8.length_encode]; exact hprefix), htake]
    simp only [bind, Except.bind, splice_eq (Nat.le_add_right ..) hstop hlen]
    by_cases hfits : Utf8.size value.toList ≤ writer.output.length - writer.position
    · rw [if_neg (not_not.mpr (hwhole.mpr hfits))]
      simp [hfits, pure, Except.pure]
    · rw [if_pos fun he => hfits (hwhole.mp he)]
      simp [hfits, pure, Except.pure]
  · rw [Utf8.size_append, hposition]
  · rw [length_spliced (Nat.le_add_right ..) hstop hlen]
    exact hstop
  · rw [take_spliced (Nat.le_add_right ..) hstop hlen, hwritten, Utf8.encode_append]

/-- Formatting never panics, and leaves what `captured` says. -/
theorem write_eq (formatter : Formatter) {writer : ScratchWriter} {cs : List Char}
    (h : writer.Holds cs) : ∃ writer', write formatter writer = .ok writer' ∧
      writer'.Holds (cs ++ (formatter.captured (writer.output.length - writer.position)).1) ∧
      writer'.output.length = writer.output.length ∧ writer'.truncated =
        (writer.truncated || (formatter.captured (writer.output.length - writer.position)).2) := by
  induction formatter generalizing writer cs with
  | done => exact ⟨writer, rfl, by simpa [Formatter.captured] using h, rfl, by simp [Formatter.captured]⟩
  | writeStr chunk onOk onErr ihOk ihErr =>
    obtain ⟨output, hwrite, hholds, hlen⟩ := writeStr_eq h chunk
    rw [write, hwrite, Formatter.captured]
    simp only [bind, Except.bind]
    by_cases hfits : Utf8.size chunk.toList ≤ writer.output.length - writer.position
    · obtain ⟨writer', hrest, hholds', hlen', htruncated⟩ := ihOk hholds
      simp only [hlen, hfits, decide_true, Utf8.takeBytes_eq_self hfits, ← Nat.sub_sub]
        at hrest hholds' hlen' htruncated
      simp only [hfits, decide_true, if_true, Utf8.takeBytes_eq_self hfits]
      refine ⟨writer', hrest, by simpa using hholds', hlen', by simpa using htruncated⟩
    · obtain ⟨writer', hrest, hholds', hlen', htruncated⟩ := ihErr hholds
      simp only [hlen, hfits, decide_false, ← Nat.sub_sub] at hrest hholds' hlen' htruncated
      simp only [hfits, decide_false, Bool.false_eq_true, if_false]
      refine ⟨writer', hrest, by simpa using hholds', hlen', by simpa using htruncated⟩

end ScratchWriter

/-! ## Operations -/

namespace Encoder

/-! ## Sequencing -/

/-- Once a value has been read, the rest runs with it. -/
theorem bind_run {α β : Type} {first : Encode α} {encoder encoder' : Encoder} {value : α}
    (h : first encoder = .ok value encoder') (next : α → Encode β) :
    (first >>= next) encoder = next value encoder' := by
  change EStateM.bind first next encoder = _
  rw [EStateM.bind, h]

/-- What follows a failure does not run. -/
theorem bind_stop {α β : Type} {first : Encode α} {encoder encoder' : Encoder} {stop : Stop}
    (h : first encoder = .error stop encoder') (next : α → Encode β) :
    (first >>= next) encoder = .error stop encoder' := by
  change EStateM.bind first next encoder = _
  rw [EStateM.bind, h]

/-- Read the encoder first. -/
theorem get_bind {β : Type} (next : Encoder → Encode β) (encoder : Encoder) :
    (get >>= next : Encode β) encoder = next encoder encoder := rfl

theorem modify_bind {β : Type} (f : Encoder → Encoder) (next : PUnit → Encode β)
    (encoder : Encoder) : (modify f >>= next : Encode β) encoder = next ⟨⟩ (f encoder) := rfl

theorem check_bind {α β : Type} {result : Except Stop α} {value : α} (h : result = .ok value)
    (next : α → Encode β) : (check result >>= next : Encode β) = next value := by
  rw [h]
  rfl

theorem copyFromSlice_eq {start stop : ℕ} {bytes output : List UInt8} {encoder : Encoder}
    (h : splice encoder.output start stop bytes = .ok output) :
    copyFromSlice start stop bytes encoder = .ok () { encoder with output := output } := by
  rw [copyFromSlice, get_bind, check_bind h]
  rfl

/-! ## Operations that append -/

/-- An encoder with its limits. -/
structure Ready (limit free : ℕ) (encoder : Encoder) : Prop where
  bound : encoder.position ≤ encoder.output.length
  maxValueBytes : encoder.maxValueBytes = limit
  scratch : encoder.scratch.length = free
  truncated : encoder.truncatedValues ≤ u32Max

def written (encoder : Encoder) : List UInt8 := encoder.output.take encoder.position

/-- `bytes` have been written, and `cut` more values truncated. -/
structure Appends (bytes : List UInt8) (cut : ℕ) (encoder encoder' : Encoder) : Prop where
  written : encoder'.written = encoder.written ++ bytes
  position : encoder'.position = encoder.position + bytes.length
  output : encoder'.output.length = encoder.output.length
  truncated : encoder'.truncatedValues = min u32Max (encoder.truncatedValues + cut)

/-- What the output buffer has left. -/
def room (encoder : Encoder) : ℕ := encoder.output.length - encoder.position

/-- Where `valid` holds and the buffer has room, the operation appends `bytes`; otherwise it returns
an error, the same one wherever as much room is left. It never panics. -/
def Writes (limit free : ℕ) (operation : Encode Unit) (valid : Prop) (bytes : List UInt8)
    (cut : ℕ) : Prop :=
  ∃ refusal : ℕ → EncodeError, ∀ encoder : Encoder, encoder.Ready limit free →
    (valid → bytes.length ≤ encoder.room → ∃ encoder',
      operation encoder = .ok () encoder' ∧ encoder'.Ready limit free ∧
        encoder.Appends bytes cut encoder') ∧
    (¬ (valid ∧ bytes.length ≤ encoder.room) →
      ∃ encoder', operation encoder = .error (.error (refusal encoder.room)) encoder')

variable {limit free : ℕ} {operation operation' : Encode Unit} {valid valid' : Prop}
  {bytes bytes' : List UInt8} {cut cut' : ℕ}

theorem Appends.trans {a b c : Encoder} (h : a.Appends bytes cut b) (h' : b.Appends bytes' cut' c) :
    a.Appends (bytes ++ bytes') (cut + cut') c where
  written := by rw [h'.written, h.written, List.append_assoc]
  position := by rw [h'.position, h.position, List.length_append, Nat.add_assoc]
  output := h'.output.trans h.output
  truncated := by
    rw [h'.truncated, h.truncated]
    omega

theorem Writes.congr (h : Writes limit free operation valid bytes cut) (hvalid : valid ↔ valid')
    (hbytes : bytes = bytes') (hcut : cut = cut') :
    Writes limit free operation valid' bytes' cut' := by
  rw [← hbytes, ← hcut, ← propext hvalid]
  exact h

theorem Ready.room_eq {encoder : Encoder} (h : encoder.Ready limit free) {count : ℕ} :
    count ≤ encoder.room ↔ encoder.position + count ≤ encoder.output.length := by
  have hbound := h.bound
  rw [room]
  omega

theorem Appends.room {encoder encoder' : Encoder} (h : encoder.Appends bytes cut encoder') :
    encoder'.room = encoder.room - bytes.length := by
  rw [Encoder.room, Encoder.room, h.position, h.output, Nat.sub_sub]

open Classical in
/-- One operation after another. -/
theorem Writes.next (h : Writes limit free operation valid bytes cut)
    (h' : Writes limit free operation' valid' bytes' cut') :
    Writes limit free (operation >>= fun _ => operation') (valid ∧ valid') (bytes ++ bytes')
      (cut + cut') := by
  obtain ⟨refusal, h⟩ := h
  obtain ⟨refusal', h'⟩ := h'
  refine ⟨fun room => if valid ∧ bytes.length ≤ room then refusal' (room - bytes.length)
    else refusal room, fun encoder hready => ?_⟩
  rw [List.length_append]
  by_cases hfirst : valid ∧ bytes.length ≤ encoder.room
  · obtain ⟨middle, hrun, hready', happends⟩ := (h encoder hready).1 hfirst.1 hfirst.2
    have hbind := bind_run hrun fun _ => operation'
    have hroom := happends.room
    dsimp only
    rw [hbind, if_pos hfirst, ← hroom]
    constructor
    · intro hvalid hfits
      obtain ⟨encoder', hrun', hready'', happends'⟩ := (h' middle hready').1 hvalid.2 (by omega)
      exact ⟨encoder', hrun', hready'', happends.trans happends'⟩
    · intro hno
      exact (h' middle hready').2 fun hyes => hno ⟨⟨hfirst.1, hyes.1⟩, by omega⟩
  · obtain ⟨encoder', hrun⟩ := (h encoder hready).2 hfirst
    dsimp only
    rw [bind_stop hrun, if_neg hfirst]
    exact ⟨fun hvalid hfits => absurd ⟨hvalid.1, by omega⟩ hfirst, fun _ => ⟨encoder', rfl⟩⟩

theorem writes_pure : Writes limit free (pure ()) True [] 0 :=
  ⟨fun _ => .bufferTooSmall, fun encoder hready =>
    ⟨fun _ _ => ⟨encoder, rfl, hready, ⟨(List.append_nil _).symm, rfl, rfl,
      (Nat.min_eq_right hready.truncated).symm⟩⟩, fun hno => absurd ⟨trivial, Nat.zero_le _⟩ hno⟩⟩

theorem writes_fail {error : EncodeError} (h : ¬ valid) :
    Writes limit free (fail error) valid bytes cut :=
  ⟨fun _ => error, fun encoder _ => ⟨fun hvalid => absurd hvalid h, fun _ => ⟨encoder, rfl⟩⟩⟩

/-- A test that must succeed for the rest to be written. -/
theorem Writes.guard {p : Prop} [Decidable p] {error : EncodeError}
    (h : p → Writes limit free operation valid bytes cut) :
    Writes limit free (if p then operation else fail error) (p ∧ valid) bytes cut := by
  split
  next hp => exact (h hp).congr (and_iff_right hp).symm rfl rfl
  next hp => exact writes_fail fun hvalid => hp hvalid.1

theorem writes_bytes (bytes : List UInt8) :
    Writes limit free (Encoder.bytes bytes) True bytes 0 := by
  refine ⟨fun _ => .bufferTooSmall, fun encoder hready => ?_⟩
  rw [hready.room_eq]
  by_cases hfits : encoder.position + bytes.length ≤ encoder.output.length
  · let moved : Encoder := { encoder with position := encoder.position + bytes.length }
    have hreserve : reserve bytes.length encoder = .ok encoder.position moved := if_pos hfits
    have hlen : bytes.length = encoder.position + bytes.length - encoder.position := by omega
    have hcopy : copyFromSlice encoder.position moved.position bytes moved = .ok () _ :=
      copyFromSlice_eq (splice_eq (Nat.le_add_right ..) hfits hlen)
    have hlength := length_spliced (Nat.le_add_right encoder.position bytes.length) hfits hlen
    rw [Encoder.bytes, bind_run hreserve, get_bind, hcopy]
    refine ⟨fun _ _ => ⟨_, rfl, ⟨?_, hready.maxValueBytes, hready.scratch, hready.truncated⟩,
      take_spliced (Nat.le_add_right ..) hfits hlen, rfl, hlength,
      (Nat.min_eq_right hready.truncated).symm⟩, fun hno => absurd ⟨trivial, hfits⟩ hno⟩
    exact hfits.trans hlength.ge
  · have hreserve : reserve bytes.length encoder = .error (.error .bufferTooSmall) encoder :=
      if_neg hfits
    rw [Encoder.bytes, bind_stop hreserve]
    exact ⟨fun _ hroom => absurd hroom hfits, fun _ => ⟨_, rfl⟩⟩

theorem writes_u16_ofNat {n : ℕ} (h : n ≤ u16Max) :
    Writes limit free (u16 (UInt16.ofNat n)) True (Codec.leBytes 2 n) 0 := by
  have hlength : (UInt16.ofNat n).toNat = n := UInt16.toNat_ofNat_of_lt (Nat.lt_succ_of_le h)
  rw [u16, Codec.u16Bytes, hlength]
  exact writes_bytes _

theorem writes_length (length : ℕ) (error : EncodeError) :
    Writes limit free (Encoder.length length error) (length ≤ u16Max) (Codec.leBytes 2 length) 0 := by
  by_cases hle : length ≤ u16Max
  · rw [Encoder.length, if_pos hle]
    exact (writes_u16_ofNat hle).congr (by simp [hle]) rfl rfl
  · rw [Encoder.length, if_neg hle]
    exact writes_fail hle

theorem writes_schema (value : String) :
    Writes limit free (schema value) (Utf8.size value.toList ≤ u16Max) (stringBytes value) 0 :=
  ((writes_length _ _).next (writes_bytes _)).congr (and_iff_left trivial) rfl rfl

theorem writes_optional {α : Type} {write : α → Encode Unit} {valid : α → Prop}
    {encode : α → List UInt8} {cut : α → ℕ} (value : Option α)
    (h : ∀ a ∈ value, Writes limit free (write a) (valid a) (encode a) (cut a)) :
    Writes limit free (optional write value) (∀ a ∈ value, valid a)
      (Codec.taggedBytes encode value) ((value.map cut).getD 0) := by
  cases value with
  | none => exact (writes_bytes [0]).congr (by simp) rfl rfl
  | some a => exact ((writes_bytes [1]).next (h a rfl)).congr (by simp) rfl (Nat.zero_add _)

theorem writes_forM {α : Type} {write : α → Encode Unit} {valid : α → Prop}
    {encode : α → List UInt8} {cut : α → ℕ} (values : List α)
    (h : ∀ a ∈ values, Writes limit free (write a) (valid a) (encode a) (cut a)) :
    Writes limit free (values.forM write) (∀ a ∈ values, valid a) (values.flatMap encode)
      (values.map cut).sum := by
  induction values with
  | nil => exact writes_pure.congr (by simp) rfl rfl
  | cons a values ih =>
    have hrest := ih fun b hb => h b (List.mem_cons_of_mem _ hb)
    exact ((h a (List.mem_cons_self ..)).next hrest).congr (by simp) rfl rfl

theorem writes_countTruncated : Writes limit free countTruncated True [] 1 :=
  ⟨fun _ => .bufferTooSmall, fun _ hready =>
    ⟨fun _ _ => ⟨_, rfl, ⟨hready.bound, hready.maxValueBytes, hready.scratch, Nat.min_le_left ..⟩,
      ⟨(List.append_nil _).symm, rfl, rfl, rfl⟩⟩, fun hno => absurd ⟨trivial, Nat.zero_le _⟩ hno⟩⟩

/-- A value is counted where the test says that it was cut. -/
theorem Writes.counting {p : Prop} [Decidable p]
    (h : Writes limit free operation valid bytes cut) :
    Writes limit free (if p then countTruncated >>= fun _ => operation else operation) valid bytes
      ((if p then 1 else 0) + cut) := by
  split
  · exact (writes_countTruncated.next h).congr (and_iff_right trivial) rfl rfl
  · exact h.congr Iff.rfl rfl (Nat.zero_add _).symm

/-- An operation that runs as another one does, from every state with these limits. -/
theorem Writes.of_run (h : Writes limit free operation' valid bytes cut)
    (hrun : ∀ encoder : Encoder, encoder.Ready limit free → operation encoder = operation' encoder) :
    Writes limit free operation valid bytes cut := by
  obtain ⟨refusal, h⟩ := h
  refine ⟨refusal, fun encoder hready => ?_⟩
  rw [hrun encoder hready]
  exact h encoder hready

/-! ## Dynamic text -/

/-- A dynamic string is written as its longest prefix, and counted when that is not all of it. -/
theorem writes_dynamic (hlimit : limit ≤ u16Max) (value : String) :
    Writes limit free (dynamic value false) True
      (Codec.textBytes (Utf8.takeBytes value.toList limit))
      (if limit < Utf8.size value.toList then 1 else 0) := by
  have hsize := Utf8.size_takeBytes_le value.toList limit
  have hwhole : Utf8.size (Utf8.takeBytes value.toList limit) = Utf8.size value.toList ↔ _ :=
    Utf8.size_takeBytes_eq_iff
  have hprefix := Utf8.size_le_of_prefix (Utf8.takeBytes_isPrefix value.toList limit)
  have htake := Utf8.take_encode_takeBytes value.toList limit
  have hbackOff := Utf8.backOff_min_size value.toList limit
  generalize Utf8.takeBytes value.toList limit = kept at *
  have hslice : slicePrefix (Utf8.encode value.toList) (Utf8.size kept) = .ok (Utf8.encode kept) := by
    rw [slicePrefix_eq (by rw [Utf8.length_encode]; exact hprefix), htake]
  have hrest : Writes limit free _ _ (Codec.textBytes kept) 0 :=
    (writes_u16_ofNat (hsize.trans hlimit)).next (writes_bytes (Utf8.encode kept))
  have hcounting := hrest.counting (p := false = true ∨ Utf8.size kept ≠ Utf8.size value.toList)
  refine (hcounting.of_run fun encoder hready => ?_).congr and_self_iff rfl ?_
  · rw [dynamic, get_bind, hready.maxValueBytes, hbackOff]
    dsimp only
    rw [check_bind hslice]
  · simp only [Bool.false_eq_true, false_or, ne_eq, hwhole, not_le, Nat.add_zero]

/-! ## Formatted text -/

theorem splice_splice {buffer a b : List UInt8} {start : ℕ}
    (h : start + (a.length + b.length) ≤ buffer.length) :
    (splice buffer start (start + a.length) a >>= fun buffer =>
      splice buffer (start + a.length) (start + a.length + b.length) b) =
        splice buffer start (start + (a.length + b.length)) (a ++ b) := by
  have ha : a.length = start + a.length - start := by omega
  have hb : b.length = start + a.length + b.length - (start + a.length) := by omega
  have hab : (a ++ b).length = start + (a.length + b.length) - start := by
    rw [List.length_append]
    omega
  have hroom : start + a.length ≤ buffer.length := by omega
  have hlen := length_spliced (Nat.le_add_right start a.length) hroom ha
  have htake := take_spliced (Nat.le_add_right start a.length) hroom ha
  have hdrop := drop_spliced (Nat.le_add_right start a.length) hroom ha b.length
  rw [splice_eq (Nat.le_add_right ..) hroom ha, splice_eq (Nat.le_add_right ..) h hab]
  change splice _ _ _ _ = _
  rw [splice_eq (Nat.le_add_right ..) (by omega) hb, htake, hdrop, List.append_assoc,
    List.append_assoc, Nat.add_assoc]

/-- The formatter fills the scratch buffer with what `captured` says. -/
theorem capture_eq (arguments : Formatter) {encoder : Encoder} (h : encoder.Ready limit free) :
    ∃ scratch : List UInt8, scratch.length = free ∧
      scratch.take (Utf8.size (arguments.captured free).1) = Utf8.encode (arguments.captured free).1 ∧
        capture arguments encoder = .ok (Utf8.size (arguments.captured free).1,
          (arguments.captured free).2) { encoder with
            scratch := scratch, invoked := encoder.invoked ++ [arguments] } := by
  have hempty : ScratchWriter.Holds
      { output := encoder.scratch, position := 0, truncated := false } [] :=
    ⟨rfl, Nat.zero_le _, rfl⟩
  obtain ⟨writer, hrun, hholds, hlen, htruncated⟩ := ScratchWriter.write_eq arguments hempty
  simp only [Nat.sub_zero, h.scratch, List.nil_append, Bool.false_or] at hholds hlen htruncated
  refine ⟨writer.output, hlen, ?_, ?_⟩
  · rw [← hholds.position]
    exact hholds.written
  · rw [capture, modify_bind, get_bind, check_bind hrun, ← hholds.position, ← htruncated]
    rfl

/-- The reserved room is filled in two parts, as one write of both would fill it. -/
theorem reserve_copy_copy {a b scratch : List UInt8} {length : ℕ}
    (hslice : slicePrefix scratch length = .ok b) (ha : a.length = 2) (hb : b.length = length)
    {encoder : Encoder} (hscratch : encoder.scratch = scratch) :
    (reserve (2 + length) >>= fun start => copyFromSlice start (start + 2) a >>= fun _ =>
      get >>= fun encoder => check (slicePrefix encoder.scratch length) >>= fun bytes =>
        copyFromSlice (start + 2) (start + 2 + length) bytes : Encode Unit) encoder =
      Encoder.bytes (a ++ b) encoder := by
  have hlength : (a ++ b).length = 2 + length := by rw [List.length_append, ha, hb]
  rw [Encoder.bytes, hlength]
  by_cases hfits : encoder.position + (2 + length) ≤ encoder.output.length
  · let moved : Encoder := { encoder with position := encoder.position + (2 + length) }
    have hreserve : reserve (2 + length) encoder = .ok encoder.position moved := if_pos hfits
    have hroom : encoder.position + (a.length + b.length) ≤ encoder.output.length := by
      rw [ha, hb]
      exact hfits
    -- two neighbouring splices are one
    have hwhole := splice_splice hroom
    have hfirst : splice encoder.output encoder.position (encoder.position + 2) a = .ok _ :=
      splice_eq (Nat.le_add_right ..) (by omega) (by omega)
    have hboth : splice encoder.output encoder.position (encoder.position + (2 + length)) (a ++ b) =
        .ok _ := splice_eq (Nat.le_add_right ..) hfits (by omega)
    rw [ha, hb, hfirst, hboth] at hwhole
    have hcopy : copyFromSlice encoder.position (encoder.position + 2) a moved = .ok () _ :=
      copyFromSlice_eq hfirst
    have hcopy' : copyFromSlice encoder.position (encoder.position + (2 + length)) (a ++ b) moved =
        .ok () _ := copyFromSlice_eq hboth
    rw [bind_run hreserve, bind_run hreserve, bind_run hcopy, get_bind, get_bind, hcopy']
    dsimp only [moved]
    rw [hscratch, check_bind hslice]
    exact copyFromSlice_eq hwhole
  · have hreserve : reserve (2 + length) encoder = .error (.error .bufferTooSmall) encoder :=
      if_neg hfits
    rw [bind_stop hreserve, bind_stop hreserve]

/-- Formatted text is written as the longest prefix of what the scratch buffer captured. -/
theorem writes_formatted (hlimit : limit ≤ u16Max) (arguments : Formatter) :
    Writes limit free (formatted arguments) True
      (Codec.textBytes (Utf8.takeBytes (arguments.captured free).1 limit))
      (if (arguments.captured free).2 = true ∨ limit < Utf8.size (arguments.captured free).1
        then 1 else 0) := by
  have hbytes : Writes limit free _ _ _ _ :=
    writes_bytes (Codec.textBytes (Utf8.takeBytes (arguments.captured free).1 limit))
  have hcounted := hbytes.counting (p := (arguments.captured free).2 = true ∨
    Utf8.size (Utf8.takeBytes (arguments.captured free).1 limit) ≠
      Utf8.size (arguments.captured free).1)
  refine Exists.imp (fun refusal hall encoder hready => ?_) hcounted
  obtain ⟨scratch, hlen, htake, hcapture⟩ := capture_eq arguments hready
  obtain ⟨filled, hfilled⟩ : ∃ filled : Encoder, filled = { encoder with
    scratch := scratch, invoked := encoder.invoked ++ [arguments] } := ⟨_, rfl⟩
  rw [← hfilled] at hcapture
  have hready' : filled.Ready limit free :=
    hfilled ▸ ⟨hready.bound, hready.maxValueBytes, hlen, hready.truncated⟩
  have hscratch : filled.scratch = scratch := hfilled ▸ rfl
  have hwrites := hall filled hready'
  clear hbytes hcounted hall
  -- from here on the text and the flag are any
  generalize (arguments.captured free).1 = text at *
  generalize (arguments.captured free).2 = truncated at *
  have hwhole : Utf8.size (Utf8.takeBytes text limit) = Utf8.size text ↔ _ :=
    Utf8.size_takeBytes_eq_iff
  have hsize := Utf8.size_takeBytes_le text limit
  have hpre := Utf8.takeBytes_isPrefix text limit
  have hbackOff := Utf8.backOff_min_size text limit
  generalize Utf8.takeBytes text limit = kept at *
  have hkept := Utf8.size_le_of_prefix hpre
  have hfree : Utf8.size text ≤ scratch.length := by
    have hcaptured := congrArg List.length htake
    rw [List.length_take, Utf8.length_encode] at hcaptured
    omega
  -- the scratch buffer is read twice: to find the cut, and to copy what is kept
  have hslice : slicePrefix scratch (Utf8.size text) = .ok (Utf8.encode text) := by
    rw [slicePrefix_eq hfree, htake]
  have hslice' : slicePrefix scratch (Utf8.size kept) = .ok (Utf8.encode kept) := by
    rw [slicePrefix_eq (hkept.trans hfree), ← Utf8.take_encode_of_prefix hpre, ← htake,
      List.take_take, Nat.min_eq_left hkept]
  have hdecode : expectUtf8 (Utf8.encode text) = .ok text := by
    rw [expectUtf8, Utf8.decode_encode]
  have hlength : (UInt16.ofNat (Utf8.size kept)).toNat = Utf8.size kept :=
    UInt16.toNat_ofNat_of_lt (Nat.lt_succ_of_le (hsize.trans hlimit))
  have hcopy : ∀ encoder : Encoder, encoder.scratch = scratch → _ = Encoder.bytes _ encoder :=
    fun encoder hscratch => reserve_copy_copy (a := Codec.leBytes 2 (Utf8.size kept)) hslice'
      (Codec.length_leBytes ..) (Utf8.length_encode kept) hscratch
  have hrun : formatted arguments encoder =
      (if truncated = true ∨ Utf8.size kept ≠ Utf8.size text then
        countTruncated >>= fun _ => Encoder.bytes (Codec.textBytes kept)
      else Encoder.bytes (Codec.textBytes kept)) filled := by
    rw [formatted, bind_run hcapture]
    dsimp only
    rw [get_bind, hscratch, check_bind hslice, check_bind hdecode, get_bind, hready'.maxValueBytes,
      hbackOff, Codec.u16Bytes, hlength]
    split
    · exact hcopy { filled with truncatedValues := min u32Max (filled.truncatedValues + 1) } hscratch
    · exact hcopy filled hscratch
  rw [hrun]
  simp only [ne_eq, hwhole, not_le, Nat.add_zero] at hwrites ⊢
  rw [hfilled] at hwrites ⊢
  refine ⟨fun hvalid hfits => ?_, hwrites.2⟩
  obtain ⟨encoder', hdone, hready'', happends⟩ := hwrites.1 hvalid hfits
  exact ⟨encoder', hdone, hready'', happends.written, happends.position, happends.output,
    happends.truncated⟩

end Encoder

end Logwise.Wire
