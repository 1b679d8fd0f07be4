import Logwise.Wire.Received

/-!
# Encoding and decoding an envelope

`encode_envelope` returns the layout's bytes of the envelope's frame exactly when they fit, and the
parser of the layout reads the frame back.
-/

namespace Logwise.Wire

theorem splice_append {a b c bytes : List UInt8} (h : bytes.length = b.length) :
    splice (a ++ (b ++ c)) a.length (a.length + b.length) bytes = .ok (a ++ (bytes ++ c)) := by
  have hdrop : (a ++ (b ++ c)).drop (a.length + b.length) = c := by
    rw [← List.append_assoc]
    exact List.drop_left' List.length_append
  rw [splice_eq (Nat.le_add_right ..) (by simp) (by omega), List.take_left' rfl, hdrop]

namespace Encoder

variable {limit free : ℕ}

/-- Reserved room is written as zeros. -/
theorem reserve_patch_bind {count : ℕ} {zeros : List UInt8} (hzeros : zeros.length = count)
    (next : ℕ → Encode EncodedEnvelope) (encoder : Encoder) :
    ((do
      let position ← reserve count
      copyFromSlice position (position + count) zeros
      pure position) >>= next) encoder =
      (Encoder.bytes zeros >>= fun _ => next encoder.position) encoder := by
  subst hzeros
  by_cases hfits : encoder.position + zeros.length ≤ encoder.output.length
  · let moved : Encoder := { encoder with position := encoder.position + zeros.length }
    have hreserve : reserve zeros.length encoder = .ok encoder.position moved := if_pos hfits
    have hcopy : copyFromSlice encoder.position (encoder.position + zeros.length) zeros moved =
        .ok () _ := copyFromSlice_eq (splice_eq (Nat.le_add_right ..) hfits (by omega))
    have hbytes : Encoder.bytes zeros encoder =
        copyFromSlice encoder.position moved.position zeros moved := by
      rw [Encoder.bytes, bind_run hreserve, get_bind]
    rw [bind_run (hbytes.trans hcopy)]
    refine bind_run ?_ next
    rw [bind_run hreserve, bind_run hcopy]
    rfl
  · have hreserve : reserve zeros.length encoder = .error (.error .bufferTooSmall) encoder :=
      if_neg hfits
    rw [Encoder.bytes, bind_stop (bind_stop hreserve _), bind_stop (bind_stop hreserve _)]

theorem reserveU16_bind (next : ℕ → Encode EncodedEnvelope) (encoder : Encoder) :
    (reserveU16 >>= next) encoder =
      (Encoder.bytes (Codec.u16Bytes 0) >>= fun _ => next encoder.position) encoder :=
  reserve_patch_bind (Codec.length_leBytes ..) next encoder

theorem reserveU32_bind (next : ℕ → Encode EncodedEnvelope) (encoder : Encoder) :
    (reserveU32 >>= next) encoder =
      (Encoder.bytes (Codec.u32Bytes 0) >>= fun _ => next encoder.position) encoder :=
  reserve_patch_bind (Codec.length_leBytes ..) next encoder

/-- What follows a write needs to agree only where the write succeeded. -/
theorem Writes.bind_congr {operation : Encode Unit} {valid : Prop} {bytes : List UInt8} {cut : ℕ}
    (h : Writes limit free operation valid bytes cut) {encoder : Encoder}
    (hready : encoder.Ready limit free) {next next' : Encode EncodedEnvelope}
    (hnext : ∀ encoder', Ready limit free encoder' → encoder.Appends bytes cut encoder' →
      next encoder' = next' encoder') :
    (operation >>= fun _ => next) encoder = (operation >>= fun _ => next') encoder := by
  obtain ⟨refusal, h⟩ := h
  by_cases hfits : valid ∧ bytes.length ≤ encoder.room
  · obtain ⟨encoder', hrun, hready', happends⟩ := (h encoder hready).1 hfits.1 hfits.2
    rw [bind_run hrun, bind_run hrun, hnext encoder' hready' happends]
  · obtain ⟨encoder', hrun⟩ := (h encoder hready).2 hfits
    rw [bind_stop hrun, bind_stop hrun]

/-- Patch the header and take the slice. -/
def finish (flagsAt lengthAt : ℕ) : Encode EncodedEnvelope := do
  let flags := if (← get).truncatedValues ≠ 0 then FLAG_TRUNCATED else 0
  patchU16 flagsAt flags
  let position := (← get).position
  if position ≤ u32Max then patchU32 lengthAt (UInt32.ofNat position)
  else fail .bufferTooSmall
  let written ← check (slicePrefix (← get).output position)
  pure { bytes := written, truncatedValues := (← get).truncatedValues }

/-- All writes of an envelope, with zeros for the header words that are patched. -/
def unpatched (envelope : Envelope) : Encode Unit := do
  bytes MAGIC
  u16 ABI_VERSION
  bytes (Codec.u16Bytes 0)
  bytes (Codec.u32Bytes 0)
  encodeBody envelope

/-- The two reserved words are at offsets 6 and 8. -/
theorem encodeFrame_eq (envelope : Envelope) {encoder : Encoder} (hready : encoder.Ready limit free)
    (hstart : encoder.position = 0) :
    encodeFrame envelope encoder = (unpatched envelope >>= fun _ => finish 6 8) encoder := by
  have hunpatched : (unpatched envelope >>= fun _ => finish 6 8) = (do
      bytes MAGIC
      u16 ABI_VERSION
      bytes (Codec.u16Bytes 0)
      bytes (Codec.u32Bytes 0)
      encodeBody envelope
      finish 6 8) := by
    simp only [unpatched, bind_assoc]
  rw [hunpatched]
  refine (writes_bytes MAGIC).bind_congr hready fun magic hmagic happends => ?_
  refine (writes_bytes (Codec.u16Bytes ABI_VERSION)).bind_congr hmagic fun version hversion happends' => ?_
  have hsix : version.position = 6 := by
    rw [happends'.position, happends.position, hstart]
    rfl
  rw [reserveU16_bind, hsix]
  refine (writes_bytes (Codec.u16Bytes 0)).bind_congr hversion fun flags _ happends'' => ?_
  have height : flags.position = 8 := by
    rw [happends''.position, hsix]
    rfl
  rw [reserveU32_bind, height]
  rfl

theorem writes_unpatched (hlimit : limit ≤ u16Max) (envelope : Envelope) (length : ℕ) :
    Writes limit free (unpatched envelope) envelope.Encodable
      (MAGIC ++ (Codec.u16Bytes ABI_VERSION ++ (Codec.u16Bytes 0 ++ (Codec.u32Bytes 0 ++
        (envelope.frame limit free (captureText limit free) length).body))))
      (envelope.cutValues limit free) :=
  ((writes_bytes MAGIC).next ((writes_bytes (Codec.u16Bytes ABI_VERSION)).next
    ((writes_bytes (Codec.u16Bytes 0)).next ((writes_bytes (Codec.u32Bytes 0)).next
      (writes_body hlimit envelope length))))).congr (by simp) rfl (by simp)

/-- The two header words are patched, and what was written is returned. -/
theorem finish_eq {encoder : Encoder} {opening body rest : List UInt8}
    (houtput : encoder.output =
      opening ++ (Codec.u16Bytes 0 ++ (Codec.u32Bytes 0 ++ (body ++ rest))))
    (hopening : opening.length = 6) (hposition : encoder.position = 12 + body.length)
    (hmax : encoder.position ≤ u32Max) :
    ∃ encoder', finish 6 8 encoder = .ok
      { bytes := opening ++
          (Codec.u16Bytes (if encoder.truncatedValues ≠ 0 then FLAG_TRUNCATED else 0) ++
            (Codec.u32Bytes (UInt32.ofNat encoder.position) ++ body))
        truncatedValues := encoder.truncatedValues } encoder' := by
  generalize hflags : (if encoder.truncatedValues ≠ 0 then FLAG_TRUNCATED else 0) = flags
  have hshort (value : UInt16) : (Codec.u16Bytes value).length = 2 := Codec.length_leBytes ..
  have hword (value : UInt32) : (Codec.u32Bytes value).length = 4 := Codec.length_leBytes ..
  -- the patches leave the bytes around the two words
  have hflagged : splice encoder.output 6 (6 + 2) (Codec.u16Bytes flags) = .ok
      (opening ++ (Codec.u16Bytes flags ++ (Codec.u32Bytes 0 ++ (body ++ rest)))) := by
    rw [houtput, ← hopening, ← hshort 0]
    exact splice_append ((hshort flags).trans (hshort 0).symm)
  have hpatched : splice (opening ++ (Codec.u16Bytes flags ++ (Codec.u32Bytes 0 ++ (body ++ rest))))
      8 (8 + 4) (Codec.u32Bytes (UInt32.ofNat encoder.position)) = .ok
      (opening ++ (Codec.u16Bytes flags ++
        (Codec.u32Bytes (UInt32.ofNat encoder.position) ++ (body ++ rest)))) := by
    have height : (opening ++ Codec.u16Bytes flags).length = 8 := by
      rw [List.length_append, hopening, hshort]
    have hsplice := splice_append (a := opening ++ Codec.u16Bytes flags) (c := body ++ rest)
      ((hword (UInt32.ofNat encoder.position)).trans (hword 0).symm)
    rwa [height, hword, List.append_assoc, List.append_assoc] at hsplice
  have hslice : slicePrefix (opening ++ (Codec.u16Bytes flags ++
      (Codec.u32Bytes (UInt32.ofNat encoder.position) ++ (body ++ rest)))) encoder.position =
      .ok (opening ++ (Codec.u16Bytes flags ++
        (Codec.u32Bytes (UInt32.ofNat encoder.position) ++ body))) := by
    have hlength : (opening ++ (Codec.u16Bytes flags ++
        (Codec.u32Bytes (UInt32.ofNat encoder.position) ++ body))).length = encoder.position := by
      simp only [List.length_append, hopening, hshort, hword, hposition]
      omega
    rw [slicePrefix_eq (by
      simp only [List.length_append, hopening, hshort, hword, hposition]
      omega)]
    refine congrArg Except.ok ?_
    simp only [← List.append_assoc] at hlength ⊢
    exact List.take_left' hlength
  rw [finish, get_bind, hflags, patchU16, bind_run (copyFromSlice_eq hflagged), get_bind]
  dsimp only
  rw [if_pos hmax, patchU32, bind_run (copyFromSlice_eq hpatched), get_bind]
  dsimp only
  rw [check_bind hslice]
  exact ⟨_, rfl⟩

theorem finish_error {encoder : Encoder} (hbound : encoder.position ≤ encoder.output.length)
    (hstart : 8 ≤ encoder.position) (hmax : ¬ encoder.position ≤ u32Max) :
    ∃ encoder', finish 6 8 encoder = .error (.error .bufferTooSmall) encoder' := by
  generalize hflags : (if encoder.truncatedValues ≠ 0 then FLAG_TRUNCATED else 0) = flags
  have hflagged : splice encoder.output 6 (6 + 2) (Codec.u16Bytes flags) = .ok _ :=
    splice_eq (by decide) (hstart.trans hbound) (Codec.length_leBytes ..)
  rw [finish, get_bind, hflags, patchU16, bind_run (copyFromSlice_eq hflagged), get_bind]
  dsimp only
  rw [if_neg hmax]
  exact ⟨_, rfl⟩

end Encoder

/-! ## The encoding as a whole -/

section Encoding

variable {envelope : Envelope} {maxValueBytes : ℕ} {output scratch : List UInt8}

/-- The limit the encoder works with. -/
def valueLimit (maxValueBytes : ℕ) : ℕ := min maxValueBytes u16Max

theorem valueLimit_le (maxValueBytes : ℕ) : valueLimit maxValueBytes ≤ u16Max :=
  Nat.min_le_right ..

/-- The bytes an encoding takes, the header included. -/
def Envelope.wireLength (envelope : Envelope) (limit free : ℕ) : ℕ :=
  12 + (envelope.frame limit free (captureText limit free) 0).body.length

/-- The frame the encoder writes. -/
def Envelope.written (envelope : Envelope) (limit free : ℕ) : Frame :=
  envelope.frame limit free (captureText limit free) (envelope.wireLength limit free)

theorem Envelope.length_bytes_written (envelope : Envelope) (limit free : ℕ) :
    (envelope.written limit free).bytes.length = envelope.wireLength limit free := by
  simp only [Frame.bytes, List.length_append, Codec.u16Bytes, Codec.u32Bytes, Codec.length_leBytes]
  change 4 + (2 + (2 + (4 + (envelope.frame limit free (captureText limit free) 0).body.length))) = _
  rw [wireLength]
  omega

theorem Encoder.ready_new (maxValueBytes : ℕ) (output scratch : List UInt8) :
    (Encoder.new maxValueBytes output scratch).Ready (valueLimit maxValueBytes) scratch.length where
  bound := Nat.zero_le _
  maxValueBytes := rfl
  scratch := rfl
  truncated := Nat.zero_le _

theorem length_header (body : List UInt8) :
    (MAGIC ++ (Codec.u16Bytes ABI_VERSION ++ (Codec.u16Bytes 0 ++
      (Codec.u32Bytes 0 ++ body)))).length = 12 + body.length := by
  simp only [List.length_append, Codec.u16Bytes, Codec.u32Bytes, Codec.length_leBytes, MAGIC,
    List.length_cons, List.length_nil]
  omega

/-- After the writes of an envelope that fits, only the header words are left to patch. -/
theorem run_unpatched (hvalid : envelope.Encodable)
    (hroom : envelope.wireLength (valueLimit maxValueBytes) scratch.length ≤ output.length) :
    ∃ encoder, Encoder.unpatched envelope (Encoder.new maxValueBytes output scratch) =
        .ok () encoder ∧
      encoder.position = envelope.wireLength (valueLimit maxValueBytes) scratch.length ∧
      encoder.position ≤ encoder.output.length ∧
      encoder.truncatedValues =
        min u32Max (envelope.cutValues (valueLimit maxValueBytes) scratch.length) ∧
      encoder.output = (MAGIC ++ Codec.u16Bytes ABI_VERSION) ++ (Codec.u16Bytes 0 ++
        (Codec.u32Bytes 0 ++ ((envelope.written (valueLimit maxValueBytes) scratch.length).body ++
          encoder.output.drop encoder.position))) := by
  have hwrites : Encoder.Writes _ scratch.length _ _ _ _ := Encoder.writes_unpatched
    (valueLimit_le maxValueBytes) envelope
    (envelope.wireLength (valueLimit maxValueBytes) scratch.length)
  obtain ⟨refusal, hwrites⟩ := hwrites
  obtain ⟨encoder, hrun, hready, happends⟩ :=
    (hwrites _ (Encoder.ready_new maxValueBytes output scratch)).1 hvalid (by
      rw [length_header]
      exact hroom)
  refine ⟨encoder, hrun, ?_, hready.bound, ?_, ?_⟩
  · rw [happends.position, length_header]
    exact Nat.zero_add _
  · rw [happends.truncated]
    exact congrArg _ (Nat.zero_add _)
  · have hwritten := happends.written
    rw [Encoder.written, Encoder.written] at hwritten
    conv_lhs => rw [← List.take_append_drop encoder.position encoder.output, hwritten]
    simp only [Encoder.new, List.take_zero, List.nil_append, List.append_assoc]
    rfl

/-- The flag says whether the count is zero, saturated or not. -/
theorem flags_written (envelope : Envelope) (limit free : ℕ) :
    (if min u32Max (envelope.cutValues limit free) ≠ 0 then FLAG_TRUNCATED else 0) =
      (envelope.written limit free).flags := by
  change _ = if envelope.cutValues limit free = 0 then 0 else FLAG_TRUNCATED
  by_cases hcut : envelope.cutValues limit free = 0
  · rw [if_pos hcut, hcut]
    rfl
  · have hpositive : min u32Max (envelope.cutValues limit free) ≠ 0 := by
      rw [u32Max]
      omega
    rw [if_neg hcut, if_pos hpositive]

/-- What fits is encoded as the layout's bytes. -/
theorem encodeEnvelope_fits (hvalid : envelope.Encodable)
    (hroom : envelope.wireLength (valueLimit maxValueBytes) scratch.length ≤ output.length)
    (hmax : envelope.wireLength (valueLimit maxValueBytes) scratch.length ≤ u32Max) :
    encodeEnvelope envelope maxValueBytes output scratch = .ok
      { bytes := (envelope.written (valueLimit maxValueBytes) scratch.length).bytes
        truncatedValues :=
          min u32Max (envelope.cutValues (valueLimit maxValueBytes) scratch.length) } := by
  have hready := Encoder.ready_new maxValueBytes output scratch
  obtain ⟨encoder, hrun, hposition, -, htruncated, houtput⟩ := run_unpatched hvalid hroom
  obtain ⟨encoder', hfinish⟩ :=
    Encoder.finish_eq houtput (by decide) hposition (hposition.trans_le hmax)
  rw [encodeEnvelope, Encoder.encodeFrame_eq envelope hready rfl, Encoder.bind_run hrun, hfinish,
    hposition, htruncated, flags_written, List.append_assoc]
  rfl

/-- What does not fit is refused, with an error that the lengths of the buffers decide; nothing
panics. -/
theorem encodeEnvelope_refuses (envelope : Envelope) (maxValueBytes : ℕ) (output scratch : List UInt8)
    (h : ¬ (envelope.Encodable ∧
      envelope.wireLength (valueLimit maxValueBytes) scratch.length ≤ output.length ∧
      envelope.wireLength (valueLimit maxValueBytes) scratch.length ≤ u32Max)) :
    ∃ error, ∀ output' scratch' : List UInt8, output'.length = output.length →
      scratch'.length = scratch.length →
        encodeEnvelope envelope maxValueBytes output' scratch' = .error (.error error) := by
  obtain ⟨refusal, hwrites⟩ : Encoder.Writes _ scratch.length _ _ _ _ := Encoder.writes_unpatched
    (valueLimit_le maxValueBytes) envelope
    (envelope.wireLength (valueLimit maxValueBytes) scratch.length)
  by_cases hfits : envelope.Encodable ∧
      envelope.wireLength (valueLimit maxValueBytes) scratch.length ≤ output.length
  · refine ⟨.bufferTooSmall, fun output' scratch' houtput hscratch => ?_⟩
    rw [← houtput, ← hscratch] at hfits
    obtain ⟨encoder, hrun, hposition, hbound, -, -⟩ := run_unpatched hfits.1 hfits.2
    have hstart : 8 ≤ encoder.position := by
      rw [hposition, Envelope.wireLength]
      omega
    obtain ⟨encoder', hfinish⟩ := Encoder.finish_error hbound hstart fun hmax =>
      h ⟨hfits.1, houtput ▸ hscratch ▸ hfits.2, hscratch ▸ hposition.ge.trans hmax⟩
    rw [encodeEnvelope, Encoder.encodeFrame_eq envelope (Encoder.ready_new ..) rfl,
      Encoder.bind_run hrun, hfinish]
  · refine ⟨refusal output.length, fun output' scratch' houtput hscratch => ?_⟩
    have hready := Encoder.ready_new maxValueBytes output' scratch'
    rw [hscratch] at hready
    have hroom : (Encoder.new maxValueBytes output' scratch').room = output.length := houtput
    obtain ⟨encoder', hrun⟩ := (hwrites _ hready).2 fun hyes => hfits ⟨hyes.1, by
      rw [length_header, hroom] at hyes
      exact hyes.2⟩
    rw [encodeEnvelope, Encoder.encodeFrame_eq envelope hready rfl, Encoder.bind_stop hrun, hroom]

/-- An encoding is the frame's bytes where these fit, or an error where they do not. -/
theorem encodeEnvelope_cases (envelope : Envelope) (maxValueBytes : ℕ) (output scratch : List UInt8) :
    (envelope.Encodable ∧
        envelope.wireLength (valueLimit maxValueBytes) scratch.length ≤ output.length ∧
        envelope.wireLength (valueLimit maxValueBytes) scratch.length ≤ u32Max ∧
        encodeEnvelope envelope maxValueBytes output scratch = .ok
          { bytes := (envelope.written (valueLimit maxValueBytes) scratch.length).bytes
            truncatedValues :=
              min u32Max (envelope.cutValues (valueLimit maxValueBytes) scratch.length) }) ∨
      ∃ error, encodeEnvelope envelope maxValueBytes output scratch = .error (.error error) := by
  by_cases hfits : envelope.Encodable ∧
      envelope.wireLength (valueLimit maxValueBytes) scratch.length ≤ output.length ∧
      envelope.wireLength (valueLimit maxValueBytes) scratch.length ≤ u32Max
  · obtain ⟨hvalid, hroom, hmax⟩ := hfits
    exact Or.inl ⟨hvalid, hroom, hmax, encodeEnvelope_fits hvalid hroom hmax⟩
  · obtain ⟨error, hrefused⟩ := encodeEnvelope_refuses envelope maxValueBytes output scratch hfits
    exact Or.inr ⟨error, hrefused output scratch rfl rfl⟩

/-- A result is the frame's bytes, with its length and its count of cut values. -/
theorem encodeEnvelope_ok {encoded : EncodedEnvelope}
    (h : encodeEnvelope envelope maxValueBytes output scratch = .ok encoded) :
    envelope.Encodable ∧
      envelope.wireLength (valueLimit maxValueBytes) scratch.length ≤ u32Max ∧
      encoded.bytes = (envelope.written (valueLimit maxValueBytes) scratch.length).bytes ∧
      encoded.truncatedValues =
        min u32Max (envelope.cutValues (valueLimit maxValueBytes) scratch.length) := by
  obtain ⟨hvalid, -, hmax, hok⟩ | ⟨error, herror⟩ :=
    encodeEnvelope_cases envelope maxValueBytes output scratch
  · rw [hok] at h
    cases h
    exact ⟨hvalid, hmax, rfl, rfl⟩
  · rw [herror] at h
    cases h

/-- Only the lengths of the buffers matter, not what is in them. -/
theorem encodeEnvelope_congr {output' scratch' : List UInt8} (houtput : output.length = output'.length)
    (hscratch : scratch.length = scratch'.length) :
    encodeEnvelope envelope maxValueBytes output scratch =
      encodeEnvelope envelope maxValueBytes output' scratch' := by
  by_cases hfits : envelope.Encodable ∧
      envelope.wireLength (valueLimit maxValueBytes) scratch.length ≤ output.length ∧
      envelope.wireLength (valueLimit maxValueBytes) scratch.length ≤ u32Max
  · rw [encodeEnvelope_fits hfits.1 hfits.2.1 hfits.2.2]
    rw [hscratch, houtput] at hfits
    rw [encodeEnvelope_fits hfits.1 hfits.2.1 hfits.2.2, hscratch]
  · obtain ⟨error, hrefused⟩ := encodeEnvelope_refuses envelope maxValueBytes output scratch hfits
    rw [hrefused output scratch rfl rfl, hrefused output' scratch' houtput.symm hscratch.symm]

end Encoding

/-! ## Round trip -/

theorem fits_cutTo {limit : ℕ} (hlimit : limit ≤ u16Max) (value : String) :
    Fits (cutTo limit value) := by
  have hsize := Utf8.size_takeBytes_le value.toList limit
  rw [Fits, cutTo, String.toList_ofList]
  exact Nat.lt_succ_of_le (hsize.trans hlimit)

theorem fits_captureText {limit : ℕ} (hlimit : limit ≤ u16Max) (free : ℕ) (formatter : Formatter) :
    Fits (captureText limit free formatter) := by
  have hsize := Utf8.size_takeBytes_le (formatter.captured free).1 limit
  rw [Fits, captureText, String.toList_ofList]
  exact Nat.lt_succ_of_le (hsize.trans hlimit)

theorem Envelope.Encodable.wellFormed {envelope : Envelope} (h : envelope.Encodable) {limit : ℕ}
    (hlimit : limit ≤ u16Max) (free : ℕ) : (envelope.written limit free).WellFormed where
  links := Nat.lt_succ_of_le h.links
  eventName := Nat.lt_succ_of_le h.eventName
  package := Nat.lt_succ_of_le h.package
  target := Nat.lt_succ_of_le h.target
  modulePath := Nat.lt_succ_of_le h.modulePath
  domain := fun domain hdomain => Nat.lt_succ_of_le (h.domain domain hdomain)
  test := fun test htest => by
    obtain ⟨whole, -, rfl⟩ := Option.map_eq_some_iff.mp htest
    exact fits_cutTo hlimit whole
  location := fun location hlocation => Nat.lt_succ_of_le (h.location location hlocation)
  count := (List.length_map _).trans_lt (Nat.lt_succ_of_le h.count)
  fields := fun field hfield => by
    obtain ⟨whole, hwhole, rfl⟩ := List.mem_map.mp hfield
    refine ⟨Nat.lt_succ_of_le (h.fields whole hwhole), ?_⟩
    change (frameValue limit (captureText limit free) whole.value).Fits
    cases whole.value with
    | str value => exact fits_cutTo hlimit value
    | debug value | display value => exact fits_captureText hlimit free value
    | bool _ | i64 _ | u64 _ | f64 _ => trivial
  message := fun message hmessage => by
    obtain ⟨whole, -, rfl⟩ := Option.map_eq_some_iff.mp hmessage
    exact fits_captureText hlimit free whole

/-- The formatters whose text a frame carries. -/
def Envelope.formatters (envelope : Envelope) : List Formatter :=
  envelope.retainedFields.filterMap (fun field => field.value.formatter) ++
    envelope.event.message.toList

/-- The text of a formatter, cut to what both the limit and the scratch buffer hold. -/
def cutText (limit free : ℕ) (formatter : Formatter) : String :=
  cutTo (min limit free) formatter.text

theorem captureText_eq_iff {limit free : ℕ} {formatter : Formatter} :
    captureText limit free formatter = cutText limit free formatter ↔
      formatter.StopsWhenCut limit free := by
  rw [captureText, cutText, cutTo, String.ofList_inj]
  exact formatter.takeBytes_captured_iff limit free

theorem frameValue_eq_iff {limit : ℕ} {render render' : Formatter → String} {value : ValueRef} :
    frameValue limit render value = frameValue limit render' value ↔
      ∀ formatter ∈ value.formatter, render formatter = render' formatter := by
  cases value <;> simp [frameValue, ValueRef.formatter]

/-- Frames of one envelope differ only in how they read its formatters. -/
theorem Envelope.frame_eq_iff {envelope : Envelope} {limit free length : ℕ}
    {render render' : Formatter → String} :
    envelope.frame limit free render length = envelope.frame limit free render' length ↔
      ∀ formatter ∈ envelope.formatters, render formatter = render' formatter := by
  have hfields : envelope.retainedFields.map (frameField limit render) =
      envelope.retainedFields.map (frameField limit render') ↔
      ∀ field ∈ envelope.retainedFields, ∀ formatter ∈ field.value.formatter,
        render formatter = render' formatter := by
    rw [List.map_inj_left]
    refine forall₂_congr fun field _ => ?_
    have hvalue : frameValue limit render field.value = frameValue limit render' field.value ↔ _ :=
      frameValue_eq_iff
    rw [frameField, frameField, FrameField.mk.injEq, ← hvalue]
    simp only [true_and]
  have hmessage : envelope.event.message.map render = envelope.event.message.map render' ↔
      ∀ formatter ∈ envelope.event.message, render formatter = render' formatter := by
    cases envelope.event.message <;> simp
  simp only [frame, Frame.mk.injEq, true_and, hfields, hmessage]
  rw [formatters, List.forall_mem_append]
  refine and_congr ⟨fun h formatter hformatter => ?_, fun h field hfield formatter hformatter =>
    h formatter (List.mem_filterMap.mpr ⟨field, hfield, hformatter⟩)⟩ ?_
  · obtain ⟨field, hfield, hsome⟩ := List.mem_filterMap.mp hformatter
    exact h field hfield formatter hsome
  · simp only [Option.mem_toList, Option.mem_def]

/-- The frame a host is promised: every text is its longest prefix that fits. -/
def Envelope.promised (envelope : Envelope) (limit free length : ℕ) : Frame :=
  envelope.frame limit free (cutText limit free) length

/-- **Round trip**: the parser of the table reads the promised frame off the returned bytes, and
nothing is left, exactly when no formatter goes on writing into the room that a cut left free. -/
theorem decode_encodeEnvelope_iff {envelope : Envelope} {maxValueBytes : ℕ}
    {output scratch : List UInt8} {encoded : EncodedEnvelope}
    (h : encodeEnvelope envelope maxValueBytes output scratch = .ok encoded) :
    (∃ frame, decodeFrame encoded.bytes = some (frame, []) ∧
      frame = envelope.promised (valueLimit maxValueBytes) scratch.length encoded.bytes.length ∧
        frame.version = 1 ∧ frame.length.toNat = encoded.bytes.length) ↔
      ∀ formatter ∈ envelope.formatters,
        formatter.StopsWhenCut (valueLimit maxValueBytes) scratch.length := by
  obtain ⟨hvalid, hmax, hbytes, -⟩ := encodeEnvelope_ok h
  have hlimit := valueLimit_le maxValueBytes
  generalize valueLimit maxValueBytes = limit at *
  have hlength : encoded.bytes.length = envelope.wireLength limit scratch.length := by
    rw [hbytes, envelope.length_bytes_written]
  have hreads := (reads_frame (hvalid.wellFormed hlimit scratch.length)).run
  rw [← hbytes] at hreads
  have hsame : envelope.written limit scratch.length =
      envelope.promised limit scratch.length encoded.bytes.length ↔
        ∀ formatter ∈ envelope.formatters, formatter.StopsWhenCut limit scratch.length := by
    simp only [hlength, ← captureText_eq_iff]
    exact Envelope.frame_eq_iff
  rw [← hsame]
  constructor
  · rintro ⟨frame, hdecode, hpromised, -⟩
    rw [hreads] at hdecode
    cases hdecode
    exact hpromised
  · intro hpromised
    refine ⟨_, hreads, hpromised, rfl, ?_⟩
    rw [hlength]
    exact UInt32.toNat_ofNat_of_lt' (Nat.lt_succ_of_le hmax)

/-- An envelope of one message. -/
def noted (message : Formatter) : Envelope :=
  { event := EventRef.text
      { eventName := "note", package := "app", target := "app", modulePath := "app"
        domain := none, severity := .info, eventClass := .diagnostic, kind := .adHocText
        location := none, fields := [] } .none message
    sequence := 1, droppedBefore := 0, truncatedBefore := 0, omittedFields := 0, links := []
    identity := { worker := 0, test := none } }

theorem encodable_noted (message : Formatter) : (noted message).Encodable where
  links := Nat.zero_le _
  eventName := show Utf8.size "note".toList ≤ u16Max by decide
  package := show Utf8.size "app".toList ≤ u16Max by decide
  target := show Utf8.size "app".toList ≤ u16Max by decide
  modulePath := show Utf8.size "app".toList ≤ u16Max by decide
  domain := nofun
  location := nofun
  count := Nat.zero_le _
  fields := nofun

theorem decode_encodeEnvelope_noted : ∃ encoded,
    encodeEnvelope (noted (.literal "ready")) 100 (List.replicate 128 0) [0, 0, 0, 0] =
        .ok encoded ∧
      ∃ frame, decodeFrame encoded.bytes = some (frame, []) ∧
        frame = (noted (.literal "ready")).promised 100 4 encoded.bytes.length ∧
          frame.version = 1 ∧ frame.length.toNat = encoded.bytes.length := by
  have hencode : encodeEnvelope (noted (.literal "ready")) 100 (List.replicate 128 0) [0, 0, 0, 0] =
      .ok _ :=
    encodeEnvelope_fits (encodable_noted _) (by decide +kernel) (by decide +kernel)
  refine ⟨_, hencode, (decode_encodeEnvelope_iff hencode).mpr fun formatter hformatter => ?_⟩
  cases List.mem_singleton.mp hformatter
  exact (Formatter.propagates_literal "ready").stopsWhenCut (valueLimit 100) 4

/-- A formatter that goes on whatever `write_str` returns. -/
def heedless : Formatter := .writeStr "aaé" (.literal "b") (.literal "b")

/-- **Spoiled prefix**: three bytes of scratch take "aa" and leave room for the chunk after the cut,
so the host reads "aab", which is no prefix of the text. -/
theorem heedless_misread : ∃ encoded,
    encodeEnvelope (noted heedless) 100 (List.replicate 128 0) [0, 0, 0] = .ok encoded ∧
      ∃ frame, decodeFrame encoded.bytes = some (frame, []) ∧ frame.message = some "aab" ∧
        frame ≠ (noted heedless).promised 100 3 encoded.bytes.length := by
  have hencode : encodeEnvelope (noted heedless) 100 (List.replicate 128 0) [0, 0, 0] = .ok _ :=
    encodeEnvelope_fits (encodable_noted _) (by decide +kernel) (by decide +kernel)
  have hreads := (reads_frame ((encodable_noted heedless).wellFormed (valueLimit_le 100) 3)).run
  refine ⟨_, hencode, _, hreads, by decide, fun hsame => ?_⟩
  have hmessage := congrArg Frame.message hsame
  exact absurd hmessage (by decide)

end Logwise.Wire
