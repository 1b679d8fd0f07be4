import Logwise.Wire.RoundTrip
import Mathlib.Tactic.Ring

/-!
# When an envelope fits

The size of a frame, added up over the envelope, and the strings that must fit a `u16` length.
An envelope is encoded exactly when these fit, and then into the same bytes in every buffer.
-/

namespace Logwise.Wire

/-- A `u16` length and the text. -/
def textSize (cs : List Char) : ℕ := 2 + Utf8.size cs

def locationSize (location : Location) : ℕ := textSize location.file.toList + (4 + 4)

def valueSize (limit free : ℕ) : ValueRef → ℕ
  | .bool _ => 1 + 1
  | .i64 _ | .u64 _ | .f64 _ => 1 + 8
  | .str value => 1 + textSize (Utf8.takeBytes value.toList limit)
  | .debug value | .display value => 1 + textSize (Utf8.takeBytes (value.captured free).1 limit)

def fieldSize (limit free : ℕ) (field : FieldRef) : ℕ :=
  textSize field.metadata.name.toList + (1 + (1 + valueSize limit free field.value))

/-- A presence tag, then the value. -/
def optionalSize {α : Type} (size : α → ℕ) (value : Option α) : ℕ := 1 + (value.map size).getD 0

namespace Envelope

def metadataSize (metadata : Metadata) : ℕ :=
  3 + (textSize metadata.eventName.toList + (textSize metadata.package.toList +
    (textSize metadata.target.toList + (textSize metadata.modulePath.toList +
      optionalSize (fun domain : Domain => textSize domain.name.toList) metadata.domain))))

/-- The bytes of the frame: the header of twelve, the loss counters and the worker, the context and
the links, the callsite, the identity of the test, the fields and the message. -/
def frameSize (envelope : Envelope) (limit free : ℕ) : ℕ :=
  12 + (4 * 8 + (16 + ((2 + 16 * envelope.links.length) + (metadataSize envelope.event.metadata +
    (optionalSize (fun test : String => textSize (Utf8.takeBytes test.toList limit))
        envelope.identity.test +
      (optionalSize locationSize envelope.event.metadata.location +
        (4 + ((2 + (envelope.retainedFields.map (fieldSize limit free)).sum) +
          optionalSize (fun message : Formatter =>
            textSize (Utf8.takeBytes (message.captured free).1 limit))
              envelope.event.message))))))))

/-- What `Encoder::schema` is called with. -/
def schemaStrings (envelope : Envelope) : List String :=
  let metadata := envelope.event.metadata
  [metadata.eventName, metadata.package, metadata.target, metadata.modulePath] ++
    (metadata.domain.map Domain.name).toList ++ (metadata.location.map Location.file).toList ++
      envelope.retainedFields.map fun field => field.metadata.name

end Envelope

theorem length_stringBytes (value : String) :
    (stringBytes value).length = textSize value.toList := Codec.length_textBytes _

theorem length_tokenBytes (token : ContextToken) : (tokenBytes token).length = 16 := by
  rw [tokenBytes, List.length_append, Codec.u64Bytes, Codec.u64Bytes, Codec.length_leBytes,
    Codec.length_leBytes]

theorem length_locationBytes (location : Location) :
    (locationBytes location).length = locationSize location := by
  simp only [locationBytes, List.length_append, length_stringBytes, Codec.u32Bytes,
    Codec.length_leBytes, locationSize]

theorem length_captureText (limit free : ℕ) (formatter : Formatter) :
    (stringBytes (captureText limit free formatter)).length =
      textSize (Utf8.takeBytes (formatter.captured free).1 limit) := by
  rw [length_stringBytes, captureText, String.toList_ofList]

theorem length_cutTo (limit : ℕ) (value : String) :
    (stringBytes (cutTo limit value)).length = textSize (Utf8.takeBytes value.toList limit) := by
  rw [length_stringBytes, cutTo, String.toList_ofList]

theorem length_valueBytes (limit free : ℕ) (value : ValueRef) :
    (valueBytes (frameValue limit (captureText limit free) value)).length =
      valueSize limit free value := by
  cases value with
  | bool value => rfl
  | i64 value | u64 value | f64 value => exact (Nat.add_comm _ _).trans (congrArg (1 + ·) (Codec.length_leBytes ..))
  | str value => exact (Nat.add_comm _ _).trans (congrArg (1 + ·) (length_cutTo limit value))
  | debug value | display value =>
    exact (Nat.add_comm _ _).trans (congrArg (1 + ·) (length_captureText limit free value))

theorem length_fieldBytes (limit free : ℕ) (field : FieldRef) :
    (fieldBytes (frameField limit (captureText limit free) field)).length =
      fieldSize limit free field := by
  rw [fieldBytes, List.length_append, List.length_append, List.length_append, length_stringBytes,
    fieldSize, ← length_valueBytes]
  rfl

/-- **Size**: the layout's bytes are as many as the sizes add up to. -/
theorem Envelope.wireLength_eq (envelope : Envelope) (limit free : ℕ) :
    envelope.wireLength limit free = envelope.frameSize limit free := by
  have hlinks : (Codec.countedBytes tokenBytes envelope.links).length =
      2 + 16 * envelope.links.length := by
    simp only [Codec.length_countedBytes, length_tokenBytes, List.map_const', List.sum_replicate_nat]
    rw [Nat.mul_comm]
  have hdomain : (Codec.taggedBytes stringBytes
      (envelope.event.metadata.domain.map Domain.name)).length =
        optionalSize (fun domain : Domain => textSize domain.name.toList)
          envelope.event.metadata.domain := by
    rw [Codec.taggedBytes_map, Codec.length_taggedBytes, optionalSize]
    simp only [length_stringBytes]
  have htest : (Codec.taggedBytes stringBytes (envelope.identity.test.map (cutTo limit))).length =
      optionalSize (fun test : String => textSize (Utf8.takeBytes test.toList limit))
        envelope.identity.test := by
    rw [Codec.taggedBytes_map, Codec.length_taggedBytes, optionalSize]
    simp only [length_cutTo]
  have hlocation : (Codec.taggedBytes locationBytes envelope.event.metadata.location).length =
      optionalSize locationSize envelope.event.metadata.location := by
    rw [Codec.length_taggedBytes, optionalSize]
    simp only [length_locationBytes]
  have hfields : (Codec.countedBytes fieldBytes
      (envelope.retainedFields.map (frameField limit (captureText limit free)))).length =
        2 + (envelope.retainedFields.map (fieldSize limit free)).sum := by
    rw [Codec.length_countedBytes, List.map_map]
    refine congrArg (fun sizes : List ℕ => 2 + sizes.sum) (List.map_congr_left fun field _ => ?_)
    exact length_fieldBytes limit free field
  have hmessage : (Codec.taggedBytes stringBytes
      (envelope.event.message.map (captureText limit free))).length =
        optionalSize (fun message : Formatter =>
          textSize (Utf8.takeBytes (message.captured free).1 limit)) envelope.event.message := by
    rw [Codec.taggedBytes_map, Codec.length_taggedBytes, optionalSize]
    simp only [length_captureText]
  simp only [wireLength, Frame.body, frame, List.length_append, Codec.u64Bytes, Codec.u32Bytes,
    Codec.length_leBytes, length_tokenBytes, length_stringBytes, List.length_singleton, hlinks,
    hdomain, htest, hlocation, hfields, hmessage, frameSize, metadataSize]
  ring

/-- What must hold of the lengths of an envelope, string by string. -/
theorem Envelope.encodable_iff (envelope : Envelope) :
    envelope.Encodable ↔ envelope.links.length ≤ u16Max ∧ envelope.retainedFields.length ≤ u16Max ∧
      ∀ value ∈ envelope.schemaStrings, Utf8.size value.toList ≤ u16Max := by
  constructor
  · intro h
    refine ⟨h.links, h.count, fun value hvalue => ?_⟩
    simp only [schemaStrings, List.mem_append, List.mem_cons, List.not_mem_nil, or_false,
      Option.mem_toList] at hvalue
    obtain (((rfl | rfl | rfl | rfl) | hdomain) | hlocation) | hfield := hvalue
    · exact h.eventName
    · exact h.package
    · exact h.target
    · exact h.modulePath
    · exact h.domain value hdomain
    · obtain ⟨location, hl, rfl⟩ := Option.map_eq_some_iff.mp hlocation
      exact h.location location hl
    · obtain ⟨field, hf, rfl⟩ := List.mem_map.mp hfield
      exact h.fields field hf
  · rintro ⟨hlinks, hcount, hstrings⟩
    simp only [schemaStrings, List.forall_mem_append, List.forall_mem_cons] at hstrings
    obtain ⟨⟨⟨⟨heventName, hpackage, htarget, hmodulePath, -⟩, hdomain⟩, hlocation⟩, hfields⟩ := hstrings
    refine ⟨hlinks, heventName, hpackage, htarget, hmodulePath, fun domain hd => ?_,
      fun location hl => ?_, hcount, fun field hf => ?_⟩
    · exact hdomain domain (Option.mem_toList.mpr hd)
    · exact hlocation location.file (Option.mem_toList.mpr (Option.map_eq_some_iff.mpr ⟨location, hl, rfl⟩))
    · exact hfields field.metadata.name (List.mem_map_of_mem hf)

/-- Below 4 GiB the length of the frame fits its `u32` wherever the frame fits the buffer. -/
theorem encodeEnvelope_fits_below {envelope : Envelope} {maxValueBytes : ℕ}
    {output scratch : List UInt8} (hbelow : output.length < 2 ^ 32) (hvalid : envelope.Encodable)
    (hroom : envelope.frameSize (valueLimit maxValueBytes) scratch.length ≤ output.length) :
    encodeEnvelope envelope maxValueBytes output scratch = .ok
      { bytes := (envelope.written (valueLimit maxValueBytes) scratch.length).bytes
        truncatedValues :=
          min u32Max (envelope.cutValues (valueLimit maxValueBytes) scratch.length) } := by
  rw [← envelope.wireLength_eq] at hroom
  exact encodeEnvelope_fits hvalid hroom (hroom.trans (Nat.le_of_lt_succ hbelow))

/-- **The encoder succeeds exactly when the envelope fits, and never panics.** Below 4 GiB the only
causes of an error are the counts of links and fields, the lengths of the schema strings and the
room of the buffer. Every length it writes is exact, and the bytes do not depend on the buffer. -/
theorem encodeEnvelope_ok_iff (envelope : Envelope) (maxValueBytes : ℕ) (output scratch : List UInt8)
    (hbelow : output.length < 2 ^ 32) :
    ((∃ encoded, encodeEnvelope envelope maxValueBytes output scratch = .ok encoded) ↔
      envelope.links.length ≤ 65535 ∧ envelope.retainedFields.length ≤ 65535 ∧
        (∀ value ∈ envelope.schemaStrings, Utf8.size value.toList ≤ 65535) ∧
        envelope.frameSize (valueLimit maxValueBytes) scratch.length ≤ output.length) ∧
    encodeEnvelope envelope maxValueBytes output scratch ≠ .error .panic ∧
    ∀ encoded, encodeEnvelope envelope maxValueBytes output scratch = .ok encoded →
      (∃ frame : Frame, frame.WellFormed ∧ encoded.bytes = frame.bytes ∧
        frame.length.toNat = encoded.bytes.length) ∧
      encoded.bytes.length = envelope.frameSize (valueLimit maxValueBytes) scratch.length ∧
      ∀ other : List UInt8, other.length < 2 ^ 32 →
        envelope.frameSize (valueLimit maxValueBytes) scratch.length ≤ other.length →
          encodeEnvelope envelope maxValueBytes other scratch = .ok encoded := by
  have hencodable := envelope.encodable_iff
  have hcases := encodeEnvelope_cases envelope maxValueBytes output scratch
  rw [envelope.wireLength_eq] at hcases
  refine ⟨⟨?_, ?_⟩, fun hpanic => ?_, fun encoded h => ?_⟩
  · rintro ⟨encoded, h⟩
    obtain ⟨hvalid, hroom, -, -⟩ | ⟨error, herror⟩ := hcases
    · obtain ⟨hlinks, hcount, hstrings⟩ := hencodable.mp hvalid
      exact ⟨hlinks, hcount, hstrings, hroom⟩
    · rw [herror] at h
      cases h
  · rintro ⟨hlinks, hcount, hstrings, hroom⟩
    exact ⟨_, encodeEnvelope_fits_below hbelow (hencodable.mpr ⟨hlinks, hcount, hstrings⟩) hroom⟩
  · obtain ⟨-, -, -, hok⟩ | ⟨error, herror⟩ := hcases
    · rw [hok] at hpanic
      cases hpanic
    · rw [herror] at hpanic
      cases hpanic
  · obtain ⟨hvalid, hmax, hbytes, htruncated⟩ := encodeEnvelope_ok h
    have hlength : encoded.bytes.length =
        envelope.wireLength (valueLimit maxValueBytes) scratch.length := by
      rw [hbytes, envelope.length_bytes_written]
    refine ⟨⟨_, hvalid.wellFormed (valueLimit_le maxValueBytes) scratch.length, hbytes, ?_⟩,
      hlength.trans (envelope.wireLength_eq ..), fun other hother hroom => ?_⟩
    · rw [hlength]
      exact UInt32.toNat_ofNat_of_lt' (Nat.lt_succ_of_le hmax)
    · rw [encodeEnvelope_fits_below hother hvalid hroom, ← hbytes, ← htruncated]

/-- A note of five letters, four of which fit the scratch buffer, takes 102 bytes. -/
theorem encodeEnvelope_ok_iff_noted :
    (∃ encoded, encodeEnvelope (noted (.literal "ready")) 100 (List.replicate 102 0)
        [0, 0, 0, 0] = .ok encoded) ∧
      ¬ ∃ encoded, encodeEnvelope (noted (.literal "ready")) 100 (List.replicate 101 0)
        [0, 0, 0, 0] = .ok encoded := by
  have hsize : (noted (.literal "ready")).frameSize (valueLimit 100) 4 = 102 := by decide +kernel
  have hstrings : ∀ value ∈ (noted (.literal "ready")).schemaStrings,
      Utf8.size value.toList ≤ 65535 := by decide +kernel
  constructor
  · refine (encodeEnvelope_ok_iff _ 100 _ _ ?_).1.mpr ⟨Nat.zero_le _, Nat.zero_le _, hstrings, ?_⟩
    · rw [List.length_replicate]
      decide
    · exact hsize.le.trans List.length_replicate.ge
  · intro h
    obtain ⟨-, -, -, hroom⟩ := (encodeEnvelope_ok_iff _ 100 _ _ (by decide +kernel)).1.mp h
    have hroom' := hsize.ge.trans hroom
    rw [List.length_replicate] at hroom'
    exact absurd hroom' (by decide)

end Logwise.Wire
