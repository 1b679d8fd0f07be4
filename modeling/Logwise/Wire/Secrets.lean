import Logwise.Wire.RoundTrip

/-!
# Secret fields and the wire

An encoding runs the formatters of the fields it retains and of the message, in order, and no other;
what it returns does not depend on the secret fields of the event.
-/

namespace Logwise.Wire

namespace Encoder

/-- The operation runs the formatters in order; where it fails, it has run the first of them. -/
def Invokes {α : Type} (operation : Encode α) (formatters : List Formatter) : Prop :=
  ∀ encoder : Encoder,
    match operation encoder with
    | .ok _ encoder' => encoder'.invoked = encoder.invoked ++ formatters
    | .error _ encoder' => ∃ run, run <+: formatters ∧ encoder'.invoked = encoder.invoked ++ run

variable {α β : Type} {first : Encode α} {next : α → Encode β} {formatters formatters' : List Formatter}

theorem Invokes.bind (h : Invokes first formatters) (hnext : ∀ value, Invokes (next value) formatters') :
    Invokes (first >>= next) (formatters ++ formatters') := by
  intro encoder
  have hfirst := h encoder
  cases hrun : first encoder with
  | error stop encoder' =>
    rw [hrun] at hfirst
    obtain ⟨run, hprefix, hinvoked⟩ := hfirst
    rw [bind_stop hrun]
    exact ⟨run, hprefix.trans (List.prefix_append ..), hinvoked⟩
  | ok value encoder' =>
    rw [hrun] at hfirst
    have hsecond := hnext value encoder'
    rw [bind_run hrun]
    cases hrun' : next value encoder' with
    | ok _ encoder'' =>
      rw [hrun'] at hsecond
      dsimp only at hfirst hsecond ⊢
      rw [hsecond, hfirst, List.append_assoc]
    | error stop encoder'' =>
      rw [hrun'] at hsecond
      obtain ⟨run, hprefix, hinvoked⟩ := hsecond
      refine ⟨formatters ++ run, (List.prefix_append_right_inj _).mpr hprefix, ?_⟩
      rw [hinvoked, hfirst, List.append_assoc]

/-- What comes first runs no formatter. -/
theorem Invokes.after (h : Invokes first []) (hnext : ∀ value, Invokes (next value) formatters) :
    Invokes (first >>= next) formatters := h.bind hnext

/-- What follows runs no formatter. -/
theorem Invokes.before (h : Invokes first formatters) (hnext : ∀ value, Invokes (next value) []) :
    Invokes (first >>= next) formatters := by
  have hbind := h.bind hnext
  rwa [List.append_nil] at hbind

theorem invokes_pure (value : α) : Invokes (pure value) [] := fun encoder =>
  (List.append_nil encoder.invoked).symm

theorem invokes_get : Invokes (get : Encode Encoder) [] := fun encoder =>
  (List.append_nil encoder.invoked).symm

theorem invokes_fail (error : EncodeError) : Invokes (fail error) formatters := fun encoder =>
  ⟨[], List.nil_prefix, (List.append_nil encoder.invoked).symm⟩

theorem invokes_check (result : Except Stop α) : Invokes (check result) [] := by
  intro encoder
  cases result with
  | ok value => exact (List.append_nil encoder.invoked).symm
  | error stop => exact ⟨[], List.prefix_rfl, (List.append_nil encoder.invoked).symm⟩

theorem invokes_modify {f : Encoder → Encoder} (h : ∀ encoder, (f encoder).invoked = encoder.invoked) :
    Invokes (modify f) [] := by
  intro encoder
  change (f encoder).invoked = _
  rw [h, List.append_nil]

theorem invokes_ite {p : Prop} [Decidable p] {yes no : Encode α} (hyes : Invokes yes formatters)
    (hno : Invokes no formatters) : Invokes (if p then yes else no) formatters := by
  split
  · exact hyes
  · exact hno

theorem invokes_reserve (count : ℕ) : Invokes (reserve count) [] := by
  intro encoder
  by_cases hfits : encoder.position + count ≤ encoder.output.length
  · rw [reserve, if_pos hfits]
    exact (List.append_nil _).symm
  · rw [reserve, if_neg hfits]
    exact ⟨[], List.prefix_rfl, (List.append_nil _).symm⟩

theorem invokes_copyFromSlice (start stop : ℕ) (bytes : List UInt8) :
    Invokes (copyFromSlice start stop bytes) [] :=
  invokes_get.after fun _ => (invokes_check _).after fun _ => invokes_modify fun _ => rfl

theorem invokes_bytes (bytes : List UInt8) : Invokes (Encoder.bytes bytes) [] :=
  (invokes_reserve _).after fun _ => invokes_get.after fun _ => invokes_copyFromSlice _ _ _

theorem invokes_length (length : ℕ) (error : EncodeError) : Invokes (Encoder.length length error) [] :=
  invokes_ite (invokes_bytes _) (invokes_fail error)

theorem invokes_schema (value : String) : Invokes (schema value) [] :=
  (invokes_length _ _).after fun _ => invokes_bytes _

theorem invokes_countTruncated : Invokes countTruncated [] := invokes_modify fun _ => rfl

theorem invokes_dynamic (value : String) (wasTruncated : Bool) :
    Invokes (dynamic value wasTruncated) [] := by
  refine invokes_get.after fun encoder => ?_
  have hrest (length : ℕ) : Invokes (do
      u16 (UInt16.ofNat length)
      bytes (← check (slicePrefix (Utf8.encode value.toList) length))) [] :=
    (invokes_bytes _).after fun _ => (invokes_check _).after fun _ => invokes_bytes _
  exact invokes_ite (invokes_countTruncated.after fun _ => hrest _) (hrest _)

theorem invokes_optional {write : α → Encode Unit} {run : α → List Formatter}
    (h : ∀ value, Invokes (write value) (run value)) (value : Option α) :
    Invokes (optional write value) (value.toList.flatMap run) := by
  cases value with
  | none => exact invokes_bytes _
  | some value =>
    rw [Option.toList_some, List.flatMap_singleton]
    exact (invokes_bytes _).after fun _ => h value

theorem invokes_forM {write : α → Encode Unit} {run : α → List Formatter}
    (h : ∀ value, Invokes (write value) (run value)) (values : List α) :
    Invokes (values.forM write) (values.flatMap run) := by
  induction values with
  | nil => exact invokes_pure _
  | cons value values ih => exact (h value).bind fun _ => ih

/-- The formatter runs before anything of it is written. -/
theorem invokes_capture (arguments : Formatter) : Invokes (capture arguments) [arguments] := by
  have hmark : Invokes (modify fun encoder : Encoder =>
      { encoder with invoked := encoder.invoked ++ [arguments] }) [arguments] := fun _ => rfl
  refine hmark.before fun _ => invokes_get.after fun _ => (invokes_check _).after fun writer => ?_
  have hscratch : Invokes (modify fun encoder : Encoder =>
      { encoder with scratch := writer.output }) [] := invokes_modify fun _ => rfl
  exact hscratch.after fun _ => invokes_pure _

theorem invokes_formatted (arguments : Formatter) : Invokes (formatted arguments) [arguments] := by
  refine (invokes_capture arguments).before fun _ => ?_
  refine invokes_get.after fun _ => (invokes_check _).after fun bytes =>
    (invokes_check _).after fun value => invokes_get.after fun encoder => ?_
  have hrest (length : ℕ) : Invokes (do
      let start ← reserve (2 + length)
      copyFromSlice start (start + 2) (Codec.u16Bytes (UInt16.ofNat length))
      let bytes ← check (slicePrefix (← get).scratch length)
      copyFromSlice (start + 2) (start + 2 + length) bytes) [] :=
    (invokes_reserve _).after fun _ => (invokes_copyFromSlice _ _ _).after fun _ =>
      invokes_get.after fun _ => (invokes_check _).after fun _ => invokes_copyFromSlice _ _ _
  exact invokes_ite (invokes_countTruncated.after fun _ => hrest _) (hrest _)

theorem invokes_value (value : ValueRef) : Invokes (Encoder.value value) value.formatter.toList := by
  cases value with
  | bool _ | i64 _ | u64 _ | f64 _ => exact (invokes_bytes _).after fun _ => invokes_bytes _
  | str value => exact (invokes_bytes _).after fun _ => invokes_dynamic _ _
  | debug value | display value => exact (invokes_bytes _).after fun _ => invokes_formatted value

theorem invokes_token (token : ContextToken) : Invokes (Encoder.token token) [] :=
  (invokes_bytes _).after fun _ => invokes_bytes _

theorem invokes_location (location : Location) : Invokes (Encoder.location location) [] :=
  (invokes_schema _).after fun _ => (invokes_bytes _).after fun _ => invokes_bytes _

theorem invokes_field (field : FieldRef) :
    Invokes (Encoder.field field) field.value.formatter.toList :=
  (invokes_schema _).after fun _ => (invokes_bytes _).after fun _ => (invokes_bytes _).after fun _ =>
    invokes_value field.value

/-- An optional part without a formatter. -/
theorem invokes_optional_nil {write : α → Encode Unit} (h : ∀ value, Invokes (write value) [])
    (value : Option α) : Invokes (optional write value) [] := by
  have hoptional := invokes_optional h value
  rwa [List.flatMap_eq_nil_iff.mpr fun _ _ => rfl] at hoptional

theorem invokes_fields (envelope : Envelope) :
    Invokes (envelope.retainedFields.forM field >>= fun _ =>
      optional formatted envelope.event.message) envelope.formatters := by
  have hfields := invokes_forM invokes_field envelope.retainedFields
  have hmessage := invokes_optional invokes_formatted envelope.event.message
  rw [← List.filterMap_eq_flatMap_toList] at hfields
  rw [List.flatMap_singleton'] at hmessage
  exact hfields.bind fun _ => hmessage

theorem invokes_body (envelope : Envelope) : Invokes (encodeBody envelope) envelope.formatters := by
  refine (invokes_bytes _).after fun _ => (invokes_bytes _).after fun _ =>
    (invokes_bytes _).after fun _ => (invokes_bytes _).after fun _ =>
    (invokes_token _).after fun _ => (invokes_length _ _).after fun _ => ?_
  have hlinks := invokes_forM invokes_token envelope.links
  rw [List.flatMap_eq_nil_iff.mpr fun _ _ => rfl] at hlinks
  refine hlinks.after fun _ => (invokes_bytes _).after fun _ => (invokes_bytes _).after fun _ =>
    (invokes_bytes _).after fun _ => (invokes_schema _).after fun _ =>
    (invokes_schema _).after fun _ => (invokes_schema _).after fun _ =>
    (invokes_schema _).after fun _ => ?_
  refine (invokes_optional_nil invokes_schema _).after fun _ =>
    (invokes_optional_nil (fun test => invokes_dynamic test false) _).after fun _ =>
    (invokes_optional_nil invokes_location _).after fun _ => ?_
  exact invokes_ite
    ((invokes_bytes _).after fun _ => (invokes_bytes _).after fun _ => invokes_fields envelope)
    (invokes_fail _)

theorem invokes_frame (envelope : Envelope) : Invokes (encodeFrame envelope) envelope.formatters := by
  have hreserved (count : ℕ) (zeros : List UInt8) : Invokes (do
      let position ← reserve count
      copyFromSlice position (position + count) zeros
      pure position) [] :=
    (invokes_reserve _).after fun _ => (invokes_copyFromSlice _ _ _).after fun _ => invokes_pure _
  refine (invokes_bytes _).after fun _ => (invokes_bytes _).after fun _ =>
    (hreserved _ _).after fun flagsAt => (hreserved _ _).after fun lengthAt =>
    (invokes_body envelope).before fun _ => invokes_get.after fun encoder =>
    (invokes_copyFromSlice _ _ _).after fun _ => invokes_get.after fun encoder => ?_
  have hrest : Invokes (do
      let written ← check (slicePrefix (← get).output encoder.position)
      pure ({ bytes := written, truncatedValues := (← get).truncatedValues } : EncodedEnvelope)) [] :=
    invokes_get.after fun _ => (invokes_check _).after fun _ => invokes_get.after fun _ =>
      invokes_pure _
  exact invokes_ite ((invokes_copyFromSlice _ _ _).after fun _ => hrest)
    ((invokes_fail _).after fun _ => hrest)

end Encoder

/-- The formatters an encoding has run, whether it returned a frame or an error. -/
def invokedBy (envelope : Envelope) (maxValueBytes : ℕ) (output scratch : List UInt8) :
    List Formatter :=
  match encodeFrame envelope (Encoder.new maxValueBytes output scratch) with
  | .ok _ encoder | .error _ encoder => encoder.invoked

theorem invokedBy_isPrefix (envelope : Envelope) (maxValueBytes : ℕ) (output scratch : List UInt8) :
    invokedBy envelope maxValueBytes output scratch <+: envelope.formatters := by
  have hinvokes := Encoder.invokes_frame envelope (Encoder.new maxValueBytes output scratch)
  rw [invokedBy]
  cases hrun : encodeFrame envelope (Encoder.new maxValueBytes output scratch) with
  | ok encoded encoder =>
    rw [hrun] at hinvokes
    have hinvoked : encoder.invoked = envelope.formatters := hinvokes
    exact hinvoked ▸ List.prefix_rfl
  | error stop encoder =>
    rw [hrun] at hinvokes
    obtain ⟨run, hprefix, hinvoked⟩ := hinvokes
    show encoder.invoked <+: envelope.formatters
    rw [show encoder.invoked = run from hinvoked]
    exact hprefix

/-! ## Two envelopes -/

/-- The slot holds no field, or a secret one. -/
def HoldsSecret (slot : Option FieldRef) : Prop :=
  ∀ field ∈ slot, field.metadata.privacy = .secret

/-- The envelopes differ only in slots that hold no field or a secret one. -/
structure Envelope.EqualExceptSecrets (envelope envelope' : Envelope) : Prop where
  fields : List.Forall₂ (fun slot slot' => slot = slot' ∨ HoldsSecret slot ∧ HoldsSecret slot')
    envelope.event.fields envelope'.event.fields
  rest : envelope' = { envelope with
    event := { envelope.event with fields := envelope'.event.fields } }

theorem retained_eq_of_forall₂ {slots slots' : List (Option FieldRef)}
    (h : List.Forall₂ (fun slot slot' => slot = slot' ∨ HoldsSecret slot ∧ HoldsSecret slot')
      slots slots') :
    ((slots.filterMap id).filter fun field => field.metadata.privacy ≠ .secret) =
      (slots'.filterMap id).filter fun field => field.metadata.privacy ≠ .secret := by
  have hdropped {slot : Option FieldRef} (hsecret : HoldsSecret slot)
      (slots : List (Option FieldRef)) :
      (((slot :: slots).filterMap id).filter fun field => field.metadata.privacy ≠ .secret) =
        (slots.filterMap id).filter fun field => field.metadata.privacy ≠ .secret := by
    cases slot with
    | none => rfl
    | some field =>
      have hid : id (some field) = some field := rfl
      rw [List.filterMap_cons_some hid, List.filter_cons_of_neg]
      simpa using hsecret field rfl
  induction h with
  | nil => rfl
  | @cons slot slot' slots slots' hslot _ ih =>
    obtain rfl | ⟨hsecret, hsecret'⟩ := hslot
    · cases slot with
      | none => exact ih
      | some field =>
        have hid : id (some field) = some field := rfl
        rw [List.filterMap_cons_some hid, List.filterMap_cons_some hid, List.filter_cons,
          List.filter_cons, ih]
    · rw [hdropped hsecret, hdropped hsecret', ih]

theorem Envelope.EqualExceptSecrets.retainedFields {envelope envelope' : Envelope}
    (h : envelope.EqualExceptSecrets envelope') :
    envelope.retainedFields = envelope'.retainedFields := retained_eq_of_forall₂ h.fields

/-- The fields are read only through the retained ones. -/
theorem Envelope.EqualExceptSecrets.encodeFrame {envelope envelope' : Envelope}
    (h : envelope.EqualExceptSecrets envelope') :
    Wire.encodeFrame envelope = Wire.encodeFrame envelope' := by
  have hretained := h.retainedFields
  obtain ⟨fields, rfl⟩ : ∃ fields, envelope' =
      { envelope with event := { envelope.event with fields := fields } } := ⟨_, h.rest⟩
  rw [Wire.encodeFrame, Wire.encodeFrame, encodeBody, encodeBody, omissions, omissions, ← hretained]

/-- **Secrets stay off the wire**: two envelopes that differ in secret fields alone are encoded
alike, byte for byte or with the same error, and the formatters that run are the ones of the
retained fields and the message, in order and each at most once. -/
theorem encodeEnvelope_secrets {envelope envelope' : Envelope}
    (h : envelope.EqualExceptSecrets envelope') (maxValueBytes : ℕ)
    {output output' scratch scratch' : List UInt8} (houtput : output.length = output'.length)
    (hscratch : scratch.length = scratch'.length) :
    encodeEnvelope envelope maxValueBytes output scratch =
        encodeEnvelope envelope' maxValueBytes output' scratch' ∧
      invokedBy envelope maxValueBytes output scratch <+:
        envelope.retainedFields.filterMap (fun field => field.value.formatter) ++
          envelope.event.message.toList := by
  constructor
  · rw [encodeEnvelope_congr houtput hscratch]
    simp only [encodeEnvelope, h.encodeFrame]
  · exact invokedBy_isPrefix envelope maxValueBytes output scratch

/-- A sign-in with a secret token, which may be absent. -/
def signedIn (token : Option Formatter) : Envelope :=
  let secret : FieldMetadata := { name := "token", privacy := .secret, detail := .core }
  { noted (.literal "signed in") with
    event := { (noted (.literal "signed in")).event with
      fields := [token.map fun token => { metadata := secret, value := .debug token }] } }

theorem encodeEnvelope_secrets_token :
    encodeEnvelope (signedIn (some (.literal "hunter2"))) 100 (List.replicate 64 0) [] =
        encodeEnvelope (signedIn none) 100 (List.replicate 64 1) [] ∧
      invokedBy (signedIn (some (.literal "hunter2"))) 100 (List.replicate 64 0) [] <+:
        [.literal "signed in"] := by
  have hsecret : (signedIn (some (.literal "hunter2"))).EqualExceptSecrets (signedIn none) := by
    refine ⟨.cons (Or.inr ⟨fun field hfield => ?_, fun _ h => by cases h⟩) .nil, rfl⟩
    cases hfield
    rfl
  exact encodeEnvelope_secrets hsecret 100 (by simp) rfl

end Logwise.Wire
