import Logwise.Wire.Writes

/-!
# The frame of an envelope

The frame a host is to receive for an envelope, and the encoder's operations as the layout's bytes
of its parts. `render` says how a formatter's text reads.
-/

namespace Logwise.Wire

/-- A string cut to its longest prefix within the limit. -/
def cutTo (limit : ℕ) (value : String) : String :=
  String.ofList (Utf8.takeBytes value.toList limit)

def frameValue (limit : ℕ) (render : Formatter → String) : ValueRef → FrameValue
  | .bool value => .bool value
  | .i64 value => .i64 value
  | .u64 value => .u64 value
  | .f64 bits => .f64 bits
  | .str value => .str (cutTo limit value)
  | .debug value => .debug (render value)
  | .display value => .display (render value)

def frameField (limit : ℕ) (render : Formatter → String) (field : FieldRef) : FrameField :=
  { name := field.metadata.name
    privacy := field.metadata.privacy.discriminant
    detail := field.metadata.detail.discriminant
    value := frameValue limit render field.value }

/-- A string that does not fit its limit counts once. -/
def cut (limit : ℕ) (value : String) : ℕ := if limit < Utf8.size value.toList then 1 else 0

/-- A formatted text is limited by the scratch buffer too. -/
def cutValue (limit free : ℕ) : ValueRef → ℕ
  | .str value => cut limit value
  | .debug value | .display value => cut (min limit free) value.text
  | _ => 0

namespace Envelope

/-- How many values do not fit their limits. -/
def cutValues (envelope : Envelope) (limit free : ℕ) : ℕ :=
  (envelope.identity.test.map (cut limit)).getD 0 +
    ((envelope.retainedFields.map fun field => cutValue limit free field.value).sum +
      (envelope.event.message.map fun message => cut (min limit free) message.text).getD 0)

def frame (envelope : Envelope) (limit free : ℕ) (render : Formatter → String) (length : ℕ) :
    Frame :=
  let metadata := envelope.event.metadata
  { version := ABI_VERSION
    flags := if envelope.cutValues limit free = 0 then 0 else FLAG_TRUNCATED
    length := UInt32.ofNat length
    sequence := envelope.sequence
    droppedBefore := envelope.droppedBefore
    truncatedBefore := envelope.truncatedBefore
    worker := envelope.identity.worker
    context := envelope.event.context
    links := envelope.links
    severity := metadata.severity.discriminant
    eventClass := metadata.eventClass.discriminant
    kind := metadata.kind.discriminant
    eventName := metadata.eventName
    package := metadata.package
    target := metadata.target
    modulePath := metadata.modulePath
    domain := metadata.domain.map Domain.name
    test := envelope.identity.test.map (cutTo limit)
    location := metadata.location
    omittedFields := envelope.omissions
    fields := envelope.retainedFields.map (frameField limit render)
    message := envelope.event.message.map render }

/-- Every count and every static string fits its `u16` prefix. -/
structure Encodable (envelope : Envelope) : Prop where
  links : envelope.links.length ≤ u16Max
  eventName : Utf8.size envelope.event.metadata.eventName.toList ≤ u16Max
  package : Utf8.size envelope.event.metadata.package.toList ≤ u16Max
  target : Utf8.size envelope.event.metadata.target.toList ≤ u16Max
  modulePath : Utf8.size envelope.event.metadata.modulePath.toList ≤ u16Max
  domain : ∀ domain ∈ envelope.event.metadata.domain.map Domain.name,
    Utf8.size domain.toList ≤ u16Max
  location : ∀ location ∈ envelope.event.metadata.location, Utf8.size location.file.toList ≤ u16Max
  count : envelope.retainedFields.length ≤ u16Max
  fields : ∀ field ∈ envelope.retainedFields, Utf8.size field.metadata.name.toList ≤ u16Max

end Envelope

/-- The text the encoder writes for a formatter. -/
def captureText (limit free : ℕ) (formatter : Formatter) : String :=
  String.ofList (Utf8.takeBytes (formatter.captured free).1 limit)

namespace Encoder

variable {limit free : ℕ}

theorem writes_dynamic_cut (hlimit : limit ≤ u16Max) (value : String) :
    Writes limit free (dynamic value false) True (stringBytes (cutTo limit value))
      (cut limit value) := by
  rw [stringBytes, cutTo, String.toList_ofList]
  exact writes_dynamic hlimit value

theorem writes_formatted_cut (hlimit : limit ≤ u16Max) (formatter : Formatter) :
    Writes limit free (formatted formatter) True (stringBytes (captureText limit free formatter))
      (cut (min limit free) formatter.text) := by
  have hcut : ((formatter.captured free).2 = true ∨ limit < Utf8.size (formatter.captured free).1) ↔
      min limit free < Utf8.size formatter.text.toList := by
    rw [Formatter.captured_snd]
    by_cases hfits : free < Utf8.size formatter.text.toList
    · exact iff_of_true (Or.inl hfits) (by omega)
    · rw [Formatter.captured_fst_of_le (by omega)]
      omega
  rw [stringBytes, captureText, String.toList_ofList, cut, ← if_congr hcut rfl rfl]
  exact writes_formatted hlimit formatter

theorem writes_value (hlimit : limit ≤ u16Max) (value : ValueRef) :
    Writes limit free (Encoder.value value) True
      (valueBytes (frameValue limit (captureText limit free) value)) (cutValue limit free value) := by
  cases value with
  | bool value => exact ((writes_bytes [1]).next (writes_bytes [boolByte value])).congr (by simp) rfl rfl
  | i64 value =>
    exact ((writes_bytes [2]).next (writes_bytes (Codec.u64Bytes value.toUInt64))).congr (by simp) rfl rfl
  | u64 value =>
    exact ((writes_bytes [3]).next (writes_bytes (Codec.u64Bytes value))).congr (by simp) rfl rfl
  | f64 bits =>
    exact ((writes_bytes [4]).next (writes_bytes (Codec.u64Bytes bits))).congr (by simp) rfl rfl
  | str value =>
    exact ((writes_bytes [5]).next (writes_dynamic_cut hlimit value)).congr (by simp) rfl
      (Nat.zero_add _)
  | debug value =>
    exact ((writes_bytes [6]).next (writes_formatted_cut hlimit value)).congr (by simp) rfl
      (Nat.zero_add _)
  | display value =>
    exact ((writes_bytes [7]).next (writes_formatted_cut hlimit value)).congr (by simp) rfl
      (Nat.zero_add _)

theorem writes_token (token : ContextToken) :
    Writes limit free (Encoder.token token) True (tokenBytes token) 0 :=
  ((writes_bytes _).next (writes_bytes _)).congr (by simp) rfl rfl

theorem writes_location (location : Location) :
    Writes limit free (Encoder.location location) (Utf8.size location.file.toList ≤ u16Max)
      (locationBytes location) 0 :=
  ((writes_schema _).next ((writes_bytes _).next (writes_bytes _))).congr (by simp) rfl rfl

theorem writes_field (hlimit : limit ≤ u16Max) (field : FieldRef) :
    Writes limit free (Encoder.field field) (Utf8.size field.metadata.name.toList ≤ u16Max)
      (fieldBytes (frameField limit (captureText limit free) field))
      (cutValue limit free field.value) :=
  ((writes_schema _).next ((writes_bytes _).next ((writes_bytes _).next
    (writes_value hlimit field.value)))).congr (by simp) rfl (by simp)

/-- The fields, their omissions and the message. -/
theorem writes_fields (hlimit : limit ≤ u16Max) (fields : List FieldRef) (omissions : UInt32)
    (message : Option Formatter) :
    Writes limit free (if fields.length ≤ u16Max then do
        u32 omissions
        u16 (UInt16.ofNat fields.length)
        fields.forM field
        optional formatted message
      else fail .tooManyFields)
      (fields.length ≤ u16Max ∧ ∀ field ∈ fields, Utf8.size field.metadata.name.toList ≤ u16Max)
      (Codec.u32Bytes omissions ++ (Codec.countedBytes fieldBytes
        (fields.map (frameField limit (captureText limit free))) ++
          Codec.taggedBytes stringBytes (message.map (captureText limit free))))
      ((fields.map fun field => cutValue limit free field.value).sum +
        (message.map fun message => cut (min limit free) message.text).getD 0) := by
  refine Writes.guard fun hcount => ?_
  have hfields : Writes limit free _ _ _ _ :=
    writes_forM fields fun field _ => writes_field hlimit field
  have hmessage : Writes limit free _ _ _ _ :=
    writes_optional message fun formatter _ => writes_formatted_cut hlimit formatter
  refine ((writes_bytes _).next ((writes_u16_ofNat hcount).next (hfields.next hmessage))).congr
    (by simp) ?_ (by simp)
  rw [Codec.countedBytes, List.length_map, List.flatMap_map, Codec.taggedBytes_map,
    List.append_assoc]

/-- **What follows the length** is the layout's body of the envelope's frame. -/
theorem writes_body (hlimit : limit ≤ u16Max) (envelope : Envelope) (length : ℕ) :
    Writes limit free (encodeBody envelope) envelope.Encodable
      (envelope.frame limit free (captureText limit free) length).body
      (envelope.cutValues limit free) := by
  have hlinks : Writes limit free _ _ _ _ :=
    writes_forM envelope.links fun link _ => writes_token link
  have hdomain : Writes limit free _ _ _ _ :=
    writes_optional (envelope.event.metadata.domain.map Domain.name) fun domain _ =>
      writes_schema domain
  have htest : Writes limit free _ _ _ _ :=
    writes_optional envelope.identity.test fun test _ => writes_dynamic_cut hlimit test
  have hlocation : Writes limit free _ _ _ _ :=
    writes_optional envelope.event.metadata.location fun location _ => writes_location location
  have hfields : Writes limit free _ _ _ _ :=
    writes_fields hlimit envelope.retainedFields envelope.omissions envelope.event.message
  have htail := hdomain.next (htest.next (hlocation.next hfields))
  have hschemas := (writes_schema envelope.event.metadata.eventName).next
    ((writes_schema envelope.event.metadata.package).next
    ((writes_schema envelope.event.metadata.target).next
    ((writes_schema envelope.event.metadata.modulePath).next htail)))
  have hmetadata := (writes_bytes [envelope.event.metadata.severity.discriminant]).next
    ((writes_bytes [envelope.event.metadata.eventClass.discriminant]).next
    ((writes_bytes [envelope.event.metadata.kind.discriminant]).next hschemas))
  have hcontext := (writes_token envelope.event.context).next
    ((writes_length envelope.links.length .tooManyLinks).next (hlinks.next hmetadata))
  have hbody := (writes_bytes (Codec.u64Bytes envelope.sequence)).next
    ((writes_bytes (Codec.u64Bytes envelope.droppedBefore)).next
    ((writes_bytes (Codec.u64Bytes envelope.truncatedBefore)).next
    ((writes_bytes (Codec.u64Bytes envelope.identity.worker)).next hcontext)))
  refine Writes.congr (show Writes limit free (encodeBody envelope) _ _ _ from hbody) ?_ ?_ ?_
  · simp only [true_and, implies_true]
    constructor
    · rintro ⟨hlinks, heventName, hpackage, htarget, hmodulePath, hdomain, hlocation, hcount, hfields⟩
      exact ⟨hlinks, heventName, hpackage, htarget, hmodulePath, hdomain, hlocation, hcount, hfields⟩
    · intro h
      exact ⟨h.links, h.eventName, h.package, h.target, h.modulePath, h.domain, h.location, h.count,
        h.fields⟩
  · simp only [Frame.body, Envelope.frame, Codec.countedBytes, Codec.taggedBytes_map,
      List.append_assoc]
  · have hlinkCuts : ∀ links : List ContextToken, (links.map fun _ => 0).sum = 0 :=
      fun links => by simp
    have hoptionCuts : ∀ {α : Type} (value : Option α), (value.map fun _ => 0).getD 0 = 0 := by
      intro α value
      cases value <;> rfl
    simp only [Envelope.cutValues, hlinkCuts, hoptionCuts, Nat.zero_add]

end Encoder

end Logwise.Wire
