import Logwise.Wire.Frame

/-!
# The wasm wire encoder

`encode_envelope`, `Encoder` and `ScratchWriter` (`logwise_runtime_wasm/src/wire.rs`). A buffer is a
list of bytes of fixed length; an encoding stops with an error it returns, or with a panic.
-/

namespace Logwise.Wire

structure Identity where
  worker : UInt64
  test : Option String
  deriving DecidableEq

structure Envelope where
  event : EventRef
  sequence : UInt64
  droppedBefore : UInt64
  truncatedBefore : UInt64
  omittedFields : UInt32
  links : List ContextToken
  identity : Identity
  deriving DecidableEq

inductive EncodeError where
  | bufferTooSmall | schemaStringTooLong | tooManyFields | tooManyLinks
  deriving DecidableEq, Repr

structure EncodedEnvelope where
  bytes : List UInt8
  truncatedValues : ℕ
  deriving DecidableEq

/-- How an encoding ends early. -/
inductive Stop where
  | error (error : EncodeError)
  | panic
  deriving DecidableEq

def u16Max : ℕ := 2 ^ 16 - 1

def u32Max : ℕ := 2 ^ 32 - 1

/-- `buffer[start..stop].copy_from_slice(bytes)`. -/
def splice (buffer : List UInt8) (start stop : ℕ) (bytes : List UInt8) : Except Stop (List UInt8) :=
  if start ≤ stop ∧ stop ≤ buffer.length ∧ bytes.length = stop - start then
    .ok (buffer.take start ++ (bytes ++ buffer.drop stop))
  else .error .panic

/-- `&bytes[..length]`. -/
def slicePrefix (bytes : List UInt8) (length : ℕ) : Except Stop (List UInt8) :=
  if length ≤ bytes.length then .ok (bytes.take length) else .error .panic

/-! ## Formatting into the scratch buffer -/

structure ScratchWriter where
  output : List UInt8
  position : ℕ
  truncated : Bool
  deriving DecidableEq

namespace ScratchWriter

/-- `write_str`; the answer is whether it returned `Ok`. -/
def writeStr (value : String) (writer : ScratchWriter) : Except Stop (Bool × ScratchWriter) := do
  let available := writer.output.length - writer.position
  let length := Utf8.backOff value.toList (min (Utf8.size value.toList) available)
  let kept ← slicePrefix (Utf8.encode value.toList) length
  let output ← splice writer.output writer.position (writer.position + length) kept
  let writer := { writer with output := output, position := writer.position + length }
  if length ≠ Utf8.size value.toList then pure (false, { writer with truncated := true })
  else pure (true, writer)

/-- `fmt::write(&mut writer, arguments)`. -/
def write : Formatter → ScratchWriter → Except Stop ScratchWriter
  | .done, writer => .ok writer
  | .writeStr chunk onOk onErr, writer => do
    let (ok, writer) ← writer.writeStr chunk
    if ok then write onOk writer else write onErr writer

end ScratchWriter

structure Encoder where
  output : List UInt8
  position : ℕ
  maxValueBytes : ℕ
  scratch : List UInt8
  truncatedValues : ℕ
  /-- The formatters that have been run; not a cell of the source. -/
  invoked : List Formatter

/-- What `&mut self` leaves behind is there also when an operation fails. -/
abbrev Encode (α : Type) := EStateM Stop Encoder α

namespace Encoder

def fail (error : EncodeError) : Encode Unit := throw (.error error)

/-- Go on with a result, or stop. -/
def check {α : Type} (result : Except Stop α) : Encode α := fun encoder =>
  match result with
  | .ok value => .ok value encoder
  | .error stop => .error stop encoder

def reserve (count : ℕ) : Encode ℕ := fun encoder =>
  if encoder.position + count ≤ encoder.output.length then
    .ok encoder.position { encoder with position := encoder.position + count }
  else .error (.error .bufferTooSmall) encoder

def copyFromSlice (start stop : ℕ) (bytes : List UInt8) : Encode Unit := do
  let output ← check (splice (← get).output start stop bytes)
  modify fun encoder => { encoder with output := output }

def bytes (bytes : List UInt8) : Encode Unit := do
  let start ← reserve bytes.length
  copyFromSlice start (← get).position bytes

def u8 (value : UInt8) : Encode Unit := bytes [value]

def u16 (value : UInt16) : Encode Unit := bytes (Codec.u16Bytes value)

def u32 (value : UInt32) : Encode Unit := bytes (Codec.u32Bytes value)

def u64 (value : UInt64) : Encode Unit := bytes (Codec.u64Bytes value)

def patchU16 (position : ℕ) (value : UInt16) : Encode Unit :=
  copyFromSlice position (position + 2) (Codec.u16Bytes value)

def patchU32 (position : ℕ) (value : UInt32) : Encode Unit :=
  copyFromSlice position (position + 4) (Codec.u32Bytes value)

def reserveU16 : Encode ℕ := do
  let position ← reserve 2
  patchU16 position 0
  pure position

def reserveU32 : Encode ℕ := do
  let position ← reserve 4
  patchU32 position 0
  pure position

/-- `u16::try_from(length).map_err(...)`, then the length is written. -/
def length (length : ℕ) (error : EncodeError) : Encode Unit :=
  if length ≤ u16Max then u16 (UInt16.ofNat length) else fail error

def schema (value : String) : Encode Unit := do
  length (Utf8.size value.toList) .schemaStringTooLong
  bytes (Utf8.encode value.toList)

/-- A presence tag, then the value. -/
def optional {α : Type} (write : α → Encode Unit) : Option α → Encode Unit
  | some value => do
    u8 1
    write value
  | none => u8 0

def optionalSchema (value : Option String) : Encode Unit := optional schema value

def countTruncated : Encode Unit := modify fun encoder =>
  { encoder with truncatedValues := min u32Max (encoder.truncatedValues + 1) }

def dynamic (value : String) (wasTruncated : Bool) : Encode Unit := do
  let length := Utf8.backOff value.toList
    (min (Utf8.size value.toList) (← get).maxValueBytes)
  if wasTruncated ∨ length ≠ Utf8.size value.toList then countTruncated
  u16 (UInt16.ofNat length)
  bytes (← check (slicePrefix (Utf8.encode value.toList) length))

def optionalDynamic (value : Option String) : Encode Unit :=
  optional (fun value => dynamic value false) value

/-- Run the formatter over the scratch buffer: what it left there, and whether it was cut. -/
def capture (arguments : Formatter) : Encode (ℕ × Bool) := do
  modify fun encoder => { encoder with invoked := encoder.invoked ++ [arguments] }
  let writer ← check (ScratchWriter.write arguments
    { output := (← get).scratch, position := 0, truncated := false })
  modify fun encoder => { encoder with scratch := writer.output }
  pure (writer.position, writer.truncated)

/-- `core::str::from_utf8(bytes).expect(...)`. -/
def expectUtf8 (bytes : List UInt8) : Except Stop (List Char) :=
  match Utf8.decode bytes with
  | some value => .ok value
  | none => .error .panic

def formatted (arguments : Formatter) : Encode Unit := do
  let (length, truncated) ← capture arguments
  let bytes ← check (slicePrefix (← get).scratch length)
  let value ← check (expectUtf8 bytes)
  let outputLength := Utf8.backOff value (min (Utf8.size value) (← get).maxValueBytes)
  if truncated ∨ outputLength ≠ Utf8.size value then countTruncated
  let start ← reserve (2 + outputLength)
  copyFromSlice start (start + 2) (Codec.u16Bytes (UInt16.ofNat outputLength))
  let bytes ← check (slicePrefix (← get).scratch outputLength)
  copyFromSlice (start + 2) (start + 2 + outputLength) bytes

def value : ValueRef → Encode Unit
  | .bool value => do
    u8 1
    u8 (boolByte value)
  | .i64 value => do
    u8 2
    u64 value.toUInt64
  | .u64 value => do
    u8 3
    u64 value
  | .f64 bits => do
    u8 4
    u64 bits
  | .str value => do
    u8 5
    dynamic value false
  | .debug value => do
    u8 6
    formatted value
  | .display value => do
    u8 7
    formatted value

def token (token : ContextToken) : Encode Unit := do
  u64 token.id
  u64 token.flags

def location (location : Location) : Encode Unit := do
  schema location.file
  u32 location.line
  u32 location.column

def field (field : FieldRef) : Encode Unit := do
  schema field.metadata.name
  u8 field.metadata.privacy.discriminant
  u8 field.metadata.detail.discriminant
  value field.value

end Encoder

namespace Envelope

/-- The fields that are not secret. -/
def retainedFields (envelope : Envelope) : List FieldRef :=
  envelope.event.materialized.filter fun field => field.metadata.privacy ≠ .secret

/-- `omitted_fields.saturating_add(implicit_omissions)`. -/
def omissions (envelope : Envelope) : UInt32 :=
  -- `usize::saturating_sub` is subtraction on natural numbers
  let implicit := envelope.event.metadata.fields.length - envelope.retainedFields.length
  UInt32.ofNat (min u32Max (envelope.omittedFields.toNat + min u32Max implicit))

end Envelope

open Encoder in
/-- What `encode_envelope` writes after the length. -/
def encodeBody (envelope : Envelope) : Encode Unit := do
  u64 envelope.sequence
  u64 envelope.droppedBefore
  u64 envelope.truncatedBefore
  u64 envelope.identity.worker
  token envelope.event.context
  length envelope.links.length .tooManyLinks
  envelope.links.forM token
  let metadata := envelope.event.metadata
  u8 metadata.severity.discriminant
  u8 metadata.eventClass.discriminant
  u8 metadata.kind.discriminant
  schema metadata.eventName
  schema metadata.package
  schema metadata.target
  schema metadata.modulePath
  optionalSchema (metadata.domain.map Domain.name)
  optionalDynamic envelope.identity.test
  optional location metadata.location
  let fieldCount := envelope.retainedFields.length
  if fieldCount ≤ u16Max then
    u32 envelope.omissions
    u16 (UInt16.ofNat fieldCount)
    envelope.retainedFields.forM field
    optional formatted envelope.event.message
  else fail .tooManyFields

open Encoder in
/-- `encode_envelope`, up to the slice it returns. -/
def encodeFrame (envelope : Envelope) : Encode EncodedEnvelope := do
  bytes MAGIC
  u16 ABI_VERSION
  let flagsAt ← reserveU16
  let lengthAt ← reserveU32
  encodeBody envelope
  let flags := if (← get).truncatedValues ≠ 0 then FLAG_TRUNCATED else 0
  patchU16 flagsAt flags
  let position := (← get).position
  if position ≤ u32Max then patchU32 lengthAt (UInt32.ofNat position)
  else fail .bufferTooSmall
  let written ← check (slicePrefix (← get).output position)
  pure { bytes := written, truncatedValues := (← get).truncatedValues }

/-- An encoder over the caller's buffers. -/
def Encoder.new (maxValueBytes : ℕ) (output scratch : List UInt8) : Encoder :=
  { output := output
    position := 0
    maxValueBytes := min maxValueBytes u16Max
    scratch := scratch
    truncatedValues := 0
    invoked := [] }

/-- `encode_envelope`. -/
def encodeEnvelope (envelope : Envelope) (maxValueBytes : ℕ) (output scratch : List UInt8) :
    Except Stop EncodedEnvelope :=
  match encodeFrame envelope (Encoder.new maxValueBytes output scratch) with
  | .ok encoded _ => .ok encoded
  | .error stop _ => .error stop

end Logwise.Wire
