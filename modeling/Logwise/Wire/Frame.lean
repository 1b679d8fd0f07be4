import Logwise.Facade.Value
import Logwise.Library.Codec

/-!
# The `logwise_v1` layout

The table of `LOGWISE_V1.md`: what one envelope carries, the parser a host writes from the table,
and the bytes it lays down. Severity, class, kind, privacy and detail are facade discriminants.
-/

namespace Logwise.Wire

open Codec Codec.Parser

inductive FrameValue where
  | bool (value : Bool)
  | i64 (value : Int64)
  | u64 (value : UInt64)
  | f64 (bits : UInt64)
  | str (text : String)
  | debug (text : String)
  | display (text : String)
  deriving DecidableEq, Repr

structure FrameField where
  name : String
  privacy : UInt8
  detail : UInt8
  value : FrameValue
  deriving DecidableEq, Repr

structure Frame where
  version : UInt16
  flags : UInt16
  length : UInt32
  sequence : UInt64
  droppedBefore : UInt64
  truncatedBefore : UInt64
  worker : UInt64
  context : ContextToken
  links : List ContextToken
  severity : UInt8
  eventClass : UInt8
  kind : UInt8
  eventName : String
  package : String
  target : String
  modulePath : String
  domain : Option String
  test : Option String
  location : Option Location
  omittedFields : UInt32
  fields : List FrameField
  message : Option String
  deriving DecidableEq, Repr

/-- `LW1\0`. -/
def MAGIC : List UInt8 := [0x4c, 0x57, 0x31, 0x00]

def ABI_VERSION : UInt16 := 1

def FLAG_TRUNCATED : UInt16 := 1

/-! ## The parser -/

def decodeToken : Parser ContextToken := do
  let id ← u64
  let flags ← u64
  pure (ContextToken.fromParts id flags)

def decodeLocation : Parser Location := do
  let file ← text
  let line ← u32
  let column ← u32
  pure { file := file, line := line, column := column }

def decodeBool : Parser Bool := do
  let byte ← u8
  if byte = 0 then pure false
  else if byte = 1 then pure true
  else fail

def decodeValue : Parser FrameValue := do
  let tag ← u8
  if tag = 1 then pure (.bool (← decodeBool))
  else if tag = 2 then pure (.i64 (← u64).toInt64)
  else if tag = 3 then pure (.u64 (← u64))
  else if tag = 4 then pure (.f64 (← u64))
  else if tag = 5 then pure (.str (← text))
  else if tag = 6 then pure (.debug (← text))
  else if tag = 7 then pure (.display (← text))
  else fail

def decodeField : Parser FrameField := do
  let name ← text
  let privacy ← u8
  let tier ← u8
  let value ← decodeValue
  pure { name := name, privacy := privacy, detail := tier, value := value }

def decodeFrame : Parser Frame := do
  let magic ← take 4
  if magic = MAGIC then
    let version ← u16
    let flags ← u16
    let length ← u32
    let sequence ← u64
    let droppedBefore ← u64
    let truncatedBefore ← u64
    let worker ← u64
    let context ← decodeToken
    let links ← counted decodeToken
    let severity ← u8
    let eventClass ← u8
    let kind ← u8
    let eventName ← text
    let package ← text
    let target ← text
    let modulePath ← text
    let domain ← tagged text
    let test ← tagged text
    let location ← tagged decodeLocation
    let omittedFields ← u32
    let fields ← counted decodeField
    let message ← tagged text
    pure
      { version := version, flags := flags, length := length, sequence := sequence
        droppedBefore := droppedBefore, truncatedBefore := truncatedBefore, worker := worker
        context := context, links := links, severity := severity, eventClass := eventClass
        kind := kind, eventName := eventName, package := package, target := target
        modulePath := modulePath, domain := domain, test := test, location := location
        omittedFields := omittedFields, fields := fields, message := message }
  else fail

/-! ## The bytes -/

def stringBytes (value : String) : List UInt8 := textBytes value.toList

def tokenBytes (token : ContextToken) : List UInt8 := u64Bytes token.id ++ u64Bytes token.flags

def locationBytes (location : Location) : List UInt8 :=
  stringBytes location.file ++ (u32Bytes location.line ++ u32Bytes location.column)

def boolByte (value : Bool) : UInt8 := if value then 1 else 0

def valueBytes : FrameValue → List UInt8
  | .bool value => [1, boolByte value]
  | .i64 value => 2 :: u64Bytes value.toUInt64
  | .u64 value => 3 :: u64Bytes value
  | .f64 bits => 4 :: u64Bytes bits
  | .str text => 5 :: stringBytes text
  | .debug text => 6 :: stringBytes text
  | .display text => 7 :: stringBytes text

def fieldBytes (field : FrameField) : List UInt8 :=
  stringBytes field.name ++ ([field.privacy] ++ ([field.detail] ++ valueBytes field.value))

namespace Frame

/-- Everything after the length. -/
def body (frame : Frame) : List UInt8 :=
  u64Bytes frame.sequence ++ (u64Bytes frame.droppedBefore ++ (u64Bytes frame.truncatedBefore ++
  (u64Bytes frame.worker ++ (tokenBytes frame.context ++ (countedBytes tokenBytes frame.links ++
  ([frame.severity] ++ ([frame.eventClass] ++ ([frame.kind] ++ (stringBytes frame.eventName ++
  (stringBytes frame.package ++ (stringBytes frame.target ++ (stringBytes frame.modulePath ++
  (taggedBytes stringBytes frame.domain ++ (taggedBytes stringBytes frame.test ++
  (taggedBytes locationBytes frame.location ++ (u32Bytes frame.omittedFields ++
  (countedBytes fieldBytes frame.fields ++ taggedBytes stringBytes frame.message)))))))))))))))))

def bytes (frame : Frame) : List UInt8 :=
  MAGIC ++ (u16Bytes frame.version ++ (u16Bytes frame.flags ++ (u32Bytes frame.length ++ frame.body)))

end Frame

/-! ## Round trip -/

/-- The string fits its length prefix. -/
def Fits (value : String) : Prop := Utf8.size value.toList < 2 ^ 16

def FrameValue.Fits : FrameValue → Prop
  | .str text | .debug text | .display text => Wire.Fits text
  | _ => True

/-- Every count and length fits its prefix. -/
structure Frame.WellFormed (frame : Frame) : Prop where
  links : frame.links.length < 2 ^ 16
  eventName : Fits frame.eventName
  package : Fits frame.package
  target : Fits frame.target
  modulePath : Fits frame.modulePath
  domain : ∀ domain ∈ frame.domain, Fits domain
  test : ∀ test ∈ frame.test, Fits test
  location : ∀ location ∈ frame.location, Fits location.file
  count : frame.fields.length < 2 ^ 16
  fields : ∀ field ∈ frame.fields, Fits field.name ∧ field.value.Fits
  message : ∀ message ∈ frame.message, Fits message

theorem reads_string {value : String} (h : Fits value) : text.Reads (stringBytes value) value := by
  have hread := reads_text h
  rwa [String.ofList_toList] at hread

theorem reads_token (token : ContextToken) : decodeToken.Reads (tokenBytes token) token :=
  (reads_u64 token.id).bind ((reads_u64 token.flags).bind_pure rfl)

theorem reads_location {location : Location} (h : Fits location.file) :
    decodeLocation.Reads (locationBytes location) location :=
  (reads_string h).bind ((reads_u32 location.line).bind ((reads_u32 location.column).bind_pure rfl))

theorem reads_bool (value : Bool) : decodeBool.Reads [boolByte value] value := by
  cases value with
  | false => exact (reads_u8 0).bind_pure rfl
  | true => exact (reads_u8 1).bind_pure rfl

theorem reads_value {value : FrameValue} (h : value.Fits) :
    decodeValue.Reads (valueBytes value) value := by
  cases value with
  | bool value => exact (reads_u8 1).bind ((reads_bool value).bind_pure rfl)
  | i64 value => exact (reads_u8 2).bind ((reads_u64 value.toUInt64).bind_pure rfl)
  | u64 value => exact (reads_u8 3).bind ((reads_u64 value).bind_pure rfl)
  | f64 bits => exact (reads_u8 4).bind ((reads_u64 bits).bind_pure rfl)
  | str text => exact (reads_u8 5).bind ((reads_string h).bind_pure rfl)
  | debug text => exact (reads_u8 6).bind ((reads_string h).bind_pure rfl)
  | display text => exact (reads_u8 7).bind ((reads_string h).bind_pure rfl)

theorem reads_field {field : FrameField} (hname : Fits field.name) (hvalue : field.value.Fits) :
    decodeField.Reads (fieldBytes field) field :=
  (reads_string hname).bind ((reads_u8 field.privacy).bind ((reads_u8 field.detail).bind
    ((reads_value hvalue).bind_pure rfl)))

/-- **Layout**: the parser of the table reads back every well-formed frame of version 1 or any
other. -/
theorem reads_frame {frame : Frame} (h : frame.WellFormed) : decodeFrame.Reads frame.bytes frame := by
  refine (reads_take (show MAGIC.length = 4 from rfl)).bind ?_
  rw [if_pos rfl]
  refine (reads_u16 frame.version).bind ((reads_u16 frame.flags).bind
    ((reads_u32 frame.length).bind ?_))
  refine (reads_u64 frame.sequence).bind ((reads_u64 frame.droppedBefore).bind
    ((reads_u64 frame.truncatedBefore).bind ((reads_u64 frame.worker).bind ?_)))
  refine (reads_token frame.context).bind
    ((reads_counted h.links fun link _ => reads_token link).bind ?_)
  refine (reads_u8 frame.severity).bind ((reads_u8 frame.eventClass).bind
    ((reads_u8 frame.kind).bind ?_))
  refine (reads_string h.eventName).bind ((reads_string h.package).bind
    ((reads_string h.target).bind ((reads_string h.modulePath).bind ?_)))
  refine (reads_tagged fun domain hd => reads_string (h.domain domain hd)).bind
    ((reads_tagged fun test ht => reads_string (h.test test ht)).bind
    ((reads_tagged fun location hl => reads_location (h.location location hl)).bind ?_))
  refine (reads_u32 frame.omittedFields).bind ((reads_counted h.count fun field hf =>
    reads_field (h.fields field hf).1 (h.fields field hf).2).bind ?_)
  exact (reads_tagged fun message hm => reads_string (h.message message hm)).bind_pure rfl

end Logwise.Wire
