import Mathlib.Data.List.Basic

/-!
# Static call-site schema

The axes of `src/metadata.rs` and the records built from them. Everything here is
`'static` in the source, so it is plain data.
-/

namespace Logwise

inductive Severity where
  | trace | debug | info | warn | error | critical
  deriving DecidableEq, Repr

/-- `severity as u8`, the `#[repr(u8)]` discriminant. -/
def Severity.discriminant : Severity → UInt8
  | .trace => 0
  | .debug => 1
  | .info => 2
  | .warn => 3
  | .error => 4
  | .critical => 5

inductive Class where
  | operational | diagnostic | forensic | performance | metric
  deriving DecidableEq, Repr

def Class.discriminant : Class → UInt8
  | .operational => 0
  | .diagnostic => 1
  | .forensic => 2
  | .performance => 3
  | .metric => 4

inductive Kind where
  | event | adHocText | span | counter | measurement
  deriving DecidableEq, Repr

def Kind.discriminant : Kind → UInt8
  | .event => 0
  | .adHocText => 1
  | .span => 2
  | .counter => 3
  | .measurement => 4

/-- Where a field is allowed to be observed. -/
inductive Privacy where
  | supportSafe | localOnly | secret
  deriving DecidableEq, Repr

def Privacy.discriminant : Privacy → UInt8
  | .supportSafe => 0
  | .localOnly => 1
  | .secret => 2

/-- How expensive a field is allowed to be at the call site. -/
inductive Detail where
  | core | detail
  deriving DecidableEq, Repr

def Detail.discriminant : Detail → UInt8
  | .core => 0
  | .detail => 1

structure FieldMetadata where
  name : String
  privacy : Privacy
  detail : Detail
  deriving DecidableEq, Repr

structure Location where
  file : String
  line : UInt32
  column : UInt32
  deriving DecidableEq, Repr

structure Domain where
  name : String
  deriving DecidableEq, Repr

/-- Static schema and source metadata for one call site. The fields the source calls
`module` and `class` are Lean keywords. -/
structure Metadata where
  eventName : String
  package : String
  target : String
  modulePath : String
  domain : Option Domain
  severity : Severity
  eventClass : Class
  kind : Kind
  location : Option Location
  fields : List FieldMetadata
  deriving DecidableEq, Repr

end Logwise
