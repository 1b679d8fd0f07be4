import Logwise.Facade.Metadata

/-!
# Borrowed values, contexts and events

`src/value.rs` and the token of `src/context.rs`. A `Debug` or `Display` implementation
is user code that talks to a writer through `write_str`; `Formatter` is its interaction
tree, so a formatter may react to a write error in any way.
-/

namespace Logwise

/-- Opaque causal context; the all-zero token carries no lineage. -/
structure ContextToken where
  id : UInt64
  flags : UInt64
  deriving DecidableEq, Repr

namespace ContextToken

def none : ContextToken := ⟨0, 0⟩

def fromParts (id flags : UInt64) : ContextToken := ⟨id, flags⟩

def isNone (token : ContextToken) : Bool := token.id == 0

end ContextToken

/-- What a formatting implementation does: it is finished, or it passes one chunk to
`write_str` and goes on according to the answer. -/
inductive Formatter where
  | done
  | writeStr (chunk : String) (onOk onErr : Formatter)
  deriving DecidableEq, Repr

namespace Formatter

/-- The text produced against a writer that never fails, as `to_string` and `format!` see it. -/
def text : Formatter → String
  | .done => ""
  | .writeStr chunk onOk _ => chunk ++ onOk.text

def literal (chunk : String) : Formatter := .writeStr chunk .done .done

/-- The `fmt` contract: once `write_str` has returned an error, the error is returned and
nothing more is written. -/
def Propagates : Formatter → Prop
  | .done => True
  | .writeStr _ onOk onErr => onOk.Propagates ∧ onErr = .done

theorem propagates_literal (chunk : String) : (literal chunk).Propagates := ⟨trivial, rfl⟩

end Formatter

/-- A borrowed structured value. A float is represented by `f64::to_bits`. -/
inductive ValueRef where
  | bool (value : Bool)
  | i64 (value : Int64)
  | u64 (value : UInt64)
  | f64 (bits : UInt64)
  | str (value : String)
  | debug (value : Formatter)
  | display (value : Formatter)
  deriving DecidableEq

/-- The implementation a value borrows, where it borrows one. -/
def ValueRef.formatter : ValueRef → Option Formatter
  | .debug value | .display value => some value
  | _ => none

structure FieldRef where
  metadata : FieldMetadata
  value : ValueRef
  deriving DecidableEq

/-- A synchronous borrowed event delivered to the installed dispatcher. An entry no active
view requested stays `none`. -/
structure EventRef where
  metadata : Metadata
  context : ContextToken
  fields : List (Option FieldRef)
  message : Option Formatter
  deriving DecidableEq

namespace EventRef

def structured (metadata : Metadata) (context : ContextToken)
    (fields : List (Option FieldRef)) : EventRef :=
  { metadata := metadata, context := context, fields := fields, message := none }

def text (metadata : Metadata) (context : ContextToken) (message : Formatter) : EventRef :=
  { metadata := metadata, context := context, fields := [], message := some message }

/-- `event.fields.iter().flatten()`. -/
def materialized (event : EventRef) : List FieldRef := event.fields.filterMap id

def fieldsWith (event : EventRef) (keep : Privacy → Bool) : List FieldRef :=
  event.materialized.filter fun field => keep field.metadata.privacy

end EventRef

end Logwise
