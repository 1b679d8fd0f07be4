import Logwise.Runtime.Projection
import Logwise.Library.Utf8

/-!
# Owned events

What a retaining sink keeps of a projected event (`sinks.rs`): values are copied, and text is
cut to a byte limit on a character boundary.
-/

namespace Logwise

inductive OwnedValue where
  | bool (value : Bool)
  | i64 (value : Int64)
  | u64 (value : UInt64)
  | f64 (bits : UInt64)
  | string (value : String)
  deriving DecidableEq

structure OwnedField where
  name : String
  privacy : Privacy
  detail : Detail
  value : OwnedValue
  deriving DecidableEq

structure OwnedProjectedEvent where
  metadata : Metadata
  context : ContextToken
  fields : List OwnedField
  message : Option String
  omittedFields : ℕ
  truncatedFields : ℕ
  deriving DecidableEq

/-- `truncate`, with the counter it takes by reference. -/
def truncate (value : String) (max truncated : ℕ) : String × ℕ :=
  let cs := value.toList
  if Utf8.size cs ≤ max then (value, truncated)
  else (String.ofList (Utf8.takeBytes cs (Utf8.backOff cs max)), truncated + 1)

def ownValue (value : ValueRef) (max truncated : ℕ) : OwnedValue × ℕ :=
  match value with
  | .bool value => (.bool value, truncated)
  | .i64 value => (.i64 value, truncated)
  | .u64 value => (.u64 value, truncated)
  | .f64 bits => (.f64 bits, truncated)
  | .str value => (truncate value max truncated).map .string id
  | .debug value => (truncate value.text max truncated).map .string id
  | .display value => (truncate value.text max truncated).map .string id

/-- The loop of `copy_from` over the projected fields. -/
def ownFields (max : ℕ) : List ProjectedField → ℕ → List OwnedField × ℕ
  | [], truncated => ([], truncated)
  | field :: fields, truncated =>
    let (value, truncated) := ownValue field.value max truncated
    let (rest, truncated) := ownFields max fields truncated
    ({ name := field.name, privacy := field.privacy, detail := field.detail, value := value } ::
      rest, truncated)

def OwnedProjectedEvent.copyFrom (event : ProjectedEvent) (maxStringBytes : ℕ) :
    OwnedProjectedEvent :=
  let (fields, truncated) := ownFields maxStringBytes event.fields 0
  let (message, truncated) := match event.message with
    | some message => (truncate message.text maxStringBytes truncated).map some id
    | none => (none, truncated)
  { metadata := event.metadata
    context := event.context
    fields := fields
    message := message
    omittedFields := event.omittedFields
    truncatedFields := truncated }

/-- What is kept is the longest prefix within the limit, and a cut is counted. -/
theorem truncate_eq (value : String) (max truncated : ℕ) :
    truncate value max truncated =
      (String.ofList (Utf8.takeBytes value.toList max),
        if Utf8.size value.toList ≤ max then truncated else truncated + 1) := by
  rw [truncate]
  by_cases h : Utf8.size value.toList ≤ max
  · rw [if_pos h, if_pos h, Utf8.takeBytes_eq_self h, String.ofList_toList]
  · simp only [if_neg h, Utf8.takeBytes_backOff]

/-- Copying keeps the names, privacy and detail of the fields. -/
theorem ownFields_labels (max : ℕ) (fields : List ProjectedField) (truncated : ℕ) :
    (ownFields max fields truncated).1.map (fun field => (field.name, field.privacy, field.detail)) =
      fields.map fun field => (field.name, field.privacy, field.detail) := by
  induction fields generalizing truncated with
  | nil => rfl
  | cons field fields ih => simp only [ownFields, List.map_cons, ih]

/-- A copy holds a field of some privacy exactly when the original does. -/
theorem copyFrom_privacy {event : ProjectedEvent} {max : ℕ} {privacy : Privacy} :
    (∃ field ∈ (OwnedProjectedEvent.copyFrom event max).fields, field.privacy = privacy) ↔
      ∃ field ∈ event.fields, field.privacy = privacy := by
  have hlabels := congrArg (List.map fun label => label.2.1)
    (ownFields_labels max event.fields 0)
  rw [List.map_map, List.map_map] at hlabels
  have hmem := congrArg (fun privacies => privacy ∈ privacies) hlabels
  simp only [List.mem_map, eq_iff_iff, Function.comp] at hmem
  exact hmem

/-- An event without fields, as a call site without any emits it. -/
def bareEvent : ProjectedEvent :=
  { metadata := { eventName := "checkout.completed", package := "shop", target := "shop"
                  modulePath := "shop", domain := none, severity := .info
                  eventClass := .operational, kind := .event, location := none, fields := [] }
    context := ⟨0, 0⟩, fields := [], message := none, omittedFields := 0 }

end Logwise
