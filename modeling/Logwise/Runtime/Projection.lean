import Logwise.Facade.Callsite

/-!
# Privacy projection

`projection.rs` and the projection part of `facade_runtime.rs`: the only event shape a sink
is handed, the per-sink authorization that builds it, and the interest a sink registers.
-/

namespace Logwise

inductive DetailLevel where
  | core | full
  deriving DecidableEq, Repr

/-- What a destination is trusted with, fixed by the entry point that registered it. -/
inductive Capability where
  | remote | localRetained | trustedEphemeral
  deriving DecidableEq, Repr

structure ProjectedField where
  name : String
  privacy : Privacy
  detail : Detail
  value : ValueRef
  deriving DecidableEq

structure ProjectedEvent where
  metadata : Metadata
  context : ContextToken
  fields : List ProjectedField
  message : Option Formatter
  omittedFields : ℕ
  deriving DecidableEq

def sinkInterest (capability : Capability) (level : DetailLevel) : Interest :=
  let core := match capability with
    | .remote => Interest.CORE_SUPPORT
    | .localRetained => Interest.CORE_SUPPORT.union Interest.CORE_LOCAL
    | .trustedEphemeral =>
      (Interest.CORE_SUPPORT.union Interest.CORE_LOCAL).union Interest.CORE_SECRET
  if level = .core then core
  else core.union (match capability with
    | .remote => Interest.DETAIL_SUPPORT
    | .localRetained => Interest.DETAIL_SUPPORT.union Interest.DETAIL_LOCAL
    | .trustedEphemeral =>
      (Interest.DETAIL_SUPPORT.union Interest.DETAIL_LOCAL).union Interest.DETAIL_SECRET)

def privacyAllowed (capability : Capability) (privacy : Privacy) : Bool :=
  match capability with
  | .remote => privacy == .supportSafe
  | .localRetained => privacy != .secret
  | .trustedEphemeral => true

/-- The filter of `project_event` on one materialized field. -/
def admits (capability : Capability) (level : DetailLevel) (metadata : FieldMetadata) : Bool :=
  privacyAllowed capability metadata.privacy && (level == .full || metadata.detail == .core)

def ProjectedField.ofRef (field : FieldRef) : ProjectedField :=
  { name := field.metadata.name
    privacy := field.metadata.privacy
    detail := field.metadata.detail
    value := field.value }

def projectEvent (event : EventRef) (capability : Capability) (level : DetailLevel) :
    ProjectedEvent :=
  let fields := (event.materialized.filter fun field =>
    admits capability level field.metadata).map ProjectedField.ofRef
  { metadata := event.metadata
    context := event.context
    fields := fields
    message := if capability ≠ .remote then event.message else none
    -- `usize::saturating_sub` is subtraction on natural numbers
    omittedFields := event.metadata.fields.length - fields.length }

/-- A capability's projected fields are chosen among the fields of its privacy tiers. -/
theorem materialized_filter_admits (event : EventRef) (capability : Capability)
    (level : DetailLevel) :
    event.materialized.filter (fun field => admits capability level field.metadata) =
      (event.fieldsWith (privacyAllowed capability)).filter
        (fun field => level == .full || field.metadata.detail == .core) := by
  rw [EventRef.fieldsWith, List.filter_filter]
  apply List.filter_congr
  intro field _
  rw [admits, Bool.and_comm]

/-- The interest of a view wants exactly the field groups its projection admits. -/
theorem sinkInterest_wants (capability : Capability) (level : DetailLevel)
    (metadata : FieldMetadata) :
    (sinkInterest capability level).wants metadata.privacy metadata.detail =
      admits capability level metadata := by
  obtain ⟨name, privacy, tier⟩ := metadata
  change (sinkInterest capability level).wants privacy tier =
    (privacyAllowed capability privacy && (level == .full || tier == .core))
  cases capability <;> cases level <;> cases privacy <;> cases tier <;> decide

/-- Two events a view cannot tell apart: same schema and context, same fields of the view's
privacy tiers, and the same message where the view may see one. -/
structure SameView (capability : Capability) (a b : EventRef) : Prop where
  metadata : a.metadata = b.metadata
  context : a.context = b.context
  fields : a.fieldsWith (privacyAllowed capability) = b.fieldsWith (privacyAllowed capability)
  message : capability ≠ .remote → a.message = b.message

/-- Projection depends only on what the view may see. -/
theorem projectEvent_congr {capability : Capability} {a b : EventRef}
    (h : SameView capability a b) (level : DetailLevel) :
    projectEvent a capability level = projectEvent b capability level := by
  have hmessage : (if capability ≠ .remote then a.message else none) =
      if capability ≠ .remote then b.message else none := by
    by_cases hc : capability = .remote
    · simp [hc]
    · simp [hc, h.message hc]
  simp only [projectEvent, materialized_filter_admits]
  rw [h.fields, h.metadata, h.context, hmessage]

end Logwise
