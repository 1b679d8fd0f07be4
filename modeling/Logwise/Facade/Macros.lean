import Logwise.Facade.Callsite
import Mathlib.Data.List.Nodup

/-!
# Call-site macros

What `src/macros.rs` expands to. A field expression is the value it yields; the positions of
the expressions a call evaluated are returned with what it did. The dispatcher is passed as
each of the three uses a call makes of it finds it: `interest`, then `contextual_interest`,
then `emit` or `start_span`.
-/

namespace Logwise

/-- The markers `support(..)`, `local(..)` and `secret(..)`. -/
inductive Marker where
  | support | localOnly | secret
  deriving DecidableEq, Repr

/-- `detail name = marker(value)`, where `detail` and the marker may be missing. -/
structure FieldShape where
  isDetail : Bool
  name : String
  marker : Option Marker
  value : ValueRef
  deriving DecidableEq

namespace FieldShape

def privacy (shape : FieldShape) : Privacy :=
  match shape.marker with
  | some .support => .supportSafe
  | some .localOnly => .localOnly
  | some .secret => .secret
  | none => .localOnly

def detail (shape : FieldShape) : Detail := if shape.isDetail then .detail else .core

/-- One entry of `__logwise_field_metadata!`. -/
def metadata (shape : FieldShape) : FieldMetadata :=
  { name := shape.name, privacy := shape.privacy, detail := shape.detail }

def fieldRef (shape : FieldShape) : FieldRef := { metadata := shape.metadata, value := shape.value }

end FieldShape

def fieldMetadata (shapes : List FieldShape) : List FieldMetadata :=
  shapes.map FieldShape.metadata

/-- `__logwise_field_values!`: one iterator over the schema is advanced with the shapes, and
`expect` panics should it run out. `position` counts the shapes passed. -/
def fieldValues (interest : Interest) :
    ℕ → List FieldMetadata → List FieldShape → Option (List (Option FieldRef) × List ℕ)
  | _, _, [] => some ([], [])
  | _, [], _ :: _ => none
  | position, entry :: schema, shape :: shapes =>
    (fieldValues interest (position + 1) schema shapes).map fun (fields, evaluated) =>
      if interest.wants shape.privacy shape.detail then
        (some { metadata := entry, value := shape.value } :: fields, position :: evaluated)
      else (none :: fields, evaluated)

/-- `SpanGuard`. -/
structure SpanGuard where
  token : SpanToken
  context : ContextToken
  active : Bool
  deriving DecidableEq, Repr

namespace SpanGuard

def disabled : SpanGuard := { token := .none, context := .none, active := false }

def new (token : SpanToken) (context : ContextToken) : SpanGuard :=
  { token := token, context := context, active := !token.isNone }

end SpanGuard

variable {σ ρ : Type*}

/-- What a call of a macro did: its site's new cache, the state after it, the expressions it
evaluated, and its value. -/
structure Call (σ ρ : Type*) where
  site : Callsite
  state : σ
  evaluated : List ℕ
  result : ρ

namespace Callsite

def emit (dispatcher : Option (Dispatch σ)) (event : EventRef) (s : σ) : Option (Unit × σ) :=
  match dispatcher with
  | none => some ((), s)
  | some dispatcher => (dispatcher.emit event s).map fun s => ((), s)

def startSpan (dispatcher : Option (Dispatch σ)) (span : SpanRef) (s : σ) :
    Option (SpanGuard × σ) :=
  match dispatcher with
  | none => some (SpanGuard.disabled, s)
  | some dispatcher =>
    (dispatcher.startSpan span s).map fun (token, s) => (SpanGuard.new token span.event.context, s)

/-- The part `__logwise_structured!` and `__logwise_span!` share: `deliver` is given the event
when some field group is wanted, and `skipped` is the value of the call otherwise. -/
def expand (usizeBits : ℕ) (dispatcher : ℕ → Option (Dispatch σ)) (shapes : List FieldShape)
    (deliver : EventRef → σ → Option (ρ × σ)) (skipped : ρ) (site : Callsite) (s : σ) :
    Option (Call σ ρ) :=
  (site.interest usizeBits (dispatcher 0) s).bind fun (cached, site, s) =>
    if cached.any then
      let context := (dispatcher 1).elim ContextToken.none fun d => d.captureContext s
      (site.contextualInterest (dispatcher 1) cached context s).bind fun (interest, s) =>
        if interest.any then
          (fieldValues interest 0 site.metadata.fields shapes).bind fun (fields, evaluated) =>
            (deliver (EventRef.structured site.metadata context fields) s).map fun (result, s) =>
              { site := site, state := s, evaluated := evaluated, result := result }
        else some { site := site, state := s, evaluated := [], result := skipped }
    else some { site := site, state := s, evaluated := [], result := skipped }

/-- `__logwise_structured!`. -/
def structured (usizeBits : ℕ) (dispatcher : ℕ → Option (Dispatch σ)) (shapes : List FieldShape) :
    Callsite → σ → Option (Call σ Unit) :=
  expand usizeBits dispatcher shapes (emit (dispatcher 2)) ()

/-- `__logwise_span!`. -/
def span (usizeBits : ℕ) (dispatcher : ℕ → Option (Dispatch σ)) (timing : SpanTiming)
    (threshold : Option Duration) (shapes : List FieldShape) :
    Callsite → σ → Option (Call σ SpanGuard) :=
  expand usizeBits dispatcher shapes
    (fun event => startSpan (dispatcher 2)
      { event := event, timing := timing, warningThreshold := threshold })
    SpanGuard.disabled

end Callsite

/-! ## The macros by name -/

/-- What `env!`, `module_path!`, `file!`, `line!` and `column!` give at a call site. -/
structure Place where
  package : String
  target : String
  modulePath : String
  location : Location

/-- The macros that take fields, with the arguments a call site writes before them. -/
inductive Macro where
  | event (domain : Option Domain) (eventClass : Class) (severity : Severity) (name : String)
  | forensic (name : String)
  | counter (name : String)
  | measurement (name : String)
  | span (eventClass : Class) (severity : Severity) (name : String)
  | activeSpan (name : String)
  | wakeLatencySpan (name : String)
  | perfwarn (threshold : Duration) (name : String)
  | profile (name : String)

namespace Macro

/-- The static a call site declares. -/
def site (place : Place) (shapes : List FieldShape) (domain : Option Domain) (eventClass : Class)
    (severity : Severity) (kind : Kind) (name : String) : Metadata :=
  { eventName := name
    package := place.package
    target := place.target
    modulePath := place.modulePath
    domain := domain
    severity := severity
    eventClass := eventClass
    kind := kind
    location := some place.location
    fields := fieldMetadata shapes }

def metadata (place : Place) (shapes : List FieldShape) : Macro → Metadata
  | .event domain eventClass severity name =>
    site place shapes domain eventClass severity .event name
  | .forensic name => site place shapes none .forensic .debug .event name
  | .counter name => site place shapes none .metric .info .counter name
  | .measurement name => site place shapes none .metric .info .measurement name
  | .span eventClass severity name => site place shapes none eventClass severity .span name
  | .activeSpan name => site place shapes none .performance .debug .span name
  | .wakeLatencySpan name => site place shapes none .performance .debug .span name
  | .perfwarn _ name => site place shapes none .performance .warn .span name
  | .profile name => site place shapes none .performance .debug .span name

/-- The timing and threshold of the macros that start a span. -/
def timing : Macro → Option (SpanTiming × Option Duration)
  | .event .. | .forensic _ | .counter _ | .measurement _ => none
  | .span .. => some (.wallTime, none)
  | .activeSpan _ => some (.activeTime, none)
  | .wakeLatencySpan _ => some (.wakeLatency, none)
  | .perfwarn threshold _ => some (.wallTime, some threshold)
  | .profile _ => some (.wallTime, none)

/-- Run the expansion of a macro at its call site. -/
def call (usizeBits : ℕ) (dispatcher : ℕ → Option (Dispatch σ)) (shapes : List FieldShape)
    (m : Macro) (site : Callsite) (s : σ) : Option (Call σ (Option SpanGuard)) :=
  match m.timing with
  | none =>
    (site.structured usizeBits dispatcher shapes s).map fun called =>
      { site := called.site, state := called.state, evaluated := called.evaluated, result := none }
  | some (timing, threshold) =>
    (site.span usizeBits dispatcher timing threshold shapes s).map fun called =>
      { site := called.site, state := called.state, evaluated := called.evaluated
        result := some called.result }

@[simp] theorem metadata_fields (place : Place) (shapes : List FieldShape) (m : Macro) :
    (m.metadata place shapes).fields = fieldMetadata shapes := by
  cases m <;> rfl

theorem metadata_kind_ne_adHocText (place : Place) (shapes : List FieldShape) (m : Macro) :
    (m.metadata place shapes).kind ≠ .adHocText := by
  cases m <;> exact Kind.noConfusion

end Macro

/-! ## What a call evaluates -/

/-- Over a site's own schema the iterator never runs out: the wanted shapes, and no others, are
evaluated and become fields. -/
theorem fieldValues_fieldMetadata (interest : Interest) (position : ℕ)
    (shapes : List FieldShape) :
    ∃ evaluated, fieldValues interest position (fieldMetadata shapes) shapes =
        some (shapes.map fun shape =>
          if interest.wants shape.privacy shape.detail then some shape.fieldRef else none,
          evaluated) ∧
      evaluated.Nodup ∧
      ∀ i ∈ evaluated, ∃ shape, position ≤ i ∧ shapes[i - position]? = some shape ∧
        interest.wants shape.privacy shape.detail = true := by
  induction shapes generalizing position with
  | nil => exact ⟨[], rfl, List.nodup_nil, fun _ h => by cases h⟩
  | cons shape shapes ih =>
    obtain ⟨evaluated, hvalues, hnodup, hall⟩ := ih (position + 1)
    have htail : ∀ i ∈ evaluated, ∃ found, position ≤ i ∧
        (shape :: shapes)[i - position]? = some found ∧
        interest.wants found.privacy found.detail = true := by
      intro i hi
      obtain ⟨found, hle, hget, hwants⟩ := hall i hi
      have hsub : i - position = (i - (position + 1)) + 1 := by omega
      refine ⟨found, by omega, ?_, hwants⟩
      rw [hsub, List.getElem?_cons_succ]
      exact hget
    rw [fieldMetadata] at hvalues
    by_cases hw : interest.wants shape.privacy shape.detail = true
    · refine ⟨position :: evaluated, ?_, ?_, ?_⟩
      · simp only [fieldMetadata, List.map_cons, fieldValues, hvalues, Option.map_some, if_pos hw]
        rfl
      · refine List.nodup_cons.mpr ⟨?_, hnodup⟩
        intro hmem
        obtain ⟨_, hle, -, -⟩ := hall position hmem
        omega
      · intro i hi
        obtain rfl | hi' := List.mem_cons.mp hi
        · exact ⟨shape, le_rfl, by simp, hw⟩
        · exact htail i hi'
    · refine ⟨evaluated, ?_, hnodup, htail⟩
      simp only [fieldMetadata, List.map_cons, fieldValues, hvalues, Option.map_some, if_neg hw]

end Logwise
