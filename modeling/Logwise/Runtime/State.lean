import Logwise.Runtime.Projection
import Logwise.Library.Walk

/-!
# Runtime state and selectors

The configuration half of `facade_runtime.rs`: filters over static metadata and causal
context, and the records a `Runtime` owns. The contents of the source's `Spinlock<State>`
are fields of `Runtime` here; every operation below is one whole call.
-/

namespace Logwise

inductive Target where
  | native | wasm
  deriving DecidableEq, Repr

/-- What the build target decides: `current_target()`, the width of `usize`, which Rust promises to
be at least sixteen bits, and the latest `Instant`, past which an addition panics. -/
structure Platform where
  target : Target
  usizeBits : ℕ
  wide : 16 ≤ usizeBits
  lastInstant : ℕ

namespace Platform

/-- Seconds in an `i64`. -/
def native64 : Platform := ⟨.native, 64, by decide, 2 ^ 63 * 10 ^ 9 - 1⟩

def usizeMax (platform : Platform) : ℕ := 2 ^ platform.usizeBits - 1

end Platform

/-- The monotonic clock, in nanoseconds. -/
abbrev Instant := ℕ

structure ContextSnapshot where
  token : ContextToken
  name : String
  parent : Option ContextToken
  links : List ContextToken
  deriving DecidableEq, Repr

/-- `HashMap<u64, ContextSnapshot>`; the first entry of an id is its value. -/
abbrev Contexts := List (UInt64 × ContextSnapshot)

/-- Runtime selector over static metadata and causal context. -/
structure Filter where
  domain : Option String := none
  eventName : Option String := none
  eventClass : Option Class := none
  minimumSeverity : Option Severity := none
  context : Option ContextToken := none
  descendants : Bool := false
  target : Option Target := none
  deriving DecidableEq, Repr

namespace Filter

def new : Filter := {}

def withContext (filter : Filter) (context : ContextToken) (descendants : Bool) : Filter :=
  { filter with context := some context, descendants := descendants }

end Filter

/-- One test of the loop in `is_descendant`: an answer, or the parent to go on from. -/
def lineageStep (contexts : Contexts) (ancestor candidate : ContextToken) :
    Bool ⊕ ContextToken :=
  if candidate.isNone then .inl false
  else if candidate = ancestor then .inl true
  else
    match contexts.lookup candidate.id with
    | none => .inl false
    | some snapshot =>
      match snapshot.parent with
      | none => .inl false
      | some parent => .inr parent

/-- `is_descendant`. The source loops without a bound; `none` is the loop that never ends. -/
def isDescendant (contexts : Contexts) (candidate ancestor : ContextToken) : Option Bool :=
  Walk.within (lineageStep contexts ancestor) (contexts.length + 1) candidate

theorem lineageStep_eq_inr {contexts : Contexts} {ancestor candidate parent : ContextToken}
    (h : lineageStep contexts ancestor candidate = .inr parent) :
    ∃ snapshot, contexts.lookup candidate.id = some snapshot ∧ snapshot.parent = some parent := by
  unfold lineageStep at h
  split at h
  · cases h
  split at h
  · cases h
  split at h
  · cases h
  next snapshot hs =>
    split at h
    · cases h
    next p hp =>
      cases h
      exact ⟨snapshot, hs, hp⟩

theorem mem_keys_of_lookup {contexts : Contexts} {id : UInt64} {snapshot : ContextSnapshot}
    (h : contexts.lookup id = some snapshot) : id ∈ contexts.map Prod.fst := by
  induction contexts with
  | nil => cases h
  | cons entry contexts ih =>
    rw [List.lookup_cons] at h
    cases he : id == entry.1 with
    | true =>
      rw [eq_of_beq he]
      exact List.mem_cons_self ..
    | false =>
      rw [he] at h
      exact List.mem_cons_of_mem _ (ih h)

/-- The bound in `isDescendant` decides the unbounded loop of the source. -/
theorem isDescendant_eq_none_iff (contexts : Contexts) (candidate ancestor : ContextToken) :
    isDescendant contexts candidate ancestor = none ↔
      ∀ n, Walk.within (lineageStep contexts ancestor) n candidate = none := by
  have hkey : ∀ a a', lineageStep contexts ancestor a = .inr a' →
      a.id ∈ contexts.map Prod.fst := by
    intro a a' ha
    obtain ⟨snapshot, hs, -⟩ := lineageStep_eq_inr ha
    exact mem_keys_of_lookup hs
  have hdet : ∀ a a' b b', lineageStep contexts ancestor a = .inr a' →
      lineageStep contexts ancestor b = .inr b' → a.id = b.id → a' = b' := by
    intro a a' b b' ha hb hid
    obtain ⟨sa, hsa, hpa⟩ := lineageStep_eq_inr ha
    obtain ⟨sb, hsb, hpb⟩ := lineageStep_eq_inr hb
    rw [hid, hsb] at hsa
    cases hsa
    exact Option.some.inj (hpa.symm.trans hpb)
  have h := Walk.within_eq_none_iff (a := candidate) ContextToken.id _ hkey hdet
  rw [List.length_map] at h
  exact h

/-- Every recorded parent is older than its child. -/
def Acyclic (contexts : Contexts) : Prop :=
  ∀ id snapshot parent, contexts.lookup id = some snapshot → snapshot.parent = some parent →
    parent.id < id

/-- Where parents are older than their children, the walk ends. -/
theorem isDescendant_isSome {contexts : Contexts} (h : Acyclic contexts)
    (candidate ancestor : ContextToken) : (isDescendant contexts candidate ancestor).isSome := by
  cases hd : isDescendant contexts candidate ancestor with
  | some answer => rfl
  | none =>
    have hnever := (isDescendant_eq_none_iff contexts candidate ancestor).mp hd
    have hends : (Walk.within (lineageStep contexts ancestor) (candidate.id.toNat + 1)
        candidate).isSome := by
      refine Walk.within_isSome (fun token => token.id.toNat) ?_ (Nat.lt_succ_self _)
      intro a a' ha
      obtain ⟨snapshot, hs, hp⟩ := lineageStep_eq_inr ha
      exact h a.id snapshot a' hs hp
    rw [hnever] at hends
    cases hends

def hierarchyMatches (value selector : String) : Bool :=
  value == selector ||
    match value.toList.dropPrefix? selector.toList with
    | some suffix => ['.'].isPrefixOf suffix || [':', ':'].isPrefixOf suffix
    | none => false

def domainMatches (metadata : Metadata) (selector : String) : Bool :=
  metadata.domain.any (fun domain => hierarchyMatches domain.name selector) ||
    hierarchyMatches metadata.package selector ||
    hierarchyMatches metadata.target selector ||
    hierarchyMatches metadata.modulePath selector

namespace Filter

/-- `Option::is_none_or` is `Option.all`. -/
def matchesStatic (platform : Platform) (filter : Filter) (metadata : Metadata) : Bool :=
  filter.target.all (fun target => target == platform.target) &&
    filter.domain.all (fun domain => domainMatches metadata domain) &&
    filter.eventName.all (fun event => hierarchyMatches metadata.eventName event) &&
    filter.eventClass.all (fun eventClass => metadata.eventClass == eventClass) &&
    filter.minimumSeverity.all
      (fun severity => severity.discriminant ≤ metadata.severity.discriminant)

def matchesContext (filter : Filter) (contexts : Contexts) (context : ContextToken) :
    Option Bool :=
  match filter.context with
  | none => some true
  | some selected =>
    if filter.descendants then isDescendant contexts context selected
    else some (context == selected)

/-- `matches_static(metadata) && matches_context(contexts, context)`. -/
def selects (platform : Platform) (filter : Filter) (contexts : Contexts)
    (metadata : Metadata) (context : ContextToken) : Option Bool :=
  if filter.matchesStatic platform metadata then filter.matchesContext contexts context
  else some false

theorem selects_eq_true_iff {platform : Platform} {filter : Filter} {contexts : Contexts}
    {metadata : Metadata} {context : ContextToken} :
    filter.selects platform contexts metadata context = some true ↔
      filter.matchesStatic platform metadata = true ∧
        filter.matchesContext contexts context = some true := by
  by_cases h : filter.matchesStatic platform metadata <;> simp [selects, h]

theorem matchesContext_of_none {filter : Filter} (h : filter.context = none)
    (contexts : Contexts) (context : ContextToken) :
    filter.matchesContext contexts context = some true := by
  simp [matchesContext, h]

theorem matchesContext_isSome {contexts : Contexts} (h : Acyclic contexts) (filter : Filter)
    (context : ContextToken) : (filter.matchesContext contexts context).isSome := by
  unfold matchesContext
  split
  · rfl
  split
  · exact isDescendant_isSome h ..
  · rfl

theorem selects_isSome {contexts : Contexts} (h : Acyclic contexts) (platform : Platform)
    (filter : Filter) (metadata : Metadata) (context : ContextToken) :
    (filter.selects platform contexts metadata context).isSome := by
  unfold selects
  split
  · exact matchesContext_isSome h filter context
  · rfl

end Filter

inductive ActivationResult where
  | enabled | unavailableTarget | notCompiled | unknownSelector
  deriving DecidableEq, Repr

structure SinkId where
  raw : UInt64
  deriving DecidableEq, Repr

/-- The identity of an `Arc<dyn EventSink>`. -/
structure SinkHandle where
  index : ℕ
  deriving DecidableEq, Repr

structure SinkRegistration where
  id : SinkId
  sink : SinkHandle
  capability : Capability
  detail : DetailLevel
  filter : Filter
  deriving DecidableEq, Repr

structure Activation where
  filter : Filter
  interest : Interest
  expires : Instant
  deriving DecidableEq, Repr

structure ActiveSpan where
  eventName : String
  context : ContextToken
  timing : SpanTiming
  started : Instant
  warningThreshold : Option Duration
  deriving DecidableEq, Repr

structure CompletedSpan where
  token : SpanToken
  eventName : String
  context : ContextToken
  timing : SpanTiming
  elapsed : Duration
  warningThreshold : Option Duration
  thresholdExceeded : Bool
  deriving DecidableEq, Repr

def COMPLETED_SPAN_RETENTION : ℕ := 1024

/-- The mutable runtime installed behind the facade dispatcher. -/
structure Runtime where
  generation : ℕ
  baselineInterest : Interest
  nextContext : UInt64
  nextSpan : UInt64
  nextSink : UInt64
  sinkPanics : ℕ
  reentrantEventsDropped : ℕ
  completedSpansDropped : ℕ
  contexts : Contexts
  activeSpans : List (UInt64 × ActiveSpan)
  completedSpans : List CompletedSpan
  activations : List Activation
  sinks : List SinkRegistration
  catalog : List Metadata

def Runtime.new : Runtime :=
  { generation := 0
    baselineInterest := Interest.NONE
    nextContext := 1
    nextSpan := 1
    nextSink := 1
    sinkPanics := 0
    reentrantEventsDropped := 0
    completedSpansDropped := 0
    contexts := []
    activeSpans := []
    completedSpans := []
    activations := []
    sinks := []
    catalog := [] }

end Logwise
