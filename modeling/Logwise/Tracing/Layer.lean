import Logwise.Facade.Interest
import Logwise.Library.Reentrant

/-!
# The tracing layer

`LogwiseLayer` (`logwise_compat_tracing/src/lib.rs`) on one thread. The registry, the installed
dispatcher and the `Debug` implementations of fields are asked for answers; while one of the latter
two runs, it may make tracing calls on the same thread, which come back as callbacks of the layer.
-/

namespace Logwise.Tracing

open Reentrant

inductive Level where
  | trace | debug | info | warn | error
  deriving DecidableEq, Repr

/-- The part of `tracing::Metadata` the layer reads. -/
structure TracingMetadata where
  level : Level
  target : String
  name : String
  deriving DecidableEq, Repr

structure SpanState where
  context : ContextToken
  tracingId : UInt64
  parentId : UInt64
  deriving DecidableEq, Repr

/-- A live span of the registry and its extension, once the layer has inserted it. -/
structure SpanRef where
  metadata : TracingMetadata
  state : Option SpanState
  deriving DecidableEq, Repr

def FIELDS : List FieldMetadata :=
  ["origin", "operation", "target", "name", "tracing_id", "parent_id", "fields"].map
    fun name => ⟨name, .localOnly, .core⟩

/-- The `callsite!` macro. -/
def callsite (name : String) (severity : Severity) : Metadata :=
  { eventName := name
    package := "logwise_compat_tracing"
    target := "foreign.tracing"
    modulePath := "logwise_compat_tracing"
    domain := some ⟨"foreign.tracing"⟩
    severity := severity
    eventClass := .diagnostic
    kind := .adHocText
    location := none
    fields := FIELDS }

def selected : Level → Metadata
  | .trace => callsite "foreign.tracing.trace" .trace
  | .debug => callsite "foreign.tracing.debug" .debug
  | .info => callsite "foreign.tracing.info" .info
  | .warn => callsite "foreign.tracing.warn" .warn
  | .error => callsite "foreign.tracing.error" .error

/-- What a callback asks: the registry, the dispatcher behind the facade, a field. -/
inductive Request where
  | span (id : UInt64)
  | currentSpan
  | eventSpan
  | insertState (id : UInt64) (state : SpanState)
  | interest (metadata : Metadata)
  | contextualInterest (metadata : Metadata) (context : ContextToken)
  | captureContext
  | createContext (parent : ContextToken) (name : String)
  | linkContext (context related : ContextToken)
  | enterContext (context : ContextToken)
  | exitContext (previous : ContextToken)
  | emit (event : EventRef)
  | formatField (name : String)

def Answer : Request → Type
  | .span _ | .currentSpan | .eventSpan => Option SpanRef
  | .interest _ | .contextualInterest _ _ => Interest
  | .captureContext | .createContext _ _ => ContextToken
  -- nothing is entered when no dispatcher is installed
  | .enterContext _ => Option ContextToken
  | .formatField _ => String
  | .insertState _ _ | .linkContext _ _ | .exitContext _ | .emit _ => Unit

/-- User code runs until the request is answered; the registry runs none. -/
def Request.opens : Request → Bool
  | .span _ | .currentSpan | .eventSpan | .insertState _ _ => false
  | _ => true

/-- The request that `Callsite::emit` makes, and the one that creates a context. -/
def Request.isImport : Request → Bool
  | .emit _ | .createContext _ _ => true
  | _ => false

/-- The context to restore, unless the guard is inactive. -/
abbrev ContextGuard := Option ContextToken

/-- The thread-locals. `entered` is the vector `ENTERED`, its last entry first, and `borrowed`
that its `RefCell` is mutably borrowed. -/
structure Locals where
  inBridge : Bool
  entered : List (UInt64 × ContextGuard)
  borrowed : Bool

abbrev Code := Program Locals Answer

def ask (request : Request) : Code (Answer request) := Program.request request

/-! ## The registry and the facade -/

namespace Registry

def span (id : UInt64) : Code (Option SpanRef) := ask (.span id)

def lookupCurrent : Code (Option SpanRef) := ask .currentSpan

def eventSpan : Code (Option SpanRef) := ask .eventSpan

def insertState (id : UInt64) (state : SpanState) : Code Unit := ask (.insertState id state)

end Registry

namespace Facade

def interest (metadata : Metadata) : Code Interest := ask (.interest metadata)

def contextualInterest (metadata : Metadata) (interest : Interest) (context : ContextToken) :
    Code Interest :=
  if interest.isContextual then ask (.contextualInterest metadata context)
  else pure interest

def capture : Code ContextToken := ask .captureContext

def child (parent : ContextToken) (name : String) : Code ContextToken :=
  ask (.createContext parent name)

def link (context related : ContextToken) : Code Unit :=
  ask (.linkContext context related)

def enter (context : ContextToken) : Code ContextGuard := ask (.enterContext context)

def exit : ContextGuard → Code Unit
  | some previous => ask (.exitContext previous)
  | none => pure ()

end Facade

/-! ## The guard -/

namespace BridgeGuard

def drop : Code Unit := Program.modify fun locals => { locals with inBridge := false }

/-- `(!active.replace(true)).then_some(Self)`: the guard is built before the receiver is tested, and
dropped when the test fails. -/
def enter : Code Bool := do
  let locals ← Program.read
  Program.modify fun locals => { locals with inBridge := true }
  if !locals.inBridge then pure true
  else
    drop
    pure false

def active : Code Bool := do
  let locals ← Program.read
  pure locals.inBridge

end BridgeGuard

/-- `let Some(_bridge) = BridgeGuard::enter() else { return }`, then `body`. -/
def bridged (body : Code Unit) : Code Unit := do
  if ← BridgeGuard.enter then
    body
    BridgeGuard.drop

/-- `let _entered = logwise::context::enter(context)`, then `body`. -/
def entering (context : ContextToken) (body : Code Unit) : Code Unit := do
  let entered ← Facade.enter context
  body
  Facade.exit entered

/-! ## Helpers -/

def spanState (id : UInt64) : Code (Option SpanState) := do
  let span ← Registry.span id
  pure (span.bind SpanRef.state)

def spanStateAndMetadata (id : UInt64) : Code (Option (SpanState × TracingMetadata)) := do
  let span ← Registry.span id
  pure (span.bind fun span => span.state.map fun state => (state, span.metadata))

/-- The parent a new span names. -/
inductive Parent where
  | root
  | explicit (id : UInt64)
  | contextual
  deriving DecidableEq, Repr

def parentState : Parent → Code (Option SpanState)
  | .root => pure none
  | .explicit parent => spanState parent
  | .contextual => do
    let span ← Registry.lookupCurrent
    pure (span.bind SpanRef.state)

/-- `write!` of a field's `Debug` into a string. -/
def formatField (name : String) : Code String := ask (.formatField name)

/-- `FieldVisitor::record_debug` over the fields `names`. -/
def recordFields (output : String) : List String → Code String
  | [] => pure output
  | name :: names => do
    let text ← formatField name
    recordFields ((if output = "" then output else output ++ ", ") ++ name ++ "=" ++ text) names

def wantsLocal (level : Level) : Code Bool := do
  let callsite := selected level
  let cached ← Facade.interest callsite
  if !cached.any then pure false
  else
    let context ← Facade.capture
    let interest ← Facade.contextualInterest callsite cached context
    pure (interest.wants .localOnly .core)

def localField (metadata : FieldMetadata) (value : ValueRef) (interest : Interest) :
    Option FieldRef :=
  if interest.wants .localOnly .core then some ⟨metadata, value⟩ else none

def emit (level : Level) (operation target name : String) (tracingId parentId : UInt64)
    (importedFields : String) : Code Unit := do
  let metadata := selected level
  let cached ← Facade.interest metadata
  if !cached.any then pure ()
  else
    let context ← Facade.capture
    let interest ← Facade.contextualInterest metadata cached context
    if !interest.wants .localOnly .core then pure ()
    else
      let values : List ValueRef := [.str "tracing", .str operation, .str target, .str name,
        .u64 tracingId, .u64 parentId, .str importedFields]
      let fields := List.zipWith (fun field value => localField field value interest) FIELDS values
      ask (.emit (EventRef.structured metadata context fields))

/-! ## The subscriber callbacks -/

def onNewSpan (metadata : TracingMetadata) (parent : Parent) (fields : List String) (id : UInt64) :
    Code Unit := bridged do
  let parent ← parentState parent
  let context ← Facade.child ((parent.map SpanState.context).getD .none) metadata.name
  let state : SpanState :=
    { context := context, tracingId := id, parentId := (parent.map SpanState.tracingId).getD 0 }
  let span ← Registry.span id
  if span.isSome then Registry.insertState id state
  entering context do
    if ← wantsLocal metadata.level then
      let output ← recordFields "" fields
      emit metadata.level "span.new" metadata.target metadata.name state.tracingId state.parentId
        output

def onRecord (id : UInt64) (fields : List String) : Code Unit := bridged do
  if let some (state, metadata) ← spanStateAndMetadata id then
    entering state.context do
      if ← wantsLocal metadata.level then
        let output ← recordFields "" fields
        emit metadata.level "span.record" metadata.target metadata.name state.tracingId
          state.parentId output

def onFollowsFrom (id follows : UInt64) : Code Unit := bridged do
  if let some (state, metadata) ← spanStateAndMetadata id then
    if let some related ← spanState follows then
      Facade.link state.context related.context
      entering state.context do
        emit metadata.level "span.link" metadata.target metadata.name state.tracingId
          related.tracingId ""

def onEvent (metadata : TracingMetadata) (fields : List String) : Code Unit := bridged do
  let span ← Registry.eventSpan
  let parent := span.bind SpanRef.state
  let body : Code Unit := do
    if ← wantsLocal metadata.level then
      let output ← recordFields "" fields
      emit metadata.level "event" metadata.target metadata.name 0
        ((parent.map SpanState.tracingId).getD 0) output
  match parent with
  | some state => entering state.context body
  | none => body

def onClose (id : UInt64) : Code Unit := bridged do
  if let some (state, metadata) ← spanStateAndMetadata id then
    entering state.context do
      emit metadata.level "span.close" metadata.target metadata.name state.tracingId
        state.parentId ""

/-- `ENTERED.with(|entered| entered.borrow_mut() ...)`; a second borrow panics. -/
def borrowingEntered (body : Code Unit) : Code Unit := do
  let locals ← Program.read
  if locals.borrowed then Program.panic
  else
    Program.modify fun locals => { locals with borrowed := true }
    body
    Program.modify fun locals => { locals with borrowed := false }

def pushEntered (id : UInt64) (guard : ContextGuard) : Code Unit :=
  Program.modify fun locals => { locals with entered := (id, guard) :: locals.entered }

/-- Pop the last entry and drop its guard. -/
def popEntered : Code (Option UInt64) := do
  let locals ← Program.read
  match locals.entered with
  | (id, guard) :: below =>
    Program.modify fun locals => { locals with entered := below }
    Facade.exit guard
    pure (some id)
  | [] => pure none

def onEnter (id : UInt64) : Code Unit := do
  if ← BridgeGuard.active then pure ()
  else if let some state ← spanState id then
    borrowingEntered do
      let guard ← Facade.enter state.context
      pushEntered id guard

/-- Take `count` entries off the top; their ids, the last one taken first. -/
def unwindEntered (stillEntered : List UInt64) : ℕ → Code (List UInt64)
  | 0 => pure stillEntered
  | count + 1 => do
    match ← popEntered with
    | some above => unwindEntered (above :: stillEntered) count
    | none => Program.panic

/-- Put the entries back in the order they were entered. -/
def reenter : List UInt64 → Code Unit
  | [] => pure ()
  | above :: rest => do
    if let some state ← spanState above then
      let guard ← Facade.enter state.context
      pushEntered above guard
    reenter rest

def onExit (id : UInt64) : Code Unit := do
  if ← BridgeGuard.active then pure ()
  else
    borrowingEntered do
      let locals ← Program.read
      -- the distance of the last entry of this span from the top
      match locals.entered.findIdx? fun entry => entry.1 == id with
      | none => pure ()
      | some count =>
        let stillEntered ← unwindEntered [] count
        let _ ← popEntered
        reenter stillEntered

inductive Callback where
  | newSpan (metadata : TracingMetadata) (parent : Parent) (fields : List String) (id : UInt64)
  | record (id : UInt64) (fields : List String)
  | followsFrom (id follows : UInt64)
  | event (metadata : TracingMetadata) (fields : List String)
  | enter (id : UInt64)
  | exit (id : UInt64)
  | close (id : UInt64)

def Callback.code : Callback → Code Unit
  | .newSpan metadata parent fields id => onNewSpan metadata parent fields id
  | .record id fields => onRecord id fields
  | .followsFrom id follows => onFollowsFrom id follows
  | .event metadata fields => onEvent metadata fields
  | .enter id => onEnter id
  | .exit id => onExit id
  | .close id => onClose id

/-- The five callbacks that enter the bridge guard. -/
def Callback.bridges : Callback → Bool
  | .enter _ | .exit _ => false
  | _ => true

/-- One thread of the application. -/
abbrev Bridge := Reentrant.Thread Locals Answer Callback

def Bridge.initial : Bridge :=
  { locals := { inBridge := false, entered := [], borrowed := false }, frames := [] }

abbrev Bridge.step : Bridge → Action Answer Callback → Option Bridge :=
  Reentrant.step Callback.code Request.opens

end Logwise.Tracing
