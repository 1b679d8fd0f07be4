import Logwise.Facade.Interest
import Logwise.Library.Restoring
import Logwise.Library.Transition

/-!
# The log bridge

`LogwiseLogger` (`logwise_compat_log/src/lib.rs`) on one thread. The installed dispatcher is asked
for answers; while it runs it may log records of its own on the same thread, and it may unwind
instead of answering. The guard is made as in the tracing bridge, but `log` asks `enabled` first.
-/

namespace Logwise.Log

open Reentrant

inductive Level where
  | trace | debug | info | warn | error
  deriving DecidableEq, Repr

def FIELDS : List FieldMetadata :=
  ["origin", "target", "module", "file", "line", "message", "fields"].map
    fun name => ⟨name, .localOnly, .core⟩

/-- The `callsite!` macro. -/
def callsite (name : String) (severity : Severity) : Metadata :=
  { eventName := name
    package := "logwise_compat_log"
    target := "foreign.log"
    modulePath := "logwise_compat_log"
    domain := some ⟨"foreign.log"⟩
    severity := severity
    eventClass := .diagnostic
    kind := .adHocText
    location := none
    fields := FIELDS }

def selected : Level → Metadata
  | .trace => callsite "foreign.log.trace" .trace
  | .debug => callsite "foreign.log.debug" .debug
  | .info => callsite "foreign.log.info" .info
  | .warn => callsite "foreign.log.warn" .warn
  | .error => callsite "foreign.log.error" .error

/-! ## Key-values -/

/-- A formatting implementation and what it returns. -/
inductive Rendering where
  | done (result : Bool)
  | writeStr (chunk : String) (next : Bool → Rendering)

namespace Rendering

/-- The implementation as the facade borrows it. -/
def formatter : Rendering → Formatter
  | .done _ => .done
  | .writeStr chunk next => .writeStr chunk (next true).formatter (next false).formatter

def andThen : Rendering → (Bool → Rendering) → Rendering
  | .done result, f => f result
  | .writeStr chunk next, f => .writeStr chunk fun result => (next result).andThen f

/-- `formatter.write_str(chunk)?`, then `rest`. -/
def literal (chunk : String) (rest : Rendering) : Rendering :=
  .writeStr chunk fun result => if result then rest else .done false

/-- What the implementation returns to a writer that never fails. -/
def result : Rendering → Bool
  | .done result => result
  | .writeStr _ next => (next true).result

end Rendering

/-- A `log::kv::Source`: the pairs it visits, and whether the visit returns `Ok`. -/
structure Source where
  pairs : List (String × Rendering)
  visited : Bool

namespace KeyValues

/-- The calls of `visit_pair`, with the fields `first` and `rendered` of the visitor; the last
value of `rendered` is returned. -/
def visitPairs (first rendered : Bool) : List (String × Rendering) → Rendering
  | [] => .done rendered
  | (key, value) :: pairs =>
    if !rendered then visitPairs first rendered pairs
    else
      let separated : Rendering := if first then .done true else .writeStr ", " .done
      separated.andThen fun rendered =>
        if !rendered then visitPairs first rendered pairs
        else
          (Rendering.literal key (.literal "=" value)).andThen fun rendered =>
            visitPairs false rendered pairs

/-- `impl Display for KeyValues`. -/
def fmt (source : Source) : Rendering :=
  .literal "\x7b" ((visitPairs true true source.pairs).andThen fun rendered =>
    if !source.visited then .done false
    else if !rendered then .done false
    else .writeStr "\x7d" .done)

end KeyValues

namespace Rendering

variable {rendering : Rendering} {f : Bool → Rendering}

@[simp] theorem text_andThen : (rendering.andThen f).formatter.text =
    rendering.formatter.text ++ (f rendering.result).formatter.text := by
  induction rendering with
  | done returned => simp [andThen, formatter, Formatter.text, result]
  | writeStr chunk next ih =>
    rw [andThen, formatter, Formatter.text, ih, formatter, Formatter.text, result, String.append_assoc]

@[simp] theorem result_andThen : (rendering.andThen f).result = (f rendering.result).result := by
  induction rendering with
  | done returned => rfl
  | writeStr chunk next ih => exact ih true

@[simp] theorem text_literal {chunk : String} {rest : Rendering} :
    (literal chunk rest).formatter.text = chunk ++ rest.formatter.text := by
  simp [literal, formatter, Formatter.text]

@[simp] theorem result_literal {chunk : String} {rest : Rendering} :
    (literal chunk rest).result = rest.result := by
  simp [literal, result]

end Rendering

namespace KeyValues

/-- One pair, where the value is formatted to its end. -/
def pairText (pair : String × Rendering) : String := pair.1 ++ "=" ++ pair.2.formatter.text

/-- The pairs that are left, each after a separator. -/
theorem text_visitPairs (before : String) {pairs : List (String × Rendering)}
    (h : ∀ pair ∈ pairs, pair.2.result = true) :
    (visitPairs false true pairs).result = true ∧
      before ++ (visitPairs false true pairs).formatter.text =
        String.intercalate ", " (before :: pairs.map pairText) := by
  induction pairs generalizing before with
  | nil => exact ⟨rfl, String.append_empty⟩
  | cons pair pairs ih =>
    obtain ⟨hvalue, hrest⟩ := List.forall_mem_cons.mp h
    obtain ⟨hresult, htext⟩ := ih (before ++ ", " ++ pairText pair) hrest
    constructor
    · simp [visitPairs, Rendering.andThen, Rendering.result, hvalue, hresult]
    · refine Eq.trans ?_ htext
      simp [visitPairs, Rendering.andThen, Rendering.formatter, Formatter.text, hvalue, pairText,
        String.append_assoc]

/-- **Key-values render as they are listed**, where the source and the values return `Ok`. -/
theorem text_fmt {source : Source} (hvisited : source.visited = true)
    (h : ∀ pair ∈ source.pairs, pair.2.result = true) :
    (fmt source).result = true ∧
      (fmt source).formatter.text =
        "\x7b" ++ String.intercalate ", " (source.pairs.map pairText) ++ "\x7d" := by
  obtain ⟨pairs, visited⟩ := source
  cases hvisited
  cases pairs with
  | nil => exact ⟨rfl, by decide⟩
  | cons pair pairs =>
    obtain ⟨hvalue, hrest⟩ := List.forall_mem_cons.mp h
    obtain ⟨hresult, htext⟩ := text_visitPairs (pairText pair) hrest
    constructor
    · simp [fmt, visitPairs, Rendering.andThen, Rendering.result, hvalue, hresult]
    · rw [List.map_cons, ← htext]
      simp [fmt, visitPairs, Rendering.andThen, Rendering.formatter, Formatter.text, hvalue,
        hresult, pairText, String.append_assoc]

end KeyValues

/-- The part of `log::Record` the bridge reads. -/
structure Record where
  level : Level
  target : String
  modulePath : Option String
  file : Option String
  line : Option UInt32
  args : Formatter
  keyValues : Source

/-! ## What the bridge asks -/

inductive Request where
  | interest (metadata : Metadata)
  | captureContext
  | contextualInterest (metadata : Metadata) (context : ContextToken)
  | emit (event : EventRef)

abbrev Reply : Request → Type
  | .interest _ | .contextualInterest _ _ => Interest
  | .captureContext => ContextToken
  | .emit _ => Unit

/-- `none` is a call that unwinds. -/
abbrev Answer (request : Request) : Type := Option (Reply request)

/-- Code over the thread-local `IN_BRIDGE` that may unwind. -/
abbrev Code := OptionT (Program Bool Answer)

def ask (request : Request) : Code (Reply request) := OptionT.mk (Program.request request)

def contextualInterest (metadata : Metadata) (interest : Interest) (context : ContextToken) :
    Code Interest :=
  if interest.isContextual then ask (.contextualInterest metadata context) else pure interest

namespace BridgeGuard

def active : Code Bool := OptionT.mk do
  let active ← Program.read
  pure (some active)

def drop : Program Bool Answer Unit := Program.modify fun _ => false

/-- `(!active.replace(true)).then_some(Self)`: the guard is built before the receiver is tested, and
dropped when the test fails. -/
def enter : Program Bool Answer Bool := do
  let active ← Program.read
  Program.modify fun _ => true
  if !active then pure true
  else
    drop
    pure false

end BridgeGuard

/-- `let Some(_guard) = BridgeGuard::enter() else { return }`, then `body`; the guard is dropped
when the body returns and when it unwinds. -/
def bridged (body : Code Unit) : Code Unit := OptionT.mk do
  if ← BridgeGuard.enter then
    let returned ← body.run
    BridgeGuard.drop
    pure returned
  else pure (some ())

/-! ## `impl Log for LogwiseLogger` -/

def localField (metadata : FieldMetadata) (value : ValueRef) (interest : Interest) :
    Option FieldRef :=
  if interest.wants .localOnly .core then some ⟨metadata, value⟩ else none

def Record.values (record : Record) : List ValueRef :=
  [.str "log", .str record.target, .str (record.modulePath.getD ""), .str (record.file.getD ""),
    .u64 (record.line.getD 0).toUInt64, .display record.args,
    .display (KeyValues.fmt record.keyValues).formatter]

def enabled (level : Level) : Code Bool := do
  if ← BridgeGuard.active then pure false
  else
    let interest ← ask (.interest (selected level))
    pure interest.any

/-- The event, its fields materialized as `interest` wants them, if it wants local fields at all. -/
def deliver (record : Record) (context : ContextToken) (interest : Interest) : Code Unit :=
  if !interest.wants .localOnly .core then pure ()
  else
    let fields := List.zipWith (fun field value => localField field value interest) FIELDS
      record.values
    ask (.emit (EventRef.structured (selected record.level) context fields))

def log (record : Record) : Code Unit := do
  if ← enabled record.level then
    bridged do
      let cached ← ask (.interest (selected record.level))
      let context ← ask .captureContext
      let interest ← contextualInterest (selected record.level) cached context
      deliver record context interest

/-- What the `log` facade calls. -/
inductive Callback where
  | enabled (level : Level)
  | log (record : Record)

def Callback.code : Callback → Program Bool Answer Unit
  | .enabled level => do
    let _ ← (Log.enabled level).run
    pure ()
  | .log record => do
    let _ ← (Log.log record).run
    pure ()

/-- One thread of the application: the flag, and the calls that wait for the dispatcher. -/
abbrev Bridge := Reentrant.Thread Bool Answer Callback

def Bridge.initial : Bridge := { locals := false, frames := [] }

/-- The dispatcher is user code, whatever it is asked. -/
abbrev Bridge.step : Bridge → Action Answer Callback → Option Bridge :=
  Reentrant.step Callback.code fun _ => true

end Logwise.Log
