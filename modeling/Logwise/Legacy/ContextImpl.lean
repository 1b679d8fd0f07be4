import Logwise.Legacy.Record
import Logwise.Library.Shared

/-!
# Legacy contexts and the threads that make them current

`context_impl.rs`: contexts, the thread-local cell of the current one, and what all threads share.
A context is an `Arc` that never changes, but for `is_tracing`, which is kept in the memory under
the allocation's address. Each call is a program; an access of what is shared is one request. When a
context goes with its last handle is not followed; what its destructor logs is a call of its own.
-/

namespace Logwise.Legacy.ContextImpl

open Reentrant (Program)

structure Task where
  taskId : UInt64
  label : String
  completionLevel : Level
  shouldLogCompletion : Bool
  deriving DecidableEq

/-- A context, with the address of its allocation: a `parent` of `None`, or of `Some`. -/
inductive Context where
  | root (address : ℕ) (contextId : UInt64) (defineTask : Option Task)
  | child (parent : Context) (address : ℕ) (contextId : UInt64) (defineTask : Option Task)
  deriving DecidableEq

namespace Context

/-- `Arc::new(ContextInner { parent, context_id, define_task, .. })`. -/
def new (address : ℕ) (parent : Option Context) (contextId : UInt64) (defineTask : Option Task) :
    Context :=
  match parent with
  | none => .root address contextId defineTask
  | some parent => .child parent address contextId defineTask

def address : Context → ℕ
  | .root address _ _ => address
  | .child _ address _ _ => address

def parent : Context → Option Context
  | .root _ _ _ => none
  | .child parent _ _ _ => some parent

def contextId : Context → UInt64
  | .root _ contextId _ => contextId
  | .child _ _ contextId _ => contextId

def defineTask : Context → Option Task
  | .root _ _ defineTask => defineTask
  | .child _ _ _ defineTask => defineTask

def nestingLevel : Context → ℕ
  | .root _ _ _ => 0
  | .child parent _ _ _ => parent.nestingLevel + 1

/-- The search of `task`; `none` is its `expect("No parent context")`. -/
def findTask : Context → Option Task
  | .root _ _ defineTask => defineTask
  | .child parent _ _ defineTask => defineTask <|> parent.findTask

/-- The context and those above it, up to the root. -/
def chain : Context → List Context
  | .root address contextId defineTask => [.root address contextId defineTask]
  | .child parent address contextId defineTask =>
    .child parent address contextId defineTask :: parent.chain

end Context

/-- The thread-local `CONTEXT`. -/
inductive Cell where
  | uninit
  | current (context : Context)
  | destroyed
  deriving DecidableEq

/-- The static `DETACHED`; `busy` while a thread runs its initializer. -/
inductive Detached where
  | empty
  | busy
  | set (context : Context)
  deriving DecidableEq

/-- A record, from the prelude of the context to the message. -/
structure Message where
  level : Level
  prelude : List String
  text : String
  deriving DecidableEq

inductive Request where
  | fetchAddContextId
  | fetchAddTaskId
  /-- `Arc::new`, with the initial `is_tracing`. -/
  | arcNew (isTracing : Bool)
  | loadTracing (address : ℕ)
  | storeTracing (address : ℕ)
  | enterDetached
  | leaveDetached (context : Context)
  | finishLogRecord (message : Message)
  /-- A call gives its caller a context. -/
  | returns (context : Context)

@[reducible] def Request.Answer : Request → Type
  | .fetchAddContextId => UInt64
  | .fetchAddTaskId => UInt64
  | .arcNew _ => ℕ
  | .loadTracing _ => Bool
  | .storeTracing _ => Unit
  | .enterDetached => Option Context
  | .leaveDetached _ => Unit
  | .finishLogRecord _ => Unit
  | .returns _ => Unit

abbrev Code (α : Type) := Program Cell Request.Answer α

abbrev read : Code Cell := Program.read

abbrev write (cell : Cell) : Code Unit := Program.modify fun _ => cell

abbrev ask (request : Request) : Code request.Answer := Program.request request

/-- How the crate was built: `cfg(debug_assertions)`, and its logging domain's `is_internal`. -/
structure Build where
  debugAssertions : Bool
  internal : Bool

def newTaskInternal (parent : Option Context) (label : String) (completionLevel : Level)
    (shouldLogCompletion : Bool) (contextId : UInt64) : Code Context := do
  let taskId ← ask .fetchAddTaskId
  let address ← ask (.arcNew false)
  pure (.new address parent contextId
    (some { taskId := taskId, label := label, completionLevel := completionLevel
            shouldLogCompletion := shouldLogCompletion }))

def detachedContext : Code Context := do
  match ← ask .enterDetached with
  | some context => pure context
  | none =>
    let contextId ← ask .fetchAddContextId
    let context ← newTaskInternal none "logwise detached" .debugInternal false contextId
    ask (.leaveDetached context)
    pure context

def getOrInitContext : Code Context := do
  match ← read with
  | .current context => pure context
  | _ =>
    let contextId ← ask .fetchAddContextId
    let context ← newTaskInternal none "" .debugInternal false contextId
    write (.current context)
    pure context

def current : Code Context := do
  match ← read with
  | .destroyed => detachedContext
  | _ => getOrInitContext

def task (context : Context) : Code Task :=
  match context.findTask with
  | some task => pure task
  | none => .panic

def newTask (parent : Option Context) (label : String) (completionLevel : Level)
    (shouldLogCompletion : Bool) : Code Context := do
  let contextId ← ask .fetchAddContextId
  newTaskInternal parent label completionLevel shouldLogCompletion contextId

def setCurrent (context : Context) : Code Unit := do
  match ← read with
  | .destroyed => pure ()
  | _ =>
    let _ ← getOrInitContext
    write (.current context)

def currentlyTracing : Code Bool := do
  match ← read with
  | .current context => ask (.loadTracing context.address)
  | _ => pure false

/-- `log_enabled!(Level::DebugInternal)`. -/
def debugInternalEnabled (build : Build) : Code Bool :=
  if build.debugAssertions then
    if build.internal then pure true else currentlyTracing
  else pure false

def reset (build : Build) (label : String) : Code Unit := do
  let enabled ← debugInternalEnabled build
  let context ← newTask none label .debugInternal enabled
  setCurrent context

def fromParent (context : Context) : Code Context := do
  let isTracing ← ask (.loadTracing context.address)
  let contextId ← ask .fetchAddContextId
  let address ← ask (.arcNew isTracing)
  pure (.new address (some context) contextId none)

/-- `_log_prelude`. -/
def logPrelude (context : Context) : Code (List String) := do
  let isTracing ← ask (.loadTracing context.address)
  let task ← task context
  pure ((if isTracing then "T" else " ") ::
    (List.replicate context.nestingLevel " " ++ [toString task.taskId.toNat ++ " "]))

/-- The `*_sync!` macros: the record opens with the current context's prelude. -/
def logSync (level : Level) (text : String) : Code Unit := do
  let context ← current
  let prelude ← logPrelude context
  ask (.finishLogRecord { level := level, prelude := prelude, text := text })

def beginTrace (build : Build) : Code Unit := do
  let context ← current
  ask (.storeTracing context.address)
  if build.debugAssertions then
    if ← currentlyTracing then logSync .trace "Begin trace"

def rootMessage (id : UInt64) : String :=
  "Tried to pop context with ID " ++ toString id.toNat ++
    ", but it is a root context with no parent; leaving the current context unchanged."

def notFoundMessage (id : UInt64) : String :=
  "Tried to pop context with ID " ++ toString id.toNat ++
    ", but it was not found in the current context chain."

/-- The loop of `pop`. -/
def popFrom (id : UInt64) : Context → Code Unit
  | .root _ contextId _ =>
    if contextId = id then logSync .warning (rootMessage id)
    else logSync .warning (notFoundMessage id)
  | .child parent _ contextId _ =>
    if contextId = id then setCurrent parent else popFrom id parent

def pop (id : UInt64) : Code Unit := do
  let context ← current
  popFrom id context

/-- The record of a task's statistics, with the text between the brackets. -/
def Task.statisticsMessage (task : Task) (statistics : String) : Message :=
  { level := .perfWarn, prelude := [toString task.taskId.toNat ++ " "]
    text := "PERFWARN: statistics[" ++ statistics ++ "]" }

def Task.completionMessage (task : Task) : Message :=
  { level := task.completionLevel, prelude := [toString task.taskId.toNat ++ " "]
    text := "Finished task \x60" ++ task.label ++ "\x60" }

/-- What `Task::drop` logs, where the mutex is not poisoned; `statistics` is none where no sum is
logged. It asks for no context and opens its records with the task's own number. -/
def Task.messages (task : Task) (statistics : Option String) : List Message :=
  (statistics.map task.statisticsMessage).toList ++
    (if task.shouldLogCompletion then [task.completionMessage] else [])

def finishAll : List Message → Code Unit
  | [] => pure ()
  | message :: messages => do
    ask (.finishLogRecord message)
    finishAll messages

/-! ## The machine -/

structure Memory where
  /-- `CONTEXT_ID`. -/
  contextId : UInt64
  /-- `TASK_ID`. -/
  taskId : UInt64
  /-- The `is_tracing` of each allocation. -/
  tracing : List Bool
  detached : Detached
  records : List Message
  /-- The contexts that calls have returned; not a cell of the source. -/
  returned : List Context
  /-- How many context ids have been drawn; not a cell of the source. -/
  drawn : ℕ
  deriving DecidableEq

def Memory.new : Memory :=
  { contextId := 0, taskId := 0, tracing := [], detached := .empty, records := [], returned := []
    drawn := 0 }

def serve : (request : Request) → Memory → Option (request.Answer × Memory)
  | .fetchAddContextId, memory =>
    some (memory.contextId,
      { memory with contextId := memory.contextId + 1, drawn := memory.drawn + 1 })
  | .fetchAddTaskId, memory => some (memory.taskId, { memory with taskId := memory.taskId + 1 })
  | .arcNew isTracing, memory =>
    some (memory.tracing.length, { memory with tracing := memory.tracing ++ [isTracing] })
  | .loadTracing address, memory => some (memory.tracing.getD address false, memory)
  | .storeTracing address, memory =>
    some ((), { memory with tracing := memory.tracing.set address true })
  | .enterDetached, memory =>
    match memory.detached with
    | .set context => some (some context, memory)
    | .empty => some (none, { memory with detached := .busy })
    | .busy => none
  | .leaveDetached context, memory => some ((), { memory with detached := .set context })
  | .finishLogRecord message, memory =>
    some ((), { memory with records := memory.records ++ [message] })
  | .returns context, memory =>
    some ((), { memory with returned := memory.returned ++ [context] })

inductive Call where
  | newTask (parent : Option Context) (label : String) (completionLevel : Level)
    (shouldLogCompletion : Bool)
  | fromParent (context : Context)
  | reset (label : String)
  | current
  | setCurrent (context : Context)
  | pop (id : UInt64)
  | beginTrace
  /-- `Task::drop`, where the last context goes that leads to the task: in `set_current`, `reset` or
  `pop`, at the end of a scope, in the end of a thread. Which contexts are gone is not followed: any
  task's destructor may run at any time. It uses nothing of its thread, so that one in the midst of
  another call is a call of another thread here. -/
  | dropTask (task : Task) (statistics : Option String)
  /-- The thread's locals are destroyed. -/
  | exitThread

def Call.code (build : Build) : Call → Code Unit
  | .newTask parent label completionLevel shouldLogCompletion => do
    let context ← ContextImpl.newTask parent label completionLevel shouldLogCompletion
    ask (.returns context)
  | .fromParent context => do
    let context ← ContextImpl.fromParent context
    ask (.returns context)
  | .reset label => ContextImpl.reset build label
  | .current => do
    let context ← ContextImpl.current
    ask (.returns context)
  | .setCurrent context => ContextImpl.setCurrent context
  | .pop id => ContextImpl.pop id
  | .beginTrace => ContextImpl.beginTrace build
  | .dropTask task statistics => finishAll (task.messages statistics)
  | .exitThread => write .destroyed

/-- The contexts a call is given. -/
def Call.given : Call → List Context
  | .newTask (some parent) _ _ _ => [parent]
  | .fromParent context => [context]
  | .setCurrent context => [context]
  | _ => []

def machine (build : Build) : Shared.Machine Cell Memory Call Request.Answer :=
  { start := .uninit
    code := Call.code build
    admits := fun memory call => call.given.all fun context => context ∈ memory.returned
    serve := serve }

abbrev World := Shared.World Cell Memory Request.Answer

def initial : World := { memory := .new, threads := [] }

abbrev step (build : Build) : World → Shared.Action Call → Option World := (machine build).step

def Cell.context : Cell → Option Context
  | .current context => some context
  | _ => none

def Detached.context : Detached → Option Context
  | .set context => some context
  | _ => none

/-- Every context a thread can get at: those that calls have returned, the current ones and the
detached one. -/
def forest (w : World) : List Context :=
  w.memory.returned ++ w.threads.filterMap (fun thread => thread.locals.context) ++
    w.memory.detached.context.toList

end Logwise.Legacy.ContextImpl
