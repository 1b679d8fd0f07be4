import Logwise.Legacy.Statistics
import Logwise.Library.Counted
import Logwise.Library.Transition

/-!
# The lifetime of a task

A `Context` is a reference to a counted allocation that owns one to its parent
(`context/context_impl.rs`); an interval holds the context it began in (`interval.rs`). The last
reference to go frees the allocation: its parent is given up first, then the task it defines is
dropped, and reports (`context/task.rs`). All of it can happen on any thread, a step at a time, and a
logger that is handed a report may do any of it as well.
-/

namespace Logwise.Legacy.Lifetime

open Counted (Heap)

/-- The fields of `ContextInner` beside `parent`. -/
structure ContextInner where
  contextId : UInt64
  defineTask : Option Task
  isTracing : Bool

/-- A search of `Context::task`: the allocation that defines the task. An address bounds the number
of its ancestors. -/
def findTask (heap : Heap ContextInner) : ℕ → ℕ → Option ℕ
  | 0, _ => none
  | fuel + 1, a =>
    (heap.value? a).bind fun inner =>
      if inner.defineTask.isSome then some a else (heap.parent? a).bind (findTask heap fuel)

/-- `Context::task`. -/
def taskOf (heap : Heap ContextInner) (a : ℕ) : Option ℕ := findTask heap (a + 1) a

def task? (heap : Heap ContextInner) (a : ℕ) : Option Task :=
  (heap.value? a).bind ContextInner.defineTask

/-- The context as it is read for a prelude. -/
def readContext (heap : Heap ContextInner) : ℕ → ℕ → Option Context
  | 0, _ => none
  | fuel + 1, a =>
    (heap.value? a).bind fun inner =>
      match heap.parent? a with
      | none => inner.defineTask.map fun task =>
          .root inner.contextId.toNat inner.isTracing task.taskId
      | some parent => (readContext heap fuel parent).map fun parent =>
          .child parent inner.contextId.toNat inner.isTracing (inner.defineTask.map Task.taskId)

/-- A `PerfwarnInterval`, or a `PerfwarnIntervalIf` with its threshold and its record. -/
inductive Interval where
  | always (label : String) (start : ℕ) (scale : ℕ → Option ℕ)
  | conditional (label : String) (start threshold : ℕ) (record : LogRecord)

namespace Interval

/-- What the destructor tells the task. -/
def call (endTime : ℕ) : Interval → Recording
  | .always label start _ => .interval label (Duration.ofNanos (endTime - start))
  | .conditional label start threshold _ =>
    .intervalIf label (Duration.ofNanos (endTime - start)) (Duration.ofNanos threshold)

/-- What it hands to the loggers. -/
def dropOn (context : Context) (task : Task) (endTime initial : ℕ) (loggers : List LogPrivacy) :
    Interval → Option (List LogRecord)
  | .always label start scale =>
    (PerfwarnInterval.drop { label := label, start := start, scale := scale, context := context }
      task endTime initial loggers).2
  | .conditional label start threshold record =>
    (PerfwarnIntervalIf.dropOn
      { label := label, start := start, threshold := threshold, record := record
        context := context }
      task endTime initial loggers).2

end Interval

/-- How far the destructor of an interval has come. -/
inductive Phase where
  | running
  /-- The task has been told; it was `before` until then. -/
  | recorded (endTime : ℕ) (before : Task)
  /-- The loggers have been told as well, and the context has been given up. -/
  | closed (endTime : ℕ)

structure Running where
  interval : Interval
  context : ℕ
  phase : Phase

/-- What is left to do of the destructors a thread is in. -/
inductive Work where
  /-- A `Context` is dropped. -/
  | release (a : ℕ)
  /-- The task that is defined there is dropped. -/
  | dropTask (a : ℕ)
  deriving DecidableEq

inductive Event where
  | recorded (a : ℕ) (call : Recording)
  | ended (k : ℕ) (records : Option (List LogRecord))
  | reported (a : ℕ) (records : Option (List LogRecord))

structure State where
  heap : Heap ContextInner
  /-- `CONTEXT_ID`. -/
  contextId : UInt64
  /-- `TASK_ID`. -/
  taskId : UInt64
  /-- The variables that hold a context, a thread's current one among them. -/
  owners : List (Option ℕ)
  intervals : List Running
  threads : List (List Work)
  /-- Not a cell of the source. -/
  events : List Event

def init : State :=
  { heap := [], contextId := 0, taskId := 0, owners := [], intervals := [], threads := []
    events := [] }

inductive Action where
  | spawn
  /-- `new_task`, given the context in `parent`, if any. -/
  | newTask (parent : Option ℕ) (label : String) (completionLevel : Level)
    (shouldLogCompletion : Bool)
  /-- `from_parent`, given the context in `owner`. -/
  | fromParent (owner : ℕ)
  | clone (owner : ℕ)
  /-- `begin_trace`, with this current context. -/
  | beginTrace (owner : ℕ)
  /-- An interval begins, with this current context. -/
  | begin (owner : ℕ) (interval : Interval)
  /-- An interval is dropped: first its task is told. -/
  | record (k endTime : ℕ)
  /-- Then the loggers are, and the context goes. -/
  | close (i k initial : ℕ) (loggers : List LogPrivacy)
  /-- A variable goes. -/
  | drop (i owner : ℕ)
  /-- The next step of a destructor. The statistics of a task are walked in some order. -/
  | work (i : ℕ) (order : List Statistic) (loggers : List LogPrivacy)

namespace State

/-- The context in a variable. -/
def held (s : State) (owner : ℕ) : Option ℕ := (s.owners[owner]?).bind id

def give (s : State) (owner : ℕ) : State := { s with owners := s.owners.set owner none }

/-- `Arc::new`, into a new variable. -/
def alloc (s : State) (parent : Option ℕ) (inner : ContextInner) : State :=
  { s with
    heap := s.heap.alloc parent inner
    contextId := s.contextId + 1
    owners := s.owners ++ [some s.heap.length] }

def newTask (s : State) (parent : Option ℕ) (label : String) (completionLevel : Level)
    (shouldLogCompletion : Bool) : State :=
  { s.alloc parent
      { contextId := s.contextId
        defineTask := some (Task.new s.taskId.toNat label completionLevel shouldLogCompletion)
        isTracing := false } with
    taskId := s.taskId + 1 }

/-- What a thread has to do next. -/
def push (s : State) (i : ℕ) (work : List Work) (rest : List Work) : State :=
  { s with threads := s.threads.set i (work ++ rest) }

/-- The last reference takes the allocation's own with it, and its task. -/
def released (heap : Heap ContextInner) (a : ℕ) : List Work :=
  if (heap[a]?.map Counted.Node.strong) = some 1 then
    (heap.parent? a).toList.map .release ++ ((task? heap a).map fun _ => Work.dropTask a).toList
  else []

def setTracing (heap : Heap ContextInner) (a : ℕ) : Heap ContextInner :=
  heap.update a fun inner => { inner with isTracing := true }

def setTask (heap : Heap ContextInner) (a : ℕ) (task : Task) : Heap ContextInner :=
  heap.update a fun inner => { inner with defineTask := some task }

end State

def step (s : State) : Action → Option State
  | .spawn => some { s with threads := s.threads ++ [[]] }
  | .newTask none label completionLevel shouldLogCompletion =>
    some (s.newTask none label completionLevel shouldLogCompletion)
  | .newTask (some owner) label completionLevel shouldLogCompletion =>
    (s.held owner).map fun parent =>
      (s.give owner).newTask (some parent) label completionLevel shouldLogCompletion
  | .fromParent owner =>
    (s.held owner).bind fun parent =>
      (s.heap.value? parent).map fun inner =>
        (s.give owner).alloc (some parent)
          { contextId := s.contextId, defineTask := none, isTracing := inner.isTracing }
  | .clone owner =>
    (s.held owner).map fun a =>
      { s with heap := s.heap.retain a, owners := s.owners ++ [some a] }
  | .beginTrace owner =>
    (s.held owner).map fun a =>
      { s with heap := State.setTracing s.heap a }
  | .begin owner interval =>
    (s.held owner).map fun a =>
      { s with
        heap := s.heap.retain a
        intervals := s.intervals ++ [{ interval := interval, context := a, phase := .running }] }
  | .record k endTime =>
    s.intervals[k]?.bind fun running =>
      match running.phase with
      | .running =>
        (taskOf s.heap running.context).bind fun a =>
          (task? s.heap a).map fun task =>
            let call := running.interval.call endTime
            { s with
              heap := State.setTask s.heap a (task.record call).task
              intervals := s.intervals.set k { running with phase := .recorded endTime task }
              events := s.events ++ [.recorded a call] }
      | _ => none
  | .close i k initial loggers =>
    s.intervals[k]?.bind fun running =>
      match running.phase with
      | .recorded endTime before =>
        (readContext s.heap (running.context + 1) running.context).bind fun context =>
          s.threads[i]?.map fun rest =>
            { s.push i [.release running.context] rest with
              intervals := s.intervals.set k { running with phase := .closed endTime }
              events := s.events ++
                [.ended k (running.interval.dropOn context before endTime initial loggers)] }
      | _ => none
  | .drop i owner =>
    (s.held owner).bind fun a =>
      s.threads[i]?.map fun rest => (s.give owner).push i [.release a] rest
  | .work i order loggers =>
    s.threads[i]?.bind fun stack =>
      match stack with
      | [] => none
      | .release a :: rest =>
        some { s.push i (State.released s.heap a) rest with heap := s.heap.release a }
      | .dropTask a :: rest =>
        (task? s.heap a).bind fun task =>
          if (order : Multiset Statistic) = task.mutable.intervalStatistics.entries then
            some { s.push i [] rest with events := s.events ++ [.reported a (task.drop order loggers)] }
          else none

end Logwise.Legacy.Lifetime
