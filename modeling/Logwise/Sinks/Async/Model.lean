import Logwise.Sinks.InMemory

/-!
# The queued asynchronous sink

`AsyncSink`, its worker, its flush barriers and the drop of its last handle, as one machine.
Each step is one atomic access of a shared cell, one acquisition or release of a mutex, or a
wait that releases its mutex and parks. Who holds the queue mutex, and how far it has got, is
the value of `queueSection`, so that no two calls are inside at once. A section that nobody can
look into is one step; what others notice of it is that their `try_lock` fails.
-/

namespace Logwise

inductive ErrorKind where
  | brokenPipe
  | other (name : String)
  deriving DecidableEq, Repr

structure FlushError where
  kind : ErrorKind
  message : String
  deriving DecidableEq, Repr

structure QueuedEvent where
  sequence : ℕ
  event : OwnedProjectedEvent
  deriving DecidableEq

namespace AsyncSink

/-- The fields of `AsyncShared` that never change. -/
structure Config where
  capacity : ℕ
  maxStringBytes : ℕ
  overflow : OverflowPolicy

/-- How far a call of `emit` has got; `inside` means that it holds the queue. -/
inductive EmitPc where
  | start (event : ProjectedEvent)
  | tryLock (owned : OwnedProjectedEvent)
  | inside
  | notify
  | done
  deriving DecidableEq

/-- The holder of the queue mutex, and its next step. -/
inductive QueueSection where
  | free
  | emitTest (i : ℕ) (owned : OwnedProjectedEvent)
  | emitLoadRequested (i : ℕ) (owned : OwnedProjectedEvent)
  | emitLoadFlushed (i : ℕ) (owned : OwnedProjectedEvent) (requested : ℕ)
  | emitSequence (i : ℕ) (owned : OwnedProjectedEvent)
  | emitPush (i : ℕ) (owned : OwnedProjectedEvent) (sequence : ℕ)
  | workerPop
  | workerLoadRequested
  | workerLoadFlushed (requested : ℕ)
  | workerTest (requested flushed : ℕ)
  deriving DecidableEq

/-- Who asked a barrier for its result: a blocked waiter, or a poll before or after it has
registered its waker. -/
inductive Use where
  | waiting
  | polling (waker : ℕ) (registered : Bool)
  deriving DecidableEq

/-- A call of `flush` and the barrier it returns. -/
inductive FlushPc where
  | lockQueue
  | publish
  | notify
  | held
  | lockProgress
  | loadFlushed (use : Use)
  | loadStopped (use : Use)
  | lockFlushError (use : Use)
  | lockWriteError (use : Use) (flushError : Option FlushError)
  | park
  | parked
  | register (waker : ℕ)
  | resolved (result : Except FlushError Unit)
  deriving DecidableEq

structure FlushCall where
  pc : FlushPc
  target : ℕ
  /-- The sequences queued when the target was read. -/
  captured : List ℕ

/-- What follows `notify_progress`. -/
inductive AfterNotify where
  | checkStop (processed : ℕ)
  | terminated
  deriving DecidableEq

inductive WorkerPc where
  | lock
  | inside
  | parked
  | write (queued : QueuedEvent)
  | recordWriteError (sequence : ℕ) (error : FlushError)
  | storeProcessed (sequence : ℕ)
  | loadProcessed
  | loadRequested (processed : ℕ)
  | loadFlushed (processed requested : ℕ)
  | flush (processed : ℕ)
  | clearFlushError (processed : ℕ)
  | setFlushError (processed : ℕ) (error : FlushError)
  | storeFlushed (processed : ℕ)
  | notifyProgress (next : AfterNotify)
  | takeWakers (next : AfterNotify)
  | wake (wakers : List ℕ) (next : AfterNotify)
  | checkStop (processed : ℕ)
  | loadFinal (processed : ℕ)
  | finalFlush (processed : ℕ)
  | storeFinal (processed : ℕ)
  | storeStopped
  | terminated
  deriving DecidableEq

/-- `AsyncInner::drop`, once the last handle is gone. -/
inductive DropPc where
  | alive
  | lockQueue
  | loadNext
  | storeRequested (next : ℕ)
  | notify
  | join
  | done
  deriving DecidableEq

inductive Outcome where
  | ok
  | err (error : FlushError)
  | panic
  deriving DecidableEq

/-- A call of the writer that returned; `true` is `Ok`. -/
inductive WriterCall where
  | write (sequence : ℕ) (ok : Bool)
  | flush (ok : Bool)
  deriving DecidableEq

/-- The cells of `AsyncShared` that the order of records, the flush protocol and the worker's
own progress depend on. -/
structure Core where
  queueSection : QueueSection
  events : List QueuedEvent
  shutdown : Bool
  nextSequence : ℕ
  processedSequence : ℕ
  requestedFlush : ℕ
  flushedSequence : ℕ
  stopped : Bool
  lastFlushError : Option (ℕ × FlushError)
  lastWriteError : Option (ℕ × FlushError)
  worker : WorkerPc
  drop : DropPc
  /-- The writer's calls, newest first. -/
  log : List WriterCall

structure State extends Core where
  /-- The waiter that holds `progress_lock`. -/
  progressOwner : Option ℕ
  wakers : List ℕ
  woken : List ℕ
  stats : SinkStats
  emits : List EmitPc
  flushes : List FlushCall

def initial : State :=
  { queueSection := .free, events := [], shutdown := false, nextSequence := 0
    processedSequence := 0, requestedFlush := 0, flushedSequence := 0, stopped := false
    progressOwner := none, wakers := [], lastFlushError := none, lastWriteError := none
    stats := {}, emits := [], flushes := [], worker := .lock, drop := .alive, log := []
    woken := [] }

inductive Action where
  | callEmit (event : ProjectedEvent)
  | stepEmit (i : ℕ)
  /-- Its `try_lock` meets a section that is one step, which is yet to be made. -/
  | refuseEmit (i : ℕ)
  | callFlush
  | stepFlush (f : ℕ)
  | wait (f : ℕ)
  | poll (f waker : ℕ)
  | dropHandles
  | stepDrop
  /-- The next step of whoever holds the queue. -/
  | stepQueue
  | work
  | writer (outcome : Outcome)
  | spuriousWork
  | spuriousProgress (f : ℕ)
  deriving DecidableEq

/-- `work.notify_one()`, on which only the worker waits. -/
def wakeWorker : WorkerPc → WorkerPc
  | .parked => .lock
  | pc => pc

/-- `progress.notify_all()`. -/
def wakeWaiter (call : FlushCall) : FlushCall :=
  match call.pc with
  | .parked => { call with pc := .lockProgress }
  | _ => call

def emitStep (config : Config) (i : ℕ) (s : State) : EmitPc → Option State
  | .start event =>
    if config.capacity = 0 ∨ s.stopped then
      some { s with emits := s.emits.set i .done, stats := s.stats.countDropped }
    else
      let owned := OwnedProjectedEvent.copyFrom event config.maxStringBytes
      some { s with
        emits := s.emits.set i (.tryLock owned)
        stats := s.stats.countTruncated owned.truncatedFields }
  | .tryLock owned =>
    if s.queueSection = .free then
      some { s with queueSection := .emitTest i owned, emits := s.emits.set i .inside }
    else some { s with emits := s.emits.set i .done, stats := s.stats.countDropped }
  | .inside => none
  | .notify => some { s with emits := s.emits.set i .done, worker := wakeWorker s.worker }
  | .done => none

/-- The steps made while the queue is held. -/
def queueStep (config : Config) (s : State) : QueueSection → Option State
  | .free => none
  | .emitTest i owned =>
    if s.events.length = config.capacity then
      match config.overflow with
      | .dropNewest =>
        some { s with
          queueSection := .free, emits := s.emits.set i .done, stats := s.stats.countDropped }
      | .overwriteOldest => some { s with queueSection := .emitLoadRequested i owned }
    else some { s with queueSection := .emitSequence i owned }
  | .emitLoadRequested i owned =>
    some { s with queueSection := .emitLoadFlushed i owned s.requestedFlush }
  | .emitLoadFlushed i owned requested =>
    -- once a barrier exists, prior accepted records may no longer be overwritten
    if s.flushedSequence < requested ∧ s.events.head?.any fun front => front.sequence ≤ requested then
      some { s with
        queueSection := .free, emits := s.emits.set i .done, stats := s.stats.countDropped }
    else
      some { s with
        queueSection := .emitSequence i owned
        events := s.events.tail
        stats := s.stats.countOverwritten }
  | .emitSequence i owned =>
    some { s with
      queueSection := .emitPush i owned (s.nextSequence + 1), nextSequence := s.nextSequence + 1 }
  | .emitPush i owned sequence =>
    some { s with
      queueSection := .free
      events := s.events ++ [{ sequence := sequence, event := owned }]
      emits := s.emits.set i .notify
      stats := s.stats.countAccepted }
  | .workerPop =>
    match s.events with
    | queued :: events =>
      some { s with queueSection := .free, events := events, worker := .write queued }
    | [] => some { s with queueSection := .workerLoadRequested }
  | .workerLoadRequested => some { s with queueSection := .workerLoadFlushed s.requestedFlush }
  | .workerLoadFlushed requested =>
    some { s with queueSection := .workerTest requested s.flushedSequence }
  | .workerTest requested flushed =>
    if flushed < requested ∨ s.shutdown then
      some { s with queueSection := .free, worker := .loadProcessed }
    else some { s with queueSection := .free, worker := .parked }

/-- What a barrier does with the answer of `result`. -/
def conclude (result : Option (Except FlushError Unit)) : Use → FlushPc
  | .waiting =>
    match result with
    | some result => .resolved result
    | none => .park
  | .polling waker registered =>
    match result with
    | some result => .resolved result
    | none => if registered then .held else .register waker

/-- A waiter that has its answer gives `progress_lock` back. -/
def releaseProgress (result : Option (Except FlushError Unit)) (use : Use) (owner : Option ℕ) :
    Option ℕ :=
  if use = .waiting ∧ result.isSome then none else owner

def workerStoppedError : FlushError :=
  { kind := .brokenPipe, message := "logwise sink worker stopped before the barrier" }

/-- `last_flush_error`, as far as it concerns a barrier. -/
def flushErrorFor (target : ℕ) (last : Option (ℕ × FlushError)) : Option FlushError :=
  (last.filter fun entry => target ≤ entry.1).map Prod.snd

/-- `last_write_error`, as far as it concerns a barrier. -/
def writeErrorFor (target : ℕ) (last : Option (ℕ × FlushError)) : Option FlushError :=
  (last.filter fun entry => entry.1 ≤ target).map Prod.snd

def toResult : Option FlushError → Except FlushError Unit
  | some error => .error error
  | none => .ok ()

/-- Store a call's new program counter. -/
def setFlush (f : ℕ) (call : FlushCall) (pc : FlushPc) (s : State) : State :=
  { s with flushes := s.flushes.set f { call with pc := pc } }

def flushStep (f : ℕ) (call : FlushCall) (s : State) : Option State :=
  match call.pc with
  | .lockQueue =>
    if s.queueSection = .free then
      some { s with
        flushes := s.flushes.set f
          { pc := .publish
            target := s.nextSequence
            captured := s.events.map QueuedEvent.sequence } }
    else none
  | .publish =>
    some (setFlush f call .notify { s with requestedFlush := max s.requestedFlush call.target })
  | .notify => some (setFlush f call .held { s with worker := wakeWorker s.worker })
  | .held => none
  | .lockProgress =>
    if s.progressOwner = none then
      some (setFlush f call (.loadFlushed .waiting) { s with progressOwner := some f })
    else none
  | .loadFlushed use =>
    if s.flushedSequence < call.target then some (setFlush f call (.loadStopped use) s)
    else some (setFlush f call (.lockFlushError use) s)
  | .loadStopped use =>
    let result := if s.stopped then some (.error workerStoppedError) else none
    some (setFlush f call (conclude result use)
      { s with progressOwner := releaseProgress result use s.progressOwner })
  | .lockFlushError use =>
    some (setFlush f call (.lockWriteError use (flushErrorFor call.target s.lastFlushError)) s)
  | .lockWriteError use flushError =>
    let result := some (toResult (flushError.or (writeErrorFor call.target s.lastWriteError)))
    some (setFlush f call (conclude result use)
      { s with progressOwner := releaseProgress result use s.progressOwner })
  | .park => some (setFlush f call .parked { s with progressOwner := none })
  | .parked => none
  | .register waker =>
    some (setFlush f call (.loadFlushed (.polling waker true))
      { s with wakers := if waker ∈ s.wakers then s.wakers else s.wakers ++ [waker] })
  | .resolved _ => none

def afterNotify : AfterNotify → WorkerPc
  | .checkStop processed => .checkStop processed
  | .terminated => .terminated

/-- The worker's steps outside the queue, other than calls of the writer. -/
def workerStep (s : State) : WorkerPc → Option State
  | .lock =>
    if s.queueSection = .free then some { s with queueSection := .workerPop, worker := .inside }
    else none
  | .inside => none
  | .parked => none
  | .write _ => none
  | .recordWriteError sequence error =>
    some { s with
      worker := .storeProcessed sequence
      lastWriteError := s.lastWriteError.or (some (sequence, error)) }
  | .storeProcessed sequence =>
    some { s with worker := .loadProcessed, processedSequence := sequence }
  | .loadProcessed => some { s with worker := .loadRequested s.processedSequence }
  | .loadRequested processed =>
    if s.requestedFlush ≤ processed then
      some { s with worker := .loadFlushed processed s.requestedFlush }
    else some { s with worker := .checkStop processed }
  | .loadFlushed processed requested =>
    if s.flushedSequence < requested then some { s with worker := .flush processed }
    else some { s with worker := .checkStop processed }
  | .flush _ => none
  | .clearFlushError processed =>
    some { s with worker := .storeFlushed processed, lastFlushError := none }
  | .setFlushError processed error =>
    some { s with worker := .storeFlushed processed, lastFlushError := some (processed, error) }
  | .storeFlushed processed =>
    some { s with
      worker := .notifyProgress (.checkStop processed), flushedSequence := processed }
  | .notifyProgress next =>
    if s.progressOwner = none then
      some { s with worker := .takeWakers next, flushes := s.flushes.map wakeWaiter }
    else none
  | .takeWakers next => some { s with worker := .wake s.wakers next, wakers := [] }
  | .wake wakers next => some { s with worker := afterNotify next, woken := s.woken ++ wakers }
  | .checkStop processed =>
    if s.queueSection = .free then
      if s.shutdown ∧ s.events = [] then some { s with worker := .loadFinal processed }
      else some { s with worker := .lock }
    else none
  | .loadFinal processed =>
    if s.flushedSequence < processed then some { s with worker := .finalFlush processed }
    else some { s with worker := .storeStopped }
  | .finalFlush _ => none
  | .storeFinal processed => some { s with worker := .storeStopped, flushedSequence := processed }
  | .storeStopped => some { s with worker := .notifyProgress .terminated, stopped := true }
  | .terminated => none

/-- A call of the writer returns, or unwinds into the spawn wrapper. -/
def writerStep (s : State) (outcome : Outcome) : WorkerPc → Option State
  | .write queued =>
    match outcome with
    | .ok =>
      some { s with
        worker := .storeProcessed queued.sequence, log := .write queued.sequence true :: s.log }
    | .err error =>
      some { s with
        worker := .recordWriteError queued.sequence error
        log := .write queued.sequence false :: s.log
        stats := s.stats.countWriteError }
    | .panic => some { s with worker := .storeStopped, stats := s.stats.countWriteError }
  | .flush processed =>
    match outcome with
    | .ok => some { s with worker := .clearFlushError processed, log := .flush true :: s.log }
    | .err error =>
      some { s with
        worker := .setFlushError processed error
        log := .flush false :: s.log
        stats := s.stats.countWriteError }
    | .panic => some { s with worker := .storeStopped, stats := s.stats.countWriteError }
  | .finalFlush processed =>
    match outcome with
    | .ok => some { s with worker := .storeFinal processed, log := .flush true :: s.log }
    -- the error is discarded
    | .err _ => some { s with worker := .storeFinal processed, log := .flush false :: s.log }
    | .panic => some { s with worker := .storeStopped, stats := s.stats.countWriteError }
  | _ => none

def dropStep (s : State) : DropPc → Option State
  | .alive => none
  | .lockQueue =>
    if s.queueSection = .free then some { s with drop := .loadNext, shutdown := true } else none
  | .loadNext => some { s with drop := .storeRequested s.nextSequence }
  | .storeRequested next => some { s with drop := .notify, requestedFlush := next }
  | .notify => some { s with drop := .join, worker := wakeWorker s.worker }
  | .join => if s.worker = .terminated then some { s with drop := .done } else none
  | .done => none

/-- A call of `flush` that has not returned its barrier yet. -/
def FlushPc.inCall : FlushPc → Bool
  | .lockQueue | .publish | .notify => true
  | _ => false

/-- Someone is about to hold the queue for one step. -/
def brieflyLocked (s : State) : Bool :=
  s.flushes.any (fun call => call.pc = .lockQueue) || decide (s.drop = .lockQueue) ||
    match s.worker with
    | .checkStop _ => true
    | _ => false

/-- `try_lock` fails while someone else has the queue for one step. -/
def refuseStep (i : ℕ) (s : State) : EmitPc → Option State
  | .tryLock _ =>
    if s.queueSection = .free ∧ brieflyLocked s then
      some { s with emits := s.emits.set i .done, stats := s.stats.countDropped }
    else none
  | _ => none

/-- No call of `emit` or `flush` is in progress. -/
def quiet (s : State) : Bool :=
  s.emits.all (fun pc => pc = .done) && s.flushes.all fun call => !call.pc.inCall

def step (config : Config) (s : State) : Action → Option State
  | .callEmit event =>
    if s.drop = .alive then some { s with emits := s.emits ++ [.start event] } else none
  | .stepEmit i => s.emits[i]?.bind fun pc => emitStep config i s pc
  | .refuseEmit i => s.emits[i]?.bind fun pc => refuseStep i s pc
  | .callFlush =>
    if s.drop = .alive then
      some { s with flushes := s.flushes ++ [{ pc := .lockQueue, target := 0, captured := [] }] }
    else none
  | .stepFlush f => s.flushes[f]?.bind fun call => flushStep f call s
  | .wait f =>
    s.flushes[f]?.bind fun call =>
      match call.pc with
      | .held => some (setFlush f call .lockProgress s)
      | _ => none
  | .poll f waker =>
    s.flushes[f]?.bind fun call =>
      match call.pc with
      | .held => some (setFlush f call (.loadFlushed (.polling waker false)) s)
      | _ => none
  | .dropHandles => if s.drop = .alive ∧ quiet s then some { s with drop := .lockQueue } else none
  | .stepDrop => dropStep s s.drop
  | .stepQueue => queueStep config s s.queueSection
  | .work => workerStep s s.worker
  | .writer outcome => writerStep s outcome s.worker
  | .spuriousWork => if s.worker = .parked then some { s with worker := .lock } else none
  | .spuriousProgress f =>
    s.flushes[f]?.bind fun call =>
      match call.pc with
      | .parked => some (setFlush f call .lockProgress s)
      | _ => none

def oneSlot : Config :=
  { capacity := 1, maxStringBytes := 64, overflow := .dropNewest }

end AsyncSink

end Logwise
