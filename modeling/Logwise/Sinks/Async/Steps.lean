import Logwise.Sinks.Async.Model

/-!
# What the steps of the asynchronous sink can do

One inversion lemma for the calls of `emit` outside the queue, one for a flush and its barrier;
the other steps are read off their definitions.
-/

namespace Logwise.AsyncSink

variable {config : Config} {s s' : State}

/-- The sequence of the record the worker has taken and not accounted for yet, else the last
one it has. -/
def Core.handled (c : Core) : ℕ :=
  match c.worker with
  | .write queued => queued.sequence
  | .recordWriteError sequence _ => sequence
  | .storeProcessed sequence => sequence
  | _ => c.processedSequence

/-- The bound on what has been written: a record counts once its call has returned. -/
def Core.written (c : Core) : ℕ :=
  match c.worker with
  | .recordWriteError sequence _ => sequence
  | .storeProcessed sequence => sequence
  | _ => c.processedSequence

def AfterNotify.carried : AfterNotify → Option ℕ
  | .checkStop processed => some processed
  | .terminated => none

/-- The value of `processed_sequence` a step of the worker goes on with. -/
def WorkerPc.carried : WorkerPc → Option ℕ
  | .loadRequested processed | .loadFlushed processed _ | .flush processed
  | .clearFlushError processed | .setFlushError processed _ | .storeFlushed processed
  | .checkStop processed | .loadFinal processed | .finalFlush processed
  | .storeFinal processed => some processed
  | .notifyProgress next | .takeWakers next | .wake _ next => next.carried
  | _ => none

/-- The sequence of the record in the worker's hands. -/
def WorkerPc.record : WorkerPc → Option ℕ
  | .write queued => some queued.sequence
  | .recordWriteError sequence _ => some sequence
  | .storeProcessed sequence => some sequence
  | _ => none

/-- On the shutdown path. -/
def WorkerPc.stopping : WorkerPc → Bool
  | .loadFinal _ | .finalFlush _ | .storeFinal _ => true
  | _ => false

/-- The call of `emit` that holds the queue. -/
def QueueSection.emitter : QueueSection → Option ℕ
  | .emitTest i _ | .emitLoadRequested i _ | .emitLoadFlushed i _ _ | .emitSequence i _
  | .emitPush i _ _ => some i
  | _ => none

def QueueSection.ofWorker : QueueSection → Bool
  | .workerPop | .workerLoadRequested | .workerLoadFlushed _ | .workerTest _ _ => true
  | _ => false

theorem wakeWorker_eq (pc : WorkerPc) :
    wakeWorker pc = pc ∨ (pc = .parked ∧ wakeWorker pc = .lock) := by
  cases pc <;> simp [wakeWorker]

theorem wakeWorker_ne_parked (pc : WorkerPc) : wakeWorker pc ≠ .parked := by
  cases pc <;> simp [wakeWorker]

/-- What a barrier may conclude: it is answered, parks, registers its waker or stays. -/
theorem conclude_cases (result : Option (Except FlushError Unit)) (use : Use) :
    (∃ r, result = some r ∧ conclude result use = .resolved r) ∨
      (result = none ∧ (conclude result use = .park ∨ conclude result use = .held ∨
        ∃ waker, conclude result use = .register waker)) := by
  cases result with
  | none =>
    refine Or.inr ⟨rfl, ?_⟩
    cases use with
    | waiting => exact Or.inl rfl
    | polling waker registered =>
      cases registered
      · exact Or.inr (Or.inr ⟨waker, rfl⟩)
      · exact Or.inr (Or.inl rfl)
  | some r => cases use <;> exact Or.inl ⟨r, rfl, rfl⟩

/-- How a barrier comes to its next step. Only a flushed sequence at or past the target leads to
the errors, and only two absent errors to `Ok`. -/
inductive BarrierStep (s : State) (call : FlushCall) : FlushPc → Prop where
  | start (use : Use) : BarrierStep s call (.loadFlushed use)
  | lockProgress : BarrierStep s call .lockProgress
  | unflushed (use : Use) : BarrierStep s call (.loadStopped use)
  | flushed (use : Use) (h : call.target ≤ s.flushedSequence) : BarrierStep s call (.lockFlushError use)
  | flushError (use : Use) (h : call.pc = .lockFlushError use) :
    BarrierStep s call (.lockWriteError use (flushErrorFor call.target s.lastFlushError))
  | ok (use : Use) (h : call.pc = .lockWriteError use none)
      (hwrite : writeErrorFor call.target s.lastWriteError = none) :
    BarrierStep s call (.resolved (.ok ()))
  | failed (error : FlushError) : BarrierStep s call (.resolved (.error error))
  | pending {pc : FlushPc} (h : pc = .park ∨ pc = .held ∨ pc = .parked ∨ ∃ waker, pc = .register waker) :
    BarrierStep s call pc

theorem BarrierStep.of_conclude_none (s : State) (call : FlushCall) (use : Use) :
    BarrierStep s call (conclude none use) := by
  obtain ⟨r, hr, -⟩ | ⟨-, hp | hh | ⟨waker, hw⟩⟩ := conclude_cases none use
  · cases hr
  · exact .pending (Or.inl hp)
  · exact .pending (Or.inr (Or.inl hh))
  · exact .pending (Or.inr (Or.inr (Or.inr ⟨waker, hw⟩)))

theorem conclude_some (r : Except FlushError Unit) (use : Use) :
    conclude (some r) use = .resolved r := by
  cases use <;> rfl

/-- Every step of the machine, with what it needs and what it does. The steps of the queue's
holder, the worker and the writer are read off their own definitions. -/
inductive Moves (config : Config) (s : State) : Action → State → Prop where
  | callEmit (event : ProjectedEvent) (halive : s.drop = .alive) :
    Moves config s (.callEmit event) { s with emits := s.emits ++ [.start event] }
  | emitAside (a : Action) (i : ℕ) (old pc : EmitPc) (stats : SinkStats)
    (ha : a = .stepEmit i ∨ a = .refuseEmit i) (hi : s.emits[i]? = some old)
    (hold : old ≠ .notify ∧ old ≠ .inside ∧ old ≠ .done)
    (hpc : pc = .done ∨ ∃ event, old = .start event ∧ config.capacity ≠ 0 ∧ s.stopped = false ∧
      pc = .tryLock (OwnedProjectedEvent.copyFrom event config.maxStringBytes)) :
    Moves config s a { s with emits := s.emits.set i pc, stats := stats }
  | emitEnter (i : ℕ) (owned : OwnedProjectedEvent) (hi : s.emits[i]? = some (.tryLock owned))
    (hfree : s.queueSection = .free) :
    Moves config s (.stepEmit i)
      { s with queueSection := .emitTest i owned, emits := s.emits.set i .inside }
  | emitNotify (i : ℕ) (hi : s.emits[i]? = some .notify) :
    Moves config s (.stepEmit i)
      { s with emits := s.emits.set i .done, worker := wakeWorker s.worker }
  | callFlush (halive : s.drop = .alive) :
    Moves config s .callFlush { s with flushes := s.flushes ++ [⟨.lockQueue, 0, []⟩] }
  | capture (f : ℕ) (call : FlushCall) (hf : s.flushes[f]? = some call)
    (hpc : call.pc = .lockQueue) (hfree : s.queueSection = .free) :
    Moves config s (.stepFlush f) { s with
      flushes := s.flushes.set f
        ⟨.publish, s.nextSequence, s.events.map QueuedEvent.sequence⟩ }
  | publish (f : ℕ) (call : FlushCall) (hf : s.flushes[f]? = some call)
    (hpc : call.pc = .publish) :
    Moves config s (.stepFlush f) { s with
      requestedFlush := max s.requestedFlush call.target
      flushes := s.flushes.set f { call with pc := .notify } }
  | flushNotify (f : ℕ) (call : FlushCall) (hf : s.flushes[f]? = some call)
    (hpc : call.pc = .notify) :
    Moves config s (.stepFlush f) { s with
      worker := wakeWorker s.worker, flushes := s.flushes.set f { call with pc := .held } }
  | barrier (a : Action) (f : ℕ) (call : FlushCall) (pc : FlushPc) (owner : Option ℕ)
    (wakers : List ℕ) (hf : s.flushes[f]? = some call) (hout : call.pc.inCall = false)
    (hstep : BarrierStep s call pc) :
    Moves config s a { s with
      flushes := s.flushes.set f { call with pc := pc }, progressOwner := owner
      wakers := wakers }
  | dropHandles (halive : s.drop = .alive) (hquiet : quiet s = true) :
    Moves config s .dropHandles { s with drop := .lockQueue }
  | dropLock (hdrop : s.drop = .lockQueue) (hfree : s.queueSection = .free) :
    Moves config s .stepDrop { s with drop := .loadNext, shutdown := true }
  | dropLoad (hdrop : s.drop = .loadNext) :
    Moves config s .stepDrop { s with drop := .storeRequested s.nextSequence }
  | dropStore (next : ℕ) (hdrop : s.drop = .storeRequested next) :
    Moves config s .stepDrop { s with drop := .notify, requestedFlush := next }
  | dropNotify (hdrop : s.drop = .notify) :
    Moves config s .stepDrop { s with drop := .join, worker := wakeWorker s.worker }
  | dropJoin (hdrop : s.drop = .join) (hworker : s.worker = .terminated) :
    Moves config s .stepDrop { s with drop := .done }
  | queue (s' : State) (h : queueStep config s s.queueSection = some s') :
    Moves config s .stepQueue s'
  | work (s' : State) (h : workerStep s s.worker = some s') : Moves config s .work s'
  | writer (outcome : Outcome) (s' : State) (h : writerStep s outcome s.worker = some s') :
    Moves config s (.writer outcome) s'
  | spurious (hparked : s.worker = .parked) :
    Moves config s .spuriousWork { s with worker := wakeWorker s.worker }

theorem moves_of_emitStep {i : ℕ} {pc : EmitPc} (hi : s.emits[i]? = some pc)
    (h : emitStep config i s pc = some s') : Moves config s (.stepEmit i) s' := by
  cases pc with
  | start event =>
    simp only [emitStep] at h
    split at h
    next =>
      cases h
      exact .emitAside _ i _ .done _ (Or.inl rfl) hi (by simp) (Or.inl rfl)
    next hopen =>
      obtain ⟨hcap, hstopped⟩ := not_or.mp hopen
      cases h
      exact .emitAside _ i _ (.tryLock _) _ (Or.inl rfl) hi (by simp)
        (Or.inr ⟨event, rfl, hcap, Bool.eq_false_of_not_eq_true hstopped, rfl⟩)
  | tryLock owned =>
    simp only [emitStep] at h
    split at h
    next hfree =>
      cases h
      exact .emitEnter i owned hi hfree
    next =>
      cases h
      exact .emitAside _ i _ .done _ (Or.inl rfl) hi (by simp) (Or.inl rfl)
  | inside => cases h
  | notify =>
    cases h
    exact .emitNotify i hi
  | done => cases h

/-- A call that is refused is over, and counts as dropped. -/
theorem refuseStep_cases {i : ℕ} {pc : EmitPc} (h : refuseStep i s pc = some s') :
    (∃ owned, pc = .tryLock owned) ∧
      s' = { s with emits := s.emits.set i .done, stats := s.stats.countDropped } := by
  cases pc with
  | tryLock owned =>
    simp only [refuseStep] at h
    split at h <;> cases h
    exact ⟨⟨owned, rfl⟩, rfl⟩
  | _ => cases h

theorem moves_of_flushStep {f : ℕ} {call : FlushCall} (hf : s.flushes[f]? = some call)
    (h : flushStep f call s = some s') : Moves config s (.stepFlush f) s' := by
  obtain ⟨pc, target, captured⟩ := call
  cases pc with
  | lockQueue =>
    simp only [flushStep] at h
    split at h
    next hfree =>
      cases h
      exact .capture f _ hf rfl hfree
    next => cases h
  | publish =>
    cases h
    exact .publish f _ hf rfl
  | notify =>
    cases h
    exact .flushNotify f _ hf rfl
  | held => cases h
  | lockProgress =>
    simp only [flushStep] at h
    split at h
    · cases h
      exact .barrier _ f _ _ _ _ hf rfl (.start _)
    · cases h
  | loadFlushed use =>
    simp only [flushStep] at h
    split at h
    next =>
      cases h
      exact .barrier _ f _ _ _ _ hf rfl (.unflushed use)
    next hge =>
      cases h
      exact .barrier _ f _ _ _ _ hf rfl (.flushed use (not_lt.mp hge))
  | loadStopped use =>
    simp only [flushStep] at h
    cases h
    refine .barrier _ f _ _ _ _ hf rfl ?_
    split
    · rw [conclude_some]
      exact .failed _
    · exact .of_conclude_none ..
  | lockFlushError use =>
    cases h
    exact .barrier _ f _ _ _ _ hf rfl (.flushError use rfl)
  | lockWriteError use flushError =>
    simp only [flushStep] at h
    cases h
    refine .barrier _ f _ _ _ _ hf rfl ?_
    rw [conclude_some]
    cases flushError with
    | some error => exact .failed error
    | none =>
      cases hw : writeErrorFor target s.lastWriteError with
      | none => exact .ok use rfl hw
      | some error => exact .failed error
  | park =>
    cases h
    exact .barrier _ f _ _ _ _ hf rfl (.pending (Or.inr (Or.inr (Or.inl rfl))))
  | parked => cases h
  | register waker =>
    cases h
    exact .barrier _ f _ _ _ _ hf rfl (.start _)
  | resolved result => cases h

theorem moves_of_dropStep (h : dropStep s s.drop = some s') :
    Moves config s .stepDrop s' := by
  cases hd : s.drop with
  | alive => simp [hd, dropStep] at h
  | lockQueue =>
    simp only [hd, dropStep] at h
    split at h
    next hfree =>
      cases h
      exact .dropLock hd hfree
    next => cases h
  | loadNext =>
    simp only [hd, dropStep] at h
    cases h
    exact .dropLoad hd
  | storeRequested next =>
    simp only [hd, dropStep] at h
    cases h
    exact .dropStore next hd
  | notify =>
    simp only [hd, dropStep] at h
    cases h
    exact .dropNotify hd
  | join =>
    simp only [hd, dropStep] at h
    split at h
    next hworker =>
      cases h
      exact .dropJoin hd hworker
    next => cases h
  | done => simp [hd, dropStep] at h

/-- **Inversion**: every enabled action is one of the moves. -/
theorem moves_of_step {a : Action} (h : step config s a = some s') : Moves config s a s' := by
  cases a with
  | callEmit event =>
    simp only [step] at h
    split at h
    next halive =>
      cases h
      exact .callEmit event halive
    next => cases h
  | stepEmit i =>
    obtain ⟨pc, hi, hstep⟩ := Option.bind_eq_some_iff.mp h
    exact moves_of_emitStep hi hstep
  | refuseEmit i =>
    obtain ⟨pc, hi, hstep⟩ := Option.bind_eq_some_iff.mp h
    obtain ⟨⟨owned, rfl⟩, rfl⟩ := refuseStep_cases hstep
    exact .emitAside _ i _ .done _ (Or.inr rfl) hi (by simp) (Or.inl rfl)
  | callFlush =>
    simp only [step] at h
    split at h
    next halive =>
      cases h
      exact .callFlush halive
    next => cases h
  | stepFlush f =>
    obtain ⟨call, hf, hstep⟩ := Option.bind_eq_some_iff.mp h
    exact moves_of_flushStep hf hstep
  | wait f =>
    obtain ⟨⟨pc, target, captured⟩, hf, hstep⟩ := Option.bind_eq_some_iff.mp h
    cases pc <;> cases hstep
    exact .barrier _ f _ _ _ _ hf rfl .lockProgress
  | poll f waker =>
    obtain ⟨⟨pc, target, captured⟩, hf, hstep⟩ := Option.bind_eq_some_iff.mp h
    cases pc <;> cases hstep
    exact .barrier _ f _ _ _ _ hf rfl (.start _)
  | dropHandles =>
    simp only [step] at h
    split at h
    next hc =>
      cases h
      exact .dropHandles hc.1 hc.2
    next => cases h
  | stepDrop => exact moves_of_dropStep h
  | stepQueue => exact .queue s' h
  | work => exact .work s' h
  | writer outcome => exact .writer outcome s' h
  | spuriousWork =>
    simp only [step] at h
    split at h
    next hparked =>
      cases h
      have hwake : wakeWorker s.worker = .lock := by rw [hparked]; rfl
      rw [← hwake]
      exact .spurious hparked
    next => cases h
  | spuriousProgress f =>
    obtain ⟨⟨pc, target, captured⟩, hf, hstep⟩ := Option.bind_eq_some_iff.mp h
    cases pc <;> cases hstep
    exact .barrier _ f _ _ _ _ hf rfl .lockProgress

/-- What a step of the queue's holder leaves alone, and how it leaves the calls of `emit`. -/
structure QueueFrame (s s' : State) : Prop where
  shutdown : s'.shutdown = s.shutdown
  processedSequence : s'.processedSequence = s.processedSequence
  requestedFlush : s'.requestedFlush = s.requestedFlush
  flushedSequence : s'.flushedSequence = s.flushedSequence
  lastFlushError : s'.lastFlushError = s.lastFlushError
  lastWriteError : s'.lastWriteError = s.lastWriteError
  drop : s'.drop = s.drop
  log : s'.log = s.log
  stopped : s'.stopped = s.stopped
  flushes : s'.flushes = s.flushes
  nextSequence : s'.nextSequence = s.nextSequence ∨
    (s'.nextSequence = s.nextSequence + 1 ∧ ∃ i, s.queueSection.emitter = some i)
  emits : (s'.emits = s.emits ∧ s'.queueSection.emitter = s.queueSection.emitter) ∨
    ∃ i pc, s.queueSection.emitter = some i ∧ s'.queueSection.emitter = none ∧
      (pc = .done ∨ pc = .notify) ∧ s'.emits = s.emits.set i pc
  worker : s'.worker = s.worker ∨ (s.queueSection.ofWorker = true ∧
    (s'.worker = .loadProcessed ∨ s'.worker = .parked ∨ ∃ queued ∈ s.events, s'.worker = .write queued))

theorem queueStep_frame (hs : queueStep config s s.queueSection = some s') : QueueFrame s s' := by
  cases hq : s.queueSection <;> simp only [hq, queueStep, reduceCtorEq] at hs <;>
    (try (split at hs <;> try split at hs)) <;> cases hs <;> constructor <;>
      simp_all [QueueSection.emitter, QueueSection.ofWorker]

/-- What a step of the worker outside the queue leaves alone, and what it may change. -/
structure WorkerFrame (s s' : State) : Prop where
  events : s'.events = s.events
  nextSequence : s'.nextSequence = s.nextSequence
  requestedFlush : s'.requestedFlush = s.requestedFlush
  shutdown : s'.shutdown = s.shutdown
  drop : s'.drop = s.drop
  log : s'.log = s.log
  emits : s'.emits = s.emits
  stopped : s.stopped = true → s'.stopped = true
  flushes : s'.flushes = s.flushes ∨ s'.flushes = s.flushes.map wakeWaiter
  handled : s'.handled = s.handled
  written : s'.written = s.written
  processed : s'.processedSequence = s.processedSequence ∨
    (s'.processedSequence = s.handled ∧ s'.worker.carried = none)
  flushed : s'.flushedSequence = s.flushedSequence ∨
    s.worker.carried = some s'.flushedSequence
  queue : (s'.queueSection = s.queueSection ∧ s.worker ≠ .inside ∧ s'.worker ≠ .inside) ∨
    (s.queueSection = .free ∧ s'.queueSection = .workerPop ∧ s'.worker = .inside)
  parked : s'.worker ≠ .parked
  outside : ∀ queued, s.worker ≠ .write queued ∧ s'.worker ≠ .write queued
  record : ∀ sequence, s'.worker.record = some sequence →
    s.worker.record = some sequence ∧ s'.processedSequence = s.processedSequence
  carried : ∀ p, s'.worker.carried = some p →
    s.worker.carried = some p ∨ p = s.processedSequence

theorem workerStep_frame (hs : workerStep s s.worker = some s') : WorkerFrame s s' := by
  cases hw : s.worker with
  | wake wakers next =>
    simp only [hw, workerStep] at hs
    cases hs
    cases next <;> constructor <;>
      simp [hw, Core.handled, Core.written, WorkerPc.carried, WorkerPc.record, AfterNotify.carried,
        afterNotify]
  | _ =>
    simp only [hw, workerStep, reduceCtorEq] at hs
    try (split at hs <;> try split at hs)
    all_goals
      cases hs
      try (constructor <;> simp_all [Core.handled, Core.written, WorkerPc.carried,
        WorkerPc.record, AfterNotify.carried])

/-- What a call of the writer leaves alone, and what it logs. -/
structure WriterFrame (s s' : State) : Prop where
  queueSection : s'.queueSection = s.queueSection
  events : s'.events = s.events
  shutdown : s'.shutdown = s.shutdown
  processedSequence : s'.processedSequence = s.processedSequence
  flushedSequence : s'.flushedSequence = s.flushedSequence
  lastFlushError : s'.lastFlushError = s.lastFlushError
  lastWriteError : s'.lastWriteError = s.lastWriteError
  drop : s'.drop = s.drop
  stopped : s'.stopped = s.stopped
  emits : s'.emits = s.emits
  flushes : s'.flushes = s.flushes
  record : ∀ sequence, s'.worker.record = some sequence → s.worker.record = some sequence
  stopping : s'.worker.stopping = true → s.worker.stopping = true

theorem writerStep_frame {outcome : Outcome} (hs : writerStep s outcome s.worker = some s') :
    WriterFrame s s' := by
  cases hw : s.worker with
  | write _ | flush _ | finalFlush _ =>
    rw [hw] at hs
    cases outcome <;> cases hs <;> constructor <;> simp [hw, WorkerPc.record, WorkerPc.stopping]
  | _ => simp [hw, writerStep] at hs

end Logwise.AsyncSink
