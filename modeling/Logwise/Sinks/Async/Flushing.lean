import Logwise.Sinks.Async.Shutdown
import Logwise.Sinks.Async.Wakeup

/-!
# A barrier is answered while the sink lives

The worker flushes once it has processed `requested_flush`, so a stream of ever later barriers can
put the flush off for ever. Where no barrier asks for more, where flushes signal in time, and where
everybody is treated fairly, every waiter returns: `State.toFlush` is what the worker still has to do
until it flushes, and neither new records nor the drop add to it.
-/

namespace Logwise.AsyncSink

open Transition (Behaviour Enabled Nears)

variable {config : Config} {s s' : State} {a : Action}

/-! ## The records a barrier waits for -/

def QueueSection.pushing : QueueSection → Option ℕ
  | .emitPush _ _ sequence => some sequence
  | _ => none

/-- Is this sequence one that has to be written before the flush? -/
def wanted (requested : ℕ) (sequence : Option ℕ) : ℕ :=
  if sequence.any fun sequence => sequence ≤ requested then 1 else 0

/-- The records up to the sequence requested that are not written yet. -/
def State.ahead (s : State) : ℕ :=
  s.events.countP (fun e => e.sequence ≤ s.requestedFlush) +
    wanted s.requestedFlush s.worker.record + wanted s.requestedFlush s.queueSection.pushing

theorem wanted_none (requested : ℕ) : wanted requested none = 0 := rfl

/-- The steps of the worker until it flushes for what is requested or has the next record in hand. -/
def State.workToFlush (s : State) : ℕ :=
  match s.worker with
  | .parked => 16
  | .lock => 15
  | .inside =>
    match s.queueSection with
    | .workerLoadRequested => 13
    | .workerLoadFlushed requested => if requested = s.requestedFlush then 12 else 18
    | .workerTest requested _ => if requested = s.requestedFlush then 11 else 17
    | _ => 14
  | .write _ => 9
  | .recordWriteError _ _ => 8
  | .storeProcessed _ => 7
  | .loadProcessed => if s.requestedFlush ≤ s.processedSequence then 6 else 40
  | .loadRequested processed => if s.requestedFlush ≤ processed then 5 else 39
  | .loadFlushed processed requested =>
    if s.requestedFlush ≤ processed ∧ requested = s.requestedFlush then 4 else 38
  | .flush processed => if s.requestedFlush ≤ processed then 3 else 37
  | .clearFlushError processed | .setFlushError processed _ =>
    if s.requestedFlush ≤ processed then 2 else 36
  | .storeFlushed processed => if s.requestedFlush ≤ processed then 1 else 35
  | .notifyProgress (.checkStop _) => 22
  | .takeWakers (.checkStop _) => 21
  | .wake _ (.checkStop _) => 20
  | .checkStop _ => 19
  | .loadFinal _ => 4
  | .finalFlush _ => 3
  | .storeFinal _ => 2
  | .storeStopped => 1
  | _ => 0

def State.toFlush (s : State) : ℕ := 100 * s.ahead + s.workToFlush

/-- Nothing that is requested is unflushed, or the worker has stopped. -/
def State.FlushedAll (s : State) : Prop := s.requestedFlush ≤ s.flushedSequence ∨ s.stopped = true

/-- A waiter whose target has been published is then through. -/
theorem due_of_flushedAll (hc : s.Calls) (h : s.FlushedAll) {f : ℕ} (hwaits : s.Waits f) :
    s.Due f := by
  obtain ⟨call, hf, hpc⟩ := hwaits
  refine ⟨call, hf, hpc, h.imp_left fun hle => ?_⟩
  refine (hc.published call (List.mem_of_getElem? hf) ?_ ?_).trans hle
  · exact fun he => by rw [he] at hpc; cases hpc
  · exact fun he => by rw [he] at hpc; cases hpc

theorem wanted_eq (requested : ℕ) (sequence : ℕ) :
    wanted requested (some sequence) = if sequence ≤ requested then 1 else 0 := by
  simp [wanted]

theorem ahead_queueStep (hc : s.Calls) (ho : s.Ordered)
    (hs : queueStep config s s.queueSection = some s') : s'.ahead ≤ s.ahead := by
  rw [State.ahead, State.ahead, (queueStep_frame hs).requestedFlush]
  cases hq : s.queueSection with
  | free =>
    rw [hq] at hs
    cases hs
  | emitTest i owned =>
    simp only [hq, queueStep] at hs
    split at hs
    · split at hs <;> cases hs <;> exact le_refl _
    · cases hs
      exact le_refl _
  | emitLoadRequested i owned =>
    simp only [hq, queueStep] at hs
    cases hs
    exact le_refl _
  | emitLoadFlushed i owned requested =>
    simp only [hq, queueStep] at hs
    split at hs
    · cases hs
      exact le_refl _
    · cases hs
      have htail := (List.tail_sublist s.events).countP_le
        (p := fun e => decide (e.sequence ≤ s.requestedFlush))
      simp only [QueueSection.pushing]
      omega
  | emitSequence i owned =>
    simp only [hq, queueStep] at hs
    cases hs
    -- the sequence is drawn after the request
    have hlater : ¬ s.nextSequence + 1 ≤ s.requestedFlush := by
      have hle := hc.requested_le
      omega
    simp only [QueueSection.pushing, wanted_eq, if_neg hlater, wanted_none, le_refl]
  | emitPush i owned sequence =>
    simp only [hq, queueStep] at hs
    cases hs
    simp only [QueueSection.pushing, wanted_eq, wanted_none, List.countP_append,
      List.countP_singleton, decide_eq_true_eq]
    omega
  | workerPop =>
    have hinside : s.worker = .inside := ho.inside.mp (by rw [hq]; rfl)
    cases he : s.events with
    | nil =>
      simp only [hq, queueStep, he] at hs
      cases hs
      exact le_refl _
    | cons queued rest =>
      simp only [hq, queueStep, he] at hs
      cases hs
      simp only [hinside, WorkerPc.record, QueueSection.pushing, wanted_eq, wanted_none,
        List.countP_cons, decide_eq_true_eq]
      omega
  | workerLoadRequested | workerLoadFlushed requested =>
    simp only [hq, queueStep] at hs
    cases hs
    exact le_refl _
  | workerTest requested flushed =>
    have hinside : s.worker = .inside := ho.inside.mp (by rw [hq]; rfl)
    simp only [hq, queueStep] at hs
    split at hs <;> cases hs <;> simp only [hinside] <;> exact le_refl _

/-- The worker only gets rid of records, and of the one in its hands once it is accounted for. -/
theorem ahead_workerStep (hs : workerStep s s.worker = some s') : s'.ahead ≤ s.ahead := by
  have frame := workerStep_frame hs
  have hrecord : wanted s.requestedFlush s'.worker.record ≤
      wanted s.requestedFlush s.worker.record := by
    cases hr : s'.worker.record with
    | none => exact Nat.zero_le _
    | some sequence => rw [(frame.record sequence hr).1]
  have hpushing : s'.queueSection.pushing = s.queueSection.pushing := by
    obtain ⟨he, -, -⟩ | ⟨hfree, he, -⟩ := frame.queue
    · rw [he]
    · rw [he, hfree]
      rfl
  rw [State.ahead, State.ahead, frame.requestedFlush, frame.events, hpushing]
  omega

theorem ahead_writerStep {outcome : Outcome} (hs : writerStep s outcome s.worker = some s') :
    s'.ahead ≤ s.ahead ∧ s'.requestedFlush = s.requestedFlush := by
  have frame := writerStep_frame hs
  have hrequested : s'.requestedFlush = s.requestedFlush := by
    cases hw : s.worker with
    | write _ | flush _ | finalFlush _ =>
      rw [hw] at hs
      cases outcome <;> cases hs <;> rfl
    | _ => simp [hw, writerStep] at hs
  refine ⟨?_, hrequested⟩
  have hrecord : wanted s.requestedFlush s'.worker.record ≤
      wanted s.requestedFlush s.worker.record := by
    cases hr : s'.worker.record with
    | none => exact Nat.zero_le _
    | some sequence => rw [frame.record sequence hr]
  rw [State.ahead, State.ahead, hrequested, frame.events, frame.queueSection]
  omega

theorem record_wakeWorker (pc : WorkerPc) : (wakeWorker pc).record = pc.record := by
  cases pc <;> rfl

/-- **What a barrier waits for** never becomes more, unless another asks for more. -/
theorem ahead_step (kept : s.Kept) (hsame : s'.requestedFlush = s.requestedFlush)
    (hs : step config s a = some s') : s'.ahead ≤ s.ahead := by
  cases moves_of_step hs with
  | emitEnter i owned hi hfree =>
    simp only [State.ahead, hfree]
    exact le_refl _
  | emitNotify i hi => simp only [State.ahead, record_wakeWorker, le_refl]
  | flushNotify f call hf hpc => simp only [State.ahead, record_wakeWorker, le_refl]
  | dropNotify hdrop => simp only [State.ahead, record_wakeWorker, le_refl]
  | spurious hparked => simp only [State.ahead, record_wakeWorker, le_refl]
  | publish f call hf hpc =>
    have hsame : max s.requestedFlush call.target = s.requestedFlush := hsame
    simp only [State.ahead, hsame, le_refl]
  | dropStore next hdrop =>
    have hsame : next = s.requestedFlush := hsame
    simp only [State.ahead, hsame, le_refl]
  | queue s' h => exact ahead_queueStep kept.calls kept.ordered h
  | work s' h => exact ahead_workerStep h
  | writer outcome s' h => exact (ahead_writerStep h).1
  | _ => exact le_refl _

/-! ## The worker's way to the flush -/

/-- What a state of a run is like in which no barrier asks for more. -/
structure State.Attended (requested : ℕ) (s : State) : Prop where
  orderly : s.Orderly
  heard : s.Heard
  consecutive : s.Consecutive
  requested : s.requestedFlush = requested

variable {requested : ℕ}

theorem State.Attended.running (h : s.Attended requested) (hgoal : ¬ s.FlushedAll) :
    s.flushedSequence < s.requestedFlush ∧ s.worker.halted = false := by
  obtain ⟨hlt, hrunning⟩ := not_or.mp hgoal
  refine ⟨not_le.mp hlt, Bool.eq_false_of_not_eq_true fun hhalted => ?_⟩
  exact hrunning (h.orderly.joinable.halted hhalted)

/-- A worker that has found the queue empty has written all that is requested. -/
theorem State.Attended.processed (h : s.Attended requested) (hof : s.queueSection.ofWorker = true)
    (hempty : s.events = []) : s.requestedFlush ≤ s.processedSequence := by
  have hinside := h.orderly.kept.ordered.inside.mp hof
  have hplaces : s.queueSection.places = false := by
    cases hq : s.queueSection <;> rw [hq] at hof <;> first | rfl | cases hof
  have hdrained := h.consecutive.drained hempty hplaces
  have hprocessed : s.processedSequence = s.nextSequence := by
    rw [Core.handled, hinside] at hdrained
    exact hdrained
  exact hprocessed ▸ h.orderly.kept.calls.requested_le

theorem workToFlush_queueStep (h : s.Attended requested) (hgoal : ¬ s.FlushedAll)
    (hof : s.queueSection.ofWorker = true) (hs : queueStep config s s.queueSection = some s') :
    s'.workToFlush < s.workToFlush := by
  have hinside := h.orderly.kept.ordered.inside.mp hof
  obtain ⟨hlt, -⟩ := h.running hgoal
  cases hq : s.queueSection with
  | workerPop =>
    cases he : s.events with
    | nil =>
      simp only [hq, queueStep, he] at hs
      cases hs
      simp [State.workToFlush, hinside, hq]
    | cons queued rest =>
      simp only [hq, queueStep, he] at hs
      cases hs
      simp [State.workToFlush, hinside, hq]
  | workerLoadRequested =>
    simp only [hq, queueStep] at hs
    cases hs
    simp [State.workToFlush, hinside, hq]
  | workerLoadFlushed loaded =>
    simp only [hq, queueStep] at hs
    cases hs
    simp only [State.workToFlush, hinside, hq]
    split <;> omega
  | workerTest loaded flushed =>
    have hreading : s.queueSection.reading = some loaded := by rw [hq]; rfl
    have hempty := (h.heard.reading loaded hreading).1
    have hprocessed := h.processed hof hempty
    have hfresh := h.heard.test loaded flushed hq
    simp only [hq, queueStep] at hs
    split at hs
    next =>
      cases hs
      simp only [State.workToFlush, hinside, hq, if_pos hprocessed]
      split <;> omega
    next hidle =>
      -- it parks only if it has read the request too early
      have hstale : loaded ≠ s.requestedFlush := by
        rintro rfl
        exact hidle (Or.inl (hfresh ▸ hlt))
      cases hs
      simp [State.workToFlush, hinside, hq, hstale]
  | _ =>
    rw [hq] at hof
    cases hof

theorem workToFlush_writerStep {outcome : Outcome}
    (hs : writerStep s outcome s.worker = some s') : s'.workToFlush < s.workToFlush := by
  have hrequested := (ahead_writerStep hs).2
  cases hw : s.worker with
  | write queued =>
    rw [hw] at hs
    cases outcome <;> cases hs <;> simp [State.workToFlush, hw]
  | flush processed =>
    rw [hw] at hs
    cases outcome <;> cases hs <;> simp only [State.workToFlush, hw] <;> split <;> omega
  | finalFlush processed =>
    rw [hw] at hs
    cases outcome <;> cases hs <;> simp [State.workToFlush, hw]
  | _ => simp [hw, writerStep] at hs

/-- Outside the queue the worker comes closer to the flush, or has accounted for a record. -/
theorem workToFlush_workerStep (h : s.Attended requested) (hgoal : ¬ s.FlushedAll)
    (hs : workerStep s s.worker = some s') : s'.FlushedAll ∨ s'.workToFlush < s.workToFlush ∨
      (s'.ahead < s.ahead ∧ s'.workToFlush ≤ 40) := by
  obtain ⟨hlt, hrunning⟩ := h.running hgoal
  cases hw : s.worker with
  | lock =>
    simp only [hw, workerStep] at hs
    split at hs <;> cases hs
    exact Or.inr (Or.inl (by simp [State.workToFlush, hw]))
  | storeProcessed sequence =>
    simp only [hw, workerStep] at hs
    cases hs
    by_cases hle : sequence ≤ s.requestedFlush
    · refine Or.inr (Or.inr ⟨?_, ?_⟩)
      · simp only [State.ahead, hw, WorkerPc.record, wanted_eq, if_pos hle, wanted_none]
        omega
      · simp only [State.workToFlush]
        split <;> omega
    · refine Or.inr (Or.inl ?_)
      simp [State.workToFlush, hw, (not_le.mp hle).le]
  | loadRequested processed =>
    simp only [hw, workerStep] at hs
    split at hs
    next hle =>
      cases hs
      exact Or.inr (Or.inl (by simp [State.workToFlush, hw, hle]))
    next hnot =>
      cases hs
      exact Or.inr (Or.inl (by simp [State.workToFlush, hw, hnot]))
  | loadFlushed processed loaded =>
    simp only [hw, workerStep] at hs
    split at hs
    next =>
      cases hs
      refine Or.inr (Or.inl ?_)
      simp only [State.workToFlush, hw]
      split
      · split <;> omega
      · split
        next hboth => omega
        next => omega
    next hflushed =>
      cases hs
      refine Or.inr (Or.inl ?_)
      have hstale : ¬ (s.requestedFlush ≤ processed ∧ loaded = s.requestedFlush) :=
        fun hboth => hflushed (hboth.2 ▸ hlt)
      simp [State.workToFlush, hw, hstale]
  | storeFlushed processed =>
    simp only [hw, workerStep] at hs
    cases hs
    by_cases hle : s.requestedFlush ≤ processed
    · exact Or.inl (Or.inl hle)
    · exact Or.inr (Or.inl (by simp [State.workToFlush, hw, hle]))
  | storeStopped =>
    simp only [hw, workerStep] at hs
    cases hs
    exact Or.inl (Or.inr rfl)
  | notifyProgress next | takeWakers next =>
    cases next with
    | terminated =>
      rw [hw] at hrunning
      cases hrunning
    | checkStop processed =>
      simp only [hw, workerStep] at hs
      try split at hs
      all_goals
        cases hs
        try exact Or.inr (Or.inl (by simp [State.workToFlush, hw]))
  | wake wakers next =>
    cases next with
    | terminated =>
      rw [hw] at hrunning
      cases hrunning
    | checkStop processed =>
      simp only [hw, workerStep] at hs
      cases hs
      exact Or.inr (Or.inl (by simp [State.workToFlush, hw, afterNotify]))
  | loadProcessed | clearFlushError _ | setFlushError _ _ =>
    simp only [hw, workerStep] at hs
    cases hs
    refine Or.inr (Or.inl ?_)
    simp only [State.workToFlush, hw]
    split <;> omega
  | _ =>
    simp only [hw, workerStep, reduceCtorEq] at hs
    try (split at hs <;> try split at hs)
    all_goals
      cases hs
      try exact Or.inr (Or.inl (by simp [State.workToFlush, hw]))

/-- Outside the queue the worker's way does not depend on the queue. -/
theorem workToFlush_congr (hworker : s'.worker = s.worker) (hout : s.worker ≠ .inside)
    (hrequested : s'.requestedFlush = s.requestedFlush)
    (hprocessed : s'.processedSequence = s.processedSequence) :
    s'.workToFlush = s.workToFlush := by
  cases hw : s.worker with
  | inside => exact absurd hw hout
  | notifyProgress next | takeWakers next | wake _ next =>
    cases next <;> simp only [State.workToFlush, hworker, hw]
  | _ => simp only [State.workToFlush, hworker, hw, hrequested, hprocessed]

/-- The steps of others do not move the worker away from the flush. -/
theorem workToFlush_aside (ho : s.Ordered) (hsame : s'.requestedFlush = s.requestedFlush)
    (hturn : ¬ Party.worker.turn s a) (hs : step config s a = some s') :
    s'.workToFlush ≤ s.workToFlush := by
  have hwake : State.workToFlush { s with worker := wakeWorker s.worker } ≤ s.workToFlush := by
    obtain he | ⟨hparked, he⟩ := wakeWorker_eq s.worker
    · rw [he]
    · rw [he]
      simp only [State.workToFlush, hparked]
      omega
  cases moves_of_step hs with
  | emitEnter i owned hi hfree =>
    have hout : s.worker ≠ .inside := by
      intro hinside
      have hof := ho.inside.mpr hinside
      rw [hfree] at hof
      cases hof
    refine le_of_eq (workToFlush_congr ?_ hout ?_ ?_) <;> rfl
  | emitNotify i hi => exact hwake
  | flushNotify f call hf hpc => exact hwake
  | dropNotify hdrop => exact hwake
  | spurious hparked => exact hwake
  | publish f call hf hpc =>
    have hsame : max s.requestedFlush call.target = s.requestedFlush := hsame
    simp only [State.workToFlush, hsame, le_refl]
  | dropStore next hdrop =>
    have hsame : next = s.requestedFlush := hsame
    simp only [State.workToFlush, hsame, le_refl]
  | queue s' h =>
    have frame := queueStep_frame h
    have hworker := frame.worker.resolve_right fun hof => hturn (Or.inr ⟨rfl, hof.1⟩)
    have hout : s.worker ≠ .inside := fun hinside => hturn (Or.inr ⟨rfl, ho.inside.mpr hinside⟩)
    exact (workToFlush_congr hworker hout frame.requestedFlush frame.processedSequence).le
  | work s' h => exact absurd (Or.inl (Or.inl rfl)) hturn
  | writer outcome s' h => exact absurd (Or.inl (Or.inr ⟨outcome, rfl⟩)) hturn
  | _ => exact le_refl _

/-- **The way to the flush** gets shorter with every turn of the worker, and never longer. -/
theorem toFlush_step (h : s.Attended requested) (h' : s'.Attended requested)
    (hgoal : ¬ s.FlushedAll) (hs : step config s a = some s') : s'.FlushedAll ∨
      (s'.toFlush ≤ s.toFlush ∧ (Party.worker.turn s a → s'.toFlush < s.toFlush)) := by
  have hsame := h'.requested.trans h.requested.symm
  have hahead := ahead_step h.orderly.kept hsame hs
  have hcloser : s'.workToFlush < s.workToFlush →
      s'.toFlush ≤ s.toFlush ∧ (Party.worker.turn s a → s'.toFlush < s.toFlush) := by
    intro hlt
    rw [State.toFlush, State.toFlush]
    exact ⟨by omega, fun _ => by omega⟩
  by_cases hturn : Party.worker.turn s a
  · obtain (hwork | ⟨outcome, hwriter⟩) | ⟨hqueue, hholds⟩ := hturn
    · rw [hwork] at hs
      obtain hdone | hlt | ⟨hlt, hle⟩ := workToFlush_workerStep h hgoal hs
      · exact Or.inl hdone
      · exact Or.inr (hcloser hlt)
      · rw [State.toFlush, State.toFlush]
        exact Or.inr ⟨by omega, fun _ => by omega⟩
    · rw [hwriter] at hs
      exact Or.inr (hcloser (workToFlush_writerStep hs))
    · rw [hqueue] at hs
      exact Or.inr (hcloser (workToFlush_queueStep h hgoal hholds hs))
  · have hle := workToFlush_aside h.orderly.kept.ordered hsame hturn hs
    rw [State.toFlush, State.toFlush]
    exact Or.inr ⟨by omega, fun hmine => absurd hmine hturn⟩

/-! ## Fair behaviours -/

variable {b : Behaviour (step config)}

/-- A flush that is about to signal the worker is let alone. -/
theorem notify_kept {f : ℕ} {call : FlushCall} (hf : s.flushes[f]? = some call)
    (hpc : call.pc = .notify) (ha : a ≠ .stepFlush f) (hs : step config s a = some s') :
    s'.flushes[f]? = some call := by
  have hin := (List.getElem?_eq_some_iff.mp hf).1
  cases barrierMove_of_step hs with
  | apart a s' hapart =>
    rw [hapart.flushes]
    exact hf
  | called s' hflushes _ =>
    rw [hflushes, List.getElem?_append_left hin]
    exact hf
  | stepped g other s' hg hflush =>
    have hne : g ≠ f := fun heq => ha (by rw [heq])
    obtain ⟨new, hflushes⟩ := flushes_flushStep hflush
    rw [hflushes, List.getElem?_set_ne hne]
    exact hf
  | begun a g other pc hg hheld _ =>
    have hne : g ≠ f := by
      rintro rfl
      cases hf.symm.trans hg
      cases hpc.symm.trans hheld
    exact (List.getElem?_set_ne hne).trans hf
  | roused a g other hg hparked =>
    have hne : g ≠ f := by
      rintro rfl
      cases hf.symm.trans hg
      cases hpc.symm.trans hparked
    exact (List.getElem?_set_ne hne).trans hf
  | woken s' _ _ _ hflushes =>
    rw [hflushes, List.getElem?_map, hf]
    obtain ⟨pc, target, captured⟩ := call
    cases hpc
    rfl

/-- A party about to signal does so, and the worker is parked no more. -/
theorem leadsTo_unparked (hfair : FairToAll b) {requested : ℕ}
    (hI : ∀ n, (b.state n).Attended requested) :
    b.LeadsTo (fun s => ¬ s.FlushedAll) fun s => s.FlushedAll ∨ s.worker ≠ .parked := by
  intro n hn
  by_cases hparked : (b.state n).worker = .parked
  · obtain ⟨hlt, -⟩ := (hI n).running hn
    have hpending := ((hI n).heard.parked hparked).2.2.resolve_left (not_le.mpr hlt)
    obtain ⟨call, hm, hpc, -⟩ | hdrop := hpending
    · obtain ⟨f, hf⟩ := List.getElem?_of_mem hm
      have hlead : b.LeadsTo (fun s => s.flushes[f]? = some call) fun s => s.worker ≠ .parked := by
        refine Behaviour.leadsTo_of_fair (fun _ => 0) ?_ (hfair (.flusher f))
          Behaviour.admits_always hI (Behaviour.leadsTo_of_imp fun n hn => Or.inr ?_)
        · intro s a t _ _ hf _ _ hs
          by_cases ha : a = .stepFlush f
          · rw [ha] at hs
            obtain ⟨other, hother, hflush⟩ := Option.bind_eq_some_iff.mp hs
            cases hf.symm.trans hother
            simp only [flushStep, hpc] at hflush
            cases hflush
            exact Or.inl (wakeWorker_ne_parked s.worker)
          · refine Or.inr ⟨notify_kept hf hpc ha hs, le_refl _, fun hturn => ?_⟩
            exact absurd (hturn.resolve_right fun hqueue => hqueue.2) ha
        · have hsignal : ∃ t, flushStep f call (b.state n) = some t := by
            simp only [flushStep, hpc]
            exact ⟨_, rfl⟩
          obtain ⟨t, ht⟩ := hsignal
          exact ⟨.stepFlush f, t, Or.inl rfl, Option.bind_eq_some_iff.mpr ⟨call, hn, ht⟩⟩
      obtain ⟨m, hle, hm⟩ := hlead n hf
      exact ⟨m, hle, Or.inr hm⟩
    · have hlead : b.LeadsTo (fun s => s.drop = .notify) fun s => s.worker ≠ .parked := by
        refine Behaviour.leadsTo_of_fair (fun _ => 0) ?_ (hfair .dropper)
          Behaviour.admits_always hI (Behaviour.leadsTo_of_imp fun n hn => Or.inr ?_)
        · intro s a t _ _ hdrop _ _ hs
          have halive : s.drop ≠ .alive := by rw [hdrop]; exact DropPc.noConfusion
          by_cases ha : a = .stepDrop
          · rw [ha] at hs
            have hstep : dropStep s s.drop = some t := hs
            simp only [hdrop, dropStep] at hstep
            cases hstep
            exact Or.inl (wakeWorker_ne_parked s.worker)
          · refine Or.inr ⟨(drop_eq halive ha hs).trans hdrop, le_refl _, fun hturn => ?_⟩
            exact absurd (hturn.resolve_right fun hqueue => hqueue.2) ha
        · have hsignal : ∃ t, dropStep (b.state n) (b.state n).drop = some t := by
            rw [hn]
            exact ⟨_, rfl⟩
          obtain ⟨t, ht⟩ := hsignal
          exact ⟨.stepDrop, t, Or.inl rfl, ht⟩
      obtain ⟨m, hle, hm⟩ := hlead n hdrop
      exact ⟨m, hle, Or.inr hm⟩
  · exact ⟨n, le_refl n, Or.inr hparked⟩

/-- **The worker comes to the flush.** -/
theorem leadsTo_flushedAll (hfair : FairToAll b) {requested : ℕ}
    (hI : ∀ n, (b.state n).Attended requested) :
    b.LeadsTo (fun _ => True) State.FlushedAll := by
  refine Behaviour.leadsTo_of_fair (fun s => s.toFlush) ?_ (hfair .worker) Behaviour.admits_always
    hI ?_
  · intro s a t hinv hinv' _ hgoal _ hs
    exact (toFlush_step hinv hinv' hgoal hs).imp_right fun hle => ⟨trivial, hle⟩
  · intro n _
    by_cases hdone : (b.state n).FlushedAll
    · exact ⟨n, le_refl n, Or.inl hdone⟩
    obtain ⟨m, hnm, hdone | hparked⟩ := leadsTo_unparked hfair hI n hdone
    · exact ⟨m, hnm, Or.inl hdone⟩
    by_cases hdone : (b.state m).FlushedAll
    · exact ⟨m, hnm, Or.inl hdone⟩
    obtain ⟨-, hrunning⟩ := (hI m).running hdone
    have hgone : (b.state m).worker ≠ .terminated := by
      intro he
      rw [he] at hrunning
      cases hrunning
    obtain henabled | hlocked :=
      worker_enabled config (hI m).orderly.kept.ordered hparked hgone
    · exact ⟨m, hnm, Or.inr henabled⟩
    · obtain ⟨k, hmk, henabled⟩ := leadsTo_enabled hfair Behaviour.admits_always hI
        (fun s h => h.orderly.kept) (fun s h => h.orderly.guarded) m hlocked
      exact ⟨k, hnm.trans hmk, Or.inr henabled⟩

theorem unwound_step (hpanic : ¬ Returns s a) (hs : step config s a = some s') :
    s'.worker = .storeStopped := by
  cases a with
  | writer outcome =>
    cases outcome with
    | panic =>
      have hstep : writerStep s .panic s.worker = some s' := hs
      cases hw : s.worker with
      | write _ | flush _ | finalFlush _ =>
        rw [hw] at hstep
        cases hstep
        rfl
      | _ => simp [hw, writerStep] at hstep
    | _ => exact absurd trivial hpanic
  | _ => exact absurd trivial hpanic

/-- Once the writer has unwound the worker stops. -/
theorem leadsTo_stopped (hfair : FairToAll b) (hI : ∀ n, (b.state n).Watchful) :
    b.LeadsTo (fun s => s.worker = .storeStopped) fun s => s.stopped = true := by
  refine Behaviour.leadsTo_of_fair (fun _ => 0) ?_ (hfair .worker) Behaviour.admits_always hI
    (Behaviour.leadsTo_of_imp fun n hn => Or.inr ?_)
  · intro s a t hinv _ hw _ _ hs
    by_cases hturn : Party.worker.turn s a
    · obtain (hwork | ⟨outcome, hwriter⟩) | ⟨-, hholds⟩ := hturn
      · rw [hwork] at hs
        have hstep : workerStep s s.worker = some t := hs
        simp only [hw, workerStep] at hstep
        cases hstep
        exact Or.inl rfl
      · rw [hwriter] at hs
        have hstep : writerStep s outcome s.worker = some t := hs
        rw [hw] at hstep
        cases hstep
      · cases hw.symm.trans (hinv.ordered.inside.mp hholds)
    · have hparked : s.worker ≠ .parked := by rw [hw]; exact WorkerPc.noConfusion
      exact Or.inr ⟨(worker_kept hparked hturn hs).trans hw, le_refl _, fun h => absurd h hturn⟩
  · have hstop : ∃ t, workerStep (b.state n) (b.state n).worker = some t := by
      rw [hn]
      exact ⟨_, rfl⟩
    obtain ⟨t, ht⟩ := hstop
    exact ⟨.work, t, Or.inl (Or.inl rfl), ht⟩

/-- Unless the writer unwinds, everything requested is flushed, or the worker stops. -/
theorem flushedAll_later (hstart : b.state 0 = initial) (hfair : FairToAll b)
    (hsignal : b.Admits NotifiesInTime) (n : ℕ)
    (hquiet : ∀ m, n ≤ m → (b.state m).requestedFlush = (b.state n).requestedFlush) :
    ∃ m, n ≤ m ∧ (b.state m).FlushedAll := by
  by_cases hreturns : b.Admits Returns
  · have hattended : ∀ m, ((b.after n).state m).Attended (b.state n).requestedFlush := by
      intro m
      have hrun := b.reaches hreturns (n + m)
      have hheard := b.reaches hsignal (n + m)
      rw [hstart] at hrun hheard
      exact ⟨orderly_behaviour hstart (n + m), heard_of_reaches hheard,
        (delivers_of_reaches hrun).2.consecutive, hquiet (n + m) (Nat.le_add_right n m)⟩
    obtain ⟨m, -, hm⟩ := leadsTo_flushedAll (fun party => (hfair party).after n) hattended 0 trivial
    exact ⟨n + m, Nat.le_add_right n m, hm⟩
  · obtain ⟨k, a, ha, hpanic⟩ : ∃ k a, b.action k = some a ∧ ¬ Returns (b.state k) a := by
      by_contra hnone
      exact hreturns fun k a ha => Classical.byContradiction fun hnot => hnone ⟨k, a, ha, hnot⟩
    have hunwound := unwound_step hpanic (b.moves k a ha)
    obtain ⟨m, -, hstopped⟩ := leadsTo_stopped hfair (watchful_behaviour hstart) (k + 1) hunwound
    refine ⟨max n m, le_max_left n m, Or.inr ?_⟩
    exact Behaviour.stable Behaviour.admits_always (fun _ => trivial) (I := fun _ => True)
      (fun _ _ _ _ h _ hs => stopped_step hs h) hstopped (le_max_right n m)

/-- A record is accepted and its barrier waited for before the worker comes to it. -/
def waitThrough : List Action :=
  [.callEmit bareEvent, .stepEmit 0, .stepEmit 0, .stepQueue, .stepQueue, .stepQueue, .stepEmit 0,
    .callFlush, .stepFlush 0, .stepFlush 0, .stepFlush 0, .wait 0,
    .stepFlush 0, .stepFlush 0, .stepFlush 0, .stepFlush 0,
    .work, .stepQueue, .writer .ok, .work, .work, .work, .work, .writer .ok,
    .work, .work, .work, .work, .work, .work, .work, .stepQueue, .stepQueue, .stepQueue, .stepQueue,
    .stepFlush 0, .stepFlush 0, .stepFlush 0, .stepFlush 0]

end Logwise.AsyncSink
