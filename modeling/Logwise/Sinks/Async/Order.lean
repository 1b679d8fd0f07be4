import Logwise.Sinks.Async.Steps

/-!
# The order of records

Sequences are drawn and pushed under the queue mutex, so the queue is sorted; the worker takes
from the front, so what it has handled lies below everything still queued, what it has written
lies at or below what it has handled, and what it has flushed lies at or below that.
-/

namespace Logwise.AsyncSink

variable {config : Config} {s s' : State}

structure Core.Ordered (c : Core) : Prop where
  sorted : c.events.Pairwise fun a b => a.sequence < b.sequence
  above : ∀ e ∈ c.events, c.handled < e.sequence ∧ e.sequence ≤ c.nextSequence
  handled_le : c.handled ≤ c.nextSequence
  processed_le : c.processedSequence ≤ c.handled
  flushed_le : c.flushedSequence ≤ c.processedSequence
  log_le : ∀ sequence ok, .write sequence ok ∈ c.log → sequence ≤ c.written
  push : ∀ i owned sequence, c.queueSection = .emitPush i owned sequence →
    sequence = c.nextSequence ∧ c.handled < sequence ∧ ∀ e ∈ c.events, e.sequence < sequence
  inside : c.queueSection.ofWorker = true ↔ c.worker = .inside
  carried : ∀ processed, c.worker.carried = some processed → processed = c.processedSequence

/-- From `c` to `c'` the queue and the counters stay, no write is logged, and what the worker has
handled and written stays. -/
structure Core.SameOrder (c c' : Core) : Prop where
  events : c'.events = c.events
  nextSequence : c'.nextSequence = c.nextSequence
  processedSequence : c'.processedSequence = c.processedSequence
  flushedSequence : c'.flushedSequence = c.flushedSequence
  writes : ∀ sequence ok, .write sequence ok ∈ c'.log → .write sequence ok ∈ c.log
  handled : c'.handled = c.handled
  written : c'.written = c.written

theorem Core.Ordered.congr {c c' : Core} (h : c.Ordered) (same : c.SameOrder c')
    (push : ∀ i owned sequence, c'.queueSection = .emitPush i owned sequence →
      c.queueSection = .emitPush i owned sequence)
    (inside : c'.queueSection.ofWorker = true ↔ c'.worker = .inside)
    (carried : ∀ processed, c'.worker.carried = some processed → processed = c.processedSequence) :
    c'.Ordered where
  sorted := same.events ▸ h.sorted
  above := by
    rw [same.events, same.handled, same.nextSequence]
    exact h.above
  handled_le := by
    rw [same.handled, same.nextSequence]
    exact h.handled_le
  processed_le := by
    rw [same.handled, same.processedSequence]
    exact h.processed_le
  flushed_le := by
    rw [same.flushedSequence, same.processedSequence]
    exact h.flushed_le
  log_le := by
    rw [same.written]
    exact fun sequence ok hm => h.log_le sequence ok (same.writes sequence ok hm)
  push := by
    rw [same.events, same.handled, same.nextSequence]
    exact fun i owned sequence hq => h.push i owned sequence (push i owned sequence hq)
  inside := inside
  carried := by
    rw [same.processedSequence]
    exact carried

theorem ordered_initial : initial.toCore.Ordered := by
  constructor <;> simp [initial, Core.handled, Core.written, QueueSection.ofWorker,
    WorkerPc.carried]

/-- Waking the worker changes nothing about the order. -/
theorem Core.Ordered.wake {c : Core} (h : c.Ordered) :
    ({ c with worker := wakeWorker c.worker } : Core).Ordered := by
  obtain he | ⟨hp, he⟩ := wakeWorker_eq c.worker
  · rw [he]
    exact h
  · rw [he]
    refine h.congr ⟨rfl, rfl, rfl, rfl, fun _ _ hm => hm, ?_, ?_⟩ (fun _ _ _ hq => hq) ?_ ?_
    · simp [Core.handled, hp]
    · simp [Core.written, hp]
    · have hin := h.inside
      simpa [hp] using hin
    · intro processed hc
      cases hc

/-- A call of `emit` enters the free queue. -/
theorem Core.Ordered.enter {c : Core} (h : c.Ordered) (hfree : c.queueSection = .free) (i : ℕ)
    (owned : OwnedProjectedEvent) :
    ({ c with queueSection := .emitTest i owned } : Core).Ordered := by
  refine h.congr ⟨rfl, rfl, rfl, rfl, fun _ _ hm => hm, rfl, rfl⟩ (fun _ _ _ hq => by cases hq) ?_ h.carried
  have hin := h.inside
  simpa [hfree, QueueSection.ofWorker] using hin

/-- A holder of the queue that touches no cell moves on, or leaves. -/
theorem Core.Ordered.moveQueue {c : Core} (h : c.Ordered) {q : QueueSection}
    (hsame : q.ofWorker = c.queueSection.ofWorker)
    (hpush : ∀ i owned sequence, q ≠ .emitPush i owned sequence) :
    ({ c with queueSection := q } : Core).Ordered := by
  refine h.congr ⟨rfl, rfl, rfl, rfl, fun _ _ hm => hm, rfl, rfl⟩ ?_ ?_ h.carried
  · intro i owned sequence hq
    exact absurd hq (hpush i owned sequence)
  · rw [hsame]
    exact h.inside

/-- The oldest record makes room for the next. -/
theorem Core.Ordered.overwrite {c : Core} (h : c.Ordered) {i : ℕ} {owned : OwnedProjectedEvent}
    (hq : c.queueSection.ofWorker = false) :
    ({ c with queueSection := .emitSequence i owned, events := c.events.tail } : Core).Ordered where
  sorted := h.sorted.sublist (List.tail_sublist _)
  above e he := h.above e (List.mem_of_mem_tail he)
  handled_le := h.handled_le
  processed_le := h.processed_le
  flushed_le := h.flushed_le
  log_le := h.log_le
  push _ _ _ hp := by cases hp
  inside := by
    have hin := h.inside
    rw [hq] at hin
    exact hin
  carried := h.carried

/-- A sequence is drawn above everything queued. -/
theorem Core.Ordered.draw {c : Core} (h : c.Ordered) {i : ℕ} {owned : OwnedProjectedEvent}
    (hq : c.queueSection.ofWorker = false) :
    ({ c with queueSection := .emitPush i owned (c.nextSequence + 1)
              nextSequence := c.nextSequence + 1 } : Core).Ordered where
  sorted := h.sorted
  above e he := ⟨(h.above e he).1, Nat.le_succ_of_le (h.above e he).2⟩
  handled_le := Nat.le_succ_of_le h.handled_le
  processed_le := h.processed_le
  flushed_le := h.flushed_le
  log_le := h.log_le
  push j owned' sequence hp := by
    cases hp
    exact ⟨rfl, Nat.lt_succ_of_le h.handled_le, fun e he => Nat.lt_succ_of_le (h.above e he).2⟩
  inside := by
    have hin := h.inside
    rw [hq] at hin
    exact hin
  carried := h.carried

/-- The record drawn last is pushed at the back. -/
theorem Core.Ordered.pushBack {c : Core} (h : c.Ordered) {i sequence : ℕ}
    {owned : OwnedProjectedEvent} (hq : c.queueSection = .emitPush i owned sequence) :
    ({ c with queueSection := .free
              events := c.events ++ [{ sequence := sequence, event := owned }] } : Core).Ordered := by
  obtain ⟨hseq, hhandled, hall⟩ := h.push i owned sequence hq
  constructor
  · refine List.pairwise_append.mpr ⟨h.sorted, List.pairwise_singleton _ _, ?_⟩
    intro a ha b hb
    rw [List.mem_singleton.mp hb]
    exact hall a ha
  · intro e he
    obtain hold | hnew := List.mem_append.mp he
    · exact h.above e hold
    · rw [List.mem_singleton.mp hnew]
      exact ⟨hhandled, hseq.le⟩
  · exact h.handled_le
  · exact h.processed_le
  · exact h.flushed_le
  · exact h.log_le
  · intro j owned' sequence' hp
    cases hp
  · have hin := h.inside
    simpa [hq, QueueSection.ofWorker] using hin
  · exact h.carried

/-- The worker takes the front: everything left lies above it. -/
theorem Core.Ordered.pop {c : Core} (h : c.Ordered) (hin : c.worker = .inside)
    {queued : QueuedEvent} {events : List QueuedEvent} (he : c.events = queued :: events) :
    ({ c with queueSection := .free, events := events, worker := .write queued } : Core).Ordered := by
  have hhandled : c.handled = c.processedSequence := by rw [Core.handled, hin]
  have hfront := h.above queued (he ▸ List.mem_cons_self ..)
  have hsorted := h.sorted
  rw [he, List.pairwise_cons] at hsorted
  constructor
  · exact hsorted.2
  · intro e hmem
    exact ⟨hsorted.1 e hmem, (h.above e (he ▸ List.mem_cons_of_mem _ hmem)).2⟩
  · exact hfront.2
  · exact (hhandled ▸ hfront.1).le
  · exact h.flushed_le
  · intro sequence ok hmem
    have hle := h.log_le sequence ok hmem
    simpa [Core.written, hin] using hle
  · intro i owned sequence hp
    cases hp
  · exact ⟨fun hp => (by cases hp), fun hp => (by cases hp)⟩
  · intro processed hp
    cases hp

theorem ordered_queueStep (h : s.Ordered) (hs : queueStep config s s.queueSection = some s') :
    s'.Ordered := by
  cases hq : s.queueSection with
  | free => simp [hq, queueStep] at hs
  | emitTest i owned =>
    have hfalse : s.queueSection.ofWorker = false := by rw [hq]; rfl
    simp only [hq, queueStep] at hs
    split at hs
    · split at hs
      · cases hs
        exact h.moveQueue hfalse.symm (fun _ _ _ hp => by cases hp)
      · cases hs
        exact h.moveQueue hfalse.symm (fun _ _ _ hp => by cases hp)
    · cases hs
      exact h.moveQueue hfalse.symm (fun _ _ _ hp => by cases hp)
  | emitLoadRequested i owned =>
    have hfalse : s.queueSection.ofWorker = false := by rw [hq]; rfl
    simp only [hq, queueStep] at hs
    cases hs
    exact h.moveQueue hfalse.symm (fun _ _ _ hp => by cases hp)
  | emitLoadFlushed i owned requested =>
    have hfalse : s.queueSection.ofWorker = false := by rw [hq]; rfl
    simp only [hq, queueStep] at hs
    split at hs
    · cases hs
      exact h.moveQueue hfalse.symm (fun _ _ _ hp => by cases hp)
    · cases hs
      exact h.overwrite hfalse
  | emitSequence i owned =>
    simp only [hq, queueStep] at hs
    cases hs
    exact h.draw (by rw [hq]; rfl)
  | emitPush i owned sequence =>
    simp only [hq, queueStep] at hs
    cases hs
    exact h.pushBack hq
  | workerPop =>
    have hin : s.worker = .inside := h.inside.mp (by rw [hq]; rfl)
    simp only [hq, queueStep] at hs
    split at hs
    next queued events he =>
      cases hs
      exact h.pop hin he
    next =>
      cases hs
      exact h.moveQueue (by rw [hq]; rfl) (fun _ _ _ hp => by cases hp)
  | workerLoadRequested =>
    simp only [hq, queueStep] at hs
    cases hs
    exact h.moveQueue (by rw [hq]; rfl) (fun _ _ _ hp => by cases hp)
  | workerLoadFlushed requested =>
    simp only [hq, queueStep] at hs
    cases hs
    exact h.moveQueue (by rw [hq]; rfl) (fun _ _ _ hp => by cases hp)
  | workerTest requested flushed =>
    have hin : s.worker = .inside := h.inside.mp (by rw [hq]; rfl)
    simp only [hq, queueStep] at hs
    split at hs
    all_goals
      cases hs
      refine h.congr ⟨rfl, rfl, rfl, rfl, fun _ _ hm => hm, ?_, ?_⟩ (fun _ _ _ hp => by cases hp) ?_ ?_
      · simp [Core.handled, hin]
      · simp [Core.written, hin]
      · exact ⟨fun hp => (by cases hp), fun hp => (by cases hp)⟩
      · intro processed hp
        cases hp

theorem flushed_le_of_workerStep (h : s.Ordered) (hs : workerStep s s.worker = some s') :
    s.flushedSequence ≤ s'.flushedSequence := by
  obtain he | hc := (workerStep_frame hs).flushed
  · exact he.ge
  · rw [h.carried _ hc]
    exact h.flushed_le

theorem ordered_workerStep (h : s.Ordered) (hs : workerStep s s.worker = some s') :
    s'.Ordered := by
  have frame := workerStep_frame hs
  have hprocessed : s.processedSequence ≤ s'.processedSequence := by
    obtain he | ⟨he, -⟩ := frame.processed
    · exact he.ge
    · exact he ▸ h.processed_le
  constructor
  · exact frame.events ▸ h.sorted
  · rw [frame.events, frame.handled, frame.nextSequence]
    exact h.above
  · rw [frame.handled, frame.nextSequence]
    exact h.handled_le
  · rw [frame.handled]
    obtain he | ⟨he, -⟩ := frame.processed
    · exact he ▸ h.processed_le
    · exact he.le
  · obtain he | hc := frame.flushed
    · exact he ▸ h.flushed_le.trans hprocessed
    · exact (h.carried _ hc).le.trans hprocessed
  · rw [frame.log, frame.written]
    exact h.log_le
  · intro i owned sequence hq
    obtain ⟨he, -, -⟩ | ⟨-, he, -⟩ := frame.queue
    · rw [frame.events, frame.handled, frame.nextSequence]
      exact h.push i owned sequence (he ▸ hq)
    · rw [he] at hq
      cases hq
  · obtain ⟨he, hout, hout'⟩ | ⟨-, he, hin⟩ := frame.queue
    · rw [he, h.inside]
      exact iff_of_false hout hout'
    · rw [he, hin]
      exact iff_of_true rfl rfl
  · intro p hc
    obtain he | ⟨-, hnone⟩ := frame.processed
    · rw [he]
      obtain hold | hnew := frame.carried p hc
      · exact h.carried p hold
      · exact hnew
    · rw [hnone] at hc
      cases hc

/-- A call of the writer: a returned write is logged for the record it was made for, a panic
leaves that record unaccounted for. -/
theorem ordered_writerStep {outcome : Outcome} (h : s.Ordered)
    (hs : writerStep s outcome s.worker = some s') : s'.Ordered := by
  have hlog := h.log_le
  cases hw : s.worker with
  | write queued =>
    -- the call is logged at the sequence the worker holds
    have hhandled : s.handled = queued.sequence := by rw [Core.handled, hw]
    have hwritten : s.written = s.processedSequence := by rw [Core.written, hw]
    have hcall : ∀ (call : WriterCall) (sequence : ℕ) (ok : Bool),
        (∃ b, call = .write queued.sequence b) → .write sequence ok ∈ call :: s.log →
          sequence ≤ queued.sequence := by
      rintro call sequence ok ⟨b, rfl⟩ hm
      obtain he | hm' := List.mem_cons.mp hm
      · cases he
        exact le_rfl
      · exact (hwritten ▸ hlog sequence ok hm').trans (hhandled ▸ h.processed_le)
    rw [hw] at hs
    cases outcome with
    | ok =>
      cases hs
      exact ⟨h.sorted, hhandled ▸ h.above, hhandled ▸ h.handled_le, hhandled ▸ h.processed_le,
        h.flushed_le, fun sequence ok hm => hcall _ sequence ok ⟨true, rfl⟩ hm,
        hhandled ▸ h.push, by simpa [hw] using h.inside, fun p hp => by cases hp⟩
    | err error =>
      cases hs
      exact ⟨h.sorted, hhandled ▸ h.above, hhandled ▸ h.handled_le, hhandled ▸ h.processed_le,
        h.flushed_le, fun sequence ok hm => hcall _ sequence ok ⟨false, rfl⟩ hm,
        hhandled ▸ h.push, by simpa [hw] using h.inside, fun p hp => by cases hp⟩
    | panic =>
      -- the record is lost, and what is handled falls back to what was processed
      cases hs
      have hle := h.processed_le
      refine ⟨h.sorted, fun e he => ⟨hle.trans_lt (h.above e he).1, (h.above e he).2⟩,
        hle.trans h.handled_le, le_rfl, h.flushed_le,
        fun sequence ok hm => hwritten ▸ hlog sequence ok hm, ?_, by simpa [hw] using h.inside,
        fun p hp => by cases hp⟩
      intro i owned sequence hq
      obtain ⟨hseq, hlt, hall⟩ := h.push i owned sequence hq
      exact ⟨hseq, hle.trans_lt hlt, hall⟩
  | flush processed =>
    have hp := h.carried processed (by rw [hw]; rfl)
    rw [hw] at hs
    cases outcome <;> cases hs <;>
      refine h.congr ⟨rfl, rfl, rfl, rfl, by simp, ?_, ?_⟩ (fun _ _ _ hq => hq) ?_ ?_
    all_goals first
      | (simp [Core.handled, Core.written, hw]; done)
      | simpa [hw] using h.inside
      | (intro p hc; cases hc; exact hp)
      | (intro p hc; cases hc)
  | finalFlush processed =>
    have hp := h.carried processed (by rw [hw]; rfl)
    rw [hw] at hs
    cases outcome <;> cases hs <;>
      refine h.congr ⟨rfl, rfl, rfl, rfl, by simp, ?_, ?_⟩ (fun _ _ _ hq => hq) ?_ ?_
    all_goals first
      | (simp [Core.handled, Core.written, hw]; done)
      | simpa [hw] using h.inside
      | (intro p hc; cases hc; exact hp)
      | (intro p hc; cases hc)
  | _ => simp [hw, writerStep] at hs

/-- Cells outside the order may change freely. -/
theorem Core.Ordered.reset {c : Core} (h : c.Ordered) (shutdown : Bool) (requestedFlush : ℕ)
    (drop : DropPc) :
    ({ c with shutdown := shutdown, requestedFlush := requestedFlush, drop := drop } :
      Core).Ordered :=
  h.congr ⟨rfl, rfl, rfl, rfl, fun _ _ hm => hm, rfl, rfl⟩ (fun _ _ _ hq => hq) h.inside h.carried

/-- **The order of records** is kept by every step. -/
theorem ordered_step {a : Action} (h : s.Ordered) (hs : step config s a = some s') :
    s'.Ordered := by
  cases moves_of_step hs with
  | callEmit event halive => exact h
  | emitAside a i old pc stats ha hi hold hpc => exact h
  | emitEnter i owned hi hfree => exact h.enter hfree i owned
  | emitNotify i hi => exact h.wake
  | callFlush halive => exact h
  | capture f call hf hpc hfree => exact h
  | publish f call hf hpc => exact h.reset _ _ _
  | flushNotify f call hf hpc => exact h.wake
  | barrier a f call pc owner wakers hf hout hstep => exact h
  | dropHandles halive hquiet => exact h.reset _ _ _
  | dropLock hdrop hfree => exact h.reset _ _ _
  | dropLoad hdrop => exact h.reset _ _ _
  | dropStore next hdrop => exact h.reset _ _ _
  | dropNotify hdrop => exact (h.reset s.shutdown s.requestedFlush .join).wake
  | dropJoin hdrop hworker => exact h.reset _ _ _
  | queue s' hq => exact ordered_queueStep h hq
  | work s' hw => exact ordered_workerStep h hw
  | writer outcome s' hw => exact ordered_writerStep h hw
  | spurious hparked => exact h.wake

/-- `flushed_sequence` only grows. -/
theorem flushed_le_of_step {a : Action} (h : s.Ordered) (hs : step config s a = some s') :
    s.flushedSequence ≤ s'.flushedSequence := by
  cases moves_of_step hs with
  | queue s' hq => exact (queueStep_frame hq).flushedSequence.ge
  | work s' hw => exact flushed_le_of_workerStep h hw
  | writer outcome s' hw => exact (writerStep_frame hw).flushedSequence.ge
  | _ => exact le_rfl

/-- The record in the worker's hands is not counted as processed yet. -/
def Core.Fresh (c : Core) : Prop :=
  ∀ sequence, c.worker.record = some sequence → c.processedSequence < sequence

theorem fresh_initial : initial.Fresh := by
  intro sequence h
  cases h

theorem Core.Fresh.wake {c : Core} (h : c.Fresh) :
    ({ c with worker := wakeWorker c.worker } : Core).Fresh := by
  obtain he | ⟨-, he⟩ := wakeWorker_eq c.worker
  · rw [he]
    exact h
  · rw [he]
    exact fun sequence hr => by cases hr

theorem fresh_step {a : Action} (ho : s.Ordered) (h : s.Fresh) (hs : step config s a = some s') :
    s'.Fresh := by
  cases moves_of_step hs with
  | emitNotify i hi => exact h.wake
  | flushNotify f call hf hpc => exact h.wake
  | dropNotify hdrop => exact h.wake
  | spurious hparked => exact h.wake
  | queue s' hq =>
    have frame := queueStep_frame hq
    intro sequence hr
    rw [frame.processedSequence]
    obtain he | ⟨-, he | he | ⟨queued, hm, he⟩⟩ := frame.worker
    · exact h sequence (he ▸ hr)
    · rw [he] at hr
      cases hr
    · rw [he] at hr
      cases hr
    · rw [he] at hr
      cases hr
      exact ho.processed_le.trans_lt (ho.above queued hm).1
  | work s' hw =>
    intro sequence hr
    obtain ⟨hold, hsame⟩ := (workerStep_frame hw).record sequence hr
    exact hsame ▸ h sequence hold
  | writer outcome s' hw =>
    have frame := writerStep_frame hw
    intro sequence hr
    exact frame.processedSequence ▸ h sequence (frame.record sequence hr)
  | _ => exact h

end Logwise.AsyncSink
