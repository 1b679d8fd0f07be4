import Logwise.Sinks.Async.Calls

/-!
# Does a barrier keep what was queued?

A flush reads its target and, under the same lock, sees the queue; it publishes the target after
it has released the lock. An overwriting `emit` that reads `requested_flush` in between takes the
oldest record from under the barrier.
-/

namespace Logwise.AsyncSink

variable {config : Config} {s s' : State}

def QueueSection.loadsRequested : QueueSection → Bool
  | .emitLoadRequested _ _ => true
  | _ => false

/-- An overwriting `emit` does not read `requested_flush` while a flush has read a target that
covers the oldest record and has not published it. The writer does not panic. -/
def Protects (s : State) : Action → Prop
  | .stepQueue => s.queueSection.loadsRequested = true → ∀ front ∈ s.events.head?,
      ∀ call ∈ s.flushes, call.pc = .publish → front.sequence ≤ call.target →
        front.sequence ≤ s.requestedFlush
  | .writer .panic => False
  | _ => True

instance : ∀ (s : State) (a : Action), Decidable (Protects s a)
  | s, .stepQueue => inferInstanceAs (Decidable (s.queueSection.loadsRequested = true → _))
  | _, .writer .panic => .isFalse id
  | _, .writer .ok | _, .writer (.err _) | _, .callEmit _ | _, .stepEmit _ | _, .refuseEmit _
  | _, .callFlush | _, .stepFlush _ | _, .wait _ | _, .poll _ _ | _, .dropHandles | _, .stepDrop | _, .work
  | _, .spuriousWork | _, .spuriousProgress _ => .isTrue trivial

/-- The record has been handed to the writer, or is on its way there. -/
def Core.Keeps (c : Core) (sequence : ℕ) : Prop :=
  (∃ ok, .write sequence ok ∈ c.log) ∨ (∃ e ∈ c.events, e.sequence = sequence) ∨
    ∃ queued, c.worker = .write queued ∧ queued.sequence = sequence

/-- What every flush may rely on. -/
structure State.Protected (s : State) : Prop where
  asking : ∀ call ∈ s.flushes, call.pc = .lockQueue → call.target = 0
  captured : ∀ call ∈ s.flushes, ∀ sequence ∈ call.captured,
    sequence ≤ call.target ∧ s.Keeps sequence
  loaded : ∀ i owned requested, s.queueSection = .emitLoadFlushed i owned requested →
    ∀ front ∈ s.events.head?, ∀ call ∈ s.flushes, front.sequence ≤ call.target →
      front.sequence ≤ requested

theorem protected_initial : initial.Protected := by
  constructor <;> simp [initial]

/-- Under an overwriting `emit` that goes by `requested`, no barrier covers the front. -/
theorem State.Protected.front_above (ho : s.Ordered) (h : s.Protected) {i : ℕ}
    {owned : OwnedProjectedEvent} {requested : ℕ}
    (hq : s.queueSection = .emitLoadFlushed i owned requested)
    (hover : ¬ (s.flushedSequence < requested ∧
      s.events.head?.any fun front => front.sequence ≤ requested)) :
    ∀ front ∈ s.events.head?, ∀ call ∈ s.flushes, call.target < front.sequence := by
  intro front hfront call hc
  by_contra hle
  have hreq : front.sequence ≤ requested :=
    h.loaded i owned requested hq front hfront call hc (not_lt.mp hle)
  refine hover ⟨?_, ?_⟩
  · have habove := (ho.above front (List.mem_of_mem_head? hfront)).1
    exact (ho.flushed_le.trans ho.processed_le).trans_lt (habove.trans_le hreq)
  · rw [Option.mem_def.mp hfront]
    exact decide_eq_true hreq

/-- A flush without a target covers nothing that is queued. -/
theorem Core.Ordered.zero_lt {c : Core} (ho : c.Ordered) {front : QueuedEvent}
    (hfront : front ∈ c.events.head?) : 0 < front.sequence :=
  Nat.zero_lt_of_lt (ho.above front (List.mem_of_mem_head? hfront)).1

theorem Core.Keeps.congr {c c' : Core} {sequence : ℕ} (h : c.Keeps sequence)
    (hlog : c'.log = c.log) (hevents : ∀ e ∈ c.events, e.sequence = sequence → e ∈ c'.events)
    (hworker : ∀ queued, c.worker = .write queued → c'.worker = .write queued) :
    c'.Keeps sequence := by
  obtain hm | ⟨e, he, hseq⟩ | ⟨queued, hw, hseq⟩ := h
  · exact Or.inl (hlog ▸ hm)
  · exact Or.inr (Or.inl ⟨e, hevents e he hseq, hseq⟩)
  · exact Or.inr (Or.inr ⟨queued, hworker queued hw, hseq⟩)

theorem Core.Keeps.wake {c c' : Core} {sequence : ℕ} (h : c.Keeps sequence)
    (hlog : c'.log = c.log) (hevents : c'.events = c.events)
    (hworker : c'.worker = wakeWorker c.worker) : c'.Keeps sequence := by
  refine h.congr hlog (fun e he _ => hevents ▸ he) ?_
  intro queued hw
  rw [hworker, hw]
  rfl

/-- The holder of the queue takes no record that a barrier covers, except to write it. -/
theorem keeps_queueStep (ho : s.Ordered) (h : s.Protected) {call : FlushCall}
    (hc : call ∈ s.flushes) {sequence : ℕ} (hle : sequence ≤ call.target)
    (hkept : s.Keeps sequence) (hs : queueStep config s s.queueSection = some s') :
    s'.Keeps sequence := by
  cases hq : s.queueSection with
  | free => simp [hq, queueStep] at hs
  | emitTest i owned =>
    simp only [hq, queueStep] at hs
    split at hs
    · split at hs
      all_goals
        cases hs
        exact hkept
    · cases hs
      exact hkept
  | emitLoadRequested i owned =>
    simp only [hq, queueStep] at hs
    cases hs
    exact hkept
  | emitLoadFlushed i owned requested =>
    simp only [hq, queueStep] at hs
    split at hs
    next =>
      cases hs
      exact hkept
    next hover =>
      have habove := h.front_above ho hq hover
      cases hs
      refine hkept.congr rfl (fun e he hseq => ?_) fun _ hw => hw
      -- the record that goes is the front, and it lies above every target
      cases hev : s.events with
      | nil =>
        rw [hev] at he
        cases he
      | cons front rest =>
        have hlt := habove front (by rw [hev]; rfl) call hc
        rw [hev] at he
        obtain rfl | hrest := List.mem_cons.mp he
        · exact absurd (hseq ▸ hle) (not_le.mpr hlt)
        · exact hrest
  | emitSequence i owned =>
    simp only [hq, queueStep] at hs
    cases hs
    exact hkept
  | emitPush i owned pushed =>
    simp only [hq, queueStep] at hs
    cases hs
    exact hkept.congr rfl (fun e he _ => List.mem_append_left _ he) fun _ hw => hw
  | workerPop =>
    -- a popped record is in the worker's hands
    have hin : s.worker = .inside := ho.inside.mp (by rw [hq]; rfl)
    simp only [hq, queueStep] at hs
    split at hs
    next queued events hev =>
      cases hs
      obtain hlog | ⟨e, he, rfl⟩ | ⟨queued', hw, -⟩ := hkept
      · exact Or.inl hlog
      · rw [hev] at he
        obtain rfl | hrest := List.mem_cons.mp he
        · exact Or.inr (Or.inr ⟨e, rfl, rfl⟩)
        · exact Or.inr (Or.inl ⟨e, hrest, rfl⟩)
      · rw [hin] at hw
        cases hw
    next =>
      cases hs
      exact hkept
  | workerLoadRequested =>
    simp only [hq, queueStep] at hs
    cases hs
    exact hkept
  | workerLoadFlushed requested =>
    simp only [hq, queueStep] at hs
    cases hs
    exact hkept
  | workerTest requested flushed =>
    have hin : s.worker = .inside := ho.inside.mp (by rw [hq]; rfl)
    simp only [hq, queueStep] at hs
    split at hs
    all_goals
      cases hs
      refine hkept.congr rfl (fun _ he _ => he) fun queued hw => ?_
      rw [hin] at hw
      cases hw

/-- The record the worker holds reaches the log, unless the writer panics. -/
theorem keeps_writerStep {outcome : Outcome} (hpanic : outcome ≠ .panic) {sequence : ℕ}
    (hkept : s.Keeps sequence) (hs : writerStep s outcome s.worker = some s') :
    s'.Keeps sequence := by
  have hevents : s'.events = s.events := (writerStep_frame hs).events
  obtain ⟨entry, hlog, hentry⟩ : ∃ entry, s'.log = entry :: s.log ∧
      ∀ queued, s.worker = .write queued → ∃ ok, entry = .write queued.sequence ok := by
    cases hw : s.worker with
    | write queued =>
      rw [hw] at hs
      cases outcome with
      | ok =>
        cases hs
        exact ⟨_, rfl, fun _ hw' => WorkerPc.write.inj hw' ▸ ⟨true, rfl⟩⟩
      | err error =>
        cases hs
        exact ⟨_, rfl, fun _ hw' => WorkerPc.write.inj hw' ▸ ⟨false, rfl⟩⟩
      | panic => exact absurd rfl hpanic
    | flush _ | finalFlush _ =>
      rw [hw] at hs
      cases outcome with
      | panic => exact absurd rfl hpanic
      | ok | err error =>
        cases hs
        exact ⟨_, rfl, fun _ hw' => by cases hw'⟩
    | _ => simp [hw, writerStep] at hs
  obtain ⟨ok, hm⟩ | hev | ⟨queued, hw, rfl⟩ := hkept
  · exact Or.inl ⟨ok, hlog ▸ List.mem_cons_of_mem _ hm⟩
  · exact Or.inr (Or.inl (hevents ▸ hev))
  · obtain ⟨ok, rfl⟩ := hentry queued hw
    exact Or.inl ⟨ok, hlog ▸ List.mem_cons_self ..⟩

/-- No step loses a record that a barrier covers. -/
theorem keeps_step {a : Action} (ho : s.Ordered) (h : s.Protected) (hok : Protects s a)
    (hs : step config s a = some s') {call : FlushCall} (hc : call ∈ s.flushes) {sequence : ℕ}
    (hle : sequence ≤ call.target) (hkept : s.Keeps sequence) : s'.Keeps sequence := by
  cases moves_of_step hs with
  | emitNotify i hi => exact hkept.wake rfl rfl rfl
  | flushNotify f call hf hpc => exact hkept.wake rfl rfl rfl
  | dropNotify hdrop => exact hkept.wake rfl rfl rfl
  | spurious hparked => exact hkept.wake rfl rfl rfl
  | queue s' hq => exact keeps_queueStep ho h hc hle hkept hq
  | work s' hw =>
    have frame := workerStep_frame hw
    refine hkept.congr frame.log (fun e he _ => frame.events.symm ▸ he) ?_
    exact fun queued hwrite => absurd hwrite (frame.outside queued).1
  | writer outcome s' hw =>
    refine keeps_writerStep ?_ hkept hw
    rintro rfl
    exact hok
  | _ => exact hkept

/-- What an `emit` has read covers the front, if any target does. -/
theorem loaded_queueStep (ho : s.Ordered) (hcalls : s.Calls) (h : s.Protected)
    (hok : Protects s .stepQueue) (hs : queueStep config s s.queueSection = some s') :
    ∀ i owned requested, s'.queueSection = .emitLoadFlushed i owned requested →
      ∀ front ∈ s'.events.head?, ∀ call ∈ s'.flushes, front.sequence ≤ call.target →
        front.sequence ≤ requested := by
  intro i owned requested hq'
  have hload : s.queueSection = .emitLoadRequested i owned ∧ requested = s.requestedFlush ∧
      s'.events = s.events := by
    cases hq : s.queueSection <;> simp only [hq, queueStep, reduceCtorEq] at hs <;>
      (try (split at hs <;> try split at hs)) <;> cases hs <;> cases hq'
    exact ⟨rfl, rfl, rfl⟩
  obtain ⟨hq, rfl, hevents⟩ := hload
  rw [hevents, (queueStep_frame hs).flushes]
  intro front hfront call hc hle
  -- the target is published, or the guard speaks of it, or it is not read yet
  by_cases hpublish : call.pc = .publish
  · exact hok (by rw [hq]; rfl) front hfront call hc hpublish hle
  · by_cases hlock : call.pc = .lockQueue
    · rw [h.asking call hc hlock] at hle
      exact absurd hle (not_le.mpr (ho.zero_lt hfront))
    · exact hle.trans (hcalls.published call hc hlock hpublish)

/-- While an `emit` goes by what it has read, the front stays and no flush reads a new target. -/
theorem loaded_step {a : Action} (ho : s.Ordered) (hcalls : s.Calls) (h : s.Protected)
    (hok : Protects s a) (hs : step config s a = some s') :
    ∀ i owned requested, s'.queueSection = .emitLoadFlushed i owned requested →
      ∀ front ∈ s'.events.head?, ∀ call ∈ s'.flushes, front.sequence ≤ call.target →
        front.sequence ≤ requested := by
  have hset : ∀ {f : ℕ} {old : FlushCall} {pc : FlushPc}, s.flushes[f]? = some old →
      ∀ i owned requested, s.queueSection = .emitLoadFlushed i owned requested →
        ∀ front ∈ s.events.head?, ∀ call ∈ s.flushes.set f { old with pc := pc },
          front.sequence ≤ call.target → front.sequence ≤ requested := by
    intro f old pc hf i owned requested hq front hfront call hc hle
    obtain hm | rfl := List.mem_or_eq_of_mem_set hc
    · exact h.loaded i owned requested hq front hfront call hm hle
    · exact h.loaded i owned requested hq front hfront old (List.mem_of_getElem? hf) hle
  cases moves_of_step hs with
  | emitEnter i owned hi hfree => exact fun _ _ _ hq => by cases hq
  | callFlush halive =>
    intro i owned requested hq front hfront call hc hle
    obtain hm | hnew := List.mem_append.mp hc
    · exact h.loaded i owned requested hq front hfront call hm hle
    · rw [List.mem_singleton.mp hnew] at hle
      exact absurd hle (not_le.mpr (ho.zero_lt hfront))
  | capture f call hf hpc hfree =>
    rw [hfree]
    exact fun _ _ _ hq => by cases hq
  | publish f call hf hpc => exact hset hf
  | flushNotify f call hf hpc => exact hset hf
  | barrier a f call pc owner wakers hf hout hstep => exact hset hf
  | queue s' hq => exact loaded_queueStep ho hcalls h hok hq
  | work s' hw =>
    have frame := workerStep_frame hw
    intro i owned requested hq front hfront call hc hle
    obtain ⟨he, -, -⟩ | ⟨-, he, -⟩ := frame.queue
    · rw [frame.events] at hfront
      have hold := h.loaded i owned requested (he ▸ hq) front hfront
      obtain he | he := frame.flushes
      · exact hold call (he ▸ hc) hle
      · obtain ⟨old, hm, rfl⟩ := List.mem_map.mp (he ▸ hc)
        exact hold old hm (wakeWaiter_target old ▸ hle)
    · rw [he] at hq
      cases hq
  | writer outcome s' hw =>
    have frame := writerStep_frame hw
    rw [frame.queueSection, frame.events, frame.flushes]
    exact h.loaded
  | _ => exact h.loaded

theorem protected_step {a : Action} (ho : s.Ordered) (hcalls : s.Calls) (h : s.Protected)
    (hok : Protects s a) (hs : step config s a = some s') : s'.Protected where
  asking call hc hp := by
    obtain ⟨old, hm, cont⟩ | ⟨-, rfl | ⟨rfl, -⟩⟩ := flushes_of_step hcalls hs call hc
    · exact cont.target ▸ h.asking old hm (cont.asking hp)
    · rfl
    · cases hp
  captured call hc sequence hq := by
    obtain ⟨old, hm, cont⟩ | ⟨-, rfl | ⟨rfl, hsame⟩⟩ := flushes_of_step hcalls hs call hc
    · obtain ⟨hle, hkept⟩ := h.captured old hm sequence (cont.captured ▸ hq)
      exact ⟨cont.target ▸ hle, keeps_step ho h hok hs hm hle hkept⟩
    · cases hq
    · obtain ⟨e, he, rfl⟩ := List.mem_map.mp hq
      refine ⟨(ho.above e he).2, ?_⟩
      rw [hsame]
      exact Or.inr (Or.inl ⟨e, he, rfl⟩)
  loaded := loaded_step ho hcalls h hok hs

/-- What a flushed barrier covers has left the queue and the worker's hands. -/
theorem Core.Keeps.written (ho : s.Ordered) (hfresh : s.Fresh) {sequence : ℕ}
    (hle : sequence ≤ s.flushedSequence) (hkept : s.Keeps sequence) :
    ∃ ok, .write sequence ok ∈ s.log := by
  have hprocessed := hle.trans ho.flushed_le
  obtain hlog | ⟨e, he, rfl⟩ | ⟨queued, hw, rfl⟩ := hkept
  · exact hlog
  · have habove := (ho.above e he).1
    exact absurd (hprocessed.trans ho.processed_le) (not_le.mpr habove)
  · have hlt := hfresh queued.sequence (by rw [hw]; rfl)
    exact absurd hprocessed (not_le.mpr hlt)

/-- **A barrier that resolves to `Ok` covers what was queued** when its flush read its target:
every such record has been handed to the writer. -/
theorem flush_hands_over (config : Config) (s : State)
    (hrun : Transition.Reaches (step config) Protects initial s) (call : FlushCall)
    (hcall : call ∈ s.flushes) (hok : call.pc = .resolved (.ok ())) :
    ∀ sequence ∈ call.captured, ∃ ok, .write sequence ok ∈ s.log := by
  obtain ⟨kept, hp⟩ := invariant_of_reaches
    (fun s a s' kept hp hok hs => protected_step kept.ordered kept.calls hp hok hs)
    protected_initial hrun
  intro sequence hm
  obtain ⟨hle, hkept⟩ := hp.captured call hcall sequence hm
  have hflushed := kept.covered call hcall (by rw [hok]; rfl)
  exact hkept.written kept.ordered kept.fresh (hle.trans hflushed)

def oneOverwritten : Config :=
  { capacity := 1, maxStringBytes := 64, overflow := .overwriteOldest }

/-- The worker pops, writes and flushes the only record. -/
def flushOne : List Action :=
  [.work, .stepQueue, .writer .ok, .work, .work, .work, .work, .writer .ok, .work, .work, .work,
    .work, .work]

theorem flush_hands_over_published : ∃ s,
    Transition.Reaches (step oneOverwritten) Protects initial s ∧
      ∃ call ∈ s.flushes, call.captured = [1] ∧
        ∀ sequence ∈ call.captured, ∃ ok, .write sequence ok ∈ s.log := by
  -- the second `emit` reads `requested_flush` after the flush has published 1, and is dropped
  obtain ⟨s, hrun, call, hcall, hok, hone⟩ := Transition.exists_reaches
    (step oneOverwritten) Protects initial
    (fun s => ∃ call ∈ s.flushes, call.pc = .resolved (.ok ()) ∧ call.captured = [1])
    ([.callEmit bareEvent, .stepEmit 0, .stepEmit 0, .stepQueue, .stepQueue, .stepQueue, .stepEmit 0,
      .callFlush, .stepFlush 0, .stepFlush 0, .stepFlush 0,
      .callEmit bareEvent, .stepEmit 1, .stepEmit 1, .stepQueue, .stepQueue, .stepQueue] ++
      flushOne ++ [.poll 0 0, .stepFlush 0, .stepFlush 0, .stepFlush 0]) (by decide +kernel)
  exact ⟨s, hrun, call, hcall, hone, flush_hands_over oneOverwritten s hrun call hcall hok⟩

/-- The flush reads target 1; an overwriting `emit` reads `requested_flush` as 0 and takes record
1 away; the flush publishes, and the flush of record 2 resolves it to `Ok`. -/
theorem flush_loses_overwritten : ∃ s,
    Transition.Reaches (step oneOverwritten) (fun _ a => a ≠ .writer .panic) initial s ∧
      ∃ call ∈ s.flushes, call.pc = .resolved (.ok ()) ∧ call.captured = [1] ∧
        ¬ ∀ sequence ∈ call.captured, ∃ ok, .write sequence ok ∈ s.log := by
  obtain ⟨s, hrun, call, hcall, hok, hone, hlog⟩ := Transition.exists_reaches
    (step oneOverwritten) (fun _ a => a ≠ .writer .panic) initial
    (fun s => ∃ call ∈ s.flushes, call.pc = .resolved (.ok ()) ∧ call.captured = [1] ∧
      .write 1 true ∉ s.log ∧ .write 1 false ∉ s.log)
    ([.callEmit bareEvent, .stepEmit 0, .stepEmit 0, .stepQueue, .stepQueue, .stepQueue, .stepEmit 0,
      .callFlush, .stepFlush 0,
      .callEmit bareEvent, .stepEmit 1, .stepEmit 1, .stepQueue, .stepQueue, .stepQueue,
      .stepQueue, .stepQueue, .stepEmit 1,
      .stepFlush 0, .stepFlush 0] ++
      flushOne ++ [.poll 0 0, .stepFlush 0, .stepFlush 0, .stepFlush 0]) (by decide +kernel)
  refine ⟨s, hrun, call, hcall, hok, hone, fun hall => ?_⟩
  obtain ⟨ok, hm⟩ := hall 1 (by rw [hone]; exact List.mem_singleton_self 1)
  cases ok
  · exact hlog.2 hm
  · exact hlog.1 hm

end Logwise.AsyncSink
