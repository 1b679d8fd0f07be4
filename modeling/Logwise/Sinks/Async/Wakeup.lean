import Logwise.Sinks.Async.Calls

/-!
# Does the worker hear of everything?

`emit` and the drop publish under the queue mutex and so before the worker's test or after it
has parked. `flush` publishes after it has released the mutex, and its signal is lost when it
comes between the worker's read of `requested_flush` and its wait.
-/

namespace Logwise.AsyncSink

variable {config : Config} {s s' : State}

/-- The value of `requested_flush` a worker that has not parked yet goes by. -/
def QueueSection.reading : QueueSection → Option ℕ
  | .workerLoadFlushed requested => some requested
  | .workerTest requested _ => some requested
  | _ => none

/-- A flush does not signal while the worker, about to park, has missed its target. -/
def NotifiesInTime (s : State) : Action → Prop
  | .stepFlush f => ∀ call ∈ s.flushes[f]?, call.pc = .notify →
      ∀ requested ∈ s.queueSection.reading, requested ≤ s.flushedSequence →
        call.target ≤ s.flushedSequence
  | _ => True

instance : ∀ (s : State) (a : Action), Decidable (NotifiesInTime s a)
  | s, .stepFlush f => inferInstanceAs (Decidable (∀ call ∈ s.flushes[f]?, call.pc = .notify → _))
  | _, .callEmit _ | _, .stepEmit _ | _, .refuseEmit _ | _, .callFlush | _, .wait _ | _, .poll _ _
  | _, .dropHandles | _, .stepDrop | _, .stepQueue | _, .work | _, .writer _ | _, .spuriousWork
  | _, .spuriousProgress _ => .isTrue trivial

/-- Someone is about to signal the worker for the request that is out. -/
def State.Pending (s : State) : Prop :=
  (∃ call ∈ s.flushes, call.pc = .notify ∧ s.requestedFlush ≤ call.target) ∨ s.drop = .notify

/-- What the worker may rely on between its test and its wake-up. -/
structure State.Heard (s : State) : Prop where
  closed : s.drop ≠ .alive → s.drop ≠ .lockQueue → s.shutdown = true
  empty : s.queueSection = .workerLoadRequested → s.events = []
  reading : ∀ requested, s.queueSection.reading = some requested → s.events = [] ∧
    (s.shutdown = false → requested ≤ s.flushedSequence →
      s.requestedFlush ≤ s.flushedSequence ∨ s.Pending)
  test : ∀ requested flushed, s.queueSection = .workerTest requested flushed →
    flushed = s.flushedSequence
  parked : s.worker = .parked →
    (s.events = [] ∨ EmitPc.notify ∈ s.emits) ∧
    (s.shutdown = false ∨ s.drop = .loadNext ∨ (∃ next, s.drop = .storeRequested next) ∨
      s.drop = .notify) ∧
    (s.requestedFlush ≤ s.flushedSequence ∨ s.Pending)

theorem heard_initial : initial.Heard := by
  constructor <;> simp [initial, QueueSection.reading]

theorem ofWorker_of_reading {q : QueueSection} {requested : ℕ} (h : q.reading = some requested) :
    q.ofWorker = true := by
  cases q with
  | workerLoadFlushed _ => rfl
  | workerTest _ _ => rfl
  | _ => cases h

/-- Replacing a call that was not about to signal loses no signal. -/
theorem State.Pending.set {f : ℕ} {old new : FlushCall} (h : s.Pending)
    (hf : s.flushes[f]? = some old) (hold : old.pc ≠ .notify) (requested : ℕ)
    (hle : requested ≤ s.requestedFlush) :
    (∃ call ∈ s.flushes.set f new, call.pc = .notify ∧ requested ≤ call.target) ∨
      s.drop = .notify := by
  refine h.imp_left fun ⟨call, hc, hpc, htarget⟩ => ?_
  exact Slots.exists_mem_set hf (fun hp => hold hp.1) ⟨call, hc, hpc, hle.trans htarget⟩

/-- The worker is not parked and does not hold the queue beyond its first step. -/
theorem State.Heard.of_busy (hclosed : s.drop ≠ .alive → s.drop ≠ .lockQueue → s.shutdown = true)
    (hqueue : s.queueSection.ofWorker = false ∨ s.queueSection = .workerPop)
    (hworker : s.worker ≠ .parked) : s.Heard where
  closed := hclosed
  empty hq := by
    obtain hf | hp := hqueue
    · rw [hq] at hf
      cases hf
    · rw [hq] at hp
      cases hp
  reading requested hr := by
    obtain hf | hp := hqueue
    · rw [ofWorker_of_reading hr] at hf
      cases hf
    · rw [hp] at hr
      cases hr
  test requested flushed hq := by
    obtain hf | hp := hqueue
    · rw [hq] at hf
      cases hf
    · rw [hq] at hp
      cases hp
  parked hp := absurd hp hworker

theorem ofWorker_eq_false (ho : s.Ordered) (h : s.worker ≠ .inside) :
    s.queueSection.ofWorker = false := by
  cases hq : s.queueSection.ofWorker with
  | false => rfl
  | true => exact absurd (ho.inside.mp hq) h

theorem heard_workerStep (ho : s.Ordered) (h : s.Heard)
    (hs : workerStep s s.worker = some s') : s'.Heard := by
  have frame := workerStep_frame hs
  refine State.Heard.of_busy ?_ ?_ frame.parked
  · rw [frame.drop, frame.shutdown]
    exact h.closed
  · obtain ⟨he, hout, -⟩ | ⟨-, hp, -⟩ := frame.queue
    · exact Or.inl (he ▸ ofWorker_eq_false ho hout)
    · exact Or.inr hp

theorem heard_writerStep {outcome : Outcome} (ho : s.Ordered) (h : s.Heard)
    (hs : writerStep s outcome s.worker = some s') : s'.Heard := by
  cases hw : s.worker with
  | write queued =>
    have hq := ofWorker_eq_false ho (by rw [hw]; exact WorkerPc.noConfusion)
    rw [hw] at hs
    cases outcome <;> cases hs <;>
      exact State.Heard.of_busy h.closed (Or.inl hq) WorkerPc.noConfusion
  | flush processed =>
    have hq := ofWorker_eq_false ho (by rw [hw]; exact WorkerPc.noConfusion)
    rw [hw] at hs
    cases outcome <;> cases hs <;>
      exact State.Heard.of_busy h.closed (Or.inl hq) WorkerPc.noConfusion
  | finalFlush processed =>
    have hq := ofWorker_eq_false ho (by rw [hw]; exact WorkerPc.noConfusion)
    rw [hw] at hs
    cases outcome <;> cases hs <;>
      exact State.Heard.of_busy h.closed (Or.inl hq) WorkerPc.noConfusion
  | _ => simp [hw, writerStep] at hs

/-- A call of `emit` holds the queue: the worker neither reads nor tests, but it may be parked. -/
theorem State.Heard.of_emitter {s' : State} (h : s.Heard) (hdrop : s'.drop = s.drop)
    (hshutdown : s'.shutdown = s.shutdown) (hqueue : s'.queueSection.ofWorker = false)
    (hworker : s'.worker = s.worker) (hrequested : s'.requestedFlush = s.requestedFlush)
    (hflushed : s'.flushedSequence = s.flushedSequence) (hflushes : s'.flushes = s.flushes)
    (hevents : (s.events = [] ∨ EmitPc.notify ∈ s.emits) →
      s'.events = [] ∨ EmitPc.notify ∈ s'.emits) : s'.Heard where
  closed := by
    rw [hdrop, hshutdown]
    exact h.closed
  empty hq := by
    rw [hq] at hqueue
    cases hqueue
  reading requested hr := by
    rw [ofWorker_of_reading hr] at hqueue
    cases hqueue
  test requested flushed hq := by
    rw [hq] at hqueue
    cases hqueue
  parked hp := by
    obtain ⟨hev, hshut, hreq⟩ := h.parked (hworker ▸ hp)
    refine ⟨hevents hev, ?_, ?_⟩
    · rw [hshutdown, hdrop]
      exact hshut
    · rw [State.Pending, hrequested, hflushed, hflushes, hdrop]
      exact hreq

theorem tail_eq_nil_or {events : List QueuedEvent} {P : Prop} (h : events = [] ∨ P) :
    events.tail = [] ∨ P := by
  refine h.imp_left ?_
  rintro rfl
  rfl

theorem heard_queueStep (ho : s.Ordered) (hc : s.Calls) (h : s.Heard)
    (hs : queueStep config s s.queueSection = some s') : s'.Heard := by
  cases hq : s.queueSection with
  | free => simp [hq, queueStep] at hs
  | emitTest i owned =>
    have hin := hc.inside i (by rw [hq]; rfl)
    simp only [hq, queueStep] at hs
    split at hs
    · split at hs
      · cases hs
        exact h.of_emitter rfl rfl rfl rfl rfl rfl rfl fun hev =>
          hev.imp_right fun hm => Slots.mem_set_of_ne hin hm EmitPc.noConfusion
      · cases hs
        exact h.of_emitter rfl rfl rfl rfl rfl rfl rfl id
    · cases hs
      exact h.of_emitter rfl rfl rfl rfl rfl rfl rfl id
  | emitLoadRequested i owned =>
    simp only [hq, queueStep] at hs
    cases hs
    exact h.of_emitter rfl rfl rfl rfl rfl rfl rfl id
  | emitLoadFlushed i owned requested =>
    have hin := hc.inside i (by rw [hq]; rfl)
    simp only [hq, queueStep] at hs
    split at hs
    · cases hs
      exact h.of_emitter rfl rfl rfl rfl rfl rfl rfl fun hev =>
        hev.imp_right fun hm => Slots.mem_set_of_ne hin hm EmitPc.noConfusion
    · cases hs
      exact h.of_emitter rfl rfl rfl rfl rfl rfl rfl tail_eq_nil_or
  | emitSequence i owned =>
    simp only [hq, queueStep] at hs
    cases hs
    exact h.of_emitter rfl rfl rfl rfl rfl rfl rfl id
  | emitPush i owned sequence =>
    -- the record is queued and its emitter is about to signal
    have hin := hc.inside i (by rw [hq]; rfl)
    simp only [hq, queueStep] at hs
    cases hs
    exact h.of_emitter rfl rfl rfl rfl rfl rfl rfl fun _ =>
        Or.inr (List.mem_of_getElem? (Slots.getElem?_set_of_some hin))
  | workerPop =>
    -- an empty queue starts the worker on its test
    have hin : s.worker = .inside := ho.inside.mp (by rw [hq]; rfl)
    simp only [hq, queueStep] at hs
    split at hs
    next queued events he =>
      cases hs
      exact State.Heard.of_busy h.closed (Or.inl rfl) WorkerPc.noConfusion
    next he =>
      cases hs
      refine ⟨h.closed, fun _ => he, ?_, fun _ _ hp => (by cases hp), ?_⟩
      · intro requested hr
        cases hr
      · intro hp
        rw [hin] at hp
        cases hp
  | workerLoadRequested =>
    -- what is published from here on is signalled after the wait has begun
    have hin : s.worker = .inside := ho.inside.mp (by rw [hq]; rfl)
    have he := h.empty hq
    simp only [hq, queueStep] at hs
    cases hs
    refine ⟨h.closed, fun hp => (by cases hp), ?_, fun _ _ hp => (by cases hp), ?_⟩
    · intro requested hr
      cases hr
      exact ⟨he, fun _ hle => Or.inl hle⟩
    · intro hp
      rw [hin] at hp
      cases hp
  | workerLoadFlushed requested =>
    have hin : s.worker = .inside := ho.inside.mp (by rw [hq]; rfl)
    have hread := h.reading requested (by rw [hq]; rfl)
    simp only [hq, queueStep] at hs
    cases hs
    refine ⟨h.closed, fun hp => (by cases hp), ?_, ?_, ?_⟩
    · intro requested' hr
      cases hr
      exact hread
    · intro requested' flushed hp
      cases hp
      rfl
    · intro hp
      rw [hin] at hp
      cases hp
  | workerTest requested flushed =>
    -- the worker parks with everything it has read covered
    obtain ⟨he, hread⟩ := h.reading requested (by rw [hq]; rfl)
    have hflushed := h.test requested flushed hq
    simp only [hq, queueStep] at hs
    split at hs
    next =>
      cases hs
      exact State.Heard.of_busy h.closed (Or.inl rfl) WorkerPc.noConfusion
    next hwait =>
      obtain ⟨hle, hshut⟩ := not_or.mp hwait
      have hopen : s.shutdown = false := by simpa using hshut
      have hseen : requested ≤ s.flushedSequence := hflushed ▸ not_lt.mp hle
      cases hs
      refine ⟨h.closed, fun hp => (by cases hp), ?_, fun _ _ hp => (by cases hp), ?_⟩
      · intro requested' hr
        cases hr
      · intro _
        exact ⟨Or.inl he, Or.inl hopen, hread hopen hseen⟩

/-- The calls of `emit` and the stages of the drop before its signal only add to what a parked
worker may wait for. -/
theorem State.Heard.frame {s' : State} (h : s.Heard) (hqueue : s'.queueSection = s.queueSection)
    (hevents : s'.events = s.events) (hshutdown : s'.shutdown = s.shutdown)
    (hworker : s'.worker = s.worker) (hflushed : s'.flushedSequence = s.flushedSequence)
    (hnotify : EmitPc.notify ∈ s.emits → EmitPc.notify ∈ s'.emits)
    (hclosed : s'.drop ≠ .alive → s'.drop ≠ .lockQueue → s.shutdown = true)
    (hdrop : (s.drop = .loadNext ∨ (∃ next, s.drop = .storeRequested next) ∨ s.drop = .notify) →
      s'.drop = .loadNext ∨ (∃ next, s'.drop = .storeRequested next) ∨ s'.drop = .notify)
    (hrequested : s.requestedFlush ≤ s.flushedSequence ∨ s.Pending →
      s'.requestedFlush ≤ s.flushedSequence ∨ s'.Pending) : s'.Heard where
  closed := hshutdown ▸ hclosed
  empty := by
    rw [hqueue, hevents]
    exact h.empty
  reading requested hr := by
    rw [hqueue] at hr
    obtain ⟨he, hread⟩ := h.reading requested hr
    rw [hevents, hshutdown, hflushed]
    exact ⟨he, fun hopen hle => hrequested (hread hopen hle)⟩
  test := by
    rw [hqueue, hflushed]
    exact h.test
  parked hp := by
    obtain ⟨hev, hshut, hreq⟩ := h.parked (hworker ▸ hp)
    rw [hevents, hshutdown, hflushed]
    exact ⟨hev.imp_right hnotify, hshut.imp_right hdrop, hrequested hreq⟩

/-- A signal finds the worker parked and wakes it, or finds it elsewhere. What the worker has read
before must then not have been out of date. -/
theorem State.Heard.signal {s' : State} (h : s.Heard) (hqueue : s'.queueSection = s.queueSection)
    (hevents : s'.events = s.events) (hshutdown : s'.shutdown = s.shutdown)
    (hworker : s'.worker = wakeWorker s.worker)
    (hflushed : s'.flushedSequence = s.flushedSequence)
    (hclosed : s'.drop ≠ .alive → s'.drop ≠ .lockQueue → s.shutdown = true)
    (hrequested : ∀ requested, s.queueSection.reading = some requested → s.shutdown = false →
      requested ≤ s.flushedSequence → s'.requestedFlush ≤ s.flushedSequence ∨ s'.Pending) :
    s'.Heard where
  closed := hshutdown ▸ hclosed
  empty := by
    rw [hqueue, hevents]
    exact h.empty
  reading requested hr := by
    rw [hqueue] at hr
    rw [hevents, hshutdown, hflushed]
    exact ⟨(h.reading requested hr).1, hrequested requested hr⟩
  test := by
    rw [hqueue, hflushed]
    exact h.test
  parked hp := absurd (hworker ▸ hp) (wakeWorker_ne_parked s.worker)

theorem heard_step {a : Action} (ho : s.Ordered) (hc : s.Calls) (h : s.Heard)
    (hok : NotifiesInTime s a) (hs : step config s a = some s') : s'.Heard := by
  cases moves_of_step hs with
  | callEmit event halive =>
    exact h.frame rfl rfl rfl rfl rfl (fun hm => List.mem_append_left _ hm) h.closed id id
  | emitAside a i old pc stats ha hi hold hpc =>
    exact h.frame rfl rfl rfl rfl rfl (fun hm => Slots.mem_set_of_ne hi hm (Ne.symm hold.1)) h.closed id id
  | emitEnter i owned hi hfree =>
    exact h.of_emitter rfl rfl rfl rfl rfl rfl rfl fun hev =>
      hev.imp_right fun hm => Slots.mem_set_of_ne hi hm EmitPc.noConfusion
  | emitNotify i hi =>
    exact h.signal rfl rfl rfl rfl rfl h.closed fun requested hr => (h.reading requested hr).2
  | callFlush halive =>
    refine h.frame rfl rfl rfl rfl rfl id h.closed id fun hreq => ?_
    refine hreq.imp_right fun hp => hp.imp_left ?_
    rintro ⟨call, hm, hpc, hle⟩
    exact ⟨call, List.mem_append_left _ hm, hpc, hle⟩
  | capture f call hf hpc hfree =>
    refine h.frame rfl rfl rfl rfl rfl id h.closed id fun hreq => ?_
    exact hreq.imp_right fun hp => hp.set hf (by rw [hpc]; exact FlushPc.noConfusion) _ le_rfl
  | publish f call hf hpc =>
    refine h.frame rfl rfl rfl rfl rfl id h.closed id fun hreq => ?_
    obtain hle | hle := le_total s.requestedFlush call.target
    · -- this flush is now the one about to signal
      refine Or.inr (Or.inl ⟨{ call with pc := .notify }, ?_, rfl, (max_eq_right hle).le⟩)
      exact List.mem_of_getElem? (Slots.getElem?_set_of_some hf)
    · have hmax : max s.requestedFlush call.target = s.requestedFlush := max_eq_left hle
      have hne : call.pc ≠ .notify := by rw [hpc]; exact FlushPc.noConfusion
      refine hreq.imp (fun hreq => hmax.le.trans hreq) fun hp => ?_
      exact hp.set hf hne (max s.requestedFlush call.target) hmax.le
  | flushNotify f call hf hpc =>
    -- the guard: a signal sent while the worker is at its test tells it nothing new
    refine h.signal rfl rfl rfl rfl rfl h.closed fun requested hr hopen hle => ?_
    have htarget : call.target ≤ s.flushedSequence := hok call hf hpc requested hr hle
    obtain hreq | ⟨other, hm, hother, hreq⟩ | hdrop := (h.reading requested hr).2 hopen hle
    · exact Or.inl hreq
    · by_cases heq : other = call
      · exact Or.inl (hreq.trans (heq ▸ htarget))
      · exact Or.inr (Or.inl ⟨other, Slots.mem_set_of_ne hf hm heq, hother, hreq⟩)
    · exact Or.inr (Or.inr hdrop)
  | barrier a f call pc owner wakers hf hout hstep =>
    refine h.frame rfl rfl rfl rfl rfl id h.closed id fun hreq => ?_
    refine hreq.imp_right fun hp => hp.set hf ?_ _ le_rfl
    intro hn
    rw [hn] at hout
    cases hout
  | dropHandles halive hquiet =>
    -- nobody is inside a call when the last handle goes
    have hflushes := (quiet_iff.mp hquiet).2
    refine h.frame rfl rfl rfl rfl rfl id (fun _ hn => absurd rfl hn) ?_ fun hreq => ?_
    · rw [halive]
      rintro (hd | ⟨next, hd⟩ | hd) <;> cases hd
    · obtain hle | ⟨call, hm, hpc, -⟩ | hd := hreq
      · exact Or.inl hle
      · have hin := hflushes call hm
        rw [hpc] at hin
        cases hin
      · rw [halive] at hd
        cases hd
  | dropLock hdrop hfree =>
    -- the drop holds the mutex, so the worker is not at its test
    constructor
    · exact fun _ _ => rfl
    · rw [hfree]
      exact fun hq => by cases hq
    · rw [hfree]
      exact fun _ hr => by cases hr
    · rw [hfree]
      exact fun _ _ hq => by cases hq
    · intro hp
      obtain ⟨hev, -, hreq⟩ := h.parked hp
      refine ⟨hev, Or.inr (Or.inl rfl), hreq.imp_right fun hpend => hpend.imp_right fun hd => ?_⟩
      rw [hdrop] at hd
      cases hd
  | dropLoad hdrop =>
    have hshut : s.shutdown = true := h.closed (by rw [hdrop]; exact DropPc.noConfusion)
      (by rw [hdrop]; exact DropPc.noConfusion)
    refine h.frame rfl rfl rfl rfl rfl id (fun _ _ => hshut)
      (fun _ => Or.inr (Or.inl ⟨_, rfl⟩)) fun hreq => ?_
    refine hreq.imp_right fun hpend => hpend.imp_right fun hd => ?_
    rw [hdrop] at hd
    cases hd
  | dropStore next hdrop =>
    -- the final sequence is signalled next
    have hshut : s.shutdown = true := h.closed (by rw [hdrop]; exact DropPc.noConfusion)
      (by rw [hdrop]; exact DropPc.noConfusion)
    exact h.frame rfl rfl rfl rfl rfl id (fun _ _ => hshut)
      (fun _ => Or.inr (Or.inr rfl)) fun _ => Or.inr (Or.inr rfl)
  | dropNotify hdrop =>
    have hshut : s.shutdown = true := h.closed (by rw [hdrop]; exact DropPc.noConfusion)
      (by rw [hdrop]; exact DropPc.noConfusion)
    refine h.signal rfl rfl rfl rfl rfl (fun _ _ => hshut) fun requested hr hopen => ?_
    rw [hshut] at hopen
    cases hopen
  | dropJoin hdrop hworker =>
    have hshut : s.shutdown = true := h.closed (by rw [hdrop]; exact DropPc.noConfusion)
      (by rw [hdrop]; exact DropPc.noConfusion)
    have hout := ofWorker_eq_false ho (by rw [hworker]; exact WorkerPc.noConfusion)
    refine State.Heard.of_busy (fun _ _ => hshut) (Or.inl hout) ?_
    show s.worker ≠ .parked
    rw [hworker]
    exact WorkerPc.noConfusion
  | queue s' hq => exact heard_queueStep ho hc h hq
  | work s' hw => exact heard_workerStep ho h hw
  | writer outcome s' hw => exact heard_writerStep ho h hw
  | spurious hparked =>
    exact h.signal rfl rfl rfl rfl rfl h.closed fun requested hr => (h.reading requested hr).2

/-- Every run whose flushes signal in time leaves nothing unheard. -/
theorem heard_of_reaches (h : Transition.Reaches (step config) NotifiesInTime initial s) :
    s.Heard := by
  have hall := invariant_of_reaches
    (fun s a s' kept hh hok hs => heard_step kept.ordered kept.calls hh hok hs) heard_initial h
  exact hall.2

/-- **A parked worker has nothing to do**: with no call in progress the queue is empty, the sink
is open, and everything requested is flushed. -/
theorem parked_worker_idle (config : Config) (s : State)
    (hrun : Transition.Reaches (step config) NotifiesInTime initial s)
    (hparked : s.worker = .parked) (hquiet : quiet s = true)
    (hdrop : s.drop = .alive ∨ s.drop = .done) :
    s.events = [] ∧ s.shutdown = false ∧ s.requestedFlush ≤ s.flushedSequence := by
  obtain ⟨hev, hshut, hreq⟩ := (heard_of_reaches hrun).parked hparked
  obtain ⟨hemits, hflushes⟩ := quiet_iff.mp hquiet
  refine ⟨?_, ?_, ?_⟩
  · obtain he | hm := hev
    · exact he
    · cases hemits _ hm
  · obtain ho | hd | ⟨next, hd⟩ | hd := hshut
    · exact ho
    all_goals
      rw [hd] at hdrop
      obtain he | he := hdrop <;> cases he
  · obtain hle | ⟨call, hm, hpc, -⟩ | hd := hreq
    · exact hle
    · have hin := hflushes call hm
      rw [hpc] at hin
      cases hin
    · rw [hd] at hdrop
      obtain he | he := hdrop <;> cases he

theorem parked_worker_idle_flushed : ∃ s,
    Transition.Reaches (step oneSlot) NotifiesInTime initial s ∧
      (s.events = [] ∧ s.shutdown = false ∧ s.requestedFlush ≤ s.flushedSequence) ∧
      s.requestedFlush = 1 := by
  obtain ⟨s, hrun, hparked, hquiet, halive, hone⟩ := Transition.exists_reaches
    (step oneSlot) NotifiesInTime initial
    (fun s => s.worker = .parked ∧ quiet s = true ∧ s.drop = .alive ∧ s.requestedFlush = 1)
    [.callEmit bareEvent, .stepEmit 0, .stepEmit 0, .stepQueue, .stepQueue, .stepQueue, .stepEmit 0,
      .callFlush, .stepFlush 0, .stepFlush 0, .stepFlush 0,
      .work, .stepQueue, .writer .ok, .work, .work, .work, .work, .writer .ok,
      .work, .work, .work, .work, .work, .work,
      .work, .stepQueue, .stepQueue, .stepQueue, .stepQueue] (by decide)
  exact ⟨s, hrun, parked_worker_idle oneSlot s hrun hparked hquiet (Or.inl halive), hone⟩

/-- The worker reads `requested_flush` as 0, the flush publishes 1 and signals, the worker parks. -/
theorem parked_worker_misses_flush : ∃ s,
    Transition.Reaches (step oneSlot) Transition.always initial s ∧ s.worker = .parked ∧
      quiet s = true ∧ s.drop = .alive ∧
      ¬ (s.events = [] ∧ s.shutdown = false ∧ s.requestedFlush ≤ s.flushedSequence) := by
  obtain ⟨s, hrun, hparked, hquiet, halive, hlt⟩ := Transition.exists_reaches
    (step oneSlot) Transition.always initial
    (fun s => s.worker = .parked ∧ quiet s = true ∧ s.drop = .alive ∧
      s.flushedSequence < s.requestedFlush)
    [.callEmit bareEvent, .stepEmit 0, .stepEmit 0, .stepQueue, .stepQueue, .stepQueue, .stepEmit 0,
      .work, .stepQueue, .writer .ok,
      .callFlush, .stepFlush 0,
      .work, .work, .work, .work, .work,
      .work, .stepQueue, .stepQueue,
      .stepFlush 0, .stepFlush 0,
      .stepQueue, .stepQueue] (by decide)
  exact ⟨s, hrun, hparked, hquiet, halive, fun h => absurd h.2.2 (not_le.mpr hlt)⟩

end Logwise.AsyncSink
