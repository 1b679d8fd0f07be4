import Logwise.Sinks.Async.Delivery
import Logwise.Sinks.Async.Waiters

/-!
# The drop of the last handle returns

The drop asks for a last flush, signals the worker and joins it. It waits for the queue mutex, then
for a worker that writes what is queued, flushes, and has to take the progress lock to say that it
has stopped. `State.left` is what the two threads still have to do: neither a waiter nor a spurious
wake-up adds to it, and in a fair behaviour they do it.
-/

namespace Logwise.AsyncSink

open Transition (Behaviour Enabled Nears)

variable {config : Config} {s s' : State} {a : Action}

/-- Past the drop's hold of the queue. -/
def DropPc.closing : DropPc → Bool
  | .alive | .lockQueue => false
  | _ => true

/-- The drop has signalled the worker. -/
def DropPc.signalled : DropPc → Bool
  | .join | .done => true
  | _ => false

/-- The worker has set `stopped`. -/
def WorkerPc.halted : WorkerPc → Bool
  | .notifyProgress .terminated | .takeWakers .terminated | .wake _ .terminated | .terminated => true
  | _ => false

/-- What the drop and the worker may rely on of each other. -/
structure State.Joinable (s : State) : Prop where
  shutdown : s.shutdown = s.drop.closing
  parked : s.drop.signalled = true → s.worker ≠ .parked
  done : s.drop = .done → s.worker = .terminated
  halted : s.worker.halted = true → s.stopped = true

theorem joinable_initial : initial.Joinable := by
  constructor <;> simp [initial, DropPc.closing, DropPc.signalled, WorkerPc.halted]

theorem closing_of_ne {drop : DropPc} (halive : drop ≠ .alive) (hlock : drop ≠ .lockQueue) :
    drop.closing = true := by
  cases drop with
  | alive => exact absurd rfl halive
  | lockQueue => exact absurd rfl hlock
  | _ => rfl

theorem closing_of_signalled {drop : DropPc} (h : drop.signalled = true) : drop.closing = true := by
  cases drop <;> first | rfl | cases h

theorem halted_wakeWorker (pc : WorkerPc) : (wakeWorker pc).halted = pc.halted := by
  cases pc <;> rfl

/-- The worker parks only while the sink is open. -/
theorem parked_queueStep (hs : queueStep config s s.queueSection = some s')
    (hparked : s'.worker = .parked) : s.worker = .parked ∨ s.shutdown = false := by
  cases hq : s.queueSection with
  | workerTest requested flushed =>
    simp only [hq, queueStep] at hs
    split at hs
    next => cases hs; cases hparked
    next hidle => exact Or.inr (Bool.eq_false_of_not_eq_true (not_or.mp hidle).2)
  | _ =>
    simp only [hq, queueStep, reduceCtorEq] at hs
    try (split at hs <;> try split at hs)
    all_goals
      cases hs
      first | exact Or.inl hparked | cases hparked

theorem halted_workerStep (hs : workerStep s s.worker = some s')
    (hhalted : s'.worker.halted = true) : s.worker.halted = true ∨ s'.stopped = true := by
  cases hw : s.worker with
  | storeStopped =>
    simp only [hw, workerStep] at hs
    cases hs
    exact Or.inr rfl
  | wake wakers next =>
    simp only [hw, workerStep] at hs
    cases hs
    cases next
    · cases hhalted
    · exact Or.inl rfl
  | notifyProgress next | takeWakers next =>
    simp only [hw, workerStep] at hs
    try split at hs
    all_goals
      cases hs
      try (cases next <;> first | exact Or.inl rfl | cases hhalted)
  | _ =>
    simp only [hw, workerStep, reduceCtorEq] at hs
    try (split at hs <;> try split at hs)
    all_goals
      cases hs
      try cases hhalted

theorem writerStep_halted {outcome : Outcome} (hs : writerStep s outcome s.worker = some s') :
    s'.worker.halted = false ∧ s'.worker ≠ .parked ∧ s.worker ≠ .terminated := by
  cases hw : s.worker with
  | write _ | flush _ | finalFlush _ =>
    rw [hw] at hs
    cases outcome <;> cases hs <;> exact ⟨rfl, WorkerPc.noConfusion, WorkerPc.noConfusion⟩
  | _ => simp [hw, writerStep] at hs

theorem State.Joinable.frame (h : s.Joinable) (hshutdown : s'.shutdown = s.shutdown)
    (hdrop : s'.drop = s.drop) (hworker : s'.worker = s.worker ∨ s'.worker = wakeWorker s.worker)
    (hstopped : s'.stopped = s.stopped) : s'.Joinable := by
  have hhalted : s'.worker.halted = s.worker.halted := by
    obtain he | he := hworker <;> rw [he]
    exact halted_wakeWorker s.worker
  constructor
  · rw [hshutdown, hdrop]
    exact h.shutdown
  · intro hsignalled
    rw [hdrop] at hsignalled
    obtain he | he := hworker <;> rw [he]
    · exact h.parked hsignalled
    · exact wakeWorker_ne_parked s.worker
  · intro hdone
    have hterminated := h.done (hdrop ▸ hdone)
    obtain he | he := hworker <;> rw [he, hterminated]
    rfl
  · rw [hhalted, hstopped]
    exact h.halted

/-- A step of the drop. -/
theorem State.Joinable.moveDrop (h : s.Joinable) (shutdown : Bool) (requested : ℕ) {drop : DropPc}
    (hshutdown : shutdown = drop.closing)
    (hsignalled : drop.signalled = true → s.worker ≠ .parked)
    (hdone : drop = .done → s.worker = .terminated) :
    State.Joinable
      { s with shutdown := shutdown, requestedFlush := requested, drop := drop } :=
  ⟨hshutdown, hsignalled, hdone, h.halted⟩

theorem joinable_queueStep (ho : s.Ordered) (h : s.Joinable)
    (hs : queueStep config s s.queueSection = some s') : s'.Joinable := by
  have frame := queueStep_frame hs
  obtain hsame | ⟨hof, hworker⟩ := frame.worker
  · exact h.frame frame.shutdown frame.drop (Or.inl hsame) frame.stopped
  · have hinside := ho.inside.mp hof
    have hfresh : s'.worker.halted = false := by
      obtain he | he | ⟨queued, -, he⟩ := hworker <;> rw [he] <;> rfl
    constructor
    · rw [frame.shutdown, frame.drop]
      exact h.shutdown
    · intro hsignalled hparked
      obtain hwas | hopen := parked_queueStep hs hparked
      · cases hinside.symm.trans hwas
      · rw [h.shutdown, closing_of_signalled (frame.drop ▸ hsignalled)] at hopen
        cases hopen
    · intro hdone
      cases hinside.symm.trans (h.done (frame.drop ▸ hdone))
    · rw [hfresh]
      exact fun hhalted => by cases hhalted

theorem joinable_workerStep (h : s.Joinable) (hs : workerStep s s.worker = some s') :
    s'.Joinable := by
  have frame := workerStep_frame hs
  constructor
  · rw [frame.shutdown, frame.drop]
    exact h.shutdown
  · exact fun _ => frame.parked
  · intro hdone
    rw [h.done (frame.drop ▸ hdone)] at hs
    cases hs
  · intro hhalted
    obtain hwas | hstopped := halted_workerStep hs hhalted
    · exact frame.stopped (h.halted hwas)
    · exact hstopped

theorem joinable_writerStep {outcome : Outcome} (h : s.Joinable)
    (hs : writerStep s outcome s.worker = some s') : s'.Joinable := by
  have frame := writerStep_frame hs
  obtain ⟨hhalted, hparked, hterminated⟩ := writerStep_halted hs
  refine ⟨?_, fun _ => hparked, fun hdone => ?_, fun hh => ?_⟩
  · rw [frame.shutdown, frame.drop]
    exact h.shutdown
  · exact absurd (h.done (frame.drop ▸ hdone)) hterminated
  · rw [hhalted] at hh
    cases hh

theorem joinable_step (kept : s.Kept) (h : s.Joinable) (hs : step config s a = some s') :
    s'.Joinable := by
  cases moves_of_step hs with
  | emitNotify i hi => exact h.frame rfl rfl (Or.inr rfl) rfl
  | flushNotify f call hf hpc => exact h.frame rfl rfl (Or.inr rfl) rfl
  | spurious hparked => exact h.frame rfl rfl (Or.inr rfl) rfl
  | dropHandles halive hquiet =>
    refine h.moveDrop s.shutdown s.requestedFlush ?_ (fun hf => by cases hf) fun hf => by cases hf
    rw [h.shutdown, halive]
    rfl
  | dropLock hdrop hfree =>
    exact h.moveDrop true s.requestedFlush rfl (fun hf => by cases hf) fun hf => by cases hf
  | dropLoad hdrop =>
    refine h.moveDrop s.shutdown s.requestedFlush ?_ (fun hf => by cases hf) fun hf => by cases hf
    rw [h.shutdown, hdrop]
    rfl
  | dropStore next hdrop =>
    refine h.moveDrop s.shutdown next ?_ (fun hf => by cases hf) fun hf => by cases hf
    rw [h.shutdown, hdrop]
    rfl
  | dropNotify hdrop =>
    have hwoken : State.Joinable { s with worker := wakeWorker s.worker } :=
      h.frame rfl rfl (Or.inr rfl) rfl
    refine hwoken.moveDrop s.shutdown s.requestedFlush ?_ (fun _ => wakeWorker_ne_parked s.worker)
      fun hf => by cases hf
    rw [h.shutdown, hdrop]
    rfl
  | dropJoin hdrop hworker =>
    refine h.moveDrop s.shutdown s.requestedFlush ?_
      (fun _ => h.parked (by rw [hdrop]; rfl)) fun _ => hworker
    rw [h.shutdown, hdrop]
    rfl
  | queue s' hq => exact joinable_queueStep kept.ordered h hq
  | work s' hw => exact joinable_workerStep h hw
  | writer outcome s' hw => exact joinable_writerStep h hw
  | _ => exact h.frame rfl rfl (Or.inl rfl) rfl

/-! ## What is left to do -/

/-- The steps the drop still makes. -/
def DropPc.left : DropPc → ℕ
  | .alive => 6
  | .lockQueue => 5
  | .loadNext => 4
  | .storeRequested _ => 3
  | .notify => 2
  | .join => 1
  | .done => 0

def AfterNotify.left : AfterNotify → ℕ
  | .checkStop _ => 8
  | .terminated => 0

/-- The steps the worker still makes before it stops, but for those on the records queued. -/
def State.workerLeft (s : State) : ℕ :=
  match s.worker with
  | .parked => 31
  | .lock => if s.events = [] then 30 else 2
  | .inside =>
    if s.queueSection = .workerPop ∧ s.events ≠ [] then 1 else 25 + s.queueSection.left
  | .write _ => 33
  | .recordWriteError _ _ => 32
  | .storeProcessed _ => 31
  | .loadProcessed => 25
  | .loadRequested _ => 24
  | .loadFlushed _ _ => 23
  | .flush _ => 22
  | .clearFlushError _ | .setFlushError _ _ => 21
  | .storeFlushed _ => 20
  | .notifyProgress next => 11 + next.left
  | .takeWakers next => 10 + next.left
  | .wake _ next => 9 + next.left
  | .checkStop _ => 16
  | .loadFinal _ => 15
  | .finalFlush _ => 14
  | .storeFinal _ => 13
  | .storeStopped => 12
  | .terminated => 0

/-- A record is popped, written and accounted for, and the worker comes round. -/
def State.left (s : State) : ℕ := 33 * s.events.length + s.workerLeft + s.drop.left

theorem left_workerStep (hshutdown : s.shutdown = true)
    (hs : workerStep s s.worker = some s') : s'.left < s.left := by
  have frame := workerStep_frame hs
  rw [State.left, State.left, frame.events, frame.drop]
  suffices h : s'.workerLeft < s.workerLeft by omega
  cases hw : s.worker with
  | lock =>
    simp only [hw, workerStep] at hs
    split at hs
    · cases hs
      by_cases hempty : s.events = [] <;>
        simp [State.workerLeft, hw, hempty, QueueSection.left]
    · cases hs
  | checkStop processed =>
    simp only [hw, workerStep, hshutdown, true_and] at hs
    split at hs
    · split at hs
      next hempty =>
        cases hs
        simp [State.workerLeft, hw]
      next hqueued =>
        cases hs
        simp [State.workerLeft, hw, hqueued]
    · cases hs
  | wake wakers next =>
    simp only [hw, workerStep] at hs
    cases hs
    cases next <;> simp [State.workerLeft, hw, afterNotify, AfterNotify.left]
  | _ =>
    simp only [hw, workerStep, reduceCtorEq] at hs
    try (split at hs <;> try split at hs)
    all_goals
      cases hs
      try simp [State.workerLeft, hw, AfterNotify.left]

theorem left_writerStep {outcome : Outcome} (hs : writerStep s outcome s.worker = some s') :
    s'.left < s.left := by
  have frame := writerStep_frame hs
  rw [State.left, State.left, frame.events, frame.drop]
  suffices h : s'.workerLeft < s.workerLeft by omega
  cases hw : s.worker with
  | write _ | flush _ | finalFlush _ =>
    rw [hw] at hs
    cases outcome <;> cases hs <;> simp [State.workerLeft, hw]
  | _ => simp [hw, writerStep] at hs

/-- The worker's steps at the queue, while the sink is closed. -/
theorem left_queueStep (hinside : s.worker = .inside) (hof : s.queueSection.ofWorker = true)
    (hshutdown : s.shutdown = true) (hs : queueStep config s s.queueSection = some s') :
    s'.left < s.left := by
  rw [State.left, State.left, (queueStep_frame hs).drop]
  cases hq : s.queueSection with
  | workerPop =>
    cases he : s.events with
    | nil =>
      simp only [hq, queueStep, he] at hs
      cases hs
      simp [State.workerLeft, hinside, hq, he, QueueSection.left]
    | cons queued rest =>
      simp only [hq, queueStep, he] at hs
      cases hs
      simp only [State.workerLeft, hinside, hq, he, List.length_cons, ne_eq, reduceCtorEq,
        not_false_eq_true, and_self, if_true]
      omega
  | workerLoadRequested | workerLoadFlushed requested =>
    simp only [hq, queueStep] at hs
    cases hs
    simp [State.workerLeft, hinside, hq, QueueSection.left]
  | workerTest requested flushed =>
    simp only [hq, queueStep, hshutdown, or_true, if_true] at hs
    cases hs
    simp [State.workerLeft, hinside, hq, QueueSection.left]
  | _ =>
    rw [hq] at hof
    cases hof

theorem left_wake : State.workerLeft { s with worker := wakeWorker s.worker } ≤ s.workerLeft := by
  obtain he | ⟨hparked, he⟩ := wakeWorker_eq s.worker
  · rw [he]
  · rw [he]
    simp only [State.workerLeft, hparked]
    split <;> omega

theorem left_dropStep (hclosing : s.drop.closing = true) (hs : dropStep s s.drop = some s') :
    s'.left < s.left := by
  cases hd : s.drop with
  | alive | lockQueue =>
    rw [hd] at hclosing
    cases hclosing
  | loadNext | storeRequested next =>
    simp only [hd, dropStep] at hs
    cases hs
    simp [State.left, State.workerLeft, hd, DropPc.left]
  | notify =>
    simp only [hd, dropStep] at hs
    cases hs
    have hwake : State.workerLeft { s with worker := wakeWorker s.worker, drop := .join } ≤
      s.workerLeft := left_wake
    simp only [State.left, hd, DropPc.left]
    omega
  | join =>
    simp only [hd, dropStep] at hs
    split at hs
    · cases hs
      simp [State.left, State.workerLeft, hd, DropPc.left]
    · cases hs
  | done => simp [hd, dropStep] at hs

theorem alive_not_closing (halive : s.drop = .alive) : ¬ s.drop.closing = true := by
  rw [halive]
  exact Bool.false_ne_true

/-- The queue belongs to the worker once the sink is closed. -/
theorem ofWorker_of_closing (kept : s.Kept) (hclosing : s.drop.closing = true)
    (hbusy : s.queueSection ≠ .free) : s.queueSection.ofWorker = true := by
  obtain ⟨party, hparty⟩ := exists_holds hbusy
  cases party with
  | worker => exact hparty
  | emitter i =>
    have hdrop : s.drop ≠ .alive := fun halive => alive_not_closing halive hclosing
    exact absurd hparty (kept.calls.quiet hdrop)
  | dropper | flusher f => cases hparty

/-- The two threads that close the sink. -/
def closers (s : State) (a : Action) : Prop := Party.turn .worker s a ∨ Party.turn .dropper s a

/-- The others have no part in it. -/
theorem left_aside (kept : s.Kept) (halive : s.drop ≠ .alive) (hwork : a ≠ .work)
    (hwriter : ∀ outcome, a ≠ .writer outcome) (hdrop : a ≠ .stepDrop) (hqueue : a ≠ .stepQueue)
    (hs : step config s a = some s') : s'.left ≤ s.left := by
  cases moves_of_step hs with
  | callEmit event ha => exact absurd ha halive
  | emitAside a i old pc stats ha hi hold hpc =>
    exact absurd (kept.calls.alive_of_emit hi hold.2.2) halive
  | emitEnter i owned hi hfree =>
    exact absurd (kept.calls.alive_of_emit hi EmitPc.noConfusion) halive
  | emitNotify i hi => exact absurd (kept.calls.alive_of_emit hi EmitPc.noConfusion) halive
  | callFlush ha => exact absurd ha halive
  | capture f call hf hpc hfree =>
    exact absurd (kept.calls.alive_of_flush hf (by rw [hpc]; rfl)) halive
  | publish f call hf hpc => exact absurd (kept.calls.alive_of_flush hf (by rw [hpc]; rfl)) halive
  | flushNotify f call hf hpc =>
    exact absurd (kept.calls.alive_of_flush hf (by rw [hpc]; rfl)) halive
  | barrier a f call pc owner wakers hf hout hstep => exact le_refl _
  | dropHandles ha hquiet => exact absurd ha halive
  | spurious hparked =>
    have hwake : State.workerLeft { s with worker := wakeWorker s.worker } ≤ s.workerLeft := left_wake
    simp only [State.left]
    omega
  | queue s' h => exact absurd rfl hqueue
  | work s' h => exact absurd rfl hwork
  | writer outcome s' h => exact absurd rfl (hwriter outcome)
  | _ => exact absurd rfl hdrop

/-- **What is left to do** does not grow, and each step of the worker or the drop lessens it. -/
theorem left_step (kept : s.Kept) (h : s.Joinable) (hclosing : s.drop.closing = true)
    (hs : step config s a = some s') : s'.left ≤ s.left ∧ (closers s a → s'.left < s.left) := by
  have hshutdown : s.shutdown = true := h.shutdown.trans hclosing
  have halive : s.drop ≠ .alive := fun halive => alive_not_closing halive hclosing
  have hlt : s'.left < s.left → s'.left ≤ s.left ∧ (closers s a → s'.left < s.left) :=
    fun hlt => ⟨hlt.le, fun _ => hlt⟩
  have hother : closers s a → a = .work ∨ (∃ outcome, a = .writer outcome) ∨ a = .stepQueue ∨
      a = .stepDrop := by
    rintro (((hwork | hwriter) | ⟨hqueue, -⟩) | (hdrop | ⟨hqueue, -⟩))
    · exact Or.inl hwork
    · exact Or.inr (Or.inl hwriter)
    · exact Or.inr (Or.inr (Or.inl hqueue))
    · exact Or.inr (Or.inr (Or.inr hdrop))
    · exact Or.inr (Or.inr (Or.inl hqueue))
  cases a with
  | work => exact hlt (left_workerStep hshutdown hs)
  | writer outcome => exact hlt (left_writerStep hs)
  | stepDrop => exact hlt (left_dropStep hclosing hs)
  | stepQueue =>
    have hbusy : s.queueSection ≠ .free := by
      intro hfree
      have hnone : queueStep config s s.queueSection = none := by rw [hfree]; rfl
      cases hnone.symm.trans hs
    have hof := ofWorker_of_closing kept hclosing hbusy
    exact hlt (left_queueStep (kept.ordered.inside.mp hof) hof hshutdown hs)
  | _ =>
    refine ⟨left_aside kept halive ?_ ?_ ?_ ?_ hs, fun hturn => ?_⟩
    · exact Action.noConfusion
    · exact fun outcome => Action.noConfusion
    · exact Action.noConfusion
    · exact Action.noConfusion
    · obtain he | ⟨_, he⟩ | he | he := hother hturn <;> cases he

/-- **Nobody is stuck**: until the drop returns, the drop or the worker could act, unless the worker
waits for a waiter to give the progress lock back. -/
theorem closers_enabled (kept : s.Kept) (h : s.Joinable) (hclosing : s.drop.closing = true)
    (hdone : s.drop ≠ .done) : Enabled (step config) closers s ∨
      (s.progressOwner ≠ none ∧ ∃ next, s.worker = .notifyProgress next) := by
  have hdropper : (∃ t, dropStep s s.drop = some t) → Enabled (step config) closers s :=
    fun ⟨t, ht⟩ => ⟨.stepDrop, t, Or.inr (Or.inl rfl), ht⟩
  cases hd : s.drop with
  | alive | lockQueue =>
    rw [hd] at hclosing
    cases hclosing
  | loadNext | storeRequested next | notify => exact Or.inl (hdropper (by rw [hd]; exact ⟨_, rfl⟩))
  | done => exact absurd hd hdone
  | join =>
    by_cases hgone : s.worker = .terminated
    · exact Or.inl (hdropper ⟨{ s with drop := .done }, by rw [hd, dropStep, if_pos hgone]⟩)
    · have hparked := h.parked (by rw [hd]; rfl)
      obtain ⟨b, t, hturn, ht⟩ | ⟨hbusy, hw⟩ | hlocked :=
        worker_enabled config kept.ordered hparked hgone
      · exact Or.inl ⟨b, t, Or.inl hturn, ht⟩
      · -- nobody but the worker itself could be in the queue
        have hinside := kept.ordered.inside.mp (ofWorker_of_closing kept hclosing hbusy)
        rw [hinside] at hw
        obtain he | ⟨processed, he⟩ := hw <;> cases he
      · exact Or.inr hlocked

/-! ## Fair behaviours -/

/-- What every state of every run is like. -/
structure State.Orderly (s : State) : Prop where
  kept : s.Kept
  guarded : s.Guarded
  joinable : s.Joinable

theorem orderly_initial : initial.Orderly := ⟨kept_initial, guarded_initial, joinable_initial⟩

theorem orderly_step (h : s.Orderly) (hs : step config s a = some s') : s'.Orderly where
  kept := kept_step h.kept hs
  guarded := guarded_step h.guarded hs
  joinable := joinable_step h.kept h.joinable hs

variable {b : Behaviour (step config)}

theorem orderly_behaviour (hstart : b.state 0 = initial) (n : ℕ) : (b.state n).Orderly :=
  Behaviour.stable Behaviour.admits_always (fun _ => trivial) (I := fun _ => True)
    (fun _ _ _ _ h _ hs => orderly_step h hs) (hstart ▸ orderly_initial) (Nat.zero_le n)

/-- Only the drop itself goes on with the drop. -/
theorem drop_eq (halive : s.drop ≠ .alive) (ha : a ≠ .stepDrop) (hs : step config s a = some s') :
    s'.drop = s.drop := by
  cases moves_of_step hs with
  | dropHandles h _ => exact absurd h halive
  | dropLock _ _ => exact absurd rfl ha
  | dropLoad _ => exact absurd rfl ha
  | dropStore _ _ => exact absurd rfl ha
  | dropNotify _ => exact absurd rfl ha
  | dropJoin _ _ => exact absurd rfl ha
  | queue s' h => exact (queueStep_frame h).drop
  | work s' h => exact (workerStep_frame h).drop
  | writer outcome s' h => exact (writerStep_frame h).drop
  | _ => rfl

theorem closing_kept (hclosing : s.drop.closing = true) (hs : step config s a = some s') :
    s'.drop.closing = true := by
  by_cases ha : a = .stepDrop
  · rw [ha] at hs
    have hdrop : dropStep s s.drop = some s' := hs
    cases hd : s.drop with
    | alive | lockQueue =>
      rw [hd] at hclosing
      cases hclosing
    | join =>
      simp only [hd, dropStep] at hdrop
      split at hdrop <;> cases hdrop
      rfl
    | _ =>
      rw [hd] at hdrop
      cases hdrop <;> rfl
  · rw [drop_eq (fun halive => alive_not_closing halive hclosing) ha hs]
    exact hclosing

/-- The drop gets hold of the queue. -/
theorem leadsTo_closing (hstart : b.state 0 = initial) (hfair : FairToAll b) :
    b.LeadsTo (fun s => s.drop = .lockQueue) fun s => s.drop.closing = true := by
  have hI := orderly_behaviour hstart
  refine Behaviour.leadsTo_of_fair (fun _ => 0) ?_ (hfair .dropper) Behaviour.admits_always hI ?_
  · intro s a t hinv _ hduring _ _ hs
    have halive : s.drop ≠ .alive := by rw [hduring]; exact DropPc.noConfusion
    by_cases ha : a = .stepDrop
    · rw [ha] at hs
      have hdrop : dropStep s s.drop = some t := hs
      simp only [hduring, dropStep] at hdrop
      split at hdrop <;> cases hdrop
      exact Or.inl rfl
    · refine Or.inr ⟨(drop_eq halive ha hs).trans hduring, le_refl _, fun hturn => ?_⟩
      exact absurd (hturn.resolve_right fun hqueue => hqueue.2) ha
  · intro n hn
    have henabled : ∀ s : State, s.drop = .lockQueue → s.queueSection = .free →
        Enabled (step config) Party.dropper.turn s :=
      fun s hdrop hfree => ⟨.stepDrop, { s with drop := .loadNext, shutdown := true }, Or.inl rfl,
        by show dropStep s s.drop = _; rw [hdrop, dropStep, if_pos hfree]⟩
    -- the drop waits as long as the queue is held
    have hwaits : ∀ s a t, s.Orderly → s.drop = .lockQueue → s.queueSection ≠ .free →
        Transition.always s a → step config s a = some t → t.drop = .lockQueue := by
      intro s a t _ hdrop hbusy _ hs
      have halive : s.drop ≠ .alive := by rw [hdrop]; exact DropPc.noConfusion
      by_cases ha : a = .stepDrop
      · rw [ha] at hs
        have hstep : dropStep s s.drop = some t := hs
        simp only [hdrop, dropStep, if_neg hbusy] at hstep
        cases hstep
      · exact (drop_eq halive ha hs).trans hdrop
    by_cases hfree : (b.state n).queueSection = .free
    · exact ⟨n, le_refl n, Or.inr (henabled _ hn hfree)⟩
    · obtain ⟨m, hle, hfree, hdrop⟩ := leadsTo_free hfair Behaviour.admits_always hI
        (fun s h => h.kept) hwaits n ⟨hfree, hn⟩
      exact ⟨m, hle, Or.inr (henabled _ hdrop hfree)⟩

/-- The drop returns. -/
theorem leadsTo_done (hstart : b.state 0 = initial) (hfair : FairToAll b) :
    b.LeadsTo (fun s => s.drop.closing = true) fun s => s.drop = .done := by
  have hI := orderly_behaviour hstart
  have hboth : b.Fair closers := (hfair .worker).or (hfair .dropper)
  refine Behaviour.leadsTo_of_fair (fun s => s.left) ?_ hboth Behaviour.admits_always hI ?_
  · intro s a t hinv _ hclosing _ _ hs
    obtain ⟨hle, hlt⟩ := left_step hinv.kept hinv.joinable hclosing hs
    exact Or.inr ⟨closing_kept hclosing hs, hle, hlt⟩
  · intro n hn
    by_cases hdone : (b.state n).drop = .done
    · exact ⟨n, le_refl n, Or.inl hdone⟩
    obtain henabled | ⟨hlocked, -⟩ := closers_enabled (hI n).kept (hI n).joinable hn hdone
    · exact ⟨n, le_refl n, Or.inr henabled⟩
    · obtain ⟨m, hle, hfree, hclosing⟩ := leadsTo_unlocked hfair Behaviour.admits_always hI
        (P := fun s => s.drop.closing = true) (fun s h => h.guarded)
        (fun s a t _ hP _ _ hs => closing_kept hP hs) n ⟨hlocked, hn⟩
      by_cases hdone : (b.state m).drop = .done
      · exact ⟨m, hle, Or.inl hdone⟩
      · refine ⟨m, hle, Or.inr ?_⟩
        have hm := hI m
        exact (closers_enabled hm.kept hm.joinable hclosing hdone).resolve_right
          fun hlocked => hlocked.1 hfree

theorem watchful_behaviour (hstart : b.state 0 = initial) (n : ℕ) : (b.state n).Watchful := by
  have hrun := b.reaches Behaviour.admits_always n
  rw [hstart] at hrun
  have horderly := orderly_behaviour hstart n
  exact ⟨horderly.kept.ordered, horderly.guarded, heeded_of_reaches hrun⟩

/-- Nobody has anything to do, unless somebody calls. -/
def State.Still (s : State) : Prop :=
  (s.worker = .terminated ∨ s.worker = .parked) ∧ (s.drop = .done ∨ s.drop = .alive) ∧
    s.queueSection = .free ∧ (∀ pc ∈ s.emits, pc = .done) ∧
      ∀ call ∈ s.flushes, call.pc.answered = true ∨ call.pc = .held

instance (s : State) : Decidable s.Still := inferInstanceAs (Decidable (_ ∧ _))

theorem still_stuck (h : s.Still) (party : Party) : ¬ Enabled (step config) party.turn s := by
  obtain ⟨hworker, hdrop, hfree, hemits, hflushes⟩ := h
  rintro ⟨a, t, hown | ⟨-, hholds⟩, hs⟩
  · cases party with
    | worker =>
      obtain rfl | ⟨outcome, rfl⟩ := hown
      · have hstep : workerStep s s.worker = some t := hs
        obtain he | he := hworker <;> rw [he] at hstep <;> cases hstep
      · have hstep : writerStep s outcome s.worker = some t := hs
        obtain he | he := hworker <;> rw [he] at hstep <;> cases hstep
    | dropper =>
      cases hown
      have hstep : dropStep s s.drop = some t := hs
      obtain he | he := hdrop <;> rw [he] at hstep <;> cases hstep
    | emitter i =>
      obtain rfl | rfl := hown
      all_goals
        obtain ⟨pc, hi, hstep⟩ := Option.bind_eq_some_iff.mp hs
        rw [hemits pc (List.mem_of_getElem? hi)] at hstep
        cases hstep
    | flusher f =>
      cases hown
      obtain ⟨⟨pc, target, captured⟩, hf, hstep⟩ := Option.bind_eq_some_iff.mp hs
      obtain hdone | hheld := hflushes _ (List.mem_of_getElem? hf)
      · cases pc with
        | resolved result => cases hstep
        | _ => cases hdone
      · cases hheld
        cases hstep
  · exact Party.busy hholds hfree

/-- A record is accepted and its barrier waited for; the handles are dropped and the waiter parks; the
worker writes, flushes and stops. -/
def closeDown : List Action :=
  [.callEmit bareEvent, .stepEmit 0, .stepEmit 0, .stepQueue, .stepQueue, .stepQueue, .stepEmit 0,
    .callFlush, .stepFlush 0, .stepFlush 0, .stepFlush 0, .wait 0, .dropHandles,
    .stepFlush 0, .stepFlush 0, .stepFlush 0, .stepFlush 0, .stepDrop, .stepDrop, .stepDrop, .stepDrop,
    .work, .stepQueue, .writer .ok, .work, .work, .work, .work, .writer .ok,
    .work, .work, .work, .work, .work, .work, .work, .work, .work, .work, .work,
    .stepFlush 0, .stepFlush 0, .stepFlush 0, .stepFlush 0, .stepDrop]

end Logwise.AsyncSink
