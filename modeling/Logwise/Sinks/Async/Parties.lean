import Logwise.Sinks.Async.Progress
import Logwise.Library.Fairness

/-!
# Who steps the asynchronous sink, and what locks them out

The worker, the drop of the last handle and every call run on threads of their own. A fair behaviour
lets each of them act that could act again and again; the mutexes are then free again and again,
since whoever holds one is never locked out itself.
-/

namespace Logwise.AsyncSink

open Transition (Behaviour Enabled Nears)

variable {config : Config} {s s' : State} {a : Action}

inductive Party where
  | worker
  | dropper
  | emitter (i : ℕ)
  | flusher (f : ℕ)

def Party.holds : Party → QueueSection → Prop
  | .worker, q => q.ofWorker = true
  | .emitter i, q => q.emitter = some i
  | .dropper, _ | .flusher _, _ => False

/-- A writer that is called returns, or unwinds, when it is the worker's turn. -/
def Party.own : Party → Action → Prop
  | .worker, a => a = .work ∨ ∃ outcome, a = .writer outcome
  | .dropper, a => a = .stepDrop
  | .emitter i, a => a = .stepEmit i ∨ a = .refuseEmit i
  | .flusher f, a => a = .stepFlush f

/-- The steps of a party; the queue is stepped by its holder. -/
def Party.turn (party : Party) (s : State) (a : Action) : Prop :=
  party.own a ∨ (a = .stepQueue ∧ party.holds s.queueSection)

/-- Every party is treated fairly. -/
def FairToAll (b : Behaviour (step config)) : Prop := ∀ party : Party, b.Fair party.turn

/-! ## The queue -/

/-- The steps its holder still makes, at most. -/
def QueueSection.left : QueueSection → ℕ
  | .free => 0
  | .emitTest _ _ => 5
  | .emitLoadRequested _ _ => 4
  | .emitLoadFlushed _ _ _ => 3
  | .emitSequence _ _ => 2
  | .emitPush _ _ _ => 1
  | .workerPop => 4
  | .workerLoadRequested => 3
  | .workerLoadFlushed _ => 2
  | .workerTest _ _ => 1

variable (config) in
theorem exists_queueStep (hq : s.queueSection ≠ .free) :
    ∃ t, queueStep config s s.queueSection = some t := by
  cases h : s.queueSection with
  | free => exact absurd h hq
  | emitTest i owned =>
    simp only [queueStep]
    split
    · split <;> exact ⟨_, rfl⟩
    · exact ⟨_, rfl⟩
  | workerPop =>
    simp only [queueStep]
    split <;> exact ⟨_, rfl⟩
  | emitLoadFlushed i owned requested | workerTest requested flushed =>
    simp only [queueStep]
    split <;> exact ⟨_, rfl⟩
  | _ => exact ⟨_, rfl⟩

/-- The holder comes closer to giving the queue back, or gives it back. -/
theorem queueStep_left (hs : queueStep config s s.queueSection = some s') :
    s'.queueSection = .free ∨ (s'.queueSection.emitter = s.queueSection.emitter ∧
      s'.queueSection.ofWorker = s.queueSection.ofWorker ∧
        s'.queueSection.left < s.queueSection.left) := by
  cases hq : s.queueSection <;> simp only [hq, queueStep, reduceCtorEq] at hs <;>
    (try (split at hs <;> try split at hs)) <;> cases hs <;>
      simp [QueueSection.emitter, QueueSection.ofWorker, QueueSection.left]

theorem exists_holds (hq : s.queueSection ≠ .free) : ∃ party : Party, party.holds s.queueSection := by
  cases h : s.queueSection with
  | free => exact absurd h hq
  | workerPop | workerLoadRequested | workerLoadFlushed _ | workerTest _ _ =>
    exact ⟨.worker, rfl⟩
  | emitTest i _ | emitLoadRequested i _ | emitLoadFlushed i _ _ | emitSequence i _
  | emitPush i _ _ => exact ⟨.emitter i, rfl⟩

theorem Party.busy {party : Party} (h : party.holds s.queueSection) : s.queueSection ≠ .free := by
  intro hfree
  rw [hfree] at h
  cases party <;> cases h

theorem Party.holds_congr {party : Party} {q q' : QueueSection} (h : party.holds q)
    (hemitter : q'.emitter = q.emitter) (hworker : q'.ofWorker = q.ofWorker) : party.holds q' := by
  cases party with
  | worker => exact hworker.trans h
  | emitter i => exact hemitter.trans h
  | dropper => exact h
  | flusher f => exact h

/-- Who holds the queue does nothing else meanwhile. -/
theorem Party.own_stuck (kept : s.Kept) {party : Party} (h : party.holds s.queueSection)
    (hown : party.own a) : step config s a = none := by
  cases party with
  | worker =>
    have hinside := kept.ordered.inside.mp h
    obtain rfl | ⟨outcome, rfl⟩ := hown
    · show workerStep s s.worker = none
      rw [hinside]
      rfl
    · show writerStep s outcome s.worker = none
      rw [hinside]
      rfl
  | emitter i =>
    have hinside := kept.calls.inside i h
    obtain rfl | rfl := hown
    all_goals
      show s.emits[i]?.bind _ = none
      rw [hinside]
      rfl
  | dropper => cases h
  | flusher f => cases h

/-- While the queue is held only its holder changes that. -/
theorem queueSection_eq (hq : s.queueSection ≠ .free) (ha : a ≠ .stepQueue)
    (hs : step config s a = some s') : s'.queueSection = s.queueSection := by
  cases moves_of_step hs with
  | emitEnter i owned hi hfree => exact absurd hfree hq
  | queue s' h => exact absurd rfl ha
  | work s' h => exact (workerStep_frame h).queue.elim And.left fun hfree => absurd hfree.1 hq
  | writer outcome s' h => exact (writerStep_frame h).queueSection
  | _ => rfl

variable {b : Behaviour (step config)} {ok : State → Action → Prop} {I P : State → Prop}

/-- **The queue is free again and again**, and what its holder leaves alone is kept until then. -/
theorem leadsTo_free (hfair : FairToAll b) (hok : b.Admits ok) (hI : ∀ n, I (b.state n))
    (hkept : ∀ s, I s → s.Kept)
    (hP : ∀ s a t, I s → P s → s.queueSection ≠ .free → ok s a → step config s a = some t → P t) :
    b.LeadsTo (fun s => s.queueSection ≠ .free ∧ P s) fun s => s.queueSection = .free ∧ P s := by
  intro n hn
  obtain ⟨party, hparty⟩ := exists_holds hn.1
  have hlead : b.LeadsTo (fun s => party.holds s.queueSection ∧ P s)
      fun s => s.queueSection = .free ∧ P s := by
    refine Behaviour.leadsTo_of_fair (fun s => s.queueSection.left) ?_ (hfair party) hok hI
      (Behaviour.leadsTo_of_imp fun n hn => Or.inr ?_)
    · intro s a t hinv _ hduring _ hguard hs
      have hbusy := Party.busy hduring.1
      have hstays := hP s a t hinv hduring.2 hbusy hguard hs
      by_cases ha : a = .stepQueue
      · rw [ha] at hs
        obtain hfree | ⟨hemitter, hworker, hlt⟩ := queueStep_left hs
        · exact Or.inl ⟨hfree, hstays⟩
        · exact Or.inr ⟨⟨Party.holds_congr hduring.1 hemitter hworker, hstays⟩, hlt.le, fun _ => hlt⟩
      · have heq := queueSection_eq hbusy ha hs
        simp only [heq]
        refine Or.inr ⟨⟨hduring.1, hstays⟩, le_refl _, fun hmine => ?_⟩
        have hown := hmine.resolve_right fun hqueue => ha hqueue.1
        rw [Party.own_stuck (hkept s hinv) hduring.1 hown] at hs
        cases hs
    · obtain ⟨t, ht⟩ := exists_queueStep config (Party.busy hn.1)
      exact ⟨.stepQueue, t, Or.inr ⟨rfl, hn.1⟩, ht⟩
  exact hlead n ⟨hparty, hn.2⟩

/-- The worker is at a mutex that is taken. -/
def State.lockedOut (s : State) : Prop :=
  s.queueSection ≠ .free ∧ (s.worker = .lock ∨ ∃ processed, s.worker = .checkStop processed) ∨
    s.progressOwner ≠ none ∧ ∃ next, s.worker = .notifyProgress next

variable (config) in
/-- A worker that is neither parked nor gone could act, unless it is locked out. -/
theorem worker_enabled (ho : s.Ordered) (hparked : s.worker ≠ .parked)
    (hgone : s.worker ≠ .terminated) :
    Enabled (step config) Party.worker.turn s ∨ s.lockedOut := by
  have hwork : (∃ t, workerStep s s.worker = some t) → Enabled (step config) Party.worker.turn s :=
    fun ⟨t, ht⟩ => ⟨.work, t, Or.inl (Or.inl rfl), ht⟩
  have hwriter : (∃ t, writerStep s .ok s.worker = some t) →
      Enabled (step config) Party.worker.turn s :=
    fun ⟨t, ht⟩ => ⟨.writer .ok, t, Or.inl (Or.inr ⟨.ok, rfl⟩), ht⟩
  cases hw : s.worker with
  | parked => exact absurd hw hparked
  | terminated => exact absurd hw hgone
  | inside =>
    have hof : Party.worker.holds s.queueSection := ho.inside.mpr hw
    obtain ⟨t, ht⟩ := exists_queueStep config (Party.busy hof)
    exact Or.inl ⟨.stepQueue, t, Or.inr ⟨rfl, hof⟩, ht⟩
  | write queued | flush processed | finalFlush processed =>
    exact Or.inl (hwriter (by rw [hw]; exact ⟨_, rfl⟩))
  | lock =>
    by_cases hfree : s.queueSection = .free
    · exact Or.inl (hwork (by rw [hw]; exact ⟨_, if_pos hfree⟩))
    · exact Or.inr (Or.inl ⟨hfree, Or.inl hw⟩)
  | checkStop processed =>
    by_cases hfree : s.queueSection = .free
    · refine Or.inl (hwork ?_)
      simp only [hw, workerStep, if_pos hfree]
      split <;> exact ⟨_, rfl⟩
    · exact Or.inr (Or.inl ⟨hfree, Or.inr ⟨processed, hw⟩⟩)
  | notifyProgress next =>
    by_cases hfree : s.progressOwner = none
    · exact Or.inl (hwork (by rw [hw]; exact ⟨_, if_pos hfree⟩))
    · exact Or.inr (Or.inr ⟨hfree, next, hw⟩)
  | loadRequested processed | loadFlushed processed requested | loadFinal processed =>
    refine Or.inl (hwork ?_)
    simp only [hw, workerStep]
    split <;> exact ⟨_, rfl⟩
  | _ => exact Or.inl (hwork (by rw [hw]; exact ⟨_, rfl⟩))

/-- Nobody else moves a worker that is not parked. -/
theorem worker_kept (hparked : s.worker ≠ .parked) (hturn : ¬ Party.worker.turn s a)
    (hs : step config s a = some s') : s'.worker = s.worker := by
  have hwake : wakeWorker s.worker = s.worker :=
    (wakeWorker_eq s.worker).resolve_right fun h => hparked h.1
  cases moves_of_step hs with
  | emitNotify i hi => exact hwake
  | flushNotify f call hf hpc => exact hwake
  | dropNotify hdrop => exact hwake
  | spurious h => exact absurd h hparked
  | queue s' h =>
    exact (queueStep_frame h).worker.resolve_right fun hof => hturn (Or.inr ⟨rfl, hof.1⟩)
  | work s' h => exact absurd (Or.inl (Or.inl rfl)) hturn
  | writer outcome s' h => exact absurd (Or.inl (Or.inr ⟨outcome, rfl⟩)) hturn
  | _ => rfl

/-! ## The progress lock -/

def State.locks (s : State) (f : ℕ) : Bool := s.flushes[f]?.any fun call => call.pc.locksProgress

/-- The owner of the progress lock is the waiter that has got that far. -/
def State.Guarded (s : State) : Prop := ∀ f, s.progressOwner = some f ↔ s.locks f = true

theorem guarded_initial : initial.Guarded := by
  intro f
  simp [initial, State.locks]

theorem State.Guarded.same (h : s.Guarded) (howner : s'.progressOwner = s.progressOwner)
    (hlocks : ∀ f, s'.locks f = s.locks f) : s'.Guarded := by
  intro f
  rw [howner, hlocks]
  exact h f

theorem State.locks_of (s : State) {f : ℕ} {call : FlushCall} (hf : s.flushes[f]? = some call) :
    s.locks f = call.pc.locksProgress := by
  rw [State.locks, hf]
  rfl

/-- One waiter takes the lock, gives it back, or does neither. -/
theorem State.Guarded.set (h : s.Guarded) {f : ℕ} {call new : FlushCall}
    (hf : s.flushes[f]? = some call) (hflushes : s'.flushes = s.flushes.set f new)
    (hother : ∀ g, g ≠ f → (s'.progressOwner = some g ↔ s.progressOwner = some g))
    (hself : s'.progressOwner = some f ↔ new.pc.locksProgress = true) : s'.Guarded := by
  intro g
  by_cases hg : g = f
  · rw [hg, hself, s'.locks_of (hflushes ▸ Slots.getElem?_set_of_some hf)]
  · rw [hother g hg, h g, State.locks, State.locks, hflushes, List.getElem?_set_ne (Ne.symm hg)]

theorem locks_wakeWaiter (call : FlushCall) :
    (wakeWaiter call).pc.locksProgress = call.pc.locksProgress := by
  obtain ⟨pc, target, captured⟩ := call
  cases pc <;> rfl

theorem guarded_flushStep {f : ℕ} {call : FlushCall} (h : s.Guarded)
    (hf : s.flushes[f]? = some call) (hs : flushStep f call s = some s') : s'.Guarded := by
  obtain ⟨pc, target, captured⟩ := call
  have hself := (h f).trans (by rw [s.locks_of hf] : s.locks f = true ↔ pc.locksProgress = true)
  -- the lock stays where it is
  have hstay : ∀ {new : FlushCall} {t : State}, t.flushes = s.flushes.set f new →
      t.progressOwner = s.progressOwner → new.pc.locksProgress = pc.locksProgress → t.Guarded := by
    intro new t hflushes howner hlocks
    refine h.set hf hflushes (fun g _ => by rw [howner]) ?_
    rw [howner, hself, hlocks]
  have hback : ∀ {new : FlushCall} {t : State}, pc.locksProgress = true →
      t.flushes = s.flushes.set f new → t.progressOwner = none → new.pc.locksProgress = false →
        t.Guarded := by
    intro new t hheld hflushes howner hlocks
    refine h.set hf hflushes (fun g hne => ?_) ?_
    · rw [howner, hself.mpr hheld]
      exact ⟨fun hg => (by cases hg), fun hg => absurd (Option.some.inj hg).symm hne⟩
    · rw [howner, hlocks]
      exact ⟨fun hg => (by cases hg), fun hg => by cases hg⟩
  cases pc with
  | lockQueue =>
    simp only [flushStep] at hs
    split at hs
    · cases hs
      exact hstay rfl rfl rfl
    · cases hs
  | publish | notify | register waker =>
    cases hs
    exact hstay rfl rfl rfl
  | held | parked | resolved result => cases hs
  | lockProgress =>
    simp only [flushStep] at hs
    split at hs
    next hfree =>
      cases hs
      refine h.set hf rfl (fun g hne => ?_) ⟨fun _ => rfl, fun _ => rfl⟩
      rw [hfree]
      exact ⟨fun hg => absurd (Option.some.inj hg).symm hne, fun hg => by cases hg⟩
    next => cases hs
  | loadFlushed use =>
    simp only [flushStep] at hs
    split at hs <;> cases hs <;> exact hstay rfl rfl (by cases use <;> rfl)
  | loadStopped use =>
    simp only [flushStep] at hs
    cases hs
    cases use with
    | waiting =>
      by_cases hstopped : s.stopped = true
      · simp only [hstopped, if_true]
        exact hback rfl rfl rfl rfl
      · simp only [hstopped]
        exact hstay rfl rfl rfl
    | polling waker registered =>
      refine hstay rfl rfl ?_
      split
      · rfl
      · cases registered <;> rfl
  | lockFlushError use =>
    cases hs
    exact hstay rfl rfl (by cases use <;> rfl)
  | lockWriteError use flushError =>
    cases hs
    cases use with
    | waiting => exact hback rfl rfl rfl rfl
    | polling waker registered => exact hstay rfl rfl rfl
  | park =>
    cases hs
    exact hback rfl rfl rfl rfl

theorem locks_map_wakeWaiter (h : s'.flushes = s.flushes.map wakeWaiter) (f : ℕ) :
    s'.locks f = s.locks f := by
  rw [State.locks, State.locks, h, List.getElem?_map]
  cases s.flushes[f]? with
  | none => rfl
  | some call => exact locks_wakeWaiter call

theorem locks_congr (h : s'.flushes = s.flushes) (f : ℕ) : s'.locks f = s.locks f := by
  rw [State.locks, State.locks, h]

/-- What leaves the barriers and the progress lock alone. -/
structure Apart (s s' : State) : Prop where
  flushes : s'.flushes = s.flushes
  progressOwner : s'.progressOwner = s.progressOwner

theorem apart_queueStep (hs : queueStep config s s.queueSection = some s') : Apart s s' := by
  cases hq : s.queueSection <;> simp only [hq, queueStep, reduceCtorEq] at hs <;>
    (try (split at hs <;> try split at hs)) <;> cases hs <;> constructor <;> rfl

theorem apart_writerStep {outcome : Outcome} (hs : writerStep s outcome s.worker = some s') :
    Apart s s' := by
  cases hw : s.worker with
  | write _ | flush _ | finalFlush _ =>
    rw [hw] at hs
    cases outcome <;> cases hs <;> exact ⟨rfl, rfl⟩
  | _ => simp [hw, writerStep] at hs

theorem apart_dropStep (hs : dropStep s s.drop = some s') : Apart s s' := by
  cases hd : s.drop <;> simp only [hd, dropStep, reduceCtorEq] at hs <;> (try split at hs) <;>
    cases hs <;> exact ⟨rfl, rfl⟩

theorem apart_emitStep {i : ℕ} {pc : EmitPc} (hs : emitStep config i s pc = some s') :
    Apart s s' := by
  cases pc <;> simp only [emitStep, reduceCtorEq] at hs <;> (try split at hs) <;> cases hs <;>
    exact ⟨rfl, rfl⟩

/-- The worker takes the progress lock and gives it back in one step. -/
theorem apart_workerStep (hs : workerStep s s.worker = some s') :
    Apart s s' ∨ ((∃ next, s.worker = .notifyProgress next) ∧ s.progressOwner = none ∧
      s'.progressOwner = none ∧ s'.flushes = s.flushes.map wakeWaiter) := by
  cases hw : s.worker with
  | notifyProgress next =>
    simp only [hw, workerStep] at hs
    split at hs
    next hfree =>
      cases hs
      exact Or.inr ⟨⟨next, rfl⟩, hfree, hfree, rfl⟩
    next => cases hs
  | _ =>
    simp only [hw, workerStep, reduceCtorEq] at hs
    try (split at hs <;> try split at hs)
    all_goals
      cases hs
      try exact Or.inl ⟨rfl, rfl⟩

/-- A step is one of a barrier, or one of a new flush, or wakes the waiters, or is none of theirs. -/
inductive BarrierMove (s : State) : Action → State → Prop where
  | apart (a : Action) (s' : State) (h : Apart s s') : BarrierMove s a s'
  | called (s' : State) (hflushes : s'.flushes = s.flushes ++ [⟨.lockQueue, 0, []⟩])
    (howner : s'.progressOwner = s.progressOwner) : BarrierMove s .callFlush s'
  | stepped (f : ℕ) (call : FlushCall) (s' : State) (hf : s.flushes[f]? = some call)
    (hs : flushStep f call s = some s') : BarrierMove s (.stepFlush f) s'
  | begun (a : Action) (f : ℕ) (call : FlushCall) (pc : FlushPc) (hf : s.flushes[f]? = some call)
    (hheld : call.pc = .held)
    (hpc : pc = .lockProgress ∨ ∃ waker, pc = .loadFlushed (.polling waker false)) :
    BarrierMove s a (setFlush f call pc s)
  | roused (a : Action) (f : ℕ) (call : FlushCall) (hf : s.flushes[f]? = some call)
    (hparked : call.pc = .parked) : BarrierMove s a (setFlush f call .lockProgress s)
  | woken (s' : State) (hnotify : ∃ next, s.worker = .notifyProgress next)
    (hfree : s.progressOwner = none) (howner : s'.progressOwner = none)
    (hflushes : s'.flushes = s.flushes.map wakeWaiter) : BarrierMove s .work s'

theorem barrierMove_of_step (hs : step config s a = some s') : BarrierMove s a s' := by
  cases a with
  | callEmit event =>
    simp only [step] at hs
    split at hs <;> cases hs
    exact .apart _ _ ⟨rfl, rfl⟩
  | stepEmit i =>
    obtain ⟨pc, -, hemit⟩ := Option.bind_eq_some_iff.mp hs
    exact .apart _ _ (apart_emitStep hemit)
  | refuseEmit i =>
    obtain ⟨pc, -, hrefused⟩ := Option.bind_eq_some_iff.mp hs
    obtain ⟨-, rfl⟩ := refuseStep_cases hrefused
    exact .apart _ _ ⟨rfl, rfl⟩
  | callFlush =>
    simp only [step] at hs
    split at hs <;> cases hs
    exact .called _ rfl rfl
  | stepFlush f =>
    obtain ⟨call, hf, hflush⟩ := Option.bind_eq_some_iff.mp hs
    exact .stepped f call s' hf hflush
  | wait f =>
    obtain ⟨⟨pc, target, captured⟩, hf, hbarrier⟩ := Option.bind_eq_some_iff.mp hs
    cases pc <;> cases hbarrier
    exact .begun _ f _ _ hf rfl (Or.inl rfl)
  | poll f waker =>
    obtain ⟨⟨pc, target, captured⟩, hf, hbarrier⟩ := Option.bind_eq_some_iff.mp hs
    cases pc <;> cases hbarrier
    exact .begun _ f _ _ hf rfl (Or.inr ⟨waker, rfl⟩)
  | dropHandles =>
    simp only [step] at hs
    split at hs <;> cases hs
    exact .apart _ _ ⟨rfl, rfl⟩
  | stepDrop => exact .apart _ _ (apart_dropStep hs)
  | stepQueue => exact .apart _ _ (apart_queueStep hs)
  | work =>
    obtain hapart | ⟨hnotify, hfree, howner, hflushes⟩ := apart_workerStep hs
    · exact .apart _ _ hapart
    · exact .woken s' hnotify hfree howner hflushes
  | writer outcome => exact .apart _ _ (apart_writerStep hs)
  | spuriousWork =>
    simp only [step] at hs
    split at hs <;> cases hs
    exact .apart _ _ ⟨rfl, rfl⟩
  | spuriousProgress f =>
    obtain ⟨⟨pc, target, captured⟩, hf, hbarrier⟩ := Option.bind_eq_some_iff.mp hs
    cases pc <;> cases hbarrier
    exact .roused _ f _ hf rfl

theorem guarded_step (h : s.Guarded) (hs : step config s a = some s') : s'.Guarded := by
  cases barrierMove_of_step hs with
  | apart a s' hapart => exact h.same hapart.progressOwner (locks_congr hapart.flushes)
  | called s' hflushes howner =>
    refine h.same howner fun f => ?_
    rw [State.locks, State.locks, hflushes]
    obtain hlt | heq | hgt := lt_trichotomy f s.flushes.length
    · rw [List.getElem?_append_left hlt]
    · rw [heq, List.getElem?_concat_length, List.getElem?_eq_none (le_refl _)]
      rfl
    · rw [List.getElem?_eq_none hgt.le, List.getElem?_eq_none (by simpa [Nat.succ_le_iff] using hgt)]
  | stepped f call s' hf hflush => exact guarded_flushStep h hf hflush
  | begun a f call pc hf hheld hpc =>
    have hnew : pc.locksProgress = false := by obtain rfl | ⟨waker, rfl⟩ := hpc <;> rfl
    refine h.set hf rfl (fun g _ => Iff.rfl) ((h f).trans ?_)
    rw [s.locks_of hf, hheld, hnew]
    rfl
  | roused a f call hf hparked =>
    refine h.set hf rfl (fun g _ => Iff.rfl) ((h f).trans ?_)
    rw [s.locks_of hf, hparked]
    rfl
  | woken s' hnotify hfree howner hflushes =>
    exact h.same (howner.trans hfree.symm) (locks_map_wakeWaiter hflushes)

/-- The steps a waiter still makes until it has its answer or parks, at most. -/
def FlushPc.left : FlushPc → ℕ
  | .lockProgress => 5
  | .loadFlushed .waiting => 4
  | .loadStopped .waiting | .lockFlushError .waiting => 3
  | .lockWriteError .waiting _ => 2
  | .park => 1
  | _ => 0

def State.barrierLeft (s : State) (f : ℕ) : ℕ := (s.flushes[f]?.map fun call => call.pc.left).getD 0

theorem State.barrierLeft_of (s : State) {f : ℕ} {call : FlushCall}
    (hf : s.flushes[f]? = some call) : s.barrierLeft f = call.pc.left := by
  rw [State.barrierLeft, hf]
  rfl

/-- The owner comes closer to giving the progress lock back, or gives it back. -/
theorem owner_flushStep {f : ℕ} {call : FlushCall} (hlocks : call.pc.locksProgress = true)
    (howner : s.progressOwner = some f) (hf : s.flushes[f]? = some call) :
    ∃ t, flushStep f call s = some t ∧ (t.progressOwner = none ∨
      (t.progressOwner = some f ∧ t.barrierLeft f < s.barrierLeft f)) := by
  obtain ⟨pc, target, captured⟩ := call
  have hset : ∀ {new : FlushCall} {t : State}, t.flushes = s.flushes.set f new →
      t.progressOwner = s.progressOwner → new.pc.left < pc.left →
        t.progressOwner = some f ∧ t.barrierLeft f < s.barrierLeft f := by
    intro new t hflushes hsame hlt
    have hnew : t.flushes[f]? = some new := hflushes ▸ Slots.getElem?_set_of_some hf
    rw [t.barrierLeft_of hnew, s.barrierLeft_of hf]
    exact ⟨hsame.trans howner, hlt⟩
  cases pc with
  | loadFlushed use =>
    cases use with
    | polling waker registered => cases hlocks
    | waiting =>
      simp only [flushStep]
      split <;> exact ⟨_, rfl, Or.inr (hset rfl rfl (by decide : 3 < 4))⟩
  | loadStopped use =>
    cases use with
    | polling waker registered => cases hlocks
    | waiting =>
      refine ⟨_, rfl, ?_⟩
      by_cases hstopped : s.stopped = true
      · simp only [hstopped, if_true]
        exact Or.inl rfl
      · simp only [hstopped]
        exact Or.inr (hset rfl rfl (by decide : 1 < 3))
  | lockFlushError use =>
    cases use with
    | polling waker registered => cases hlocks
    | waiting => exact ⟨_, rfl, Or.inr (hset rfl rfl (by decide : 2 < 3))⟩
  | lockWriteError use flushError =>
    cases use with
    | polling waker registered => cases hlocks
    | waiting => exact ⟨_, rfl, Or.inl rfl⟩
  | park => exact ⟨_, rfl, Or.inl rfl⟩
  | _ => cases hlocks

theorem flushes_flushStep {f : ℕ} {call : FlushCall} (hs : flushStep f call s = some s') :
    ∃ new, s'.flushes = s.flushes.set f new := by
  obtain ⟨pc, target, captured⟩ := call
  cases pc <;> simp only [flushStep, reduceCtorEq] at hs <;> (try split at hs) <;> cases hs <;>
    exact ⟨_, rfl⟩

/-- The others can neither take the lock nor move its owner. -/
theorem owner_kept (h : s.Guarded) {f : ℕ} (howner : s.progressOwner = some f)
    (ha : a ≠ .stepFlush f) (hs : step config s a = some s') :
    s'.progressOwner = some f ∧ s'.barrierLeft f = s.barrierLeft f := by
  have hlocks := (h f).mp howner
  have hin : f < s.flushes.length := by
    by_contra hout
    rw [State.locks, List.getElem?_eq_none (not_lt.mp hout)] at hlocks
    cases hlocks
  -- a step that leaves this waiter's place in the list alone
  have hplace : s'.flushes[f]? = s.flushes[f]? → s'.progressOwner = some f ∧
      s'.barrierLeft f = s.barrierLeft f := by
    intro hsame
    refine ⟨(guarded_step h hs f).mpr ?_, ?_⟩
    · rw [State.locks, hsame]
      exact hlocks
    · rw [State.barrierLeft, State.barrierLeft, hsame]
  cases barrierMove_of_step hs with
  | apart a s' hapart => exact hplace (by rw [hapart.flushes])
  | called s' hflushes _ => exact hplace (by rw [hflushes, List.getElem?_append_left hin])
  | stepped g call s' hg hflush =>
    have hne : g ≠ f := fun heq => ha (by rw [heq])
    refine hplace ?_
    obtain ⟨new, hflushes⟩ := flushes_flushStep hflush
    rw [hflushes, List.getElem?_set_ne hne]
  | begun a g call pc hg hidle hpc =>
    have hne : g ≠ f := by
      rintro rfl
      rw [s.locks_of hg, hidle] at hlocks
      cases hlocks
    exact hplace (List.getElem?_set_ne hne)
  | roused a g call hg hidle =>
    have hne : g ≠ f := by
      rintro rfl
      rw [s.locks_of hg, hidle] at hlocks
      cases hlocks
    exact hplace (List.getElem?_set_ne hne)
  | woken s' _ hfree _ _ => cases hfree.symm.trans howner

/-- **The progress lock is free again and again**, and what its owner leaves alone is kept until
then. -/
theorem leadsTo_unlocked (hfair : FairToAll b) (hok : b.Admits ok) (hI : ∀ n, I (b.state n))
    (hguarded : ∀ s, I s → s.Guarded)
    (hP : ∀ s a t, I s → P s → s.progressOwner ≠ none → ok s a → step config s a = some t → P t) :
    b.LeadsTo (fun s => s.progressOwner ≠ none ∧ P s) fun s => s.progressOwner = none ∧ P s := by
  intro n hn
  obtain ⟨f, hf⟩ := Option.ne_none_iff_exists'.mp hn.1
  have hlead : b.LeadsTo (fun s => s.progressOwner = some f ∧ P s)
      fun s => s.progressOwner = none ∧ P s := by
    refine Behaviour.leadsTo_of_fair (fun s => s.barrierLeft f) ?_ (hfair (.flusher f)) hok hI
      (Behaviour.leadsTo_of_imp fun n hn => Or.inr ?_)
    · intro s a t hinv _ hduring _ hguard hs
      have howned : s.progressOwner ≠ none := by rw [hduring.1]; exact Option.some_ne_none f
      have hstays := hP s a t hinv hduring.2 howned hguard hs
      by_cases ha : a = .stepFlush f
      · rw [ha] at hs
        obtain ⟨call, hcall, hflush⟩ := Option.bind_eq_some_iff.mp hs
        have hlocks := (hguarded s hinv f).mp hduring.1
        rw [s.locks_of hcall] at hlocks
        obtain ⟨t', ht', hend⟩ := owner_flushStep hlocks hduring.1 hcall
        cases ht'.symm.trans hflush
        obtain hfree | ⟨howner, hlt⟩ := hend
        · exact Or.inl ⟨hfree, hstays⟩
        · exact Or.inr ⟨⟨howner, hstays⟩, hlt.le, fun _ => hlt⟩
      · obtain ⟨howner, heq⟩ := owner_kept (hguarded s hinv) hduring.1 ha hs
        refine Or.inr ⟨⟨howner, hstays⟩, heq.le, fun hturn => ?_⟩
        exact absurd (hturn.resolve_right fun hqueue => hqueue.2) ha
    · have hlocks := (hguarded _ (hI n) f).mp hn.1
      obtain ⟨call, hcall, hpc⟩ := (Option.any_eq_true _ _).mp hlocks
      obtain ⟨t, ht, -⟩ := owner_flushStep hpc hn.1 hcall
      exact ⟨.stepFlush f, t, Or.inl rfl, Option.bind_eq_some_iff.mpr ⟨call, hcall, ht⟩⟩
  exact hlead n ⟨hf, hn.2⟩

/-- **A worker that is locked out gets in.** -/
theorem leadsTo_enabled (hfair : FairToAll b) (hok : b.Admits ok) (hI : ∀ n, I (b.state n))
    (hkept : ∀ s, I s → s.Kept) (hguarded : ∀ s, I s → s.Guarded) :
    b.LeadsTo State.lockedOut fun s => Enabled (step config) Party.worker.turn s := by
  rintro n (⟨hbusy, hw⟩ | ⟨hlocked, hw⟩)
  · have hstays : ∀ s a t, I s → (s.worker = .lock ∨ ∃ processed, s.worker = .checkStop processed) →
        s.queueSection ≠ .free → ok s a → step config s a = some t →
          (t.worker = .lock ∨ ∃ processed, t.worker = .checkStop processed) := by
      intro s a t hinv hw hbusy _ hs
      have hparked : s.worker ≠ .parked := by
        obtain he | ⟨processed, he⟩ := hw <;> rw [he] <;> exact WorkerPc.noConfusion
      rw [worker_kept hparked ?_ hs]
      · exact hw
      · rintro ((rfl | ⟨outcome, rfl⟩) | ⟨-, hholds⟩)
        · have hstep : workerStep s s.worker = some t := hs
          obtain he | ⟨processed, he⟩ := hw <;> simp only [he, workerStep, if_neg hbusy] at hstep <;>
            cases hstep
        · have hstep : writerStep s outcome s.worker = some t := hs
          obtain he | ⟨processed, he⟩ := hw <;> rw [he] at hstep <;> cases hstep
        · have hinside := (hkept s hinv).ordered.inside.mp hholds
          rw [hinside] at hw
          obtain he | ⟨processed, he⟩ := hw <;> cases he
    obtain ⟨m, hle, hfree, hw⟩ := leadsTo_free hfair hok hI hkept hstays n ⟨hbusy, hw⟩
    refine ⟨m, hle, (worker_enabled config (hkept _ (hI m)).ordered ?_ ?_).resolve_right ?_⟩
    · obtain he | ⟨processed, he⟩ := hw <;> rw [he] <;> exact WorkerPc.noConfusion
    · obtain he | ⟨processed, he⟩ := hw <;> rw [he] <;> exact WorkerPc.noConfusion
    · rintro (⟨hbusy, -⟩ | ⟨-, next, hnext⟩)
      · exact hbusy hfree
      · rw [hnext] at hw
        obtain he | ⟨processed, he⟩ := hw <;> cases he
  · have hstays : ∀ s a t, I s → (∃ next, s.worker = .notifyProgress next) →
        s.progressOwner ≠ none → ok s a → step config s a = some t →
          ∃ next, t.worker = .notifyProgress next := by
      intro s a t hinv hnotify hlocked _ hs
      obtain ⟨next, hw⟩ := hnotify
      refine ⟨next, (worker_kept (by rw [hw]; exact WorkerPc.noConfusion) ?_ hs).trans hw⟩
      rintro ((rfl | ⟨outcome, rfl⟩) | ⟨-, hholds⟩)
      · have hstep : workerStep s s.worker = some t := hs
        simp only [hw, workerStep, if_neg hlocked] at hstep
        cases hstep
      · have hstep : writerStep s outcome s.worker = some t := hs
        rw [hw] at hstep
        cases hstep
      · cases hw.symm.trans ((hkept s hinv).ordered.inside.mp hholds)
    obtain ⟨m, hle, hfree, next, hw⟩ := leadsTo_unlocked hfair hok hI hguarded hstays n
      ⟨hlocked, hw⟩
    refine ⟨m, hle, (worker_enabled config (hkept _ (hI m)).ordered ?_ ?_).resolve_right ?_⟩
    · exact fun he => by cases hw.symm.trans he
    · exact fun he => by cases hw.symm.trans he
    · rintro (⟨-, he | ⟨processed, he⟩⟩ | ⟨hlocked, -⟩)
      · cases hw.symm.trans he
      · cases hw.symm.trans he
      · exact hlocked hfree

end Logwise.AsyncSink
