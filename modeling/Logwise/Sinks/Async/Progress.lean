import Logwise.Sinks.Async.Calls

/-!
# Does a barrier hear of its completion?

The worker publishes `flushed_sequence` and `stopped` outside every lock and notifies afterwards. A
waiter tests and parks under the progress lock, which the notification takes; a poll registers its
waker and tests again. `Watched` adds what the machine itself does not record: whether a publication
still waits for its notification, and when each barrier's last poll registered which waker.
-/

namespace Logwise.AsyncSink

variable {config : Config} {s s' : State}

/-- `FlushBarrier::result`, were it evaluated now. -/
def State.result (s : State) (target : ℕ) : Option (Except FlushError Unit) :=
  if s.flushedSequence < target then
    if s.stopped then some (.error workerStoppedError) else none
  else
    some (toResult ((flushErrorFor target s.lastFlushError).or
      (writeErrorFor target s.lastWriteError)))

theorem result_eq_none_iff {target : ℕ} :
    s.result target = none ↔ s.flushedSequence < target ∧ s.stopped = false := by
  rw [State.result]
  split
  next hlt =>
    cases s.stopped <;> simp [hlt]
  next hle => simp [hle]

structure Watched where
  state : State
  /-- Between a publication and the end of the notification that follows it. -/
  publishing : Bool
  /-- The waker a barrier's last poll registered, and how many wakers had been woken by then. -/
  polls : ℕ → Option (ℕ × ℕ)

def Watched.initial : Watched :=
  { state := AsyncSink.initial, publishing := false, polls := fun _ => none }

def publishingAfter (publishing : Bool) : WorkerPc → Bool
  | .storeFlushed _ | .storeFinal _ | .storeStopped => true
  | .wake _ _ => false
  | _ => publishing

def pollsAfter (w : Watched) : Action → ℕ → Option (ℕ × ℕ)
  | .poll f _ => Function.update w.polls f none
  | .stepFlush f =>
    match w.state.flushes[f]?.map FlushCall.pc with
    | some (.register waker) => Function.update w.polls f (some (waker, w.state.woken.length))
    | _ => w.polls
  | _ => w.polls

/-- A step of the machine, watched. -/
def watch (config : Config) (w : Watched) (a : Action) : Option Watched :=
  (step config w.state a).map fun s =>
    { state := s
      publishing := if a = .work then publishingAfter w.publishing w.state.worker else w.publishing
      polls := pollsAfter w a }

/-- Watching does not restrict the machine. -/
theorem watched_of_reaches {ok : State → Action → Prop}
    (h : Transition.Reaches (step config) ok initial s) :
    ∃ w, Transition.Reaches (watch config) (fun w a => ok w.state a) Watched.initial w ∧
      w.state = s := by
  induction h with
  | refl => exact ⟨Watched.initial, .refl, rfl⟩
  | tail _ hstep ih =>
    obtain ⟨w, hreaches, rfl⟩ := ih
    obtain ⟨a, hok, hs⟩ := hstep
    exact ⟨_, hreaches.tail hok (by rw [watch, hs]; rfl), rfl⟩

/-- The waiter holds the progress lock. -/
def FlushPc.locksProgress : FlushPc → Bool
  | .loadFlushed .waiting | .loadStopped .waiting | .lockFlushError .waiting
  | .lockWriteError .waiting _ | .park => true
  | _ => false

/-- The waiter has found its target unflushed. -/
def FlushPc.dozing : FlushPc → Bool
  | .loadStopped .waiting | .park | .parked => true
  | _ => false

/-- The waiter has found its target unflushed and the worker running. -/
def FlushPc.asleep : FlushPc → Bool
  | .park | .parked => true
  | _ => false

/-- The poll has registered its waker, or has returned. -/
def FlushPc.registered : FlushPc → Bool
  | .held | .loadFlushed (.polling _ true) | .loadStopped (.polling _ true) => true
  | _ => false

/-- The second test of the poll has found the target unflushed, or the poll has returned. -/
def FlushPc.unready : FlushPc → Bool
  | .held | .loadStopped (.polling _ true) => true
  | _ => false

/-- `notify_progress` is still to take the progress lock. -/
def WorkerPc.unnotified : WorkerPc → Bool
  | .storeStopped | .notifyProgress _ => true
  | _ => false

/-- `notify_progress` is still to take the wakers. -/
def WorkerPc.untaken : WorkerPc → Bool
  | .storeStopped | .notifyProgress _ | .takeWakers _ => true
  | _ => false

/-- The wakers `notify_progress` has taken. -/
def WorkerPc.taken : WorkerPc → List ℕ
  | .wake wakers _ => wakers
  | _ => []

namespace Watched

/-- The waiters are still to be notified of a publication. -/
def Due (w : Watched) : Prop := w.publishing = true ∧ w.state.worker.unnotified = true

/-- The waker is still to be woken for a publication. -/
def Owed (w : Watched) (waker : ℕ) : Prop :=
  w.publishing = true ∧
    (w.state.worker.untaken = true ∧ waker ∈ w.state.wakers ∨ waker ∈ w.state.worker.taken)

/-- What a barrier may rely on while its caller sleeps. -/
structure Heeds (w : Watched) (f : ℕ) (call : FlushCall) : Prop where
  owner : call.pc.locksProgress = true → w.state.progressOwner = some f
  dozing : call.pc.dozing = true → w.state.flushedSequence < call.target ∨ w.Due
  asleep : call.pc.asleep = true → w.state.stopped = false ∨ w.Due
  since : ∀ waker since, w.polls f = some (waker, since) → since ≤ w.state.woken.length
  registered : ∀ waker since, w.polls f = some (waker, since) → call.pc.registered = true →
    waker ∈ w.state.woken.drop since ∨ waker ∈ w.state.wakers ∨ waker ∈ w.state.worker.taken
  unready : ∀ waker since, w.polls f = some (waker, since) → call.pc.unready = true →
    waker ∈ w.state.woken.drop since ∨ w.state.flushedSequence < call.target ∨ w.Owed waker
  held : ∀ waker since, w.polls f = some (waker, since) → call.pc = .held →
    waker ∈ w.state.woken.drop since ∨ w.state.stopped = false ∨ w.Owed waker
  fresh : call.pc.inCall = true → w.polls f = none

/-- Every barrier heeds what is published. -/
structure Attentive (w : Watched) : Prop where
  calls : ∀ f call, w.state.flushes[f]? = some call → w.Heeds f call
  unused : ∀ f, w.state.flushes.length ≤ f → w.polls f = none

variable {w w' : Watched} {f : ℕ} {call new : FlushCall}

theorem attentive_initial : initial.Attentive := by
  constructor <;> simp [initial, AsyncSink.initial]

/-- The shared cells change in no way a sleeping caller would have to hear of. -/
structure Quiet (w w' : Watched) : Prop where
  flushed : w'.state.flushedSequence = w.state.flushedSequence
  stopped : w'.state.stopped = w.state.stopped
  woken : w'.state.woken = w.state.woken
  wakers : ∀ waker ∈ w.state.wakers, waker ∈ w'.state.wakers
  publishing : w'.publishing = w.publishing
  unnotified : w.state.worker.unnotified = true → w'.state.worker.unnotified = true
  untaken : w.state.worker.untaken = true → w'.state.worker.untaken = true
  taken : w'.state.worker.taken = w.state.worker.taken

theorem Quiet.due (h : Quiet w w') (hdue : w.Due) : w'.Due :=
  ⟨h.publishing ▸ hdue.1, h.unnotified hdue.2⟩

theorem Quiet.owed (h : Quiet w w') {waker : ℕ} (howed : w.Owed waker) : w'.Owed waker := by
  refine ⟨h.publishing ▸ howed.1, ?_⟩
  rw [h.taken]
  exact howed.2.imp_left fun hlist => ⟨h.untaken hlist.1, h.wakers waker hlist.2⟩

theorem Heeds.quiet (h : w.Heeds f call) (hquiet : Quiet w w')
    (howner : w.state.progressOwner = some f → w'.state.progressOwner = some f)
    (hpolls : w'.polls f = w.polls f) : w'.Heeds f call where
  owner hl := howner (h.owner hl)
  dozing hd := by
    rw [hquiet.flushed]
    exact (h.dozing hd).imp_right hquiet.due
  asleep hd := by
    rw [hquiet.stopped]
    exact (h.asleep hd).imp_right hquiet.due
  since waker since hp := by
    rw [hquiet.woken]
    exact h.since waker since (hpolls ▸ hp)
  registered waker since hp hr := by
    rw [hquiet.woken, hquiet.taken]
    exact (h.registered waker since (hpolls ▸ hp) hr).imp_right fun hin =>
      hin.imp_left (hquiet.wakers waker)
  unready waker since hp hu := by
    rw [hquiet.woken, hquiet.flushed]
    exact (h.unready waker since (hpolls ▸ hp) hu).imp_right fun hin => hin.imp_right hquiet.owed
  held waker since hp hh := by
    rw [hquiet.woken, hquiet.stopped]
    exact (h.held waker since (hpolls ▸ hp) hh).imp_right fun hin => hin.imp_right hquiet.owed
  fresh hc := hpolls ▸ h.fresh hc

/-- A step that leaves the barriers alone. -/
theorem Attentive.frame (h : w.Attentive) (hquiet : Quiet w w')
    (hflushes : w'.state.flushes = w.state.flushes)
    (howner : w'.state.progressOwner = w.state.progressOwner) (hpolls : w'.polls = w.polls) :
    w'.Attentive where
  calls f call hf := (h.calls f call (hflushes ▸ hf)).quiet hquiet (fun ho => howner ▸ ho)
    (by rw [hpolls])
  unused f hf := by
    rw [hpolls]
    exact h.unused f (hflushes ▸ hf)

/-- A step of a worker that neither publishes nor notifies, or of someone else meanwhile. -/
theorem Attentive.idle (h : w.Attentive)
    (hidle : w.state.worker.unnotified = false ∧ w.state.worker.untaken = false ∧
      w.state.worker.taken = [])
    (htaken : w'.state.worker.taken = []) (hpublishing : w'.publishing = w.publishing)
    (hflushed : w'.state.flushedSequence = w.state.flushedSequence)
    (hstopped : w'.state.stopped = w.state.stopped) (hwoken : w'.state.woken = w.state.woken)
    (hwakers : w'.state.wakers = w.state.wakers) (hflushes : w'.state.flushes = w.state.flushes)
    (howner : w'.state.progressOwner = w.state.progressOwner) (hpolls : w'.polls = w.polls) :
    w'.Attentive := by
  obtain ⟨hunnotified, huntaken, hnone⟩ := hidle
  refine h.frame ⟨hflushed, hstopped, hwoken, fun _ hm => hwakers ▸ hm, hpublishing, fun hu => ?_,
    fun hu => ?_, htaken.trans hnone.symm⟩ hflushes howner hpolls
  · rw [hunnotified] at hu
    cases hu
  · rw [huntaken] at hu
    cases hu

/-- A step of one barrier. -/
theorem Attentive.set (h : w.Attentive) (hf : w.state.flushes[f]? = some call)
    (hflushes : w'.state.flushes = w.state.flushes.set f new) (hquiet : Quiet w w')
    (howner : ∀ g, g ≠ f → w.state.progressOwner = some g → w'.state.progressOwner = some g)
    (hpolls : ∀ g, g ≠ f → w'.polls g = w.polls g) (hnew : w'.Heeds f new) : w'.Attentive where
  calls g other hg := by
    obtain ⟨rfl, rfl⟩ | ⟨hne, hold⟩ := Slots.getElem?_set_cases (hflushes ▸ hg)
    · exact hnew
    · exact (h.calls g other hold).quiet hquiet (howner g hne) (hpolls g hne)
  unused g hg := by
    rw [hflushes, List.length_set] at hg
    have hne : g ≠ f := by
      rintro rfl
      exact absurd (List.getElem?_eq_some_iff.mp hf).1 (not_lt.mpr hg)
    rw [hpolls g hne]
    exact h.unused g hg

/-- A step at which the caller neither sleeps nor has registered a waker. -/
theorem Heeds.awake (hdozing : new.pc.dozing = false) (hasleep : new.pc.asleep = false)
    (hregistered : new.pc.registered = false) (hunready : new.pc.unready = false)
    (howner : new.pc.locksProgress = true → w.state.progressOwner = some f)
    (hsince : ∀ waker since, w.polls f = some (waker, since) → since ≤ w.state.woken.length)
    (hfresh : new.pc.inCall = true → w.polls f = none) : w.Heeds f new where
  owner := howner
  dozing hd := by
    rw [hdozing] at hd
    cases hd
  asleep hd := by
    rw [hasleep] at hd
    cases hd
  since := hsince
  registered _ _ _ hr := by
    rw [hregistered] at hr
    cases hr
  unready _ _ _ hu := by
    rw [hunready] at hu
    cases hu
  held _ _ _ hh := by
    rw [hh] at hregistered
    cases hregistered
  fresh := hfresh

/-- What a step of a barrier leaves the others. -/
theorem quiet_aside (owner : Option ℕ) (wakers : List ℕ) (flushes : List FlushCall)
    (polls : ℕ → Option (ℕ × ℕ)) (hwakers : ∀ waker ∈ w.state.wakers, waker ∈ wakers) :
    Quiet w { state := { w.state with progressOwner := owner, wakers := wakers, flushes := flushes }
              publishing := w.publishing, polls := polls } :=
  ⟨rfl, rfl, rfl, hwakers, rfl, id, id, rfl⟩

theorem pollsAfter_stepFlush (hf : w.state.flushes[f]? = some call)
    (hpc : ∀ waker, call.pc ≠ .register waker) : pollsAfter w (.stepFlush f) = w.polls := by
  simp only [pollsAfter, hf, Option.map_some]
  split
  next waker hregister => exact absurd (Option.some.inj hregister) (hpc waker)
  next => rfl

theorem quiet_wake (flushes : List FlushCall) :
    Quiet w { w with
      state := { w.state with worker := wakeWorker w.state.worker, flushes := flushes } } := by
  obtain he | ⟨hparked, he⟩ := wakeWorker_eq w.state.worker
  · rw [he]
    exact ⟨rfl, rfl, rfl, fun _ hm => hm, rfl, id, id, rfl⟩
  · refine ⟨rfl, rfl, rfl, fun _ hm => hm, rfl, ?_, ?_, ?_⟩
    all_goals simp [hparked, wakeWorker, WorkerPc.unnotified, WorkerPc.untaken, WorkerPc.taken]

/-- The first test of a poll, or the test of a waiter. -/
theorem heeds_loadFlushed {use : Use} {target : ℕ} {captured : List ℕ}
    (hold : w.Heeds f ⟨.loadFlushed use, target, captured⟩)
    (hlt : w.state.flushedSequence < target) : w.Heeds f ⟨.loadStopped use, target, captured⟩ where
  owner hl := hold.owner (by cases use <;> first | rfl | cases hl)
  dozing _ := Or.inl hlt
  asleep hd := by cases hd
  since := hold.since
  registered waker since hp hr := hold.registered waker since hp (by
    cases use with
    | waiting => cases hr
    | polling waker registered => cases registered <;> first | rfl | cases hr)
  unready _ _ _ _ := Or.inr (Or.inl hlt)
  held _ _ _ hh := by cases hh
  fresh hc := by cases hc

/-- The worker runs: a waiter is about to park, a poll registers its waker or returns. -/
theorem heeds_loadStopped {use : Use} {target : ℕ} {captured : List ℕ}
    (hold : w.Heeds f ⟨.loadStopped use, target, captured⟩) (hrunning : w.state.stopped = false) :
    w.Heeds f ⟨conclude none use, target, captured⟩ := by
  cases use with
  | waiting =>
    exact ⟨fun _ => hold.owner rfl, fun _ => hold.dozing rfl, fun _ => Or.inl hrunning, hold.since,
      fun _ _ _ hr => (by cases hr), fun _ _ _ hu => (by cases hu), fun _ _ _ hh => (by cases hh),
      fun hc => (by cases hc)⟩
  | polling waker registered =>
    cases registered with
    | false =>
      exact .awake rfl rfl rfl rfl (fun hl => by cases hl) hold.since fun hc => by cases hc
    | true =>
      exact ⟨fun hl => (by cases hl), fun hd => (by cases hd), fun ha => (by cases ha), hold.since,
        fun waker since hp _ => hold.registered waker since hp rfl,
        fun waker since hp _ => hold.unready waker since hp rfl,
        fun _ _ _ _ => Or.inr (Or.inl hrunning), fun hc => (by cases hc)⟩

/-- The poll's waker is on the list before its second test. -/
theorem attentive_register (h : w.Attentive) {waker target : ℕ} {captured : List ℕ}
    (hf : w.state.flushes[f]? = some ⟨.register waker, target, captured⟩)
    (hs : flushStep f ⟨.register waker, target, captured⟩ w.state = some s') :
    Attentive { state := s', publishing := w.publishing, polls := pollsAfter w (.stepFlush f) } := by
  have hpolls : pollsAfter w (.stepFlush f) =
      Function.update w.polls f (some (waker, w.state.woken.length)) := by
    simp only [pollsAfter, hf, Option.map_some]
  have hkept : ∀ other ∈ w.state.wakers,
      other ∈ (if waker ∈ w.state.wakers then w.state.wakers else w.state.wakers ++ [waker]) := by
    intro other hm
    split
    · exact hm
    · exact List.mem_append_left _ hm
  have hlisted :
      waker ∈ (if waker ∈ w.state.wakers then w.state.wakers else w.state.wakers ++ [waker]) := by
    split
    next hm => exact hm
    next => exact List.mem_append_right _ (List.mem_singleton_self waker)
  rw [hpolls]
  cases hs
  refine h.set hf rfl (quiet_aside _ _ _ _ hkept) (fun _ _ ho => ho)
    (fun g hne => Function.update_of_ne hne _ _) ?_
  have hself : ∀ waker' since', Function.update w.polls f (some (waker, w.state.woken.length)) f =
      some (waker', since') → waker' = waker ∧ since' = w.state.woken.length := by
    intro waker' since' hp
    rw [Function.update_self] at hp
    cases hp
    exact ⟨rfl, rfl⟩
  refine ⟨fun hl => (by cases hl), fun hd => (by cases hd), fun ha => (by cases ha), ?_, ?_,
    fun _ _ _ hu => (by cases hu), fun _ _ _ hh => (by cases hh), fun hc => (by cases hc)⟩
  · intro waker' since' hp
    exact (hself waker' since' hp).2.le
  · intro waker' since' hp _
    rw [(hself waker' since' hp).1]
    exact Or.inr (Or.inl hlisted)

theorem attentive_flushStep (h : w.Attentive) (hf : w.state.flushes[f]? = some call)
    (hs : flushStep f call w.state = some s') :
    Attentive { state := s', publishing := w.publishing, polls := pollsAfter w (.stepFlush f) } := by
  have hold := h.calls f call hf
  obtain ⟨pc, target, captured⟩ := call
  by_cases hregister : ∃ waker, pc = .register waker
  · obtain ⟨waker, rfl⟩ := hregister
    exact attentive_register h hf hs
  have hpolls := pollsAfter_stepFlush hf fun waker he => hregister ⟨waker, he⟩
  -- a waiter that has its answer held the lock, so no one else loses it
  have hreleased : ∀ {use : Use} {result : Option (Except FlushError Unit)},
      (use = .waiting → w.state.progressOwner = some f) → ∀ g, g ≠ f →
        w.state.progressOwner = some g →
          releaseProgress result use w.state.progressOwner = some g := by
    intro use result howner g hne hg
    cases use with
    | waiting =>
      rw [howner rfl] at hg
      exact absurd (Option.some.inj hg).symm hne
    | polling _ _ => simpa [releaseProgress] using hg
  rw [hpolls]
  cases pc with
  | lockQueue =>
    simp only [flushStep] at hs
    split at hs
    · cases hs
      refine h.set hf rfl ⟨rfl, rfl, rfl, fun _ hm => hm, rfl, id, id, rfl⟩ (fun _ _ ho => ho)
        (fun _ _ => rfl) (.awake rfl rfl rfl rfl (fun hl => by cases hl) hold.since fun _ => ?_)
      exact hold.fresh rfl
    · cases hs
  | publish =>
    cases hs
    refine h.set hf rfl ⟨rfl, rfl, rfl, fun _ hm => hm, rfl, id, id, rfl⟩ (fun _ _ ho => ho)
      (fun _ _ => rfl) (.awake rfl rfl rfl rfl (fun hl => by cases hl) hold.since fun _ => ?_)
    exact hold.fresh rfl
  | notify =>
    cases hs
    have hfresh := hold.fresh rfl
    refine h.set hf rfl (quiet_wake _) (fun _ _ ho => ho) (fun _ _ => rfl) ?_
    -- no poll of this barrier has been made
    refine ⟨fun hl => (by cases hl), fun hd => (by cases hd), fun ha => (by cases ha), hold.since, ?_,
      ?_, ?_, fun hc => (by cases hc)⟩
    all_goals
      intro waker since hp
      rw [show w.polls f = none from hfresh] at hp
      cases hp
  | held => cases hs
  | lockProgress =>
    -- the waiter takes the lock before it tests, and keeps it until it parks
    simp only [flushStep] at hs
    split at hs
    next hfree =>
      cases hs
      refine h.set hf rfl (quiet_aside _ _ _ _ fun _ hm => hm) (fun _ _ ho => ?_) (fun _ _ => rfl)
        (.awake rfl rfl rfl rfl (fun _ => rfl) hold.since fun hc => by cases hc)
      rw [hfree] at ho
      cases ho
    next => cases hs
  | loadFlushed use =>
    -- a test that fails is made after the registration, or under the lock
    simp only [flushStep] at hs
    split at hs
    next hlt =>
      cases hs
      exact h.set hf rfl (quiet_aside _ _ _ _ fun _ hm => hm) (fun _ _ ho => ho) (fun _ _ => rfl)
        ((heeds_loadFlushed hold hlt).quiet (quiet_aside _ _ _ _ fun _ hm => hm) id rfl)
    next =>
      cases hs
      refine h.set hf rfl (quiet_aside _ _ _ _ fun _ hm => hm) (fun _ _ ho => ho) (fun _ _ => rfl)
        (.awake rfl rfl rfl rfl (fun hl => ?_) hold.since fun hc => by cases hc)
      exact hold.owner (by cases use <;> first | rfl | cases hl)
  | loadStopped use =>
    -- a negative answer to both tests: the next publication is to be notified
    have howner : use = .waiting → w.state.progressOwner = some f := by
      rintro rfl
      exact hold.owner rfl
    simp only [flushStep] at hs
    cases hs
    refine h.set hf rfl (quiet_aside _ _ _ _ fun _ hm => hm) (hreleased howner) (fun _ _ => rfl) ?_
    cases hstopped : w.state.stopped with
    | true =>
      rw [if_pos rfl, conclude_some]
      exact .awake rfl rfl rfl rfl (fun hl => by cases hl) hold.since fun hc => by cases hc
    | false =>
      refine (heeds_loadStopped hold hstopped).quiet (quiet_aside _ _ _ _ fun _ hm => hm)
        (fun ho => ?_) rfl
      simpa [releaseProgress, setFlush] using ho
  | lockFlushError use =>
    cases hs
    refine h.set hf rfl (quiet_aside _ _ _ _ fun _ hm => hm) (fun _ _ ho => ho) (fun _ _ => rfl)
      (.awake rfl rfl rfl rfl (fun hl => ?_) hold.since fun hc => by cases hc)
    exact hold.owner (by cases use <;> first | rfl | cases hl)
  | lockWriteError use flushError =>
    have howner : use = .waiting → w.state.progressOwner = some f := by
      rintro rfl
      exact hold.owner rfl
    simp only [flushStep] at hs
    cases hs
    rw [conclude_some]
    exact h.set hf rfl (quiet_aside _ _ _ _ fun _ hm => hm) (hreleased howner) (fun _ _ => rfl)
      (.awake rfl rfl rfl rfl (fun hl => by cases hl) hold.since fun hc => by cases hc)
  | park =>
    -- the wait gives up the lock it held
    cases hs
    have howner := hold.owner rfl
    refine h.set hf rfl (quiet_aside _ _ _ _ fun _ hm => hm) (fun g hne ho => ?_) (fun _ _ => rfl)
      ⟨fun hl => (by cases hl), fun _ => hold.dozing rfl, fun _ => hold.asleep rfl, hold.since,
        fun _ _ _ hr => (by cases hr), fun _ _ _ hu => (by cases hu), fun _ _ _ hh => (by cases hh),
        fun hc => (by cases hc)⟩
    rw [howner] at ho
    exact absurd (Option.some.inj ho).symm hne
  | parked => cases hs
  | register waker => exact absurd ⟨waker, rfl⟩ hregister
  | resolved result => cases hs

/-- A step of the worker, with what it publishes. -/
def worked (w : Watched) (s' : State) : Watched :=
  { state := s', publishing := publishingAfter w.publishing w.state.worker, polls := w.polls }

/-- A publication: whoever sleeps is due a notification. -/
theorem Heeds.publish (h : w.Heeds f call) (hdue : w'.Due)
    (huntaken : w'.state.worker.untaken = true) (hidle : w.state.worker.taken = [])
    (howner : w'.state.progressOwner = w.state.progressOwner)
    (hwakers : w'.state.wakers = w.state.wakers) (hwoken : w'.state.woken = w.state.woken)
    (hpolls : w'.polls = w.polls) : w'.Heeds f call := by
  -- a registered waker that has not been woken is still on the list
  have howed : ∀ waker since, w.polls f = some (waker, since) → call.pc.registered = true →
      waker ∈ w.state.woken.drop since ∨ w'.Owed waker := by
    intro waker since hp hr
    obtain hw | hlist | htaken := h.registered waker since hp hr
    · exact Or.inl hw
    · exact Or.inr ⟨hdue.1, Or.inl ⟨huntaken, hwakers ▸ hlist⟩⟩
    · rw [hidle] at htaken
      cases htaken
  have hregistered : call.pc.unready = true → call.pc.registered = true := by
    intro hu
    cases hpc : call.pc with
    | held => rfl
    | loadStopped use =>
      rw [hpc] at hu
      cases use with
      | waiting => cases hu
      | polling _ registered => cases registered <;> first | rfl | cases hu
    | _ =>
      rw [hpc] at hu
      cases hu
  refine ⟨fun hl => howner ▸ h.owner hl, fun _ => Or.inr hdue, fun _ => Or.inr hdue, ?_, ?_, ?_, ?_,
    fun hc => hpolls ▸ h.fresh hc⟩
  · rw [hpolls, hwoken]
    exact h.since
  · rw [hpolls, hwoken, hwakers]
    intro waker since hp hr
    refine (h.registered waker since hp hr).imp_right fun hin => Or.inl (hin.elim id fun ht => ?_)
    rw [hidle] at ht
    cases ht
  · rw [hpolls, hwoken]
    intro waker since hp hu
    exact (howed waker since hp (hregistered hu)).imp_right Or.inr
  · rw [hpolls, hwoken]
    intro waker since hp hh
    exact (howed waker since hp (by rw [hh]; rfl)).imp_right Or.inr

theorem Attentive.publish (h : w.Attentive) (hdue : w'.Due)
    (huntaken : w'.state.worker.untaken = true) (hidle : w.state.worker.taken = [])
    (hflushes : w'.state.flushes = w.state.flushes)
    (howner : w'.state.progressOwner = w.state.progressOwner)
    (hwakers : w'.state.wakers = w.state.wakers) (hwoken : w'.state.woken = w.state.woken)
    (hpolls : w'.polls = w.polls) : w'.Attentive where
  calls f call hf := (h.calls f call (hflushes ▸ hf)).publish hdue huntaken hidle howner hwakers
    hwoken hpolls
  unused f hf := by
    rw [hpolls]
    exact h.unused f (hflushes ▸ hf)

/-- A caller that is not due a notification loses nothing when it is over. -/
theorem Heeds.notified (h : w.Heeds f call)
    (hdue : call.pc.dozing = true ∨ call.pc.asleep = true → ¬ w.Due)
    (howner : w'.state.progressOwner = w.state.progressOwner)
    (hflushed : w'.state.flushedSequence = w.state.flushedSequence)
    (hstopped : w'.state.stopped = w.state.stopped)
    (hsince : ∀ waker since, w.polls f = some (waker, since) → since ≤ w'.state.woken.length)
    (hregistered : ∀ waker since, w.polls f = some (waker, since) →
      waker ∈ w.state.woken.drop since ∨ waker ∈ w.state.wakers ∨ waker ∈ w.state.worker.taken →
        waker ∈ w'.state.woken.drop since ∨ waker ∈ w'.state.wakers ∨ waker ∈ w'.state.worker.taken)
    (howed : ∀ waker since, w.polls f = some (waker, since) →
      waker ∈ w.state.woken.drop since ∨ w.Owed waker →
        waker ∈ w'.state.woken.drop since ∨ w'.Owed waker)
    (hpolls : w'.polls = w.polls) : w'.Heeds f call where
  owner hl := howner ▸ h.owner hl
  dozing hd := by
    rw [hflushed]
    exact Or.inl ((h.dozing hd).resolve_right (hdue (Or.inl hd)))
  asleep ha := by
    rw [hstopped]
    exact Or.inl ((h.asleep ha).resolve_right (hdue (Or.inr ha)))
  since := by
    rw [hpolls]
    exact hsince
  registered := by
    rw [hpolls]
    exact fun waker since hp hr => hregistered waker since hp (h.registered waker since hp hr)
  unready := by
    rw [hpolls, hflushed]
    intro waker since hp hu
    have hold := h.unready waker since hp hu
    have hnew := howed waker since hp
    tauto
  held := by
    rw [hpolls, hstopped]
    intro waker since hp hh
    have hold := h.held waker since hp hh
    have hnew := howed waker since hp
    tauto
  fresh hc := hpolls ▸ h.fresh hc

/-- Without the lock and not in its wait, a caller is not asleep. -/
theorem awake_of_unlocked {pc : FlushPc} (hlocks : pc.locksProgress = false) (hparked : pc ≠ .parked) :
    pc.dozing = false ∧ pc.asleep = false := by
  cases pc with
  | park => cases hlocks
  | parked => exact absurd rfl hparked
  | loadStopped use =>
    cases use with
    | waiting => cases hlocks
    | polling _ _ => exact ⟨rfl, rfl⟩
  | _ => exact ⟨rfl, rfl⟩

/-- `notify_all` under the progress lock: no waiter is between its test and its wait, and the ones
that wait test again. -/
theorem attentive_notify (h : w.Attentive) {next : AfterNotify}
    (hw : w.state.worker = .notifyProgress next) (hfree : w.state.progressOwner = none) :
    (worked w { w.state with
      worker := .takeWakers next, flushes := w.state.flushes.map wakeWaiter }).Attentive := by
  have hpublishing : publishingAfter w.publishing w.state.worker = w.publishing := by rw [hw]; rfl
  refine ⟨fun f new hf => ?_, fun f hf => h.unused f (by simpa [worked] using hf)⟩
  obtain ⟨call, hcall, rfl⟩ := Option.map_eq_some_iff.mp
    ((List.getElem?_map ..).symm.trans (show (w.state.flushes.map wakeWaiter)[f]? = some new from hf))
  have hold := h.calls f call hcall
  have hunlocked : call.pc.locksProgress = false := by
    cases hl : call.pc.locksProgress with
    | false => rfl
    | true =>
      have howner := hold.owner hl
      rw [hfree] at howner
      cases howner
  by_cases hparked : call.pc = .parked
  · have hwoken : wakeWaiter call = { call with pc := .lockProgress } := by rw [wakeWaiter, hparked]
    rw [hwoken]
    exact .awake rfl rfl rfl rfl (fun hl => by cases hl) hold.since fun hc => by cases hc
  · have hsame : wakeWaiter call = call := by
      rw [wakeWaiter]
      split
      next hp => exact absurd hp hparked
      next => rfl
    obtain ⟨hdozing, hasleep⟩ := awake_of_unlocked hunlocked hparked
    rw [hsame]
    refine hold.notified (fun hd => ?_) rfl rfl rfl hold.since (fun waker since _ hr => ?_)
      (fun waker since _ ho => ?_) rfl
    · rw [hdozing, hasleep] at hd
      obtain hd | hd := hd <;> cases hd
    · rw [hw] at hr
      exact hr
    · refine ho.imp_right fun howed => ⟨hpublishing.trans howed.1, ?_⟩
      have hin := howed.2
      rw [hw] at hin
      exact hin.imp_left fun hlist => ⟨rfl, hlist.2⟩

theorem attentive_workerStep (h : w.Attentive) (hs : workerStep w.state w.state.worker = some s') :
    (worked w s').Attentive := by
  cases hw : w.state.worker with
  | notifyProgress next =>
    simp only [hw, workerStep] at hs
    split at hs
    next hfree =>
      cases hs
      exact attentive_notify h hw hfree
    next => cases hs
  | storeFlushed processed =>
    -- the three publications, each followed by its notification
    simp only [hw, workerStep] at hs
    cases hs
    refine h.publish ⟨?_, rfl⟩ rfl (by rw [hw]; rfl) rfl rfl rfl rfl rfl
    rw [worked, hw]
    rfl
  | storeFinal processed =>
    simp only [hw, workerStep] at hs
    cases hs
    refine h.publish ⟨?_, rfl⟩ rfl (by rw [hw]; rfl) rfl rfl rfl rfl rfl
    rw [worked, hw]
    rfl
  | storeStopped =>
    simp only [hw, workerStep] at hs
    cases hs
    refine h.publish ⟨?_, rfl⟩ rfl (by rw [hw]; rfl) rfl rfl rfl rfl rfl
    rw [worked, hw]
    rfl
  | takeWakers next =>
    -- whoever registered before this is in the list that is taken
    simp only [hw, workerStep] at hs
    cases hs
    have hpublishing : publishingAfter w.publishing w.state.worker = w.publishing := by rw [hw]; rfl
    refine ⟨fun f call hf => ?_, h.unused⟩
    have hold := h.calls f call hf
    refine hold.notified (fun _ hd => ?_) rfl rfl rfl hold.since (fun waker since _ hr => ?_)
      (fun waker since _ ho => ?_) rfl
    · have hunnotified := hd.2
      rw [hw] at hunnotified
      cases hunnotified
    · rw [hw] at hr
      exact hr.imp_right fun hin => Or.inr (hin.resolve_right fun ht => by cases ht)
    · refine ho.imp_right fun howed => ⟨hpublishing.trans howed.1, Or.inr ?_⟩
      have hin := howed.2
      rw [hw] at hin
      exact (hin.resolve_right fun ht => by cases ht).2
  | wake wakers next =>
    -- the wakers that were taken are woken
    simp only [hw, workerStep] at hs
    cases hs
    refine ⟨fun f call hf => ?_, h.unused⟩
    have hold := h.calls f call hf
    -- what has been woken since a poll only grows
    have hgrows : ∀ waker since, w.polls f = some (waker, since) →
        waker ∈ w.state.woken.drop since ∨ waker ∈ wakers →
          waker ∈ (w.state.woken ++ wakers).drop since := by
      intro waker since hp hin
      rw [List.drop_append_of_le_length (hold.since waker since hp)]
      exact List.mem_append.mpr hin
    refine hold.notified (fun _ hd => ?_) rfl rfl rfl (fun waker since hp => ?_)
      (fun waker since hp hr => ?_) (fun waker since hp ho => Or.inl ?_) rfl
    · have hunnotified := hd.2
      rw [hw] at hunnotified
      cases hunnotified
    · show since ≤ (w.state.woken ++ wakers).length
      rw [List.length_append]
      exact (hold.since waker since hp).trans (Nat.le_add_right ..)
    · rw [hw] at hr
      obtain hwoken | hlist | htaken := hr
      · exact Or.inl (hgrows waker since hp (Or.inl hwoken))
      · exact Or.inr (Or.inl hlist)
      · exact Or.inl (hgrows waker since hp (Or.inr htaken))
    · refine hgrows waker since hp (ho.imp_right fun howed => ?_)
      have hin := howed.2
      rw [hw] at hin
      exact hin.resolve_left fun hlist => by cases hlist.1
  | inside | parked | write _ | flush _ | finalFlush _ | terminated =>
    simp only [hw, workerStep, reduceCtorEq] at hs
  | _ =>
    simp only [hw, workerStep] at hs
    try (split at hs <;> try split at hs)
    all_goals cases hs
    all_goals
      exact h.idle (by rw [hw]; exact ⟨rfl, rfl, rfl⟩) rfl (congrArg (publishingAfter w.publishing) hw)
        rfl rfl rfl rfl rfl rfl rfl

theorem attentive_writerStep {outcome : Outcome} (h : w.Attentive)
    (hs : writerStep w.state outcome w.state.worker = some s') :
    Attentive { w with state := s' } := by
  cases hw : w.state.worker with
  | write _ | flush _ | finalFlush _ =>
    rw [hw] at hs
    cases outcome <;> cases hs <;>
      exact h.idle (by rw [hw]; exact ⟨rfl, rfl, rfl⟩) rfl rfl rfl rfl rfl rfl rfl rfl rfl
  | _ => simp [hw, writerStep] at hs

/-- What a step of the queue's holder leaves of the barriers' cells. -/
theorem queueStep_progress (hs : queueStep config s s.queueSection = some s') :
    s'.wakers = s.wakers ∧ s'.woken = s.woken ∧ s'.progressOwner = s.progressOwner := by
  cases hq : s.queueSection <;> simp only [hq, queueStep, reduceCtorEq] at hs <;>
    (try (split at hs <;> try split at hs)) <;> cases hs <;> exact ⟨rfl, rfl, rfl⟩

theorem attentive_queueStep (ho : w.state.Ordered) (h : w.Attentive)
    (hs : queueStep config w.state w.state.queueSection = some s') :
    Attentive { w with state := s' } := by
  have frame := queueStep_frame hs
  obtain ⟨hwakers, hwoken, howner⟩ := queueStep_progress hs
  obtain hsame | ⟨hin, hleft⟩ := frame.worker
  · exact h.frame ⟨frame.flushedSequence, frame.stopped, hwoken, fun _ hm => hwakers ▸ hm, rfl,
      fun hu => hsame ▸ hu, fun hu => hsame ▸ hu, by rw [hsame]⟩ frame.flushes howner rfl
  · have hidle : w.state.worker = .inside := ho.inside.mp hin
    have htaken : s'.worker.taken = [] := by
      obtain he | he | ⟨queued, -, he⟩ := hleft
      all_goals
        rw [he]
        rfl
    exact h.idle (by rw [hidle]; exact ⟨rfl, rfl, rfl⟩) htaken rfl frame.flushedSequence
      frame.stopped hwoken hwakers frame.flushes howner rfl

/-- A handle goes on, and may signal the worker: no barrier is concerned. -/
structure Aside (s s' : State) : Prop where
  worker : s'.worker = s.worker ∨ s'.worker = wakeWorker s.worker
  flushed : s'.flushedSequence = s.flushedSequence
  stopped : s'.stopped = s.stopped
  woken : s'.woken = s.woken
  wakers : s'.wakers = s.wakers
  flushes : s'.flushes = s.flushes
  owner : s'.progressOwner = s.progressOwner

theorem Attentive.aside (h : w.Attentive) (haside : Aside w.state s') :
    Attentive { w with state := s' } := by
  by_cases hsame : s'.worker = w.state.worker
  · exact h.frame ⟨haside.flushed, haside.stopped, haside.woken, fun _ hm => haside.wakers ▸ hm, rfl,
      fun hu => hsame ▸ hu, fun hu => hsame ▸ hu, by rw [hsame]⟩ haside.flushes haside.owner rfl
  · have hwake := haside.worker.resolve_left hsame
    obtain he | ⟨hparked, he⟩ := wakeWorker_eq w.state.worker
    · exact absurd (hwake.trans he) hsame
    · refine h.idle (by rw [hparked]; exact ⟨rfl, rfl, rfl⟩) ?_ rfl haside.flushed haside.stopped
        haside.woken haside.wakers haside.flushes haside.owner rfl
      show s'.worker.taken = []
      rw [hwake, he]
      rfl

theorem aside_emitStep {i : ℕ} {pc : EmitPc} (hs : emitStep config i s pc = some s') : Aside s s' := by
  cases pc <;> simp only [emitStep, reduceCtorEq] at hs <;> (try split at hs) <;> cases hs <;>
    constructor <;> simp

theorem aside_dropStep (hs : dropStep s s.drop = some s') : Aside s s' := by
  cases hd : s.drop <;> simp only [hd, dropStep, reduceCtorEq] at hs <;> (try split at hs) <;>
    cases hs <;> constructor <;> simp

/-- A wait begins anew, after a poll, or after a wake-up. -/
theorem attentive_lockProgress (h : w.Attentive) (hf : w.state.flushes[f]? = some call) :
    Attentive { w with state := setFlush f call .lockProgress w.state } := by
  refine h.set hf rfl ⟨rfl, rfl, rfl, fun _ hm => hm, rfl, id, id, rfl⟩ (fun _ _ ho => ho)
    (fun _ _ => rfl) (.awake rfl rfl rfl rfl (fun hl => by cases hl) ?_ fun hc => by cases hc)
  exact (h.calls f call hf).since

theorem attentive_step {a : Action} (ho : w.state.Ordered) (h : w.Attentive)
    (hs : watch config w a = some w') : w'.Attentive := by
  obtain ⟨s', hstep, rfl⟩ := Option.map_eq_some_iff.mp hs
  cases a with
  | stepFlush f =>
    obtain ⟨call, hf, hflush⟩ := Option.bind_eq_some_iff.mp hstep
    exact attentive_flushStep h hf hflush
  | work => exact attentive_workerStep h hstep
  | writer outcome => exact attentive_writerStep h hstep
  | stepQueue => exact attentive_queueStep ho h hstep
  | wait f =>
    obtain ⟨⟨pc, target, captured⟩, hf, hbarrier⟩ := Option.bind_eq_some_iff.mp hstep
    cases pc <;> cases hbarrier
    exact attentive_lockProgress h hf
  | spuriousProgress f =>
    obtain ⟨⟨pc, target, captured⟩, hf, hbarrier⟩ := Option.bind_eq_some_iff.mp hstep
    cases pc <;> cases hbarrier
    exact attentive_lockProgress h hf
  | poll f waker =>
    obtain ⟨⟨pc, target, captured⟩, hf, hbarrier⟩ := Option.bind_eq_some_iff.mp hstep
    cases pc <;> cases hbarrier
    refine h.set hf rfl ⟨rfl, rfl, rfl, fun _ hm => hm, rfl, id, id, rfl⟩ (fun _ _ ho => ho)
      (fun g hne => Function.update_of_ne hne _ _)
      (.awake rfl rfl rfl rfl (fun hl => by cases hl) (fun _ _ hp => ?_) fun hc => by cases hc)
    have hnone : pollsAfter w (.poll f waker) f = none := Function.update_self ..
    cases hnone.symm.trans hp
  | callFlush =>
    simp only [step] at hstep
    split at hstep
    · cases hstep
      have hlast := h.unused w.state.flushes.length le_rfl
      refine ⟨fun f call hf => ?_, fun f hf => h.unused f ?_⟩
      · obtain hlt | rfl | hgt := lt_trichotomy f w.state.flushes.length
        · rw [List.getElem?_append_left hlt] at hf
          exact (h.calls f call hf).quiet ⟨rfl, rfl, rfl, fun _ hm => hm, rfl, id, id, rfl⟩ id rfl
        · rw [List.getElem?_concat_length] at hf
          cases hf
          refine .awake rfl rfl rfl rfl (fun hl => by cases hl) (fun waker since hp => ?_) fun _ => hlast
          cases hlast.symm.trans hp
        · have hlt := (List.getElem?_eq_some_iff.mp hf).1
          rw [List.length_append, List.length_singleton] at hlt
          omega
      · rw [List.length_append, List.length_singleton] at hf
        omega
    · cases hstep
  | callEmit event =>
    simp only [step] at hstep
    split at hstep
    · cases hstep
      exact h.aside ⟨Or.inl rfl, rfl, rfl, rfl, rfl, rfl, rfl⟩
    · cases hstep
  | stepEmit i =>
    obtain ⟨pc, -, hemit⟩ := Option.bind_eq_some_iff.mp hstep
    exact h.aside (aside_emitStep hemit)
  | refuseEmit i =>
    obtain ⟨pc, -, hrefused⟩ := Option.bind_eq_some_iff.mp hstep
    obtain ⟨-, rfl⟩ := refuseStep_cases hrefused
    exact h.aside ⟨Or.inl rfl, rfl, rfl, rfl, rfl, rfl, rfl⟩
  | dropHandles =>
    simp only [step] at hstep
    split at hstep
    · cases hstep
      exact h.aside ⟨Or.inl rfl, rfl, rfl, rfl, rfl, rfl, rfl⟩
    · cases hstep
  | stepDrop => exact h.aside (aside_dropStep hstep)
  | spuriousWork =>
    simp only [step] at hstep
    split at hstep
    next hparked =>
      cases hstep
      exact h.aside ⟨Or.inr (by rw [hparked]; rfl), rfl, rfl, rfl, rfl, rfl, rfl⟩
    next => cases hstep

end Watched

/-- **No barrier sleeps through its completion**: unless the worker is between a publication and the
end of its notification, whoever is parked in a wait has no result yet, and neither has a barrier
whose last poll returned `Pending` and whose waker has not been woken since it was registered. -/
theorem no_barrier_oversleeps (config : Config) (w : Watched)
    (hrun : Transition.Reaches (watch config) Transition.always Watched.initial w)
    (hpublished : w.publishing = false) :
    (∀ (f : ℕ) (call : FlushCall), w.state.flushes[f]? = some call → call.pc = .parked →
      w.state.result call.target = none) ∧
    ∀ (f : ℕ) (call : FlushCall) (waker since : ℕ), w.state.flushes[f]? = some call →
      call.pc = .held → w.polls f = some (waker, since) → waker ∉ w.state.woken.drop since →
        w.state.result call.target = none := by
  have hall := hrun.invariant_of (I := fun w => w.state.Ordered) (J := Watched.Attentive)
    (fun v a u ho _ hs => ?_) (fun v a u ho h _ hs => Watched.attentive_step ho h hs) ordered_initial
    Watched.attentive_initial
  · have hdue : ¬ w.Due := fun hd => by cases hpublished.symm.trans hd.1
    have howed : ∀ waker, ¬ w.Owed waker := fun waker hd => by cases hpublished.symm.trans hd.1
    refine ⟨fun f call hf hparked => ?_, fun f call waker since hf hheld hpoll hwoken => ?_⟩
    · have hheeds := hall.2.calls f call hf
      refine result_eq_none_iff.mpr ⟨?_, ?_⟩
      · exact (hheeds.dozing (by rw [hparked]; rfl)).resolve_right hdue
      · exact (hheeds.asleep (by rw [hparked]; rfl)).resolve_right hdue
    · have hheeds := hall.2.calls f call hf
      have hunready := hheeds.unready waker since hpoll (by rw [hheld]; rfl)
      have hrunning := hheeds.held waker since hpoll hheld
      refine result_eq_none_iff.mpr ⟨?_, ?_⟩
      · exact (hunready.resolve_left hwoken).resolve_right (howed waker)
      · exact (hrunning.resolve_left hwoken).resolve_right (howed waker)
  · obtain ⟨s', hstep, rfl⟩ := Option.map_eq_some_iff.mp hs
    exact ordered_step ho hstep

/-- A record is accepted, the first barrier's caller parks and the second one's poll is pending. -/
def sleepBoth : List Action :=
  [.callEmit bareEvent, .stepEmit 0, .stepEmit 0, .stepQueue, .stepQueue, .stepQueue,
    .callFlush, .stepFlush 0, .stepFlush 0, .stepFlush 0,
    .wait 0, .stepFlush 0, .stepFlush 0, .stepFlush 0, .stepFlush 0,
    .callFlush, .stepFlush 1, .stepFlush 1, .stepFlush 1,
    .poll 1 7, .stepFlush 1, .stepFlush 1, .stepFlush 1, .stepFlush 1, .stepFlush 1]

theorem no_barrier_oversleeps_both : ∃ w,
    Transition.Reaches (watch oneSlot) Transition.always Watched.initial w ∧
      (∃ call ∈ w.state.flushes[0]?, call.pc = .parked ∧ w.state.result call.target = none) ∧
        ∃ call ∈ w.state.flushes[1]?, call.pc = .held ∧ w.polls 1 = some (7, 0) ∧
          w.state.result call.target = none := by
  obtain ⟨w, hrun, hpublished, ⟨waiter, hwaiter, hparked⟩, poller, hpoller, hheld, hpoll, hwoken⟩ :=
    Transition.exists_reaches (watch oneSlot) Transition.always Watched.initial
      (fun w => w.publishing = false ∧ (∃ call ∈ w.state.flushes[0]?, call.pc = .parked) ∧
        ∃ call ∈ w.state.flushes[1]?, call.pc = .held ∧ w.polls 1 = some (7, 0) ∧ w.state.woken = [])
      sleepBoth (by decide)
  obtain ⟨hwait, hpending⟩ := no_barrier_oversleeps oneSlot w hrun hpublished
  refine ⟨w, hrun, ⟨waiter, hwaiter, hparked, hwait 0 waiter hwaiter hparked⟩,
    poller, hpoller, hheld, hpoll, hpending 1 poller 7 0 hpoller hheld hpoll ?_⟩
  rw [hwoken]
  exact List.not_mem_nil

end Logwise.AsyncSink
