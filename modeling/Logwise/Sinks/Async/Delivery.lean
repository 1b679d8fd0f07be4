import Logwise.Sinks.Async.Calls

/-!
# What becomes of an accepted record

The queue holds the sequences drawn last, one after another; the writer is handed increasing
sequences; and every accepted record is queued, on its way to the writer, handed over or counted as
overwritten. A writer that panics would lose the record it was given.
-/

namespace Logwise.AsyncSink

variable {config : Config} {s s' : State}

/-- The writer's calls return. -/
def Returns : State → Action → Prop
  | _, .writer .panic => False
  | _, _ => True

instance : ∀ (s : State) (a : Action), Decidable (Returns s a)
  | _, .writer .panic => .isFalse id
  | _, .writer .ok | _, .writer (.err _) | _, .callEmit _ | _, .stepEmit _ | _, .refuseEmit _
  | _, .callFlush | _, .stepFlush _ | _, .wait _ | _, .poll _ _ | _, .dropHandles | _, .stepDrop | _, .stepQueue
  | _, .work | _, .spuriousWork | _, .spuriousProgress _ => .isTrue trivial

/-- The sequence `write_event` was called with. -/
def WriterCall.sequence : WriterCall → Option ℕ
  | .write sequence _ => some sequence
  | .flush _ => none

/-- The sequences handed to the writer, in the order of the calls. -/
def Core.handed (c : Core) : List ℕ := (c.log.filterMap WriterCall.sequence).reverse

/-- The records taken from the queue that the writer has not returned yet. -/
def WorkerPc.popped : WorkerPc → ℕ
  | .write _ => 1
  | _ => 0

/-- The call has accepted or dropped its record. -/
def EmitPc.counted : EmitPc → Bool
  | .notify | .done => true
  | _ => false

/-- The holder of the queue has drawn a sequence, or is about to. -/
def QueueSection.places : QueueSection → Bool
  | .emitSequence _ _ | .emitPush _ _ _ => true
  | _ => false

/-- The holder of the queue has found it full. -/
def QueueSection.overflows : QueueSection → Bool
  | .emitLoadRequested _ _ | .emitLoadFlushed _ _ _ => true
  | _ => false

/-- The last sequence pushed: the last one drawn, unless it is still to be pushed. -/
def Core.pushed (c : Core) : ℕ :=
  match c.queueSection with
  | .emitPush _ _ sequence => sequence - 1
  | _ => c.nextSequence

/-! ## Sequences -/

/-- The queue holds the last sequences pushed, without a gap, and when it is empty the worker has
them all. -/
structure Core.Consecutive (c : Core) : Prop where
  length_le : c.events.length ≤ c.pushed
  queued : c.events.map QueuedEvent.sequence =
    List.range' (c.pushed + 1 - c.events.length) c.events.length
  drained : c.events = [] → c.queueSection.places = false → c.handled = c.nextSequence

theorem consecutive_initial : initial.Consecutive := by
  constructor <;> simp [initial, Core.pushed, Core.handled]

theorem Core.Consecutive.congr {c c' : Core} (h : c.Consecutive) (hevents : c'.events = c.events)
    (hpushed : c'.pushed = c.pushed) (hnext : c'.nextSequence = c.nextSequence)
    (hplaces : c'.queueSection.places = false → c.queueSection.places = false)
    (hhandled : c'.handled = c.handled) : c'.Consecutive where
  length_le := by
    rw [hevents, hpushed]
    exact h.length_le
  queued := by
    rw [hevents, hpushed]
    exact h.queued
  drained := by
    rw [hevents, hnext, hhandled]
    exact fun he hp => h.drained he (hplaces hp)

/-- The front is the oldest of the last sequences. -/
theorem Core.Consecutive.front {c : Core} (h : c.Consecutive) {queued : QueuedEvent}
    {events : List QueuedEvent} (he : c.events = queued :: events) :
    queued.sequence + events.length = c.pushed ∧
      events.map QueuedEvent.sequence = List.range' (c.pushed + 1 - events.length) events.length := by
  have hle := h.length_le
  have hqueued := h.queued
  rw [he, List.length_cons] at hle hqueued
  rw [List.map_cons, List.range'_succ] at hqueued
  obtain ⟨hfront, hrest⟩ := List.cons.inj hqueued
  constructor
  · omega
  · rw [hrest]
    congr 1
    omega

theorem Core.Consecutive.tail {c c' : Core} (h : c.Consecutive) (hevents : c'.events = c.events.tail)
    (hpushed : c'.pushed = c.pushed) (hplaces : c'.queueSection.places = true) :
    c'.Consecutive where
  length_le := by
    rw [hevents, hpushed, List.length_tail]
    exact (Nat.sub_le ..).trans h.length_le
  queued := by
    rw [hevents, hpushed]
    cases he : c.events with
    | nil => rfl
    | cons front rest => exact (h.front he).2
  drained _ hp := by
    rw [hplaces] at hp
    cases hp

/-- The worker takes the front: when nothing is left, it has the last record. -/
theorem Core.Consecutive.pop {c : Core} (h : c.Consecutive) {queued : QueuedEvent}
    {events : List QueuedEvent} (he : c.events = queued :: events) (hp : c.pushed = c.nextSequence) :
    ({ c with queueSection := .free, events := events, worker := .write queued } :
      Core).Consecutive where
  length_le := by
    have hfront := (h.front he).1
    show events.length ≤ c.nextSequence
    omega
  queued := by
    have hrest := (h.front he).2
    rw [hp] at hrest
    exact hrest
  drained hnil _ := by
    have hfront := (h.front he).1
    rw [show events = [] from hnil, List.length_nil, hp] at hfront
    exact hfront

/-- The record drawn last is pushed behind the others. -/
theorem Core.Consecutive.pushBack {c : Core} (h : c.Consecutive) {i sequence : ℕ}
    {owned : OwnedProjectedEvent} (hq : c.queueSection = .emitPush i owned sequence)
    (hsequence : sequence = c.nextSequence) (hpos : 0 < sequence) :
    ({ c with queueSection := .free
              events := c.events ++ [{ sequence := sequence, event := owned }] } :
      Core).Consecutive := by
  have hpushed : c.pushed = sequence - 1 := by rw [Core.pushed, hq]
  have hle := h.length_le
  have hqueued := h.queued
  rw [hpushed] at hle hqueued
  refine ⟨?_, ?_, fun hnil => absurd hnil (by simp)⟩
  · show (c.events ++ _).length ≤ c.nextSequence
    rw [List.length_append, List.length_singleton]
    omega
  · show (c.events ++ _).map _ = List.range' (c.nextSequence + 1 - (c.events ++ _).length)
      (c.events ++ _).length
    have hstart : c.nextSequence + 1 - (c.events.length + 1) =
        sequence - 1 + 1 - c.events.length := by omega
    have hlast : sequence - 1 + 1 - c.events.length + c.events.length = sequence := by omega
    rw [List.map_append, hqueued, List.length_append, List.length_singleton, hstart,
      List.range'_1_concat, hlast]
    rfl

theorem consecutive_queueStep (ho : s.Ordered) (h : s.Consecutive)
    (hs : queueStep config s s.queueSection = some s') : s'.Consecutive := by
  cases hq : s.queueSection with
  | free => simp [hq, queueStep] at hs
  | emitTest i owned =>
    have hpushed : s.pushed = s.nextSequence := by rw [Core.pushed, hq]
    simp only [hq, queueStep] at hs
    split at hs
    · split at hs
      all_goals
        cases hs
        exact h.congr rfl hpushed.symm rfl (fun _ => by rw [hq]; rfl) rfl
    · cases hs
      exact h.congr rfl hpushed.symm rfl (fun _ => by rw [hq]; rfl) rfl
  | emitLoadRequested i owned =>
    have hpushed : s.pushed = s.nextSequence := by rw [Core.pushed, hq]
    simp only [hq, queueStep] at hs
    cases hs
    exact h.congr rfl hpushed.symm rfl (fun _ => by rw [hq]; rfl) rfl
  | emitLoadFlushed i owned requested =>
    have hpushed : s.pushed = s.nextSequence := by rw [Core.pushed, hq]
    simp only [hq, queueStep] at hs
    split at hs
    · cases hs
      exact h.congr rfl hpushed.symm rfl (fun _ => by rw [hq]; rfl) rfl
    · cases hs
      exact h.tail rfl hpushed.symm rfl
  | emitSequence i owned =>
    -- the sequence drawn is not in the queue yet
    have hpushed : s.pushed = s.nextSequence := by rw [Core.pushed, hq]
    simp only [hq, queueStep] at hs
    cases hs
    refine ⟨?_, ?_, fun _ hp => by cases hp⟩
    · exact h.length_le.trans hpushed.le
    · have hqueued := h.queued
      rw [hpushed] at hqueued
      exact hqueued
  | emitPush i owned sequence =>
    obtain ⟨hsequence, hhandled, -⟩ := ho.push i owned sequence hq
    simp only [hq, queueStep] at hs
    cases hs
    exact h.pushBack hq hsequence (Nat.zero_lt_of_lt hhandled)
  | workerPop =>
    have hpushed : s.pushed = s.nextSequence := by rw [Core.pushed, hq]
    simp only [hq, queueStep] at hs
    split at hs
    next queued events he =>
      cases hs
      exact h.pop he hpushed
    next he =>
      cases hs
      exact h.congr rfl hpushed.symm rfl (fun _ => by rw [hq]; rfl) rfl
  | workerLoadRequested =>
    have hpushed : s.pushed = s.nextSequence := by rw [Core.pushed, hq]
    simp only [hq, queueStep] at hs
    cases hs
    exact h.congr rfl hpushed.symm rfl (fun _ => by rw [hq]; rfl) rfl
  | workerLoadFlushed requested =>
    have hpushed : s.pushed = s.nextSequence := by rw [Core.pushed, hq]
    simp only [hq, queueStep] at hs
    cases hs
    exact h.congr rfl hpushed.symm rfl (fun _ => by rw [hq]; rfl) rfl
  | workerTest requested flushed =>
    have hpushed : s.pushed = s.nextSequence := by rw [Core.pushed, hq]
    have hin : s.worker = .inside := ho.inside.mp (by rw [hq]; rfl)
    have hhandled : s.handled = s.processedSequence := by rw [Core.handled, hin]
    simp only [hq, queueStep] at hs
    split at hs
    all_goals
      cases hs
      exact h.congr rfl hpushed.symm rfl (fun _ => by rw [hq]; rfl) hhandled.symm

theorem Core.Consecutive.wake {c : Core} (h : c.Consecutive) :
    ({ c with worker := wakeWorker c.worker } : Core).Consecutive := by
  obtain he | ⟨hparked, he⟩ := wakeWorker_eq c.worker
  · rw [he]
    exact h
  · rw [he]
    exact h.congr rfl rfl rfl id (by simp [Core.handled, hparked])

theorem consecutive_workerStep (h : s.Consecutive) (hs : workerStep s s.worker = some s') :
    s'.Consecutive := by
  have frame := workerStep_frame hs
  obtain ⟨he, -, -⟩ | ⟨hfree, he, -⟩ := frame.queue
  · refine h.congr frame.events ?_ frame.nextSequence (fun hp => he ▸ hp) frame.handled
    rw [Core.pushed, Core.pushed, he, frame.nextSequence]
  · refine h.congr frame.events ?_ frame.nextSequence (fun _ => by rw [hfree]; rfl) frame.handled
    rw [Core.pushed, Core.pushed, he, hfree, frame.nextSequence]

theorem consecutive_writerStep {outcome : Outcome} (h : s.Consecutive)
    (hok : Returns s (.writer outcome)) (hs : writerStep s outcome s.worker = some s') :
    s'.Consecutive := by
  cases hw : s.worker with
  | write queued =>
    rw [hw] at hs
    cases outcome with
    | panic => exact hok.elim
    | ok | err error =>
      cases hs
      exact h.congr rfl rfl rfl id (by simp [Core.handled, hw])
  | flush processed =>
    rw [hw] at hs
    cases outcome with
    | panic => exact hok.elim
    | ok | err error =>
      cases hs
      exact h.congr rfl rfl rfl id (by simp [Core.handled, hw])
  | finalFlush processed =>
    rw [hw] at hs
    cases outcome with
    | panic => exact hok.elim
    | ok | err error =>
      cases hs
      exact h.congr rfl rfl rfl id (by simp [Core.handled, hw])
  | _ => simp [hw, writerStep] at hs

theorem consecutive_step {a : Action} (ho : s.Ordered) (h : s.Consecutive) (hok : Returns s a)
    (hs : step config s a = some s') : s'.Consecutive := by
  cases moves_of_step hs with
  | emitEnter i owned hi hfree =>
    have hpushed : s.pushed = s.nextSequence := by rw [Core.pushed, hfree]
    exact h.congr rfl hpushed.symm rfl (fun _ => by rw [hfree]; rfl) rfl
  | emitNotify i hi => exact h.wake
  | flushNotify f call hf hpc => exact h.wake
  | dropNotify hdrop => exact h.wake.congr rfl rfl rfl id rfl
  | spurious hparked => exact h.wake
  | queue s' hq => exact consecutive_queueStep ho h hq
  | work s' hw => exact consecutive_workerStep h hw
  | writer outcome s' hw => exact consecutive_writerStep h hok hw
  | _ => exact h.congr rfl rfl rfl id rfl

/-! ## The writer's calls -/

theorem mem_handed {c : Core} {sequence : ℕ} :
    sequence ∈ c.handed ↔ ∃ ok, .write sequence ok ∈ c.log := by
  rw [Core.handed, List.mem_reverse, List.mem_filterMap]
  constructor
  · rintro ⟨call, hm, hsequence⟩
    cases call with
    | write sequence' ok =>
      obtain rfl : sequence' = sequence := Option.some.inj hsequence
      exact ⟨ok, hm⟩
    | flush ok => cases hsequence
  · rintro ⟨ok, hm⟩
    exact ⟨.write sequence ok, hm, rfl⟩

theorem handed_write {c c' : Core} {sequence : ℕ} {ok : Bool}
    (hlog : c'.log = .write sequence ok :: c.log) : c'.handed = c.handed ++ [sequence] := by
  rw [Core.handed, Core.handed, hlog]
  exact List.reverse_cons

theorem handed_flush {c c' : Core} {ok : Bool} (hlog : c'.log = .flush ok :: c.log) :
    c'.handed = c.handed := by
  rw [Core.handed, Core.handed, hlog]
  rfl

theorem handed_same {c c' : Core} (hlog : c'.log = c.log) : c'.handed = c.handed := by
  rw [Core.handed, Core.handed, hlog]

/-- The writer is handed sequences in their order, and so none twice. -/
def Core.Increasing (c : Core) : Prop := c.handed.Pairwise (· < ·)

theorem increasing_writerStep {outcome : Outcome} (ho : s.Ordered) (hf : s.Fresh)
    (h : s.Increasing) (hs : writerStep s outcome s.worker = some s') : s'.Increasing := by
  cases hw : s.worker with
  | write queued =>
    have hfresh := hf queued.sequence (by rw [hw]; rfl)
    have hwritten : s.written = s.processedSequence := by rw [Core.written, hw]
    have happend : (s.handed ++ [queued.sequence]).Pairwise (· < ·) := by
      refine List.pairwise_append.mpr ⟨h, List.pairwise_singleton _ _, fun sequence hm last hl => ?_⟩
      obtain ⟨ok, hmem⟩ := mem_handed.mp hm
      rw [List.mem_singleton.mp hl]
      exact (hwritten ▸ ho.log_le sequence ok hmem).trans_lt hfresh
    rw [hw] at hs
    cases outcome with
    | panic =>
      cases hs
      exact h
    | ok | err error =>
      cases hs
      rw [Core.Increasing, handed_write rfl]
      exact happend
  | flush processed | finalFlush processed =>
    rw [hw] at hs
    cases outcome with
    | panic =>
      cases hs
      exact h
    | ok | err error =>
      cases hs
      rw [Core.Increasing, handed_flush rfl]
      exact h
  | _ => simp [hw, writerStep] at hs

theorem increasing_step {a : Action} (ho : s.Ordered) (hf : s.Fresh) (h : s.Increasing)
    (hs : step config s a = some s') : s'.Increasing := by
  cases moves_of_step hs with
  | queue s' hq =>
    rw [Core.Increasing, handed_same (queueStep_frame hq).log]
    exact h
  | work s' hw =>
    rw [Core.Increasing, handed_same (workerStep_frame hw).log]
    exact h
  | writer outcome s' hw => exact increasing_writerStep ho hf h hw
  | _ => exact h

/-! ## Counters -/

/-- The call has got past the test for a capacity. -/
def EmitPc.entered : EmitPc → Bool
  | .tryLock _ | .inside => true
  | _ => false

/-- Every record and every call is counted once. -/
structure State.Counted (config : Config) (s : State) : Prop where
  bound : s.events.length ≤ config.capacity
  entered : ∀ pc ∈ s.emits, pc.entered = true → 0 < config.capacity
  full : s.queueSection.overflows = true → s.events.length = config.capacity
  room : s.queueSection.places = true → s.events.length < config.capacity
  accepted : s.stats.accepted =
    s.handed.length + s.stats.overwritten + s.events.length + s.worker.popped
  counted : s.stats.accepted + s.stats.dropped = s.emits.countP EmitPc.counted

theorem counted_initial (config : Config) : initial.Counted config := by
  constructor <;> simp [initial, Core.handed, WorkerPc.popped, QueueSection.overflows,
    QueueSection.places]

theorem popped_wakeWorker (pc : WorkerPc) : (wakeWorker pc).popped = pc.popped := by
  obtain he | ⟨hparked, he⟩ := wakeWorker_eq pc
  · rw [he]
  · rw [he, hparked]
    rfl

/-- A call goes on, and is counted as dropped or not at all. -/
theorem State.Counted.setEmit (h : s.Counted config) {i : ℕ} {old pc : EmitPc}
    (hi : s.emits[i]? = some old) (hentered : pc.entered = true → 0 < config.capacity)
    (hemits : s'.emits = s.emits.set i pc) (hevents : s'.events = s.events)
    (hqueue : s'.queueSection.overflows = false ∧ s'.queueSection.places = false ∨
      s'.queueSection = s.queueSection)
    (hlog : s'.log = s.log) (hpopped : s'.worker.popped = s.worker.popped)
    (haccepted : s'.stats.accepted = s.stats.accepted)
    (hoverwritten : s'.stats.overwritten = s.stats.overwritten)
    (hdropped : s'.stats.dropped + old.counted.toNat = s.stats.dropped + pc.counted.toNat) :
    s'.Counted config where
  bound := hevents ▸ h.bound
  entered other hm he := by
    rw [hemits] at hm
    obtain hold | rfl := List.mem_or_eq_of_mem_set hm
    · exact h.entered other hold he
    · exact hentered he
  full ho := by
    rw [hevents]
    obtain ⟨hno, -⟩ | hsame := hqueue
    · rw [hno] at ho
      cases ho
    · exact h.full (hsame ▸ ho)
  room hp := by
    rw [hevents]
    obtain ⟨-, hno⟩ | hsame := hqueue
    · rw [hno] at hp
      cases hp
    · exact h.room (hsame ▸ hp)
  accepted := by
    rw [haccepted, hoverwritten, hevents, hpopped, handed_same hlog]
    exact h.accepted
  counted := by
    have hcount := Slots.countP_set_add (y := pc) EmitPc.counted hi
    have hcounted := h.counted
    rw [hemits, haccepted]
    omega

theorem counted_emitStep {i : ℕ} {pc : EmitPc} (h : s.Counted config) (hi : s.emits[i]? = some pc)
    (hs : emitStep config i s pc = some s') : s'.Counted config := by
  cases pc with
  | start event =>
    simp only [emitStep] at hs
    split at hs
    next =>
      cases hs
      exact h.setEmit hi (by simp [EmitPc.entered]) rfl rfl (Or.inr rfl) rfl rfl rfl rfl rfl
    next hopen =>
      cases hs
      refine h.setEmit hi (fun _ => ?_) rfl rfl (Or.inr rfl) rfl rfl rfl rfl rfl
      exact Nat.pos_of_ne_zero fun hzero => hopen (Or.inl hzero)
  | tryLock owned =>
    simp only [emitStep] at hs
    split at hs
    next hfree =>
      cases hs
      refine h.setEmit hi (fun _ => ?_) rfl rfl (Or.inl ⟨rfl, rfl⟩) rfl rfl rfl rfl rfl
      exact h.entered _ (List.mem_of_getElem? hi) rfl
    next =>
      cases hs
      exact h.setEmit hi (by simp [EmitPc.entered]) rfl rfl (Or.inr rfl) rfl rfl rfl rfl rfl
  | notify =>
    cases hs
    exact h.setEmit hi (by simp [EmitPc.entered]) rfl rfl (Or.inr rfl) rfl (popped_wakeWorker _) rfl rfl
      rfl
  | inside => cases hs
  | done => cases hs

theorem counted_queueStep (ho : s.Ordered) (hc : s.Calls) (h : s.Counted config)
    (hs : queueStep config s s.queueSection = some s') : s'.Counted config := by
  have hbound := h.bound
  have haccepted := h.accepted
  have hcounted := h.counted
  cases hq : s.queueSection with
  | free => simp [hq, queueStep] at hs
  | emitTest i owned =>
    -- rejected, found full, or found with room
    have hin := hc.inside i (by rw [hq]; rfl)
    simp only [hq, queueStep] at hs
    split at hs
    next hfull =>
      split at hs
      · cases hs
        exact h.setEmit hin (by simp [EmitPc.entered]) rfl rfl (Or.inl ⟨rfl, rfl⟩) rfl rfl rfl rfl rfl
      · cases hs
        exact ⟨hbound, h.entered, fun _ => hfull, fun hp => (by cases hp), haccepted, hcounted⟩
    next hroom =>
      cases hs
      refine ⟨hbound, h.entered, fun ho => (by cases ho), fun _ => ?_, haccepted, hcounted⟩
      exact lt_of_le_of_ne hbound hroom
  | emitLoadRequested i owned =>
    have hfull := h.full (by rw [hq]; rfl)
    simp only [hq, queueStep] at hs
    cases hs
    exact ⟨hbound, h.entered, fun _ => hfull, fun hp => (by cases hp), haccepted, hcounted⟩
  | emitLoadFlushed i owned requested =>
    have hin := hc.inside i (by rw [hq]; rfl)
    have hfull := h.full (by rw [hq]; rfl)
    have hpos := h.entered _ (List.mem_of_getElem? hin) rfl
    simp only [hq, queueStep] at hs
    split at hs
    · cases hs
      exact h.setEmit hin (by simp [EmitPc.entered]) rfl rfl (Or.inl ⟨rfl, rfl⟩) rfl rfl rfl rfl rfl
    · cases hs
      -- the queue is full and its capacity is not zero, so a record goes
      have htail : s.events.tail.length + 1 = s.events.length := by
        rw [List.length_tail]
        omega
      refine ⟨?_, h.entered, fun ho => (by cases ho), fun _ => ?_, ?_, hcounted⟩
      · show s.events.tail.length ≤ config.capacity
        omega
      · show s.events.tail.length < config.capacity
        omega
      · show s.stats.accepted =
          s.handed.length + (s.stats.overwritten + 1) + s.events.tail.length + s.worker.popped
        omega
  | emitSequence i owned =>
    have hroom := h.room (by rw [hq]; rfl)
    simp only [hq, queueStep] at hs
    cases hs
    exact ⟨hbound, h.entered, fun ho => (by cases ho), fun _ => hroom, haccepted, hcounted⟩
  | emitPush i owned sequence =>
    -- accepted and queued in one step
    have hin := hc.inside i (by rw [hq]; rfl)
    have hroom := h.room (by rw [hq]; rfl)
    have hcount := Slots.countP_set_add (y := EmitPc.notify) EmitPc.counted hin
    simp only [hq, queueStep] at hs
    cases hs
    refine ⟨?_, fun pc hm he => ?_, fun ho => (by cases ho), fun hp => (by cases hp), ?_, ?_⟩
    · rw [List.length_append, List.length_singleton]
      exact hroom
    · obtain hold | rfl := List.mem_or_eq_of_mem_set hm
      · exact h.entered pc hold he
      · cases he
    · show s.stats.accepted + 1 =
        s.handed.length + s.stats.overwritten + (s.events ++ _).length + s.worker.popped
      rw [List.length_append, List.length_singleton]
      omega
    · show s.stats.accepted + 1 + s.stats.dropped = (s.emits.set i .notify).countP EmitPc.counted
      have hinside : EmitPc.inside.counted.toNat = 0 := rfl
      have hnotify : EmitPc.notify.counted.toNat = 1 := rfl
      omega
  | workerPop =>
    -- from the queue into the worker's hands
    have hin : s.worker = .inside := ho.inside.mp (by rw [hq]; rfl)
    simp only [hq, queueStep] at hs
    split at hs
    next queued events he =>
      cases hs
      rw [he, List.length_cons] at hbound haccepted
      rw [hin] at haccepted
      refine ⟨(Nat.le_succ _).trans hbound, h.entered, fun ho => (by cases ho), fun hp => (by cases hp),
        ?_, hcounted⟩
      show s.stats.accepted = s.handed.length + s.stats.overwritten + events.length + 1
      rw [haccepted]
      simp only [WorkerPc.popped]
      omega
    next =>
      cases hs
      exact ⟨hbound, h.entered, fun ho => (by cases ho), fun hp => (by cases hp), haccepted, hcounted⟩
  | workerLoadRequested =>
    simp only [hq, queueStep] at hs
    cases hs
    exact ⟨hbound, h.entered, fun ho => (by cases ho), fun hp => (by cases hp), haccepted, hcounted⟩
  | workerLoadFlushed requested =>
    simp only [hq, queueStep] at hs
    cases hs
    exact ⟨hbound, h.entered, fun ho => (by cases ho), fun hp => (by cases hp), haccepted, hcounted⟩
  | workerTest requested flushed =>
    have hin : s.worker = .inside := ho.inside.mp (by rw [hq]; rfl)
    rw [hin] at haccepted
    simp only [hq, queueStep] at hs
    split at hs
    all_goals
      cases hs
      exact ⟨hbound, h.entered, fun ho => (by cases ho), fun hp => (by cases hp), haccepted, hcounted⟩

theorem workerStep_stats (hs : workerStep s s.worker = some s') : s'.stats = s.stats := by
  cases hw : s.worker <;> simp only [hw, workerStep, reduceCtorEq] at hs <;>
    (try (split at hs <;> try split at hs)) <;> cases hs <;> rfl

theorem popped_eq_zero {pc : WorkerPc} (h : ∀ queued, pc ≠ .write queued) : pc.popped = 0 := by
  cases pc with
  | write queued => exact absurd rfl (h queued)
  | _ => rfl

theorem counted_workerStep (h : s.Counted config) (hs : workerStep s s.worker = some s') :
    s'.Counted config := by
  have frame := workerStep_frame hs
  have hpopped := popped_eq_zero fun queued => (frame.outside queued).1
  have hpopped' := popped_eq_zero fun queued => (frame.outside queued).2
  have hqueue : s'.queueSection = s.queueSection ∨ s'.queueSection = .workerPop :=
    frame.queue.imp (fun hsame => hsame.1) fun hpop => hpop.2.1
  constructor
  · exact frame.events ▸ h.bound
  · exact frame.emits ▸ h.entered
  · intro ho
    rw [frame.events]
    obtain hsame | hpop := hqueue
    · exact h.full (hsame ▸ ho)
    · rw [hpop] at ho
      cases ho
  · intro hp
    rw [frame.events]
    obtain hsame | hpop := hqueue
    · exact h.room (hsame ▸ hp)
    · rw [hpop] at hp
      cases hp
  · rw [workerStep_stats hs, handed_same frame.log, frame.events, hpopped', ← hpopped]
    exact h.accepted
  · rw [workerStep_stats hs, frame.emits]
    exact h.counted

theorem counted_writerStep {outcome : Outcome} (h : s.Counted config)
    (hok : Returns s (.writer outcome)) (hs : writerStep s outcome s.worker = some s') :
    s'.Counted config := by
  have haccepted := h.accepted
  cases hw : s.worker with
  | write queued =>
    rw [hw] at hs haccepted
    cases outcome with
    | panic => exact hok.elim
    | ok | err error =>
      cases hs
      refine ⟨h.bound, h.entered, h.full, h.room, ?_, h.counted⟩
      rw [handed_write rfl, List.length_append]
      refine haccepted.trans ?_
      simp only [WorkerPc.popped, List.length_singleton, SinkStats.countWriteError]
      omega
  | flush processed | finalFlush processed =>
    rw [hw] at hs haccepted
    cases outcome with
    | panic => exact hok.elim
    | ok | err error =>
      cases hs
      refine ⟨h.bound, h.entered, h.full, h.room, ?_, h.counted⟩
      rw [handed_flush rfl]
      exact haccepted
  | _ => simp [hw, writerStep] at hs

theorem State.Counted.wake (h : s.Counted config) (hemits : s'.emits = s.emits)
    (hevents : s'.events = s.events) (hqueue : s'.queueSection = s.queueSection)
    (hlog : s'.log = s.log) (hworker : s'.worker = wakeWorker s.worker)
    (hstats : s'.stats = s.stats) : s'.Counted config where
  bound := hevents ▸ h.bound
  entered := hemits ▸ h.entered
  full := by
    rw [hqueue, hevents]
    exact h.full
  room := by
    rw [hqueue, hevents]
    exact h.room
  accepted := by
    rw [hstats, handed_same hlog, hevents, hworker, popped_wakeWorker]
    exact h.accepted
  counted := by
    rw [hstats, hemits]
    exact h.counted

theorem counted_step {a : Action} (ho : s.Ordered) (hc : s.Calls) (h : s.Counted config)
    (hok : Returns s a) (hs : step config s a = some s') : s'.Counted config := by
  by_cases hemit : ∃ i, a = .stepEmit i ∨ a = .refuseEmit i
  · obtain ⟨i, rfl | rfl⟩ := hemit
    · obtain ⟨pc, hi, hstep⟩ := Option.bind_eq_some_iff.mp hs
      exact counted_emitStep h hi hstep
    · -- counted like a call that finds the queue taken
      obtain ⟨pc, hi, hstep⟩ := Option.bind_eq_some_iff.mp hs
      obtain ⟨⟨owned, rfl⟩, rfl⟩ := refuseStep_cases hstep
      exact h.setEmit hi (by simp [EmitPc.entered]) rfl rfl (Or.inr rfl) rfl rfl rfl rfl rfl
  · cases moves_of_step hs with
    | callEmit event halive =>
      refine ⟨h.bound, fun pc hm he => ?_, h.full, h.room, h.accepted, ?_⟩
      · obtain hold | hnew := List.mem_append.mp hm
        · exact h.entered pc hold he
        · rw [List.mem_singleton.mp hnew] at he
          cases he
      · have hcount := h.counted
        show s.stats.accepted + s.stats.dropped =
          (s.emits ++ [EmitPc.start event]).countP EmitPc.counted
        rw [List.countP_append, hcount]
        rfl
    | emitAside a i old pc stats ha => exact absurd ⟨i, ha⟩ hemit
    | emitEnter i | emitNotify i => exact absurd ⟨i, Or.inl rfl⟩ hemit
    | flushNotify f call hf hpc => exact h.wake rfl rfl rfl rfl rfl rfl
    | dropNotify hdrop => exact h.wake rfl rfl rfl rfl rfl rfl
    | spurious hparked => exact h.wake rfl rfl rfl rfl rfl rfl
    | queue s' hq => exact counted_queueStep ho hc h hq
    | work s' hw => exact counted_workerStep h hw
    | writer outcome s' hw => exact counted_writerStep h hok hw
    | _ => exact ⟨h.bound, h.entered, h.full, h.room, h.accepted, h.counted⟩

/-! ## The end -/

/-- The worker has left its loop. -/
def WorkerPc.finishing : WorkerPc → Bool
  | .loadFinal _ | .finalFlush _ | .storeFinal _ | .storeStopped | .terminated => true
  | .notifyProgress next | .takeWakers next | .wake _ next => next.carried.isNone
  | _ => false

/-- The worker leaves its loop once the sink is closed and nothing is left. -/
structure Core.Finished (c : Core) : Prop where
  closed : c.shutdown = true → c.drop ≠ .alive
  finishing : c.worker.finishing = true →
    c.shutdown = true ∧ c.events = [] ∧ c.processedSequence = c.nextSequence
  stopped : c.stopped = true → c.worker.finishing = true

theorem finished_initial : initial.Finished := by
  constructor <;> simp [initial, WorkerPc.finishing]

theorem finishing_wakeWorker (pc : WorkerPc) : (wakeWorker pc).finishing = pc.finishing := by
  obtain he | ⟨hparked, he⟩ := wakeWorker_eq pc
  · rw [he]
  · rw [he, hparked]
    rfl

theorem Core.Finished.congr {c c' : Core} (h : c.Finished)
    (hclosed : c'.shutdown = true → c'.drop ≠ .alive) (hshutdown : c.shutdown = true → c'.shutdown = true)
    (hevents : c'.events = c.events) (hprocessed : c'.processedSequence = c.processedSequence)
    (hnext : c'.nextSequence = c.nextSequence) (hstopped : c'.stopped = c.stopped)
    (hfinishing : c'.worker.finishing = c.worker.finishing) : c'.Finished where
  closed := hclosed
  finishing hf := by
    obtain ⟨hshut, he, hp⟩ := h.finishing (hfinishing ▸ hf)
    rw [hevents, hprocessed, hnext]
    exact ⟨hshutdown hshut, he, hp⟩
  stopped hs := hfinishing ▸ h.stopped (hstopped ▸ hs)

/-- No one is in the queue once the worker has left its loop. -/
theorem State.Calls.free_of_finishing (hc : s.Calls) (ho : s.Ordered) (h : s.Finished)
    (hf : s.worker.finishing = true) : s.queueSection = .free := by
  have hdrop := h.closed (h.finishing hf).1
  have hout : s.queueSection.ofWorker = false := by
    cases hq : s.queueSection.ofWorker with
    | false => rfl
    | true =>
      rw [ho.inside.mp hq] at hf
      cases hf
  have hquiet : ∀ i, s.queueSection.emitter ≠ some i := fun i => hc.quiet hdrop
  cases hq : s.queueSection with
  | free => rfl
  | emitTest i _ | emitLoadRequested i _ | emitLoadFlushed i _ _ | emitSequence i _
  | emitPush i _ _ =>
    rw [hq] at hquiet
    exact absurd rfl (hquiet i)
  | workerPop | workerLoadRequested | workerLoadFlushed _ | workerTest _ _ =>
    rw [hq] at hout
    cases hout

theorem finished_queueStep (ho : s.Ordered) (hc : s.Calls) (h : s.Finished)
    (hs : queueStep config s s.queueSection = some s') : s'.Finished := by
  have frame := queueStep_frame hs
  have hbusy : s.worker.finishing = false := by
    cases hf : s.worker.finishing with
    | false => rfl
    | true =>
      rw [hc.free_of_finishing ho h hf] at hs
      cases hs
  have hbusy' : s'.worker.finishing = false := by
    obtain he | ⟨-, he | he | ⟨queued, -, he⟩⟩ := frame.worker
    · rw [he, hbusy]
    · rw [he]
      rfl
    · rw [he]
      rfl
    · rw [he]
      rfl
  refine ⟨?_, fun hf => ?_, fun hstopped => ?_⟩
  · rw [frame.shutdown, frame.drop]
    exact h.closed
  · rw [hbusy'] at hf
    cases hf
  · have hf := h.stopped (frame.stopped ▸ hstopped)
    rw [hbusy] at hf
    cases hf

/-- How the worker gets out of its loop, and that it stays out. -/
structure FinishFrame (s s' : State) : Prop where
  enters : s'.worker.finishing = true → s.worker.finishing = true ∨
    ((∃ processed, s.worker = .checkStop processed) ∧ s.queueSection = .free ∧ s.shutdown = true ∧
      s.events = [])
  stays : s.worker.finishing = true → s'.worker.finishing = true
  stopped : s'.stopped = s.stopped ∨ s'.worker.finishing = true
  processed : s.worker.finishing = true → s'.processedSequence = s.processedSequence

theorem workerStep_finish (hs : workerStep s s.worker = some s') : FinishFrame s s' := by
  cases hw : s.worker with
  | wake wakers next =>
    simp only [hw, workerStep] at hs
    cases hs
    cases next <;> constructor <;> simp [hw, WorkerPc.finishing, AfterNotify.carried, afterNotify]
  | _ =>
    simp only [hw, workerStep, reduceCtorEq] at hs
    try (split at hs <;> try split at hs)
    all_goals
      cases hs
      try (constructor <;> simp_all [WorkerPc.finishing, AfterNotify.carried])

theorem finished_workerStep (hconsecutive : s.Consecutive) (h : s.Finished)
    (hs : workerStep s s.worker = some s') : s'.Finished := by
  have frame := workerStep_frame hs
  have finish := workerStep_finish hs
  refine ⟨?_, fun hf => ?_, fun hstopped => ?_⟩
  · rw [frame.shutdown, frame.drop]
    exact h.closed
  · rw [frame.shutdown, frame.events, frame.nextSequence]
    obtain hold | ⟨⟨processed, hw⟩, hfree, hshutdown, hevents⟩ := finish.enters hf
    · rw [finish.processed hold]
      exact h.finishing hold
    · have hprocessed : s'.processedSequence = s.processedSequence := by
        obtain he | ⟨he, -⟩ := frame.processed
        · exact he
        · rw [he, Core.handled, hw]
      have hdrained := hconsecutive.drained hevents (by rw [hfree]; rfl)
      rw [Core.handled, hw] at hdrained
      rw [hprocessed]
      exact ⟨hshutdown, hevents, hdrained⟩
  · obtain he | hf := finish.stopped
    · exact finish.stays (h.stopped (he ▸ hstopped))
    · exact hf

theorem finished_writerStep {outcome : Outcome} (h : s.Finished)
    (hok : Returns s (.writer outcome)) (hs : writerStep s outcome s.worker = some s') :
    s'.Finished := by
  cases hw : s.worker with
  | write queued | flush processed | finalFlush processed =>
    rw [hw] at hs
    cases outcome with
    | panic => exact hok.elim
    | ok | err error =>
      cases hs
      exact h.congr h.closed id rfl rfl rfl rfl (by rw [hw]; rfl)
  | _ => simp [hw, writerStep] at hs

theorem finished_step {a : Action} (ho : s.Ordered) (hc : s.Calls) (hconsecutive : s.Consecutive)
    (h : s.Finished) (hok : Returns s a) (hs : step config s a = some s') : s'.Finished := by
  cases moves_of_step hs with
  | emitNotify i hi => exact h.congr h.closed id rfl rfl rfl rfl (finishing_wakeWorker _)
  | flushNotify f call hf hpc => exact h.congr h.closed id rfl rfl rfl rfl (finishing_wakeWorker _)
  | dropHandles halive hquiet =>
    exact h.congr (fun _ => DropPc.noConfusion) id rfl rfl rfl rfl rfl
  | dropLock hdrop hfree =>
    exact h.congr (fun _ => DropPc.noConfusion) (fun _ => rfl) rfl rfl rfl rfl rfl
  | dropLoad hdrop => exact h.congr (fun _ => DropPc.noConfusion) id rfl rfl rfl rfl rfl
  | dropStore next hdrop => exact h.congr (fun _ => DropPc.noConfusion) id rfl rfl rfl rfl rfl
  | dropNotify hdrop =>
    exact h.congr (fun _ => DropPc.noConfusion) id rfl rfl rfl rfl (finishing_wakeWorker _)
  | dropJoin hdrop hworker => exact h.congr (fun _ => DropPc.noConfusion) id rfl rfl rfl rfl rfl
  | queue s' hq => exact finished_queueStep ho hc h hq
  | work s' hw => exact finished_workerStep hconsecutive h hw
  | writer outcome s' hw => exact finished_writerStep h hok hw
  | spurious hparked => exact h.congr h.closed id rfl rfl rfl rfl (finishing_wakeWorker _)
  | _ => exact h.congr h.closed id rfl rfl rfl rfl rfl

/-! ## Runs -/

/-- What every run keeps while the writer's calls return. -/
structure State.Delivers (config : Config) (s : State) : Prop where
  consecutive : s.Consecutive
  increasing : s.Increasing
  counted : s.Counted config
  finished : s.Finished

theorem delivers_initial (config : Config) : initial.Delivers config :=
  ⟨consecutive_initial, List.Pairwise.nil, counted_initial config, finished_initial⟩

theorem delivers_step {a : Action} (kept : s.Kept) (h : s.Delivers config) (hok : Returns s a)
    (hs : step config s a = some s') : s'.Delivers config where
  consecutive := consecutive_step kept.ordered h.consecutive hok hs
  increasing := increasing_step kept.ordered kept.fresh h.increasing hs
  counted := counted_step kept.ordered kept.calls h.counted hok hs
  finished := finished_step kept.ordered kept.calls h.consecutive h.finished hok hs

theorem delivers_of_reaches (h : Transition.Reaches (step config) Returns initial s) :
    s.Kept ∧ s.Delivers config :=
  invariant_of_reaches (fun _ _ _ kept hd hok hs => delivers_step kept hd hok hs)
    (delivers_initial config) h

theorem getLast?_range' (first count : ℕ) :
    (List.range' first (count + 1)).getLast? = some (first + count) := by
  rw [List.range'_1_concat, List.getLast?_concat]

/-- The last record queued has the last sequence pushed. -/
theorem Core.Consecutive.last {c : Core} (h : c.Consecutive) {last : QueuedEvent}
    (hlast : last ∈ c.events.getLast?) : last.sequence = c.pushed := by
  have hle := h.length_le
  have hmap := congrArg List.getLast? h.queued
  rw [List.getLast?_map, Option.mem_def.mp hlast] at hmap
  cases hlen : c.events.length with
  | zero =>
    rw [List.length_eq_zero_iff.mp hlen] at hlast
    cases hlast
  | succ count =>
    rw [hlen] at hmap hle
    rw [getLast?_range'] at hmap
    have hsequence := Option.some.inj hmap
    omega

/-- **Delivery and loss**: in every state of a run the queue is within its capacity and holds the
sequences drawn last, the writer is handed increasing sequences, every accepted record and every
call is counted once, and once the worker has stopped nothing is left behind. -/
theorem delivery_accounted (config : Config) (s : State)
    (hrun : Transition.Reaches (step config) Returns initial s) :
    s.events.length ≤ config.capacity ∧
      (∃ first, s.events.map QueuedEvent.sequence = List.range' first s.events.length) ∧
      (∀ last ∈ s.events.getLast?, last.sequence = s.nextSequence ∨
        ∃ i owned, s.queueSection = .emitPush i owned s.nextSequence ∧
          last.sequence + 1 = s.nextSequence) ∧
      s.handed.Pairwise (· < ·) ∧ s.handed.Nodup ∧
      s.stats.accepted =
        s.handed.length + s.stats.overwritten + s.events.length + s.worker.popped ∧
      s.emits.countP EmitPc.counted = s.stats.accepted + s.stats.dropped ∧
      (s.stopped = true → s.events = [] ∧ s.processedSequence = s.nextSequence ∧
        s.stats.accepted = s.handed.length + s.stats.overwritten) := by
  obtain ⟨kept, hd⟩ := delivers_of_reaches hrun
  have haccepted := hd.counted.accepted
  refine ⟨hd.counted.bound, ⟨_, hd.consecutive.queued⟩, fun last hlast => ?_, hd.increasing,
    hd.increasing.imp fun hlt => hlt.ne, haccepted, hd.counted.counted.symm, fun hstopped => ?_⟩
  · have hpushed := hd.consecutive.last hlast
    cases hq : s.queueSection with
    | emitPush i owned sequence =>
      obtain ⟨rfl, hpos, -⟩ := kept.ordered.push i owned sequence hq
      rw [Core.pushed, hq] at hpushed
      refine Or.inr ⟨i, owned, rfl, ?_⟩
      rw [hpushed]
      exact Nat.sub_add_cancel (Nat.zero_lt_of_lt hpos)
    | _ =>
      rw [Core.pushed, hq] at hpushed
      exact Or.inl hpushed
  · have hfinishing := hd.finished.stopped hstopped
    obtain ⟨-, hevents, hprocessed⟩ := hd.finished.finishing hfinishing
    have hpopped : s.worker.popped = 0 := by
      refine popped_eq_zero fun queued hw => ?_
      rw [hw] at hfinishing
      cases hfinishing
    rw [hevents, hpopped] at haccepted
    exact ⟨hevents, hprocessed, haccepted⟩

def twoSlots : Config :=
  { capacity := 2, maxStringBytes := 64, overflow := .overwriteOldest }

/-- One record is pushed, and the sequence of a second is drawn. -/
def emitTwo : List Action :=
  [.callEmit bareEvent, .stepEmit 0, .stepEmit 0, .stepQueue, .stepQueue, .stepQueue,
    .callEmit bareEvent, .stepEmit 1, .stepEmit 1, .stepQueue, .stepQueue]

/-- A third record overwrites the first, the handles are dropped and the worker drains the queue. -/
theorem delivery_accounted_stopped : ∃ s,
    Transition.Reaches (step twoSlots) Returns initial s ∧ s.stats.overwritten = 1 ∧
      s.events = [] ∧ s.processedSequence = s.nextSequence ∧
        s.stats.accepted = s.handed.length + s.stats.overwritten := by
  obtain ⟨s, hrun, hstopped, hoverwritten⟩ := Transition.exists_reaches (step twoSlots) Returns initial
    (fun s => s.stopped = true ∧ s.stats.overwritten = 1)
    (emitTwo ++ [.stepQueue, .stepEmit 0, .stepEmit 1,
      .callEmit bareEvent, .stepEmit 2, .stepEmit 2, .stepQueue, .stepQueue, .stepQueue, .stepQueue,
      .stepQueue, .stepEmit 2,
      .dropHandles, .stepDrop, .stepDrop, .stepDrop,
      .work, .stepQueue, .writer .ok, .work, .work, .work, .work,
      .work, .stepQueue, .writer .ok, .work, .work, .work, .work, .writer .ok,
      .work, .work, .work, .work, .work, .work, .work, .work]) (by decide +kernel)
  obtain ⟨-, -, -, -, -, -, -, hend⟩ := delivery_accounted twoSlots s hrun
  exact ⟨s, hrun, hoverwritten, hend hstopped⟩

/-- The second record's sequence is drawn and not pushed yet, and the first call, whose record is
accepted, has not returned. -/
theorem queue_ends_before_next : ∃ s,
    Transition.Reaches (step twoSlots) Returns initial s ∧
      (∃ last ∈ s.events.getLast?, last.sequence ≠ s.nextSequence) ∧
        s.emits.countP (fun pc => pc = .done) ≠ s.stats.accepted + s.stats.dropped :=
  Transition.exists_reaches (step twoSlots) Returns initial
    (fun s => (∃ last ∈ s.events.getLast?, last.sequence ≠ s.nextSequence) ∧
      s.emits.countP (fun pc => pc = .done) ≠ s.stats.accepted + s.stats.dropped)
    emitTwo (by decide)

end Logwise.AsyncSink
