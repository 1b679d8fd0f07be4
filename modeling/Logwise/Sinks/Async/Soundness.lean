import Logwise.Sinks.Async.Calls

/-!
# What a successful flush says

A barrier's answer is put together from `flushed_sequence`, `last_flush_error` and
`last_write_error`. The worker moves `flushed_sequence` on two paths, and on the second, after the
last handle is gone, it discards what the writer's `flush` returned.
-/

namespace Logwise.AsyncSink

variable {config : Config} {s s' : State}

/-- In the log, newest first, every write up to the target is followed by a successful flush. -/
def FlushedSince (target : ℕ) : List WriterCall → Prop
  | [] => True
  | .flush true :: _ => True
  | .flush false :: log => FlushedSince target log
  | .write sequence _ :: log => target < sequence ∧ FlushedSince target log

instance decidableFlushedSince (target : ℕ) : ∀ log, Decidable (FlushedSince target log)
  | [] => .isTrue trivial
  | .flush true :: _ => .isTrue trivial
  | .flush false :: log => decidableFlushedSince target log
  | .write sequence _ :: log =>
    have := decidableFlushedSince target log
    inferInstanceAs (Decidable (target < sequence ∧ FlushedSince target log))

theorem flushedSince_iff (target : ℕ) (log : List WriterCall) :
    FlushedSince target log ↔ ∀ newer sequence ok older,
      log = newer ++ .write sequence ok :: older → sequence ≤ target → .flush true ∈ newer := by
  induction log with
  | nil =>
    refine iff_of_true trivial ?_
    rintro newer sequence ok older hlog
    exact absurd hlog.symm (List.append_ne_nil_of_right_ne_nil _ (List.cons_ne_nil _ _))
  | cons entry log ih =>
    have hcons : ∀ {newer sequence ok older},
        entry :: log = newer ++ .write sequence ok :: older →
          (newer = [] ∧ entry = .write sequence ok) ∨
            ∃ rest, newer = entry :: rest ∧ log = rest ++ .write sequence ok :: older := by
      intro newer sequence ok older hlog
      cases newer with
      | nil => exact Or.inl ⟨rfl, (List.cons.inj hlog).1⟩
      | cons head rest =>
        obtain ⟨rfl, hrest⟩ := List.cons.inj hlog
        exact Or.inr ⟨rest, rfl, hrest⟩
    constructor
    · intro h newer sequence ok older hlog hle
      obtain ⟨-, rfl⟩ | ⟨rest, rfl, hrest⟩ := hcons hlog
      · exact absurd h.1 (not_lt.mpr hle)
      · match entry, h with
        | .flush true, _ => exact List.mem_cons_self ..
        | .flush false, h => exact List.mem_cons_of_mem _ (ih.mp h rest sequence ok older hrest hle)
        | .write _ _, h => exact List.mem_cons_of_mem _ (ih.mp h.2 rest sequence ok older hrest hle)
    · intro h
      have htail : entry ≠ .flush true → FlushedSince target log := by
        intro hne
        refine ih.mpr fun newer sequence ok older hlog hle => ?_
        have hm := h (entry :: newer) sequence ok older (congrArg (entry :: ·) hlog) hle
        exact (List.mem_cons.mp hm).resolve_left fun he => hne he.symm
      match entry, h, htail with
      | .flush true, _, _ => exact trivial
      | .flush false, _, htail => exact htail (by simp)
      | .write sequence ok, h, htail =>
        refine ⟨?_, htail WriterCall.noConfusion⟩
        by_contra hle
        cases h [] sequence ok log rfl (not_lt.mp hle)

/-- The shutdown path is at its call of `flush`. -/
def WorkerPc.flushesFinally : WorkerPc → Bool
  | .finalFlush _ => true
  | _ => false

/-- The shutdown path does not discard an error that a barrier should report. The writer does not
panic. -/
def ReportsFinally (s : State) : Action → Prop
  | .writer .panic => False
  | .writer (.err _) => s.worker.flushesFinally = true → ∀ call ∈ s.flushes,
      s.flushedSequence < call.target → call.target ≤ s.processedSequence →
        FlushedSince call.target s.log ∨ (writeErrorFor call.target s.lastWriteError).isSome = true
  | _ => True

instance : ∀ (s : State) (a : Action), Decidable (ReportsFinally s a)
  | s, .writer (.err _) => inferInstanceAs (Decidable (s.worker.flushesFinally = true → _))
  | _, .writer .panic => .isFalse id
  | _, .writer .ok | _, .stepQueue | _, .callEmit _ | _, .stepEmit _ | _, .refuseEmit _
  | _, .callFlush | _, .stepFlush _ | _, .wait _ | _, .poll _ _ | _, .dropHandles | _, .stepDrop | _, .work
  | _, .spuriousWork | _, .spuriousProgress _ => .isTrue trivial

/-- The sequence whose error the worker is about to record. -/
def WorkerPc.failing : WorkerPc → Option ℕ
  | .recordWriteError sequence _ => some sequence
  | _ => none

/-- What `flushed_sequence` is, or is about to be. -/
def Core.answered (c : Core) : ℕ :=
  match c.worker with
  | .storeFlushed processed => processed
  | .storeFinal processed => processed
  | _ => c.flushedSequence

/-- A barrier with this target is told of an error, unless there is none. -/
def Core.Answers (c : Core) (target : ℕ) : Prop :=
  (flushErrorFor target c.lastFlushError).isSome = true ∨ FlushedSince target c.log ∨
    (writeErrorFor target c.lastWriteError).isSome = true

/-- A barrier may still be asked for with this target. -/
def State.Asked (s : State) (target : ℕ) : Prop :=
  s.drop = .alive ∨ ∃ call ∈ s.flushes, call.target = target

/-- What the worker has recorded of the writer's errors. -/
structure Core.Recorded (c : Core) : Prop where
  cleared : ∀ processed, c.worker = .clearFlushError processed → ∀ target, FlushedSince target c.log
  errors : ∀ sequence, .write sequence false ∈ c.log → c.worker.failing = some sequence ∨
    ∀ target, sequence ≤ target → (writeErrorFor target c.lastWriteError).isSome = true
  first : ∀ sequence error, c.lastWriteError = some (sequence, error) → sequence ≤ c.written

/-- Where the shutdown path may be. -/
structure Core.Closing (c : Core) : Prop where
  dropped : c.shutdown = true → c.drop ≠ .alive
  stopping : c.worker.stopping = true → c.shutdown = true

theorem recorded_initial : initial.Recorded := by
  constructor <;> simp [initial]

theorem closing_initial : initial.Closing := by
  constructor <;> simp [initial, WorkerPc.stopping]

theorem flushErrorFor_some {target processed : ℕ} (error : FlushError) (h : target ≤ processed) :
    (flushErrorFor target (some (processed, error))).isSome = true := by
  simp [flushErrorFor, Option.filter, h]

theorem writeErrorFor_isSome_iff {target : ℕ} {last : Option (ℕ × FlushError)} :
    (writeErrorFor target last).isSome = true ↔ ∃ sequence error, last = some (sequence, error) ∧
      sequence ≤ target := by
  cases last with
  | none => simp [writeErrorFor]
  | some entry =>
    obtain ⟨sequence, error⟩ := entry
    by_cases h : sequence ≤ target <;> simp [writeErrorFor, Option.filter, h]

/-- The first error stays. -/
theorem writeErrorFor_or {target : ℕ} {last : Option (ℕ × FlushError)} (entry : ℕ × FlushError)
    (h : (writeErrorFor target last).isSome = true) :
    (writeErrorFor target (last.or (some entry))).isSome = true := by
  obtain ⟨sequence, error, rfl, hle⟩ := writeErrorFor_isSome_iff.mp h
  exact writeErrorFor_isSome_iff.mpr ⟨sequence, error, rfl, hle⟩

/-- What a step of the worker does to the cells a barrier reads. -/
theorem workerStep_reports (hs : workerStep s s.worker = some s') :
    (s'.lastFlushError = s.lastFlushError ∧ s'.lastWriteError = s.lastWriteError ∧
      s'.answered = s.answered ∧ s.worker.failing = none ∧ s'.worker.failing = none ∧
      (∀ processed, s'.worker ≠ .clearFlushError processed) ∧
      (s'.worker.stopping = true → s.worker.stopping = true ∨ s.shutdown = true)) ∨
    (∃ processed, s.worker = .clearFlushError processed ∧
      s' = { s with worker := .storeFlushed processed, lastFlushError := none }) ∨
    (∃ processed error, s.worker = .setFlushError processed error ∧
      s' = { s with
        worker := .storeFlushed processed, lastFlushError := some (processed, error) }) ∨
    ∃ sequence error, s.worker = .recordWriteError sequence error ∧
      s' = { s with
        worker := .storeProcessed sequence
        lastWriteError := s.lastWriteError.or (some (sequence, error)) } := by
  cases hw : s.worker with
  | clearFlushError processed =>
    rw [hw] at hs
    cases hs
    exact Or.inr (Or.inl ⟨processed, rfl, rfl⟩)
  | setFlushError processed error =>
    rw [hw] at hs
    cases hs
    exact Or.inr (Or.inr (Or.inl ⟨processed, error, rfl, rfl⟩))
  | recordWriteError sequence error =>
    rw [hw] at hs
    cases hs
    exact Or.inr (Or.inr (Or.inr ⟨sequence, error, rfl, rfl⟩))
  | wake wakers next =>
    rw [hw] at hs
    cases hs
    cases next <;>
      simp [Core.answered, hw, WorkerPc.failing, WorkerPc.stopping, afterNotify]
  | _ =>
    simp only [hw, workerStep, reduceCtorEq] at hs
    try (split at hs <;> try split at hs)
    all_goals
      cases hs
      try (simp_all [Core.answered, WorkerPc.failing, WorkerPc.stopping])

theorem Core.Recorded.congr {c c' : Core} (h : c.Recorded) (hlog : c'.log = c.log)
    (hlast : c'.lastWriteError = c.lastWriteError) (hwritten : c'.written = c.written)
    (hfailing : c.worker.failing = c'.worker.failing)
    (hcleared : ∀ processed, c'.worker = .clearFlushError processed →
      c.worker = .clearFlushError processed) : c'.Recorded where
  cleared processed hw := hlog ▸ h.cleared processed (hcleared processed hw)
  errors := by
    rw [hlog, hlast, ← hfailing]
    exact h.errors
  first := by
    rw [hlast, hwritten]
    exact h.first

theorem Core.Recorded.wake {c c' : Core} (h : c.Recorded) (hlog : c'.log = c.log)
    (hlast : c'.lastWriteError = c.lastWriteError)
    (hprocessed : c'.processedSequence = c.processedSequence)
    (hworker : c'.worker = wakeWorker c.worker) : c'.Recorded := by
  obtain he | ⟨hp, he⟩ := wakeWorker_eq c.worker
  · have hsame : c'.worker = c.worker := hworker.trans he
    refine h.congr hlog hlast ?_ (by rw [hsame]) (hsame ▸ fun _ => id)
    rw [Core.written, Core.written, hsame, hprocessed]
  · have hlock : c'.worker = .lock := hworker.trans he
    refine h.congr hlog hlast ?_ (by rw [hlock, hp]; rfl) fun _ hw => ?_
    · rw [Core.written, Core.written, hlock, hp, hprocessed]
    · rw [hlock] at hw
      cases hw

theorem recorded_queueStep (ho : s.Ordered) (h : s.Recorded)
    (hs : queueStep config s s.queueSection = some s') : s'.Recorded := by
  have frame := queueStep_frame hs
  have hsame : s'.worker = s.worker → s'.Recorded := by
    intro he
    refine h.congr frame.log frame.lastWriteError ?_ (by rw [he]) (he ▸ fun _ => id)
    rw [Core.written, Core.written, he, frame.processedSequence]
  obtain he | ⟨hof, hw⟩ := frame.worker
  · exact hsame he
  · have hin : s.worker = .inside := ho.inside.mp hof
    refine h.congr frame.log frame.lastWriteError ?_ ?_ fun processed hc => ?_
    · obtain he | he | ⟨queued, -, he⟩ := hw <;>
        rw [Core.written, Core.written, he, hin, frame.processedSequence]
    · obtain he | he | ⟨queued, -, he⟩ := hw <;> rw [he, hin] <;> rfl
    · obtain he | he | ⟨queued, -, he⟩ := hw <;> rw [he] at hc <;> cases hc

theorem recorded_workerStep (h : s.Recorded) (hs : workerStep s s.worker = some s') :
    s'.Recorded := by
  have frame := workerStep_frame hs
  obtain ⟨-, hlast, -, hout, hout', hclear, -⟩ | ⟨processed, hw, rfl⟩ |
    ⟨processed, error, hw, rfl⟩ | ⟨sequence, error, hw, rfl⟩ := workerStep_reports hs
  · exact h.congr frame.log hlast frame.written (hout.trans hout'.symm)
      fun processed hc => absurd hc (hclear processed)
  · exact h.congr rfl rfl frame.written (by rw [hw]; rfl) fun _ hc => by cases hc
  · exact h.congr rfl rfl frame.written (by rw [hw]; rfl) fun _ hc => by cases hc
  · have hwritten : s.written = sequence := by rw [Core.written, hw]
    refine ⟨fun _ hc => (by cases hc), fun failed hm => Or.inr fun target hle => ?_, ?_⟩
    · -- the error recorded first is of an earlier record, or it is this one
      obtain hfail | hold := h.errors failed hm
      · rw [hw] at hfail
        cases hfail
        cases hlast : s.lastWriteError with
        | none => exact writeErrorFor_isSome_iff.mpr ⟨sequence, error, rfl, hle⟩
        | some entry =>
          have hfirst := h.first entry.1 entry.2 hlast
          exact writeErrorFor_isSome_iff.mpr ⟨entry.1, entry.2, rfl, hfirst.trans (hwritten ▸ hle)⟩
      · exact writeErrorFor_or _ (hold target hle)
    · intro failed error' hlast
      cases hold : s.lastWriteError with
      | none =>
        have he : (sequence, error) = (failed, error') := by simpa [hold] using hlast
        cases he
        exact le_rfl
      | some entry =>
        have he : entry = (failed, error') := by simpa [hold] using hlast
        exact hwritten ▸ h.first failed error' (he ▸ hold)

theorem recorded_writerStep {outcome : Outcome} (hfresh : s.Fresh) (h : s.Recorded)
    (hpanic : outcome ≠ .panic)
    (hs : writerStep s outcome s.worker = some s') : s'.Recorded := by
  have hflush : ∀ {b : Bool} {sequence : ℕ}, .write sequence false ∈ .flush b :: s.log →
      .write sequence false ∈ s.log := by
    intro b sequence hm
    exact (List.mem_cons.mp hm).resolve_left WriterCall.noConfusion
  cases hw : s.worker with
  | write queued =>
    have hwritten : s.written = s.processedSequence := by rw [Core.written, hw]
    have hlt : s.processedSequence < queued.sequence := hfresh _ (by rw [hw]; rfl)
    have hfirst : ∀ sequence error, s.lastWriteError = some (sequence, error) →
        sequence ≤ queued.sequence :=
      fun sequence error hlast => (hwritten ▸ h.first sequence error hlast).trans hlt.le
    have hold : ∀ sequence, .write sequence false ∈ s.log → ∀ target, sequence ≤ target →
        (writeErrorFor target s.lastWriteError).isSome = true := by
      intro sequence hm
      obtain hfail | hrec := h.errors sequence hm
      · rw [hw] at hfail
        cases hfail
      · exact hrec
    rw [hw] at hs
    cases outcome with
    | ok =>
      cases hs
      refine ⟨fun _ hc => (by cases hc), fun sequence hm => Or.inr ?_, hfirst⟩
      obtain he | hm' := List.mem_cons.mp hm
      · cases he
      · exact hold sequence hm'
    | err error =>
      -- the error is in the worker's hands until it is recorded
      cases hs
      refine ⟨fun _ hc => (by cases hc), fun sequence hm => ?_, hfirst⟩
      obtain he | hm' := List.mem_cons.mp hm
      · cases he
        exact Or.inl rfl
      · exact Or.inr (hold sequence hm')
    | panic => exact absurd rfl hpanic
  | flush processed =>
    have hwritten : s.written = s.processedSequence := by rw [Core.written, hw]
    have hold := h.errors
    rw [hw] at hs hold
    cases outcome with
    | ok =>
      cases hs
      exact ⟨fun _ _ _ => trivial, fun sequence hm => hold sequence (hflush hm), hwritten ▸ h.first⟩
    | err error =>
      cases hs
      exact ⟨fun _ hc => (by cases hc), fun sequence hm => hold sequence (hflush hm),
        hwritten ▸ h.first⟩
    | panic => exact absurd rfl hpanic
  | finalFlush processed =>
    -- an error here would be discarded; the guard admits none that matters
    have hwritten : s.written = s.processedSequence := by rw [Core.written, hw]
    have hold := h.errors
    rw [hw] at hs hold
    cases outcome with
    | panic => exact absurd rfl hpanic
    | ok | err error =>
      cases hs
      exact ⟨fun _ hc => (by cases hc), fun sequence hm => hold sequence (hflush hm),
        hwritten ▸ h.first⟩
  | _ => simp [hw, writerStep] at hs

theorem recorded_step {a : Action} (ho : s.Ordered) (hfresh : s.Fresh) (h : s.Recorded)
    (hok : ReportsFinally s a) (hs : step config s a = some s') : s'.Recorded := by
  have hcongr : ∀ (shutdown : Bool) (requestedFlush : ℕ) (drop : DropPc) (queue : QueueSection),
      ({ s.toCore with
          shutdown := shutdown, requestedFlush := requestedFlush, drop := drop
          queueSection := queue } : Core).Recorded :=
    fun _ _ _ _ => h.congr rfl rfl rfl rfl fun _ hw => hw
  cases moves_of_step hs with
  | emitEnter i owned hi hfree => exact hcongr _ _ _ _
  | emitNotify i hi => exact h.wake rfl rfl rfl rfl
  | publish f call hf hpc => exact hcongr _ _ _ _
  | flushNotify f call hf hpc => exact h.wake rfl rfl rfl rfl
  | dropHandles halive hquiet => exact hcongr _ _ _ _
  | dropLock hdrop hfree => exact hcongr _ _ _ _
  | dropLoad hdrop => exact hcongr _ _ _ _
  | dropStore next hdrop => exact hcongr _ _ _ _
  | dropNotify hdrop => exact h.wake rfl rfl rfl rfl
  | dropJoin hdrop hworker => exact hcongr _ _ _ _
  | queue s' hq => exact recorded_queueStep ho h hq
  | work s' hw => exact recorded_workerStep h hw
  | writer outcome s' hw =>
    refine recorded_writerStep hfresh h ?_ hw
    rintro rfl
    exact hok
  | spurious hparked => exact h.wake rfl rfl rfl rfl
  | _ => exact h

theorem stopping_wakeWorker (pc : WorkerPc) : (wakeWorker pc).stopping = pc.stopping := by
  cases pc <;> rfl

theorem closing_step {a : Action} (h : s.Closing) (hs : step config s a = some s') :
    s'.Closing := by
  have hwake : (wakeWorker s.worker).stopping = true → s.shutdown = true := by
    rw [stopping_wakeWorker]
    exact h.stopping
  cases moves_of_step hs with
  | emitEnter i owned hi hfree => exact ⟨h.dropped, h.stopping⟩
  | emitNotify i hi => exact ⟨h.dropped, hwake⟩
  | publish f call hf hpc => exact ⟨h.dropped, h.stopping⟩
  | flushNotify f call hf hpc => exact ⟨h.dropped, hwake⟩
  | dropHandles halive hquiet => exact ⟨fun _ => DropPc.noConfusion, h.stopping⟩
  | dropLock hdrop hfree => exact ⟨fun _ => DropPc.noConfusion, fun _ => rfl⟩
  | dropLoad hdrop => exact ⟨fun _ => DropPc.noConfusion, h.stopping⟩
  | dropStore next hdrop => exact ⟨fun _ => DropPc.noConfusion, h.stopping⟩
  | dropNotify hdrop => exact ⟨fun _ => DropPc.noConfusion, hwake⟩
  | dropJoin hdrop hworker => exact ⟨fun _ => DropPc.noConfusion, h.stopping⟩
  | queue s' hq =>
    -- the worker's test under the mutex is how it learns of the shutdown
    have frame := queueStep_frame hq
    refine ⟨?_, ?_⟩
    · rw [frame.shutdown, frame.drop]
      exact h.dropped
    · rw [frame.shutdown]
      obtain he | ⟨-, he | he | ⟨queued, -, he⟩⟩ := frame.worker <;> rw [he]
      · exact h.stopping
      all_goals exact fun hp => by cases hp
  | work s' hw =>
    have frame := workerStep_frame hw
    refine ⟨?_, ?_⟩
    · rw [frame.shutdown, frame.drop]
      exact h.dropped
    · rw [frame.shutdown]
      obtain ⟨-, -, -, -, -, -, hstop⟩ | ⟨processed, -, rfl⟩ | ⟨processed, error, -, rfl⟩ |
        ⟨sequence, error, -, rfl⟩ := workerStep_reports hw
      · exact fun hp => (hstop hp).elim h.stopping id
      all_goals exact fun hp => by cases hp
  | writer outcome s' hw =>
    have frame := writerStep_frame hw
    refine ⟨?_, ?_⟩
    · rw [frame.shutdown, frame.drop]
      exact h.dropped
    · rw [frame.shutdown]
      exact fun hp => h.stopping (frame.stopping hp)
  | spurious hparked => exact ⟨h.dropped, hwake⟩
  | _ => exact h

/-- The log gets the calls of the writer, a write for the record in the worker's hands. -/
theorem log_of_step {a : Action} (hs : step config s a = some s') :
    s'.log = s.log ∨ (∃ ok, s'.log = .flush ok :: s.log) ∨
      ∃ sequence ok, s'.log = .write sequence ok :: s.log ∧ s.worker.record = some sequence := by
  cases moves_of_step hs with
  | queue s' hq => exact Or.inl (queueStep_frame hq).log
  | work s' hw => exact Or.inl (workerStep_frame hw).log
  | writer outcome s' hw =>
    cases hpc : s.worker with
    | write queued =>
      rw [hpc] at hw
      cases outcome <;> cases hw
      · exact Or.inr (Or.inr ⟨_, true, rfl, rfl⟩)
      · exact Or.inr (Or.inr ⟨_, false, rfl, rfl⟩)
      · exact Or.inl rfl
    | flush _ | finalFlush _ =>
      rw [hpc] at hw
      cases outcome <;> cases hw
      · exact Or.inr (Or.inl ⟨true, rfl⟩)
      · exact Or.inr (Or.inl ⟨false, rfl⟩)
      · exact Or.inl rfl
    | _ => simp [hpc, writerStep] at hw
  | _ => exact Or.inl rfl

theorem writeError_step {a : Action} {target : ℕ} (hs : step config s a = some s')
    (h : (writeErrorFor target s.lastWriteError).isSome = true) :
    (writeErrorFor target s'.lastWriteError).isSome = true := by
  cases moves_of_step hs with
  | queue s' hq => exact (queueStep_frame hq).lastWriteError ▸ h
  | work s' hw =>
    obtain ⟨-, hlast, -⟩ | ⟨processed, -, rfl⟩ |
      ⟨processed, error, -, rfl⟩ | ⟨sequence, error, -, rfl⟩ := workerStep_reports hw
    · exact hlast ▸ h
    · exact h
    · exact h
    · exact writeErrorFor_or _ h
  | writer outcome s' hw => exact (writerStep_frame hw).lastWriteError ▸ h
  | _ => exact h

/-- What lies up to `flushed_sequence` is written no more. -/
theorem flushedSince_step {a : Action} {target : ℕ} (ho : s.Ordered) (hfresh : s.Fresh)
    (hs : step config s a = some s') (hle : target ≤ s.flushedSequence)
    (h : FlushedSince target s.log) : FlushedSince target s'.log := by
  obtain he | ⟨ok, he⟩ | ⟨sequence, ok, he, hrecord⟩ := log_of_step hs
  · exact he ▸ h
  · rw [he]
    cases ok
    · exact h
    · trivial
  · rw [he]
    exact ⟨(hle.trans ho.flushed_le).trans_lt (hfresh sequence hrecord), h⟩

theorem unfailed_step {a : Action} {target : ℕ} (ho : s.Ordered) (hfresh : s.Fresh)
    (hs : step config s a = some s') (hle : target ≤ s.flushedSequence)
    (h : ∀ sequence, .write sequence false ∈ s.log → target < sequence) :
    ∀ sequence, .write sequence false ∈ s'.log → target < sequence := by
  intro failed hm
  obtain he | ⟨ok, he⟩ | ⟨sequence, ok, he, hrecord⟩ := log_of_step hs
  · exact h failed (he ▸ hm)
  · rw [he] at hm
    exact h failed ((List.mem_cons.mp hm).resolve_left WriterCall.noConfusion)
  · rw [he] at hm
    obtain hnew | hold := List.mem_cons.mp hm
    · cases hnew
      exact (hle.trans ho.flushed_le).trans_lt (hfresh failed hrecord)
    · exact h failed hold

theorem flushed_le_answered (ho : s.Ordered) : s.flushedSequence ≤ s.answered := by
  cases hw : s.worker with
  | storeFlushed processed | storeFinal processed =>
    have hp := ho.carried processed (by rw [hw]; rfl)
    rw [Core.answered, hw]
    exact ho.flushed_le.trans hp.ge
  | _ => simp [Core.answered, hw]

theorem alive_of_step {a : Action} (hs : step config s a = some s') (halive : s'.drop = .alive) :
    s.drop = .alive := by
  cases moves_of_step hs with
  | queue s' hq => exact (queueStep_frame hq).drop ▸ halive
  | work s' hw => exact (workerStep_frame hw).drop ▸ halive
  | writer outcome s' hw => exact (writerStep_frame hw).drop ▸ halive
  | dropHandles | dropLock | dropLoad | dropStore | dropNotify | dropJoin => cases halive
  | _ => exact halive

/-- Once the handles are gone no new target is asked for. -/
theorem asked_of_step {a : Action} {target : ℕ} (hcalls : s.Calls)
    (hs : step config s a = some s') (h : s'.Asked target) : s.Asked target := by
  obtain halive | ⟨call, hc, rfl⟩ := h
  · exact Or.inl (alive_of_step hs halive)
  · obtain ⟨old, hm, cont⟩ | ⟨halive, -⟩ := flushes_of_step hcalls hs call hc
    · exact Or.inr ⟨old, hm, cont.target.symm⟩
    · exact Or.inl halive

/-- Whatever is flushed, or about to be, is answered for. -/
def State.Answered (s : State) : Prop :=
  ∀ target ≤ s.answered, s.Asked target → s.Answers target

theorem answers_workerStep (hrecorded : s.Recorded) (h : s.Answered)
    (hs : workerStep s s.worker = some s') {target : ℕ} (hle : target ≤ s'.answered)
    (hasked : s.Asked target) : s'.Answers target := by
  have hlog := (workerStep_frame hs).log
  obtain ⟨hflush, hwrite, hanswered, -⟩ | ⟨processed, hw, rfl⟩ |
    ⟨processed, error, hw, rfl⟩ | ⟨sequence, error, hw, rfl⟩ := workerStep_reports hs
  · rw [Core.Answers, hflush, hwrite, hlog]
    exact h target (hanswered ▸ hle) hasked
  · exact Or.inr (Or.inl (hrecorded.cleared processed hw target))
  · exact Or.inl (flushErrorFor_some error hle)
  · have hsame : s.answered = s.flushedSequence := by rw [Core.answered, hw]
    obtain hflush | hsince | hwrite := h target (hsame ▸ hle) hasked
    · exact Or.inl hflush
    · exact Or.inr (Or.inl hsince)
    · exact Or.inr (Or.inr (writeErrorFor_or _ hwrite))

theorem answers_writerStep {outcome : Outcome} (ho : s.Ordered) (hfresh : s.Fresh)
    (hclosing : s.Closing) (h : s.Answered) (hok : ReportsFinally s (.writer outcome))
    (hs : writerStep s outcome s.worker = some s') {target : ℕ} (hle : target ≤ s'.answered)
    (hasked : s.Asked target) : s'.Answers target := by
  cases hw : s.worker with
  | write queued =>
    have hold : target ≤ s.flushedSequence → s.Answers target := by
      intro hle
      exact h target (by rw [Core.answered, hw]; exact hle) hasked
    have hlt : target ≤ s.flushedSequence → target < queued.sequence := fun hle =>
      (hle.trans ho.flushed_le).trans_lt (hfresh _ (by rw [hw]; rfl))
    rw [hw] at hs
    cases outcome with
    | panic => exact absurd hok id
    | ok | err error =>
      cases hs
      exact (hold hle).imp_right fun hp => hp.imp_left fun hsince => ⟨hlt hle, hsince⟩
  | flush processed =>
    have hold : target ≤ s.flushedSequence → s.Answers target := by
      intro hle
      exact h target (by rw [Core.answered, hw]; exact hle) hasked
    rw [hw] at hs
    cases outcome with
    | ok =>
      cases hs
      exact Or.inr (Or.inl trivial)
    | err error =>
      cases hs
      exact hold hle
    | panic => exact absurd hok id
  | finalFlush processed =>
    have hp := ho.carried processed (by rw [hw]; rfl)
    have hdrop : s.drop ≠ .alive := hclosing.dropped (hclosing.stopping (by rw [hw]; rfl))
    have hold : target ≤ s.flushedSequence → s.Answers target := by
      intro hle
      exact h target (by rw [Core.answered, hw]; exact hle) hasked
    have hfinal : s.worker.flushesFinally = true := by rw [hw]; rfl
    rw [hw] at hs
    cases outcome with
    | ok =>
      cases hs
      exact Or.inr (Or.inl trivial)
    | err error =>
      cases hs
      -- the error goes unrecorded: only the guard speaks for targets above `flushed_sequence`
      by_cases hflushed : target ≤ s.flushedSequence
      · exact hold hflushed
      · obtain ⟨call, hc, rfl⟩ := hasked.resolve_left hdrop
        exact Or.inr (hok hfinal call hc (not_le.mp hflushed) (hp ▸ hle))
    | panic => exact absurd hok id
  | _ => simp [hw, writerStep] at hs

theorem answered_wake (c : Core) :
    ({ c with worker := wakeWorker c.worker } : Core).answered = c.answered := by
  obtain he | ⟨hp, he⟩ := wakeWorker_eq c.worker
  · rw [he]
  · rw [he, Core.answered, Core.answered, hp]

theorem answered_step {a : Action} (kept : s.Kept) (hrecorded : s.Recorded)
    (hclosing : s.Closing) (h : s.Answered) (hok : ReportsFinally s a)
    (hs : step config s a = some s') : s'.Answered := by
  intro target hle hasked'
  have hasked := asked_of_step kept.calls hs hasked'
  have hwake : target ≤ ({ s.toCore with worker := wakeWorker s.worker } : Core).answered →
      s.Answers target := by
    intro hle
    exact h target (answered_wake s.toCore ▸ hle) hasked
  cases moves_of_step hs with
  | emitNotify i hi => exact hwake hle
  | flushNotify f call hf hpc => exact hwake hle
  | dropNotify hdrop => exact hwake hle
  | spurious hparked => exact hwake hle
  | queue s' hq =>
    have frame := queueStep_frame hq
    have hanswered : target ≤ s.answered := by
      obtain he | ⟨-, hw⟩ := frame.worker
      · rw [Core.answered, he, frame.flushedSequence] at hle
        exact hle
      · refine le_trans ?_ (flushed_le_answered kept.ordered)
        rw [← frame.flushedSequence]
        obtain he | he | ⟨queued, -, he⟩ := hw <;> rw [Core.answered, he] at hle <;> exact hle
    rw [Core.Answers, frame.lastFlushError, frame.lastWriteError, frame.log]
    exact h target hanswered hasked
  | work s' hw => exact answers_workerStep hrecorded h hw hle hasked
  | writer outcome s' hw =>
    exact answers_writerStep kept.ordered kept.fresh hclosing h hok hw hle hasked
  | _ => exact h target hle hasked

/-- What a barrier that has found no error so far may rely on. -/
structure State.Reported (s : State) : Prop where
  unflagged : ∀ call ∈ s.flushes, ∀ use, call.pc = .lockWriteError use none →
    FlushedSince call.target s.log ∨ (writeErrorFor call.target s.lastWriteError).isSome = true
  resolved : ∀ call ∈ s.flushes, call.pc = .resolved (.ok ()) →
    FlushedSince call.target s.log ∧
      ∀ sequence, .write sequence false ∈ s.log → call.target < sequence

/-- A barrier at its errors was there before, or has just taken a step. -/
theorem covered_of_step {a : Action} (hs : step config s a = some s') {call : FlushCall}
    (hc : call ∈ s'.flushes) (hp : call.pc.covered = true) :
    call ∈ s.flushes ∨
      ∃ old ∈ s.flushes, call.target = old.target ∧ BarrierStep s old call.pc := by
  have hset : ∀ {f : ℕ} {old : FlushCall} {pc : FlushPc}, s.flushes[f]? = some old →
      call ∈ s.flushes.set f { old with pc := pc } →
        (pc.covered = true → BarrierStep s old pc) → call ∈ s.flushes ∨
          ∃ old ∈ s.flushes, call.target = old.target ∧ BarrierStep s old call.pc := by
    intro f old pc hf hc hstep
    obtain hm | rfl := List.mem_or_eq_of_mem_set hc
    · exact Or.inl hm
    · exact Or.inr ⟨old, List.mem_of_getElem? hf, rfl, hstep hp⟩
  cases moves_of_step hs with
  | callFlush halive =>
    obtain hm | hnew := List.mem_append.mp hc
    · exact Or.inl hm
    · rw [List.mem_singleton.mp hnew] at hp
      cases hp
  | capture f old hf hpc hfree =>
    obtain hm | rfl := List.mem_or_eq_of_mem_set hc
    · exact Or.inl hm
    · cases hp
  | publish f old hf hpc => exact hset hf hc fun hp => (by cases hp)
  | flushNotify f old hf hpc => exact hset hf hc fun hp => (by cases hp)
  | barrier a f old pc owner wakers hf hout hstep => exact hset hf hc fun _ => hstep
  | queue s' hq => exact Or.inl ((queueStep_frame hq).flushes ▸ hc)
  | work s' hw =>
    obtain he | he := (workerStep_frame hw).flushes
    · exact Or.inl (he ▸ hc)
    · obtain ⟨old, hm, rfl⟩ := List.mem_map.mp (he ▸ hc)
      -- a waiter that is woken is not at its errors
      obtain ⟨pc, target, captured⟩ := old
      cases pc with
      | parked => cases hp
      | _ => exact Or.inl hm
  | writer outcome s' hw => exact Or.inl ((writerStep_frame hw).flushes ▸ hc)
  | _ => exact Or.inl hc

theorem reported_step {a : Action} (kept : s.Kept) (hrecorded : s.Recorded) (hanswered : s.Answered)
    (h : s.Reported) (hs : step config s a = some s') : s'.Reported where
  unflagged call hc use hp := by
    obtain hm | ⟨old, hm, htarget, hstep⟩ := covered_of_step hs hc (by rw [hp]; rfl)
    · have hle := kept.covered call hm (by rw [hp]; rfl)
      exact (h.unflagged call hm use hp).imp (flushedSince_step kept.ordered kept.fresh hs hle)
        (writeError_step hs)
    · rw [hp] at hstep
      rw [htarget]
      generalize hfound : (none : Option FlushError) = found at hstep
      cases hstep with
      | flushError use hpc =>
        -- the flag was read clear: the flush that covers this target reported no error
        have hle := kept.covered old hm (by rw [hpc]; rfl)
        rcases hanswered old.target (hle.trans (flushed_le_answered kept.ordered))
          (Or.inr ⟨old, hm, rfl⟩) with hflush | hsince | hwrite
        · rw [← hfound] at hflush
          cases hflush
        · exact Or.inl (flushedSince_step kept.ordered kept.fresh hs hle hsince)
        · exact Or.inr (writeError_step hs hwrite)
      | pending hpc => obtain hpc | hpc | hpc | ⟨waker, hpc⟩ := hpc <;> cases hpc
  resolved call hc hp := by
    obtain hm | ⟨old, hm, htarget, hstep⟩ := covered_of_step hs hc (by rw [hp]; rfl)
    · have hle := kept.covered call hm (by rw [hp]; rfl)
      obtain ⟨hsince, hfailed⟩ := h.resolved call hm hp
      exact ⟨flushedSince_step kept.ordered kept.fresh hs hle hsince,
        unfailed_step kept.ordered kept.fresh hs hle hfailed⟩
    · rw [hp] at hstep
      rw [htarget]
      cases hstep with
      | ok use hpc hwrite =>
        -- the write errors were read too, and none lies at or below the target
        have hle := kept.covered old hm (by rw [hpc]; rfl)
        have hnone : ¬ (writeErrorFor old.target s.lastWriteError).isSome = true := by
          rw [hwrite]
          exact Bool.noConfusion
        have hfailed : ∀ sequence, .write sequence false ∈ s.log → old.target < sequence := by
          intro sequence hmem
          obtain hfailing | hrec := hrecorded.errors sequence hmem
          · -- an error not recorded yet is of a record that is not processed yet
            refine (hle.trans kept.ordered.flushed_le).trans_lt (kept.fresh sequence ?_)
            cases hw : s.worker with
            | recordWriteError _ _ =>
              rw [hw] at hfailing
              exact hfailing
            | _ =>
              rw [hw] at hfailing
              cases hfailing
          · by_contra hlt
            exact hnone (hrec old.target (not_lt.mp hlt))
        have hsince := (h.unflagged old hm use hpc).resolve_right hnone
        exact ⟨flushedSince_step kept.ordered kept.fresh hs hle hsince,
          unfailed_step kept.ordered kept.fresh hs hle hfailed⟩
      | pending hpc => obtain hpc | hpc | hpc | ⟨waker, hpc⟩ := hpc <;> cases hpc

/-- What the runs whose shutdown path reports keep. -/
structure State.Sound (s : State) : Prop where
  recorded : s.Recorded
  closing : s.Closing
  answered : s.Answered
  reported : s.Reported

theorem sound_initial : initial.Sound where
  recorded := recorded_initial
  closing := closing_initial
  answered _ _ _ := Or.inr (Or.inl trivial)
  reported := by constructor <;> simp [initial]

theorem sound_step {a : Action} (kept : s.Kept) (h : s.Sound) (hok : ReportsFinally s a)
    (hs : step config s a = some s') : s'.Sound where
  recorded := recorded_step kept.ordered kept.fresh h.recorded hok hs
  closing := closing_step h.closing hs
  answered := answered_step kept h.recorded h.closing h.answered hok hs
  reported := reported_step kept h.recorded h.answered h.reported hs

/-- **Soundness of a successful flush**: in every state in which a barrier has resolved to `Ok`,
the one in which it does so included, every write up to its target has returned `Ok`, and a later
flush of the writer has. -/
theorem resolved_ok_sound (config : Config) (s : State)
    (hrun : Transition.Reaches (step config) ReportsFinally initial s) (call : FlushCall)
    (hcall : call ∈ s.flushes) (hok : call.pc = .resolved (.ok ())) :
    (∀ sequence ok, .write sequence ok ∈ s.log → sequence ≤ call.target → ok = true) ∧
      ∀ newer sequence ok older, s.log = newer ++ .write sequence ok :: older →
        sequence ≤ call.target → .flush true ∈ newer := by
  have hsound : s.Sound := (invariant_of_reaches
    (fun s a s' kept h hok hs => sound_step kept h hok hs) sound_initial hrun).2
  obtain ⟨hsince, hfailed⟩ := hsound.reported.resolved call hcall hok
  refine ⟨?_, (flushedSince_iff call.target s.log).mp hsince⟩
  intro sequence ok hm hle
  cases ok with
  | false => exact absurd (hfailed sequence hm) (not_lt.mpr hle)
  | true => rfl

/-- Record 1 is written; the worker reads `requested_flush` as 0; a flush publishes 1; the handles
go away; the worker's last flush returns `last`; the barrier is polled. -/
def finalFlushRun (last : Outcome) : List Action :=
  [.callEmit bareEvent, .stepEmit 0, .stepEmit 0, .stepQueue, .stepQueue, .stepQueue, .stepEmit 0,
    .work, .stepQueue, .writer .ok, .work, .work, .work,
    .callFlush, .stepFlush 0, .stepFlush 0, .stepFlush 0, .work,
    .dropHandles, .stepDrop, .stepDrop, .stepDrop, .stepDrop,
    .work, .work, .writer last, .work,
    .poll 0 0, .stepFlush 0, .stepFlush 0, .stepFlush 0]

theorem resolved_ok_sound_shutdown : ∃ s,
    Transition.Reaches (step oneSlot) ReportsFinally initial s ∧
      s.log = [.flush true, .write 1 true] ∧ ∃ call ∈ s.flushes, call.target = 1 ∧
        (∀ sequence ok, .write sequence ok ∈ s.log → sequence ≤ call.target → ok = true) ∧
          ∀ newer sequence ok older, s.log = newer ++ .write sequence ok :: older →
            sequence ≤ call.target → .flush true ∈ newer := by
  obtain ⟨s, hrun, hlog, call, hcall, hok, hone⟩ := Transition.exists_reaches
    (step oneSlot) ReportsFinally initial
    (fun s => s.log = [.flush true, .write 1 true] ∧
      ∃ call ∈ s.flushes, call.pc = .resolved (.ok ()) ∧ call.target = 1)
    (finalFlushRun .ok) (by decide)
  exact ⟨s, hrun, hlog, call, hcall, hone, resolved_ok_sound oneSlot s hrun call hcall hok⟩

/-- The error of the last flush is discarded, and the barrier resolves to `Ok`. -/
theorem resolved_ok_unflushed : ∃ s,
    Transition.Reaches (step oneSlot) (fun _ a => a ≠ .writer .panic) initial s ∧
      ∃ call ∈ s.flushes, call.pc = .resolved (.ok ()) ∧ call.target = 1 ∧
        ¬ ∀ newer sequence ok older, s.log = newer ++ .write sequence ok :: older →
          sequence ≤ call.target → .flush true ∈ newer := by
  obtain ⟨s, hrun, hlog, call, hcall, hok, hone⟩ := Transition.exists_reaches
    (step oneSlot) (fun _ a => a ≠ .writer .panic) initial
    (fun s => s.log = [.flush false, .write 1 true] ∧
      ∃ call ∈ s.flushes, call.pc = .resolved (.ok ()) ∧ call.target = 1)
    (finalFlushRun (.err { kind := .other "StorageFull", message := "disk full" })) (by decide)
  refine ⟨s, hrun, call, hcall, hok, hone, fun hall => ?_⟩
  have hm := hall [.flush false] 1 true [] hlog hone.ge
  cases List.mem_singleton.mp hm

end Logwise.AsyncSink
