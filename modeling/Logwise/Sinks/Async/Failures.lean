import Logwise.Sinks.Async.Delivery
import Logwise.Sinks.Async.Soundness

/-!
# Whose failure a barrier reports

`last_flush_error` describes the latest flush of the writer, not the one that brought
`flushed_sequence` to a barrier's target, and `stopped` may be set after a barrier has found
`flushed_sequence` below its target. What the cells say is traced back to the calls of the writer.
-/

namespace Logwise.AsyncSink

variable {config : Config} {s s' : State}

/-! ## The calls of the writer -/

/-- The sequence of the last write. -/
def lastWritten : List WriterCall → ℕ
  | [] => 0
  | .write sequence _ :: _ => sequence
  | .flush _ :: log => lastWritten log

/-- What the flushes have brought `flushed_sequence` to: each moves it to the last write. -/
def flushedBy : List WriterCall → ℕ
  | [] => 0
  | .write _ _ :: log => flushedBy log
  | .flush _ :: log => lastWritten log

/-- The flush after which `flushed_sequence` first reached the target: the value it had then, and
whether the flush returned `Ok`. -/
def firstFlush (target : ℕ) : List WriterCall → Option (ℕ × Bool)
  | [] => none
  | .write _ _ :: log => firstFlush target log
  | .flush ok :: log =>
    if flushedBy log < target ∧ target ≤ lastWritten log then some (lastWritten log, ok)
    else firstFlush target log

/-- A flush that moved `flushed_sequence` to this value has failed. -/
def FlushFailed (sequence : ℕ) : List WriterCall → Prop
  | [] => False
  | .write _ _ :: log => FlushFailed sequence log
  | .flush ok :: log => (ok = false ∧ lastWritten log = sequence) ∨ FlushFailed sequence log

/-- Every flush moves `flushed_sequence` up. -/
def AscendingFlushes : List WriterCall → Prop
  | [] => True
  | .write _ _ :: log => AscendingFlushes log
  | .flush _ :: log => flushedBy log < lastWritten log ∧ AscendingFlushes log

/-- Every write up to the target returned `Ok`, and so did the flush that first reached it. No
flush is needed to reach 0. -/
def Served (target : ℕ) (log : List WriterCall) : Prop :=
  (∀ sequence ok, .write sequence ok ∈ log → sequence ≤ target → ok = true) ∧
    (0 < target → ∃ flushed, firstFlush target log = some (flushed, true))

/-- The value is past the one at which `flushed_sequence` first reached the target. -/
def Later (target sequence : ℕ) (log : List WriterCall) : Prop :=
  ∀ flushed ok, firstFlush target log = some (flushed, ok) → flushed < sequence

/-- A write up to the target that failed. -/
def WriterCall.failedUpTo (target : ℕ) : WriterCall → Bool
  | .write sequence ok => decide (sequence ≤ target) && !ok
  | .flush _ => false

theorem served_iff {target : ℕ} {log : List WriterCall} :
    Served target log ↔ (∀ call ∈ log, call.failedUpTo target = false) ∧
      (0 < target → (firstFlush target log).any Prod.snd = true) := by
  refine and_congr ⟨fun h call hm => ?_, fun h sequence ok hm hle => ?_⟩
    (imp_congr_right fun _ => ?_)
  · cases call with
    | write sequence ok => simpa [WriterCall.failedUpTo] using h sequence ok hm
    | flush ok => rfl
  · simpa [WriterCall.failedUpTo, hle] using h _ hm
  · cases firstFlush target log with
    | none => simp
    | some entry => simp [Prod.ext_iff]

theorem later_iff {target sequence : ℕ} {log : List WriterCall} :
    Later target sequence log ↔ ∀ entry ∈ firstFlush target log, entry.1 < sequence :=
  ⟨fun h entry he => h entry.1 entry.2 he, fun h flushed ok he => h (flushed, ok) he⟩

instance (target : ℕ) (log : List WriterCall) : Decidable (Served target log) :=
  decidable_of_iff _ served_iff.symm

instance (target sequence : ℕ) (log : List WriterCall) : Decidable (Later target sequence log) :=
  decidable_of_iff _ later_iff.symm

theorem firstFlush_le {target flushed : ℕ} {ok : Bool} {log : List WriterCall}
    (hasc : AscendingFlushes log) (h : firstFlush target log = some (flushed, ok)) :
    target ≤ flushed ∧ flushed ≤ flushedBy log := by
  induction log with
  | nil => cases h
  | cons call log ih =>
    cases call with
    | write sequence ok' => exact ih hasc h
    | flush ok' =>
      rw [firstFlush] at h
      split at h
      next hfirst =>
        cases h
        exact ⟨hfirst.2, le_rfl⟩
      next =>
        obtain ⟨hle, hflushed⟩ := ih hasc.2 h
        exact ⟨hle, hflushed.trans hasc.1.le⟩

theorem firstFlush_zero (log : List WriterCall) : firstFlush 0 log = none := by
  induction log with
  | nil => rfl
  | cons call log ih =>
    cases call with
    | write sequence ok => exact ih
    | flush ok => rw [firstFlush, if_neg fun h => Nat.not_lt_zero _ h.1, ih]

theorem FlushFailed.le {sequence : ℕ} {log : List WriterCall} (hasc : AscendingFlushes log)
    (h : FlushFailed sequence log) : sequence ≤ flushedBy log := by
  induction log with
  | nil => cases h
  | cons call log ih =>
    cases call with
    | write sequence' ok => exact ih hasc h
    | flush ok =>
      obtain ⟨-, rfl⟩ | hrest := h
      · exact le_rfl
      · exact (ih hasc.2 hrest).trans hasc.1.le

/-- A failed flush at or past the target and not past the first to reach it is that first one. -/
theorem FlushFailed.first {target sequence flushed : ℕ} {ok : Bool} {log : List WriterCall}
    (hasc : AscendingFlushes log) (h : FlushFailed sequence log) (htarget : target ≤ sequence)
    (hfirst : firstFlush target log = some (flushed, ok)) (hle : sequence ≤ flushed) :
    ok = false := by
  induction log with
  | nil => cases h
  | cons call log ih =>
    cases call with
    | write sequence' ok' => exact ih hasc h hfirst
    | flush ok' =>
      rw [firstFlush] at hfirst
      split at hfirst
      next hreach =>
        cases hfirst
        obtain ⟨hfailed, -⟩ | hrest := h
        · exact hfailed
        · exact absurd (htarget.trans (hrest.le hasc.2)) (not_le.mpr hreach.1)
      next =>
        obtain ⟨-, rfl⟩ | hrest := h
        · have hbound := (firstFlush_le hasc.2 hfirst).2
          exact absurd (hle.trans hbound) (not_le.mpr hasc.1)
        · exact ih hasc.2 hrest hfirst

/-- Once a target is reached, later calls of the writer change nothing about it. -/
theorem served_cons {target : ℕ} {log : List WriterCall} {call : WriterCall}
    (hle : target ≤ flushedBy log)
    (hnew : ∀ sequence ok, call = .write sequence ok → target < sequence) :
    Served target (call :: log) ↔ Served target log := by
  have hfirst : firstFlush target (call :: log) = firstFlush target log := by
    cases call with
    | write sequence ok => rfl
    | flush ok => rw [firstFlush, if_neg fun h => absurd h.1 (not_lt.mpr hle)]
  rw [Served, Served, hfirst]
  refine and_congr_left fun _ => ⟨fun h sequence ok hm => h sequence ok (List.mem_cons_of_mem _ hm),
    fun h sequence ok hm hupto => ?_⟩
  obtain hcall | hold := List.mem_cons.mp hm
  · exact absurd hupto (not_le.mpr (hnew sequence ok hcall.symm))
  · exact h sequence ok hold hupto

/-! ## What the cells say of them -/

/-- What `flushed_sequence` is, or is about to be: a flush has returned. -/
def Core.reached (c : Core) : ℕ :=
  match c.worker with
  | .clearFlushError processed | .setFlushError processed _ | .storeFlushed processed
  | .storeFinal processed => processed
  | _ => c.flushedSequence

/-- The worker has made its last flush. -/
def WorkerPc.ended : WorkerPc → Bool
  | .storeStopped | .notifyProgress .terminated | .takeWakers .terminated | .wake _ .terminated
  | .terminated => true
  | _ => false

/-- The cells of the worker, as the calls of the writer left them. -/
structure Core.Logged (c : Core) : Prop where
  written : lastWritten c.log = c.written
  reached : flushedBy c.log = c.reached
  ascending : AscendingFlushes c.log
  flushError : ∀ sequence error, c.lastFlushError = some (sequence, error) ∨
    c.worker = .setFlushError sequence error → FlushFailed sequence c.log
  writeError : ∀ sequence error, c.lastWriteError = some (sequence, error) ∨
    c.worker = .recordWriteError sequence error → .write sequence false ∈ c.log
  flushing : ∀ processed, c.worker = .flush processed ∨ c.worker = .finalFlush processed →
    c.flushedSequence < processed
  requested : ∀ processed requested, c.worker = .loadFlushed processed requested →
    requested ≤ processed
  ended : c.worker.ended = true → c.flushedSequence = c.processedSequence
  stopped : c.stopped = true → c.worker.ended = true

theorem logged_initial : initial.Logged := by
  constructor <;> simp [initial, lastWritten, flushedBy, Core.written, Core.reached,
    AscendingFlushes, WorkerPc.ended]

/-- The worker at a step that carries nothing of a flush or of a failed write. -/
def WorkerPc.idle : WorkerPc → Bool
  | .lock | .inside | .parked | .write _ | .loadProcessed => true
  | _ => false

theorem WorkerPc.ended_of_idle {pc : WorkerPc} (h : pc.idle = true) : pc.ended = false := by
  cases pc <;> first | rfl | cases h

theorem Core.written_of_idle {c : Core} (h : c.worker.idle = true) :
    c.written = c.processedSequence := by
  rw [Core.written]
  cases hw : c.worker <;> first | rfl | (rw [hw] at h; cases h)

theorem Core.reached_of_idle {c : Core} (h : c.worker.idle = true) :
    c.reached = c.flushedSequence := by
  rw [Core.reached]
  cases hw : c.worker <;> first | rfl | (rw [hw] at h; cases h)

/-- The worker goes from one such step to another, or does not move. -/
theorem Core.Logged.idle {c c' : Core} (h : c.Logged) (hlog : c'.log = c.log)
    (hflush : c'.lastFlushError = c.lastFlushError) (hwrite : c'.lastWriteError = c.lastWriteError)
    (hprocessed : c'.processedSequence = c.processedSequence)
    (hflushed : c'.flushedSequence = c.flushedSequence) (hstopped : c'.stopped = c.stopped)
    (hworker : c'.worker = c.worker ∨ (c.worker.idle = true ∧ c'.worker.idle = true)) :
    c'.Logged := by
  obtain he | ⟨hidle, hidle'⟩ := hworker
  · constructor
    · rw [hlog, Core.written, he, hprocessed]
      exact h.written
    · rw [hlog, Core.reached, he, hflushed]
      exact h.reached
    · exact hlog ▸ h.ascending
    · rw [hlog, hflush, he]
      exact h.flushError
    · rw [hlog, hwrite, he]
      exact h.writeError
    · rw [he, hflushed]
      exact h.flushing
    · rw [he]
      exact h.requested
    · rw [he, hflushed, hprocessed]
      exact h.ended
    · rw [he, hstopped]
      exact h.stopped
  · have hnone : c.stopped ≠ true := fun hs => by
      have hended := h.stopped hs
      rw [WorkerPc.ended_of_idle hidle] at hended
      cases hended
    have hne : ∀ {pc : WorkerPc}, c'.worker = pc → pc.idle = true := fun he => he ▸ hidle'
    constructor
    · rw [hlog, Core.written_of_idle hidle', hprocessed, ← Core.written_of_idle hidle]
      exact h.written
    · rw [hlog, Core.reached_of_idle hidle', hflushed, ← Core.reached_of_idle hidle]
      exact h.reached
    · exact hlog ▸ h.ascending
    · rw [hlog, hflush]
      rintro sequence error (hcell | hpc)
      · exact h.flushError sequence error (Or.inl hcell)
      · cases hne hpc
    · rw [hlog, hwrite]
      rintro sequence error (hcell | hpc)
      · exact h.writeError sequence error (Or.inl hcell)
      · cases hne hpc
    · rintro processed (hpc | hpc) <;> cases hne hpc
    · intro processed requested hpc
      cases hne hpc
    · intro hended
      rw [WorkerPc.ended_of_idle hidle'] at hended
      cases hended
    · rw [hstopped]
      exact fun hs => absurd hs hnone

theorem Core.Logged.wake {c c' : Core} (h : c.Logged) (hlog : c'.log = c.log)
    (hflush : c'.lastFlushError = c.lastFlushError) (hwrite : c'.lastWriteError = c.lastWriteError)
    (hprocessed : c'.processedSequence = c.processedSequence)
    (hflushed : c'.flushedSequence = c.flushedSequence) (hstopped : c'.stopped = c.stopped)
    (hworker : c'.worker = wakeWorker c.worker) : c'.Logged := by
  refine h.idle hlog hflush hwrite hprocessed hflushed hstopped ?_
  obtain he | ⟨hp, he⟩ := wakeWorker_eq c.worker
  · exact Or.inl (hworker.trans he)
  · rw [hp, hworker, he]
    exact Or.inr ⟨rfl, rfl⟩

theorem logged_queueStep (ho : s.Ordered) (h : s.Logged)
    (hs : queueStep config s s.queueSection = some s') : s'.Logged := by
  have frame := queueStep_frame hs
  refine h.idle frame.log frame.lastFlushError frame.lastWriteError frame.processedSequence
    frame.flushedSequence frame.stopped ?_
  refine frame.worker.imp_right fun hmoved => ?_
  rw [ho.inside.mp hmoved.1]
  obtain he | he | ⟨queued, -, he⟩ := hmoved.2 <;> rw [he] <;> exact ⟨rfl, rfl⟩

/-- What a step of the worker makes of the cells that are not its error cells. -/
structure EndFrame (s s' : State) : Prop where
  reached : s'.reached = s.reached
  setFlushError : ∀ sequence error, s'.worker ≠ .setFlushError sequence error
  recordWriteError : ∀ sequence error, s'.worker ≠ .recordWriteError sequence error
  flushing : ∀ processed, s'.worker = .flush processed ∨ s'.worker = .finalFlush processed →
    s'.flushedSequence = s.flushedSequence ∧ (s.flushedSequence < processed ∨
      ∃ requested, s.worker = .loadFlushed processed requested ∧ s.flushedSequence < requested)
  requested : ∀ processed requested, s'.worker = .loadFlushed processed requested →
    requested ≤ processed
  ended : s'.worker.ended = true → s'.processedSequence = s.processedSequence ∧
    ((s.worker.ended = true ∧ s'.flushedSequence = s.flushedSequence) ∨
      ∃ processed, s.worker.carried = some processed ∧
        processed ≤ s'.flushedSequence ∧ (s'.flushedSequence = s.flushedSequence ∨
          s'.flushedSequence = processed))
  stays : s.worker.ended = true → s'.worker.ended = true
  stopped : s'.stopped = s.stopped ∨ s'.worker.ended = true

theorem workerStep_end (hs : workerStep s s.worker = some s') : EndFrame s s' := by
  cases hw : s.worker with
  | wake wakers next =>
    simp only [hw, workerStep] at hs
    cases hs
    cases next <;> constructor <;> simp [hw, Core.reached, WorkerPc.ended, afterNotify]
  | notifyProgress next =>
    simp only [hw, workerStep] at hs
    split at hs
    · cases hs
      cases next <;> constructor <;> simp [hw, Core.reached, WorkerPc.ended]
    · cases hs
  | takeWakers next =>
    simp only [hw, workerStep] at hs
    cases hs
    cases next <;> constructor <;> simp [hw, Core.reached, WorkerPc.ended]
  | _ =>
    simp only [hw, workerStep, reduceCtorEq] at hs
    try (split at hs <;> try split at hs)
    all_goals
      cases hs
      try (constructor <;> simp_all [Core.reached, WorkerPc.ended, WorkerPc.carried])

/-- An error that the worker has recorded was returned by the writer. -/
theorem logged_errors (h : s.Logged) (hs : workerStep s s.worker = some s') :
    (∀ sequence error, s'.lastFlushError = some (sequence, error) →
      FlushFailed sequence s.log) ∧
      ∀ sequence error, s'.lastWriteError = some (sequence, error) →
        .write sequence false ∈ s.log := by
  obtain ⟨hflush, hwrite, -⟩ | ⟨processed, hw, rfl⟩ | ⟨processed, error, hw, rfl⟩ |
    ⟨sequence, error, hw, rfl⟩ := workerStep_reports hs
  · rw [hflush, hwrite]
    exact ⟨fun sequence error hcell => h.flushError sequence error (Or.inl hcell),
      fun sequence error hcell => h.writeError sequence error (Or.inl hcell)⟩
  · exact ⟨fun _ _ hcell => (by cases hcell),
      fun sequence error hcell => h.writeError sequence error (Or.inl hcell)⟩
  · refine ⟨fun sequence error' hcell => ?_,
      fun sequence error hcell => h.writeError sequence error (Or.inl hcell)⟩
    cases hcell
    exact h.flushError _ _ (Or.inr hw)
  · refine ⟨fun sequence error hcell => h.flushError sequence error (Or.inl hcell),
      fun failed error' hcell => ?_⟩
    -- the first error stays, and the one in the worker's hands is recorded only after none
    cases hlast : s.lastWriteError with
    | none =>
      have he : (sequence, error) = (failed, error') := by simpa [hlast] using hcell
      cases he
      exact h.writeError _ _ (Or.inr hw)
    | some entry =>
      have he : entry = (failed, error') := by simpa [hlast] using hcell
      exact h.writeError _ _ (Or.inl (he ▸ hlast))

theorem logged_workerStep (ho : s.Ordered) (h : s.Logged)
    (hs : workerStep s s.worker = some s') : s'.Logged := by
  have frame := workerStep_frame hs
  have hend := workerStep_end hs
  obtain ⟨hflush, hwrite⟩ := logged_errors h hs
  constructor
  · rw [frame.log, frame.written]
    exact h.written
  · rw [frame.log, hend.reached]
    exact h.reached
  · exact frame.log ▸ h.ascending
  · rw [frame.log]
    rintro sequence error (hcell | hpc)
    · exact hflush sequence error hcell
    · exact absurd hpc (hend.setFlushError sequence error)
  · rw [frame.log]
    rintro sequence error (hcell | hpc)
    · exact hwrite sequence error hcell
    · exact absurd hpc (hend.recordWriteError sequence error)
  · intro processed hpc
    obtain ⟨hsame, hlt | ⟨requested, hw, hlt⟩⟩ := hend.flushing processed hpc
    · exact hsame ▸ hlt
    · exact hsame ▸ hlt.trans_le (h.requested processed requested hw)
  · exact hend.requested
  · intro hended
    obtain ⟨hprocessed, ⟨hold, hflushed⟩ | ⟨processed, hcarried, hle, hflushed⟩⟩ :=
      hend.ended hended
    · rw [hflushed, hprocessed]
      exact h.ended hold
    · -- the worker ends once everything processed is flushed
      have hp := ho.carried processed hcarried
      rw [hprocessed, ← hp]
      obtain he | he := hflushed
      · exact le_antisymm (he ▸ hp ▸ ho.flushed_le) hle
      · exact he
  · intro hstopped
    obtain he | hended := hend.stopped
    · exact hend.stays (h.stopped (he ▸ hstopped))
    · exact hended

/-- A flush of the writer has returned. -/
theorem Core.Logged.flushed {c c' : Core} {processed : ℕ} {ok : Bool} (ho : c.Ordered)
    (h : c.Logged) (hw : c.worker = .flush processed ∨ c.worker = .finalFlush processed)
    (hlog : c'.log = .flush ok :: c.log) (hflush : c'.lastFlushError = c.lastFlushError)
    (hwrite : c'.lastWriteError = c.lastWriteError)
    (hprocessed : c'.processedSequence = c.processedSequence) (hstopped : c'.stopped = c.stopped)
    (hworker : c'.worker = .clearFlushError processed ∨
      (∃ error, c'.worker = .setFlushError processed error ∧ ok = false) ∨
        c'.worker = .storeFinal processed) : c'.Logged := by
  have hcarried : processed = c.processedSequence :=
    ho.carried processed (by obtain hw | hw := hw <;> rw [hw] <;> rfl)
  have hwritten : lastWritten c.log = processed := by
    rw [h.written, Core.written, hcarried]
    obtain hw | hw := hw <;> rw [hw]
  have hbefore : flushedBy c.log = c.flushedSequence := by
    rw [h.reached, Core.reached]
    obtain hw | hw := hw <;> rw [hw]
  have hrunning : c.stopped ≠ true := fun hs => by
    have hended := h.stopped hs
    obtain hw | hw := hw <;> rw [hw] at hended <;> cases hended
  refine ⟨?_, ?_, ?_, ?_, ?_, ?_, ?_, ?_, fun hs => absurd (hstopped ▸ hs) hrunning⟩
  · rw [hlog, lastWritten, Core.written, hprocessed, hwritten]
    obtain he | ⟨error, he, -⟩ | he := hworker <;> rw [he] <;> exact hcarried
  · rw [hlog, flushedBy, Core.reached, hwritten]
    obtain he | ⟨error, he, -⟩ | he := hworker <;> rw [he]
  · rw [hlog]
    refine ⟨?_, h.ascending⟩
    rw [hbefore, hwritten]
    exact h.flushing processed hw
  · rw [hlog, hflush]
    rintro sequence error (hcell | hpc)
    · exact Or.inr (h.flushError sequence error (Or.inl hcell))
    · -- the error that the flush has just returned
      obtain he | ⟨error', he, hok⟩ | he := hworker <;> rw [he] at hpc <;> cases hpc
      exact Or.inl ⟨hok, hwritten⟩
  · rw [hlog, hwrite]
    rintro sequence error (hcell | hpc)
    · exact List.mem_cons_of_mem _ (h.writeError sequence error (Or.inl hcell))
    · obtain he | ⟨error', he, -⟩ | he := hworker <;> rw [he] at hpc <;> cases hpc
  · rintro next (hpc | hpc) <;>
      obtain he | ⟨error, he, -⟩ | he := hworker <;> rw [he] at hpc <;> cases hpc
  · intro next requested hpc
    obtain he | ⟨error, he, -⟩ | he := hworker <;> rw [he] at hpc <;> cases hpc
  · intro hended
    obtain he | ⟨error, he, -⟩ | he := hworker <;> rw [he] at hended <;> cases hended

/-- A write has returned. -/
theorem Core.Logged.wrote {c c' : Core} {queued : QueuedEvent} {ok : Bool} (h : c.Logged)
    (hw : c.worker = .write queued) (hlog : c'.log = .write queued.sequence ok :: c.log)
    (hflush : c'.lastFlushError = c.lastFlushError) (hwrite : c'.lastWriteError = c.lastWriteError)
    (hflushed : c'.flushedSequence = c.flushedSequence) (hstopped : c'.stopped = c.stopped)
    (hworker : c'.worker = .storeProcessed queued.sequence ∨
      ∃ error, c'.worker = .recordWriteError queued.sequence error ∧ ok = false) : c'.Logged := by
  have hrunning : c.stopped ≠ true := fun hs => by
    have hended := h.stopped hs
    rw [hw] at hended
    cases hended
  refine ⟨?_, ?_, hlog ▸ h.ascending, ?_, ?_, ?_, ?_, ?_,
    fun hs => absurd (hstopped ▸ hs) hrunning⟩
  · rw [hlog, lastWritten, Core.written]
    obtain he | ⟨error, he, -⟩ := hworker <;> rw [he]
  · have hbefore : flushedBy c.log = c.flushedSequence := by rw [h.reached, Core.reached, hw]
    rw [hlog, flushedBy, hbefore, Core.reached, hflushed]
    obtain he | ⟨error, he, -⟩ := hworker <;> rw [he]
  · rw [hlog, hflush]
    rintro sequence error (hcell | hpc)
    · exact h.flushError sequence error (Or.inl hcell)
    · obtain he | ⟨error', he, -⟩ := hworker <;> rw [he] at hpc <;> cases hpc
  · rw [hlog, hwrite]
    rintro sequence error (hcell | hpc)
    · exact List.mem_cons_of_mem _ (h.writeError sequence error (Or.inl hcell))
    · -- the error that the write has just returned
      obtain he | ⟨error', he, rfl⟩ := hworker <;> rw [he] at hpc <;> cases hpc
      exact List.mem_cons_self ..
  · rintro next (hpc | hpc) <;>
      obtain he | ⟨error, he, -⟩ := hworker <;> rw [he] at hpc <;> cases hpc
  · intro next requested hpc
    obtain he | ⟨error, he, -⟩ := hworker <;> rw [he] at hpc <;> cases hpc
  · intro hended
    obtain he | ⟨error, he, -⟩ := hworker <;> rw [he] at hended <;> cases hended

theorem logged_writerStep {outcome : Outcome} (ho : s.Ordered) (h : s.Logged)
    (hok : Returns s (.writer outcome)) (hs : writerStep s outcome s.worker = some s') :
    s'.Logged := by
  cases hw : s.worker with
  | write queued =>
    rw [hw] at hs
    cases outcome with
    | ok =>
      cases hs
      exact h.wrote hw rfl rfl rfl rfl rfl (Or.inl rfl)
    | err error =>
      cases hs
      exact h.wrote hw rfl rfl rfl rfl rfl (Or.inr ⟨error, rfl, rfl⟩)
    | panic => exact hok.elim
  | flush processed =>
    rw [hw] at hs
    cases outcome with
    | ok =>
      cases hs
      exact h.flushed ho (Or.inl hw) rfl rfl rfl rfl rfl (Or.inl rfl)
    | err error =>
      cases hs
      exact h.flushed ho (Or.inl hw) rfl rfl rfl rfl rfl (Or.inr (Or.inl ⟨error, rfl, rfl⟩))
    | panic => exact hok.elim
  | finalFlush processed =>
    rw [hw] at hs
    cases outcome with
    | ok | err error =>
      cases hs
      exact h.flushed ho (Or.inr hw) rfl rfl rfl rfl rfl (Or.inr (Or.inr rfl))
    | panic => exact hok.elim
  | _ => simp [hw, writerStep] at hs

theorem logged_step {a : Action} (ho : s.Ordered) (h : s.Logged) (hok : Returns s a)
    (hs : step config s a = some s') : s'.Logged := by
  cases moves_of_step hs with
  | emitNotify i hi => exact h.wake rfl rfl rfl rfl rfl rfl rfl
  | flushNotify f call hf hpc => exact h.wake rfl rfl rfl rfl rfl rfl rfl
  | dropNotify hdrop => exact h.wake rfl rfl rfl rfl rfl rfl rfl
  | spurious hparked => exact h.wake rfl rfl rfl rfl rfl rfl rfl
  | queue s' hq => exact logged_queueStep ho h hq
  | work s' hw => exact logged_workerStep ho h hw
  | writer outcome s' hw => exact logged_writerStep ho h hok hw
  | _ => exact h.idle rfl rfl rfl rfl rfl rfl (Or.inl rfl)

/-! ## What a barrier is told -/

/-- The barrier has an error in its hands, or has resolved to one. -/
def FlushPc.told : FlushPc → Bool
  | .lockWriteError _ (some _) | .resolved (.error _) => true
  | _ => false

/-- How a barrier comes by an error. -/
inductive Told (s : State) (old : FlushCall) : FlushPc → Prop where
  | flushError (use : Use) (error : FlushError) (h : old.pc = .lockFlushError use)
    (hcell : flushErrorFor old.target s.lastFlushError = some error) :
    Told s old (.lockWriteError use (some error))
  | stopped (use : Use) (error : FlushError) (h : old.pc = .loadStopped use)
    (hstopped : s.stopped = true) : Told s old (.resolved (.error error))
  | found (use : Use) (error : FlushError) (h : old.pc = .lockWriteError use (some error)) :
    Told s old (.resolved (.error error))
  | writeError (use : Use) (error : FlushError) (h : old.pc = .lockWriteError use none)
    (hcell : writeErrorFor old.target s.lastWriteError = some error) :
    Told s old (.resolved (.error error))

theorem told_of_flushStep {f : ℕ} {old call : FlushCall} (hf : s.flushes[f]? = some old)
    (hs : flushStep f old s = some s') (hc : call ∈ s'.flushes) (hp : call.pc.told = true) :
    call ∈ s.flushes ∨ (call.target = old.target ∧ Told s old call.pc) := by
  have hset : ∀ {pc : FlushPc}, call ∈ s.flushes.set f { old with pc := pc } →
      (pc.told = true → Told s old pc) →
        call ∈ s.flushes ∨ (call.target = old.target ∧ Told s old call.pc) := by
    intro pc hc htold
    obtain hm | rfl := List.mem_or_eq_of_mem_set hc
    · exact Or.inl hm
    · exact Or.inr ⟨rfl, htold hp⟩
  obtain ⟨pc, target, captured⟩ := old
  cases pc with
  | lockQueue =>
    simp only [flushStep] at hs
    split at hs
    · cases hs
      obtain hm | rfl := List.mem_or_eq_of_mem_set hc
      · exact Or.inl hm
      · cases hp
    · cases hs
  | lockProgress | loadFlushed =>
    simp only [flushStep] at hs
    split at hs <;> cases hs <;> exact hset hc fun htold => by cases htold
  | publish | notify | park | register =>
    cases hs
    exact hset hc fun htold => by cases htold
  | loadStopped use =>
    simp only [flushStep] at hs
    cases hs
    refine hset hc fun htold => ?_
    split at htold
    next hstopped =>
      rw [if_pos hstopped, conclude_some]
      exact .stopped use _ rfl hstopped
    next =>
      obtain ⟨r, hr, -⟩ | ⟨-, he | he | ⟨waker, he⟩⟩ := conclude_cases none use
      · cases hr
      all_goals rw [he] at htold; cases htold
  | lockFlushError use =>
    cases hs
    refine hset hc fun htold => ?_
    cases hcell : flushErrorFor target s.lastFlushError with
    | none =>
      rw [hcell] at htold
      cases htold
    | some error => exact .flushError use error rfl hcell
  | lockWriteError use found =>
    simp only [flushStep] at hs
    cases hs
    refine hset hc fun htold => ?_
    rw [conclude_some] at htold ⊢
    cases found with
    | some error => exact .found use error rfl
    | none =>
      cases hcell : writeErrorFor target s.lastWriteError with
      | none =>
        rw [hcell] at htold
        cases htold
      | some error => exact .writeError use error rfl hcell
  | held | parked | resolved _ => cases hs

/-- A barrier with an error had it before, or has just come by it in a step of its own. -/
theorem told_of_step {a : Action} (hs : step config s a = some s') {call : FlushCall}
    (hc : call ∈ s'.flushes) (hp : call.pc.told = true) :
    call ∈ s.flushes ∨ ∃ f old, a = .stepFlush f ∧ s.flushes[f]? = some old ∧
      call.target = old.target ∧ Told s old call.pc := by
  have hset : ∀ {f : ℕ} {old : FlushCall} {pc : FlushPc}, pc.told = false →
      call ∈ s.flushes.set f { old with pc := pc } → call ∈ s.flushes := by
    intro f old pc hpc hc
    obtain hm | rfl := List.mem_or_eq_of_mem_set hc
    · exact hm
    · rw [hpc] at hp
      cases hp
  cases a with
  | stepFlush f =>
    obtain ⟨old, hf, hstep⟩ := Option.bind_eq_some_iff.mp hs
    obtain hm | htold := told_of_flushStep hf hstep hc hp
    · exact Or.inl hm
    · exact Or.inr ⟨f, old, rfl, hf, htold⟩
  | wait f | poll f _ | spuriousProgress f =>
    obtain ⟨⟨pc, target, captured⟩, hf, hstep⟩ := Option.bind_eq_some_iff.mp hs
    cases pc <;> cases hstep
    exact Or.inl (hset rfl hc)
  | callFlush =>
    simp only [step] at hs
    split at hs
    · cases hs
      obtain hm | hnew := List.mem_append.mp hc
      · exact Or.inl hm
      · rw [List.mem_singleton.mp hnew] at hp
        cases hp
    · cases hs
  | work =>
    obtain he | he := (workerStep_frame hs).flushes
    · exact Or.inl (he ▸ hc)
    · -- a waiter that is woken has no error
      obtain ⟨⟨pc, target, captured⟩, hm, rfl⟩ := List.mem_map.mp (he ▸ hc)
      cases pc with
      | parked => cases hp
      | _ => exact Or.inl hm
  | stepQueue => exact Or.inl ((queueStep_frame hs).flushes ▸ hc)
  | writer outcome => exact Or.inl ((writerStep_frame hs).flushes ▸ hc)
  | callEmit | dropHandles | spuriousWork =>
    simp only [step] at hs
    split at hs <;> cases hs
    exact Or.inl hc
  | stepEmit i =>
    obtain ⟨pc, hi, hstep⟩ := Option.bind_eq_some_iff.mp hs
    cases pc <;> simp only [emitStep] at hstep <;> (try split at hstep) <;> cases hstep <;>
      exact Or.inl hc
  | refuseEmit i =>
    obtain ⟨pc, hi, hstep⟩ := Option.bind_eq_some_iff.mp hs
    obtain ⟨-, rfl⟩ := refuseStep_cases hstep
    exact Or.inl hc
  | stepDrop =>
    have hstep : dropStep s s.drop = some s' := hs
    cases hd : s.drop <;> rw [hd] at hstep <;> simp only [dropStep] at hstep <;>
      (try split at hstep) <;> cases hstep <;> exact Or.inl hc

/-! ## Runs -/

/-- The step in which `result` reads `last_flush_error`. -/
def FlushPc.readsFlushError : FlushPc → Bool
  | .lockFlushError _ => true
  | _ => false

/-- The step in which `result` reads `stopped`. -/
def FlushPc.readsStopped : FlushPc → Bool
  | .loadStopped _ => true
  | _ => false

/-- A barrier whose own writes and flush succeeded reads `last_flush_error` while it holds no error
of a later flush, and `stopped` while it is not set. The writer does not panic. -/
def ReadsInTime (s : State) : Action → Prop
  | .writer .panic => False
  | .stepFlush f => ∀ call ∈ s.flushes[f]?, Served call.target s.log →
      (call.pc.readsFlushError = true →
        ∀ entry ∈ s.lastFlushError, ¬ Later call.target entry.1 s.log) ∧
      (call.pc.readsStopped = true → s.stopped = false)
  | _ => True

instance : ∀ (s : State) (a : Action), Decidable (ReadsInTime s a)
  | s, .stepFlush f => inferInstanceAs (Decidable (∀ call ∈ s.flushes[f]?, Served _ _ → _))
  | _, .writer .panic => .isFalse id
  | _, .writer .ok | _, .writer (.err _) | _, .stepQueue | _, .callEmit _ | _, .stepEmit _
  | _, .refuseEmit _ | _, .callFlush | _, .wait _ | _, .poll _ _ | _, .dropHandles | _, .stepDrop
  | _, .work | _, .spuriousWork | _, .spuriousProgress _ => .isTrue trivial

theorem ReadsInTime.returns {a : Action} (h : ReadsInTime s a) : Returns s a := by
  cases a with
  | writer outcome =>
    cases outcome with
    | panic => exact h
    | _ => trivial
  | _ => trivial

/-- Whether a target already reached was served does not change any more. -/
theorem served_step {a : Action} {target : ℕ} (ho : s.Ordered) (hfresh : s.Fresh)
    (hlogged : s.Logged) (hs : step config s a = some s') (hle : target ≤ s.flushedSequence) :
    Served target s'.log ↔ Served target s.log := by
  have hreached : target ≤ flushedBy s.log := by
    rw [hlogged.reached]
    refine hle.trans ?_
    rw [Core.reached]
    split
    all_goals first
      | exact le_rfl
      | (next processed hw =>
          have hp := ho.carried processed (by rw [hw]; rfl)
          exact hp ▸ ho.flushed_le)
      | (next processed error hw =>
          have hp := ho.carried processed (by rw [hw]; rfl)
          exact hp ▸ ho.flushed_le)
  obtain he | ⟨ok, he⟩ | ⟨sequence, ok, he, hrecord⟩ := log_of_step hs
  · rw [he]
  · rw [he]
    exact served_cons hreached fun _ _ hcall => by cases hcall
  · rw [he]
    refine served_cons hreached fun sequence' ok' hcall => ?_
    cases hcall
    exact (hle.trans ho.flushed_le).trans_lt (hfresh sequence hrecord)

/-- A barrier that is told of an error has had a failure of its own, up to a target reached. -/
def State.Concerned (s : State) : Prop :=
  ∀ call ∈ s.flushes, call.pc.told = true →
    call.target ≤ s.flushedSequence ∧ ¬ Served call.target s.log

theorem concerned_initial : initial.Concerned := by
  intro call hc
  cases hc

/-- An error at or past the target of a served barrier is of a later flush. -/
theorem later_of_served {target : ℕ} {entry : ℕ × FlushError} (h : s.Logged)
    (hserved : Served target s.log) (hentry : s.lastFlushError = some entry)
    (hle : target ≤ entry.1) : Later target entry.1 s.log := by
  have hfailed := h.flushError entry.1 entry.2 (Or.inl hentry)
  intro flushed ok hfirst
  by_contra hlt
  have hnot := hfailed.first h.ascending hle hfirst (not_lt.mp hlt)
  have hpos : 0 < target := by
    refine Nat.pos_of_ne_zero fun hzero => ?_
    rw [hzero, firstFlush_zero] at hfirst
    cases hfirst
  obtain ⟨flushed', hok⟩ := hserved.2 hpos
  rw [hfirst] at hok
  cases hok
  cases hnot

/-- The worker stops once every target is reached. -/
theorem target_le_of_stopped (kept : s.Kept) (hlogged : s.Logged) (hfinished : s.Finished)
    (hstopped : s.stopped = true) {call : FlushCall} (hc : call ∈ s.flushes) :
    call.target ≤ s.flushedSequence := by
  obtain ⟨-, -, hprocessed⟩ := hfinished.finishing (hfinished.stopped hstopped)
  rw [hlogged.ended (hlogged.stopped hstopped), hprocessed]
  exact kept.calls.target_le call hc

theorem concerned_step {a : Action} (kept : s.Kept) (hlogged : s.Logged) (hfinished : s.Finished)
    (h : s.Concerned) (hok : ReadsInTime s a) (hs : step config s a = some s') :
    s'.Concerned := by
  have hup := flushed_le_of_step kept.ordered hs
  have hserved : ∀ {target : ℕ}, target ≤ s.flushedSequence → ¬ Served target s.log →
      ¬ Served target s'.log := fun hle hnot hserved =>
    hnot ((served_step kept.ordered kept.fresh hlogged hs hle).mp hserved)
  intro call hc hp
  obtain hm | ⟨f, old, rfl, hf, htarget, htold⟩ := told_of_step hs hc hp
  · obtain ⟨hle, hnot⟩ := h call hm hp
    exact ⟨hle.trans hup, hserved hle hnot⟩
  · rw [htarget]
    have hm := List.mem_of_getElem? hf
    suffices hown : old.target ≤ s.flushedSequence ∧ ¬ Served old.target s.log from
      ⟨hown.1.trans hup, hserved hown.1 hown.2⟩
    have hguard := hok old hf
    generalize call.pc = pc at htold
    cases htold with
    | flushError use error hpc hcell =>
      refine ⟨kept.covered old hm (by rw [hpc]; rfl), fun hown => ?_⟩
      obtain ⟨entry, hentry, -⟩ := Option.map_eq_some_iff.mp hcell
      obtain ⟨hlast, hle⟩ := Option.filter_eq_some_iff.mp hentry
      exact (hguard hown).1 (by rw [hpc]; rfl) entry hlast
        (later_of_served hlogged hown hlast (of_decide_eq_true hle))
    | stopped use error hpc hstopped =>
      refine ⟨target_le_of_stopped kept hlogged hfinished hstopped hm, fun hown => ?_⟩
      have hrunning := (hguard hown).2 (by rw [hpc]; rfl)
      rw [hstopped] at hrunning
      cases hrunning
    | found use error hpc => exact h old hm (by rw [hpc]; rfl)
    | writeError use error hpc hcell =>
      -- the first write that failed is one up to the target
      refine ⟨kept.covered old hm (by rw [hpc]; rfl), fun hown => ?_⟩
      obtain ⟨sequence, error', hlast, hle⟩ :=
        writeErrorFor_isSome_iff.mp (Option.isSome_of_eq_some hcell)
      cases hown.1 sequence false (hlogged.writeError sequence error' (Or.inl hlast)) hle

/-- What the runs whose barriers read in time keep. -/
structure State.Blameless (config : Config) (s : State) : Prop where
  delivers : s.Delivers config
  logged : s.Logged
  concerned : s.Concerned

theorem blameless_step {a : Action} (kept : s.Kept) (h : s.Blameless config)
    (hok : ReadsInTime s a) (hs : step config s a = some s') : s'.Blameless config where
  delivers := delivers_step kept h.delivers hok.returns hs
  logged := logged_step kept.ordered h.logged hok.returns hs
  concerned := concerned_step kept h.logged h.delivers.finished h.concerned hok hs

/-- No barrier whose own writes and flush succeeded has resolved to an error. -/
def State.FailuresOwn (s : State) : Prop :=
  ∀ call ∈ s.flushes, ∀ error, call.pc = .resolved (.error error) → ¬ Served call.target s.log

/-- A barrier that has found an error resolves to it in its next step. -/
theorem exists_resolved (config : Config) {f : ℕ} {target : ℕ} {captured : List ℕ} {use : Use} {error : FlushError}
    (hf : s.flushes[f]? = some ⟨.lockWriteError use (some error), target, captured⟩) :
    ∃ u, Transition.Reaches (step config) Returns s u ∧ u.log = s.log ∧
      ⟨.resolved (.error error), target, captured⟩ ∈ u.flushes := by
  refine ⟨_, .tail .refl (a := .stepFlush f) trivial
    (Option.bind_eq_some_iff.mpr ⟨_, hf, rfl⟩), rfl, ?_⟩
  refine List.mem_of_getElem? (i := f) ?_
  rw [conclude_some]
  exact Slots.getElem?_set_of_some hf

/-- A step that reads too late leads to a served barrier that resolves to an error. -/
theorem exists_failure {a : Action} {t : State} (hlogged : s.Logged) (hok : Returns s a)
    (hlate : ¬ ReadsInTime s a) (hs : step config s a = some t) :
    ∃ u, Transition.Reaches (step config) Returns t u ∧ ¬ u.FailuresOwn := by
  cases a with
  | writer outcome =>
    cases outcome with
    | panic => exact hok.elim
    | _ => exact absurd trivial hlate
  | stepFlush f =>
    obtain ⟨⟨pc, target, captured⟩, hf, hstep⟩ := Option.bind_eq_some_iff.mp hs
    have hlate' : Served target s.log ∧ ¬ ((pc.readsFlushError = true →
        ∀ entry ∈ s.lastFlushError, ¬ Later target entry.1 s.log) ∧
          (pc.readsStopped = true → s.stopped = false)) := by
      by_contra hin
      refine hlate fun call hcall hserved => ?_
      cases Option.some.inj (hf.symm.trans hcall)
      by_contra hnot
      exact hin ⟨hserved, hnot⟩
    obtain ⟨hserved, hlate⟩ := hlate'
    cases pc with
    | lockFlushError use =>
      -- the barrier takes the error of the later flush with it
      cases hlast : s.lastFlushError with
      | none =>
        rw [hlast] at hlate
        exact absurd ⟨fun _ _ hm => (by cases hm), fun hp => by cases hp⟩ hlate
      | some entry =>
        rw [hlast] at hlate
        have hlater : Later target entry.1 s.log := by
          by_contra hnot
          refine hlate ⟨fun _ other hm => ?_, fun hp => by cases hp⟩
          cases hm
          exact hnot
        have hle : target ≤ entry.1 := by
          obtain hzero | hpos := Nat.eq_zero_or_pos target
          · exact hzero ▸ Nat.zero_le _
          · obtain ⟨flushed, hfirst⟩ := hserved.2 hpos
            exact (firstFlush_le hlogged.ascending hfirst).1.trans (hlater flushed true hfirst).le
        have hcell : flushErrorFor target s.lastFlushError = some entry.2 := by
          simp [flushErrorFor, hlast, Option.filter, hle]
        cases hstep
        rw [hcell]
        have hset : (setFlush f ⟨.lockFlushError use, target, captured⟩
            (.lockWriteError use (some entry.2)) s).flushes[f]? =
              some ⟨.lockWriteError use (some entry.2), target, captured⟩ :=
          Slots.getElem?_set_of_some hf
        obtain ⟨u, hreach, hlog, hm⟩ := exists_resolved config hset
        exact ⟨u, hreach, fun hown => hown _ hm _ rfl (hlog ▸ hserved)⟩
    | loadStopped use =>
      have hstopped : s.stopped = true := by
        by_contra hrunning
        exact hlate ⟨fun hp => (by cases hp), fun _ => Bool.eq_false_of_not_eq_true hrunning⟩
      simp only [flushStep, hstopped, if_true, conclude_some] at hstep
      cases hstep
      refine ⟨_, .refl, fun hown => hown ⟨_, target, captured⟩ ?_ workerStoppedError rfl hserved⟩
      exact List.mem_of_getElem? (Slots.getElem?_set_of_some hf)
    | _ => exact absurd ⟨fun hp => (by cases hp), fun hp => by cases hp⟩ hlate
  | _ => exact absurd trivial hlate

/-- **Failures of others**: in a run whose barriers read in time, no barrier whose own writes and
flush succeeded ever resolves to an error; and a reading that is too late lets one do so. -/
theorem failures_own (config : Config) :
    (∀ s, Transition.Reaches (step config) ReadsInTime initial s → s.FailuresOwn) ∧
      ∀ s a t, Transition.Reaches (step config) Returns initial s → Returns s a →
        ¬ ReadsInTime s a → step config s a = some t →
          ∃ u, Transition.Reaches (step config) Returns t u ∧ ¬ u.FailuresOwn := by
  constructor
  · intro s hrun
    obtain ⟨-, hs⟩ := invariant_of_reaches
      (I := fun s => s.Blameless config)
      (fun s a s' kept h hok hs => blameless_step kept h hok hs)
      ⟨delivers_initial config, logged_initial, concerned_initial⟩ hrun
    exact fun call hc error hpc => (hs.concerned call hc (by rw [hpc]; rfl)).2
  · intro s a t hrun hok hlate hs
    obtain ⟨-, -, hlogged⟩ := invariant_of_reaches
      (I := fun s => s.Delivers config ∧ s.Logged)
      (fun s a s' kept h (hok : Returns s a) hs => ⟨delivers_step kept h.1 hok hs,
        logged_step kept.ordered h.2 hok hs⟩)
      ⟨delivers_initial config, logged_initial⟩ hrun
    exact exists_failure hlogged hok hlate hs

/-- A record is emitted by call `i`, taken by the worker and captured by flush `i`. -/
def emitAndFlush (i : ℕ) : List Action :=
  [.callEmit bareEvent, .stepEmit i, .stepEmit i, .stepQueue, .stepQueue, .stepQueue, .stepEmit i,
    .work, .stepQueue, .callFlush, .stepFlush i, .stepFlush i, .stepFlush i]

/-- The record is written and flushed, and the worker stores what came of it. -/
def writeAndFlush (outcome : Outcome) : List Action :=
  [.writer .ok, .work, .work, .work, .work, .writer outcome, .work, .work, .work, .work, .work,
    .work]

def diskFull : FlushError := { kind := .other "StorageFull", message := "disk full" }

/-- The first record is flushed, the flush of the second fails, and the first barrier is polled. -/
def laterFlushRun : List Action :=
  emitAndFlush 0 ++ writeAndFlush .ok ++ emitAndFlush 1 ++ writeAndFlush (.err diskFull) ++
    [.poll 0 0, .stepFlush 0, .stepFlush 0, .stepFlush 0]

/-- A barrier is told that its own flush has failed; and one whose flush succeeded is about to read
the error of a later flush. -/
theorem failures_own_disk :
    (∃ s, Transition.Reaches (step oneSlot) ReadsInTime initial s ∧
      (∃ call ∈ s.flushes, call.pc = .resolved (.error diskFull)) ∧ s.FailuresOwn) ∧
      ∃ s t, Transition.Reaches (step oneSlot) Returns initial s ∧ s.FailuresOwn ∧
        step oneSlot s (.stepFlush 0) = some t ∧
          ∃ u, Transition.Reaches (step oneSlot) Returns t u ∧ ¬ u.FailuresOwn := by
  constructor
  · obtain ⟨s, hrun, hresolved⟩ := Transition.exists_reaches (step oneSlot) ReadsInTime initial
      (fun s => ∃ call ∈ s.flushes, call.pc = .resolved (.error diskFull))
      (emitAndFlush 0 ++ writeAndFlush (.err diskFull) ++
        [.poll 0 0, .stepFlush 0, .stepFlush 0, .stepFlush 0]) (by decide)
    exact ⟨s, hrun, hresolved, (failures_own oneSlot).1 s hrun⟩
  · obtain ⟨s, hrun, hlate, hsome⟩ := Transition.exists_reaches (step oneSlot) ReadsInTime initial
      (fun s => ¬ ReadsInTime s (.stepFlush 0) ∧ (step oneSlot s (.stepFlush 0)).isSome = true)
      (emitAndFlush 0 ++ writeAndFlush .ok ++ emitAndFlush 1 ++ writeAndFlush (.err diskFull) ++
        [.poll 0 0, .stepFlush 0]) (by decide)
    obtain ⟨t, ht⟩ := Option.isSome_iff_exists.mp hsome
    have hreturns : Transition.Reaches (step oneSlot) Returns initial s :=
      hrun.mono fun _ _ hok => hok.returns
    exact ⟨s, t, hreturns, (failures_own oneSlot).1 s hrun, ht,
      (failures_own oneSlot).2 s (.stepFlush 0) t hreturns trivial hlate ht⟩

/-- A barrier finds its target not flushed; the handles go away; the worker flushes and stops; the
barrier looks at `stopped`. -/
def stoppedRun : List Action :=
  emitAndFlush 0 ++ [.poll 0 0, .stepFlush 0, .dropHandles, .stepDrop, .stepDrop, .stepDrop] ++
    writeAndFlush .ok ++ [.work, .work, .stepFlush 0]

/-- A barrier whose record was written and flushed resolves to the error of a later flush, and in
another run to that of a worker that stopped too early. -/
theorem failures_of_others :
    (∃ s, Transition.Reaches (step oneSlot) Returns initial s ∧
      ∃ call ∈ s.flushes, call.target = 1 ∧ call.pc = .resolved (.error diskFull) ∧
        Served call.target s.log) ∧
      ∃ s, Transition.Reaches (step oneSlot) Returns initial s ∧
        ∃ call ∈ s.flushes, call.target = 1 ∧ call.pc = .resolved (.error workerStoppedError) ∧
          Served call.target s.log := by
  constructor
  · obtain ⟨s, hrun, hlog, call, hcall, htarget, hpc⟩ := Transition.exists_reaches (step oneSlot)
      Returns initial
      (fun s => s.log = [.flush false, .write 2 true, .flush true, .write 1 true] ∧
        ∃ call ∈ s.flushes, call.target = 1 ∧ call.pc = .resolved (.error diskFull))
      laterFlushRun (by decide)
    refine ⟨s, hrun, call, hcall, htarget, hpc, ?_⟩
    rw [hlog, htarget]
    exact ⟨by simp, fun _ => ⟨1, rfl⟩⟩
  · obtain ⟨s, hrun, hlog, call, hcall, htarget, hpc⟩ := Transition.exists_reaches (step oneSlot)
      Returns initial
      (fun s => s.log = [.flush true, .write 1 true] ∧
        ∃ call ∈ s.flushes, call.target = 1 ∧ call.pc = .resolved (.error workerStoppedError))
      stoppedRun (by decide)
    refine ⟨s, hrun, call, hcall, htarget, hpc, ?_⟩
    rw [hlog, htarget]
    exact ⟨by simp, fun _ => ⟨1, rfl⟩⟩

end Logwise.AsyncSink
