import Logwise.Legacy.SlowTimestamp
import Logwise.Library.Tally

/-!
# Tasks

A `Task` (`context/task.rs`) adds up, for each key, how long its intervals took and how long the
conditional ones were given. The destructors of `PerfwarnInterval` and `PerfwarnIntervalIf`
(`interval.rs`) add to it, its own destructor logs what it has. A sum past `Duration::MAX` panics
while the mutex is held and poisons it.
-/

namespace Logwise.Legacy

/-- `Duration::MAX`, in nanoseconds. -/
def maxDuration : ℕ := (2 ^ 64 - 1) * 1000000000 + 999999999

abbrev Duration := Tally.Amount maxDuration

/-- A number of nanoseconds; two instants are never further apart than a duration reaches. -/
def Duration.ofNanos (nanos : ℕ) : Duration := ⟨min nanos maxDuration, Nat.min_le_right _ _⟩

structure TaskMutable where
  intervalStatistics : Tally.Totals String maxDuration
  intervalThresholds : Tally.Totals String maxDuration

/-- `poisoned` is the state of the mutex around `mutable`. -/
structure Task where
  taskId : ℕ
  mutable : TaskMutable
  poisoned : Bool
  label : String
  completionLevel : Level
  shouldLogCompletion : Bool

/-- What a call leaves behind, and whether it returned. -/
structure Outcome where
  task : Task
  returned : Bool

namespace Task

def new (taskId : ℕ) (label : String) (completionLevel : Level) (shouldLogCompletion : Bool) :
    Task :=
  { taskId := taskId
    mutable := { intervalStatistics := ∅, intervalThresholds := ∅ }
    poisoned := false
    label := label
    completionLevel := completionLevel
    shouldLogCompletion := shouldLogCompletion }

def addTaskInterval (task : Task) (key : String) (duration : Duration) : Outcome :=
  if task.poisoned then { task := task, returned := false }
  else
    match Tally.add task.mutable.intervalStatistics key duration with
    | none => { task := { task with poisoned := true }, returned := false }
    | some statistics =>
      { task := { task with mutable := { task.mutable with intervalStatistics := statistics } }
        returned := true }

/-- The duration is added before the threshold is. -/
def addTaskIntervalIf (task : Task) (key : String) (duration threshold : Duration) : Outcome :=
  if task.poisoned then { task := task, returned := false }
  else
    match Tally.add task.mutable.intervalStatistics key duration with
    | none => { task := { task with poisoned := true }, returned := false }
    | some statistics =>
      let mutable := { task.mutable with intervalStatistics := statistics }
      match Tally.add mutable.intervalThresholds key threshold with
      | none => { task := { task with mutable := mutable, poisoned := true }, returned := false }
      | some thresholds =>
        { task := { task with mutable := { mutable with intervalThresholds := thresholds } }
          returned := true }

/-- A sum that is not above the sum of the thresholds is not logged. -/
def skipped (thresholds : Tally.Totals String maxDuration)
    (statistic : Sigma fun _ : String => Duration) : Bool :=
  match thresholds.lookup statistic.1 with
  | some threshold => decide (statistic.2.1 ≤ threshold.1)
  | none => false

/-- One round of the loop over the statistics. The flag is `first`. -/
def logStatistic (thresholds : Tally.Totals String maxDuration) (progress : LogRecord × Bool)
    (statistic : Sigma fun _ : String => Duration) : LogRecord × Bool :=
  if skipped thresholds statistic then progress
  else
    let record := if progress.2 then progress.1 else progress.1.log ", "
    ((record.log statistic.1).logOwned (": " ++ debugDuration statistic.2.1), false)

/-- The record of the statistics, if any. The map is walked in some order. -/
def statistics (task : Task) (order : List (Sigma fun _ : String => Duration)) : Option LogRecord :=
  if task.mutable.intervalStatistics = ∅ then none
  else
    let record := ((LogRecord.new .perfWarn).logOwned (toString task.taskId ++ " ")).log
      "PERFWARN: statistics["
    let walked := order.foldl (logStatistic task.mutable.intervalThresholds) (record, true)
    let record := walked.1.log "]"
    if walked.2 then none else some record

def completion (task : Task) : Option LogRecord :=
  if task.shouldLogCompletion then
    let record := (LogRecord.new task.completionLevel).logOwned (toString task.taskId ++ " ")
    some (((record.log "Finished task `").log task.label).log "`")
  else none

/-- What the destructor hands to the loggers; nothing when the lock panics. -/
def drop (task : Task) (order : List (Sigma fun _ : String => Duration))
    (loggers : List LogPrivacy) : Option (List LogRecord) :=
  if task.poisoned then none
  else
    some (((task.statistics order).toList ++ task.completion.toList).flatMap fun record =>
      loggers.map record.cloneForLogger)

end Task

/-- A call that adds to a task. -/
inductive Recording where
  | interval (key : String) (duration : Duration)
  | intervalIf (key : String) (duration threshold : Duration)

namespace Recording

def key : Recording → String
  | .interval key _ => key
  | .intervalIf key _ _ => key

def duration : Recording → Duration
  | .interval _ duration => duration
  | .intervalIf _ duration _ => duration

def threshold? : Recording → Option Duration
  | .interval _ _ => none
  | .intervalIf _ _ threshold => some threshold

/-- What the calls add to the statistics. -/
def durations (calls : List Recording) : List (String × Duration) :=
  calls.map fun call => (call.key, call.duration)

/-- What they add to the thresholds. -/
def thresholds (calls : List Recording) : List (String × Duration) :=
  calls.filterMap fun call => call.threshold?.map fun threshold => (call.key, threshold)

end Recording

def Task.record (task : Task) : Recording → Outcome
  | .interval key duration => task.addTaskInterval key duration
  | .intervalIf key duration threshold => task.addTaskIntervalIf key duration threshold

def Task.run (task : Task) (calls : List Recording) : Task :=
  calls.foldl (fun task call => (task.record call).task) task

/-- `scale` is what `mul_f32` makes of a duration, nothing where it panics. -/
structure PerfwarnInterval where
  label : String
  start : ℕ
  scale : ℕ → Option ℕ
  context : Context

def PerfwarnInterval.call (interval : PerfwarnInterval) (endTime : ℕ) : Recording :=
  .interval interval.label (Duration.ofNanos (endTime - interval.start))

/-- The destructor: what it leaves of the task, and what it hands to the loggers. -/
def PerfwarnInterval.drop (interval : PerfwarnInterval) (task : Task) (endTime initial : ℕ)
    (loggers : List LogPrivacy) : Task × Option (List LogRecord) :=
  let duration := Duration.ofNanos (endTime - interval.start)
  let outcome := task.addTaskInterval interval.label duration
  let record := interval.context.logPrelude (LogRecord.new .perfWarn)
  let record := (record.log "PERFWARN: END ").logTimeSince endTime initial
  let record := (record.log interval.label).log " "
  (outcome.task,
    if outcome.returned then
      (interval.scale duration.1).map fun scaledDuration =>
        loggers.map
          (record.logOwned ("[interval took " ++ debugDuration scaledDuration ++ "] ")).cloneForLogger
    else none)

def PerfwarnIntervalIf.call (interval : PerfwarnIntervalIf) (endTime : ℕ) : Recording :=
  .intervalIf interval.label (Duration.ofNanos (endTime - interval.start))
    (Duration.ofNanos interval.threshold)

/-- The whole destructor: the task is told of an interval whether or not it was slow. -/
def PerfwarnIntervalIf.dropOn (interval : PerfwarnIntervalIf) (task : Task) (endTime initial : ℕ)
    (loggers : List LogPrivacy) : Task × Option (List LogRecord) :=
  let outcome := task.addTaskIntervalIf interval.label (Duration.ofNanos (endTime - interval.start))
    (Duration.ofNanos interval.threshold)
  (outcome.task, if outcome.returned then interval.drop endTime initial loggers else none)

namespace Recording

theorem durations_append (calls : List Recording) (call : Recording) :
    durations (calls ++ [call]) = durations calls ++ [(call.key, call.duration)] := by
  simp [durations]

theorem thresholds_append_interval (calls : List Recording) (key : String) (duration : Duration) :
    thresholds (calls ++ [.interval key duration]) = thresholds calls := by
  simp [thresholds, threshold?]

theorem thresholds_append_intervalIf (calls : List Recording) (key : String)
    (duration threshold : Duration) :
    thresholds (calls ++ [.intervalIf key duration threshold]) =
      thresholds calls ++ [(key, threshold)] := by
  simp [thresholds, threshold?, Recording.key]

/-- For no key do the durations exceed `Duration::MAX`, nor do the thresholds. -/
def Fits (calls : List Recording) : Prop :=
  Tally.Fits (durations calls) ∧ Tally.Fits (thresholds calls)

theorem Fits.nil : Fits [] := ⟨Tally.Fits.nil, Tally.Fits.nil⟩

theorem Fits.of_append {calls more : List Recording} (h : Fits (calls ++ more)) : Fits calls := by
  rw [Fits, durations, thresholds, List.map_append, List.filterMap_append] at h
  exact ⟨h.1.of_append, h.2.of_append⟩

end Recording

open Recording

/-- The task is what the calls made of it: poisoned once a sum exceeded `Duration::MAX`, and until
then the sums. -/
structure Task.Tracks (task : Task) (calls : List Recording) : Prop where
  poisoned_iff : task.poisoned = true ↔ ¬ Recording.Fits calls
  statistics : task.poisoned = false →
    Tally.Holds task.mutable.intervalStatistics (durations calls)
  thresholds : task.poisoned = false →
    Tally.Holds task.mutable.intervalThresholds (thresholds calls)

namespace Task

variable {task : Task} {calls : List Recording}

theorem Tracks.new (taskId : ℕ) (label : String) (completionLevel : Level)
    (shouldLogCompletion : Bool) :
    (Task.new taskId label completionLevel shouldLogCompletion).Tracks [] where
  poisoned_iff := by simp [Task.new, Recording.Fits.nil]
  statistics _ := Tally.Holds.empty
  thresholds _ := Tally.Holds.empty

theorem Tracks.fits (h : task.Tracks calls) (hpoisoned : task.poisoned = false) :
    Recording.Fits calls := by
  by_contra hfits
  rw [h.poisoned_iff.mpr hfits] at hpoisoned
  cases hpoisoned

theorem Tracks.of_poisoned (hpoisoned : task.poisoned = true) (hfits : ¬ Recording.Fits calls) :
    task.Tracks calls where
  poisoned_iff := iff_of_true hpoisoned hfits
  statistics hfalse := absurd (hpoisoned.symm.trans hfalse) (by decide)
  thresholds hfalse := absurd (hpoisoned.symm.trans hfalse) (by decide)

theorem Tracks.of_holds (hpoisoned : task.poisoned = false) (hfits : Recording.Fits calls)
    (hstatistics : Tally.Holds task.mutable.intervalStatistics (durations calls))
    (hthresholds : Tally.Holds task.mutable.intervalThresholds (Recording.thresholds calls)) :
    task.Tracks calls where
  poisoned_iff := iff_of_false (by simp [hpoisoned]) (not_not.mpr hfits)
  statistics _ := hstatistics
  thresholds _ := hthresholds

/-- A poisoned mutex stays so, and no call gets past it. -/
theorem record_of_poisoned (hpoisoned : task.poisoned = true) (call : Recording) :
    task.record call = { task := task, returned := false } := by
  cases call <;> simp [record, addTaskInterval, addTaskIntervalIf, hpoisoned]

theorem Tracks.addTaskInterval (h : task.Tracks calls) (hpoisoned : task.poisoned = false)
    (key : String) (duration : Duration) :
    (task.addTaskInterval key duration).task.Tracks (calls ++ [.interval key duration]) ∧
      (task.addTaskInterval key duration).returned =
        !(task.addTaskInterval key duration).task.poisoned := by
  have hfits := h.fits hpoisoned
  have hadd := (h.statistics hpoisoned).add_isSome hfits.1 key duration
  have hdurations := durations_append calls (.interval key duration)
  have hthresholds := thresholds_append_interval calls key duration
  simp only [Task.addTaskInterval, hpoisoned, Bool.false_eq_true, if_false]
  cases hsum : Tally.add task.mutable.intervalStatistics key duration with
  | none =>
    rw [hsum] at hadd
    refine ⟨.of_poisoned rfl fun hnew => ?_, rfl⟩
    exact absurd (hadd.mpr (hdurations ▸ hnew.1)) Bool.false_ne_true
  | some statistics =>
    rw [hsum] at hadd
    refine ⟨.of_holds rfl ⟨?_, ?_⟩ ?_ ?_, rfl⟩
    · exact hdurations ▸ hadd.mp rfl
    · exact hthresholds ▸ hfits.2
    · exact hdurations ▸ (h.statistics hpoisoned).add hsum
    · exact hthresholds ▸ h.thresholds hpoisoned

theorem Tracks.addTaskIntervalIf (h : task.Tracks calls) (hpoisoned : task.poisoned = false)
    (key : String) (duration threshold : Duration) :
    (task.addTaskIntervalIf key duration threshold).task.Tracks
        (calls ++ [.intervalIf key duration threshold]) ∧
      (task.addTaskIntervalIf key duration threshold).returned =
        !(task.addTaskIntervalIf key duration threshold).task.poisoned := by
  have hfits := h.fits hpoisoned
  have hadd := (h.statistics hpoisoned).add_isSome hfits.1 key duration
  have hadd' := (h.thresholds hpoisoned).add_isSome hfits.2 key threshold
  have hdurations := durations_append calls (.intervalIf key duration threshold)
  have hthresholds := thresholds_append_intervalIf calls key duration threshold
  simp only [Task.addTaskIntervalIf, hpoisoned, Bool.false_eq_true, if_false]
  cases hsum : Tally.add task.mutable.intervalStatistics key duration with
  | none =>
    rw [hsum] at hadd
    refine ⟨.of_poisoned rfl fun hnew => ?_, rfl⟩
    exact absurd (hadd.mpr (hdurations ▸ hnew.1)) Bool.false_ne_true
  | some statistics =>
    rw [hsum] at hadd
    cases hsum' : Tally.add task.mutable.intervalThresholds key threshold with
    | none =>
      rw [hsum'] at hadd'
      refine ⟨.of_poisoned rfl fun hnew => ?_, rfl⟩
      exact absurd (hadd'.mpr (hthresholds ▸ hnew.2)) Bool.false_ne_true
    | some thresholds =>
      rw [hsum'] at hadd'
      refine ⟨.of_holds rfl ⟨?_, ?_⟩ ?_ ?_, rfl⟩
      · exact hdurations ▸ hadd.mp rfl
      · exact hthresholds ▸ hadd'.mp rfl
      · exact hdurations ▸ (h.statistics hpoisoned).add hsum
      · exact hthresholds ▸ (h.thresholds hpoisoned).add hsum'

/-- One call. It returns unless it leaves the mutex poisoned. -/
theorem Tracks.record (h : task.Tracks calls) (call : Recording) :
    (task.record call).task.Tracks (calls ++ [call]) ∧
      (task.record call).returned = !(task.record call).task.poisoned := by
  by_cases hpoisoned : task.poisoned = true
  · rw [record_of_poisoned hpoisoned]
    refine ⟨.of_poisoned hpoisoned fun hfits => ?_, by simp [hpoisoned]⟩
    exact h.poisoned_iff.mp hpoisoned hfits.of_append
  · rw [Bool.not_eq_true] at hpoisoned
    cases call with
    | interval key duration => exact h.addTaskInterval hpoisoned key duration
    | intervalIf key duration threshold =>
      exact h.addTaskIntervalIf hpoisoned key duration threshold

/-- A whole run. -/
theorem Tracks.run (h : task.Tracks calls) (more : List Recording) :
    (task.run more).Tracks (calls ++ more) := by
  induction more generalizing task calls with
  | nil => simpa [Task.run] using h
  | cons call more ih =>
    have hstep := ih (h.record call).1
    rwa [List.append_assoc] at hstep

theorem drop_isSome_iff (order : List (Sigma fun _ : String => Duration))
    (loggers : List LogPrivacy) : (task.drop order loggers).isSome ↔ task.poisoned = false := by
  cases hpoisoned : task.poisoned <;> simp [drop, hpoisoned]

/-- A call that is part of a run whose sums fit returns. -/
theorem Tracks.returned (h : task.Tracks calls) {call : Recording}
    (hfits : Recording.Fits (calls ++ [call])) : (task.record call).returned = true := by
  obtain ⟨htracks, hreturned⟩ := h.record call
  rw [hreturned, Bool.not_eq_true', ← Bool.not_eq_true, htracks.poisoned_iff]
  exact not_not.mpr hfits

end Task

theorem PerfwarnInterval.drop_isSome (interval : PerfwarnInterval) (task : Task)
    (endTime initial : ℕ) (loggers : List LogPrivacy)
    (hreturned : (task.record (interval.call endTime)).returned = true)
    (hscale : (interval.scale (Duration.ofNanos (endTime - interval.start)).1).isSome = true) :
    (interval.drop task endTime initial loggers).2.isSome = true := by
  have houtcome : (task.addTaskInterval interval.label
      (Duration.ofNanos (endTime - interval.start))).returned = true := hreturned
  simp [PerfwarnInterval.drop, houtcome, hscale]

/-- The rest of the destructor does not panic, see `drop_perfwarnBeginIf`. -/
theorem PerfwarnIntervalIf.dropOn_isSome (interval : PerfwarnIntervalIf) (task : Task)
    (endTime initial : ℕ) (loggers : List LogPrivacy) {context : Context} {site : CallSite}
    {writes : List Write}
    (hrecord : interval.record = Pre.perfwarnBeginIf.written context site 0 initial writes)
    (hreturned : (task.record (interval.call endTime)).returned = true) :
    (interval.dropOn task endTime initial loggers).2.isSome = true := by
  have houtcome : (task.addTaskIntervalIf interval.label
      (Duration.ofNanos (endTime - interval.start))
      (Duration.ofNanos interval.threshold)).returned = true := hreturned
  have hslow := interval.slowRecord_of_insertionPoint endTime initial
    (hrecord.trans (written_perfwarnBeginIf context site 0 initial writes))
    (insertionPoint_perfwarnOpening context site)
  simp only [dropOn, houtcome, if_true, PerfwarnIntervalIf.drop]
  split
  · rw [hslow]
    rfl
  · rfl

/-- No call panics, no destructor of an interval does because of its call, and the destructor of
the task does not. -/
structure Task.NeverPanics (task : Task) (calls : List Recording) : Prop where
  returns : ∀ before call after, calls = before ++ call :: after →
    ((task.run before).record call).returned = true
  interval : ∀ before (interval : PerfwarnInterval) (endTime : ℕ) after,
    calls = before ++ interval.call endTime :: after →
    (interval.scale (Duration.ofNanos (endTime - interval.start)).1).isSome = true →
    ∀ initial loggers,
      (interval.drop (task.run before) endTime initial loggers).2.isSome = true
  intervalIf : ∀ before (interval : PerfwarnIntervalIf) (endTime : ℕ) after,
    calls = before ++ interval.call endTime :: after →
    ∀ initial loggers context site writes,
      interval.record = Pre.perfwarnBeginIf.written context site 0 initial writes →
      (interval.dropOn (task.run before) endTime initial loggers).2.isSome = true
  drop : ∀ order loggers, ((task.run calls).drop order loggers).isSome = true

/-- **Recording never panics exactly when the sums fit**: under no key may the durations add up to
more than `Duration::MAX`, nor the thresholds. -/
theorem Task.neverPanics_iff (taskId : ℕ) (label : String) (completionLevel : Level)
    (shouldLogCompletion : Bool) (calls : List Recording) :
    (Task.new taskId label completionLevel shouldLogCompletion).NeverPanics calls ↔
      Recording.Fits calls := by
  have hrun : ∀ before,
      ((Task.new taskId label completionLevel shouldLogCompletion).run before).Tracks before :=
    fun before => (Task.Tracks.new taskId label completionLevel shouldLogCompletion).run before
  constructor
  · intro h
    exact (hrun calls).fits ((Task.drop_isSome_iff [] []).mp (h.drop [] []))
  · intro hfits
    have hreturned : ∀ before call after, calls = before ++ call :: after →
        (((Task.new taskId label completionLevel shouldLogCompletion).run before).record
          call).returned = true := by
      intro before call after hcalls
      have hwhole : Recording.Fits (before ++ [call] ++ after) := by
        rwa [List.append_assoc, List.singleton_append, ← hcalls]
      exact (hrun before).returned hwhole.of_append
    refine ⟨hreturned, ?_, ?_, ?_⟩
    · intro before interval endTime after hcalls hscale initial loggers
      exact interval.drop_isSome _ endTime initial loggers (hreturned _ _ _ hcalls) hscale
    · intro before interval endTime after hcalls initial loggers context site writes hrecord
      exact interval.dropOn_isSome _ endTime initial loggers hrecord (hreturned _ _ _ hcalls)
    · intro order loggers
      rw [Task.drop_isSome_iff, ← Bool.not_eq_true, (hrun calls).poisoned_iff]
      exact not_not.mpr hfits

/-- Two intervals that are never to warn. -/
def neverWarned : List Recording :=
  [.intervalIf "query" (Duration.ofNanos 1) (Duration.ofNanos maxDuration),
    .intervalIf "query" (Duration.ofNanos 1) (Duration.ofNanos maxDuration)]

theorem neverWarned_panics :
    ¬ (Task.new 0 "main" .info true).NeverPanics neverWarned ∧
      ((Task.new 0 "main" .info true).run neverWarned).drop [] [.privateParts] = none := by
  have hpoisoned : ((Task.new 0 "main" .info true).run neverWarned).poisoned = true := by decide
  refine ⟨fun h => ?_, ?_⟩
  · have hsome := (Task.drop_isSome_iff [] []).mp (h.drop [] [])
    exact absurd (hpoisoned.symm.trans hsome) (by decide)
  · rw [Task.drop, if_pos hpoisoned]

end Logwise.Legacy
