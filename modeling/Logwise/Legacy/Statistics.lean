import Logwise.Legacy.DurationText
import Logwise.Legacy.Task
import Mathlib.Algebra.Order.BigOperators.Group.List

/-!
# What a task reports of its conditional intervals

An interval that exceeds its threshold is to be in the statistics of its task (`PerfwarnIntervalIf`,
`interval.rs`), one that does not is not. `Task::drop` (`context/task.rs`) compares sums: how long
all intervals of a key took, and how long all of them were given.
-/

namespace Logwise.Legacy

/-- A statistic: a key and a sum. -/
abbrev Statistic := Sigma fun _ : String => Duration

/-- The text of a sum. -/
def Statistic.text (statistic : Statistic) : String := ": " ++ debugDuration statistic.2.1

/-- The statistics that are logged. -/
def keptStatistics (thresholds : Tally.Totals String maxDuration) (order : List Statistic) :
    List Statistic :=
  order.filter fun statistic => !Task.skipped thresholds statistic

/-- The parts of the statistics that follow another. -/
def furtherParts (statistics : List Statistic) : List String :=
  statistics.flatMap fun statistic => [", ", statistic.1, statistic.text]

def statisticParts : List Statistic → List String
  | [] => []
  | statistic :: rest => statistic.1 :: statistic.text :: furtherParts rest

section Walk

variable (thresholds : Tally.Totals String maxDuration)

/-- The walk behind a first statistic. -/
theorem foldl_logStatistic_further (order : List Statistic) (record : LogRecord) :
    order.foldl (Task.logStatistic thresholds) (record, false) =
      (record.appendVariants (furtherParts (keptStatistics thresholds order))
        (furtherParts (keptStatistics thresholds order)), false) := by
  induction order generalizing record with
  | nil => simp [keptStatistics, furtherParts, LogRecord.appendVariants]
  | cons statistic order ih =>
    rw [List.foldl_cons, Task.logStatistic]
    cases hskipped : Task.skipped thresholds statistic with
    | true => simp [ih, keptStatistics, hskipped]
    | false =>
      simp [ih, keptStatistics, hskipped, furtherParts, LogRecord.log, LogRecord.logOwned,
        LogRecord.appendVariants, Statistic.text]

/-- The whole walk. -/
theorem foldl_logStatistic (order : List Statistic) (record : LogRecord) :
    order.foldl (Task.logStatistic thresholds) (record, true) =
      (record.appendVariants (statisticParts (keptStatistics thresholds order))
        (statisticParts (keptStatistics thresholds order)),
        decide (keptStatistics thresholds order = [])) := by
  induction order generalizing record with
  | nil => simp [keptStatistics, statisticParts, LogRecord.appendVariants]
  | cons statistic order ih =>
    rw [List.foldl_cons, Task.logStatistic]
    cases hskipped : Task.skipped thresholds statistic with
    | true => simp [ih, keptStatistics, hskipped]
    | false =>
      simp [foldl_logStatistic_further, keptStatistics, hskipped, statisticParts, LogRecord.log,
        LogRecord.logOwned, LogRecord.appendVariants, Statistic.text]

end Walk

/-- The parts of the whole record. -/
def Task.statisticsParts (task : Task) (order : List Statistic) : List String :=
  (toString task.taskId ++ " ") :: "PERFWARN: statistics[" ::
    (statisticParts (keptStatistics task.mutable.intervalThresholds order) ++ ["]"])

/-- The record is logged when something is in it. -/
theorem statistics_eq {task : Task} {order : List Statistic}
    (horder : (order : Multiset Statistic) = task.mutable.intervalStatistics.entries) :
    task.statistics order =
      if keptStatistics task.mutable.intervalThresholds order = [] then none
      else
        some
          { parts := task.statisticsParts order
            redactedParts := task.statisticsParts order
            level := .perfWarn } := by
  rw [Task.statistics]
  split
  next hempty =>
    have hnil : order = [] := by
      rw [hempty] at horder
      exact (Multiset.coe_eq_zero order).mp horder
    simp [hnil, keptStatistics]
  next =>
    simp only [foldl_logStatistic]
    by_cases hkept : keptStatistics task.mutable.intervalThresholds order = []
    · simp [hkept]
    · simp [hkept, LogRecord.new, LogRecord.log, LogRecord.logOwned, LogRecord.appendVariants,
        Task.statisticsParts]

/-- A statistic of the record: a key, and behind it the sum. -/
def LogRecord.Mentions (record : LogRecord) (key shown : String) : Prop :=
  ∃ i, record.parts[3 * i + 2]? = some key ∧ record.parts[3 * i + 3]? = some shown

/-- Every third part is a key. -/
theorem statisticParts_getElem? (statistics : List Statistic) (hnil : statistics ≠ []) (i : ℕ) :
    (statisticParts statistics ++ ["]"])[3 * i]? = statistics[i]?.map Sigma.fst ∧
      (statisticParts statistics ++ ["]"])[3 * i + 1]? = statistics[i]?.map Statistic.text := by
  induction statistics generalizing i with
  | nil => exact absurd rfl hnil
  | cons statistic rest ih =>
    cases i with
    | zero => simp [statisticParts]
    | succ i =>
      have hi : 3 * (i + 1) = 3 * i + 3 := by ring
      cases rest with
      | nil => simp [statisticParts, furtherParts, hi]
      | cons next rest =>
        have hshift : statisticParts (statistic :: next :: rest) =
            statistic.1 :: statistic.text :: ", " :: statisticParts (next :: rest) := by
          simp [statisticParts, furtherParts]
        have hrest := ih (List.cons_ne_nil next rest) i
        rw [hi, hshift]
        simpa using hrest

/-- The record mentions what was kept. -/
theorem mentions_statisticsParts_iff {task : Task} {order : List Statistic}
    (hkept : keptStatistics task.mutable.intervalThresholds order ≠ [])
    (redactedParts : List String) (level : Level) {key shown : String} :
    LogRecord.Mentions
        { parts := task.statisticsParts order, redactedParts := redactedParts, level := level }
        key shown ↔
      ∃ statistic ∈ keptStatistics task.mutable.intervalThresholds order,
        statistic.1 = key ∧ statistic.text = shown := by
  have hparts := statisticParts_getElem? _ hkept
  constructor
  · rintro ⟨i, hkey, hshown⟩
    have hkey' := (hparts i).1.symm.trans hkey
    have hshown' := (hparts i).2.symm.trans hshown
    obtain ⟨statistic, hstatistic, rfl⟩ := Option.map_eq_some_iff.mp hkey'
    refine ⟨statistic, List.mem_of_getElem? hstatistic, rfl, ?_⟩
    rw [hstatistic] at hshown'
    exact Option.some.inj hshown'
  · rintro ⟨statistic, hmem, rfl, rfl⟩
    obtain ⟨i, hi⟩ := List.mem_iff_getElem?.mp hmem
    refine ⟨i, (hparts i).1.trans ?_, (hparts i).2.trans ?_⟩
    · rw [hi]
      rfl
    · rw [hi]
      rfl

/-- How long a conditional interval took, and how long it was given. -/
structure Completion where
  duration : Duration
  threshold : Duration
  deriving DecidableEq

/-- The interval exceeded its threshold. -/
def Completion.slow (completion : Completion) : Bool :=
  decide (completion.threshold.1 < completion.duration.1)

/-- The conditional intervals that were recorded under a key. -/
def Recording.completions (key : String) (calls : List Recording) : List Completion :=
  calls.filterMap fun call =>
    if call.key = key then
      call.threshold?.map fun threshold => { duration := call.duration, threshold := threshold }
    else none

/-- The key is used only by conditional intervals. -/
def Recording.Conditional (key : String) (calls : List Recording) : Prop :=
  ∀ call ∈ calls, call.key = key → call.threshold?.isSome = true

/-- How long they took together. -/
def durationSum (completions : List Completion) : ℕ :=
  (completions.map fun completion => completion.duration.1).sum

/-- How long they were given together. -/
def thresholdSum (completions : List Completion) : ℕ :=
  (completions.map fun completion => completion.threshold.1).sum

/-- By how much they exceeded their thresholds. -/
def excess (completions : List Completion) : ℕ :=
  (completions.map fun completion => completion.duration.1 - completion.threshold.1).sum

section Totals

open Recording

variable {key : String} {calls : List Recording}

theorem total_thresholds (key : String) (calls : List Recording) :
    Tally.total key (thresholds calls) = thresholdSum (completions key calls) := by
  induction calls with
  | nil => rfl
  | cons call calls ih =>
    cases call with
    | interval key' duration => simpa [thresholds, completions, threshold?] using ih
    | intervalIf key' duration threshold =>
      by_cases hkey : key' = key
      · simpa [thresholds, completions, threshold?, Recording.key, hkey, thresholdSum, Tally.total]
          using ih
      · simpa [thresholds, completions, threshold?, Recording.key, hkey, thresholdSum, Tally.total]
          using ih

theorem total_durations (h : Conditional key calls) :
    Tally.total key (durations calls) = durationSum (completions key calls) := by
  induction calls with
  | nil => rfl
  | cons call calls ih =>
    obtain ⟨hcall, hcalls⟩ := List.forall_mem_cons.mp h
    have hrest := ih hcalls
    by_cases hkey : call.key = key
    · obtain ⟨threshold, hthreshold⟩ := Option.isSome_iff_exists.mp (hcall hkey)
      simpa [durations, completions, hkey, hthreshold, durationSum, Tally.total] using hrest
    · simpa [durations, completions, hkey, durationSum, Tally.total] using hrest

theorem mem_thresholds_of_mem_durations (h : Conditional key calls)
    (hmem : key ∈ (durations calls).map Prod.fst) : key ∈ (thresholds calls).map Prod.fst := by
  simp only [durations, List.map_map, List.mem_map, Function.comp_apply] at hmem
  obtain ⟨call, hcall, hkey⟩ := hmem
  obtain ⟨threshold, hthreshold⟩ := Option.isSome_iff_exists.mp (h call hcall hkey)
  refine List.mem_map.mpr ⟨(key, threshold), List.mem_filterMap.mpr ⟨call, hcall, ?_⟩, rfl⟩
  rw [hthreshold, hkey]
  rfl

/-- The statistics of a key that is used only by conditional intervals: the sums decide, and the
sum of all durations is shown. -/
theorem mem_keptStatistics_iff {task : Task} {order : List Statistic} {shown : String}
    (htracks : task.Tracks calls) (hfits : Recording.Fits calls) (h : Conditional key calls)
    (horder : (order : Multiset Statistic) = task.mutable.intervalStatistics.entries) :
    (∃ statistic ∈ keptStatistics task.mutable.intervalThresholds order,
        statistic.1 = key ∧ statistic.text = shown) ↔
      thresholdSum (completions key calls) < durationSum (completions key calls) ∧
        shown = ": " ++ debugDuration (durationSum (completions key calls)) := by
  have hpoisoned : task.poisoned = false := by
    rw [← Bool.not_eq_true, htracks.poisoned_iff]
    exact not_not.mpr hfits
  have hstatistics := htracks.statistics hpoisoned
  have hthresholds := htracks.thresholds hpoisoned
  have hlookup : ∀ sum : Duration,
      (⟨key, sum⟩ : Statistic) ∈ order ↔ task.mutable.intervalStatistics.lookup key = some sum := by
    intro sum
    rw [← Multiset.mem_coe, horder]
    exact Finmap.mem_lookup_iff.symm
  rw [← total_durations h, ← total_thresholds key calls]
  constructor
  · rintro ⟨⟨key', sum⟩, hmem, hkey, rfl⟩
    obtain rfl : key' = key := hkey
    obtain ⟨hmem, hkept⟩ := List.mem_filter.mp hmem
    have hsum := (hlookup sum).mp hmem
    have hrecorded : key' ∈ (durations calls).map Prod.fst := by
      by_contra hnot
      have hnone := hstatistics key'
      rw [hsum, if_neg hnot] at hnone
      cases hnone
    obtain ⟨threshold, hthreshold, htotal⟩ :=
      hthresholds.lookup_eq (mem_thresholds_of_mem_durations h hrecorded)
    simp only [Task.skipped, hthreshold, Bool.not_eq_true', decide_eq_false_iff_not,
      Nat.not_le] at hkept
    rw [← hstatistics.lookup_some hsum, ← htotal]
    exact ⟨hkept, rfl⟩
  · rintro ⟨hlt, rfl⟩
    have hrecorded : key ∈ (durations calls).map Prod.fst := by
      by_contra hnot
      rw [Tally.total_eq_zero_of_notMem hnot] at hlt
      exact absurd hlt (Nat.not_lt_zero _)
    obtain ⟨sum, hsum, htotal⟩ := hstatistics.lookup_eq hrecorded
    obtain ⟨threshold, hthreshold, htotal'⟩ :=
      hthresholds.lookup_eq (mem_thresholds_of_mem_durations h hrecorded)
    refine ⟨⟨key, sum⟩, List.mem_filter.mpr ⟨(hlookup sum).mpr hsum, ?_⟩, rfl, ?_⟩
    · simp only [Task.skipped, hthreshold, Bool.not_eq_true', decide_eq_false_iff_not, Nat.not_le]
      rwa [htotal, htotal']
    · rw [Statistic.text, htotal]

end Totals

section Sums

variable (completions : List Completion)

theorem sum_filter_slow (f : Completion → ℕ) :
    (completions.map f).sum =
      ((completions.filter Completion.slow).map f).sum +
        ((completions.filter fun completion => !completion.slow).map f).sum := by
  rw [← List.sum_append, ← List.map_append]
  exact ((List.filter_append_perm Completion.slow completions).map f).sum_eq.symm

/-- Intervals that all exceeded their thresholds. -/
theorem durationSum_of_slow (h : ∀ completion ∈ completions, completion.slow = true) :
    durationSum completions = thresholdSum completions + excess completions := by
  induction completions with
  | nil => rfl
  | cons completion completions ih =>
    obtain ⟨hslow, hrest⟩ := List.forall_mem_cons.mp h
    have hlt : completion.threshold.1 < completion.duration.1 := of_decide_eq_true hslow
    have hsum := ih hrest
    simp only [durationSum, thresholdSum, excess, List.map_cons, List.sum_cons] at hsum ⊢
    omega

/-- Intervals of which none did. -/
theorem durationSum_le_of_not_slow (h : ∀ completion ∈ completions, completion.slow = false) :
    durationSum completions ≤ thresholdSum completions := by
  refine List.sum_le_sum fun completion hmem => ?_
  exact Nat.le_of_not_lt (of_decide_eq_false (h completion hmem))

theorem durationSum_eq_zero_iff :
    durationSum completions = 0 ↔ ∀ completion ∈ completions, completion.duration.1 = 0 := by
  rw [durationSum, List.sum_eq_zero_iff]
  exact List.forall_mem_map

end Sums

/-- The intervals that exceeded their thresholds, and those that did not. -/
def slowOnes (completions : List Completion) : List Completion :=
  completions.filter Completion.slow

def fastOnes (completions : List Completion) : List Completion :=
  completions.filter fun completion => !completion.slow

/-- What the statistics are to say of a key: it is mentioned when one of its intervals exceeded its
threshold, and with how long those that did took. -/
structure Reports (logged : Option LogRecord) (key : String) (completions : List Completion) :
    Prop where
  mentioned : (∃ record ∈ logged, ∃ shown, record.Mentions key shown) ↔
    ∃ completion ∈ completions, completion.slow = true
  shown : ∀ record ∈ logged, ∀ shown, record.Mentions key shown →
    shown = ": " ++ debugDuration (durationSum (slowOnes completions))

/-- Either no interval exceeded its threshold; or those that did not took no time at all, and were
given less than the others exceeded theirs by. -/
def Unmixed (completions : List Completion) : Prop :=
  (∀ completion ∈ completions, completion.slow = false) ∨
    (∀ completion ∈ fastOnes completions, completion.duration.1 = 0) ∧
      thresholdSum (fastOnes completions) < excess (slowOnes completions)

section

open Recording

variable {key : String} {calls : List Recording} {task : Task} {order : List Statistic}

/-- What the record says of the key, to either kind of logger. -/
theorem logged_mentions_iff (htracks : task.Tracks calls) (hfits : Recording.Fits calls)
    (h : Conditional key calls)
    (horder : (order : Multiset Statistic) = task.mutable.intervalStatistics.entries)
    (privacy : LogPrivacy) (shown : String) :
    (∃ record ∈ (task.statistics order).map fun record => record.cloneForLogger privacy,
        record.Mentions key shown) ↔
      thresholdSum (completions key calls) < durationSum (completions key calls) ∧
        shown = ": " ++ debugDuration (durationSum (completions key calls)) := by
  rw [← mem_keptStatistics_iff htracks hfits h horder, statistics_eq horder]
  by_cases hkept : keptStatistics task.mutable.intervalThresholds order = []
  · simp [hkept]
  · rw [if_neg hkept, ← mentions_statisticsParts_iff hkept (task.statisticsParts order) .perfWarn]
    cases privacy <;> simp [LogRecord.cloneForLogger]

theorem logged_mentions_exists_iff (htracks : task.Tracks calls) (hfits : Recording.Fits calls)
    (h : Conditional key calls)
    (horder : (order : Multiset Statistic) = task.mutable.intervalStatistics.entries)
    (privacy : LogPrivacy) :
    (∃ record ∈ (task.statistics order).map fun record => record.cloneForLogger privacy,
        ∃ shown, record.Mentions key shown) ↔
      thresholdSum (completions key calls) < durationSum (completions key calls) := by
  have hmentions := logged_mentions_iff htracks hfits h horder privacy
  constructor
  · rintro ⟨record, hrecord, shown, hmention⟩
    exact ((hmentions shown).mp ⟨record, hrecord, hmention⟩).1
  · intro hlt
    obtain ⟨record, hrecord, hmention⟩ := (hmentions _).mpr ⟨hlt, rfl⟩
    exact ⟨record, hrecord, _, hmention⟩

end

theorem durationSum_split (completions : List Completion) :
    durationSum completions =
      durationSum (slowOnes completions) + durationSum (fastOnes completions) :=
  sum_filter_slow completions _

theorem thresholdSum_split (completions : List Completion) :
    thresholdSum completions =
      thresholdSum (slowOnes completions) + thresholdSum (fastOnes completions) :=
  sum_filter_slow completions _

/-- The comparison of the sums, in terms of the intervals. -/
theorem thresholdSum_lt_iff (completions : List Completion) :
    thresholdSum completions < durationSum completions ↔
      thresholdSum (fastOnes completions) <
        excess (slowOnes completions) + durationSum (fastOnes completions) := by
  have hslow := durationSum_of_slow (slowOnes completions) fun _ hmem => (List.mem_filter.mp hmem).2
  have hdurations := durationSum_split completions
  have hthresholds := thresholdSum_split completions
  omega

/-- The sums serve when the intervals are not mixed, and only then. -/
theorem unmixed_iff (completions : List Completion) :
    ((thresholdSum completions < durationSum completions ↔
          ∃ completion ∈ completions, completion.slow = true) ∧
        (thresholdSum completions < durationSum completions →
          durationSum completions = durationSum (slowOnes completions))) ↔
      Unmixed completions := by
  have hsplit := durationSum_split completions
  constructor
  · rintro ⟨hmentioned, hshown⟩
    by_cases hexists : ∃ completion ∈ completions, completion.slow = true
    · have hlt := hmentioned.mpr hexists
      have hzero : durationSum (fastOnes completions) = 0 := by
        have hsame := hshown hlt
        omega
      refine Or.inr ⟨(durationSum_eq_zero_iff _).mp hzero, ?_⟩
      rwa [thresholdSum_lt_iff, hzero, Nat.add_zero] at hlt
    · refine Or.inl fun completion hmem => ?_
      by_contra hslow
      exact hexists ⟨completion, hmem, (Bool.not_eq_false _).mp hslow⟩
  · rintro (hfast | ⟨hzero, hlt⟩)
    · have hle := durationSum_le_of_not_slow completions hfast
      refine ⟨iff_of_false (Nat.not_lt.mpr hle) ?_, fun hlt => absurd hle (Nat.not_le.mpr hlt)⟩
      rintro ⟨completion, hmem, hslow⟩
      exact absurd (hslow.symm.trans (hfast completion hmem)) (by decide)
    · have hsum := (durationSum_eq_zero_iff _).mpr hzero
      have hlt' : thresholdSum completions < durationSum completions := by
        rw [thresholdSum_lt_iff, hsum, Nat.add_zero]
        exact hlt
      refine ⟨iff_of_true hlt' ?_, fun _ => by omega⟩
      by_contra hnone
      have hempty : slowOnes completions = [] := by
        rw [slowOnes, List.filter_eq_nil_iff]
        exact fun completion hmem hslow => hnone ⟨completion, hmem, hslow⟩
      rw [hempty] at hlt
      exact absurd hlt (Nat.not_lt_zero _)

/-- **The statistics report the intervals that exceeded their thresholds exactly when these are not
mixed with others**: the sums of durations and of thresholds are compared, not the intervals. -/
theorem Task.reports_iff (taskId : ℕ) (label : String) (completionLevel : Level)
    (shouldLogCompletion : Bool) (calls : List Recording) (key : String) (order : List Statistic)
    (privacy : LogPrivacy) (hfits : Recording.Fits calls)
    (hconditional : Recording.Conditional key calls)
    (horder : (order : Multiset Statistic) =
      ((Task.new taskId label completionLevel shouldLogCompletion).run
        calls).mutable.intervalStatistics.entries) :
    Reports
        ((((Task.new taskId label completionLevel shouldLogCompletion).run calls).statistics
          order).map fun record => record.cloneForLogger privacy)
        key (Recording.completions key calls) ↔
      Unmixed (Recording.completions key calls) := by
  have htracks : ((Task.new taskId label completionLevel shouldLogCompletion).run calls).Tracks
      calls := (Task.Tracks.new taskId label completionLevel shouldLogCompletion).run calls
  have hmentions := logged_mentions_iff htracks hfits hconditional horder privacy
  have hexists := logged_mentions_exists_iff htracks hfits hconditional horder privacy
  rw [← unmixed_iff]
  constructor
  · rintro ⟨hmentioned, hshown⟩
    refine ⟨hexists.symm.trans hmentioned, fun hlt => ?_⟩
    obtain ⟨record, hrecord, hmention⟩ := (hmentions _).mpr ⟨hlt, rfl⟩
    have htext := hshown record hrecord _ hmention
    exact debugDuration_injective ((String.append_right_inj _).mp htext)
  · rintro ⟨hmentioned, hshown⟩
    refine ⟨hexists.trans hmentioned, fun record hrecord shown hmention => ?_⟩
    obtain ⟨hlt, rfl⟩ := (hmentions shown).mp ⟨record, hrecord, hmention⟩
    rw [hshown hlt]

/-- A slow interval and one of another key. -/
def slowRun : List Recording :=
  [.intervalIf "query" (Duration.ofNanos 10) (Duration.ofNanos 1),
    .interval "render" (Duration.ofNanos 3)]

/-- A slow interval, and one that was given much time. -/
def mixedRun : List Recording :=
  [.intervalIf "query" (Duration.ofNanos 10) (Duration.ofNanos 1),
    .intervalIf "query" (Duration.ofNanos 2) (Duration.ofNanos 100)]

theorem fits_of_not_poisoned {calls : List Recording}
    (h : ((Task.new 0 "main" .info true).run calls).poisoned = false) : Recording.Fits calls :=
  ((Task.Tracks.new 0 "main" .info true).run calls).fits h

theorem Task.reports_slowRun :
    Reports
      ((((Task.new 0 "main" .info true).run slowRun).statistics
        [⟨"render", Duration.ofNanos 3⟩, ⟨"query", Duration.ofNanos 10⟩]).map fun record =>
          record.cloneForLogger .redacted)
      "query" (Recording.completions "query" slowRun) :=
  (Task.reports_iff 0 "main" .info true slowRun "query"
    [⟨"render", Duration.ofNanos 3⟩, ⟨"query", Duration.ofNanos 10⟩] .redacted
    (fits_of_not_poisoned (by decide)) (by unfold Recording.Conditional; decide) (by decide)).mpr
    (Or.inr ⟨by decide, by decide⟩)

theorem mixedRun_not_reported :
    Recording.Fits mixedRun ∧ Recording.Conditional "query" mixedRun ∧
      (([⟨"query", Duration.ofNanos 12⟩] : List Statistic) : Multiset Statistic) =
        ((Task.new 0 "main" .info true).run mixedRun).mutable.intervalStatistics.entries ∧
      ¬ Reports
        ((((Task.new 0 "main" .info true).run mixedRun).statistics
          [⟨"query", Duration.ofNanos 12⟩]).map fun record => record.cloneForLogger .privateParts)
        "query" (Recording.completions "query" mixedRun) := by
  refine ⟨fits_of_not_poisoned (by decide), by unfold Recording.Conditional; decide, by decide, ?_⟩
  intro h
  have hnone : ((Task.new 0 "main" .info true).run mixedRun).statistics
      [⟨"query", Duration.ofNanos 12⟩] = none := by decide
  obtain ⟨record, hrecord, -⟩ := h.mentioned.mpr
    ⟨⟨Duration.ofNanos 10, Duration.ofNanos 1⟩, by decide, by decide⟩
  rw [hnone] at hrecord
  cases hrecord

end Logwise.Legacy
