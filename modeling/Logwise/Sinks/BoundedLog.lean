import Logwise.Sinks.InMemory
import Logwise.Library.Backlog
import Logwise.Library.Transition

/-!
# The in-memory sink as a bounded log

What was drained and what is retained are the accepted events, in order, but for those overwritten.
-/

namespace Logwise.InMemorySink

/-- What an emission does to the sink. -/
inductive Emits (owned : OwnedProjectedEvent) (sink : InMemorySink) : InMemorySink → Prop where
  | dropped (stats : SinkStats) (hdropped : stats.dropped = sink.stats.dropped + 1)
    (haccepted : stats.accepted = sink.stats.accepted)
    (hoverwritten : stats.overwritten = sink.stats.overwritten) :
    Emits owned sink { sink with stats := stats }
  | entered (stats : SinkStats) (hroom : sink.records.length ≠ sink.capacity)
    (hdropped : stats.dropped = sink.stats.dropped)
    (haccepted : stats.accepted = sink.stats.accepted + 1)
    (hoverwritten : stats.overwritten = sink.stats.overwritten) :
    Emits owned sink { sink with records := sink.records ++ [owned], stats := stats }
  | overwrote (stats : SinkStats) (oldest : OwnedProjectedEvent) (rest : List OwnedProjectedEvent)
    (hrecords : sink.records = oldest :: rest) (hfull : sink.records.length = sink.capacity)
    (hpolicy : sink.overflow = .overwriteOldest) (hdropped : stats.dropped = sink.stats.dropped)
    (haccepted : stats.accepted = sink.stats.accepted + 1)
    (hoverwritten : stats.overwritten = sink.stats.overwritten + 1) :
    Emits owned sink { sink with records := rest ++ [owned], stats := stats }

theorem emits_emit (event : ProjectedEvent) (contended : Bool) (sink : InMemorySink) :
    Emits (OwnedProjectedEvent.copyFrom event sink.maxStringBytes) sink
      (sink.emit event contended) := by
  unfold emit
  split
  · exact .dropped _ rfl rfl rfl
  next hcap =>
    dsimp only
    split
    · exact .dropped _ rfl rfl rfl
    · split
      next hfull =>
        split
        next => exact .dropped _ rfl rfl rfl
        next hpolicy =>
          -- a full sink with room for anything holds something
          cases hrecords : sink.records with
          | nil =>
            rw [hrecords] at hfull
            exact absurd hfull.symm hcap
          | cons oldest rest => exact .overwrote _ oldest rest hrecords hfull hpolicy rfl rfl rfl
      next hroom => exact .entered _ hroom rfl rfl rfl

/-- The sink, the calls of `emit` made on it, the batches `drain` returned, and the log of the
events it has accepted and of those it has overwritten, as its counters tell. -/
structure Watched where
  sink : InMemorySink
  emits : ℕ
  drained : List (List OwnedProjectedEvent)
  log : Backlog OwnedProjectedEvent

def Watched.initial (capacity maxStringBytes : ℕ) (overflow : OverflowPolicy) : Watched :=
  { sink := new capacity maxStringBytes overflow, emits := 0, drained := [], log := {} }

/-- The log after an emission: the oldest undrained event is overwritten, the new one accepted. -/
def observe (owned : OwnedProjectedEvent) (before after : SinkStats)
    (log : Backlog OwnedProjectedEvent) : Backlog OwnedProjectedEvent :=
  let log := if before.overwritten < after.overwritten then log.overwrite else log
  if before.accepted < after.accepted then log.enter owned else log

inductive Call where
  | emit (event : ProjectedEvent) (contended : Bool)
  | drain
  deriving DecidableEq

def watch (w : Watched) : Call → Option Watched
  | .emit event contended =>
    let sink := w.sink.emit event contended
    some { w with
      sink := sink
      emits := w.emits + 1
      log := observe (OwnedProjectedEvent.copyFrom event w.sink.maxStringBytes) w.sink.stats
        sink.stats w.log }
  | .drain =>
    let (batch, sink) := w.sink.drain
    some { w with sink := sink, drained := w.drained ++ [batch], log := w.log.drain }

/-- What every run keeps. -/
structure Watched.Kept (w : Watched) (capacity maxStringBytes : ℕ) (overflow : OverflowPolicy) :
    Prop where
  capacity_eq : w.sink.capacity = capacity
  maxStringBytes_eq : w.sink.maxStringBytes = maxStringBytes
  overflow_eq : w.sink.overflow = overflow
  length_le : w.sink.records.length ≤ capacity
  agrees : w.log.Agrees w.drained w.sink.records
  policy : overflow = .dropNewest → w.log.overwritten = []
  completed : w.emits = w.sink.stats.accepted + w.sink.stats.dropped
  accepted : w.sink.stats.accepted = w.log.entered.length
  overwritten : w.sink.stats.overwritten = w.log.overwritten.length

theorem kept_initial (capacity maxStringBytes : ℕ) (overflow : OverflowPolicy) :
    (Watched.initial capacity maxStringBytes overflow).Kept capacity maxStringBytes overflow :=
  ⟨rfl, rfl, rfl, Nat.zero_le _, Backlog.agrees_empty, fun _ => rfl, rfl, rfl, rfl⟩

variable {w w' : Watched} {capacity maxStringBytes : ℕ} {overflow : OverflowPolicy}

theorem kept_emits {owned : OwnedProjectedEvent} {sink : InMemorySink}
    (h : w.Kept capacity maxStringBytes overflow) (hs : Emits owned w.sink sink) :
    Watched.Kept { w with
      sink := sink
      emits := w.emits + 1
      log := observe owned w.sink.stats sink.stats w.log } capacity maxStringBytes overflow := by
  cases hs with
  | dropped stats hdropped haccepted hoverwritten =>
    have hlog : observe owned w.sink.stats stats w.log = w.log := by
      simp [observe, haccepted, hoverwritten]
    have hcompleted : w.emits + 1 = stats.accepted + stats.dropped := by
      rw [h.completed, haccepted, hdropped]
      rfl
    rw [hlog]
    exact ⟨h.capacity_eq, h.maxStringBytes_eq, h.overflow_eq, h.length_le, h.agrees, h.policy,
      hcompleted, haccepted.trans h.accepted, hoverwritten.trans h.overwritten⟩
  | entered stats hroom hdropped haccepted hoverwritten =>
    have hlog : observe owned w.sink.stats stats w.log = w.log.enter owned := by
      simp [observe, haccepted, hoverwritten]
    have hlength : (w.sink.records ++ [owned]).length ≤ capacity := by
      rw [List.length_append]
      exact lt_of_le_of_ne h.length_le (h.capacity_eq ▸ hroom)
    have hcompleted : w.emits + 1 = stats.accepted + stats.dropped := by
      rw [h.completed, haccepted, hdropped]
      omega
    have hentered : stats.accepted = (w.log.entered ++ [owned]).length := by
      rw [haccepted, h.accepted, List.length_append]
      rfl
    rw [hlog]
    exact ⟨h.capacity_eq, h.maxStringBytes_eq, h.overflow_eq, hlength, h.agrees.enter owned,
      h.policy, hcompleted, hentered, hoverwritten.trans h.overwritten⟩
  | overwrote stats oldest rest hrecords hfull hpolicy hdropped haccepted hoverwritten =>
    have hlog : observe owned w.sink.stats stats w.log = w.log.overwrite.enter owned := by
      simp [observe, haccepted, hoverwritten]
    have hagrees := h.agrees
    have hlength := h.length_le
    rw [hrecords] at hagrees hlength
    have hcompleted : w.emits + 1 = stats.accepted + stats.dropped := by
      rw [h.completed, haccepted, hdropped]
      omega
    have hentered : stats.accepted = (w.log.entered ++ [owned]).length := by
      rw [haccepted, h.accepted, List.length_append]
      rfl
    have hlost : stats.overwritten = (w.log.overwritten ++ [w.log.front]).length := by
      rw [hoverwritten, h.overwritten, List.length_append]
      rfl
    rw [hlog]
    refine ⟨h.capacity_eq, h.maxStringBytes_eq, h.overflow_eq, ?_, hagrees.overwrite.enter owned,
      fun hdrop => ?_, hcompleted, hentered, hlost⟩
    · rw [List.length_append]
      exact hlength
    · rw [← h.overflow_eq, hpolicy] at hdrop
      cases hdrop

theorem kept_watch {call : Call} (h : w.Kept capacity maxStringBytes overflow)
    (hs : watch w call = some w') : w'.Kept capacity maxStringBytes overflow := by
  cases call with
  | emit event contended =>
    cases hs
    exact kept_emits h (emits_emit event contended w.sink)
  | drain =>
    cases hs
    exact ⟨h.capacity_eq, h.maxStringBytes_eq, h.overflow_eq, Nat.zero_le _, h.agrees.drain, h.policy,
      h.completed, h.accepted, h.overwritten⟩

/-- **A faithful bounded log**: what was drained, followed by what is retained, is what was accepted
but for what was overwritten, and what an emission overwrites is the oldest of what is retained. -/
theorem in_memory_log (capacity maxStringBytes : ℕ) (overflow : OverflowPolicy) (w : Watched)
    (hrun : Transition.Reaches watch Transition.always
      (Watched.initial capacity maxStringBytes overflow) w) :
    w.sink.records.length ≤ capacity ∧
    w.drained.flatten ++ w.sink.records = w.log.survivors ∧
    (∀ event contended, (w.sink.emit event contended).stats.overwritten ≠ w.sink.stats.overwritten →
      ∃ oldest rest, w.sink.records = oldest :: rest ∧
        w.log.entered[w.log.front]? = some oldest ∧ w.drained.flatten = w.log.gone ∧
        (w.sink.emit event contended).records =
          rest ++ [OwnedProjectedEvent.copyFrom event maxStringBytes]) ∧
    (overflow = .dropNewest → w.log.overwritten = []) ∧
    w.sink.stats.accepted = w.log.entered.length ∧
    w.sink.stats.overwritten = w.log.overwritten.length ∧
    w.emits = w.sink.stats.accepted + w.sink.stats.dropped ∧
    w.sink.stats.accepted =
      w.drained.flatten.length + w.sink.records.length + w.sink.stats.overwritten := by
  have h : w.Kept capacity maxStringBytes overflow :=
    hrun.invariant (I := fun w => w.Kept capacity maxStringBytes overflow)
      (fun _ _ _ h _ hs => kept_watch h hs) (kept_initial ..)
  refine ⟨h.length_le, h.agrees.log, fun event contended hmore => ?_, h.policy, h.accepted,
    h.overwritten, h.completed, ?_⟩
  · have hemits := emits_emit event contended w.sink
    rw [h.maxStringBytes_eq] at hemits
    revert hmore hemits
    generalize w.sink.emit event contended = sink'
    intro hmore hemits
    cases hemits with
    | dropped stats hdropped haccepted hoverwritten => exact absurd hoverwritten hmore
    | entered stats hroom hdropped haccepted hoverwritten => exact absurd hoverwritten hmore
    | overwrote stats oldest rest hrecords hfull hpolicy hdropped haccepted hoverwritten =>
      have hagrees := h.agrees
      rw [hrecords] at hagrees
      exact ⟨oldest, rest, hrecords, hagrees.oldest.1, h.agrees.drained_eq, rfl⟩
  · rw [h.accepted, h.overwritten]
    exact h.agrees.length

/-- Three emissions on a sink with room for two, a read, and one more that finds the sink locked. -/
theorem in_memory_log_overwritten : ∃ w,
    Transition.Reaches watch Transition.always (Watched.initial 2 64 .overwriteOldest) w ∧
      w.log.overwritten = [0] ∧ w.drained.flatten.length = 2 ∧ w.sink.stats.dropped = 1 ∧
      w.drained.flatten ++ w.sink.records = w.log.survivors := by
  obtain ⟨w, hrun, hoverwritten, hdrained, hdropped⟩ := Transition.exists_reaches watch
    Transition.always (Watched.initial 2 64 .overwriteOldest)
    (fun w => w.log.overwritten = [0] ∧ w.drained.flatten.length = 2 ∧ w.sink.stats.dropped = 1)
    [.emit bareEvent false, .emit bareEvent false, .emit bareEvent false, .drain,
      .emit bareEvent true] (by decide)
  obtain ⟨-, hlog, -⟩ := in_memory_log 2 64 .overwriteOldest w hrun
  exact ⟨w, hrun, hoverwritten, hdrained, hdropped, hlog⟩

end Logwise.InMemorySink
