import Logwise.Sinks.Owned

/-!
# Bounded in-memory sink

`InMemorySink` and the vocabulary it shares with the queued sink: overflow policies and the
loss counters. `contended` is `try_lock` finding the records locked.
-/

namespace Logwise

inductive OverflowPolicy where
  | dropNewest | overwriteOldest
  deriving DecidableEq, Repr

structure SinkStats where
  accepted : ℕ := 0
  dropped : ℕ := 0
  overwritten : ℕ := 0
  truncated : ℕ := 0
  writeErrors : ℕ := 0
  deriving DecidableEq, Repr

namespace SinkStats

def countDropped (stats : SinkStats) : SinkStats := { stats with dropped := stats.dropped + 1 }

def countAccepted (stats : SinkStats) : SinkStats := { stats with accepted := stats.accepted + 1 }

def countOverwritten (stats : SinkStats) : SinkStats :=
  { stats with overwritten := stats.overwritten + 1 }

def countTruncated (fields : ℕ) (stats : SinkStats) : SinkStats :=
  { stats with truncated := stats.truncated + fields }

def countWriteError (stats : SinkStats) : SinkStats :=
  { stats with writeErrors := stats.writeErrors + 1 }

end SinkStats

structure InMemorySink where
  capacity : ℕ
  maxStringBytes : ℕ
  overflow : OverflowPolicy
  records : List OwnedProjectedEvent
  stats : SinkStats

namespace InMemorySink

/-- Where `capacity` records cannot be allocated the source panics, and there is no sink. -/
def new (capacity maxStringBytes : ℕ) (overflow : OverflowPolicy) : InMemorySink :=
  { capacity := capacity, maxStringBytes := maxStringBytes, overflow := overflow
    records := [], stats := {} }

def drain (sink : InMemorySink) : List OwnedProjectedEvent × InMemorySink :=
  (sink.records, { sink with records := [] })

def emit (event : ProjectedEvent) (contended : Bool) (sink : InMemorySink) : InMemorySink :=
  if sink.capacity = 0 then { sink with stats := sink.stats.countDropped }
  else
    let owned := OwnedProjectedEvent.copyFrom event sink.maxStringBytes
    let sink := { sink with stats := sink.stats.countTruncated owned.truncatedFields }
    if contended then { sink with stats := sink.stats.countDropped }
    else if sink.records.length = sink.capacity then
      match sink.overflow with
      | .dropNewest => { sink with stats := sink.stats.countDropped }
      | .overwriteOldest =>
        { sink with
          records := sink.records.tail ++ [owned]
          stats := sink.stats.countOverwritten.countAccepted }
    else { sink with records := sink.records ++ [owned], stats := sink.stats.countAccepted }

/-- Everything retained after an emission was retained before or is the copy of its event. -/
theorem mem_records_emit {event : ProjectedEvent} {contended : Bool} {sink : InMemorySink}
    {record : OwnedProjectedEvent} (h : record ∈ (sink.emit event contended).records) :
    record ∈ sink.records ∨ record = OwnedProjectedEvent.copyFrom event sink.maxStringBytes := by
  unfold emit at h
  split at h
  · exact Or.inl h
  dsimp only at h
  split at h
  · exact Or.inl h
  split at h
  · split at h
    · exact Or.inl h
    · obtain hold | hnew := List.mem_append.mp h
      · exact Or.inl (List.mem_of_mem_tail hold)
      · exact Or.inr (List.mem_singleton.mp hnew)
  · obtain hold | hnew := List.mem_append.mp h
    · exact Or.inl hold
    · exact Or.inr (List.mem_singleton.mp hnew)

/-- The sink keeps what it is handed. -/
def keeps (contended : Bool) (sink : InMemorySink) : Bool :=
  sink.capacity ≠ 0 && !contended &&
    (sink.records.length ≠ sink.capacity || sink.overflow = .overwriteOldest)

theorem keeps_iff {contended : Bool} {sink : InMemorySink} : sink.keeps contended = true ↔
    sink.capacity ≠ 0 ∧ contended = false ∧
      (sink.records.length = sink.capacity → sink.overflow = .overwriteOldest) := by
  simp [keeps, and_assoc, or_iff_not_imp_left]

theorem copy_mem_records_emit {event : ProjectedEvent} {contended : Bool} {sink : InMemorySink}
    (h : sink.keeps contended = true) :
    OwnedProjectedEvent.copyFrom event sink.maxStringBytes ∈ (sink.emit event contended).records := by
  obtain ⟨hcap, rfl, hroom⟩ := keeps_iff.mp h
  unfold emit
  rw [if_neg hcap]
  dsimp only
  rw [if_neg Bool.false_ne_true]
  split
  next hfull =>
    rw [hroom hfull]
    exact List.mem_append_right _ (List.mem_singleton.mpr rfl)
  next => exact List.mem_append_right _ (List.mem_singleton.mpr rfl)

theorem records_emit_of_not_keeps {event : ProjectedEvent} {contended : Bool} {sink : InMemorySink}
    (h : ¬ sink.keeps contended = true) : (sink.emit event contended).records = sink.records := by
  unfold emit
  split
  · rfl
  next hcap =>
    dsimp only
    split
    · rfl
    next hfree =>
      have hroom : sink.records.length = sink.capacity ∧ sink.overflow ≠ .overwriteOldest := by
        by_contra hroom
        refine h (keeps_iff.mpr ⟨hcap, Bool.eq_false_of_not_eq_true hfree, fun hfull => ?_⟩)
        by_contra hpolicy
        exact hroom ⟨hfull, hpolicy⟩
      rw [if_pos hroom.1]
      split
      · rfl
      next hpolicy => exact absurd hpolicy hroom.2

end InMemorySink

end Logwise
