import Logwise.Sinks.Async.Calls
import Logwise.Sinks.FlightRecorder.Accounting

/-!
# What a retaining sink holds

An owned event anywhere in the queued sink or in the flight recorder was there before the step, or
is the copy of an event the sink was handed.
-/

namespace Logwise

namespace AsyncSink

variable {config : Config} {s s' : State} {owned : OwnedProjectedEvent}

def QueueSection.inHand : QueueSection → Option OwnedProjectedEvent
  | .emitTest _ owned | .emitLoadRequested _ owned | .emitLoadFlushed _ owned _
  | .emitSequence _ owned | .emitPush _ owned _ => some owned
  | _ => none

/-- Queued, or in the hands of a call of `emit`. -/
def State.Holds (s : State) (owned : OwnedProjectedEvent) : Prop :=
  (∃ e ∈ s.events, e.event = owned) ∨ .tryLock owned ∈ s.emits ∨ s.queueSection.inHand = some owned

/-- The event is about to be copied by a call of `emit` that does not drop it. -/
def State.Copies (config : Config) (s : State) (event : ProjectedEvent) : Prop :=
  .start event ∈ s.emits ∧ config.capacity ≠ 0 ∧ s.stopped = false

theorem holds_queueStep (hs : queueStep config s s.queueSection = some s') (h : s'.Holds owned) :
    s.Holds owned := by
  have hemits : ∀ {pc : EmitPc}, pc ≠ .notify → pc ≠ .done → pc ∈ s'.emits → pc ∈ s.emits := by
    intro pc hnotify hdone hm
    obtain ⟨he, -⟩ | ⟨i, new, -, -, hnew, he⟩ := (queueStep_frame hs).emits
    · exact he ▸ hm
    · rw [he] at hm
      refine (List.mem_or_eq_of_mem_set hm).resolve_right ?_
      rintro rfl
      obtain rfl | rfl := hnew
      · exact hdone rfl
      · exact hnotify rfl
  have htry : .tryLock owned ∈ s'.emits → s.Holds owned := fun hm =>
    Or.inr (Or.inl (hemits EmitPc.noConfusion EmitPc.noConfusion hm))
  obtain ⟨e, he, rfl⟩ | hm | hq := h
  · -- what is queued was queued, or is the record the holder has pushed
    cases hsection : s.queueSection with
    | emitPush i new sequence =>
      simp only [hsection, queueStep] at hs
      cases hs
      obtain hold | hnew := List.mem_append.mp he
      · exact Or.inl ⟨e, hold, rfl⟩
      · rw [List.mem_singleton.mp hnew]
        exact Or.inr (Or.inr (by rw [hsection]; rfl))
    | emitLoadFlushed i new requested =>
      simp only [hsection, queueStep] at hs
      split at hs
      · cases hs
        exact Or.inl ⟨e, he, rfl⟩
      · cases hs
        exact Or.inl ⟨e, List.mem_of_mem_tail he, rfl⟩
    | workerPop =>
      simp only [hsection, queueStep] at hs
      split at hs
      next queued events hev =>
        cases hs
        exact Or.inl ⟨e, hev ▸ List.mem_cons_of_mem _ he, rfl⟩
      next =>
        cases hs
        exact Or.inl ⟨e, he, rfl⟩
    | _ =>
      simp only [hsection, queueStep, reduceCtorEq] at hs
      try (split at hs <;> try split at hs)
      all_goals
        cases hs
        try exact Or.inl ⟨e, he, rfl⟩
  · exact htry hm
  · refine Or.inr (Or.inr ?_)
    cases hsection : s.queueSection <;>
      simp only [hsection, queueStep, reduceCtorEq] at hs <;>
      (try (split at hs <;> try split at hs)) <;> cases hs <;>
        simp_all [QueueSection.inHand]

/-- Nothing is held that was not handed over. -/
theorem holds_of_step {a : Action} (hs : step config s a = some s') (h : s'.Holds owned) :
    s.Holds owned ∨ ∃ event, s.Copies config event ∧
      owned = OwnedProjectedEvent.copyFrom event config.maxStringBytes := by
  cases moves_of_step hs with
  | callEmit event halive =>
    refine Or.inl (h.imp_right fun h => h.imp_left fun hm => ?_)
    obtain hold | hnew := List.mem_append.mp hm
    · exact hold
    · cases List.mem_singleton.mp hnew
  | emitAside a i old pc stats ha hi hold hpc =>
    obtain he | hm | hq := h
    · exact Or.inl (Or.inl he)
    · obtain hm' | hnew := List.mem_or_eq_of_mem_set hm
      · exact Or.inl (Or.inr (Or.inl hm'))
      · obtain rfl | ⟨event, rfl, hcap, hopen, rfl⟩ := hpc
        · cases hnew
        · cases hnew
          exact Or.inr ⟨event, ⟨List.mem_of_getElem? hi, hcap, hopen⟩, rfl⟩
    · exact Or.inl (Or.inr (Or.inr hq))
  | emitEnter i new hi hfree =>
    refine Or.inl ?_
    obtain he | hm | hq := h
    · exact Or.inl he
    · obtain hm' | hnew := List.mem_or_eq_of_mem_set hm
      · exact Or.inr (Or.inl hm')
      · cases hnew
    · cases hq
      exact Or.inr (Or.inl (List.mem_of_getElem? hi))
  | emitNotify i hi =>
    refine Or.inl (h.imp_right fun h => h.imp_left fun hm => ?_)
    obtain hm' | hnew := List.mem_or_eq_of_mem_set hm
    · exact hm'
    · cases hnew
  | queue s' hq => exact Or.inl (holds_queueStep hq h)
  | work s' hw =>
    have frame := workerStep_frame hw
    rw [State.Holds, frame.events, frame.emits] at h
    refine Or.inl (h.imp_right fun h => h.imp_right fun hq => ?_)
    obtain ⟨he, -, -⟩ | ⟨-, he, -⟩ := frame.queue
    · exact he ▸ hq
    · rw [he] at hq
      cases hq
  | writer outcome s' hw =>
    have frame := writerStep_frame hw
    rw [State.Holds, frame.events, frame.emits, frame.queueSection] at h
    exact Or.inl h
  | _ => exact Or.inl h

/-- An event about to be copied was so before, or is handed over now. -/
theorem copies_of_step {a : Action} {event : ProjectedEvent} (hs : step config s a = some s')
    (h : s'.Copies config event) : s.Copies config event ∨
      (a = .callEmit event ∧ config.capacity ≠ 0 ∧ s.stopped = false) := by
  obtain ⟨hm, hcap, hopen⟩ := h
  have hset : ∀ {i : ℕ} {pc : EmitPc}, (∀ event, pc ≠ .start event) → .start event ∈ s.emits.set i pc →
      .start event ∈ s.emits := by
    intro i pc hpc hm
    exact (List.mem_or_eq_of_mem_set hm).resolve_right fun he => hpc event he.symm
  cases moves_of_step hs with
  | callEmit new halive =>
    obtain hold | hnew := List.mem_append.mp hm
    · exact Or.inl ⟨hold, hcap, hopen⟩
    · cases List.mem_singleton.mp hnew
      exact Or.inr ⟨rfl, hcap, hopen⟩
  | emitAside a i old pc stats ha hi hold hpc =>
    refine Or.inl ⟨hset ?_ hm, hcap, hopen⟩
    intro event he
    obtain rfl | ⟨_, -, -, -, rfl⟩ := hpc <;> cases he
  | emitEnter i new hi hfree =>
    exact Or.inl ⟨hset (fun _ => EmitPc.noConfusion) hm, hcap, hopen⟩
  | emitNotify i hi => exact Or.inl ⟨hset (fun _ => EmitPc.noConfusion) hm, hcap, hopen⟩
  | queue s' hq =>
    have frame := queueStep_frame hq
    refine Or.inl ⟨?_, hcap, frame.stopped ▸ hopen⟩
    obtain ⟨he, -⟩ | ⟨i, pc, -, -, hpc, he⟩ := frame.emits
    · exact he ▸ hm
    · refine hset ?_ (he ▸ hm)
      intro event hp
      obtain rfl | rfl := hpc <;> cases hp
  | work s' hw =>
    have frame := workerStep_frame hw
    refine Or.inl ⟨frame.emits ▸ hm, hcap, ?_⟩
    cases hstopped : s.stopped with
    | false => rfl
    | true =>
      rw [frame.stopped hstopped] at hopen
      cases hopen
  | writer outcome s' hw =>
    have frame := writerStep_frame hw
    exact Or.inl ⟨frame.emits ▸ hm, hcap, frame.stopped ▸ hopen⟩
  | _ => exact Or.inl ⟨hm, hcap, hopen⟩

end AsyncSink

namespace FlightRecorder

variable {s s' : State} {owned : OwnedProjectedEvent}

/-- Among the records of a shard, or in the hands of a call of `emit`. -/
def State.Holds (s : State) (owned : OwnedProjectedEvent) : Prop :=
  (∃ j, ∃ record ∈ s.records j, record.event = owned) ∨ ∃ pc ∈ s.writers, owned ∈ pc.inHand

/-- A call of `emit` goes on with what it had in its hands. -/
theorem holds_set {i : ℕ} {old : WriterPc} (pc : WriterPc) (hi : s.writers[i]? = some old)
    (hhand : ∀ owned ∈ pc.inHand, owned ∈ old.inHand)
    (h : ∃ pc' ∈ s.writers.set i pc, owned ∈ pc'.inHand) : s.Holds owned := by
  obtain ⟨pc', hm, hown⟩ := h
  obtain hm' | rfl := List.mem_or_eq_of_mem_set hm
  · exact Or.inr ⟨pc', hm', hown⟩
  · exact Or.inr ⟨old, List.mem_of_getElem? hi, hhand owned hown⟩

/-- Nothing is held that was not handed over. -/
theorem holds_of_step {a : Action} (hs : step s a = some s') (h : s'.Holds owned) :
    s.Holds owned ∨
      ∃ event, owned = OwnedProjectedEvent.copyFrom (ingest event) s.maxStringBytes := by
  have hrecords : s'.records = s.records →
      (∃ j, ∃ record ∈ s'.records j, record.event = owned) → s.Holds owned :=
    fun he h => Or.inl (he ▸ h)
  cases moves_of_step hs with
  | callEmit j event new hnew hj =>
    obtain hrec | ⟨pc, hm, hown⟩ := h
    · exact Or.inl (Or.inl hrec)
    · obtain hold | hlast := List.mem_append.mp hm
      · exact Or.inl (Or.inr ⟨pc, hold, hown⟩)
      · rw [List.mem_singleton.mp hlast] at hown
        exact Or.inr ⟨event, (List.mem_singleton.mp hown).trans hnew⟩
  | aside i old pc stats hi hstats hold hpc hshard hhand =>
    exact Or.inl (h.elim Or.inl (holds_set pc hi hhand))
  | acquire i j new shard hi hj hfree =>
    refine Or.inl (h.elim (hrecords (records_setShard_same hj _)) fun hand => ?_)
    exact holds_set (.locked j new) hi (fun _ hm => hm) hand
  | evict i j new shard victim records hi hj hrec =>
    have hold : ∀ record ∈ s.records j, s.Holds record.event :=
      fun record hm => Or.inl ⟨j, record, hm, rfl⟩
    rw [hrec] at hold
    refine Or.inl ?_
    obtain ⟨k, record, hm, rfl⟩ | ⟨pc, hm, hown⟩ := h
    · have hm' : record ∈ (setShard j { shard with records := records } s).records k := hm
      rw [records_setShard hj, Function.update_apply] at hm'
      split at hm'
      · exact hold record (List.mem_cons_of_mem _ hm')
      · exact Or.inl ⟨k, record, hm', rfl⟩
    · obtain hm' | rfl := List.mem_or_eq_of_mem_set hm
      · exact Or.inr ⟨pc, hm', hown⟩
      · obtain rfl | hvictim := List.mem_cons.mp hown
        · exact Or.inr ⟨_, List.mem_of_getElem? hi, List.mem_singleton_self _⟩
        · rw [List.mem_singleton.mp hvictim]
          exact hold victim (List.mem_cons_self ..)
  | countOverwritten i j new victim hi =>
    refine Or.inl (h.elim Or.inl (holds_set (.draw j new) hi fun owned hm => ?_))
    exact List.mem_cons.mpr (Or.inl (List.mem_singleton.mp hm))
  | draw i j new stats hi hstats => exact Or.inl (h.elim Or.inl (holds_set (.push j _) hi fun _ hm => hm))
  | push i j record shard stats hi hj hstats =>
    refine Or.inl ?_
    obtain ⟨k, other, hm, rfl⟩ | hand := h
    · have hm' : other ∈
          (setShard j { shard with records := s.records j ++ [record] } s).records k := hm
      rw [records_setShard hj, Function.update_apply] at hm'
      split at hm'
      · obtain hold | hnew := List.mem_append.mp hm'
        · exact Or.inl ⟨j, other, hold, rfl⟩
        · rw [List.mem_singleton.mp hnew]
          exact Or.inr ⟨_, List.mem_of_getElem? hi, List.mem_singleton_self _⟩
      · exact Or.inl ⟨k, other, hm', rfl⟩
    · exact holds_set (.release j) hi (fun _ hm => by cases hm) hand
  | release i j shard hi hj =>
    refine Or.inl (h.elim (hrecords (records_setShard_same hj _)) fun hand => ?_)
    exact holds_set .done hi (fun _ hm => by cases hm) hand
  | acquireRead r j call scan shard hr hpc hj hfree =>
    exact Or.inl (h.elim (hrecords (records_setShard_same hj _)) Or.inr)
  | releaseRead r j call scan shard hr hpc hj =>
    exact Or.inl (h.elim (hrecords (records_setShard_same hj _)) Or.inr)
  | _ => exact Or.inl h

end FlightRecorder

end Logwise
