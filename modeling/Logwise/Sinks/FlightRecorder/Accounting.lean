import Logwise.Sinks.FlightRecorder.Model
import Logwise.Library.Transition
import Logwise.Library.Slots

/-!
# Where a numbered record is

A record is numbered while its shard is held. From then on it is on that shard, in its writer's
hands or among the shard's records, until it has been overwritten.
-/

namespace Logwise.FlightRecorder

variable {s s' : State}

/-- The shard a call of `emit` holds. -/
def WriterPc.shard : WriterPc → Option ℕ
  | .locked j _ | .countOverwritten j _ _ | .draw j _ | .push j _ | .release j => some j
  | .tryLock _ _ | .done => none

/-- The numbered record in the hands of a call of `emit`. -/
def WriterPc.record : WriterPc → Option FlightRecord
  | .countOverwritten _ _ victim => some victim
  | .push _ record => some record
  | _ => none

/-- The events in the hands of a call of `emit`. -/
def WriterPc.inHand : WriterPc → List OwnedProjectedEvent
  | .tryLock _ owned | .locked _ owned | .draw _ owned => [owned]
  | .countOverwritten _ owned victim => [owned, victim.event]
  | .push _ record => [record.event]
  | .release _ | .done => []

/-- The shard a read holds. -/
def ReadPc.shard : ReadPc → Option ℕ
  | .locked j _ | .release j _ => some j
  | _ => none

def State.records (s : State) (j : ℕ) : List FlightRecord :=
  (s.shards[j]?.map Shard.records).getD []

def State.holder (s : State) (j : ℕ) : Option Holder :=
  s.shards[j]?.bind Shard.holder

theorem records_of_getElem? {j : ℕ} {shard : Shard} (hj : s.shards[j]? = some shard) :
    s.records j = shard.records := by
  rw [State.records, hj]
  rfl

theorem holder_of_getElem? {j : ℕ} {shard : Shard} (hj : s.shards[j]? = some shard) :
    s.holder j = shard.holder := by
  rw [State.holder, hj]
  rfl

theorem getElem?_setShard {j : ℕ} {old shard : Shard} (hj : s.shards[j]? = some old) (k : ℕ) :
    (setShard j shard s).shards[k]? = if k = j then some shard else s.shards[k]? := by
  have hlt : j < s.shards.length := (List.getElem?_eq_some_iff.mp hj).1
  by_cases hk : k = j
  · rw [if_pos hk, hk]
    exact List.getElem?_set_self hlt
  · rw [if_neg hk]
    exact List.getElem?_set_ne (Ne.symm hk)

theorem records_setShard {j : ℕ} {old : Shard} (hj : s.shards[j]? = some old) (shard : Shard) :
    (setShard j shard s).records = Function.update s.records j shard.records := by
  funext k
  rw [State.records, getElem?_setShard hj, Function.update_apply]
  by_cases hk : k = j
  · rw [if_pos hk, if_pos hk]
    rfl
  · rw [if_neg hk, if_neg hk]
    rfl

theorem holder_setShard {j : ℕ} {old : Shard} (hj : s.shards[j]? = some old) (shard : Shard) :
    (setShard j shard s).holder = Function.update s.holder j shard.holder := by
  funext k
  rw [State.holder, getElem?_setShard hj, Function.update_apply]
  by_cases hk : k = j
  · rw [if_pos hk, if_pos hk]
    rfl
  · rw [if_neg hk, if_neg hk]
    rfl

/-- What a step does, seen through `records` and `holder`. -/
inductive Moves (s : State) : State → Prop where
  | callEmit (j : ℕ) (event : ProjectedEvent) (owned : OwnedProjectedEvent)
    (howned : owned = OwnedProjectedEvent.copyFrom (ingest event) s.maxStringBytes)
    (hj : j < s.shards.length) :
    Moves s { s with writers := s.writers ++ [.tryLock j owned] }
  /-- A call goes on without a record in its hands, on the shard it holds or on none. -/
  | aside (i : ℕ) (old pc : WriterPc) (stats : FlightRecorderStats)
    (hi : s.writers[i]? = some old) (hstats : stats.overwritten = s.stats.overwritten)
    (hold : old.record = none) (hpc : pc.record = none)
    (hshard : pc.shard = none ∨ pc.shard = old.shard)
    (hhand : ∀ owned ∈ pc.inHand, owned ∈ old.inHand) :
    Moves s (setWriter i pc { s with stats := stats })
  | acquire (i j : ℕ) (owned : OwnedProjectedEvent) (shard : Shard)
    (hi : s.writers[i]? = some (.tryLock j owned)) (hj : s.shards[j]? = some shard)
    (hfree : s.holder j = none) :
    Moves s (setWriter i (.locked j owned)
      (setShard j { shard with holder := some (.writer i) } s))
  | evict (i j : ℕ) (owned : OwnedProjectedEvent) (shard : Shard) (victim : FlightRecord)
    (records : List FlightRecord) (hi : s.writers[i]? = some (.locked j owned))
    (hj : s.shards[j]? = some shard) (hrecords : s.records j = victim :: records) :
    Moves s (setWriter i (.countOverwritten j owned victim)
      (setShard j { shard with records := records } s))
  | countOverwritten (i j : ℕ) (owned : OwnedProjectedEvent) (victim : FlightRecord)
    (hi : s.writers[i]? = some (.countOverwritten j owned victim)) :
    Moves s (setWriter i (.draw j owned) { s with
      stats := { s.stats with overwritten := s.stats.overwritten + 1 }
      overwritten := s.overwritten ++ [victim] })
  | draw (i j : ℕ) (owned : OwnedProjectedEvent) (stats : FlightRecorderStats)
    (hi : s.writers[i]? = some (.draw j owned)) (hstats : stats.overwritten = s.stats.overwritten) :
    Moves s (setWriter i (.push j ⟨s.nextSequence + 1, owned⟩) { s with
      nextSequence := s.nextSequence + 1
      stats := stats
      drawn := s.drawn ++ [(j, ⟨s.nextSequence + 1, owned⟩)] })
  | push (i j : ℕ) (record : FlightRecord) (shard : Shard) (stats : FlightRecorderStats)
    (hi : s.writers[i]? = some (.push j record)) (hj : s.shards[j]? = some shard)
    (hstats : stats.overwritten = s.stats.overwritten) :
    Moves s (setWriter i (.release j)
      (setShard j { shard with records := s.records j ++ [record] } { s with stats := stats }))
  | release (i j : ℕ) (shard : Shard) (hi : s.writers[i]? = some (.release j))
    (hj : s.shards[j]? = some shard) :
    Moves s (setWriter i .done (setShard j { shard with holder := none } s))
  | callRead (cursor : ℕ) (view : RecorderView) :
    Moves s { s with readers := s.readers ++ [⟨cursor, view, .loadWatermark⟩] }
  | loadWatermark (r : ℕ) (call : ReadCall) (hr : s.readers[r]? = some call)
    (hpc : call.pc = .loadWatermark) :
    Moves s (setReader r call (.tryLock 0 ⟨s.nextSequence, [], 0⟩) s)
  | acquireRead (r j : ℕ) (call : ReadCall) (scan : Scan) (shard : Shard)
    (hr : s.readers[r]? = some call) (hpc : call.pc = .tryLock j scan)
    (hj : s.shards[j]? = some shard) (hfree : s.holder j = none) :
    Moves s (setReader r call (.locked j scan)
      (setShard j { shard with holder := some (.reader r) } s))
  | busy (r j : ℕ) (call : ReadCall) (scan : Scan) (hr : s.readers[r]? = some call)
    (hpc : call.pc = .tryLock j scan) :
    Moves s (setReader r call
      (.tryLock (j + 1) { scan with busyShards := scan.busyShards + 1 }) s)
  | scan (r j : ℕ) (call : ReadCall) (scan : Scan) (hr : s.readers[r]? = some call)
    (hpc : call.pc = .locked j scan) :
    Moves s (setReader r call (.release j { scan with
      records := scan.records ++ select call.cursor call.view scan.watermark (s.records j) }) s)
  | releaseRead (r j : ℕ) (call : ReadCall) (scan : Scan) (shard : Shard)
    (hr : s.readers[r]? = some call) (hpc : call.pc = .release j scan)
    (hj : s.shards[j]? = some shard) :
    Moves s (setReader r call (.tryLock (j + 1) scan)
      (setShard j { shard with holder := none } s))
  | endScan (r j : ℕ) (call : ReadCall) (scan : Scan) (hr : s.readers[r]? = some call)
    (hpc : call.pc = .tryLock j scan) (hj : s.shards.length ≤ j) :
    Moves s (setReader r call (.loadTotals scan) s)
  | loadTotals (r : ℕ) (call : ReadCall) (scan : Scan) (hr : s.readers[r]? = some call)
    (hpc : call.pc = .loadTotals scan) :
    Moves s (setReader r call (.done (finish call.cursor scan s.stats)) s)

theorem moves_of_writerStep {i : ℕ} {pc : WriterPc} (hi : s.writers[i]? = some pc)
    (h : writerStep i s pc = some s') : Moves s s' := by
  cases pc with
  | tryLock j owned =>
    obtain ⟨shard, hj, rfl⟩ := Option.map_eq_some_iff.mp h
    split
    next hfree => exact .acquire i j owned shard hi hj ((holder_of_getElem? hj).trans hfree)
    next => exact .aside i _ .done _ hi rfl rfl rfl (Or.inl rfl) fun _ hm => by cases hm
  | locked j owned =>
    obtain ⟨shard, hj, rfl⟩ := Option.map_eq_some_iff.mp h
    split
    · exact .aside i _ (.release j) _ hi rfl rfl rfl (Or.inr rfl) fun _ hm => by cases hm
    · split
      next victim records hrecords =>
        split
        · exact .evict i j owned shard victim records hi hj
            ((records_of_getElem? hj).trans hrecords)
        · exact .aside i _ (.draw j owned) s.stats hi rfl rfl rfl (Or.inr rfl) fun _ hm => hm
      next => exact .aside i _ (.draw j owned) s.stats hi rfl rfl rfl (Or.inr rfl) fun _ hm => hm
  | countOverwritten j owned victim =>
    cases h
    exact .countOverwritten i j owned victim hi
  | draw j owned =>
    cases h
    exact .draw i j owned _ hi rfl
  | push j record =>
    obtain ⟨shard, hj, rfl⟩ := Option.map_eq_some_iff.mp h
    rw [← records_of_getElem? hj]
    exact .push i j record shard _ hi hj rfl
  | release j =>
    obtain ⟨shard, hj, rfl⟩ := Option.map_eq_some_iff.mp h
    exact .release i j shard hi hj
  | done => cases h

theorem moves_of_readerStep {r : ℕ} {call : ReadCall} (hr : s.readers[r]? = some call)
    (h : readerStep r call s = some s') : Moves s s' := by
  unfold readerStep at h
  split at h
  next hpc =>
    cases h
    exact .loadWatermark r call hr hpc
  next j scan hpc =>
    split at h
    next shard hj =>
      split at h
      next hfree =>
        cases h
        exact .acquireRead r j call scan shard hr hpc hj ((holder_of_getElem? hj).trans hfree)
      next =>
        cases h
        exact .busy r j call scan hr hpc
    next hj =>
      cases h
      exact .endScan r j call scan hr hpc (List.getElem?_eq_none_iff.mp hj)
  next j scan hpc =>
    obtain ⟨shard, hj, rfl⟩ := Option.map_eq_some_iff.mp h
    rw [← records_of_getElem? hj]
    exact .scan r j call scan hr hpc
  next j scan hpc =>
    obtain ⟨shard, hj, rfl⟩ := Option.map_eq_some_iff.mp h
    exact .releaseRead r j call scan shard hr hpc hj
  next scan hpc =>
    cases h
    exact .loadTotals r call scan hr hpc
  next => cases h

/-- **Inversion**: every enabled action is one of the moves. -/
theorem moves_of_step {a : Action} (h : step s a = some s') : Moves s s' := by
  cases a with
  | callEmit event j =>
    simp only [step] at h
    split at h
    next hj =>
      cases h
      exact .callEmit j event _ rfl hj
    next => cases h
  | stepEmit i =>
    obtain ⟨pc, hi, hstep⟩ := Option.bind_eq_some_iff.mp h
    exact moves_of_writerStep hi hstep
  | callRead cursor view =>
    cases h
    exact .callRead cursor view
  | stepRead r =>
    obtain ⟨call, hr, hstep⟩ := Option.bind_eq_some_iff.mp h
    exact moves_of_readerStep hr hstep

/-- Whoever is on a shard holds it. -/
structure State.Locked (s : State) : Prop where
  writers : ∀ (i j : ℕ) (pc : WriterPc), s.writers[i]? = some pc → pc.shard = some j →
    s.holder j = some (.writer i)
  readers : ∀ (r j : ℕ) (call : ReadCall), s.readers[r]? = some call → call.pc.shard = some j →
    s.holder j = some (.reader r)

theorem locked_withShards (capacity maxStringBytes shards : ℕ) :
    (withShards capacity maxStringBytes shards).Locked := by
  constructor <;> simp [withShards]

/-- A call of `emit` goes on, on the shard it holds or on none. -/
theorem State.Locked.writer {s' : State} (h : s.Locked) {i : ℕ} {old pc : WriterPc}
    (hi : s.writers[i]? = some old) (hwriters : s'.writers = s.writers.set i pc)
    (hreaders : s'.readers = s.readers) (hholder : s'.holder = s.holder)
    (hshard : pc.shard = none ∨ pc.shard = old.shard) : s'.Locked where
  writers k j pc' hk hj := by
    rw [hwriters] at hk
    rw [hholder]
    obtain ⟨rfl, rfl⟩ | ⟨-, hk'⟩ := Slots.getElem?_set_cases hk
    · obtain hnone | hsame := hshard
      · rw [hnone] at hj
        cases hj
      · exact h.writers k j old hi (hsame ▸ hj)
    · exact h.writers k j pc' hk' hj
  readers := by
    rw [hreaders, hholder]
    exact h.readers

/-- A read goes on, on the shard it holds or on none. -/
theorem State.Locked.reader {s' : State} (h : s.Locked) {r : ℕ} {call : ReadCall} {pc : ReadPc}
    (hr : s.readers[r]? = some call) (hwriters : s'.writers = s.writers)
    (hreaders : s'.readers = s.readers.set r { call with pc := pc })
    (hholder : s'.holder = s.holder) (hshard : pc.shard = none ∨ pc.shard = call.pc.shard) :
    s'.Locked where
  writers := by
    rw [hwriters, hholder]
    exact h.writers
  readers k j call' hk hj := by
    rw [hreaders] at hk
    rw [hholder]
    obtain ⟨rfl, rfl⟩ | ⟨-, hk'⟩ := Slots.getElem?_set_cases hk
    · obtain hnone | hsame := hshard
      · rw [show pc.shard = some j from hj] at hnone
        cases hnone
      · exact h.readers k j call hr (hsame ▸ hj)
    · exact h.readers k j call' hk' hj

/-- Only the holder of a shard is affected when it changes hands. -/
theorem update_holder {holder : ℕ → Option Holder} {j k : ℕ} {new : Option Holder}
    {who : Holder} (hk : holder k = some who) (hne : holder j ≠ some who) :
    Function.update holder j new k = some who := by
  have hkj : k ≠ j := by
    rintro rfl
    exact hne hk
  rw [Function.update_of_ne hkj]
  exact hk

theorem locked_step {a : Action} (h : s.Locked) (hs : step s a = some s') : s'.Locked := by
  cases moves_of_step hs with
  | callEmit j event owned howned hj =>
    refine ⟨fun i k pc hi hk => ?_, h.readers⟩
    obtain hold | rfl := Slots.getElem?_append_cases hi
    · exact h.writers i k pc hold hk
    · cases hk
  | aside i old pc stats hi hstats hold hpc hshard hhand => exact h.writer hi rfl rfl rfl hshard
  | acquire i j owned shard hi hj hfree =>
    -- a free shard: nobody else claims it
    have hholder := holder_setShard hj { shard with holder := some (.writer i) }
    constructor
    · intro k l pc hk hl
      show (setShard j _ s).holder l = _
      rw [hholder]
      obtain ⟨rfl, rfl⟩ | ⟨-, hk'⟩ := Slots.getElem?_set_cases hk
      · cases hl
        exact Function.update_self ..
      · exact update_holder (h.writers k l pc hk' hl) (by rw [hfree]; exact fun he => by cases he)
    · intro r l call hr hl
      show (setShard j _ s).holder l = _
      rw [hholder]
      exact update_holder (h.readers r l call hr hl) (by rw [hfree]; exact fun he => by cases he)
  | evict i j owned shard victim records hi hj hrecords =>
    refine h.writer hi rfl rfl ?_ (Or.inr rfl)
    show (setShard j _ s).holder = _
    rw [holder_setShard hj, ← holder_of_getElem? hj]
    exact Function.update_eq_self ..
  | countOverwritten i j owned victim hi => exact h.writer hi rfl rfl rfl (Or.inr rfl)
  | draw i j owned stats hi hstats => exact h.writer hi rfl rfl rfl (Or.inr rfl)
  | push i j record shard stats hi hj hstats =>
    refine h.writer hi rfl rfl ?_ (Or.inr rfl)
    show (setShard j _ s).holder = _
    rw [holder_setShard hj, ← holder_of_getElem? hj]
    exact Function.update_eq_self ..
  | release i j shard hi hj =>
    -- a shard has one holder, so no other claim is lost
    have hmine := h.writers i j _ hi rfl
    have hholder := holder_setShard hj { shard with holder := none }
    constructor
    · intro k l pc hk hl
      show (setShard j _ s).holder l = _
      rw [hholder]
      obtain ⟨rfl, rfl⟩ | ⟨hne, hk'⟩ := Slots.getElem?_set_cases hk
      · cases hl
      · refine update_holder (h.writers k l pc hk' hl) ?_
        rw [hmine]
        exact fun he => hne (Holder.writer.inj (Option.some.inj he)).symm
    · intro r l call hr hl
      show (setShard j _ s).holder l = _
      rw [hholder]
      refine update_holder (h.readers r l call hr hl) ?_
      rw [hmine]
      exact fun he => by cases he
  | callRead cursor view =>
    refine ⟨h.writers, fun r k call hr hk => ?_⟩
    obtain hold | rfl := Slots.getElem?_append_cases hr
    · exact h.readers r k call hold hk
    · cases hk
  | loadWatermark r call hr hpc => exact h.reader hr rfl rfl rfl (Or.inl rfl)
  | acquireRead r j call scan shard hr hpc hj hfree =>
    have hholder := holder_setShard hj { shard with holder := some (.reader r) }
    constructor
    · intro i l pc hi hl
      show (setShard j _ s).holder l = _
      rw [hholder]
      exact update_holder (h.writers i l pc hi hl) (by rw [hfree]; exact fun he => by cases he)
    · intro k l call' hk hl
      show (setShard j _ s).holder l = _
      rw [hholder]
      obtain ⟨rfl, rfl⟩ | ⟨-, hk'⟩ := Slots.getElem?_set_cases hk
      · cases hl
        exact Function.update_self ..
      · exact update_holder (h.readers k l call' hk' hl) (by rw [hfree]; exact fun he => by cases he)
  | busy r j call scan hr hpc => exact h.reader hr rfl rfl rfl (Or.inl rfl)
  | scan r j call scan hr hpc =>
    exact h.reader hr rfl rfl rfl (Or.inr (by rw [hpc]; rfl))
  | releaseRead r j call scan shard hr hpc hj =>
    -- as for a writer
    have hmine := h.readers r j call hr (by rw [hpc]; rfl)
    have hholder := holder_setShard hj { shard with holder := none }
    constructor
    · intro i l pc hi hl
      show (setShard j _ s).holder l = _
      rw [hholder]
      refine update_holder (h.writers i l pc hi hl) ?_
      rw [hmine]
      exact fun he => by cases he
    · intro k l call' hk hl
      show (setShard j _ s).holder l = _
      rw [hholder]
      obtain ⟨rfl, rfl⟩ | ⟨hne, hk'⟩ := Slots.getElem?_set_cases hk
      · cases hl
      · refine update_holder (h.readers k l call' hk' hl) ?_
        rw [hmine]
        exact fun he => hne (Holder.reader.inj (Option.some.inj he)).symm
  | endScan r j call scan hr hpc hj => exact h.reader hr rfl rfl rfl (Or.inl rfl)
  | loadTotals r call scan hr hpc => exact h.reader hr rfl rfl rfl (Or.inl rfl)

/-- In the hands of a call of `emit` on the shard. -/
def State.Hand (s : State) (j : ℕ) (record : FlightRecord) : Prop :=
  ∃ pc ∈ s.writers, pc.shard = some j ∧ pc.record = some record

/-- On the shard: among its records, or in the hands of its holder. -/
def State.On (s : State) (j : ℕ) (record : FlightRecord) : Prop :=
  record ∈ s.records j ∨ s.Hand j record

/-- A call of `emit` goes on: what it had in its hands is gone, what it has now is new. -/
theorem hand_set {i : ℕ} {old pc : WriterPc} (hi : s.writers[i]? = some old) {s' : State}
    (hwriters : s'.writers = s.writers.set i pc) {j : ℕ} {record : FlightRecord} :
    (s'.Hand j record → (pc.shard = some j ∧ pc.record = some record) ∨ s.Hand j record) ∧
      (s.Hand j record → ¬ (old.shard = some j ∧ old.record = some record) → s'.Hand j record) := by
  constructor
  · rintro ⟨pc', hm, hp⟩
    rw [hwriters] at hm
    obtain hm' | rfl := List.mem_or_eq_of_mem_set hm
    · exact Or.inr ⟨pc', hm', hp⟩
    · exact Or.inl hp
  · intro hand hold
    obtain ⟨pc', hm, hp⟩ := Slots.exists_mem_set hi hold hand
    exact ⟨pc', hwriters ▸ hm, hp⟩

/-- Steps that leave the records of every shard and every hand as they are. -/
theorem on_congr {s' : State} (hrecords : s'.records = s.records)
    (hand : ∀ j record, s'.Hand j record ↔ s.Hand j record) {j : ℕ} {record : FlightRecord} :
    s'.On j record ↔ s.On j record := by
  rw [State.On, State.On, hrecords, hand]

/-- A call of `emit` goes on with empty hands. -/
theorem on_aside {i : ℕ} {old : WriterPc} (pc : WriterPc) (hi : s.writers[i]? = some old) {s' : State}
    (hwriters : s'.writers = s.writers.set i pc) (hrecords : s'.records = s.records)
    (hold : old.record = none) (hpc : pc.record = none) {j : ℕ} {record : FlightRecord} :
    s'.On j record ↔ s.On j record := by
  refine on_congr hrecords fun k r => ⟨fun hand => ?_, fun hand => ?_⟩
  · refine ((hand_set hi hwriters).1 hand).resolve_left fun hp => ?_
    rw [hpc] at hp
    cases hp.2
  · refine (hand_set hi hwriters).2 hand fun hp => ?_
    rw [hold] at hp
    cases hp.2

/-- Holding or releasing a shard leaves its records. -/
theorem records_setShard_same {j : ℕ} {shard : Shard} (hj : s.shards[j]? = some shard)
    (holder : Option Holder) :
    (setShard j { shard with holder := holder } s).records = s.records := by
  rw [records_setShard hj, ← records_of_getElem? hj]
  exact Function.update_eq_self ..

/-- A record stays where it is, or moves between its shard and its holder's hands, or has been
overwritten; and what is anywhere was there before or is drawn now. -/
theorem on_of_step {a : Action} (hs : step s a = some s') {j : ℕ} {record : FlightRecord} :
    (s'.On j record → s.On j record ∨ (j, record) ∈ s'.drawn) ∧
      (s.On j record → s'.On j record ∨ record ∈ s'.overwritten) := by
  have hiff : (s'.On j record ↔ s.On j record) →
      (s'.On j record → s.On j record ∨ (j, record) ∈ s'.drawn) ∧
        (s.On j record → s'.On j record ∨ record ∈ s'.overwritten) :=
    fun h => ⟨fun hon => Or.inl (h.mp hon), fun hon => Or.inl (h.mpr hon)⟩
  cases moves_of_step hs with
  | callEmit k event owned howned hk =>
    refine hiff (on_congr ?_ fun l r => ⟨?_, ?_⟩)
    · rfl
    · rintro ⟨pc, hm, hp⟩
      obtain hm' | hnew := List.mem_append.mp hm
      · exact ⟨pc, hm', hp⟩
      · rw [List.mem_singleton.mp hnew] at hp
        cases hp.2
    · exact fun ⟨pc, hm, hp⟩ => ⟨pc, List.mem_append_left _ hm, hp⟩
  | aside i old pc stats hi hstats hold hpc hshard hhand =>
    refine hiff (on_aside pc hi ?_ ?_ hold hpc)
    · rfl
    · rfl
  | acquire i k owned shard hi hk hfree =>
    refine hiff (on_aside (.locked k owned) hi ?_ ?_ rfl rfl)
    · rfl
    · exact records_setShard_same hk _
  | evict i k owned shard victim records hi hk hrecords =>
    -- the victim goes from the front of the shard into the hands of the evicting writer
    have hset : (setWriter i (.countOverwritten k owned victim)
        (setShard k { shard with records := records } s)).records =
          Function.update s.records k records := records_setShard hk _
    refine ⟨fun hon => Or.inl ?_, fun hon => Or.inl ?_⟩
    · obtain hm | hand := hon
      · rw [hset, Function.update_apply] at hm
        split at hm
        next he =>
          rw [he]
          exact Or.inl (hrecords ▸ List.mem_cons_of_mem _ hm)
        next => exact Or.inl hm
      · obtain ⟨hj, hr⟩ | hand' := (hand_set hi rfl).1 hand
        · cases hj
          cases hr
          exact Or.inl (hrecords ▸ List.mem_cons_self ..)
        · exact Or.inr hand'
    · obtain hm | hand := hon
      · by_cases he : j = k
        · rw [he, hrecords] at hm
          obtain rfl | hrest := List.mem_cons.mp hm
          · exact Or.inr ⟨_, List.mem_of_getElem? (Slots.getElem?_set_of_some hi), congrArg some he.symm, rfl⟩
          · refine Or.inl ?_
            rw [hset, he, Function.update_self]
            exact hrest
        · refine Or.inl ?_
          rw [hset, Function.update_of_ne he]
          exact hm
      · exact Or.inr ((hand_set hi rfl).2 hand fun hp => by cases hp.2)
  | countOverwritten i k owned victim hi =>
    -- the victim leaves those hands as overwritten
    refine ⟨fun hon => Or.inl ?_, fun hon => ?_⟩
    · refine hon.imp id fun hand => ?_
      exact ((hand_set hi rfl).1 hand).resolve_left fun hp => by cases hp.2
    · obtain hm | hand := hon
      · exact Or.inl (Or.inl hm)
      · by_cases he : record = victim
        · exact Or.inr (he ▸ List.mem_append_right _ (List.mem_singleton_self _))
        · refine Or.inl (Or.inr ((hand_set hi rfl).2 hand fun hp => ?_))
          exact he (Option.some.inj hp.2).symm
  | draw i k owned stats hi hstats =>
    -- the record in hand is new, and drawn in this step
    refine ⟨fun hon => ?_, fun hon => Or.inl ?_⟩
    · obtain hm | hand := hon
      · exact Or.inl (Or.inl hm)
      · obtain ⟨hj, hr⟩ | hand' := (hand_set hi rfl).1 hand
        · cases hj
          cases hr
          exact Or.inr (List.mem_append_right _ (List.mem_singleton_self _))
        · exact Or.inl (Or.inr hand')
    · exact hon.imp id fun hand => (hand_set hi rfl).2 hand fun hp => by cases hp.2
  | push i k pushed shard stats hi hk hstats =>
    -- and goes to the back of the shard
    have hset : (setWriter i (.release k) (setShard k { shard with records := s.records k ++ [pushed] }
        { s with stats := stats })).records =
          Function.update s.records k (s.records k ++ [pushed]) :=
      records_setShard (s := s) hk { shard with records := s.records k ++ [pushed] }
    refine ⟨fun hon => Or.inl ?_, fun hon => Or.inl ?_⟩
    · obtain hm | hand := hon
      · rw [hset, Function.update_apply] at hm
        split at hm
        next he =>
          subst he
          obtain hold | hnew := List.mem_append.mp hm
          · exact Or.inl hold
          · rw [List.mem_singleton.mp hnew]
            exact Or.inr ⟨_, List.mem_of_getElem? hi, rfl, rfl⟩
        next => exact Or.inl hm
      · exact Or.inr (((hand_set hi rfl).1 hand).resolve_left fun hp => by cases hp.2)
    · by_cases he : j = k ∧ record = pushed
      · obtain ⟨rfl, rfl⟩ := he
        refine Or.inl ?_
        rw [hset, Function.update_self]
        exact List.mem_append_right _ (List.mem_singleton_self _)
      · obtain hm | hand := hon
        · refine Or.inl ?_
          rw [hset, Function.update_apply]
          split
          next hj => exact List.mem_append_left _ (hj ▸ hm)
          next => exact hm
        · refine Or.inr ((hand_set hi rfl).2 hand fun hp => ?_)
          exact he ⟨(Option.some.inj hp.1).symm, (Option.some.inj hp.2).symm⟩
  | release i k shard hi hk =>
    refine hiff (on_aside .done hi ?_ ?_ rfl rfl)
    · rfl
    · exact records_setShard_same hk _
  | acquireRead r k call scan shard hr hpc hk hfree =>
    refine hiff (on_congr ?_ fun _ _ => ?_)
    · exact records_setShard_same hk _
    · exact Iff.rfl
  | releaseRead r k call scan shard hr hpc hk =>
    refine hiff (on_congr ?_ fun _ _ => ?_)
    · exact records_setShard_same hk _
    · exact Iff.rfl
  | _ => exact hiff Iff.rfl

theorem lt_of_holder {j : ℕ} {who : Holder} (h : s.holder j = some who) : j < s.shards.length := by
  obtain ⟨shard, hj, -⟩ := Option.bind_eq_some_iff.mp h
  exact (List.getElem?_eq_some_iff.mp hj).1

/-- A step draws at most one sequence, for the shard its caller holds, and the record is then in
that caller's hands. -/
theorem drawn_of_step {a : Action} (hs : step s a = some s') :
    (s'.drawn = s.drawn ∧ s'.nextSequence = s.nextSequence) ∨
      ∃ (i j : ℕ) (owned : OwnedProjectedEvent), s.writers[i]? = some (.draw j owned) ∧
        s'.drawn = s.drawn ++ [(j, ⟨s.nextSequence + 1, owned⟩)] ∧
        s'.nextSequence = s.nextSequence + 1 ∧ s'.Hand j ⟨s.nextSequence + 1, owned⟩ := by
  cases moves_of_step hs with
  | draw i j owned stats hi hstats =>
    refine Or.inr ⟨i, j, owned, hi, rfl, rfl, ?_⟩
    exact ⟨_, List.mem_of_getElem? (Slots.getElem?_set_of_some hi), rfl, rfl⟩
  | _ => exact Or.inl ⟨rfl, rfl⟩

/-- What has been overwritten stays so, and is counted. -/
theorem overwritten_of_step {a : Action} (hs : step s a = some s') :
    s'.shards.length = s.shards.length ∧ (∀ record ∈ s.overwritten, record ∈ s'.overwritten) ∧
      (s.overwritten.length = s.stats.overwritten →
        s'.overwritten.length = s'.stats.overwritten) := by
  cases moves_of_step hs with
  | aside i old pc stats hi hstats hold hpc hshard hhand =>
    exact ⟨rfl, fun _ hm => hm, fun h => h.trans hstats.symm⟩
  | draw i j owned stats hi hstats => exact ⟨rfl, fun _ hm => hm, fun h => h.trans hstats.symm⟩
  | countOverwritten i j owned victim hi =>
    refine ⟨rfl, fun _ hm => List.mem_append_left _ hm, fun h => ?_⟩
    show (s.overwritten ++ [victim]).length = s.stats.overwritten + 1
    rw [List.length_append, h]
    rfl
  | push i j record shard stats hi hj hstats =>
    exact ⟨List.length_set, fun _ hm => hm, fun h => h.trans hstats.symm⟩
  | acquire | evict | release | acquireRead | releaseRead =>
    exact ⟨List.length_set, fun _ hm => hm, id⟩
  | _ => exact ⟨rfl, fun _ hm => hm, id⟩

/-- Every sequence up to `next_sequence` has been drawn once, and its record is on the shard it
was drawn for or has been overwritten. -/
structure State.Numbered (s : State) : Prop where
  sequences : s.assigned.map FlightRecord.sequence = List.range' 1 s.nextSequence
  on_drawn : ∀ j record, s.On j record → (j, record) ∈ s.drawn
  placed : ∀ j record, (j, record) ∈ s.drawn →
    j < s.shards.length ∧ (record ∈ s.overwritten ∨ s.On j record)
  sorted : ∀ j, (s.records j).Pairwise fun a b => a.sequence < b.sequence
  last : ∀ (i j : ℕ) (record : FlightRecord), s.writers[i]? = some (.push j record) →
    ∀ r ∈ s.records j, r.sequence < record.sequence
  counted : s.overwritten.length = s.stats.overwritten

theorem records_withShards (capacity maxStringBytes shards j : ℕ) :
    (withShards capacity maxStringBytes shards).records j = [] := by
  rw [State.records, withShards, List.getElem?_map]
  cases (List.range _)[j]? <;> rfl

theorem numbered_withShards (capacity maxStringBytes shards : ℕ) :
    (withShards capacity maxStringBytes shards).Numbered where
  sequences := rfl
  on_drawn j record hon := by
    obtain hm | ⟨pc, hm, -⟩ := hon
    · rw [records_withShards] at hm
      cases hm
    · cases hm
  placed j record hm := by cases hm
  sorted j := by
    rw [records_withShards]
    exact List.Pairwise.nil
  last i j record hi := by cases hi
  counted := rfl

theorem State.Numbered.sequence_le (h : s.Numbered) {j : ℕ} {record : FlightRecord}
    (hm : (j, record) ∈ s.drawn) : 1 ≤ record.sequence ∧ record.sequence ≤ s.nextSequence := by
  have hmem : record.sequence ∈ s.assigned.map FlightRecord.sequence :=
    List.mem_map_of_mem (List.mem_map_of_mem (f := Prod.snd) hm)
  rw [h.sequences, List.mem_range'_1] at hmem
  omega

/-- A sequence is drawn for one record and one shard. -/
theorem State.Numbered.unique (h : s.Numbered) {p q : ℕ × FlightRecord} (hp : p ∈ s.drawn)
    (hq : q ∈ s.drawn) (heq : p.2.sequence = q.2.sequence) : p = q := by
  have hnodup : (s.drawn.map fun p => p.2.sequence).Nodup := by
    have hseq := h.sequences
    rw [State.assigned, List.map_map] at hseq
    exact hseq ▸ List.nodup_range'
  exact List.inj_on_of_nodup_map hnodup hp hq heq

theorem sorted_step {a : Action} (h : s.Numbered) (hs : step s a = some s') :
    ∀ j, (s'.records j).Pairwise fun a b => a.sequence < b.sequence := by
  have hsame : s'.records = s.records →
      ∀ j, (s'.records j).Pairwise fun a b => a.sequence < b.sequence :=
    fun he => he ▸ h.sorted
  have hupdate : ∀ {k : ℕ} {records : List FlightRecord},
      s'.records = Function.update s.records k records →
        (records.Pairwise fun a b => a.sequence < b.sequence) →
          ∀ j, (s'.records j).Pairwise fun a b => a.sequence < b.sequence := by
    intro k records he hp j
    rw [he, Function.update_apply]
    split
    · exact hp
    · exact h.sorted j
  cases moves_of_step hs with
  | acquire i j owned shard hi hj hfree => exact hsame (records_setShard_same hj _)
  | evict i j owned shard victim records hi hj hrecords =>
    refine hupdate (records_setShard hj _) ?_
    have hold := h.sorted j
    rw [hrecords] at hold
    exact hold.of_cons
  | push i j record shard stats hi hj hstats =>
    refine hupdate (records_setShard (s := s) hj { shard with records := s.records j ++ [record] }) ?_
    refine List.pairwise_append.mpr ⟨h.sorted j, List.pairwise_singleton _ _, ?_⟩
    intro r hr new hnew
    rw [List.mem_singleton.mp hnew]
    exact h.last i j record hi r hr
  | release i j shard hi hj => exact hsame (records_setShard_same hj _)
  | acquireRead r j call scan shard hr hpc hj hfree => exact hsame (records_setShard_same hj _)
  | releaseRead r j call scan shard hr hpc hj => exact hsame (records_setShard_same hj _)
  | _ => exact h.sorted

/-- A record about to be pushed has a sequence above all of its shard. -/
theorem last_step {a : Action} (hlocked : s.Locked) (h : s.Numbered) (hs : step s a = some s') :
    ∀ (i j : ℕ) (record : FlightRecord), s'.writers[i]? = some (.push j record) →
      ∀ r ∈ s'.records j, r.sequence < record.sequence := by
  have hset : ∀ {k : ℕ} {pc : WriterPc}, s'.writers = s.writers.set k pc →
      (∀ j record, pc ≠ .push j record) → (∀ j, ∀ r ∈ s'.records j, r ∈ s.records j) →
        ∀ (i j : ℕ) (record : FlightRecord), s'.writers[i]? = some (.push j record) →
          ∀ r ∈ s'.records j, r.sequence < record.sequence := by
    intro k pc hwriters hpc hrecords i j record hi r hr
    rw [hwriters] at hi
    obtain ⟨-, he⟩ | ⟨-, hi'⟩ := Slots.getElem?_set_cases hi
    · exact absurd he.symm (hpc j record)
    · exact h.last i j record hi' r (hrecords j r hr)
  cases moves_of_step hs with
  | callEmit k event owned howned hk =>
    intro i j record hi
    obtain hold | hnew := Slots.getElem?_append_cases hi
    · exact h.last i j record hold
    · cases hnew
  | aside k old pc stats hk hstats hold hpc hshard hhand =>
    refine hset rfl (fun j record he => ?_) fun _ _ hr => hr
    rw [he] at hpc
    cases hpc
  | acquire k l owned shard hk hl hfree =>
    refine hset rfl (fun _ _ => WriterPc.noConfusion) fun j r hr => ?_
    exact records_setShard_same hl _ ▸ hr
  | evict k l owned shard victim records hk hl hrecords =>
    refine hset rfl (fun _ _ => WriterPc.noConfusion) fun j r hr => ?_
    have hr' : r ∈ (setShard l { shard with records := records } s).records j := hr
    rw [records_setShard hl, Function.update_apply] at hr'
    split at hr'
    next he =>
      rw [he, hrecords]
      exact List.mem_cons_of_mem _ hr'
    next => exact hr'
  | countOverwritten k l owned victim hk =>
    exact hset rfl (fun _ _ => WriterPc.noConfusion) fun _ _ hr => hr
  | draw k l owned stats hk hstats =>
    intro i j record hi r hr
    obtain ⟨-, he⟩ | ⟨-, hi'⟩ := Slots.getElem?_set_cases hi
    · cases he
      exact Nat.lt_succ_of_le (h.sequence_le (h.on_drawn _ r (Or.inl hr))).2
    · exact h.last i j record hi' r hr
  | push k l pushed shard stats hk hl hstats =>
    intro i j record hi r hr
    obtain ⟨-, he⟩ | ⟨hne, hi'⟩ := Slots.getElem?_set_cases hi
    · cases he
    · -- the shard that is pushed to is held by another call
      have hjl : j ≠ l := by
        rintro rfl
        have hmine := hlocked.writers i j _ hi' rfl
        rw [hlocked.writers k j _ hk rfl] at hmine
        exact hne (Holder.writer.inj (Option.some.inj hmine)).symm
      refine h.last i j record hi' r ?_
      have hset := records_setShard (s := s) hl { shard with records := s.records l ++ [pushed] }
      have hr' : r ∈ (setShard l { shard with records := s.records l ++ [pushed] } s).records j := hr
      rw [hset, Function.update_of_ne hjl] at hr'
      exact hr'
  | release k l shard hk hl =>
    refine hset rfl (fun _ _ => WriterPc.noConfusion) fun j r hr => ?_
    exact records_setShard_same hl _ ▸ hr
  | acquireRead q l call scan shard hq hpc hl hfree =>
    intro i j record hi r hr
    exact h.last i j record hi r (records_setShard_same hl _ ▸ hr)
  | releaseRead q l call scan shard hq hpc hl =>
    intro i j record hi r hr
    exact h.last i j record hi r (records_setShard_same hl _ ▸ hr)
  | _ => exact h.last

/-- **Numbering** is kept by every step. -/
theorem numbered_step {a : Action} (hlocked : s.Locked) (h : s.Numbered)
    (hs : step s a = some s') : s'.Numbered := by
  obtain ⟨hlength, hmono, hcounted⟩ := overwritten_of_step hs
  have hon := @on_of_step s s' a hs
  refine ⟨?_, ?_, ?_, sorted_step h hs, last_step hlocked h hs, hcounted h.counted⟩
  · obtain ⟨hdrawn, hnext⟩ | ⟨i, j, owned, -, hdrawn, hnext, -⟩ := drawn_of_step hs
    · rw [State.assigned, hdrawn, hnext]
      exact h.sequences
    · have hold := h.sequences
      rw [State.assigned, List.map_map] at hold
      rw [State.assigned, hdrawn, hnext, List.map_map, List.map_append, hold, List.range'_1_concat,
        Nat.add_comm 1]
      rfl
  · intro j record h'
    obtain hold | hnew := (@hon j record).1 h'
    · have hm := h.on_drawn j record hold
      obtain ⟨hdrawn, -⟩ | ⟨_, _, _, -, hdrawn, -, -⟩ := drawn_of_step hs
      · exact hdrawn ▸ hm
      · exact hdrawn ▸ List.mem_append_left _ hm
    · exact hnew
  · intro j record hm
    rw [hlength]
    have hold : (j, record) ∈ s.drawn →
        j < s.shards.length ∧ (record ∈ s'.overwritten ∨ s'.On j record) := by
      intro hm
      obtain ⟨hlt, hplace⟩ := h.placed j record hm
      refine ⟨hlt, ?_⟩
      obtain hover | hplace := hplace
      · exact Or.inl (hmono record hover)
      · exact ((@hon j record).2 hplace).symm
    obtain ⟨hdrawn, -⟩ | ⟨i, k, owned, hi, hdrawn, -, hand⟩ := drawn_of_step hs
    · exact hold (hdrawn ▸ hm)
    · rw [hdrawn] at hm
      obtain hm' | hnew := List.mem_append.mp hm
      · exact hold hm'
      · cases List.mem_singleton.mp hnew
        exact ⟨lt_of_holder (hlocked.writers i j _ hi rfl), Or.inr (Or.inr hand)⟩

end Logwise.FlightRecorder
