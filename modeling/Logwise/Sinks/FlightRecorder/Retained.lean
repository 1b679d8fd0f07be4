import Logwise.Sinks.FlightRecorder.Accounting
import Mathlib.Algebra.Order.BigOperators.Group.List
import Mathlib.Algebra.Order.Group.Nat

/-!
# What the recorder retains, and its counters

A shard holds the records accepted last, as many as it has room for; the counters account for
every call and every record. A call of `emit` is on one shard at a time, so what it does to the
others is nothing.
-/

namespace Logwise.FlightRecorder

variable {s s' : State}

/-- What a step of `emit` does, with what it has found on its shard. -/
inductive Writes (i : ℕ) (s : State) : WriterPc → State → Prop where
  | contended (j : ℕ) (owned : OwnedProjectedEvent) :
    Writes i s (.tryLock j owned) (setWriter i .done (countDropped s))
  | acquire (j : ℕ) (owned : OwnedProjectedEvent) (shard : Shard) (hj : s.shards[j]? = some shard)
    (hfree : s.holder j = none) :
    Writes i s (.tryLock j owned)
      (setWriter i (.locked j owned) (setShard j { shard with holder := some (.writer i) } s))
  | refuse (j : ℕ) (owned : OwnedProjectedEvent) :
    Writes i s (.locked j owned) (setWriter i (.release j) (countDropped s))
  | evict (j : ℕ) (owned : OwnedProjectedEvent) (shard : Shard) (victim : FlightRecord)
    (records : List FlightRecord) (hj : s.shards[j]? = some shard)
    (hrecords : shard.records = victim :: records)
    (hfull : shard.records.length = shard.capacity) :
    Writes i s (.locked j owned) (setWriter i (.countOverwritten j owned victim)
      (setShard j { shard with records := records } s))
  | fits (j : ℕ) (owned : OwnedProjectedEvent) (shard : Shard) (hj : s.shards[j]? = some shard)
    (hroom : shard.records.length ≠ shard.capacity) :
    Writes i s (.locked j owned) (setWriter i (.draw j owned) s)
  | countOverwritten (j : ℕ) (owned : OwnedProjectedEvent) (victim : FlightRecord) :
    Writes i s (.countOverwritten j owned victim) (setWriter i (.draw j owned) { s with
      stats := { s.stats with overwritten := s.stats.overwritten + 1 }
      overwritten := s.overwritten ++ [victim] })
  | draw (j : ℕ) (owned : OwnedProjectedEvent) :
    Writes i s (.draw j owned) (setWriter i (.push j ⟨s.nextSequence + 1, owned⟩) { s with
      nextSequence := s.nextSequence + 1
      stats := { s.stats with truncatedFields := s.stats.truncatedFields + owned.truncatedFields }
      drawn := s.drawn ++ [(j, ⟨s.nextSequence + 1, owned⟩)] })
  | push (j : ℕ) (record : FlightRecord) (shard : Shard) (hj : s.shards[j]? = some shard) :
    Writes i s (.push j record) (setWriter i (.release j)
      (setShard j { shard with records := shard.records ++ [record] } { s with
        stats := { s.stats with accepted := s.stats.accepted + 1 } }))
  | release (j : ℕ) (shard : Shard) (hj : s.shards[j]? = some shard) :
    Writes i s (.release j) (setWriter i .done (setShard j { shard with holder := none } s))

theorem writes_of_writerStep {i : ℕ} {pc : WriterPc} (h : writerStep i s pc = some s') :
    Writes i s pc s' := by
  cases pc with
  | tryLock j owned =>
    obtain ⟨shard, hj, rfl⟩ := Option.map_eq_some_iff.mp h
    split
    next hfree => exact .acquire j owned shard hj ((holder_of_getElem? hj).trans hfree)
    next => exact .contended j owned
  | locked j owned =>
    obtain ⟨shard, hj, rfl⟩ := Option.map_eq_some_iff.mp h
    split
    next => exact .refuse j owned
    next hcap =>
      split
      next victim records hrecords =>
        split
        next hfull => exact .evict j owned shard victim records hj hrecords hfull
        next hroom => exact .fits j owned shard hj hroom
      next hempty =>
        refine .fits j owned shard hj fun he => hcap ?_
        rw [← he, hempty]
        rfl
  | countOverwritten j owned victim =>
    cases h
    exact .countOverwritten j owned victim
  | draw j owned =>
    cases h
    exact .draw j owned
  | push j record =>
    obtain ⟨shard, hj, rfl⟩ := Option.map_eq_some_iff.mp h
    exact .push j record shard hj
  | release j =>
    obtain ⟨shard, hj, rfl⟩ := Option.map_eq_some_iff.mp h
    exact .release j shard hj
  | done => cases h

/-- What a read leaves alone. -/
structure ReadFrame (s s' : State) : Prop where
  writers : s'.writers = s.writers
  stats : s'.stats = s.stats
  nextSequence : s'.nextSequence = s.nextSequence
  drawn : s'.drawn = s.drawn
  shards : s'.shards.map (fun shard => (shard.capacity, shard.records)) =
    s.shards.map fun shard => (shard.capacity, shard.records)

theorem map_setShard {β : Type*} {f : Shard → β} {j : ℕ} {old shard : Shard}
    (hj : s.shards[j]? = some old) (hf : f shard = f old) :
    (setShard j shard s).shards.map f = s.shards.map f := by
  obtain ⟨hlt, hold⟩ := List.getElem?_eq_some_iff.mp hj
  refine List.ext_getElem (by simp [setShard]) fun k hk hk' => ?_
  rw [List.getElem_map, List.getElem_map]
  by_cases he : j = k
  · subst he
    simp [setShard, hf, hold]
  · simp [setShard, List.getElem_set_ne he]

theorem readerStep_leaves {r : ℕ} {call : ReadCall} (h : readerStep r call s = some s') :
    ReadFrame s s' := by
  unfold readerStep at h
  split at h
  next => cases h; exact ⟨rfl, rfl, rfl, rfl, rfl⟩
  next =>
    split at h
    next shard hj =>
      split at h <;> cases h
      · exact ⟨rfl, rfl, rfl, rfl, map_setShard hj rfl⟩
      · exact ⟨rfl, rfl, rfl, rfl, rfl⟩
    next => cases h; exact ⟨rfl, rfl, rfl, rfl, rfl⟩
  next =>
    obtain ⟨shard, hj, rfl⟩ := Option.map_eq_some_iff.mp h
    exact ⟨rfl, rfl, rfl, rfl, rfl⟩
  next =>
    obtain ⟨shard, hj, rfl⟩ := Option.map_eq_some_iff.mp h
    exact ⟨rfl, rfl, rfl, rfl, map_setShard hj rfl⟩
  next => cases h; exact ⟨rfl, rfl, rfl, rfl, rfl⟩
  next => cases h

/-! ## Counters -/

/-- The call has accepted or dropped its event. -/
def WriterPc.counted : WriterPc → Bool
  | .release _ | .done => true
  | _ => false

/-- The call has drawn a sequence, and has not pushed its record. -/
def WriterPc.pushes : WriterPc → Bool
  | .push _ _ => true
  | _ => false

/-- The call has popped a record, and has not counted it. -/
def WriterPc.evicts : WriterPc → Bool
  | .countOverwritten _ _ _ => true
  | _ => false

/-- How many records are retained. -/
def State.retained (s : State) : ℕ := (s.shards.map fun shard => shard.records.length).sum

/-- Every call and every record is counted once. -/
structure State.Accounted (s : State) : Prop where
  completed : s.writers.countP WriterPc.counted = s.stats.accepted + s.stats.dropped
  accepted : s.stats.accepted + s.writers.countP WriterPc.pushes = s.nextSequence
  retained : s.retained + s.stats.overwritten + s.writers.countP WriterPc.pushes +
    s.writers.countP WriterPc.evicts = s.nextSequence
  truncated : s.stats.truncatedFields =
    (s.assigned.map fun record => record.event.truncatedFields).sum

theorem accounted_withShards (capacity maxStringBytes shards : ℕ) :
    (withShards capacity maxStringBytes shards).Accounted where
  completed := rfl
  accepted := rfl
  retained := by
    have hempty : ∀ xs : List Shard, (∀ shard ∈ xs, shard.records = []) →
        (xs.map fun shard => shard.records.length).sum = 0 := by
      intro xs hxs
      induction xs with
      | nil => rfl
      | cons shard xs ih =>
        rw [List.map_cons, List.sum_cons, hxs shard (List.mem_cons_self ..),
          ih fun other hm => hxs other (List.mem_cons_of_mem _ hm)]
        rfl
    refine (congrArg (· + 0 + 0 + 0) (hempty _ fun shard hm => ?_))
    obtain ⟨index, -, rfl⟩ := List.mem_map.mp hm
    rfl
  truncated := rfl

theorem retained_setShard {j : ℕ} {old : Shard} (hj : s.shards[j]? = some old) (shard : Shard) :
    (setShard j shard s).retained + old.records.length = s.retained + shard.records.length :=
  Slots.sum_map_set_add (fun shard => shard.records.length) hj

theorem retained_setShard_same {j : ℕ} {old shard : Shard} (hj : s.shards[j]? = some old)
    (hrecords : shard.records = old.records) : (setShard j shard s).retained = s.retained :=
  Nat.add_right_cancel ((retained_setShard hj shard).trans (by rw [hrecords]))

/-- One call goes on, and the counters with it. -/
theorem State.Accounted.move {i : ℕ} {old new : WriterPc} (h : s.Accounted)
    (hi : s.writers[i]? = some old) (hwriters : s'.writers = s.writers.set i new)
    (hcompleted : s'.stats.accepted + s'.stats.dropped + old.counted.toNat =
      s.stats.accepted + s.stats.dropped + new.counted.toNat)
    (haccepted : s'.stats.accepted + new.pushes.toNat + s.nextSequence =
      s.stats.accepted + old.pushes.toNat + s'.nextSequence)
    (hretained : s'.retained + s'.stats.overwritten + new.pushes.toNat + new.evicts.toNat +
        s.nextSequence =
      s.retained + s.stats.overwritten + old.pushes.toNat + old.evicts.toNat + s'.nextSequence)
    (htruncated : s'.stats.truncatedFields =
      (s'.assigned.map fun record => record.event.truncatedFields).sum) : s'.Accounted where
  completed := by
    have hcount := Slots.countP_set_add (y := new) WriterPc.counted hi
    have hold := h.completed
    rw [hwriters]
    omega
  accepted := by
    have hcount := Slots.countP_set_add (y := new) WriterPc.pushes hi
    have hold := h.accepted
    rw [hwriters]
    omega
  retained := by
    have hpushes := Slots.countP_set_add (y := new) WriterPc.pushes hi
    have hevicts := Slots.countP_set_add (y := new) WriterPc.evicts hi
    have hold := h.retained
    rw [hwriters]
    omega
  truncated := htruncated

theorem accounted_writes {i : ℕ} {pc : WriterPc} (h : s.Accounted) (hi : s.writers[i]? = some pc)
    (hs : Writes i s pc s') : s'.Accounted := by
  cases hs with
  | contended j owned => exact h.move hi rfl rfl rfl rfl h.truncated
  | acquire j owned shard hj hfree =>
    have hsame := @retained_setShard_same s j shard { shard with holder := some (.writer i) } hj rfl
    exact h.move hi rfl rfl rfl (congrArg (· + _ + _ + _ + _) hsame) h.truncated
  | refuse j owned => exact h.move hi rfl rfl rfl rfl h.truncated
  | evict j owned shard victim records hj hrecords hfull =>
    -- the victim is no longer retained, and not counted yet
    have hless := retained_setShard hj { shard with records := records }
    rw [hrecords, List.length_cons] at hless
    dsimp only at hless
    refine h.move hi rfl rfl rfl ?_ h.truncated
    show (setShard j { shard with records := records } s).retained + s.stats.overwritten + 0 + 1 +
      s.nextSequence = s.retained + s.stats.overwritten + 0 + 0 + s.nextSequence
    omega
  | fits j owned shard hj hroom => exact h.move hi rfl rfl rfl rfl h.truncated
  | countOverwritten j owned victim => exact h.move hi rfl rfl rfl rfl h.truncated
  | draw j owned =>
    refine h.move hi rfl rfl ?_ ?_ ?_
    · show s.stats.accepted + 1 + s.nextSequence = s.stats.accepted + 0 + (s.nextSequence + 1)
      omega
    · show s.retained + s.stats.overwritten + 1 + 0 + s.nextSequence =
        s.retained + s.stats.overwritten + 0 + 0 + (s.nextSequence + 1)
      omega
    · show s.stats.truncatedFields + owned.truncatedFields =
        (((s.drawn ++ [(j, (⟨s.nextSequence + 1, owned⟩ : FlightRecord))]).map Prod.snd).map
          fun record => record.event.truncatedFields).sum
      rw [List.map_append, List.map_append, List.sum_append, ← State.assigned, ← h.truncated]
      rfl
  | push j record shard hj =>
    have hmore := retained_setShard hj { shard with records := shard.records ++ [record] }
    rw [List.length_append, List.length_singleton] at hmore
    refine h.move hi rfl ?_ ?_ ?_ h.truncated
    · show s.stats.accepted + 1 + s.stats.dropped + 0 = s.stats.accepted + s.stats.dropped + 1
      omega
    · show s.stats.accepted + 1 + 0 + s.nextSequence = s.stats.accepted + 1 + s.nextSequence
      rfl
    · show (setShard j { shard with records := shard.records ++ [record] } s).retained +
          s.stats.overwritten + 0 + 0 + s.nextSequence =
        s.retained + s.stats.overwritten + 1 + 0 + s.nextSequence
      omega
  | release j shard hj =>
    have hsame := @retained_setShard_same s j shard { shard with holder := none } hj rfl
    exact h.move hi rfl rfl rfl (congrArg (· + _ + _ + _ + _) hsame) h.truncated

theorem accounted_step {a : Action} (h : s.Accounted) (hs : step s a = some s') :
    s'.Accounted := by
  cases a with
  | callEmit event j =>
    simp only [step] at hs
    split at hs
    · cases hs
      refine ⟨?_, ?_, ?_, h.truncated⟩
      · exact (List.countP_append ..).trans h.completed
      · exact (congrArg (s.stats.accepted + ·) (List.countP_append ..)).trans h.accepted
      · show s.retained + _ + (s.writers ++ [_]).countP _ + (s.writers ++ [_]).countP _ = _
        rw [List.countP_append, List.countP_append]
        exact h.retained
    · cases hs
  | stepEmit i =>
    obtain ⟨pc, hi, hstep⟩ := Option.bind_eq_some_iff.mp hs
    exact accounted_writes h hi (writes_of_writerStep hstep)
  | callRead cursor view =>
    cases hs
    exact ⟨h.completed, h.accepted, h.retained, h.truncated⟩
  | stepRead r =>
    obtain ⟨call, hr, hstep⟩ := Option.bind_eq_some_iff.mp hs
    have frame := readerStep_leaves hstep
    have hretained : s'.retained = s.retained := by
      have hlengths := congrArg (List.map fun pair : ℕ × List FlightRecord => pair.2.length)
        frame.shards
      rw [List.map_map, List.map_map] at hlengths
      exact congrArg List.sum hlengths
    refine ⟨?_, ?_, ?_, ?_⟩
    · rw [frame.writers, frame.stats]
      exact h.completed
    · rw [frame.writers, frame.stats, frame.nextSequence]
      exact h.accepted
    · rw [hretained, frame.writers, frame.stats, frame.nextSequence]
      exact h.retained
    · rw [State.assigned, frame.drawn, frame.stats]
      exact h.truncated

/-! ## Shards -/

def State.capacity (s : State) (j : ℕ) : ℕ := (s.shards[j]?.map Shard.capacity).getD 0

/-- The records numbered for a shard, in order. -/
def State.drawnOn (s : State) (j : ℕ) : List FlightRecord :=
  (s.drawn.filter fun drawn => drawn.1 = j).map Prod.snd

/-- How a shard's records follow from those numbered for it, and from where the call of `emit` that
is on the shard has got: the last ones, all but one of them pushed while the call makes room, and as
many as there is room for once any has been evicted. -/
def Fill (capacity : ℕ) (records drawn : List FlightRecord) : Option WriterPc → Prop
  | some (.countOverwritten _ _ _) | some (.draw _ _) =>
    records.length < capacity ∧
      ∃ evicted, drawn = evicted ++ records ∧ (evicted ≠ [] → records.length + 1 = capacity)
  | some (.push _ record) =>
    records.length < capacity ∧
      ∃ evicted, drawn = evicted ++ records ++ [record] ∧
        (evicted ≠ [] → records.length + 1 = capacity)
  | _ =>
    records.length ≤ capacity ∧
      ∃ evicted, drawn = evicted ++ records ∧ (evicted ≠ [] → records.length = capacity)

/-- Every shard is filled so, by the one call that is on it or by nobody. -/
structure State.Filled (s : State) : Prop where
  on : ∀ (i j : ℕ) (pc : WriterPc), s.writers[i]? = some pc → pc.shard = some j →
    Fill (s.capacity j) (s.records j) (s.drawnOn j) (some pc)
  off : ∀ j, (∀ (i : ℕ) (pc : WriterPc), s.writers[i]? = some pc → pc.shard ≠ some j) →
    Fill (s.capacity j) (s.records j) (s.drawnOn j) none

theorem filled_withShards (capacity maxStringBytes shards : ℕ) :
    (withShards capacity maxStringBytes shards).Filled where
  on i j pc hi := by cases hi
  off j _ := by
    rw [records_withShards]
    exact ⟨Nat.zero_le _, [], rfl, fun hne => absurd rfl hne⟩

theorem capacity_setShard {j : ℕ} {old shard : Shard} (hj : s.shards[j]? = some old)
    (hcapacity : shard.capacity = old.capacity) : (setShard j shard s).capacity = s.capacity := by
  funext k
  rw [State.capacity, getElem?_setShard hj]
  by_cases hk : k = j
  · rw [if_pos hk, State.capacity, hk, hj]
    exact hcapacity
  · rw [if_neg hk]
    rfl

theorem capacity_of_getElem? {j : ℕ} {shard : Shard} (hj : s.shards[j]? = some shard) :
    s.capacity j = shard.capacity := by
  rw [State.capacity, hj]
  rfl

/-- The call, if it is on the shard. -/
def WriterPc.on (k : ℕ) (pc : WriterPc) : Option WriterPc :=
  if pc.shard = some k then some pc else none

theorem WriterPc.on_self {k : ℕ} {pc : WriterPc} (h : pc.shard = some k) : pc.on k = some pc :=
  if_pos h

theorem WriterPc.on_none {k : ℕ} {pc : WriterPc} (h : pc.shard = none) : pc.on k = none :=
  if_neg (by rw [h]; exact fun he => by cases he)

/-- The call `i` goes on, on the shard `k`, on to it or off it, and the other shards stay. -/
theorem State.Filled.move {i k : ℕ} {old new : WriterPc} (hlocked : s.Locked) (h : s.Filled)
    (hi : s.writers[i]? = some old) (hwriters : s'.writers = s.writers.set i new)
    (hold : old.shard = some k ∨ (old.shard = none ∧ s.holder k = none))
    (hnew : new.shard = some k ∨ new.shard = none)
    (hsame : ∀ j, j ≠ k → s'.capacity j = s.capacity j ∧ s'.records j = s.records j ∧
      s'.drawnOn j = s.drawnOn j)
    (hfill : Fill (s.capacity k) (s.records k) (s.drawnOn k) (old.on k) →
      Fill (s'.capacity k) (s'.records k) (s'.drawnOn k) (new.on k)) : s'.Filled := by
  -- nobody else is on the shard
  have halone : ∀ (i' : ℕ) (pc : WriterPc), s.writers[i']? = some pc → pc.shard = some k → i' = i := by
    intro i' pc hi' hpc
    have hmine := hlocked.writers i' k pc hi' hpc
    obtain hold | ⟨-, hfree⟩ := hold
    · rw [hlocked.writers i k old hi hold] at hmine
      exact (Holder.writer.inj (Option.some.inj hmine)).symm
    · rw [hfree] at hmine
      cases hmine
  have hnow : Fill (s'.capacity k) (s'.records k) (s'.drawnOn k) (new.on k) := by
    refine hfill ?_
    obtain hshard | ⟨hshard, hfree⟩ := hold
    · rw [WriterPc.on_self hshard]
      exact h.on i k old hi hshard
    · rw [WriterPc.on_none hshard]
      refine h.off k fun i' pc hi' hpc => ?_
      rw [halone i' pc hi' hpc, hi] at hi'
      cases hi'
      rw [hshard] at hpc
      cases hpc
  constructor
  · intro i' j pc hi' hpc
    rw [hwriters] at hi'
    by_cases hj : j = k
    · subst hj
      obtain ⟨-, rfl⟩ | ⟨hne, hi''⟩ := Slots.getElem?_set_cases hi'
      · rw [WriterPc.on_self hpc] at hnow
        exact hnow
      · exact absurd (halone i' pc hi'' hpc) hne
    · obtain ⟨hcapacity, hrecords, hdrawn⟩ := hsame j hj
      rw [hcapacity, hrecords, hdrawn]
      obtain ⟨-, rfl⟩ | ⟨-, hi''⟩ := Slots.getElem?_set_cases hi'
      · obtain he | he := hnew
        · rw [he] at hpc
          exact absurd (Option.some.inj hpc).symm hj
        · rw [he] at hpc
          cases hpc
      · exact h.on i' j pc hi'' hpc
  · intro j hoff
    by_cases hj : j = k
    · subst hj
      have hout : new.shard ≠ some j := by
        refine hoff i new ?_
        rw [hwriters]
        exact Slots.getElem?_set_of_some hi
      rw [WriterPc.on, if_neg hout] at hnow
      exact hnow
    · obtain ⟨hcapacity, hrecords, hdrawn⟩ := hsame j hj
      rw [hcapacity, hrecords, hdrawn]
      refine h.off j fun i' pc hi' hpc => ?_
      by_cases hne : i' = i
      · subst hne
        rw [hi] at hi'
        cases hi'
        obtain hshard | ⟨hshard, -⟩ := hold
        · rw [hshard] at hpc
          exact hj (Option.some.inj hpc).symm
        · rw [hshard] at hpc
          cases hpc
      · refine hoff i' pc ?_ hpc
        rw [hwriters, List.getElem?_set_ne (Ne.symm hne)]
        exact hi'

/-- A call that is on no shard goes on without getting on to one. -/
theorem State.Filled.aside {i : ℕ} {old new : WriterPc} (h : s.Filled)
    (hi : s.writers[i]? = some old) (hwriters : s'.writers = s.writers.set i new)
    (hold : old.shard = none) (hnew : new.shard = none) (hcapacity : s'.capacity = s.capacity)
    (hrecords : s'.records = s.records) (hdrawn : s'.drawnOn = s.drawnOn) : s'.Filled where
  on i' j pc hi' hpc := by
    rw [hwriters] at hi'
    rw [hcapacity, hrecords, hdrawn]
    obtain ⟨-, rfl⟩ | ⟨-, hi''⟩ := Slots.getElem?_set_cases hi'
    · rw [hnew] at hpc
      cases hpc
    · exact h.on i' j pc hi'' hpc
  off j hoff := by
    rw [hcapacity, hrecords, hdrawn]
    refine h.off j fun i' pc hi' hpc => ?_
    by_cases hne : i' = i
    · subst hne
      rw [hi] at hi'
      cases hi'
      rw [hold] at hpc
      cases hpc
    · refine hoff i' pc ?_ hpc
      rw [hwriters, List.getElem?_set_ne (Ne.symm hne)]
      exact hi'

/-- A call goes on, on the shard it holds, without touching its records. -/
theorem State.Filled.stay {i k : ℕ} {old new : WriterPc} (hlocked : s.Locked) (h : s.Filled)
    (hi : s.writers[i]? = some old) (hwriters : s'.writers = s.writers.set i new)
    (hold : old.shard = some k ∨ (old.shard = none ∧ s.holder k = none))
    (hnew : new.shard = some k ∨ new.shard = none) (hcapacity : s'.capacity = s.capacity)
    (hrecords : s'.records = s.records) (hdrawn : s'.drawnOn = s.drawnOn)
    (hfill : Fill (s.capacity k) (s.records k) (s.drawnOn k) (old.on k) →
      Fill (s.capacity k) (s.records k) (s.drawnOn k) (new.on k)) : s'.Filled := by
  refine h.move hlocked hi hwriters hold hnew (fun j _ => ?_) fun hbefore => ?_
  · rw [hcapacity, hrecords, hdrawn]
    exact ⟨rfl, rfl, rfl⟩
  · rw [hcapacity, hrecords, hdrawn]
    exact hfill hbefore

theorem filled_writes {i : ℕ} {pc : WriterPc} (hlocked : s.Locked) (h : s.Filled)
    (hi : s.writers[i]? = some pc) (hs : Writes i s pc s') : s'.Filled := by
  cases hs with
  | contended j owned => exact h.aside hi rfl rfl rfl rfl rfl rfl
  | acquire j owned shard hj hfree =>
    refine h.stay hlocked hi rfl (Or.inr ⟨rfl, hfree⟩) (Or.inl rfl) (capacity_setShard hj rfl)
      (records_setShard_same hj _) rfl fun hbefore => ?_
    rw [WriterPc.on_none rfl] at hbefore
    rw [WriterPc.on_self rfl]
    exact hbefore
  | refuse j owned =>
    refine h.stay hlocked hi rfl (Or.inl rfl) (Or.inl rfl) rfl rfl rfl fun hbefore => ?_
    rw [WriterPc.on_self rfl] at hbefore ⊢
    exact hbefore
  | evict j owned shard victim records hj hrecords hfull =>
    have hcapacity := @capacity_setShard s j shard { shard with records := records } hj rfl
    have hupdate := records_setShard hj { shard with records := records }
    refine h.move (k := j) hlocked hi rfl (Or.inl rfl) (Or.inl rfl) (fun k hk => ⟨?_, ?_, rfl⟩)
      fun hbefore => ?_
    · exact congrFun hcapacity k
    · exact (congrFun hupdate k).trans (Function.update_of_ne hk _ _)
    · -- the victim joins those evicted, and leaves room for one
      rw [WriterPc.on_self rfl] at hbefore ⊢
      obtain ⟨-, evicted, hdrawn, -⟩ := hbefore
      show Fill ((setShard j _ s).capacity j) ((setShard j _ s).records j) (s.drawnOn j) _
      rw [hcapacity, hupdate, Function.update_self, capacity_of_getElem? hj, ← hfull, hrecords]
      refine ⟨Nat.lt_succ_self _, evicted ++ [victim], ?_, fun _ => rfl⟩
      rw [hdrawn, records_of_getElem? hj, hrecords, List.append_assoc]
      rfl
  | fits j owned shard hj hroom =>
    refine h.stay (k := j) hlocked hi rfl (Or.inl rfl) (Or.inl rfl) rfl rfl rfl fun hbefore => ?_
    rw [WriterPc.on_self rfl] at hbefore ⊢
    rw [capacity_of_getElem? hj, records_of_getElem? hj] at hbefore ⊢
    obtain ⟨hle, evicted, hdrawn, hfull⟩ := hbefore
    exact ⟨lt_of_le_of_ne hle hroom, evicted, hdrawn, fun hne => absurd (hfull hne) hroom⟩
  | countOverwritten j owned victim =>
    refine h.stay (k := j) hlocked hi rfl (Or.inl rfl) (Or.inl rfl) rfl rfl rfl fun hbefore => ?_
    rw [WriterPc.on_self rfl] at hbefore ⊢
    exact hbefore
  | draw j owned =>
    have hdrawnOn : ∀ k, (setWriter i (.push j ⟨s.nextSequence + 1, owned⟩) { s with
        nextSequence := s.nextSequence + 1
        stats := { s.stats with truncatedFields := s.stats.truncatedFields + owned.truncatedFields }
        drawn := s.drawn ++ [(j, ⟨s.nextSequence + 1, owned⟩)] }).drawnOn k =
          s.drawnOn k ++ if k = j then [⟨s.nextSequence + 1, owned⟩] else [] := by
      intro k
      rw [State.drawnOn, setWriter]
      dsimp only
      rw [List.filter_append, List.map_append, ← State.drawnOn]
      by_cases hk : k = j
      · simp [hk]
      · simp [hk, Ne.symm hk]
    refine h.move (k := j) hlocked hi rfl (Or.inl rfl) (Or.inl rfl) (fun k hk => ⟨rfl, rfl, ?_⟩)
      fun hbefore => ?_
    · rw [hdrawnOn, if_neg hk, List.append_nil]
    · rw [WriterPc.on_self rfl] at hbefore ⊢
      obtain ⟨hlt, evicted, hdrawn, hfull⟩ := hbefore
      rw [hdrawnOn, if_pos rfl, hdrawn]
      exact ⟨hlt, evicted, rfl, hfull⟩
  | push j record shard hj =>
    have hcapacity := @capacity_setShard { s with
      stats := { s.stats with accepted := s.stats.accepted + 1 } } j shard
      { shard with records := shard.records ++ [record] } hj rfl
    have hupdate := records_setShard (s := { s with
      stats := { s.stats with accepted := s.stats.accepted + 1 } }) hj
      { shard with records := shard.records ++ [record] }
    refine h.move (k := j) hlocked hi rfl (Or.inl rfl) (Or.inl rfl) (fun k hk => ⟨?_, ?_, rfl⟩)
      fun hbefore => ?_
    · exact congrFun hcapacity k
    · exact (congrFun hupdate k).trans (Function.update_of_ne hk _ _)
    · rw [WriterPc.on_self rfl] at hbefore ⊢
      obtain ⟨hlt, evicted, hdrawn, hfull⟩ := hbefore
      rw [records_of_getElem? hj] at hlt hdrawn hfull
      show Fill ((setShard j _ { s with stats := _ }).capacity j)
        ((setShard j _ { s with stats := _ }).records j) (s.drawnOn j) _
      rw [hcapacity, hupdate, Function.update_self]
      refine ⟨?_, evicted, ?_, ?_⟩
      · rw [List.length_append]
        exact hlt
      · rw [hdrawn, List.append_assoc]
      · rw [List.length_append]
        exact hfull
  | release j shard hj =>
    refine h.stay (k := j) hlocked hi rfl (Or.inl rfl) (Or.inr rfl) (capacity_setShard hj rfl)
      (records_setShard_same hj _) rfl fun hbefore => ?_
    rw [WriterPc.on_self rfl] at hbefore
    rw [WriterPc.on_none rfl]
    exact hbefore

theorem filled_step {a : Action} (hlocked : s.Locked) (h : s.Filled) (hs : step s a = some s') :
    s'.Filled := by
  cases a with
  | callEmit event j =>
    simp only [step] at hs
    split at hs
    · cases hs
      constructor
      · intro i k pc hi hpc
        obtain hold | rfl := Slots.getElem?_append_cases hi
        · exact h.on i k pc hold hpc
        · cases hpc
      · intro k hoff
        refine h.off k fun i pc hi hpc => hoff i pc ?_ hpc
        rw [List.getElem?_append_left (List.getElem?_eq_some_iff.mp hi).1]
        exact hi
    · cases hs
  | stepEmit i =>
    obtain ⟨pc, hi, hstep⟩ := Option.bind_eq_some_iff.mp hs
    exact filled_writes hlocked h hi (writes_of_writerStep hstep)
  | callRead cursor view =>
    cases hs
    exact ⟨h.on, h.off⟩
  | stepRead r =>
    obtain ⟨call, hr, hstep⟩ := Option.bind_eq_some_iff.mp hs
    have frame := readerStep_leaves hstep
    have hpair : ∀ j : ℕ, s'.shards[j]?.map (fun shard : Shard => (shard.capacity, shard.records)) =
        s.shards[j]?.map fun shard : Shard => (shard.capacity, shard.records) := by
      intro j
      rw [← List.getElem?_map, ← List.getElem?_map, frame.shards]
    have hcapacity : s'.capacity = s.capacity := by
      funext j
      have hfst := congrArg (Option.map Prod.fst) (hpair j)
      rw [Option.map_map, Option.map_map] at hfst
      exact congrArg (Option.getD · 0) hfst
    have hrecords : s'.records = s.records := by
      funext j
      have hsnd := congrArg (Option.map Prod.snd) (hpair j)
      rw [Option.map_map, Option.map_map] at hsnd
      exact congrArg (Option.getD · []) hsnd
    have hdrawn : s'.drawnOn = s.drawnOn := by
      funext j
      rw [State.drawnOn, frame.drawn]
      rfl
    constructor
    · rw [frame.writers, hcapacity, hrecords, hdrawn]
      exact h.on
    · rw [frame.writers, hcapacity, hrecords, hdrawn]
      exact h.off

theorem capacities_step {a : Action} (hs : step s a = some s') :
    s'.shards.map Shard.capacity = s.shards.map Shard.capacity := by
  cases a with
  | callEmit event j =>
    simp only [step] at hs
    split at hs <;> cases hs
    rfl
  | stepEmit i =>
    obtain ⟨pc, hi, hstep⟩ := Option.bind_eq_some_iff.mp hs
    cases writes_of_writerStep hstep with
    | acquire j owned shard hj hfree => exact map_setShard hj rfl
    | evict j owned shard victim records hj hrecords hfull => exact map_setShard hj rfl
    | push j record shard hj => exact map_setShard (s := { s with stats := _ }) hj rfl
    | release j shard hj => exact map_setShard hj rfl
    | _ => rfl
  | callRead cursor view =>
    cases hs
    rfl
  | stepRead r =>
    obtain ⟨call, hr, hstep⟩ := Option.bind_eq_some_iff.mp hs
    have hfst := congrArg (List.map Prod.fst) (readerStep_leaves hstep).shards
    rw [List.map_map, List.map_map] at hfst
    exact hfst

/-! ## The capacity, spread over the shards -/

theorem sum_spread (base remainder count : ℕ) :
    ((List.range count).map fun index => base + if index < remainder then 1 else 0).sum =
      count * base + min remainder count := by
  induction count with
  | zero => simp
  | succ count ih =>
    rw [List.range_succ, List.map_append, List.sum_append, ih, List.map_singleton,
      List.sum_singleton, Nat.succ_mul]
    split <;> omega

/-- The shards have the capacity between them. -/
theorem sum_capacity_withShards (capacity maxStringBytes shards : ℕ) :
    ((withShards capacity maxStringBytes shards).shards.map Shard.capacity).sum = capacity := by
  rw [withShards]
  dsimp only
  generalize hcount : (if capacity = 0 then 1 else min (max shards 1) capacity) = count
  have hpos : 0 < count := by
    rw [← hcount]
    split <;> omega
  rw [List.map_map]
  refine (sum_spread (capacity / count) (capacity % count) count).trans ?_
  rw [Nat.min_eq_left (Nat.mod_lt capacity hpos).le]
  exact Nat.div_add_mod capacity count

/-- No shard is without room, unless the recorder is. -/
theorem one_le_capacity_withShards {capacity maxStringBytes shards : ℕ} (hcap : capacity ≠ 0) :
    ∀ shard ∈ (withShards capacity maxStringBytes shards).shards, 1 ≤ shard.capacity := by
  intro shard hm
  obtain ⟨index, -, rfl⟩ := List.mem_map.mp hm
  have hdiv : 1 ≤ capacity / min (max shards 1) capacity :=
    Nat.div_pos (min_le_right _ _) (by omega)
  show 1 ≤ capacity / (if capacity = 0 then 1 else min (max shards 1) capacity) + _
  rw [if_neg hcap]
  exact hdiv.trans (Nat.le_add_right _ _)

/-! ## Accepted records -/

/-- The records accepted, each with its shard: those numbered, but for those not pushed yet. -/
def State.accepted (s : State) : List (ℕ × FlightRecord) :=
  s.drawn.filter fun drawn => .push drawn.1 drawn.2 ∉ s.writers

/-- The records a shard has accepted, in order. -/
def State.acceptedOn (s : State) (j : ℕ) : List FlightRecord :=
  (s.accepted.filter fun accepted => accepted.1 = j).map Prod.snd

/-- What every run keeps. -/
structure State.Retains (s : State) (capacities : List ℕ) : Prop where
  locked : s.Locked
  numbered : s.Numbered
  accounted : s.Accounted
  filled : s.Filled
  capacities : s.shards.map Shard.capacity = capacities

theorem retains_of_reaches {capacity maxStringBytes shards : ℕ}
    (hrun : Transition.Reaches step Transition.always
      (withShards capacity maxStringBytes shards) s) :
    s.Retains ((withShards capacity maxStringBytes shards).shards.map Shard.capacity) := by
  refine hrun.invariant (I := fun s : State => s.Retains _) ?_
    ⟨locked_withShards .., numbered_withShards .., accounted_withShards .., filled_withShards .., rfl⟩
  intro s a s' h _ hs
  exact ⟨locked_step h.locked hs, numbered_step h.locked h.numbered hs, accounted_step h.accounted hs,
    filled_step h.locked h.filled hs, (capacities_step hs).trans h.capacities⟩

theorem State.Numbered.drawn_nodup (h : s.Numbered) :
    (s.drawn.map fun drawn => drawn.2.sequence).Nodup := by
  have hseq := h.sequences
  rw [State.assigned, List.map_map] at hseq
  exact hseq ▸ List.nodup_range'

theorem acceptedOn_eq (j : ℕ) :
    s.acceptedOn j = (s.drawnOn j).filter fun record => .push j record ∉ s.writers := by
  rw [State.acceptedOn, State.accepted, State.drawnOn, List.filter_filter, List.filter_map,
    List.filter_filter]
  refine congrArg (List.map Prod.snd) (List.filter_congr fun drawn _ => ?_)
  by_cases hj : drawn.1 = j <;> simp [hj]

theorem drawnOn_nodup (h : s.Numbered) (j : ℕ) : (s.drawnOn j).Nodup := by
  have hsub : ((s.drawnOn j).map FlightRecord.sequence).Nodup := by
    rw [State.drawnOn, List.map_map]
    exact h.drawn_nodup.sublist (List.filter_sublist.map _)
  exact hsub.of_map _

/-- A shard that no call is pushing to has accepted all that was numbered for it. -/
theorem acceptedOn_of_no_push {j : ℕ} (hnone : ∀ record, .push j record ∉ s.writers) :
    s.acceptedOn j = s.drawnOn j := by
  rw [acceptedOn_eq]
  exact List.filter_eq_self.mpr fun record _ => decide_eq_true (hnone record)

/-- The call on a shard is the only one. -/
theorem State.Locked.alone (h : s.Locked) {i k j : ℕ} {pc pc' : WriterPc}
    (hi : s.writers[i]? = some pc) (hpc : pc.shard = some j) (hk : s.writers[k]? = some pc')
    (hpc' : pc'.shard = some j) : i = k := by
  have hmine := h.writers i j pc hi hpc
  rw [h.writers k j pc' hk hpc'] at hmine
  exact (Holder.writer.inj (Option.some.inj hmine)).symm

/-- A shard that a call is pushing to has accepted all but that record. -/
theorem acceptedOn_of_push (hlocked : s.Locked) (hnumbered : s.Numbered) {i j : ℕ}
    {record : FlightRecord} (hi : s.writers[i]? = some (.push j record))
    {before : List FlightRecord} (hdrawn : s.drawnOn j = before ++ [record]) :
    s.acceptedOn j = before := by
  have hpush : ∀ other, .push j other ∈ s.writers ↔ other = record := by
    intro other
    constructor
    · intro hm
      obtain ⟨k, hk⟩ := List.getElem?_of_mem hm
      have hik := hlocked.alone hi rfl hk rfl
      rw [hik, hk] at hi
      exact (WriterPc.push.inj (Option.some.inj hi)).2
    · rintro rfl
      exact List.mem_of_getElem? hi
  have hnodup := drawnOn_nodup hnumbered j
  rw [hdrawn] at hnodup
  rw [acceptedOn_eq, hdrawn, List.filter_append, List.filter_eq_self.mpr, List.filter_eq_nil_iff.mpr,
    List.append_nil]
  · intro other hm
    rw [List.mem_singleton.mp hm]
    simp [hpush]
  · intro other hm
    have hne : other ≠ record := by
      rintro rfl
      exact (List.nodup_append.mp hnodup).2.2 other hm other (List.mem_singleton_self _) rfl
    simp [hpush, hne]

/-- A shard's records are the last it has accepted. It has room for one more than them while a call
replaces the oldest, and otherwise only as long as none has been evicted. -/
theorem State.Retains.accepted {capacities : List ℕ} (h : s.Retains capacities) (j : ℕ) :
    (s.records j).length ≤ s.capacity j ∧
      ∃ evicted, s.acceptedOn j = evicted ++ s.records j ∧
        (evicted ≠ [] → s.capacity j ≤ (s.records j).length + 1) ∧
        ((∀ pc ∈ s.writers, pc.shard ≠ some j) → evicted ≠ [] →
          s.capacity j = (s.records j).length) := by
  by_cases hon : ∃ (i : ℕ) (pc : WriterPc), s.writers[i]? = some pc ∧ pc.shard = some j
  · obtain ⟨i, pc, hi, hpc⟩ := hon
    have hfill := h.filled.on i j pc hi hpc
    have hbusy : ¬ ∀ pc ∈ s.writers, pc.shard ≠ some j :=
      fun hoff => hoff pc (List.mem_of_getElem? hi) hpc
    -- only the call on the shard may be pushing to it
    have hnone : (∀ record, pc ≠ .push j record) → ∀ record, .push j record ∉ s.writers := by
      intro hne record hm
      obtain ⟨k, hk⟩ := List.getElem?_of_mem hm
      have hik := h.locked.alone hi hpc hk rfl
      rw [hik, hk] at hi
      exact hne record (Option.some.inj hi).symm
    cases pc with
    | tryLock k owned => cases hpc
    | locked k owned =>
      obtain ⟨hle, evicted, hdrawn, hfull⟩ := hfill
      rw [acceptedOn_of_no_push (hnone fun _ => WriterPc.noConfusion)]
      exact ⟨hle, evicted, hdrawn, fun hne => by have := hfull hne; omega, fun hoff => absurd hoff hbusy⟩
    | countOverwritten k owned victim =>
      obtain ⟨hlt, evicted, hdrawn, hfull⟩ := hfill
      rw [acceptedOn_of_no_push (hnone fun _ => WriterPc.noConfusion)]
      exact ⟨hlt.le, evicted, hdrawn, fun hne => (hfull hne).ge, fun hoff => absurd hoff hbusy⟩
    | draw k owned =>
      obtain ⟨hlt, evicted, hdrawn, hfull⟩ := hfill
      rw [acceptedOn_of_no_push (hnone fun _ => WriterPc.noConfusion)]
      exact ⟨hlt.le, evicted, hdrawn, fun hne => (hfull hne).ge, fun hoff => absurd hoff hbusy⟩
    | push k record =>
      cases hpc
      obtain ⟨hlt, evicted, hdrawn, hfull⟩ := hfill
      rw [acceptedOn_of_push h.locked h.numbered hi hdrawn]
      exact ⟨hlt.le, evicted, rfl, fun hne => (hfull hne).ge, fun hoff => absurd hoff hbusy⟩
    | release k =>
      obtain ⟨hle, evicted, hdrawn, hfull⟩ := hfill
      rw [acceptedOn_of_no_push (hnone fun _ => WriterPc.noConfusion)]
      exact ⟨hle, evicted, hdrawn, fun hne => by have := hfull hne; omega, fun hoff => absurd hoff hbusy⟩
    | done => cases hpc
  · have hoff : ∀ (i : ℕ) (pc : WriterPc), s.writers[i]? = some pc → pc.shard ≠ some j :=
      fun i pc hi hpc => hon ⟨i, pc, hi, hpc⟩
    obtain ⟨hle, evicted, hdrawn, hfull⟩ := h.filled.off j hoff
    have hnone : ∀ record, .push j record ∉ s.writers := by
      intro record hm
      obtain ⟨k, hk⟩ := List.getElem?_of_mem hm
      exact hoff k _ hk rfl
    rw [acceptedOn_of_no_push hnone]
    exact ⟨hle, evicted, hdrawn, fun hne => by have := hfull hne; omega, fun _ hne => (hfull hne).symm⟩

/-- Between them the shards retain no more than the capacity. -/
theorem retained_le (h : ∀ j, (s.records j).length ≤ s.capacity j) :
    s.retained ≤ (s.shards.map Shard.capacity).sum := by
  have hshard : ∀ shard ∈ s.shards, shard.records.length ≤ shard.capacity := by
    intro shard hm
    obtain ⟨j, hj⟩ := List.getElem?_of_mem hm
    have hle := h j
    rwa [records_of_getElem? hj, capacity_of_getElem? hj] at hle
  exact List.sum_le_sum hshard

/-- All that the shards retain, shard after shard. -/
def State.history (s : State) : List FlightRecord := s.shards.flatMap Shard.records

theorem history_nodup (h : s.Numbered) : (s.history.map FlightRecord.sequence).Nodup := by
  have hsorted : ∀ shard ∈ s.shards, (shard.records.map FlightRecord.sequence).Nodup := by
    intro shard hm
    obtain ⟨j, hj⟩ := List.getElem?_of_mem hm
    have hp := h.sorted j
    rw [records_of_getElem? hj] at hp
    exact hp.map _ fun _ _ hlt => Nat.ne_of_lt hlt
  rw [State.history, List.map_flatMap, List.nodup_flatMap]
  refine ⟨hsorted, List.pairwise_iff_getElem.mpr fun j k hj hk hlt => ?_⟩
  intro sequence hleft hright
  obtain ⟨record, hm, rfl⟩ := List.mem_map.mp hleft
  obtain ⟨record', hm', heq⟩ := List.mem_map.mp hright
  have hgets : ∀ {k : ℕ} (hk : k < s.shards.length) {r : FlightRecord},
      r ∈ s.shards[k].records → (k, r) ∈ s.drawn := by
    intro k hk r hr
    refine h.on_drawn k r (Or.inl ?_)
    rw [records_of_getElem? (List.getElem?_eq_getElem hk)]
    exact hr
  have hsame := h.unique (hgets hj hm) (hgets hk hm') heq.symm
  exact absurd (Prod.ext_iff.mp hsame).1 (Nat.ne_of_lt hlt)

theorem accepted_of_done (hdone : ∀ pc ∈ s.writers, pc = .done) : s.accepted = s.drawn := by
  refine List.filter_eq_self.mpr fun drawn _ => decide_eq_true fun hm => ?_
  cases hdone _ hm

theorem countP_of_done (hdone : ∀ pc ∈ s.writers, pc = .done) (p : WriterPc → Bool) :
    s.writers.countP p = if p .done then s.writers.length else 0 := by
  split
  next hp => exact List.countP_eq_length.mpr fun pc hm => by rw [hdone pc hm, hp]
  next hp => exact List.countP_eq_zero.mpr fun pc hm => by rwa [hdone pc hm]

/-- **Retention and accounting**: the shards have the capacity between them and keep what they
accepted last, and once no call of `emit` is in progress every call and every record is counted
once. -/
theorem retention_accounted (capacity maxStringBytes shards : ℕ) (s : State)
    (hrun : Transition.Reaches step Transition.always
      (withShards capacity maxStringBytes shards) s) :
    ((withShards capacity maxStringBytes shards).shards.map Shard.capacity).sum = capacity ∧
    (capacity ≠ 0 →
      ∀ shard ∈ (withShards capacity maxStringBytes shards).shards, 1 ≤ shard.capacity) ∧
    s.shards.map Shard.capacity =
      (withShards capacity maxStringBytes shards).shards.map Shard.capacity ∧
    s.retained ≤ capacity ∧
    (∀ j, s.records j <:+ s.acceptedOn j ∧
      (s.records j).Pairwise (fun a b => a.sequence < b.sequence) ∧
      min (s.capacity j) (s.acceptedOn j).length ≤ (s.records j).length + 1 ∧
      ((∀ pc ∈ s.writers, pc.shard ≠ some j) →
        (s.records j).length = min (s.capacity j) (s.acceptedOn j).length)) ∧
    (s.history.map FlightRecord.sequence).Nodup ∧
    ((∀ pc ∈ s.writers, pc = .done) →
      s.writers.length = s.stats.accepted + s.stats.dropped ∧
      s.stats.accepted = s.accepted.length ∧
      s.stats.accepted = s.nextSequence ∧
      s.nextSequence = s.retained + s.stats.overwritten ∧
      s.stats.truncatedFields =
        (s.accepted.map fun accepted => accepted.2.event.truncatedFields).sum) := by
  have h := retains_of_reaches hrun
  have hsum := sum_capacity_withShards capacity maxStringBytes shards
  refine ⟨hsum, one_le_capacity_withShards, h.capacities, ?_, fun j => ?_,
    history_nodup h.numbered, fun hdone => ?_⟩
  · have hle := retained_le fun j => (h.accepted j).1
    rwa [h.capacities, hsum] at hle
  · obtain ⟨hle, evicted, haccepted, hbusy, hidle⟩ := h.accepted j
    have hlength : (s.acceptedOn j).length = evicted.length + (s.records j).length := by
      rw [haccepted, List.length_append]
    refine ⟨⟨evicted, haccepted.symm⟩, h.numbered.sorted j, ?_, fun hoff => ?_⟩
    · by_cases hne : evicted = []
      · rw [hne] at hlength
        exact (min_le_right _ _).trans (by simp [hlength])
      · exact (min_le_left _ _).trans (hbusy hne)
    · by_cases hne : evicted = []
      · rw [hne, List.length_nil, Nat.zero_add] at hlength
        rw [hlength, Nat.min_eq_right hle]
      · have hfull := hidle hoff hne
        omega
  · have hcompleted := h.accounted.completed
    have haccepted := h.accounted.accepted
    have hretained := h.accounted.retained
    rw [countP_of_done hdone, if_neg (by decide), Nat.add_zero] at haccepted
    rw [countP_of_done hdone, countP_of_done hdone, if_neg (by decide), if_neg (by decide)] at hretained
    rw [countP_of_done hdone, if_pos (by decide)] at hcompleted
    have hlength : s.drawn.length = s.nextSequence := by
      have hseq := congrArg List.length h.numbered.sequences
      rwa [List.length_map, State.assigned, List.length_map, List.length_range'] at hseq
    have htruncated := h.accounted.truncated
    rw [State.assigned, List.map_map] at htruncated
    rw [accepted_of_done hdone, hlength]
    exact ⟨hcompleted, haccepted, haccepted, hretained.symm, htruncated⟩

/-- Two emissions on one shard, the second over the first, and one that finds the other shard held
by a read. -/
theorem retention_accounted_overwritten : ∃ s,
    Transition.Reaches step Transition.always (withShards 2 64 2) s ∧
      (∀ pc ∈ s.writers, pc = .done) ∧
      s.writers.length = s.stats.accepted + s.stats.dropped ∧
      s.nextSequence = s.retained + s.stats.overwritten ∧ s.stats.accepted = 2 ∧
      s.stats.dropped = 1 ∧ s.stats.overwritten = 1 := by
  obtain ⟨s, hrun, hdone, haccepted, hdropped, hoverwritten⟩ := Transition.exists_reaches
    step Transition.always (withShards 2 64 2)
    (fun s => (∀ pc ∈ s.writers, pc = .done) ∧ s.stats.accepted = 2 ∧ s.stats.dropped = 1 ∧
      s.stats.overwritten = 1)
    [.callEmit bareEvent 0, .stepEmit 0, .stepEmit 0, .stepEmit 0, .stepEmit 0, .stepEmit 0,
      .callEmit bareEvent 0, .stepEmit 1, .stepEmit 1, .stepEmit 1, .stepEmit 1, .stepEmit 1,
      .stepEmit 1,
      .callRead 0 .localView, .stepRead 0, .stepRead 0, .callEmit bareEvent 0, .stepEmit 2]
    (by decide)
  obtain ⟨-, -, -, -, -, -, hquiescent⟩ := retention_accounted 2 64 2 s hrun
  obtain ⟨hcompleted, -, -, hretained, -⟩ := hquiescent hdone
  exact ⟨s, hrun, hdone, hcompleted, hretained, haccepted, hdropped, hoverwritten⟩

end Logwise.FlightRecorder
