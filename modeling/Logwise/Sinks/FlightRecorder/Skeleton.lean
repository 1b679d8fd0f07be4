import Logwise.Sinks.FlightRecorder.Reads

/-!
# The recorder does not look at the events

What the recorder does, which shard it locks, what it overwrites, which records a read returns,
depends on the calls and not on what the events say. `skeleton` replaces every event by one without
content; the machine runs on skeletons as it does on states.
-/

namespace Logwise.FlightRecorder

def blankEvent : OwnedProjectedEvent := OwnedProjectedEvent.copyFrom bareEvent 0

def FlightRecord.blank (record : FlightRecord) : FlightRecord :=
  { record with event := blankEvent }

def Shard.blank (shard : Shard) : Shard :=
  { shard with records := shard.records.map FlightRecord.blank }

def WriterPc.blank : WriterPc → WriterPc
  | .tryLock j _ => .tryLock j blankEvent
  | .locked j _ => .locked j blankEvent
  | .countOverwritten j _ victim => .countOverwritten j blankEvent (FlightRecord.blank victim)
  | .draw j _ => .draw j blankEvent
  | .push j record => .push j (FlightRecord.blank record)
  | .release j => .release j
  | .done => .done

def Scan.blank (scan : Scan) : Scan :=
  { scan with records := scan.records.map FlightRecord.blank }

/-- The totals that depend on what the events say are cleared. -/
def FlightRead.blank (read : FlightRead) : FlightRead :=
  { read with
    records := read.records.map FlightRecord.blank, truncatedFieldsTotal := 0, omittedFields := 0 }

def ReadPc.blank : ReadPc → ReadPc
  | .loadWatermark => .loadWatermark
  | .tryLock j scan => .tryLock j scan.blank
  | .locked j scan => .locked j scan.blank
  | .release j scan => .release j scan.blank
  | .loadTotals scan => .loadTotals scan.blank
  | .done read => .done (FlightRead.blank read)

def ReadCall.blank (call : ReadCall) : ReadCall := { call with pc := call.pc.blank }

def State.skeleton (s : State) : State :=
  { s with
    shards := s.shards.map Shard.blank
    stats := { s.stats with truncatedFields := 0 }
    writers := s.writers.map WriterPc.blank
    readers := s.readers.map ReadCall.blank
    drawn := s.drawn.map fun p => (p.1, FlightRecord.blank p.2)
    overwritten := s.overwritten.map FlightRecord.blank }

def Action.blank : Action → Action
  | .callEmit _ j => .callEmit bareEvent j
  | a => a

variable {s : State}

theorem getElem?_skeleton_shards (j : ℕ) :
    s.skeleton.shards[j]? = s.shards[j]?.map Shard.blank := List.getElem?_map

theorem skeleton_setWriter (i : ℕ) (pc : WriterPc) :
    (setWriter i pc s).skeleton = setWriter i pc.blank s.skeleton := by
  simp only [State.skeleton, setWriter, List.map_set]

theorem skeleton_setShard (j : ℕ) (shard : Shard) :
    (setShard j shard s).skeleton = setShard j (Shard.blank shard) s.skeleton := by
  simp only [State.skeleton, setShard, List.map_set]

theorem skeleton_setReader (r : ℕ) (call : ReadCall) (pc : ReadPc) :
    (setReader r call pc s).skeleton = setReader r call.blank pc.blank s.skeleton := by
  simp only [State.skeleton, setReader, List.map_set, ReadCall.blank]

theorem skeleton_countDropped : (countDropped s).skeleton = countDropped s.skeleton := rfl

/-- What is done with a shard, if there is one, is done with its skeleton. -/
theorem map_skeleton_shard {f g : Shard → State} (j : ℕ)
    (h : ∀ shard, f (Shard.blank shard) = (g shard).skeleton) :
    s.skeleton.shards[j]?.map f = (s.shards[j]?.map g).map State.skeleton := by
  rw [getElem?_skeleton_shards, Option.map_map, Option.map_map]
  exact congrArg (fun k => s.shards[j]?.map k) (funext h)

theorem skeleton_writerStep (i : ℕ) (pc : WriterPc) :
    writerStep i s.skeleton pc.blank = (writerStep i s pc).map State.skeleton := by
  cases pc with
  | tryLock j owned =>
    refine map_skeleton_shard j fun shard => ?_
    by_cases hfree : shard.holder = none
    · rw [if_pos hfree, skeleton_setWriter, skeleton_setShard]
      exact if_pos hfree
    · rw [if_neg hfree, skeleton_setWriter, skeleton_countDropped]
      exact if_neg hfree
  | locked j owned =>
    refine map_skeleton_shard j fun ⟨capacity, records, holder⟩ => ?_
    by_cases hcapacity : capacity = 0
    · rw [if_pos hcapacity, skeleton_setWriter, skeleton_countDropped]
      exact if_pos hcapacity
    · rw [if_neg hcapacity]
      refine (if_neg hcapacity).trans ?_
      cases records with
      | nil => exact (skeleton_setWriter i (.draw j owned)).symm
      | cons victim records =>
        show (if ((victim :: records).map FlightRecord.blank).length = capacity then _ else _) =
          State.skeleton (if (victim :: records).length = capacity then _ else _)
        rw [List.length_map]
        by_cases hfull : (victim :: records).length = capacity
        · rw [if_pos hfull, if_pos hfull, skeleton_setWriter, skeleton_setShard]
          rfl
        · rw [if_neg hfull, if_neg hfull, skeleton_setWriter]
          rfl
  | countOverwritten j owned victim =>
    simp [writerStep, WriterPc.blank, State.skeleton, setWriter, List.map_set]
  | draw j owned =>
    simp [writerStep, WriterPc.blank, State.skeleton, setWriter, List.map_set, FlightRecord.blank]
    rfl
  | push j record =>
    refine map_skeleton_shard j fun shard => ?_
    simp [State.skeleton, setWriter, setShard, List.map_set, Shard.blank, WriterPc.blank]
  | release j =>
    refine map_skeleton_shard j fun shard => ?_
    rw [skeleton_setWriter, skeleton_setShard]
    rfl
  | done => rfl

/-- A projection keeps the sequence, and nothing of a record without content is left out. -/
theorem blank_projectRecord (record : FlightRecord) (view : RecorderView) :
    FlightRecord.blank (projectRecord record view) =
      projectRecord (FlightRecord.blank record) view := by
  cases view <;> rfl

theorem map_blank_select (cursor : ℕ) (view : RecorderView) (watermark : ℕ)
    (records : List FlightRecord) :
    (select cursor view watermark records).map FlightRecord.blank =
      select cursor view watermark (records.map FlightRecord.blank) := by
  rw [select, select, List.map_map, List.filter_map, List.map_map]
  refine congrArg₂ List.map (funext fun record => blank_projectRecord record view) ?_
  rfl

theorem blank_finish (cursor : ℕ) (scan : Scan) (stats : FlightRecorderStats) :
    FlightRead.blank (finish cursor scan stats) =
      finish cursor scan.blank { stats with truncatedFields := 0 } := by
  have hsort : (scan.records.insertionSort fun a b => a.sequence ≤ b.sequence).map
      FlightRecord.blank =
        (scan.records.map FlightRecord.blank).insertionSort fun a b => a.sequence ≤ b.sequence :=
    List.map_insertionSort _ _ _ _ fun _ _ _ _ => Iff.rfl
  have homitted : ∀ records : List FlightRecord,
      ((records.map FlightRecord.blank).map fun record => record.event.omittedFields).sum = 0 := by
    intro records
    induction records with
    | nil => rfl
    | cons record records ih =>
      rw [List.map_cons, List.map_cons, List.sum_cons, ih]
      rfl
  simp only [finish, FlightRead.blank, Scan.blank, ← hsort, homitted]
  rfl

theorem skeleton_readerStep (r : ℕ) (call : ReadCall) :
    readerStep r call.blank s.skeleton = (readerStep r call s).map State.skeleton := by
  obtain ⟨cursor, view, pc⟩ := call
  cases pc with
  | loadWatermark =>
    refine congrArg some ?_
    rw [skeleton_setReader]
    rfl
  | tryLock j scan =>
    simp only [readerStep, ReadCall.blank, ReadPc.blank, getElem?_skeleton_shards]
    cases s.shards[j]? with
    | none =>
      refine congrArg some ?_
      rw [skeleton_setReader]
      rfl
    | some shard =>
      by_cases hfree : shard.holder = none
      · have hblank : (Shard.blank shard).holder = none := hfree
        simp only [Option.map_some, if_pos hfree, if_pos hblank]
        rw [skeleton_setReader, skeleton_setShard]
        rfl
      · have hblank : (Shard.blank shard).holder ≠ none := hfree
        simp only [Option.map_some, if_neg hfree, if_neg hblank]
        rw [skeleton_setReader]
        rfl
  | locked j scan =>
    refine map_skeleton_shard j fun shard => ?_
    rw [skeleton_setReader]
    simp only [ReadCall.blank, ReadPc.blank, Scan.blank, Shard.blank, List.map_append,
      map_blank_select]
  | release j scan =>
    refine map_skeleton_shard j fun shard => ?_
    rw [skeleton_setReader, skeleton_setShard]
    rfl
  | loadTotals scan =>
    refine congrArg some ?_
    rw [skeleton_setReader, ReadPc.blank, blank_finish]
    rfl
  | done read => rfl

/-- **The recorder runs alike whatever the events say.** -/
theorem skeleton_step (s : State) (a : Action) :
    step s.skeleton a.blank = (step s a).map State.skeleton := by
  cases a with
  | callEmit event j =>
    have hlength : s.skeleton.shards.length = s.shards.length := List.length_map _
    simp only [step, Action.blank, hlength]
    split
    · simp only [Option.map_some, State.skeleton, List.map_append]
      rfl
    · rfl
  | stepEmit i =>
    have hi : s.skeleton.writers[i]? = s.writers[i]?.map WriterPc.blank := List.getElem?_map
    simp only [step, Action.blank, hi]
    cases s.writers[i]? with
    | none => rfl
    | some pc => exact skeleton_writerStep i pc
  | callRead cursor view =>
    simp only [step, Action.blank, Option.map_some, State.skeleton, List.map_append]
    rfl
  | stepRead r =>
    have hr : s.skeleton.readers[r]? = s.readers[r]?.map ReadCall.blank := List.getElem?_map
    simp only [step, Action.blank, hr]
    cases s.readers[r]? with
    | none => rfl
    | some call => exact skeleton_readerStep r call

theorem skeleton_run (s : State) (as : List Action) :
    Transition.run step s.skeleton (as.map Action.blank) =
      (Transition.run step s as).map State.skeleton :=
  Transition.run_map skeleton_step s as

end Logwise.FlightRecorder
