import Logwise.Sinks.Owned

/-!
# The flight recorder

`FlightRecorder` (`flight_recorder.rs`) with any number of emissions and reads in progress. Each
step is one acquisition of a shard or a failure to get it, one access of a shard that is held, one
release, or one access of a shared counter. `drawn` and `overwritten` are not cells of the source:
they keep what has been numbered, with its shard, and what has been overwritten.
-/

namespace Logwise

inductive RecorderView where
  | localView | remote
  deriving DecidableEq, Repr

structure FlightRecord where
  sequence : ℕ
  event : OwnedProjectedEvent
  deriving DecidableEq

structure FlightRecorderStats where
  accepted : ℕ := 0
  dropped : ℕ := 0
  overwritten : ℕ := 0
  truncatedFields : ℕ := 0
  deriving DecidableEq, Repr

structure FlightRead where
  requestedCursor : ℕ
  nextCursor : ℕ
  records : List FlightRecord
  droppedTotal : ℕ
  overwrittenTotal : ℕ
  truncatedFieldsTotal : ℕ
  omittedFields : ℕ
  busyShards : ℕ
  deriving DecidableEq

def FlightRead.isComplete (read : FlightRead) : Bool := read.busyShards = 0

namespace FlightRecorder

/-- The ingress guard of `emit`. -/
def ingest (event : ProjectedEvent) : ProjectedEvent :=
  let fields := event.fields.filter fun field => field.privacy ≠ .secret
  { event with
    fields := fields
    omittedFields := event.omittedFields + (event.fields.length - fields.length) }

def projectRecord (record : FlightRecord) (view : RecorderView) : FlightRecord :=
  let event := record.event
  let fields := event.fields.filter fun field =>
    field.privacy ≠ .secret && (view = .localView || field.privacy = .supportSafe)
  { sequence := record.sequence
    event := { event with
      fields := fields
      omittedFields := event.omittedFields + (event.fields.length - fields.length)
      message := if view = .remote then none else event.message } }

/-- Who holds a shard. -/
inductive Holder where
  | writer (i : ℕ)
  | reader (r : ℕ)
  deriving DecidableEq

structure Shard where
  capacity : ℕ
  records : List FlightRecord
  holder : Option Holder

/-- How far a call of `emit` has got. -/
inductive WriterPc where
  | tryLock (shard : ℕ) (owned : OwnedProjectedEvent)
  | locked (shard : ℕ) (owned : OwnedProjectedEvent)
  | countOverwritten (shard : ℕ) (owned : OwnedProjectedEvent) (victim : FlightRecord)
  | draw (shard : ℕ) (owned : OwnedProjectedEvent)
  | push (shard : ℕ) (record : FlightRecord)
  | release (shard : ℕ)
  | done
  deriving DecidableEq

/-- What a read has gathered. -/
structure Scan where
  watermark : ℕ
  records : List FlightRecord
  busyShards : ℕ
  deriving DecidableEq

/-- How far a call of `read_since` has got. -/
inductive ReadPc where
  | loadWatermark
  | tryLock (shard : ℕ) (scan : Scan)
  | locked (shard : ℕ) (scan : Scan)
  | release (shard : ℕ) (scan : Scan)
  | loadTotals (scan : Scan)
  | done (read : FlightRead)
  deriving DecidableEq

structure ReadCall where
  cursor : ℕ
  view : RecorderView
  pc : ReadPc
  deriving DecidableEq

structure State where
  maxStringBytes : ℕ
  nextSequence : ℕ
  shards : List Shard
  stats : FlightRecorderStats
  writers : List WriterPc
  readers : List ReadCall
  drawn : List (ℕ × FlightRecord)
  overwritten : List FlightRecord

/-- Every record that was assigned a sequence. -/
def State.assigned (s : State) : List FlightRecord := s.drawn.map Prod.snd

/-- `FlightRecorder::with_shards`, before any call. It allocates every shard whole, and panics where
that cannot be done; then there is no recorder. -/
def withShards (capacity maxStringBytes shards : ℕ) : State :=
  let shardCount := if capacity = 0 then 1 else min (max shards 1) capacity
  let base := capacity / shardCount
  let remainder := capacity % shardCount
  { maxStringBytes := maxStringBytes
    nextSequence := 0
    shards := (List.range shardCount).map fun index =>
      { capacity := base + if index < remainder then 1 else 0, records := [], holder := none }
    stats := {}
    writers := [], readers := [], drawn := [], overwritten := [] }

inductive Action where
  /-- A call of `emit` on a thread whose id hashes to `shard`. -/
  | callEmit (event : ProjectedEvent) (shard : ℕ)
  | stepEmit (i : ℕ)
  | callRead (cursor : ℕ) (view : RecorderView)
  | stepRead (r : ℕ)
  deriving DecidableEq

def setWriter (i : ℕ) (pc : WriterPc) (s : State) : State :=
  { s with writers := s.writers.set i pc }

def setShard (j : ℕ) (shard : Shard) (s : State) : State :=
  { s with shards := s.shards.set j shard }

def countDropped (s : State) : State :=
  { s with stats := { s.stats with dropped := s.stats.dropped + 1 } }

/-- The steps of `emit` on its shard. -/
def writerStep (i : ℕ) (s : State) : WriterPc → Option State
  | .tryLock j owned =>
    s.shards[j]?.map fun shard =>
      if shard.holder = none then
        setWriter i (.locked j owned) (setShard j { shard with holder := some (.writer i) } s)
      else setWriter i .done (countDropped s)
  | .locked j owned =>
    s.shards[j]?.map fun shard =>
      if shard.capacity = 0 then setWriter i (.release j) (countDropped s)
      else
        match shard.records with
        | victim :: records =>
          if shard.records.length = shard.capacity then
            setWriter i (.countOverwritten j owned victim)
              (setShard j { shard with records := records } s)
          else setWriter i (.draw j owned) s
        -- an empty shard is not full
        | [] => setWriter i (.draw j owned) s
  | .countOverwritten j owned victim =>
    some (setWriter i (.draw j owned) { s with
      stats := { s.stats with overwritten := s.stats.overwritten + 1 }
      overwritten := s.overwritten ++ [victim] })
  | .draw j owned =>
    let record : FlightRecord := { sequence := s.nextSequence + 1, event := owned }
    some (setWriter i (.push j record) { s with
      nextSequence := s.nextSequence + 1
      stats := { s.stats with truncatedFields := s.stats.truncatedFields + owned.truncatedFields }
      drawn := s.drawn ++ [(j, record)] })
  | .push j record =>
    s.shards[j]?.map fun shard =>
      setWriter i (.release j)
        (setShard j { shard with records := shard.records ++ [record] } { s with
          stats := { s.stats with accepted := s.stats.accepted + 1 } })
  | .release j =>
    s.shards[j]?.map fun shard => setWriter i .done (setShard j { shard with holder := none } s)
  | .done => none

/-- What `read_since` makes of a scan and the totals. -/
def finish (cursor : ℕ) (scan : Scan) (stats : FlightRecorderStats) : FlightRead :=
  let records := scan.records.insertionSort fun a b => a.sequence ≤ b.sequence
  { requestedCursor := cursor
    nextCursor := if scan.busyShards = 0 then max scan.watermark cursor else cursor
    records := records
    droppedTotal := stats.dropped
    overwrittenTotal := stats.overwritten
    truncatedFieldsTotal := stats.truncatedFields
    omittedFields := (records.map fun record => record.event.omittedFields).sum
    busyShards := scan.busyShards }

/-- What a locked scan takes from a shard. -/
def select (cursor : ℕ) (view : RecorderView) (watermark : ℕ) (records : List FlightRecord) :
    List FlightRecord :=
  (records.filter fun record => cursor < record.sequence ∧ record.sequence ≤ watermark).map
    fun record => projectRecord record view

def setReader (r : ℕ) (call : ReadCall) (pc : ReadPc) (s : State) : State :=
  { s with readers := s.readers.set r { call with pc := pc } }

def readerStep (r : ℕ) (call : ReadCall) (s : State) : Option State :=
  match call.pc with
  | .loadWatermark =>
    some (setReader r call
      (.tryLock 0 { watermark := s.nextSequence, records := [], busyShards := 0 }) s)
  | .tryLock j scan =>
    match s.shards[j]? with
    | some shard =>
      if shard.holder = none then
        some (setReader r call (.locked j scan)
          (setShard j { shard with holder := some (.reader r) } s))
      else
        some (setReader r call (.tryLock (j + 1) { scan with busyShards := scan.busyShards + 1 }) s)
    | none => some (setReader r call (.loadTotals scan) s)
  | .locked j scan =>
    s.shards[j]?.map fun shard =>
      setReader r call
        (.release j { scan with
          records := scan.records ++ select call.cursor call.view scan.watermark shard.records }) s
  | .release j scan =>
    s.shards[j]?.map fun shard =>
      setReader r call (.tryLock (j + 1) scan) (setShard j { shard with holder := none } s)
  | .loadTotals scan => some (setReader r call (.done (finish call.cursor scan s.stats)) s)
  | .done _ => none

def step (s : State) : Action → Option State
  | .callEmit event j =>
    if j < s.shards.length then
      some { s with
        writers := s.writers ++
          [.tryLock j (OwnedProjectedEvent.copyFrom (ingest event) s.maxStringBytes)] }
    else none
  | .stepEmit i => s.writers[i]?.bind fun pc => writerStep i s pc
  | .callRead cursor view =>
    some { s with readers := s.readers ++ [{ cursor := cursor, view := view, pc := .loadWatermark }] }
  | .stepRead r => s.readers[r]?.bind fun call => readerStep r call s

/-- No record that the recorder keeps has a secret field. -/
theorem copyFrom_ingest_privacy (event : ProjectedEvent) (maxStringBytes : ℕ) :
    ∀ field ∈ (OwnedProjectedEvent.copyFrom (ingest event) maxStringBytes).fields,
      field.privacy ≠ .secret := by
  intro field hm hsecret
  obtain ⟨source, hsource, hp⟩ := copyFrom_privacy.mp ⟨field, hm, hsecret⟩
  have hne := (List.mem_filter.mp hsource).2
  exact absurd hp (by simpa using hne)

end FlightRecorder

end Logwise
