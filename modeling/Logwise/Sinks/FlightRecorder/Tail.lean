import Logwise.Sinks.FlightRecorder.Remote
import Mathlib.Algebra.Ring.Nat

/-!
# A read that is alone, and the newest records

With nothing else going on between its steps, a read returns what the shards that nobody holds
retain. `tail` cuts these records, and leaves what the read says of them.
-/

namespace Logwise.FlightRecorder

variable {s t t' : State} {cursor : ℕ} {view : RecorderView}

/-- What a scan makes of a shard. -/
def scanShard (cursor : ℕ) (view : RecorderView) (scan : Scan) (shard : Shard) : Scan :=
  if shard.holder = none then
    { scan with records := scan.records ++ select cursor view scan.watermark shard.records }
  else { scan with busyShards := scan.busyShards + 1 }

/-- The scan of the first `j` shards. -/
def State.scan (s : State) (cursor : ℕ) (view : RecorderView) (j : ℕ) : Scan :=
  (s.shards.take j).foldl (scanShard cursor view)
    { watermark := s.nextSequence, records := [], busyShards := 0 }

/-- `FlightRecorder::read_since`, with nothing else going on. -/
def readSince (cursor : ℕ) (view : RecorderView) (s : State) : FlightRead :=
  finish cursor (s.scan cursor view s.shards.length) s.stats

theorem scan_succ {j : ℕ} {shard : Shard} (hj : s.shards[j]? = some shard) :
    s.scan cursor view (j + 1) = scanShard cursor view (s.scan cursor view j) shard := by
  rw [State.scan, List.take_add_one, hj, List.foldl_append]
  rfl

theorem scan_end {j : ℕ} (hj : s.shards[j]? = none) (hle : j ≤ s.shards.length) :
    s.scan cursor view j = s.scan cursor view s.shards.length := by
  rw [le_antisymm hle (List.getElem?_eq_none_iff.mp hj)]

/-- What a read that is alone has found of the recorder `s` it was called on. -/
def ReadPc.Follows (s : State) (cursor : ℕ) (view : RecorderView) (t : State) : ReadPc → Prop
  | .loadWatermark => t.shards = s.shards
  | .tryLock j scan => t.shards = s.shards ∧ j ≤ s.shards.length ∧ scan = s.scan cursor view j
  | .locked j scan => ∃ shard, s.shards[j]? = some shard ∧ shard.holder = none ∧
    t.shards = s.shards.set j { shard with holder := some (.reader s.readers.length) } ∧
    scan = s.scan cursor view j
  | .release j scan => ∃ shard, s.shards[j]? = some shard ∧ shard.holder = none ∧
    t.shards = s.shards.set j { shard with holder := some (.reader s.readers.length) } ∧
    scan = s.scan cursor view (j + 1)
  | .loadTotals scan => t.shards = s.shards ∧ scan = s.scan cursor view s.shards.length
  | .done read => t.shards = s.shards ∧ read = readSince cursor view s

/-- The last call on the recorder is a read that has been alone on it since `s`. -/
structure State.Alone (s : State) (cursor : ℕ) (view : RecorderView) (t : State) (pc : ReadPc) :
    Prop where
  readers : t.readers = s.readers ++ [⟨cursor, view, pc⟩]
  nextSequence : t.nextSequence = s.nextSequence
  stats : t.stats = s.stats
  follows : pc.Follows s cursor view t

/-- How many steps a read has at most ahead of it, on `n` shards. -/
def ReadPc.ahead (n : ℕ) : ReadPc → ℕ
  | .loadWatermark => 3 * n + 4
  | .tryLock j _ => 3 * (n - j) + 3
  | .locked j _ => 3 * (n - j) + 2
  | .release j _ => 3 * (n - j) + 1
  | .loadTotals _ => 1
  | .done _ => 0

theorem State.Alone.call {pc : ReadPc} (h : s.Alone cursor view t pc) :
    t.readers[s.readers.length]? = some ⟨cursor, view, pc⟩ := by
  rw [h.readers, List.getElem?_append_right le_rfl, Nat.sub_self]
  rfl

theorem State.Alone.set {pc pc' : ReadPc} (h : s.Alone cursor view t pc) :
    (setReader s.readers.length ⟨cursor, view, pc⟩ pc' t).readers =
      s.readers ++ [⟨cursor, view, pc'⟩] := by
  show t.readers.set _ _ = _
  rw [h.readers, List.set_append_right _ _ le_rfl, Nat.sub_self]
  rfl

/-- A read that is alone and has not returned goes on, and gets closer to returning. -/
theorem State.Alone.next {pc : ReadPc} (h : s.Alone cursor view t pc)
    (hpc : ∀ read, pc ≠ .done read) : ∃ t' pc', readerStep s.readers.length ⟨cursor, view, pc⟩ t =
      some t' ∧ s.Alone cursor view t' pc' ∧
        pc'.ahead s.shards.length < pc.ahead s.shards.length := by
  have hfollows := h.follows
  cases pc with
  | loadWatermark =>
    refine ⟨_, .tryLock 0 _, rfl, ⟨h.set, h.nextSequence, h.stats, hfollows, Nat.zero_le _, ?_⟩, ?_⟩
    · rw [h.nextSequence]
      rfl
    · simp only [ReadPc.ahead]
      omega
  | tryLock j scan =>
    obtain ⟨hshards, hle, hscan⟩ := hfollows
    cases hj : s.shards[j]? with
    | none =>
      refine ⟨setReader s.readers.length ⟨cursor, view, .tryLock j scan⟩ (.loadTotals scan) t,
        .loadTotals scan, ?_, ⟨h.set, h.nextSequence, h.stats, hshards, ?_⟩, ?_⟩
      · simp only [readerStep, hshards, hj]
      · rw [hscan, scan_end hj hle]
      · simp only [ReadPc.ahead]
        omega
    | some shard =>
      have hlt : j < s.shards.length := (List.getElem?_eq_some_iff.mp hj).1
      by_cases hfree : shard.holder = none
      · refine ⟨setReader s.readers.length ⟨cursor, view, .tryLock j scan⟩ (.locked j scan)
            (setShard j { shard with holder := some (.reader s.readers.length) } t),
          .locked j scan, ?_, ⟨h.set, h.nextSequence, h.stats, shard, hj, hfree, ?_, hscan⟩, ?_⟩
        · simp only [readerStep, hshards, hj, hfree, if_true]
        · show t.shards.set j _ = _
          rw [hshards]
        · simp only [ReadPc.ahead]
          omega
      · -- a shard somebody holds is passed over
        refine ⟨setReader s.readers.length ⟨cursor, view, .tryLock j scan⟩
            (.tryLock (j + 1) { scan with busyShards := scan.busyShards + 1 }) t,
          .tryLock (j + 1) _, ?_, ⟨h.set, h.nextSequence, h.stats, hshards, hlt, ?_⟩, ?_⟩
        · simp only [readerStep, hshards, hj, hfree, if_false]
        · rw [scan_succ hj, scanShard, if_neg hfree, hscan]
        · simp only [ReadPc.ahead]
          omega
  | locked j scan =>
    obtain ⟨shard, hj, hfree, hshards, hscan⟩ := hfollows
    have hlt : j < s.shards.length := (List.getElem?_eq_some_iff.mp hj).1
    have hheld : t.shards[j]? = some { shard with holder := some (.reader s.readers.length) } := by
      rw [hshards, List.getElem?_set_self hlt]
    have hnext : { scan with
        records := scan.records ++ select cursor view scan.watermark shard.records } =
          s.scan cursor view (j + 1) := by
      rw [scan_succ hj, scanShard, if_pos hfree, hscan]
    refine ⟨setReader s.readers.length ⟨cursor, view, .locked j scan⟩ (.release j { scan with
        records := scan.records ++ select cursor view scan.watermark shard.records }) t,
      .release j _, ?_, ⟨h.set, h.nextSequence, h.stats, shard, hj, hfree, hshards, hnext⟩, ?_⟩
    · simp only [readerStep, hheld, Option.map_some]
    · simp only [ReadPc.ahead]
      omega
  | release j scan =>
    obtain ⟨shard, hj, hfree, hshards, hscan⟩ := hfollows
    have hlt : j < s.shards.length := (List.getElem?_eq_some_iff.mp hj).1
    have hheld : t.shards[j]? = some { shard with holder := some (.reader s.readers.length) } := by
      rw [hshards, List.getElem?_set_self hlt]
    have hback : t.shards.set j { shard with holder := none } = s.shards := by
      have hsame : s.shards.set j shard = s.shards := by
        obtain ⟨_, hget⟩ := List.getElem?_eq_some_iff.mp hj
        rw [← hget]
        exact List.set_getElem_self _
      rw [hshards, List.set_set, ← hfree]
      exact hsame
    refine ⟨setReader s.readers.length ⟨cursor, view, .release j scan⟩ (.tryLock (j + 1) scan)
        (setShard j { shard with holder := none } t),
      .tryLock (j + 1) scan, ?_, ⟨h.set, h.nextSequence, h.stats, hback, hlt, hscan⟩, ?_⟩
    · simp only [readerStep, hheld, Option.map_some]
    · simp only [ReadPc.ahead]
      omega
  | loadTotals scan =>
    obtain ⟨hshards, hscan⟩ := hfollows
    refine ⟨_, .done (readSince cursor view s), rfl,
      ⟨?_, h.nextSequence, h.stats, hshards, rfl⟩, Nat.lt_succ_self _⟩
    rw [readSince, ← hscan, ← h.stats]
    exact h.set
  | done read => exact absurd rfl (hpc read)

/-- The recorder's next call is `read_since`, nothing else goes on until it returns, and it returns
`read`. -/
def ReadsAlone (s : State) (cursor : ℕ) (view : RecorderView) (read : FlightRead) : Prop :=
  ∃ called t, step s (.callRead cursor view) = some called ∧
    Transition.Reaches step (fun _ a => a = .stepRead s.readers.length) called t ∧
      t.readers[s.readers.length]? = some ⟨cursor, view, .done read⟩

theorem alone_called : s.Alone cursor view
    { s with readers := s.readers ++ [⟨cursor, view, .loadWatermark⟩] } .loadWatermark :=
  ⟨rfl, rfl, rfl, rfl⟩

theorem alone_of_reaches {pc : ReadPc} (h : s.Alone cursor view t pc)
    (hrun : Transition.Reaches step (fun _ a => a = .stepRead s.readers.length) t t') :
    ∃ pc', s.Alone cursor view t' pc' := by
  refine hrun.invariant (I := fun t => ∃ pc, s.Alone cursor view t pc) ?_ ⟨pc, h⟩
  rintro t a t' ⟨pc, h⟩ rfl hs
  obtain ⟨call, hcall, hstep⟩ := Option.bind_eq_some_iff.mp hs
  rw [h.call] at hcall
  cases hcall
  by_cases hpc : ∃ read, pc = .done read
  · obtain ⟨read, rfl⟩ := hpc
    cases hstep
  · obtain ⟨u, pc', hu, hnext, -⟩ := h.next fun read he => hpc ⟨read, he⟩
    rw [hu] at hstep
    cases hstep
    exact ⟨pc', hnext⟩

theorem exists_returned {pc : ReadPc} (h : s.Alone cursor view t pc) :
    ∃ t', Transition.Reaches step (fun _ a => a = .stepRead s.readers.length) t t' ∧
      s.Alone cursor view t' (.done (readSince cursor view s)) := by
  induction hn : pc.ahead s.shards.length using Nat.strong_induction_on generalizing t pc with
  | _ n ih =>
    by_cases hpc : ∃ read, pc = .done read
    · obtain ⟨read, rfl⟩ := hpc
      obtain ⟨-, rfl⟩ := h.follows
      exact ⟨t, .refl, h⟩
    · obtain ⟨u, pc', hu, hnext, hlt⟩ := h.next fun read he => hpc ⟨read, he⟩
      obtain ⟨t', hrun, hdone⟩ := ih _ (hn ▸ hlt) hnext rfl
      exact ⟨t', .head rfl (Option.bind_eq_some_iff.mpr ⟨_, h.call, hu⟩) hrun, hdone⟩

/-- A read that is alone returns, and what it returns is a function of the recorder. -/
theorem readsAlone_iff {read : FlightRead} :
    ReadsAlone s cursor view read ↔ read = readSince cursor view s := by
  constructor
  · rintro ⟨called, t, hcalled, hrun, hdone⟩
    cases hcalled
    obtain ⟨pc, halone⟩ := alone_of_reaches alone_called hrun
    rw [halone.call] at hdone
    cases hdone
    exact halone.follows.2
  · rintro rfl
    obtain ⟨t, hrun, hdone⟩ := exists_returned (@alone_called s cursor view)
    exact ⟨_, t, rfl, hrun, hdone.call⟩

/-! ## The records of a read, and what is cut from them -/

/-- The records newer than the cursor on the shards that nobody holds, by sequence. -/
def State.readable (s : State) (cursor : ℕ) : List FlightRecord :=
  ((s.shards.filter fun shard => shard.holder = none).flatMap fun shard =>
    shard.records.filter fun record =>
      cursor < record.sequence ∧ record.sequence ≤ s.nextSequence).insertionSort
        fun a b => a.sequence ≤ b.sequence

theorem foldl_scanShard (shards : List Shard) (scan : Scan) :
    let scanned := shards.foldl (scanShard cursor view) scan
    scanned.watermark = scan.watermark ∧
      scanned.records = scan.records ++ ((shards.filter fun shard => shard.holder = none).flatMap
        fun shard => shard.records.filter fun record =>
          cursor < record.sequence ∧ record.sequence ≤ scan.watermark).map
            fun record => projectRecord record view := by
  induction shards generalizing scan with
  | nil => exact ⟨rfl, (List.append_nil _).symm⟩
  | cons shard shards ih =>
    obtain ⟨hwatermark, hrecords⟩ := ih (scanShard cursor view scan shard)
    by_cases hfree : shard.holder = none
    · rw [scanShard, if_pos hfree] at hwatermark hrecords
      refine ⟨?_, ?_⟩
      · rw [List.foldl_cons, scanShard, if_pos hfree, hwatermark]
      · rw [List.foldl_cons, scanShard, if_pos hfree, hrecords, List.filter_cons_of_pos (by simp [hfree]),
          List.flatMap_cons, List.map_append, List.append_assoc]
        rfl
    · rw [scanShard, if_neg hfree] at hwatermark hrecords
      refine ⟨?_, ?_⟩
      · rw [List.foldl_cons, scanShard, if_neg hfree, hwatermark]
      · rw [List.foldl_cons, scanShard, if_neg hfree, hrecords, List.filter_cons_of_neg (by simp [hfree])]

theorem readSince_records : (readSince cursor view s).records =
    (s.readable cursor).map fun record => projectRecord record view := by
  have hscan := (@foldl_scanShard cursor view s.shards
    { watermark := s.nextSequence, records := [], busyShards := 0 }).2
  rw [State.readable, List.map_insertionSort _ (fun a b => a.sequence ≤ b.sequence)]
  · rw [readSince, finish, State.scan, List.take_length]
    exact congrArg (List.insertionSort _) hscan
  · exact fun _ _ _ _ => Iff.rfl

/-- The recorder's next call is `tail`, nothing else goes on until it returns, and it returns
`last`. -/
def TailsAlone (s : State) (limit : ℕ) (view : RecorderView) (last : FlightRead) : Prop :=
  ∃ read, ReadsAlone s 0 view read ∧ last = tail limit read

/-- The read holds the last of the records of `full`, as many as the limit allows, and says what
they leave out. -/
def TailDescribes (limit : ℕ) (full last : FlightRead) : Prop :=
  last.records = full.records.drop (full.records.length - limit) ∧
    last.records.length = min limit full.records.length ∧
    last.omittedFields = (last.records.map fun record => record.event.omittedFields).sum

instance (limit : ℕ) (full last : FlightRead) : Decidable (TailDescribes limit full last) :=
  inferInstanceAs (Decidable (_ ∧ _ ∧ _))

theorem tail_length (limit : ℕ) (read : FlightRead) :
    (tail limit read).records.length = min limit read.records.length := by
  rw [tail_records, List.length_drop]
  omega

theorem tail_omittedFields (limit : ℕ) (read : FlightRead) :
    (tail limit read).omittedFields = read.omittedFields := by
  rw [tail]
  split <;> rfl

/-- The readable records but for the newest, as many as the limit allows. -/
def State.older (s : State) (limit : ℕ) : List FlightRecord :=
  (s.readable 0).take ((s.readable 0).length - limit)

/-- What the records that are cut leave out is still counted. -/
theorem tail_omits (limit : ℕ) (view : RecorderView) (s : State) :
    (tail limit (readSince 0 view s)).omittedFields =
      ((s.older limit).map fun record => (projectRecord record view).event.omittedFields).sum +
      ((tail limit (readSince 0 view s)).records.map fun record => record.event.omittedFields).sum := by
  have hall : (readSince 0 view s).omittedFields =
      ((readSince 0 view s).records.map fun record => record.event.omittedFields).sum := rfl
  have hsplit := List.take_append_drop ((s.readable 0).length - limit) (s.readable 0)
  rw [tail_omittedFields, hall, tail_records, readSince_records, List.length_map, ← List.map_drop,
    List.map_map, List.map_map, ← List.sum_append]
  conv_lhs => rw [← hsplit, List.map_append]
  rfl

/-- **The newest records**: `tail` returns the last of the records of `read_since`, and says what
they leave out exactly if the older ones leave out nothing. -/
theorem tail_describes_iff (s : State) (limit : ℕ) (view : RecorderView) (full last : FlightRead)
    (hfull : ReadsAlone s 0 view full) (hlast : TailsAlone s limit view last) :
    TailDescribes limit full last ↔
      ∀ record ∈ s.older limit, (projectRecord record view).event.omittedFields = 0 := by
  obtain ⟨read, hread, rfl⟩ := hlast
  obtain rfl := readsAlone_iff.mp hfull
  obtain rfl := readsAlone_iff.mp hread
  have hcut : ((s.older limit).map fun record =>
      (projectRecord record view).event.omittedFields).sum = 0 ↔
        ∀ record ∈ s.older limit, (projectRecord record view).event.omittedFields = 0 := by
    rw [List.sum_eq_zero_iff_forall_eq_nat]
    exact List.forall_mem_map
  rw [← hcut, TailDescribes, tail_omits]
  constructor
  · rintro ⟨-, -, hsum⟩
    omega
  · intro hzero
    exact ⟨tail_records _ _, tail_length _ _, by omega⟩

/-- An event with a secret text. -/
def secretEvent : ProjectedEvent :=
  { bareEvent with
    fields := [{ name := "token", privacy := .secret, detail := .core, value := .str "x" }] }

/-- The two events are emitted, one after the other. -/
def emitBoth (first second : ProjectedEvent) : List Action :=
  [.callEmit first 0, .stepEmit 0, .stepEmit 0, .stepEmit 0, .stepEmit 0, .stepEmit 0,
    .callEmit second 0, .stepEmit 1, .stepEmit 1, .stepEmit 1, .stepEmit 1, .stepEmit 1]

/-- The older record leaves out nothing. -/
theorem tail_describes_bare : ∃ s,
    Transition.Reaches step Transition.always (withShards 2 64 1) s ∧
      (tail 1 (readSince 0 .localView s)).omittedFields = 1 ∧
      TailDescribes 1 (readSince 0 .localView s) (tail 1 (readSince 0 .localView s)) := by
  obtain ⟨s, hrun, homitted, hcut⟩ := Transition.exists_reaches step Transition.always
    (withShards 2 64 1)
    (fun s => (tail 1 (readSince 0 .localView s)).omittedFields = 1 ∧
      ∀ record ∈ s.older 1, (projectRecord record .localView).event.omittedFields = 0)
    (emitBoth bareEvent secretEvent) (by decide)
  have hread := readsAlone_iff.mpr (Eq.refl (readSince 0 .localView s))
  exact ⟨s, hrun, homitted, (tail_describes_iff s 1 .localView _ _ hread ⟨_, hread, rfl⟩).mpr hcut⟩

/-- The record returned leaves out nothing, and `tail` says it leaves out the secret text of the
other one. -/
theorem tail_describes_cut : ∃ s full last,
    Transition.Reaches step Transition.always (withShards 2 64 1) s ∧
      ReadsAlone s 0 .localView full ∧ TailsAlone s 1 .localView last ∧
      ¬ TailDescribes 1 full last := by
  obtain ⟨s, hrun, hcut⟩ := Transition.exists_reaches step Transition.always (withShards 2 64 1)
    (fun s => ¬ TailDescribes 1 (readSince 0 .localView s) (tail 1 (readSince 0 .localView s)))
    (emitBoth secretEvent bareEvent) (by decide)
  have hread := readsAlone_iff.mpr (Eq.refl (readSince 0 .localView s))
  exact ⟨s, _, _, hrun, hread, ⟨_, hread, rfl⟩, hcut⟩

end Logwise.FlightRecorder
