import Logwise.Sinks.FlightRecorder.Accounting
import Mathlib.Data.List.Sort
import Mathlib.Data.List.Perm.Subperm

/-!
# What a read returns

A read loads its watermark and then visits the shards in order. What is numbered up to the
watermark lies on some shard from the start, and a shard that a read has locked has nothing of
it in a writer's hands.
-/

namespace Logwise.FlightRecorder

variable {s s' : State} {cursor : ℕ} {view : RecorderView}

/-- A read has visited the shards below `visited`. -/
structure State.Gathers (s : State) (cursor : ℕ) (view : RecorderView) (visited : ℕ)
    (scan : Scan) : Prop where
  watermark_le : scan.watermark ≤ s.nextSequence
  origin : ∀ out ∈ scan.records, ∃ j record, (j, record) ∈ s.drawn ∧ j < visited ∧
    cursor < record.sequence ∧ record.sequence ≤ scan.watermark ∧
      out = projectRecord record view
  nodup : (scan.records.map FlightRecord.sequence).Nodup
  complete : scan.busyShards = 0 → ∀ j record, (j, record) ∈ s.drawn → j < visited →
    cursor < record.sequence → record.sequence ≤ scan.watermark →
      projectRecord record view ∈ scan.records ∨ record ∈ s.overwritten

/-- Numbered between the cursors of a read and not returned. -/
def missed (cursor : ℕ) (view : RecorderView) (read : FlightRead) (record : FlightRecord) : Bool :=
  cursor < record.sequence ∧ record.sequence ≤ read.nextCursor ∧
    projectRecord record view ∉ read.records

/-- What a read that has returned says of the records assigned so far. -/
structure State.Settled (s : State) (cursor : ℕ) (view : RecorderView) (read : FlightRead) : Prop where
  cursor_le : cursor ≤ read.nextCursor
  bounded : read.nextCursor ≤ max s.nextSequence cursor
  busy : read.busyShards ≠ 0 → read.nextCursor = cursor
  sorted : read.records.Pairwise fun a b => a.sequence < b.sequence
  range : read.busyShards = 0 → ∀ out ∈ read.records,
    cursor < out.sequence ∧ out.sequence ≤ read.nextCursor
  origin : ∀ out ∈ read.records, ∃ record ∈ s.assigned, out = projectRecord record view
  complete : ∀ record ∈ s.assigned, cursor < record.sequence →
    record.sequence ≤ read.nextCursor →
      projectRecord record view ∈ read.records ∨ record ∈ s.overwritten
  count : (s.assigned.filter (missed cursor view read)).length ≤ read.overwrittenTotal

def State.Reading (s : State) (call : ReadCall) : Prop :=
  match call.pc with
  | .loadWatermark => True
  | .tryLock j scan => s.Gathers call.cursor call.view j scan
  | .locked j scan => s.Gathers call.cursor call.view j scan
  | .release j scan => s.Gathers call.cursor call.view (j + 1) scan
  | .loadTotals scan => ∃ j, s.shards.length ≤ j ∧ s.Gathers call.cursor call.view j scan
  | .done read => s.Settled call.cursor call.view read

/-- New sequences come after the old ones, and what has been overwritten stays so. -/
structure Grows (s s' : State) : Prop where
  nextSequence : s.nextSequence ≤ s'.nextSequence
  drawn : ∀ p ∈ s.drawn, p ∈ s'.drawn
  fresh : ∀ p ∈ s'.drawn, p ∈ s.drawn ∨ s.nextSequence < p.2.sequence
  overwritten : ∀ record ∈ s.overwritten, record ∈ s'.overwritten
  shards : s'.shards.length = s.shards.length
  filter : ∀ p : FlightRecord → Bool, (∀ record, s.nextSequence < record.sequence → p record = false) →
    s'.assigned.filter p = s.assigned.filter p

theorem grows_of_step {a : Action} (hs : step s a = some s') : Grows s s' := by
  obtain ⟨hlength, hmono, -⟩ := overwritten_of_step hs
  obtain ⟨hdrawn, hnext⟩ | ⟨i, j, owned, -, hdrawn, hnext, -⟩ := drawn_of_step hs
  · refine ⟨hnext.ge, fun p hp => hdrawn ▸ hp, fun p hp => Or.inl (hdrawn ▸ hp), hmono, hlength, ?_⟩
    intro p _
    rw [State.assigned, State.assigned, hdrawn]
  · refine ⟨by omega, fun p hp => hdrawn ▸ List.mem_append_left _ hp, fun p hp => ?_, hmono,
      hlength, fun p hp => ?_⟩
    · rw [hdrawn] at hp
      refine (List.mem_append.mp hp).imp_right fun hnew => ?_
      rw [List.mem_singleton.mp hnew]
      exact Nat.lt_succ_self _
    · have hnew : p ⟨s.nextSequence + 1, owned⟩ = false := hp _ (Nat.lt_succ_self _)
      rw [State.assigned, State.assigned, hdrawn, List.map_append, List.filter_append]
      simp [hnew]

theorem mem_assigned {record : FlightRecord} :
    record ∈ s.assigned ↔ ∃ j, (j, record) ∈ s.drawn := by
  simp [State.assigned]

theorem State.Gathers.grow {visited : ℕ} {scan : Scan}
    (h : s.Gathers cursor view visited scan) (hg : Grows s s') : s'.Gathers cursor view visited scan where
  watermark_le := h.watermark_le.trans hg.nextSequence
  origin out hm := by
    obtain ⟨j, record, hdrawn, hrest⟩ := h.origin out hm
    exact ⟨j, record, hg.drawn _ hdrawn, hrest⟩
  nodup := h.nodup
  complete hbusy j record hdrawn hj hcursor hle := by
    have hold : (j, record) ∈ s.drawn :=
      (hg.fresh _ hdrawn).resolve_right (not_lt.mpr (hle.trans h.watermark_le))
    exact (h.complete hbusy j record hold hj hcursor hle).imp_right (hg.overwritten record)

theorem State.Settled.grow {read : FlightRead} (h : s.Settled cursor view read)
    (hg : Grows s s') : s'.Settled cursor view read := by
  have hold : ∀ {record : FlightRecord}, cursor < record.sequence →
      record.sequence ≤ read.nextCursor → record.sequence ≤ s.nextSequence := by
    intro record hcursor hle
    exact (le_max_iff.mp (hle.trans h.bounded)).resolve_right (not_le.mpr hcursor)
  refine ⟨h.cursor_le, h.bounded.trans (max_le_max_right _ hg.nextSequence), h.busy, h.sorted,
    h.range, fun out hm => ?_, fun record hm hcursor hle => ?_, ?_⟩
  · obtain ⟨record, hmem, he⟩ := h.origin out hm
    obtain ⟨j, hdrawn⟩ := mem_assigned.mp hmem
    exact ⟨record, mem_assigned.mpr ⟨j, hg.drawn _ hdrawn⟩, he⟩
  · obtain ⟨j, hdrawn⟩ := mem_assigned.mp hm
    have hbefore := (hg.fresh _ hdrawn).resolve_right (not_lt.mpr (hold hcursor hle))
    exact (h.complete record (mem_assigned.mpr ⟨j, hbefore⟩) hcursor hle).imp_right
      (hg.overwritten record)
  · rw [hg.filter (missed cursor view read)]
    · exact h.count
    · intro record hlt
      refine decide_eq_false fun hp => ?_
      exact absurd (hold hp.1 hp.2.1) (not_le.mpr hlt)

theorem State.Reading.grow {call : ReadCall} (h : s.Reading call) (hg : Grows s s') :
    s'.Reading call := by
  unfold State.Reading at h ⊢
  split
  next => trivial
  next j scan hpc =>
    rw [hpc] at h
    exact State.Gathers.grow h hg
  next j scan hpc =>
    rw [hpc] at h
    exact State.Gathers.grow h hg
  next j scan hpc =>
    rw [hpc] at h
    exact State.Gathers.grow h hg
  next scan hpc =>
    rw [hpc] at h
    obtain ⟨j, hj, hgather⟩ := h
    exact ⟨j, hg.shards.le.trans hj, hgather.grow hg⟩
  next read hpc =>
    rw [hpc] at h
    exact State.Settled.grow h hg

theorem projectRecord_sequence (record : FlightRecord) (view : RecorderView) :
    (projectRecord record view).sequence = record.sequence := rfl

theorem mem_select {watermark : ℕ} {records : List FlightRecord}
    {out : FlightRecord} : out ∈ select cursor view watermark records ↔
      ∃ record ∈ records, cursor < record.sequence ∧ record.sequence ≤ watermark ∧
        out = projectRecord record view := by
  rw [select, List.mem_map]
  constructor
  · rintro ⟨record, hm, rfl⟩
    obtain ⟨hrec, hrange⟩ := List.mem_filter.mp hm
    obtain ⟨hcursor, hle⟩ := of_decide_eq_true hrange
    exact ⟨record, hrec, hcursor, hle, rfl⟩
  · rintro ⟨record, hrec, hcursor, hle, rfl⟩
    exact ⟨record, List.mem_filter.mpr ⟨hrec, decide_eq_true ⟨hcursor, hle⟩⟩, rfl⟩

theorem select_sorted {watermark : ℕ} {records : List FlightRecord}
    (h : records.Pairwise fun a b => a.sequence < b.sequence) :
    (select cursor view watermark records).Pairwise fun a b => a.sequence < b.sequence :=
  (h.filter _).map _ fun _ _ hlt => hlt

/-- **A locked scan** gets every record of its shard that is numbered up to the watermark. -/
theorem State.Gathers.scan {r j : ℕ} {scan : Scan} (hlocked : s.Locked) (hnumbered : s.Numbered)
    (hholder : s.holder j = some (.reader r)) (h : s.Gathers cursor view j scan) :
    s.Gathers cursor view (j + 1)
      { scan with records := scan.records ++ select cursor view scan.watermark (s.records j) } where
  watermark_le := h.watermark_le
  origin out hm := by
    obtain hold | hnew := List.mem_append.mp hm
    · obtain ⟨k, record, hdrawn, hk, hrest⟩ := h.origin out hold
      exact ⟨k, record, hdrawn, Nat.lt_succ_of_lt hk, hrest⟩
    · obtain ⟨record, hrec, hrest⟩ := mem_select.mp hnew
      exact ⟨j, record, hnumbered.on_drawn j record (Or.inl hrec), Nat.lt_succ_self j, hrest⟩
  nodup := by
    show ((scan.records ++ select cursor view scan.watermark (s.records j)).map _).Nodup
    rw [List.map_append]
    refine List.Nodup.append h.nodup ?_ ?_
    · have hsorted : (select cursor view scan.watermark (s.records j)).Pairwise
          fun a b => a.sequence < b.sequence := select_sorted (hnumbered.sorted j)
      exact List.Pairwise.map _ (fun _ _ hlt => Nat.ne_of_lt hlt) hsorted
    · -- a sequence is drawn for one shard, and this one is visited for the first time
      intro sequence hold hnew
      obtain ⟨out, hout, rfl⟩ := List.mem_map.mp hold
      obtain ⟨out', hout', heq⟩ := List.mem_map.mp hnew
      obtain ⟨k, record, hdrawn, hk, -, -, rfl⟩ := h.origin out hout
      obtain ⟨record', hrec', -, -, rfl⟩ := mem_select.mp hout'
      have hsame := hnumbered.unique hdrawn (hnumbered.on_drawn j record' (Or.inl hrec')) heq.symm
      exact absurd (congrArg Prod.fst hsame) hk.ne
  complete hbusy k record hdrawn hk hcursor hle := by
    obtain hlt | rfl := Nat.lt_succ_iff_lt_or_eq.mp hk
    · exact (h.complete hbusy k record hdrawn hlt hcursor hle).imp_left (List.mem_append_left _)
    · obtain hover | hrec | ⟨pc, hm, hpc, -⟩ := (hnumbered.placed k record hdrawn).2
      · exact Or.inr hover
      · exact Or.inl (List.mem_append_right _ (mem_select.mpr ⟨record, hrec, hcursor, hle, rfl⟩))
      · -- the reader holds the shard, so no writer has one of its records in its hands
        obtain ⟨i, hi⟩ := List.mem_iff_getElem?.mp hm
        have hwriter := hlocked.writers i k pc hi hpc
        rw [hholder] at hwriter
        cases hwriter

/-- **The end of a read**: its cursors, and what it returns of the records between them. -/
theorem State.Gathers.finish {j : ℕ} {scan : Scan} (hnumbered : s.Numbered)
    (hj : s.shards.length ≤ j) (h : s.Gathers cursor view j scan) :
    s.Settled cursor view (finish cursor scan s.stats) := by
  have hmem : ∀ {out : FlightRecord},
      out ∈ (FlightRecorder.finish cursor scan s.stats).records ↔ out ∈ scan.records :=
    List.mem_insertionSort _
  have hcomplete : ∀ record ∈ s.assigned, cursor < record.sequence →
      record.sequence ≤ (FlightRecorder.finish cursor scan s.stats).nextCursor →
        projectRecord record view ∈ (FlightRecorder.finish cursor scan s.stats).records ∨
          record ∈ s.overwritten := by
    intro record hm hcursor hle
    obtain ⟨k, hdrawn⟩ := mem_assigned.mp hm
    have hk := (hnumbered.placed k record hdrawn).1
    rw [hmem]
    by_cases hbusy : scan.busyShards = 0
    · simp only [FlightRecorder.finish, if_pos hbusy] at hle
      have hwater := (le_max_iff.mp hle).resolve_right (not_le.mpr hcursor)
      exact h.complete hbusy k record hdrawn (hk.trans_le hj) hcursor hwater
    · simp only [FlightRecorder.finish, if_neg hbusy] at hle
      exact absurd hle (not_le.mpr hcursor)
  refine ⟨?_, ?_, ?_, ?_, ?_, ?_, hcomplete, ?_⟩
  · simp only [FlightRecorder.finish]
    split
    · exact le_max_right _ _
    · exact le_rfl
  · simp only [FlightRecorder.finish]
    split
    · exact max_le_max_right _ h.watermark_le
    · exact le_max_right _ _
  · exact fun hbusy => if_neg hbusy
  · -- sorted by sequence, and no sequence twice
    have hle := List.pairwise_insertionSort
      (fun a b : FlightRecord => a.sequence ≤ b.sequence) scan.records
    have hne : ((FlightRecorder.finish cursor scan s.stats).records.map
        FlightRecord.sequence).Nodup :=
      ((List.perm_insertionSort _ scan.records).map _).nodup_iff.mpr h.nodup
    exact hle.imp₂ (fun _ _ hle hne => lt_of_le_of_ne hle hne) (List.pairwise_map.mp hne)
  · -- within the cursors
    intro hbusy out hm
    obtain ⟨k, record, -, -, hcursor, hle, rfl⟩ := h.origin out (hmem.mp hm)
    have hnext : (FlightRecorder.finish cursor scan s.stats).nextCursor =
        max scan.watermark cursor := if_pos hbusy
    rw [hnext, projectRecord_sequence]
    exact ⟨hcursor, hle.trans (le_max_left _ _)⟩
  · -- nothing is made up
    intro out hm
    obtain ⟨k, record, hdrawn, -, -, -, he⟩ := h.origin out (hmem.mp hm)
    exact ⟨record, mem_assigned.mpr ⟨k, hdrawn⟩, he⟩
  · -- what is missed has been overwritten, each record once
    have hnodup : s.assigned.Nodup := by
      refine List.Nodup.of_map FlightRecord.sequence ?_
      rw [hnumbered.sequences]
      exact List.nodup_range'
    have hsub : s.assigned.filter (missed cursor view (FlightRecorder.finish cursor scan s.stats)) ⊆
        s.overwritten := by
      intro record hm
      obtain ⟨hassigned, hmissed⟩ := List.mem_filter.mp hm
      obtain ⟨hcursor, hle, hout⟩ := of_decide_eq_true hmissed
      exact (hcomplete record hassigned hcursor hle).resolve_left hout
    exact ((hnodup.filter _).subperm hsub).length_le.trans hnumbered.counted.le

/-- Every call of `read_since` keeps what it has, whoever steps. -/
theorem reading_step {a : Action} (hlocked : s.Locked) (hnumbered : s.Numbered)
    (h : ∀ call ∈ s.readers, s.Reading call) (hs : step s a = some s') :
    ∀ call ∈ s'.readers, s'.Reading call := by
  have hg := grows_of_step hs
  have hset : ∀ {r : ℕ} {old : ReadCall} {pc : ReadPc},
      s'.readers = s.readers.set r { old with pc := pc } → s.Reading { old with pc := pc } →
        ∀ call ∈ s'.readers, s'.Reading call := by
    intro r old pc hreaders hnew
    rw [hreaders]
    exact Slots.forall_mem_set (fun call hm => (h call hm).grow hg) (hnew.grow hg)
  cases moves_of_step hs with
  | callRead cursor view =>
    exact Slots.forall_mem_concat (fun call hm => (h call hm).grow hg) trivial
  | loadWatermark r call hr hpc =>
    refine hset rfl ⟨le_rfl, fun out hm => ?_, List.nodup_nil, fun _ j record _ hj => ?_⟩
    · cases hm
    · cases hj
  | acquireRead r j call scan shard hr hpc hj hfree =>
    have hold := h call (List.mem_of_getElem? hr)
    rw [State.Reading, hpc] at hold
    exact hset rfl hold
  | busy r j call scan hr hpc =>
    have hold := h call (List.mem_of_getElem? hr)
    rw [State.Reading, hpc] at hold
    refine hset rfl ⟨hold.watermark_le, fun out hm => ?_, hold.nodup, fun hbusy => ?_⟩
    · obtain ⟨k, record, hdrawn, hk, hrest⟩ := hold.origin out hm
      exact ⟨k, record, hdrawn, Nat.lt_succ_of_lt hk, hrest⟩
    · cases hbusy
  | scan r j call scan hr hpc =>
    have hold := h call (List.mem_of_getElem? hr)
    rw [State.Reading, hpc] at hold
    exact hset rfl (hold.scan hlocked hnumbered (hlocked.readers r j call hr (by rw [hpc]; rfl)))
  | releaseRead r j call scan shard hr hpc hj =>
    have hold := h call (List.mem_of_getElem? hr)
    rw [State.Reading, hpc] at hold
    exact hset rfl hold
  | endScan r j call scan hr hpc hj =>
    have hold := h call (List.mem_of_getElem? hr)
    rw [State.Reading, hpc] at hold
    exact hset rfl ⟨j, hj, hold⟩
  | loadTotals r call scan hr hpc =>
    have hold := h call (List.mem_of_getElem? hr)
    rw [State.Reading, hpc] at hold
    obtain ⟨j, hj, hgather⟩ := hold
    exact hset rfl (hgather.finish hnumbered hj)
  | _ => exact fun call hc => (h call hc).grow hg

/-- What every run keeps. -/
theorem settled_of_reaches {capacity maxStringBytes shards : ℕ}
    (hrun : Transition.Reaches step Transition.always
      (withShards capacity maxStringBytes shards) s) :
    s.Numbered ∧ ∀ call ∈ s.readers, s.Reading call := by
  have hall : s.Locked ∧ s.Numbered ∧ ∀ call ∈ s.readers, s.Reading call := by
    refine hrun.invariant
      (I := fun s : State => s.Locked ∧ s.Numbered ∧ ∀ call ∈ s.readers, s.Reading call) ?_
      ⟨locked_withShards .., numbered_withShards .., fun call hc => by cases hc⟩
    rintro s a s' ⟨hlocked, hnumbered, hreading⟩ - hs
    exact ⟨locked_step hlocked hs, numbered_step hlocked hnumbered hs,
      reading_step hlocked hnumbered hreading hs⟩
  exact hall.2

/-- The reads of one reader, in order: it starts at cursor 0 and goes on from the cursor the last
read returned. The index is where it stands. -/
inductive Session (s : State) : List FlightRead → ℕ → Prop where
  | start : Session s [] 0
  | next {reads : List FlightRead} {call : ReadCall} {read : FlightRead}
    (h : Session s reads call.cursor) (hcall : call ∈ s.readers) (hdone : call.pc = .done read) :
    Session s (reads ++ [read]) read.nextCursor

/-- What the reader keeps: the records of its complete reads. -/
def kept (reads : List FlightRead) : List FlightRecord :=
  (reads.filter FlightRead.isComplete).flatMap FlightRead.records

theorem kept_append (reads : List FlightRead) (read : FlightRead) :
    kept (reads ++ [read]) = kept reads ++ if read.isComplete then read.records else [] := by
  rw [kept, List.filter_append, List.flatMap_append, ← kept]
  cases hc : read.isComplete <;> simp [hc]

/-- What a session has kept so far lies in order up to its cursor, and covers what is numbered
up to there. -/
theorem session_kept (hreading : ∀ call ∈ s.readers, s.Reading call) {reads : List FlightRead}
    {cursor : ℕ} (h : Session s reads cursor) :
    (kept reads).Pairwise (fun a b => a.sequence < b.sequence) ∧
      (∀ out ∈ kept reads, out.sequence ≤ cursor) ∧
        ∀ record ∈ s.assigned, 1 ≤ record.sequence → record.sequence ≤ cursor →
          (∃ view, projectRecord record view ∈ kept reads) ∨ record ∈ s.overwritten := by
  induction h with
  | start =>
    refine ⟨List.Pairwise.nil, fun out hm => (by cases hm), fun record _ hpos hle => ?_⟩
    omega
  | @next reads call read hsession hcall hdone ih =>
    obtain ⟨hsorted, hbelow, hcovers⟩ := ih
    have hread := hreading call hcall
    rw [State.Reading, hdone] at hread
    have hsettled : s.Settled call.cursor call.view read := hread
    rw [kept_append]
    by_cases hbusy : read.busyShards = 0
    · have hrange := hsettled.range hbusy
      have hkept : read.isComplete = true := decide_eq_true hbusy
      rw [if_pos hkept]
      refine ⟨?_, ?_, ?_⟩
      · refine List.pairwise_append.mpr ⟨hsorted, hsettled.sorted, fun old hold new hnew => ?_⟩
        exact (hbelow old hold).trans_lt (hrange new hnew).1
      · intro out hm
        obtain hold | hnew := List.mem_append.mp hm
        · exact (hbelow out hold).trans hsettled.cursor_le
        · exact (hrange out hnew).2
      · intro record hm hpos hle
        by_cases hcursor : call.cursor < record.sequence
        · refine (hsettled.complete record hm hcursor hle).imp_left fun hout => ?_
          exact ⟨call.view, List.mem_append_right _ hout⟩
        · refine (hcovers record hm hpos (not_lt.mp hcursor)).imp_left ?_
          exact fun ⟨view, hout⟩ => ⟨view, List.mem_append_left _ hout⟩
    · rw [if_neg (by simpa [FlightRead.isComplete] using hbusy), List.append_nil,
        hsettled.busy hbusy]
      exact ⟨hsorted, hbelow, hcovers⟩

/-- **A reader never silently loses a record**: what one read returns and says, and what a reader
that goes on from each read's cursor keeps. -/
theorem read_since_complete (capacity maxStringBytes shards : ℕ) (s : State)
    (hrun : Transition.Reaches step Transition.always
      (withShards capacity maxStringBytes shards) s) :
    (∀ call ∈ s.readers, ∀ read, call.pc = .done read →
      call.cursor ≤ read.nextCursor ∧
      (read.busyShards ≠ 0 → read.nextCursor = call.cursor) ∧
      (read.busyShards = 0 →
        read.records.Pairwise (fun a b => a.sequence < b.sequence) ∧
        (∀ out ∈ read.records, call.cursor < out.sequence ∧ out.sequence ≤ read.nextCursor) ∧
        (∀ record ∈ s.assigned, call.cursor < record.sequence →
          record.sequence ≤ read.nextCursor →
            projectRecord record call.view ∈ read.records ∨ record ∈ s.overwritten) ∧
        (s.assigned.filter (missed call.cursor call.view read)).length ≤ read.overwrittenTotal)) ∧
    ∀ reads cursor, Session s reads cursor →
      (kept reads).Pairwise (fun a b => a.sequence < b.sequence) ∧
      ∀ record ∈ s.assigned, record.sequence ≤ cursor →
        ((∃ view, projectRecord record view ∈ kept reads) ∧
          ((kept reads).map FlightRecord.sequence).count record.sequence = 1) ∨
            record ∈ s.overwritten := by
  obtain ⟨hnumbered, hreading⟩ := settled_of_reaches hrun
  refine ⟨fun call hcall read hdone => ?_, fun reads cursor hsession => ?_⟩
  · have hread := hreading call hcall
    rw [State.Reading, hdone] at hread
    have hsettled : s.Settled call.cursor call.view read := hread
    exact ⟨hsettled.cursor_le, hsettled.busy, fun hbusy =>
      ⟨hsettled.sorted, hsettled.range hbusy, hsettled.complete, hsettled.count⟩⟩
  · obtain ⟨hsorted, -, hcovers⟩ := session_kept hreading hsession
    refine ⟨hsorted, fun record hm hle => ?_⟩
    obtain ⟨j, hdrawn⟩ := mem_assigned.mp hm
    refine (hcovers record hm (hnumbered.sequence_le hdrawn).1 hle).imp_left ?_
    rintro ⟨view, hout⟩
    have hnodup : ((kept reads).map FlightRecord.sequence).Nodup :=
      List.Pairwise.map _ (fun _ _ hlt => Nat.ne_of_lt hlt) hsorted
    refine ⟨⟨view, hout⟩, List.count_eq_one_of_mem hnodup ?_⟩
    have hsequence : (projectRecord record view).sequence ∈
        (kept reads).map FlightRecord.sequence := List.mem_map_of_mem hout
    exact hsequence

def ReadPc.returned : ReadPc → Option FlightRead
  | .done read => some read
  | _ => none

/-- Three emissions, the second over the first on shard 0, and a read from the start. -/
theorem read_since_complete_overwritten : ∃ s,
    Transition.Reaches step Transition.always (withShards 2 64 2) s ∧
      ∃ call ∈ s.readers, ∃ read, call.pc = .done read ∧
        read.records.map FlightRecord.sequence = [2, 3] ∧ read.overwrittenTotal = 1 ∧
          (s.assigned.filter (missed call.cursor call.view read)).length ≤ read.overwrittenTotal := by
  obtain ⟨s, hrun, call, hcall, read, hreturned, hbusy, hrecords, htotal⟩ := Transition.exists_reaches
    step Transition.always (withShards 2 64 2)
    (fun s => ∃ call ∈ s.readers, ∃ read ∈ call.pc.returned, read.busyShards = 0 ∧
      read.records.map FlightRecord.sequence = [2, 3] ∧ read.overwrittenTotal = 1)
    [.callEmit bareEvent 0, .stepEmit 0, .stepEmit 0, .stepEmit 0, .stepEmit 0, .stepEmit 0,
      .callEmit bareEvent 0, .stepEmit 1, .stepEmit 1, .stepEmit 1, .stepEmit 1, .stepEmit 1,
      .stepEmit 1,
      .callEmit bareEvent 1, .stepEmit 2, .stepEmit 2, .stepEmit 2, .stepEmit 2, .stepEmit 2,
      .callRead 0 .localView, .stepRead 0, .stepRead 0, .stepRead 0, .stepRead 0, .stepRead 0,
      .stepRead 0, .stepRead 0, .stepRead 0, .stepRead 0] (by decide)
  have hpc : call.pc = .done read := by
    cases hc : call.pc <;> rw [hc] at hreturned <;> cases hreturned
    rfl
  have hread := (read_since_complete 2 64 2 s hrun).1 call hcall read hpc
  exact ⟨s, hrun, call, hcall, read, hpc, hrecords, htotal, (hread.2.2 hbusy).2.2.2⟩

end Logwise.FlightRecorder
