import Logwise.Sinks.Held
import Logwise.Runtime.FanOut

/-!
# What the runtime's own sinks retain

A runtime with any number of the sinks it ships: registered under any capability, emitted to by any
number of calls at once, drained and worked on at any time. A handle without a cell is a sink of
the application.
-/

namespace Logwise

/-- A sink the runtime ships that keeps what it is handed. -/
inductive Cell where
  | inMemory (sink : InMemorySink)
  | async (config : AsyncSink.Config) (sink : AsyncSink.State)
  | recorder (history : FlightRecorder.State)

/-- A call of `Runtime::emit` that has taken its snapshot, with the sinks still to be called. -/
structure PendingEmit where
  event : EventRef
  sinks : List SinkRegistration

structure System where
  runtime : Runtime
  cells : List Cell
  calls : List PendingEmit

namespace Cell

def retained : Cell → List OwnedProjectedEvent
  | .inMemory sink => sink.records
  | .async _ sink => sink.events.map QueuedEvent.event
  | .recorder history => history.shards.flatMap fun shard => shard.records.map FlightRecord.event

/-- `EventSink::emit`, up to the first step of the sink's own that another call may observe. -/
def receive (event : ProjectedEvent) (contended : Bool) (shard : ℕ) : Cell → Option Cell
  | .inMemory sink => some (.inMemory (sink.emit event contended))
  | .async config sink => (AsyncSink.step config sink (.callEmit event)).map (.async config)
  | .recorder history => (FlightRecorder.step history (.callEmit event shard)).map .recorder

/-- The sink keeps what it is handed now, as it is handed it. -/
def keeps (contended : Bool) : Cell → Bool
  | .inMemory sink => sink.keeps contended
  | .async config sink => config.capacity ≠ 0 && !sink.stopped
  -- filtered at the ingress
  | .recorder _ => false

end Cell

namespace System

def initial : System := { runtime := Runtime.new, cells := [], calls := [] }

inductive Action where
  | newInMemory (capacity maxStringBytes : ℕ) (overflow : OverflowPolicy)
  | newAsync (config : AsyncSink.Config)
  | newRecorder (capacity maxStringBytes shards : ℕ)
  | perform (operation : Operation) (now : Instant)
  | emit (event : EventRef)
  /-- Call `call` goes on to its next sink; what the sink finds locked, and the shard of the
  calling thread, are of the moment. -/
  | deliver (call : ℕ) (contended : Bool) (shard : ℕ)
  | drain (cell : ℕ)
  | stepAsync (cell : ℕ) (action : AsyncSink.Action)
  | stepRecorder (cell : ℕ) (action : FlightRecorder.Action)

/-- A registration or a call in progress holds the sink. -/
def holdsSink (cell : ℕ) (s : System) : Bool :=
  s.runtime.sinks.any (fun sink => sink.sink.index = cell) ||
    s.calls.any fun call => call.sinks.any fun sink => sink.sink.index = cell

def deliver (call : ℕ) (contended : Bool) (shard : ℕ) (s : System) : Option System :=
  match s.calls[call]? with
  | some ⟨event, sink :: sinks⟩ =>
    let s := { s with calls := s.calls.set call ⟨event, sinks⟩ }
    match s.cells[sink.sink.index]? with
    | some cell =>
      (cell.receive (projectEvent event sink.capability sink.detail) contended shard).map
        fun cell => { s with cells := s.cells.set sink.sink.index cell }
    | none => some s
  | _ => none

/-- The steps of a queued sink that are its own: the runtime emits, and keeps the handle. -/
def permits (cell : ℕ) (s : System) : AsyncSink.Action → Bool
  | .callEmit _ => false
  | .dropHandles => !s.holdsSink cell
  | _ => true

def stepAsync (cell : ℕ) (action : AsyncSink.Action) (s : System) : Option System :=
  match s.cells[cell]? with
  | some (.async config sink) =>
    if s.permits cell action then
      (AsyncSink.step config sink action).map fun sink =>
        { s with cells := s.cells.set cell (.async config sink) }
    else none
  | _ => none

def stepRecorder (cell : ℕ) (action : FlightRecorder.Action) (s : System) : Option System :=
  match s.cells[cell]? with
  | some (.recorder history) =>
    (FlightRecorder.step history action).map fun history =>
      { s with cells := s.cells.set cell (.recorder history) }
  | _ => none

def step (platform : Platform) (s : System) : Action → Option System
  | .newInMemory capacity maxStringBytes overflow =>
    some { s with
      cells := s.cells ++ [.inMemory (InMemorySink.new capacity maxStringBytes overflow)] }
  | .newAsync config => some { s with cells := s.cells ++ [.async config AsyncSink.initial] }
  | .newRecorder capacity maxStringBytes shards =>
    some { s with
      cells := s.cells ++ [.recorder (FlightRecorder.withShards capacity maxStringBytes shards)] }
  | .perform operation now =>
    (operation.perform platform now s.runtime).map fun rt => { s with runtime := rt }
  | .emit event =>
    (Runtime.selectedSinks platform event s.runtime).map fun sinks =>
      { s with calls := s.calls ++ [⟨event, sinks⟩] }
  | .deliver call contended shard => s.deliver call contended shard
  | .drain cell =>
    match s.cells[cell]? with
    | some (.inMemory sink) =>
      some { s with cells := s.cells.set cell (.inMemory sink.drain.2) }
    | _ => none
  | .stepAsync cell action => s.stepAsync cell action
  | .stepRecorder cell action => s.stepRecorder cell action

/-- No call hands a sink that keeps it an event with a secret its view admits. -/
def Withholds (s : System) : Action → Prop
  | .deliver call contended _ => ∀ pending ∈ s.calls[call]?, ∀ sink ∈ pending.sinks.head?,
      (s.cells[sink.sink.index]?).any (Cell.keeps contended) = true →
        ∀ field ∈ pending.event.materialized, field.metadata.privacy = .secret →
          admits sink.capability sink.detail field.metadata = false
  | _ => True

instance : ∀ (s : System) (a : Action), Decidable (s.Withholds a)
  | s, .deliver call _ _ => inferInstanceAs (Decidable (∀ pending ∈ s.calls[call]?, _))
  | _, .newInMemory _ _ _ | _, .newAsync _ | _, .newRecorder _ _ _ | _, .perform _ _ | _, .emit _
  | _, .drain _ | _, .stepAsync _ _ | _, .stepRecorder _ _ => .isTrue trivial

end System

def OwnedProjectedEvent.NoSecret (owned : OwnedProjectedEvent) : Prop :=
  ∀ field ∈ owned.fields, field.privacy ≠ .secret

/-- The copy of a projection has a secret field exactly when the view admits one of the event's. -/
theorem noSecret_projectEvent_iff {event : EventRef} {capability : Capability} {level : DetailLevel}
    {maxStringBytes : ℕ} :
    (OwnedProjectedEvent.copyFrom (projectEvent event capability level) maxStringBytes).NoSecret ↔
      ∀ field ∈ event.materialized, field.metadata.privacy = .secret →
        admits capability level field.metadata = false := by
  have hfields : (∃ field ∈ (projectEvent event capability level).fields, field.privacy = .secret) ↔
      ∃ field ∈ event.materialized, field.metadata.privacy = .secret ∧
        admits capability level field.metadata = true := by
    constructor
    · rintro ⟨field, hm, hp⟩
      obtain ⟨ref, href, rfl⟩ := List.mem_map.mp hm
      obtain ⟨hmat, hadm⟩ := List.mem_filter.mp href
      exact ⟨ref, hmat, hp, hadm⟩
    · rintro ⟨ref, hmat, hp, hadm⟩
      exact ⟨.ofRef ref, List.mem_map_of_mem (List.mem_filter.mpr ⟨hmat, hadm⟩), hp⟩
  constructor
  · intro h field hm hp
    by_contra hadm
    obtain ⟨owned, hown, hsecret⟩ := copyFrom_privacy.mpr
      (hfields.mpr ⟨field, hm, hp, Bool.eq_true_of_not_eq_false hadm⟩)
    exact h owned hown hsecret
  · intro h owned hown hsecret
    obtain ⟨field, hm, hp, hadm⟩ := hfields.mp (copyFrom_privacy.mp ⟨owned, hown, hsecret⟩)
    rw [h field hm hp] at hadm
    cases hadm

/-- No secret is retained, nor about to be. -/
def Cell.Clean : Cell → Prop
  | .inMemory sink => ∀ owned ∈ sink.records, owned.NoSecret
  | .async config sink => (∀ owned, sink.Holds owned → owned.NoSecret) ∧
      ∀ event, sink.Copies config event →
        (OwnedProjectedEvent.copyFrom event config.maxStringBytes).NoSecret
  | .recorder history => ∀ owned, history.Holds owned → owned.NoSecret

theorem Cell.Clean.retained {cell : Cell} (h : cell.Clean) :
    ∀ owned ∈ cell.retained, owned.NoSecret := by
  intro owned hm
  cases cell with
  | inMemory sink => exact h owned hm
  | async config sink =>
    obtain ⟨e, he, heq⟩ := List.mem_map.mp hm
    exact h.1 owned (Or.inl ⟨e, he, heq⟩)
  | recorder history =>
    obtain ⟨shard, hshard, hrec⟩ := List.mem_flatMap.mp hm
    obtain ⟨record, hrecord, heq⟩ := List.mem_map.mp hrec
    obtain ⟨j, hj⟩ := List.mem_iff_getElem?.mp hshard
    refine h owned (Or.inl ⟨j, record, ?_, heq⟩)
    rw [FlightRecorder.records_of_getElem? hj]
    exact hrecord

theorem clean_async {config : AsyncSink.Config} {sink sink' : AsyncSink.State}
    {a : AsyncSink.Action} (h : (Cell.async config sink).Clean)
    (hs : AsyncSink.step config sink a = some sink')
    (hcall : ∀ event, a = .callEmit event → config.capacity ≠ 0 → sink.stopped = false →
      (OwnedProjectedEvent.copyFrom event config.maxStringBytes).NoSecret) :
    (Cell.async config sink').Clean := by
  refine ⟨fun owned hheld => ?_, fun event hcopies => ?_⟩
  · obtain hold | ⟨event, hcopies, rfl⟩ := AsyncSink.holds_of_step hs hheld
    · exact h.1 owned hold
    · exact h.2 event hcopies
  · obtain hold | ⟨ha, hcap, hopen⟩ := AsyncSink.copies_of_step hs hcopies
    · exact h.2 event hold
    · exact hcall event ha hcap hopen

/-- **The flight recorder needs no premise**: it filters what it is handed. -/
theorem clean_recorder {history history' : FlightRecorder.State} {a : FlightRecorder.Action}
    (h : (Cell.recorder history).Clean) (hs : FlightRecorder.step history a = some history') :
    (Cell.recorder history').Clean := by
  intro owned hheld
  obtain hold | ⟨event, rfl⟩ := FlightRecorder.holds_of_step hs hheld
  · exact h owned hold
  · exact FlightRecorder.copyFrom_ingest_privacy event history.maxStringBytes

theorem clean_receive {cell cell' : Cell} {event : ProjectedEvent} {contended : Bool} {shard : ℕ}
    (h : cell.Clean) (hs : cell.receive event contended shard = some cell')
    (hkeeps : cell.keeps contended = true →
      ∀ maxStringBytes, (OwnedProjectedEvent.copyFrom event maxStringBytes).NoSecret) :
    cell'.Clean := by
  cases cell with
  | inMemory sink =>
    cases hs
    intro owned hm
    by_cases hk : (Cell.inMemory sink).keeps contended = true
    · obtain hold | rfl := InMemorySink.mem_records_emit hm
      · exact h owned hold
      · exact hkeeps hk _
    · exact h owned (InMemorySink.records_emit_of_not_keeps hk ▸ hm)
  | async config sink =>
    obtain ⟨sink', hstep, rfl⟩ := Option.map_eq_some_iff.mp hs
    refine clean_async h hstep fun new hnew hcap hopen => ?_
    cases hnew
    exact hkeeps (by simp [Cell.keeps, hcap, hopen]) _
  | recorder history =>
    obtain ⟨history', hstep, rfl⟩ := Option.map_eq_some_iff.mp hs
    exact clean_recorder h hstep

namespace System

variable {platform : Platform} {s s' : System}

def Clean (s : System) : Prop := ∀ cell ∈ s.cells, cell.Clean

theorem clean_set {i : ℕ} {new : Cell} (h : s.Clean) (hnew : new.Clean) :
    ({ s with cells := s.cells.set i new } : System).Clean :=
  Slots.forall_mem_set h hnew

theorem clean_add {new : Cell} (h : s.Clean) (hnew : new.Clean) :
    ({ s with cells := s.cells ++ [new] } : System).Clean :=
  Slots.forall_mem_concat h hnew

theorem clean_deliver {call : ℕ} {contended : Bool} {shard : ℕ} (h : s.Clean)
    (hok : s.Withholds (.deliver call contended shard))
    (hs : s.deliver call contended shard = some s') : s'.Clean := by
  unfold deliver at hs
  split at hs
  next event sink sinks hcall =>
    dsimp only at hs
    split at hs
    next cell hcell =>
      obtain ⟨cell', hreceive, rfl⟩ := Option.map_eq_some_iff.mp hs
      refine clean_set (s := { s with calls := _ }) h
        (clean_receive (h cell (List.mem_of_getElem? hcell)) hreceive ?_)
      intro hkeeps maxStringBytes
      refine noSecret_projectEvent_iff.mpr (hok _ hcall sink rfl ?_)
      rw [hcell]
      exact hkeeps
    next =>
      cases hs
      exact h
  next => cases hs

theorem clean_stepAsync {i : ℕ} {action : AsyncSink.Action} (h : s.Clean)
    (hs : s.stepAsync i action = some s') : s'.Clean := by
  unfold stepAsync at hs
  split at hs
  next config sink hcell =>
    split at hs
    next hpermits =>
      obtain ⟨sink', hstep, rfl⟩ := Option.map_eq_some_iff.mp hs
      refine clean_set h (clean_async (h _ (List.mem_of_getElem? hcell)) hstep ?_)
      rintro event rfl
      cases hpermits
    next => cases hs
  next => cases hs

theorem clean_stepRecorder {i : ℕ} {action : FlightRecorder.Action} (h : s.Clean)
    (hs : s.stepRecorder i action = some s') : s'.Clean := by
  unfold stepRecorder at hs
  split at hs
  next history hcell =>
    obtain ⟨history', hstep, rfl⟩ := Option.map_eq_some_iff.mp hs
    exact clean_set h (clean_recorder (h _ (List.mem_of_getElem? hcell)) hstep)
  next => cases hs

theorem clean_step {a : Action} (h : s.Clean) (hok : s.Withholds a)
    (hs : step platform s a = some s') : s'.Clean := by
  cases a with
  | newInMemory capacity maxStringBytes overflow =>
    cases hs
    refine clean_add h ?_
    intro owned hm
    cases hm
  | newAsync config =>
    cases hs
    refine clean_add h (And.intro (fun owned hheld => ?_) fun event hcopies => by cases hcopies.1)
    obtain ⟨e, he, -⟩ | hm | hq := hheld
    · cases he
    · cases hm
    · cases hq
  | newRecorder capacity maxStringBytes shards =>
    cases hs
    refine clean_add h ?_
    intro owned hheld
    obtain ⟨j, record, hm, -⟩ | ⟨pc, hm, -⟩ := hheld
    · rw [FlightRecorder.records_withShards] at hm
      cases hm
    · cases hm
  | perform operation now =>
    obtain ⟨rt, -, rfl⟩ := Option.map_eq_some_iff.mp hs
    exact h
  | emit event =>
    obtain ⟨sinks, -, rfl⟩ := Option.map_eq_some_iff.mp hs
    exact h
  | deliver call contended shard => exact clean_deliver h hok hs
  | drain cell =>
    simp only [step] at hs
    split at hs
    · cases hs
      refine clean_set h ?_
      intro owned hm
      cases hm
    · cases hs
  | stepAsync cell action => exact clean_stepAsync h hs
  | stepRecorder cell action => exact clean_stepRecorder h hs

/-- **No secret is retained** in a run that hands none to a sink that keeps it. -/
theorem retained_without_secrets (platform : Platform) (s : System)
    (hrun : Transition.Reaches (step platform) Withholds initial s) :
    ∀ cell ∈ s.cells, ∀ owned ∈ cell.retained, ∀ field ∈ owned.fields,
      field.privacy ≠ .secret := by
  have hclean : s.Clean := hrun.invariant (fun s a s' h hok hs => clean_step h hok hs)
    (fun cell hm => by cases hm)
  exact fun cell hm => (hclean cell hm).retained

/-- The condition is exact for the in-memory sink: a step that does not meet it retains a secret. -/
theorem secret_retained {call : ℕ} {contended : Bool} {shard : ℕ} {event : EventRef}
    {registration : SinkRegistration} {sinks : List SinkRegistration} {sink : InMemorySink}
    (hcall : s.calls[call]? = some ⟨event, registration :: sinks⟩)
    (hcell : s.cells[registration.sink.index]? = some (.inMemory sink))
    (hok : ¬ s.Withholds (.deliver call contended shard)) :
    ∃ s', s.deliver call contended shard = some s' ∧
      ∃ cell ∈ s'.cells, ∃ owned ∈ cell.retained, ¬ owned.NoSecret := by
  have hkept : sink.keeps contended = true ∧ ¬ ∀ field ∈ event.materialized,
      field.metadata.privacy = .secret →
        admits registration.capability registration.detail field.metadata = false := by
    by_contra hnot
    refine hok fun pending hpending first hfirst hkeeps => ?_
    rw [hcall] at hpending
    cases hpending
    cases hfirst
    rw [hcell] at hkeeps
    by_contra hadm
    exact hnot ⟨hkeeps, hadm⟩
  let received := Cell.inMemory (sink.emit
    (projectEvent event registration.capability registration.detail) contended)
  have hdeliver : s.deliver call contended shard = some { s with
      cells := s.cells.set registration.sink.index received
      calls := s.calls.set call ⟨event, sinks⟩ } := by
    rw [deliver, hcall]
    dsimp only
    rw [hcell]
    rfl
  refine ⟨_, hdeliver, received, List.mem_of_getElem? (Slots.getElem?_set_of_some hcell), _,
    InMemorySink.copy_mem_records_emit hkept.1, fun hclean => hkept.2 ?_⟩
  exact noSecret_projectEvent_iff.mp hclean

/-! ## A password under each capability -/

def signIn : EventRef :=
  { metadata := { bareEvent.metadata with
      eventName := "auth.sign_in", fields := [⟨"user", .supportSafe, .core⟩, ⟨"pin", .secret, .core⟩] }
    context := .none
    fields := [some ⟨⟨"user", .supportSafe, .core⟩, .u64 7⟩, some ⟨⟨"pin", .secret, .core⟩, .u64 1234⟩]
    message := none }

/-- A local in-memory sink and an ephemeral flight recorder are handed the sign-in. -/
theorem retained_without_secrets_recorder : ∃ s,
    Transition.Reaches (step .native64) Withholds initial s ∧
      s.cells.map (fun cell => cell.retained.length) = [1, 1] ∧
        ∀ cell ∈ s.cells, ∀ owned ∈ cell.retained, ∀ field ∈ owned.fields,
          field.privacy ≠ .secret := by
  obtain ⟨s, hrun, hlen⟩ := Transition.exists_reaches (step .native64) Withholds initial
    (fun s => s.cells.map (fun cell => cell.retained.length) = [1, 1])
    [.newInMemory 1 64 .dropNewest, .newRecorder 1 64 1,
      .perform (.addLocalSink ⟨0⟩ Filter.new .full) 0,
      .perform (.addEphemeralSink ⟨1⟩ Filter.new .full) 0, .emit signIn,
      .deliver 0 false 0, .deliver 0 false 0, .stepRecorder 1 (.stepEmit 0),
      .stepRecorder 1 (.stepEmit 0), .stepRecorder 1 (.stepEmit 0), .stepRecorder 1 (.stepEmit 0)]
    (by decide)
  exact ⟨s, hrun, hlen, retained_without_secrets .native64 s hrun⟩

/-- An ephemeral in-memory sink and an ephemeral queued sink keep the pin. -/
theorem ephemeral_sinks_retain_secret : ∃ s,
    Transition.Reaches (step .native64) Transition.always initial s ∧ s.cells.length = 2 ∧
      ∀ cell ∈ s.cells, ∃ owned ∈ cell.retained, ∃ field ∈ owned.fields,
        field.privacy = .secret := by
  obtain ⟨s, hrun, hlen, hsecret⟩ := Transition.exists_reaches (step .native64) Transition.always initial
    (fun s => s.cells.length = 2 ∧ ∀ cell ∈ s.cells, ∃ owned ∈ cell.retained,
      ∃ field ∈ owned.fields, field.privacy = .secret)
    [.newInMemory 1 64 .dropNewest, .newAsync AsyncSink.oneSlot,
      .perform (.addEphemeralSink ⟨0⟩ Filter.new .core) 0,
      .perform (.addEphemeralSink ⟨1⟩ Filter.new .core) 0, .emit signIn,
      .deliver 0 false 0, .deliver 0 false 0, .stepAsync 1 (.stepEmit 0),
      .stepAsync 1 (.stepEmit 0), .stepAsync 1 .stepQueue, .stepAsync 1 .stepQueue,
      .stepAsync 1 .stepQueue]
    (by decide)
  exact ⟨s, hrun, hlen, hsecret⟩

end System

end Logwise
