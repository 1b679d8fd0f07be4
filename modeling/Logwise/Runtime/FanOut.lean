import Logwise.Runtime.Operations

/-!
# Runtime fan-out

`Runtime::emit` together with what the sinks it calls may do. A sink's callback is user
code: it may emit further events, reconfigure the runtime, return or panic. `Reaction` is
one callback's behaviour, a tree because an event emitted from a callback would have
callbacks of its own.
-/

namespace Logwise

/-- The thread-local cells of the runtime. -/
structure Thread where
  currentContext : ContextToken
  inDispatch : Bool
  deriving DecidableEq, Repr

mutual

/-- One thing a sink's callback does. -/
inductive SinkAction where
  | emit (event : EventRef) (reactions : List Reaction)
  | perform (operation : Operation) (now : Instant)

/-- The behaviour of one call of `EventSink::emit`. -/
inductive Reaction where
  | mk (actions : List SinkAction) (panics : Bool)

end

/-- One call of a registered sink with the event it is handed. -/
structure Delivery where
  registration : SinkRegistration
  event : ProjectedEvent

/-- What a call of `Runtime::emit` leaves behind, with every delivery made during it. -/
structure Outcome where
  thread : Thread
  runtime : Runtime
  deliveries : List Delivery

namespace Runtime

/-- The sinks an event is to be delivered to: registered, matching, and not a remote sink
where the event is ad-hoc text. -/
def selectedSinks (platform : Platform) (event : EventRef) (rt : Runtime) :
    Option (List SinkRegistration) :=
  Walk.select (fun sink : SinkRegistration =>
    if event.metadata.kind = .adHocText ∧ sink.capability = .remote then some false
    else sink.filter.selects platform rt.contexts event.metadata event.context) rt.sinks

def deliver (event : EventRef) (sink : SinkRegistration) : Delivery :=
  { registration := sink, event := projectEvent event sink.capability sink.detail }

/-- The body of `emit` around the loop over the snapshot, which `dispatch` runs. -/
def emitWith (platform : Platform) (event : EventRef)
    (dispatch : List SinkRegistration → Thread → Runtime → Option Outcome)
    (thread : Thread) (rt : Runtime) : Option Outcome :=
  if thread.inDispatch then
    some ⟨thread, { rt with reentrantEventsDropped := rt.reentrantEventsDropped + 1 }, []⟩
  else
    (selectedSinks platform event rt).bind fun sinks =>
      (dispatch sinks { thread with inDispatch := true } rt).map fun outcome =>
        { outcome with thread := { outcome.thread with inDispatch := false } }

mutual

/-- The loop over the snapshot. A sink whose reaction is not listed just returns. -/
def fanOut (platform : Platform) (event : EventRef) :
    List Reaction → List SinkRegistration → Thread → Runtime → Option Outcome
  | [], sinks, thread, rt => some ⟨thread, rt, sinks.map (deliver event)⟩
  | _ :: _, [], thread, rt => some ⟨thread, rt, []⟩
  | reaction :: reactions, sink :: sinks, thread, rt =>
    (react platform reaction thread rt).bind fun (called, panicked) =>
      let rt := if panicked then
          { called.runtime with sinkPanics := called.runtime.sinkPanics + 1 }
        else called.runtime
      (fanOut platform event reactions sinks called.thread rt).map fun rest =>
        { rest with deliveries := deliver event sink :: called.deliveries ++ rest.deliveries }

/-- One callback, with whether it unwound. -/
def react (platform : Platform) : Reaction → Thread → Runtime → Option (Outcome × Bool)
  | .mk actions panics, thread, rt =>
    (runActions platform actions thread rt).map fun (outcome, unwound) =>
      (outcome, unwound || panics)

/-- The actions of a callback in order; an operation that panics ends the callback. -/
def runActions (platform : Platform) :
    List SinkAction → Thread → Runtime → Option (Outcome × Bool)
  | [], thread, rt => some (⟨thread, rt, []⟩, false)
  | .emit event reactions :: actions, thread, rt =>
    (emitWith platform event (fun sinks thread rt => fanOut platform event reactions sinks thread rt)
      thread rt).bind fun first =>
        (runActions platform actions first.thread first.runtime).map fun (rest, unwound) =>
          ({ rest with deliveries := first.deliveries ++ rest.deliveries }, unwound)
  | .perform operation now :: actions, thread, rt =>
    match operation.perform platform now rt with
    | none => some (⟨thread, rt, []⟩, true)
    | some rt => runActions platform actions thread rt

end

/-- `Runtime::emit`, where the `i`-th sink called behaves as the `i`-th reaction. -/
def emit (platform : Platform) (event : EventRef) (reactions : List Reaction) (thread : Thread)
    (rt : Runtime) : Option Outcome :=
  emitWith platform event (fanOut platform event reactions) thread rt

/-- An event emitted from a sink's callback is dropped and counted. -/
theorem emit_nested {platform : Platform} {event : EventRef} {reactions : List Reaction}
    {thread : Thread} {rt : Runtime} (h : thread.inDispatch = true) :
    emit platform event reactions thread rt =
      some ⟨thread, { rt with reentrantEventsDropped := rt.reentrantEventsDropped + 1 }, []⟩ := by
  rw [emit, emitWith, if_pos h]

theorem emitWith_nested {platform : Platform} {event : EventRef}
    {dispatch : List SinkRegistration → Thread → Runtime → Option Outcome}
    {thread : Thread} {rt : Runtime} (h : thread.inDispatch = true) :
    emitWith platform event dispatch thread rt =
      some ⟨thread, { rt with reentrantEventsDropped := rt.reentrantEventsDropped + 1 }, []⟩ := by
  rw [emitWith, if_pos h]

/-- A callback inside a dispatch returns, delivers nothing and leaves the flag set. -/
theorem runActions_inDispatch (platform : Platform) (actions : List SinkAction)
    (thread : Thread) (rt : Runtime) (h : thread.inDispatch = true) :
    ∃ outcome unwound, runActions platform actions thread rt = some (outcome, unwound) ∧
      outcome.thread = thread ∧ outcome.deliveries = [] := by
  induction actions generalizing rt with
  | nil =>
    rw [runActions]
    exact ⟨_, _, rfl, rfl, rfl⟩
  | cons action actions ih =>
    cases action with
    | emit event reactions =>
      obtain ⟨outcome, unwound, he, ht, hd⟩ :=
        ih { rt with reentrantEventsDropped := rt.reentrantEventsDropped + 1 }
      refine ⟨outcome, unwound, ?_, ht, hd⟩
      rw [runActions, emitWith_nested h]
      simp [he, hd]
      rw [← hd]
    | perform operation now =>
      rw [runActions]
      cases operation.perform platform now rt with
      | none => exact ⟨_, _, rfl, rfl, rfl⟩
      | some rt' => exact ih rt'

theorem react_inDispatch (platform : Platform) (reaction : Reaction) (thread : Thread)
    (rt : Runtime) (h : thread.inDispatch = true) :
    ∃ outcome panicked, react platform reaction thread rt = some (outcome, panicked) ∧
      outcome.thread = thread ∧ outcome.deliveries = [] := by
  obtain ⟨actions, panics⟩ := reaction
  obtain ⟨outcome, unwound, he, ht, hd⟩ := runActions_inDispatch platform actions thread rt h
  refine ⟨outcome, unwound || panics, ?_, ht, hd⟩
  rw [react, he]
  rfl

/-- The loop calls every sink of the snapshot once, in order, whatever the callbacks do. -/
theorem fanOut_inDispatch (platform : Platform) (event : EventRef) (reactions : List Reaction)
    (sinks : List SinkRegistration) (thread : Thread) (rt : Runtime)
    (h : thread.inDispatch = true) :
    ∃ outcome, fanOut platform event reactions sinks thread rt = some outcome ∧
      outcome.thread = thread ∧ outcome.deliveries = sinks.map (deliver event) := by
  induction reactions generalizing sinks rt with
  | nil =>
    rw [fanOut]
    exact ⟨_, rfl, rfl, rfl⟩
  | cons reaction reactions ih =>
    cases sinks with
    | nil =>
      rw [fanOut]
      exact ⟨_, rfl, rfl, rfl⟩
    | cons sink sinks =>
      obtain ⟨called, panicked, hc, htc, hdc⟩ := react_inDispatch platform reaction thread rt h
      obtain ⟨rest, hr, htr, hdr⟩ := ih sinks (if panicked then
        { called.runtime with sinkPanics := called.runtime.sinkPanics + 1 } else called.runtime)
      refine ⟨{ rest with deliveries := deliver event sink :: called.deliveries ++ rest.deliveries },
        ?_, htr, ?_⟩
      · rw [fanOut, hc]
        simp only [Option.bind_some, htc, hr, Option.map_some]
      · rw [hdc, hdr]
        rfl

/-- **Fan-out**: outside a dispatch, `emit` makes exactly one call to each selected sink, in
registration order, with that sink's own projection, and clears the flag. -/
theorem emit_deliveries (platform : Platform) (event : EventRef) (reactions : List Reaction)
    (rt : Runtime) {thread : Thread} (h : thread.inDispatch = false) :
    (emit platform event reactions thread rt).map Outcome.deliveries =
        (selectedSinks platform event rt).map (fun sinks => sinks.map (deliver event)) ∧
      ∀ outcome, emit platform event reactions thread rt = some outcome →
        outcome.thread = thread := by
  have hne : ¬thread.inDispatch = true := by rw [h]; decide
  rw [emit, emitWith, if_neg hne]
  cases hs : selectedSinks platform event rt with
  | none => exact ⟨rfl, fun _ he => by cases he⟩
  | some sinks =>
    obtain ⟨outcome, ho, ht, hd⟩ := fanOut_inDispatch platform event reactions sinks
      { thread with inDispatch := true } rt rfl
    simp only [Option.bind_some, ho, Option.map_some, hd, true_and]
    intro final hf
    rw [← Option.some.inj hf]
    simp [ht, ← h]

theorem selectedSinks_not_adHoc_remote {platform : Platform} {event : EventRef} {rt : Runtime}
    {sinks : List SinkRegistration} (h : selectedSinks platform event rt = some sinks)
    {sink : SinkRegistration} (hm : sink ∈ sinks) :
    ¬(event.metadata.kind = .adHocText ∧ sink.capability = .remote) := by
  intro hc
  have hsel := ((Walk.mem_of_select h).mp hm).2
  rw [if_pos hc] at hsel
  cases hsel

/-- Sink selection reads only the event's schema and context. -/
theorem selectedSinks_congr {platform : Platform} {a b : EventRef} {rt : Runtime}
    (hm : a.metadata = b.metadata) (hc : a.context = b.context) :
    selectedSinks platform a rt = selectedSinks platform b rt := by
  rw [selectedSinks, selectedSinks, hm, hc]

end Runtime

namespace Outcome

/-- The sequence of events one registration was handed during the call. -/
def handedTo (registration : SinkRegistration) (outcome : Outcome) : List ProjectedEvent :=
  outcome.deliveries.filterMap fun delivery =>
    if delivery.registration = registration then some delivery.event else none

end Outcome

end Logwise
