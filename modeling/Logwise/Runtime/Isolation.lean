import Logwise.Library.Transition
import Logwise.Runtime.Noninterference

/-!
# A thread inside `emit`

`Runtime::emit` (`src/facade_runtime.rs`) step by step, with the user code between the steps: a
sink's callback, and the destructors of what the loop lets go of once a callback has ended. User
code may emit and may leave any other configuration behind; only a callback may unwind.
-/

namespace Logwise.Isolation

/-- A call of `emit` on the stack of the thread. -/
inductive Frame where
  /-- The flag is set and the snapshot not taken. -/
  | selecting (event : EventRef)
  /-- Between two callbacks, with `pending` left in the snapshot. -/
  | looping (event : EventRef) (pending : List SinkRegistration)
  /-- Inside a callback. -/
  | calling (event : EventRef) (pending : List SinkRegistration)

structure State where
  inDispatch : Bool
  /-- The calls of `emit` that have not returned, the innermost first. -/
  frames : List Frame
  runtime : Runtime
  /-- The calls of `EventSink::emit` made. -/
  delivered : List Delivery

inductive Action where
  | emit (event : EventRef)
  /-- User code changes the configuration, in one operation or in many. -/
  | configure (runtime : Runtime)
  | select
  | call
  | returns
  | panics
  | finish

/-- Selecting the sinks runs no user code. -/
def State.runsUserCode (s : State) : Bool :=
  match s.frames with
  | .selecting _ :: _ => false
  | _ => true

def countDropped (rt : Runtime) : Runtime :=
  { rt with reentrantEventsDropped := rt.reentrantEventsDropped + 1 }

def countPanic (rt : Runtime) : Runtime := { rt with sinkPanics := rt.sinkPanics + 1 }

/-- The two runtimes have counted the same panics and the same dropped events. -/
def SameCounts (rt rt' : Runtime) : Prop :=
  rt'.sinkPanics = rt.sinkPanics ∧ rt'.reentrantEventsDropped = rt.reentrantEventsDropped

instance (rt rt' : Runtime) : Decidable (SameCounts rt rt') :=
  inferInstanceAs (Decidable (_ ∧ _))

def step (platform : Platform) (s : State) : Action → Option State
  | .emit event =>
    if s.runsUserCode then
      if s.inDispatch then some { s with runtime := countDropped s.runtime }
      else some { s with inDispatch := true, frames := .selecting event :: s.frames }
    else none
  | .configure runtime =>
    if s.runsUserCode ∧ SameCounts s.runtime runtime then some { s with runtime := runtime }
    else none
  | .select =>
    match s.frames with
    | .selecting event :: frames =>
      -- an endless lineage walk keeps the thread here
      (Runtime.selectedSinks platform event s.runtime).map fun sinks =>
        { s with frames := .looping event sinks :: frames }
    | _ => none
  | .call =>
    match s.frames with
    | .looping event (sink :: pending) :: frames =>
      some { s with
        frames := .calling event pending :: frames
        delivered := s.delivered ++ [Runtime.deliver event sink] }
    | _ => none
  | .returns =>
    match s.frames with
    | .calling event pending :: frames =>
      some { s with frames := .looping event pending :: frames }
    | _ => none
  | .panics =>
    match s.frames with
    | .calling event pending :: frames =>
      some { s with
        frames := .looping event pending :: frames
        runtime := countPanic s.runtime }
    | _ => none
  | .finish =>
    match s.frames with
    | .looping _ [] :: frames => some { s with inDispatch := false, frames := frames }
    | _ => none

namespace Action

def emits : Action → Bool
  | .emit _ => true
  | _ => false

def unwinds : Action → Bool
  | .panics => true
  | _ => false

/-- A step of `emit` itself or the end of a callback. -/
def advances : Action → Bool
  | .emit _ | .configure _ => false
  | _ => true

end Action

/-- The sink is to be handed the event. -/
def Matches (platform : Platform) (event : EventRef) (rt : Runtime) (sink : SinkRegistration) :
    Prop :=
  ¬(event.metadata.kind = .adHocText ∧ sink.capability = .remote) ∧
    sink.filter.matchesStatic platform event.metadata = true ∧
      sink.filter.matchesContext rt.contexts event.context = some true

instance (platform : Platform) (event : EventRef) (rt : Runtime) (sink : SinkRegistration) :
    Decidable (Matches platform event rt sink) :=
  inferInstanceAs (Decidable (_ ∧ _ ∧ _))

/-- Testing the sink's context filter walks up a circular lineage. -/
def Circular (platform : Platform) (event : EventRef) (rt : Runtime) (sink : SinkRegistration) :
    Prop :=
  ¬(event.metadata.kind = .adHocText ∧ sink.capability = .remote) ∧
    sink.filter.matchesStatic platform event.metadata = true ∧
      sink.filter.descendants = true ∧ ∃ selected, sink.filter.context = some selected ∧
        ∀ n, Walk.within (lineageStep rt.contexts selected) n event.context = none

/-- The registered sinks the event is to be handed to, in the order of their registration. -/
def matching (platform : Platform) (event : EventRef) (rt : Runtime) : List SinkRegistration :=
  rt.sinks.filter (Matches platform event rt)

variable {platform : Platform} {event : EventRef} {rt : Runtime} {sinks : List SinkRegistration}

/-- The test of one sink in the selection. -/
theorem selects_eq_true_iff {sink : SinkRegistration} :
    (if event.metadata.kind = .adHocText ∧ sink.capability = .remote then some false
      else sink.filter.selects platform rt.contexts event.metadata event.context) = some true ↔
      Matches platform event rt sink := by
  by_cases hremote : event.metadata.kind = .adHocText ∧ sink.capability = .remote
  · simp [Matches, hremote]
  · rw [if_neg hremote, Filter.selects_eq_true_iff]
    exact ⟨fun h => ⟨hremote, h⟩, fun h => h.2⟩

theorem selects_eq_none_iff {sink : SinkRegistration} :
    (if event.metadata.kind = .adHocText ∧ sink.capability = .remote then some false
      else sink.filter.selects platform rt.contexts event.metadata event.context) = none ↔
      Circular platform event rt sink := by
  by_cases hremote : event.metadata.kind = .adHocText ∧ sink.capability = .remote
  · simp [Circular, hremote]
  · rw [if_neg hremote, Circular, Filter.selects, Filter.matchesContext]
    by_cases hstatic : sink.filter.matchesStatic platform event.metadata
    · cases hcontext : sink.filter.context with
      | none => simp [hstatic]
      | some selected =>
        cases hdescendants : sink.filter.descendants with
        | false => simp [hstatic]
        | true => simp [hstatic, hremote, isDescendant_eq_none_iff]
    · simp [hstatic]

theorem selected_eq (h : Runtime.selectedSinks platform event rt = some sinks) :
    sinks = matching platform event rt := by
  rw [Walk.select_eq_filter h, matching]
  congr 1
  funext sink
  exact decide_eq_decide.mpr selects_eq_true_iff

/-- The selection hangs exactly when testing one of the registered sinks does. -/
theorem selectedSinks_eq_none_iff :
    Runtime.selectedSinks platform event rt = none ↔
      ∃ sink ∈ rt.sinks, Circular platform event rt sink := by
  rw [Runtime.selectedSinks, Walk.select_eq_none_iff]
  exact exists_congr fun sink => and_congr_right fun _ => selects_eq_none_iff

/-! ## One call of `emit` -/

/-- The thread after the actions `as` of a call of `emit` made in `s`, once the snapshot `sinks`
has been taken. The snapshot is what has been called and what is pending; nothing else is called,
and every way through the loop makes two of its steps. -/
structure Inside (event : EventRef) (sinks : List SinkRegistration) (s : State)
    (as : List Action) (t : State) : Prop where
  inDispatch : t.inDispatch = true
  place : ∃ called pending, sinks = called ++ pending ∧
    t.delivered = s.delivered ++ called.map (Runtime.deliver event) ∧
      ((t.frames = [.looping event pending] ∧
          as.countP Action.advances + 2 * pending.length = 2 * sinks.length + 1) ∨
        (t.frames = [.calling event pending] ∧
          as.countP Action.advances + 2 * pending.length = 2 * sinks.length))
  panics : t.runtime.sinkPanics = s.runtime.sinkPanics + as.countP Action.unwinds
  dropped : t.runtime.reentrantEventsDropped =
    s.runtime.reentrantEventsDropped + as.countP Action.emits

variable {s t u : State} {as rest : List Action}

/-- User code that emits inside a dispatch. -/
theorem step_emit_inDispatch (hin : t.inDispatch = true)
    (h : step platform t (.emit event) = some u) :
    u = { t with runtime := countDropped t.runtime } := by
  rw [step, if_pos hin] at h
  split at h
  · exact (Option.some.inj h).symm
  · cases h

theorem Inside.step {a : Action} (hi : Inside event sinks s as t) (ha : a ≠ .finish)
    (h : step platform t a = some u) : Inside event sinks s (as ++ [a]) u := by
  obtain ⟨called, pending, hsinks, hdelivered, hframes⟩ := hi.place
  have hpanics := hi.panics
  have hdropped := hi.dropped
  cases a with
  | emit nested =>
    -- the flag is set, so that nothing is called
    rw [step_emit_inDispatch hi.inDispatch h]
    refine ⟨hi.inDispatch, ⟨called, pending, hsinks, hdelivered, ?_⟩, ?_, ?_⟩
    · simpa [List.countP_append, Action.advances] using hframes
    · simpa [List.countP_append, Action.unwinds, countDropped] using hpanics
    · simp [List.countP_append, Action.emits, countDropped, hdropped]
      omega
  | configure runtime =>
    -- the loop goes on over its snapshot
    simp only [Isolation.step] at h
    split at h
    next hcond =>
      cases h
      obtain ⟨-, hsame⟩ := hcond
      refine ⟨hi.inDispatch, ⟨called, pending, hsinks, hdelivered, ?_⟩, ?_, ?_⟩
      · simpa [List.countP_append, Action.advances] using hframes
      · simpa [List.countP_append, Action.unwinds] using hsame.1.trans hpanics
      · simpa [List.countP_append, Action.emits] using hsame.2.trans hdropped
    next => cases h
  | select =>
    -- the snapshot has been taken
    obtain ⟨hf, -⟩ | ⟨hf, -⟩ := hframes <;> simp [Isolation.step, hf] at h
  | call =>
    -- the head of the pending sinks is called
    obtain ⟨hf, hcount⟩ | ⟨hf, -⟩ := hframes
    · cases pending with
      | nil => simp [Isolation.step, hf] at h
      | cons sink pending =>
        simp only [Isolation.step, hf] at h
        cases h
        refine ⟨hi.inDispatch, ⟨called ++ [sink], pending, ?_, ?_, Or.inr ⟨rfl, ?_⟩⟩, ?_, ?_⟩
        · simp [hsinks]
        · simp [hdelivered]
        · simp [List.countP_append, Action.advances] at hcount ⊢
          omega
        · simpa [List.countP_append, Action.unwinds] using hpanics
        · simpa [List.countP_append, Action.emits] using hdropped
    · simp [Isolation.step, hf] at h
  | returns =>
    obtain ⟨hf, -⟩ | ⟨hf, hcount⟩ := hframes
    · simp [Isolation.step, hf] at h
    · simp only [Isolation.step, hf] at h
      cases h
      refine ⟨hi.inDispatch, ⟨called, pending, hsinks, hdelivered, Or.inl ⟨rfl, ?_⟩⟩, ?_, ?_⟩
      · simp [List.countP_append, Action.advances]
        omega
      · simpa [List.countP_append, Action.unwinds] using hpanics
      · simpa [List.countP_append, Action.emits] using hdropped
  | panics =>
    obtain ⟨hf, -⟩ | ⟨hf, hcount⟩ := hframes
    · simp [Isolation.step, hf] at h
    · simp only [Isolation.step, hf] at h
      cases h
      refine ⟨hi.inDispatch, ⟨called, pending, hsinks, hdelivered, Or.inl ⟨rfl, ?_⟩⟩, ?_, ?_⟩
      · simp [List.countP_append, Action.advances]
        omega
      · simp [List.countP_append, Action.unwinds, countPanic, hpanics]
        omega
      · simpa [List.countP_append, Action.emits, countPanic] using hdropped
  | finish => exact absurd rfl ha

theorem Inside.run (hi : Inside event sinks s as t) (hrest : .finish ∉ rest)
    (h : Transition.run (Isolation.step platform) t rest = some u) :
    Inside event sinks s (as ++ rest) u := by
  induction rest generalizing as t with
  | nil =>
    cases h
    simpa using hi
  | cons a rest ih =>
    obtain ⟨m, hstep, hrun⟩ := Option.bind_eq_some_iff.mp h
    have ha : a ≠ .finish := fun he => hrest (he ▸ List.mem_cons_self ..)
    have hgo := ih (hi.step ha hstep) (fun hm => hrest (List.mem_cons_of_mem _ hm)) hrun
    rwa [List.append_assoc] at hgo

/-- The loop never gets stuck: a call is due, a callback is to end, or the call is to return. -/
theorem Inside.advance (hi : Inside event sinks s as t) :
    ∃ a : Action, a.advances = true ∧ (Isolation.step platform t a).isSome = true := by
  obtain ⟨called, pending, -, -, ⟨hf, -⟩ | ⟨hf, -⟩⟩ := hi.place
  · cases pending with
    | nil => exact ⟨.finish, rfl, by simp [Isolation.step, hf]⟩
    | cons sink pending => exact ⟨.call, rfl, by simp [Isolation.step, hf]⟩
  · exact ⟨.returns, rfl, by simp [Isolation.step, hf]⟩

theorem Inside.finish (hi : Inside event sinks s as t)
    (h : Isolation.step platform t .finish = some u) :
    u.delivered = s.delivered ++ sinks.map (Runtime.deliver event) ∧
      u.runtime = t.runtime ∧ u.inDispatch = false ∧ u.frames = [] := by
  obtain ⟨called, pending, hsinks, hdelivered, ⟨hf, -⟩ | ⟨hf, -⟩⟩ := hi.place
  · cases pending with
    | nil =>
      simp only [Isolation.step, hf] at h
      cases h
      rw [List.append_nil] at hsinks
      exact ⟨hsinks ▸ hdelivered, rfl, rfl, rfl⟩
    | cons sink pending => simp [Isolation.step, hf] at h
  · simp [Isolation.step, hf] at h

/-- A thread that is to take the snapshot does nothing else. -/
theorem step_selecting {a : Action} {frames : List Frame}
    (hframes : s.frames = .selecting event :: frames) (h : step platform s a = some t) :
    a = .select ∧ ∃ sinks, Runtime.selectedSinks platform event s.runtime = some sinks ∧
      t = { s with frames := .looping event sinks :: frames } := by
  cases a with
  | select =>
    simp only [step, hframes] at h
    obtain ⟨sinks, hsinks, rfl⟩ := Option.map_eq_some_iff.mp h
    exact ⟨rfl, sinks, hsinks, rfl⟩
  | emit nested => simp [step, State.runsUserCode, hframes] at h
  | configure runtime => simp [step, State.runsUserCode, hframes] at h
  | call => simp [step, hframes] at h
  | returns => simp [step, hframes] at h
  | panics => simp [step, hframes] at h
  | finish => simp [step, hframes] at h

/-- The call as it begins. -/
def entered (event : EventRef) (s : State) : State :=
  { s with inDispatch := true, frames := [.selecting event] }

theorem step_emit_outside (hframes : s.frames = []) (hflag : s.inDispatch = false) :
    step platform s (.emit event) = some (entered event s) := by
  simp [step, State.runsUserCode, hframes, hflag, entered]

/-- A selection that hangs is the end of the call. -/
theorem stuck_of_hangs (h : Runtime.selectedSinks platform event s.runtime = none)
    (hrun : Transition.run (step platform) (entered event s) as = some t) :
    as = [] ∧ t.delivered = s.delivered := by
  cases as with
  | nil =>
    cases hrun
    exact ⟨rfl, rfl⟩
  | cons a rest =>
    obtain ⟨m, hstep, -⟩ := Option.bind_eq_some_iff.mp hrun
    obtain ⟨-, sinks, hsinks, -⟩ := step_selecting rfl hstep
    exact absurd (hsinks.symm.trans h) nofun

/-- The snapshot is taken of the state at entry. -/
theorem inside_of_run {a : Action} (hrest : .finish ∉ rest)
    (h : Transition.run (step platform) (entered event s) (a :: rest) = some t) :
    ∃ sinks, Runtime.selectedSinks platform event s.runtime = some sinks ∧
      Inside event sinks s (a :: rest) t := by
  obtain ⟨m, hstep, hrun⟩ := Option.bind_eq_some_iff.mp h
  obtain ⟨rfl, sinks, hsinks, rfl⟩ := step_selecting rfl hstep
  have hi : Inside event sinks s [.select]
      { entered event s with frames := [.looping event sinks] } := by
    refine ⟨rfl, ⟨[], sinks, rfl, ?_, Or.inl ⟨rfl, ?_⟩⟩, rfl, rfl⟩
    · simp [entered]
    · simp [Action.advances, Nat.add_comm]
  exact ⟨sinks, hsinks, hi.run hrest hrun⟩

theorem Inside.advances_le (hi : Inside event sinks s as t) :
    as.countP Action.advances ≤ 2 * sinks.length + 1 := by
  obtain ⟨called, pending, -, -, ⟨-, hcount⟩ | ⟨-, hcount⟩⟩ := hi.place <;> omega

variable (platform event s)

/-- `emit` outside a dispatch: either the selection hangs and no sink is called, or the loop goes
through the sinks that matched at entry, whatever the user code between its steps does. Where it
ends the thread is as it was before the call, ready for the next event. -/
theorem emit_exact (hframes : s.frames = []) (hflag : s.inDispatch = false) :
    ((∃ sink ∈ s.runtime.sinks, Circular platform event s.runtime sink) → ∀ as t,
        Transition.run (step platform) s (.emit event :: as) = some t →
          as = [] ∧ t.delivered = s.delivered) ∧
      ((¬∃ sink ∈ s.runtime.sinks, Circular platform event s.runtime sink) → ∀ as t,
        .finish ∉ as → Transition.run (step platform) s (.emit event :: as) = some t →
          as.countP Action.advances ≤ 2 * (matching platform event s.runtime).length + 1 ∧
            (∃ a : Action, a.advances = true ∧ (step platform t a).isSome = true) ∧
            (∀ nested u, step platform t (.emit nested) = some u →
              u = { t with runtime := countDropped t.runtime }) ∧
            ∀ u, step platform t .finish = some u →
              u.delivered = s.delivered ++
                  (matching platform event s.runtime).map (Runtime.deliver event) ∧
                u.runtime.sinkPanics = s.runtime.sinkPanics + as.countP Action.unwinds ∧
                u.runtime.reentrantEventsDropped =
                  s.runtime.reentrantEventsDropped + as.countP Action.emits ∧
                u.inDispatch = false ∧ u.frames = []) := by
  have hentry : step platform s (.emit event) = some (entered event s) :=
    step_emit_outside hframes hflag
  constructor
  · intro hcircular as t hrun
    rw [Transition.run, hentry, Option.bind_some] at hrun
    exact stuck_of_hangs (selectedSinks_eq_none_iff.mpr hcircular) hrun
  · intro hends as t hfin hrun
    rw [Transition.run, hentry, Option.bind_some] at hrun
    cases as with
    | nil =>
      cases hrun
      have hselects : (step platform (entered event s) .select).isSome = true := by
        rw [← selectedSinks_eq_none_iff, ← Option.not_isSome_iff_eq_none, not_not] at hends
        simpa [step, entered] using hends
      refine ⟨Nat.zero_le _, ⟨.select, rfl, hselects⟩, fun nested u hu => ?_, fun u hu => ?_⟩
      · cases (step_selecting rfl hu).1
      · cases (step_selecting rfl hu).1
    | cons a rest =>
      have hrest : Action.finish ∉ rest := fun hm => hfin (List.mem_cons_of_mem _ hm)
      obtain ⟨sinks, hsinks, hi⟩ := inside_of_run hrest hrun
      rw [← selected_eq hsinks]
      refine ⟨hi.advances_le, hi.advance, fun nested u => step_emit_inDispatch hi.inDispatch, ?_⟩
      intro u hu
      obtain ⟨hdelivered, hruntime, hflag', hframes'⟩ := hi.finish hu
      rw [hruntime]
      exact ⟨hdelivered, hi.panics, hi.dropped, hflag', hframes'⟩

/-- The first sink emits and unwinds, the second removes both. -/
theorem emit_exact_isolated :
    ∃ u, Transition.run (step .native64)
        ⟨false, [], Runtime.twoViews, []⟩
        [.emit (Runtime.projectionEvent .none "local" "secret"), .select, .call,
          .emit (Runtime.projectionEvent .none "other" "hunter2"), .panics, .call,
          .configure { Runtime.twoViews with
            sinks := [], sinkPanics := 1, reentrantEventsDropped := 1 }, .returns, .finish] =
          some u ∧
      u.delivered = Runtime.twoViews.sinks.map
        (Runtime.deliver (Runtime.projectionEvent .none "local" "secret")) ∧
      u.runtime.sinkPanics = 1 ∧ u.runtime.reentrantEventsDropped = 1 ∧ u.inDispatch = false := by
  have hends : ¬∃ sink ∈ Runtime.twoViews.sinks, Circular .native64
      (Runtime.projectionEvent .none "local" "secret") Runtime.twoViews sink := by
    rw [← selectedSinks_eq_none_iff]
    exact nofun
  obtain ⟨-, -, -, hreturns⟩ := (emit_exact .native64
    (Runtime.projectionEvent .none "local" "secret") ⟨false, [], Runtime.twoViews, []⟩ rfl
    rfl).2 hends
      [.select, .call, .emit (Runtime.projectionEvent .none "other" "hunter2"), .panics, .call,
        .configure { Runtime.twoViews with
          sinks := [], sinkPanics := 1, reentrantEventsDropped := 1 }, .returns] _ (by simp) rfl
  obtain ⟨hdelivered, hpanics, hdropped, hflag, -⟩ := hreturns _ rfl
  exact ⟨_, rfl, hdelivered, hpanics, hdropped, hflag⟩

/-- A context created as its own parent, under a token nobody was given yet, one sink for
everything and one for the descendants of another context. -/
def selfParented : Option Runtime :=
  (((Operation.addLocalSink ⟨0⟩ Filter.new .core).perform .native64 0 Runtime.new).bind fun rt =>
    (Operation.addLocalSink ⟨1⟩ (Filter.new.withContext (.fromParts 2 0) true) .core).perform
      .native64 0 rt).bind fun rt =>
    (Operation.createContext (.fromParts 1 0) "own parent").perform .native64 0 rt

/-- The sink for everything matches and is never called, as the call does not get past the other
one. -/
theorem circular_never_delivered :
    ∃ rt, selfParented = some rt ∧
      (∃ sink ∈ rt.sinks, Matches .native64
        (Runtime.projectionEvent (.fromParts 1 0) "local" "secret") rt sink) ∧
      ∀ as t, Transition.run (step .native64) ⟨false, [], rt, []⟩
          (.emit (Runtime.projectionEvent (.fromParts 1 0) "local" "secret") :: as) = some t →
        t.delivered = [] := by
  refine ⟨_, rfl, ⟨_, List.mem_cons_self .., by decide⟩, ?_⟩
  intro as t hrun
  rw [Transition.run, step_emit_outside rfl rfl, Option.bind_some] at hrun
  exact (stuck_of_hangs rfl hrun).2

/-! ## Listed reactions are runs -/

variable {platform event s} {thread : Thread} {outcome : Outcome}

/-- No configuration call touches the delivery counts. -/
theorem perform_counts {operation : Operation} {now : Instant} {rt' : Runtime}
    (h : operation.perform platform now rt = some rt') : SameCounts rt rt' := by
  cases operation with
  | setInterest interest =>
    obtain ⟨_, rfl⟩ := Runtime.advanceGeneration_frame h
    exact ⟨rfl, rfl⟩
  | activate filter interest ttl | activateContext root interest ttl =>
    obtain ⟨⟨result, next⟩, hactivate, rfl⟩ := Option.map_eq_some_iff.mp h
    obtain ⟨_, _, rfl⟩ := Runtime.activate_frame hactivate
    exact ⟨rfl, rfl⟩
  | addRemoteSink sink filter level | addLocalSink sink filter level
  | addEphemeralSink sink filter level =>
    obtain ⟨⟨id, next⟩, hadd, rfl⟩ := Option.map_eq_some_iff.mp h
    obtain ⟨_, _, _, rfl⟩ := Runtime.addSink_frame hadd
    exact ⟨rfl, rfl⟩
  | removeSink id =>
    obtain ⟨⟨removed, next⟩, hremove, rfl⟩ := Option.map_eq_some_iff.mp h
    obtain ⟨_, _, rfl⟩ := Runtime.removeSink_frame hremove
    exact ⟨rfl, rfl⟩
  | createContext parent name =>
    obtain ⟨⟨token, next⟩, hcreate, rfl⟩ := Option.map_eq_some_iff.mp h
    obtain ⟨_, _, rfl⟩ := Runtime.createContext_frame hcreate
    exact ⟨rfl, rfl⟩
  | linkContext context related =>
    cases h
    exact ⟨rfl, rfl⟩

/-- The thread in the callback of one sink, and at the head of the loop. -/
def inCallback (event : EventRef) (pending : List SinkRegistration) (rt : Runtime)
    (delivered : List Delivery) : State :=
  { inDispatch := true, frames := [.calling event pending], runtime := rt, delivered := delivered }

def atLoop (event : EventRef) (pending : List SinkRegistration) (rt : Runtime)
    (delivered : List Delivery) : State :=
  { inDispatch := true, frames := [.looping event pending], runtime := rt, delivered := delivered }

theorem runActions_run (event : EventRef) (pending : List SinkRegistration)
    (delivered : List Delivery) {actions : List SinkAction} {unwound : Bool}
    (hin : thread.inDispatch = true)
    (h : Runtime.runActions platform actions thread rt = some (outcome, unwound)) :
    ∃ as, Action.finish ∉ as ∧
      Transition.run (step platform) (inCallback event pending rt delivered) as =
        some (inCallback event pending outcome.runtime delivered) := by
  induction actions generalizing rt outcome unwound with
  | nil =>
    rw [Runtime.runActions] at h
    cases h
    exact ⟨[], List.not_mem_nil, rfl⟩
  | cons action actions ih =>
    cases action with
    | emit nested reactions =>
      rw [Runtime.runActions, Runtime.emitWith_nested hin, Option.bind_some] at h
      obtain ⟨⟨rest, flag⟩, hrun, he⟩ := Option.map_eq_some_iff.mp h
      cases he
      obtain ⟨as, hfin, has⟩ := ih hrun
      refine ⟨.emit nested :: as, ?_, ?_⟩
      · simpa using hfin
      · exact has
    | perform operation now =>
      rw [Runtime.runActions] at h
      cases hp : operation.perform platform now rt with
      | none =>
        rw [hp] at h
        cases h
        exact ⟨[], List.not_mem_nil, rfl⟩
      | some rt' =>
        rw [hp] at h
        obtain ⟨as, hfin, has⟩ := ih h
        refine ⟨.configure rt' :: as, ?_, ?_⟩
        · simpa using hfin
        · have hsame : SameCounts rt rt' := perform_counts hp
          have hstep : step platform (inCallback event pending rt delivered) (.configure rt') =
              some (inCallback event pending rt' delivered) := by
            simp [step, State.runsUserCode, inCallback, hsame]
          rw [Transition.run, hstep]
          exact has

/-- Sinks whose callbacks just return. -/
theorem quiet_run (sinks : List SinkRegistration) (delivered : List Delivery) :
    ∃ as, Action.finish ∉ as ∧
      Transition.run (step platform) (atLoop event sinks rt delivered) as =
        some (atLoop event [] rt (delivered ++ sinks.map (Runtime.deliver event))) := by
  induction sinks generalizing delivered with
  | nil => exact ⟨[], List.not_mem_nil, by simp [Transition.run]⟩
  | cons sink sinks ih =>
    obtain ⟨as, hfin, has⟩ := ih (delivered ++ [Runtime.deliver event sink])
    refine ⟨.call :: .returns :: as, by simpa using hfin, ?_⟩
    rw [List.append_assoc] at has
    exact has

theorem fanOut_run (delivered : List Delivery) {reactions : List Reaction}
    (hin : thread.inDispatch = true)
    (h : Runtime.fanOut platform event reactions sinks thread rt = some outcome) :
    ∃ as, Action.finish ∉ as ∧
      Transition.run (step platform) (atLoop event sinks rt delivered) as =
        some (atLoop event [] outcome.runtime (delivered ++ outcome.deliveries)) := by
  induction reactions generalizing sinks thread rt outcome delivered with
  | nil =>
    rw [Runtime.fanOut] at h
    cases h
    exact quiet_run sinks delivered
  | cons reaction reactions ih =>
    cases sinks with
    | nil =>
      rw [Runtime.fanOut] at h
      cases h
      exact ⟨[], List.not_mem_nil, by simp [Transition.run]⟩
    | cons sink sinks =>
      obtain ⟨actions, panics⟩ := reaction
      rw [Runtime.fanOut, Runtime.react] at h
      obtain ⟨⟨called, panicked⟩, hcall, hrest⟩ := Option.bind_eq_some_iff.mp h
      obtain ⟨⟨inner, unwound⟩, hactions, he⟩ := Option.map_eq_some_iff.mp hcall
      injection he with hinner hpanicked
      subst hinner hpanicked
      obtain ⟨found, _, hsame, hthread, hnone⟩ :=
        Runtime.runActions_inDispatch platform actions thread rt hin
      obtain rfl : inner = found :=
        (Prod.mk.inj (Option.some.inj (hactions.symm.trans hsame))).1
      obtain ⟨rest, hfan, rfl⟩ := Option.map_eq_some_iff.mp hrest
      obtain ⟨as, hfin, has⟩ := runActions_run event sinks
        (delivered ++ [Runtime.deliver event sink]) hin hactions
      obtain ⟨bs, hfin', hbs⟩ := ih (delivered ++ [Runtime.deliver event sink])
        (hthread ▸ hin) hfan
      refine ⟨.call :: as ++ (if unwound || panics then .panics else .returns) :: bs, ?_, ?_⟩
      · split <;> simp [hfin, hfin']
      · have hend : step platform
            (inCallback event sinks inner.runtime (delivered ++ [Runtime.deliver event sink]))
            (if unwound || panics then .panics else .returns) =
              some (atLoop event sinks (if unwound || panics then countPanic inner.runtime
                else inner.runtime) (delivered ++ [Runtime.deliver event sink])) := by
          cases unwound || panics <;> rfl
        have hcall' : step platform (atLoop event (sink :: sinks) rt delivered) .call =
            some (inCallback event sinks rt (delivered ++ [Runtime.deliver event sink])) := rfl
        rw [Transition.run_append, Transition.run, hcall', Option.bind_some, has, Option.bind_some,
          Transition.run, hend, Option.bind_some]
        rw [List.append_assoc] at hbs
        rw [hnone]
        exact hbs

/-- **Listed reactions are runs**: what `emit` computes for listed reactions of the sinks is what
some run of the thread leaves behind. -/
theorem emit_run {reactions : List Reaction} (hout : thread.inDispatch = false)
    (h : Runtime.emit platform event reactions thread rt = some outcome) :
    ∃ as, Action.finish ∉ as ∧
      Transition.run (step platform) ⟨false, [], rt, []⟩ (.emit event :: as ++ [.finish]) =
        some ⟨outcome.thread.inDispatch, [], outcome.runtime, outcome.deliveries⟩ := by
  have hne : ¬thread.inDispatch = true := by simp [hout]
  rw [Runtime.emit, Runtime.emitWith, if_neg hne] at h
  obtain ⟨sinks, hsinks, hdispatch⟩ := Option.bind_eq_some_iff.mp h
  obtain ⟨inner, hinner, rfl⟩ := Option.map_eq_some_iff.mp hdispatch
  obtain ⟨as, hfin, has⟩ := fanOut_run [] rfl hinner
  refine ⟨.select :: as, by simpa using hfin, ?_⟩
  have hentry : step platform ⟨false, [], rt, []⟩ (.emit event) =
      some (entered event ⟨false, [], rt, []⟩) := step_emit_outside rfl rfl
  have hselect : step platform (entered event ⟨false, [], rt, []⟩) .select =
      some (atLoop event sinks rt []) := by
    simp [step, entered, atLoop, hsinks]
  rw [List.cons_append, List.cons_append, Transition.run, hentry, Option.bind_some, Transition.run,
    hselect, Option.bind_some, Transition.run_append, has]
  rfl

end Logwise.Isolation
