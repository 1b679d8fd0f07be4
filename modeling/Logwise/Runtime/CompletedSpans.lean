import Logwise.Runtime.Operations
import Logwise.Library.Backlog
import Logwise.Library.Slots
import Logwise.Library.Transition

/-!
# Completed spans

`start_span`, `end_span` and `take_completed_spans` with any number of calls in progress.
`end_span` takes a span out of the active table in one critical section and retains its completion
in another. With debug assertions it fails between the two if it is not given the context that the
span was started in.
-/

namespace Logwise

namespace Runtime

/-- `next_span.fetch_add` and the exhaustion assertion. -/
def drawSpan (rt : Runtime) : Option (UInt64 × Runtime) :=
  if rt.nextSpan = u64Max then none else some (rt.nextSpan, { rt with nextSpan := rt.nextSpan + 1 })

def insertActive (id : UInt64) (active : ActiveSpan) (rt : Runtime) : Runtime :=
  { rt with activeSpans := (id, active) :: rt.activeSpans }

def removeActive (id : UInt64) (rt : Runtime) : Option (ActiveSpan × Runtime) :=
  (rt.activeSpans.lookup id).map fun active =>
    (active, { rt with activeSpans := rt.activeSpans.filter fun entry => entry.1 != id })

/-- The second critical section of `end_span`. -/
def pushCompleted (completed : CompletedSpan) (rt : Runtime) : Runtime :=
  let full := rt.completedSpans.length = COMPLETED_SPAN_RETENTION
  { rt with
    completedSpans := (if full then rt.completedSpans.tail else rt.completedSpans) ++ [completed]
    completedSpansDropped :=
      if full then rt.completedSpansDropped + 1 else rt.completedSpansDropped }

end Runtime

def ActiveSpan.ofRef (span : SpanRef) (now : Instant) : ActiveSpan :=
  { eventName := span.event.metadata.eventName
    context := span.event.context
    timing := span.timing
    started := now
    warningThreshold := span.warningThreshold }

def ActiveSpan.complete (active : ActiveSpan) (span : SpanToken) (capturedContext : ContextToken)
    (now : Instant) : CompletedSpan :=
  let elapsed := now - active.started
  { token := span
    eventName := active.eventName
    context := capturedContext
    timing := active.timing
    elapsed := elapsed
    warningThreshold := active.warningThreshold
    thresholdExceeded := active.warningThreshold.any fun threshold => threshold ≤ elapsed }

/-- The pieces of `start_span`, one after the other. -/
theorem startSpan_eq (span : SpanRef) (now : Instant) (rt : Runtime) :
    rt.startSpan span now = rt.drawSpan.map fun (id, rt) =>
      (⟨id, 0⟩, rt.insertActive id (ActiveSpan.ofRef span now)) := by
  unfold Runtime.startSpan Runtime.drawSpan
  dsimp only
  split <;> rfl

/-- The pieces of `end_span`, one after the other. -/
theorem endSpan_eq (span : SpanToken) (capturedContext : ContextToken) (now : Instant)
    (rt : Runtime) : rt.endSpan span capturedContext now =
      match rt.removeActive span.id with
      | none => rt
      | some (active, rt) => rt.pushCompleted (active.complete span capturedContext now) := by
  unfold Runtime.endSpan Runtime.removeActive
  cases rt.activeSpans.lookup span.id <;> rfl

namespace Spans

/-- How far a call of `start_span` or `end_span` has got. -/
inductive Pc where
  | insert (id : UInt64) (active : ActiveSpan)
  | remove (span : SpanToken) (capturedContext : ContextToken)
  | push (span : SpanToken) (capturedContext : ContextToken) (active : ActiveSpan)
  | done
  deriving DecidableEq

/-- The runtime with the calls in progress, what `start_span` has captured under each id, the
batches `take_completed_spans` has returned, and the log of the completions and of those that were
dropped, as the counter tells. -/
structure State where
  runtime : Runtime
  calls : List Pc
  started : List (UInt64 × ActiveSpan)
  taken : List (List CompletedSpan)
  log : Backlog CompletedSpan

def initial : State :=
  { runtime := .new, calls := [], started := [], taken := [], log := {} }

inductive Action where
  | callStart (span : SpanRef) (now : Instant)
  | callEnd (span : SpanToken) (capturedContext : ContextToken)
  | step (i : ℕ) (now : Instant)
  | take

def setCall (i : ℕ) (pc : Pc) (s : State) : State := { s with calls := s.calls.set i pc }

/-- The log after a push: the oldest completion retained is dropped, the new one enters. -/
def observe (completed : CompletedSpan) (before after : Runtime) (log : Backlog CompletedSpan) :
    Backlog CompletedSpan :=
  (if before.completedSpansDropped < after.completedSpansDropped then log.overwrite else log).enter
    completed

def callStep (debugAssertions : Bool) (i : ℕ) (now : Instant) (s : State) : Pc → Option State
  | .insert id active =>
    some (setCall i .done { s with runtime := s.runtime.insertActive id active })
  | .remove span capturedContext =>
    match s.runtime.removeActive span.id with
    | none => some (setCall i .done s)
    | some (active, runtime) =>
      let s := { s with runtime := runtime }
      -- a failed `debug_assert_eq!` unwinds the call
      if debugAssertions && active.context ≠ capturedContext then some (setCall i .done s)
      else some (setCall i (.push span capturedContext active) s)
  | .push span capturedContext active =>
    let completed := active.complete span capturedContext now
    let runtime := s.runtime.pushCompleted completed
    some (setCall i .done { s with
      runtime := runtime
      log := observe completed s.runtime runtime s.log })
  | .done => none

def step (debugAssertions : Bool) (s : State) : Action → Option State
  | .callStart span now =>
    s.runtime.drawSpan.map fun (id, runtime) =>
      let active := ActiveSpan.ofRef span now
      { s with
        runtime := runtime
        calls := s.calls ++ [.insert id active]
        started := s.started ++ [(id, active)] }
  | .callEnd span capturedContext =>
    some { s with calls := s.calls ++ [.remove span capturedContext] }
  | .step i now => s.calls[i]?.bind fun pc => callStep debugAssertions i now s pc
  | .take =>
    let (batch, runtime) := s.runtime.takeCompletedSpans
    some { s with runtime := runtime, taken := s.taken ++ [batch], log := s.log.drain }

variable {debugAssertions : Bool} {s s' : State}

/-- What a step does. -/
inductive Moves (debugAssertions : Bool) (s : State) : Action → State → Prop where
  | callStart (span : SpanRef) (now : Instant) (hlast : s.runtime.nextSpan ≠ u64Max) :
    Moves debugAssertions s (.callStart span now) { s with
      runtime := { s.runtime with nextSpan := s.runtime.nextSpan + 1 }
      calls := s.calls ++ [.insert s.runtime.nextSpan (.ofRef span now)]
      started := s.started ++ [(s.runtime.nextSpan, .ofRef span now)] }
  | callEnd (span : SpanToken) (capturedContext : ContextToken) :
    Moves debugAssertions s (.callEnd span capturedContext)
      { s with calls := s.calls ++ [.remove span capturedContext] }
  | insert (i : ℕ) (now : Instant) (id : UInt64) (active : ActiveSpan)
    (hi : s.calls[i]? = some (.insert id active)) :
    Moves debugAssertions s (.step i now)
      (setCall i .done { s with runtime := s.runtime.insertActive id active })
  | unknown (i : ℕ) (now : Instant) (span : SpanToken) (capturedContext : ContextToken)
    (hi : s.calls[i]? = some (.remove span capturedContext)) :
    Moves debugAssertions s (.step i now) (setCall i .done s)
  | fails (i : ℕ) (now : Instant) (span : SpanToken) (capturedContext : ContextToken)
    (active : ActiveSpan) (hi : s.calls[i]? = some (.remove span capturedContext))
    (hactive : s.runtime.activeSpans.lookup span.id = some active) :
    Moves debugAssertions s (.step i now) (setCall i .done { s with
      runtime := { s.runtime with
        activeSpans := s.runtime.activeSpans.filter fun entry => entry.1 != span.id } })
  | remove (i : ℕ) (now : Instant) (span : SpanToken) (capturedContext : ContextToken)
    (active : ActiveSpan) (hi : s.calls[i]? = some (.remove span capturedContext))
    (hactive : s.runtime.activeSpans.lookup span.id = some active)
    (hasserted : debugAssertions = true → active.context = capturedContext) :
    Moves debugAssertions s (.step i now) (setCall i (.push span capturedContext active) { s with
      runtime := { s.runtime with
        activeSpans := s.runtime.activeSpans.filter fun entry => entry.1 != span.id } })
  | push (i : ℕ) (now : Instant) (span : SpanToken) (capturedContext : ContextToken)
    (active : ActiveSpan) (hi : s.calls[i]? = some (.push span capturedContext active))
    (hroom : s.runtime.completedSpans.length ≠ COMPLETED_SPAN_RETENTION) :
    Moves debugAssertions s (.step i now) (setCall i .done { s with
      runtime := { s.runtime with
        completedSpans :=
          s.runtime.completedSpans ++ [active.complete span capturedContext now] }
      log := s.log.enter (active.complete span capturedContext now) })
  | overwrite (i : ℕ) (now : Instant) (span : SpanToken) (capturedContext : ContextToken)
    (active : ActiveSpan) (oldest : CompletedSpan) (rest : List CompletedSpan)
    (hi : s.calls[i]? = some (.push span capturedContext active))
    (hrest : s.runtime.completedSpans = oldest :: rest)
    (hfull : s.runtime.completedSpans.length = COMPLETED_SPAN_RETENTION) :
    Moves debugAssertions s (.step i now) (setCall i .done { s with
      runtime := { s.runtime with
        completedSpans := rest ++ [active.complete span capturedContext now]
        completedSpansDropped := s.runtime.completedSpansDropped + 1 }
      log := s.log.overwrite.enter (active.complete span capturedContext now) })
  | take : Moves debugAssertions s .take { s with
      runtime := { s.runtime with completedSpans := [] }
      taken := s.taken ++ [s.runtime.completedSpans]
      log := s.log.drain }

theorem moves_of_callStep {i : ℕ} {now : Instant} {pc : Pc} (hi : s.calls[i]? = some pc)
    (h : callStep debugAssertions i now s pc = some s') :
    Moves debugAssertions s (.step i now) s' := by
  cases pc with
  | insert id active =>
    cases h
    exact .insert i now id active hi
  | remove span capturedContext =>
    rw [callStep, Runtime.removeActive] at h
    cases hactive : s.runtime.activeSpans.lookup span.id with
    | none =>
      rw [hactive] at h
      cases h
      exact .unknown i now span capturedContext hi
    | some active =>
      rw [hactive] at h
      simp only [Option.map_some] at h
      split at h <;> cases h
      next => exact .fails i now span capturedContext active hi hactive
      next hasserted =>
        refine .remove i now span capturedContext active hi hactive fun hdebug => ?_
        simpa [hdebug] using hasserted
  | push span capturedContext active =>
    cases h
    by_cases hfull : s.runtime.completedSpans.length = COMPLETED_SPAN_RETENTION
    · cases hrest : s.runtime.completedSpans with
      | nil =>
        rw [hrest] at hfull
        cases hfull
      | cons oldest rest =>
        simp only [Runtime.pushCompleted, if_pos hfull, observe, Nat.lt_succ_self]
        rw [hrest]
        exact .overwrite i now span capturedContext active oldest rest hi hrest hfull
    · simp only [Runtime.pushCompleted, if_neg hfull, observe, Nat.lt_irrefl]
      exact .push i now span capturedContext active hi hfull
  | done => cases h

theorem moves_of_step {a : Action} (h : step debugAssertions s a = some s') :
    Moves debugAssertions s a s' := by
  cases a with
  | callStart span now =>
    obtain ⟨⟨id, runtime⟩, hdraw, rfl⟩ := Option.map_eq_some_iff.mp h
    unfold Runtime.drawSpan at hdraw
    split at hdraw <;> cases hdraw
    next hlast => exact .callStart span now hlast
  | callEnd span capturedContext =>
    cases h
    exact .callEnd span capturedContext
  | step i now =>
    obtain ⟨pc, hi, hstep⟩ := Option.bind_eq_some_iff.mp h
    exact moves_of_callStep hi hstep
  | take =>
    cases h
    exact .take

/-! ## The window -/

/-- What is retained are the completions since the last read, as many as the window holds. -/
structure State.Windowed (s : State) : Prop where
  agrees : s.log.Agrees s.taken s.runtime.completedSpans
  length_le : s.runtime.completedSpans.length ≤ COMPLETED_SPAN_RETENTION
  front : s.log.front = max s.log.drainedTo (s.log.entered.length - COMPLETED_SPAN_RETENTION)
  dropped : s.runtime.completedSpansDropped = s.log.overwritten.length

theorem windowed_initial : initial.Windowed := ⟨Backlog.agrees_empty, Nat.zero_le _, rfl, rfl⟩

theorem held_length {drained : List (List CompletedSpan)} {kept : List CompletedSpan}
    {log : Backlog CompletedSpan} (h : log.Agrees drained kept) :
    kept.length = log.entered.length - log.front := by
  rw [h.kept_eq, Backlog.held, List.length_drop]

theorem windowed_step {a : Action} (h : s.Windowed) (hs : step debugAssertions s a = some s') :
    s'.Windowed := by
  have hheld := held_length h.agrees
  have hfront := h.front
  have hle := h.agrees.front_le
  cases moves_of_step hs with
  | push i now span capturedContext active hi hroom =>
    have hlt := lt_of_le_of_ne h.length_le hroom
    refine ⟨h.agrees.enter _, ?_, ?_, h.dropped⟩
    · show (s.runtime.completedSpans ++ [_]).length ≤ _
      rw [List.length_append, List.length_singleton]
      exact Nat.succ_le_of_lt hlt
    · dsimp only [setCall, Backlog.enter]
      rw [List.length_append, List.length_singleton]
      omega
  | overwrite i now span capturedContext active oldest rest hi hrest hfull =>
    have hagrees := h.agrees
    have hlength := h.length_le
    rw [hrest] at hagrees hlength
    rw [List.length_cons] at hlength
    refine ⟨hagrees.overwrite.enter _, ?_, ?_, ?_⟩
    · show (rest ++ [_]).length ≤ _
      rw [List.length_append, List.length_singleton]
      exact hlength
    · dsimp only [setCall, Backlog.enter, Backlog.overwrite]
      rw [List.length_append, List.length_singleton]
      omega
    · show s.runtime.completedSpansDropped + 1 = (s.log.overwritten ++ [_]).length
      rw [List.length_append, h.dropped]
      rfl
  | take =>
    refine ⟨h.agrees.drain, Nat.zero_le _, ?_, h.dropped⟩
    show s.log.entered.length = max s.log.entered.length (s.log.entered.length - _)
    omega
  | _ => exact ⟨h.agrees, h.length_le, h.front, h.dropped⟩

/-! ## One completion for each span -/

/-- The call has the span out of the table. -/
def Pc.concerns (id : UInt64) : Pc → Bool
  | .insert own _ => own = id
  | .push span _ _ => span.id = id
  | .remove _ _ | .done => false

/-- In how many places a span is: in the hands of a call, in the active table, or completed. -/
def State.places (s : State) (id : UInt64) : ℕ :=
  s.calls.countP (Pc.concerns id) + s.runtime.activeSpans.countP (fun entry => entry.1 = id) +
    s.log.entered.countP fun completed => completed.token.id = id

/-- A span is started once, and is in one place at most. -/
structure State.Placed (s : State) : Prop where
  nodup : (s.started.map Prod.fst).Nodup
  below : ∀ entry ∈ s.started, entry.1.toNat < s.runtime.nextSpan.toNat
  once : ∀ id, s.places id ≤ s.started.countP fun entry => entry.1 = id

theorem placed_initial : initial.Placed :=
  ⟨List.nodup_nil, fun entry hm => (by cases hm), fun _ => Nat.le_refl _⟩

/-- A call goes on, with the span or without it. -/
theorem State.Placed.move {i : ℕ} {old new : Pc} (h : s.Placed) (hi : s.calls[i]? = some old)
    (hcalls : s'.calls = s.calls.set i new) (hstarted : s'.started = s.started)
    (hnext : s'.runtime.nextSpan = s.runtime.nextSpan)
    (hplaces : ∀ id, (new.concerns id).toNat +
        s'.runtime.activeSpans.countP (fun entry => entry.1 = id) +
        s'.log.entered.countP (fun completed => completed.token.id = id) ≤
      (old.concerns id).toNat + s.runtime.activeSpans.countP (fun entry => entry.1 = id) +
        s.log.entered.countP fun completed => completed.token.id = id) : s'.Placed := by
  refine ⟨hstarted ▸ h.nodup, ?_, fun id => ?_⟩
  · rw [hstarted, hnext]
    exact h.below
  · have hcount := Slots.countP_set_add (y := new) (Pc.concerns id) hi
    have hold := h.once id
    have hmoved := hplaces id
    rw [State.places] at hold ⊢
    rw [hcalls, hstarted]
    omega

theorem countP_remove (id : UInt64) {span : SpanToken} {active : ActiveSpan}
    {entries : List (UInt64 × ActiveSpan)} (h : entries.lookup span.id = some active) :
    (decide (span.id = id)).toNat +
      (entries.filter fun entry => entry.1 != span.id).countP (fun entry => entry.1 = id) ≤
        entries.countP fun entry => entry.1 = id := by
  rw [List.countP_filter]
  by_cases hid : span.id = id
  · subst hid
    obtain ⟨before, after, rfl, -⟩ := List.lookup_eq_some_iff.mp h
    have hzero : (before ++ (span.id, active) :: after).countP
        (fun entry => decide (entry.1 = span.id) && (entry.1 != span.id)) = 0 :=
      List.countP_eq_zero.mpr fun entry _ => by simp
    rw [hzero, List.countP_append, List.countP_cons_of_pos (by simp)]
    simp only [decide_true, Bool.toNat_true]
    omega
  · have hmono := List.countP_mono_left (l := entries)
      (p := fun entry : UInt64 × ActiveSpan => decide (entry.1 = id) && (entry.1 != span.id))
      (q := fun entry => decide (entry.1 = id)) fun entry _ hp => ((Bool.and_eq_true ..).mp hp).1
    simpa [hid] using hmono

/-- A span is started under an id above those of all earlier ones. -/
theorem placed_start (h : s.Placed) (span : SpanRef) (now : Instant)
    (hlast : s.runtime.nextSpan ≠ u64Max) :
    State.Placed { s with
      runtime := { s.runtime with nextSpan := s.runtime.nextSpan + 1 }
      calls := s.calls ++ [.insert s.runtime.nextSpan (.ofRef span now)]
      started := s.started ++ [(s.runtime.nextSpan, .ofRef span now)] } := by
  have hnew : ∀ entry ∈ s.started, entry.1 ≠ s.runtime.nextSpan :=
    fun entry hm he => (h.below entry hm).ne (congrArg UInt64.toNat he)
  have hsucc : s.runtime.nextSpan.toNat < (s.runtime.nextSpan + 1).toNat := by
    rw [toNat_add_one hlast]
    exact Nat.lt_succ_self _
  refine ⟨?_, fun entry hm => ?_, fun id => ?_⟩
  · rw [List.map_append, List.nodup_append]
    refine ⟨h.nodup, List.nodup_singleton _, ?_⟩
    rintro id hm id' hm'
    obtain ⟨entry, hentry, rfl⟩ := List.mem_map.mp hm
    rw [List.mem_singleton.mp hm']
    exact hnew entry hentry
  · obtain hold | hnew := List.mem_append.mp hm
    · exact (h.below entry hold).trans hsucc
    · rw [List.mem_singleton.mp hnew]
      exact hsucc
  · have hold := h.once id
    rw [State.places] at hold ⊢
    dsimp only
    rw [List.countP_append, List.countP_append, List.countP_singleton, List.countP_singleton]
    by_cases hid : s.runtime.nextSpan = id <;> simp [Pc.concerns, hid] <;> omega

/-- A span passes from the call that has it to the completions. -/
theorem State.Placed.complete {i : ℕ} {span : SpanToken} {capturedContext : ContextToken}
    {active : ActiveSpan} (h : s.Placed)
    (hi : s.calls[i]? = some (.push span capturedContext active))
    (hcalls : s'.calls = s.calls.set i .done) (hstarted : s'.started = s.started)
    (hnext : s'.runtime.nextSpan = s.runtime.nextSpan)
    (hactive : s'.runtime.activeSpans = s.runtime.activeSpans) {completed : CompletedSpan}
    (htoken : completed.token = span)
    (hlog : s'.log.entered = s.log.entered ++ [completed]) : s'.Placed := by
  refine h.move hi hcalls hstarted hnext fun id => ?_
  rw [hactive, hlog, List.countP_append, List.countP_singleton, htoken]
  by_cases hid : span.id = id
  · simp only [Pc.concerns, hid, decide_true, Bool.toNat_true, Bool.toNat_false, if_true]
    omega
  · simp [Pc.concerns, hid]

theorem placed_step {a : Action} (h : s.Placed) (hs : step debugAssertions s a = some s') :
    s'.Placed := by
  cases moves_of_step hs with
  | callStart span now hlast => exact placed_start h span now hlast
  | callEnd span capturedContext =>
    refine ⟨h.nodup, h.below, fun id => ?_⟩
    have hold := h.once id
    rw [State.places] at hold ⊢
    dsimp only
    rw [List.countP_append, List.countP_singleton]
    exact hold
  | insert i now id active hi =>
    refine h.move hi rfl rfl rfl fun other => ?_
    show 0 + ((id, active) :: s.runtime.activeSpans).countP _ + s.log.entered.countP _ ≤
      (decide (id = other)).toNat + _ + _
    rw [List.countP_cons]
    by_cases hid : id = other
    · simp only [hid, decide_true, Bool.toNat_true, if_true]
      omega
    · simp [hid]
  | unknown i now span capturedContext hi => exact h.move hi rfl rfl rfl fun _ => Nat.le_refl _
  | fails i now span capturedContext active hi hactive =>
    refine h.move hi rfl rfl rfl fun id => ?_
    have hremove := countP_remove id hactive
    show 0 + (s.runtime.activeSpans.filter _).countP _ + s.log.entered.countP _ ≤ 0 + _ + _
    omega
  | remove i now span capturedContext active hi hactive hasserted =>
    refine h.move hi rfl rfl rfl fun id => ?_
    have hremove := countP_remove id hactive
    show (decide (span.id = id)).toNat + (s.runtime.activeSpans.filter _).countP _ +
      s.log.entered.countP _ ≤ 0 + _ + _
    omega
  | push i now span capturedContext active hi hroom =>
    exact h.complete hi rfl rfl rfl rfl rfl rfl
  | overwrite i now span capturedContext active oldest rest hi hrest hfull =>
    exact h.complete hi rfl rfl rfl rfl rfl rfl
  | take => exact ⟨h.nodup, h.below, h.once⟩

/-! ## What a completion carries -/

/-- Calls that complete a span, and completions, carry what was captured when the span was started;
`P` is what is known of the context that `end_span` was given. -/
structure State.Captures (P : ActiveSpan → ContextToken → Prop) (s : State) : Prop where
  inserting : ∀ id active, .insert id active ∈ s.calls → (id, active) ∈ s.started
  active : ∀ entry ∈ s.runtime.activeSpans, entry ∈ s.started
  pushing : ∀ span capturedContext active, .push span capturedContext active ∈ s.calls →
    (span.id, active) ∈ s.started ∧ P active capturedContext
  completed : ∀ completed ∈ s.log.entered, ∃ active now,
    (completed.token.id, active) ∈ s.started ∧ P active completed.context ∧
      completed = active.complete completed.token completed.context now

/-- A call of `end_span` that finds its span, and does not fail, is given a context as `P` has it. -/
def Gives (P : ActiveSpan → ContextToken → Prop) (debugAssertions : Bool) (s : State) :
    Action → Prop
  | .step i _ => ∀ span capturedContext active, s.calls[i]? = some (.remove span capturedContext) →
    s.runtime.activeSpans.lookup span.id = some active →
      (debugAssertions = true → active.context = capturedContext) → P active capturedContext
  | _ => True

variable {P : ActiveSpan → ContextToken → Prop}

theorem captures_initial : initial.Captures P :=
  ⟨fun _ _ hm => (by cases hm), fun _ hm => (by cases hm), fun _ _ _ hm => (by cases hm),
    fun _ hm => by cases hm⟩

theorem mem_of_lookup {id : UInt64} {active : ActiveSpan} {entries : List (UInt64 × ActiveSpan)}
    (h : entries.lookup id = some active) : (id, active) ∈ entries := by
  obtain ⟨before, after, rfl, -⟩ := List.lookup_eq_some_iff.mp h
  exact List.mem_append_right _ (List.mem_cons_self ..)

/-- A call goes on, and what it has in hand then was captured. -/
theorem State.Captures.move {i : ℕ} {new : Pc} (h : s.Captures P)
    (hcalls : s'.calls = s.calls.set i new) (hstarted : s'.started = s.started)
    (hinsert : ∀ id active, new ≠ .insert id active)
    (hpush : ∀ span capturedContext active, new = .push span capturedContext active →
      (span.id, active) ∈ s.started ∧ P active capturedContext)
    (hactive : ∀ entry ∈ s'.runtime.activeSpans, entry ∈ s.started)
    (hcompleted : ∀ completed ∈ s'.log.entered, ∃ active now,
      (completed.token.id, active) ∈ s.started ∧ P active completed.context ∧
        completed = active.complete completed.token completed.context now) : s'.Captures P := by
  refine ⟨fun id active hm => ?_, hstarted ▸ hactive, fun span capturedContext active hm => ?_,
    hstarted ▸ hcompleted⟩
  · rw [hcalls] at hm
    obtain hold | he := List.mem_or_eq_of_mem_set hm
    · exact hstarted ▸ h.inserting id active hold
    · exact absurd he.symm (hinsert id active)
  · rw [hcalls] at hm
    obtain hold | he := List.mem_or_eq_of_mem_set hm
    · exact hstarted ▸ h.pushing span capturedContext active hold
    · exact hstarted ▸ hpush span capturedContext active he.symm

/-- A completion that enters is that of the span in the hands of the call. -/
theorem State.Captures.enter {i : ℕ} {span : SpanToken} {capturedContext : ContextToken}
    {active : ActiveSpan} (h : s.Captures P)
    (hi : s.calls[i]? = some (.push span capturedContext active)) (now : Instant) :
    ∀ completed ∈ s.log.entered ++ [active.complete span capturedContext now], ∃ active now,
      (completed.token.id, active) ∈ s.started ∧ P active completed.context ∧
        completed = active.complete completed.token completed.context now := by
  intro completed hm
  obtain hold | hnew := List.mem_append.mp hm
  · exact h.completed completed hold
  · obtain ⟨hstarted, hp⟩ := h.pushing span capturedContext active (List.mem_of_getElem? hi)
    rw [List.mem_singleton.mp hnew]
    exact ⟨active, now, hstarted, hp, rfl⟩

theorem captures_step {a : Action} (h : s.Captures P) (hok : Gives P debugAssertions s a)
    (hs : step debugAssertions s a = some s') : s'.Captures P := by
  cases moves_of_step hs with
  | callStart span now hlast =>
    have hmono : ∀ entry ∈ s.started, entry ∈ s.started ++ [(s.runtime.nextSpan, .ofRef span now)] :=
      fun _ hm => List.mem_append_left _ hm
    refine ⟨fun id captured hm => ?_, fun entry hm => hmono _ (h.active entry hm),
      fun other context captured hm => ?_, fun completed hm => ?_⟩
    · obtain hold | hnew := List.mem_append.mp hm
      · exact hmono _ (h.inserting id captured hold)
      · cases List.mem_singleton.mp hnew
        exact List.mem_append_right _ (List.mem_singleton_self _)
    · obtain hold | hnew := List.mem_append.mp hm
      · exact (h.pushing other context captured hold).imp_left (hmono _)
      · cases List.mem_singleton.mp hnew
    · obtain ⟨captured, now, hstarted, hp, he⟩ := h.completed completed hm
      exact ⟨captured, now, hmono _ hstarted, hp, he⟩
  | callEnd span capturedContext =>
    refine ⟨fun id captured hm => ?_, h.active, fun other context captured hm => ?_, h.completed⟩
    · obtain hold | hnew := List.mem_append.mp hm
      · exact h.inserting id captured hold
      · cases List.mem_singleton.mp hnew
    · obtain hold | hnew := List.mem_append.mp hm
      · exact h.pushing other context captured hold
      · cases List.mem_singleton.mp hnew
  | insert i now id active hi =>
    refine h.move rfl rfl (fun _ _ => Pc.noConfusion) (fun _ _ _ => Pc.noConfusion) ?_ h.completed
    intro entry hm
    obtain rfl | hold := List.mem_cons.mp hm
    · exact h.inserting id active (List.mem_of_getElem? hi)
    · exact h.active entry hold
  | unknown i now span capturedContext hi =>
    exact h.move rfl rfl (fun _ _ => Pc.noConfusion) (fun _ _ _ => Pc.noConfusion) h.active h.completed
  | fails i now span capturedContext active hi hactive =>
    exact h.move rfl rfl (fun _ _ => Pc.noConfusion) (fun _ _ _ => Pc.noConfusion)
      (fun entry hm => h.active entry (List.mem_of_mem_filter hm)) h.completed
  | remove i now span capturedContext active hi hactive hasserted =>
    refine h.move rfl rfl (fun _ _ => Pc.noConfusion) (fun other context captured he => ?_)
      (fun entry hm => h.active entry (List.mem_of_mem_filter hm)) h.completed
    cases he
    refine ⟨h.active _ (mem_of_lookup hactive), ?_⟩
    exact hok span capturedContext active hi hactive hasserted
  | push i now span capturedContext active hi hroom =>
    exact h.move rfl rfl (fun _ _ => Pc.noConfusion) (fun _ _ _ => Pc.noConfusion) h.active
      (h.enter hi now)
  | overwrite i now span capturedContext active oldest rest hi hrest hfull =>
    exact h.move rfl rfl (fun _ _ => Pc.noConfusion) (fun _ _ _ => Pc.noConfusion) h.active
      (h.enter hi now)
  | take => exact ⟨h.inserting, h.active, h.pushing, h.completed⟩

theorem captures_of_reaches
    (hok : ∀ s a, Transition.always s a → Gives P debugAssertions s a)
    (hrun : Transition.Reaches (step debugAssertions) Transition.always initial s) : s.Captures P :=
  hrun.invariant (fun s a _ h ha hs => captures_step h (hok s a ha) hs) captures_initial

theorem State.Placed.completed_nodup (h : s.Placed) :
    (s.log.entered.map fun completed => completed.token.id).Nodup := by
  refine List.nodup_iff_count_le_one.mpr fun id => ?_
  have hstarted : s.started.countP (fun entry => entry.1 = id) ≤ 1 := by
    have hcount := List.nodup_iff_count_le_one.mp h.nodup id
    rw [List.count, List.countP_map] at hcount
    simpa [Function.comp_def, beq_eq_decide] using hcount
  have hplaces := h.once id
  rw [State.places] at hplaces
  rw [List.count, List.countP_map]
  simp only [Function.comp_def, beq_eq_decide]
  omega

/-- As a span guard calls it: `end_span` is given the context that the span was started in. -/
def SameContext (active : ActiveSpan) (capturedContext : ContextToken) : Prop :=
  active.context = capturedContext

/-- **Completed spans are bounded and accounted for**: the window is never exceeded, a span
completes once at most and as it was started, and what was taken, followed by what is retained, are
the completions but for the dropped ones, of which the oldest go first. The context is that of the
start where debug assertions are on, or where every call of `end_span` is given it. -/
theorem completed_spans_accounted (debugAssertions : Bool) (s : State)
    (hrun : Transition.Reaches (step debugAssertions) Transition.always initial s) :
    s.runtime.completedSpans.length ≤ COMPLETED_SPAN_RETENTION ∧
    (s.started.map Prod.fst).Nodup ∧
    (s.log.entered.map fun completed => completed.token.id).Nodup ∧
    (∀ completed ∈ s.log.entered, ∃ active now, (completed.token.id, active) ∈ s.started ∧
      completed.warningThreshold = active.warningThreshold ∧
      completed = active.complete completed.token completed.context now) ∧
    (debugAssertions = true ∨ Transition.Reaches (step debugAssertions)
        (Gives SameContext debugAssertions) initial s →
      ∀ completed ∈ s.log.entered, ∃ active, (completed.token.id, active) ∈ s.started ∧
        completed.context = active.context) ∧
    s.taken.flatten ++ s.runtime.completedSpans = s.log.survivors ∧
    s.runtime.completedSpansDropped = s.log.overwritten.length ∧
    s.log.entered.length = s.taken.flatten.length + s.runtime.completedSpans.length +
      s.runtime.completedSpansDropped ∧
    s.runtime.completedSpans = s.log.entered.drop
      (max s.log.drainedTo (s.log.entered.length - COMPLETED_SPAN_RETENTION)) := by
  have hwindow : s.Windowed := hrun.invariant (fun _ _ _ h _ hs => windowed_step h hs) windowed_initial
  have hplaced : s.Placed := hrun.invariant (fun _ _ _ h _ hs => placed_step h hs) placed_initial
  have hcaptures : s.Captures fun _ _ => True := by
    refine captures_of_reaches (fun s a _ => ?_) hrun
    cases a with
    | step i now => exact fun _ _ _ _ _ _ => trivial
    | _ => trivial
  refine ⟨hwindow.length_le, hplaced.nodup, hplaced.completed_nodup, ?_, ?_, hwindow.agrees.log,
    hwindow.dropped, ?_, ?_⟩
  · intro completed hm
    obtain ⟨active, now, hstarted, -, he⟩ := hcaptures.completed completed hm
    exact ⟨active, now, hstarted, congrArg CompletedSpan.warningThreshold he, he⟩
  · intro hgiven
    have hsame : s.Captures SameContext := by
      obtain rfl | hgives := hgiven
      · -- a call that was given another context has failed
        refine captures_of_reaches (fun s a _ => ?_) hrun
        cases a with
        | step i now => exact fun _ _ _ _ _ hasserted => hasserted rfl
        | _ => trivial
      · exact hgives.invariant (fun _ _ _ h hok hs => captures_step h hok hs) captures_initial
    intro completed hm
    obtain ⟨active, now, hstarted, hcontext, -⟩ := hsame.completed completed hm
    exact ⟨active, hstarted, hcontext.symm⟩
  · rw [hwindow.dropped]
    exact hwindow.agrees.length
  · rw [← hwindow.front]
    exact hwindow.agrees.kept_eq

/-- A span over one request, with a threshold. -/
def requestSpan (context : ContextToken) : SpanRef :=
  { event := .structured
      { eventName := "checkout.request", package := "shop", target := "shop", modulePath := "shop"
        domain := none, severity := .info, eventClass := .performance, kind := .span
        location := none, fields := [] } context []
    timing := .wallTime
    warningThreshold := some 5 }

/-- Two spans, of which the second ends first; the first is ended twice, and no span ends for the
token that identifies none. -/
theorem completed_spans_accounted_repeated : ∃ s,
    Transition.Reaches (step true) Transition.always initial s ∧
      s.started.map Prod.fst = [1, 2] ∧
      (s.log.entered.map fun completed => completed.token.id) = [2, 1] ∧
      s.taken.flatten ++ s.runtime.completedSpans = s.log.survivors := by
  obtain ⟨s, hrun, hstarted, hcompleted⟩ := Transition.exists_reaches (step true)
    Transition.always initial
    (fun s => s.started.map Prod.fst = [1, 2] ∧
      (s.log.entered.map fun completed => completed.token.id) = [2, 1])
    [.callStart (requestSpan ⟨1, 0⟩) 0, .step 0 0, .callStart (requestSpan ⟨2, 0⟩) 1, .step 1 1,
      .callEnd ⟨2, 0⟩ ⟨2, 0⟩, .step 2 8, .step 2 8, .callEnd .none .none, .step 3 8, .take,
      .callEnd ⟨1, 0⟩ ⟨1, 0⟩, .callEnd ⟨1, 0⟩ ⟨1, 0⟩, .step 5 9, .step 4 9, .step 5 9] (by decide)
  obtain ⟨-, -, -, -, -, hlog, -⟩ := completed_spans_accounted true s hrun
  exact ⟨s, hrun, hstarted, hcompleted, hlog⟩

end Spans

end Logwise
