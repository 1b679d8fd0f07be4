import Logwise.Runtime.Machine
import Logwise.Facade.Macros

/-!
# Who a field is evaluated for

A macro's call site in a machine, from the mask it is told to what the sinks are handed by the
same call.
-/

namespace Logwise

namespace Machine

/-- The dispatcher over one call: `interest` reads the clock at `m.now`, everything after it
`delay` later. -/
def clock (platform : Platform) (delay : Duration) (reactions : List Reaction) (m : Machine)
    (use : ℕ) : Option (Dispatch Process) :=
  some (Runtime.dispatch platform (if use = 0 then m.now else m.now + delay) reactions)

/-- The call of macro `mac` at site `i` on a thread. -/
def call (platform : Platform) (mac : Macro) (shapes : List FieldShape) (i : ℕ)
    (thread : Thread) (delay : Duration) (reactions : List Reaction) (m : Machine) :
    Option (Call Process (Option SpanGuard)) :=
  mac.call platform.usizeBits (m.clock platform delay reactions) shapes (m.sites i)
    { runtime := m.runtime, thread := thread, delivered := [] }

end Machine

namespace Runtime

variable {platform : Platform} {rt : Runtime} {shapes : List FieldShape}

theorem materialized_structured (metadata : Metadata) (context : ContextToken)
    (fields : List (Option FieldRef)) :
    (EventRef.structured metadata context fields).materialized = fields.filterMap id := rfl

/-- A wanted field that a view admits is in what that view is handed. -/
theorem mem_projectEvent {metadata : Metadata} {context : ContextToken} {interest : Interest}
    {shape : FieldShape} (hs : shape ∈ shapes)
    (hw : interest.wants shape.privacy shape.detail = true) {capability : Capability}
    {level : DetailLevel} (hadm : admits capability level shape.metadata = true) :
    ProjectedField.ofRef shape.fieldRef ∈
      (projectEvent (EventRef.structured metadata context (shapes.map fun shape =>
        if interest.wants shape.privacy shape.detail then some shape.fieldRef else none))
        capability level).fields := by
  have hfield : shape.fieldRef ∈ (shapes.map fun shape =>
      if interest.wants shape.privacy shape.detail then some shape.fieldRef else none).filterMap
        id := by
    refine List.mem_filterMap.mpr ⟨some shape.fieldRef, ?_, rfl⟩
    refine List.mem_map.mpr ⟨shape, hs, ?_⟩
    rw [if_pos hw]
  refine List.mem_map.mpr ⟨shape.fieldRef, List.mem_filter.mpr ⟨?_, hadm⟩, rfl⟩
  rw [materialized_structured]
  exact hfield

/-- Every sink the mask was computed from is called, unless the event is ad-hoc text. -/
theorem selected_of_mem_sinksFor {event : EventRef} {sinks : List SinkRegistration}
    (hkind : event.metadata.kind ≠ .adHocText)
    (h : selectedSinks platform event rt = some sinks) {sink : SinkRegistration}
    (hm : sink ∈ rt.sinksFor platform event.metadata event.context) : sink ∈ sinks := by
  obtain ⟨hreg, hsel⟩ := List.mem_filter.mp hm
  refine (Walk.mem_of_select h).mpr ⟨hreg, ?_⟩
  rw [if_neg fun hc => hkind hc.1]
  exact of_decide_eq_true hsel

/-- A field someone may be said to ask for: the baseline, or an activation alive in the call's
context. -/
def Wanted (platform : Platform) (metadata : Metadata) (context : ContextToken) (now : Instant)
    (rt : Runtime) (shape : FieldShape) : Prop :=
  rt.baselineInterest.wants shape.privacy shape.detail = true ∨
    ∃ activation ∈ rt.activeFor platform metadata context now,
      activation.interest.wants shape.privacy shape.detail = true

/-- A field in the projection of some sink whose filter selects the call. -/
def Viewed (platform : Platform) (metadata : Metadata) (context : ContextToken) (rt : Runtime)
    (shape : FieldShape) : Prop :=
  ∃ sink ∈ rt.sinksFor platform metadata context,
    admits sink.capability sink.detail shape.metadata = true

theorem wanted_or_viewed {metadata : Metadata} {context : ContextToken} {now : Instant}
    {shape : FieldShape}
    (h : (rt.requested platform metadata context now).wants shape.privacy shape.detail = true) :
    rt.Wanted platform metadata context now shape ∨
      rt.Viewed platform metadata context shape := by
  obtain hb | ha | ⟨sink, hs, hw⟩ := requested_wants.mp h
  · exact Or.inl (Or.inl hb)
  · exact Or.inl (Or.inr ha)
  · refine Or.inr ⟨sink, hs, ?_⟩
    have hadm := sinkInterest_wants sink.capability sink.detail shape.metadata
    exact hadm ▸ hw

/-- What an expansion did before it delivered: nothing at all, or the fields the requested mask
wants, evaluated once each against an unchanged configuration. -/
theorem expand_spec {ρ : Type*} {deliver : EventRef → Process → Option (ρ × Process)}
    {skipped : ρ} {site : Callsite} {thread : Thread} {now : Instant} {delay : Duration}
    {reactions : List Reaction} {dispatcher : ℕ → Option (Dispatch Process)}
    {called : Call Process ρ} (hfields : site.metadata.fields = fieldMetadata shapes)
    (h₀ : dispatcher 0 = some (dispatch platform now reactions))
    (h₁ : dispatcher 1 = some (dispatch platform (now + delay) reactions))
    (hs : Sound platform rt) (hc : site.Coherent platform rt)
    (h : site.expand platform.usizeBits dispatcher shapes deliver skipped
      ⟨rt, thread, []⟩ = some called) :
    called.evaluated = [] ∧ called.state.delivered = [] ∨
    ∃ process : Process, process.thread = thread ∧ process.delivered = [] ∧
      process.runtime.sinks = rt.sinks ∧ process.runtime.contexts = rt.contexts ∧
      called.evaluated.Nodup ∧
      (∀ j ∈ called.evaluated, ∃ shape, shapes[j]? = some shape ∧
        (rt.requested platform site.metadata thread.currentContext
          (now + delay)).wants shape.privacy shape.detail = true) ∧
      deliver (EventRef.structured site.metadata thread.currentContext (shapes.map fun shape =>
        if (rt.requested platform site.metadata thread.currentContext (now + delay)).wants
          shape.privacy shape.detail then some shape.fieldRef else none)) process =
        some (called.result, called.state) := by
  unfold Callsite.expand at h
  obtain ⟨⟨cached, site₁, p₁⟩, hfirst, hrest⟩ := Option.bind_eq_some_iff.mp h
  rw [h₀] at hfirst
  obtain ⟨hcached, hthread, hdel, hmeta, -, hsinks, hcontexts, hreq, -, hsound⟩ :=
    callsite_interest_eq_some rfl hs hc hfirst
  dsimp only at hrest
  split at hrest
  next =>
    -- the cached mask asks for something, now or in some context
    rw [h₁] at hrest
    obtain ⟨⟨mask, p₂⟩, hsecond, hrest₂⟩ := Option.bind_eq_some_iff.mp hrest
    obtain ⟨hmask, hthread₂, hdel₂, hsinks₂, hcontexts₂, -, -⟩ :=
      callsite_contextualInterest_eq_some hsound (hmeta ▸ hcached) hsecond
    have hcontext : p₁.thread.currentContext = thread.currentContext := by rw [hthread]
    have hrequested : mask = rt.requested platform site.metadata thread.currentContext
        (now + delay) := by
      rw [hmask, hmeta, ← hreq _ _ _ (Nat.le_add_right now delay)]
      exact congrArg (fun c => p₁.runtime.requested platform site.metadata c _) hcontext
    dsimp only at hrest₂
    split at hrest₂
    next =>
      -- and so does the mask for the context the thread is in
      obtain ⟨evaluated, hvalues, hnodup, hall⟩ := fieldValues_fieldMetadata mask 0 shapes
      rw [hmeta, hfields, hvalues, Option.bind_some] at hrest₂
      obtain ⟨⟨result, s⟩, hdeliver, he⟩ := Option.map_eq_some_iff.mp hrest₂
      cases he
      refine Or.inr ⟨p₂, hthread₂.trans hthread, hdel₂.trans hdel, hsinks₂.trans hsinks,
        hcontexts₂.trans hcontexts, hnodup, ?_, ?_⟩
      · intro j hj
        obtain ⟨shape, -, hget, hw⟩ := hall j hj
        exact ⟨shape, by simpa using hget, hrequested ▸ hw⟩
      · rw [← hrequested, ← hcontext]
        exact hdeliver
    next =>
      cases hrest₂
      exact Or.inl ⟨rfl, hdel₂.trans hdel⟩
  next =>
    cases hrest
    exact Or.inl ⟨rfl, hdel⟩

/-- What `Callsite::emit` adds to the deliveries of a process. -/
theorem callsite_emit_eq_some {now : Instant} {reactions : List Reaction} {event : EventRef}
    {process process' : Process} {answer : Unit}
    (h : Callsite.emit (some (dispatch platform now reactions)) event process =
      some (answer, process')) :
    ∃ outcome, emit platform event reactions process.thread process.runtime = some outcome ∧
      process'.delivered = process.delivered ++ outcome.deliveries := by
  unfold Callsite.emit at h
  dsimp only [dispatch] at h
  rw [Option.map_map] at h
  obtain ⟨outcome, hout, he⟩ := Option.map_eq_some_iff.mp h
  cases he
  exact ⟨outcome, hout, rfl⟩

/-- Outside a dispatch, every sink whose filter selects the event is handed its projection. -/
theorem callsite_emit_hands {now : Instant} {reactions : List Reaction} {event : EventRef}
    {process process' : Process} {answer : Unit} (hidle : process.thread.inDispatch = false)
    (hkind : event.metadata.kind ≠ .adHocText)
    (h : Callsite.emit (some (dispatch platform now reactions)) event process =
      some (answer, process')) {sink : SinkRegistration}
    (hm : sink ∈ process.runtime.sinksFor platform event.metadata event.context) :
    deliver event sink ∈ process'.delivered := by
  obtain ⟨outcome, hout, hdel⟩ := callsite_emit_eq_some h
  have hfan := (emit_deliveries platform event reactions process.runtime hidle).1
  rw [hout, Option.map_some] at hfan
  obtain ⟨sinks, hsel, hsinks⟩ := Option.map_eq_some_iff.mp hfan.symm
  rw [hdel, ← hsinks]
  refine List.mem_append_right _ (List.mem_map_of_mem ?_)
  exact selected_of_mem_sinksFor hkind hsel hm

/-- An emission returns where the lineage is acyclic. -/
theorem emit_isSome {event : EventRef} {reactions : List Reaction} {thread : Thread}
    (ha : Acyclic rt.contexts) : (emit platform event reactions thread rt).isSome := by
  unfold emit emitWith
  split
  · rfl
  · obtain ⟨sinks, hsel⟩ := Option.isSome_iff_exists.mp
      (Walk.select_isSome (fun sink : SinkRegistration =>
        if event.metadata.kind = .adHocText ∧ sink.capability = .remote then some false
        else sink.filter.selects platform rt.contexts event.metadata event.context)
        rt.sinks (fun sink _ => by
          split
          · rfl
          · exact Filter.selects_isSome ha ..))
    obtain ⟨outcome, hout, -, -⟩ :=
      fanOut_inDispatch platform event reactions sinks { thread with inDispatch := true } rt rfl
    rw [selectedSinks, hsel, Option.bind_some, hout]
    rfl

end Runtime

namespace Machine

variable {platform : Platform} {schema : ℕ → Metadata} {m : Machine} {mac : Macro}
  {place : Place} {shapes : List FieldShape} {i : ℕ} {thread : Thread} {delay : Duration}
  {reactions : List Reaction} {called : Call Process (Option SpanGuard)}

/-- An expansion at a site of the machine, whatever it delivers to. -/
theorem expand_call_spec {ρ : Type*} {deliver : EventRef → Process → Option (ρ × Process)}
    {skipped : ρ} {inner : Call Process ρ} (hc : m.Coherent platform schema)
    (hsite : schema i = mac.metadata place shapes)
    (h : (m.sites i).expand platform.usizeBits (m.clock platform delay reactions) shapes deliver
      skipped ⟨m.runtime, thread, []⟩ = some inner) :
    inner.evaluated = [] ∧ inner.state.delivered = [] ∨
    ∃ process : Process, process.thread = thread ∧ process.delivered = [] ∧
      process.runtime.sinks = m.runtime.sinks ∧ process.runtime.contexts = m.runtime.contexts ∧
      inner.evaluated.Nodup ∧
      (∀ j ∈ inner.evaluated, ∃ shape, shapes[j]? = some shape ∧
        (m.runtime.requested platform (schema i) thread.currentContext
          (m.now + delay)).wants shape.privacy shape.detail = true) ∧
      deliver (EventRef.structured (schema i) thread.currentContext (shapes.map fun shape =>
        if (m.runtime.requested platform (schema i) thread.currentContext (m.now + delay)).wants
          shape.privacy shape.detail then some shape.fieldRef else none)) process =
        some (inner.result, inner.state) := by
  have hmeta := hc.metadata i
  have hfields : (m.sites i).metadata.fields = fieldMetadata shapes := by
    rw [hmeta, hsite, Macro.metadata_fields]
  have hspec := Runtime.expand_spec hfields rfl rfl hc.sound (hc.sites i) h
  rw [hmeta] at hspec
  exact hspec

/-- What a structured call evaluates. -/
theorem structured_call_spec (hc : m.Coherent platform schema)
    (hsite : schema i = mac.metadata place shapes) (htiming : mac.timing = none)
    (h : m.call platform mac shapes i thread delay reactions = some called) :
    called.evaluated.Nodup ∧ (thread.inDispatch = true → called.state.delivered = []) ∧
      ∀ j ∈ called.evaluated, ∃ shape, shapes[j]? = some shape ∧
        (m.runtime.Wanted platform (schema i) thread.currentContext (m.now + delay) shape ∨
          m.runtime.Viewed platform (schema i) thread.currentContext shape) ∧
        (thread.inDispatch = false →
          m.runtime.Viewed platform (schema i) thread.currentContext shape →
          ∃ delivery ∈ called.state.delivered, delivery.registration ∈ m.runtime.sinks ∧
            ProjectedField.ofRef shape.fieldRef ∈ delivery.event.fields) := by
  unfold call Macro.call at h
  rw [htiming] at h
  obtain ⟨inner, hinner, rfl⟩ := Option.map_eq_some_iff.mp h
  rcases expand_call_spec hc hsite hinner with
    ⟨hnone, hquiet⟩ | ⟨process, hthread, hdel, hsinks, hcontexts, hnodup, hall, hdeliver⟩
  · rw [hnone]
    exact ⟨List.nodup_nil, fun _ => hquiet, fun _ hj => by cases hj⟩
  refine ⟨hnodup, ?_, ?_⟩
  · -- inside a dispatch the event is dropped
    intro hbusy
    obtain ⟨outcome, hout, happ⟩ := Runtime.callsite_emit_eq_some hdeliver
    rw [Runtime.emit_nested (hthread ▸ hbusy)] at hout
    cases hout
    rw [happ, hdel]
    rfl
  · intro j hj
    obtain ⟨shape, hget, hwants⟩ := hall j hj
    refine ⟨shape, hget, Runtime.wanted_or_viewed hwants, ?_⟩
    -- outside, the sink that sees the field is called with it
    rintro hidle ⟨sink, hsink, hadm⟩
    have hsink' : sink ∈ process.runtime.sinksFor platform (schema i) thread.currentContext := by
      rw [Runtime.sinksFor, hsinks, hcontexts]
      exact hsink
    have hkind : (schema i).kind ≠ .adHocText := by
      rw [hsite]
      exact Macro.metadata_kind_ne_adHocText place shapes mac
    refine ⟨_, Runtime.callsite_emit_hands (hthread ▸ hidle) hkind hdeliver hsink',
      (List.mem_filter.mp hsink).1, ?_⟩
    exact Runtime.mem_projectEvent (List.mem_of_getElem? hget) hwants hadm

/-- A macro that starts a span hands nothing to any sink. -/
theorem span_call_spec (hc : m.Coherent platform schema)
    (hsite : schema i = mac.metadata place shapes) (htiming : mac.timing ≠ none)
    (h : m.call platform mac shapes i thread delay reactions = some called) :
    called.evaluated.Nodup ∧ called.state.delivered = [] ∧
      ∀ j ∈ called.evaluated, ∃ shape, shapes[j]? = some shape ∧
        (m.runtime.Wanted platform (schema i) thread.currentContext (m.now + delay) shape ∨
          m.runtime.Viewed platform (schema i) thread.currentContext shape) := by
  obtain ⟨⟨timing, threshold⟩, ht⟩ := Option.ne_none_iff_exists'.mp htiming
  unfold call Macro.call at h
  rw [ht] at h
  obtain ⟨inner, hinner, rfl⟩ := Option.map_eq_some_iff.mp h
  rcases expand_call_spec hc hsite hinner with
    ⟨hnone, hquiet⟩ | ⟨process, -, hdel, -, -, hnodup, hall, hdeliver⟩
  · rw [hnone]
    exact ⟨List.nodup_nil, hquiet, fun _ hj => by cases hj⟩
  refine ⟨hnodup, ?_, ?_⟩
  · unfold Callsite.startSpan clock at hdeliver
    dsimp only [Runtime.dispatch] at hdeliver
    rw [Option.map_map] at hdeliver
    obtain ⟨⟨token, rt⟩, -, he⟩ := Option.map_eq_some_iff.mp hdeliver
    rw [← (Prod.mk.inj he).2]
    exact hdel
  · intro j hj
    obtain ⟨shape, hget, hwants⟩ := hall j hj
    exact ⟨shape, hget, Runtime.wanted_or_viewed hwants⟩

/-- A structured call returns where no lineage is circular and the generations last. -/
theorem structured_call_isSome (hc : m.Coherent platform schema)
    (hsite : schema i = mac.metadata place shapes) (htiming : mac.timing = none)
    (ha : Acyclic m.runtime.contexts) (hg : m.runtime.generation + 2 < platform.usizeMax) :
    (m.call platform mac shapes i thread delay reactions).isSome := by
  obtain ⟨⟨cached, site, p₁⟩, hf⟩ := Option.isSome_iff_exists.mp
    (Runtime.callsite_interest_isSome platform (m.sites i) m.now reactions
      ⟨m.runtime, thread, []⟩ (show m.runtime.generation + 1 < platform.usizeMax by omega))
  obtain ⟨-, -, -, hmeta, -, -, hcontexts, -, -, hsound⟩ :=
    Runtime.callsite_interest_eq_some rfl hc.sound (hc.sites i) hf
  have hgen : p₁.runtime.generation ≤ m.runtime.generation + 1 :=
    Runtime.callsite_interest_generation_le hc.sound hf
  have hfields : site.metadata.fields = fieldMetadata shapes := by
    rw [hmeta, hc.metadata i, hsite, Macro.metadata_fields]
  have hfirst : (m.sites i).interest platform.usizeBits (m.clock platform delay reactions 0)
      ⟨m.runtime, thread, []⟩ = some (cached, site, p₁) := hf
  rw [call, Macro.call, htiming]
  simp only [Option.isSome_map, Callsite.structured, Callsite.expand, hfirst, Option.bind_some]
  split
  next =>
    obtain ⟨⟨mask, p₂⟩, hsecond⟩ := Option.isSome_iff_exists.mp
      (Runtime.callsite_contextualInterest_isSome site p₁.thread.currentContext (m.now + delay)
        cached reactions hsound (hcontexts ▸ ha) (by omega))
    have hcontexts₂ : p₂.runtime.contexts = p₁.runtime.contexts := by
      obtain ⟨-, -, -, -, h, -⟩ := Runtime.callsite_contextualInterest_eq_some hsound
        (hmeta ▸ (Runtime.callsite_interest_eq_some rfl hc.sound (hc.sites i) hf).1) hsecond
      exact h
    have hsecond' : site.contextualInterest (m.clock platform delay reactions 1) cached
        ((m.clock platform delay reactions 1).elim ContextToken.none fun d =>
          d.captureContext p₁) p₁ = some (mask, p₂) := hsecond
    rw [hsecond', Option.bind_some]
    dsimp only
    split
    · obtain ⟨evaluated, hvalues, -, -⟩ := fieldValues_fieldMetadata mask 0 shapes
      have hacyclic : Acyclic p₂.runtime.contexts := hcontexts₂ ▸ hcontexts ▸ ha
      rw [hfields, hvalues, Option.bind_some]
      simp only [Option.isSome_map, Callsite.emit, clock, Runtime.dispatch]
      exact Runtime.emit_isSome hacyclic
    · rfl
  next => rfl

/-- **Evaluated for someone**: a field a call evaluates is asked for by the baseline or by an
activation alive in the call's context, or a sink is handed it by the same call; a span, and a
call made inside a dispatch, hands nothing out; and nothing is evaluated twice. A structured
call returns where no lineage is circular and the generations last. -/
theorem call_evaluates_for_someone (platform : Platform) (schema : ℕ → Metadata) (m : Machine)
    (hreach : Reachable platform schema m) (mac : Macro) (place : Place)
    (shapes : List FieldShape) (i : ℕ) (hsite : schema i = mac.metadata place shapes)
    (thread : Thread) (delay : Duration) (reactions : List Reaction) :
    (mac.timing = none → Acyclic m.runtime.contexts →
      m.runtime.generation + 2 < platform.usizeMax →
        (m.call platform mac shapes i thread delay reactions).isSome) ∧
    ∀ called, m.call platform mac shapes i thread delay reactions = some called →
      called.evaluated.Nodup ∧
      (mac.timing = none → thread.inDispatch = false →
        ∀ j ∈ called.evaluated, ∃ shape, shapes[j]? = some shape ∧
          (m.runtime.Wanted platform (schema i) thread.currentContext (m.now + delay) shape ∨
            ∃ delivery ∈ called.state.delivered, delivery.registration ∈ m.runtime.sinks ∧
              ProjectedField.ofRef shape.fieldRef ∈ delivery.event.fields)) ∧
      (mac.timing ≠ none ∨ thread.inDispatch = true →
        called.state.delivered = [] ∧
          ∀ j ∈ called.evaluated, ∃ shape, shapes[j]? = some shape ∧
            (m.runtime.Wanted platform (schema i) thread.currentContext (m.now + delay) shape ∨
              m.runtime.Viewed platform (schema i) thread.currentContext shape)) := by
  have hc := hreach.coherent
  refine ⟨fun htiming => structured_call_isSome hc hsite htiming, ?_⟩
  intro called h
  by_cases htiming : mac.timing = none
  · obtain ⟨hnodup, hbusy, hall⟩ := structured_call_spec hc hsite htiming h
    refine ⟨hnodup, ?_, ?_⟩
    · intro _ hidle j hj
      obtain ⟨shape, hget, hor, hhanded⟩ := hall j hj
      exact ⟨shape, hget, hor.imp_right (hhanded hidle)⟩
    · rintro (hne | hin)
      · exact absurd htiming hne
      · refine ⟨hbusy hin, ?_⟩
        intro j hj
        obtain ⟨shape, hget, hor, -⟩ := hall j hj
        exact ⟨shape, hget, hor⟩
  · obtain ⟨hnodup, hquiet, hall⟩ := span_call_spec hc hsite htiming h
    exact ⟨hnodup, fun hnone => absurd hnone htiming, fun _ => ⟨hquiet, hall⟩⟩

/-! ## One call site with a core and a detail field -/

def checkoutPlace : Place :=
  { package := "shop", target := "shop", modulePath := "shop", location := ⟨"src/lib.rs", 7, 5⟩ }

def checkoutShapes : List FieldShape :=
  [⟨false, "total", some .support, .u64 7⟩, ⟨true, "route", some .support, .str "cart"⟩]

def checkoutEvent : Macro := .event none .operational .info "checkout"

def checkoutSpan : Macro := .span .operational .info "checkout"

/-- The positions a call evaluated, and the field names of each delivery it made. -/
def observed (called : Call Process (Option SpanGuard)) : List ℕ × List (List String) :=
  (called.evaluated, called.state.delivered.map fun delivery =>
    delivery.event.fields.map ProjectedField.name)

/-- A baseline without sinks, an activation of detail over a core view, a span, and an event
inside a dispatch: each evaluates a field that no sink is handed. -/
theorem evaluated_for_nobody :
    (∃ m, Reachable .native64 (fun _ => checkoutEvent.metadata checkoutPlace checkoutShapes) m ∧
      (m.call .native64 checkoutEvent checkoutShapes 0 ⟨.none, false⟩ 0 []).map observed =
        some ([0], [])) ∧
    (∃ m, Reachable .native64 (fun _ => checkoutEvent.metadata checkoutPlace checkoutShapes) m ∧
      (m.call .native64 checkoutEvent checkoutShapes 0 ⟨.none, false⟩ 0 []).map observed =
        some ([0, 1], [["total"]])) ∧
    (∃ m, Reachable .native64 (fun _ => checkoutSpan.metadata checkoutPlace checkoutShapes) m ∧
      (m.call .native64 checkoutSpan checkoutShapes 0 ⟨.none, false⟩ 0 []).map observed =
        some ([0, 1], [])) ∧
    (∃ m, Reachable .native64 (fun _ => checkoutEvent.metadata checkoutPlace checkoutShapes) m ∧
      (m.call .native64 checkoutEvent checkoutShapes 0 ⟨.none, true⟩ 0 []).map observed =
        some ([0, 1], [])) :=
  ⟨⟨_, Transition.reaches_of_run [.perform (.setInterest Interest.CORE_SUPPORT)] rfl, rfl⟩,
    ⟨_, Transition.reaches_of_run [.perform (.addRemoteSink ⟨0⟩ Filter.new .core),
      .query 0 .none 0, .perform (.activate Filter.new Interest.DETAIL_SUPPORT 100)] rfl, rfl⟩,
    ⟨_, Transition.reaches_of_run [.perform (.addRemoteSink ⟨0⟩ Filter.new .full)] rfl, rfl⟩,
    ⟨_, Transition.reaches_of_run [.perform (.addRemoteSink ⟨0⟩ Filter.new .full)] rfl, rfl⟩⟩

theorem call_evaluates_for_someone_checkout :
    ∃ m called, Reachable .native64 (fun _ => checkoutEvent.metadata checkoutPlace checkoutShapes) m ∧
      m.call .native64 checkoutEvent checkoutShapes 0 ⟨.none, false⟩ 0 [] = some called ∧
      called.evaluated = [0, 1] ∧ called.evaluated.Nodup := by
  have hreach : Reachable .native64
      (fun _ => checkoutEvent.metadata checkoutPlace checkoutShapes) _ :=
    Transition.reaches_of_run [.perform (.addRemoteSink ⟨0⟩ Filter.new .full)] rfl
  have hcall := call_evaluates_for_someone .native64 _ _ hreach checkoutEvent checkoutPlace
    checkoutShapes 0 rfl ⟨.none, false⟩ 0 []
  exact ⟨_, _, hreach, rfl, rfl, (hcall.2 _ rfl).1⟩

end Machine

end Logwise
