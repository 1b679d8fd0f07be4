import Logwise.Runtime.Evaluation

/-!
# Gated delivery

A structured macro evaluates the fields its mask wants and skips the emission when the mask is
empty. Here that path is compared with the plain one, which evaluates every field and emits.
-/

namespace Logwise

namespace Interest

theorem any_of_wants {interest : Interest} (privacy : Privacy) (level : Detail)
    (h : interest.wants privacy level = true) : interest.any = true := by
  rw [wants, bne_iff_ne] at h
  rw [any, bne_iff_ne]
  intro hzero
  apply h
  rw [hzero]
  exact BitVec.zero_and

theorem any_of_isContextual {interest : Interest} (h : interest.isContextual = true) :
    interest.any = true := by
  rw [isContextual, bne_iff_ne] at h
  rw [any, bne_iff_ne]
  intro hzero
  apply h
  rw [hzero]
  exact BitVec.zero_and

end Interest

/-- Every view wants the core fields that are safe for support. -/
theorem sinkInterest_wants_core (capability : Capability) (level : DetailLevel) :
    (sinkInterest capability level).wants .supportSafe .core = true := by
  cases capability <;> cases level <;> decide

/-- The event of a call that evaluates every field. -/
def ungated (metadata : Metadata) (context : ContextToken) (shapes : List FieldShape) : EventRef :=
  EventRef.structured metadata context (shapes.map fun shape => some shape.fieldRef)

/-- The event of a call that evaluates the fields a mask wants. -/
def gated (metadata : Metadata) (context : ContextToken) (shapes : List FieldShape)
    (interest : Interest) : EventRef :=
  EventRef.structured metadata context (shapes.map fun shape =>
    if interest.wants shape.privacy shape.detail then some shape.fieldRef else none)

namespace Runtime

variable {platform : Platform} {rt : Runtime} {shapes : List FieldShape}

theorem ungated_materialized (metadata : Metadata) (context : ContextToken)
    (shapes : List FieldShape) :
    (ungated metadata context shapes).materialized = shapes.map FieldShape.fieldRef := by
  rw [ungated, materialized_structured, List.filterMap_map]
  exact congrFun List.filterMap_eq_map _

theorem gated_materialized (metadata : Metadata) (context : ContextToken)
    (shapes : List FieldShape) (interest : Interest) :
    (gated metadata context shapes interest).materialized =
      (shapes.filter fun shape => interest.wants shape.privacy shape.detail).map
        FieldShape.fieldRef := by
  rw [gated, materialized_structured, List.filterMap_map]
  induction shapes with
  | nil => rfl
  | cons shape shapes ih =>
    rw [List.filterMap_cons, ih, List.filter_cons]
    cases hw : interest.wants shape.privacy shape.detail with
    | true => simp [hw]
    | false => simp [hw]

/-- **A view cannot tell a gated event from a plain one** when the mask wants all the view
admits: the fields it is handed and the count of those it is not are the same. -/
theorem projectEvent_gated {metadata : Metadata} {context : ContextToken} {interest : Interest}
    {capability : Capability} {level : DetailLevel}
    (h : ∀ shape ∈ shapes, admits capability level shape.metadata = true →
      interest.wants shape.privacy shape.detail = true) :
    projectEvent (gated metadata context shapes interest) capability level =
      projectEvent (ungated metadata context shapes) capability level := by
  have hfields : (gated metadata context shapes interest).materialized.filter
        (fun field => admits capability level field.metadata) =
      (ungated metadata context shapes).materialized.filter
        (fun field => admits capability level field.metadata) := by
    rw [gated_materialized, ungated_materialized, List.filter_map, List.filter_map,
      List.filter_filter]
    congr 1
    apply List.filter_congr
    intro shape hs
    show (admits capability level shape.metadata && interest.wants shape.privacy shape.detail) =
      admits capability level shape.metadata
    cases hadm : admits capability level shape.metadata with
    | false => rfl
    | true => rw [h shape hs hadm, Bool.true_and]
  simp only [projectEvent, hfields]
  rfl

/-- A mask is not empty where a sink's static filter matches. -/
theorem staticInterest_any {metadata : Metadata} {sink : SinkRegistration} (hs : sink ∈ rt.sinks)
    (hm : sink.filter.matchesStatic platform metadata = true) :
    (rt.staticInterest platform metadata).any = true := by
  have hmem : cacheableInterest sink ∈ (rt.sinks.filter fun sink =>
      sink.filter.matchesStatic platform metadata).map cacheableInterest :=
    List.mem_map_of_mem (List.mem_filter.mpr ⟨hs, hm⟩)
  rw [staticInterest_eq]
  by_cases hc : sink.filter.context.isSome = true
  · -- a sink with a context filter leaves the contextual mark
    have hmark : (cacheableInterest sink).isContextual = true := by
      rw [cacheableInterest, if_pos hc]
      decide
    apply Interest.any_of_isContextual
    rw [Interest.isContextual_union, Interest.isContextual_union,
      Interest.isContextual_unionAll.mpr ⟨_, hmem, hmark⟩, Bool.or_true, Bool.true_or]
  · have hcore : (cacheableInterest sink).wants .supportSafe .core = true := by
      rw [cacheableInterest, if_neg hc]
      exact sinkInterest_wants_core _ _
    apply Interest.any_of_wants .supportSafe .core
    rw [Interest.wants_union, Interest.wants_union,
      Interest.wants_unionAll.mpr ⟨_, hmem, hcore⟩, Bool.or_true, Bool.true_or]

theorem requested_any {metadata : Metadata} {context : ContextToken} {now : Instant}
    {sink : SinkRegistration} (hs : sink ∈ rt.sinksFor platform metadata context) :
    (rt.requested platform metadata context now).any = true := by
  apply Interest.any_of_wants .supportSafe .core
  exact requested_wants.mpr (Or.inr (Or.inr ⟨sink, hs, sinkInterest_wants_core _ _⟩))

/-- An expansion does not skip its delivery where some sink's filter selects the call. -/
theorem expand_of_selected {ρ : Type*} {deliver : EventRef → Process → Option (ρ × Process)}
    {skipped : ρ} {site : Callsite} {thread : Thread} {now : Instant} {delay : Duration}
    {reactions : List Reaction} {dispatcher : ℕ → Option (Dispatch Process)}
    {called : Call Process ρ} (hfields : site.metadata.fields = fieldMetadata shapes)
    (h₀ : dispatcher 0 = some (dispatch platform now reactions))
    (h₁ : dispatcher 1 = some (dispatch platform (now + delay) reactions))
    (hs : Sound platform rt) (hc : site.Coherent platform rt)
    (hsome : rt.sinksFor platform site.metadata thread.currentContext ≠ [])
    (h : site.expand platform.usizeBits dispatcher shapes deliver skipped
      ⟨rt, thread, []⟩ = some called) :
    ∃ process : Process, process.thread = thread ∧ process.delivered = [] ∧
      process.runtime.sinks = rt.sinks ∧ process.runtime.contexts = rt.contexts ∧
      deliver (gated site.metadata thread.currentContext shapes
        (rt.requested platform site.metadata thread.currentContext (now + delay))) process =
        some (called.result, called.state) := by
  obtain ⟨sink, hsink⟩ := List.exists_mem_of_ne_nil _ hsome
  unfold Callsite.expand at h
  obtain ⟨⟨cached, site₁, p₁⟩, hfirst, hrest⟩ := Option.bind_eq_some_iff.mp h
  rw [h₀] at hfirst
  obtain ⟨hcached, hthread, hdel, hmeta, -, hsinks, hcontexts, hreq, -, hsound⟩ :=
    callsite_interest_eq_some rfl hs hc hfirst
  have hcontext : p₁.thread.currentContext = thread.currentContext := by rw [hthread]
  -- the cacheable mask carries something for this sink
  have hany : cached.any = true := by
    obtain ⟨hreg, hsel⟩ := List.mem_filter.mp hsink
    rw [hcached]
    exact staticInterest_any (hsinks ▸ hreg)
      (Filter.selects_eq_true_iff.mp (of_decide_eq_true hsel)).1
  dsimp only at hrest
  rw [if_pos hany, h₁] at hrest
  obtain ⟨⟨mask, p₂⟩, hsecond, hrest₂⟩ := Option.bind_eq_some_iff.mp hrest
  obtain ⟨hmask, hthread₂, hdel₂, hsinks₂, hcontexts₂, -, -⟩ :=
    callsite_contextualInterest_eq_some hsound (hmeta ▸ hcached) hsecond
  have hrequested : mask = rt.requested platform site.metadata thread.currentContext
      (now + delay) := by
    rw [hmask, hmeta, ← hreq _ _ _ (Nat.le_add_right now delay)]
    exact congrArg (fun c => p₁.runtime.requested platform site.metadata c _) hcontext
  dsimp only at hrest₂
  rw [if_pos (hrequested ▸ requested_any hsink)] at hrest₂
  obtain ⟨evaluated, hvalues, -, -⟩ := fieldValues_fieldMetadata mask 0 shapes
  rw [hmeta, hfields, hvalues, Option.bind_some] at hrest₂
  obtain ⟨⟨result, s⟩, hdeliver, he⟩ := Option.map_eq_some_iff.mp hrest₂
  cases he
  refine ⟨p₂, hthread₂.trans hthread, hdel₂.trans hdel, hsinks₂.trans hsinks,
    hcontexts₂.trans hcontexts, ?_⟩
  rw [← hrequested, gated, ← hcontext]
  exact hdeliver

/-- Sink selection reads the sinks and the contexts of a runtime. -/
theorem selectedSinks_of_config {event : EventRef} {rt' : Runtime} (hsinks : rt'.sinks = rt.sinks)
    (hcontexts : rt'.contexts = rt.contexts) :
    selectedSinks platform event rt' = selectedSinks platform event rt := by
  rw [selectedSinks, selectedSinks, hsinks, hcontexts]

/-- What an emission outside a dispatch hands out: the projections for the selected sinks. -/
theorem deliveries_of_emit {event : EventRef} {reactions : List Reaction} {thread : Thread}
    {outcome : Outcome} (hidle : thread.inDispatch = false)
    (h : emit platform event reactions thread rt = some outcome) :
    ∃ sinks, selectedSinks platform event rt = some sinks ∧
      outcome.deliveries = sinks.map (deliver event) ∧ outcome.thread = thread := by
  have hfan := emit_deliveries platform event reactions rt hidle
  rw [h, Option.map_some] at hfan
  obtain ⟨sinks, hsel, hdel⟩ := Option.map_eq_some_iff.mp hfan.1.symm
  exact ⟨sinks, hsel, hdel.symm, hfan.2 outcome rfl⟩

end Runtime

namespace Machine

variable {platform : Platform} {schema : ℕ → Metadata} {m : Machine} {mac : Macro}
  {place : Place} {shapes : List FieldShape} {i : ℕ} {thread : Thread} {delay : Duration}
  {reactions : List Reaction} {called : Call Process (Option SpanGuard)}

/-- Where no sink's filter selects the call, a structured call hands nothing out. -/
theorem structured_call_quiet (hc : m.Coherent platform schema)
    (hsite : schema i = mac.metadata place shapes) (htiming : mac.timing = none)
    (hidle : thread.inDispatch = false)
    (hnone : m.runtime.sinksFor platform (schema i) thread.currentContext = [])
    (h : m.call platform mac shapes i thread delay reactions = some called) :
    called.state.delivered = [] := by
  unfold call Macro.call at h
  rw [htiming] at h
  obtain ⟨inner, hinner, rfl⟩ := Option.map_eq_some_iff.mp h
  rcases expand_call_spec hc hsite hinner with
    ⟨-, hquiet⟩ | ⟨process, hthread, hdel, hsinks, hcontexts, -, -, hdeliver⟩
  · exact hquiet
  · -- an activation or the baseline wanted the fields, and the emission found no sink
    obtain ⟨outcome, hout, happ⟩ := Runtime.callsite_emit_eq_some hdeliver
    obtain ⟨sinks, hsel, hsent, -⟩ := Runtime.deliveries_of_emit (hthread ▸ hidle) hout
    rw [Runtime.selectedSinks_of_config hsinks hcontexts] at hsel
    have hempty : sinks = [] := by
      apply List.eq_nil_iff_forall_not_mem.mpr
      intro sink hm
      have hmem := Runtime.mem_sinksFor_of_selected hsel hm
      have hin : sink ∈ m.runtime.sinksFor platform (schema i) thread.currentContext := hmem
      rw [hnone] at hin
      cases hin
    rw [happ, hdel, hsent, hempty]
    rfl

/-- Where some sink's filter selects the call, a structured call hands out what the plain
emission does. -/
theorem structured_call_plain (hc : m.Coherent platform schema)
    (hsite : schema i = mac.metadata place shapes) (htiming : mac.timing = none)
    (hidle : thread.inDispatch = false)
    (hsome : m.runtime.sinksFor platform (schema i) thread.currentContext ≠ [])
    (h : m.call platform mac shapes i thread delay reactions = some called) {outcome : Outcome}
    (hplain : Runtime.emit platform (ungated (schema i) thread.currentContext shapes) reactions
      thread m.runtime = some outcome) :
    called.state.delivered = outcome.deliveries := by
  have hmeta := hc.metadata i
  have hfields : (m.sites i).metadata.fields = fieldMetadata shapes := by
    rw [hmeta, hsite, Macro.metadata_fields]
  unfold call Macro.call at h
  rw [htiming] at h
  obtain ⟨inner, hinner, rfl⟩ := Option.map_eq_some_iff.mp h
  obtain ⟨process, hthread, hdel, hsinks, hcontexts, hdeliver⟩ :=
    Runtime.expand_of_selected hfields rfl rfl hc.sound (hc.sites i) (hmeta ▸ hsome) hinner
  rw [hmeta] at hdeliver
  obtain ⟨own, hout, happ⟩ := Runtime.callsite_emit_eq_some hdeliver
  obtain ⟨sinks, hsel, hsent, -⟩ := Runtime.deliveries_of_emit (hthread ▸ hidle) hout
  obtain ⟨sinks', hsel', hsent', -⟩ := Runtime.deliveries_of_emit hidle hplain
  rw [Runtime.selectedSinks_of_config hsinks hcontexts] at hsel
  have hsame : sinks' = sinks := Option.some.inj (hsel'.symm.trans hsel)
  rw [happ, hdel, hsent, hsent', hsame, List.nil_append]
  apply List.map_congr_left
  intro sink hm
  have hview := Runtime.mem_sinksFor_of_selected hsel hm
  show Delivery.mk sink _ = Delivery.mk sink _
  congr 1
  apply Runtime.projectEvent_gated
  intro shape _ hadm
  refine Runtime.requested_wants.mpr (Or.inr (Or.inr ⟨sink, hview, ?_⟩))
  exact (sinkInterest_wants sink.capability sink.detail shape.metadata).trans hadm

/-- **Gating is invisible**: at every call of every run, the sinks are handed by a structured
macro exactly what they would be handed had it evaluated all its fields and emitted them, and
neither loses the other's return where no lineage is circular and the generations last. -/
theorem gated_call_plain (platform : Platform) (schema : ℕ → Metadata) (m : Machine)
    (hreach : Reachable platform schema m) (mac : Macro) (place : Place)
    (shapes : List FieldShape) (i : ℕ) (hsite : schema i = mac.metadata place shapes)
    (htiming : mac.timing = none) (thread : Thread) (hidle : thread.inDispatch = false)
    (delay : Duration) (reactions : List Reaction) :
    (∀ called outcome, m.call platform mac shapes i thread delay reactions = some called →
      Runtime.emit platform (ungated (schema i) thread.currentContext shapes) reactions thread
        m.runtime = some outcome →
      called.state.delivered = outcome.deliveries) ∧
    (Acyclic m.runtime.contexts → m.runtime.generation + 2 < platform.usizeMax →
      (m.call platform mac shapes i thread delay reactions).isSome ∧
      (Runtime.emit platform (ungated (schema i) thread.currentContext shapes) reactions thread
        m.runtime).isSome) := by
  have hc := hreach.coherent
  refine ⟨fun called outcome h hplain => ?_, fun ha hg => ?_⟩
  · by_cases hnone : m.runtime.sinksFor platform (schema i) thread.currentContext = []
    · obtain ⟨sinks, hsel, hsent, -⟩ := Runtime.deliveries_of_emit hidle hplain
      have hempty : sinks = [] := by
        apply List.eq_nil_iff_forall_not_mem.mpr
        intro sink hm
        have hin : sink ∈ m.runtime.sinksFor platform (schema i) thread.currentContext :=
          Runtime.mem_sinksFor_of_selected hsel hm
        rw [hnone] at hin
        cases hin
      rw [structured_call_quiet hc hsite htiming hidle hnone h, hsent, hempty]
      rfl
    · exact structured_call_plain hc hsite htiming hidle hnone h hplain
  · exact ⟨structured_call_isSome hc hsite htiming ha hg, Runtime.emit_isSome ha⟩

/-- A core view over a site with a core and a detail field: one field is evaluated, and the view is
handed what the emission of both would hand it. -/
theorem gated_call_plain_checkout :
    ∃ m called outcome,
      Reachable .native64 (fun _ => checkoutEvent.metadata checkoutPlace checkoutShapes) m ∧
      m.call .native64 checkoutEvent checkoutShapes 0 ⟨.none, false⟩ 0 [] = some called ∧
      Runtime.emit .native64 (ungated (checkoutEvent.metadata checkoutPlace checkoutShapes) .none
        checkoutShapes) [] ⟨.none, false⟩ m.runtime = some outcome ∧
      called.evaluated = [0] ∧ called.state.delivered.length = 1 ∧
      called.state.delivered = outcome.deliveries := by
  have hreach : Reachable .native64
      (fun _ => checkoutEvent.metadata checkoutPlace checkoutShapes) _ :=
    Transition.reaches_of_run [.perform (.addRemoteSink ⟨0⟩ Filter.new .core)] rfl
  have hcall := gated_call_plain .native64 _ _ hreach checkoutEvent checkoutPlace
    checkoutShapes 0 rfl rfl ⟨.none, false⟩ rfl 0 []
  exact ⟨_, _, _, hreach, rfl, rfl, rfl, rfl, hcall.1 _ _ rfl rfl⟩

end Machine

end Logwise
