import Logwise.Runtime.FanOut
import Logwise.Runtime.Generation

/-!
# What a call site is asked for

The masks of `interest` and `contextual_interest` against their specification: the union of
what the baseline, the live activations and the matching sinks ask for in one context.
-/

namespace Logwise

namespace Interest

/-- A loop that takes the union over the members that pass a test. -/
theorem foldl_union_if {α : Type*} (p : α → Bool) (f : α → Interest) (a : Interest)
    (xs : List α) :
    xs.foldl (fun mask x => if p x then mask.union (f x) else mask) a =
      a.union (unionAll ((xs.filter p).map f)) := by
  induction xs generalizing a with
  | nil => simp
  | cons x xs ih =>
    rw [List.foldl_cons, ih]
    by_cases hp : p x = true
    · rw [if_pos hp, List.filter_cons_of_pos hp, List.map_cons, unionAll_cons, union_assoc]
    · rw [if_neg hp, List.filter_cons_of_neg hp]

theorem foldl_union_map {α : Type*} (f : α → Interest) (a : Interest) (xs : List α) :
    xs.foldl (fun mask x => mask.union (f x)) a = a.union (unionAll (xs.map f)) := by
  rw [← foldl_union, List.foldl_map]

theorem isContextual_of_any_false {masks : List Interest}
    (h : (unionAll masks).isContextual = false) {m : Interest} (hm : m ∈ masks) :
    m.isContextual = false := by
  cases hc : m.isContextual with
  | false => rfl
  | true =>
    rw [isContextual_unionAll.mpr ⟨m, hm, hc⟩] at h
    exact h

end Interest

namespace Runtime

/-- The activations that ask for something of a call in a context at an instant. -/
def activeFor (platform : Platform) (metadata : Metadata) (context : ContextToken)
    (now : Instant) (rt : Runtime) : List Activation :=
  (rt.unexpired now).filter fun activation =>
    activation.filter.selects platform rt.contexts metadata context = some true

/-- The sinks whose filter selects a call in a context. -/
def sinksFor (platform : Platform) (metadata : Metadata) (context : ContextToken)
    (rt : Runtime) : List SinkRegistration :=
  rt.sinks.filter fun sink =>
    sink.filter.selects platform rt.contexts metadata context = some true

/-- What a call is asked for, read directly off the configuration. -/
def requested (platform : Platform) (metadata : Metadata) (context : ContextToken)
    (now : Instant) (rt : Runtime) : Interest :=
  (rt.baselineInterest.union
      (Interest.unionAll ((rt.activeFor platform metadata context now).map Activation.interest))).union
    (Interest.unionAll ((rt.sinksFor platform metadata context).map fun sink =>
      sinkInterest sink.capability sink.detail))

theorem requested_wants {platform : Platform} {metadata : Metadata} {context : ContextToken}
    {now : Instant} {rt : Runtime} {privacy : Privacy} {level : Detail} :
    (rt.requested platform metadata context now).wants privacy level = true ↔
      rt.baselineInterest.wants privacy level = true ∨
      (∃ activation ∈ rt.activeFor platform metadata context now,
        activation.interest.wants privacy level = true) ∨
      ∃ sink ∈ rt.sinksFor platform metadata context,
        (sinkInterest sink.capability sink.detail).wants privacy level = true := by
  rw [requested, Interest.wants_union, Interest.wants_union, Bool.or_eq_true, Bool.or_eq_true,
    Interest.wants_unionAll, Interest.wants_unionAll, or_assoc]
  simp only [List.mem_map, exists_exists_and_eq_and]

/-- A sink that `emit` calls is one whose interest the mask of the call contains. -/
theorem mem_sinksFor_of_selected {platform : Platform} {event : EventRef} {rt : Runtime}
    {sinks : List SinkRegistration} (h : selectedSinks platform event rt = some sinks)
    {sink : SinkRegistration} (hm : sink ∈ sinks) :
    sink ∈ rt.sinksFor platform event.metadata event.context := by
  obtain ⟨hreg, htest⟩ := (Walk.mem_of_select h).mp hm
  refine List.mem_filter.mpr ⟨hreg, ?_⟩
  split at htest
  · cases htest
  · exact decide_eq_true htest

/-! ## The cacheable mask -/

theorem staticInterest_eq (platform : Platform) (metadata : Metadata) (rt : Runtime) :
    rt.staticInterest platform metadata =
      (rt.baselineInterest.union (Interest.unionAll ((rt.sinks.filter fun sink =>
          sink.filter.matchesStatic platform metadata).map cacheableInterest))).union
        (Interest.unionAll ((rt.activations.filter fun activation =>
          activation.filter.matchesStatic platform metadata).map fun _ => Interest.CONTEXTUAL)) := by
  simp only [staticInterest, Interest.foldl_union_if]

/-- A mask that needs no refinement: every matching sink is free of a context filter and no
activation matches. -/
theorem staticInterest_not_contextual {platform : Platform} {metadata : Metadata} {rt : Runtime}
    (h : (rt.staticInterest platform metadata).isContextual = false) :
    (∀ sink ∈ rt.sinks, sink.filter.matchesStatic platform metadata = true →
        sink.filter.context = none) ∧
      ∀ activation ∈ rt.activations,
        activation.filter.matchesStatic platform metadata = false := by
  rw [staticInterest_eq, Interest.isContextual_union, Interest.isContextual_union,
    Bool.or_eq_false_iff, Bool.or_eq_false_iff] at h
  obtain ⟨⟨-, hsinks⟩, hactivations⟩ := h
  constructor
  · intro sink hs hm
    have hc := Interest.isContextual_of_any_false hsinks
      (List.mem_map_of_mem (List.mem_filter.mpr ⟨hs, hm⟩))
    cases hf : sink.filter.context with
    | none => rfl
    | some token =>
      simp [cacheableInterest, hf, Interest.isContextual, Interest.CONTEXTUAL] at hc
  · intro activation ha
    cases hm : activation.filter.matchesStatic platform metadata with
    | false => rfl
    | true =>
      have hc := Interest.isContextual_of_any_false hactivations
        (List.mem_map_of_mem (List.mem_filter.mpr ⟨ha, hm⟩))
      exact absurd hc (by decide)

/-- **A mask that needs no refinement is already the answer**, in every context and at every
instant. -/
theorem staticInterest_eq_requested {platform : Platform} {metadata : Metadata} {rt : Runtime}
    (h : (rt.staticInterest platform metadata).isContextual = false) (context : ContextToken)
    (now : Instant) :
    rt.staticInterest platform metadata = rt.requested platform metadata context now := by
  obtain ⟨hsinks, hactivations⟩ := staticInterest_not_contextual h
  have hnone : rt.activations.filter (fun activation =>
      activation.filter.matchesStatic platform metadata) = [] := by
    rw [List.filter_eq_nil_iff]
    intro activation ha
    rw [hactivations activation ha]
    decide
  have hactive : rt.activeFor platform metadata context now = [] := by
    rw [activeFor, List.filter_eq_nil_iff]
    intro activation ha
    have hm := hactivations activation (List.mem_filter.mp ha).1
    simp [Filter.selects, hm]
  have hfor : rt.sinksFor platform metadata context = rt.sinks.filter fun sink =>
      sink.filter.matchesStatic platform metadata := by
    apply List.filter_congr
    intro sink hs
    by_cases hm : sink.filter.matchesStatic platform metadata = true
    · rw [Filter.selects, if_pos hm, Filter.matchesContext_of_none (hsinks sink hs hm), hm]
      rfl
    · rw [Filter.selects, if_neg hm]
      simpa using hm
  have hmap : (rt.sinks.filter fun sink =>
      sink.filter.matchesStatic platform metadata).map cacheableInterest =
      (rt.sinks.filter fun sink => sink.filter.matchesStatic platform metadata).map
        fun sink => sinkInterest sink.capability sink.detail := by
    apply List.map_congr_left
    intro sink hs
    obtain ⟨hreg, hm⟩ := List.mem_filter.mp hs
    rw [cacheableInterest, hsinks sink hreg hm]
    rfl
  rw [staticInterest_eq, requested, hnone, hactive, hfor, hmap]
  simp

/-! ## The refined mask -/

/-- `activation_interest` unites what the activations alive in the context ask for. -/
theorem activationInterest_mask {platform : Platform} {metadata : Metadata}
    {context : ContextToken} {now : Instant} {rt rt' : Runtime} {mask : Interest}
    (h : rt.activationInterest platform (some metadata) context now = some (mask, rt')) :
    mask = Interest.unionAll
      ((rt.activeFor platform metadata context now).map Activation.interest) := by
  obtain ⟨hits, hsel, hrest⟩ := Option.bind_eq_some_iff.mp h
  obtain ⟨next, -, he⟩ := Option.map_eq_some_iff.mp hrest
  have hhits : hits = rt.activeFor platform metadata context now := Walk.select_eq_filter hsel
  rw [← (Prod.mk.inj he).1, Interest.foldl_union_map, Interest.none_union, hhits]

/-- **`contextual_interest` answers with exactly what is requested** at the instant it reads. -/
theorem contextualInterest_eq_some {platform : Platform} {metadata : Metadata}
    {context : ContextToken} {now : Instant} {rt rt' : Runtime} {mask : Interest}
    (hs : Sound platform rt)
    (h : rt.contextualInterest platform metadata context now = some (mask, rt')) :
    mask = rt.requested platform metadata context now ∧
      retainUnexpired platform now rt = some rt' := by
  obtain ⟨⟨active, rt₁⟩, hact, hrest⟩ := Option.bind_eq_some_iff.mp h
  obtain ⟨hits, hsel, he⟩ := Option.map_eq_some_iff.mp hrest
  obtain ⟨hmask, hrt⟩ := Prod.mk.inj he
  have hret := activationInterest_eq_some hact
  have hframe := (retainUnexpired_eq_some hs hret).1
  have hcontexts : rt₁.contexts = rt.contexts := by rw [hframe]
  have hsinks : rt₁.sinks = rt.sinks := by rw [hframe]
  have hhits : hits = rt.sinksFor platform metadata context := by
    rw [Walk.select_eq_filter hsel, hcontexts, hsinks]
    rfl
  refine ⟨?_, hrt ▸ hret⟩
  rw [← hmask, Interest.foldl_union_map, activationInterest_mask hact, hhits]
  rfl

/-- What is requested depends on nothing that pruning changes. -/
theorem requested_of_retain {platform : Platform} {metadata : Metadata} {context : ContextToken}
    {now now' : Instant} {rt rt' : Runtime} (hle : now ≤ now')
    (h : rt' = { rt with activations := rt.unexpired now, generation := rt'.generation }) :
    rt'.requested platform metadata context now' = rt.requested platform metadata context now' := by
  have hunexpired : rt'.unexpired now' = rt.unexpired now' := by
    rw [h, unexpired, unexpired, unexpired, List.filter_filter]
    apply List.filter_congr
    intro activation _
    by_cases hlive : now' < activation.expires
    · have hlive' : now < activation.expires := lt_of_le_of_lt hle hlive
      simp [hlive, hlive']
    · simp [hlive]
  have hactive : rt'.activeFor platform metadata context now' =
      rt.activeFor platform metadata context now' := by
    rw [activeFor, activeFor, hunexpired]
    rw [h]
  have hsinks : rt'.sinksFor platform metadata context = rt.sinksFor platform metadata context := by
    rw [h]
    rfl
  have hbaseline : rt'.baselineInterest = rt.baselineInterest := by rw [h]
  rw [requested, requested, hactive, hsinks, hbaseline]

end Runtime

end Logwise
