import Logwise.Runtime.FanOut

/-!
# Privacy noninterference of the fan-out

Two runs of `emit` from one runtime state, on events that differ only in data a capability
must not see. What a registration of that capability is handed is the same in both.
-/

namespace Logwise.Runtime

/-- The calls of a fan-out to one registration, among those to a list of selected ones. -/
theorem handed_of_deliveries (event : EventRef) (registration : SinkRegistration)
    (sinks : List SinkRegistration) :
    (sinks.map (deliver event)).filterMap (fun delivery =>
        if delivery.registration = registration then some delivery.event else none) =
      (sinks.filter fun sink => sink = registration).map fun sink =>
        projectEvent event sink.capability sink.detail := by
  induction sinks with
  | nil => rfl
  | cons sink sinks ih =>
    by_cases he : sink = registration
    · have hd : (deliver event sink).registration = registration := he
      simp only [List.map_cons, List.filterMap_cons, if_pos hd, ih]
      rw [List.filter_cons_of_pos (by simpa using he), List.map_cons]
      rfl
    · have hd : ¬(deliver event sink).registration = registration := he
      simp only [List.map_cons, List.filterMap_cons, if_neg hd, ih]
      rw [List.filter_cons_of_neg (by simpa using he)]

/-- What a registration is handed is decided by the selection alone. -/
theorem emit_handedTo {platform : Platform} {event : EventRef} {reactions : List Reaction}
    {thread : Thread} {rt : Runtime} (hidle : thread.inDispatch = false)
    (registration : SinkRegistration) :
    (emit platform event reactions thread rt).map (Outcome.handedTo registration) =
      (selectedSinks platform event rt).map fun sinks =>
        (sinks.filter fun sink => sink = registration).map fun sink =>
          projectEvent event sink.capability sink.detail := by
  have hd := (emit_deliveries platform event reactions rt hidle).1
  have hmap : (emit platform event reactions thread rt).map (Outcome.handedTo registration) =
      ((emit platform event reactions thread rt).map Outcome.deliveries).map fun deliveries =>
        deliveries.filterMap fun delivery =>
          if delivery.registration = registration then some delivery.event else none := by
    rw [Option.map_map]
    rfl
  rw [hmap, hd, Option.map_map]
  congr 1
  funext sinks
  exact handed_of_deliveries event registration sinks

/-- Events a registration's view cannot tell apart are handed to it alike, whatever the
callbacks do in either run. -/
theorem emit_handedTo_congr {platform : Platform} {a b : EventRef} {ra rb : List Reaction}
    {thread : Thread} {rt : Runtime} {registration : SinkRegistration}
    (h : SameView registration.capability a b) :
    (emit platform a ra thread rt).map (Outcome.handedTo registration) =
      (emit platform b rb thread rt).map (Outcome.handedTo registration) := by
  cases hidle : thread.inDispatch with
  | true =>
    rw [emit_nested hidle, emit_nested hidle]
  | false =>
    rw [emit_handedTo hidle, emit_handedTo hidle, selectedSinks_congr h.metadata h.context]
    congr 1
    funext sinks
    apply List.map_congr_left
    intro sink hs
    have he : sink = registration := by simpa using (List.mem_filter.mp hs).2
    rw [he]
    exact projectEvent_congr h registration.detail

/-- Every delivery of a call is the projection of its event for a selected registration. -/
theorem emit_delivery {platform : Platform} {event : EventRef} {reactions : List Reaction}
    {thread : Thread} {rt : Runtime} {outcome : Outcome}
    (h : emit platform event reactions thread rt = some outcome) {delivery : Delivery}
    (hm : delivery ∈ outcome.deliveries) :
    ∃ sinks, selectedSinks platform event rt = some sinks ∧
      delivery.registration ∈ sinks ∧ delivery = deliver event delivery.registration := by
  cases hidle : thread.inDispatch with
  | true =>
    rw [emit_nested hidle] at h
    cases h
    cases hm
  | false =>
    have hd := (emit_deliveries platform event reactions rt hidle).1
    rw [h, Option.map_some] at hd
    obtain ⟨sinks, hs, he⟩ := Option.map_eq_some_iff.mp hd.symm
    rw [← he] at hm
    obtain ⟨sink, hsink, rfl⟩ := List.mem_map.mp hm
    exact ⟨sinks, hs, hsink, rfl⟩

/-- **Privacy noninterference**: what the remote registrations are handed depends on the
support-safe fields alone, what the local ones are handed depends on no secret field, and
ad-hoc text never reaches a remote registration. -/
theorem emit_noninterference (platform : Platform) (rt : Runtime) (thread : Thread)
    (a b : EventRef) (ra rb : List Reaction) (hmetadata : a.metadata = b.metadata)
    (hcontext : a.context = b.context) :
    (a.fieldsWith (· == .supportSafe) = b.fieldsWith (· == .supportSafe) →
      ∀ registration : SinkRegistration, registration.capability = .remote →
        (emit platform a ra thread rt).map (Outcome.handedTo registration) =
            (emit platform b rb thread rt).map (Outcome.handedTo registration) ∧
          ∀ outcome, emit platform a ra thread rt = some outcome →
            ∀ event ∈ outcome.handedTo registration, event.message = none) ∧
    (a.fieldsWith (· != .secret) = b.fieldsWith (· != .secret) → a.message = b.message →
      ∀ registration : SinkRegistration, registration.capability = .localRetained →
        (emit platform a ra thread rt).map (Outcome.handedTo registration) =
          (emit platform b rb thread rt).map (Outcome.handedTo registration)) ∧
    (a.metadata.kind = .adHocText → ∀ outcome, emit platform a ra thread rt = some outcome →
      ∀ delivery ∈ outcome.deliveries, delivery.registration.capability ≠ .remote) := by
  refine ⟨?_, ?_, ?_⟩
  · intro hfields registration hremote
    refine ⟨emit_handedTo_congr ⟨hmetadata, hcontext, ?_, ?_⟩, ?_⟩
    · rw [hremote]
      exact hfields
    · intro hne
      exact absurd hremote hne
    · intro outcome ho event he
      obtain ⟨delivery, hd, hsome⟩ := List.mem_filterMap.mp he
      split at hsome
      next hreg =>
        obtain ⟨sinks, -, -, hdel⟩ := emit_delivery ho hd
        rw [← Option.some.inj hsome, hdel, hreg]
        simp [deliver, projectEvent, hremote]
      next => cases hsome
  · intro hfields hmessage registration hlocal
    refine emit_handedTo_congr ⟨hmetadata, hcontext, ?_, fun _ => hmessage⟩
    rw [hlocal]
    exact hfields
  · intro hkind outcome ho delivery hd hremote
    obtain ⟨sinks, hs, hm, -⟩ := emit_delivery ho hd
    exact selectedSinks_not_adHoc_remote hs hm ⟨hkind, hremote⟩

/-! ## One schema, three privacy tiers -/

def projectionMetadata : Metadata :=
  { eventName := "integration.projection.event"
    package := "logwise_integration_tests"
    target := "projection"
    modulePath := "projection"
    domain := none
    severity := .warn
    eventClass := .forensic
    kind := .event
    location := none
    fields := [⟨"public", .supportSafe, .core⟩, ⟨"private", .localOnly, .core⟩,
      ⟨"password", .secret, .core⟩] }

def projectionEvent (context : ContextToken) (privateText password : String) : EventRef :=
  EventRef.structured projectionMetadata context
    [some ⟨⟨"public", .supportSafe, .core⟩, .u64 7⟩,
      some ⟨⟨"private", .localOnly, .core⟩, .str privateText⟩,
      some ⟨⟨"password", .secret, .core⟩, .str password⟩]

/-- A runtime with one remote and one local view of everything. -/
def twoViews : Runtime :=
  { Runtime.new with
    sinks := [⟨⟨1⟩, ⟨0⟩, .remote, .full, Filter.new⟩, ⟨⟨2⟩, ⟨1⟩, .localRetained, .full, Filter.new⟩] }

theorem emit_noninterference_twoViews :
    (emit .native64 (projectionEvent .none "local" "secret") [] ⟨.none, false⟩ twoViews).map
        (Outcome.handedTo ⟨⟨1⟩, ⟨0⟩, .remote, .full, Filter.new⟩) =
      (emit .native64 (projectionEvent .none "other" "hunter2") [] ⟨.none, false⟩
        twoViews).map (Outcome.handedTo ⟨⟨1⟩, ⟨0⟩, .remote, .full, Filter.new⟩) ∧
    (emit .native64 (projectionEvent .none "local" "secret") [] ⟨.none, false⟩ twoViews).map
        (Outcome.handedTo ⟨⟨2⟩, ⟨1⟩, .localRetained, .full, Filter.new⟩) =
      (emit .native64 (projectionEvent .none "local" "hunter2") [] ⟨.none, false⟩
        twoViews).map (Outcome.handedTo ⟨⟨2⟩, ⟨1⟩, .localRetained, .full, Filter.new⟩) :=
  ⟨((emit_noninterference _ _ _ _ _ [] [] rfl rfl).1 (by decide) _ rfl).1,
    (emit_noninterference _ _ _ _ _ [] [] rfl rfl).2.1 (by decide) rfl _ rfl⟩

end Logwise.Runtime
