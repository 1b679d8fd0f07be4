import Logwise.Sinks.FlightRecorder.Remote

/-!
# What is left out of an event, from the call site to a query

Each stage that drops fields counts them: the projection against the schema, the recorder when it
takes an event in, and a read when it gives the record out.
-/

namespace Logwise

/-- How many fields the event has, shown or left out. -/
def ProjectedEvent.declared (event : ProjectedEvent) : ℕ := event.fields.length + event.omittedFields

def OwnedProjectedEvent.declared (event : OwnedProjectedEvent) : ℕ :=
  event.fields.length + event.omittedFields

/-- Entries that a filter drops and counts. -/
theorem length_filter_add_omitted {α : Type*} (p : α → Bool) (xs : List α) (omitted : ℕ) :
    (xs.filter p).length + (omitted + (xs.length - (xs.filter p).length)) = xs.length + omitted := by
  have hle := List.length_filter_le p xs
  omega

theorem projectEvent_declared {event : EventRef} (capability : Capability) (level : DetailLevel)
    (hslice : event.fields.length = event.metadata.fields.length) :
    (projectEvent event capability level).declared = event.metadata.fields.length := by
  have hmaterialized : event.materialized.length ≤ event.fields.length :=
    List.length_filterMap_le _ _
  have hadmitted := List.length_filter_le (fun field => admits capability level field.metadata)
    event.materialized
  simp only [ProjectedEvent.declared, projectEvent, List.length_map]
  omega

theorem copyFrom_fields_length (event : ProjectedEvent) (maxStringBytes : ℕ) :
    (OwnedProjectedEvent.copyFrom event maxStringBytes).fields.length = event.fields.length := by
  rw [copyFrom_eq, List.length_map]

theorem copyFrom_omittedFields (event : ProjectedEvent) (maxStringBytes : ℕ) :
    (OwnedProjectedEvent.copyFrom event maxStringBytes).omittedFields = event.omittedFields := by
  rw [copyFrom_eq]

namespace FlightRecorder

variable {t : Traced}

theorem ingest_declared (event : ProjectedEvent) : (ingest event).declared = event.declared :=
  length_filter_add_omitted _ _ _

theorem projectRecord_declared (record : FlightRecord) (view : RecorderView) :
    (projectRecord record view).event.declared = record.event.declared :=
  length_filter_add_omitted _ _ _

/-- What a read gives out of a record has the fields of the event that was taken in. -/
theorem projectRecord_copyFrom_declared (n max : ℕ) (event : ProjectedEvent) (view : RecorderView) :
    (projectRecord ⟨n, OwnedProjectedEvent.copyFrom (ingest event) max⟩ view).event.declared =
      event.declared := by
  rw [projectRecord_declared, OwnedProjectedEvent.declared, copyFrom_fields_length,
    copyFrom_omittedFields]
  exact ingest_declared event

/-- **Omissions are conserved**: the fields of an event, shown or left out, are those its call site
declared, and what the recorder is given is what any later read or `tail` accounts for. -/
theorem omissions_conserved :
    (∀ (event : EventRef) (capability : Capability) (level : DetailLevel),
      event.fields.length = event.metadata.fields.length →
        (projectEvent event capability level).fields.length +
          (projectEvent event capability level).omittedFields = event.metadata.fields.length) ∧
    (∀ (event : ProjectedEvent) (maxStringBytes : ℕ),
      (OwnedProjectedEvent.copyFrom event maxStringBytes).fields.length = event.fields.length ∧
        (OwnedProjectedEvent.copyFrom event maxStringBytes).omittedFields = event.omittedFields) ∧
    ∀ (capacity maxStringBytes shards : ℕ) (as : List Action) (t : Traced),
      Transition.run trace (Traced.initial capacity maxStringBytes shards) as = some t →
        ∀ call ∈ t.state.readers, ∀ read, call.pc = .done read → ∀ out,
          (out ∈ read.records ∨ ∃ limit, out ∈ (tail limit read).records) →
            ∃ event, t.sources[out.sequence - 1]? = some event ∧
              out.event.fields.length + out.event.omittedFields =
                event.fields.length + event.omittedFields := by
  refine ⟨fun event capability level hslice => projectEvent_declared capability level hslice,
    fun event max => ⟨copyFrom_fields_length event max, copyFrom_omittedFields event max⟩, ?_⟩
  intro capacity maxStringBytes shards as t hrun call hcall read hread out hout
  have hmem : out ∈ read.records := by
    obtain hmem | ⟨limit, htail⟩ := hout
    · exact hmem
    · rw [tail_records] at htail
      exact List.mem_of_mem_drop htail
  obtain ⟨event, hsource, heq⟩ := (explained_run hrun).record hcall hread hmem
  refine ⟨event, hsource, ?_⟩
  have hdeclared := projectRecord_copyFrom_declared out.sequence maxStringBytes event call.view
  rw [← heq] at hdeclared
  exact hdeclared

/-- A call site with a field of each tier, the last of which no view has requested. -/
def tieredEvent : EventRef :=
  let declared : List FieldMetadata := [⟨"public", .supportSafe, .core⟩,
    ⟨"private", .localOnly, .core⟩, ⟨"secret", .secret, .core⟩, ⟨"expensive", .localOnly, .detail⟩]
  .structured { bareEvent.metadata with fields := declared } ⟨0, 0⟩
    [some ⟨⟨"public", .supportSafe, .core⟩, .str "a"⟩, some ⟨⟨"private", .localOnly, .core⟩, .str "b"⟩,
      some ⟨⟨"secret", .secret, .core⟩, .str "c"⟩, none]

/-- The event is written, and a remote reader reads it. -/
def tieredRun : List Action :=
  [.callEmit (projectEvent tieredEvent .localRetained .core) 0, .stepEmit 0, .stepEmit 0,
    .stepEmit 0, .stepEmit 0, .stepEmit 0, .callRead 0 .remote, .stepRead 0, .stepRead 0,
    .stepRead 0, .stepRead 0, .stepRead 0, .stepRead 0]

/-- A remote read shows one of the four fields and counts three. -/
theorem omissions_conserved_tiered : ∃ (t : Traced) (read : FlightRead) (out : FlightRecord),
    Transition.run trace (.initial 8 4 1) tieredRun = some t ∧
    (∃ call ∈ t.state.readers, call.pc = .done read) ∧ out ∈ read.records ∧
    out.event.omittedFields = 3 ∧
    out.event.fields.length + out.event.omittedFields = tieredEvent.metadata.fields.length := by
  obtain ⟨hproject, -, hreads⟩ := omissions_conserved
  have hrun : (Transition.run trace (.initial 8 4 1) tieredRun).any (fun t =>
      t.sources = [projectEvent tieredEvent .localRetained .core] ∧
      ∃ call ∈ t.state.readers[0]?, ∃ read ∈ call.pc.returned, ∃ out ∈ read.records,
        out.event.omittedFields = 3) = true := by decide
  obtain ⟨t, ht, hp⟩ := (Option.any_eq_true _ _).mp hrun
  obtain ⟨hsources, call, hcall, read, hreturned, out, hout, homitted⟩ := of_decide_eq_true hp
  have hread : call.pc = .done read := by
    cases hpc : call.pc <;> rw [hpc] at hreturned <;> cases hreturned
    rfl
  have hmem := List.mem_of_getElem? hcall
  obtain ⟨event, hevent, hsum⟩ := hreads 8 4 1 _ t ht call hmem read hread out (Or.inl hout)
  have hsource := List.mem_of_getElem? (hsources ▸ hevent)
  rw [List.mem_singleton.mp hsource, hproject tieredEvent .localRetained .core rfl] at hsum
  exact ⟨t, read, out, ht, ⟨call, hmem, hread⟩, hout, homitted, hsum⟩

end FlightRecorder

end Logwise
