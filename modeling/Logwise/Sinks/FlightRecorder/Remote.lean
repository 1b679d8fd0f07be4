import Logwise.Sinks.FlightRecorder.Skeleton

/-!
# What a remote reader learns

A remote read strips local-only fields and messages, but not their share of `truncated_fields`,
which `copy_from` counted over all values together. Two runs whose events agree on what a remote
reader may see are compared: the recorder does the same in both, and a record differs exactly when
its hidden texts were cut a different number of times.
-/

namespace Logwise

/-- How many texts are cut to keep this one. -/
def textCuts (max : ℕ) (text : String) : ℕ := if Utf8.size text.toList ≤ max then 0 else 1

def ValueRef.cuts (max : ℕ) : ValueRef → ℕ
  | .str value => textCuts max value
  | .debug value | .display value => textCuts max value.text
  | _ => 0

def ownField (max : ℕ) (field : ProjectedField) : OwnedField :=
  { name := field.name, privacy := field.privacy, detail := field.detail
    value := (ownValue field.value max 0).1 }

theorem truncate_cuts (value : String) (max truncated : ℕ) :
    truncate value max truncated = ((truncate value max 0).1, truncated + textCuts max value) := by
  simp only [truncate_eq, textCuts]
  split <;> rfl

theorem ownValue_cuts (value : ValueRef) (max truncated : ℕ) :
    ownValue value max truncated = ((ownValue value max 0).1, truncated + value.cuts max) := by
  cases value with
  | str value => exact congrArg (Prod.map OwnedValue.string id) (truncate_cuts value max truncated)
  | debug value =>
    exact congrArg (Prod.map OwnedValue.string id) (truncate_cuts value.text max truncated)
  | display value =>
    exact congrArg (Prod.map OwnedValue.string id) (truncate_cuts value.text max truncated)
  | _ => rfl

theorem ownFields_eq (max : ℕ) (fields : List ProjectedField) (truncated : ℕ) :
    ownFields max fields truncated =
      (fields.map (ownField max),
        truncated + (fields.map fun field => field.value.cuts max).sum) := by
  induction fields generalizing truncated with
  | nil => rfl
  | cons field fields ih =>
    rw [ownFields, ownValue_cuts]
    simp only [ih, List.map_cons, List.sum_cons, Nat.add_assoc]
    rfl

def messageCuts (max : ℕ) (message : Option Formatter) : ℕ :=
  (message.map fun message => textCuts max message.text).getD 0

theorem copyFrom_eq (event : ProjectedEvent) (max : ℕ) :
    OwnedProjectedEvent.copyFrom event max =
      { metadata := event.metadata
        context := event.context
        fields := event.fields.map (ownField max)
        message := event.message.map fun message => (truncate message.text max 0).1
        omittedFields := event.omittedFields
        truncatedFields := (event.fields.map fun field => field.value.cuts max).sum +
          messageCuts max event.message } := by
  rw [OwnedProjectedEvent.copyFrom, ownFields_eq]
  cases hmessage : event.message with
  | none => simp [messageCuts]
  | some message =>
    have hcut := truncate_cuts message.text max
      (event.fields.map fun field => field.value.cuts max).sum
    simp [messageCuts, hcut]

/-- The two fields agree on what a remote reader may see. -/
structure ProjectedField.Alike (a b : ProjectedField) : Prop where
  name : a.name = b.name
  privacy : a.privacy = b.privacy
  detail : a.detail = b.detail
  value : a.privacy = .supportSafe → a.value = b.value

/-- The two events agree on what a remote reader may see. -/
structure ProjectedEvent.Alike (a b : ProjectedEvent) : Prop where
  metadata : a.metadata = b.metadata
  context : a.context = b.context
  fields : List.Forall₂ ProjectedField.Alike a.fields b.fields
  message : a.message.isSome = b.message.isSome
  omittedFields : a.omittedFields = b.omittedFields

/-- How many texts a remote reader may not see are cut. -/
def ProjectedEvent.hiddenCuts (max : ℕ) (event : ProjectedEvent) : ℕ :=
  ((event.fields.filter fun field => field.privacy = .localOnly).map fun field =>
    field.value.cuts max).sum + messageCuts max event.message

namespace FlightRecorder

/-- The texts that are cut are those of the support-safe fields and the hidden ones. -/
theorem sum_cuts_ingest (max : ℕ) (fields : List ProjectedField) :
    ((fields.filter fun field => field.privacy ≠ .secret).map fun field => field.value.cuts max).sum =
      ((fields.filter fun field => field.privacy = .supportSafe).map fun field =>
          field.value.cuts max).sum +
        ((fields.filter fun field => field.privacy = .localOnly).map fun field =>
          field.value.cuts max).sum := by
  induction fields with
  | nil => rfl
  | cons field fields ih =>
    cases hprivacy : field.privacy <;> simp [hprivacy] at ih ⊢ <;> omega

theorem supportSafe_alike {as bs : List ProjectedField}
    (h : List.Forall₂ ProjectedField.Alike as bs) :
    (as.filter fun field => field.privacy = .supportSafe) =
      bs.filter fun field => field.privacy = .supportSafe := by
  induction h with
  | nil => rfl
  | @cons a b _ _ hhead _ ih =>
    by_cases hsafe : a.privacy = .supportSafe
    · have hsame : a = b := by
        obtain ⟨name, privacy, detail, value⟩ := hhead
        cases a
        cases b
        simp_all
      subst hsame
      simp [hsafe, ih]
    · have hunsafe : b.privacy ≠ .supportSafe := hhead.privacy ▸ hsafe
      simp [hsafe, hunsafe, ih]

/-- What a remote reader is given of an event. -/
theorem projectRecord_remote (n max : ℕ) (event : ProjectedEvent) :
    projectRecord ⟨n, OwnedProjectedEvent.copyFrom (ingest event) max⟩ .remote =
      { sequence := n
        event :=
          { metadata := event.metadata
            context := event.context
            fields := (event.fields.filter fun field => field.privacy = .supportSafe).map
              (ownField max)
            message := none
            omittedFields := event.omittedFields + (event.fields.length -
              (event.fields.filter fun field => field.privacy = .supportSafe).length)
            truncatedFields := ((event.fields.filter fun field =>
              field.privacy = .supportSafe).map fun field => field.value.cuts max).sum +
                event.hiddenCuts max } } := by
  have hkept : ((event.fields.filter fun field => field.privacy ≠ .secret).map (ownField max)).filter
      (fun field => field.privacy ≠ .secret &&
        (RecorderView.remote = .localView || field.privacy = .supportSafe)) =
      (event.fields.filter fun field => field.privacy = .supportSafe).map (ownField max) := by
    rw [List.filter_map, List.filter_filter]
    refine congrArg (List.map (ownField max)) (List.filter_congr fun field _ => ?_)
    cases hprivacy : field.privacy <;> simp [ownField, hprivacy]
  have hsafe : (event.fields.filter fun field => field.privacy = .supportSafe).length ≤
      (event.fields.filter fun field => field.privacy ≠ .secret).length := by
    refine (List.monotone_filter_right event.fields fun field hfield => ?_).length_le
    have hprivacy : field.privacy = .supportSafe := of_decide_eq_true hfield
    simp [hprivacy]
  have hall : (event.fields.filter fun field => field.privacy ≠ .secret).length ≤
      event.fields.length := List.length_filter_le _ _
  rw [copyFrom_eq, ingest, projectRecord]
  simp only [hkept, sum_cuts_ingest, ProjectedEvent.hiddenCuts, List.length_map, reduceIte]
  congr 2
  · omega
  · omega

/-- A remote reader can tell two events apart by the number of hidden cuts alone. -/
theorem projectRecord_remote_iff {a b : ProjectedEvent} (h : a.Alike b) (n max : ℕ) :
    projectRecord ⟨n, OwnedProjectedEvent.copyFrom (ingest a) max⟩ .remote =
        projectRecord ⟨n, OwnedProjectedEvent.copyFrom (ingest b) max⟩ .remote ↔
      a.hiddenCuts max = b.hiddenCuts max := by
  rw [projectRecord_remote, projectRecord_remote, h.metadata, h.context, h.omittedFields,
    h.fields.length_eq, supportSafe_alike h.fields]
  constructor
  · intro heq
    have hcuts := congrArg (fun record => record.event.truncatedFields) heq
    exact Nat.add_left_cancel hcuts
  · intro heq
    rw [heq]

/-- The recorder with the events its calls of `emit` were given, in the order of the calls and in
the order of the sequences they were assigned. -/
structure Traced where
  state : State
  calls : List ProjectedEvent
  sources : List ProjectedEvent

def Traced.initial (capacity maxStringBytes shards : ℕ) : Traced :=
  { state := withShards capacity maxStringBytes shards, calls := [], sources := [] }

def callsAfter (t : Traced) : Action → List ProjectedEvent
  | .callEmit event _ => t.calls ++ [event]
  | _ => t.calls

def sourcesAfter (t : Traced) : Action → List ProjectedEvent
  | .stepEmit i =>
    match t.state.writers[i]? with
    | some (.draw _ _) => t.sources ++ t.calls[i]?.toList
    | _ => t.sources
  | _ => t.sources

def trace (t : Traced) (a : Action) : Option Traced :=
  (step t.state a).map fun s =>
    { state := s, calls := callsAfter t a, sources := sourcesAfter t a }

/-- The event a call of `emit` is to store. -/
def WriterPc.pending : WriterPc → Option OwnedProjectedEvent
  | .tryLock _ owned | .locked _ owned | .countOverwritten _ owned _ | .draw _ owned => some owned
  | _ => none

/-- Every numbered record is a copy of the event its call was given. -/
structure Traced.Copied (t : Traced) : Prop where
  calls : t.calls.length = t.state.writers.length
  pending : ∀ (i : ℕ) (pc : WriterPc) (owned : OwnedProjectedEvent), t.state.writers[i]? = some pc →
    pc.pending = some owned → ∃ event, t.calls[i]? = some event ∧
      owned = OwnedProjectedEvent.copyFrom (ingest event) t.state.maxStringBytes
  sources : t.state.assigned.map FlightRecord.event = t.sources.map fun event =>
    OwnedProjectedEvent.copyFrom (ingest event) t.state.maxStringBytes

theorem copied_initial (capacity maxStringBytes shards : ℕ) :
    (Traced.initial capacity maxStringBytes shards).Copied where
  calls := rfl
  pending _ _ _ hi := by cases hi
  sources := rfl

variable {s s' : State} {t t' : Traced}

theorem pending_of_none {pc pc' : WriterPc} (h : pc'.pending = none) :
    ∀ owned, pc'.pending = some owned → pc.pending = some owned := by
  intro owned ho
  rw [h] at ho
  cases ho

/-- A step of one call, which numbers a record if it is to draw a sequence. -/
theorem writerStep_frame {i : ℕ} {pc : WriterPc} (h : writerStep i s pc = some s') :
    ∃ pc', s'.writers = s.writers.set i pc' ∧ s'.maxStringBytes = s.maxStringBytes ∧
      (∀ owned, pc'.pending = some owned → pc.pending = some owned) ∧
        ((∃ j owned, pc = .draw j owned ∧
          s'.drawn = s.drawn ++ [(j, ⟨s.nextSequence + 1, owned⟩)]) ∨
        (∀ j owned, pc ≠ .draw j owned) ∧ s'.drawn = s.drawn) := by
  cases pc with
  | tryLock j owned =>
    obtain ⟨shard, -, hs⟩ := Option.map_eq_some_iff.mp h
    split at hs <;> subst hs
    · exact ⟨.locked j owned, rfl, rfl, fun _ ho => ho, Or.inr ⟨by simp, rfl⟩⟩
    · exact ⟨.done, rfl, rfl, pending_of_none rfl, Or.inr ⟨by simp, rfl⟩⟩
  | locked j owned =>
    obtain ⟨shard, -, hs⟩ := Option.map_eq_some_iff.mp h
    split at hs
    · subst hs
      exact ⟨.release j, rfl, rfl, pending_of_none rfl, Or.inr ⟨by simp, rfl⟩⟩
    · split at hs
      next victim records hrecords =>
        split at hs <;> subst hs
        · exact ⟨.countOverwritten j owned victim, rfl, rfl, fun _ ho => ho, Or.inr ⟨by simp, rfl⟩⟩
        · exact ⟨.draw j owned, rfl, rfl, fun _ ho => ho, Or.inr ⟨by simp, rfl⟩⟩
      next =>
        subst hs
        exact ⟨.draw j owned, rfl, rfl, fun _ ho => ho, Or.inr ⟨by simp, rfl⟩⟩
  | countOverwritten j owned victim =>
    cases h
    exact ⟨.draw j owned, rfl, rfl, fun _ ho => ho, Or.inr ⟨by simp, rfl⟩⟩
  | draw j owned =>
    -- the only step that numbers a record
    cases h
    exact ⟨.push j ⟨s.nextSequence + 1, owned⟩, rfl, rfl, pending_of_none rfl, Or.inl ⟨j, owned, rfl, rfl⟩⟩
  | push j record =>
    obtain ⟨shard, -, hs⟩ := Option.map_eq_some_iff.mp h
    subst hs
    exact ⟨.release j, rfl, rfl, pending_of_none rfl, Or.inr ⟨by simp, rfl⟩⟩
  | release j =>
    obtain ⟨shard, -, hs⟩ := Option.map_eq_some_iff.mp h
    subst hs
    exact ⟨.done, rfl, rfl, pending_of_none rfl, Or.inr ⟨by simp, rfl⟩⟩
  | done => cases h

/-- A read touches neither the calls of `emit` nor what has been numbered. -/
theorem readerStep_frame {r : ℕ} {call : ReadCall} (h : readerStep r call s = some s') :
    s'.writers = s.writers ∧ s'.maxStringBytes = s.maxStringBytes ∧ s'.drawn = s.drawn := by
  unfold readerStep at h
  split at h
  next => cases h; exact ⟨rfl, rfl, rfl⟩
  next =>
    split at h
    next => split at h <;> cases h <;> exact ⟨rfl, rfl, rfl⟩
    next => cases h; exact ⟨rfl, rfl, rfl⟩
  next =>
    obtain ⟨shard, -, rfl⟩ := Option.map_eq_some_iff.mp h
    exact ⟨rfl, rfl, rfl⟩
  next =>
    obtain ⟨shard, -, rfl⟩ := Option.map_eq_some_iff.mp h
    exact ⟨rfl, rfl, rfl⟩
  next => cases h; exact ⟨rfl, rfl, rfl⟩
  next => cases h

/-- A step of a read, or its beginning. -/
theorem Traced.Copied.keep (h : t.Copied) (hcalls : t'.calls = t.calls)
    (hsources : t'.sources = t.sources) (hwriters : t'.state.writers = t.state.writers)
    (hmax : t'.state.maxStringBytes = t.state.maxStringBytes)
    (hdrawn : t'.state.drawn = t.state.drawn) : t'.Copied where
  calls := by rw [hcalls, hwriters, h.calls]
  pending i pc owned hi hp := by
    rw [hcalls, hmax]
    exact h.pending i pc owned (hwriters ▸ hi) hp
  sources := by
    rw [State.assigned, hdrawn, hsources, hmax]
    exact h.sources

theorem copied_emit {i : ℕ} {pc : WriterPc} (h : t.Copied) (hi : t.state.writers[i]? = some pc)
    (hs : writerStep i t.state pc = some s') :
    Traced.Copied { state := s', calls := t.calls, sources := sourcesAfter t (.stepEmit i) } := by
  obtain ⟨pc', hwriters, hmax, hpending, hdrawn⟩ := writerStep_frame hs
  have hnew : ∀ (k : ℕ) (other : WriterPc) (owned : OwnedProjectedEvent),
      s'.writers[k]? = some other → other.pending = some owned →
        ∃ event, t.calls[k]? = some event ∧
          owned = OwnedProjectedEvent.copyFrom (ingest event) s'.maxStringBytes := by
    intro k other owned hk ho
    rw [hmax]
    obtain ⟨rfl, rfl⟩ | ⟨-, hold⟩ := Slots.getElem?_set_cases (hwriters ▸ hk)
    · exact h.pending k pc owned hi (hpending owned ho)
    · exact h.pending k other owned hold ho
  refine ⟨by rw [h.calls, hwriters, List.length_set], hnew, ?_⟩
  show (s'.drawn.map Prod.snd).map FlightRecord.event = _
  rw [hmax]
  have hsources := h.sources
  rw [State.assigned] at hsources
  -- the record numbered is the copy of the event of this very call
  obtain ⟨j, owned, rfl, hdrew⟩ | ⟨hpc, hsame⟩ := hdrawn
  · obtain ⟨event, hevent, rfl⟩ := h.pending i _ owned hi rfl
    simp only [sourcesAfter, hi, hevent, hdrew, List.map_append, hsources]
    rfl
  · have hunchanged : sourcesAfter t (.stepEmit i) = t.sources := by
      simp only [sourcesAfter, hi]
      split
      next j owned hdraw => exact absurd (Option.some.inj hdraw) (hpc j owned)
      next => rfl
    rw [hunchanged, hsame, hsources]

theorem copied_step {a : Action} (h : t.Copied) (hs : trace t a = some t') : t'.Copied := by
  obtain ⟨s', hstep, rfl⟩ := Option.map_eq_some_iff.mp hs
  cases a with
  | callEmit event j =>
    -- the new call is the last one on both lists
    simp only [step] at hstep
    split at hstep
    next hj =>
      cases hstep
      refine ⟨?_, fun i pc owned hi hp => ?_, h.sources⟩
      · show (t.calls ++ [event]).length = (t.state.writers ++ [_]).length
        rw [List.length_append, List.length_append, h.calls]
        rfl
      · obtain hlt | hge := Nat.lt_or_ge i t.state.writers.length
        · have hold : t.state.writers[i]? = some pc :=
            (List.getElem?_append_left hlt).symm.trans hi
          obtain ⟨source, hsource, howned⟩ := h.pending i pc owned hold hp
          refine ⟨source, ?_, howned⟩
          exact (List.getElem?_append_left (List.getElem?_eq_some_iff.mp hsource).1).trans hsource
        · have hlast : i = t.state.writers.length := by
            have hlt := (List.getElem?_eq_some_iff.mp hi).1
            simp only [List.length_append, List.length_cons, List.length_nil] at hlt
            omega
          subst hlast
          cases List.getElem?_concat_length.symm.trans hi
          cases hp
          refine ⟨event, ?_, rfl⟩
          show (t.calls ++ [event])[t.state.writers.length]? = some event
          rw [← h.calls, List.getElem?_concat_length]
    next => cases hstep
  | stepEmit i =>
    obtain ⟨pc, hi, hwriter⟩ := Option.bind_eq_some_iff.mp hstep
    exact copied_emit h hi hwriter
  | callRead cursor view =>
    cases hstep
    exact h.keep rfl rfl rfl rfl rfl
  | stepRead r =>
    obtain ⟨call, -, hreader⟩ := Option.bind_eq_some_iff.mp hstep
    obtain ⟨hwriters, hmax, hdrawn⟩ := readerStep_frame hreader
    exact h.keep rfl rfl hwriters hmax hdrawn

theorem maxStringBytes_of_step {a : Action} (hs : step s a = some s') :
    s'.maxStringBytes = s.maxStringBytes := by
  cases moves_of_step hs <;> rfl

/-- A numbered record is a copy of the event its sequence was drawn for. -/
theorem record_source (hcopied : t.Copied) (hnumbered : t.state.Numbered) {record : FlightRecord}
    (hrecord : record ∈ t.state.assigned) :
    ∃ event, t.sources[record.sequence - 1]? = some event ∧
      record = ⟨record.sequence,
        OwnedProjectedEvent.copyFrom (ingest event) t.state.maxStringBytes⟩ := by
  obtain ⟨k, hk⟩ := List.mem_iff_getElem?.mp hrecord
  have hsequence : record.sequence - 1 = k := by
    have hmapped : (t.state.assigned.map FlightRecord.sequence)[k]? = some record.sequence := by
      rw [List.getElem?_map, hk]
      rfl
    rw [hnumbered.sequences, List.getElem?_eq_some_iff] at hmapped
    obtain ⟨hlt, heq⟩ := hmapped
    rw [List.getElem_range'] at heq
    omega
  have hevent : (t.state.assigned.map FlightRecord.event)[k]? = some record.event := by
    rw [List.getElem?_map, hk]
    rfl
  rw [hcopied.sources, List.getElem?_map] at hevent
  obtain ⟨event, hsource, heq⟩ := Option.map_eq_some_iff.mp hevent
  exact ⟨event, by rw [hsequence, hsource], by rw [heq]⟩

/-- The two actions are one, but for what a remote reader may not see of an event. -/
inductive Action.Alike : Action → Action → Prop where
  | callEmit {a b : ProjectedEvent} (h : a.Alike b) (shard : ℕ) :
    Action.Alike (.callEmit a shard) (.callEmit b shard)
  | stepEmit (i : ℕ) : Action.Alike (.stepEmit i) (.stepEmit i)
  | callRead (cursor : ℕ) (view : RecorderView) :
    Action.Alike (.callRead cursor view) (.callRead cursor view)
  | stepRead (r : ℕ) : Action.Alike (.stepRead r) (.stepRead r)

theorem ProjectedEvent.alike_refl (event : ProjectedEvent) : event.Alike event :=
  ⟨rfl, rfl, List.forall₂_same.mpr fun _ _ => ⟨rfl, rfl, rfl, fun _ => rfl⟩, rfl, rfl⟩

theorem Action.Alike.refl : (a : Action) → a.Alike a
  | .callEmit event shard => .callEmit (ProjectedEvent.alike_refl event) shard
  | .stepEmit i => .stepEmit i
  | .callRead cursor view => .callRead cursor view
  | .stepRead r => .stepRead r

theorem Action.Alike.blank {a b : Action} (h : a.Alike b) : a.blank = b.blank := by
  cases h <;> rfl

/-- Two recorders that were called alike. -/
structure Traced.Alike (t u : Traced) : Prop where
  skeleton : t.state.skeleton = u.state.skeleton
  calls : List.Forall₂ ProjectedEvent.Alike t.calls u.calls
  sources : List.Forall₂ ProjectedEvent.Alike t.sources u.sources

theorem forall₂_getElem?_toList {α β : Type*} {R : α → β → Prop} {as : List α} {bs : List β}
    (h : List.Forall₂ R as bs) (i : ℕ) : List.Forall₂ R as[i]?.toList bs[i]?.toList := by
  induction h generalizing i with
  | nil => exact .nil
  | cons hhead _ ih =>
    cases i with
    | zero => exact .cons hhead .nil
    | succ i => exact ih i

theorem alike_sources {u : Traced} (h : t.Alike u) (i : ℕ) :
    List.Forall₂ ProjectedEvent.Alike (sourcesAfter t (.stepEmit i))
      (sourcesAfter u (.stepEmit i)) := by
  have hwriter : t.state.writers[i]?.map WriterPc.blank = u.state.writers[i]?.map WriterPc.blank := by
    have hwriters := congrArg (fun s : State => s.writers[i]?) h.skeleton
    simpa [State.skeleton] using hwriters
  simp only [sourcesAfter]
  cases ht : t.state.writers[i]? with
  | none =>
    rw [ht] at hwriter
    rw [Option.map_eq_none_iff.mp hwriter.symm]
    exact h.sources
  | some pc =>
    rw [ht] at hwriter
    obtain ⟨other, hother, hblank⟩ := Option.map_eq_some_iff.mp hwriter.symm
    rw [hother]
    cases pc <;> cases other <;> first
      | exact h.sources
      | exact List.rel_append h.sources (forall₂_getElem?_toList h.calls i)
      | exact WriterPc.noConfusion hblank

theorem alike_step {u u' : Traced} {a b : Action} (h : t.Alike u) (hab : a.Alike b)
    (hs : trace t a = some t') (hu : trace u b = some u') : t'.Alike u' := by
  obtain ⟨s', hstep, rfl⟩ := Option.map_eq_some_iff.mp hs
  obtain ⟨v', hother, rfl⟩ := Option.map_eq_some_iff.mp hu
  have hskeleton : s'.skeleton = v'.skeleton := by
    have hleft := skeleton_step t.state a
    have hright := skeleton_step u.state b
    rw [hstep, h.skeleton, hab.blank] at hleft
    rw [hother] at hright
    exact Option.some.inj (hleft.symm.trans hright)
  cases hab with
  | callEmit hevent shard =>
    exact ⟨hskeleton, List.rel_append h.calls (.cons hevent .nil), h.sources⟩
  | stepEmit i => exact ⟨hskeleton, h.calls, alike_sources h i⟩
  | callRead cursor view => exact ⟨hskeleton, h.calls, h.sources⟩
  | stepRead r => exact ⟨hskeleton, h.calls, h.sources⟩

theorem alike_run {as bs : List Action} (hab : List.Forall₂ Action.Alike as bs) {t u t' u' : Traced}
    (h : t.Alike u) (hs : Transition.run trace t as = some t')
    (hu : Transition.run trace u bs = some u') : t'.Alike u' := by
  induction hab generalizing t u with
  | nil =>
    cases hs
    cases hu
    exact h
  | cons hhead _ ih =>
    obtain ⟨t₁, ht₁, hs⟩ := Option.bind_eq_some_iff.mp hs
    obtain ⟨u₁, hu₁, hu⟩ := Option.bind_eq_some_iff.mp hu
    exact ih (alike_step h hhead ht₁ hu₁) hs hu

/-- `FlightRecorder::tail`, given what `read_since` returned from the start. -/
def tail (limit : ℕ) (read : FlightRead) : FlightRead :=
  if limit < read.records.length then
    { read with records := read.records.drop (read.records.length - limit) }
  else read

theorem tail_records (limit : ℕ) (read : FlightRead) :
    (tail limit read).records = read.records.drop (read.records.length - limit) := by
  rw [tail]
  split
  · rfl
  · have hzero : read.records.length - limit = 0 := by omega
    rw [hzero, List.drop_zero]

/-- What a run says of the records that a read has returned. -/
structure Traced.Explained (t : Traced) (maxStringBytes : ℕ) : Prop where
  maxStringBytes_eq : t.state.maxStringBytes = maxStringBytes
  copied : t.Copied
  numbered : t.state.Numbered
  reading : ∀ call ∈ t.state.readers, t.state.Reading call

theorem explained_run {capacity maxStringBytes shards : ℕ} {as : List Action}
    (hrun : Transition.run trace (Traced.initial capacity maxStringBytes shards) as = some t) :
    t.Explained maxStringBytes := by
  have hreaches := Transition.reaches_of_run_always as hrun
  have hmax : t.state.maxStringBytes = maxStringBytes := by
    refine hreaches.invariant (I := fun t => t.state.maxStringBytes = maxStringBytes) ?_ rfl
    rintro t a t' hmax - hs
    obtain ⟨s', hstep, rfl⟩ := Option.map_eq_some_iff.mp hs
    exact (maxStringBytes_of_step hstep).trans hmax
  have hcopied : t.Copied :=
    hreaches.invariant (fun _ _ _ h _ hs => copied_step h hs) (copied_initial _ _ _)
  have hstate : Transition.run step (withShards capacity maxStringBytes shards) as =
      some t.state := by
    have htrace : ∀ (t : Traced) (a : Action),
        step (Traced.state t) (id a) = (trace t a).map Traced.state := by
      intro t a
      rw [trace, Option.map_map]
      exact Option.map_id'.symm
    have hmap := Transition.run_map htrace (Traced.initial capacity maxStringBytes shards) as
    rw [hrun, List.map_id] at hmap
    exact hmap
  obtain ⟨hnumbered, hreading⟩ :=
    settled_of_reaches (Transition.reaches_of_run_always as hstate)
  exact ⟨hmax, hcopied, hnumbered, hreading⟩

/-- The events of the two runs that were given a sequence have as many hidden cuts. -/
def SameCuts (maxStringBytes : ℕ) (sources sources' : List ProjectedEvent) (n : ℕ) : Prop :=
  ∀ a b, sources[n - 1]? = some a → sources'[n - 1]? = some b →
    a.hiddenCuts maxStringBytes = b.hiddenCuts maxStringBytes

theorem eq_of_map_eq {α β : Type*} {f : α → β} {as bs : List α} (hmap : as.map f = bs.map f)
    (h : ∀ a ∈ as, ∀ b ∈ bs, f a = f b → a = b) : as = bs := by
  induction as generalizing bs with
  | nil => exact (List.map_eq_nil_iff.mp hmap.symm).symm
  | cons a as ih =>
    cases bs with
    | nil => cases hmap
    | cons b bs =>
      obtain ⟨hhead, htail⟩ := List.cons_eq_cons.mp hmap
      rw [h a List.mem_cons_self b List.mem_cons_self hhead]
      refine congrArg (b :: ·) (ih htail fun x hx y hy => ?_)
      exact h x (List.mem_cons_of_mem _ hx) y (List.mem_cons_of_mem _ hy)

/-- A record a read returned is that of the event its sequence was drawn for. -/
theorem Traced.Explained.record {maxStringBytes : ℕ} (h : t.Explained maxStringBytes)
    {call : ReadCall} {read : FlightRead} (hcall : call ∈ t.state.readers)
    (hread : call.pc = .done read) {out : FlightRecord} (hout : out ∈ read.records) :
    ∃ event, t.sources[out.sequence - 1]? = some event ∧
      out = projectRecord
        ⟨out.sequence, OwnedProjectedEvent.copyFrom (ingest event) maxStringBytes⟩ call.view := by
  have hsettled : t.state.Settled call.cursor call.view read := by
    have hreading := h.reading call hcall
    rw [State.Reading, hread] at hreading
    exact hreading
  obtain ⟨record, hrecord, rfl⟩ := hsettled.origin out hout
  obtain ⟨event, hsource, heq⟩ := record_source h.copied h.numbered hrecord
  refine ⟨event, hsource, ?_⟩
  rw [projectRecord_sequence, ← h.maxStringBytes_eq, ← heq]

/-- Parts of two remote reads that hold the same sequences hold the same records exactly when the
events of these sequences have as many hidden cuts. -/
theorem records_eq_iff {u : Traced} {maxStringBytes : ℕ} (hlike : t.Alike u)
    (ht : t.Explained maxStringBytes) (hu : u.Explained maxStringBytes) {call call' : ReadCall}
    {read read' : FlightRead} (hcall : call ∈ t.state.readers) (hview : call.view = .remote)
    (hread : call.pc = .done read) (hcall' : call' ∈ u.state.readers) (hview' : call'.view = .remote)
    (hread' : call'.pc = .done read') {outs outs' : List FlightRecord}
    (houts : ∀ out ∈ outs, out ∈ read.records) (houts' : ∀ out ∈ outs', out ∈ read'.records)
    (hsequences : outs.map FlightRecord.sequence = outs'.map FlightRecord.sequence) :
    outs = outs' ↔ ∀ out ∈ outs, SameCuts maxStringBytes t.sources u.sources out.sequence := by
  have halike : ∀ {n : ℕ} {a b : ProjectedEvent}, t.sources[n]? = some a →
      u.sources[n]? = some b → a.Alike b := by
    intro n a b ha hb
    have hentry := forall₂_getElem?_toList hlike.sources n
    rw [ha, hb] at hentry
    exact (List.forall₂_cons.mp hentry).1
  constructor
  · rintro rfl out hout a b ha hb
    obtain ⟨event, hevent, heq⟩ := ht.record hcall hread (houts out hout)
    obtain ⟨event', hevent', heq'⟩ := hu.record hcall' hread' (houts' out hout)
    rw [hview] at heq
    rw [hview'] at heq'
    cases hevent.symm.trans ha
    cases hevent'.symm.trans hb
    exact (projectRecord_remote_iff (halike ha hb) _ _).mp (heq.symm.trans heq')
  · intro hcuts
    refine eq_of_map_eq hsequences fun out hout out' hout' hsame => ?_
    obtain ⟨event, hevent, heq⟩ := ht.record hcall hread (houts out hout)
    obtain ⟨event', hevent', heq'⟩ := hu.record hcall' hread' (houts' out' hout')
    rw [heq, heq', hview, hview', ← hsame]
    rw [← hsame] at hevent'
    exact (projectRecord_remote_iff (halike hevent hevent') _ _).mpr
      (hcuts out hout event event' hevent hevent')

/-- **What a remote reader learns of hidden values**: two runs that call the recorder alike return
the same records from a remote read, or from `tail`, exactly when for every record returned the two
events have as many hidden texts that are longer than the limit. -/
theorem remote_reads_agree_iff (capacity maxStringBytes shards : ℕ) (as bs : List Action)
    (hab : List.Forall₂ Action.Alike as bs) (t u : Traced)
    (ht : Transition.run trace (Traced.initial capacity maxStringBytes shards) as = some t)
    (hu : Transition.run trace (Traced.initial capacity maxStringBytes shards) bs = some u)
    (r : ℕ) (call call' : ReadCall) (read read' : FlightRead)
    (hcall : t.state.readers[r]? = some call) (hview : call.view = .remote)
    (hread : call.pc = .done read) (hcall' : u.state.readers[r]? = some call')
    (hread' : call'.pc = .done read') :
    (read.records = read'.records ↔
        ∀ out ∈ read.records, SameCuts maxStringBytes t.sources u.sources out.sequence) ∧
      ∀ limit, (tail limit read).records = (tail limit read').records ↔
        ∀ out ∈ (tail limit read).records,
          SameCuts maxStringBytes t.sources u.sources out.sequence := by
  have hlike : t.Alike u := alike_run hab ⟨rfl, .nil, .nil⟩ ht hu
  have hblank : call.blank = call'.blank := by
    have hreaders := congrArg (fun s : State => s.readers[r]?) hlike.skeleton
    simpa [State.skeleton, hcall, hcall'] using hreaders
  have hview' : call'.view = .remote := (congrArg ReadCall.view hblank).symm.trans hview
  -- the two reads return the same sequences, as the recorder does not look at the events
  have hsequences : read.records.map FlightRecord.sequence =
      read'.records.map FlightRecord.sequence := by
    have hpc := congrArg ReadCall.pc hblank
    simp only [ReadCall.blank, hread, hread', ReadPc.blank, ReadPc.done.injEq] at hpc
    have hrecords := congrArg (fun read => read.records.map FlightRecord.sequence) hpc
    simpa [FlightRead.blank, Function.comp_def, FlightRecord.blank] using hrecords
  have hparts : ∀ {outs outs' : List FlightRecord}, (∀ out ∈ outs, out ∈ read.records) →
      (∀ out ∈ outs', out ∈ read'.records) →
        outs.map FlightRecord.sequence = outs'.map FlightRecord.sequence →
          (outs = outs' ↔ ∀ out ∈ outs, SameCuts maxStringBytes t.sources u.sources out.sequence) :=
    fun houts houts' => records_eq_iff hlike (explained_run ht) (explained_run hu)
      (List.mem_of_getElem? hcall) hview hread (List.mem_of_getElem? hcall') hview' hread' houts houts'
  refine ⟨hparts (fun _ hout => hout) (fun _ hout => hout) hsequences, fun limit => ?_⟩
  have hlength : read.records.length = read'.records.length := by
    simpa using congrArg List.length hsequences
  rw [tail_records, tail_records, ← hlength]
  refine hparts (fun _ hout => List.mem_of_mem_drop hout) (fun _ hout => List.mem_of_mem_drop hout) ?_
  rw [List.map_drop, List.map_drop, hsequences]

/-- An event with one local-only text. -/
def localEvent (text : String) : ProjectedEvent :=
  { bareEvent with
    fields := [{ name := "address", privacy := .localOnly, detail := .core, value := .str text }] }

/-- The event is emitted and a remote read is made. -/
def emitAndRead (text : String) : List Action :=
  [.callEmit (localEvent text) 0, .stepEmit 0, .stepEmit 0, .stepEmit 0, .stepEmit 0, .stepEmit 0,
    .callRead 0 .remote, .stepRead 0, .stepRead 0, .stepRead 0, .stepRead 0, .stepRead 0, .stepRead 0]

theorem alike_localEvent (text text' : String) : (localEvent text).Alike (localEvent text') := by
  refine ⟨rfl, rfl, .cons ⟨rfl, rfl, rfl, fun hsafe => ?_⟩ .nil, rfl, rfl⟩
  cases hsafe

theorem alike_emitAndRead (text text' : String) :
    List.Forall₂ Action.Alike (emitAndRead text) (emitAndRead text') :=
  .cons (.callEmit (alike_localEvent text text') 0) (List.forall₂_same.mpr fun a _ => .refl a)

/-- The recorder after the run, with the read that has returned. -/
theorem emitAndRead_returns (text : String)
    (h : (Transition.run trace (.initial 1 8 1) (emitAndRead text)).any (fun t =>
      t.sources = [localEvent text] ∧ ∃ call ∈ t.state.readers[0]?, call.view = .remote ∧
        call.pc.returned.isSome) = true) :
    ∃ t call read, Transition.run trace (.initial 1 8 1) (emitAndRead text) = some t ∧
      t.sources = [localEvent text] ∧ t.state.readers[0]? = some call ∧ call.view = .remote ∧
        call.pc = .done read := by
  obtain ⟨t, ht, hp⟩ := (Option.any_eq_true _ _).mp h
  obtain ⟨hsources, call, hcall, hview, hreturned⟩ := of_decide_eq_true hp
  obtain ⟨read, hread⟩ := Option.isSome_iff_exists.mp hreturned
  refine ⟨t, call, read, ht, hsources, hcall, hview, ?_⟩
  cases hpc : call.pc <;> rw [hpc] at hread <;> cases hread
  rfl

/-- Two addresses that are cut alike are not told apart. -/
theorem remote_reads_agree_cut : ∃ (t u : Traced) (read read' : FlightRead),
    Transition.run trace (.initial 1 8 1) (emitAndRead "12 High Street") = some t ∧
      Transition.run trace (.initial 1 8 1) (emitAndRead "7 Low Street") = some u ∧
        (∃ call ∈ t.state.readers, call.pc = .done read) ∧
          (∃ call ∈ u.state.readers, call.pc = .done read') ∧ read.records = read'.records := by
  obtain ⟨t, call, read, ht, hsources, hcall, hview, hread⟩ :=
    emitAndRead_returns "12 High Street" (by decide)
  obtain ⟨u, call', read', hu, hsources', hcall', hview', hread'⟩ :=
    emitAndRead_returns "7 Low Street" (by decide)
  refine ⟨t, u, read, read', ht, hu, ⟨call, List.mem_of_getElem? hcall, hread⟩,
    ⟨call', List.mem_of_getElem? hcall', hread'⟩, ?_⟩
  refine (remote_reads_agree_iff 1 8 1 _ _ (alike_emitAndRead _ _) t u ht hu 0 call call' read read'
    hcall hview hread hcall' hread').1.mpr fun out _ a b ha hb => ?_
  have hleft := List.mem_of_getElem? (hsources ▸ ha)
  have hright := List.mem_of_getElem? (hsources' ▸ hb)
  rw [List.mem_singleton.mp hleft, List.mem_singleton.mp hright]
  decide

/-- The truncation counts of the records a remote read returned. -/
def remoteCounts (t : Traced) : Option (List ℕ) :=
  t.state.readers[0]?.bind fun call => call.pc.returned.map fun read =>
    read.records.map fun record => record.event.truncatedFields

/-- The remote view tells a local-only text longer than the limit from one that is not. -/
theorem remote_read_tells_length :
    List.Forall₂ Action.Alike (emitAndRead "12 High Street") (emitAndRead "none") ∧
      ((Transition.run trace (.initial 1 8 1) (emitAndRead "12 High Street")).bind remoteCounts =
        some [1]) ∧
      ((Transition.run trace (.initial 1 8 1) (emitAndRead "none")).bind remoteCounts = some [0]) :=
  ⟨alike_emitAndRead _ _, by decide, by decide⟩

end FlightRecorder

end Logwise
