import Logwise.Runtime.CallsiteCache
import Logwise.Runtime.Lineage
import Logwise.Runtime.Noninterference

/-!
# Runs of a runtime and its call sites

One runtime, a clock and any number of call sites. A step is a whole operation, the passage of
time, an emitted event with whatever its sinks do, or a query by a call site.
-/

namespace Logwise

structure Machine where
  runtime : Runtime
  now : Instant
  sites : ℕ → Callsite

namespace Machine

inductive Action where
  | perform (operation : Operation)
  | tick (elapsed : Duration)
  | contextIsActive (context : ContextToken)
  | emit (event : EventRef) (reactions : List Reaction) (thread : Thread)
  | query (site : ℕ) (context : ContextToken) (delay : Duration)

def initial (platform : Platform) (schema : ℕ → Metadata) : Machine :=
  { runtime := Runtime.new
    now := 0
    sites := fun i => Callsite.new platform.usizeMax (schema i) }

/-- A query by site `i` that reads the clock twice, `delay` apart. -/
def query (platform : Platform) (i : ℕ) (context : ContextToken) (delay : Duration)
    (m : Machine) : Option (Interest × Machine) :=
  ((m.sites i).query platform context m.now (m.now + delay) m.runtime).map
    fun (mask, site, rt) =>
      (mask, { runtime := rt, now := m.now + delay, sites := Function.update m.sites i site })

def step (platform : Platform) (m : Machine) : Action → Option Machine
  | .perform operation =>
    (operation.perform platform m.now m.runtime).map fun rt => { m with runtime := rt }
  | .tick elapsed => some { m with now := m.now + elapsed }
  | .contextIsActive context =>
    (m.runtime.contextIsActive platform context m.now).map fun (_, rt) => { m with runtime := rt }
  | .emit event reactions thread =>
    (Runtime.emit platform event reactions thread m.runtime).map fun outcome =>
      { m with runtime := outcome.runtime }
  | .query i context delay => (m.query platform i context delay).map Prod.snd

/-- The machines that runs from a fresh runtime reach. -/
def Reachable (platform : Platform) (schema : ℕ → Metadata) (m : Machine) : Prop :=
  Transition.Reaches (step platform) Transition.always (initial platform schema) m

/-- The invariant of every run. -/
structure Coherent (platform : Platform) (schema : ℕ → Metadata) (m : Machine) : Prop where
  sound : Runtime.Sound platform m.runtime
  metadata : ∀ i, (m.sites i).metadata = schema i
  sites : ∀ i, (m.sites i).Coherent platform m.runtime

theorem coherent_initial (platform : Platform) (schema : ℕ → Metadata) :
    (initial platform schema).Coherent platform schema := by
  refine ⟨Runtime.sound_new platform, fun _ => rfl, fun i => ⟨Or.inl rfl, ?_⟩⟩
  intro hgen
  exact absurd hgen (Runtime.sound_new platform).generation.ne'

theorem Coherent.of_tracks {platform : Platform} {schema : ℕ → Metadata} {m m' : Machine}
    (h : m.Coherent platform schema) (hsites : m'.sites = m.sites)
    (ht : Runtime.Tracks m.runtime m'.runtime ∧ Runtime.Sound platform m'.runtime) :
    m'.Coherent platform schema := by
  refine ⟨ht.2, fun i => hsites ▸ h.metadata i, fun i => ?_⟩
  rw [hsites]
  exact ht.1.coherent ht.2 (h.sites i)

/-- A query keeps every cache coherent, its own and the others'. -/
theorem query_spec {platform : Platform} {schema : ℕ → Metadata} {m m' : Machine} {i : ℕ}
    {context : ContextToken} {delay : Duration} {mask : Interest}
    (h : m.Coherent platform schema)
    (hq : m.query platform i context delay = some (mask, m')) :
    mask = m.runtime.requested platform (schema i) context m'.now ∧
      m'.now = m.now + delay ∧ m'.runtime.sinks = m.runtime.sinks ∧
      m'.runtime.contexts = m.runtime.contexts ∧ m'.Coherent platform schema := by
  obtain ⟨⟨answer, site, rt⟩, hs, he⟩ := Option.map_eq_some_iff.mp hq
  cases he
  have hans := Runtime.query_answered (Nat.le_add_right m.now delay) h.sound (h.sites i) hs
  refine ⟨h.metadata i ▸ hans.mask, rfl, hans.sinks, hans.contexts, hans.sound, ?_, ?_⟩
  · intro j
    by_cases hj : j = i
    · subst hj
      simpa using hans.metadata.trans (h.metadata j)
    · simpa [Function.update_of_ne hj] using h.metadata j
  · intro j
    by_cases hj : j = i
    · subst hj
      simpa using hans.coherent
    · simpa [Function.update_of_ne hj] using hans.tracks.coherent hans.sound (h.sites j)

theorem coherent_step {platform : Platform} {schema : ℕ → Metadata} {m m' : Machine}
    {action : Action} (h : m.Coherent platform schema)
    (hstep : step platform m action = some m') : m'.Coherent platform schema := by
  cases action with
  | perform operation =>
    obtain ⟨rt, hp, rfl⟩ := Option.map_eq_some_iff.mp hstep
    exact h.of_tracks rfl (Runtime.perform_tracks h.sound hp)
  | tick elapsed =>
    cases hstep
    exact h.of_tracks rfl ⟨Runtime.Tracks.refl _, h.sound⟩
  | contextIsActive context =>
    obtain ⟨⟨active, rt⟩, hp, rfl⟩ := Option.map_eq_some_iff.mp hstep
    obtain ⟨⟨mask, rt'⟩, hact, he⟩ := Option.map_eq_some_iff.mp hp
    cases he
    exact h.of_tracks rfl
      (Runtime.retainUnexpired_eq_some h.sound (Runtime.activationInterest_eq_some hact)).2
  | emit event reactions thread =>
    obtain ⟨outcome, he, rfl⟩ := Option.map_eq_some_iff.mp hstep
    exact h.of_tracks rfl (Runtime.emit_tracks h.sound he)
  | query i context delay =>
    obtain ⟨⟨mask, next⟩, hq, rfl⟩ := Option.map_eq_some_iff.mp hstep
    exact (query_spec h hq).2.2.2.2

theorem Reachable.coherent {platform : Platform} {schema : ℕ → Metadata} {m : Machine}
    (h : Reachable platform schema m) : m.Coherent platform schema :=
  Transition.Reaches.invariant (I := Coherent platform schema)
    (fun _ _ _ hm _ hs => coherent_step hm hs) h (coherent_initial platform schema)

/-! ## Lineage over runs -/

/-- Contexts are created under no parent or under one already numbered. -/
def Genuine (m : Machine) : Action → Prop
  | .perform operation => operation.Genuine m.runtime.nextContext
  | .emit _ reactions _ =>
    ∀ reaction ∈ reactions, reaction.Makes (Operation.Genuine m.runtime.nextContext)
  | _ => True

theorem acyclic_step {platform : Platform} {schema : ℕ → Metadata} {m m' : Machine}
    {action : Action} (h : m.Coherent platform schema) (ha : Acyclic m.runtime.contexts)
    (hg : m.Genuine action) (hstep : step platform m action = some m') :
    Acyclic m'.runtime.contexts := by
  have ho : Runtime.Ordered m.runtime.nextContext m.runtime := ⟨ha, UInt64.le_refl _⟩
  cases action with
  | perform operation =>
    obtain ⟨rt, hp, rfl⟩ := Option.map_eq_some_iff.mp hstep
    exact (Runtime.perform_ordered hg ho hp).acyclic
  | tick elapsed =>
    cases hstep
    exact ha
  | contextIsActive context =>
    obtain ⟨⟨active, rt⟩, hp, rfl⟩ := Option.map_eq_some_iff.mp hstep
    obtain ⟨⟨mask, rt'⟩, hact, he⟩ := Option.map_eq_some_iff.mp hp
    cases he
    have hframe :=
      (Runtime.retainUnexpired_eq_some h.sound (Runtime.activationInterest_eq_some hact)).1
    have hcontexts : rt.contexts = m.runtime.contexts := by rw [hframe]
    exact hcontexts ▸ ha
  | emit event reactions thread =>
    obtain ⟨outcome, he, rfl⟩ := Option.map_eq_some_iff.mp hstep
    exact (Runtime.emit_ordered hg ho he).acyclic
  | query i context delay =>
    obtain ⟨⟨mask, next⟩, hq, rfl⟩ := Option.map_eq_some_iff.mp hstep
    obtain ⟨-, -, -, hcontexts, -⟩ := query_spec h hq
    exact hcontexts ▸ ha

/-- **No circular lineage** in a run that creates contexts only under genuine parents. -/
theorem acyclic_of_genuine {platform : Platform} {schema : ℕ → Metadata} {m : Machine}
    (h : Transition.Reaches (step platform) Genuine (initial platform schema) m) :
    Acyclic m.runtime.contexts := by
  have hboth := Transition.Reaches.invariant_of (I := Coherent platform schema)
    (J := fun m => Acyclic m.runtime.contexts)
    (fun _ _ _ hm _ hs => coherent_step hm hs)
    (fun _ _ _ hm hj hok hs => acyclic_step hm hj hok hs) h
    (coherent_initial platform schema) (fun _ _ _ hl => by cases hl)
  exact hboth.2

/-- **Cached or not, a query answers what is requested**: at every query of every run the mask is
the union of the baseline, the matching activations alive at that instant and the matching
sinks, every field group a delivery of this call would include is wanted, and the query returns
where no lineage is circular and the generations last. -/
theorem query_eq_requested (platform : Platform) (schema : ℕ → Metadata) (m : Machine)
    (hreach : Reachable platform schema m) (i : ℕ) (context : ContextToken) (delay : Duration) :
    (∀ mask m', m.query platform i context delay = some (mask, m') →
      mask = m.runtime.requested platform (schema i) context (m.now + delay) ∧
      ∀ event : EventRef, event.metadata = schema i → event.context = context →
        ∀ sinks, Runtime.selectedSinks platform event m'.runtime = some sinks →
          ∀ sink ∈ sinks, ∀ field : FieldMetadata,
            admits sink.capability sink.detail field = true →
              mask.wants field.privacy field.detail = true) ∧
    (Acyclic m.runtime.contexts → m.runtime.generation + 2 < platform.usizeMax →
      (m.query platform i context delay).isSome) := by
  have hcoherent := hreach.coherent
  refine ⟨?_, ?_⟩
  · intro mask m' hq
    obtain ⟨hmask, hnow, hsinks, hcontexts, -⟩ := query_spec hcoherent hq
    rw [hnow] at hmask
    refine ⟨hmask, ?_⟩
    intro event hmeta hcontext sinks hsel sink hsink field hadm
    rw [hmask, Runtime.requested_wants]
    refine Or.inr (Or.inr ⟨sink, ?_, ?_⟩)
    · have hmem := Runtime.mem_sinksFor_of_selected hsel hsink
      rw [hmeta, hcontext, Runtime.sinksFor, hsinks, hcontexts] at hmem
      exact hmem
    · rw [sinkInterest_wants]
      exact hadm
  · intro hacyclic hgen
    rw [query, Option.isSome_map]
    exact Runtime.query_isSome hcoherent.sound (hcoherent.sites i) hacyclic hgen

/-- A machine whose only view is a local one of core detail, registered before any query. -/
def localView : Machine :=
  { initial .native64 fun _ => Runtime.projectionMetadata with
    runtime := { Runtime.new with
      generation := 1
      nextSink := 2
      sinks := [⟨⟨1⟩, ⟨0⟩, .localRetained, .core, Filter.new⟩] } }

theorem query_eq_requested_localView :
    (localView.query .native64 0 .none 5).map Prod.fst =
      some (localView.runtime.requested .native64 Runtime.projectionMetadata .none 5) := by
  have hreach : Reachable .native64 (fun _ => Runtime.projectionMetadata) localView :=
    Transition.Reaches.tail (a := .perform (.addLocalSink ⟨0⟩ Filter.new .core))
      Transition.Reaches.refl trivial rfl
  have hquery := query_eq_requested .native64 (fun _ => Runtime.projectionMetadata) localView
    hreach 0 .none 5
  obtain ⟨⟨mask, m'⟩, hq⟩ := Option.isSome_iff_exists.mp
    (hquery.2 (fun _ _ _ hl => by cases hl) (by decide))
  rw [hq, Option.map_some, (hquery.1 mask m' hq).1]
  rfl

end Machine

end Logwise
