import Logwise.Runtime.Requested

/-!
# The runtime behind the facade

`impl Dispatch for Runtime`, on a runtime together with the calling thread and the deliveries
made so far, and what `emit` preserves whatever the callbacks do.
-/

namespace Logwise

structure Process where
  runtime : Runtime
  thread : Thread
  delivered : List Delivery

/-- The operation, if any, that an action of a callback makes is in `P`. What a callback emits is
dropped, so callbacks nested in an emission never run. -/
def SinkAction.Makes (P : Operation → Prop) : SinkAction → Prop
  | .emit _ _ => True
  | .perform operation _ => P operation

def Reaction.Makes (P : Operation → Prop) : Reaction → Prop
  | .mk actions _ => ∀ action ∈ actions, action.Makes P

namespace Runtime

/-- The dispatcher as a call made at `now` meets it; `reactions` is what the sinks do should the
call emit. -/
def dispatch (platform : Platform) (now : Instant) (reactions : List Reaction) :
    Dispatch Process where
  generation process := process.runtime.generation
  interest metadata process :=
    (process.runtime.interest platform metadata now).map fun (mask, rt) =>
      (mask, { process with runtime := rt })
  contextualInterest metadata context process :=
    (process.runtime.contextualInterest platform metadata context now).map fun (mask, rt) =>
      (mask, { process with runtime := rt })
  emit event process :=
    (emit platform event reactions process.thread process.runtime).map fun outcome =>
      { runtime := outcome.runtime
        thread := outcome.thread
        delivered := process.delivered ++ outcome.deliveries }
  captureContext process := process.thread.currentContext
  startSpan span process :=
    (process.runtime.startSpan span now).map fun (token, rt) =>
      (token, { process with runtime := rt })

/-! ## What an emitted event preserves -/

section Preserved

variable {platform : Platform} {I : Runtime → Prop} {P : Operation → Prop}
  (hperform : ∀ operation now rt rt', P operation → I rt →
    Operation.perform platform now rt operation = some rt' → I rt')
  (hdropped : ∀ rt n, I rt → I { rt with reentrantEventsDropped := n })
  (hpanics : ∀ rt n, I rt → I { rt with sinkPanics := n })

include hperform hdropped in
theorem runActions_preserves {actions : List SinkAction} {thread : Thread} {rt : Runtime}
    {outcome : Outcome} {unwound : Bool} (hin : thread.inDispatch = true)
    (hP : ∀ action ∈ actions, action.Makes P) (hI : I rt)
    (h : runActions platform actions thread rt = some (outcome, unwound)) : I outcome.runtime := by
  induction actions generalizing rt outcome unwound with
  | nil =>
    rw [runActions] at h
    cases h
    exact hI
  | cons action actions ih =>
    have hrest := fun action' ha => hP action' (List.mem_cons_of_mem _ ha)
    cases action with
    | emit event reactions =>
      rw [runActions, emitWith_nested hin, Option.bind_some] at h
      obtain ⟨⟨rest, flag⟩, hrun, he⟩ := Option.map_eq_some_iff.mp h
      cases he
      exact ih hrest (hdropped rt _ hI) hrun
    | perform operation now =>
      rw [runActions] at h
      cases hp : operation.perform platform now rt with
      | none =>
        rw [hp] at h
        cases h
        exact hI
      | some rt' =>
        rw [hp] at h
        have hmake : P operation := hP _ (List.mem_cons_self ..)
        exact ih hrest (hperform operation now rt rt' hmake hI hp) h

include hperform hdropped hpanics

theorem fanOut_preserves {event : EventRef} {reactions : List Reaction}
    {sinks : List SinkRegistration} {thread : Thread} {rt : Runtime} {outcome : Outcome}
    (hin : thread.inDispatch = true) (hP : ∀ reaction ∈ reactions, reaction.Makes P) (hI : I rt)
    (h : fanOut platform event reactions sinks thread rt = some outcome) : I outcome.runtime := by
  induction reactions generalizing sinks thread rt outcome with
  | nil =>
    rw [fanOut] at h
    cases h
    exact hI
  | cons reaction reactions ih =>
    cases sinks with
    | nil =>
      rw [fanOut] at h
      cases h
      exact hI
    | cons sink sinks =>
      obtain ⟨actions, panics⟩ := reaction
      rw [fanOut, react] at h
      obtain ⟨⟨called, panicked⟩, hcall, hrest⟩ := Option.bind_eq_some_iff.mp h
      obtain ⟨⟨inner, unwound⟩, hrun, he⟩ := Option.map_eq_some_iff.mp hcall
      cases he
      obtain ⟨rest, hrest', he'⟩ := Option.map_eq_some_iff.mp hrest
      cases he'
      obtain ⟨_, _, hrun', hthread, -⟩ := runActions_inDispatch platform actions thread rt hin
      rw [hrun] at hrun'
      cases hrun'
      have hinner := runActions_preserves hperform hdropped hin
        (hP _ (List.mem_cons_self ..)) hI hrun
      have hrest : I rest.runtime := by
        refine ih (hthread ▸ hin) (fun r hr => hP r (List.mem_cons_of_mem _ hr)) ?_ hrest'
        split
        · exact hpanics _ _ hinner
        · exact hinner
      exact hrest

/-- **Emission preserves what the operations and the counters preserve**, whatever the sinks'
callbacks do. -/
theorem emit_preserves {event : EventRef} {reactions : List Reaction} {thread : Thread}
    {rt : Runtime} {outcome : Outcome} (hP : ∀ reaction ∈ reactions, reaction.Makes P) (hI : I rt)
    (h : emit platform event reactions thread rt = some outcome) : I outcome.runtime := by
  unfold emit emitWith at h
  split at h
  · cases h
    exact hdropped rt _ hI
  · obtain ⟨sinks, -, hrest⟩ := Option.bind_eq_some_iff.mp h
    obtain ⟨inner, hfan, he⟩ := Option.map_eq_some_iff.mp hrest
    cases he
    have hinner : I inner.runtime :=
      fanOut_preserves hperform hdropped hpanics rfl hP hI hfan
    exact hinner

end Preserved

theorem emit_tracks {platform : Platform} {event : EventRef} {reactions : List Reaction}
    {thread : Thread} {rt : Runtime} {outcome : Outcome} (hs : Sound platform rt)
    (h : emit platform event reactions thread rt = some outcome) :
    Tracks rt outcome.runtime ∧ Sound platform outcome.runtime := by
  refine emit_preserves (I := fun rt' => Tracks rt rt' ∧ Sound platform rt')
    (P := fun _ => True) ?_ ?_ ?_ ?_ ⟨Tracks.refl rt, hs⟩ h
  · rintro operation now rt₁ rt₂ - ⟨ht, hs₁⟩ hp
    have hstep := perform_tracks hs₁ hp
    exact ⟨ht.trans hstep.1, hstep.2⟩
  · rintro rt₁ n ⟨ht, hs₁⟩
    exact ⟨ht.trans (Or.inr ⟨rfl, rfl, rfl, rfl⟩), hs₁.of_fields rfl rfl rfl⟩
  · rintro rt₁ n ⟨ht, hs₁⟩
    exact ⟨ht.trans (Or.inr ⟨rfl, rfl, rfl, rfl⟩), hs₁.of_fields rfl rfl rfl⟩
  · rintro ⟨actions, panics⟩ - action -
    cases action <;> exact trivial

end Runtime

end Logwise
