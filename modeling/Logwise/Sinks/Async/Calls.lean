import Logwise.Sinks.Async.Order
import Logwise.Library.Transition
import Logwise.Library.Slots

/-!
# Calls in progress

The call that holds the queue, what the drop of the last handle may rely on, and where the
targets of the flushes lie.
-/

namespace Logwise.AsyncSink

variable {config : Config} {s s' : State}

theorem quiet_iff : quiet s = true ↔
    (∀ pc ∈ s.emits, pc = .done) ∧ ∀ call ∈ s.flushes, call.pc.inCall = false := by
  simp [quiet]

/-- What holds between the calls and the shared cells. -/
structure State.Calls (s : State) : Prop where
  inside : ∀ i, s.queueSection.emitter = some i → s.emits[i]? = some .inside
  closing : s.drop ≠ .alive → quiet s = true
  next : ∀ next, s.drop = .storeRequested next → next = s.nextSequence
  requested_le : s.requestedFlush ≤ s.nextSequence
  target_le : ∀ call ∈ s.flushes, call.target ≤ s.nextSequence
  published : ∀ call ∈ s.flushes, call.pc ≠ .lockQueue → call.pc ≠ .publish →
    call.target ≤ s.requestedFlush

theorem calls_initial : initial.Calls := by
  constructor <;> simp [initial, QueueSection.emitter]

theorem State.Calls.quiet (h : s.Calls) (hdrop : s.drop ≠ .alive) {i : ℕ} :
    s.queueSection.emitter ≠ some i := by
  intro he
  have hmem := List.mem_of_getElem? (h.inside i he)
  have hdone := (quiet_iff.mp (h.closing hdrop)).1 _ hmem
  cases hdone

/-- While a call of `emit` is in progress the handles are alive. -/
theorem State.Calls.alive_of_emit (h : s.Calls) {i : ℕ} {pc : EmitPc}
    (hi : s.emits[i]? = some pc) (hpc : pc ≠ .done) : s.drop = .alive := by
  by_contra hdrop
  exact hpc ((quiet_iff.mp (h.closing hdrop)).1 pc (List.mem_of_getElem? hi))

theorem State.Calls.alive_of_flush (h : s.Calls) {f : ℕ} {call : FlushCall}
    (hf : s.flushes[f]? = some call) (hpc : call.pc.inCall = true) : s.drop = .alive := by
  by_contra hdrop
  have hout := (quiet_iff.mp (h.closing hdrop)).2 call (List.mem_of_getElem? hf)
  rw [hpc] at hout
  cases hout

/-- Moving one call of `emit` leaves the holder of the queue, another call, inside. -/
theorem inside_set (h : s.Calls) {i : ℕ} {old pc : EmitPc} (hi : s.emits[i]? = some old)
    (hold : old ≠ .inside) (j : ℕ) (hj : s.queueSection.emitter = some j) :
    (s.emits.set i pc)[j]? = some .inside := by
  have hin := h.inside j hj
  have hne : i ≠ j := by
    rintro rfl
    rw [hi] at hin
    exact hold (Option.some.inj hin)
  rw [List.getElem?_set_ne hne]
  exact hin

theorem wakeWaiter_target (call : FlushCall) : (wakeWaiter call).target = call.target := by
  obtain ⟨pc, target, captured⟩ := call
  cases pc <;> rfl

theorem wakeWaiter_captured (call : FlushCall) : (wakeWaiter call).captured = call.captured := by
  obtain ⟨pc, target, captured⟩ := call
  cases pc <;> rfl

theorem wakeWaiter_pc (call : FlushCall) :
    (wakeWaiter call).pc = call.pc ∨
      (call.pc = .parked ∧ (wakeWaiter call).pc = .lockProgress) := by
  obtain ⟨pc, target, captured⟩ := call
  cases pc <;> simp [wakeWaiter]

theorem wakeWaiter_inCall (call : FlushCall) : (wakeWaiter call).pc.inCall = call.pc.inCall := by
  obtain ⟨pc, target, captured⟩ := call
  cases pc <;> rfl

theorem calls_queueStep (h : s.Calls) (hs : queueStep config s s.queueSection = some s') :
    s'.Calls := by
  have frame := queueStep_frame hs
  have hnext : s.nextSequence ≤ s'.nextSequence := by
    obtain he | ⟨he, -⟩ := frame.nextSequence <;> omega
  constructor
  · intro i hi
    obtain ⟨he, hsame⟩ | ⟨j, pc, -, hnone, -, -⟩ := frame.emits
    · rw [he]
      exact h.inside i (hsame ▸ hi)
    · rw [hnone] at hi
      cases hi
  · intro hdrop
    rw [frame.drop] at hdrop
    obtain ⟨hemits, hflushes⟩ := quiet_iff.mp (h.closing hdrop)
    obtain ⟨he, -⟩ | ⟨j, pc, hj, -, -, -⟩ := frame.emits
    · exact quiet_iff.mpr ⟨he ▸ hemits, frame.flushes ▸ hflushes⟩
    · exact absurd hj (h.quiet hdrop)
  · intro next hdrop
    rw [frame.drop] at hdrop
    obtain he | ⟨-, i, hi⟩ := frame.nextSequence
    · rw [he]
      exact h.next next hdrop
    · exact absurd hi (h.quiet (by rw [hdrop]; exact DropPc.noConfusion))
  · exact frame.requestedFlush ▸ h.requested_le.trans hnext
  · rw [frame.flushes]
    exact fun call hc => (h.target_le call hc).trans hnext
  · rw [frame.flushes, frame.requestedFlush]
    exact h.published

theorem calls_workerStep (h : s.Calls) (hs : workerStep s s.worker = some s') : s'.Calls := by
  have frame := workerStep_frame hs
  have hflush : ∀ call ∈ s'.flushes, ∃ old ∈ s.flushes, call.target = old.target ∧
      call.pc.inCall = old.pc.inCall ∧
      (call.pc ≠ .lockQueue → old.pc ≠ .lockQueue) ∧ (call.pc ≠ .publish → old.pc ≠ .publish) := by
    intro call hc
    obtain he | he := frame.flushes
    · rw [he] at hc
      exact ⟨call, hc, rfl, rfl, id, id⟩
    · rw [he] at hc
      obtain ⟨old, ho, rfl⟩ := List.mem_map.mp hc
      refine ⟨old, ho, wakeWaiter_target old, wakeWaiter_inCall old, ?_, ?_⟩
      all_goals
        intro hne hold
        obtain heq | ⟨hp, -⟩ := wakeWaiter_pc old
        · exact hne (heq.trans hold)
        · rw [hold] at hp
          cases hp
  constructor
  · intro i hi
    rw [frame.emits]
    obtain ⟨he, -, -⟩ | ⟨-, he, -⟩ := frame.queue
    · exact h.inside i (he ▸ hi)
    · rw [he] at hi
      cases hi
  · intro hdrop
    obtain ⟨hemits, hflushes⟩ := quiet_iff.mp (h.closing (frame.drop ▸ hdrop))
    refine quiet_iff.mpr ⟨frame.emits ▸ hemits, ?_⟩
    intro call hc
    obtain ⟨old, ho, -, hcall, -, -⟩ := hflush call hc
    exact hcall.trans (hflushes old ho)
  · intro next hdrop
    rw [frame.nextSequence]
    exact h.next next (frame.drop ▸ hdrop)
  · rw [frame.requestedFlush, frame.nextSequence]
    exact h.requested_le
  · intro call hc
    obtain ⟨old, ho, htarget, -, -, -⟩ := hflush call hc
    rw [htarget, frame.nextSequence]
    exact h.target_le old ho
  · intro call hc hlock hpub
    obtain ⟨old, ho, htarget, -, hlock', hpub'⟩ := hflush call hc
    rw [htarget, frame.requestedFlush]
    exact h.published old ho (hlock' hlock) (hpub' hpub)

/-- A writer call touches neither the calls nor the queue. -/
theorem calls_writerStep {outcome : Outcome} (h : s.Calls)
    (hs : writerStep s outcome s.worker = some s') : s'.Calls := by
  cases hw : s.worker with
  | write queued =>
    rw [hw] at hs
    cases outcome <;> cases hs <;> exact ⟨h.1, h.2, h.3, h.4, h.5, h.6⟩
  | flush processed =>
    rw [hw] at hs
    cases outcome <;> cases hs <;> exact ⟨h.1, h.2, h.3, h.4, h.5, h.6⟩
  | finalFlush processed =>
    rw [hw] at hs
    cases outcome <;> cases hs <;> exact ⟨h.1, h.2, h.3, h.4, h.5, h.6⟩
  | _ => simp [hw, writerStep] at hs

/-- **Calls in progress**: kept by every step. -/
theorem calls_step {a : Action} (h : s.Calls) (hs : step config s a = some s') : s'.Calls := by
  cases moves_of_step hs with
  | callEmit event halive =>
    refine ⟨?_, fun hdrop => absurd halive hdrop, h.next, h.requested_le, h.target_le, h.published⟩
    intro i hi
    have hin := h.inside i hi
    rw [List.getElem?_append_left (List.getElem?_eq_some_iff.mp hin).1]
    exact hin
  | emitAside a i old pc stats ha hi hold hpc =>
    refine ⟨fun j hj => inside_set h hi hold.2.1 j hj, ?_, h.next, h.requested_le, h.target_le,
      h.published⟩
    intro hdrop
    exact absurd (h.alive_of_emit hi hold.2.2) hdrop
  | emitEnter i owned hi hfree =>
    refine ⟨?_, ?_, h.next, h.requested_le, h.target_le, h.published⟩
    · intro j hj
      cases hj
      exact Slots.getElem?_set_of_some hi
    · intro hdrop
      exact absurd (h.alive_of_emit hi EmitPc.noConfusion) hdrop
  | emitNotify i hi =>
    refine ⟨fun j hj => inside_set h hi EmitPc.noConfusion j hj, ?_, h.next, h.requested_le,
      h.target_le, h.published⟩
    intro hdrop
    exact absurd (h.alive_of_emit hi EmitPc.noConfusion) hdrop
  | callFlush halive =>
    -- the new call has no target and has published nothing
    refine ⟨h.inside, fun hdrop => absurd halive hdrop, h.next, h.requested_le, ?_, ?_⟩
    · exact Slots.forall_mem_concat h.target_le (Nat.zero_le _)
    · exact Slots.forall_mem_concat h.published fun hlock => absurd rfl hlock
  | capture f call hf hpc hfree =>
    -- its target is the current `next_sequence`
    have halive := h.alive_of_flush hf (by rw [hpc]; rfl)
    refine ⟨h.inside, fun hdrop => absurd halive hdrop, h.next, h.requested_le, ?_, ?_⟩
    · exact Slots.forall_mem_set h.target_le le_rfl
    · exact Slots.forall_mem_set h.published fun _ hpub => absurd rfl hpub
  | publish f call hf hpc =>
    -- `fetch_max` covers this target and keeps what covered the others
    have halive := h.alive_of_flush hf (by rw [hpc]; rfl)
    have htarget := h.target_le call (List.mem_of_getElem? hf)
    refine ⟨h.inside, fun hdrop => absurd halive hdrop, h.next, max_le h.requested_le htarget,
      ?_, ?_⟩
    · exact Slots.forall_mem_set h.target_le htarget
    · refine Slots.forall_mem_set ?_ fun _ _ => le_max_right _ _
      exact fun other hc hlock hpub =>
        (h.published other hc hlock hpub).trans (le_max_left _ _)
  | flushNotify f call hf hpc =>
    have halive := h.alive_of_flush hf (by rw [hpc]; rfl)
    have hmem := List.mem_of_getElem? hf
    refine ⟨h.inside, fun hdrop => absurd halive hdrop, h.next, h.requested_le, ?_, ?_⟩
    · exact Slots.forall_mem_set h.target_le (h.target_le call hmem)
    · refine Slots.forall_mem_set h.published fun _ _ => ?_
      exact h.published call hmem (by rw [hpc]; exact FlushPc.noConfusion)
        (by rw [hpc]; exact FlushPc.noConfusion)
  | barrier a f call pc owner wakers hf hout hstep =>
    -- a poll or a wait changes neither the target nor what was published
    have hmem := List.mem_of_getElem? hf
    have hpc : pc.inCall = false := by
      cases hstep with
      | pending hp =>
        obtain rfl | rfl | rfl | ⟨waker, rfl⟩ := hp <;> rfl
      | _ => rfl
    refine ⟨h.inside, ?_, h.next, h.requested_le, ?_, ?_⟩
    · intro hdrop
      obtain ⟨hemits, hflushes⟩ := quiet_iff.mp (h.closing hdrop)
      exact quiet_iff.mpr ⟨hemits, Slots.forall_mem_set hflushes hpc⟩
    · exact Slots.forall_mem_set h.target_le (h.target_le call hmem)
    · refine Slots.forall_mem_set h.published fun _ _ => h.published call hmem ?_ ?_
      all_goals
        intro hp
        rw [hp] at hout
        cases hout
  | dropHandles halive hquiet =>
    exact ⟨h.inside, fun _ => hquiet, fun next hn => (by cases hn), h.requested_le, h.target_le,
      h.published⟩
  | dropLock hdrop hfree =>
    exact ⟨h.inside, fun _ => h.closing (by rw [hdrop]; exact DropPc.noConfusion),
      fun next hn => (by cases hn), h.requested_le, h.target_le, h.published⟩
  | dropLoad hdrop =>
    refine ⟨h.inside, fun _ => h.closing (by rw [hdrop]; exact DropPc.noConfusion), ?_,
      h.requested_le, h.target_le, h.published⟩
    intro next hn
    cases hn
    rfl
  | dropStore next hdrop =>
    -- the drop publishes the last sequence, which covers every target
    have hnext := h.next next hdrop
    refine ⟨h.inside, fun _ => h.closing (by rw [hdrop]; exact DropPc.noConfusion),
      fun next hn => (by cases hn), hnext.le, h.target_le, ?_⟩
    intro call hc _ _
    exact hnext ▸ h.target_le call hc
  | dropNotify hdrop =>
    exact ⟨h.inside, fun _ => h.closing (by rw [hdrop]; exact DropPc.noConfusion),
      fun next hn => (by cases hn), h.requested_le, h.target_le, h.published⟩
  | dropJoin hdrop hworker =>
    exact ⟨h.inside, fun _ => h.closing (by rw [hdrop]; exact DropPc.noConfusion),
      fun next hn => (by cases hn), h.requested_le, h.target_le, h.published⟩
  | queue s' hq => exact calls_queueStep h hq
  | work s' hw => exact calls_workerStep h hw
  | writer outcome s' hw => exact calls_writerStep h hw
  | spurious hparked => exact ⟨h.1, h.2, h.3, h.4, h.5, h.6⟩

/-- A barrier that has seen its target flushed. -/
def FlushPc.covered : FlushPc → Bool
  | .lockFlushError _ | .lockWriteError _ _ | .resolved (.ok _) => true
  | _ => false

/-- A flush in `s'` goes on with the target and the records it had in `s`. -/
structure FlushCall.Continues (flushed : ℕ) (old call : FlushCall) : Prop where
  target : call.target = old.target
  captured : call.captured = old.captured
  asking : call.pc = .lockQueue → old.pc = .lockQueue
  covered : call.pc.covered = true → old.pc.covered = true ∨ old.target ≤ flushed

theorem FlushCall.Continues.refl (flushed : ℕ) (call : FlushCall) : call.Continues flushed call :=
  ⟨rfl, rfl, id, Or.inl⟩

/-- A step of a barrier, or of a flush that has read its target. -/
theorem continues_set {f flushed : ℕ} {old : FlushCall} {pc : FlushPc}
    (hf : s.flushes[f]? = some old) (hasking : pc ≠ .lockQueue)
    (hcovered : pc.covered = true → old.pc.covered = true ∨ old.target ≤ flushed) :
    ∀ call ∈ s.flushes.set f { old with pc := pc }, ∃ old ∈ s.flushes, old.Continues flushed call := by
  intro call hc
  obtain hm | rfl := List.mem_or_eq_of_mem_set hc
  · exact ⟨call, hm, .refl flushed call⟩
  · exact ⟨old, List.mem_of_getElem? hf, rfl, rfl, fun hp => absurd hp hasking, hcovered⟩

theorem continues_wake (flushed : ℕ) :
    ∀ call ∈ s.flushes.map wakeWaiter, ∃ old ∈ s.flushes, old.Continues flushed call := by
  intro call hc
  obtain ⟨old, hm, rfl⟩ := List.mem_map.mp hc
  refine ⟨old, hm, wakeWaiter_target old, wakeWaiter_captured old, ?_, ?_⟩
  all_goals
    obtain he | ⟨-, he⟩ := wakeWaiter_pc old
    · rw [he]
      first | exact id | exact Or.inl
    · rw [he]
      exact fun hp => by cases hp

theorem continues_same (flushed : ℕ) :
    ∀ call ∈ s.flushes, ∃ old ∈ s.flushes, old.Continues flushed call :=
  fun call hc => ⟨call, hc, .refl flushed call⟩

/-- A barrier comes to its errors, and past them, only once its target is flushed. -/
theorem BarrierStep.covered {call : FlushCall} {pc : FlushPc} (h : BarrierStep s call pc)
    (hpc : pc.covered = true) :
    call.pc.covered = true ∨ call.target ≤ s.flushedSequence := by
  cases h with
  | flushed use hle => exact Or.inr hle
  | flushError use hp =>
    rw [hp]
    exact Or.inl rfl
  | ok use hp hwrite =>
    rw [hp]
    exact Or.inl rfl
  | pending hp => obtain rfl | rfl | rfl | ⟨waker, rfl⟩ := hp <;> cases hpc
  | _ => cases hpc

/-- Every flush goes on with its target and its records, or is called now, or reads its target
now. -/
theorem flushes_of_step {a : Action} (h : s.Calls) (hs : step config s a = some s') :
    ∀ call ∈ s'.flushes, (∃ old ∈ s.flushes, old.Continues s.flushedSequence call) ∨
      (s.drop = .alive ∧ (call = ⟨.lockQueue, 0, []⟩ ∨
        (call = ⟨.publish, s.nextSequence, s.events.map QueuedEvent.sequence⟩ ∧
          s'.toCore = s.toCore))) := by
  cases moves_of_step hs with
  | callFlush halive =>
    intro call hc
    obtain hm | hnew := List.mem_append.mp hc
    · exact Or.inl ⟨call, hm, .refl _ call⟩
    · exact Or.inr ⟨halive, Or.inl (List.mem_singleton.mp hnew)⟩
  | capture f call hf hpc hfree =>
    have halive := h.alive_of_flush hf (by rw [hpc]; rfl)
    intro other hc
    obtain hm | rfl := List.mem_or_eq_of_mem_set hc
    · exact Or.inl ⟨other, hm, .refl _ other⟩
    · exact Or.inr ⟨halive, Or.inr ⟨rfl, rfl⟩⟩
  | publish f call hf hpc =>
    refine fun other hc => Or.inl (continues_set hf ?_ ?_ other hc)
    · exact FlushPc.noConfusion
    · exact fun hp => by cases hp
  | flushNotify f call hf hpc =>
    refine fun other hc => Or.inl (continues_set hf ?_ ?_ other hc)
    · exact FlushPc.noConfusion
    · exact fun hp => by cases hp
  | barrier a f call pc owner wakers hf hout hstep =>
    refine fun other hc => Or.inl (continues_set hf ?_ hstep.covered other hc)
    cases hstep with
    | pending hp => obtain rfl | rfl | rfl | ⟨waker, rfl⟩ := hp <;> exact FlushPc.noConfusion
    | _ => exact FlushPc.noConfusion
  | queue s' hq =>
    rw [(queueStep_frame hq).flushes]
    exact fun call hc => Or.inl (continues_same _ call hc)
  | work s' hw =>
    intro call hc
    obtain he | he := (workerStep_frame hw).flushes
    · exact Or.inl (continues_same _ call (he ▸ hc))
    · exact Or.inl (continues_wake _ call (he ▸ hc))
  | writer outcome s' hw =>
    rw [(writerStep_frame hw).flushes]
    exact fun call hc => Or.inl (continues_same _ call hc)
  | _ => exact fun call hc => Or.inl (continues_same _ call hc)

/-- A barrier that has come to its errors has seen its target flushed. -/
def State.Covered (s : State) : Prop :=
  ∀ call ∈ s.flushes, call.pc.covered = true → call.target ≤ s.flushedSequence

theorem covered_initial : initial.Covered := by
  intro call hc
  cases hc

theorem covered_step {a : Action} (ho : s.Ordered) (hcalls : s.Calls) (h : s.Covered)
    (hs : step config s a = some s') : s'.Covered := by
  have hflushed := flushed_le_of_step ho hs
  intro call hc hp
  obtain ⟨old, hm, cont⟩ | ⟨-, rfl | ⟨rfl, -⟩⟩ := flushes_of_step hcalls hs call hc
  · rw [cont.target]
    obtain hcov | hle := cont.covered hp
    · exact (h old hm hcov).trans hflushed
    · exact hle.trans hflushed
  · cases hp
  · cases hp

/-- What every run keeps, whatever its steps. -/
structure State.Kept (s : State) : Prop where
  ordered : s.Ordered
  calls : s.Calls
  fresh : s.Fresh
  covered : s.Covered

theorem kept_initial : initial.Kept :=
  ⟨ordered_initial, calls_initial, fresh_initial, covered_initial⟩

theorem kept_step {a : Action} (h : s.Kept) (hs : step config s a = some s') : s'.Kept where
  ordered := ordered_step h.ordered hs
  calls := calls_step h.calls hs
  fresh := fresh_step h.ordered h.fresh hs
  covered := covered_step h.ordered h.calls h.covered hs

/-- An invariant of the runs whose steps meet a guard, on top of what every run keeps. -/
theorem invariant_of_reaches {ok : State → Action → Prop} {I : State → Prop}
    (hstep : ∀ s a s', s.Kept → I s → ok s a → step config s a = some s' → I s')
    (hinitial : I initial) (h : Transition.Reaches (step config) ok initial s) : s.Kept ∧ I s :=
  h.invariant_of (fun _ _ _ hk _ hs => kept_step hk hs) hstep kept_initial hinitial

end Logwise.AsyncSink
