import Logwise.Sinks.Async.Parties

/-!
# Whoever waits for a barrier that is through gets its answer

A waiter may have tested too early and be asleep, or about to be. The worker, which then has still to
take the progress lock, wakes it, and it tests again.
-/

namespace Logwise.AsyncSink

open Transition (Behaviour Enabled Nears)

variable {config : Config} {s s' : State} {a : Action} {b : Behaviour (step config)}

/-- In a call of `wait` that has not returned. -/
def FlushPc.waits : FlushPc → Bool
  | .lockProgress | .parked => true
  | pc => pc.locksProgress

def FlushPc.answered : FlushPc → Bool
  | .resolved _ => true
  | _ => false

/-- The caller of `f` waits for its barrier. -/
def State.Waits (s : State) (f : ℕ) : Prop := ∃ call, s.flushes[f]? = some call ∧ call.pc.waits = true

/-- The barrier has given its answer. -/
def State.Replied (s : State) (f : ℕ) : Prop :=
  ∃ call, s.flushes[f]? = some call ∧ call.pc.answered = true

/-- A waiter's own step, if any, leaves it waiting or gives it the answer. -/
theorem waits_flushStep {f : ℕ} {call : FlushCall} (hwaits : call.pc.waits = true)
    (hs : flushStep f call s = some s') : ∃ new, s'.flushes = s.flushes.set f new ∧
      new.target = call.target ∧ (new.pc.waits = true ∨ new.pc.answered = true) := by
  obtain ⟨pc, target, captured⟩ := call
  cases pc with
  | lockProgress =>
    simp only [flushStep] at hs
    split at hs <;> cases hs
    exact ⟨_, rfl, rfl, Or.inl rfl⟩
  | loadFlushed use =>
    cases use with
    | polling waker registered => cases hwaits
    | waiting =>
      simp only [flushStep] at hs
      split at hs <;> cases hs <;> exact ⟨_, rfl, rfl, Or.inl rfl⟩
  | loadStopped use =>
    cases use with
    | polling waker registered => cases hwaits
    | waiting =>
      simp only [flushStep] at hs
      cases hs
      refine ⟨_, rfl, rfl, ?_⟩
      cases s.stopped
      · exact Or.inl rfl
      · exact Or.inr rfl
  | lockFlushError use =>
    cases use with
    | polling waker registered => cases hwaits
    | waiting =>
      cases hs
      exact ⟨_, rfl, rfl, Or.inl rfl⟩
  | lockWriteError use flushError =>
    cases use with
    | polling waker registered => cases hwaits
    | waiting =>
      cases hs
      exact ⟨_, rfl, rfl, Or.inr rfl⟩
  | park =>
    cases hs
    exact ⟨_, rfl, rfl, Or.inl rfl⟩
  | parked => cases hs
  | _ => cases hwaits

/-- What the others do to a waiter: at most they wake it. -/
theorem waiter_kept {f : ℕ} {call : FlushCall} (hf : s.flushes[f]? = some call)
    (hwaits : call.pc.waits = true) (ha : a ≠ .stepFlush f) (hs : step config s a = some s') :
    s'.flushes[f]? = some call ∨
      (call.pc = .parked ∧ s'.flushes[f]? = some { call with pc := .lockProgress }) := by
  have hin := (List.getElem?_eq_some_iff.mp hf).1
  cases barrierMove_of_step hs with
  | apart a s' hapart =>
    rw [hapart.flushes]
    exact Or.inl hf
  | called s' hflushes _ =>
    rw [hflushes, List.getElem?_append_left hin]
    exact Or.inl hf
  | stepped g other s' hg hflush =>
    have hne : g ≠ f := fun heq => ha (by rw [heq])
    obtain ⟨new, hflushes⟩ := flushes_flushStep hflush
    rw [hflushes, List.getElem?_set_ne hne]
    exact Or.inl hf
  | begun a g other pc hg hheld hpc =>
    have hne : g ≠ f := by
      rintro rfl
      cases hf.symm.trans hg
      rw [hheld] at hwaits
      cases hwaits
    exact Or.inl ((List.getElem?_set_ne hne).trans hf)
  | roused a g other hg hparked =>
    by_cases hg' : g = f
    · subst hg'
      cases hf.symm.trans hg
      exact Or.inr ⟨hparked, Slots.getElem?_set_of_some hg⟩
    · exact Or.inl ((List.getElem?_set_ne hg').trans hf)
  | woken s' _ _ _ hflushes =>
    rw [hflushes, List.getElem?_map, hf]
    obtain ⟨pc, target, captured⟩ := call
    cases pc with
    | parked => exact Or.inr ⟨rfl, rfl⟩
    | _ => exact Or.inl rfl

theorem waits_step {f : ℕ} (h : s.Waits f) (hs : step config s a = some s') :
    s'.Waits f ∨ s'.Replied f := by
  obtain ⟨call, hf, hwaits⟩ := h
  by_cases ha : a = .stepFlush f
  · rw [ha] at hs
    obtain ⟨other, hother, hflush⟩ := Option.bind_eq_some_iff.mp hs
    cases hf.symm.trans hother
    obtain ⟨new, hflushes, -, hnew⟩ := waits_flushStep hwaits hflush
    have hplace : s'.flushes[f]? = some new := hflushes ▸ Slots.getElem?_set_of_some hf
    exact hnew.imp (fun hw => ⟨new, hplace, hw⟩) fun hw => ⟨new, hplace, hw⟩
  · obtain hsame | ⟨-, hwoken⟩ := waiter_kept hf hwaits ha hs
    · exact Or.inl ⟨call, hsame, hwaits⟩
    · exact Or.inl ⟨_, hwoken, rfl⟩

/-- An answer stays. -/
theorem answer_kept {f : ℕ} (h : s.Replied f) (hs : step config s a = some s') :
    s'.Replied f := by
  obtain ⟨⟨pc, target, captured⟩, hf, hanswered⟩ := h
  cases pc with
  | resolved result =>
    have hin := (List.getElem?_eq_some_iff.mp hf).1
    refine ⟨⟨.resolved result, target, captured⟩, ?_, rfl⟩
    cases barrierMove_of_step hs with
    | apart a s' hapart =>
      rw [hapart.flushes]
      exact hf
    | called s' hflushes _ =>
      rw [hflushes, List.getElem?_append_left hin]
      exact hf
    | stepped g other s' hg hflush =>
      have hne : g ≠ f := by
        rintro rfl
        cases hf.symm.trans hg
        cases hflush
      obtain ⟨new, hflushes⟩ := flushes_flushStep hflush
      rw [hflushes, List.getElem?_set_ne hne]
      exact hf
    | begun a g other pc hg hheld hpc =>
      have hne : g ≠ f := by
        rintro rfl
        cases hf.symm.trans hg
        cases hheld
      exact (List.getElem?_set_ne hne).trans hf
    | roused a g other hg hparked =>
      have hne : g ≠ f := by
        rintro rfl
        cases hf.symm.trans hg
        cases hparked
      exact (List.getElem?_set_ne hne).trans hf
    | woken s' _ _ _ hflushes =>
      rw [hflushes, List.getElem?_map, hf]
      rfl
  | _ => cases hanswered

/-- Later on the waiter waits still, or has had its answer. -/
theorem waits_later {f n m : ℕ} (h : (b.state n).Waits f) (hle : n ≤ m) :
    (b.state m).Waits f ∨ ∃ k, n ≤ k ∧ (b.state k).Replied f := by
  induction m, hle using Nat.le_induction with
  | base => exact Or.inl h
  | succ m hle ih =>
    obtain hwaits | hanswered := ih
    · cases ha : b.action m with
      | none =>
        rw [b.pauses m ha]
        exact Or.inl hwaits
      | some a =>
        obtain hstill | hdone := waits_step hwaits (b.moves m a ha)
        · exact Or.inl hstill
        · exact Or.inr ⟨m + 1, Nat.le_succ_of_le hle, hdone⟩
    · exact Or.inr hanswered

/-! ## Whose answer is there -/

/-- Were the barrier to test now, it would have its answer. -/
def FlushCall.Through (s : State) (call : FlushCall) : Prop :=
  call.target ≤ s.flushedSequence ∨ s.stopped = true

theorem stopped_step (hs : step config s a = some s') (h : s.stopped = true) :
    s'.stopped = true := by
  cases moves_of_step hs with
  | queue s' hq => exact (queueStep_frame hq).stopped.trans h
  | work s' hw => exact (workerStep_frame hw).stopped h
  | writer outcome s' hw => exact (writerStep_frame hw).stopped.trans h
  | _ => exact h

theorem FlushCall.Through.step {call : FlushCall} (h : call.Through s) (ho : s.Ordered)
    (hs : step config s a = some s') : call.Through s' :=
  h.imp (fun hle => hle.trans (flushed_le_of_step ho hs)) (stopped_step hs)

/-- Whoever has tested too early, and sleeps or is about to, is still to be woken. -/
structure State.Heeded (s : State) : Prop where
  dozing : ∀ (f : ℕ) (call : FlushCall), s.flushes[f]? = some call → call.pc.dozing = true →
    s.flushedSequence < call.target ∨ s.worker.unnotified = true
  asleep : ∀ (f : ℕ) (call : FlushCall), s.flushes[f]? = some call → call.pc.asleep = true →
    s.stopped = false ∨ s.worker.unnotified = true

theorem heeded_of_reaches {ok : State → Action → Prop}
    (h : Transition.Reaches (step config) ok initial s) : s.Heeded := by
  obtain ⟨w, hw, rfl⟩ := watched_of_reaches h
  have hall := hw.invariant_of (I := fun w => w.state.Ordered) (J := Watched.Attentive)
    (fun v a u ho _ hs => ?_) (fun v a u ho h _ hs => Watched.attentive_step ho h hs)
    ordered_initial Watched.attentive_initial
  · refine ⟨fun f call hf hd => ?_, fun f call hf ha => ?_⟩
    · exact ((hall.2.calls f call hf).dozing hd).imp_right And.right
    · exact ((hall.2.calls f call hf).asleep ha).imp_right And.right
  · obtain ⟨s', hstep, rfl⟩ := Option.map_eq_some_iff.mp hs
    exact ordered_step ho hstep

/-- The waiter will find its answer. -/
structure FlushCall.Rising (s : State) (call : FlushCall) : Prop where
  waits : call.pc.waits = true
  through : call.Through s
  awake : call.pc.asleep = false
  stopped : call.pc = .loadStopped .waiting → s.stopped = true

/-- The steps of such a waiter lead to its answer. -/
theorem rising_flushStep {f : ℕ} {call : FlushCall} (h : call.Rising s)
    (hs : flushStep f call s = some s') : ∃ new, s'.flushes = s.flushes.set f new ∧
      (new.pc.answered = true ∨ (new.Rising s' ∧ new.pc.left < call.pc.left)) := by
  obtain ⟨hwaits, hthrough, hawake, hstopped⟩ := h
  obtain ⟨pc, target, captured⟩ := call
  have hon : ∀ {new : FlushCall} {t : State}, t.flushes = s.flushes.set f new → new.Rising t →
      new.pc.left < pc.left → ∃ new, t.flushes = s.flushes.set f new ∧
        (new.pc.answered = true ∨ (new.Rising t ∧ new.pc.left < pc.left)) :=
    fun hflushes hrising hlt => ⟨_, hflushes, Or.inr ⟨hrising, hlt⟩⟩
  cases pc with
  | lockProgress =>
    simp only [flushStep] at hs
    split at hs <;> cases hs
    exact hon rfl ⟨rfl, hthrough, rfl, FlushPc.noConfusion⟩ (by decide : 4 < 5)
  | loadFlushed use =>
    cases use with
    | polling waker registered => cases hwaits
    | waiting =>
      simp only [flushStep] at hs
      split at hs
      next hlt =>
        cases hs
        have hhalted := hthrough.resolve_left (not_le.mpr hlt)
        exact hon rfl ⟨rfl, hthrough, rfl, fun _ => hhalted⟩ (by decide : 3 < 4)
      next =>
        cases hs
        exact hon rfl ⟨rfl, hthrough, rfl, FlushPc.noConfusion⟩ (by decide : 3 < 4)
  | loadStopped use =>
    cases use with
    | polling waker registered => cases hwaits
    | waiting =>
      simp only [flushStep, hstopped rfl, if_true] at hs
      cases hs
      exact ⟨_, rfl, Or.inl rfl⟩
  | lockFlushError use =>
    cases use with
    | polling waker registered => cases hwaits
    | waiting =>
      cases hs
      exact hon rfl ⟨rfl, hthrough, rfl, FlushPc.noConfusion⟩ (by decide : 2 < 3)
  | lockWriteError use flushError =>
    cases use with
    | polling waker registered => cases hwaits
    | waiting =>
      cases hs
      exact ⟨_, rfl, Or.inl rfl⟩
  | park | parked => cases hawake
  | _ => cases hwaits

/-- The waiter at `f` waits for what is there. -/
def State.Due (s : State) (f : ℕ) : Prop :=
  ∃ call, s.flushes[f]? = some call ∧ call.pc.waits = true ∧ call.Through s

def State.Rises (s : State) (f : ℕ) : Prop := ∃ call, s.flushes[f]? = some call ∧ call.Rising s

/-- What the rules below rely on. -/
structure State.Watchful (s : State) : Prop where
  ordered : s.Ordered
  guarded : s.Guarded
  heeded : s.Heeded

/-- Who has tested too early has the worker still on its way to the progress lock. -/
theorem rises_or_unnotified (h : s.Watchful) {f : ℕ} (hdue : s.Due f) :
    s.Rises f ∨ s.worker.unnotified = true := by
  obtain ⟨call, hf, hwaits, hthrough⟩ := hdue
  by_cases hn : s.worker.unnotified = true
  · exact Or.inr hn
  refine Or.inl ⟨call, hf, hwaits, hthrough, ?_, fun hpc => ?_⟩
  · refine Bool.eq_false_of_not_eq_true fun hasleep => ?_
    have hrunning := (h.heeded.asleep f call hf hasleep).resolve_right hn
    have hdozing : call.pc.dozing = true := by
      cases hpc : call.pc <;> rw [hpc] at hasleep <;> first | rfl | cases hasleep
    have hlt := (h.heeded.dozing f call hf hdozing).resolve_right hn
    obtain hle | hstopped := hthrough
    · exact absurd hlt (not_lt.mpr hle)
    · rw [hstopped] at hrunning
      cases hrunning
  · refine hthrough.resolve_left (not_le.mpr ?_)
    exact (h.heeded.dozing f call hf (by rw [hpc]; rfl)).resolve_right hn

theorem due_step (ho : s.Ordered) {f : ℕ} (h : s.Due f) (hs : step config s a = some s') :
    s'.Due f ∨ s'.Replied f := by
  obtain ⟨call, hf, hwaits, hthrough⟩ := h
  by_cases ha : a = .stepFlush f
  · have hlater := hthrough.step ho hs
    rw [ha] at hs
    obtain ⟨other, hother, hflush⟩ := Option.bind_eq_some_iff.mp hs
    cases hf.symm.trans hother
    obtain ⟨new, hflushes, htarget, hnew⟩ := waits_flushStep hwaits hflush
    have hplace : s'.flushes[f]? = some new := hflushes ▸ Slots.getElem?_set_of_some hf
    refine hnew.imp (fun hw => ⟨new, hplace, hw, ?_⟩) fun hw => ⟨new, hplace, hw⟩
    rw [FlushCall.Through, htarget]
    exact hlater
  · have hlater := hthrough.step ho hs
    obtain hsame | ⟨-, hwoken⟩ := waiter_kept hf hwaits ha hs
    · exact Or.inl ⟨call, hsame, hwaits, hlater⟩
    · exact Or.inl ⟨_, hwoken, rfl, hlater⟩

theorem rises_step (ho : s.Ordered) {f : ℕ} (h : s.Rises f) (hs : step config s a = some s') :
    s'.Replied f ∨ (s'.Rises f ∧ s'.barrierLeft f ≤ s.barrierLeft f ∧
      (a = .stepFlush f → s'.barrierLeft f < s.barrierLeft f)) := by
  obtain ⟨call, hf, hrising⟩ := h
  rw [s.barrierLeft_of hf]
  by_cases ha : a = .stepFlush f
  · rw [ha] at hs
    obtain ⟨other, hother, hflush⟩ := Option.bind_eq_some_iff.mp hs
    cases hf.symm.trans hother
    obtain ⟨new, hflushes, hnew⟩ := rising_flushStep hrising hflush
    have hplace : s'.flushes[f]? = some new := hflushes ▸ Slots.getElem?_set_of_some hf
    rw [s'.barrierLeft_of hplace]
    refine hnew.imp (fun hw => ⟨new, hplace, hw⟩) fun hw => ?_
    exact ⟨⟨new, hplace, hw.1⟩, hw.2.le, fun _ => hw.2⟩
  · obtain hsame | ⟨hparked, -⟩ := waiter_kept hf hrising.waits ha hs
    · rw [s'.barrierLeft_of hsame]
      refine Or.inr ⟨⟨call, hsame, hrising.waits, hrising.through.step ho hs, hrising.awake,
        fun hpc => stopped_step hs (hrising.stopped hpc)⟩, le_refl _, fun h => absurd h ha⟩
    · have hawake := hrising.awake
      rw [hparked] at hawake
      cases hawake

variable {ok : State → Action → Prop} {I : State → Prop}

/-- A waiter that has still to take the progress lock keeps still while somebody else has it. -/
theorem lockProgress_kept {f : ℕ} {call : FlushCall} (hf : s.flushes[f]? = some call)
    (hpc : call.pc = .lockProgress) (hlocked : s.progressOwner ≠ none)
    (hs : step config s a = some s') : s'.flushes[f]? = some call := by
  by_cases ha : a = .stepFlush f
  · rw [ha] at hs
    obtain ⟨other, hother, hflush⟩ := Option.bind_eq_some_iff.mp hs
    cases hf.symm.trans hother
    simp only [flushStep, hpc, if_neg hlocked] at hflush
    cases hflush
  · obtain hsame | ⟨hparked, -⟩ := waiter_kept hf (by rw [hpc]; rfl) ha hs
    · exact hsame
    · cases hparked.symm.trans hpc

theorem leadsTo_answered_of_rises (hfair : FairToAll b) (hok : b.Admits ok)
    (hI : ∀ n, (b.state n).Watchful) (f : ℕ) :
    b.LeadsTo (fun s => s.Rises f) fun s => s.Replied f := by
  refine Behaviour.leadsTo_of_fair (fun s => s.barrierLeft f) ?_ (hfair (.flusher f)) hok hI ?_
  · intro s a t hinv _ hduring _ _ hs
    refine (rises_step hinv.ordered hduring hs).imp_right fun hnext => ?_
    refine ⟨hnext.1, hnext.2.1, fun hturn => hnext.2.2 ?_⟩
    exact hturn.resolve_right fun hqueue => hqueue.2
  · intro n hn
    obtain ⟨call, hf, hrising⟩ := hn
    -- at the lock it may have to wait, past it nothing can stop it
    by_cases hlocks : call.pc.locksProgress = true
    · have howner := ((hI n).guarded f).mpr (((b.state n).locks_of hf).trans hlocks)
      obtain ⟨t, ht, -⟩ := owner_flushStep hlocks howner hf
      exact ⟨n, le_refl n, Or.inr ⟨.stepFlush f, t, Or.inl rfl,
        Option.bind_eq_some_iff.mpr ⟨call, hf, ht⟩⟩⟩
    · have hpc : call.pc = .lockProgress := by
        have hwaits := hrising.waits
        have hawake := hrising.awake
        cases hp : call.pc with
        | lockProgress => rfl
        | parked =>
          rw [hp] at hawake
          cases hawake
        | _ =>
          rw [hp] at hwaits hlocks
          exact absurd hwaits hlocks
      have henabled : ∀ s : State, s.flushes[f]? = some call → s.progressOwner = none →
          Enabled (step config) (Party.flusher f).turn s := by
        intro s hf hfree
        have hlock : ∃ t, flushStep f call s = some t := by
          simp only [flushStep, hpc, if_pos hfree]
          exact ⟨_, rfl⟩
        obtain ⟨t, ht⟩ := hlock
        exact ⟨.stepFlush f, t, Or.inl rfl, Option.bind_eq_some_iff.mpr ⟨call, hf, ht⟩⟩
      by_cases hfree : (b.state n).progressOwner = none
      · exact ⟨n, le_refl n, Or.inr (henabled _ hf hfree)⟩
      · obtain ⟨m, hle, hfree, hf⟩ := leadsTo_unlocked hfair hok hI (fun s h => h.guarded)
          (fun s a t _ hP hlocked _ hs => lockProgress_kept hP hpc hlocked hs) n ⟨hfree, hf⟩
        exact ⟨m, hle, Or.inr (henabled _ hf hfree)⟩

/-- On its way to the progress lock the worker has one step to make before it is there. -/
theorem unnotified_step (ho : s.Ordered) (hn : s.worker.unnotified = true)
    (hn' : s'.worker.unnotified = true) (hs : step config s a = some s') :
    (¬ Party.worker.turn s a ∧ s'.worker = s.worker) ∨
      (s.worker = .storeStopped ∧ s'.worker = .notifyProgress .terminated) := by
  have hparked : s.worker ≠ .parked := by
    intro hp
    rw [hp] at hn
    cases hn
  by_cases hturn : Party.worker.turn s a
  · obtain (hwork | ⟨outcome, hwriter⟩) | ⟨-, hholds⟩ := hturn
    · rw [hwork] at hs
      have hstep : workerStep s s.worker = some s' := hs
      cases hw : s.worker with
      | storeStopped =>
        simp only [hw, workerStep] at hstep
        cases hstep
        exact Or.inr ⟨rfl, rfl⟩
      | notifyProgress next =>
        simp only [hw, workerStep] at hstep
        split at hstep <;> cases hstep
        cases hn'
      | _ =>
        rw [hw] at hn
        cases hn
    · rw [hwriter] at hs
      have hstep : writerStep s outcome s.worker = some s' := hs
      cases hw : s.worker with
      | storeStopped | notifyProgress next =>
        rw [hw] at hstep
        cases hstep
      | _ =>
        rw [hw] at hn
        cases hn
    · rw [ho.inside.mp hholds] at hn
      cases hn
  · exact Or.inl ⟨hturn, worker_kept hparked hturn hs⟩

/-- The worker's steps to the progress lock, once it is on its way. -/
def WorkerPc.toNotify : WorkerPc → ℕ
  | .storeStopped => 1
  | _ => 0

theorem leadsTo_rises (hfair : FairToAll b) (hok : b.Admits ok)
    (hI : ∀ n, (b.state n).Watchful) (f : ℕ) :
    b.LeadsTo (fun s => s.Due f) fun s => s.Rises f ∨ s.Replied f := by
  refine Behaviour.leadsTo_of_fair (fun s => s.worker.toNotify) ?_ (hfair .worker) hok hI ?_
  · intro s a t hinv hinv' hduring hgoal _ hs
    obtain hdue | hanswered := due_step hinv.ordered hduring hs
    · obtain hrises | hn' := rises_or_unnotified hinv' hdue
      · exact Or.inl (Or.inl hrises)
      have hn := (rises_or_unnotified hinv hduring).resolve_left fun h => hgoal (Or.inl h)
      obtain ⟨hturn, hsame⟩ | ⟨hbefore, hafter⟩ := unnotified_step hinv.ordered hn hn' hs
      · refine Or.inr ⟨hdue, ?_, fun hmine => absurd hmine hturn⟩
        simp only [hsame, le_refl]
      · have hlt : t.worker.toNotify < s.worker.toNotify := by
          rw [hbefore, hafter]
          exact Nat.zero_lt_one
        exact Or.inr ⟨hdue, hlt.le, fun _ => hlt⟩
    · exact Or.inl (Or.inr hanswered)
  · intro n hn
    have hable : ∀ m, (b.state m).Due f → (b.state m).progressOwner = none →
        ((b.state m).Rises f ∨ (b.state m).Replied f) ∨
          Enabled (step config) Party.worker.turn (b.state m) := by
      intro m hdue hfree
      obtain hrises | hunnotified := rises_or_unnotified (hI m) hdue
      · exact Or.inl (Or.inl hrises)
      · refine Or.inr ((worker_enabled config (hI m).ordered ?_ ?_).resolve_right ?_)
        · exact fun hw => by rw [hw] at hunnotified; cases hunnotified
        · exact fun hw => by rw [hw] at hunnotified; cases hunnotified
        · rintro (⟨-, hw | ⟨processed, hw⟩⟩ | ⟨hlocked, -⟩)
          · rw [hw] at hunnotified
            cases hunnotified
          · rw [hw] at hunnotified
            cases hunnotified
          · exact hlocked hfree
    by_cases hfree : (b.state n).progressOwner = none
    · exact ⟨n, le_refl n, hable n hn hfree⟩
    · have hstays : ∀ s a t, s.Watchful → s.Due f ∨ s.Replied f → s.progressOwner ≠ none →
          ok s a → step config s a = some t → t.Due f ∨ t.Replied f := by
        intro s a t hinv hP _ _ hs
        obtain hdue | hanswered := hP
        · exact due_step hinv.ordered hdue hs
        · exact Or.inr (answer_kept hanswered hs)
      obtain ⟨m, hle, hfree, hdue | hanswered⟩ := leadsTo_unlocked hfair hok hI
        (fun s h => h.guarded) hstays n ⟨hfree, Or.inl hn⟩
      · exact ⟨m, hle, hable m hdue hfree⟩
      · exact ⟨m, hle, Or.inl (Or.inr hanswered)⟩

/-- **A barrier that is through is answered.** -/
theorem leadsTo_answered (hfair : FairToAll b) (hok : b.Admits ok)
    (hI : ∀ n, (b.state n).Watchful) (f : ℕ) :
    b.LeadsTo (fun s => s.Due f) fun s => s.Replied f := by
  intro n hn
  obtain ⟨m, hle, hrises | hanswered⟩ := leadsTo_rises hfair hok hI f n hn
  · obtain ⟨k, hmk, hanswered⟩ := leadsTo_answered_of_rises hfair hok hI f m hrises
    exact ⟨k, hle.trans hmk, hanswered⟩
  · exact ⟨m, hle, hanswered⟩

end Logwise.AsyncSink
