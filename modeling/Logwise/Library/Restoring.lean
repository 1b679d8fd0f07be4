import Logwise.Library.Reentrant

/-!
# Programs that give back the state they found

A program that is re-entered only by programs that restore the state they found need not say what
the state is while it waits: it goes on where it left off. `Undisturbed` is the weakest
precondition in such an environment, and `balanced_step` carries it to the whole stack: every
program that waits may later go on as if nobody had called in between.
-/

namespace Reentrant

variable {σ ρ κ α β : Type} {answer : ρ → Type}

namespace Program

/-- Each request is made where `waits` allows it and answered in the state it was made in, and the
program returns as `post` says. -/
def Undisturbed (waits : ρ → σ → Prop) (post : α → σ → Prop) : Program σ answer α → σ → Prop
  | .pure value, s => post value s
  | .panic, _ => True
  | .get next, s => (next s).Undisturbed waits post s
  | .put s next, _ => next.Undisturbed waits post s
  | .ask request next, s => waits request s ∧ ∀ reply, (next reply).Undisturbed waits post s

variable {waits : ρ → σ → Prop} {post post' : α → σ → Prop} {s : σ}

@[simp] theorem undisturbed_pure {value : α} :
    (Pure.pure value : Program σ answer α).Undisturbed waits post s ↔ post value s := Iff.rfl

@[simp] theorem undisturbed_read {post : σ → σ → Prop} :
    (read : Program σ answer σ).Undisturbed waits post s ↔ post s s := Iff.rfl

@[simp] theorem undisturbed_modify {f : σ → σ} {post : Unit → σ → Prop} :
    (modify f : Program σ answer Unit).Undisturbed waits post s ↔ post () (f s) := Iff.rfl

@[simp] theorem undisturbed_request {r : ρ} {post : answer r → σ → Prop} :
    (request r : Program σ answer (answer r)).Undisturbed waits post s ↔
      waits r s ∧ ∀ reply, post reply s := Iff.rfl

@[simp] theorem undisturbed_bind {program : Program σ answer α} {f : α → Program σ answer β}
    {post : β → σ → Prop} : (program >>= f).Undisturbed waits post s ↔
      program.Undisturbed waits (fun value t => (f value).Undisturbed waits post t) s := by
  change (program.bind f).Undisturbed waits post s ↔ _
  induction program generalizing s with
  | pure value => rfl
  | panic => rfl
  | get next ih => exact ih s
  | put t next ih => exact ih
  | ask request next ih => exact and_congr_right fun _ => forall_congr' fun reply => ih reply

/-- Consequence: a weaker postcondition. -/
theorem Undisturbed.mono {program : Program σ answer α} (h : program.Undisturbed waits post s)
    (hle : ∀ value t, post value t → post' value t) : program.Undisturbed waits post' s := by
  induction program generalizing s with
  | pure value => exact hle value s h
  | panic => trivial
  | get next ih => exact ih s h
  | put t next ih => exact ih h
  | ask request next ih => exact ⟨h.1, fun reply => ih reply (h.2 reply)⟩

theorem undisturbed_advance {program : Program σ answer α} :
    (program.advance s).1.Undisturbed waits post (program.advance s).2 ↔
      program.Undisturbed waits post s := by
  induction program generalizing s with
  | get next ih => exact ih s
  | put t next ih => exact ih
  | _ => rfl

end Program

section Balanced

variable (waits : κ → σ → ρ → σ → Prop) (idle : σ → Prop)

/-- The program of `callback`, begun in the state `found`, gives that state back. -/
def Restores (callback : κ) (found : σ) (program : Program σ answer Unit) (s : σ) : Prop :=
  program.Undisturbed (waits callback found) (fun _ t => t = found) s

/-- Each program that waits began in the state in which the one below it waits. -/
def Balanced : List (Frame σ answer κ) → σ → Prop
  | [], s => idle s
  | frame :: below, s => ∃ found, waits frame.callback found frame.request s ∧
      (∀ reply, Restores waits frame.callback found (frame.next reply) s) ∧ Balanced below found

variable {waits idle}

theorem balanced_resume {callback : κ} {below : List (Frame σ answer κ)}
    {program : Program σ answer Unit} {found s : σ} {thread : Thread σ answer κ}
    (hbelow : Balanced waits idle below found) (hp : Restores waits callback found program s)
    (h : resume callback below program s = some thread) :
    Balanced waits idle thread.frames thread.locals := by
  have hadvance := Program.undisturbed_advance.mpr hp
  obtain ⟨hret, rfl⟩ | ⟨request, next, hask, rfl⟩ := resume_cases h
  · -- it returned, in the state the one below waits in
    rw [hret] at hadvance
    have hfound : (program.advance s).2 = found := hadvance
    rw [hfound]
    exact hbelow
  · rw [hask] at hadvance
    exact ⟨found, hadvance.1, hadvance.2, hbelow⟩

/-- **Well-nested calls**: a thread stays balanced as long as each program that is called gives
back the state it found. -/
theorem balanced_step {code : κ → Program σ answer Unit} {opens : ρ → Bool}
    {thread thread' : Thread σ answer κ} {a : Action answer κ}
    (hinv : Balanced waits idle thread.frames thread.locals)
    (hcode : ∀ callback, a = .call callback →
      Restores waits callback thread.locals (code callback) thread.locals)
    (h : step code opens thread a = some thread') :
    Balanced waits idle thread'.frames thread'.locals := by
  cases a with
  | call callback =>
    simp only [step] at h
    split at h
    · exact balanced_resume hinv (hcode callback rfl) h
    · cases h
  | reply answers =>
    simp only [step] at h
    split at h
    next frame below hframes =>
      rw [hframes] at hinv
      obtain ⟨found, -, hnext, hbelow⟩ := hinv
      exact balanced_resume hbelow (hnext _) h
    next => cases h

end Balanced

end Reentrant
