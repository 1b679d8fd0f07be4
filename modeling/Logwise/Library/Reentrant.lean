import Logwise.Library.Transition
import Mathlib.Logic.Function.Basic

/-!
# Programs that are re-entered while they wait

A program runs on the state of one thread and asks its environment for answers. While it waits,
the environment may call any program on the same thread, and that one must return before the
first goes on. `Within` is the weakest precondition of a program that finds and leaves an
invariant whenever it waits; `stack_step` carries it to a whole stack of waiting programs.
-/

namespace Reentrant

variable {σ ρ κ α β : Type} {answer : ρ → Type}

inductive Program (σ : Type) {ρ : Type} (answer : ρ → Type) (α : Type) where
  | pure (value : α)
  | panic
  | get (next : σ → Program σ answer α)
  | put (state : σ) (next : Program σ answer α)
  | ask (request : ρ) (next : answer request → Program σ answer α)

namespace Program

def bind : Program σ answer α → (α → Program σ answer β) → Program σ answer β
  | .pure value, f => f value
  | .panic, _ => .panic
  | .get next, f => .get fun s => (next s).bind f
  | .put s next, f => .put s (next.bind f)
  | .ask request next, f => .ask request fun reply => (next reply).bind f

instance : Monad (Program σ answer) where
  pure := Program.pure
  bind := Program.bind

def read : Program σ answer σ := .get .pure

def modify (f : σ → σ) : Program σ answer Unit := .get fun s => .put (f s) (.pure ())

def request (r : ρ) : Program σ answer (answer r) := .ask r .pure

/-- Run up to the next request: what is left of the program, and the state. -/
def advance : Program σ answer α → σ → Program σ answer α × σ
  | .get next, s => (next s).advance s
  | .put s next, _ => next.advance s
  | program, s => (program, s)

/-- From state `s` the program keeps `I` whenever it waits, provided its environment does, and
returns in a state that satisfies `post`. -/
def Within (I : σ → Prop) (post : α → σ → Prop) : Program σ answer α → σ → Prop
  | .pure value, s => post value s
  | .panic, _ => True
  | .get next, s => (next s).Within I post s
  | .put s next, _ => next.Within I post s
  | .ask _ next, s => I s ∧ ∀ t, I t → ∀ reply, (next reply).Within I post t

variable {I : σ → Prop} {post post' : α → σ → Prop} {s : σ}

@[simp] theorem within_pure {value : α} :
    (Pure.pure value : Program σ answer α).Within I post s ↔ post value s := Iff.rfl

@[simp] theorem within_panic :
    (Program.panic : Program σ answer α).Within I post s ↔ True := Iff.rfl

@[simp] theorem within_read {post : σ → σ → Prop} :
    (read : Program σ answer σ).Within I post s ↔ post s s := Iff.rfl

@[simp] theorem within_modify {f : σ → σ} {post : Unit → σ → Prop} :
    (modify f : Program σ answer Unit).Within I post s ↔ post () (f s) := Iff.rfl

@[simp] theorem within_request {r : ρ} {post : answer r → σ → Prop} :
    (request r : Program σ answer (answer r)).Within I post s ↔
      I s ∧ ∀ t, I t → ∀ reply, post reply t := Iff.rfl

@[simp] theorem within_bind {program : Program σ answer α} {f : α → Program σ answer β}
    {post : β → σ → Prop} : (program >>= f).Within I post s ↔
      program.Within I (fun value t => (f value).Within I post t) s := by
  change (program.bind f).Within I post s ↔ _
  induction program generalizing s with
  | pure value => rfl
  | panic => rfl
  | get next ih => exact ih s
  | put t next ih => exact ih
  | ask request next ih =>
    exact and_congr_right fun _ => forall_congr' fun t => imp_congr_right fun _ =>
      forall_congr' fun reply => ih reply

/-- Consequence: a weaker postcondition. -/
theorem Within.mono {program : Program σ answer α} (h : program.Within I post s)
    (hle : ∀ value t, post value t → post' value t) : program.Within I post' s := by
  induction program generalizing s with
  | pure value => exact hle value s h
  | panic => trivial
  | get next ih => exact ih s h
  | put t next ih => exact ih h
  | ask request next ih => exact ⟨h.1, fun t ht reply => ih reply (h.2 t ht reply)⟩

/-- Sequencing, with the state between the two programs described by `mid`. -/
theorem Within.bind {mid : α → σ → Prop} {post : β → σ → Prop} {program : Program σ answer α}
    {f : α → Program σ answer β} (h : program.Within I mid s)
    (hf : ∀ value t, mid value t → (f value).Within I post t) :
    (program >>= f).Within I post s :=
  within_bind.mpr (h.mono hf)

theorem within_advance {program : Program σ answer α} :
    (program.advance s).1.Within I post (program.advance s).2 ↔ program.Within I post s := by
  induction program generalizing s with
  | get next ih => exact ih s
  | put t next ih => exact ih
  | _ => rfl

/-- Run to the end in an environment with state `τ` that answers every request at once and calls
nothing back; `none` is a panic or a request it does not answer. -/
def answered {τ : Type} (handle : (r : ρ) → τ → Option (answer r × τ)) :
    Program σ answer α → σ → τ → Option (α × σ × τ)
  | .pure value, s, t => some (value, s, t)
  | .panic, _, _ => none
  | .get next, s, t => (next s).answered handle s t
  | .put s next, _, t => next.answered handle s t
  | .ask request next, s, t =>
    (handle request t).bind fun (reply, t) => (next reply).answered handle s t

section Answered

variable {τ : Type} {handle : (r : ρ) → τ → Option (answer r × τ)} {t : τ}

@[simp] theorem answered_pure {value : α} :
    (Pure.pure value : Program σ answer α).answered handle s t = some (value, s, t) := rfl

@[simp] theorem answered_read :
    (read : Program σ answer σ).answered handle s t = some (s, s, t) := rfl

@[simp] theorem answered_modify {f : σ → σ} :
    (modify f : Program σ answer Unit).answered handle s t = some ((), f s, t) := rfl

@[simp] theorem answered_request {r : ρ} :
    (request r : Program σ answer (answer r)).answered handle s t =
      (handle r t).map fun (reply, t) => (reply, s, t) := by
  show (handle r t).bind _ = _
  cases handle r t <;> rfl

@[simp] theorem answered_bind {program : Program σ answer α} {f : α → Program σ answer β} :
    (program >>= f).answered handle s t =
      (program.answered handle s t).bind fun (value, s, t) => (f value).answered handle s t := by
  show (program.bind f).answered handle s t = _
  induction program generalizing s t with
  | pure value => rfl
  | panic => rfl
  | get next ih => exact ih s
  | put s next ih => exact ih
  | ask request next ih =>
    show (handle request t).bind _ = ((handle request t).bind _).bind _
    rw [Option.bind_assoc]
    congr 1
    funext answered
    exact ih answered.1

end Answered

/-- The program keeps `I`, also while it waits. -/
def Keeps (I : σ → Prop) (program : Program σ answer α) : Prop :=
  ∀ s, I s → program.Within I (fun _ => I) s

theorem keeps_pure (value : α) : (Pure.pure value : Program σ answer α).Keeps I := fun _ h => h

theorem keeps_panic : (Program.panic : Program σ answer α).Keeps I := fun _ _ => trivial

theorem keeps_request (r : ρ) : (request r : Program σ answer (answer r)).Keeps I :=
  fun _ h => ⟨h, fun _ ht _ => ht⟩

theorem keeps_modify {f : σ → σ} (h : ∀ s, I s → I (f s)) :
    (modify f : Program σ answer Unit).Keeps I := h

theorem Keeps.bind {program : Program σ answer α} {f : α → Program σ answer β}
    (h : program.Keeps I) (hf : ∀ value, (f value).Keeps I) : (program >>= f).Keeps I :=
  fun s hs => (h s hs).bind fun value t ht => hf value t ht

/-- What is read is a state in which the invariant holds. -/
theorem keeps_read_bind {f : σ → Program σ answer α} (h : ∀ s, I s → (f s).Keeps I) :
    (read >>= f).Keeps I := fun s hs => h s hs s hs

end Program

/-- A program waiting for an answer. -/
structure Frame (σ : Type) (answer : ρ → Type) (κ : Type) where
  callback : κ
  request : ρ
  next : answer request → Program σ answer Unit

/-- The state of a thread and what waits on it, innermost first. -/
structure Thread (σ : Type) (answer : ρ → Type) (κ : Type) where
  locals : σ
  frames : List (Frame σ answer κ)

inductive Action {ρ : Type} (answer : ρ → Type) (κ : Type) where
  | call (callback : κ)
  /-- The innermost program has its answer, whatever it asked. -/
  | reply (answers : (request : ρ) → answer request)

/-- Run `program` on top of the frames `below` until it waits or returns; a panic ends the run. -/
def resume (callback : κ) (below : List (Frame σ answer κ)) (program : Program σ answer Unit)
    (s : σ) : Option (Thread σ answer κ) :=
  match program.advance s with
  | (.pure (), s) => some ⟨s, below⟩
  | (.ask request next, s) => some ⟨s, ⟨callback, request, next⟩ :: below⟩
  | _ => none

/-- `opens request` says that user code runs until the request is answered. -/
def step (code : κ → Program σ answer Unit) (opens : ρ → Bool) (thread : Thread σ answer κ) :
    Action answer κ → Option (Thread σ answer κ)
  | .call callback =>
    if thread.frames.head?.all fun frame => opens frame.request then
      resume callback thread.frames (code callback) thread.locals
    else none
  | .reply answers =>
    match thread.frames with
    | frame :: below =>
      resume frame.callback below (frame.next (answers frame.request)) thread.locals
    | [] => none

/-- Either the program returned, or it waits on top of the others. -/
theorem resume_cases {callback : κ} {below : List (Frame σ answer κ)}
    {program : Program σ answer Unit} {s : σ} {thread : Thread σ answer κ}
    (h : resume callback below program s = some thread) :
    (program.advance s).1 = .pure () ∧ thread = ⟨(program.advance s).2, below⟩ ∨
      ∃ request next, (program.advance s).1 = .ask request next ∧
        thread = ⟨(program.advance s).2, ⟨callback, request, next⟩ :: below⟩ := by
  unfold resume at h
  split at h
  next t heq =>
    cases h
    rw [heq]
    exact Or.inl ⟨rfl, rfl⟩
  next request next t heq =>
    cases h
    rw [heq]
    exact Or.inr ⟨request, next, rfl, rfl⟩
  next => cases h

/-- **A program that is answered at once** is one that is called and then given its answers. -/
theorem exists_run_of_answered {τ : Type} {handle : (r : ρ) → τ → Option (answer r × τ)} {t t' : τ}
    {s s' : σ} {callback : κ} {below : List (Frame σ answer κ)} {program : Program σ answer Unit}
    (code : κ → Program σ answer Unit) (opens : ρ → Bool) (others : (r : ρ) → answer r)
    (h : program.answered handle s t = some ((), s', t')) :
    ∃ (thread : Thread σ answer κ) (replies : List ((r : ρ) → answer r)),
      resume callback below program s = some thread ∧
        Transition.run (step code opens) thread (replies.map Action.reply) = some ⟨s', below⟩ := by
  classical
  induction program generalizing s t with
  | pure value =>
    cases h
    exact ⟨_, [], rfl, rfl⟩
  | panic => cases h
  | get next ih => exact ih s h
  | put s next ih => exact ih h
  | ask request next ih =>
    obtain ⟨⟨reply, t₁⟩, -, hnext⟩ := Option.bind_eq_some_iff.mp h
    obtain ⟨thread, replies, hresume, hrun⟩ := ih reply hnext
    refine ⟨_, Function.update others request reply :: replies, rfl, ?_⟩
    rw [List.map_cons, Transition.run]
    simp only [step, Function.update_self, hresume]
    exact hrun

section Stack

variable (I : κ → σ → Prop) (idle : σ → Prop)

/-- The invariant of whatever runs on when the innermost program returns. -/
def Resumes : List (Frame σ answer κ) → σ → Prop
  | [] => idle
  | frame :: _ => I frame.callback

/-- Every frame keeps its own invariant and hands the one below back. -/
def Stack : List (Frame σ answer κ) → Prop
  | [] => True
  | frame :: below => (∀ s, I frame.callback s → ∀ reply,
      (frame.next reply).Within (I frame.callback) (fun _ => Resumes I idle below) s) ∧ Stack below

variable {I idle}

theorem stack_resume {callback : κ} {below : List (Frame σ answer κ)}
    {program : Program σ answer Unit} {s : σ} {thread : Thread σ answer κ}
    (hbelow : Stack I idle below)
    (hp : program.Within (I callback) (fun _ => Resumes I idle below) s)
    (h : resume callback below program s = some thread) :
    Resumes I idle thread.frames thread.locals ∧ Stack I idle thread.frames := by
  have hadvance := Program.within_advance.mpr hp
  obtain ⟨hret, rfl⟩ | ⟨request, next, hask, rfl⟩ := resume_cases h
  · rw [hret] at hadvance
    exact ⟨hadvance, hbelow⟩
  · rw [hask] at hadvance
    exact ⟨hadvance.1, hadvance.2, hbelow⟩

/-- **Rely and guarantee**: a thread keeps its invariants as long as each program that is called
keeps its own and gives back the one it found. -/
theorem stack_step {code : κ → Program σ answer Unit} {opens : ρ → Bool}
    {thread thread' : Thread σ answer κ} {a : Action answer κ}
    (hinv : Resumes I idle thread.frames thread.locals ∧ Stack I idle thread.frames)
    (hcall : ∀ callback, a = .call callback → (code callback).Within (I callback)
      (fun _ => Resumes I idle thread.frames) thread.locals)
    (h : step code opens thread a = some thread') :
    Resumes I idle thread'.frames thread'.locals ∧ Stack I idle thread'.frames := by
  cases a with
  | call callback =>
    simp only [step] at h
    split at h
    · exact stack_resume hinv.2 (hcall callback rfl) h
    · cases h
  | reply answers =>
    simp only [step] at h
    split at h
    next frame below hframes =>
      rw [hframes] at hinv
      exact stack_resume hinv.2.2 (hinv.2.1 _ hinv.1 _) h
    next => cases h

end Stack

end Reentrant
