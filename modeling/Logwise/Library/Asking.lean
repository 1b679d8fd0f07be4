import Logwise.Library.Shared

/-!
# What programs ask for, whatever they are told

A weakest precondition that relies on no answer: every request of the program is allowed, and it
returns with a property of its own state. What is allowed then bounds what any number of threads
make of the memory.
-/

namespace Shared

open Reentrant (Program)

variable {σ ρ μ κ κ' α β : Type} {answer : ρ → Type}

def Asking (allowed : ρ → Prop) (post : α → σ → Prop) : Program σ answer α → σ → Prop
  | .pure value, s => post value s
  | .panic, _ => True
  | .get next, s => Asking allowed post (next s) s
  | .put s next, _ => Asking allowed post next s
  | .ask request next, s => allowed request ∧ ∀ reply, Asking allowed post (next reply) s

variable {allowed : ρ → Prop} {post post' : α → σ → Prop} {s : σ} {t : μ}

theorem asking_bind {program : Program σ answer α} {f : α → Program σ answer β}
    {post : β → σ → Prop} : Asking allowed post (program >>= f) s ↔
      Asking allowed (fun value s => Asking allowed post (f value) s) program s := by
  change Asking allowed post (program.bind f) s ↔ _
  induction program generalizing s with
  | pure value => rfl
  | panic => rfl
  | get next ih => exact ih s
  | put s next ih => exact ih
  | ask request next ih => exact and_congr_right fun _ => forall_congr' fun reply => ih reply

theorem asking_request_bind {r : ρ} {f : answer r → Program σ answer β} {post : β → σ → Prop} :
    Asking allowed post (Program.request r >>= f) s ↔
      allowed r ∧ ∀ reply, Asking allowed post (f reply) s := by
  rw [asking_bind]
  rfl

/-- Consequence: a weaker postcondition. -/
theorem Asking.mono {program : Program σ answer α} (h : Asking allowed post program s)
    (hle : ∀ value s, post value s → post' value s) : Asking allowed post' program s := by
  induction program generalizing s with
  | pure value => exact hle value s h
  | panic => trivial
  | get next ih => exact ih s h
  | put s next ih => exact ih h
  | ask request next ih => exact ⟨h.1, fun reply => ih reply (h.2 reply)⟩

/-- Sequencing, with the state between the two programs described by `mid`. -/
theorem Asking.bind {mid : α → σ → Prop} {post : β → σ → Prop} {program : Program σ answer α}
    {f : α → Program σ answer β} (h : Asking allowed mid program s)
    (hf : ∀ value s, mid value s → Asking allowed post (f value) s) :
    Asking allowed post (program >>= f) s :=
  asking_bind.mpr (h.mono hf)

/-- Two machines with one memory have the same safe programs. -/
theorem Safe.of_serve {machine : Machine σ μ κ answer} {machine' : Machine σ μ κ' answer}
    (hserve : machine'.serve = machine.serve) {good : μ → Prop} {le : μ → μ → Prop}
    {keeps : σ → μ → Prop} {post : α → σ → μ → Prop} {program : Program σ answer α}
    (h : Safe machine good le keeps post program s t) :
    Safe machine' good le keeps post program s t := by
  induction program generalizing s t with
  | pure value => exact h
  | panic => exact h
  | get next ih => exact ih s h
  | put s next ih => exact ih h
  | ask request next ih =>
    refine ⟨h.1, fun t₁ ht hgood reply t₂ hs => ?_⟩
    obtain ⟨hgood', hrest⟩ := h.2 t₁ ht hgood reply t₂ (hserve ▸ hs)
    exact ⟨hgood', ih reply hrest⟩

/-! ## Threads -/

/-- Whatever the thread still asks for is allowed, and leaves its state with `post`. -/
def Thread.Asks (allowed : ρ → Prop) (post : σ → Prop) (thread : Thread σ answer) : Prop :=
  match thread.status with
  | .idle => post thread.locals
  | .waiting request next =>
    Asking allowed (fun _ : Unit => post) (.ask request next) thread.locals
  | .panicked => True

theorem asks_settle {post : σ → Prop} {program : Program σ answer Unit}
    (h : Asking allowed (fun _ => post) program s) : (settle program s).Asks allowed post := by
  induction program generalizing s with
  | pure value => exact h
  | panic => trivial
  | get next ih => exact ih s h
  | put s next ih => exact ih h
  | ask request next => exact h

/-- **The memory knows only what is allowed**: a property that serving the allowed requests keeps
holds in every run of threads that ask for no others. -/
theorem memory_of_reaches {machine : Machine σ μ κ answer} {ok : World σ μ answer → Action κ → Prop}
    {kept : μ → Prop} {idle : σ → Prop} {w w' : World σ μ answer} (hstart : idle machine.start)
    (hcode : ∀ w i operation s, ok w (.call i operation) → idle s →
      Asking allowed (fun _ => idle) (machine.code operation) s)
    (hserve : ∀ request t reply t', allowed request → kept t →
      machine.serve request t = some (reply, t') → kept t')
    (h : Transition.Reaches machine.step ok w w') (hmemory : kept w.memory)
    (hthreads : ∀ thread ∈ w.threads, thread.Asks allowed idle) :
    kept w'.memory ∧ ∀ thread ∈ w'.threads, thread.Asks allowed idle := by
  refine h.invariant (I := fun w : World σ μ answer =>
    kept w.memory ∧ ∀ thread ∈ w.threads, thread.Asks allowed idle) ?_ ⟨hmemory, hthreads⟩
  rintro w a w' ⟨hm, ht⟩ hok hs
  obtain ⟨-, rfl⟩ | ⟨k, operation, s, rfl, hk, -, rfl⟩ |
    ⟨k, s, request, next, reply, memory, -, hk, hserved, rfl⟩ := step_cases hs
  · exact ⟨hm, Slots.forall_mem_concat ht hstart⟩
  · have hidle : idle s := ht _ (List.mem_of_getElem? hk)
    exact ⟨hm, Slots.forall_mem_set ht (asks_settle (hcode w k operation s hok hidle))⟩
  · have hwaits := ht _ (List.mem_of_getElem? hk)
    exact ⟨hserve request _ reply memory hwaits.1 hm hserved,
      Slots.forall_mem_set ht (asks_settle (hwaits.2 reply))⟩

end Shared
