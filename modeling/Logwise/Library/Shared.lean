import Logwise.Library.Reentrant
import Logwise.Library.Slots

/-!
# Threads over a shared memory

A thread runs one program after another on a state of its own. What a program asks is answered in
one step by a memory that all threads share, or not yet; between two requests of a thread the others
make any number of steps. `Safe` is the weakest precondition of a program that relies on what the
other threads keep and guarantees the same: an invariant `good` of the memory, which only grows in
the order `le`. `fine_step` carries it to all threads, `fine_of_call` to what one call leaves
behind.
-/

namespace Shared

open Reentrant (Program)

variable {σ ρ μ κ α β : Type} {answer : ρ → Type}

inductive Status (σ : Type) {ρ : Type} (answer : ρ → Type) where
  | idle
  | waiting (request : ρ) (next : answer request → Program σ answer Unit)
  | panicked

structure Thread (σ : Type) {ρ : Type} (answer : ρ → Type) where
  locals : σ
  status : Status σ answer

structure World (σ μ : Type) {ρ : Type} (answer : ρ → Type) where
  memory : μ
  threads : List (Thread σ answer)

inductive Action (κ : Type) where
  | spawn
  | call (i : ℕ) (operation : κ)
  | move (i : ℕ)

/-- `admits` says which calls can be made. -/
structure Machine (σ μ κ : Type) {ρ : Type} (answer : ρ → Type) where
  start : σ
  code : κ → Program σ answer Unit
  admits : μ → κ → Bool
  serve : (request : ρ) → μ → Option (answer request × μ)

/-- Run up to the next request. -/
def settle : Program σ answer Unit → σ → Thread σ answer
  | .pure _, s => ⟨s, .idle⟩
  | .panic, s => ⟨s, .panicked⟩
  | .get next, s => settle (next s) s
  | .put s next, _ => settle next s
  | .ask request next, s => ⟨s, .waiting request next⟩

def Machine.step (machine : Machine σ μ κ answer) (w : World σ μ answer) :
    Action κ → Option (World σ μ answer)
  | .spawn => some { w with threads := w.threads ++ [⟨machine.start, .idle⟩] }
  | .call i operation =>
    match w.threads[i]? with
    | some ⟨s, .idle⟩ =>
      if machine.admits w.memory operation then
        some { w with threads := w.threads.set i (settle (machine.code operation) s) }
      else none
    | _ => none
  | .move i =>
    match w.threads[i]? with
    | some ⟨s, .waiting request next⟩ =>
      (machine.serve request w.memory).map fun (reply, memory) =>
        { memory := memory, threads := w.threads.set i (settle (next reply) s) }
    | _ => none

/-! ## Termination -/

/-- The program makes at most `n` requests, whatever the answers are. -/
def Ends : ℕ → Program σ answer α → σ → Prop
  | _, .pure _, _ => True
  | _, .panic, _ => True
  | n, .get next, s => Ends n (next s) s
  | n, .put s next, _ => Ends n next s
  | n, .ask _ next, s => ∃ m, n = m + 1 ∧ ∀ reply, Ends m (next reply) s

theorem Ends.mono {n m : ℕ} {program : Program σ answer α} {s : σ} (h : Ends n program s)
    (hle : n ≤ m) : Ends m program s := by
  induction program generalizing n m s with
  | pure value => trivial
  | panic => trivial
  | get next ih => exact ih s h hle
  | put s next ih => exact ih h hle
  | ask request next ih =>
    obtain ⟨k, rfl, hrest⟩ := h
    obtain ⟨m, rfl⟩ : ∃ l, m = l + 1 := ⟨m - 1, by omega⟩
    exact ⟨m, rfl, fun reply => ih reply (hrest reply) (by omega)⟩

theorem ends_pure (n : ℕ) (value : α) (s : σ) :
    Ends n (Pure.pure value : Program σ answer α) s := trivial

theorem ends_request (r : ρ) (s : σ) : Ends 1 (Program.request r : Program σ answer (answer r)) s :=
  ⟨0, rfl, fun _ => trivial⟩

theorem Ends.bind {n m : ℕ} {program : Program σ answer α} {f : α → Program σ answer β} {s : σ}
    (h : Ends n program s) (hf : ∀ value s, Ends m (f value) s) :
    Ends (n + m) (program >>= f) s := by
  change Ends (n + m) (program.bind f) s
  induction program generalizing n s with
  | pure value => exact (hf value s).mono (Nat.le_add_left ..)
  | panic => trivial
  | get next ih => exact ih s h
  | put s next ih => exact ih h
  | ask request next ih =>
    obtain ⟨k, rfl, hrest⟩ := h
    exact ⟨k + m, Nat.add_right_comm .., fun reply => ih reply (hrest reply)⟩

section Safe

variable (machine : Machine σ μ κ answer) (good : μ → Prop) (le : μ → μ → Prop)
  (keeps : σ → μ → Prop)

/-- The memory only grows. -/
structure Grows : Prop where
  refl : ∀ t, le t t
  trans : ∀ t₁ t₂ t₃, le t₁ t₂ → le t₂ t₃ → le t₁ t₃
  serve : ∀ request t reply t', machine.serve request t = some (reply, t') → le t t'

/-- From `s` the program keeps the invariant of the memory, and that of its own state whenever it
asks, and returns with `post`, provided the other threads keep the memory too. It does not panic. -/
def Safe (post : α → σ → μ → Prop) : Program σ answer α → σ → μ → Prop
  | .pure value, s, t => post value s t
  | .panic, _, _ => False
  | .get next, s, t => Safe post (next s) s t
  | .put s next, _, t => Safe post next s t
  | .ask request next, s, t => keeps s t ∧ ∀ t₁, le t t₁ → good t₁ → ∀ reply t₂,
    machine.serve request t₁ = some (reply, t₂) → good t₂ ∧ Safe post (next reply) s t₂

variable {machine good le keeps} {post post' : α → σ → μ → Prop} {s : σ} {t t' : μ}

theorem safe_request {r : ρ} {post : answer r → σ → μ → Prop} :
    Safe machine good le keeps post (Program.request r) s t ↔ keeps s t ∧
      ∀ t₁, le t t₁ → good t₁ → ∀ reply t₂, machine.serve r t₁ = some (reply, t₂) →
        good t₂ ∧ post reply s t₂ := Iff.rfl

theorem safe_bind {program : Program σ answer α} {f : α → Program σ answer β}
    {post : β → σ → μ → Prop} : Safe machine good le keeps post (program >>= f) s t ↔
      Safe machine good le keeps
        (fun value s t => Safe machine good le keeps post (f value) s t) program s t := by
  change Safe machine good le keeps post (program.bind f) s t ↔ _
  induction program generalizing s t with
  | pure value => rfl
  | panic => rfl
  | get next ih => exact ih s
  | put s next ih => exact ih
  | ask request next ih =>
    refine and_congr_right fun _ => forall_congr' fun t₁ => imp_congr_right fun _ =>
      imp_congr_right fun _ => forall_congr' fun reply => forall_congr' fun t₂ => ?_
    exact imp_congr_right fun _ => and_congr_right fun _ => ih reply

theorem safe_request_bind {r : ρ} {f : answer r → Program σ answer β} {post : β → σ → μ → Prop} :
    Safe machine good le keeps post (Program.request r >>= f) s t ↔ keeps s t ∧
      ∀ t₁, le t t₁ → good t₁ → ∀ reply t₂, machine.serve r t₁ = some (reply, t₂) →
        good t₂ ∧ Safe machine good le keeps post (f reply) s t₂ := by
  rw [safe_bind, safe_request]

/-- Consequence: a weaker postcondition. -/
theorem Safe.mono {program : Program σ answer α} (h : Safe machine good le keeps post program s t)
    (hle : ∀ value s t, post value s t → post' value s t) :
    Safe machine good le keeps post' program s t := by
  induction program generalizing s t with
  | pure value => exact hle value s t h
  | panic => exact h
  | get next ih => exact ih s h
  | put s next ih => exact ih h
  | ask request next ih =>
    refine ⟨h.1, fun t₁ ht hgood reply t₂ hserve => ?_⟩
    obtain ⟨hgood', hrest⟩ := h.2 t₁ ht hgood reply t₂ hserve
    exact ⟨hgood', ih reply hrest⟩

/-- Sequencing, with the state between the two programs described by `mid`. -/
theorem Safe.bind {mid : α → σ → μ → Prop} {post : β → σ → μ → Prop} {program : Program σ answer α}
    {f : α → Program σ answer β} (h : Safe machine good le keeps mid program s t)
    (hf : ∀ value s t, mid value s t → Safe machine good le keeps post (f value) s t) :
    Safe machine good le keeps post (program >>= f) s t :=
  safe_bind.mpr (h.mono hf)

/-- The memory a program ends with is a later one. -/
theorem Safe.later (hgrows : Grows machine le) {program : Program σ answer α}
    (h : Safe machine good le keeps post program s t) :
    Safe machine good le keeps (fun value s t' => le t t' ∧ post value s t') program s t := by
  induction program generalizing s t with
  | pure value => exact ⟨hgrows.refl t, h⟩
  | panic => exact h
  | get next ih => exact ih s h
  | put s next ih => exact ih h
  | ask request next ih =>
    refine ⟨h.1, fun t₁ ht hgood reply t₂ hserve => ?_⟩
    obtain ⟨hgood', hrest⟩ := h.2 t₁ ht hgood reply t₂ hserve
    have hle := hgrows.trans _ _ _ ht (hgrows.serve _ _ _ _ hserve)
    exact ⟨hgood', (ih reply hrest).mono fun value s t' h =>
      ⟨hgrows.trans _ _ _ hle h.1, h.2⟩⟩

/-! ## Threads -/

variable (machine good le keeps) in
/-- The thread has `post`, or is in a call that will leave it. -/
def Fine (post : σ → μ → Prop) (thread : Thread σ answer) (t : μ) : Prop :=
  match thread.status with
  | .idle => post thread.locals t
  | .waiting request next =>
    Safe machine good le keeps (fun _ : Unit => post) (.ask request next) thread.locals t
  | .panicked => False

theorem fine_settle {post : σ → μ → Prop} {program : Program σ answer Unit}
    (h : Safe machine good le keeps (fun _ => post) program s t) :
    Fine machine good le keeps post (settle program s) t := by
  induction program generalizing s with
  | pure value => exact h
  | panic => exact h
  | get next ih => exact ih s h
  | put s next ih => exact ih h
  | ask request next => exact h

end Safe

/-! ## Runs -/

section Runs

variable {machine : Machine σ μ κ answer} {w w' : World σ μ answer} {a : Action κ} {i : ℕ}

theorem step_cases (hs : machine.step w a = some w') :
    (a = .spawn ∧ w' = { w with threads := w.threads ++ [⟨machine.start, .idle⟩] }) ∨
    (∃ k operation s, a = .call k operation ∧ w.threads[k]? = some ⟨s, .idle⟩ ∧
      machine.admits w.memory operation = true ∧
        w' = { w with threads := w.threads.set k (settle (machine.code operation) s) }) ∨
    ∃ k s request next reply memory, a = .move k ∧
      w.threads[k]? = some ⟨s, .waiting request next⟩ ∧
        machine.serve request w.memory = some (reply, memory) ∧
          w' = { memory := memory, threads := w.threads.set k (settle (next reply) s) } := by
  cases a with
  | spawn => exact Or.inl ⟨rfl, (Option.some.inj hs).symm⟩
  | call k operation =>
    simp only [Machine.step] at hs
    split at hs
    next s hk =>
      split at hs
      next hadmits =>
        exact Or.inr (Or.inl ⟨k, operation, s, rfl, hk, hadmits, (Option.some.inj hs).symm⟩)
      next => cases hs
    next => cases hs
  | move k =>
    simp only [Machine.step] at hs
    split at hs
    next s request next hk =>
      obtain ⟨⟨reply, memory⟩, hserve, rfl⟩ := Option.map_eq_some_iff.mp hs
      exact Or.inr (Or.inr ⟨k, s, request, next, reply, memory, rfl, hk, hserve, rfl⟩)
    next => cases hs

variable {good : μ → Prop} {le : μ → μ → Prop} {keeps post : σ → μ → Prop}

variable (machine good le keeps) in
/-- What each thread may rely on, and keeps: its own part of the state (`keeps`) between calls, the
memory's invariant in every step. -/
structure Rely : Prop extends Grows machine le where
  later : ∀ s t t', le t t' → keeps s t → keeps s t'
  start : ∀ t, good t → keeps machine.start t
  code : ∀ t operation s, good t → machine.admits t operation = true → keeps s t →
    Safe machine good le keeps (fun _ => keeps) (machine.code operation) s t

variable (machine good le keeps) in
structure Sound (w : World σ μ answer) : Prop where
  memory : good w.memory
  threads : ∀ thread ∈ w.threads, Fine machine good le keeps keeps thread w.memory

/-- Whether it waits or not, the thread keeps its own state. -/
theorem Fine.locals {thread : Thread σ answer} {t : μ}
    (h : Fine machine good le keeps keeps thread t) : keeps thread.locals t := by
  obtain ⟨s, status⟩ := thread
  cases status with
  | idle => exact h
  | waiting request next => exact h.1
  | panicked => exact h.elim

/-- The other threads may move on. -/
theorem Fine.later {thread : Thread σ answer} {t t' : μ} (hrely : Rely machine good le keeps)
    (hpost : ∀ s t t', le t t' → post s t → post s t')
    (h : Fine machine good le keeps post thread t) (hle : le t t') :
    Fine machine good le keeps post thread t' := by
  obtain ⟨s, status⟩ := thread
  cases status with
  | idle => exact hpost s t t' hle h
  | waiting request next =>
    exact ⟨hrely.later s t t' hle h.1, fun t₁ ht => h.2 t₁ (hrely.trans _ _ _ hle ht)⟩
  | panicked => exact h

theorem memory_le (hrely : Rely machine good le keeps) (hs : machine.step w a = some w') :
    le w.memory w'.memory := by
  obtain ⟨-, rfl⟩ | ⟨k, operation, s, -, -, -, rfl⟩ |
    ⟨k, s, request, next, reply, memory, -, -, hserve, rfl⟩ := step_cases hs
  · exact hrely.refl _
  · exact hrely.refl _
  · exact hrely.serve _ _ _ _ hserve

/-- A step of whatever thread leaves the threads fine that do not begin a call. -/
theorem fine_step (hrely : Rely machine good le keeps) (hgood : good w.memory)
    (hpost : ∀ s t t', le t t' → post s t → post s t') {thread : Thread σ answer}
    (hi : w.threads[i]? = some thread) (h : Fine machine good le keeps post thread w.memory)
    (hquiet : ∀ operation, a ≠ .call i operation) (hs : machine.step w a = some w') :
    ∃ thread', w'.threads[i]? = some thread' ∧
      Fine machine good le keeps post thread' w'.memory := by
  have hle := memory_le hrely hs
  obtain ⟨-, rfl⟩ | ⟨k, operation, s, rfl, hk, -, rfl⟩ |
    ⟨k, s, request, next, reply, memory, rfl, hk, hserve, rfl⟩ := step_cases hs
  · refine ⟨thread, ?_, h⟩
    exact (List.getElem?_append_left (List.getElem?_eq_some_iff.mp hi).1).trans hi
  · have hne : k ≠ i := by
      rintro rfl
      exact hquiet operation rfl
    exact ⟨thread, (List.getElem?_set_ne hne).trans hi, h⟩
  · by_cases hki : k = i
    · subst hki
      cases hi.symm.trans hk
      refine ⟨_, Slots.getElem?_set_of_some hk, fine_settle ?_⟩
      exact (h.2 w.memory (hrely.refl _) hgood reply memory hserve).2
    · exact ⟨thread, (List.getElem?_set_ne hki).trans hi, h.later hrely hpost hle⟩

/-- **Rely and guarantee**: every step keeps the invariant of the memory and of all threads. -/
theorem sound_step (hrely : Rely machine good le keeps) (h : Sound machine good le keeps w)
    (hs : machine.step w a = some w') : Sound machine good le keeps w' := by
  have hle := memory_le hrely hs
  obtain ⟨-, rfl⟩ | ⟨k, operation, s, -, hk, hadmits, rfl⟩ |
    ⟨k, s, request, next, reply, memory, -, hk, hserve, rfl⟩ := step_cases hs
  · exact ⟨h.memory, Slots.forall_mem_concat h.threads (hrely.start _ h.memory)⟩
  · refine ⟨h.memory, Slots.forall_mem_set h.threads (fine_settle ?_)⟩
    exact hrely.code _ _ _ h.memory hadmits (h.threads _ (List.mem_of_getElem? hk)).locals
  · have hserved := (h.threads _ (List.mem_of_getElem? hk)).2 w.memory (hrely.refl _) h.memory
      reply memory hserve
    refine ⟨hserved.1, Slots.forall_mem_set ?_ (fine_settle hserved.2)⟩
    exact fun thread hm => (h.threads thread hm).later hrely hrely.later hle

/-- A call runs up to its first request. -/
theorem step_call {operation : κ} {s : σ} {status : Status σ answer}
    (hi : w.threads[i]? = some ⟨s, status⟩) (hs : machine.step w (.call i operation) = some w') :
    w' = { w with threads := w.threads.set i (settle (machine.code operation) s) } := by
  obtain ⟨hcall, -⟩ | ⟨k, operation', s', hcall, hk, -, rfl⟩ |
    ⟨k, s', request, next, reply, memory, hcall, -⟩ := step_cases hs
  · cases hcall
  · cases hcall
    cases hi.symm.trans hk
    rfl
  · cases hcall

theorem fine_of_run (hrely : Rely machine good le keeps)
    (hpost : ∀ s t t', le t t' → post s t → post s t') {actions : List (Action κ)}
    {thread : Thread σ answer} (h : Sound machine good le keeps w)
    (hi : w.threads[i]? = some thread) (hfine : Fine machine good le keeps post thread w.memory)
    (hquiet : ∀ operation, .call i operation ∉ actions)
    (hrun : Transition.run machine.step w actions = some w') :
    ∃ thread', w'.threads[i]? = some thread' ∧
      Fine machine good le keeps post thread' w'.memory := by
  induction actions generalizing w thread with
  | nil =>
    cases hrun
    exact ⟨thread, hi, hfine⟩
  | cons a actions ih =>
    obtain ⟨w₁, hstep, hrun⟩ := Option.bind_eq_some_iff.mp hrun
    have hne : ∀ operation, a ≠ .call i operation := by
      rintro operation rfl
      exact hquiet operation (List.mem_cons_self ..)
    obtain ⟨thread', hi', hfine'⟩ := fine_step hrely h.memory hpost hi hfine hne hstep
    exact ih (sound_step hrely h hstep) hi' hfine'
      (fun operation hm => hquiet operation (List.mem_cons_of_mem _ hm)) hrun

/-- **What a call leaves behind**: whatever the other threads do, a thread whose call is safe for
`post` has `post` once the call has returned. -/
theorem fine_of_call (hrely : Rely machine good le keeps) (h : Sound machine good le keeps w)
    (hpost : ∀ s t t', le t t' → post s t → post s t') {operation : κ} {s : σ}
    {status : Status σ answer} (hi : w.threads[i]? = some ⟨s, status⟩)
    (hsafe : Safe machine good le keeps (fun _ => post) (machine.code operation) s w.memory)
    {actions : List (Action κ)} (hquiet : ∀ operation, .call i operation ∉ actions)
    (hrun : Transition.run machine.step w (.call i operation :: actions) = some w') :
    ∃ thread, w'.threads[i]? = some thread ∧ Fine machine good le keeps post thread w'.memory := by
  obtain ⟨w₁, hstep, hrun⟩ := Option.bind_eq_some_iff.mp hrun
  have hsound := sound_step hrely h hstep
  obtain rfl := step_call hi hstep
  exact fine_of_run hrely hpost hsound (Slots.getElem?_set_of_some hi) (fine_settle hsafe) hquiet
    hrun

/-! ## How long a call takes -/

def Action.moves (i : ℕ) : Action κ → Bool
  | .move k => k == i
  | _ => false

/-- The call the thread is in, if any, makes at most `n` more requests. -/
def Thread.Remains (n : ℕ) (thread : Thread σ answer) : Prop :=
  match thread.status with
  | .waiting request next => Ends n (.ask request next) thread.locals
  | _ => True

theorem remains_settle {n : ℕ} {program : Program σ answer Unit} {s : σ} (h : Ends n program s) :
    (settle program s).Remains n := by
  induction program generalizing s with
  | pure value => trivial
  | panic => trivial
  | get next ih => exact ih s h
  | put s next ih => exact ih h
  | ask request next => exact h

theorem moves_le_of_run {n : ℕ} {actions : List (Action κ)} {thread : Thread σ answer}
    (hi : w.threads[i]? = some thread) (hremains : thread.Remains n)
    (hquiet : ∀ operation, .call i operation ∉ actions)
    (hrun : Transition.run machine.step w actions = some w') :
    actions.countP (Action.moves i) ≤ n := by
  induction actions generalizing w thread n with
  | nil => exact Nat.zero_le _
  | cons a actions ih =>
    obtain ⟨w₁, hstep, hrun⟩ := Option.bind_eq_some_iff.mp hrun
    have hquiet' : ∀ operation, .call i operation ∉ actions :=
      fun operation hm => hquiet operation (List.mem_cons_of_mem _ hm)
    rw [List.countP_cons]
    obtain ⟨rfl, rfl⟩ | ⟨k, operation, s, rfl, hk, -, rfl⟩ |
      ⟨k, s, request, next, reply, memory, rfl, hk, hserve, rfl⟩ := step_cases hstep
    · refine ih ?_ hremains hquiet' hrun
      exact (List.getElem?_append_left (List.getElem?_eq_some_iff.mp hi).1).trans hi
    · have hne : k ≠ i := by
        rintro rfl
        exact hquiet operation (List.mem_cons_self ..)
      exact ih ((List.getElem?_set_ne hne).trans hi) hremains hquiet' hrun
    · by_cases hki : k = i
      · subst hki
        cases hi.symm.trans hk
        obtain ⟨m, rfl, hends⟩ := hremains
        have hle := ih (Slots.getElem?_set_of_some hk) (remains_settle (hends reply)) hquiet' hrun
        simp only [Action.moves, beq_self_eq_true, if_true]
        omega
      · have hle := ih ((List.getElem?_set_ne hki).trans hi) hremains hquiet' hrun
        simpa [Action.moves, hki] using hle

/-- **A call ends**: it takes no more steps than its program makes requests. -/
theorem moves_le_of_call {n : ℕ} {operation : κ} {s : σ} {status : Status σ answer}
    (hi : w.threads[i]? = some ⟨s, status⟩) (hends : Ends n (machine.code operation) s)
    {actions : List (Action κ)} (hquiet : ∀ operation, .call i operation ∉ actions)
    (hrun : Transition.run machine.step w (.call i operation :: actions) = some w') :
    actions.countP (Action.moves i) ≤ n := by
  obtain ⟨w₁, hstep, hrun⟩ := Option.bind_eq_some_iff.mp hrun
  obtain rfl := step_call hi hstep
  exact moves_le_of_run (Slots.getElem?_set_of_some hi) (remains_settle hends) hquiet hrun

end Runs

end Shared
