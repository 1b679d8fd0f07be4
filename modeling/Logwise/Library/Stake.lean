import Logwise.Library.Shared
import Mathlib.Algebra.BigOperators.Group.List.Basic

/-!
# Rights that threads take from a shared memory

A right is a unit that the memory has to give. A request may give the thread some units or take
some, and may need some to be made at all; what the memory has and what the threads hold together
never grows. `Stakes` is the amount a program may count on, `balanced_step` keeps the balance of a
whole world, and `demand_add_le` says that two threads that are both about to make requests need no
more than there is: with one unit in all, requests that need it exclude each other.
-/

namespace Shared

open Reentrant (Program)

variable {σ ρ μ κ α β : Type} {answer : ρ → Type}

/-- How a right moves: what a thread holds between calls, what a request needs, what its answer
gives and takes, and what the memory has left. -/
structure Right (σ μ : Type) {ρ : Type} (answer : ρ → Type) where
  held : σ → ℕ
  needs : ρ → ℕ
  gives : (request : ρ) → answer request → ℕ
  takes : ρ → ℕ
  left : μ → ℕ

namespace Right

variable (right : Right σ μ answer)

/-- From `s` with `n` units the program has what its requests need, never less than its state
holds, and returns with `post`. -/
def Stakes (post : α → σ → ℕ → Prop) : Program σ answer α → σ → ℕ → Prop
  | .pure value, s, n => post value s n
  | .panic, s, n => right.held s ≤ n
  | .get next, s, n => Stakes post (next s) s n
  | .put s next, _, n => Stakes post next s n
  | .ask request next, s, n => right.held s ≤ n ∧ right.needs request ≤ n ∧
    right.takes request ≤ n ∧
      ∀ reply, Stakes post (next reply) s (n - right.takes request + right.gives request reply)

variable {right} {post post' : α → σ → ℕ → Prop} {s : σ} {n : ℕ}

theorem Stakes.mono {program : Program σ answer α} (h : right.Stakes post program s n)
    (hle : ∀ value s n, post value s n → post' value s n) : right.Stakes post' program s n := by
  induction program generalizing s n with
  | pure value => exact hle value s n h
  | panic => exact h
  | get next ih => exact ih s h
  | put s next ih => exact ih h
  | ask request next ih => exact ⟨h.1, h.2.1, h.2.2.1, fun reply => ih reply (h.2.2.2 reply)⟩

theorem stakes_bind {program : Program σ answer α} {f : α → Program σ answer β}
    {post : β → σ → ℕ → Prop} : right.Stakes post (program >>= f) s n ↔
      right.Stakes (fun value s n => right.Stakes post (f value) s n) program s n := by
  change right.Stakes post (program.bind f) s n ↔ _
  induction program generalizing s n with
  | pure value => rfl
  | panic => rfl
  | get next ih => exact ih s
  | put s next ih => exact ih
  | ask request next ih =>
    exact and_congr_right fun _ => and_congr_right fun _ => and_congr_right fun _ =>
      forall_congr' fun reply => ih reply

theorem Stakes.bind {mid : α → σ → ℕ → Prop} {post : β → σ → ℕ → Prop}
    {program : Program σ answer α} {f : α → Program σ answer β}
    (h : right.Stakes mid program s n)
    (hf : ∀ value s n, mid value s n → right.Stakes post (f value) s n) :
    right.Stakes post (program >>= f) s n :=
  stakes_bind.mpr (h.mono hf)

/-- A request that has nothing to do with the right. -/
theorem stakes_request {r : ρ} {post : answer r → σ → ℕ → Prop} (hheld : right.held s ≤ n)
    (hneeds : right.needs r = 0) (htakes : right.takes r = 0)
    (hgives : ∀ reply, right.gives r reply = 0) (h : ∀ reply, post reply s n) :
    right.Stakes post (Program.request r) s n := by
  refine ⟨hheld, by omega, by omega, fun reply => ?_⟩
  show post reply s (n - right.takes r + right.gives r reply)
  rw [htakes, hgives, Nat.sub_zero, Nat.add_zero]
  exact h reply

/-- The thread holds `n` units, or is in a call that may count on them. -/
def Staked (right : Right σ μ answer) (thread : Thread σ answer) (n : ℕ) : Prop :=
  match thread.status with
  | .idle => right.held thread.locals = n
  | .waiting request next =>
    right.Stakes (fun (_ : Unit) s n => right.held s = n) (.ask request next) thread.locals n
  | .panicked => right.held thread.locals ≤ n

theorem staked_settle {program : Program σ answer Unit}
    (h : right.Stakes (fun _ s n => right.held s = n) program s n) :
    ∃ m, m ≤ n ∧ right.Staked (settle program s) m := by
  induction program generalizing s with
  | pure value => exact ⟨n, le_refl n, h⟩
  | panic => exact ⟨n, le_refl n, h⟩
  | get next ih => exact ih s h
  | put s next ih => exact ih h
  | ask request next => exact ⟨n, le_refl n, h⟩

/-- The threads hold some units each, and with what the memory has left these are at most `total`. -/
structure Balanced (right : Right σ μ answer) (total : ℕ) (w : World σ μ answer)
    (stakes : List ℕ) : Prop where
  threads : List.Forall₂ right.Staked w.threads stakes
  total : stakes.sum + right.left w.memory ≤ total

/-- What a machine does with a right. -/
structure Moved (right : Right σ μ answer) (machine : Machine σ μ κ answer) : Prop where
  start : right.held machine.start = 0
  code : ∀ operation s,
    right.Stakes (fun _ s n => right.held s = n) (machine.code operation) s (right.held s)
  serve : ∀ request t reply t', machine.serve request t = some (reply, t') →
    right.gives request reply + right.left t' ≤ right.takes request + right.left t

variable {machine : Machine σ μ κ answer} {total : ℕ} {w w' : World σ μ answer} {a : Action κ}

theorem sum_set_add {stakes : List ℕ} {i n : ℕ} (hi : stakes[i]? = some n) (m : ℕ) :
    (stakes.set i m).sum + n = stakes.sum + m := by
  induction stakes generalizing i with
  | nil => cases hi
  | cons k stakes ih =>
    cases i with
    | zero =>
      obtain rfl : k = n := Option.some.inj hi
      simp only [List.set_cons_zero, List.sum_cons]
      omega
    | succ i =>
      have hrest := ih (i := i) hi
      simp only [List.set_cons_succ, List.sum_cons]
      omega

theorem forall₂_set {γ δ : Type} {R : γ → δ → Prop} {as : List γ} {bs : List δ} {i : ℕ} {a : γ}
    {b : δ} (h : List.Forall₂ R as bs) (hab : R a b) :
    List.Forall₂ R (as.set i a) (bs.set i b) := by
  induction h generalizing i with
  | nil => exact .nil
  | cons hhead htail ih =>
    cases i with
    | zero => exact .cons hab htail
    | succ i => exact .cons hhead ih

theorem getElem?_of_forall₂ {γ δ : Type} {R : γ → δ → Prop} {as : List γ} {bs : List δ} {i : ℕ}
    {a : γ} (h : List.Forall₂ R as bs) (ha : as[i]? = some a) : ∃ b, bs[i]? = some b ∧ R a b := by
  induction h generalizing i with
  | nil => cases ha
  | cons hhead _ ih =>
    cases i with
    | zero =>
      obtain rfl := Option.some.inj ha
      exact ⟨_, rfl, hhead⟩
    | succ i => exact ih ha

/-- **No step makes a right**: the balance is kept by every step of every thread. -/
theorem balanced_step (hmoved : right.Moved machine) {stakes : List ℕ}
    (h : right.Balanced total w stakes) (hs : machine.step w a = some w') :
    ∃ stakes', right.Balanced total w' stakes' := by
  obtain ⟨-, rfl⟩ | ⟨k, operation, s, -, hk, -, rfl⟩ |
    ⟨k, s, request, next, reply, memory, -, hk, hserve, rfl⟩ := step_cases hs
  · refine ⟨stakes ++ [0], ?_, ?_⟩
    · exact List.rel_append h.threads (.cons hmoved.start .nil)
    · rw [List.sum_append, List.sum_singleton, Nat.add_zero]
      exact h.total
  · obtain ⟨n, hn, hheld⟩ := getElem?_of_forall₂ h.threads hk
    obtain rfl : right.held s = n := hheld
    obtain ⟨m, hle, hstaked⟩ := staked_settle (hmoved.code operation s)
    refine ⟨stakes.set k m, forall₂_set h.threads hstaked, ?_⟩
    have hsum := sum_set_add hn m
    have htotal := h.total
    show (stakes.set k m).sum + right.left w.memory ≤ total
    omega
  · obtain ⟨n, hn, hstakes⟩ := getElem?_of_forall₂ h.threads hk
    obtain ⟨-, -, htakes, hnext⟩ := hstakes
    obtain ⟨m, hle, hstaked⟩ := staked_settle (hnext reply)
    refine ⟨stakes.set k m, forall₂_set h.threads hstaked, ?_⟩
    have hsum := sum_set_add hn m
    have htotal := h.total
    have hpaid := hmoved.serve request w.memory reply memory hserve
    show (stakes.set k m).sum + right.left memory ≤ total
    omega

theorem balanced_of_reaches (hmoved : right.Moved machine) {ok : World σ μ answer → Action κ → Prop}
    (h : Transition.Reaches machine.step ok w w') (hw : w.threads = [])
    (htotal : right.left w.memory ≤ total) : ∃ stakes, right.Balanced total w' stakes := by
  have hstart : right.Balanced total w [] := by
    refine ⟨?_, ?_⟩
    · rw [hw]
      exact .nil
    · rw [List.sum_nil, Nat.zero_add]
      exact htotal
  refine h.invariant (I := fun w => ∃ stakes, right.Balanced total w stakes) ?_ ⟨[], hstart⟩
  rintro _ _ _ ⟨stakes, hb⟩ _ hs
  exact balanced_step hmoved hb hs

/-- What the thread's request needs. -/
def demand (right : Right σ μ answer) (thread : Thread σ answer) : ℕ :=
  match thread.status with
  | .waiting request _ => right.needs request
  | _ => 0

theorem Staked.held_le {thread : Thread σ answer} (h : right.Staked thread n) :
    right.held thread.locals ≤ n := by
  obtain ⟨s, status⟩ := thread
  cases status with
  | idle => exact le_of_eq h
  | waiting request next => exact h.1
  | panicked => exact h

theorem Staked.demand_le {thread : Thread σ answer} (h : right.Staked thread n) :
    right.demand thread ≤ n := by
  obtain ⟨s, status⟩ := thread
  cases status with
  | waiting request next => exact h.2.1
  | idle | panicked => exact Nat.zero_le n

/-- What the threads hold and what the memory has left are at most what there is. -/
theorem Balanced.sum_held_le {stakes : List ℕ} (h : right.Balanced total w stakes) :
    (w.threads.map fun thread => right.held thread.locals).sum + right.left w.memory ≤ total := by
  have hle : (w.threads.map fun thread => right.held thread.locals).sum ≤ stakes.sum := by
    have hthreads := h.threads
    clear h
    generalize w.threads = threads at hthreads
    induction hthreads with
    | nil => exact le_refl _
    | cons hhead _ ih => exact Nat.add_le_add hhead.held_le ih
  have htotal := h.total
  omega

theorem add_le_sum {stakes : List ℕ} {i j m : ℕ} (hne : i ≠ j) (hi : stakes[i]? = some n)
    (hj : stakes[j]? = some m) : n + m ≤ stakes.sum := by
  have hzero := sum_set_add hi 0
  have hj' : (stakes.set i 0)[j]? = some m := (List.getElem?_set_ne hne).trans hj
  have hboth := sum_set_add hj' 0
  omega

theorem le_sum {stakes : List ℕ} {i : ℕ} (hi : stakes[i]? = some n) : n ≤ stakes.sum := by
  have hzero := sum_set_add hi 0
  omega

/-- What one thread counts on and what the memory has left are at most what there is. -/
theorem Balanced.demand_le {stakes : List ℕ} (h : right.Balanced total w stakes) {i : ℕ}
    {thread : Thread σ answer} (hi : w.threads[i]? = some thread) :
    right.demand thread + right.left w.memory ≤ total := by
  obtain ⟨n, hn, hstaked⟩ := getElem?_of_forall₂ h.threads hi
  have hle := hstaked.demand_le
  have hsum := le_sum hn
  have htotal := h.total
  omega

/-- **Rights exclude**: two threads count on no more than there is. -/
theorem Balanced.demand_add_le {stakes : List ℕ} (h : right.Balanced total w stakes) {i j : ℕ}
    (hne : i ≠ j) {thread other : Thread σ answer} (hi : w.threads[i]? = some thread)
    (hj : w.threads[j]? = some other) :
    right.demand thread + right.demand other + right.left w.memory ≤ total := by
  obtain ⟨n, hn, hstaked⟩ := getElem?_of_forall₂ h.threads hi
  obtain ⟨m, hm, hstaked'⟩ := getElem?_of_forall₂ h.threads hj
  have hle := hstaked.demand_le
  have hle' := hstaked'.demand_le
  have hsum := add_le_sum hne hn hm
  have htotal := h.total
  omega

end Right

end Shared
