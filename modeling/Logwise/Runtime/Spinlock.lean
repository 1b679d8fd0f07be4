import Logwise.Library.Transition
import Logwise.Library.Slots
import Mathlib.Algebra.Ring.Nat
import Mathlib.Order.Basic

/-!
# The reader-writer spinlock

`Spinlock` (`spinlock.rs`) with any number of calls of `with` and `with_mut` in progress. A step is
one atomic operation on the byte, or a step of a closure. A relaxed load, and an exchange that
fails, return any value that the byte has had; `written` keeps these and is not a cell of the
source.
-/

namespace Logwise.Spinlock

def UNLOCKED : UInt8 := 0

/-- 254 readers or one writer. -/
def LOCKED_WRITE : UInt8 := 255

/-- How far a call of `with` or `with_mut` has got. -/
inductive Pc where
  | lockWrite
  | enterWrite
  | writing
  | unlockWrite (panicked : Bool)
  | loadRead
  | lockRead (current : UInt8)
  | enterRead
  | reading
  | unlockRead (panicked : Bool)
  | done (panicked : Bool)
  deriving DecidableEq

structure State (α : Type*) where
  data : α
  locked : UInt8
  written : List UInt8
  calls : List Pc
  deriving DecidableEq

def new {α : Type*} (data : α) : State α :=
  { data := data, locked := UNLOCKED, written := [UNLOCKED], calls := [] }

inductive Move (α : Type*) where
  | load (seen : UInt8)
  /-- `compare_exchange_weak` succeeds. -/
  | exchange
  /-- `compare_exchange_weak` fails, spuriously or not. -/
  | refuse (actual : UInt8)
  | start
  /-- The closure of `with_mut` stores through its reference. -/
  | mutate (data : α)
  | finish (panicked : Bool)
  | unlock
  deriving DecidableEq

inductive Action (α : Type*) where
  | callWithMut
  | callWith
  | move (i : ℕ) (move : Move α)
  deriving DecidableEq

variable {α : Type*}

def setCall (i : ℕ) (pc : Pc) (s : State α) : State α := { s with calls := s.calls.set i pc }

def store (value : UInt8) (s : State α) : State α :=
  { s with locked := value, written := s.written ++ [value] }

def callStep (i : ℕ) (s : State α) : Pc → Move α → Option (State α)
  -- spin_lock_write
  | .lockWrite, .exchange =>
    if s.locked = UNLOCKED then some (setCall i .enterWrite (store LOCKED_WRITE s)) else none
  | .lockWrite, .refuse _ => some s
  -- spin_lock_read
  | .loadRead, .load seen => some (setCall i (.lockRead seen) s)
  | .lockRead current, .load seen =>
    if LOCKED_WRITE - 1 ≤ current then some (setCall i (.lockRead seen) s) else none
  | .lockRead current, .exchange =>
    if LOCKED_WRITE - 1 ≤ current then none
    else if s.locked = current then some (setCall i .enterRead (store (current + 1) s))
    else none
  | .lockRead current, .refuse actual =>
    if LOCKED_WRITE - 1 ≤ current then none else some (setCall i (.lockRead actual) s)
  -- the closures
  | .enterWrite, .start => some (setCall i .writing s)
  | .writing, .mutate data => some { s with data := data }
  | .writing, .finish panicked => some (setCall i (.unlockWrite panicked) s)
  | .enterRead, .start => some (setCall i .reading s)
  | .reading, .finish panicked => some (setCall i (.unlockRead panicked) s)
  -- the guards, dropped on return and on unwinding
  | .unlockWrite panicked, .unlock => some (setCall i (.done panicked) (store UNLOCKED s))
  | .unlockRead panicked, .unlock => some (setCall i (.done panicked) (store (s.locked - 1) s))
  | _, _ => none

/-- The value that a load or a failed exchange returns. -/
def Move.seen : Move α → Option UInt8
  | .load seen => some seen
  | .refuse actual => some actual
  | _ => none

def step (s : State α) : Action α → Option (State α)
  | .callWithMut => some { s with calls := s.calls ++ [.lockWrite] }
  | .callWith => some { s with calls := s.calls ++ [.loadRead] }
  | .move i move =>
    s.calls[i]?.bind fun pc =>
      if move.seen.all (· ∈ s.written) then callStep i s pc move else none

/-- Between the exchange that locks for writing and the store that unlocks. -/
def Pc.holdsWrite : Pc → Bool
  | .enterWrite | .writing | .unlockWrite _ => true
  | _ => false

/-- Between the exchange that adds a reader and the `fetch_sub` that takes it away. -/
def Pc.holdsRead : Pc → Bool
  | .enterRead | .reading | .unlockRead _ => true
  | _ => false

def State.writers (s : State α) : ℕ := s.calls.countP Pc.holdsWrite

def State.readers (s : State α) : ℕ := s.calls.countP Pc.holdsRead

/-- The call `i` holds the lock for writing, and no other call holds it. -/
def State.OnlyWriter (s : State α) (i : ℕ) : Prop :=
  (∃ pc, s.calls[i]? = some pc ∧ pc.holdsWrite = true) ∧
    ∀ (j : ℕ) (pc : Pc), s.calls[j]? = some pc → j ≠ i →
      pc.holdsWrite = false ∧ pc.holdsRead = false

variable {s t : State α} {i : ℕ}

theorem writers_setCall {old : Pc} (hi : s.calls[i]? = some old) (pc : Pc) :
    (setCall i pc s).writers + old.holdsWrite.toNat = s.writers + pc.holdsWrite.toNat :=
  Slots.countP_set_add Pc.holdsWrite hi

theorem readers_setCall {old : Pc} (hi : s.calls[i]? = some old) (pc : Pc) :
    (setCall i pc s).readers + old.holdsRead.toNat = s.readers + pc.holdsRead.toNat :=
  Slots.countP_set_add Pc.holdsRead hi

/-- What a step does to the byte and to the number of those who hold the lock. -/
inductive Shift (s t : State α) : Prop where
  | aside (hlocked : t.locked = s.locked) (hwriters : t.writers = s.writers)
    (hreaders : t.readers = s.readers)
  | lockWrite (hfree : s.locked = UNLOCKED) (hlocked : t.locked = LOCKED_WRITE)
    (hwriters : t.writers = s.writers + 1) (hreaders : t.readers = s.readers)
  | unlockWrite (hlocked : t.locked = UNLOCKED) (hwriters : s.writers = t.writers + 1)
    (hreaders : t.readers = s.readers)
  | lockRead (hroom : s.locked < LOCKED_WRITE - 1) (hlocked : t.locked = s.locked + 1)
    (hwriters : t.writers = s.writers) (hreaders : t.readers = s.readers + 1)
  | unlockRead (hlocked : t.locked = s.locked - 1) (hwriters : t.writers = s.writers)
    (hreaders : s.readers = t.readers + 1)

theorem shift_of_callStep {pc : Pc} {move : Move α} (hi : s.calls[i]? = some pc)
    (hs : callStep i s pc move = some t) : Shift s t := by
  have hwriters := writers_setCall hi
  have hreaders := readers_setCall hi
  cases pc with
  | lockWrite =>
    cases move with
    | exchange =>
      obtain ⟨hfree, rfl⟩ : s.locked = UNLOCKED ∧ setCall i .enterWrite (store LOCKED_WRITE s) = t := by
        simpa [callStep] using hs
      exact .lockWrite hfree rfl (hwriters .enterWrite) (hreaders .enterWrite)
    | refuse actual =>
      cases hs
      exact .aside rfl rfl rfl
    | _ => cases hs
  | loadRead =>
    cases move with
    | load seen =>
      cases hs
      exact .aside rfl (hwriters (.lockRead seen)) (hreaders (.lockRead seen))
    | _ => cases hs
  | lockRead current =>
    cases move with
    | load seen =>
      obtain ⟨-, rfl⟩ : _ ∧ setCall i (.lockRead seen) s = t := by
        simpa [callStep] using hs
      exact .aside rfl (hwriters (.lockRead seen)) (hreaders (.lockRead seen))
    | exchange =>
      simp only [callStep] at hs
      split at hs
      · cases hs
      next hroom =>
        split at hs
        next hcurrent =>
          cases hs
          rw [← hcurrent] at hroom ⊢
          exact .lockRead (UInt8.not_le.mp hroom) rfl (hwriters .enterRead) (hreaders .enterRead)
        next => cases hs
    | refuse actual =>
      obtain ⟨-, rfl⟩ : _ ∧ setCall i (.lockRead actual) s = t := by
        simpa [callStep] using hs
      exact .aside rfl (hwriters (.lockRead actual)) (hreaders (.lockRead actual))
    | _ => cases hs
  | enterWrite =>
    cases move with
    | start =>
      cases hs
      exact .aside rfl (Nat.succ.inj (hwriters .writing)) (hreaders .writing)
    | _ => cases hs
  | writing =>
    cases move with
    | mutate data =>
      cases hs
      exact .aside rfl rfl rfl
    | finish panicked =>
      cases hs
      exact .aside rfl (Nat.succ.inj (hwriters (.unlockWrite panicked)))
        (hreaders (.unlockWrite panicked))
    | _ => cases hs
  | unlockWrite panicked =>
    cases move with
    | unlock =>
      cases hs
      exact .unlockWrite rfl (hwriters (.done panicked)).symm (hreaders (.done panicked))
    | _ => cases hs
  | enterRead =>
    cases move with
    | start =>
      cases hs
      exact .aside rfl (hwriters .reading) (Nat.succ.inj (hreaders .reading))
    | _ => cases hs
  | reading =>
    cases move with
    | finish panicked =>
      cases hs
      exact .aside rfl (hwriters (.unlockRead panicked))
        (Nat.succ.inj (hreaders (.unlockRead panicked)))
    | _ => cases hs
  | unlockRead panicked =>
    cases move with
    | unlock =>
      cases hs
      exact .unlockRead rfl (hwriters (.done panicked)) (hreaders (.done panicked)).symm
    | _ => cases hs
  | done panicked => cases move <;> cases hs

theorem callStep_of_step {move : Move α} (hs : step s (.move i move) = some t) :
    ∃ pc, s.calls[i]? = some pc ∧ callStep i s pc move = some t := by
  obtain ⟨pc, hi, hs⟩ := Option.bind_eq_some_iff.mp hs
  split at hs
  · exact ⟨pc, hi, hs⟩
  · cases hs

theorem shift_of_step {a : Action α} (hs : step s a = some t) : Shift s t := by
  cases a with
  | callWithMut =>
    cases hs
    exact .aside rfl (by simp [State.writers, Pc.holdsWrite]) (by simp [State.readers, Pc.holdsRead])
  | callWith =>
    cases hs
    exact .aside rfl (by simp [State.writers, Pc.holdsWrite]) (by simp [State.readers, Pc.holdsRead])
  | move i move =>
    obtain ⟨pc, hi, hs⟩ := callStep_of_step hs
    exact shift_of_callStep hi hs

/-- What the byte says: one writer alone, or so many readers. -/
def State.Counted (s : State α) : Prop :=
  (s.locked = LOCKED_WRITE ∧ s.writers = 1 ∧ s.readers = 0) ∨
    (s.writers = 0 ∧ s.locked.toNat = s.readers ∧ s.readers ≤ 254)

theorem counted_new (data : α) : (new data).Counted := Or.inr ⟨rfl, rfl, Nat.zero_le _⟩

/-- A reader is added below the ceiling only. -/
theorem toNat_add_one {locked : UInt8} (h : locked < LOCKED_WRITE - 1) :
    locked.toNat < 254 ∧ (locked + 1).toNat = locked.toNat + 1 := by
  have hlt : locked.toNat < 254 := UInt8.lt_iff_toNat_lt.mp h
  refine ⟨hlt, ?_⟩
  rw [UInt8.toNat_add]
  exact Nat.mod_eq_of_lt (Nat.lt_of_lt_of_le (Nat.succ_lt_succ hlt) (by decide))

theorem toNat_sub_one {locked : UInt8} {n : ℕ} (h : locked.toNat = n + 1) :
    (locked - 1).toNat = n := by
  have hle : (1 : UInt8) ≤ locked := UInt8.le_iff_toNat_le.mpr (h ▸ Nat.le_add_left 1 n)
  rw [UInt8.toNat_sub_of_le _ _ hle, h]
  rfl

theorem Shift.counted (h : Shift s t) (hs : s.Counted) : t.Counted := by
  cases h with
  | aside hlocked hwriters hreaders =>
    rw [State.Counted, hlocked, hwriters, hreaders]
    exact hs
  | lockWrite hfree hlocked hwriters hreaders =>
    obtain ⟨hwrite, -, -⟩ | ⟨hnone, hcount, -⟩ := hs
    · exact absurd (hfree.symm.trans hwrite) (by decide)
    · rw [hfree] at hcount
      exact Or.inl ⟨hlocked, hwriters.trans (congrArg Nat.succ hnone), hreaders.trans hcount.symm⟩
  | unlockWrite hlocked hwriters hreaders =>
    obtain ⟨-, hone, hnone⟩ | ⟨hnone, -, -⟩ := hs
    · have hzero : t.readers = 0 := hreaders.trans hnone
      refine Or.inr ⟨Nat.succ.inj (hwriters.symm.trans hone), ?_, hzero ▸ Nat.zero_le _⟩
      rw [hlocked, hzero]
      rfl
    · rw [hwriters] at hnone
      cases hnone
  | lockRead hroom hlocked hwriters hreaders =>
    obtain ⟨hlt, hadd⟩ := toNat_add_one hroom
    obtain ⟨hwrite, -, -⟩ | ⟨hnone, hcount, -⟩ := hs
    · rw [hwrite] at hroom
      exact absurd hroom (by decide)
    · rw [hcount] at hlt hadd
      exact Or.inr ⟨hwriters.trans hnone, by rw [hlocked, hadd, hreaders], hreaders ▸ hlt⟩
  | unlockRead hlocked hwriters hreaders =>
    obtain ⟨-, -, hnone⟩ | ⟨hnone, hcount, hle⟩ := hs
    · rw [hreaders] at hnone
      cases hnone
    · rw [hreaders] at hcount hle
      exact Or.inr ⟨hwriters.trans hnone, by rw [hlocked, toNat_sub_one hcount],
        Nat.le_of_succ_le hle⟩

theorem counted_step {a : Action α} (h : s.Counted) (hs : step s a = some t) : t.Counted :=
  (shift_of_step hs).counted h

theorem counted_of_reaches {data : α} (h : Transition.Reaches step Transition.always (new data) s) :
    s.Counted :=
  h.invariant (fun _ _ _ hs _ => counted_step hs) (counted_new data)

/-- The mark of a writer is on the byte while one call has the lock for itself. -/
theorem State.Counted.locked_write_iff (h : s.Counted) :
    s.locked = LOCKED_WRITE ↔ ∃ i, s.OnlyWriter i := by
  constructor
  · intro hwrite
    obtain ⟨-, hone, hnone⟩ | ⟨-, hcount, hle⟩ := h
    · have hpos : 0 < s.calls.countP Pc.holdsWrite := by
        rw [← State.writers, hone]
        exact Nat.one_pos
      obtain ⟨pc, hm, hpc⟩ := List.countP_pos_iff.mp hpos
      obtain ⟨i, hi⟩ := List.mem_iff_getElem?.mp hm
      refine ⟨i, ⟨pc, hi, hpc⟩, fun j other hj hne => ⟨?_, ?_⟩⟩
      · by_contra hwrites
        refine hne (Slots.eq_of_countP_le_one (p := Pc.holdsWrite) hone.le hj ?_ hi hpc)
        exact (Bool.not_eq_false _).mp hwrites
      · have hquiet := List.countP_eq_zero.mp hnone other (List.mem_of_getElem? hj)
        exact (Bool.not_eq_true _).mp hquiet
    · rw [hwrite] at hcount
      exact absurd (hcount.trans_le hle) (by decide)
  · rintro ⟨i, ⟨pc, hi, hpc⟩, -⟩
    obtain ⟨hwrite, -, -⟩ | ⟨hnone, -, -⟩ := h
    · exact hwrite
    · exact absurd hpc (List.countP_eq_zero.mp hnone pc (List.mem_of_getElem? hi))

/-- Otherwise the byte is the number of readers. -/
theorem State.Counted.readers_of_ne (h : s.Counted) (hne : s.locked ≠ LOCKED_WRITE) :
    s.writers = 0 ∧ s.locked.toNat = s.readers ∧ s.readers ≤ 254 :=
  h.resolve_left fun hwrite => hne hwrite.1

/-- A reader that is let in is added to the count. -/
theorem exchange_toNat {current : UInt8}
    (hi : s.calls[i]? = some (.lockRead current)) (hs : step s (.move i .exchange) = some t) :
    t.locked.toNat = s.locked.toNat + 1 ∧ t.locked.toNat ≤ 254 := by
  obtain ⟨pc, hpc, hs⟩ := callStep_of_step hs
  cases hi.symm.trans hpc
  simp only [callStep] at hs
  split at hs
  · cases hs
  next hroom =>
    split at hs
    next hcurrent =>
      cases hs
      obtain ⟨hlt, hadd⟩ := toNat_add_one (UInt8.not_le.mp hroom)
      show (current + 1).toNat = s.locked.toNat + 1 ∧ (current + 1).toNat ≤ 254
      rw [hcurrent, hadd]
      exact ⟨rfl, hlt⟩
    next => cases hs

/-- A reader that unlocks is on the count. -/
theorem State.Counted.unlock (h : s.Counted) {panicked : Bool}
    (hi : s.calls[i]? = some (.unlockRead panicked)) (hs : step s (.move i .unlock) = some t) :
    t.locked.toNat + 1 = s.locked.toNat := by
  obtain ⟨pc, hpc, hs⟩ := callStep_of_step hs
  cases hi.symm.trans hpc
  cases hs
  have hpos : 0 < s.readers := List.countP_pos_iff.mpr ⟨_, List.mem_of_getElem? hi, rfl⟩
  obtain ⟨-, -, hnone⟩ | ⟨-, hcount, -⟩ := h
  · exact absurd hnone hpos.ne'
  · obtain ⟨n, hn⟩ := Nat.exists_eq_succ_of_ne_zero hpos.ne'
    show (s.locked - 1).toNat + 1 = s.locked.toNat
    rw [toNat_sub_one (hcount.trans hn), hcount, hn]

/-- While a closure of `with` runs, no step changes what it reads. -/
theorem data_of_step {a : Action α} (h : s.Counted) (hread : .reading ∈ s.calls)
    (hs : step s a = some t) : t.data = s.data := by
  have hpos : 0 < s.readers := List.countP_pos_iff.mpr ⟨_, hread, rfl⟩
  have hnone : s.writers = 0 := by
    obtain ⟨-, -, hnone⟩ | ⟨hnone, -, -⟩ := h
    · exact absurd hnone hpos.ne'
    · exact hnone
  cases a with
  | callWithMut =>
    cases hs
    rfl
  | callWith =>
    cases hs
    rfl
  | move i move =>
    obtain ⟨pc, hi, hs⟩ := callStep_of_step hs
    have hidle : pc ≠ .writing := by
      rintro rfl
      exact absurd rfl (List.countP_eq_zero.mp hnone _ (List.mem_of_getElem? hi))
    cases pc <;> cases move <;> simp only [callStep] at hs <;> (try split at hs) <;>
      (try split at hs) <;> cases hs <;> first | rfl | exact absurd rfl hidle

/-- **Exclusion**. In every state reached the byte is the writer's mark exactly while one call has
the lock for writing and no other call holds it, and the number of readers, at most 254, otherwise;
no step takes it past either end; and it is free when nobody holds the lock. -/
theorem lock_excludes (data : α) (h : Transition.Reaches step Transition.always (new data) s) :
    (s.locked = LOCKED_WRITE ↔ ∃ i, s.OnlyWriter i) ∧
      (s.locked ≠ LOCKED_WRITE →
        s.writers = 0 ∧ s.locked.toNat = s.readers ∧ s.readers ≤ 254) ∧
      (∀ (i : ℕ) (current : UInt8) (t : State α), s.calls[i]? = some (.lockRead current) →
        step s (.move i .exchange) = some t →
          t.locked.toNat = s.locked.toNat + 1 ∧ t.locked.toNat ≤ 254) ∧
      (∀ (i : ℕ) (panicked : Bool) (t : State α), s.calls[i]? = some (.unlockRead panicked) →
        step s (.move i .unlock) = some t → t.locked.toNat + 1 = s.locked.toNat) ∧
      ((∀ pc ∈ s.calls, pc.holdsWrite = false ∧ pc.holdsRead = false) → s.locked = UNLOCKED) := by
  have hcounted := counted_of_reaches h
  refine ⟨hcounted.locked_write_iff, hcounted.readers_of_ne, fun i current t hi hs =>
    exchange_toNat hi hs, fun i panicked t hi hs => hcounted.unlock hi hs, fun hfree => ?_⟩
  have hwriters : s.writers = 0 :=
    List.countP_eq_zero.mpr fun pc hm => by simp [(hfree pc hm).1]
  have hreaders : s.readers = 0 :=
    List.countP_eq_zero.mpr fun pc hm => by simp [(hfree pc hm).2]
  obtain ⟨-, hone, -⟩ | ⟨-, hcount, -⟩ := hcounted
  · rw [hwriters] at hone
    cases hone
  · exact UInt8.toNat_inj.mp (hcount.trans hreaders)

/-- A reader that unwinds, one that read the byte before it did, and a writer that waits for both. -/
theorem lock_excludes_unwound : ∃ s : State ℕ, Transition.Reaches step Transition.always (new 7) s ∧
    s.calls = [.done true, .enterRead, .lockWrite] ∧ s.locked.toNat = s.readers := by
  have hrun : Transition.run step (new 7)
      [.callWith, .callWith, .callWithMut, .move 0 (.load 0), .move 0 .exchange,
        .move 1 (.load 0), .move 1 (.refuse 1), .move 0 .start, .move 2 (.refuse 1),
        .move 0 (.finish true), .move 1 .exchange, .move 0 .unlock] =
      some ⟨7, 1, [0, 1, 2, 1], [.done true, .enterRead, .lockWrite]⟩ := by decide
  have hreaches := Transition.reaches_of_run_always _ hrun
  have h := lock_excludes 7 hreaches
  exact ⟨_, hreaches, rfl, (h.2.1 (by decide)).2.1⟩

end Logwise.Spinlock
