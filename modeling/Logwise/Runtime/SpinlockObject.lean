import Logwise.Library.History
import Logwise.Runtime.Spinlock

/-!
# An object behind the spinlock

Calls of `with` and `with_mut` whose closures are operations of an object. The closure of
`with_mut` may store any values on its way to the one its operation leaves, and either closure may
unwind. The operations take effect in one order, each while its call is in progress.
-/

namespace Logwise.Spinlock

variable {α ι ρ : Type*}

structure Session (α ι ρ : Type*) where
  lock : State α
  /-- What the closure of `with_mut` that is running found. -/
  found : Option α
  history : History α ι ρ
  deriving DecidableEq

namespace Session

inductive Action (α ι : Type*) where
  | call (op : ι)
  /-- A step of the lock around a closure. -/
  | spin (i : ℕ) (move : Move α)
  | enter (i : ℕ)
  /-- The closure of `with_mut` stores something on its way. -/
  | scribble (i : ℕ) (value : α)
  | complete (i : ℕ)
  /-- The closure unwinds. -/
  | abandon (i : ℕ)
  deriving DecidableEq

def init (initial : α) : Session α ι ρ :=
  { lock := new initial, found := none, history := History.empty }

/-- The steps that a closure has no part in. -/
def spins : Move α → Bool
  | .load _ | .exchange | .refuse _ | .unlock => true
  | _ => false

def lockStep (i : ℕ) (move : Move α) (s : Session α ι ρ) : Option (Session α ι ρ) :=
  (Spinlock.step s.lock (.move i move)).map fun lock => { s with lock := lock }

def step (O : AtomicObject α ι ρ) (s : Session α ι ρ) : Action α ι → Option (Session α ι ρ)
  | .call op =>
    (Spinlock.step s.lock (if O.mutates op then .callWithMut else .callWith)).map fun lock =>
      { s with lock := lock, history := s.history.begin op }
  | .spin i move => if spins move then s.lockStep i move else none
  | .enter i =>
    match s.lock.calls[i]? with
    | some .enterWrite => ({ s with found := some s.lock.data } : Session α ι ρ).lockStep i .start
    | some .enterRead => s.lockStep i .start
    | _ => none
  | .scribble i value => s.lockStep i (.mutate value)
  | .complete i =>
    s.history.jobs[i]?.bind fun job =>
      match s.lock.calls[i]? with
      | some .writing =>
        s.found.bind fun found =>
          let (answer, value) := O.apply job.op found
          (s.lockStep i (.mutate value)).bind fun s => (s.lockStep i (.finish false)).map fun s =>
            { s with history := s.history.settle i job answer }
      | some .reading =>
        (s.lockStep i (.finish false)).map fun s =>
          { s with history := s.history.settle i job (O.apply job.op s.lock.data).1 }
      | _ => none
  | .abandon i =>
    match s.lock.calls[i]? with
    | some .writing =>
      (s.lockStep i (.finish true)).map fun s =>
        { s with history := s.history.leave i s.lock.data }
    | some .reading => s.lockStep i (.finish true)
    | _ => none

end Session

namespace Pc

/-- Whether the call is one of `with_mut`, as long as it is in progress. -/
def mutates : Pc → Option Bool
  | .lockWrite | .enterWrite | .writing | .unlockWrite _ => some true
  | .loadRead | .lockRead _ | .enterRead | .reading | .unlockRead _ => some false
  | .done _ => none

/-- The call has not come to the end of its closure. -/
def unfinished : Pc → Bool
  | .unlockWrite _ | .unlockRead _ | .done _ => false
  | _ => true

/-- The closure came to its end without unwinding. -/
def completed : Pc → Bool
  | .unlockWrite panicked | .unlockRead panicked | .done panicked => !panicked
  | _ => false

def inside : Pc → Bool
  | .writing | .reading => true
  | _ => false

end Pc

namespace Session

variable {O : AtomicObject α ι ρ} {initial : α} {s t : Session α ι ρ} {i : ℕ}

/-- What one step does. -/
inductive Moves (O : AtomicObject α ι ρ) (s : Session α ι ρ) : Session α ι ρ → Prop where
  | call (op : ι) (pc : Pc) (hpc : pc = if O.mutates op then .lockWrite else .loadRead) :
    Moves O s
      { s with
        lock := { s.lock with calls := s.lock.calls ++ [pc] }
        history := s.history.begin op }
  | spin (i : ℕ) (pc pc' : Pc) (lock : State α) (hpc : s.lock.calls[i]? = some pc)
    (hcalls : lock.calls = s.lock.calls.set i pc') (hdata : lock.data = s.lock.data)
    (hout : pc.inside = false ∧ pc'.inside = false) (hopen : pc'.unfinished = pc.unfinished)
    (hkind : ∀ b, pc'.mutates = some b → pc.mutates = some b)
    (hdone : pc'.completed = pc.completed) (hbusy : ∀ panicked, pc ≠ .done panicked) :
    Moves O s { s with lock := lock }
  | enterWrite (i : ℕ) (hpc : s.lock.calls[i]? = some .enterWrite) :
    Moves O s { s with found := some s.lock.data, lock := setCall i .writing s.lock }
  | enterRead (i : ℕ) (hpc : s.lock.calls[i]? = some .enterRead) :
    Moves O s { s with lock := setCall i .reading s.lock }
  | scribble (i : ℕ) (value : α) (hpc : s.lock.calls[i]? = some .writing) :
    Moves O s { s with lock := { s.lock with data := value } }
  | completeWrite (i : ℕ) (job : History.Job ι ρ) (found : α)
    (hpc : s.lock.calls[i]? = some .writing) (hjob : s.history.jobs[i]? = some job)
    (hfound : s.found = some found) :
    Moves O s
      { s with
        lock := setCall i (.unlockWrite false)
          { s.lock with data := (O.apply job.op found).2 }
        history := s.history.settle i job (O.apply job.op found).1 }
  | completeRead (i : ℕ) (job : History.Job ι ρ) (hpc : s.lock.calls[i]? = some .reading)
    (hjob : s.history.jobs[i]? = some job) :
    Moves O s
      { s with
        lock := setCall i (.unlockRead false) s.lock
        history := s.history.settle i job (O.apply job.op s.lock.data).1 }
  | abandonWrite (i : ℕ) (hpc : s.lock.calls[i]? = some .writing) :
    Moves O s
      { s with
        lock := setCall i (.unlockWrite true) s.lock
        history := s.history.leave i s.lock.data }
  | abandonRead (i : ℕ) (hpc : s.lock.calls[i]? = some .reading) :
    Moves O s { s with lock := setCall i (.unlockRead true) s.lock }

/-- A step of the lock around a closure moves one call on, outside the closures. -/
theorem spin_spec {lock : State α} {move : Move α} (hm : spins move = true)
    (h : Spinlock.step s.lock (.move i move) = some lock) :
    ∃ pc pc', s.lock.calls[i]? = some pc ∧ lock.calls = s.lock.calls.set i pc' ∧
      lock.data = s.lock.data ∧ (pc.inside = false ∧ pc'.inside = false) ∧
      pc'.unfinished = pc.unfinished ∧ (∀ b, pc'.mutates = some b → pc.mutates = some b) ∧
      pc'.completed = pc.completed ∧ ∀ panicked, pc ≠ .done panicked := by
  obtain ⟨pc, hpc, hs⟩ := callStep_of_step h
  have hsame : s.lock.calls = s.lock.calls.set i pc := by
    obtain ⟨hlt, hget⟩ := List.getElem?_eq_some_iff.mp hpc
    rw [← hget, List.set_getElem_self hlt]
  cases pc with
  | lockWrite =>
    cases move with
    | exchange =>
      simp only [callStep] at hs
      split at hs
      · cases hs
        exact ⟨_, .enterWrite, hpc, rfl, rfl, ⟨rfl, rfl⟩, rfl,
          fun _ hb => hb, rfl, fun _ => Pc.noConfusion⟩
      · cases hs
    | refuse actual =>
      cases hs
      exact ⟨_, .lockWrite, hpc, hsame, rfl, ⟨rfl, rfl⟩, rfl,
        fun _ hb => hb, rfl, fun _ => Pc.noConfusion⟩
    | _ => cases hs
  | loadRead =>
    cases move with
    | load seen =>
      cases hs
      exact ⟨_, .lockRead seen, hpc, rfl, rfl, ⟨rfl, rfl⟩, rfl,
        fun _ hb => hb, rfl, fun _ => Pc.noConfusion⟩
    | _ => cases hs
  | lockRead current =>
    cases move with
    | load seen =>
      simp only [callStep] at hs
      split at hs
      · cases hs
        exact ⟨_, .lockRead seen, hpc, rfl, rfl, ⟨rfl, rfl⟩, rfl,
          fun _ hb => hb, rfl, fun _ => Pc.noConfusion⟩
      · cases hs
    | exchange =>
      simp only [callStep] at hs
      split at hs
      · cases hs
      split at hs
      · cases hs
        exact ⟨_, .enterRead, hpc, rfl, rfl, ⟨rfl, rfl⟩, rfl,
          fun _ hb => hb, rfl, fun _ => Pc.noConfusion⟩
      · cases hs
    | refuse actual =>
      simp only [callStep] at hs
      split at hs
      · cases hs
      · cases hs
        exact ⟨_, .lockRead actual, hpc, rfl, rfl, ⟨rfl, rfl⟩, rfl,
          fun _ hb => hb, rfl, fun _ => Pc.noConfusion⟩
    | _ => cases hs
  | unlockWrite panicked =>
    cases move with
    | unlock =>
      cases hs
      exact ⟨_, .done panicked, hpc, rfl, rfl, ⟨rfl, rfl⟩, rfl,
        fun _ hb => absurd hb (Option.some_ne_none _).symm, rfl, fun _ => Pc.noConfusion⟩
    | _ => cases hs
  | unlockRead panicked =>
    cases move with
    | unlock =>
      cases hs
      exact ⟨_, .done panicked, hpc, rfl, rfl, ⟨rfl, rfl⟩, rfl,
        fun _ hb => absurd hb (Option.some_ne_none _).symm, rfl, fun _ => Pc.noConfusion⟩
    | _ => cases hs
  | enterWrite | enterRead | writing | reading =>
    cases move with
    | load | exchange | refuse | unlock => cases hs
    | start | mutate | finish => cases hm
  | done panicked => cases move <;> cases hs

/-- A closure's own steps, read off the lock. -/
theorem lockStep_eq {pc : Pc} {move : Move α} (hpc : s.lock.calls[i]? = some pc)
    (hseen : move.seen = none) :
    s.lockStep i move =
      (callStep i s.lock pc move).map fun lock => { s with lock := lock } := by
  rw [lockStep, Spinlock.step, hpc, Option.bind_some, hseen]
  rfl

theorem moves_of_step {action : Action α ι} (h : step O s action = some t) : Moves O s t := by
  cases action with
  | call op =>
    obtain ⟨lock, hlock, rfl⟩ := Option.map_eq_some_iff.mp h
    have hcall := Moves.call (s := s) (O := O) op _ rfl
    cases hop : O.mutates op with
    | true =>
      rw [hop, if_pos rfl] at hlock hcall
      cases hlock
      exact hcall
    | false =>
      rw [hop, if_neg Bool.false_ne_true] at hlock hcall
      cases hlock
      exact hcall
  | spin i move =>
    simp only [step] at h
    split at h
    next hm =>
      obtain ⟨lock, hlock, rfl⟩ := Option.map_eq_some_iff.mp h
      obtain ⟨pc, pc', hpc, hcalls, hdata, hout, hopen, hkind, hdone, hbusy⟩ := spin_spec hm hlock
      exact .spin i pc pc' lock hpc hcalls hdata hout hopen hkind hdone hbusy
    next => cases h
  | enter i =>
    simp only [step] at h
    split at h
    next hpc =>
      rw [lockStep_eq (s := { s with found := some s.lock.data }) hpc rfl] at h
      cases h
      exact .enterWrite i hpc
    next hpc =>
      rw [lockStep_eq hpc rfl] at h
      cases h
      exact .enterRead i hpc
    next => cases h
  | scribble i value =>
    obtain ⟨lock, hlock, rfl⟩ := Option.map_eq_some_iff.mp h
    obtain ⟨pc, hpc, hs⟩ := callStep_of_step hlock
    cases pc with
    | writing =>
      cases hs
      exact .scribble i value hpc
    | _ => cases hs
  | complete i =>
    obtain ⟨job, hjob, h⟩ := Option.bind_eq_some_iff.mp h
    split at h
    next hpc =>
      obtain ⟨found, hfound, h⟩ := Option.bind_eq_some_iff.mp h
      dsimp only at h
      rw [lockStep_eq hpc rfl] at h
      simp only [callStep, Option.map_some, Option.bind_some] at h
      have hfinish := lockStep_eq
        (s := { s with lock := { s.lock with data := (O.apply job.op found).2 } }) hpc
        (rfl : (Move.finish false : Move α).seen = none)
      rw [hfinish] at h
      cases h
      exact .completeWrite i job found hpc hjob hfound
    next hpc =>
      rw [lockStep_eq hpc rfl] at h
      cases h
      exact .completeRead i job hpc hjob
    next => cases h
  | abandon i =>
    simp only [step] at h
    split at h
    next hpc =>
      rw [lockStep_eq hpc rfl] at h
      cases h
      exact .abandonWrite i hpc
    next hpc =>
      rw [lockStep_eq hpc rfl] at h
      cases h
      exact .abandonRead i hpc
    next => cases h

theorem lock_of_lockStep {move : Move α} (h : s.lockStep i move = some t) :
    Spinlock.step s.lock (.move i move) = some t.lock := by
  obtain ⟨lock, hlock, rfl⟩ := Option.map_eq_some_iff.mp h
  exact hlock

/-- A step of the session is a run of the lock. -/
theorem lock_reaches {action : Action α ι} (h : step O s action = some t) :
    Transition.Reaches Spinlock.step Transition.always s.lock t.lock := by
  cases action with
  | call op =>
    obtain ⟨lock, hlock, rfl⟩ := Option.map_eq_some_iff.mp h
    exact Transition.Reaches.refl.tail trivial hlock
  | spin i move =>
    simp only [step] at h
    split at h
    · exact Transition.Reaches.refl.tail trivial (lock_of_lockStep h)
    · cases h
  | enter i =>
    simp only [step] at h
    split at h
    · have hlock := lock_of_lockStep h
      exact Transition.Reaches.refl.tail trivial hlock
    · exact Transition.Reaches.refl.tail trivial (lock_of_lockStep h)
    · cases h
  | scribble i value => exact Transition.Reaches.refl.tail trivial (lock_of_lockStep h)
  | complete i =>
    obtain ⟨job, -, h⟩ := Option.bind_eq_some_iff.mp h
    split at h
    · obtain ⟨found, -, h⟩ := Option.bind_eq_some_iff.mp h
      obtain ⟨s₁, hs₁, h⟩ := Option.bind_eq_some_iff.mp h
      obtain ⟨s₂, hs₂, rfl⟩ := Option.map_eq_some_iff.mp h
      have hlock := lock_of_lockStep hs₂
      exact (Transition.Reaches.refl.tail trivial (lock_of_lockStep hs₁)).tail trivial hlock
    · obtain ⟨s₁, hs₁, rfl⟩ := Option.map_eq_some_iff.mp h
      have hlock := lock_of_lockStep hs₁
      exact Transition.Reaches.refl.tail trivial hlock
    · cases h
  | abandon i =>
    simp only [step] at h
    split at h
    · obtain ⟨s₁, hs₁, rfl⟩ := Option.map_eq_some_iff.mp h
      have hlock := lock_of_lockStep hs₁
      exact Transition.Reaches.refl.tail trivial hlock
    · exact Transition.Reaches.refl.tail trivial (lock_of_lockStep h)
    · cases h

/-! ## The calls and the order -/

/-- What a call's program point says about its place in the order. -/
structure Matched (O : AtomicObject α ι ρ) (calls : List Pc) (h : History α ι ρ) : Prop where
  length : h.jobs.length = calls.length
  began : ∀ (j : ℕ) (job : History.Job ι ρ), h.jobs[j]? = some job → job.began ≤ h.order.length
  pending : ∀ (j : ℕ) (pc : Pc), calls[j]? = some pc → pc.unfinished = true → h.Pending j
  kind : ∀ (j : ℕ) (pc : Pc) (job : History.Job ι ρ) (b : Bool), calls[j]? = some pc →
    h.jobs[j]? = some job → pc.mutates = some b → O.mutates job.op = b
  answered : ∀ (j : ℕ) (pc : Pc), calls[j]? = some pc → pc.completed = true →
    ∃ (job : History.Job ι ρ) (r : ρ), h.jobs[j]? = some job ∧ job.answer = some r

variable {calls : List Pc} {h : History α ι ρ} {pc pc' : Pc} {job : History.Job ι ρ}

theorem Matched.call (hm : Matched O calls h) (hl : h.Legal O initial) (op : ι) :
    Matched O (calls ++ [if O.mutates op then .lockWrite else .loadRead]) (h.begin op) := by
  have hentered : ∀ entry ∈ h.order, entry.call < calls.length := by
    intro entry he
    obtain ⟨k, hk⟩ := List.mem_iff_getElem?.mp he
    obtain ⟨job, hj, -⟩ := hl.placed k entry hk
    exact hm.length ▸ (List.getElem?_eq_some_iff.mp hj).1
  have hnew : ∀ {j : ℕ} {other : Pc}, (calls ++ [if O.mutates op then .lockWrite else .loadRead])[j]?
      = some other → calls[j]? = some other ∨
        j = calls.length ∧ other = if O.mutates op then .lockWrite else .loadRead := by
    intro j other hj
    by_cases hlt : j < calls.length
    · rw [List.getElem?_append_left hlt] at hj
      exact Or.inl hj
    · have hle : j < calls.length + 1 := by
        have := (List.getElem?_eq_some_iff.mp hj).1
        rwa [List.length_append] at this
      have hjl : j = calls.length := by omega
      subst hjl
      rw [List.getElem?_concat_length] at hj
      exact Or.inr ⟨rfl, (Option.some.inj hj).symm⟩
  refine ⟨?_, ?_, ?_, ?_, ?_⟩
  · show (h.jobs ++ [_]).length = (calls ++ [_]).length
    rw [List.length_append, List.length_append, hm.length]
    rfl
  · intro j job hj
    obtain hold | rfl := Slots.getElem?_append_cases hj
    · exact hm.began j job hold
    · exact le_rfl
  · intro j other hj hopen
    obtain hold | ⟨rfl, -⟩ := hnew hj
    · exact hm.pending j other hold hopen
    · exact fun entry he => (hentered entry he).ne
  · intro j other job b hj hjob hb
    obtain hold | ⟨rfl, rfl⟩ := hnew hj
    · have hlt : j < h.jobs.length := hm.length ▸ (List.getElem?_eq_some_iff.mp hold).1
      have hjob : (h.jobs ++ [_])[j]? = some job := hjob
      rw [List.getElem?_append_left hlt] at hjob
      exact hm.kind j other job b hold hjob hb
    · have hjob : (h.jobs ++ [_])[calls.length]? = some job := hjob
      rw [← hm.length, List.getElem?_concat_length] at hjob
      cases hjob
      cases hop : O.mutates op with
      | true =>
        rw [hop] at hb
        exact Option.some.inj hb
      | false =>
        rw [hop] at hb
        exact Option.some.inj hb
  · intro j other hj hdone
    obtain hold | ⟨-, rfl⟩ := hnew hj
    · obtain ⟨job, r, hjob, hr⟩ := hm.answered j other hold hdone
      have hlt : j < h.jobs.length := (List.getElem?_eq_some_iff.mp hjob).1
      refine ⟨job, r, ?_, hr⟩
      show (h.jobs ++ [_])[j]? = some job
      rw [List.getElem?_append_left hlt]
      exact hjob
    · split at hdone <;> cases hdone

/-- A call moves on without a place. -/
theorem Matched.move (hm : Matched O calls h) (hpc : calls[i]? = some pc)
    (hopen : pc'.unfinished = true → pc.unfinished = true)
    (hkind : ∀ b, pc'.mutates = some b → pc.mutates = some b)
    (hdone : pc'.completed = true → pc.completed = true) :
    Matched O (calls.set i pc') h := by
  refine ⟨by rw [List.length_set]; exact hm.length, hm.began, ?_, ?_, ?_⟩
  · intro j other hj hother
    obtain ⟨rfl, rfl⟩ | ⟨-, hold⟩ := Slots.getElem?_set_cases hj
    · exact hm.pending j pc hpc (hopen hother)
    · exact hm.pending j other hold hother
  · intro j other job b hj hjob hb
    obtain ⟨rfl, rfl⟩ | ⟨-, hold⟩ := Slots.getElem?_set_cases hj
    · exact hm.kind j pc job b hpc hjob (hkind b hb)
    · exact hm.kind j other job b hold hjob hb
  · intro j other hj hother
    obtain ⟨rfl, rfl⟩ | ⟨-, hold⟩ := Slots.getElem?_set_cases hj
    · exact hm.answered j pc hpc (hdone hother)
    · exact hm.answered j other hold hother

/-- A call takes its place and is answered. -/
theorem Matched.settle (hm : Matched O calls h) (hpc : calls[i]? = some pc)
    (hjob : h.jobs[i]? = some job) (hopen : pc'.unfinished = false)
    (hkind : ∀ b, pc'.mutates = some b → pc.mutates = some b) (r : ρ) :
    Matched O (calls.set i pc') (h.settle i job r) := by
  refine ⟨?_, ?_, ?_, ?_, ?_⟩
  · show (h.jobs.set i _).length = (calls.set i pc').length
    rw [List.length_set, List.length_set, hm.length]
  · intro j other hj
    show other.began ≤ (h.order ++ [_]).length
    rw [List.length_append]
    obtain ⟨rfl, rfl⟩ | ⟨-, hold⟩ := Slots.getElem?_set_cases hj
    · exact Nat.le_succ_of_le (hm.began j job hjob)
    · exact Nat.le_succ_of_le (hm.began j other hold)
  · intro j other hj hother
    obtain ⟨rfl, rfl⟩ | ⟨hne, hold⟩ := Slots.getElem?_set_cases hj
    · rw [hopen] at hother
      cases hother
    · exact History.pending_concat (hm.pending j other hold hother) (Ne.symm hne)
  · intro j other job' b hj hjob' hb
    have hpast : ∃ past, h.jobs[j]? = some past ∧ past.op = job'.op := by
      obtain ⟨rfl, rfl⟩ | ⟨-, hold⟩ := Slots.getElem?_set_cases hjob'
      · exact ⟨job, hjob, rfl⟩
      · exact ⟨job', hold, rfl⟩
    obtain ⟨past, hpast, hop⟩ := hpast
    rw [← hop]
    obtain ⟨rfl, rfl⟩ | ⟨-, hold⟩ := Slots.getElem?_set_cases hj
    · exact hm.kind j pc past b hpc hpast (hkind b hb)
    · exact hm.kind j other past b hold hpast hb
  · intro j other hj hother
    obtain ⟨rfl, -⟩ | ⟨hne, hold⟩ := Slots.getElem?_set_cases hj
    · exact ⟨_, r, Slots.getElem?_set_of_some hjob, rfl⟩
    · obtain ⟨job', r', hjob', hr'⟩ := hm.answered j other hold hother
      refine ⟨job', r', ?_, hr'⟩
      show (h.jobs.set i _)[j]? = some job'
      rw [List.getElem?_set_ne (Ne.symm hne)]
      exact hjob'

/-- A call is abandoned and takes its place with what it left. -/
theorem Matched.leave (hm : Matched O calls h) (hpc : calls[i]? = some pc)
    (hopen : pc'.unfinished = false) (hdone : pc'.completed = false)
    (hkind : ∀ b, pc'.mutates = some b → pc.mutates = some b) (value : α) :
    Matched O (calls.set i pc') (h.leave i value) := by
  refine ⟨by rw [List.length_set]; exact hm.length, ?_, ?_, ?_, ?_⟩
  · intro j job hj
    show job.began ≤ (h.order ++ [_]).length
    rw [List.length_append]
    exact Nat.le_succ_of_le (hm.began j job hj)
  · intro j other hj hother
    obtain ⟨rfl, rfl⟩ | ⟨hne, hold⟩ := Slots.getElem?_set_cases hj
    · rw [hopen] at hother
      cases hother
    · exact History.pending_concat (hm.pending j other hold hother) (Ne.symm hne)
  · intro j other job b hj hjob hb
    obtain ⟨rfl, rfl⟩ | ⟨-, hold⟩ := Slots.getElem?_set_cases hj
    · exact hm.kind j pc job b hpc hjob (hkind b hb)
    · exact hm.kind j other job b hold hjob hb
  · intro j other hj hother
    obtain ⟨rfl, rfl⟩ | ⟨-, hold⟩ := Slots.getElem?_set_cases hj
    · rw [hdone] at hother
      cases hother
    · exact hm.answered j other hold hother

/-! ## The value and the order -/

/-- While a closure of `with_mut` runs, no other closure does. -/
theorem inside_of_writing {lock : State α} (hc : lock.Counted) (hi : lock.calls[i]? = some .writing)
    {j : ℕ} (hj : lock.calls[j]? = some pc) (hin : pc.inside = true) : j = i := by
  have hpos : 0 < lock.writers := List.countP_pos_iff.mpr ⟨_, List.mem_of_getElem? hi, rfl⟩
  obtain ⟨-, hone, hnone⟩ | ⟨hnone, -, -⟩ := hc
  · cases pc with
    | writing => exact Slots.eq_of_countP_le_one (p := Pc.holdsWrite) hone.le hj rfl hi rfl
    | reading => exact absurd rfl (List.countP_eq_zero.mp hnone _ (List.mem_of_getElem? hj))
    | _ => cases hin
  · exact absurd hnone hpos.ne'

/-- A call that has been let in to write runs alone. -/
theorem not_writing_of_enterWrite {lock : State α} (hc : lock.Counted)
    (hi : lock.calls[i]? = some .enterWrite) : .writing ∉ lock.calls := by
  intro hm
  obtain ⟨j, hj⟩ := List.mem_iff_getElem?.mp hm
  have hpos : 0 < lock.writers := List.countP_pos_iff.mpr ⟨_, hm, rfl⟩
  obtain ⟨-, hone, -⟩ | ⟨hnone, -, -⟩ := hc
  · obtain rfl := Slots.eq_of_countP_le_one (p := Pc.holdsWrite) hone.le hj rfl hi rfl
    cases hi.symm.trans hj
  · exact absurd hnone hpos.ne'

theorem not_writing_of_reading {lock : State α} (hc : lock.Counted)
    (hi : lock.calls[i]? = some .reading) : .writing ∉ lock.calls := by
  intro hm
  obtain ⟨j, hj⟩ := List.mem_iff_getElem?.mp hm
  obtain rfl := inside_of_writing hc hj hi rfl
  cases hi.symm.trans hj

theorem writing_mem_set (hpc : calls[i]? = some pc) (hold : pc ≠ .writing) (hnew : pc' ≠ .writing) :
    .writing ∈ calls.set i pc' ↔ .writing ∈ calls := by
  constructor
  · intro hm
    obtain h | h := List.mem_or_eq_of_mem_set hm
    · exact h
    · exact absurd h.symm hnew
  · exact fun hm => Slots.mem_set_of_ne hpc hm hold.symm

/-- Once the one closure that writes has ended, none does. -/
theorem not_writing_set (pc' : Pc) {lock : State α} (hc : lock.Counted)
    (hi : lock.calls[i]? = some .writing) (hnew : pc' ≠ .writing) : .writing ∉ lock.calls.set i pc' := by
  intro hm
  obtain ⟨j, hj⟩ := List.mem_iff_getElem?.mp hm
  obtain ⟨-, hpc⟩ | ⟨hne, hold⟩ := Slots.getElem?_set_cases hj
  · exact hnew hpc.symm
  · exact hne (inside_of_writing hc hi hold rfl)

/-- What holds of every session. -/
structure Ok (O : AtomicObject α ι ρ) (initial : α) (s : Session α ι ρ) : Prop where
  counted : s.lock.Counted
  legal : s.history.Legal O initial
  matched : Matched O s.lock.calls s.history
  /-- Between the closures that write, the value is the one the order leaves. -/
  settled : .writing ∉ s.lock.calls → s.lock.data = O.replay initial s.history.order
  found : .writing ∈ s.lock.calls → s.found = some (O.replay initial s.history.order)

theorem ok_init (initial : α) : Ok O initial (init initial) := by
  refine ⟨counted_new initial, History.legal_empty, ⟨rfl, ?_, ?_, ?_, ?_⟩, fun _ => rfl, ?_⟩
  · intro j job hj
    cases hj
  · intro j pc hj
    cases hj
  · intro j pc job b hj
    cases hj
  · intro j pc hj
    cases hj
  · intro hm
    cases hm

theorem ok_of_moves (hk : Ok O initial s) (hcounted : t.lock.Counted) (hm : Moves O s t) :
    Ok O initial t ∧ s.history.Extends t.history := by
  obtain ⟨hc, hl, hmatched, hsettled, hfound⟩ := hk
  cases hm with
  | call op pc hpc =>
    have hmem : .writing ∈ s.lock.calls ++ [pc] ↔ .writing ∈ s.lock.calls := by
      have hne : pc ≠ .writing := by
        rw [hpc]
        split <;> exact Pc.noConfusion
      rw [List.mem_append, List.mem_singleton, or_iff_left hne.symm]
    refine ⟨⟨hcounted, hl.begin op, hpc ▸ hmatched.call hl op, ?_, ?_⟩, History.extends_begin _ op⟩
    · exact fun hno => hsettled fun hin => hno (hmem.mpr hin)
    · exact fun hin => hfound (hmem.mp hin)
  | spin i pc pc' lock hpc hcalls hdata hout hopen hkind hdone hbusy =>
    have hmem : .writing ∈ lock.calls ↔ .writing ∈ s.lock.calls := by
      rw [hcalls]
      refine writing_mem_set hpc ?_ ?_
      · rintro rfl
        cases hout.1
      · rintro rfl
        cases hout.2
    refine ⟨⟨hcounted, hl, ?_, ?_, ?_⟩, History.Extends.refl _⟩
    · show Matched O lock.calls s.history
      rw [hcalls]
      exact hmatched.move hpc (fun h => hopen ▸ h) hkind fun h => hdone ▸ h
    · exact fun hno => hdata.trans (hsettled fun hin => hno (hmem.mpr hin))
    · exact fun hin => hfound (hmem.mp hin)
  | enterWrite i hpc =>
    have hno := not_writing_of_enterWrite hc hpc
    refine ⟨⟨hcounted, hl, hmatched.move hpc (fun _ => rfl) (fun _ h => h) nofun, ?_, ?_⟩,
      History.Extends.refl _⟩
    · intro hout
      exact absurd (List.mem_of_getElem? (Slots.getElem?_set_of_some hpc)) hout
    · intro _
      exact congrArg some (hsettled hno)
  | enterRead i hpc =>
    have hmem : .writing ∈ s.lock.calls.set i .reading ↔ .writing ∈ s.lock.calls :=
      writing_mem_set hpc Pc.noConfusion Pc.noConfusion
    refine ⟨⟨hcounted, hl, hmatched.move hpc (fun _ => rfl) (fun _ h => h) nofun, ?_, ?_⟩,
      History.Extends.refl _⟩
    · exact fun hno => hsettled fun hin => hno (hmem.mpr hin)
    · exact fun hin => hfound (hmem.mp hin)
  | scribble i value hpc =>
    refine ⟨⟨hcounted, hl, hmatched, ?_, hfound⟩, History.Extends.refl _⟩
    exact fun hno => absurd (List.mem_of_getElem? hpc) hno
  | completeWrite i job found hpc hjob hf =>
    have hvalue : found = O.replay initial s.history.order :=
      Option.some.inj (hf.symm.trans (hfound (List.mem_of_getElem? hpc)))
    have hout := not_writing_set (.unlockWrite false) hc hpc Pc.noConfusion
    have hplaced : Matched O (s.lock.calls.set i (.unlockWrite false))
        (s.history.settle i job (O.apply job.op found).1) :=
      hmatched.settle hpc hjob rfl (by exact fun _ hb => hb) _
    refine ⟨⟨hcounted, ?_, hplaced, ?_, ?_⟩, History.extends_settle hjob _⟩
    · exact hl.settle hjob (hmatched.began i job hjob) (hmatched.pending i _ hpc rfl) (hvalue ▸ rfl)
    · intro _
      show (O.apply job.op found).2 = O.replay initial (s.history.order ++ [_])
      rw [O.replay_concat, ← hvalue]
      rfl
    · exact fun hin => absurd hin hout
  | completeRead i job hpc hjob =>
    have hno := not_writing_of_reading hc hpc
    have hmem : .writing ∈ s.lock.calls.set i (.unlockRead false) ↔ .writing ∈ s.lock.calls :=
      writing_mem_set hpc Pc.noConfusion Pc.noConfusion
    have hread : O.mutates job.op = false := hmatched.kind i _ job false hpc hjob rfl
    have hplaced : Matched O (s.lock.calls.set i (.unlockRead false))
        (s.history.settle i job (O.apply job.op s.lock.data).1) :=
      hmatched.settle hpc hjob rfl (by exact fun _ hb => hb) _
    refine ⟨⟨hcounted, ?_, hplaced, ?_, ?_⟩, History.extends_settle hjob _⟩
    · exact hl.settle hjob (hmatched.began i job hjob) (hmatched.pending i _ hpc rfl)
        (hsettled hno ▸ rfl)
    · intro _
      show s.lock.data = O.replay initial (s.history.order ++ [_])
      rw [O.replay_concat, hsettled hno]
      exact (O.unchanged job.op _ hread).symm
    · exact fun hin => absurd (hmem.mp hin) hno
  | abandonWrite i hpc =>
    have hout := not_writing_set (.unlockWrite true) hc hpc Pc.noConfusion
    have hlt : i < s.history.jobs.length :=
      hmatched.length ▸ (List.getElem?_eq_some_iff.mp hpc).1
    have hjob : s.history.jobs[i]? = some s.history.jobs[i] := List.getElem?_eq_getElem hlt
    have hplaced : Matched O (s.lock.calls.set i (.unlockWrite true))
        (s.history.leave i s.lock.data) :=
      hmatched.leave hpc rfl rfl (by exact fun _ hb => hb) _
    refine ⟨⟨hcounted, ?_, hplaced, ?_, ?_⟩, History.extends_leave _ i _⟩
    · exact hl.leave hjob (hmatched.began i _ hjob) (hmatched.pending i _ hpc rfl) _
    · intro _
      show s.lock.data = O.replay initial (s.history.order ++ [_])
      rw [O.replay_concat]
      rfl
    · exact fun hin => absurd hin hout
  | abandonRead i hpc =>
    have hmem : .writing ∈ s.lock.calls.set i (.unlockRead true) ↔ .writing ∈ s.lock.calls :=
      writing_mem_set hpc Pc.noConfusion Pc.noConfusion
    refine ⟨⟨hcounted, hl, hmatched.move hpc nofun (fun _ h => h) nofun, ?_, ?_⟩,
      History.Extends.refl _⟩
    · exact fun hno => hsettled fun hin => hno (hmem.mpr hin)
    · exact fun hin => hfound (hmem.mp hin)

theorem ok_step {action : Action α ι} (hk : Ok O initial s) (h : step O s action = some t) :
    Ok O initial t ∧ s.history.Extends t.history :=
  ok_of_moves hk ((lock_reaches h).invariant (fun _ _ _ hs _ => counted_step hs) hk.counted)
    (moves_of_step h)

/-- An answer is final. -/
theorem answer_of_step {action : Action α ι} (hk : Ok O initial s) (h : step O s action = some t)
    {k : ℕ} {r : ρ} (hj : s.history.jobs[k]? = some job) (hr : job.answer = some r) :
    t.history.jobs[k]? = some job := by
  have hother : ∀ {i : ℕ} {pc : Pc} {own : History.Job ι ρ}, s.lock.calls[i]? = some pc →
      pc.unfinished = true → (s.history.jobs.set i own)[k]? = some job := by
    intro i pc own hpc hopen
    have hne : i ≠ k := by
      rintro rfl
      rw [hk.legal.answer_eq_none (hk.matched.pending i pc hpc hopen) hj] at hr
      cases hr
    rw [List.getElem?_set_ne hne]
    exact hj
  cases moves_of_step h with
  | call op pc hpc =>
    have hlt : k < s.history.jobs.length := (List.getElem?_eq_some_iff.mp hj).1
    show (s.history.jobs ++ [_])[k]? = some job
    rw [List.getElem?_append_left hlt]
    exact hj
  | completeWrite i own found hpc => exact hother hpc rfl
  | completeRead i own hpc => exact hother hpc rfl
  | spin | enterWrite | enterRead | scribble | abandonWrite | abandonRead => exact hj

/-- A call that is over stays over. -/
theorem done_of_step {action : Action α ι} (h : step O s action = some t) {panicked : Bool}
    (hi : s.lock.calls[i]? = some (.done panicked)) : t.lock.calls[i]? = some (.done panicked) := by
  have hother : ∀ {j : ℕ} {pc pc' : Pc}, s.lock.calls[j]? = some pc →
      (∀ panicked, pc ≠ .done panicked) → (s.lock.calls.set j pc')[i]? = some (.done panicked) := by
    intro j pc pc' hpc hbusy
    have hne : j ≠ i := by
      rintro rfl
      exact hbusy panicked (Option.some.inj (hpc.symm.trans hi))
    rw [List.getElem?_set_ne hne]
    exact hi
  cases moves_of_step h with
  | call op pc hpc =>
    have hlt : i < s.lock.calls.length := (List.getElem?_eq_some_iff.mp hi).1
    show (s.lock.calls ++ [pc])[i]? = _
    rw [List.getElem?_append_left hlt]
    exact hi
  | spin j pc pc' lock hpc hcalls hdata hout hopen hkind hdone hbusy =>
    show lock.calls[i]? = _
    rw [hcalls]
    exact hother hpc hbusy
  | enterWrite j hpc => exact hother hpc nofun
  | enterRead j hpc => exact hother hpc nofun
  | scribble j value hpc => exact hi
  | completeWrite j own found hpc => exact hother hpc nofun
  | completeRead j own hpc => exact hother hpc nofun
  | abandonWrite j hpc => exact hother hpc nofun
  | abandonRead j hpc => exact hother hpc nofun

theorem ok_of_reaches (h : Transition.Reaches (step O) Transition.always s t)
    (hs : Ok O initial s) : Ok O initial t ∧ s.history.Extends t.history :=
  h.invariant (I := fun t => Ok O initial t ∧ s.history.Extends t.history)
    (fun _ _ _ ht _ he => ⟨(ok_step ht.1 he).1, ht.2.trans (ok_step ht.1 he).2⟩)
    ⟨hs, History.Extends.refl _⟩

/-- **The lock makes operations atomic**. In every run there is one order in which the operations
took effect. Between the closures of `with_mut` the value is the one this order leaves, and it is
so all the time that a closure of `with` reads it; a call whose closure came to its end has been
answered, each answer is the object's at the call's place in the order, no call has two places,
and none has one before it was made. The order only grows, and a call made later has a later
place. -/
theorem operations_atomic (O : AtomicObject α ι ρ) (initial : α)
    (hs : Transition.Reaches (step O) Transition.always (init initial) s)
    (ht : Transition.Reaches (step O) Transition.always s t) :
    (.writing ∉ t.lock.calls ∨ .reading ∈ t.lock.calls →
        t.lock.data = O.replay initial t.history.order) ∧
      (∀ (i : ℕ) (pc : Pc), t.lock.calls[i]? = some pc → pc.completed = true →
        ∃ (job : History.Job ι ρ) (r : ρ), t.history.jobs[i]? = some job ∧ job.answer = some r) ∧
      t.history.Legal O initial ∧
      s.history.order <+: t.history.order ∧
      ∀ (k : ℕ) (entry : History.Entry α ι), t.history.order[k]? = some entry →
        s.lock.calls.length ≤ entry.call → s.history.order.length ≤ k := by
  obtain ⟨hks, -⟩ := ok_of_reaches hs (ok_init initial)
  obtain ⟨hkt, hext⟩ := ok_of_reaches ht hks
  refine ⟨?_, hkt.matched.answered, hkt.legal, hext.order, ?_⟩
  · rintro (hno | hread)
    · exact hkt.settled hno
    · obtain ⟨i, hi⟩ := List.mem_iff_getElem?.mp hread
      exact hkt.settled (not_writing_of_reading hkt.counted hi)
  · intro k entry hk hlate
    exact hkt.legal.place_le hext hk (hks.matched.length ▸ hlate)

/-- A number to add to, or to read. -/
def counter : AtomicObject ℕ (Option ℕ) ℕ where
  apply op a := (a, a + op.getD 0)
  mutates op := op.isSome
  unchanged op a h := by
    cases op with
    | none => rfl
    | some n => cases h

/-- A reader that comes while the writer stores something else finds the sum. -/
theorem operations_atomic_counter : ∃ t : Session ℕ (Option ℕ) ℕ,
    Transition.Reaches (step counter) Transition.always (init 0) t ∧
    t.lock.calls = [.done false, .done false] ∧
      t.history.jobs.map History.Job.answer = [some 0, some 2] ∧
      t.lock.data = counter.replay 0 t.history.order := by
  have hrun : Transition.run (step counter) (init 0)
      [.call (some 2), .spin 0 .exchange, .enter 0, .call none, .spin 1 (.load 255),
        .scribble 0 99, .complete 0, .spin 0 .unlock, .spin 1 (.load 0), .spin 1 .exchange,
        .enter 1, .complete 1, .spin 1 .unlock] =
      some ⟨⟨2, 0, [0, 255, 0, 1, 0], [.done false, .done false]⟩, some 0,
        ⟨[.applied 0 (some 2), .applied 1 none],
          [⟨some 2, 0, some 0⟩, ⟨none, 0, some 2⟩]⟩⟩ := by decide
  have hreaches := Transition.reaches_of_run_always _ hrun
  have h := operations_atomic counter 0 Transition.Reaches.refl hreaches
  exact ⟨_, hreaches, rfl, rfl, h.1 (Or.inl (by decide))⟩

end Session

end Logwise.Spinlock
