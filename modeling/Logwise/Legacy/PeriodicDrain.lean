import Logwise.Library.Transition
import Logwise.Library.Slots
import Mathlib.Order.Basic

/-!
# The periodic drain and its timer threads

`PeriodicDrainToConsole::poll` (`inmemory_logger.rs`) and the threads it spawns, as one machine. A
step is one access of a shared cell, under its mutex where it has one; instants and durations are in
nanoseconds. Polls of the future exclude each other, its timers run beside them.
-/

namespace Logwise.Legacy.PeriodicDrain

/-- `Duration::from_millis(100)`. -/
def interval : ℕ := 100000000

/-- How far the poll in progress has got. -/
inductive PollPc (Waker : Type*) where
  | idle
  | readClock (waker : Waker)
  | warn (waker : Waker)
  | drain (waker : Waker) (finished : Bool)
  | storeWaker (waker : Waker)
  | swapArmed (waker : Waker)
  | spawn (waker : Waker)
  deriving DecidableEq

inductive TimerPc (Waker : Type*) where
  | start
  | sleep (wakeAt : ℕ)
  | clearArmed
  | takeWaker
  | wake (waker : Waker)
  | done
  deriving DecidableEq

/-- How the most recent poll ended. -/
inductive Returned (Waker : Type*) where
  | ready
  /-- The waker is the one the poll was given. -/
  | pending (waker : Waker)
  | panicked
  deriving DecidableEq

/-- The future, the state it shares with its timers, the logger's buffer and the console. -/
structure State (Waker : Type*) where
  now : ℕ
  startTime : Option ℕ
  logs : List String
  console : List String
  armed : Bool
  waker : Option Waker
  poll : PollPc Waker
  timers : List (TimerPc Waker)
  /-- How the most recent poll ended, if it has; not a cell of the source. -/
  returned : Option (Returned Waker)
  /-- The wakers woken since one was last registered; not a cell of the source. -/
  woken : List Waker
  /-- Whether `thread::spawn` has panicked; not a cell of the source. -/
  spawnFailed : Bool
  deriving DecidableEq

inductive Action (Waker : Type*) where
  | tick (elapsed : ℕ)
  /-- A record reaches the logger. -/
  | log (message : String)
  | poll (waker : Waker)
  | stepPoll
  /-- `thread::spawn` panics, and the poll with it. -/
  | spawnFails
  | stepTimer (i : ℕ)
  deriving DecidableEq

variable {Waker : Type*}

def initial : State Waker :=
  { now := 0, startTime := none, logs := [], console := [], armed := false, waker := none
    poll := .idle, timers := [], returned := none, woken := [], spawnFailed := false }

def ret (returned : Returned Waker) (s : State Waker) : State Waker :=
  { s with poll := .idle, returned := some returned }

def pollStep (duration : ℕ) (s : State Waker) : PollPc Waker → Option (State Waker)
  | .idle => none
  | .readClock waker =>
    let startTime := s.startTime.getD s.now
    let s := { s with startTime := some startTime }
    if duration ≤ s.now - startTime then some { s with poll := .warn waker }
    else some { s with poll := .drain waker false }
  -- `warn_sync!`; its record reaches this logger, if it is a global one, as any other does
  | .warn waker => some { s with poll := .drain waker true }
  | .drain waker finished =>
    let s := { s with console := s.console ++ s.logs, logs := [] }
    if finished then some (ret .ready s) else some { s with poll := .storeWaker waker }
  | .storeWaker waker => some { s with waker := some waker, woken := [], poll := .swapArmed waker }
  | .swapArmed waker =>
    if s.armed then some (ret (.pending waker) s)
    else some { s with armed := true, poll := .spawn waker }
  | .spawn waker => some (ret (.pending waker) { s with timers := s.timers ++ [.start] })

def setTimer (i : ℕ) (pc : TimerPc Waker) (s : State Waker) : State Waker :=
  { s with timers := s.timers.set i pc }

def timerStep (i : ℕ) (s : State Waker) : TimerPc Waker → Option (State Waker)
  | .start => some (setTimer i (.sleep (s.now + interval)) s)
  | .sleep wakeAt => if wakeAt ≤ s.now then some (setTimer i .clearArmed s) else none
  | .clearArmed => some (setTimer i .takeWaker { s with armed := false })
  | .takeWaker =>
    match s.waker with
    | some waker => some (setTimer i (.wake waker) { s with waker := none })
    | none => some (setTimer i .done s)
  | .wake waker => some (setTimer i .done { s with woken := s.woken ++ [waker] })
  | .done => none

def step (duration : ℕ) (s : State Waker) : Action Waker → Option (State Waker)
  | .tick elapsed => some { s with now := s.now + elapsed }
  | .log message => some { s with logs := s.logs ++ [message] }
  | .poll waker =>
    match s.poll with
    | .idle => some { s with poll := .readClock waker, returned := none }
    | _ => none
  | .stepPoll => pollStep duration s s.poll
  | .spawnFails =>
    match s.poll with
    | .spawn _ => some (ret .panicked { s with spawnFailed := true })
    | _ => none
  | .stepTimer i => s.timers[i]?.bind (timerStep i s)

/-- The thread has yet to store `false`. -/
def TimerPc.beforeClear : TimerPc Waker → Bool
  | .start | .sleep _ | .clearArmed => true
  | _ => false

/-- The thread has yet to look for a waker. -/
def TimerPc.beforeTake : TimerPc Waker → Bool
  | .start | .sleep _ | .clearArmed | .takeWaker => true
  | _ => false

def Returned.waker : Returned Waker → Option Waker
  | .pending waker => some waker
  | _ => none

/-- The waker of the most recent poll, once that has returned `Pending`. -/
def State.waiting (s : State Waker) : Option Waker :=
  match s.poll with
  | .idle => s.returned.bind Returned.waker
  | _ => none

/-- The waker of the most recent poll, from the moment it is registered. -/
def State.registration (s : State Waker) : Option Waker :=
  match s.poll with
  | .swapArmed waker | .spawn waker => some waker
  | _ => s.waiting

def PollPc.spawns : PollPc Waker → Bool
  | .spawn _ => true
  | _ => false

variable {duration : ℕ} {s t : State Waker}

/-- What a step does to the cells that the poll and the timers share. -/
inductive Moves (s t : State Waker) : Prop where
  | aside (hshared : t.armed = s.armed ∧ t.waker = s.waker ∧ t.timers = s.timers ∧
      t.woken = s.woken ∧ t.spawnFailed = s.spawnFailed) (hspawns : t.poll.spawns = s.poll.spawns)
      (hpoll : t.registration = s.registration ∧ t.waiting = s.waiting ∨
        t.registration = none ∧ t.waiting = none)
  | register (waker : Waker) (hs : s.poll = .storeWaker waker)
      (ht : t = { s with waker := some waker, woken := [], poll := .swapArmed waker })
  | armedAlready (waker : Waker) (hs : s.poll = .swapArmed waker) (harmed : s.armed = true)
      (ht : t = ret (.pending waker) s)
  | arm (waker : Waker) (hs : s.poll = .swapArmed waker) (harmed : s.armed = false)
      (ht : t = { s with armed := true, poll := .spawn waker })
  | spawn (waker : Waker) (hs : s.poll = .spawn waker)
      (ht : t = ret (.pending waker) { s with timers := s.timers ++ [.start] })
  | spawnFails (waker : Waker) (hs : s.poll = .spawn waker)
      (ht : t = ret .panicked { s with spawnFailed := true })
  | sleep (i : ℕ) (old new : TimerPc Waker) (hi : s.timers[i]? = some old)
      (hold : old.beforeClear = true) (hnew : new.beforeClear = true) (ht : t = setTimer i new s)
  | clear (i : ℕ) (hi : s.timers[i]? = some .clearArmed)
      (ht : t = setTimer i .takeWaker { s with armed := false })
  | take (i : ℕ) (waker : Waker) (hi : s.timers[i]? = some .takeWaker)
      (hwaker : s.waker = some waker) (ht : t = setTimer i (.wake waker) { s with waker := none })
  | takeNone (i : ℕ) (hi : s.timers[i]? = some .takeWaker) (hwaker : s.waker = none)
      (ht : t = setTimer i .done s)
  | wake (i : ℕ) (waker : Waker) (hi : s.timers[i]? = some (.wake waker))
      (ht : t = setTimer i .done { s with woken := s.woken ++ [waker] })

theorem moves_of_pollStep (hs : pollStep duration s s.poll = some t) : Moves s t := by
  cases hpoll : s.poll with
  | idle =>
    rw [hpoll] at hs
    cases hs
  | readClock waker =>
    rw [hpoll] at hs
    simp only [pollStep] at hs
    split at hs <;> cases hs <;>
      exact .aside ⟨rfl, rfl, rfl, rfl, rfl⟩ (by rw [hpoll]; rfl) (Or.inr ⟨rfl, rfl⟩)
  | warn waker =>
    rw [hpoll] at hs
    cases hs
    exact .aside ⟨rfl, rfl, rfl, rfl, rfl⟩ (by rw [hpoll]; rfl) (Or.inr ⟨rfl, rfl⟩)
  | drain waker finished =>
    rw [hpoll] at hs
    cases finished <;> cases hs <;>
      exact .aside ⟨rfl, rfl, rfl, rfl, rfl⟩ (by rw [hpoll]; rfl) (Or.inr ⟨rfl, rfl⟩)
  | storeWaker waker =>
    rw [hpoll] at hs
    cases hs
    exact .register waker hpoll rfl
  | swapArmed waker =>
    rw [hpoll] at hs
    simp only [pollStep] at hs
    split at hs
    next harmed =>
      cases hs
      exact .armedAlready waker hpoll harmed rfl
    next harmed =>
      cases hs
      exact .arm waker hpoll ((Bool.not_eq_true _).mp harmed) rfl
  | spawn waker =>
    rw [hpoll] at hs
    cases hs
    exact .spawn waker hpoll rfl

theorem moves_of_timerStep {i : ℕ} {pc : TimerPc Waker} (hi : s.timers[i]? = some pc)
    (hs : timerStep i s pc = some t) : Moves s t := by
  cases pc with
  | start =>
    cases hs
    exact .sleep i _ _ hi rfl rfl rfl
  | sleep wakeAt =>
    simp only [timerStep] at hs
    split at hs <;> cases hs
    exact .sleep i _ _ hi rfl rfl rfl
  | clearArmed =>
    cases hs
    exact .clear i hi rfl
  | takeWaker =>
    simp only [timerStep] at hs
    split at hs
    next waker hwaker =>
      cases hs
      exact .take i waker hi hwaker rfl
    next hwaker =>
      cases hs
      exact .takeNone i hi hwaker rfl
  | wake waker =>
    cases hs
    exact .wake i waker hi rfl
  | done => cases hs

theorem moves_of_step {a : Action Waker} (hs : step duration s a = some t) : Moves s t := by
  cases a with
  | tick elapsed =>
    cases hs
    exact .aside ⟨rfl, rfl, rfl, rfl, rfl⟩ rfl (Or.inl ⟨rfl, rfl⟩)
  | log message =>
    cases hs
    exact .aside ⟨rfl, rfl, rfl, rfl, rfl⟩ rfl (Or.inl ⟨rfl, rfl⟩)
  | poll waker =>
    simp only [step] at hs
    split at hs
    next hidle =>
      cases hs
      exact .aside ⟨rfl, rfl, rfl, rfl, rfl⟩ (by rw [hidle]; rfl) (Or.inr ⟨rfl, rfl⟩)
    next => cases hs
  | stepPoll => exact moves_of_pollStep hs
  | spawnFails =>
    simp only [step] at hs
    split at hs
    next waker hpoll =>
      cases hs
      exact .spawnFails waker hpoll rfl
    next => cases hs
  | stepTimer i =>
    obtain ⟨pc, hi, hs⟩ := Option.bind_eq_some_iff.mp hs
    exact moves_of_timerStep hi hs

/-! ## One timer -/

/-- Whoever has set the flag clears it: a timer, or the poll that is about to spawn one. -/
structure State.Armed (s : State Waker) : Prop where
  single : s.timers.countP TimerPc.beforeClear + s.poll.spawns.toNat ≤ s.armed.toNat
  manned : s.spawnFailed = false →
    s.armed.toNat ≤ s.timers.countP TimerPc.beforeClear + s.poll.spawns.toNat

theorem armed_initial : (initial : State Waker).Armed := ⟨le_rfl, fun _ => le_rfl⟩

/-- A timer whose step does not touch the flag. -/
theorem State.Armed.keep (h : s.Armed) {i : ℕ} {old new : TimerPc Waker}
    (hi : s.timers[i]? = some old) (htimers : t.timers = s.timers.set i new)
    (hclear : old.beforeClear = new.beforeClear) (hpoll : t.poll = s.poll)
    (harmed : t.armed = s.armed) (hfailed : t.spawnFailed = s.spawnFailed) : t.Armed := by
  have hcount := Slots.countP_set_add (y := new) TimerPc.beforeClear hi
  rw [hclear, Nat.add_right_cancel_iff] at hcount
  constructor
  · rw [htimers, hcount, hpoll, harmed]
    exact h.single
  · rw [htimers, hcount, hpoll, harmed, hfailed]
    exact h.manned

/-- A step of the poll that touches neither the flag nor a timer. -/
theorem State.Armed.aside (h : s.Armed) (htimers : t.timers = s.timers)
    (hspawns : t.poll.spawns = s.poll.spawns) (harmed : t.armed = s.armed)
    (hfailed : t.spawnFailed = s.spawnFailed) : t.Armed := by
  constructor
  · rw [htimers, hspawns, harmed]
    exact h.single
  · rw [htimers, hspawns, harmed, hfailed]
    exact h.manned

theorem armed_moves (h : s.Armed) (hm : Moves s t) : t.Armed := by
  cases hm with
  | aside hshared hspawns hpoll =>
    obtain ⟨harmed, -, htimers, -, hfailed⟩ := hshared
    exact h.aside htimers hspawns harmed hfailed
  | register waker hs ht =>
    subst ht
    exact h.aside rfl (congrArg PollPc.spawns hs).symm rfl rfl
  | armedAlready waker hs harmed ht =>
    subst ht
    exact h.aside rfl (congrArg PollPc.spawns hs).symm rfl rfl
  | arm waker hs harmed ht =>
    subst ht
    have hsingle := h.single
    rw [hs, harmed] at hsingle
    exact ⟨Nat.add_le_add_right hsingle 1, fun _ => Nat.le_add_left ..⟩
  | spawn waker hs ht =>
    subst ht
    have hsingle := h.single
    have hmanned := h.manned
    rw [hs] at hsingle hmanned
    have hcount : (s.timers ++ [TimerPc.start]).countP TimerPc.beforeClear =
        s.timers.countP TimerPc.beforeClear + 1 := by
      rw [List.countP_append]
      rfl
    constructor
    · show (s.timers ++ [TimerPc.start]).countP _ + 0 ≤ _
      rw [hcount]
      exact hsingle
    · show _ → _ ≤ (s.timers ++ [TimerPc.start]).countP _ + 0
      rw [hcount]
      exact hmanned
  | spawnFails waker hs ht =>
    subst ht
    exact ⟨(Nat.le_add_right ..).trans h.single, fun hfailed => Bool.noConfusion hfailed⟩
  | sleep i old new hi hold hnew ht =>
    subst ht
    exact h.keep hi rfl (hold.trans hnew.symm) rfl rfl rfl
  | clear i hi ht =>
    subst ht
    have hcount := Slots.countP_set_add (y := TimerPc.takeWaker) TimerPc.beforeClear hi
    have hsingle := h.single
    have harmed := Bool.toNat_le s.armed
    constructor
    · show (s.timers.set i .takeWaker).countP _ + s.poll.spawns.toNat ≤ 0
      simp only [TimerPc.beforeClear, Bool.toNat_true, Bool.toNat_false] at hcount
      omega
    · exact fun _ => Nat.zero_le _
  | take i waker hi hwaker ht =>
    subst ht
    exact h.keep hi rfl rfl rfl rfl rfl
  | takeNone i hi hwaker ht =>
    subst ht
    exact h.keep hi rfl rfl rfl rfl rfl
  | wake i waker hi ht =>
    subst ht
    exact h.keep hi rfl rfl rfl rfl rfl

/-! ## The wakeup -/

/-- Where the waker of the most recent poll is: in the slot, with a timer that has taken it, or
woken. -/
def State.Keeps (s : State Waker) (waker : Waker) : Prop :=
  s.waker = some waker ∨ .wake waker ∈ s.timers ∨ waker ∈ s.woken

/-- No waker is left in the slot without a timer that will look for it. -/
structure State.Heeded (s : State Waker) : Prop where
  registered : ∀ waker, s.registration = some waker → s.Keeps waker
  attended : s.spawnFailed = false → ∀ waker, s.waiting = some waker → s.waker.isSome = true →
    ∃ timer ∈ s.timers, timer.beforeTake = true

theorem heeded_initial : (initial : State Waker).Heeded where
  registered _ h := by cases h
  attended _ _ h := by cases h

theorem registration_of_waiting {waker : Waker} (h : s.waiting = some waker) :
    s.registration = some waker := by
  rw [State.registration]
  split
  next hpoll => simp [State.waiting, hpoll] at h
  next hpoll => simp [State.waiting, hpoll] at h
  next => exact h

theorem TimerPc.beforeTake_of_beforeClear {pc : TimerPc Waker} (h : pc.beforeClear = true) :
    pc.beforeTake = true := by
  cases pc <;> first | rfl | cases h

/-- A timer whose step leaves the waker where it is. -/
theorem State.Keeps.keep {waker : Waker} (h : s.Keeps waker) {i : ℕ} {old new : TimerPc Waker}
    (hi : s.timers[i]? = some old) (hold : old ≠ .wake waker) :
    (setTimer i new s).Keeps waker :=
  h.imp_right fun hout => hout.imp_left fun hm => Slots.mem_set_of_ne hi hm hold.symm

/-- A registered waker stays in the slot, goes through the hands of a timer, and ends up woken. -/
theorem registered_moves (h : s.Heeded) (hm : Moves s t) {waker : Waker}
    (hw : t.registration = some waker) : t.Keeps waker := by
  cases hm with
  | aside hshared hspawns hpoll =>
    obtain ⟨-, hwaker, htimers, hwoken, -⟩ := hshared
    obtain ⟨hregistration, -⟩ | ⟨hregistration, -⟩ := hpoll
    · rw [State.Keeps, hwaker, htimers, hwoken]
      exact h.registered waker (hregistration.symm.trans hw)
    · cases hregistration.symm.trans hw
  | register new hs ht =>
    subst ht
    exact Or.inl hw
  | armedAlready new hs harmed ht =>
    subst ht
    cases hw
    exact h.registered waker (by rw [State.registration, hs])
  | arm new hs harmed ht =>
    subst ht
    cases hw
    exact h.registered waker (by rw [State.registration, hs])
  | spawn new hs ht =>
    subst ht
    cases hw
    have hkeeps := h.registered waker (by rw [State.registration, hs])
    exact hkeeps.imp_right fun hout => hout.imp_left (List.mem_append_left _)
  | spawnFails new hs ht =>
    subst ht
    cases hw
  | sleep i old new hi hold hnew ht =>
    subst ht
    refine (h.registered waker hw).keep hi ?_
    rintro rfl
    cases hold
  | clear i hi ht =>
    subst ht
    exact (h.registered waker hw).keep (s := { s with armed := false }) hi nofun
  | take i taken hi hwaker ht =>
    subst ht
    obtain hstored | hout := h.registered waker hw
    · cases hwaker.symm.trans hstored
      exact Or.inr (Or.inl (List.mem_of_getElem? (Slots.getElem?_set_of_some hi)))
    · exact Or.inr (hout.imp_left fun hm => Slots.mem_set_of_ne hi hm nofun)
  | takeNone i hi hwaker ht =>
    subst ht
    exact (h.registered waker hw).keep hi nofun
  | wake i taken hi ht =>
    subst ht
    obtain hstored | hm | hwoken := h.registered waker hw
    · exact Or.inl hstored
    · refine Or.inr ?_
      by_cases he : TimerPc.wake waker = TimerPc.wake taken
      · cases he
        exact Or.inr (List.mem_append_right _ (List.mem_singleton_self _))
      · exact Or.inl (Slots.mem_set_of_ne hi hm he)
    · exact Or.inr (Or.inr (List.mem_append_left _ hwoken))

theorem attended_moves (ha : s.Armed) (h : s.Heeded) (hm : Moves s t)
    (hfailed : t.spawnFailed = false) {waker : Waker} (hw : t.waiting = some waker)
    (hsome : t.waker.isSome = true) : ∃ timer ∈ t.timers, timer.beforeTake = true := by
  cases hm with
  | aside hshared hspawns hpoll =>
    obtain ⟨-, hwaker, htimers, -, hsame⟩ := hshared
    obtain ⟨-, hwaiting⟩ | ⟨-, hwaiting⟩ := hpoll
    · rw [htimers]
      exact h.attended (hsame.symm.trans hfailed) waker (hwaiting.symm.trans hw) (hwaker ▸ hsome)
    · cases hwaiting.symm.trans hw
  | register new hs ht =>
    subst ht
    cases hw
  | armedAlready new hs harmed ht =>
    subst ht
    have hmanned := ha.manned hfailed
    rw [hs, harmed] at hmanned
    -- the flag was set, and not by this poll
    obtain ⟨timer, hm, hclear⟩ := List.countP_pos_iff.mp hmanned
    exact ⟨timer, hm, TimerPc.beforeTake_of_beforeClear hclear⟩
  | arm new hs harmed ht =>
    subst ht
    cases hw
  | spawn new hs ht =>
    subst ht
    exact ⟨.start, List.mem_append_right _ (List.mem_singleton_self _), rfl⟩
  | spawnFails new hs ht =>
    subst ht
    cases hfailed
  | sleep i old new hi hold hnew ht =>
    subst ht
    refine ⟨new, ?_, TimerPc.beforeTake_of_beforeClear hnew⟩
    exact List.mem_of_getElem? (Slots.getElem?_set_of_some hi)
  | clear i hi ht =>
    subst ht
    exact ⟨.takeWaker, List.mem_of_getElem? (Slots.getElem?_set_of_some hi), rfl⟩
  | take i taken hi hwaker ht =>
    subst ht
    cases hsome
  | takeNone i hi hwaker ht =>
    subst ht
    rw [show (setTimer i .done s).waker = none from hwaker] at hsome
    cases hsome
  | wake i taken hi ht =>
    subst ht
    exact Slots.exists_mem_set hi Bool.false_ne_true (h.attended hfailed waker hw hsome)

theorem heeded_moves (ha : s.Armed) (h : s.Heeded) (hm : Moves s t) : t.Heeded where
  registered _ hw := registered_moves h hm hw
  attended hfailed _ hw hsome := attended_moves ha h hm hfailed hw hsome

/-- **One timer, and no lost wakeup**: at most one thread has yet to clear the flag; and where no
spawn has failed, the waker of a poll that returned `Pending` is in the slot with a thread that will
look for it, or is about to be woken, or has been woken since it was registered. -/
theorem periodic_drain_wakes (h : Transition.Reaches (step duration) Transition.always initial s) :
    s.timers.countP TimerPc.beforeClear ≤ 1 ∧
      (s.spawnFailed = false → ∀ waker, s.poll = .idle → s.returned = some (.pending waker) →
        (∃ timer ∈ s.timers, timer.beforeTake = true) ∧ s.waker = some waker ∨
          .wake waker ∈ s.timers ∨ waker ∈ s.woken) := by
  obtain ⟨harmed, hheeded⟩ : s.Armed ∧ s.Heeded := by
    refine h.invariant (I := fun s => s.Armed ∧ s.Heeded) ?_ ⟨armed_initial, heeded_initial⟩
    intro s a t hinv _ hs
    have hm := moves_of_step hs
    exact ⟨armed_moves hinv.1 hm, heeded_moves hinv.1 hinv.2 hm⟩
  constructor
  · have hle := Bool.toNat_le s.armed
    have hsingle := harmed.single
    omega
  · intro hfailed waker hidle hreturned
    have hwaiting : s.waiting = some waker := by
      rw [State.waiting, hidle, hreturned]
      rfl
    obtain hstored | hout := hheeded.registered waker (registration_of_waiting hwaiting)
    · refine Or.inl ⟨hheeded.attended hfailed waker hwaiting ?_, hstored⟩
      rw [hstored]
      rfl
    · exact Or.inr hout

theorem periodic_drain_wakes_once : ∃ s : State ℕ,
    Transition.run (step 1000000000) initial [.poll 7, .stepPoll, .stepPoll, .stepPoll, .stepPoll,
        .stepPoll] = some s ∧ s.timers.countP TimerPc.beforeClear ≤ 1 ∧
      ((∃ timer ∈ s.timers, timer.beforeTake = true) ∧ s.waker = some 7 ∨
        .wake 7 ∈ s.timers ∨ 7 ∈ s.woken) := by
  refine ⟨_, rfl, ?_⟩
  have hreaches : Transition.Reaches (step 1000000000) Transition.always (initial : State ℕ) _ :=
    Transition.reaches_of_run_always
      [.poll 7, .stepPoll, .stepPoll, .stepPoll, .stepPoll, .stepPoll] rfl
  have hwakes := periodic_drain_wakes hreaches
  exact ⟨hwakes.1, hwakes.2 rfl 7 rfl rfl⟩

/-- Between the timer's `take` and its `wake` the waker is in neither place; and where a spawn
panicked, the flag stays set with no timer to clear it. -/
theorem taken_not_yet_woken :
    (∃ s : State ℕ, Transition.Reaches (step 1000000000) Transition.always initial s ∧
      s.spawnFailed = false ∧ s.poll = .idle ∧ s.returned = some (.pending 7) ∧
        ¬ ((∃ timer ∈ s.timers, timer.beforeTake = true) ∧ s.waker = some 7 ∨ 7 ∈ s.woken)) ∧
    ∃ s : State ℕ, Transition.Reaches (step 1000000000) Transition.always initial s ∧
      s.poll = .idle ∧ s.returned = some (.pending 8) ∧ s.timers = [] ∧ 8 ∉ s.woken := by
  constructor
  · exact Transition.exists_reaches _ _ _ _
      [.poll 7, .stepPoll, .stepPoll, .stepPoll, .stepPoll, .stepPoll, .stepTimer 0,
        .tick 100000000, .stepTimer 0, .stepTimer 0, .stepTimer 0] (by decide)
  · exact Transition.exists_reaches _ _ _ _
      [.poll 7, .stepPoll, .stepPoll, .stepPoll, .stepPoll, .spawnFails,
        .poll 8, .stepPoll, .stepPoll, .stepPoll, .stepPoll] (by decide)

end Logwise.Legacy.PeriodicDrain
