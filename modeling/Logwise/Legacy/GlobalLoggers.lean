import Logwise.Legacy.Record
import Logwise.Runtime.SpinlockObject

/-!
# The global loggers

`global_logger.rs`: a `OnceLock` with a spinlock over the list of loggers. Whoever comes first makes
the list; everybody's own operation on it follows under the lock.
-/

namespace Logwise.Legacy.GlobalLoggers

open Logwise.Spinlock (Session)

/-- The identity of an `Arc<dyn Logger>`, and its `privacy()`. -/
structure Logger where
  handle : ℕ
  privacy : LogPrivacy
  deriving DecidableEq, Repr

/-- `Arc::new(StdErrorLogger::new())`; the loggers carry no data, so that all of them are one. -/
def stdErrorLogger : Logger := { handle := 0, privacy := .privateParts }

inductive Op where
  | globalLoggers
  | addGlobalLogger (logger : Logger)
  | setGlobalLoggers (newLoggers : List Logger)
  deriving DecidableEq, Repr

/-- What the closures of `with` and `with_mut` do. -/
def loggers : AtomicObject (List Logger) Op (List Logger) where
  apply
    | .globalLoggers, loggers => (loggers, loggers)
    | .addGlobalLogger logger, loggers => ([], loggers ++ [logger])
    -- `std::mem::replace` gives back the old list
    | .setGlobalLoggers newLoggers, loggers => (loggers, newLoggers)
  mutates
    | .globalLoggers => false
    | _ => true
  unchanged op loggers h := by
    cases op with
    | globalLoggers => rfl
    | addGlobalLogger | setGlobalLoggers => cases h

/-- What the closure of `get_or_init` puts under the lock. -/
def Op.firstLoggers : Op → List Logger
  | .setGlobalLoggers newLoggers => newLoggers
  | _ => [stdErrorLogger]

abbrev Locked := Session (List Logger) Op (List Logger)

/-- `GLOBAL_LOGGERS_PTR`. -/
inductive OnceLock where
  | empty
  /-- The closure of this caller runs; the others wait. -/
  | initializing (caller : ℕ)
  | full (session : Locked)
  deriving DecidableEq

/-- A call of one of the three functions, with its call of `with` or `with_mut`. -/
structure Caller where
  op : Op
  place : Option ℕ
  deriving DecidableEq

structure Registry where
  cell : OnceLock
  callers : List Caller
  deriving DecidableEq

namespace Registry

inductive Action where
  | call (op : Op)
  | getOrInit (i : ℕ)
  | inner (action : Session.Action (List Logger) Op)
  deriving DecidableEq

def init : Registry := { cell := .empty, callers := [] }

/-- The steps of calls in progress. None of the closures unwinds. -/
def proceeds : Session.Action (List Logger) Op → Bool
  | .call _ | .abandon _ => false
  | _ => true

def step (r : Registry) : Action → Option Registry
  | .call op => some { r with callers := r.callers ++ [{ op := op, place := none }] }
  | .getOrInit i =>
    r.callers[i]?.bind fun caller =>
      match caller.place, r.cell with
      | some _, _ => none
      | none, .empty => some { r with cell := .initializing i }
      | none, .initializing j =>
        if i = j then some { r with cell := .full (Session.init caller.op.firstLoggers) } else none
      | none, .full session =>
        (Session.step loggers session (.call caller.op)).map fun session' =>
          { cell := .full session'
            callers := r.callers.set i { caller with place := some session.lock.calls.length } }
  | .inner action =>
    match r.cell with
    | .full session =>
      if proceeds action then
        (Session.step loggers session action).map fun session' => { r with cell := .full session' }
      else none
    | _ => none

/-- What one step does. -/
inductive Moves (r : Registry) : Registry → Prop where
  | call (op : Op) : Moves r { r with callers := r.callers ++ [{ op := op, place := none }] }
  | starts (i : ℕ) (hcell : r.cell = .empty) : Moves r { r with cell := .initializing i }
  | fills (i : ℕ) (caller : Caller) (hi : r.callers[i]? = some caller)
    (hcell : r.cell = .initializing i) :
    Moves r { r with cell := .full (Session.init caller.op.firstLoggers) }
  | enters (i : ℕ) (caller : Caller) (session session' : Locked) (hi : r.callers[i]? = some caller)
    (hplace : caller.place = none) (hcell : r.cell = .full session)
    (hstep : Session.step loggers session (.call caller.op) = some session') :
    Moves r
      { cell := .full session'
        callers := r.callers.set i { caller with place := some session.lock.calls.length } }
  | inner (action : Session.Action (List Logger) Op) (session session' : Locked)
    (hcell : r.cell = .full session) (hproceeds : proceeds action = true)
    (hstep : Session.step loggers session action = some session') :
    Moves r { r with cell := .full session' }

theorem moves_of_step {r r' : Registry} {action : Action} (h : step r action = some r') :
    Moves r r' := by
  cases action with
  | call op =>
    cases h
    exact .call op
  | getOrInit i =>
    obtain ⟨caller, hi, h⟩ := Option.bind_eq_some_iff.mp h
    split at h
    next => cases h
    next hplace hcell =>
      cases h
      exact .starts i hcell
    next j hplace hcell =>
      split at h
      next he =>
        cases h
        exact .fills i caller hi (he ▸ hcell)
      next => cases h
    next session hplace hcell =>
      obtain ⟨session', hs, rfl⟩ := Option.map_eq_some_iff.mp h
      exact .enters i caller session session' hi hplace hcell hs
  | inner action =>
    simp only [step] at h
    split at h
    next session hcell =>
      split at h
      next hp =>
        obtain ⟨session', hs, rfl⟩ := Option.map_eq_some_iff.mp h
        exact .inner action session session' hcell hp hs
      next => cases h
    next => cases h

/-- The loggers there can be at first. -/
def Initial (r : Registry) (first : List Logger) : Prop :=
  first = [stdErrorLogger] ∨ ∃ caller ∈ r.callers, caller.op = .setGlobalLoggers first

/-- Each caller's place is a call of the lock with the caller's own operation. -/
def Placed (callers : List Caller) (session : Locked) : Prop :=
  ∀ (i : ℕ) (caller : Caller) (k : ℕ), callers[i]? = some caller → caller.place = some k →
    ∃ job : History.Job Op (List Logger), session.history.jobs[k]? = some job ∧
      job.op = caller.op

/-- What holds of every registry. -/
inductive Ok (r : Registry) : Prop where
  | waiting (hcell : ∀ session, r.cell ≠ .full session)
    (hplaces : ∀ caller ∈ r.callers, caller.place = none)
  | ready (first : List Logger) (session : Locked) (hcell : r.cell = .full session)
    (hfirst : r.Initial first) (hok : Session.Ok loggers first session)
    (hplaced : Placed r.callers session)

theorem ok_init : Ok init := .waiting (fun _ => OnceLock.noConfusion) (fun _ hm => by cases hm)

theorem initial_firstLoggers {r : Registry} {i : ℕ} {caller : Caller}
    (hi : r.callers[i]? = some caller) : r.Initial caller.op.firstLoggers := by
  cases hop : caller.op with
  | setGlobalLoggers newLoggers => exact Or.inr ⟨caller, List.mem_of_getElem? hi, hop⟩
  | globalLoggers | addGlobalLogger => exact Or.inl rfl

theorem Initial.mono {r r' : Registry} {first : List Logger} (h : r.Initial first)
    (hcallers : ∀ caller ∈ r.callers, ∃ caller' ∈ r'.callers, caller'.op = caller.op) :
    r'.Initial first := by
  obtain h | ⟨caller, hm, hop⟩ := h
  · exact Or.inl h
  · obtain ⟨caller', hm', hop'⟩ := hcallers caller hm
    exact Or.inr ⟨caller', hm', hop'.trans hop⟩

theorem Placed.extends {callers : List Caller} {session session' : Locked}
    (h : Placed callers session) (he : session.history.Extends session'.history) :
    Placed callers session' := by
  intro i caller k hi hk
  obtain ⟨job, hj, hop⟩ := h i caller k hi hk
  obtain ⟨job', hj', hop', -⟩ := he.jobs k job hj
  exact ⟨job', hj', hop'.trans hop⟩

/-- What a call of the lock adds to its history. -/
theorem history_of_call {session session' : Locked} {op : Op}
    (h : Session.step loggers session (.call op) = some session') :
    session'.history = session.history.begin op := by
  obtain ⟨lock, -, rfl⟩ := Option.map_eq_some_iff.mp h
  rfl

theorem ok_of_moves {r r' : Registry} (h : Ok r) (hm : Moves r r') : Ok r' := by
  cases hm with
  | call op =>
    cases h with
    | waiting hcell hplaces =>
      exact .waiting hcell (Slots.forall_mem_concat (p := fun c : Caller => c.place = none) hplaces rfl)
    | ready first session hcell hfirst hok hplaced =>
      refine .ready first session hcell (hfirst.mono fun caller hm =>
        ⟨caller, List.mem_append_left _ hm, rfl⟩) hok ?_
      intro i caller k hi hk
      obtain hold | rfl := Slots.getElem?_append_cases hi
      · exact hplaced i caller k hold hk
      · cases hk
  | starts i hcell =>
    cases h with
    | waiting _ hplaces => exact .waiting (fun _ => OnceLock.noConfusion) hplaces
    | ready first session hfull => cases hcell.symm.trans hfull
  | fills i caller hi hcell =>
    cases h with
    | waiting _ hplaces =>
      refine .ready _ _ rfl (initial_firstLoggers hi) (Session.ok_init _) ?_
      intro j other k hj hk
      rw [hplaces other (List.mem_of_getElem? hj)] at hk
      cases hk
    | ready first session hfull => cases hcell.symm.trans hfull
  | enters i caller session session' hi hplace hcell hstep =>
    cases h with
    | waiting hno => exact absurd hcell (hno session)
    | ready first own hfull hfirst hok hplaced =>
      cases hcell.symm.trans hfull
      obtain ⟨hok', hext⟩ := Session.ok_step hok hstep
      refine .ready first session' rfl (hfirst.mono ?_) hok' ?_
      · intro other hm
        by_cases hne : other = caller
        · subst hne
          exact ⟨_, List.mem_of_getElem? (Slots.getElem?_set_of_some hi), rfl⟩
        · exact ⟨other, Slots.mem_set_of_ne hi hm hne, rfl⟩
      · intro j other k hj hk
        obtain ⟨rfl, rfl⟩ | ⟨-, hold⟩ := Slots.getElem?_set_cases hj
        · obtain rfl : session.lock.calls.length = k := Option.some.inj hk
          refine ⟨{ op := caller.op, began := session.history.order.length, answer := none }, ?_,
            rfl⟩
          rw [history_of_call hstep, ← hok.matched.length]
          exact List.getElem?_concat_length
        · exact hplaced.extends hext j other k hold hk
  | inner action session session' hcell hproceeds hstep =>
    cases h with
    | waiting hno => exact absurd hcell (hno session)
    | ready first own hfull hfirst hok hplaced =>
      cases hcell.symm.trans hfull
      obtain ⟨hok', hext⟩ := Session.ok_step hok hstep
      exact .ready first session' rfl (hfirst.mono fun caller hm => ⟨caller, hm, rfl⟩) hok'
        (hplaced.extends hext)

/-- `r` comes later than `s`: the order of the operations has grown, and a call made since has its
place among the later ones. -/
structure Since (s r : Registry) : Prop where
  callers : s.callers.length ≤ r.callers.length
  session : ∀ earlier, s.cell = .full earlier → ∃ later, r.cell = .full later ∧
    earlier.history.Extends later.history ∧
    ∀ (i : ℕ) (caller : Caller) (k : ℕ), s.callers.length ≤ i → r.callers[i]? = some caller →
      caller.place = some k → earlier.history.jobs.length ≤ k

theorem Since.refl {r : Registry} : Since r r := by
  refine ⟨le_rfl, fun session hcell => ⟨session, hcell, History.Extends.refl _, ?_⟩⟩
  intro i caller k hle hi
  rw [List.getElem?_eq_none hle] at hi
  cases hi

theorem since_of_moves {s r r' : Registry} (hs : Since s r) (h : Ok r) (hm : Moves r r') :
    Since s r' := by
  obtain ⟨hcallers, hsession⟩ := hs
  cases hm with
  | call op =>
    refine ⟨?_, fun earlier he => ?_⟩
    · show s.callers.length ≤ (r.callers ++ [_]).length
      rw [List.length_append]
      exact Nat.le_succ_of_le hcallers
    · obtain ⟨later, hl, hext, hplaces⟩ := hsession earlier he
      refine ⟨later, hl, hext, fun i caller k hle hi hk => ?_⟩
      obtain hold | rfl := Slots.getElem?_append_cases hi
      · exact hplaces i caller k hle hold hk
      · cases hk
  | starts i hcell =>
    refine ⟨hcallers, fun earlier he => ?_⟩
    obtain ⟨later, hl, -⟩ := hsession earlier he
    cases hcell.symm.trans hl
  | fills i caller hi hcell =>
    refine ⟨hcallers, fun earlier he => ?_⟩
    obtain ⟨later, hl, -⟩ := hsession earlier he
    cases hcell.symm.trans hl
  | enters i caller session session' hi hplace hcell hstep =>
    refine ⟨by rw [List.length_set]; exact hcallers, fun earlier he => ?_⟩
    obtain ⟨later, hl, hext, hplaces⟩ := hsession earlier he
    cases hcell.symm.trans hl
    have hgrown : session.history.Extends session'.history := by
      rw [history_of_call hstep]
      exact History.extends_begin _ _
    refine ⟨session', rfl, hext.trans hgrown, fun j other k hle hj hk => ?_⟩
    obtain ⟨rfl, rfl⟩ | ⟨-, hold⟩ := Slots.getElem?_set_cases hj
    · -- the new place is the next call of the lock
      obtain rfl : session.lock.calls.length = k := Option.some.inj hk
      cases h with
      | waiting hno => exact absurd hcell (hno session)
      | ready first own hfull hfirst hok hplaced =>
        cases hcell.symm.trans hfull
        rw [← hok.matched.length]
        exact hext.length_le
    · exact hplaces j other k hle hold hk
  | inner action session session' hcell hproceeds hstep =>
    refine ⟨hcallers, fun earlier he => ?_⟩
    obtain ⟨later, hl, hext, hplaces⟩ := hsession earlier he
    cases hcell.symm.trans hl
    cases h with
    | waiting hno => exact absurd hcell (hno session)
    | ready first own hfull hfirst hok hplaced =>
      cases hcell.symm.trans hfull
      exact ⟨session', rfl, hext.trans (Session.ok_step hok hstep).2, hplaces⟩

/-! ## What a caller is told -/

/-- The call of caller `i` is over, and `answer` is what its closure gave it. -/
def Answered (r : Registry) (i : ℕ) (op : Op) (answer : List Logger) : Prop :=
  ∃ (session : Locked) (k : ℕ) (job : History.Job Op (List Logger)),
    r.cell = .full session ∧ r.callers[i]? = some { op := op, place := some k } ∧
      session.lock.calls[k]? = some (.done false) ∧ session.history.jobs[k]? = some job ∧
      job.answer = some answer

/-- The answer stands, whatever the others do. -/
theorem Answered.step {r r' : Registry} {i : ℕ} {op : Op} {answer : List Logger}
    (ha : r.Answered i op answer) (h : Ok r) (hm : Moves r r') : r'.Answered i op answer := by
  obtain ⟨session, k, job, hcell, hi, hdone, hj, hr⟩ := ha
  cases h with
  | waiting hno => exact absurd hcell (hno session)
  | ready first own hfull hfirst hok hplaced =>
    cases hcell.symm.trans hfull
    cases hm with
    | call op' =>
      refine ⟨session, k, job, hcell, ?_, hdone, hj, hr⟩
      show (r.callers ++ [_])[i]? = _
      rw [List.getElem?_append_left (List.getElem?_eq_some_iff.mp hi).1]
      exact hi
    | starts j hempty => cases hcell.symm.trans hempty
    | fills j caller hi' hinit => cases hcell.symm.trans hinit
    | enters j caller own session' hj' hplace hown hstep =>
      cases hcell.symm.trans hown
      have hne : j ≠ i := by
        rintro rfl
        cases hj'.symm.trans hi
        cases hplace
      refine ⟨session', k, job, rfl, ?_, Session.done_of_step hstep hdone,
        Session.answer_of_step hok hstep hj hr, hr⟩
      rw [List.getElem?_set_ne hne]
      exact hi
    | inner action own session' hown hproceeds hstep =>
      cases hcell.symm.trans hown
      exact ⟨session', k, job, rfl, hi, Session.done_of_step hstep hdone,
        Session.answer_of_step hok hstep hj hr, hr⟩

/-- **An answer is the list's at one moment of the call**: the one its order leaves there, from
loggers somebody made the list with. -/
theorem Answered.sound {r : Registry} {i : ℕ} {op : Op} {answer : List Logger}
    (ha : r.Answered i op answer) (h : Ok r) :
    ∃ (session : Locked) (first : List Logger) (place k : ℕ), r.cell = .full session ∧
      r.Initial first ∧ session.lock.calls[place]? = some (.done false) ∧
      session.history.order[k]? = some (.applied place op) ∧
      answer = (loggers.apply op (loggers.replay first (session.history.order.take k))).1 ∧
      r.callers[i]? = some { op := op, place := some place } := by
  obtain ⟨session, place, job, hcell, hi, hdone, hj, hr⟩ := ha
  cases h with
  | waiting hno => exact absurd hcell (hno session)
  | ready first own hfull hfirst hok hplaced =>
    cases hcell.symm.trans hfull
    obtain ⟨job', hj', hop⟩ := hplaced i _ place hi rfl
    cases hj.symm.trans hj'
    obtain ⟨k, -, hk, hans⟩ := hok.legal.answered place job answer hj hr
    rw [hop] at hk hans
    exact ⟨session, first, place, k, hcell, hfirst, hdone, hk, hans, hi⟩

end Registry

end Logwise.Legacy.GlobalLoggers
