import Logwise.Library.Slots
import Mathlib.Data.List.Infix

/-!
# Histories in one order

An object with operations, the calls made of it, and the order in which these took effect. A
history is legal when every answer is the one the object gives at that call's place in the order,
and no call has a place before it was made.
-/

/-- What an operation answers and the value it leaves behind. -/
structure AtomicObject (α ι ρ : Type*) where
  apply : ι → α → ρ × α
  mutates : ι → Bool
  unchanged : ∀ op a, mutates op = false → (apply op a).2 = a

namespace History

/-- The place of a call in the order. -/
inductive Entry (α ι : Type*) where
  | applied (call : ℕ) (op : ι)
  /-- The call was abandoned halfway and left this value behind. -/
  | left (call : ℕ) (value : α)
  deriving DecidableEq

structure Job (ι ρ : Type*) where
  op : ι
  /-- The length of the order when the call was made. -/
  began : ℕ
  answer : Option ρ
  deriving DecidableEq

end History

structure History (α ι ρ : Type*) where
  order : List (History.Entry α ι)
  jobs : List (History.Job ι ρ)
  deriving DecidableEq

variable {α ι ρ : Type*}

namespace History

def Entry.call : Entry α ι → ℕ
  | .applied call _ => call
  | .left call _ => call

end History

open History

/-- The value after a place of the order. -/
def AtomicObject.effect (O : AtomicObject α ι ρ) (a : α) : Entry α ι → α
  | .applied _ op => (O.apply op a).2
  | .left _ value => value

/-- The value after a whole order. -/
def AtomicObject.replay (O : AtomicObject α ι ρ) (initial : α) (order : List (Entry α ι)) : α :=
  order.foldl O.effect initial

theorem AtomicObject.replay_concat (O : AtomicObject α ι ρ) (initial : α)
    (order : List (Entry α ι)) (entry : Entry α ι) :
    O.replay initial (order ++ [entry]) = O.effect (O.replay initial order) entry := by
  rw [replay, List.foldl_append]
  rfl

namespace History

def empty : History α ι ρ := { order := [], jobs := [] }

def begin (op : ι) (h : History α ι ρ) : History α ι ρ :=
  { h with jobs := h.jobs ++ [{ op := op, began := h.order.length, answer := none }] }

/-- Call `i` takes effect and is answered. -/
def settle (i : ℕ) (job : Job ι ρ) (answer : ρ) (h : History α ι ρ) : History α ι ρ :=
  { order := h.order ++ [.applied i job.op]
    jobs := h.jobs.set i { job with answer := some answer } }

def leave (i : ℕ) (value : α) (h : History α ι ρ) : History α ι ρ :=
  { h with order := h.order ++ [.left i value] }

/-- Call `i` has no place in the order. -/
def Pending (h : History α ι ρ) (i : ℕ) : Prop := ∀ entry ∈ h.order, entry.call ≠ i

structure Legal (O : AtomicObject α ι ρ) (initial : α) (h : History α ι ρ) : Prop where
  answered : ∀ (i : ℕ) (job : Job ι ρ) (r : ρ), h.jobs[i]? = some job → job.answer = some r →
    ∃ k, job.began ≤ k ∧ h.order[k]? = some (.applied i job.op) ∧
      r = (O.apply job.op (O.replay initial (h.order.take k))).1
  placed : ∀ (k : ℕ) (entry : Entry α ι), h.order[k]? = some entry →
    ∃ job : Job ι ρ, h.jobs[entry.call]? = some job ∧ job.began ≤ k
  once : ∀ i, h.order.countP (fun entry => entry.call == i) ≤ 1

/-- The order grew at its end, the calls made before are the same, and those made since began
after it. -/
structure Extends (h h' : History α ι ρ) : Prop where
  order : h.order <+: h'.order
  jobs : ∀ (j : ℕ) (job : Job ι ρ), h.jobs[j]? = some job →
    ∃ job' : Job ι ρ, h'.jobs[j]? = some job' ∧ job'.op = job.op ∧ job'.began = job.began
  later : ∀ (j : ℕ) (job : Job ι ρ), h.jobs.length ≤ j → h'.jobs[j]? = some job → h.order.length ≤ job.began

variable {O : AtomicObject α ι ρ} {initial : α} {h h' h'' : History α ι ρ} {i : ℕ}
  {job : Job ι ρ}

theorem legal_empty : (empty : History α ι ρ).Legal O initial := by
  refine ⟨?_, ?_, fun _ => Nat.zero_le _⟩
  · intro i job r hj
    cases hj
  · intro k entry hk
    cases hk

/-- A place that is already taken stays where it is. -/
theorem getElem?_order_concat (new : Entry α ι) {k : ℕ} {entry : Entry α ι}
    (hk : h.order[k]? = some entry) :
    (h.order ++ [new])[k]? = some entry ∧ (h.order ++ [new]).take k = h.order.take k := by
  have hlt : k < h.order.length := (List.getElem?_eq_some_iff.mp hk).1
  rw [List.getElem?_append_left hlt, List.take_append_of_le_length hlt.le]
  exact ⟨hk, rfl⟩

theorem Legal.begin (hl : h.Legal O initial) (op : ι) : (h.begin op).Legal O initial := by
  refine ⟨?_, ?_, hl.once⟩
  · intro j job r hj hr
    obtain hold | rfl := Slots.getElem?_append_cases hj
    · exact hl.answered j job r hold hr
    · cases hr
  · intro k entry hk
    obtain ⟨job, hj, hle⟩ := hl.placed k entry hk
    have hlt : entry.call < h.jobs.length := (List.getElem?_eq_some_iff.mp hj).1
    refine ⟨job, ?_, hle⟩
    show (h.jobs ++ [_])[entry.call]? = some job
    rw [List.getElem?_append_left hlt]
    exact hj

/-- A call of which nothing is in the order yet counts once after it enters. -/
theorem countP_call_concat (hl : h.Legal O initial) (hp : h.Pending i) {entry : Entry α ι}
    (he : entry.call = i) (j : ℕ) :
    (h.order ++ [entry]).countP (fun entry => entry.call == j) ≤ 1 := by
  rw [List.countP_append, List.countP_singleton]
  by_cases hj : entry.call = j
  · have hnone : h.order.countP (fun entry => entry.call == j) = 0 := by
      apply List.countP_eq_zero.mpr
      intro old hold
      rw [beq_iff_eq, ← hj, he]
      exact hp old hold
    rw [hnone, Nat.zero_add]
    split
    · exact le_rfl
    · exact Nat.zero_le 1
  · have hne : ¬ (entry.call == j) = true := by rwa [beq_iff_eq]
    rw [if_neg hne, Nat.add_zero]
    exact hl.once j

/-- **A call takes effect**: with the answer the object gives after the order so far, the history
stays legal. -/
theorem Legal.settle (hl : h.Legal O initial) (hj : h.jobs[i]? = some job)
    (hbegan : job.began ≤ h.order.length) (hp : h.Pending i) {answer : ρ}
    (ha : answer = (O.apply job.op (O.replay initial h.order)).1) :
    (h.settle i job answer).Legal O initial := by
  refine ⟨?_, ?_, countP_call_concat hl hp rfl⟩
  · intro j other r hother hr
    obtain ⟨rfl, rfl⟩ | ⟨-, hold⟩ := Slots.getElem?_set_cases hother
    · refine ⟨h.order.length, hbegan, List.getElem?_concat_length, ?_⟩
      obtain rfl : answer = r := Option.some.inj hr
      show answer = (O.apply job.op (O.replay initial ((h.order ++ [_]).take h.order.length))).1
      rw [List.take_left, ha]
    · obtain ⟨k, hle, hk, hans⟩ := hl.answered j other r hold hr
      obtain ⟨hk', htake⟩ := getElem?_order_concat (.applied i job.op) hk
      refine ⟨k, hle, hk', ?_⟩
      show r = (O.apply other.op (O.replay initial ((h.order ++ [_]).take k))).1
      rw [htake]
      exact hans
  · intro k entry hk
    obtain hold | rfl := Slots.getElem?_append_cases hk
    · obtain ⟨other, hother, hle⟩ := hl.placed k entry hold
      by_cases hji : entry.call = i
      · rw [hji] at hother ⊢
        cases hj.symm.trans hother
        exact ⟨_, Slots.getElem?_set_of_some hj, hle⟩
      · refine ⟨other, ?_, hle⟩
        show (h.jobs.set i _)[entry.call]? = some other
        rw [List.getElem?_set_ne (Ne.symm hji)]
        exact hother
    · refine ⟨_, Slots.getElem?_set_of_some hj, ?_⟩
      -- it is the last place, since the call was pending
      by_contra hlt
      have hk' : k < h.order.length := lt_of_not_ge fun hge => hlt (hbegan.trans hge)
      have hk : (h.order ++ [Entry.applied i job.op])[k]? = some (.applied i job.op) := hk
      rw [List.getElem?_append_left hk'] at hk
      exact hp _ (List.mem_of_getElem? hk) rfl

/-- A call that is abandoned takes a place with what it left. -/
theorem Legal.leave (hl : h.Legal O initial) (hj : h.jobs[i]? = some job)
    (hbegan : job.began ≤ h.order.length) (hp : h.Pending i) (value : α) :
    (h.leave i value).Legal O initial := by
  refine ⟨?_, ?_, countP_call_concat hl hp rfl⟩
  · intro j other r hother hr
    obtain ⟨k, hle, hk, hans⟩ := hl.answered j other r hother hr
    obtain ⟨hk', htake⟩ := getElem?_order_concat (.left i value) hk
    refine ⟨k, hle, hk', ?_⟩
    show r = (O.apply other.op (O.replay initial ((h.order ++ [_]).take k))).1
    rw [htake]
    exact hans
  · intro k entry hk
    obtain hold | rfl := Slots.getElem?_append_cases hk
    · exact hl.placed k entry hold
    · refine ⟨job, hj, ?_⟩
      by_contra hlt
      have hk' : k < h.order.length := lt_of_not_ge fun hge => hlt (hbegan.trans hge)
      have hk : (h.order ++ [Entry.left i value])[k]? = some (.left i value) := hk
      rw [List.getElem?_append_left hk'] at hk
      exact hp _ (List.mem_of_getElem? hk) rfl

theorem pending_concat {j : ℕ} {entry : Entry α ι} (hp : h.Pending j) (hne : entry.call ≠ j) :
    ∀ other ∈ h.order ++ [entry], other.call ≠ j :=
  Slots.forall_mem_concat hp hne

/-- A call without a place has not been answered. -/
theorem Legal.answer_eq_none (hl : h.Legal O initial) (hp : h.Pending i)
    (hj : h.jobs[i]? = some job) : job.answer = none := by
  cases ha : job.answer with
  | none => rfl
  | some r =>
    obtain ⟨k, -, hk, -⟩ := hl.answered i job r hj ha
    exact absurd rfl (hp _ (List.mem_of_getElem? hk))

/-! ## Histories that grow -/

theorem Extends.refl (h : History α ι ρ) : h.Extends h := by
  refine ⟨List.prefix_rfl, fun j job hj => ⟨job, hj, rfl, rfl⟩, fun j job hle hj => ?_⟩
  rw [List.getElem?_eq_none hle] at hj
  cases hj

theorem Extends.trans (h₁ : h.Extends h') (h₂ : h'.Extends h'') : h.Extends h'' := by
  refine ⟨h₁.order.trans h₂.order, ?_, ?_⟩
  · intro j job hj
    obtain ⟨job', hj', hop, hb⟩ := h₁.jobs j job hj
    obtain ⟨job'', hj'', hop', hb'⟩ := h₂.jobs j job' hj'
    exact ⟨job'', hj'', hop'.trans hop, hb'.trans hb⟩
  · intro j job hle hj
    by_cases hj' : j < h'.jobs.length
    · obtain ⟨job', hget⟩ : ∃ job', h'.jobs[j]? = some job' := ⟨_, List.getElem?_eq_getElem hj'⟩
      obtain ⟨job'', hget', -, hb⟩ := h₂.jobs j job' hget
      cases hj.symm.trans hget'
      rw [hb]
      exact h₁.later j job' hle hget
    · exact h₁.order.length_le.trans (h₂.later j job (Nat.le_of_not_lt hj') hj)

theorem Extends.length_le (he : h.Extends h') : h.jobs.length ≤ h'.jobs.length := by
  by_contra hlt
  have hj : h.jobs[h'.jobs.length]? = some h.jobs[h'.jobs.length] :=
    List.getElem?_eq_getElem (Nat.lt_of_not_le hlt)
  obtain ⟨job', hj', -, -⟩ := he.jobs _ _ hj
  exact absurd (List.getElem?_eq_some_iff.mp hj').1 (Nat.lt_irrefl _)

theorem extends_begin (h : History α ι ρ) (op : ι) : h.Extends (h.begin op) := by
  refine ⟨List.prefix_rfl, ?_, ?_⟩
  · intro j job hj
    have hlt : j < h.jobs.length := (List.getElem?_eq_some_iff.mp hj).1
    refine ⟨job, ?_, rfl, rfl⟩
    show (h.jobs ++ [_])[j]? = some job
    rw [List.getElem?_append_left hlt]
    exact hj
  · intro j job hle hj
    obtain hold | rfl := Slots.getElem?_append_cases hj
    · rw [List.getElem?_eq_none hle] at hold
      cases hold
    · exact le_rfl

theorem extends_settle (hj : h.jobs[i]? = some job) (answer : ρ) :
    h.Extends (h.settle i job answer) := by
  refine ⟨List.prefix_append .., ?_, ?_⟩
  · intro j other hother
    by_cases hji : j = i
    · subst hji
      cases hj.symm.trans hother
      exact ⟨_, Slots.getElem?_set_of_some hj, rfl, rfl⟩
    · refine ⟨other, ?_, rfl, rfl⟩
      show (h.jobs.set i _)[j]? = some other
      rw [List.getElem?_set_ne (Ne.symm hji)]
      exact hother
  · intro j other hle hother
    have hlt : j < (h.jobs.set i _).length := (List.getElem?_eq_some_iff.mp hother).1
    rw [List.length_set] at hlt
    exact absurd hle (Nat.not_le.mpr hlt)

theorem extends_leave (h : History α ι ρ) (i : ℕ) (value : α) : h.Extends (h.leave i value) := by
  refine ⟨List.prefix_append .., fun j job hj => ⟨job, hj, rfl, rfl⟩, fun j job hle hj => ?_⟩
  have hj : h.jobs[j]? = some job := hj
  rw [List.getElem?_eq_none hle] at hj
  cases hj

/-- **The order respects real time**: a call made after a history was reached has its place after
every place of that history. -/
theorem Legal.place_le (hl : h'.Legal O initial) (he : h.Extends h') {k : ℕ} {entry : Entry α ι}
    (hk : h'.order[k]? = some entry) (hlate : h.jobs.length ≤ entry.call) : h.order.length ≤ k := by
  obtain ⟨job, hj, hle⟩ := hl.placed k entry hk
  exact (he.later entry.call job hlate hj).trans hle

end History
