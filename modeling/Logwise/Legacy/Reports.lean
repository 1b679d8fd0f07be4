import Logwise.Legacy.Lifetime

/-!
# Every task reports once, and reports everything

A task is dropped when nothing leads to it any more, and not before: an interval that has begun under
it holds it until the task has been told of it.
-/

namespace Logwise.Legacy.Lifetime

open Counted (Heap Accounted)

/-- The task, with nothing recorded. -/
def blank (task : Task) : Task :=
  Task.new task.taskId task.label task.completionLevel task.shouldLogCompletion

/-! ## What a step can do -/

/-- Whom the references belong to. -/
def Running.refs (running : Running) : List ℕ :=
  match running.phase with
  | .closed _ => []
  | _ => [running.context]

def Work.refs : Work → List ℕ
  | .release a => [a]
  | .dropTask _ => []

def refsOf (owners : List (Option ℕ)) (intervals : List Running) (threads : List (List Work)) :
    List ℕ :=
  owners.flatMap Option.toList ++
    (intervals.flatMap Running.refs ++ threads.flatMap fun stack => stack.flatMap Work.refs)

/-- All references to contexts that no context owns. -/
def State.refs (s : State) : List ℕ := refsOf s.owners s.intervals s.threads

inductive Moves (s : State) : State → Prop where
  | spawn : Moves s { s with threads := s.threads ++ [[]] }
  | alloc (parent : Option ℕ) (inner : ContextInner) (owners : List (Option ℕ))
    (contextId taskId : UInt64)
    (howners : ∀ b, (owners.flatMap Option.toList).count b + parent.toList.count b =
      (s.owners.flatMap Option.toList).count b)
    (hblank : ∀ task, inner.defineTask = some task → task = blank task)
    (hroot : parent = none → inner.defineTask.isSome) :
    Moves s
      { s with
        heap := s.heap.alloc parent inner, contextId := contextId, taskId := taskId
        owners := owners ++ [some s.heap.length] }
  | clone (a : ℕ) (hmem : a ∈ s.refs) :
    Moves s { s with heap := s.heap.retain a, owners := s.owners ++ [some a] }
  | tracing (a : ℕ) : Moves s { s with heap := State.setTracing s.heap a }
  | begin (a : ℕ) (interval : Interval) (hmem : a ∈ s.refs) :
    Moves s
      { s with
        heap := s.heap.retain a
        intervals := s.intervals ++ [{ interval := interval, context := a, phase := .running }] }
  | record (k endTime a : ℕ) (running : Running) (task : Task)
    (hk : s.intervals[k]? = some running) (hphase : running.phase = .running)
    (ha : taskOf s.heap running.context = some a) (htask : task? s.heap a = some task) :
    Moves s
      { s with
        heap := State.setTask s.heap a (task.record (running.interval.call endTime)).task
        intervals := s.intervals.set k { running with phase := .recorded endTime task }
        events := s.events ++ [.recorded a (running.interval.call endTime)] }
  | close (i k endTime : ℕ) (running : Running) (before : Task) (rest : List Work)
    (records : Option (List LogRecord)) (hk : s.intervals[k]? = some running)
    (hphase : running.phase = .recorded endTime before) (hi : s.threads[i]? = some rest) :
    Moves s
      { s.push i [.release running.context] rest with
        intervals := s.intervals.set k { running with phase := .closed endTime }
        events := s.events ++ [.ended k records] }
  | drop (i owner a : ℕ) (rest : List Work) (howner : s.owners[owner]? = some (some a))
    (hi : s.threads[i]? = some rest) : Moves s ((s.give owner).push i [.release a] rest)
  | release (i a : ℕ) (rest : List Work) (hi : s.threads[i]? = some (.release a :: rest)) :
    Moves s { s.push i (State.released s.heap a) rest with heap := s.heap.release a }
  | dropTask (i a : ℕ) (rest : List Work) (task : Task) (order : List Statistic)
    (loggers : List LogPrivacy) (hi : s.threads[i]? = some (.dropTask a :: rest))
    (htask : task? s.heap a = some task)
    (horder : (order : Multiset Statistic) = task.mutable.intervalStatistics.entries) :
    Moves s
      { s.push i [] rest with events := s.events ++ [.reported a (task.drop order loggers)] }

variable {s s' : State} {action : Action} {a : ℕ}

theorem owner_of_held {owner : ℕ} (h : s.held owner = some a) : s.owners[owner]? = some (some a) := by
  obtain ⟨found, hfound, rfl⟩ := Option.bind_eq_some_iff.mp h
  exact hfound

theorem mem_refs_of_owner {owner : ℕ} (h : s.owners[owner]? = some (some a)) : a ∈ s.refs :=
  List.mem_append_left _
    (List.mem_flatMap.mpr ⟨some a, List.mem_of_getElem? h, List.mem_singleton_self a⟩)

/-- What a variable gives away. -/
theorem count_give {owner : ℕ} (h : s.owners[owner]? = some (some a)) (b : ℕ) :
    ((s.give owner).owners.flatMap Option.toList).count b + [a].count b =
      (s.owners.flatMap Option.toList).count b := by
  have hcount := Slots.count_flatMap_set Option.toList h none b
  simp only [Option.toList, List.count_nil, Nat.zero_add] at hcount
  rw [hcount]
  exact Nat.add_comm _ _

theorem step_moves (h : step s action = some s') : Moves s s' := by
  cases action with
  | spawn =>
    cases h
    exact .spawn
  | newTask parent label completionLevel shouldLogCompletion =>
    cases parent with
    | none =>
      cases h
      exact .alloc none _ s.owners _ _ (fun _ => rfl) (fun _ h => by cases h; rfl) fun _ => rfl
    | some owner =>
      obtain ⟨parent, hheld, rfl⟩ := Option.map_eq_some_iff.mp h
      exact .alloc (some parent) _ _ _ _ (count_give (owner_of_held hheld))
        (fun _ h => by cases h; rfl) fun h => by cases h
  | fromParent owner =>
    obtain ⟨parent, hheld, h⟩ := Option.bind_eq_some_iff.mp h
    obtain ⟨inner, -, rfl⟩ := Option.map_eq_some_iff.mp h
    exact .alloc (some parent) _ _ _ _ (count_give (owner_of_held hheld))
      (fun _ h => by cases h) fun h => by cases h
  | clone owner =>
    obtain ⟨a, hheld, rfl⟩ := Option.map_eq_some_iff.mp h
    exact .clone a (mem_refs_of_owner (owner_of_held hheld))
  | beginTrace owner =>
    obtain ⟨a, hheld, rfl⟩ := Option.map_eq_some_iff.mp h
    exact .tracing a
  | begin owner interval =>
    obtain ⟨a, hheld, rfl⟩ := Option.map_eq_some_iff.mp h
    exact .begin a interval (mem_refs_of_owner (owner_of_held hheld))
  | record k endTime =>
    obtain ⟨running, hk, h⟩ := Option.bind_eq_some_iff.mp h
    split at h
    next hphase =>
      obtain ⟨a, ha, h⟩ := Option.bind_eq_some_iff.mp h
      obtain ⟨task, htask, rfl⟩ := Option.map_eq_some_iff.mp h
      exact .record k endTime a running task hk hphase ha htask
    next => cases h
  | close i k initial loggers =>
    obtain ⟨running, hk, h⟩ := Option.bind_eq_some_iff.mp h
    split at h
    next endTime before hphase =>
      obtain ⟨context, -, h⟩ := Option.bind_eq_some_iff.mp h
      obtain ⟨rest, hi, rfl⟩ := Option.map_eq_some_iff.mp h
      exact .close i k endTime running before rest _ hk hphase hi
    next => cases h
  | drop i owner =>
    obtain ⟨a, hheld, h⟩ := Option.bind_eq_some_iff.mp h
    obtain ⟨rest, hi, rfl⟩ := Option.map_eq_some_iff.mp h
    exact .drop i owner a rest (owner_of_held hheld) hi
  | work i order loggers =>
    obtain ⟨stack, hi, h⟩ := Option.bind_eq_some_iff.mp h
    cases stack with
    | nil => cases h
    | cons work rest =>
      cases work with
      | release a =>
        cases h
        exact .release i a rest hi
      | dropTask a =>
        obtain ⟨task, htask, h⟩ := Option.bind_eq_some_iff.mp h
        split at h
        next horder =>
          cases h
          exact .dropTask i a rest task order loggers hi htask horder
        next => cases h

/-! ## What never changes -/

/-- The contexts that are there keep their parents, and define a task or none as before. -/
structure Extends (heap heap' : Heap ContextInner) : Prop where
  length : heap.length ≤ heap'.length
  parent : ∀ b < heap.length, heap'.parent? b = heap.parent? b
  defines : ∀ b < heap.length, (task? heap' b).isSome = (task? heap b).isSome

section

variable {heap heap' : Heap ContextInner} {refs : List ℕ} {b : ℕ}

theorem Extends.refl (heap : Heap ContextInner) : Extends heap heap :=
  ⟨Nat.le_refl _, fun _ _ => rfl, fun _ _ => rfl⟩

theorem extends_alloc (parent : Option ℕ) (inner : ContextInner) :
    Extends heap (heap.alloc parent inner) where
  length := by simp [Heap.alloc]
  parent := fun _ hb => Heap.parent?_alloc_of_ne (Nat.ne_of_lt hb)
  defines := fun _ hb => by rw [task?, Heap.value?_alloc_of_ne (Nat.ne_of_lt hb), task?]

theorem task?_update (f : ContextInner → ContextInner) :
    task? (heap.update a f) b =
      if a = b then (heap.value? b).bind fun inner => (f inner).defineTask else task? heap b := by
  rw [task?, Heap.value?_update]
  split
  · rw [Option.bind_map]
    rfl
  · rfl

theorem extends_update {f : ContextInner → ContextInner}
    (hf : ∀ inner, heap.value? a = some inner →
      (f inner).defineTask.isSome = inner.defineTask.isSome) : Extends heap (heap.update a f) where
  length := by simp
  parent := by simp
  defines := fun b _ => by
    rw [task?_update]
    split
    next hb =>
      subst hb
      rw [task?]
      cases hinner : heap.value? a with
      | none => rfl
      | some inner => exact hf inner hinner
    next => rfl

theorem extends_setTracing (heap : Heap ContextInner) (a : ℕ) :
    Extends heap (State.setTracing heap a) := extends_update fun _ _ => rfl

@[simp] theorem task?_setTracing : task? (State.setTracing heap a) b = task? heap b := by
  rw [State.setTracing, task?_update]
  split
  · rfl
  · rfl

theorem live_setTracing : (State.setTracing heap a).Live b ↔ heap.Live b := Heap.live_update

theorem live_setTask {task : Task} : (State.setTask heap a task).Live b ↔ heap.Live b :=
  Heap.live_update

theorem lt_length_of_task? {task : Task} (h : task? heap a = some task) : a < heap.length := by
  obtain ⟨inner, hinner, -⟩ := Option.bind_eq_some_iff.mp h
  obtain ⟨node, hnode, -⟩ := Option.map_eq_some_iff.mp hinner
  exact (List.getElem?_eq_some_iff.mp hnode).1

theorem task?_setTask {task : Task} (h : (task? heap a).isSome) :
    task? (State.setTask heap a task) b = if a = b then some task else task? heap b := by
  rw [State.setTask, task?_update]
  split
  next hb =>
    subst hb
    obtain ⟨old, hold⟩ := Option.isSome_iff_exists.mp h
    obtain ⟨inner, hinner, -⟩ := Option.bind_eq_some_iff.mp hold
    rw [hinner]
    rfl
  next => rfl

theorem extends_setTask {task : Task} (h : (task? heap a).isSome) :
    Extends heap (State.setTask heap a task) := by
  refine extends_update fun inner hinner => ?_
  rw [task?, hinner] at h
  exact h.symm

theorem findTask_succ (heap : Heap ContextInner) (fuel a : ℕ) :
    findTask heap (fuel + 1) a =
      if (task? heap a).isSome then some a else (heap.parent? a).bind (findTask heap fuel) := by
  rw [findTask, task?, Heap.value?, Heap.parent?]
  cases heap[a]? with
  | none => rfl
  | some node => rfl

/-- What a search finds is a task above. -/
theorem leads_of_findTask {fuel : ℕ} (h : findTask heap fuel b = some a) :
    heap.Leads b a ∧ (task? heap a).isSome := by
  induction fuel generalizing b with
  | zero => cases h
  | succ fuel ih =>
    rw [findTask_succ] at h
    split at h
    next htask =>
      cases h
      exact ⟨Relation.ReflTransGen.refl, htask⟩
    next =>
      obtain ⟨parent, hparent, hfound⟩ := Option.bind_eq_some_iff.mp h
      obtain ⟨hleads, htask⟩ := ih hfound
      exact ⟨Relation.ReflTransGen.head hparent hleads, htask⟩

theorem Extends.findTask (h : Extends heap heap') (haccounted : Accounted heap refs) {fuel : ℕ}
    (hb : b < heap.length) : Lifetime.findTask heap' fuel b = Lifetime.findTask heap fuel b := by
  induction fuel generalizing b with
  | zero => rfl
  | succ fuel ih =>
    rw [findTask_succ, findTask_succ, h.defines b hb, h.parent b hb]
    cases hparent : heap.parent? b with
    | none => rfl
    | some parent =>
      rw [Option.bind_some, Option.bind_some,
        ih (Nat.lt_trans (haccounted.lt_of_owns hparent).1 hb)]

end

theorem Moves.extends (h : Moves s s') : Extends s.heap s'.heap := by
  cases h with
  | alloc parent inner owners contextId taskId howners hblank hroot => exact extends_alloc parent inner
  | clone a hmem => exact ⟨by simp, by simp, by simp [task?]⟩
  | tracing a => exact extends_setTracing s.heap a
  | begin a interval hmem => exact ⟨by simp, by simp, by simp [task?]⟩
  | record k endTime a running task hk hphase ha htask =>
    exact extends_setTask (by simp [htask])
  | release i a rest hi => exact ⟨by simp, by simp, by simp [task?]⟩
  | spawn | close | drop | dropTask => exact Extends.refl _

/-! ## The references are accounted for -/

theorem count_refsOf (owners : List (Option ℕ)) (intervals : List Running)
    (threads : List (List Work)) (b : ℕ) : (refsOf owners intervals threads).count b =
      (owners.flatMap Option.toList).count b + ((intervals.flatMap Running.refs).count b +
        (threads.flatMap fun stack => stack.flatMap Work.refs).count b) := by
  rw [refsOf, List.count_append, List.count_append]

theorem count_push (work rest new : List Work) {threads : List (List Work)} {i : ℕ}
    (h : threads[i]? = some (work ++ rest)) (b : ℕ) :
    (work.flatMap Work.refs).count b +
        ((threads.set i (new ++ rest)).flatMap fun stack => stack.flatMap Work.refs).count b =
      (new.flatMap Work.refs).count b +
        (threads.flatMap fun stack => stack.flatMap Work.refs).count b := by
  have hcount := Slots.count_flatMap_set (fun stack => stack.flatMap Work.refs) h (new ++ rest) b
  rw [List.flatMap_append, List.flatMap_append, List.count_append, List.count_append] at hcount
  omega

/-- The references that are left to give up when an allocation goes. -/
theorem flatMap_released (heap : Heap ContextInner) (a : ℕ) :
    (State.released heap a).flatMap Work.refs = (heap.freed a).toList := by
  have htask : ((task? heap a).map fun _ => Work.dropTask a).toList.flatMap Work.refs = [] := by
    cases task? heap a <;> rfl
  rw [State.released, Heap.freed, Heap.parent?]
  cases heap[a]? with
  | none => rfl
  | some node =>
    simp only [Option.map_some, Option.some.injEq, Option.bind_some]
    split
    · rw [List.flatMap_append, htask]
      cases node.parent <;> rfl
    · rfl

theorem Moves.accounted (h : Moves s s') (haccounted : Accounted s.heap s.refs) :
    Accounted s'.heap s'.refs := by
  cases h with
  | spawn =>
    refine haccounted.congr fun b => ?_
    rw [State.refs, State.refs, count_refsOf, count_refsOf]
    simp
  | alloc parent inner owners contextId taskId howners hblank hroot =>
    have hgiven : Accounted s.heap (parent.toList ++ refsOf owners s.intervals s.threads) :=
      haccounted.congr fun b => by
        rw [State.refs, List.count_append, count_refsOf, count_refsOf, ← howners b]
        omega
    refine (hgiven.alloc inner).congr fun b => ?_
    rw [State.refs, List.count_cons, count_refsOf, count_refsOf]
    simp [List.count_cons]
    omega
  | clone a hmem =>
    refine (haccounted.retain hmem).congr fun b => ?_
    rw [State.refs, State.refs, List.count_cons, count_refsOf, count_refsOf]
    simp [List.count_cons]
    omega
  | tracing a => exact haccounted.update a fun inner => { inner with isTracing := true }
  | begin a interval hmem =>
    refine (haccounted.retain hmem).congr fun b => ?_
    rw [State.refs, State.refs, List.count_cons, count_refsOf, count_refsOf]
    simp [Running.refs, List.count_cons]
    omega
  | record k endTime a running task hk hphase ha htask =>
    have hupdate := haccounted.update a fun inner =>
      { inner with defineTask := some (task.record (running.interval.call endTime)).task }
    refine hupdate.congr fun b => ?_
    have hcount := Slots.count_flatMap_set Running.refs hk
      { running with phase := .recorded endTime task } b
    simp only [Running.refs, hphase] at hcount
    rw [State.refs, State.refs, count_refsOf, count_refsOf]
    dsimp only
    omega
  | close i k endTime running before rest records hk hphase hi =>
    refine haccounted.congr fun b => ?_
    have hcount := Slots.count_flatMap_set Running.refs hk { running with phase := .closed endTime } b
    have hpush := count_push [] rest [.release running.context] hi b
    simp only [Running.refs, hphase, List.count_nil] at hcount
    simp only [List.flatMap_nil, List.count_nil, List.flatMap_singleton, Work.refs] at hpush
    rw [State.refs, State.refs, count_refsOf, count_refsOf]
    dsimp only [State.push]
    omega
  | drop i owner a rest howner hi =>
    refine haccounted.congr fun b => ?_
    have hgive := count_give howner b
    have hpush := count_push [] rest [.release a] hi b
    simp only [List.flatMap_nil, List.count_nil, List.flatMap_singleton, Work.refs] at hpush
    rw [State.refs, State.refs, count_refsOf, count_refsOf]
    dsimp only [State.push, State.give] at hgive ⊢
    omega
  | release i a rest hi =>
    have hpush := fun b => count_push [.release a] rest (State.released s.heap a) hi b
    have hpop := fun b => count_push [.release a] rest [] hi b
    simp only [List.flatMap_nil, List.count_nil, List.flatMap_singleton, Work.refs,
      flatMap_released] at hpush hpop
    have hnext : Accounted s.heap (a :: refsOf s.owners s.intervals (s.threads.set i rest)) :=
      haccounted.congr fun b => by
        have hcount := hpop b
        rw [List.count_singleton, List.nil_append] at hcount
        rw [State.refs, List.count_cons, count_refsOf, count_refsOf]
        omega
    refine hnext.release.congr fun b => ?_
    have hpush := hpush b
    have hpop := hpop b
    rw [List.nil_append] at hpop
    rw [State.refs, List.count_append, count_refsOf, count_refsOf]
    dsimp only [State.push]
    omega
  | dropTask i a rest task order loggers hi htask horder =>
    refine haccounted.congr fun b => ?_
    have hpush := count_push [.dropTask a] rest [] hi b
    simp only [List.flatMap_nil, List.count_nil, List.flatMap_singleton, Work.refs] at hpush
    rw [State.refs, State.refs, count_refsOf, count_refsOf]
    dsimp only [State.push]
    omega

/-! ## Each task reports once -/

def Event.report (a : ℕ) : Event → Option (Option (List LogRecord))
  | .reported b records => if b = a then some records else none
  | _ => none

def Event.call (a : ℕ) : Event → Option Recording
  | .recorded b call => if b = a then some call else none
  | _ => none

@[simp] theorem report_reported (a b : ℕ) (records : Option (List LogRecord)) :
    Event.report a (.reported b records) = if b = a then some records else none := rfl

@[simp] theorem report_ended (a k : ℕ) (records : Option (List LogRecord)) :
    Event.report a (.ended k records) = none := rfl

@[simp] theorem call_reported (a b : ℕ) (records : Option (List LogRecord)) :
    Event.call a (.reported b records) = none := rfl

@[simp] theorem call_ended (a k : ℕ) (records : Option (List LogRecord)) :
    Event.call a (.ended k records) = none := rfl

namespace State

/-- What the destructor of the task has handed to the loggers, each time it ran. -/
def reports (s : State) (a : ℕ) : List (Option (List LogRecord)) :=
  s.events.filterMap (Event.report a)

/-- What the task has been told. -/
def calls (s : State) (a : ℕ) : List Recording := s.events.filterMap (Event.call a)

/-- The destructors of the task that are about to run. -/
def pending (s : State) (a : ℕ) : ℕ := s.threads.flatten.count (.dropTask a)

end State

/-- The task reports when its context is freed. -/
structure Settled (s : State) (a : ℕ) : Prop where
  live : s.heap.Live a → s.reports a = [] ∧ s.pending a = 0
  freed : (task? s.heap a).isSome → ¬ s.heap.Live a → (s.reports a).length + s.pending a = 1
  other : (task? s.heap a).isSome = false → s.reports a = [] ∧ s.pending a = 0

theorem Settled.congr (h : Settled s a) (hlive : s'.heap.Live a ↔ s.heap.Live a)
    (htask : (task? s'.heap a).isSome = (task? s.heap a).isSome)
    (hreports : s'.reports a = s.reports a) (hpending : s'.pending a = s.pending a) :
    Settled s' a where
  live := fun h' => by
    rw [hreports, hpending]
    exact h.live (hlive.mp h')
  freed := fun hsome h' => by
    rw [hreports, hpending]
    exact h.freed (htask ▸ hsome) (mt hlive.mpr h')
  other := fun hnone => by
    rw [hreports, hpending]
    exact h.other (htask ▸ hnone)

theorem reports_append (s : State) (event : Event) (a : ℕ) :
    (s.events ++ [event]).filterMap (Event.report a) =
      s.reports a ++ (Event.report a event).toList := by
  rw [List.filterMap_append, State.reports]
  cases hevent : Event.report a event with
  | none => simp [hevent]
  | some records => simp [hevent]

theorem calls_append (s : State) (event : Event) (a : ℕ) :
    (s.events ++ [event]).filterMap (Event.call a) = s.calls a ++ (Event.call a event).toList := by
  rw [List.filterMap_append, State.calls]
  cases hevent : Event.call a event with
  | none => simp [hevent]
  | some call => simp [hevent]

theorem pending_push (work rest new : List Work) {threads : List (List Work)} {i : ℕ}
    (h : threads[i]? = some (work ++ rest)) (a : ℕ) :
    work.count (.dropTask a) + (threads.set i (new ++ rest)).flatten.count (.dropTask a) =
      new.count (.dropTask a) + threads.flatten.count (.dropTask a) := by
  have hcount := Slots.count_flatMap_set (fun stack => stack) h (new ++ rest) (.dropTask a)
  simp only [List.flatMap_id', List.count_append] at hcount
  omega

theorem released_eq (heap : Heap ContextInner) (a : ℕ) :
    (heap.Last a ∧ State.released heap a =
        (heap.parent? a).toList.map .release ++
          ((task? heap a).map fun _ => Work.dropTask a).toList) ∨
      (¬ heap.Last a ∧ State.released heap a = []) := by
  rw [State.released, Heap.Last]
  cases hnode : heap[a]? with
  | none => exact Or.inr ⟨by simp, rfl⟩
  | some node =>
    simp only [Option.map_some, Option.some.injEq, exists_eq_left']
    by_cases hlast : node.strong = 1
    · exact Or.inl ⟨hlast, if_pos hlast⟩
    · exact Or.inr ⟨hlast, if_neg hlast⟩

theorem count_dropTask_releases (parent : Option ℕ) (a : ℕ) :
    (parent.toList.map Work.release).count (.dropTask a) = 0 := by
  cases parent <;> simp

/-- The destructor that is left to run, if the context defines a task. -/
theorem count_released {heap : Heap ContextInner} (hlast : heap.Last a)
    (htask : (task? heap a).isSome) : (State.released heap a).count (.dropTask a) = 1 := by
  obtain ⟨-, heq⟩ | ⟨hno, -⟩ := released_eq heap a
  · obtain ⟨task, htask⟩ := Option.isSome_iff_exists.mp htask
    rw [heq, List.count_append, count_dropTask_releases, htask]
    simp
  · exact absurd hlast hno

theorem count_released_other {heap : Heap ContextInner} {b : ℕ}
    (hno : ¬ (b = a ∧ heap.Last b ∧ (task? heap b).isSome)) :
    (State.released heap b).count (.dropTask a) = 0 := by
  obtain ⟨hlast, heq⟩ | ⟨-, heq⟩ := released_eq heap b
  · rw [heq, List.count_append, count_dropTask_releases]
    cases htask : task? heap b with
    | none => rfl
    | some task =>
      have hne : b ≠ a := fun hb => hno ⟨hb, hlast, by rw [htask]; rfl⟩
      simp [hne]
  · rw [heq]
    rfl

theorem Moves.settled (h : Moves s s') (haccounted : Accounted s.heap s.refs)
    (hsettled : ∀ a, Settled s a) (a : ℕ) : Settled s' a := by
  have hprev := hsettled a
  cases h with
  | spawn => exact hprev.congr Iff.rfl rfl rfl (by simp [State.pending])
  | alloc parent inner owners contextId taskId howners hblank hroot =>
    by_cases ha : a = s.heap.length
    · subst ha
      have hnone : task? s.heap s.heap.length = none := by
        simp [task?, Heap.value?]
      obtain ⟨hreports, hpending⟩ := hprev.other (by rw [hnone]; rfl)
      exact ⟨fun _ => ⟨hreports, hpending⟩,
        fun _ hdead => absurd (Heap.live_alloc.mpr (Or.inr rfl)) hdead,
        fun _ => ⟨hreports, hpending⟩⟩
    · refine hprev.congr ?_ ?_ rfl rfl
      · exact Heap.live_alloc.trans (or_iff_left ha)
      · dsimp only
        rw [task?, Heap.value?_alloc_of_ne ha, task?]
  | clone b hmem =>
    exact hprev.congr (Heap.live_retain (haccounted.live_of_mem hmem)) (by simp [task?]) rfl rfl
  | tracing b => exact hprev.congr live_setTracing (by simp) rfl rfl
  | begin b interval hmem =>
    exact hprev.congr (Heap.live_retain (haccounted.live_of_mem hmem)) (by simp [task?]) rfl rfl
  | record k endTime b running task hk hphase hb htask =>
    refine hprev.congr live_setTask ?_ ?_ rfl
    · dsimp only
      rw [task?_setTask (by simp [htask])]
      split
      next hab =>
        subst hab
        rw [htask]
        rfl
      next => rfl
    · exact (reports_append s _ a).trans (List.append_nil _)
  | close i k endTime running before rest records hk hphase hi =>
    refine hprev.congr Iff.rfl rfl ?_ ?_
    · exact (reports_append s _ a).trans (List.append_nil _)
    · have hpush := pending_push [] rest [.release running.context] hi a
      simpa [State.pending, State.push] using hpush
  | drop i owner b rest howner hi =>
    refine hprev.congr Iff.rfl rfl rfl ?_
    have hpush := pending_push [] rest [.release b] hi a
    simpa [State.pending, State.push, State.give] using hpush
  | release i b rest hi =>
    have hpush := pending_push [.release b] rest (State.released s.heap b) hi a
    rw [List.count_singleton] at hpush
    by_cases hlast : b = a ∧ s.heap.Last b
    · obtain ⟨rfl, hlast⟩ := hlast
      obtain ⟨node, hnode, hstrong⟩ := hlast
      obtain ⟨hreports, hpending⟩ := hprev.live ⟨node, hnode, by omega⟩
      have hdead : ¬ (s.heap.release b).Live b := fun hlive =>
        (Heap.live_release.mp hlive).2 ⟨rfl, node, hnode, hstrong⟩
      change s.threads.flatten.count (.dropTask b) = 0 at hpending
      refine ⟨fun hlive => absurd hlive hdead, fun htask _ => ?_, fun hnone => ⟨hreports, ?_⟩⟩
      · rw [count_released ⟨node, hnode, hstrong⟩ (by simpa [task?] using htask), hpending] at hpush
        change (s.reports b).length + _ = 1
        rw [hreports]
        simpa [State.pending, State.push] using hpush
      · rw [count_released_other fun h => ?_, hpending] at hpush
        · simpa [State.pending, State.push] using hpush
        · have hsome : (task? s.heap b).isSome = false := by simpa [task?] using hnone
          exact absurd (hsome.symm.trans h.2.2) Bool.false_ne_true
    · refine hprev.congr ?_ (by simp [task?]) rfl ?_
      · rw [Heap.live_release, and_iff_left hlast]
      · rw [count_released_other fun h => hlast ⟨h.1, h.2.1⟩] at hpush
        simpa [State.pending, State.push] using hpush
  | dropTask i b rest task order loggers hi htask horder =>
    have hpush := pending_push [.dropTask b] rest [] hi a
    have hreports := reports_append s (.reported b (task.drop order loggers)) a
    by_cases hb : b = a
    · subst hb
      have hlive : ¬ s.heap.Live b := fun hlive => by
        have hpending := (hprev.live hlive).2
        rw [State.pending] at hpending
        simp at hpush
        omega
      have hcount := hprev.freed (by simp [htask]) hlive
      have hone : (Event.report b (.reported b (task.drop order loggers))) =
          some (task.drop order loggers) := if_pos rfl
      rw [hone] at hreports
      refine ⟨fun h => absurd h hlive, fun _ _ => ?_, fun hnone => ?_⟩
      · rw [State.reports]
        dsimp only
        rw [hreports]
        rw [State.pending] at hcount ⊢
        simp [State.push] at hpush ⊢
        omega
      · have hsome : (task? s.heap b).isSome = false := hnone
        rw [htask] at hsome
        cases hsome
    · refine hprev.congr Iff.rfl rfl ?_ ?_
      · exact hreports.trans (by simp [Event.report, hb])
      · simpa [State.pending, State.push, hb, List.count_cons] using hpush

/-! ## Each task is told of its intervals -/

/-- What the task at `a` has been told of the interval. -/
def Running.told (heap : Heap ContextInner) (a : ℕ) (running : Running) : List Recording :=
  if taskOf heap running.context = some a then
    match running.phase with
    | .running => []
    | .recorded endTime _ => [running.interval.call endTime]
    | .closed endTime => [running.interval.call endTime]
  else []

/-- The destructor of the task hands this to the loggers, or unwinds. -/
def Reported (task : Task) (records : Option (List LogRecord)) : Prop :=
  ∃ (order : List Statistic) (loggers : List LogPrivacy),
    (order : Multiset Statistic) = task.mutable.intervalStatistics.entries ∧
      records = task.drop order loggers

structure Told (s : State) : Prop where
  contexts : ∀ running ∈ s.intervals, running.context < s.heap.length
  calls : ∀ a, (s.calls a).Perm (s.intervals.flatMap (Running.told s.heap a))
  tracks : ∀ a task, task? s.heap a = some task → task = (blank task).run (s.calls a)
  reports : ∀ a, ∀ records ∈ s.reports a, ∃ task, task? s.heap a = some task ∧
    Reported task records

/-- What has been told does not change with the heap. -/
theorem flatMap_told {heap heap' : Heap ContextInner} {refs : List ℕ} {intervals : List Running}
    (hextends : Extends heap heap') (haccounted : Accounted heap refs)
    (hcontexts : ∀ running ∈ intervals, running.context < heap.length) (a : ℕ) :
    intervals.flatMap (Running.told heap' a) = intervals.flatMap (Running.told heap a) := by
  refine List.flatMap_congr fun running hmem => ?_
  have htask : taskOf heap' running.context = taskOf heap running.context :=
    hextends.findTask haccounted (hcontexts running hmem)
  rw [Running.told, Running.told, htask]

/-- A task that is not there has been told nothing. -/
theorem Told.calls_eq_nil (h : Told s) (ha : task? s.heap a = none) : s.calls a = [] := by
  refine List.Perm.eq_nil ((h.calls a).trans (List.Perm.of_eq ?_))
  refine List.flatMap_eq_nil_iff.mpr fun running _ => if_neg fun htask => ?_
  have hsome := (leads_of_findTask htask).2
  rw [ha] at hsome
  cases hsome

/-- The steps that tell a task nothing and let none report. -/
theorem Told.congr (h : Told s) (haccounted : Accounted s.heap s.refs)
    (hextends : Extends s.heap s'.heap) (hintervals : s'.intervals = s.intervals)
    (hevents : s'.events = s.events)
    (htask : ∀ a task, task? s'.heap a = some task →
      task? s.heap a = some task ∨ task? s.heap a = none ∧ task = blank task)
    (hold : ∀ a, (task? s.heap a).isSome → task? s'.heap a = task? s.heap a) : Told s' where
  contexts := fun running hmem =>
    Nat.lt_of_lt_of_le (h.contexts running (hintervals ▸ hmem)) hextends.length
  calls := fun a => by
    rw [State.calls, hevents, hintervals, flatMap_told hextends haccounted h.contexts]
    exact h.calls a
  tracks := fun a task ha => by
    rw [State.calls, hevents]
    obtain ha | ⟨hnone, hblank⟩ := htask a task ha
    · exact h.tracks a task ha
    · have hnil := h.calls_eq_nil hnone
      rw [State.calls] at hnil
      rw [hnil]
      exact hblank
  reports := fun a records hmem => by
    rw [State.reports, hevents] at hmem
    obtain ⟨task, ha, hreported⟩ := h.reports a records hmem
    exact ⟨task, (hold a (by simp [ha])).trans ha, hreported⟩

theorem blank_record (task : Task) (call : Recording) :
    blank (task.record call).task = blank task := by
  cases call with
  | interval key duration =>
    simp only [Task.record, Task.addTaskInterval]
    split
    · rfl
    · split <;> rfl
  | intervalIf key duration threshold =>
    simp only [Task.record, Task.addTaskIntervalIf]
    split
    · rfl
    · split
      · rfl
      · split <;> rfl

theorem run_append (task : Task) (calls : List Recording) (call : Recording) :
    task.run (calls ++ [call]) = ((task.run calls).record call).task := by
  rw [Task.run, Task.run, List.foldl_append]
  rfl

/-- An interval that has not been closed holds its task. -/
theorem live_of_running {running : Running} (haccounted : Accounted s.heap s.refs)
    (hmem : running ∈ s.intervals) (hopen : running.refs = [running.context])
    (ha : taskOf s.heap running.context = some a) : s.heap.Live a := by
  have hrefs : running.context ∈ s.refs :=
    List.mem_append_right _ (List.mem_append_left _
      (List.mem_flatMap.mpr ⟨running, hmem, hopen ▸ List.mem_singleton_self _⟩))
  exact haccounted.live_of_leads (haccounted.live_of_mem hrefs) (leads_of_findTask ha).1

theorem Told.begin (htold : Told s) (haccounted : Accounted s.heap s.refs) {b : ℕ}
    (hmem : b ∈ s.refs) (interval : Interval) :
    Told
      { s with
        heap := s.heap.retain b
        intervals := s.intervals ++ [{ interval := interval, context := b, phase := .running }] } := by
  have hretain : Extends s.heap (s.heap.retain b) := (Moves.clone b hmem).extends
  refine ⟨?_, fun a => ?_, fun a task ha => ?_, fun a records hrecords => ?_⟩
  · dsimp only
    rw [Heap.length_retain]
    exact Slots.forall_mem_concat htold.contexts (haccounted.refs b hmem)
  · have hnew : Running.told (s.heap.retain b) a
        { interval := interval, context := b, phase := .running } = [] := by
      rw [Running.told]
      split <;> rfl
    dsimp only
    rw [List.flatMap_append, List.flatMap_singleton, hnew, List.append_nil,
      flatMap_told hretain haccounted htold.contexts]
    exact htold.calls a
  · exact htold.tracks a task (by simpa [task?] using ha)
  · obtain ⟨task, ha, hreported⟩ := htold.reports a records hrecords
    exact ⟨task, by simpa [task?] using ha, hreported⟩

theorem Told.record (htold : Told s) (haccounted : Accounted s.heap s.refs)
    (hsettled : ∀ a, Settled s a) {k b : ℕ} (endTime : ℕ) {running : Running} {task : Task}
    (hk : s.intervals[k]? = some running) (hphase : running.phase = .running)
    (hb : taskOf s.heap running.context = some b) (htask : task? s.heap b = some task) :
    Told
      { s with
        heap := State.setTask s.heap b (task.record (running.interval.call endTime)).task
        intervals := s.intervals.set k { running with phase := .recorded endTime task }
        events := s.events ++ [.recorded b (running.interval.call endTime)] } := by
  have hmem := List.mem_of_getElem? hk
  have hsome : (task? s.heap b).isSome := by rw [htask]; rfl
  have hextends : Extends s.heap
      (State.setTask s.heap b (task.record (running.interval.call endTime)).task) :=
    extends_setTask hsome
  have hcontexts : ∀ other ∈ s.intervals.set k { running with phase := .recorded endTime task },
      other.context < s.heap.length :=
    Slots.forall_mem_set htold.contexts (htold.contexts running hmem)
  refine ⟨?_, fun a => ?_, fun a new ha => ?_, fun a records hrecords => ?_⟩
  · dsimp only
    rw [State.setTask, Heap.length_update]
    exact hcontexts
  · rw [State.calls]
    dsimp only
    rw [calls_append, flatMap_told hextends haccounted hcontexts]
    have hperm := Slots.perm_flatMap_set (Running.told s.heap a) hk
      { running with phase := .recorded endTime task }
    have hold : running.told s.heap a = [] := by
      rw [Running.told, hphase]
      split <;> rfl
    have hnew : Running.told s.heap a { running with phase := .recorded endTime task } =
        (Event.call a (.recorded b (running.interval.call endTime))).toList := by
      rw [Running.told, Event.call, hb]
      by_cases hab : b = a <;> simp [hab]
    rw [hold, hnew, List.nil_append] at hperm
    exact (List.perm_append_comm.trans ((htold.calls a).append_left _)).trans hperm
  · rw [State.calls]
    dsimp only at ha ⊢
    rw [calls_append]
    rw [task?_setTask hsome] at ha
    split at ha
    next hab =>
      subst hab
      cases ha
      have hcall : Event.call b (.recorded b (running.interval.call endTime)) =
          some (running.interval.call endTime) := if_pos rfl
      rw [hcall, blank_record, Option.toList, run_append, ← htold.tracks b task htask]
    next hab =>
      have hcall : Event.call a (.recorded b (running.interval.call endTime)) = none := if_neg hab
      rw [hcall, Option.toList, List.append_nil]
      exact htold.tracks a new ha
  · have hreports := reports_append s (.recorded b (running.interval.call endTime)) a
    rw [State.reports] at hrecords
    dsimp only at hrecords ⊢
    rw [hreports] at hrecords
    obtain hrecords | hrecords := List.mem_append.mp hrecords
    · have hne : b ≠ a := fun hab => by
        subst hab
        have hopen : running.refs = [running.context] := by rw [Running.refs, hphase]
        have hlive := live_of_running haccounted hmem hopen hb
        rw [((hsettled b).live hlive).1] at hrecords
        cases hrecords
      obtain ⟨old, hold, hreported⟩ := htold.reports a records hrecords
      exact ⟨old, (task?_setTask hsome).trans ((if_neg hne).trans hold), hreported⟩
    · cases hrecords

theorem Moves.told (h : Moves s s') (haccounted : Accounted s.heap s.refs)
    (hsettled : ∀ a, Settled s a) (htold : Told s) : Told s' := by
  have hextends := h.extends
  cases h with
  | spawn => exact htold.congr haccounted hextends rfl rfl (fun _ _ => Or.inl) fun _ _ => rfl
  | alloc parent inner owners contextId taskId howners hblank hroot =>
    have hsame : ∀ a, a ≠ s.heap.length →
        task? (s.heap.alloc parent inner) a = task? s.heap a := fun a ha => by
      rw [task?, Heap.value?_alloc_of_ne ha, task?]
    refine htold.congr haccounted hextends rfl rfl (fun a task ha => ?_) fun a hsome => ?_
    · by_cases hlast : a = s.heap.length
      · subst hlast
        refine Or.inr ⟨by simp [task?, Heap.value?], hblank task ?_⟩
        simpa [task?] using ha
      · exact Or.inl ((hsame a hlast).symm.trans ha)
    · obtain ⟨task, ha⟩ := Option.isSome_iff_exists.mp hsome
      exact hsame a (Nat.ne_of_lt (lt_length_of_task? ha))
  | clone b hmem =>
    exact htold.congr haccounted hextends rfl rfl (fun a task ha => Or.inl (by simpa [task?] using ha))
      fun a _ => by simp [task?]
  | tracing b =>
    exact htold.congr haccounted hextends rfl rfl (fun a task ha => Or.inl (by simpa using ha))
      fun a _ => by simp
  | begin b interval hmem => exact htold.begin haccounted hmem interval
  | record k endTime b running task hk hphase hb htask =>
    exact htold.record haccounted hsettled endTime hk hphase hb htask
  | close i k endTime running before rest records hk hphase hi =>
    have hmem := List.mem_of_getElem? hk
    refine ⟨Slots.forall_mem_set htold.contexts (htold.contexts running hmem), fun a => ?_,
      fun a task ha => ?_, fun a found hfound => ?_⟩
    · have hperm := Slots.perm_flatMap_set (Running.told s.heap a) hk
        { running with phase := .closed endTime }
      have hsame : Running.told s.heap a { running with phase := .closed endTime } =
          running.told s.heap a := by
        rw [Running.told, Running.told, hphase]
      rw [hsame] at hperm
      rw [State.calls]
      dsimp only
      rw [calls_append, call_ended, Option.toList, List.append_nil]
      exact (htold.calls a).trans ((List.perm_append_left_iff _).mp hperm)
    · rw [State.calls]
      dsimp only
      rw [calls_append, call_ended, Option.toList, List.append_nil]
      exact htold.tracks a task ha
    · rw [State.reports] at hfound
      dsimp only at hfound
      rw [reports_append, report_ended, Option.toList, List.append_nil] at hfound
      exact htold.reports a found hfound
  | drop i owner b rest howner hi =>
    exact htold.congr haccounted hextends rfl rfl (fun _ _ => Or.inl) fun _ _ => rfl
  | release i b rest hi =>
    exact htold.congr haccounted hextends rfl rfl (fun a task ha => Or.inl (by simpa [task?] using ha))
      fun a _ => by simp [task?]
  | dropTask i b rest task order loggers hi htask horder =>
    refine ⟨htold.contexts, fun a => ?_, fun a found ha => ?_, fun a found hfound => ?_⟩
    · rw [State.calls]
      dsimp only
      rw [calls_append, call_reported, Option.toList, List.append_nil]
      exact htold.calls a
    · rw [State.calls]
      dsimp only
      rw [calls_append, call_reported, Option.toList, List.append_nil]
      exact htold.tracks a found ha
    · rw [State.reports] at hfound
      dsimp only at hfound
      rw [reports_append, report_reported] at hfound
      obtain hfound | hfound := List.mem_append.mp hfound
      · exact htold.reports a found hfound
      · by_cases hab : b = a
        · subst hab
          rw [if_pos rfl] at hfound
          obtain rfl := List.mem_singleton.mp hfound
          exact ⟨task, htask, order, loggers, horder, rfl⟩
        · rw [if_neg hab] at hfound
          cases hfound

/-! ## Runs -/

/-- Something that is not owned by a context leads to this one. -/
def State.Held (s : State) (a : ℕ) : Prop := ∃ r ∈ s.refs, s.heap.Leads r a

structure Sound (s : State) : Prop where
  accounted : Accounted s.heap s.refs
  settled : ∀ a, Settled s a
  told : Told s

theorem sound_init : Sound init where
  accounted := Accounted.nil
  settled := fun _ => ⟨fun _ => ⟨rfl, rfl⟩, fun h _ => (by cases h), fun _ => ⟨rfl, rfl⟩⟩
  told := ⟨fun _ h => (by cases h), fun _ => List.Perm.refl _, fun _ _ h => (by cases h),
    fun _ _ h => by cases h⟩

theorem sound_step (h : Sound s) (hs : step s action = some s') : Sound s' :=
  have hmoves := step_moves hs
  ⟨hmoves.accounted h.accounted, hmoves.settled h.accounted h.settled,
    hmoves.told h.accounted h.settled h.told⟩

theorem sound_of_run {actions : List Action} (hrun : Transition.run step init actions = some s) :
    Sound s :=
  (Transition.reaches_of_run_always actions hrun).invariant (fun _ _ _ h _ hs => sound_step h hs)
    sound_init

theorem Reported.eq_none_iff {task : Task} {records : Option (List LogRecord)}
    (h : Reported task records) : records = none ↔ task.poisoned = true := by
  obtain ⟨order, loggers, -, rfl⟩ := h
  rw [Task.drop]
  split
  next hpoisoned => exact iff_of_true rfl hpoisoned
  next hpoisoned => exact iff_of_false (fun h => by cases h) hpoisoned

/-- A task is created, an interval under it begins and ends, and the task is given up. -/
def queryRun : List Action :=
  [.newTask none "work" .info true, .spawn, .begin 0 (.always "query" 0 some), .record 0 5,
    .close 0 0 0 [.redacted], .work 0 [] [], .drop 0 0, .work 0 [] [],
    .work 0 [⟨"query", Duration.ofNanos 5⟩] [.redacted]]

end Logwise.Legacy.Lifetime
