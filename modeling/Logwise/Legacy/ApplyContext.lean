import Logwise.Legacy.ContextPop
import Logwise.Library.Asking

/-!
# Futures polled under a context

`ApplyContext` (`apply_context.rs`) wraps a future: each poll makes the context current for the
inner poll and puts back what was current before, also when the inner poll unwinds. A poll of a
future is user code, a tree because it may use the contexts it is given and poll other futures.
-/

namespace Logwise.Legacy.ContextImpl

open Shared (Safe Asking)

/-- What a poll of a future does on its thread. -/
inductive Body where
  /-- The poll returns, pending or ready. -/
  | ready
  | panic
  | current (rest : Context → Body)
  | newTask (parent : Option Context) (label : String) (completionLevel : Level)
    (shouldLogCompletion : Bool) (rest : Context → Body)
  | fromParent (context : Context) (rest : Context → Body)
  | setCurrent (context : Context) (rest : Body)
  | reset (label : String) (rest : Body)
  | pop (id : UInt64) (rest : Body)
  | beginTrace (rest : Body)
  | log (level : Level) (text : String) (rest : Body)
  /-- It polls an `ApplyContext` of another future. -/
  | poll (context : Context) (inner rest : Body)
  /-- `catch_unwind`. -/
  | catching (inner rest : Body)

/-- `ApplyContext::poll`, with whether it unwinds. -/
def applyContext (context : Context) (poll : Code Bool) : Code Bool := do
  let prior ← current
  setCurrent context
  let unwound ← poll
  -- `RestoreContext` is dropped, also on unwinding
  setCurrent prior
  pure unwound

namespace Body

/-- The poll, with whether it unwinds. -/
def code (build : Build) : Body → Code Bool
  | .ready => pure false
  | .panic => pure true
  | .current rest => do
    let context ← ContextImpl.current
    (rest context).code build
  | .newTask parent label completionLevel shouldLogCompletion rest => do
    let context ← ContextImpl.newTask parent label completionLevel shouldLogCompletion
    (rest context).code build
  | .fromParent context rest => do
    let context ← ContextImpl.fromParent context
    (rest context).code build
  | .setCurrent context rest => do
    ContextImpl.setCurrent context
    rest.code build
  | .reset label rest => do
    ContextImpl.reset build label
    rest.code build
  | .pop id rest => do
    ContextImpl.pop id
    rest.code build
  | .beginTrace rest => do
    ContextImpl.beginTrace build
    rest.code build
  | .log level text rest => do
    logSync level text
    rest.code build
  | .poll context inner rest => do
    let unwound ← applyContext context (inner.code build)
    if unwound then pure true else rest.code build
  | .catching inner rest => do
    let _ ← inner.code build
    rest.code build

/-- The contexts the poll uses are those it holds at first and those it is given. -/
def Holding (held : List Context) : Body → Prop
  | .ready | .panic => True
  | .current rest => ∀ c, (rest c).Holding (c :: held)
  | .newTask parent _ _ _ rest => (∀ p ∈ parent, p ∈ held) ∧ ∀ c, (rest c).Holding (c :: held)
  | .fromParent context rest => context ∈ held ∧ ∀ c, (rest c).Holding (c :: held)
  | .setCurrent context rest => context ∈ held ∧ rest.Holding held
  | .reset _ rest | .pop _ rest | .beginTrace rest | .log _ _ rest => rest.Holding held
  | .poll context inner rest => context ∈ held ∧ inner.Holding held ∧ rest.Holding held
  | .catching inner rest => inner.Holding held ∧ rest.Holding held

end Body

/-- A poll of an `ApplyContext` that holds no contexts but those some call has returned. -/
structure Poll where
  context : Context
  body : Body
  held : List Context
  context_mem : context ∈ held
  holding : body.Holding held

/-- What a thread does: a call of its own, or a poll. -/
inductive Operation where
  | call (call : Call)
  | poll (poll : Poll)

def Operation.code (build : Build) : Operation → Code Unit
  | .call own => own.code build
  | .poll future => do
    -- whoever polls catches what unwinds out of the poll
    let _ ← applyContext future.context (future.body.code build)
    pure ()

def Operation.given : Operation → List Context
  | .call own => own.given
  | .poll future => future.held

/-- An executor: threads that poll futures, and make calls of their own. -/
def executor (build : Build) : Shared.Machine Cell Memory Operation Request.Answer :=
  { start := .uninit
    code := Operation.code build
    admits := fun memory operation =>
      operation.given.all fun context => context ∈ memory.returned
    serve := serve }

variable {build : Build} {memory : Memory} {cell cell' : Cell}

/-! ## What a poll leaves current -/

/-- Only the end of its thread destroys a cell. -/
def Cell.SameLife (cell cell' : Cell) : Prop := cell' = .destroyed ↔ cell = .destroyed

theorem Cell.SameLife.trans {cell'' : Cell} (h : cell.SameLife cell') (h' : cell'.SameLife cell'') :
    cell.SameLife cell'' := Iff.trans h' h

theorem Cell.Gives.sameLife {c : Context} (h : cell.Gives cell' c) : cell.SameLife cell' := by
  obtain ⟨rfl, rfl⟩ | ⟨rfl, rfl | ⟨rfl, -⟩⟩ := h
  · exact Iff.rfl
  · exact Iff.rfl
  · exact ⟨Cell.noConfusion, Cell.noConfusion⟩

theorem Cell.sameLife_set (cell : Cell) (context : Context) :
    cell.SameLife (cell.set context) := by
  cases cell with
  | destroyed => exact Iff.rfl
  | uninit | current => exact ⟨Cell.noConfusion, Cell.noConfusion⟩

theorem Popped.sameLife {id : UInt64} (h : Popped id cell cell') : cell.SameLife cell' := by
  cases cell with
  | current c =>
    obtain rfl := h
    exact ⟨Cell.noConfusion, Cell.noConfusion⟩
  | uninit =>
    obtain ⟨root, -, rfl⟩ := h
    exact ⟨Cell.noConfusion, Cell.noConfusion⟩
  | destroyed =>
    obtain rfl := h
    exact Iff.rfl

/-- What was current before is current again. A thread that had no context yet has a root. -/
def Cell.Restored : Cell → Cell → Prop
  | .uninit, cell' => ∃ root, root.parent = none ∧ cell' = .current root
  | .current c, cell' => cell' = .current c
  | .destroyed, cell' => cell' = .destroyed

theorem Cell.Restored.sameLife (h : cell.Restored cell') : cell.SameLife cell' := by
  cases cell with
  | uninit =>
    obtain ⟨root, -, rfl⟩ := h
    exact ⟨Cell.noConfusion, Cell.noConfusion⟩
  | current c =>
    obtain rfl := h
    exact Iff.rfl
  | destroyed =>
    obtain rfl := h
    exact Iff.rfl

/-- What code that ends on a living thread leaves: a sound context, and a thread that lives. -/
abbrev Living (build : Build) {α : Type} (program : Code α) (cell : Cell) (memory : Memory) :
    Prop :=
  Safely build (fun _ cell' memory' => cell'.Keeps memory' ∧ cell.SameLife cell') program cell
    memory

theorem reset_living {label : String} (hcell : cell.Keeps memory) :
    Living build (reset build label) cell memory := by
  refine (debugInternalEnabled_safe hcell).bind fun enabled cell₁ memory₁ h => ?_
  obtain ⟨rfl, h₁⟩ := h
  refine ((newTask_safe (hcell.later h₁) (by simp)).later (grows build)).bind
    fun c cell₂ memory₂ h => ?_
  obtain ⟨h₂, rfl, hc, -⟩ := h
  refine (setCurrent_safe (hcell.later (h₁.trans h₂)) hc).mono fun _ cell₃ _ h => ?_
  exact ⟨h.1, h.2 ▸ Cell.sameLife_set ..⟩

theorem logSync_living {level : Level} {text : String} (hcell : cell.Keeps memory) :
    Living build (logSync level text) cell memory := by
  refine (logSync_safe hcell).mono fun _ cell₁ memory₁ h => ?_
  obtain ⟨hkeeps, c, hgives⟩ := h
  exact ⟨hkeeps, hgives.sameLife⟩

theorem beginTrace_living (hcell : cell.Keeps memory) :
    Living build (beginTrace build) cell memory := by
  refine (current_safe hcell).bind fun c cell₁ memory₁ h => ?_
  obtain ⟨hgives, hc⟩ := h
  have hcell₁ := hgives.keeps hc
  refine safe_aside rfl hcell₁ fun reply memory₂ h₂ => ?_
  split
  · refine (currentlyTracing_safe (hcell₁.later h₂)).bind fun tracing cell₂ memory₃ h => ?_
    obtain ⟨rfl, h₃⟩ := h
    have hcell₂ := hcell₁.later (h₂.trans h₃)
    cases tracing with
    | true =>
      refine (logSync_living hcell₂).mono fun _ cell₃ memory₄ h => ?_
      exact ⟨h.1, hgives.sameLife.trans h.2⟩
    | false => exact ⟨hcell₂, hgives.sameLife⟩
  · exact ⟨hcell₁.later h₂, hgives.sameLife⟩

/-- **A poll puts back what was current**, whatever the inner poll does with its thread. -/
theorem applyContext_safe {context : Context} {poll : Code Bool} (hcell : cell.Keeps memory)
    (hcontext : context.Sound memory.drawn)
    (hpoll : ∀ cell₁ memory₁, Later memory memory₁ → cell₁.Keeps memory₁ →
      Living build poll cell₁ memory₁) :
    Safely build (fun _ cell' memory' => cell'.Keeps memory' ∧ cell.Restored cell')
      (applyContext context poll) cell memory := by
  refine ((current_safe hcell).later (grows build)).bind fun prior cell₁ memory₁ h => ?_
  obtain ⟨h₁, hgives, hprior⟩ := h
  refine ((setCurrent_safe (hgives.keeps hprior) (hcontext.mono h₁)).later (grows build)).bind
    fun _ cell₂ memory₂ h => ?_
  obtain ⟨h₂, hcell₂, hset⟩ := h
  refine ((hpoll cell₂ memory₂ (h₁.trans h₂) hcell₂).later (grows build)).bind
    fun unwound cell₃ memory₃ h => ?_
  obtain ⟨h₃, hcell₃, hlife⟩ := h
  refine (setCurrent_safe hcell₃ (hprior.mono (h₂.trans h₃))).bind fun _ cell₄ memory₄ h => ?_
  obtain ⟨hcell₄, hback⟩ := h
  refine ⟨hcell₄, ?_⟩
  obtain ⟨rfl, rfl⟩ | ⟨rfl, hcurrent⟩ := hgives
  · -- a thread that is at its end stays so
    obtain rfl : cell₃ = .destroyed := hlife.mpr hset
    exact hback
  · have halive : cell₃ ≠ .destroyed := by
      intro hdead
      have hdead₂ := hlife.mp hdead
      rw [hset] at hdead₂
      cases hdead₂
    rw [Cell.set, if_neg halive] at hback
    obtain rfl | ⟨rfl, hroot⟩ := hcurrent
    · exact hback
    · exact ⟨prior, hroot, hback⟩

theorem Body.code_living (body : Body) {held : List Context} (hholds : body.Holding held)
    (hheld : ∀ c ∈ held, c.Sound memory.drawn) (hcell : cell.Keeps memory) :
    Living build (body.code build) cell memory := by
  have hmono : ∀ {held : List Context} {memory memory' : Memory},
      (∀ c ∈ held, c.Sound memory.drawn) → Later memory memory' →
        ∀ c ∈ held, c.Sound memory'.drawn := fun h hle c hc => (h c hc).mono hle
  induction body generalizing held cell memory with
  | ready => exact ⟨hcell, Iff.rfl⟩
  | panic => exact ⟨hcell, Iff.rfl⟩
  | current rest ih =>
    refine ((current_safe hcell).later (grows build)).bind fun c cell₁ memory₁ h => ?_
    obtain ⟨h₁, hgives, hc⟩ := h
    refine (ih c (hholds c) ?_ (hgives.keeps hc)).mono fun _ _ _ h =>
      ⟨h.1, hgives.sameLife.trans h.2⟩
    exact List.forall_mem_cons.mpr ⟨hc, hmono hheld h₁⟩
  | newTask parent label completionLevel shouldLogCompletion rest ih =>
    obtain ⟨hparent, hrest⟩ := hholds
    refine ((newTask_safe hcell fun p hp => hheld p (hparent p hp)).later (grows build)).bind
      fun c cell₁ memory₁ h => ?_
    obtain ⟨h₁, rfl, hc, -⟩ := h
    exact ih c (hrest c) (List.forall_mem_cons.mpr ⟨hc, hmono hheld h₁⟩) (hcell.later h₁)
  | fromParent context rest ih =>
    obtain ⟨hcontext, hrest⟩ := hholds
    refine ((fromParent_safe hcell (hheld context hcontext)).later (grows build)).bind
      fun c cell₁ memory₁ h => ?_
    obtain ⟨h₁, rfl, hc⟩ := h
    exact ih c (hrest c) (List.forall_mem_cons.mpr ⟨hc, hmono hheld h₁⟩) (hcell.later h₁)
  | setCurrent context rest ih =>
    obtain ⟨hcontext, hrest⟩ := hholds
    refine ((setCurrent_safe hcell (hheld context hcontext)).later (grows build)).bind
      fun _ cell₁ memory₁ h => ?_
    obtain ⟨h₁, hcell₁, rfl⟩ := h
    exact (ih hrest (hmono hheld h₁) hcell₁).mono fun _ _ _ h =>
      ⟨h.1, (Cell.sameLife_set cell context).trans h.2⟩
  | reset label rest ih =>
    refine ((reset_living hcell).later (grows build)).bind fun _ cell₁ memory₁ h => ?_
    obtain ⟨h₁, hcell₁, hlife⟩ := h
    exact (ih hholds (hmono hheld h₁) hcell₁).mono fun _ _ _ h => ⟨h.1, hlife.trans h.2⟩
  | pop id rest ih =>
    refine ((pop_safe hcell).later (grows build)).bind fun _ cell₁ memory₁ h => ?_
    obtain ⟨h₁, hcell₁, hpopped⟩ := h
    exact (ih hholds (hmono hheld h₁) hcell₁).mono fun _ _ _ h =>
      ⟨h.1, hpopped.sameLife.trans h.2⟩
  | beginTrace rest ih =>
    refine ((beginTrace_living hcell).later (grows build)).bind fun _ cell₁ memory₁ h => ?_
    obtain ⟨h₁, hcell₁, hlife⟩ := h
    exact (ih hholds (hmono hheld h₁) hcell₁).mono fun _ _ _ h => ⟨h.1, hlife.trans h.2⟩
  | log level text rest ih =>
    refine ((logSync_living hcell).later (grows build)).bind fun _ cell₁ memory₁ h => ?_
    obtain ⟨h₁, hcell₁, hlife⟩ := h
    exact (ih hholds (hmono hheld h₁) hcell₁).mono fun _ _ _ h => ⟨h.1, hlife.trans h.2⟩
  | poll context inner rest ihinner ihrest =>
    obtain ⟨hcontext, hinner, hrest⟩ := hholds
    have hpoll := applyContext_safe hcell (hheld context hcontext)
      fun cell₁ memory₁ h₁ hcell₁ => ihinner hinner (hmono hheld h₁) hcell₁
    refine (hpoll.later (grows build)).bind fun unwound cell₁ memory₁ h => ?_
    obtain ⟨h₁, hcell₁, hrestored⟩ := h
    cases unwound with
    | true => exact ⟨hcell₁, hrestored.sameLife⟩
    | false =>
      exact (ihrest hrest (hmono hheld h₁) hcell₁).mono fun _ _ _ h =>
        ⟨h.1, hrestored.sameLife.trans h.2⟩
  | catching inner rest ihinner ihrest =>
    obtain ⟨hinner, hrest⟩ := hholds
    refine ((ihinner hinner hheld hcell).later (grows build)).bind fun _ cell₁ memory₁ h => ?_
    obtain ⟨h₁, hcell₁, hlife⟩ := h
    exact (ihrest hrest (hmono hheld h₁) hcell₁).mono fun _ _ _ h => ⟨h.1, hlife.trans h.2⟩

/-! ## Executors -/

/-- The executor has the memory of the threads without futures. -/
theorem executor_safe {α : Type} {post : α → Cell → Memory → Prop} {program : Code α}
    (h : Safely build post program cell memory) :
    Safe (executor build) Good Later Cell.Keeps post program cell memory := by
  refine Shared.Safe.of_serve ?_ h
  rfl

/-- A poll of a future puts back what was current. -/
theorem poll_safe (future : Poll) (hheld : ∀ c ∈ future.held, c.Sound memory.drawn)
    (hcell : cell.Keeps memory) :
    Safely build (fun _ cell' memory' => cell'.Keeps memory' ∧ cell.Restored cell')
      (Operation.code build (.poll future)) cell memory := by
  have hpoll : Safely build (fun _ cell' memory' => cell'.Keeps memory' ∧ cell.Restored cell')
      (applyContext future.context (future.body.code build)) cell memory :=
    applyContext_safe hcell (hheld _ future.context_mem) fun cell₁ memory₁ h₁ hcell₁ =>
      future.body.code_living future.holding (fun c hc => (hheld c hc).mono h₁) hcell₁
  exact hpoll.bind fun _ cell' memory' h => h

theorem executor_rely (build : Build) :
    Shared.Rely (executor build) Good Later Cell.Keeps where
  refl := (grows build).refl
  trans := (grows build).trans
  serve := (grows build).serve
  later _ _ _ hle h := h.later hle
  start _ _ c hc := by cases hc
  code memory operation cell hgood hadmits hcell := by
    cases operation with
    | call own => exact executor_safe ((rely build).code memory own cell hgood hadmits hcell)
    | poll future =>
      have hheld : ∀ c ∈ future.held, c.Sound memory.drawn := fun c hc =>
        hgood.returned c (of_decide_eq_true (List.all_eq_true.mp hadmits c hc))
      exact executor_safe ((poll_safe future hheld hcell).mono fun _ _ _ h => h.1)

abbrev executorStep (build : Build) : World → Shared.Action Operation → Option World :=
  (executor build).step

theorem executor_sound {w : World}
    (h : Transition.Reaches (executorStep build) Transition.always initial w) :
    Shared.Sound (executor build) Good Later Cell.Keeps w := by
  refine h.invariant (fun w a w' hw _ hs => Shared.sound_step (executor_rely build) hw hs) ?_
  exact ⟨good_new, fun thread hm => by cases hm⟩

/-- **Each poll puts back what was current**: whatever the future does, polls of other futures,
changes of the current context and unwinding among it, and whatever the other threads do meanwhile,
the thread's context after the poll is the one before it. -/
theorem poll_restores {w : World}
    (h : Transition.Reaches (executorStep build) Transition.always initial w) {i : ℕ}
    {status : Shared.Status Cell Request.Answer} (hi : w.threads[i]? = some ⟨cell, status⟩)
    (future : Poll) {actions : List (Shared.Action Operation)} {w' : World}
    (hquiet : ∀ operation, .call i operation ∉ actions)
    (hrun : Transition.run (executorStep build) w (.call i (.poll future) :: actions) = some w') :
    ∃ cell' status', w'.threads[i]? = some ⟨cell', status'⟩ ∧ status' ≠ .panicked ∧
      (status' = .idle → cell.Restored cell') := by
  have hsound := executor_sound h
  have hcell : cell.Keeps w.memory := (hsound.threads _ (List.mem_of_getElem? hi)).locals
  obtain ⟨w₁, hstep, -⟩ := Option.bind_eq_some_iff.mp hrun
  have hadmits : (executor build).admits w.memory (.poll future) = true := by
    obtain ⟨hcall, -⟩ | ⟨k, operation, s, hcall, -, hadmits, -⟩ |
      ⟨k, s, request, next, reply, memory, hcall, -⟩ := Shared.step_cases hstep
    · cases hcall
    · cases hcall
      exact hadmits
    · cases hcall
  have hheld : ∀ c ∈ future.held, c.Sound w.memory.drawn := fun c hc =>
    hsound.memory.returned c (of_decide_eq_true (List.all_eq_true.mp hadmits c hc))
  have hpoll : Safely build (fun _ cell' _ => cell.Restored cell')
      (Operation.code build (.poll future)) cell w.memory :=
    (poll_safe future hheld hcell).mono fun _ _ _ h => h.2
  have hsafe : Safe (executor build) Good Later Cell.Keeps (fun _ cell' _ => cell.Restored cell')
      ((executor build).code (.poll future)) cell w.memory := executor_safe hpoll
  obtain ⟨⟨cell', status'⟩, hi', hfine⟩ := Shared.fine_of_call (executor_rely build) hsound
    (fun _ _ _ _ h => h) hi hsafe hquiet hrun
  refine ⟨cell', status', hi', ?_, ?_⟩
  · rintro rfl
    exact hfine
  · rintro rfl
    exact hfine

/-- A poll that makes another context current and unwinds. -/
def unwinding : Poll :=
  { context := firstRoot, body := .reset "other" .panic, held := [firstRoot]
    context_mem := List.mem_singleton_self firstRoot, holding := trivial }

/-- A thread makes a root current, and gets it. -/
def rooted : List (Shared.Action Operation) :=
  [.spawn, .call 0 (.call (.reset "root")), .move 0, .move 0, .move 0, .move 0, .move 0, .move 0,
    .call 0 (.call .current), .move 0]

theorem poll_restores_unwound : ∃ (w : World) (cell : Cell),
    Transition.run (executorStep release) initial
        (rooted ++ [.call 0 (.poll unwinding), .move 0, .move 0, .move 0]) = some w ∧
      w.threads[0]? = some ⟨cell, .idle⟩ ∧ cell = .current firstRoot := by
  have hreaches : Transition.Reaches (executorStep release) Transition.always initial _ :=
    Transition.reaches_of_run_always rooted rfl
  obtain ⟨cell, status, hi, -, hrestored⟩ := poll_restores hreaches (i := 0) rfl unwinding
    (by simp) (rfl : Transition.run (executorStep release) _
      [.call 0 (.poll unwinding), .move 0, .move 0, .move 0] = some _)
  obtain rfl : status = .idle := by
    have hdone := congrArg (Option.map Shared.Thread.status) hi
    exact Option.some_inj.mp hdone.symm
  exact ⟨_, cell, rfl, hi, hrestored rfl⟩

/-! ## Whose records a future writes -/

namespace Body

/-- The poll leaves the current context alone, but for what it does to other futures. -/
def Steady : Body → Prop
  | .ready | .panic => True
  | .current rest | .newTask _ _ _ _ rest | .fromParent _ rest => ∀ c, (rest c).Steady
  | .setCurrent _ _ | .reset _ _ | .pop _ _ => False
  | .beginTrace rest | .log _ _ rest => rest.Steady
  | .poll _ inner rest | .catching inner rest => inner.Steady ∧ rest.Steady

/-- Some way through a steady poll, started in context `here`, logs the text where `c` is the context
of the innermost `ApplyContext`. -/
def Says (here : Context) : Body → Context → Level → String → Prop
  | .ready, _, _, _ | .panic, _, _, _ => False
  | .current rest, c, level, text => (rest here).Says here c level text
  | .newTask _ _ _ _ rest, c, level, text => ∃ d, (rest d).Says here c level text
  | .fromParent _ rest, c, level, text => ∃ d, (rest d).Says here c level text
  -- none of these in a steady poll
  | .setCurrent _ _, _, _, _ | .reset _ _, _, _, _ | .pop _ _, _, _, _ => False
  | .beginTrace rest, c, level, text =>
    (c = here ∧ level = .trace ∧ text = "Begin trace") ∨ rest.Says here c level text
  | .log own said rest, c, level, text =>
    (c = here ∧ level = own ∧ text = said) ∨ rest.Says here c level text
  | .poll context inner rest, c, level, text =>
    inner.Says context c level text ∨ rest.Says here c level text
  | .catching inner rest, c, level, text =>
    inner.Says here c level text ∨ rest.Says here c level text

end Body

/-- The record opens with the nesting and the task of the context. -/
def Message.Bears (m : Message) (c : Context) : Prop :=
  ∃ mark task, c.findTask = some task ∧ m.prelude =
    mark :: (List.replicate c.nestingLevel " " ++ [toString task.taskId.toNat ++ " "])

/-- A record of `Task::drop`: it opens with the task's number alone. -/
def Message.FromDrop (m : Message) : Prop :=
  ∃ (task : Task) (statistics : Option String), m ∈ task.messages statistics

/-- The records a program may write. -/
def Records (voiced : Context → Level → String → Prop) : Request → Prop
  | .finishLogRecord m => m.FromDrop ∨ ∃ c, voiced c m.level m.text ∧ m.Bears c
  | _ => True

variable {voiced : Context → Level → String → Prop} {here : Context}

theorem newTaskInternal_asking {parent : Option Context} {label : String} {completionLevel : Level}
    {shouldLogCompletion : Bool} {contextId : UInt64} :
    Asking (Records voiced) (fun _ cell' => cell' = cell)
      (newTaskInternal parent label completionLevel shouldLogCompletion contextId) cell := by
  refine Shared.asking_request_bind.mpr ⟨trivial, fun taskId => ?_⟩
  exact Shared.asking_request_bind.mpr ⟨trivial, fun address => rfl⟩

theorem newTask_asking {parent : Option Context} {label : String} {completionLevel : Level}
    {shouldLogCompletion : Bool} :
    Asking (Records voiced) (fun _ cell' => cell' = cell)
      (newTask parent label completionLevel shouldLogCompletion) cell :=
  Shared.asking_request_bind.mpr ⟨trivial, fun _ => newTaskInternal_asking⟩

theorem fromParent_asking {context : Context} :
    Asking (Records voiced) (fun _ cell' => cell' = cell) (fromParent context) cell := by
  refine Shared.asking_request_bind.mpr ⟨trivial, fun isTracing => ?_⟩
  refine Shared.asking_request_bind.mpr ⟨trivial, fun contextId => ?_⟩
  exact Shared.asking_request_bind.mpr ⟨trivial, fun address => rfl⟩

/-- Getting at the current context of a thread that is alive leaves it current. -/
theorem getOrInitContext_asking (halive : cell ≠ .destroyed) :
    Asking (Records voiced) (fun c cell' => cell' = .current c ∧ ∀ d, cell = .current d → c = d)
      getOrInitContext cell := by
  cases cell with
  | current c =>
    refine ⟨rfl, fun d hd => ?_⟩
    cases hd
    rfl
  | destroyed => exact absurd rfl halive
  | uninit =>
    refine Shared.asking_request_bind.mpr ⟨trivial, fun contextId => ?_⟩
    exact newTaskInternal_asking.bind fun context cell₁ _ => ⟨rfl, fun d hd => by cases hd⟩

theorem current_asking (halive : cell ≠ .destroyed) :
    Asking (Records voiced) (fun c cell' => cell' = .current c ∧ ∀ d, cell = .current d → c = d)
      current cell := by
  cases cell with
  | current c => exact getOrInitContext_asking Cell.noConfusion
  | uninit => exact getOrInitContext_asking Cell.noConfusion
  | destroyed => exact absurd rfl halive

theorem setCurrent_asking {context : Context} (halive : cell ≠ .destroyed) :
    Asking (Records voiced) (fun _ cell' => cell' = .current context) (setCurrent context) cell := by
  have hset : Asking (Records voiced) (fun _ cell' => cell' = .current context)
      (getOrInitContext >>= fun _ => write (.current context)) cell :=
    (getOrInitContext_asking halive).bind fun _ _ _ => rfl
  cases cell with
  | destroyed => exact absurd rfl halive
  | uninit => exact hset
  | current c => exact hset

/-- A record of a thread bears the thread's context. -/
theorem logSync_asking {level : Level} {text : String} (hsaid : voiced here level text) :
    Asking (Records voiced) (fun _ cell' => cell' = .current here) (logSync level text)
      (.current here) := by
  refine (current_asking Cell.noConfusion).bind fun c cell₁ h => ?_
  obtain ⟨rfl, hc⟩ := h
  obtain rfl := hc here rfl
  have hprelude : Asking (Records voiced) (fun parts cell' => cell' = .current c ∧
      ∃ mark task, c.findTask = some task ∧ parts =
        mark :: (List.replicate c.nestingLevel " " ++ [toString task.taskId.toNat ++ " "]))
      (logPrelude c) (.current c) := by
    refine Shared.asking_request_bind.mpr ⟨trivial, fun isTracing => ?_⟩
    rw [task]
    cases htask : c.findTask with
    | none => trivial
    | some own => exact ⟨rfl, _, own, rfl, rfl⟩
  refine hprelude.bind fun parts cell₂ h => ?_
  obtain ⟨rfl, mark, own, htask, rfl⟩ := h
  exact ⟨Or.inr ⟨c, hsaid, mark, own, htask, rfl⟩, fun _ => rfl⟩

theorem beginTrace_asking (hsaid : voiced here .trace "Begin trace") :
    Asking (Records voiced) (fun _ cell' => cell' = .current here) (beginTrace build)
      (.current here) := by
  refine (current_asking Cell.noConfusion).bind fun c cell₁ h => ?_
  obtain ⟨rfl, hc⟩ := h
  obtain rfl := hc here rfl
  refine Shared.asking_request_bind.mpr ⟨trivial, fun _ => ?_⟩
  split
  · refine Shared.asking_request_bind.mpr ⟨trivial, fun tracing => ?_⟩
    cases tracing with
    | true => exact logSync_asking hsaid
    | false => rfl
  · rfl

/-- A poll runs the inner one in its own context and comes back to the one before. -/
theorem applyContext_asking {context : Context} {poll : Code Bool} (halive : cell ≠ .destroyed)
    (hpoll : Asking (Records voiced) (fun _ cell' => cell' = .current context) poll
      (.current context)) :
    Asking (Records voiced)
      (fun _ cell' => ∃ prior, cell' = .current prior ∧ ∀ d, cell = .current d → prior = d)
      (applyContext context poll) cell := by
  refine (current_asking halive).bind fun prior cell₁ h => ?_
  obtain ⟨rfl, hprior⟩ := h
  refine (setCurrent_asking Cell.noConfusion).bind fun _ cell₂ h => ?_
  obtain rfl := h
  refine hpoll.bind fun unwound cell₃ h => ?_
  obtain rfl := h
  refine (setCurrent_asking Cell.noConfusion).bind fun _ cell₄ h => ?_
  exact ⟨prior, h, hprior⟩

theorem Body.code_asking (body : Body) (hsteady : body.Steady)
    (hsaid : ∀ c level text, body.Says here c level text → voiced c level text) :
    Asking (Records voiced) (fun _ cell' => cell' = .current here) (body.code build)
      (.current here) := by
  induction body generalizing here with
  | ready => rfl
  | panic => rfl
  | current rest ih =>
    refine (current_asking Cell.noConfusion).bind fun c cell₁ h => ?_
    obtain ⟨rfl, hc⟩ := h
    obtain rfl := hc here rfl
    exact ih c (hsteady c) hsaid
  | newTask parent label completionLevel shouldLogCompletion rest ih =>
    refine newTask_asking.bind fun c cell₁ h => ?_
    obtain rfl := h
    exact ih c (hsteady c) fun d level text hd => hsaid d level text ⟨c, hd⟩
  | fromParent context rest ih =>
    refine fromParent_asking.bind fun c cell₁ h => ?_
    obtain rfl := h
    exact ih c (hsteady c) fun d level text hd => hsaid d level text ⟨c, hd⟩
  | setCurrent context rest ih => exact hsteady.elim
  | reset label rest ih => exact hsteady.elim
  | pop id rest ih => exact hsteady.elim
  | beginTrace rest ih =>
    refine (beginTrace_asking (hsaid _ _ _ (Or.inl ⟨rfl, rfl, rfl⟩))).bind fun _ cell₁ h => ?_
    obtain rfl := h
    exact ih hsteady fun d level text hd => hsaid d level text (Or.inr hd)
  | log level text rest ih =>
    refine (logSync_asking (hsaid _ _ _ (Or.inl ⟨rfl, rfl, rfl⟩))).bind fun _ cell₁ h => ?_
    obtain rfl := h
    exact ih hsteady fun d level text hd => hsaid d level text (Or.inr hd)
  | poll context inner rest ihinner ihrest =>
    have hinner : Asking (Records voiced) (fun _ cell' => cell' = .current context)
        (inner.code build) (.current context) :=
      ihinner hsteady.1 fun d level text hd => hsaid d level text (Or.inl hd)
    have halive : Cell.current here ≠ .destroyed := Cell.noConfusion
    refine (applyContext_asking halive hinner).bind fun unwound cell₁ h => ?_
    obtain ⟨prior, rfl, hprior⟩ := h
    obtain rfl := hprior here rfl
    cases unwound with
    | true => rfl
    | false => exact ihrest hsteady.2 fun d level text hd => hsaid d level text (Or.inr hd)
  | catching inner rest ihinner ihrest =>
    have hinner : Asking (Records voiced) (fun _ cell' => cell' = .current here)
        (inner.code build) (.current here) :=
      ihinner hsteady.1 fun d level text hd => hsaid d level text (Or.inl hd)
    refine hinner.bind fun _ cell₁ h => ?_
    obtain rfl := h
    exact ihrest hsteady.2 fun d level text hd => hsaid d level text (Or.inr hd)

/-- Every record bears a context it was said in, or is a destructor's. -/
def Attributed (voiced : Context → Level → String → Prop) (memory : Memory) : Prop :=
  ∀ m ∈ memory.records, m.FromDrop ∨ ∃ c, voiced c m.level m.text ∧ m.Bears c

def Cell.Alive (cell : Cell) : Prop := cell ≠ .destroyed

/-- What a request that is served adds to the records. -/
theorem attributed_of_serve (r : Request) (memory : Memory) (reply : r.Answer) (memory' : Memory)
    (hr : Records voiced r) (hm : Attributed voiced memory)
    (hs : serve r memory = some (reply, memory')) : Attributed voiced memory' := by
  cases r with
  | finishLogRecord message =>
    cases hs
    exact Slots.forall_mem_concat hm hr
  | enterDetached =>
    simp only [serve] at hs
    split at hs <;> cases hs <;> exact hm
  | _ =>
    cases hs
    exact hm

/-- Some spawned future says it in a context of its own. -/
def Spoken (spawned : Poll → Prop) (c : Context) (level : Level) (text : String) : Prop :=
  ∃ future, spawned future ∧ future.body.Says future.context c level text

/-- The calls in which no macro logs, on a thread that lives. -/
def Call.macroFree : Call → Bool
  | .newTask .. | .fromParent _ | .reset _ | .current | .setCurrent _ | .dropTask .. => true
  | .pop _ | .beginTrace | .exitThread => false

theorem finishAll_asking {messages : List Message} (h : ∀ m ∈ messages, m.FromDrop) :
    Asking (Records voiced) (fun _ cell' => cell' = cell) (finishAll messages) cell := by
  induction messages with
  | nil => rfl
  | cons message messages ih =>
    have hrest := ih fun m hm => h m (List.mem_cons_of_mem _ hm)
    exact Shared.asking_request_bind.mpr
      ⟨Or.inl (h message (List.mem_cons_self ..)), fun _ => hrest⟩

theorem reset_asking {label : String} (halive : cell ≠ .destroyed) :
    Asking (Records voiced) (fun _ cell' => cell'.Alive) (reset build label) cell := by
  have hrest : ∀ enabled : Bool, Asking (Records voiced) (fun _ cell' => cell'.Alive)
      (newTask none label .debugInternal enabled >>= setCurrent) cell := by
    intro enabled
    refine newTask_asking.bind fun context cell₁ h => ?_
    obtain rfl := h
    refine (setCurrent_asking halive).mono fun _ cell₂ h => ?_
    rw [h]
    exact Cell.noConfusion
  have henabled : Asking (Records voiced) (fun _ cell' => cell' = cell)
      (debugInternalEnabled build) cell := by
    rw [debugInternalEnabled]
    split
    · split
      · rfl
      · cases cell with
        | current c => exact Shared.asking_request_bind.mpr ⟨trivial, fun _ => rfl⟩
        | uninit | destroyed => rfl
    · rfl
  refine henabled.bind fun enabled cell₁ h => ?_
  obtain rfl := h
  exact hrest enabled

theorem macroFree_asking {own : Call} (hfree : own.macroFree = true) (halive : cell ≠ .destroyed) :
    Asking (Records voiced) (fun _ cell' => cell'.Alive) (own.code build) cell := by
  have hgiven : ∀ {program : Code Context},
      Asking (Records voiced) (fun _ cell' => cell'.Alive) program cell →
        Asking (Records voiced) (fun _ cell' => cell'.Alive)
          (program >>= fun context => ask (.returns context)) cell :=
    fun h => h.bind fun _ cell₁ h => ⟨trivial, fun _ => h⟩
  cases own with
  | newTask parent label completionLevel shouldLogCompletion =>
    exact hgiven (newTask_asking.mono fun _ _ h => h ▸ halive)
  | fromParent context => exact hgiven (fromParent_asking.mono fun _ _ h => h ▸ halive)
  | current =>
    refine hgiven ((current_asking halive).mono fun c cell₁ h => ?_)
    rw [h.1]
    exact Cell.noConfusion
  | reset label => exact reset_asking halive
  | setCurrent context =>
    refine (setCurrent_asking halive).mono fun _ cell₁ h => ?_
    rw [h]
    exact Cell.noConfusion
  | dropTask task statistics =>
    exact (finishAll_asking fun m hm => ⟨task, statistics, hm⟩).mono fun _ _ h => h ▸ halive
  | pop | beginTrace | exitThread => cases hfree

/-- The threads poll the futures that are `spawned`; in their own calls no macro logs. -/
def Polls (spawned : Poll → Prop) : World → Shared.Action Operation → Prop
  | _, .call _ (.poll future) => spawned future
  | _, .call _ (.call own) => own.macroFree = true
  | _, _ => True

/-- **Every record is its own future's**: threads that poll futures, which leave the current context
alone, in any order and each on any thread, and that log nothing themselves, write no record but
those of the destructors of tasks and what some future says, and this bears the context of the
innermost `ApplyContext` around the place that says it. -/
theorem records_attributed (build : Build) (spawned : Poll → Prop)
    (hsteady : ∀ future, spawned future → future.body.Steady) {w : World}
    (h : Transition.Reaches (executorStep build) (Polls spawned) initial w) :
    ∀ m ∈ w.memory.records, m.FromDrop ∨ ∃ future, spawned future ∧
      ∃ c, future.body.Says future.context c m.level m.text ∧ m.Bears c := by
  have hcode : ∀ (w : World) (i : ℕ) (operation : Operation) (cell : Cell),
      Polls spawned w (.call i operation) → cell.Alive →
        Asking (Records (Spoken spawned)) (fun _ => Cell.Alive)
          ((executor build).code operation) cell := by
    intro w i operation cell hpolls halive
    cases operation with
    | call own => exact macroFree_asking hpolls halive
    | poll future =>
      have hspawned : spawned future := hpolls
      have hbody : Asking (Records (Spoken spawned)) (fun _ cell' => cell' = .current future.context)
          (future.body.code build) (.current future.context) :=
        future.body.code_asking (hsteady future hspawned)
          fun c level text hsaid => ⟨future, hspawned, hsaid⟩
      refine (applyContext_asking halive hbody).bind fun _ cell₁ h => ?_
      obtain ⟨prior, rfl, -⟩ := h
      exact Cell.noConfusion
  have hrun : Attributed (Spoken spawned) w.memory ∧
      ∀ thread ∈ w.threads, thread.Asks (Records (Spoken spawned)) Cell.Alive :=
    Shared.memory_of_reaches Cell.noConfusion hcode attributed_of_serve h
      (fun m hm => by cases hm) (fun thread hm => by cases hm)
  intro m hm
  obtain hdrop | ⟨c, ⟨future, hspawned, hsaid⟩, hbears⟩ := hrun.1 m hm
  · exact Or.inl hdrop
  · exact Or.inr ⟨future, hspawned, c, hsaid, hbears⟩

def innerTask : Context :=
  .child firstRoot 2 2 (some { taskId := 2, label := "inner", completionLevel := .info
                               shouldLogCompletion := true })

/-- A future of the root task that polls one of an inner task. -/
def nested : Poll :=
  { context := firstRoot, body := .poll innerTask (.log .info "inner" .panic) .ready
    held := [firstRoot, innerTask], context_mem := List.mem_cons_self ..
    holding := ⟨List.mem_cons_of_mem _ (List.mem_singleton_self _), trivial, trivial⟩ }

/-- The inner task is made, another thread polls, and a task of a third one has gone. -/
def polling : List (Shared.Action Operation) :=
  [.call 0 (.call (.newTask (some firstRoot) "inner" .info true)), .move 0, .move 0, .move 0, .move 0,
    .spawn, .call 1 (.poll nested), .move 1, .move 1, .move 1, .move 1, .move 1,
    .call 0 (.call (.dropTask { taskId := 1, label := "old", completionLevel := .info
                                shouldLogCompletion := true } none)), .move 0]

theorem records_attributed_nested : ∃ w : World,
    Transition.run (executorStep release) initial (rooted ++ polling) = some w ∧
      w.memory.records.map Message.text = ["inner", "Finished task \x60old\x60"] ∧
        ∀ m ∈ w.memory.records, m.FromDrop ∨
          ∃ c, nested.body.Says firstRoot c m.level m.text ∧ m.Bears c := by
  have hreaches : Transition.Reaches (executorStep release) (Polls fun future => future = nested)
      initial _ :=
    Transition.reaches_of_forall (rooted ++ polling)
      (by simp [rooted, polling, Polls, Call.macroFree]) rfl
  refine ⟨_, rfl, rfl, fun m hm => ?_⟩
  obtain hdrop | ⟨future, rfl, hsaid⟩ := records_attributed release _
    (by rintro future rfl; exact ⟨trivial, trivial⟩) hreaches m hm
  · exact Or.inl hdrop
  · exact Or.inr hsaid

end Logwise.Legacy.ContextImpl
