import Logwise.Legacy.ContextImpl
import Mathlib.Order.Basic

/-!
# What `pop` leaves current

Ids are drawn from one counter, so they decrease from a context to its root as long as the counter
has not come round, and every root defines a task. Each call keeps that of all contexts in reach of
any thread; `pop` then removes the frame with the id that it is given, and those above it.
-/

namespace Logwise.Legacy.ContextImpl

open Shared (Safe Ends)

namespace Context

/-- Root or task, all the way up; `n` ids have been drawn, each context's before those below it. -/
def Sound (n : ℕ) : Context → Prop
  | .root _ contextId defineTask => (∃ k < n, contextId = UInt64.ofNat k) ∧ defineTask.isSome = true
  | .child parent _ contextId _ => ∃ k < n, contextId = UInt64.ofNat k ∧ parent.Sound k

variable {c : Context} {n : ℕ}

theorem Sound.mono {m : ℕ} (h : c.Sound n) (hle : n ≤ m) : c.Sound m := by
  cases c with
  | root address contextId defineTask =>
    obtain ⟨⟨k, hk, hid⟩, htask⟩ := h
    exact ⟨⟨k, hk.trans_le hle, hid⟩, htask⟩
  | child parent address contextId defineTask =>
    obtain ⟨k, hk, hid, hparent⟩ := h
    exact ⟨k, hk.trans_le hle, hid, hparent⟩

theorem Sound.exists_id (h : c.Sound n) : ∃ k < n, c.contextId = UInt64.ofNat k := by
  cases c with
  | root address contextId defineTask => exact h.1
  | child parent address contextId defineTask =>
    obtain ⟨k, hk, hid, -⟩ := h
    exact ⟨k, hk, hid⟩

theorem sound_new {parent : Option Context} {address k : ℕ} {defineTask : Option Task}
    (hk : k < n) (hparent : ∀ p ∈ parent, p.Sound k)
    (htask : parent = none → defineTask.isSome = true) :
    (Context.new address parent (UInt64.ofNat k) defineTask).Sound n := by
  cases parent with
  | none => exact ⟨⟨k, hk, rfl⟩, htask rfl⟩
  | some p => exact ⟨k, hk, rfl, hparent p rfl⟩

@[simp] theorem parent_new (address : ℕ) (parent : Option Context) (contextId : UInt64)
    (defineTask : Option Task) :
    (Context.new address parent contextId defineTask).parent = parent := by
  cases parent <;> rfl

theorem Sound.of_mem_chain (h : c.Sound n) {d : Context} (hd : d ∈ c.chain) : d.Sound n := by
  induction c generalizing n with
  | root address contextId defineTask =>
    obtain rfl := List.mem_singleton.mp hd
    exact h
  | child parent address contextId defineTask ih =>
    obtain rfl | hd := List.mem_cons.mp hd
    · exact h
    · obtain ⟨k, hk, -, hparent⟩ := h
      exact (ih hparent hd).mono hk.le

/-- The context as a record shows it, with the tracing flags read. -/
def view (tracing : List Bool) : Context → Option Legacy.Context
  | .root address contextId defineTask => defineTask.map fun task =>
    .root contextId.toNat (tracing.getD address false) task.taskId.toNat
  | .child parent address contextId defineTask => (parent.view tracing).map fun parent =>
    .child parent contextId.toNat (tracing.getD address false)
      (defineTask.map fun task => task.taskId.toNat)

theorem Sound.exists_view (h : c.Sound n) (tracing : List Bool) : ∃ v, c.view tracing = some v ∧
    v.isTracing = tracing.getD c.address false ∧ v.nestingLevel = c.nestingLevel ∧
      ∃ task, c.findTask = some task ∧ v.taskId = task.taskId.toNat := by
  induction c generalizing n with
  | root address contextId defineTask =>
    obtain ⟨task, rfl⟩ := Option.isSome_iff_exists.mp h.2
    exact ⟨_, rfl, rfl, rfl, task, rfl, rfl⟩
  | child parent address contextId defineTask ih =>
    obtain ⟨k, -, -, hparent⟩ := h
    obtain ⟨v, hv, -, hlevel, task, htask, hid⟩ := ih hparent
    refine ⟨_, congrArg (Option.map _) hv, rfl, congrArg (· + 1) hlevel, ?_⟩
    cases defineTask with
    | none => exact ⟨task, htask, hid⟩
    | some own => exact ⟨own, rfl, rfl⟩

/-- **A task for everyone**: the search of `task` ends at a task. -/
theorem Sound.findTask_isSome (h : c.Sound n) : c.findTask.isSome = true := by
  obtain ⟨-, -, -, -, task, htask, -⟩ := h.exists_view []
  exact Option.isSome_of_eq_some htask

/-- **One context to an id**: while the counter has not come round, ids on a chain differ. -/
theorem Sound.pairwise_chain (h : c.Sound n) (hn : n ≤ 2 ^ 64) :
    c.chain.Pairwise fun a b => a.contextId ≠ b.contextId := by
  induction c generalizing n with
  | root address contextId defineTask => exact List.pairwise_singleton _ _
  | child parent address contextId defineTask ih =>
    obtain ⟨k, hk, hid, hparent⟩ := h
    refine List.Pairwise.cons ?_ (ih hparent (by omega))
    intro d hd he
    obtain ⟨j, hj, hjd⟩ := (hparent.of_mem_chain hd).exists_id
    have hsame : UInt64.ofNat k = UInt64.ofNat j := hid.symm.trans (he.trans hjd)
    have hnat := congrArg UInt64.toNat hsame
    rw [UInt64.toNat_ofNat', UInt64.toNat_ofNat', Nat.mod_eq_of_lt (by omega),
      Nat.mod_eq_of_lt (by omega)] at hnat
    omega

/-- What the walk of `pop` makes current, if anything. -/
def popped (id : UInt64) : Context → Option Context
  | .root _ _ _ => none
  | .child parent _ contextId _ => if contextId = id then some parent else parent.popped id

theorem popped_eq_none {id : UInt64} (h : ∀ d ∈ c.chain, d.contextId = id → d.parent = none) :
    c.popped id = none := by
  induction c with
  | root address contextId defineTask => rfl
  | child parent address contextId defineTask ih =>
    have hne : contextId ≠ id := fun he => by cases h _ (List.mem_cons_self ..) he
    rw [popped, if_neg hne]
    exact ih fun d hd => h d (List.mem_cons_of_mem _ hd)

theorem popped_eq_some (hids : c.chain.Pairwise fun a b => a.contextId ≠ b.contextId)
    {d p : Context} (hd : d ∈ c.chain) (hp : d.parent = some p) : c.popped d.contextId = some p := by
  induction c with
  | root address contextId defineTask =>
    obtain rfl := List.mem_singleton.mp hd
    cases hp
  | child parent address contextId defineTask ih =>
    obtain ⟨hhead, htail⟩ := List.pairwise_cons.mp hids
    obtain rfl | hd := List.mem_cons.mp hd
    · cases hp
      exact if_pos rfl
    · have hne : contextId ≠ d.contextId := hhead d hd
      rw [popped, if_neg hne]
      exact ih htail hd

end Context

/-! ## The memory -/

structure Good (memory : Memory) : Prop where
  contextId : memory.contextId = UInt64.ofNat memory.drawn
  returned : ∀ c ∈ memory.returned, c.Sound memory.drawn
  detached : ∀ c ∈ memory.detached.context, c.Sound memory.drawn

def Later (memory memory' : Memory) : Prop := memory.drawn ≤ memory'.drawn

/-- The cell holds no context but one of the forest. -/
def Cell.Keeps (cell : Cell) (memory : Memory) : Prop := ∀ c ∈ cell.context, c.Sound memory.drawn

variable {build : Build} {memory memory' : Memory} {cell : Cell} {α : Type}

theorem Cell.Keeps.later (h : cell.Keeps memory) (hle : Later memory memory') :
    cell.Keeps memory' := fun c hc => (h c hc).mono hle

theorem good_new : Good .new where
  contextId := rfl
  returned _ h := by cases h
  detached _ h := by cases h

/-- The requests that leave the forest and its counter alone. -/
def Request.aside : Request → Bool
  | .fetchAddTaskId | .arcNew _ | .loadTracing _ | .storeTracing _ | .finishLogRecord _ => true
  | _ => false

theorem serve_aside {r : Request} {reply : r.Answer} (hr : r.aside = true)
    (hs : serve r memory = some (reply, memory')) :
    memory'.contextId = memory.contextId ∧ memory'.returned = memory.returned ∧
      memory'.detached = memory.detached ∧ memory'.drawn = memory.drawn := by
  cases r <;> cases hr <;> cases hs <;> exact ⟨rfl, rfl, rfl, rfl⟩

theorem serve_later (r : Request) (reply : r.Answer) (hs : serve r memory = some (reply, memory')) :
    Later memory memory' := by
  cases hr : r.aside with
  | true => exact (serve_aside hr hs).2.2.2.ge
  | false =>
    cases r with
    | fetchAddContextId =>
      cases hs
      exact Nat.le_succ _
    | enterDetached =>
      simp only [serve] at hs
      split at hs <;> cases hs <;> exact le_rfl
    | leaveDetached context =>
      cases hs
      exact le_rfl
    | returns context =>
      cases hs
      exact le_rfl
    | _ => cases hr

/-- `Safe`, with what this memory keeps. -/
abbrev Safely (build : Build) (post : α → Cell → Memory → Prop) (program : Code α) (cell : Cell)
    (memory : Memory) : Prop :=
  Safe (machine build) Good Later Cell.Keeps post program cell memory

theorem grows (build : Build) : Shared.Grows (machine build) Later where
  refl _ := le_rfl
  trans _ _ _ := le_trans
  serve r _ reply _ := serve_later r reply

/-! ## Requests -/

section Requests

variable {post : α → Cell → Memory → Prop}

theorem safe_aside {r : Request} {f : r.Answer → Code α} (hr : r.aside = true)
    (hcell : cell.Keeps memory)
    (h : ∀ reply memory', Later memory memory' → Safely build post (f reply) cell memory') :
    Safely build post (ask r >>= f) cell memory := by
  apply Shared.safe_request_bind.mpr
  refine ⟨hcell, fun memory₁ hle hgood reply memory₂ hs => ?_⟩
  obtain ⟨hid, hreturned, hdetached, hdrawn⟩ := serve_aside hr hs
  refine ⟨⟨?_, ?_, ?_⟩, h reply memory₂ (hle.trans hdrawn.ge)⟩
  · rw [hid, hdrawn]
    exact hgood.contextId
  · rw [hreturned, hdrawn]
    exact hgood.returned
  · rw [hdetached, hdrawn]
    exact hgood.detached

/-- Whoever draws an id has it alone. -/
theorem safe_draw {f : UInt64 → Code α} (hcell : cell.Keeps memory)
    (h : ∀ k memory', memory.drawn ≤ k → k < memory'.drawn →
      Safely build post (f (UInt64.ofNat k)) cell memory') :
    Safely build post (ask .fetchAddContextId >>= f) cell memory := by
  apply Shared.safe_request_bind.mpr
  refine ⟨hcell, fun memory₁ hle hgood reply memory₂ hs => ?_⟩
  obtain ⟨rfl, rfl⟩ := Prod.mk.inj (Option.some.inj hs)
  have hlater : Later memory₁ { memory₁ with
      contextId := memory₁.contextId + 1, drawn := memory₁.drawn + 1 } := Nat.le_succ _
  refine ⟨⟨?_, fun c hc => (hgood.returned c hc).mono hlater,
    fun c hc => (hgood.detached c hc).mono hlater⟩, ?_⟩
  · rw [hgood.contextId]
    exact (UInt64.ofNat_add _ 1).symm
  · rw [hgood.contextId]
    exact h _ _ hle (Nat.lt_succ_self _)

theorem safe_enterDetached {f : Option Context → Code α} (hcell : cell.Keeps memory)
    (h : ∀ reply memory', Later memory memory' → (∀ c ∈ reply, c.Sound memory'.drawn) →
      Safely build post (f reply) cell memory') :
    Safely build post (ask .enterDetached >>= f) cell memory := by
  apply Shared.safe_request_bind.mpr
  refine ⟨hcell, fun memory₁ hle hgood reply memory₂ hs => ?_⟩
  change serve .enterDetached memory₁ = _ at hs
  simp only [serve] at hs
  split at hs
  next context hdetached =>
    cases hs
    refine ⟨hgood, h _ _ hle fun c hc => ?_⟩
    cases hc
    exact hgood.detached context (by rw [hdetached]; rfl)
  next =>
    cases hs
    exact ⟨⟨hgood.contextId, hgood.returned, fun c hc => by cases hc⟩,
      h _ _ hle fun c hc => by cases hc⟩
  next => cases hs

theorem safe_leaveDetached {context : Context} {f : Unit → Code α} (hcell : cell.Keeps memory)
    (hcontext : context.Sound memory.drawn)
    (h : ∀ memory', Later memory memory' → Safely build post (f ()) cell memory') :
    Safely build post (ask (.leaveDetached context) >>= f) cell memory := by
  apply Shared.safe_request_bind.mpr
  refine ⟨hcell, fun memory₁ hle hgood reply memory₂ hs => ?_⟩
  cases hs
  refine ⟨⟨hgood.contextId, hgood.returned, fun c hc => ?_⟩, h _ hle⟩
  cases hc
  exact hcontext.mono hle

theorem safe_returns {context : Context} {post : Unit → Cell → Memory → Prop}
    (hcell : cell.Keeps memory) (hcontext : context.Sound memory.drawn)
    (h : ∀ memory', Later memory memory' → post () cell memory') :
    Safely build post (ask (.returns context)) cell memory := by
  apply Shared.safe_request.mpr
  refine ⟨hcell, fun memory₁ hle hgood reply memory₂ hs => ?_⟩
  cases hs
  refine ⟨⟨hgood.contextId, ?_, hgood.detached⟩, h _ hle⟩
  exact Slots.forall_mem_concat hgood.returned (hcontext.mono hle)

end Requests

/-! ## Calls -/

/-- What getting at the current context does to the cell. -/
def Cell.Gives (cell cell' : Cell) (c : Context) : Prop :=
  cell = .destroyed ∧ cell' = .destroyed ∨
    cell' = .current c ∧ (cell = .current c ∨ cell = .uninit ∧ c.parent = none)

theorem Cell.Gives.keeps {cell' : Cell} {c : Context} (h : cell.Gives cell' c)
    (hc : c.Sound memory.drawn) : cell'.Keeps memory := by
  obtain ⟨-, rfl⟩ | ⟨rfl, -⟩ := h
  · intro d hd
    cases hd
  · rintro d ⟨⟩
    exact hc

theorem newTaskInternal_safe {parent : Option Context} {label : String} {completionLevel : Level}
    {shouldLogCompletion : Bool} {k : ℕ} (hcell : cell.Keeps memory) (hk : k < memory.drawn)
    (hparent : ∀ p ∈ parent, p.Sound k) :
    Safely build (fun c cell' memory' => cell' = cell ∧ c.Sound memory'.drawn ∧ c.parent = parent)
      (newTaskInternal parent label completionLevel shouldLogCompletion (UInt64.ofNat k)) cell
      memory := by
  refine safe_aside rfl hcell fun taskId memory₁ h₁ => ?_
  refine safe_aside rfl (hcell.later h₁) fun address memory₂ h₂ => ?_
  have hlt : k < memory₂.drawn := hk.trans_le (h₁.trans h₂)
  exact ⟨rfl, Context.sound_new hlt hparent fun _ => rfl, Context.parent_new ..⟩

theorem newTask_safe {parent : Option Context} {label : String} {completionLevel : Level}
    {shouldLogCompletion : Bool} (hcell : cell.Keeps memory)
    (hparent : ∀ p ∈ parent, p.Sound memory.drawn) :
    Safely build (fun c cell' memory' => cell' = cell ∧ c.Sound memory'.drawn ∧ c.parent = parent)
      (newTask parent label completionLevel shouldLogCompletion) cell memory := by
  refine safe_draw hcell fun k memory₁ hle hk => ?_
  exact newTaskInternal_safe (hcell.later (hle.trans hk.le)) hk fun p hp => (hparent p hp).mono hle

theorem fromParent_safe {context : Context} (hcell : cell.Keeps memory)
    (hcontext : context.Sound memory.drawn) :
    Safely build (fun c cell' memory' => cell' = cell ∧ c.Sound memory'.drawn)
      (fromParent context) cell memory := by
  refine safe_aside rfl hcell fun isTracing memory₁ h₁ => ?_
  refine safe_draw (hcell.later h₁) fun k memory₂ hle hk => ?_
  have h₂ : Later memory memory₂ := h₁.trans (hle.trans hk.le)
  refine safe_aside rfl (hcell.later h₂) fun address memory₃ h₃ => ?_
  refine ⟨rfl, Context.sound_new (hk.trans_le h₃) ?_ fun h => by cases h⟩
  rintro p ⟨⟩
  exact hcontext.mono (h₁.trans hle)

theorem detachedContext_safe (hcell : cell.Keeps memory) :
    Safely build (fun c cell' memory' => cell' = cell ∧ c.Sound memory'.drawn)
      detachedContext cell memory := by
  refine safe_enterDetached hcell fun reply memory₁ h₁ hreply => ?_
  cases reply with
  | some c => exact ⟨rfl, hreply c rfl⟩
  | none =>
    refine safe_draw (hcell.later h₁) fun k memory₂ hle hk => ?_
    have h₂ : Later memory memory₂ := h₁.trans (hle.trans hk.le)
    refine ((newTaskInternal_safe (hcell.later h₂) hk (by simp)).later (grows build)).bind
      fun c cell' memory₃ h => ?_
    obtain ⟨h₃, rfl, hc, -⟩ := h
    exact safe_leaveDetached (hcell.later (h₂.trans h₃)) hc fun memory₄ h₄ => ⟨rfl, hc.mono h₄⟩

theorem getOrInitContext_safe (hcell : cell.Keeps memory) (halive : cell ≠ .destroyed) :
    Safely build (fun c cell' memory' => cell.Gives cell' c ∧ c.Sound memory'.drawn)
      getOrInitContext cell memory := by
  cases cell with
  | current c => exact ⟨Or.inr ⟨rfl, Or.inl rfl⟩, hcell c rfl⟩
  | destroyed => exact absurd rfl halive
  | uninit =>
    refine safe_draw hcell fun k memory₁ hle hk => ?_
    refine (newTaskInternal_safe (hcell.later (hle.trans hk.le)) hk (by simp)).bind
      fun c cell' memory₂ h => ?_
    obtain ⟨rfl, hc, hroot⟩ := h
    exact ⟨Or.inr ⟨rfl, Or.inr ⟨rfl, hroot⟩⟩, hc⟩

theorem current_safe (hcell : cell.Keeps memory) :
    Safely build (fun c cell' memory' => cell.Gives cell' c ∧ c.Sound memory'.drawn)
      current cell memory := by
  cases cell with
  | current c => exact getOrInitContext_safe hcell Cell.noConfusion
  | uninit => exact getOrInitContext_safe hcell Cell.noConfusion
  | destroyed =>
    refine (detachedContext_safe hcell).mono fun c cell' memory' h => ?_
    exact ⟨Or.inl ⟨rfl, h.1⟩, h.2⟩

/-- What setting a context current does to the cell. -/
def Cell.set (cell : Cell) (context : Context) : Cell :=
  if cell = .destroyed then .destroyed else .current context

theorem setCurrent_safe {context : Context} (hcell : cell.Keeps memory)
    (hcontext : context.Sound memory.drawn) :
    Safely build (fun _ cell' memory' => cell'.Keeps memory' ∧ cell' = cell.set context)
      (setCurrent context) cell memory := by
  have hlive : cell ≠ .destroyed → Safely build (fun _ cell' memory' => cell'.Keeps memory' ∧
      cell' = .current context) (getOrInitContext >>= fun _ => write (.current context)) cell
        memory := by
    intro halive
    refine ((getOrInitContext_safe hcell halive).later (grows build)).bind
      fun c cell' memory' h => ⟨?_, rfl⟩
    rintro d ⟨⟩
    exact hcontext.mono h.1
  cases cell with
  | destroyed => exact ⟨hcell, rfl⟩
  | uninit => exact hlive Cell.noConfusion
  | current c => exact hlive Cell.noConfusion

theorem currentlyTracing_safe (hcell : cell.Keeps memory) :
    Safely build (fun _ cell' memory' => cell' = cell ∧ Later memory memory') currentlyTracing cell
      memory := by
  cases cell with
  | current c => exact safe_aside rfl hcell fun reply memory₁ h₁ => ⟨rfl, h₁⟩
  | uninit => exact ⟨rfl, le_rfl⟩
  | destroyed => exact ⟨rfl, le_rfl⟩

/-- A record opens with the prelude of the context as it shows it. -/
theorem logPrelude_safe {c : Context} (hcell : cell.Keeps memory) (hc : c.Sound memory.drawn) :
    Safely build (fun parts cell' memory' => cell' = cell ∧ Later memory memory' ∧
      ∃ v, c.view memory'.tracing = some v ∧ parts = v.prelude) (logPrelude c) cell memory := by
  apply Shared.safe_request_bind.mpr
  refine ⟨hcell, fun memory₁ hle hgood reply memory₂ hs => ?_⟩
  cases hs
  obtain ⟨v, hv, htracing, hlevel, t, htask, hid⟩ := hc.exists_view memory₁.tracing
  refine ⟨hgood, ?_⟩
  -- every context has a task, and so the prelude does not panic
  rw [task, htask]
  refine ⟨rfl, hle, v, hv, ?_⟩
  rw [Legacy.Context.prelude, htracing, hlevel, hid]

theorem logSync_safe {level : Level} {text : String} (hcell : cell.Keeps memory) :
    Safely build (fun _ cell' memory' => cell'.Keeps memory' ∧ ∃ c, cell.Gives cell' c)
      (logSync level text) cell memory := by
  refine (current_safe hcell).bind fun c cell' memory₁ h => ?_
  obtain ⟨hgives, hc⟩ := h
  refine (logPrelude_safe (hgives.keeps hc) hc).bind fun parts cell'' memory₂ h => ?_
  obtain ⟨rfl, h₂, -⟩ := h
  refine safe_aside rfl (hgives.keeps (hc.mono h₂)) fun reply memory₃ h₃ => ?_
  exact ⟨hgives.keeps (hc.mono (h₂.trans h₃)), c, hgives⟩

theorem debugInternalEnabled_safe (hcell : cell.Keeps memory) :
    Safely build (fun _ cell' memory' => cell' = cell ∧ Later memory memory')
      (debugInternalEnabled build) cell memory := by
  rw [debugInternalEnabled]
  split
  · split
    · exact ⟨rfl, le_rfl⟩
    · exact currentlyTracing_safe hcell
  · exact ⟨rfl, le_rfl⟩

theorem reset_safe {label : String} (hcell : cell.Keeps memory) :
    Safely build (fun _ cell' memory' => cell'.Keeps memory') (reset build label) cell memory := by
  refine (debugInternalEnabled_safe hcell).bind fun enabled cell' memory₁ h => ?_
  obtain ⟨rfl, h₁⟩ := h
  refine ((newTask_safe (hcell.later h₁) (by simp)).later (grows build)).bind
    fun c cell' memory₂ h => ?_
  obtain ⟨h₂, rfl, hc, -⟩ := h
  exact (setCurrent_safe (hcell.later (h₁.trans h₂)) hc).mono fun _ _ _ h => h.1

theorem beginTrace_safe (hcell : cell.Keeps memory) :
    Safely build (fun _ cell' memory' => cell'.Keeps memory') (beginTrace build) cell memory := by
  refine (current_safe hcell).bind fun c cell' memory₁ h => ?_
  obtain ⟨hgives, hc⟩ := h
  have hcell' := hgives.keeps hc
  refine safe_aside rfl hcell' fun reply memory₂ h₂ => ?_
  split
  · refine (currentlyTracing_safe (hcell'.later h₂)).bind fun tracing cell'' memory₃ h => ?_
    obtain ⟨rfl, h₃⟩ := h
    have hcell'' := hcell'.later (h₂.trans h₃)
    cases tracing with
    | true => exact (logSync_safe hcell'').mono fun _ _ _ h => h.1
    | false => exact hcell''
  · exact hcell'.later h₂

/-- Destructors leave the current context alone. -/
theorem finishAll_safe {messages : List Message} (hcell : cell.Keeps memory) :
    Safely build (fun _ cell' memory' => cell'.Keeps memory' ∧ cell' = cell) (finishAll messages)
      cell memory := by
  induction messages generalizing memory with
  | nil => exact ⟨hcell, rfl⟩
  | cons message messages ih => exact safe_aside rfl hcell fun reply memory₁ h₁ => ih (hcell.later h₁)

/-! ## `pop` -/

/-- The cell after a walk that has found `target` to make current, or has logged a warning. -/
def Cell.Walked (cell cell' : Cell) : Option Context → Prop
  | some target => cell' = cell.set target
  | none => ∃ c, cell.Gives cell' c

/-- What `pop` makes of the cell. -/
def Popped (id : UInt64) : Cell → Cell → Prop
  | .current c, cell => cell = .current ((c.popped id).getD c)
  | .uninit, cell => ∃ root, root.parent = none ∧ cell = .current root
  | .destroyed, cell => cell = .destroyed

theorem popFrom_safe {id : UInt64} {c : Context} (hcell : cell.Keeps memory)
    (hc : c.Sound memory.drawn) :
    Safely build (fun _ cell' memory' => cell'.Keeps memory' ∧ cell.Walked cell' (c.popped id))
      (popFrom id c) cell memory := by
  induction c with
  | root address contextId defineTask =>
    rw [popFrom]
    split <;> exact logSync_safe hcell
  | child parent address contextId defineTask ih =>
    obtain ⟨k, hk, -, hparent⟩ := hc
    rw [popFrom, Context.popped]
    by_cases he : contextId = id
    · rw [if_pos he, if_pos he]
      exact setCurrent_safe hcell (hparent.mono hk.le)
    · rw [if_neg he, if_neg he]
      exact ih (hparent.mono hk.le)

theorem Context.popped_of_root {c : Context} (h : c.parent = none) (id : UInt64) :
    c.popped id = none := by
  cases c with
  | root address contextId defineTask => rfl
  | child parent address contextId defineTask => cases h

/-- A cell that holds a context gives that one. -/
theorem Cell.Gives.eq {c d : Context} {cell' : Cell} (h : (Cell.current c).Gives cell' d) :
    cell' = .current c ∧ d = c := by
  obtain ⟨hcell, -⟩ | ⟨rfl, hcell | ⟨hcell, -⟩⟩ := h
  · cases hcell
  · cases hcell
    exact ⟨rfl, rfl⟩
  · cases hcell

/-- The walk starts with the current context, so it can be told from the cell before. -/
theorem popped_of_walked {id : UInt64} {cell' cell'' : Cell} {c : Context}
    (hgives : cell.Gives cell' c) (hwalked : cell'.Walked cell'' (c.popped id)) :
    Popped id cell cell'' := by
  cases cell with
  | current d =>
    obtain ⟨rfl, rfl⟩ := hgives.eq
    rw [Popped]
    cases hp : c.popped id with
    | none =>
      rw [hp] at hwalked
      obtain ⟨d, hd⟩ := hwalked
      exact hd.eq.1
    | some p =>
      rw [hp] at hwalked
      exact hwalked
  | uninit =>
    obtain ⟨hcell, -⟩ | ⟨rfl, hcell | ⟨-, hroot⟩⟩ := hgives
    · cases hcell
    · cases hcell
    · rw [Context.popped_of_root hroot] at hwalked
      obtain ⟨d, hd⟩ := hwalked
      exact ⟨c, hroot, hd.eq.1⟩
  | destroyed =>
    obtain ⟨-, rfl⟩ | ⟨rfl, hcell | ⟨hcell, -⟩⟩ := hgives
    · cases hp : c.popped id with
      | none =>
        rw [hp] at hwalked
        obtain ⟨d, ⟨-, rfl⟩ | ⟨-, hcell | ⟨hcell, -⟩⟩⟩ := hwalked
        · rfl
        · cases hcell
        · cases hcell
      | some p =>
        rw [hp] at hwalked
        exact hwalked
    · cases hcell
    · cases hcell

theorem pop_safe {id : UInt64} (hcell : cell.Keeps memory) :
    Safely build (fun _ cell' memory' => cell'.Keeps memory' ∧ Popped id cell cell')
      (pop id) cell memory := by
  refine (current_safe hcell).bind fun c cell' memory₁ h => ?_
  obtain ⟨hgives, hc⟩ := h
  exact (popFrom_safe (hgives.keeps hc) hc).mono fun _ cell'' memory₂ h =>
    ⟨h.1, popped_of_walked hgives h.2⟩

/-! ## Runs -/

theorem rely (build : Build) : Shared.Rely (machine build) Good Later Cell.Keeps where
  toGrows := grows build
  later _ _ _ hle h := h.later hle
  start _ _ c hc := by cases hc
  code memory call cell hgood hadmits hcell := by
    have hgiven : ∀ c ∈ call.given, c.Sound memory.drawn := fun c hc =>
      hgood.returned c (of_decide_eq_true (List.all_eq_true.mp hadmits c hc))
    cases call with
    | newTask parent label completionLevel shouldLogCompletion =>
      have hparent : ∀ p ∈ parent, p.Sound memory.drawn := by
        rintro p ⟨⟩
        exact hgiven p (List.mem_singleton_self p)
      refine ((newTask_safe hcell hparent).later (grows build)).bind fun c cell' memory₁ h => ?_
      obtain ⟨h₁, rfl, hc, -⟩ := h
      exact safe_returns (hcell.later h₁) hc fun memory₂ h₂ => hcell.later (h₁.trans h₂)
    | fromParent context =>
      have hcontext := hgiven context (List.mem_singleton_self context)
      refine ((fromParent_safe hcell hcontext).later (grows build)).bind
        fun c cell' memory₁ h => ?_
      obtain ⟨h₁, rfl, hc⟩ := h
      exact safe_returns (hcell.later h₁) hc fun memory₂ h₂ => hcell.later (h₁.trans h₂)
    | reset label => exact reset_safe hcell
    | current =>
      refine (current_safe hcell).bind fun c cell' memory₁ h => ?_
      obtain ⟨hgives, hc⟩ := h
      exact safe_returns (hgives.keeps hc) hc fun memory₂ h₂ => hgives.keeps (hc.mono h₂)
    | setCurrent context =>
      have hcontext := hgiven context (List.mem_singleton_self context)
      exact (setCurrent_safe hcell hcontext).mono fun _ _ _ h => h.1
    | pop id => exact (pop_safe hcell).mono fun _ _ _ h => h.1
    | beginTrace => exact beginTrace_safe hcell
    | dropTask task statistics => exact (finishAll_safe hcell).mono fun _ _ _ h => h.1
    | exitThread => exact fun c hc => by cases hc

abbrev Sound (build : Build) (w : World) : Prop :=
  Shared.Sound (machine build) Good Later Cell.Keeps w

theorem sound_of_reaches {w : World}
    (h : Transition.Reaches (step build) Transition.always initial w) : Sound build w := by
  refine h.invariant (fun w a w' hw _ hs => Shared.sound_step (rely build) hw hs) ?_
  exact ⟨good_new, fun thread hm => by cases hm⟩

theorem Sound.forest {w : World} (h : Sound build w) {c : Context} (hc : c ∈ forest w) :
    c.Sound w.memory.drawn := by
  simp only [ContextImpl.forest, List.mem_append, List.mem_filterMap, Option.mem_toList] at hc
  obtain (hc | ⟨thread, hm, hc⟩) | hc := hc
  · exact h.memory.returned c hc
  · exact (h.threads thread hm).locals c hc
  · exact h.memory.detached c hc

/-! ## How long a call takes -/

theorem ends_ask (r : Request) (cell : Cell) : Ends 1 (ask r) cell := Shared.ends_request r cell

theorem ends_newTaskInternal (parent : Option Context) (label : String) (completionLevel : Level)
    (shouldLogCompletion : Bool) (contextId : UInt64) (cell : Cell) : Ends 2
      (newTaskInternal parent label completionLevel shouldLogCompletion contextId) cell := by
  refine (ends_ask _ _).bind (m := 1) fun taskId cell => ?_
  exact (ends_ask _ _).bind (m := 0) fun address cell => Shared.ends_pure ..

theorem ends_getOrInitContext (cell : Cell) : Ends 3 getOrInitContext cell := by
  have hinit : Ends 3 (ask .fetchAddContextId >>= fun contextId =>
      newTaskInternal none "" .debugInternal false contextId >>= fun context =>
        write (.current context) >>= fun _ => pure context) cell := by
    refine (ends_ask _ _).bind (m := 2) fun contextId cell => ?_
    exact (ends_newTaskInternal ..).bind (m := 0) fun context cell => trivial
  cases cell with
  | current c => trivial
  | uninit => exact hinit
  | destroyed => exact hinit

theorem ends_detachedContext (cell : Cell) : Ends 5 detachedContext cell := by
  refine (ends_ask _ _).bind (m := 4) fun reply cell => ?_
  cases reply with
  | some c => trivial
  | none =>
    refine (ends_ask _ _).bind (m := 3) fun contextId cell => ?_
    refine (ends_newTaskInternal ..).bind (m := 1) fun c cell => ?_
    exact (ends_ask _ _).bind (m := 0) fun _ cell => Shared.ends_pure ..

theorem ends_current (cell : Cell) : Ends 5 current cell := by
  cases cell with
  | current c => trivial
  | uninit => exact (ends_getOrInitContext .uninit).mono (by omega)
  | destroyed => exact ends_detachedContext .destroyed

theorem ends_setCurrent (context : Context) (cell : Cell) : Ends 3 (setCurrent context) cell := by
  have hset : Ends 3 (getOrInitContext >>= fun _ => write (.current context)) cell :=
    (ends_getOrInitContext cell).bind (m := 0) fun _ cell => trivial
  cases cell with
  | current c => trivial
  | uninit => exact hset
  | destroyed => trivial

theorem ends_logSync (level : Level) (text : String) (cell : Cell) :
    Ends 7 (logSync level text) cell := by
  refine (ends_current cell).bind (m := 2) fun c cell => ?_
  refine Shared.Ends.bind (n := 1) (m := 1) ?_ fun _ cell => ends_ask _ cell
  refine (ends_ask _ _).bind (m := 0) fun isTracing cell => ?_
  rw [task]
  split <;> trivial

theorem ends_popFrom (id : UInt64) (c : Context) (cell : Cell) : Ends 7 (popFrom id c) cell := by
  induction c with
  | root address contextId defineTask =>
    rw [popFrom]
    split <;> exact ends_logSync ..
  | child parent address contextId defineTask ih =>
    rw [popFrom]
    split
    · exact (ends_setCurrent parent cell).mono (by omega)
    · exact ih

theorem ends_pop (id : UInt64) (cell : Cell) : Ends 12 (pop id) cell :=
  (ends_current cell).bind (m := 7) fun c cell => ends_popFrom id c cell

/-! ## The result -/

/-- What `pop` is to make of the cell: the parent of the context with the id, if there is one. -/
def Pops (id : UInt64) : Cell → Cell → Prop
  | .current c, cell =>
    (∀ d ∈ c.chain, d.contextId = id → ∀ parent, d.parent = some parent → cell = .current parent) ∧
      ((∀ d ∈ c.chain, d.contextId = id → d.parent = none) → cell = .current c)
  | .uninit, cell => ∃ root, root.parent = none ∧ cell = .current root
  | .destroyed, cell => cell = .destroyed

/-- Where ids differ along the chain, the walk finds the context with the id. -/
theorem pops_of_popped {id : UInt64} {cell' : Cell}
    (hids : ∀ c ∈ cell.context, c.chain.Pairwise fun a b => a.contextId ≠ b.contextId)
    (h : Popped id cell cell') : Pops id cell cell' := by
  cases cell with
  | current c =>
    rw [Popped] at h
    constructor
    · rintro d hd rfl parent hparent
      rw [h, Context.popped_eq_some (hids c rfl) hd hparent]
      rfl
    · intro hnone
      rw [h, Context.popped_eq_none hnone]
      rfl
  | uninit => exact h
  | destroyed => exact h

/-- **`pop` removes exactly the named frame**: while no more than `2 ^ 64` ids have been drawn, at
most one context on a chain has an id and every one of them has a task; and whatever the other
threads do meanwhile, `pop` ends and leaves the parent of the context with the id current, or the
cell as it is where there is none. -/
theorem pop_exact {w : World} (h : Transition.Reaches (step build) Transition.always initial w)
    (hdrawn : w.memory.drawn ≤ 2 ^ 64) :
    (∀ c ∈ forest w, c.chain.Pairwise (fun a b => a.contextId ≠ b.contextId) ∧
      ∀ d ∈ c.chain, d.findTask.isSome = true) ∧
    ∀ (i : ℕ) (cell : Cell) (status : Shared.Status Cell Request.Answer) (id : UInt64)
      (actions : List (Shared.Action Call)) (w' : World), w.threads[i]? = some ⟨cell, status⟩ →
      (∀ call, .call i call ∉ actions) →
        Transition.run (step build) w (.call i (.pop id) :: actions) = some w' →
          actions.countP (Shared.Action.moves i) ≤ 12 ∧
            ∃ cell' status', w'.threads[i]? = some ⟨cell', status'⟩ ∧ status' ≠ .panicked ∧
              (status' = .idle → Pops id cell cell') := by
  have hsound := sound_of_reaches h
  constructor
  · intro c hc
    have hc' := hsound.forest hc
    exact ⟨hc'.pairwise_chain hdrawn, fun d hd => (hc'.of_mem_chain hd).findTask_isSome⟩
  · intro i cell status id actions w' hi hquiet hrun
    refine ⟨Shared.moves_le_of_call hi (ends_pop id cell) hquiet hrun, ?_⟩
    have hcell : cell.Keeps w.memory := (hsound.threads _ (List.mem_of_getElem? hi)).locals
    have hids : ∀ c ∈ cell.context, c.chain.Pairwise fun a b => a.contextId ≠ b.contextId :=
      fun c hc => (hcell c hc).pairwise_chain hdrawn
    have hsafe : Safely build (fun _ cell' _ => Pops id cell cell') (pop id) cell w.memory :=
      (pop_safe hcell).mono fun _ _ _ h => pops_of_popped hids h.2
    obtain ⟨⟨cell', status'⟩, hi', hfine⟩ := Shared.fine_of_call (rely build) hsound
      (fun _ _ _ _ h => h) hi hsafe hquiet hrun
    refine ⟨cell', status', hi', ?_, ?_⟩
    · rintro rfl
      exact hfine
    · rintro rfl
      exact hfine

/-- A build without debug assertions. -/
def release : Build := { debugAssertions := false, internal := false }

def firstRoot : Context :=
  .root 0 0 (some { taskId := 0, label := "root", completionLevel := .debugInternal
                    shouldLogCompletion := false })

/-- A thread makes a root current, and gets it. -/
def rooting : List (Shared.Action Call) :=
  [.spawn, .call 0 (.reset "root"), .move 0, .move 0, .move 0, .move 0, .move 0, .move 0,
    .call 0 .current, .move 0]

/-- The thread makes a child of the root current. -/
def nesting (child : Context) : List (Shared.Action Call) :=
  [.call 0 (.fromParent firstRoot), .move 0, .move 0, .move 0, .move 0, .call 0 (.setCurrent child)]

theorem pop_exact_once : ∃ w w' : World,
    Transition.run (step release) initial
        (rooting ++ nesting (.child firstRoot 2 2 none)) = some w ∧
      step release w (.call 0 (.pop 2)) = some w' ∧
        (∀ c ∈ forest w, c.chain.Pairwise fun a b => a.contextId ≠ b.contextId) ∧
          ∃ cell status, w'.threads[0]? = some ⟨cell, status⟩ ∧ status ≠ .panicked ∧
            (status = .idle → Pops 2 (.current (.child firstRoot 2 2 none)) cell) := by
  refine ⟨_, _, rfl, rfl, ?_⟩
  have hreaches : Transition.Reaches (step release) Transition.always initial _ :=
    Transition.reaches_of_run_always (rooting ++ nesting (.child firstRoot 2 2 none)) rfl
  have hexact := pop_exact hreaches (by decide)
  exact ⟨fun c hc => (hexact.1 c hc).1, (hexact.2 0 _ _ 2 [] _ rfl (by simp) rfl).2⟩

/-! ## When the counter comes round -/

theorem draw_once (c : Context) (memory : Memory) : ∃ memory' : Memory,
    memory'.contextId = memory.contextId + 1 ∧ memory.returned <+: memory'.returned ∧
      Transition.Reaches (step release) Transition.always ⟨memory, [⟨.current c, .idle⟩]⟩
        ⟨memory', [⟨.current c, .idle⟩]⟩ := by
  refine ⟨_, ?_, ?_, Transition.reaches_of_run_always
    [.call 0 (.newTask none "" .debugInternal false), .move 0, .move 0, .move 0, .move 0] rfl⟩
  · rfl
  · exact List.prefix_append ..

theorem draw (c : Context) (memory : Memory) (n : ℕ) : ∃ memory' : Memory,
    memory'.contextId = memory.contextId + UInt64.ofNat n ∧ memory.returned <+: memory'.returned ∧
      Transition.Reaches (step release) Transition.always ⟨memory, [⟨.current c, .idle⟩]⟩
        ⟨memory', [⟨.current c, .idle⟩]⟩ := by
  induction n with
  | zero => exact ⟨memory, by simp, List.prefix_rfl, .refl⟩
  | succ n ih =>
    obtain ⟨memory₁, hid₁, hreturned₁, hreaches₁⟩ := ih
    obtain ⟨memory₂, hid₂, hreturned₂, hreaches₂⟩ := draw_once c memory₁
    refine ⟨memory₂, ?_, hreturned₁.trans hreturned₂, hreaches₁.trans hreaches₂⟩
    rw [hid₂, hid₁, UInt64.ofNat_add, UInt64.add_assoc]
    simp

/-- Any id is drawn again, in time. -/
theorem draw_until (c : Context) (memory : Memory) (id : UInt64) :
    ∃ memory' : Memory, memory'.contextId = id ∧ memory.returned <+: memory'.returned ∧
      Transition.Reaches (step release) Transition.always ⟨memory, [⟨.current c, .idle⟩]⟩
        ⟨memory', [⟨.current c, .idle⟩]⟩ := by
  obtain ⟨memory', hid, hrest⟩ := draw c memory (id - memory.contextId).toNat
  refine ⟨memory', ?_, hrest⟩
  rw [hid, UInt64.ofNat_toNat, UInt64.add_comm, UInt64.sub_add_cancel]

theorem step_call_of_given (memory : Memory) (cell : Cell) (call : Call) {c : Context}
    (hgiven : call.given = [c]) (h : c ∈ memory.returned) :
    step release ⟨memory, [⟨cell, .idle⟩]⟩ (.call 0 call) =
      some ⟨memory, [Shared.settle (call.code release) cell]⟩ := by
  refine if_pos (List.all_eq_true.mpr fun d hd => decide_eq_true ?_)
  rw [hgiven] at hd
  obtain rfl := List.mem_singleton.mp hd
  exact h

theorem child_once {c : Context} {memory : Memory} (h : c ∈ memory.returned) :
    ∃ memory' : Memory,
      .child c memory.tracing.length memory.contextId none ∈ memory'.returned ∧
        Transition.Reaches (step release) Transition.always ⟨memory, [⟨.current c, .idle⟩]⟩
          ⟨memory', [⟨.current c, .idle⟩]⟩ := by
  have hcall := step_call_of_given memory (.current c) (.fromParent c) rfl h
  refine ⟨_, ?_, .head trivial hcall
    (Transition.reaches_of_run_always [.move 0, .move 0, .move 0, .move 0] rfl)⟩
  exact List.mem_append_right _ (List.mem_singleton_self _)

theorem exists_rooted : ∃ memory : Memory, firstRoot ∈ memory.returned ∧
    Transition.Reaches (step release) Transition.always initial
      ⟨memory, [⟨.current firstRoot, .idle⟩]⟩ :=
  ⟨_, List.mem_singleton_self firstRoot, Transition.reaches_of_run_always rooting rfl⟩

/-- Once the counter has come round, a child can have its root's id, and `pop` with that id does not
leave the current context as it is, although it names the root. -/
theorem pop_namesake : ∃ (w w' : World) (address : ℕ) (child : Context),
    Transition.Reaches (step release) Transition.always initial w ∧
      child = .child firstRoot address firstRoot.contextId none ∧
        w.threads[0]? = some ⟨.current child, .idle⟩ ∧
          step release w (.call 0 (.pop firstRoot.contextId)) = some w' ∧
            w'.threads[0]? = some ⟨.current firstRoot, .idle⟩ := by
  obtain ⟨memory₀, hgiven₀, h₀⟩ := exists_rooted
  obtain ⟨memory₁, hid₁, hreturned₁, h₁⟩ :=
    draw_until firstRoot memory₀ firstRoot.contextId
  obtain ⟨memory₂, hchild, h₂⟩ := child_once (hreturned₁.mem hgiven₀)
  rw [hid₁] at hchild
  have hw : Transition.Reaches (step release) Transition.always initial
      ⟨memory₂, [⟨.current firstRoot, .idle⟩]⟩ := h₀.trans (h₁.trans h₂)
  have hset := step_call_of_given memory₂ (.current firstRoot) (.setCurrent _) rfl hchild
  exact ⟨_, _, _, _, hw.tail trivial hset, rfl, rfl, rfl, rfl⟩

end Logwise.Legacy.ContextImpl
