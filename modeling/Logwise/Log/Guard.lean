import Logwise.Log.Bridge

/-!
# The log bridge stops its loops

The bridge and the dispatcher behind it may call each other in any order on one thread. A record
that is logged while another one is imported is turned away by `enabled`, before the guard is
reached, so that the guard is never dropped by a call that did not get it.
-/

namespace Logwise.Log

open Reentrant

namespace Record

/-- The event a record becomes where its import is wanted. -/
def imported (record : Record) (context : ContextToken) : EventRef :=
  EventRef.structured (selected record.level) context
    (List.zipWith (fun field value => some ⟨field, value⟩) FIELDS record.values)

/-- Everything imported is ad-hoc text with local fields. -/
theorem imported_localOnly (record : Record) (context : ContextToken) :
    (record.imported context).metadata.kind = .adHocText ∧
      ∀ field ∈ (record.imported context).materialized, field.metadata.privacy = .localOnly := by
  refine ⟨?_, fun field hfield => ?_⟩
  · cases hlevel : record.level <;> simp [imported, EventRef.structured, hlevel, selected, callsite]
  · simp only [imported, EventRef.structured, EventRef.materialized, FIELDS, values, List.map_cons,
      List.map_nil, List.zipWith_cons_cons, List.zipWith_nil_left, List.filterMap_cons, id,
      List.filterMap_nil, List.mem_cons, List.not_mem_nil, or_false] at hfield
    obtain rfl | rfl | rfl | rfl | rfl | rfl | rfl := hfield <;> rfl

end Record

/-- Where a call may wait that began with the flag at `found`. -/
structure Waits (callback : Callback) (found : Bool) (request : Request) (inBridge : Bool) :
    Prop where
  found : found = false
  outside : inBridge = false → ∃ metadata, request = .interest metadata
  holder : inBridge = true → ∃ record, callback = .log record
  imports : ∀ event, request = .emit event → inBridge = true ∧
    ∃ record context, callback = .log record ∧ event = record.imported context

/-! ## The calls give back the flag -/

section Undisturbed

variable {α β : Type} {waits : Request → Bool → Prop} {inBridge : Bool}

/-- A call that unwinds skips what follows. -/
theorem run_bind {code : Code α} {f : α → Code β} : (code >>= f).run =
    code.run >>= fun value => value.elim (pure none) fun value => (f value).run := by
  show OptionT.run (OptionT.bind code f) = _
  rw [OptionT.bind]
  show (code.run >>= _) = _
  congr 1
  funext value
  cases value <;> rfl

@[simp] theorem undisturbed_run_bind {code : Code α} {f : α → Code β}
    {post : Option β → Bool → Prop} : (code >>= f).run.Undisturbed waits post inBridge ↔
      code.run.Undisturbed waits (fun value t => value.elim (post none t)
        fun value => (f value).run.Undisturbed waits post t) inBridge := by
  rw [run_bind, Program.undisturbed_bind]
  constructor
  all_goals
    intro h
    refine h.mono fun value t hvalue => ?_
    cases value <;> exact hvalue

@[simp] theorem undisturbed_run_ask {request : Request} {post : Answer request → Bool → Prop} :
    (ask request).run.Undisturbed waits post inBridge ↔
      waits request inBridge ∧ ∀ reply, post reply inBridge :=
  Program.undisturbed_request

@[simp] theorem undisturbed_run_active {post : Option Bool → Bool → Prop} :
    BridgeGuard.active.run.Undisturbed waits post inBridge ↔ post (some inBridge) inBridge :=
  Iff.rfl

/-- Inside the bridge nothing is asked; outside, the question is the only request. -/
theorem undisturbed_enabled {level : Level} {post : Option Bool → Bool → Prop}
    (hset : inBridge = true → post (some false) true)
    (hask : inBridge = false → waits (.interest (selected level)) false)
    (hclear : inBridge = false → ∀ answer, post answer false) :
    (enabled level).run.Undisturbed waits post inBridge := by
  rw [enabled, undisturbed_run_bind, undisturbed_run_active]
  cases inBridge with
  | true => exact hset rfl
  | false =>
    show (ask _ >>= fun _ => _).run.Undisturbed waits post false
    rw [undisturbed_run_bind, undisturbed_run_ask]
    refine ⟨hask rfl, fun answer => ?_⟩
    cases answer with
    | none => exact hclear rfl none
    | some interest => exact hclear rfl (some interest.any)

/-- Outside the bridge the guard is taken, and dropped however the body ends. -/
theorem undisturbed_bridged {body : Code Unit} {post : Option Unit → Bool → Prop}
    (h : body.run.Undisturbed waits (fun returned _ => post returned false) true) :
    (bridged body).run.Undisturbed waits post false := by
  show Program.Undisturbed waits post (BridgeGuard.enter >>= _) false
  simp only [BridgeGuard.enter, BridgeGuard.drop, Program.undisturbed_bind,
    Program.undisturbed_read, Program.undisturbed_modify, Bool.not_false, if_true,
    Program.undisturbed_pure]
  exact h

end Undisturbed

section Import

variable {record : Record}

/-- With the guard held, any request but the emission of something else is allowed. -/
theorem waits_inside {request : Request} (himports : ∀ event, request = .emit event →
    ∃ context, event = record.imported context) : Waits (.log record) false request true := by
  refine ⟨rfl, (fun h => by cases h), fun _ => ⟨record, rfl⟩, fun event hevent => ⟨rfl, ?_⟩⟩
  obtain ⟨context, hcontext⟩ := himports event hevent
  exact ⟨record, context, rfl, hcontext⟩

/-- Where local fields are wanted the record is emitted whole, and otherwise nothing is. -/
theorem deliver_eq (record : Record) (context : ContextToken) (interest : Interest) :
    deliver record context interest =
      if interest.wants .localOnly .core then ask (.emit (record.imported context))
      else pure () := by
  rw [deliver]
  cases hwanted : interest.wants .localOnly .core with
  | false => rfl
  | true =>
    have hfields : List.zipWith (fun field value => localField field value interest) FIELDS
        record.values = List.zipWith (fun field value => some ⟨field, value⟩) FIELDS
          record.values := by
      simp only [localField, hwanted, if_true]
    rw [hfields]
    rfl

theorem undisturbed_deliver (context : ContextToken) (interest : Interest) :
    (deliver record context interest).run.Undisturbed (Waits (.log record) false)
      (fun _ _ => True) true := by
  rw [deliver_eq]
  by_cases hwanted : interest.wants .localOnly .core = true
  · rw [if_pos hwanted]
    refine undisturbed_run_ask.mpr ⟨waits_inside fun event hevent => ⟨context, ?_⟩, fun _ => trivial⟩
    cases hevent
    rfl
  · rw [if_neg hwanted]
    trivial

theorem undisturbed_contextualInterest (cached : Interest) (context : ContextToken) :
    (contextualInterest (selected record.level) cached context >>=
      deliver record context).run.Undisturbed (Waits (.log record) false)
        (fun _ _ => True) true := by
  rw [undisturbed_run_bind, contextualInterest]
  by_cases hcontextual : cached.isContextual = true
  · rw [if_pos hcontextual]
    refine undisturbed_run_ask.mpr ⟨waits_inside (fun _ h => by cases h), fun interest => ?_⟩
    cases interest with
    | none => trivial
    | some interest => exact undisturbed_deliver context interest
  · rw [if_neg hcontextual]
    exact undisturbed_deliver context cached

/-- While a record is imported the flag is set. -/
theorem undisturbed_import : (do
    let cached ← ask (.interest (selected record.level))
    let context ← ask .captureContext
    let interest ← contextualInterest (selected record.level) cached context
    deliver record context interest : Code Unit).run.Undisturbed (Waits (.log record) false)
      (fun _ _ => True) true := by
  rw [undisturbed_run_bind, undisturbed_run_ask]
  refine ⟨waits_inside (fun _ h => by cases h), fun cached => ?_⟩
  cases cached with
  | none => trivial
  | some cached =>
    rw [Option.elim_some, undisturbed_run_bind, undisturbed_run_ask]
    refine ⟨waits_inside (fun _ h => by cases h), fun context => ?_⟩
    cases context with
    | none => trivial
    | some context => exact undisturbed_contextualInterest cached context

end Import

/-- **Every call gives back the flag it found**, and asks nothing when it found it set. -/
theorem restores_code (callback : Callback) (found : Bool) :
    Restores Waits callback found callback.code found := by
  have hasked : found = false → ∀ level, Waits callback found (.interest (selected level)) false :=
    fun hfound level => ⟨hfound, fun _ => ⟨_, rfl⟩, (fun h => by cases h), fun _ h => by cases h⟩
  cases callback with
  | enabled level =>
    rw [Restores, Callback.code, Program.undisturbed_bind]
    exact undisturbed_enabled (fun hset => hset.symm) (fun hclear => hasked hclear level)
      fun hclear _ => hclear.symm
  | log record =>
    rw [Restores, Callback.code, Program.undisturbed_bind, log, undisturbed_run_bind]
    refine undisturbed_enabled (fun hset => hset.symm) (fun hclear => hasked hclear record.level)
      fun hclear answer => ?_
    cases answer with
    | none => exact hclear.symm
    | some wanted =>
      cases wanted with
      | false => exact hclear.symm
      | true =>
        subst hclear
        exact undisturbed_bridged (undisturbed_import.mono fun _ _ _ => rfl)

/-! ## Runs -/

namespace Bridge

/-- What holds of a thread at any time. -/
structure Guarded (thread : Bridge) : Prop where
  /-- The flag is clear when no call is in progress, and set by an import only. -/
  idle : thread.frames = [] → thread.locals = false
  holder : thread.locals = true → ∃ frame below record, thread.frames = frame :: below ∧
    frame.callback = .log record
  /-- What a call in progress was called by is a mask being asked for outside the bridge: the flag
  is clear when the call returns to it. -/
  below : (∀ frame ∈ thread.frames.tail, ∃ metadata, frame.request = .interest metadata) ∧
    ∀ answers thread', step thread (.reply answers) = some thread' →
      thread'.frames = thread.frames.tail → thread'.locals = false
  /-- What is being emitted is the record, inside the bridge. -/
  emits : ∀ frame ∈ thread.frames, ∀ event, frame.request = .emit event →
    thread.locals = true ∧ ∃ record context, frame.callback = .log record ∧
      event = record.imported context
  /-- Whatever is called inside the bridge returns at once and asks nothing. -/
  dropped : thread.locals = true → ∀ callback, step thread (.call callback) = some thread

variable {thread thread' : Bridge}

abbrev Inv (thread : Bridge) : Prop :=
  Balanced Waits (fun flag => flag = false) thread.frames thread.locals

/-- Whatever waits below began and ends with the flag clear, so it waits outside the bridge. -/
theorem interest_of_balanced {frames : List (Frame Bool Answer Callback)} {flag : Bool}
    (h : Balanced Waits (fun flag => flag = false) frames flag) (hflag : flag = false) :
    ∀ frame ∈ frames, ∃ metadata, frame.request = .interest metadata := by
  induction frames generalizing flag with
  | nil => exact fun _ hm => by cases hm
  | cons frame below ih =>
    obtain ⟨found, hwaits, -, hbelow⟩ := h
    exact List.forall_mem_cons.mpr ⟨hwaits.outside hflag, ih hbelow hwaits.found⟩

theorem step_call_of_set (hset : thread.locals = true) (callback : Callback) :
    step thread (.call callback) = some thread := by
  obtain ⟨flag, frames⟩ := thread
  cases hset
  have hopens : frames.head?.all (fun _ => true) = true := by cases frames <;> rfl
  show (if frames.head?.all (fun _ => true) = true then _ else none) = _
  rw [if_pos hopens]
  cases callback <;> rfl

/-- A call that returns leaves the flag as what waits below it has it. -/
theorem clear_of_returned (h : Inv thread) {answers : (request : Request) → Answer request}
    (hs : step thread (.reply answers) = some thread')
    (hframes : thread'.frames = thread.frames.tail) : thread'.locals = false := by
  obtain ⟨flag, frames⟩ := thread
  cases frames with
  | nil => cases hs
  | cons frame below =>
    obtain ⟨found, hwaits, hnext, -⟩ := h
    have hadvance := Program.undisturbed_advance.mpr (hnext (answers frame.request))
    obtain ⟨hret, rfl⟩ | ⟨request, next, -, rfl⟩ := resume_cases hs
    · rw [hret] at hadvance
      exact Eq.trans hadvance hwaits.found
    · exact absurd (congrArg List.length hframes) (Nat.succ_ne_self _)

theorem Inv.guarded (h : Inv thread) : Guarded thread := by
  have hreturned : ∀ answers thread', step thread (.reply answers) = some thread' →
      thread'.frames = thread.frames.tail → thread'.locals = false := fun _ _ => clear_of_returned h
  obtain ⟨flag, frames⟩ := thread
  cases frames with
  | nil =>
    have hclear : flag = false := h
    have hnot : ¬ flag = true := by rw [hclear]; exact Bool.false_ne_true
    exact ⟨fun _ => hclear, fun hset => absurd hset hnot, ⟨List.forall_mem_nil _, hreturned⟩,
      List.forall_mem_nil _, step_call_of_set⟩
  | cons frame below =>
    obtain ⟨found, hwaits, -, hbelow⟩ := h
    have hquiet := interest_of_balanced hbelow hwaits.found
    refine ⟨fun hnil => (by cases hnil), fun hset => ?_, ⟨hquiet, hreturned⟩,
      fun g hg event hevent => ?_, step_call_of_set⟩
    · obtain ⟨record, hrecord⟩ := hwaits.holder hset
      exact ⟨frame, below, record, rfl, hrecord⟩
    · obtain rfl | hg := List.mem_cons.mp hg
      · exact hwaits.imports event hevent
      · obtain ⟨metadata, hinterest⟩ := hquiet g hg
        rw [hinterest] at hevent
        cases hevent

theorem inv_step {a : Action Answer Callback} (h : Inv thread) (hs : step thread a = some thread') :
    Inv thread' :=
  balanced_step h (fun callback _ => restores_code callback thread.locals) hs

/-- **The log bridge never recurses**: in any order of calls, answers and unwinding calls on a
thread, at most one record is being emitted, and what is logged or asked meanwhile returns at once
without reaching the dispatcher. -/
theorem loops_stop (thread : Bridge)
    (h : Transition.Reaches step Transition.always initial thread) : Guarded thread :=
  (Transition.Reaches.invariant (I := Inv) (fun _ _ _ hi _ hs => inv_step hi hs) h rfl).guarded

/-- Local fields are wanted, and nothing unwinds. -/
def plainAnswers : (request : Request) → Answer request
  | .interest _ | .contextualInterest _ _ => some Interest.CORE_LOCAL
  | .captureContext => some .none
  | .emit _ => some ()

def checkout : Record :=
  { level := .info, target := "shop", modulePath := some "shop::cart", file := none
    line := some 27, args := .literal "checked out", keyValues := ⟨[], true⟩ }

/-- A sink that logs: its record is dropped while the first one is emitted. -/
theorem loops_stop_sink : ∃ thread, Transition.run step initial
      [.call (.log checkout), .reply plainAnswers, .reply plainAnswers, .reply plainAnswers,
        .call (.log checkout), .call (.enabled .error)] = some thread ∧
    thread.frames.map Frame.request = [.emit (checkout.imported .none)] ∧
    Guarded thread := by
  have hreach : Transition.Reaches step Transition.always initial _ :=
    Transition.reaches_of_run [.call (.log checkout), .reply plainAnswers, .reply plainAnswers,
      .reply plainAnswers, .call (.log checkout), .call (.enabled .error)] rfl
  exact ⟨_, rfl, rfl, loops_stop _ hreach⟩

end Bridge

end Logwise.Log
