import Logwise.Library.Slots
import Logwise.Tracing.Bridge

/-!
# The stack of entered spans

`on_enter` and `on_exit` of the tracing layer (`logwise_compat_tracing/src/lib.rs`) on a thread of an
installed `Runtime`, whose `enter_context` and `exit_context` replace and set the thread's current
token. Each guard restores the token that was current when it was made, so that the guards of
`ENTERED` are a chain from the current token down to the one before the first enter.
-/

namespace Logwise.Tracing.Entered

open Reentrant

/-- What the two callbacks ask, as the registry and the runtime answer it: `enter_context` is
`CURRENT_CONTEXT.replace` and `exit_context` is `CURRENT_CONTEXT.set`. -/
def handle (spans : UInt64 → Option SpanRef) :
    (request : Request) → ContextToken → Option (Answer request × ContextToken)
  | .span id, current => some (spans id, current)
  | .enterContext context, current => some (some current, context)
  | .exitContext previous, _ => some ((), previous)
  | _, _ => none

structure Scene where
  locals : Locals
  /-- The registry, with the extensions the layer has inserted. -/
  spans : UInt64 → Option SpanRef
  /-- `CURRENT_CONTEXT`. -/
  current : ContextToken

inductive Event where
  | enter (id : UInt64)
  | exit (id : UInt64)
  /-- Spans are created and closed, and ids are used again. -/
  | register (spans : UInt64 → Option SpanRef)

def perform (callback : Callback) (scene : Scene) : Option Scene :=
  (callback.code.answered (handle scene.spans) scene.locals scene.current).map
    fun (_, locals, current) => { scene with locals := locals, current := current }

def step (scene : Scene) : Event → Option Scene
  | .enter id => perform (.enter id) scene
  | .exit id => perform (.exit id) scene
  | .register spans => some { scene with spans := spans }

def stateOf (spans : UInt64 → Option SpanRef) (id : UInt64) : Option SpanState :=
  (spans id).bind SpanRef.state

/-- A span that is entered has its `SpanState`, and keeps it until it has been exited. -/
def Steady (scene : Scene) : Event → Prop
  | .enter id => (stateOf scene.spans id).isSome
  | .exit _ => True
  | .register spans => ∀ entry ∈ scene.locals.entered,
      stateOf spans entry.1 = stateOf scene.spans entry.1

instance : ∀ (scene : Scene) (event : Event), Decidable (Steady scene event)
  | scene, .enter id => inferInstanceAs (Decidable ((stateOf scene.spans id).isSome = true))
  | _, .exit _ => .isTrue trivial
  | scene, .register spans => inferInstanceAs (Decidable (∀ entry ∈ scene.locals.entered,
      stateOf spans entry.1 = stateOf scene.spans entry.1))

/-- The ids in `ENTERED`, in the order in which they were pushed. -/
def Scene.ids (scene : Scene) : List UInt64 := (scene.locals.entered.map Prod.fst).reverse

/-- Delete the last occurrence. -/
def eraseLast (id : UInt64) (ids : List UInt64) : List UInt64 := (ids.reverse.erase id).reverse

/-- The spans that are entered, by the callbacks alone. -/
def follow (ids : List UInt64) : Event → List UInt64
  | .enter id => ids ++ [id]
  | .exit id => eraseLast id ids
  | .register _ => ids

/-- The context of the last id, or `base` where there is none. -/
def currentOf (spans : UInt64 → Option SpanRef) (base : ContextToken) (ids : List UInt64) :
    Option ContextToken :=
  match ids.getLast? with
  | none => some base
  | some id => (stateOf spans id).map SpanState.context

/-- The current token is that of the top entry, whose guard has saved that of the entry below it,
and so on down to `base`. -/
def Chained (spans : UInt64 → Option SpanRef) (base : ContextToken) :
    List (UInt64 × ContextGuard) → ContextToken → Prop
  | [], current => current = base
  | (id, guard) :: below, current =>
    (stateOf spans id).map SpanState.context = some current ∧
      ∃ previous, guard = some previous ∧ Chained spans base below previous

/-- Between two callbacks of the thread. -/
structure Inv (base : ContextToken) (ids : List UInt64) (scene : Scene) : Prop where
  inBridge : scene.locals.inBridge = false
  borrowed : scene.locals.borrowed = false
  ids : scene.locals.entered.map Prod.fst = ids.reverse
  chained : Chained scene.spans base scene.locals.entered scene.current

variable {spans spans' : UInt64 → Option SpanRef} {base current : ContextToken} {locals : Locals}
  {entered below : List (UInt64 × ContextGuard)} {id : UInt64}

theorem Chained.congr (h : Chained spans base entered current)
    (hsame : ∀ entry ∈ entered, stateOf spans' entry.1 = stateOf spans entry.1) :
    Chained spans' base entered current := by
  induction entered generalizing current with
  | nil => exact h
  | cons entry below ih =>
    obtain ⟨hstate, previous, hguard, hbelow⟩ := h
    obtain ⟨htop, hrest⟩ := List.forall_mem_cons.mp hsame
    exact ⟨htop ▸ hstate, previous, hguard, ih hbelow hrest⟩

theorem Chained.stateOf_isSome (h : Chained spans base entered current) :
    ∀ entry ∈ entered, (stateOf spans entry.1).isSome := by
  induction entered generalizing current with
  | nil => exact fun _ hm => by cases hm
  | cons entry below ih =>
    obtain ⟨hstate, previous, hguard, hbelow⟩ := h
    refine List.forall_mem_cons.mpr ⟨?_, ih hbelow⟩
    obtain ⟨state, hs, -⟩ := Option.map_eq_some_iff.mp hstate
    exact Option.isSome_of_eq_some hs

/-! ## The pieces of the callbacks -/

theorem answered_spanState : (spanState id).answered (handle spans) locals current =
    some (stateOf spans id, locals, current) := rfl

theorem answered_popEntered {previous : ContextToken}
    (h : locals.entered = (id, some previous) :: below) :
    popEntered.answered (handle spans) locals current =
      some (some id, { locals with entered := below }, previous) := by
  obtain ⟨inBridge, entered, borrowed⟩ := locals
  cases h
  rfl

theorem answered_borrowingEntered {body : Code Unit} (h : locals.borrowed = false) :
    (borrowingEntered body).answered (handle spans) locals current =
      (body.answered (handle spans) { locals with borrowed := true } current).map
        fun (_, locals, current) => ((), { locals with borrowed := false }, current) := by
  obtain ⟨inBridge, entered, borrowed⟩ := locals
  cases h
  show (body >>= _).answered _ _ _ = _
  rw [Program.answered_bind]
  cases body.answered (handle spans) ⟨inBridge, entered, true⟩ current <;> rfl

/-- The entries above the exited span come off one by one, each guard giving back the token of the
entry below it. -/
theorem answered_unwindEntered (above : List (UInt64 × ContextGuard)) (stillEntered : List UInt64)
    (hentered : locals.entered = above ++ below)
    (hchained : Chained spans base (above ++ below) current) :
    ∃ current', (unwindEntered stillEntered above.length).answered (handle spans) locals current =
        some ((above.map Prod.fst).reverse ++ stillEntered, { locals with entered := below },
          current') ∧
      Chained spans base below current' := by
  induction above generalizing locals current stillEntered with
  | nil =>
    obtain ⟨inBridge, entered, borrowed⟩ := locals
    cases hentered
    exact ⟨current, rfl, hchained⟩
  | cons entry above ih =>
    obtain ⟨id, guard⟩ := entry
    obtain ⟨-, previous, rfl, hbelow⟩ := hchained
    have hpopped : ({ locals with entered := above ++ below } : Locals).entered = above ++ below :=
      rfl
    obtain ⟨current', hrun, hrest⟩ := ih (id :: stillEntered) hpopped hbelow
    refine ⟨current', ?_, hrest⟩
    show (popEntered >>= _).answered _ _ _ = _
    rw [Program.answered_bind, answered_popEntered hentered, Option.bind_some]
    simpa using hrun

/-- Entering again what is still entered rebuilds the chain. -/
theorem answered_reenter {ids : List UInt64} (hids : ∀ id ∈ ids, (stateOf spans id).isSome)
    (hchained : Chained spans base locals.entered current) :
    ∃ entered' current', (reenter ids).answered (handle spans) locals current =
        some ((), { locals with entered := entered' }, current') ∧
      Chained spans base entered' current' ∧
        entered'.map Prod.fst = ids.reverse ++ locals.entered.map Prod.fst := by
  induction ids generalizing locals current with
  | nil => exact ⟨locals.entered, current, rfl, hchained, rfl⟩
  | cons id rest ih =>
    obtain ⟨hid, hrest⟩ := List.forall_mem_cons.mp hids
    obtain ⟨state, hstate⟩ := Option.isSome_iff_exists.mp hid
    have hpushed : Chained spans base
        ({ locals with entered := (id, some current) :: locals.entered } : Locals).entered
        state.context := ⟨by rw [hstate]; rfl, current, rfl, hchained⟩
    obtain ⟨entered', current', hrun, hchain, hsame⟩ := ih hrest hpushed
    refine ⟨entered', current', ?_, hchain, ?_⟩
    · show (spanState id >>= _).answered _ _ _ = _
      rw [Program.answered_bind, answered_spanState, hstate, Option.bind_some]
      exact hrun
    · rw [hsame]
      simp

/-! ## The callbacks -/

variable {ids : List UInt64} {scene : Scene}

/-- The span is pushed with the token to go back to. -/
theorem answered_onEnter {state : SpanState} (hin : locals.inBridge = false)
    (hborrowed : locals.borrowed = false) (hstate : stateOf spans id = some state) :
    (onEnter id).answered (handle spans) locals current = some ((),
      { locals with entered := (id, some current) :: locals.entered }, state.context) := by
  obtain ⟨inBridge, entered, borrowed⟩ := locals
  cases hin
  cases hborrowed
  show (spanState id >>= _).answered _ _ _ = _
  rw [Program.answered_bind, answered_spanState, hstate]
  rfl

/-- A span without a `SpanState` is not. -/
theorem answered_onEnter_of_none (hin : locals.inBridge = false)
    (hstate : stateOf spans id = none) :
    (onEnter id).answered (handle spans) locals current = some ((), locals, current) := by
  obtain ⟨inBridge, entered, borrowed⟩ := locals
  cases hin
  show (spanState id >>= _).answered _ _ _ = _
  rw [Program.answered_bind, answered_spanState, hstate]
  rfl

/-- An exit takes the last entry of the span out of the stack and leaves the others. -/
theorem answered_onExit (hin : locals.inBridge = false) (hborrowed : locals.borrowed = false)
    (hchained : Chained spans base locals.entered current) :
    ∃ entered' current', (onExit id).answered (handle spans) locals current =
        some ((), { locals with entered := entered' }, current') ∧
      Chained spans base entered' current' ∧
        entered'.map Prod.fst = (locals.entered.map Prod.fst).erase id := by
  obtain ⟨inBridge, entered, borrowed⟩ := locals
  cases hin
  cases hborrowed
  have hrun : (onExit id).answered (handle spans) ⟨false, entered, false⟩ current =
      (borrowingEntered _).answered (handle spans) ⟨false, entered, false⟩ current := rfl
  rw [hrun, answered_borrowingEntered rfl, Program.answered_bind, Program.answered_read,
    Option.bind_some]
  cases hfind : entered.findIdx? fun entry => entry.1 == id with
  | none =>
    -- a span that is not on the stack
    have hid : id ∉ entered.map Prod.fst := by
      rw [List.findIdx?_eq_none_iff] at hfind
      intro hm
      obtain ⟨entry, hentry, rfl⟩ := List.mem_map.mp hm
      simpa using hfind entry hentry
    refine ⟨entered, current, ?_, hchained, (List.erase_of_not_mem hid).symm⟩
    simp [hfind]
  | some count =>
    obtain ⟨above, ⟨exited, guard⟩, below, rfl, rfl, hexited, habove⟩ :=
      Slots.exists_split_of_findIdx? hfind
    obtain rfl : exited = id := eq_of_beq hexited
    have hstates : ∀ still ∈ (above.map Prod.fst).reverse, (stateOf spans still).isSome := by
      intro still hm
      obtain ⟨entry, hentry, rfl⟩ := List.mem_map.mp (List.mem_reverse.mp hm)
      exact hchained.stateOf_isSome entry (List.mem_append_left _ hentry)
    have hnot : exited ∉ above.map Prod.fst := by
      intro hm
      obtain ⟨entry, hentry, he⟩ := List.mem_map.mp hm
      have hother := habove entry hentry
      rw [he, beq_self_eq_true] at hother
      cases hother
    have hall : (⟨false, above ++ (exited, guard) :: below, true⟩ : Locals).entered =
        above ++ (exited, guard) :: below := rfl
    obtain ⟨unwound, hunwind, -, previous, rfl, hbelow⟩ :=
      answered_unwindEntered above [] hall hchained
    have hpop : popEntered.answered (handle spans)
        ⟨false, (exited, some previous) :: below, true⟩ unwound =
          some (some exited, ⟨false, below, true⟩, previous) := answered_popEntered rfl
    have hrest : Chained spans base (⟨false, below, true⟩ : Locals).entered previous := hbelow
    obtain ⟨entered', current', hreenter, hchain, hids⟩ := answered_reenter hstates hrest
    refine ⟨entered', current', ?_, hchain, ?_⟩
    · rw [List.append_nil] at hunwind
      simp only [hfind, Program.answered_bind, hunwind, hpop, hreenter, Option.bind_some,
        Option.map_some]
    · rw [hids, List.reverse_reverse, List.map_append, List.map_cons,
        List.erase_append_right _ hnot, List.erase_cons_head]

theorem inv_enter (h : Inv base ids scene) (hstate : (stateOf scene.spans id).isSome) :
    ∃ scene', perform (.enter id) scene = some scene' ∧ Inv base (ids ++ [id]) scene' := by
  obtain ⟨state, hs⟩ := Option.isSome_iff_exists.mp hstate
  refine ⟨{ scene with
    locals := { scene.locals with entered := (id, some scene.current) :: scene.locals.entered }
    current := state.context }, ?_, h.inBridge, h.borrowed, ?_, ?_⟩
  · rw [perform, Callback.code, answered_onEnter h.inBridge h.borrowed hs]
    rfl
  · simp [h.ids]
  · exact ⟨by rw [hs]; rfl, scene.current, rfl, h.chained⟩

theorem inv_exit (h : Inv base ids scene) :
    ∃ scene', perform (.exit id) scene = some scene' ∧ Inv base (eraseLast id ids) scene' := by
  obtain ⟨entered', current', hrun, hchained, hids⟩ :=
    answered_onExit h.inBridge h.borrowed h.chained
  refine ⟨{ scene with locals := { scene.locals with entered := entered' }, current := current' },
    ?_, h.inBridge, h.borrowed, ?_, hchained⟩
  · rw [perform, Callback.code, hrun]
    rfl
  · rw [hids, h.ids, eraseLast, List.reverse_reverse]

theorem inv_step {event : Event} (h : Inv base ids scene) (hok : Steady scene event) :
    ∃ scene', step scene event = some scene' ∧ Inv base (follow ids event) scene' := by
  cases event with
  | enter id => exact inv_enter h hok
  | exit id => exact inv_exit h
  | register spans =>
    exact ⟨_, rfl, h.inBridge, h.borrowed, h.ids, h.chained.congr hok⟩

theorem Inv.currentOf (h : Inv base ids scene) :
    currentOf scene.spans base ids = some scene.current := by
  have hlast : ids.getLast? = (scene.locals.entered.map Prod.fst).head? := by
    rw [h.ids, List.head?_reverse]
  have hchained := h.chained
  rw [Entered.currentOf, hlast]
  cases hentered : scene.locals.entered with
  | nil =>
    rw [hentered] at hchained
    exact congrArg some hchained.symm
  | cons entry below =>
    rw [hentered] at hchained
    exact hchained.1

theorem step_isSome (h : Inv base ids scene) (event : Event) : (step scene event).isSome := by
  cases event with
  | enter id =>
    cases hstate : stateOf scene.spans id with
    | none =>
      show (perform (.enter id) scene).isSome = true
      rw [perform, Callback.code, answered_onEnter_of_none h.inBridge hstate]
      rfl
    | some state =>
      obtain ⟨scene', hrun, -⟩ := inv_enter h (Option.isSome_of_eq_some hstate)
      exact Option.isSome_of_eq_some hrun
  | exit id =>
    obtain ⟨scene', hrun, -⟩ := inv_exit h
    exact Option.isSome_of_eq_some hrun
  | register spans => rfl

theorem inv_run {events : List Event} (h : Inv base ids scene)
    (hok : Transition.Admitted step Steady scene events) :
    ∃ scene', Transition.run step scene events = some scene' ∧
      Inv base (events.foldl follow ids) scene' := by
  induction events generalizing ids scene with
  | nil => exact ⟨scene, rfl, h⟩
  | cons event events ih =>
    obtain ⟨next, hstep⟩ := Option.isSome_iff_exists.mp (step_isSome h event)
    obtain ⟨hsteady, hrest⟩ := hok next hstep
    obtain ⟨_, hstep', hnext⟩ := inv_step h hsteady
    cases hstep.symm.trans hstep'
    obtain ⟨scene', hrun, hinv⟩ := ih hnext hrest
    refine ⟨scene', ?_, hinv⟩
    rw [Transition.run, hstep]
    exact hrun

/-- **The stack follows the spans**: after each of any callbacks the ids of `ENTERED` are those of
the spans entered and not exited, and the current token is that of the last of them. -/
theorem entered_follows (scene : Scene) (events : List Event)
    (hfresh : scene.locals = { inBridge := false, entered := [], borrowed := false })
    (h : Transition.Admitted step Steady scene events) :
    ∃ scene', Transition.run step scene events = some scene' ∧
      scene'.ids = events.foldl follow [] ∧
      currentOf scene'.spans scene.current (events.foldl follow []) = some scene'.current := by
  have hinv : Inv scene.current [] scene := by
    refine ⟨?_, ?_, ?_, ?_⟩ <;> rw [hfresh] <;> rfl
  obtain ⟨scene', hrun, hinv'⟩ := inv_run hinv h
  refine ⟨scene', hrun, ?_, hinv'.currentOf⟩
  rw [Scene.ids, hinv'.ids, List.reverse_reverse]

/-- Two spans, one of them entered twice. -/
def twoSpans (id : UInt64) : Option SpanRef :=
  if id = 1 then some ⟨Bridge.checkout, some ⟨.fromParts 11 0, 1, 0⟩⟩
  else if id = 2 then some ⟨Bridge.checkout, some ⟨.fromParts 12 0, 2, 1⟩⟩
  else none

/-- The second span is exited from between the two entries of the first, and closed. -/
theorem entered_follows_twice : ∃ scene',
    Transition.run step ⟨⟨false, [], false⟩, twoSpans, .fromParts 7 0⟩
        [.enter 1, .enter 2, .enter 1, .exit 2, .exit 9,
          .register fun id => if id = 1 then twoSpans id else none, .exit 1] = some scene' ∧
      scene'.ids = [1] ∧ scene'.current = .fromParts 11 0 := by
  have hadmitted : Transition.Admitted step Steady ⟨⟨false, [], false⟩, twoSpans, .fromParts 7 0⟩
      [.enter 1, .enter 2, .enter 1, .exit 2, .exit 9,
        .register fun id => if id = 1 then twoSpans id else none, .exit 1] :=
    Transition.admitted_of_isSome (by decide)
  obtain ⟨scene', hrun, hids, hcurrent⟩ := entered_follows _ _ rfl hadmitted
  refine ⟨scene', hrun, hids, ?_⟩
  cases hrun
  exact (Option.some.inj hcurrent).symm

/-- **The callbacks as the thread runs them**: called with nothing below, and given the answers of
the registry and the runtime. -/
theorem perform_run {callback : Callback} {scene' : Scene}
    (h : perform callback scene = some scene') :
    ∃ replies : List ((request : Request) → Answer request),
      Transition.run Bridge.step ⟨scene.locals, []⟩
          (.call callback :: replies.map Reentrant.Action.reply) = some ⟨scene'.locals, []⟩ := by
  obtain ⟨⟨value, locals, current⟩, hanswered, rfl⟩ := Option.map_eq_some_iff.mp h
  obtain ⟨thread, replies, hresume, hrun⟩ :=
    exists_run_of_answered Callback.code Request.opens Bridge.plainAnswers hanswered
  refine ⟨replies, ?_⟩
  have hcall : Bridge.step ⟨scene.locals, []⟩ (.call callback) = some thread := hresume
  rw [Transition.run, hcall]
  exact hrun

end Logwise.Tracing.Entered
