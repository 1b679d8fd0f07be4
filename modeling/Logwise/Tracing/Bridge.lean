import Logwise.Tracing.Layer

/-!
# The reentrancy guard of the tracing layer

What the flag says about the callbacks of one thread, in any run: the callbacks of the application,
and those that dispatchers and `Debug` implementations trigger while a callback waits for them.
-/

namespace Logwise.Tracing

open Reentrant

/-- The flag has the value `inBridge`. -/
def Flag (inBridge : Bool) (locals : Locals) : Prop := locals.inBridge = inBridge

/-! ## The callbacks keep the flag -/

section Keeps

variable {inBridge : Bool}

theorem keeps_ask (request : Request) : (ask request).Keeps (Flag inBridge) :=
  Program.keeps_request request

theorem keeps_ite {α : Type} {c : Prop} [Decidable c] {p q : Code α}
    (hp : p.Keeps (Flag inBridge)) (hq : q.Keeps (Flag inBridge)) :
    (if c then p else q).Keeps (Flag inBridge) := by
  split
  · exact hp
  · exact hq

theorem keeps_exit (guard : ContextGuard) : (Facade.exit guard).Keeps (Flag inBridge) := by
  cases guard with
  | none => exact Program.keeps_pure ()
  | some previous => exact keeps_ask _

theorem keeps_entering (context : ContextToken) {body : Code Unit}
    (h : body.Keeps (Flag inBridge)) : (entering context body).Keeps (Flag inBridge) :=
  (keeps_ask _).bind fun guard => h.bind fun _ => keeps_exit guard

theorem keeps_contextualInterest (metadata : Metadata) (interest : Interest)
    (context : ContextToken) :
    (Facade.contextualInterest metadata interest context).Keeps (Flag inBridge) :=
  keeps_ite (keeps_ask _) (Program.keeps_pure _)

theorem keeps_spanState (id : UInt64) : (spanState id).Keeps (Flag inBridge) :=
  (keeps_ask _).bind fun _ => Program.keeps_pure _

theorem keeps_spanStateAndMetadata (id : UInt64) :
    (spanStateAndMetadata id).Keeps (Flag inBridge) :=
  (keeps_ask _).bind fun _ => Program.keeps_pure _

theorem keeps_parentState (parent : Parent) : (parentState parent).Keeps (Flag inBridge) := by
  cases parent with
  | root => exact Program.keeps_pure _
  | explicit id => exact keeps_spanState id
  | contextual => exact (keeps_ask _).bind fun _ => Program.keeps_pure _

theorem keeps_recordFields (output : String) (names : List String) :
    (recordFields output names).Keeps (Flag inBridge) := by
  induction names generalizing output with
  | nil => exact Program.keeps_pure _
  | cons name names ih => exact (keeps_ask _).bind fun text => ih _

theorem keeps_wantsLocal (level : Level) : (wantsLocal level).Keeps (Flag inBridge) :=
  (keeps_ask _).bind fun _ => keeps_ite (Program.keeps_pure _) ((keeps_ask _).bind fun _ =>
    (keeps_contextualInterest _ _ _).bind fun _ => Program.keeps_pure _)

theorem keeps_emit (level : Level) (operation target name : String) (tracingId parentId : UInt64)
    (importedFields : String) :
    (emit level operation target name tracingId parentId importedFields).Keeps (Flag inBridge) :=
  (keeps_ask _).bind fun _ => keeps_ite (Program.keeps_pure _) ((keeps_ask _).bind fun _ =>
    (keeps_contextualInterest _ _ _).bind fun _ => keeps_ite (Program.keeps_pure _) (keeps_ask _))

/-- Fields are formatted and imported if the local tier is wanted. -/
theorem keeps_import (level : Level) (fields : List String) {body : String → Code Unit}
    (h : ∀ output, (body output).Keeps (Flag inBridge)) :
    (do if ← wantsLocal level then body (← recordFields "" fields) : Code Unit).Keeps
      (Flag inBridge) :=
  (keeps_wantsLocal level).bind fun _ =>
    keeps_ite ((keeps_recordFields _ _).bind h) (Program.keeps_pure _)

theorem keeps_pushEntered (id : UInt64) (guard : ContextGuard) :
    (pushEntered id guard).Keeps (Flag inBridge) := Program.keeps_modify fun _ h => h

theorem keeps_popEntered : popEntered.Keeps (Flag inBridge) := by
  refine Program.keeps_read_bind fun locals _ => ?_
  cases locals.entered with
  | nil => exact Program.keeps_pure _
  | cons entry below =>
    exact Program.Keeps.bind (Program.keeps_modify fun _ h => h) fun _ =>
      (keeps_exit _).bind fun _ => Program.keeps_pure _

theorem keeps_borrowingEntered {body : Code Unit} (h : body.Keeps (Flag inBridge)) :
    (borrowingEntered body).Keeps (Flag inBridge) :=
  Program.keeps_read_bind fun _ _ => keeps_ite Program.keeps_panic
    (Program.Keeps.bind (Program.keeps_modify fun _ h => h) fun _ =>
      h.bind fun _ => Program.keeps_modify fun _ h => h)

theorem keeps_unwindEntered (stillEntered : List UInt64) (count : ℕ) :
    (unwindEntered stillEntered count).Keeps (Flag inBridge) := by
  induction count generalizing stillEntered with
  | zero => exact Program.keeps_pure _
  | succ count ih =>
    refine keeps_popEntered.bind fun popped => ?_
    cases popped with
    | none => exact Program.keeps_panic
    | some above => exact ih _

theorem keeps_reenter (ids : List UInt64) : (reenter ids).Keeps (Flag inBridge) := by
  induction ids with
  | nil => exact Program.keeps_pure _
  | cons above rest ih =>
    refine (keeps_spanState above).bind fun state => ?_
    cases state with
    | none => exact ih
    | some state => exact (keeps_ask _).bind fun guard => (keeps_pushEntered _ _).bind fun _ => ih

theorem keeps_onEnter (id : UInt64) : (onEnter id).Keeps (Flag inBridge) := by
  refine Program.Keeps.bind (Program.keeps_read_bind fun _ _ => Program.keeps_pure _) fun active =>
    keeps_ite (Program.keeps_pure _) ((keeps_spanState id).bind fun state => ?_)
  cases state with
  | none => exact Program.keeps_pure _
  | some state =>
    exact keeps_borrowingEntered ((keeps_ask _).bind fun guard => keeps_pushEntered _ _)

theorem keeps_onExit (id : UInt64) : (onExit id).Keeps (Flag inBridge) := by
  refine Program.Keeps.bind (Program.keeps_read_bind fun _ _ => Program.keeps_pure _) fun active =>
    keeps_ite (Program.keeps_pure _) (keeps_borrowingEntered
      (Program.keeps_read_bind fun locals _ => ?_))
  cases locals.entered.findIdx? fun entry => entry.1 == id with
  | none => exact Program.keeps_pure _
  | some count =>
    exact (keeps_unwindEntered _ _).bind fun _ => keeps_popEntered.bind fun _ => keeps_reenter _

end Keeps

/-- A callback that finds the flag clear holds it while it runs, and clears it when it returns. -/
theorem within_bridged {body : Code Unit} {locals : Locals} (h : body.Keeps (Flag true))
    (hclear : Flag false locals) :
    (bridged body).Within (Flag true) (fun _ => Flag false) locals := by
  rw [Flag] at hclear
  simp only [bridged, BridgeGuard.enter, BridgeGuard.drop, Program.within_bind, Program.within_read,
    Program.within_modify, hclear, Bool.not_false, if_true, Program.within_pure]
  exact (h { locals with inBridge := true } rfl).mono fun _ _ _ => rfl

/-- A callback that finds the flag set does not run its body, and clears the flag. -/
theorem advance_bridged {body : Code Unit} {locals : Locals} (hset : Flag true locals) :
    (bridged body).advance locals = (.pure (), { locals with inBridge := false }) := by
  obtain ⟨inBridge, entered, borrowed⟩ := locals
  cases hset
  rfl

theorem exists_code_bridged {callback : Callback} (h : callback.bridges = true) :
    ∃ body : Code Unit, callback.code = bridged body ∧ body.Keeps (Flag true) := by
  cases callback with
  | newSpan metadata parent fields id =>
    refine ⟨_, rfl, (keeps_parentState parent).bind fun parent => (keeps_ask _).bind fun context =>
      (keeps_ask _).bind fun span => ?_⟩
    have hrest : Program.Keeps (Flag true) _ :=
      keeps_entering context (keeps_import metadata.level fields fun output =>
        keeps_emit metadata.level "span.new" metadata.target metadata.name id
          ((parent.map SpanState.tracingId).getD 0) output)
    exact keeps_ite ((keeps_ask _).bind fun _ => hrest) hrest
  | record id fields =>
    refine ⟨_, rfl, (keeps_spanStateAndMetadata id).bind fun found => ?_⟩
    cases found with
    | none => exact Program.keeps_pure _
    | some found =>
      exact keeps_entering _ (keeps_import _ fields fun output => keeps_emit _ _ _ _ _ _ output)
  | followsFrom id follows =>
    refine ⟨_, rfl, (keeps_spanStateAndMetadata id).bind fun found => ?_⟩
    cases found with
    | none => exact Program.keeps_pure _
    | some found =>
      refine (keeps_spanState follows).bind fun related => ?_
      cases related with
      | none => exact Program.keeps_pure _
      | some related =>
        exact (keeps_ask _).bind fun _ => keeps_entering _ (keeps_emit _ _ _ _ _ _ _)
  | event metadata fields =>
    refine ⟨_, rfl, (keeps_ask _).bind fun span => ?_⟩
    have hbody (parent : Option SpanState) : Program.Keeps (Flag true) _ :=
      keeps_import metadata.level fields fun output =>
        keeps_emit metadata.level "event" metadata.target metadata.name 0
          ((parent.map SpanState.tracingId).getD 0) output
    dsimp only
    cases span.bind SpanRef.state with
    | none => exact hbody none
    | some state => exact keeps_entering _ (hbody (some state))
  | close id =>
    refine ⟨_, rfl, (keeps_spanStateAndMetadata id).bind fun found => ?_⟩
    cases found with
    | none => exact Program.keeps_pure _
    | some found => exact keeps_entering _ (keeps_emit _ _ _ _ _ _ _)
  | enter id => cases h
  | exit id => cases h

/-! ## Runs -/

namespace Bridge

/-- No recursion: the flag is set exactly while a callback that entered the guard runs, and nothing
that was triggered meanwhile imports. -/
structure Guarded (thread : Bridge) : Prop where
  flag : thread.locals.inBridge = thread.frames.any fun frame => frame.callback.bridges
  nested : ∀ above holder below, thread.frames = above ++ holder :: below →
    holder.callback.bridges = true → ∀ frame ∈ above, frame.request.isImport = false

/-- No callback that enters the guard is triggered while another one runs. -/
def Admits (thread : Bridge) : Action Answer Callback → Prop
  | .call callback => callback.bridges = true →
      ∀ frame ∈ thread.frames, frame.callback.bridges = false
  | .reply _ => True

/-- The flag as a callback finds it while it runs. -/
def Holding (callback : Callback) : Locals → Prop := Flag callback.bridges

/-- Only the innermost callback may hold the guard, and the flag says whether it does. -/
structure Inv (thread : Bridge) : Prop where
  resumes : Resumes Holding (Flag false) thread.frames thread.locals
  stack : Stack Holding (Flag false) thread.frames
  innermost : ∀ frame ∈ thread.frames.tail, frame.callback.bridges = false

variable {thread thread' : Bridge}

theorem Inv.flag_iff (h : Inv thread) :
    thread.locals.inBridge = thread.frames.any fun frame => frame.callback.bridges := by
  have hresumes := h.resumes
  have hinner := h.innermost
  cases hframes : thread.frames with
  | nil =>
    rw [hframes] at hresumes
    exact hresumes
  | cons frame below =>
    rw [hframes] at hresumes hinner
    have hbelow : (below.any fun frame => frame.callback.bridges) = false := by
      rw [List.any_eq_false]
      intro g hg
      rw [hinner g hg]
      exact Bool.false_ne_true
    rw [List.any_cons, hbelow, Bool.or_false]
    exact hresumes

theorem Inv.guarded (h : Inv thread) : Guarded thread := by
  refine ⟨h.flag_iff, fun above holder below hframes hholder frame hm => ?_⟩
  cases above with
  | nil => cases hm
  | cons top above =>
    have htail : holder ∈ thread.frames.tail := by simp [hframes]
    rw [h.innermost holder htail] at hholder
    cases hholder

theorem Inv.initial : Inv initial :=
  { resumes := rfl, stack := trivial, innermost := fun _ hm => by cases hm }

/-- Where no callback holds the guard, the one below goes on with the flag clear. -/
theorem resumes_eq_false {frames : List (Frame Locals Answer Callback)}
    (h : ∀ frame ∈ frames, frame.callback.bridges = false) :
    Resumes Holding (Flag false) frames = Flag false := by
  cases frames with
  | nil => rfl
  | cons frame below => exact congrArg Flag (h frame (List.mem_cons_self ..))

/-- `on_enter` and `on_exit` return at once inside the bridge. -/
theorem advance_of_not_bridges {callback : Callback} {locals : Locals}
    (h : callback.bridges = false) (hset : Flag true locals) :
    callback.code.advance locals = (.pure (), locals) := by
  obtain ⟨inBridge, entered, borrowed⟩ := locals
  cases hset
  cases callback with
  | enter id => rfl
  | exit id => rfl
  | _ => cases h

/-- A callback that may be called keeps its invariant and gives back the one it found. -/
theorem within_call {callback : Callback} (h : Inv thread) (hok : Admits thread (.call callback)) :
    callback.code.Within (Holding callback)
      (fun _ => Resumes Holding (Flag false) thread.frames) thread.locals := by
  have hresumes := h.resumes
  cases hbridges : callback.bridges with
  | true =>
    obtain ⟨body, hcode, hbody⟩ := exists_code_bridged hbridges
    rw [resumes_eq_false (hok hbridges)] at hresumes ⊢
    rw [Holding, hbridges, hcode]
    exact within_bridged hbody hresumes
  | false =>
    cases hflag : thread.locals.inBridge with
    | true =>
      rw [← Program.within_advance, advance_of_not_bridges hbridges hflag]
      exact hresumes
    | false =>
      have hnone : ∀ frame ∈ thread.frames, frame.callback.bridges = false := by
        rw [h.flag_iff, List.any_eq_false] at hflag
        exact fun frame hm => Bool.eq_false_of_not_eq_true (hflag frame hm)
      rw [resumes_eq_false hnone, Holding, hbridges]
      cases callback with
      | enter id => exact keeps_onEnter id _ hflag
      | exit id => exact keeps_onExit id _ hflag
      | _ => cases hbridges

/-- What waits below a new frame does not hold the guard. -/
theorem innermost_call {callback : Callback} (h : Inv thread)
    (hok : Admits thread (.call callback))
    (hs : resume callback thread.frames callback.code thread.locals = some thread') :
    ∀ frame ∈ thread'.frames.tail, frame.callback.bridges = false := by
  obtain ⟨-, rfl⟩ | ⟨request, next, hask, rfl⟩ := resume_cases hs
  · exact h.innermost
  · intro frame hm
    cases hbridges : callback.bridges with
    | true => exact hok hbridges frame hm
    | false =>
      cases hflag : thread.locals.inBridge with
      | true =>
        rw [advance_of_not_bridges hbridges hflag] at hask
        cases hask
      | false =>
        rw [h.flag_iff, List.any_eq_false] at hflag
        exact Bool.eq_false_of_not_eq_true (hflag frame hm)

theorem innermost_reply {frame : Frame Locals Answer Callback} {program : Code Unit}
    {below : List (Frame Locals Answer Callback)} {locals : Locals}
    (hbelow : ∀ g ∈ below, g.callback.bridges = false)
    (hs : resume frame.callback below program locals = some thread') :
    ∀ g ∈ thread'.frames.tail, g.callback.bridges = false := by
  obtain ⟨-, rfl⟩ | ⟨request, next, -, rfl⟩ := resume_cases hs
  · exact fun g hm => hbelow g (List.mem_of_mem_tail hm)
  · exact hbelow

theorem inv_step {a : Action Answer Callback} (h : Inv thread) (hok : Admits thread a)
    (hs : step thread a = some thread') : Inv thread' := by
  obtain ⟨hresumes, hstack⟩ := stack_step ⟨h.resumes, h.stack⟩
    (fun callback ha => within_call h (ha ▸ hok)) hs
  refine ⟨hresumes, hstack, ?_⟩
  cases a with
  | call callback =>
    simp only [step, Reentrant.step] at hs
    split at hs
    · exact innermost_call h hok hs
    · cases hs
  | reply answers =>
    simp only [step, Reentrant.step] at hs
    split at hs
    next frame below hframes =>
      refine innermost_reply (fun g hm => h.innermost g ?_) hs
      rw [hframes]
      exact hm
    next => cases hs

/-- A callback that is triggered while another holds the guard clears the flag under it. -/
theorem not_guarded_of_not_admits {a : Action Answer Callback} (h : Inv thread)
    (hno : ¬ Admits thread a) (hs : step thread a = some thread') : ¬ Guarded thread' := by
  cases a with
  | reply answers => exact absurd trivial hno
  | call callback =>
    obtain ⟨hbridges, frame, hm, hframe⟩ : callback.bridges = true ∧
        ∃ frame ∈ thread.frames, frame.callback.bridges = true := by
      simpa [Admits] using hno
    have hany : (thread.frames.any fun frame => frame.callback.bridges) = true :=
      List.any_eq_true.mpr ⟨frame, hm, hframe⟩
    obtain ⟨body, hcode, -⟩ := exists_code_bridged hbridges
    have hreturn : resume callback thread.frames callback.code thread.locals =
        some ⟨{ thread.locals with inBridge := false }, thread.frames⟩ := by
      rw [resume, hcode, advance_bridged (h.flag_iff.trans hany)]
    simp only [step, Reentrant.step] at hs
    split at hs
    · rw [hreturn] at hs
      cases hs
      intro hguarded
      have hflag := hguarded.flag
      rw [hany] at hflag
      cases hflag
    · cases hs

/-- **The bridge does not recurse** in exactly those runs in which no callback that enters the guard
is triggered while another one runs. -/
theorem never_recurses_iff (actions : List (Action Answer Callback)) :
    Transition.Throughout step Guarded initial actions ↔
      Transition.Admitted step Admits initial actions :=
  Transition.throughout_iff_admitted (fun _ h => h.guarded)
    (fun _ _ _ h hok hs => inv_step h hok hs)
    (fun _ _ _ h hno hs => not_guarded_of_not_admits h hno hs) Inv.initial

/-! ## A field that logs twice while it is formatted -/

/-- No span is found, local fields are wanted, and nothing else is known. -/
def plainAnswers : (request : Request) → Answer request
  | .span _ | .currentSpan | .eventSpan => none
  | .interest _ | .contextualInterest _ _ => Interest.CORE_LOCAL
  | .captureContext | .createContext _ _ => .none
  | .enterContext _ => none
  | .formatField _ => ""
  | .insertState _ _ | .linkContext _ _ | .exitContext _ | .emit _ => ()

def checkout : TracingMetadata := { level := .info, target := "shop", name := "checkout" }

/-- The `Debug` of `cart` logs twice: the first event is rejected, the second goes through. -/
def cartLogsTwice : List (Action Answer Callback) :=
  [.call (.event checkout ["cart"]), .reply plainAnswers, .reply plainAnswers, .reply plainAnswers,
    .call (.event checkout []), .call (.event checkout []), .reply plainAnswers,
    .reply plainAnswers, .reply plainAnswers, .reply plainAnswers, .reply plainAnswers]

/-- The second event a field logs reaches `Callsite::emit` while the outer event is formatted. -/
theorem nested_event_imported : ∃ thread,
    Transition.run step initial cartLogsTwice = some thread ∧
      thread.frames.map (fun frame => (frame.callback.bridges, frame.request.isImport)) =
        [(true, true), (true, false)] ∧ ¬ Guarded thread := by
  refine ⟨_, rfl, rfl, fun hguarded => ?_⟩
  have hnested := hguarded.nested [_] _ [] rfl rfl _ (List.mem_singleton_self _)
  exact Bool.false_ne_true hnested.symm

end Bridge

end Logwise.Tracing
