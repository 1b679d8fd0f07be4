import Logwise.Log.Guard
import Logwise.Runtime.Gating

/-!
# What a log record becomes

The log bridge over a runtime: `enabled` and the two masks `log` asks for decide whether a record
is imported at all. They lose no record a sink would have been handed, and no sink that is handed
one is remote.
-/

namespace Logwise.Log

open Reentrant

/-- What answers the bridge: the call site of the record's level, the runtime with the calling
thread, and how often the clock has been read. -/
structure Served where
  site : Callsite
  process : Process
  asked : ℕ

/-- The runtime behind the facade, at the instants `clock` shows. -/
def handle (platform : Platform) (clock : ℕ → Instant) (reactions : List Reaction) :
    (request : Request) → Served → Option (Answer request × Served)
  | .interest _, served =>
    (served.site.interest platform.usizeBits
      (some (Runtime.dispatch platform (clock served.asked) reactions)) served.process).map
        fun (mask, site, process) => (some mask, ⟨site, process, served.asked + 1⟩)
  | .captureContext, served => some (some served.process.thread.currentContext, served)
  | .contextualInterest metadata context, served =>
    ((Runtime.dispatch platform (clock served.asked) reactions).contextualInterest metadata context
      served.process).map fun (mask, process) =>
        (some mask, ⟨served.site, process, served.asked + 1⟩)
  | .emit event, served =>
    ((Runtime.dispatch platform (clock served.asked) reactions).emit event served.process).map
      fun process => (some (), ⟨served.site, process, served.asked + 1⟩)

variable {platform : Platform} {clock : ℕ → Instant} {reactions : List Reaction}
  {served served' : Served} {record : Record}

/-! ## The bridge, answered at once -/

section Answered

variable {α β : Type} {inBridge : Bool}

theorem answered_run_bind {code : Code α} {f : α → Code β} :
    (code >>= f).run.answered (handle platform clock reactions) inBridge served =
      (code.run.answered (handle platform clock reactions) inBridge served).bind
        fun (value, inBridge, served) => value.elim (some (none, inBridge, served)) fun value =>
          (f value).run.answered (handle platform clock reactions) inBridge served := by
  have hrun : (code >>= f).run = code.run >>= fun value =>
      value.elim (pure none) fun value => (f value).run := run_bind
  rw [hrun, Program.answered_bind]
  congr 1
  funext answered
  obtain ⟨value, inBridge, served⟩ := answered
  cases value <;> rfl

theorem answered_run_ask {request : Request} :
    (ask request).run.answered (handle platform clock reactions) inBridge served =
      (handle platform clock reactions request served).map fun (answer, served) =>
        (answer, inBridge, served) :=
  Program.answered_request

theorem answered_enabled (level : Level) :
    (enabled level).run.answered (handle platform clock reactions) false served =
      (handle platform clock reactions (.interest (selected level)) served).map
        fun (answer, served) => (answer.map Interest.any, false, served) := by
  show (ask (.interest (selected level)) >>= _).run.answered _ _ _ = _
  rw [answered_run_bind, answered_run_ask]
  cases handle platform clock reactions (.interest (selected level)) served with
  | none => rfl
  | some answered =>
    obtain ⟨answer, served⟩ := answered
    cases answer <;> rfl

theorem answered_bridged (body : Code Unit) :
    (bridged body).run.answered (handle platform clock reactions) false served =
      (body.run.answered (handle platform clock reactions) true served).map
        fun (returned, _, served) => (returned, false, served) := by
  show (body.run >>= fun returned => _).answered _ _ _ = _
  rw [Program.answered_bind]
  show (body.run.answered _ true _).bind _ = _
  cases body.run.answered (handle platform clock reactions) true served <;> rfl

end Answered

/-! ## The masks -/

/-- The runtime has only been asked for masks, up to some instant. -/
structure Asked (platform : Platform) (clock : ℕ → Instant) (record : Record) (thread : Thread)
    (rt : Runtime) (served : Served) : Prop where
  metadata : served.site.metadata = selected record.level
  sound : Runtime.Sound platform served.process.runtime
  coherent : served.site.Coherent platform served.process.runtime
  thread : served.process.thread = thread
  delivered : served.process.delivered = []
  sinks : served.process.runtime.sinks = rt.sinks
  contexts : served.process.runtime.contexts = rt.contexts
  requested : ∀ context now, clock served.asked ≤ now →
    served.process.runtime.requested platform (selected record.level) context now =
      rt.requested platform (selected record.level) context now
  generation : served.process.runtime.generation ≤ rt.generation + served.asked

variable {thread : Thread} {rt : Runtime}

/-- A mask is the one the runtime has for the site, and no question changes what is requested. -/
theorem Asked.interest (h : Asked platform clock record thread rt served) (hclock : Monotone clock)
    {answer : Answer (.interest (selected record.level))}
    (hs : handle platform clock reactions (.interest (selected record.level)) served =
      some (answer, served')) :
    answer = some (served'.process.runtime.staticInterest platform (selected record.level)) ∧
      Asked platform clock record thread rt served' := by
  obtain ⟨⟨mask, site, process⟩, hmask, he⟩ := Option.map_eq_some_iff.mp hs
  cases he
  obtain ⟨hstatic, hthread, hdelivered, hmetadata, hcoherent, hsinks, hcontexts, hrequested, -,
    hsound⟩ := Runtime.callsite_interest_eq_some rfl h.sound h.coherent hmask
  refine ⟨congrArg some (h.metadata ▸ hstatic), ?_⟩
  exact {
    metadata := hmetadata.trans h.metadata
    sound := hsound
    coherent := hcoherent
    thread := hthread.trans h.thread
    delivered := hdelivered.trans h.delivered
    sinks := hsinks.trans h.sinks
    contexts := hcontexts.trans h.contexts
    requested := fun context now hnow => by
      have hle : clock served.asked ≤ now := (hclock (Nat.le_succ _)).trans hnow
      rw [hrequested _ _ _ hle, h.requested _ _ hle]
    generation := by
      have hle := Runtime.callsite_interest_generation_le h.sound hmask
      have hbefore := h.generation
      show process.runtime.generation ≤ rt.generation + (served.asked + 1)
      omega }

/-- The second mask is what is requested in the context of the call. -/
theorem Asked.contextualInterest (h : Asked platform clock record thread rt served)
    {context : ContextToken} {cached : Interest} {inBridge flag : Bool}
    {answer : Option Interest}
    (hcached : cached = served.process.runtime.staticInterest platform (selected record.level))
    (hs : (contextualInterest (selected record.level) cached context).run.answered
      (handle platform clock reactions) inBridge served = some (answer, flag, served')) :
    flag = inBridge ∧ served'.process.thread = thread ∧ served'.process.delivered = [] ∧
      served'.process.runtime.sinks = rt.sinks ∧ served'.process.runtime.contexts = rt.contexts ∧
      answer = some (rt.requested platform (selected record.level) context (clock served.asked)) := by
  have hmask : ∀ mask process, served.site.contextualInterest
      (some (Runtime.dispatch platform (clock served.asked) reactions)) cached context
        served.process = some (mask, process) →
      process.thread = thread ∧ process.delivered = [] ∧ process.runtime.sinks = rt.sinks ∧
        process.runtime.contexts = rt.contexts ∧
        mask = rt.requested platform (selected record.level) context (clock served.asked) := by
    intro mask process hq
    obtain ⟨hmask, hthread, hdelivered, hsinks, hcontexts, -, -⟩ :=
      Runtime.callsite_contextualInterest_eq_some h.sound (h.metadata ▸ hcached) hq
    refine ⟨hthread.trans h.thread, hdelivered.trans h.delivered, hsinks.trans h.sinks,
      hcontexts.trans h.contexts, ?_⟩
    rw [hmask, h.metadata, h.requested _ _ le_rfl]
  by_cases hcontextual : cached.isContextual = true
  · rw [Log.contextualInterest, if_pos hcontextual] at hs
    obtain ⟨⟨reply, last⟩, hreply, he⟩ := Option.map_eq_some_iff.mp (answered_run_ask.symm.trans hs)
    cases he
    obtain ⟨⟨mask, process⟩, hprocess, he⟩ := Option.map_eq_some_iff.mp hreply
    cases he
    obtain ⟨hthread, hdelivered, hsinks, hcontexts, rfl⟩ := hmask mask process (by
      rw [Callsite.contextualInterest, if_pos hcontextual, h.metadata]
      exact hprocess)
    exact ⟨rfl, hthread, hdelivered, hsinks, hcontexts, rfl⟩
  · rw [Log.contextualInterest, if_neg hcontextual] at hs
    cases hs
    obtain ⟨hthread, hdelivered, hsinks, hcontexts, hrequested⟩ := hmask cached served.process (by
      rw [Callsite.contextualInterest, if_neg hcontextual])
    exact ⟨rfl, hthread, hdelivered, hsinks, hcontexts, congrArg some hrequested⟩


/-! ## What the masks decide -/

/-- A view that is not remote wants the fields of every record. -/
theorem sinkInterest_wants_local {capability : Capability} (level : DetailLevel)
    (h : capability ≠ .remote) : (sinkInterest capability level).wants .localOnly .core = true := by
  cases capability with
  | remote => exact absurd rfl h
  | localRetained => cases level <;> decide
  | trustedEphemeral => cases level <;> decide

/-- A record nobody requested selects no sink. -/
theorem selectedSinks_of_unwanted {context : ContextToken} {now : Instant}
    {sinks : List SinkRegistration}
    (hunwanted : (rt.requested platform (selected record.level) context now).wants .localOnly
      .core = false)
    (h : Runtime.selectedSinks platform (record.imported context) rt = some sinks) : sinks = [] := by
  apply List.eq_nil_iff_forall_not_mem.mpr
  intro sink hm
  have hlocal : sink.capability ≠ .remote := fun hremote =>
    Runtime.selectedSinks_not_adHoc_remote h hm ⟨(record.imported_localOnly context).1, hremote⟩
  have hwanted : (rt.requested platform (selected record.level) context now).wants .localOnly
      .core = true :=
    Runtime.requested_wants.mpr (Or.inr (Or.inr ⟨sink, Runtime.mem_sinksFor_of_selected h hm,
      sinkInterest_wants_local _ hlocal⟩))
  rw [hunwanted] at hwanted
  cases hwanted

/-- An empty mask needs no refinement, and nothing is requested in any context. -/
theorem requested_of_static_empty {metadata : Metadata} (context : ContextToken) (now : Instant)
    (h : (rt.staticInterest platform metadata).any = false) :
    (rt.requested platform metadata context now).wants .localOnly .core = false := by
  have hcontextual : (rt.staticInterest platform metadata).isContextual = false := by
    by_contra hne
    rw [Interest.any_of_isContextual (Bool.eq_true_of_not_eq_false hne)] at h
    cases h
  rw [← Runtime.staticInterest_eq_requested hcontextual context now]
  by_contra hne
  rw [Interest.any_of_wants .localOnly .core (Bool.eq_true_of_not_eq_false hne)] at h
  cases h

/-- With the guard held, what is handed out is what an emission of the record hands out. -/
theorem Asked.deliver (h : Asked platform clock record thread rt served) (hclock : Monotone clock)
    (hidle : thread.inDispatch = false) {returned : Option Unit} {flag : Bool} {outcome : Outcome}
    (hs : (do
        let cached ← ask (.interest (selected record.level))
        let context ← ask .captureContext
        let interest ← Log.contextualInterest (selected record.level) cached context
        Log.deliver record context interest : Code Unit).run.answered
      (handle platform clock reactions) true served = some (returned, flag, served'))
    (hplain : Runtime.emit platform (record.imported thread.currentContext) reactions thread rt =
      some outcome) : served'.process.delivered = outcome.deliveries := by
  obtain ⟨sinks, hsel, hsent, -⟩ := Runtime.deliveries_of_emit hidle hplain
  rw [answered_run_bind, answered_run_ask] at hs
  obtain ⟨⟨cached, inBridge, served₁⟩, hfirst, hs⟩ := Option.bind_eq_some_iff.mp hs
  obtain ⟨⟨answer, served₁⟩, hfirst, he⟩ := Option.map_eq_some_iff.mp hfirst
  cases he
  obtain ⟨rfl, h₁⟩ := h.interest hclock hfirst
  dsimp only [Option.elim_some] at hs
  rw [answered_run_bind, answered_run_ask] at hs
  obtain ⟨⟨context, inBridge, served₂⟩, hcapture, hs⟩ := Option.bind_eq_some_iff.mp hs
  cases hcapture
  dsimp only [Option.elim_some] at hs
  rw [answered_run_bind] at hs
  obtain ⟨⟨answer, inBridge, served₂⟩, hsecond, hs⟩ := Option.bind_eq_some_iff.mp hs
  obtain ⟨rfl, hthread, hdelivered, hsinks, hcontexts, rfl⟩ := h₁.contextualInterest rfl hsecond
  dsimp only [Option.elim_some] at hs
  rw [h₁.thread, deliver_eq] at hs
  by_cases hwanted : (rt.requested platform (selected record.level)
      served₁.process.thread.currentContext (clock served₁.asked)).wants .localOnly .core = true
  · rw [h₁.thread] at hwanted
    rw [if_pos hwanted, answered_run_ask] at hs
    obtain ⟨⟨answer, last⟩, hemit, he⟩ := Option.map_eq_some_iff.mp hs
    cases he
    obtain ⟨process, hprocess, he⟩ := Option.map_eq_some_iff.mp hemit
    cases he
    obtain ⟨own, hown, rfl⟩ := Option.map_eq_some_iff.mp hprocess
    obtain ⟨sinks', hsel', hsent', -⟩ := Runtime.deliveries_of_emit (hthread ▸ hidle) hown
    rw [Runtime.selectedSinks_of_config hsinks hcontexts, hsel] at hsel'
    cases hsel'
    rw [hdelivered, hsent, hsent', List.nil_append]
  · rw [h₁.thread] at hwanted
    rw [if_neg hwanted] at hs
    cases hs
    rw [hdelivered, hsent, selectedSinks_of_unwanted (Bool.eq_false_of_not_eq_true hwanted) hsel,
      List.map_nil]

/-- **Importing is emitting**: whatever the record, the sinks of a runtime are handed what they
would be had the bridge not asked for masks first. -/
theorem Asked.log (h : Asked platform clock record thread rt served) (hclock : Monotone clock)
    (hidle : thread.inDispatch = false) {returned : Option Unit} {flag : Bool} {outcome : Outcome}
    (hs : (Log.log record).run.answered (handle platform clock reactions) false served =
      some (returned, flag, served'))
    (hplain : Runtime.emit platform (record.imported thread.currentContext) reactions thread rt =
      some outcome) :
    flag = false ∧ served'.process.delivered = outcome.deliveries := by
  rw [Log.log, answered_run_bind, answered_enabled] at hs
  obtain ⟨⟨wanted, inBridge, served₁⟩, henabled, hs⟩ := Option.bind_eq_some_iff.mp hs
  obtain ⟨⟨answer, served₁⟩, hfirst, he⟩ := Option.map_eq_some_iff.mp henabled
  cases he
  obtain ⟨rfl, h₁⟩ := h.interest hclock hfirst
  dsimp only [Option.map_some, Option.elim_some] at hs
  cases hany : (served₁.process.runtime.staticInterest platform (selected record.level)).any with
  | false =>
    obtain ⟨sinks, hsel, hsent, -⟩ := Runtime.deliveries_of_emit hidle hplain
    have hunwanted := requested_of_static_empty thread.currentContext (clock served₁.asked) hany
    rw [h₁.requested _ _ le_rfl] at hunwanted
    rw [hany] at hs
    cases hs
    rw [h₁.delivered, hsent, selectedSinks_of_unwanted hunwanted hsel, List.map_nil]
    exact ⟨rfl, rfl⟩
  | true =>
    rw [hany, if_pos rfl, answered_bridged] at hs
    obtain ⟨⟨returned, flag, last⟩, hbody, he⟩ := Option.map_eq_some_iff.mp hs
    cases he
    exact ⟨rfl, h₁.deliver hclock hidle hbody hplain⟩

/-! ## The bridge returns -/

theorem Asked.interest_isSome (h : Asked platform clock record thread rt served)
    (reactions : List Reaction) (hg : rt.generation + served.asked + 1 < platform.usizeMax) :
    ∃ answer served', handle platform clock reactions (.interest (selected record.level)) served =
      some (answer, served') ∧ served'.asked = served.asked + 1 := by
  have hle := h.generation
  obtain ⟨⟨mask, site, process⟩, hmask⟩ := Option.isSome_iff_exists.mp
    (Runtime.callsite_interest_isSome platform served.site (clock served.asked) reactions
      served.process (by omega))
  refine ⟨some mask, ⟨site, process, served.asked + 1⟩, ?_, rfl⟩
  show Option.map _ _ = _
  rw [hmask]
  rfl

theorem Asked.contextualInterest_isSome (h : Asked platform clock record thread rt served)
    (ha : Acyclic rt.contexts) (reactions : List Reaction)
    (hg : rt.generation + served.asked + 1 < platform.usizeMax) (cached : Interest)
    (context : ContextToken) (inBridge : Bool) :
    ((Log.contextualInterest (selected record.level) cached context).run.answered
      (handle platform clock reactions) inBridge served).isSome := by
  have hle := h.generation
  by_cases hcontextual : cached.isContextual = true
  · obtain ⟨⟨mask, process⟩, hmask⟩ := Option.isSome_iff_exists.mp
      (Runtime.callsite_contextualInterest_isSome served.site context (clock served.asked) cached
        reactions h.sound (h.contexts ▸ ha) (by omega))
    rw [Callsite.contextualInterest, if_pos hcontextual, h.metadata] at hmask
    rw [Log.contextualInterest, if_pos hcontextual]
    refine (congrArg Option.isSome answered_run_ask).trans ?_
    rw [Option.isSome_map]
    show (Option.map _ _).isSome = true
    rw [hmask]
    rfl
  · rw [Log.contextualInterest, if_neg hcontextual]
    rfl

theorem deliver_isSome (ha : Acyclic served.process.runtime.contexts) (reactions : List Reaction)
    (context : ContextToken) (interest : Interest) (inBridge : Bool) :
    ((Log.deliver record context interest).run.answered (handle platform clock reactions) inBridge
      served).isSome := by
  rw [deliver_eq]
  by_cases hwanted : interest.wants .localOnly .core = true
  · have hout : (Runtime.emit platform (record.imported context) reactions served.process.thread
        served.process.runtime).isSome := Runtime.emit_isSome ha
    rw [if_pos hwanted, answered_run_ask, Option.isSome_map]
    show (Option.map _ (Option.map _ _)).isSome = true
    rw [Option.isSome_map, Option.isSome_map]
    exact hout
  · rw [if_neg hwanted]
    rfl

/-- A record is imported or turned away where no lineage is circular and the generations last. -/
theorem Asked.log_isSome (h : Asked platform clock record thread rt served)
    (hclock : Monotone clock) (ha : Acyclic rt.contexts) (reactions : List Reaction)
    (hg : rt.generation + served.asked + 3 < platform.usizeMax) :
    ((Log.log record).run.answered (handle platform clock reactions) false served).isSome := by
  obtain ⟨answer₁, served₁, hfirst, hasked₁⟩ := h.interest_isSome reactions (by omega)
  obtain ⟨rfl, h₁⟩ := h.interest hclock hfirst
  obtain ⟨answer₂, served₂, hsecond, hasked₂⟩ := h₁.interest_isSome reactions (by omega)
  obtain ⟨rfl, h₂⟩ := h₁.interest hclock hsecond
  rw [Log.log, answered_run_bind, answered_enabled, hfirst]
  dsimp only [Option.map_some, Option.bind_some, Option.elim_some]
  cases (served₁.process.runtime.staticInterest platform (selected record.level)).any with
  | false => rfl
  | true =>
    obtain ⟨⟨answer₃, inBridge, served₃⟩, hthird⟩ := Option.isSome_iff_exists.mp
      (h₂.contextualInterest_isSome ha reactions (by omega)
        (served₂.process.runtime.staticInterest platform (selected record.level))
        served₂.process.thread.currentContext true)
    obtain ⟨-, -, -, -, hcontexts, rfl⟩ := h₂.contextualInterest rfl hthird
    rw [if_pos rfl, answered_bridged, Option.isSome_map, answered_run_bind, answered_run_ask,
      hsecond]
    dsimp only [Option.map_some, Option.bind_some, Option.elim_some]
    rw [answered_run_bind, answered_run_ask]
    dsimp only [handle, Option.map_some, Option.bind_some, Option.elim_some]
    rw [answered_run_bind, hthird, Option.bind_some]
    exact deliver_isSome (hcontexts ▸ ha) reactions _ _ _

/-- The bridge over a machine, before it asks. -/
def Served.start (m : Machine) (i : ℕ) (thread : Thread) : Served :=
  { site := m.sites i
    process := { runtime := m.runtime, thread := thread, delivered := [] }
    asked := 0 }

theorem asked_start {schema : ℕ → Metadata} {m : Machine} (hc : m.Coherent platform schema)
    {i : ℕ} (hsite : schema i = selected record.level) :
    Asked platform clock record thread m.runtime (Served.start m i thread) :=
  { metadata := (hc.metadata i).trans hsite
    sound := hc.sound
    coherent := hc.sites i
    thread := rfl
    delivered := rfl
    sinks := rfl
    contexts := rfl
    requested := fun _ _ _ => rfl
    generation := le_rfl }

/-- **The bridge loses nothing and exports nothing**: in every state of every run of a runtime a
record that is logged outside a dispatch is handed to exactly the sinks an emission of it would be
handed to, none of them remote, and the guard is free again; neither loses the other's return where
no lineage is circular and the generations last. -/
theorem import_plain (platform : Platform) (schema : ℕ → Metadata) (m : Machine)
    (hreach : Machine.Reachable platform schema m) (record : Record) (i : ℕ)
    (hsite : schema i = selected record.level) (thread : Thread)
    (hidle : thread.inDispatch = false) (clock : ℕ → Instant) (hclock : Monotone clock)
    (reactions : List Reaction) :
    (∀ returned flag last outcome,
      (log record).run.answered (handle platform clock reactions) false (Served.start m i thread) =
        some (returned, flag, last) →
      Runtime.emit platform (record.imported thread.currentContext) reactions thread m.runtime =
        some outcome →
      flag = false ∧ last.process.delivered = outcome.deliveries ∧
        ∀ delivery ∈ last.process.delivered, delivery.registration.capability ≠ .remote) ∧
    (Acyclic m.runtime.contexts → m.runtime.generation + 3 < platform.usizeMax →
      ((log record).run.answered (handle platform clock reactions) false
        (Served.start m i thread)).isSome ∧
      (Runtime.emit platform (record.imported thread.currentContext) reactions thread
        m.runtime).isSome) := by
  have hasked : Asked platform clock record thread m.runtime (Served.start m i thread) :=
    asked_start hreach.coherent hsite
  refine ⟨fun returned flag last outcome hs hplain => ?_, fun ha hg => ?_⟩
  · obtain ⟨hflag, hsame⟩ := hasked.log hclock hidle hs hplain
    refine ⟨hflag, hsame, fun delivery hm hremote => ?_⟩
    rw [hsame] at hm
    obtain ⟨sinks, hsel, hreg, -⟩ := Runtime.emit_delivery hplain hm
    exact Runtime.selectedSinks_not_adHoc_remote hsel hreg
      ⟨(record.imported_localOnly thread.currentContext).1, hremote⟩
  · exact ⟨hasked.log_isSome hclock ha reactions hg, Runtime.emit_isSome ha⟩

/-- **The import as the thread runs it**: called with nothing in progress, and given the answers of
the runtime. -/
theorem log_run {returned : Option Unit} {flag : Bool}
    (h : (log record).run.answered (handle platform clock reactions) false served =
      some (returned, flag, served')) :
    ∃ replies : List ((request : Request) → Answer request),
      Transition.run Bridge.step Bridge.initial
        (.call (.log record) :: replies.map Reentrant.Action.reply) = some ⟨flag, []⟩ := by
  have hcode : (Callback.log record).code.answered (handle platform clock reactions) false served =
      some ((), flag, served') := by
    rw [Callback.code, Program.answered_bind, h]
    rfl
  obtain ⟨thread, replies, hresume, hrun⟩ :=
    exists_run_of_answered Callback.code (fun _ => true) Bridge.plainAnswers hcode
  refine ⟨replies, ?_⟩
  have hcall : Bridge.step Bridge.initial (.call (.log record)) = some thread := hresume
  rw [Transition.run, hcall]
  exact hrun

/-- A remote and a local sink. -/
def twoViews : Machine :=
  (Transition.run (Machine.step .native64) (Machine.initial .native64 fun _ => selected .info)
    [.perform (.addRemoteSink ⟨0⟩ Filter.new .core),
      .perform (.addLocalSink ⟨1⟩ Filter.new .core)]).getD
        (Machine.initial .native64 fun _ => selected .info)

/-- The local one is handed the record. -/
theorem import_plain_checkout : ∃ last outcome,
    Machine.Reachable .native64 (fun _ => selected .info) twoViews ∧
    twoViews.runtime.sinks.length = 2 ∧
    (log Bridge.checkout).run.answered (handle .native64 (fun _ => 0) []) false
      (Served.start twoViews 0 ⟨.none, false⟩) = some (some (), false, last) ∧
    Runtime.emit .native64 (Bridge.checkout.imported .none) [] ⟨.none, false⟩ twoViews.runtime =
      some outcome ∧
    last.process.delivered = outcome.deliveries ∧ outcome.deliveries.length = 1 := by
  have hreach : Machine.Reachable .native64 (fun _ => selected .info) twoViews :=
    Transition.reaches_of_run_always [.perform (.addRemoteSink ⟨0⟩ Filter.new .core),
      .perform (.addLocalSink ⟨1⟩ Filter.new .core)] rfl
  have himport := import_plain .native64 _ twoViews hreach Bridge.checkout 0 rfl ⟨.none, false⟩ rfl
    (fun _ => 0) monotone_const []
  have hrun : ((log Bridge.checkout).run.answered (handle .native64 (fun _ => 0) []) false
      (Served.start twoViews 0 ⟨.none, false⟩)).map (fun answered => (answered.1, answered.2.1)) =
        some (some (), false) := rfl
  have hemit : (Runtime.emit .native64 (Bridge.checkout.imported .none) [] ⟨.none, false⟩
      twoViews.runtime).map (fun outcome => outcome.deliveries.length) = some 1 := rfl
  obtain ⟨⟨returned, flag, last⟩, hlast, he⟩ := Option.map_eq_some_iff.mp hrun
  obtain ⟨outcome, hout, hlength⟩ := Option.map_eq_some_iff.mp hemit
  cases he
  exact ⟨last, outcome, hreach, rfl, hlast, hout, (himport.1 _ _ _ _ hlast hout).2.1, hlength⟩

end Logwise.Log
