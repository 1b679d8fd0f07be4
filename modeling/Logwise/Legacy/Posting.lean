import Logwise.Legacy.GlobalLoggers

/-!
# Posting a record

The `*_post` functions of `dispatch.rs`: a copy of the global list is taken, and each logger of it is
given the record. A logger is user code. Between any two steps others, and the logger itself, may
post and may change the list; a logger may unwind, and a future of an asynchronous post may be
dropped while it waits for a logger.
-/

namespace Logwise.Legacy.Posting

open Logwise.Legacy.GlobalLoggers

inductive Phase where
  /-- In `global_loggers()`. -/
  | getting
  | sending (pending : List Logger)
  /-- Inside a logger, with `pending` left in the list. -/
  | inLogger (pending : List Logger)
  | returned
  | unwound
  deriving DecidableEq

structure Post where
  record : LogRecord
  /-- The call of `global_loggers()`. -/
  caller : ℕ
  phase : Phase
  deriving DecidableEq

/-- One call of `finish_log_record` or `finish_log_record_async`. -/
structure Handed where
  post : ℕ
  logger : Logger
  record : LogRecord
  deriving DecidableEq

structure System where
  registry : Registry
  posts : List Post
  handed : List Handed
  deriving DecidableEq

def init : System := { registry := Registry.init, posts := [], handed := [] }

inductive Action where
  /-- Any step of any call on the global list. -/
  | registry (action : Registry.Action)
  | post (record : LogRecord)
  | receive (p : ℕ)
  | send (p : ℕ)
  | returns (p : ℕ)
  | unwinds (p : ℕ)
  | finish (p : ℕ)

/-- What `global_loggers()` returns to the caller, once it has. -/
def received (r : Registry) (i : ℕ) : Option (List Logger) :=
  match r.cell with
  | .full session =>
    r.callers[i]?.bind fun caller =>
      caller.place.bind fun k =>
        if caller.op = .globalLoggers ∧ session.lock.calls[k]? = some (.done false) then
          session.history.jobs[k]?.bind History.Job.answer
        else none
  | _ => none

/-- `record.clone_for_logger(logger.as_ref())`. -/
def handing (record : LogRecord) (logger : Logger) : Logger × LogRecord :=
  (logger, record.cloneForLogger logger.privacy)

def System.move (p : ℕ) (post : Post) (phase : Phase) (s : System) : System :=
  { s with posts := s.posts.set p { post with phase := phase } }

def step (s : System) : Action → Option System
  | .registry action => (Registry.step s.registry action).map fun r => { s with registry := r }
  | .post record =>
    some { s with
      registry := { s.registry with
        callers := s.registry.callers ++ [{ op := .globalLoggers, place := none }] }
      posts := s.posts ++
        [{ record := record, caller := s.registry.callers.length, phase := .getting }] }
  | .receive p =>
    s.posts[p]?.bind fun post =>
      match post.phase with
      | .getting => (received s.registry post.caller).map fun loggers =>
          s.move p post (.sending loggers)
      | _ => none
  | .send p =>
    s.posts[p]?.bind fun post =>
      match post.phase with
      | .sending (logger :: pending) =>
        let (logger, record) := handing post.record logger
        some { s.move p post (.inLogger pending) with
          handed := s.handed ++ [{ post := p, logger := logger, record := record }] }
      | _ => none
  | .returns p =>
    s.posts[p]?.bind fun post =>
      match post.phase with
      | .inLogger pending => some (s.move p post (.sending pending))
      | _ => none
  | .unwinds p =>
    s.posts[p]?.bind fun post =>
      match post.phase with
      | .inLogger _ => some (s.move p post .unwound)
      | _ => none
  | .finish p =>
    s.posts[p]?.bind fun post =>
      match post.phase with
      | .sending [] => some (s.move p post .returned)
      | _ => none

/-- The loggers a post has been handed to, in order, each with what it was given. -/
def System.handedBy (s : System) (p : ℕ) : List (Logger × LogRecord) :=
  (s.handed.filter fun h => h.post == p).map fun h => (h.logger, h.record)

def Phase.pending : Phase → List Logger
  | .sending pending | .inLogger pending => pending
  | _ => []

/-! ## What one step does -/

inductive Moves (s : System) : System → Prop where
  | registry (r : Registry) (hmoves : Registry.Moves s.registry r) :
    Moves s { s with registry := r }
  | post (record : LogRecord) :
    Moves s
      { s with
        registry := { s.registry with
          callers := s.registry.callers ++ [{ op := .globalLoggers, place := none }] }
        posts := s.posts ++
          [{ record := record, caller := s.registry.callers.length, phase := .getting }] }
  | receive (p : ℕ) (post : Post) (loggers : List Logger) (hp : s.posts[p]? = some post)
    (hphase : post.phase = .getting)
    (hreceived : s.registry.Answered post.caller .globalLoggers loggers) :
    Moves s (s.move p post (.sending loggers))
  | send (p : ℕ) (post : Post) (logger : Logger) (pending : List Logger)
    (hp : s.posts[p]? = some post) (hphase : post.phase = .sending (logger :: pending)) :
    Moves s
      { s.move p post (.inLogger pending) with
        handed := s.handed ++
          [{ post := p, logger := logger, record := post.record.cloneForLogger logger.privacy }] }
  | aside (p : ℕ) (post : Post) (phase : Phase) (hp : s.posts[p]? = some post)
    (hout : post.phase ≠ .getting ∧ phase ≠ .getting)
    (hpending : phase = .unwound ∨ phase.pending = post.phase.pending ∧ post.phase ≠ .unwound) :
    Moves s (s.move p post phase)

theorem answered_of_received {r : Registry} {i : ℕ} {loggers : List Logger}
    (h : received r i = some loggers) : r.Answered i .globalLoggers loggers := by
  unfold received at h
  split at h
  next session hcell =>
    obtain ⟨⟨op, place⟩, hi, h⟩ := Option.bind_eq_some_iff.mp h
    obtain ⟨k, rfl, h⟩ := Option.bind_eq_some_iff.mp h
    split at h
    next hdone =>
      obtain ⟨job, hj, hr⟩ := Option.bind_eq_some_iff.mp h
      obtain ⟨rfl, hdone⟩ := hdone
      exact ⟨session, k, job, hcell, hi, hdone, hj, hr⟩
    next => cases h
  next => cases h

theorem moves_of_step {s t : System} {action : Action} (h : step s action = some t) :
    Moves s t := by
  cases action with
  | registry action =>
    obtain ⟨r, hr, rfl⟩ := Option.map_eq_some_iff.mp h
    exact .registry r (Registry.moves_of_step hr)
  | post record =>
    cases h
    exact .post record
  | receive p =>
    obtain ⟨post, hp, h⟩ := Option.bind_eq_some_iff.mp h
    split at h
    next hphase =>
      obtain ⟨loggers, hl, rfl⟩ := Option.map_eq_some_iff.mp h
      exact .receive p post loggers hp hphase (answered_of_received hl)
    next => cases h
  | send p =>
    obtain ⟨post, hp, h⟩ := Option.bind_eq_some_iff.mp h
    split at h
    next logger pending hphase =>
      cases h
      exact .send p post logger pending hp hphase
    next => cases h
  | returns p =>
    obtain ⟨post, hp, h⟩ := Option.bind_eq_some_iff.mp h
    split at h
    next pending hphase =>
      cases h
      refine .aside p post _ hp ⟨?_, Phase.noConfusion⟩ (Or.inr ⟨?_, ?_⟩)
      · rw [hphase]
        exact Phase.noConfusion
      · rw [hphase]
        rfl
      · rw [hphase]
        exact Phase.noConfusion
    next => cases h
  | unwinds p =>
    obtain ⟨post, hp, h⟩ := Option.bind_eq_some_iff.mp h
    split at h
    next pending hphase =>
      cases h
      refine .aside p post _ hp ⟨?_, Phase.noConfusion⟩ (Or.inl rfl)
      rw [hphase]
      exact Phase.noConfusion
    next => cases h
  | finish p =>
    obtain ⟨post, hp, h⟩ := Option.bind_eq_some_iff.mp h
    split at h
    next hphase =>
      cases h
      refine .aside p post _ hp ⟨?_, Phase.noConfusion⟩ (Or.inr ⟨?_, ?_⟩)
      · rw [hphase]
        exact Phase.noConfusion
      · rw [hphase]
        rfl
      · rw [hphase]
        exact Phase.noConfusion
    next => cases h

/-! ## The invariant -/

/-- What one post has done: nothing before it has the list, and then the list is what it has handed
out, what it will, and, should a logger have unwound, what it never will. -/
def Accounted (s : System) (p : ℕ) (post : Post) : Prop :=
  (post.phase = .getting → s.handedBy p = []) ∧
    (post.phase ≠ .getting → ∃ loggers missed : List Logger,
      s.registry.Answered post.caller .globalLoggers loggers ∧
        s.handedBy p ++ (post.phase.pending ++ missed).map (handing post.record) =
          loggers.map (handing post.record) ∧
        (post.phase ≠ .unwound → missed = []))

structure Ok (s : System) : Prop where
  registry : s.registry.Ok
  handed : ∀ h ∈ s.handed, h.post < s.posts.length
  accounted : ∀ (p : ℕ) (post : Post), s.posts[p]? = some post → Accounted s p post

theorem ok_init : Ok init := by
  refine ⟨Registry.ok_init, ?_, ?_⟩
  · intro h hm
    cases hm
  · intro p post hp
    cases hp

theorem Accounted.of_registry {s : System} {p : ℕ} {post : Post} {r : Registry}
    (h : Accounted s p post) (hok : s.registry.Ok) (hm : Registry.Moves s.registry r) :
    Accounted { s with registry := r } p post := by
  refine ⟨h.1, fun hphase => ?_⟩
  obtain ⟨loggers, missed, ha, hlist, hmissed⟩ := h.2 hphase
  exact ⟨loggers, missed, ha.step hok hm, hlist, hmissed⟩

theorem handedBy_concat (s : System) (posts : List Post) (h : Handed) (p : ℕ) :
    ({ s with posts := posts, handed := s.handed ++ [h] } : System).handedBy p =
      s.handedBy p ++ if h.post = p then [(h.logger, h.record)] else [] := by
  rw [System.handedBy, System.handedBy, List.filter_append, List.map_append, List.filter_singleton]
  congr 1
  by_cases hp : h.post = p
  · rw [if_pos hp, beq_iff_eq.mpr hp]
    rfl
  · rw [if_neg hp, beq_eq_false_iff_ne.mpr hp]
    rfl

theorem ok_of_moves {s t : System} (h : Ok s) (hm : Moves s t) : Ok t := by
  cases hm with
  | registry r hmoves =>
    exact ⟨Registry.ok_of_moves h.registry hmoves, h.handed,
      fun p post hp => (h.accounted p post hp).of_registry h.registry hmoves⟩
  | post record =>
    have hcall : Registry.Moves s.registry _ := .call .globalLoggers
    refine ⟨Registry.ok_of_moves h.registry hcall, ?_, ?_⟩
    · intro handed hin
      show handed.post < (s.posts ++ [_]).length
      rw [List.length_append]
      exact Nat.lt_succ_of_lt (h.handed handed hin)
    · intro p post hp
      by_cases hlt : p < s.posts.length
      · have hold : (s.posts ++ [_])[p]? = some post := hp
        rw [List.getElem?_append_left hlt] at hold
        exact (h.accounted p post hold).of_registry h.registry hcall
      · obtain hold | rfl := Slots.getElem?_append_cases hp
        · exact absurd (List.getElem?_eq_some_iff.mp hold).1 hlt
        · refine ⟨fun _ => ?_, fun hphase => absurd rfl hphase⟩
          -- nothing has been handed out for a post that was not there
          have hnone : s.handed.filter (fun handed => handed.post == p) = [] := by
            rw [List.filter_eq_nil_iff]
            intro handed hin he
            exact hlt (beq_iff_eq.mp he ▸ h.handed handed hin)
          show (s.handed.filter _).map _ = []
          rw [hnone]
          rfl
  | receive p post loggers hp hphase hreceived =>
    refine ⟨h.registry, ?_, ?_⟩
    · intro handed hin
      show handed.post < (s.posts.set p _).length
      rw [List.length_set]
      exact h.handed handed hin
    · intro q other hq
      obtain ⟨rfl, rfl⟩ | ⟨-, hold⟩ := Slots.getElem?_set_cases hq
      · refine ⟨nofun, fun _ => ⟨loggers, [], hreceived, ?_, fun _ => rfl⟩⟩
        show s.handedBy q ++ _ = _
        rw [(h.accounted q post hp).1 hphase, List.nil_append, List.append_nil]
        rfl
      · exact h.accounted q other hold
  | send p post logger pending hp hphase =>
    refine ⟨h.registry, ?_, ?_⟩
    · intro handed hin
      show handed.post < (s.posts.set p _).length
      rw [List.length_set]
      obtain hold | hnew := List.mem_append.mp hin
      · exact h.handed handed hold
      · rw [List.mem_singleton.mp hnew]
        exact (List.getElem?_eq_some_iff.mp hp).1
    · intro q other hq
      have hsent := handedBy_concat s (s.posts.set p { post with phase := .inLogger pending })
        { post := p, logger := logger, record := post.record.cloneForLogger logger.privacy } q
      obtain ⟨rfl, rfl⟩ | ⟨hne, hold⟩ := Slots.getElem?_set_cases hq
      · have hgot : post.phase ≠ .getting := by
          rw [hphase]
          exact Phase.noConfusion
        obtain ⟨loggers, missed, ha, hlist, hmissed⟩ := (h.accounted q post hp).2 hgot
        refine ⟨nofun, fun _ => ⟨loggers, missed, ha, ?_, fun _ => hmissed ?_⟩⟩
        · rw [hphase] at hlist
          show System.handedBy _ q ++ _ = _
          rw [← hlist]
          refine (congrArg (· ++ _) hsent).trans ?_
          rw [if_pos rfl, List.append_assoc]
          rfl
        · rw [hphase]
          exact Phase.noConfusion
      · rw [if_neg (Ne.symm hne), List.append_nil] at hsent
        obtain ⟨hbefore, hafter⟩ := h.accounted q other hold
        refine ⟨fun hget => hsent.trans (hbefore hget), fun hget => ?_⟩
        obtain ⟨loggers, missed, ha, hlist, hmissed⟩ := hafter hget
        exact ⟨loggers, missed, ha, (congrArg (· ++ _) hsent).trans hlist, hmissed⟩
  | aside p post phase hp hout hpending =>
    refine ⟨h.registry, ?_, ?_⟩
    · intro handed hin
      show handed.post < (s.posts.set p _).length
      rw [List.length_set]
      exact h.handed handed hin
    · intro q other hq
      obtain ⟨rfl, rfl⟩ | ⟨-, hold⟩ := Slots.getElem?_set_cases hq
      · obtain ⟨loggers, missed, ha, hlist, hmissed⟩ := (h.accounted q post hp).2 hout.1
        refine ⟨fun hget => absurd hget hout.2, fun _ => ?_⟩
        obtain rfl | ⟨hsame, hstill⟩ := hpending
        · exact ⟨loggers, post.phase.pending ++ missed, ha, hlist, fun hno => absurd rfl hno⟩
        · refine ⟨loggers, missed, ha, ?_, fun _ => hmissed hstill⟩
          show s.handedBy q ++ (phase.pending ++ missed).map _ = _
          rw [hsame]
          exact hlist
      · exact h.accounted q other hold

/-- A post made later asked for the list later. -/
structure Since (s t : System) : Prop where
  registry : s.registry.Since t.registry
  posts : ∀ (p : ℕ) (post : Post), s.posts.length ≤ p → t.posts[p]? = some post →
    s.registry.callers.length ≤ post.caller

theorem Since.refl {s : System} : Since s s := by
  refine ⟨Registry.Since.refl, fun p post hle hp => ?_⟩
  rw [List.getElem?_eq_none hle] at hp
  cases hp

theorem since_of_moves {s t u : System} (hs : Since s t) (h : Ok t) (hm : Moves t u) :
    Since s u := by
  have hset : ∀ {p : ℕ} {post : Post} {phase : Phase}, t.posts[p]? = some post →
      ∀ (q : ℕ) (other : Post), s.posts.length ≤ q →
        (t.posts.set p { post with phase := phase })[q]? = some other →
          s.registry.callers.length ≤ other.caller := by
    intro p post phase hp q other hle hq
    obtain ⟨rfl, rfl⟩ | ⟨-, hold⟩ := Slots.getElem?_set_cases hq
    · exact hs.posts q post hle hp
    · exact hs.posts q other hle hold
  cases hm with
  | registry r hmoves =>
    exact ⟨Registry.since_of_moves hs.registry h.registry hmoves, hs.posts⟩
  | post record =>
    refine ⟨Registry.since_of_moves hs.registry h.registry (.call .globalLoggers), ?_⟩
    intro p post hle hp
    obtain hold | rfl := Slots.getElem?_append_cases hp
    · exact hs.posts p post hle hold
    · exact hs.registry.callers
  | receive p post loggers hp => exact ⟨hs.registry, hset hp⟩
  | send p post logger pending hp => exact ⟨hs.registry, hset hp⟩
  | aside p post phase hp => exact ⟨hs.registry, hset hp⟩

theorem ok_of_reaches {s t : System} (h : Transition.Reaches step Transition.always s t)
    (hs : Ok s) : Ok t ∧ Since s t :=
  h.invariant (I := fun t => Ok t ∧ Since s t)
    (fun _ _ _ ht _ he =>
      ⟨ok_of_moves ht.1 (moves_of_step he), since_of_moves ht.2 ht.1 (moves_of_step he)⟩)
    ⟨hs, Since.refl⟩

/-- **A record is handed to each logger of the list at one moment of its post**, once and in order,
each with the copy for its privacy. Before the post has the list it has handed the record to nobody;
from then on it has handed it to a part of the list and goes on with the rest, all of it unless a
logger unwinds; the lock is not held for it while a logger runs. The list is the one that the
operations up to one place of their order leave, and the place is after everything that had taken
effect when the post was made. -/
theorem posts_handed {s t : System} (hs : Transition.Reaches step Transition.always init s)
    (ht : Transition.Reaches step Transition.always s t) {p : ℕ} {post : Post}
    (hp : t.posts[p]? = some post) :
    (post.phase = .getting → t.handedBy p = []) ∧
      (post.phase ≠ .getting →
        ∃ (session : Locked) (first : List Logger) (place k : ℕ) (missed : List Logger),
          t.registry.cell = .full session ∧ t.registry.Initial first ∧
          session.lock.calls[place]? = some (.done false) ∧
          session.history.order[k]? = some (.applied place .globalLoggers) ∧
          t.handedBy p ++ (post.phase.pending ++ missed).map (handing post.record) =
            (loggers.replay first (session.history.order.take k)).map (handing post.record) ∧
          (post.phase ≠ .unwound → missed = []) ∧
          (s.posts.length ≤ p → ∀ earlier, s.registry.cell = .full earlier →
            earlier.history.order <+: session.history.order ∧
              earlier.history.order.length ≤ k)) := by
  obtain ⟨hoks, -⟩ := ok_of_reaches hs ok_init
  obtain ⟨hokt, hsince⟩ := ok_of_reaches ht hoks
  refine ⟨(hokt.accounted p post hp).1, fun hphase => ?_⟩
  obtain ⟨loggers, missed, ha, hlist, hmissed⟩ := (hokt.accounted p post hp).2 hphase
  obtain ⟨session, first, place, k, hcell, hfirst, hdone, hk, rfl, hcaller⟩ :=
    ha.sound hokt.registry
  refine ⟨session, first, place, k, missed, hcell, hfirst, hdone, hk, hlist, hmissed, ?_⟩
  intro hlate earlier hearlier
  obtain ⟨later, hlater, hext, hplaces⟩ := hsince.registry.session earlier hearlier
  cases hcell.symm.trans hlater
  refine ⟨hext.order, ?_⟩
  -- the call of the lock was made after `s`, and so its place comes after the order of `s`
  have hplace := hplaces post.caller _ place (hsince.posts p post hlate hp) hcaller rfl
  cases hokt.registry with
  | waiting hno => exact absurd hcell (hno session)
  | ready first' own hfull hfirst' hok hplaced =>
    cases hcell.symm.trans hfull
    exact hok.legal.place_le hext hk hplace

/-! ## A logger that unwinds -/

def remoteLogger : Logger := { handle := 1, privacy := .redacted }

def leakRecord : LogRecord :=
  { parts := ["token ", "hunter2"], redactedParts := ["token ", "<&str>"], level := .info }

/-- The list is made with two loggers, and then set to them. -/
def setting : List Action :=
  [.registry (.call (.setGlobalLoggers [remoteLogger, stdErrorLogger])),
    .registry (.getOrInit 0), .registry (.getOrInit 0), .registry (.getOrInit 0),
    .registry (.inner (.spin 0 .exchange)), .registry (.inner (.enter 0)),
    .registry (.inner (.complete 0)), .registry (.inner (.spin 0 .unlock))]

/-- A record is posted, and the first of the loggers unwinds. -/
def leaking : List Action :=
  [.post leakRecord, .registry (.getOrInit 1), .registry (.inner (.spin 1 (.load 0))),
    .registry (.inner (.spin 1 .exchange)), .registry (.inner (.enter 1)),
    .registry (.inner (.complete 1)), .registry (.inner (.spin 1 .unlock)),
    .receive 0, .send 0, .unwinds 0]

theorem posts_handed_unwound : ∃ (t : System) (first : List Logger) (session : Locked) (k : ℕ)
    (missed : List Logger), Transition.run step init (setting ++ leaking) = some t ∧
    t.handedBy 0 = [(remoteLogger, { leakRecord with parts := ["token ", "<&str>"] })] ∧
      t.handedBy 0 ++ missed.map (handing leakRecord) =
        (loggers.replay first (session.history.order.take k)).map (handing leakRecord) := by
  have hs : Transition.Reaches step Transition.always init _ :=
    Transition.reaches_of_run_always setting rfl
  have hpost := posts_handed hs (Transition.reaches_of_run_always leaking rfl) (p := 0) rfl
  obtain ⟨session, first, place, k, missed, -, -, -, -, hlist, -⟩ := hpost.2 Phase.noConfusion
  exact ⟨_, first, session, k, missed, rfl, rfl, hlist⟩

end Logwise.Legacy.Posting
