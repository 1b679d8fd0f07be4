import Logwise.Facade.Installation

/-!
# One dispatcher, and guards that close what they opened

Over all interleavings: one installation succeeds at most, nothing reads the cell while it is
written or before, whoever asks after an installation is answered by what was installed, and the
dispatcher is told to leave each context it was told to enter, and to end each span it started,
when the guard goes and never again.
-/

namespace Logwise.Installation

open Ledger (Owned)
open Reentrant (Program)

variable {δ τ : Type} {usizeBits : ℕ} {schema : ℕ → Metadata} {dispatchers : Dispatchers δ τ}
  {s : Locals δ} {t t' : Memory δ τ}

/-! ## What an access does -/

/-- It has nothing to do with the installation. -/
def Request.plain : Request δ → Bool
  | .compareExchange | .writeDispatcher _ | .storeInstalled | .loadState | .readDispatcher => false
  | _ => true

inductive Served : (request : Request δ) → request.Answer → Memory δ τ → Memory δ τ → Prop
  | won (t : Memory δ τ) (hstate : t.state = UNINSTALLED) :
    Served .compareExchange true t { t with state := INSTALLING }
  | lost (t : Memory δ τ) : Served .compareExchange false t t
  | written (dispatcher : δ) (t : Memory δ τ) :
    Served (.writeDispatcher dispatcher) () t { t with writes := dispatcher :: t.writes }
  | installed (t : Memory δ τ) : Served .storeInstalled () t { t with state := INSTALLED }
  | loaded (t : Memory δ τ) : Served .loadState t.state t t
  | read (t : Memory δ τ) : Served .readDispatcher t.writes.head? t
    { t with undefined := t.undefined || t.writes.isEmpty }
  | other (request : Request δ) (reply : request.Answer) (t t' : Memory δ τ)
    (hplain : request.plain = true) (hstate : t'.state = t.state) (hwrites : t'.writes = t.writes)
    (hundefined : t'.undefined = t.undefined) : Served request reply t t'

variable (dispatchers) in
theorem served_of_serve {request : Request δ} {reply : request.Answer}
    (h : serve dispatchers request t = some (reply, t')) : Served request reply t t' := by
  cases request with
  | compareExchange =>
    simp only [serve] at h
    split at h
    next hstate =>
      cases h
      exact .won t hstate
    next =>
      cases h
      exact .lost t
  | writeDispatcher dispatcher =>
    cases h
    exact .written dispatcher t
  | storeInstalled =>
    cases h
    exact .installed t
  | loadState =>
    cases h
    exact .loaded t
  | readDispatcher =>
    cases h
    exact .read t
  | invoke dispatcher query =>
    obtain ⟨⟨answer, runtime⟩, -, he⟩ := Option.map_eq_some_iff.mp h
    cases he
    exact .other _ _ _ _ rfl rfl rfl rfl
  | _ =>
    cases h
    exact .other _ _ _ _ rfl rfl rfl rfl

/-! ## The right to write, and the right to install -/

def succeeded (outcome : δ × Except InstallError Unit) : Bool :=
  match outcome.2 with
  | .ok _ => true
  | .error _ => false

/-- Whoever takes `STATE` out of `UNINSTALLED` is given both rights. -/
def Request.given : (request : Request δ) → request.Answer → ℕ
  | .compareExchange, won => won.toNat
  | _, _ => 0

def Request.writes : Request δ → ℕ
  | .writeDispatcher _ => 1
  | _ => 0

def Request.installs : Request δ → ℕ
  | .storeInstalled => 1
  | _ => 0

def Memory.vacant (t : Memory δ τ) : ℕ := if t.state = UNINSTALLED then 1 else 0

variable (δ τ) in
/-- The right to write the cell, once. -/
def writing : Shared.Right (Locals δ) (Memory δ τ) (Request.Answer (δ := δ)) where
  held _ := 0
  needs := Request.writes
  gives := Request.given
  takes := Request.writes
  left t := t.vacant + t.writes.length

variable (δ τ) in
/-- The right to install, which is kept by having installed. -/
def installing : Shared.Right (Locals δ) (Memory δ τ) (Request.Answer (δ := δ)) where
  held s := s.installs.countP succeeded
  needs := Request.installs
  gives := Request.given
  takes _ := 0
  left t := t.vacant

theorem given_of_plain {request : Request δ} (h : request.plain = true) (reply : request.Answer) :
    request.given reply = 0 := by
  cases request <;> first | rfl | cases h

theorem writes_of_plain {request : Request δ} (h : request.plain = true) : request.writes = 0 := by
  cases request <;> first | rfl | cases h

theorem vacant_won {t : Memory δ τ} (hstate : t.state = UNINSTALLED) :
    ({ t with state := INSTALLING } : Memory δ τ).vacant = 0 ∧ t.vacant = 1 :=
  ⟨rfl, if_pos hstate⟩

theorem writing_served {request : Request δ} {reply : request.Answer}
    (h : Served request reply t t') :
    (writing δ τ).gives request reply + (writing δ τ).left t' ≤
      (writing δ τ).takes request + (writing δ τ).left t := by
  cases h with
  | won _ hstate =>
    obtain ⟨hlost, hhad⟩ := vacant_won hstate
    show 1 + (Memory.vacant _ + t.writes.length) ≤ 0 + (t.vacant + t.writes.length)
    omega
  | written dispatcher =>
    show 0 + (t.vacant + (t.writes.length + 1)) ≤ 1 + (t.vacant + t.writes.length)
    omega
  | installed =>
    show 0 + (0 + t.writes.length) ≤ 0 + (t.vacant + t.writes.length)
    omega
  | lost | loaded | read => exact le_refl _
  | other _ _ _ _ hplain hstate hwrites _ =>
    show request.given reply + (Memory.vacant _ + t'.writes.length) ≤
      request.writes + (t.vacant + t.writes.length)
    rw [given_of_plain hplain, writes_of_plain hplain, Memory.vacant, hstate, hwrites]
    exact le_refl _

theorem installing_served {request : Request δ} {reply : request.Answer}
    (h : Served request reply t t') :
    (installing δ τ).gives request reply + (installing δ τ).left t' ≤
      (installing δ τ).takes request + (installing δ τ).left t := by
  cases h with
  | won _ hstate =>
    obtain ⟨hlost, hhad⟩ := vacant_won hstate
    show 1 + ({ t with state := INSTALLING } : Memory δ τ).vacant ≤ 0 + t.vacant
    omega
  | installed => exact Nat.zero_le _
  | written | lost | loaded | read => exact le_refl _
  | other _ _ _ _ hplain hstate _ _ =>
    show request.given reply + Memory.vacant _ ≤ 0 + t.vacant
    rw [given_of_plain hplain, Memory.vacant, hstate]
    exact le_refl _

/-! ## Code that installs nothing -/

def Operation.installs : Operation δ → Bool
  | .install _ => true
  | _ => false

theorem install_of_installs {operation : Operation δ} (h : operation.installs = true) :
    ∃ dispatcher, operation = .install dispatcher := by
  cases operation with
  | install dispatcher => exact ⟨dispatcher, rfl⟩
  | _ => cases h

/-- A right that only installations move. -/
structure Installers (right : Shared.Right (Locals δ) (Memory δ τ) (Request.Answer (δ := δ))) :
    Prop where
  needs : ∀ request, right.needs request ≠ 0 → request.writes + request.installs ≠ 0
  takes : ∀ request, right.takes request ≠ 0 → request.writes + request.installs ≠ 0
  gives : ∀ request reply, right.gives request reply = request.given reply
  held : ∀ s s' : Locals δ, s.installs = s'.installs → right.held s = right.held s'

theorem installers_writing : Installers (writing δ τ) where
  needs request h := by
    have hpos : request.writes ≠ 0 := h
    omega
  takes request h := by
    have hpos : request.writes ≠ 0 := h
    omega
  gives _ _ := rfl
  held _ _ _ := rfl

theorem installers_installing : Installers (installing δ τ) where
  needs request h := by
    have hpos : request.installs ≠ 0 := h
    omega
  takes _ h := absurd rfl h
  gives _ _ := rfl
  held s s' h := congrArg (List.countP succeeded) h

section Idle

variable {right : Shared.Right (Locals δ) (Memory δ τ) (Request.Answer (δ := δ))}
  {α β : Type}

variable (right) in
/-- The program neither takes nor needs the right. -/
def Idle (program : Code δ α) : Prop :=
  ∀ s n, right.held s ≤ n → right.Stakes
    (fun _ s' n' => right.held s' ≤ n' ∧ s'.installs = s.installs ∧ n' = n) program s n

theorem Idle.bind {program : Code δ α} {f : α → Code δ β} (h : Idle right program)
    (hf : ∀ value, Idle right (f value)) : Idle right (program >>= f) := by
  intro s n hheld
  refine (h s n hheld).bind fun value s' n' hmid => ?_
  obtain ⟨hheld', hsame, rfl⟩ := hmid
  refine (hf value s' n' hheld').mono fun _ s'' n'' hend => ?_
  exact ⟨hend.1, hend.2.1.trans hsame, hend.2.2⟩

theorem idle_pure (value : α) : Idle right (pure value : Code δ α) :=
  fun _ _ hheld => ⟨hheld, rfl, rfl⟩

theorem idle_read_bind {f : Locals δ → Code δ α} (h : ∀ s, Idle right (f s)) :
    Idle right (read >>= f) :=
  fun s n hheld => h s s n hheld

variable (hright : Installers right)
include hright

theorem idle_modify {f : Locals δ → Locals δ} (h : ∀ s, (f s).installs = s.installs) :
    Idle right (modify f) :=
  fun s _ hheld => ⟨(hright.held _ _ (h s)).trans_le hheld, h s, rfl⟩

theorem idle_ask (request : Request δ) (hfree : request.writes + request.installs = 0)
    (hgiven : ∀ reply, request.given reply = 0) : Idle right (ask request) := by
  intro s n hheld
  refine Shared.Right.stakes_request hheld ?_ ?_ ?_ fun _ => ⟨hheld, rfl, rfl⟩
  · by_contra hne
    exact hright.needs request hne hfree
  · by_contra hne
    exact hright.takes request hne hfree
  · intro reply
    rw [hright.gives, hgiven]

theorem idle_dispatcher : Idle right (dispatcher : Code δ (Option δ)) := by
  refine (idle_ask hright .loadState rfl fun _ => rfl).bind fun state => ?_
  split
  · exact idle_pure _
  · refine (idle_ask hright .readDispatcher rfl fun _ => rfl).bind fun cell => ?_
    cases cell with
    | none => exact fun _ _ hheld => hheld
    | some dispatcher => exact idle_pure _

theorem idle_invoke (dispatcher : δ) (query : Query) : Idle right (invoke dispatcher query) := by
  refine (idle_ask hright (.invoke dispatcher query) rfl fun _ => rfl).bind fun answer => ?_
  refine Idle.bind (idle_modify hright ?_) fun _ => ?_
  · exact fun _ => rfl
  · exact idle_pure _

theorem idle_invokeInstalled (query : Query) :
    Idle right (invokeInstalled query : Code δ (Option query.Answer)) := by
  refine (idle_dispatcher hright).bind fun found => ?_
  cases found with
  | none => exact idle_pure _
  | some dispatcher => exact (idle_invoke hright dispatcher query).bind fun _ => idle_pure _

theorem idle_recompute (site generation : ℕ) (metadata : Metadata) (dispatcher : δ) :
    Idle right (recompute usizeBits site generation metadata dispatcher) := by
  refine (idle_invoke hright dispatcher _).bind fun interest => ?_
  refine (idle_ask hright (.storeTagged site _) rfl fun _ => rfl).bind fun _ => ?_
  refine (idle_ask hright (.storeGeneration site _) rfl fun _ => rfl).bind fun _ => ?_
  exact idle_pure _

theorem idle_interest (site : ℕ) (metadata : Metadata) :
    Idle right (interest usizeBits site metadata : Code δ Interest) := by
  refine (idle_dispatcher hright).bind fun found => ?_
  cases found with
  | none => exact idle_pure _
  | some dispatcher =>
    refine (idle_invoke hright dispatcher .generation).bind fun generation => ?_
    refine (idle_ask hright (.loadGeneration site) rfl fun _ => rfl).bind fun stored => ?_
    split
    · refine (idle_ask hright (.loadTagged site) rfl fun _ => rfl).bind fun cached => ?_
      dsimp only
      split
      · exact idle_pure _
      · exact idle_recompute hright site generation metadata dispatcher
    · exact idle_recompute hright site generation metadata dispatcher

theorem idle_dropContext (guard : ContextGuard) : Idle right (guard.drop : Code δ Unit) := by
  rw [ContextGuard.drop]
  split
  · exact (idle_invokeInstalled hright _).bind fun _ => idle_pure _
  · exact idle_pure _

theorem idle_dropSpan (guard : SpanGuard) : Idle right (guard.drop : Code δ Unit) := by
  rw [SpanGuard.drop]
  split
  · exact (idle_invokeInstalled hright _).bind fun _ => idle_pure _
  · exact idle_pure _

omit hright in
theorem idle_dropAt {γ : Type} {guards : Locals δ → List (Owned γ)} {drop : γ → Code δ Unit}
    {letGo : γ → Locals δ → Locals δ} {k : ℕ} (hdrop : ∀ guard, Idle right (drop guard))
    (hletGo : ∀ guard, Idle right (modify (letGo guard))) :
    Idle right (dropAt guards drop letGo k) := by
  refine idle_read_bind fun s => ?_
  cases Owned.live (guards s) k with
  | none => exact idle_pure ()
  | some guard => exact (hdrop guard).bind fun _ => hletGo guard

theorem idle_code (operation : Operation δ) (h : operation.installs = false) :
    Idle right (operation.code usizeBits schema) := by
  cases operation with
  | install dispatcher => cases h
  | interest site => exact (idle_interest hright site _).bind fun _ => idle_pure _
  | contextualInterest site mask context =>
    refine Idle.bind ?_ fun _ => idle_pure _
    rw [contextualInterest]
    split
    · exact (idle_invokeInstalled hright _).bind fun _ => idle_pure _
    · exact idle_pure _
  | emit event => exact (idle_invokeInstalled hright _).bind fun _ => idle_pure _
  | startSpan span =>
    refine ((idle_invokeInstalled hright _).bind fun token => ?_).bind fun guard =>
      idle_modify hright fun _ => rfl
    cases token <;> exact idle_pure _
  | capture =>
    exact ((idle_invokeInstalled hright _).bind fun _ => idle_pure _).bind fun _ => idle_pure _
  | child parent name =>
    exact ((idle_invokeInstalled hright _).bind fun _ => idle_pure _).bind fun _ => idle_pure _
  | link context related => exact (idle_invokeInstalled hright _).bind fun _ => idle_pure _
  | enter context =>
    refine ((idle_invokeInstalled hright _).bind fun previous => ?_).bind fun guard =>
      idle_modify hright fun _ => rfl
    cases previous <;> exact idle_pure _
  | dropContext k =>
    exact idle_dropAt (idle_dropContext hright) fun _ => idle_modify hright fun _ => rfl
  | dropSpan k =>
    exact idle_dropAt (idle_dropSpan hright) fun _ => idle_modify hright fun _ => rfl

theorem stakes_of_idle {operation : Operation δ} (h : operation.installs = false) (s : Locals δ) :
    right.Stakes (fun _ s' n => right.held s' = n) (operation.code usizeBits schema) s
      (right.held s) := by
  refine (idle_code hright operation h s (right.held s) (le_refl _)).mono fun _ s' n hend => ?_
  rw [hend.2.2]
  exact hright.held s' s hend.2.1

end Idle

theorem writing_moved : (writing δ τ).Moved (machine usizeBits schema dispatchers) where
  start := rfl
  code operation s := by
    cases hop : operation.installs with
    | false => exact stakes_of_idle installers_writing hop s
    | true =>
      obtain ⟨dispatcher, rfl⟩ := install_of_installs hop
      refine ⟨le_refl _, Nat.zero_le _, Nat.zero_le _, fun won => ?_⟩
      cases won with
      | false => exact rfl
      | true =>
        refine ⟨Nat.zero_le _, le_refl _, le_refl _, fun _ => ?_⟩
        exact ⟨Nat.zero_le _, Nat.zero_le _, Nat.zero_le _, fun _ => rfl⟩
  serve _ _ _ _ h := writing_served (served_of_serve dispatchers h)

theorem installing_moved : (installing δ τ).Moved (machine usizeBits schema dispatchers) where
  start := rfl
  code operation s := by
    cases hop : operation.installs with
    | false => exact stakes_of_idle installers_installing hop s
    | true =>
      obtain ⟨dispatcher, rfl⟩ := install_of_installs hop
      refine ⟨le_refl _, Nat.zero_le _, Nat.zero_le _, fun won => ?_⟩
      cases won with
      | false =>
        show (s.installs ++ [(dispatcher, Except.error InstallError.alreadyInstalled)]).countP succeeded =
          s.installs.countP succeeded
        rw [List.countP_append]
        rfl
      | true =>
        refine ⟨Nat.le_add_right _ 1, Nat.zero_le _, Nat.zero_le _, fun _ => ?_⟩
        refine ⟨Nat.le_add_right _ 1, Nat.le_add_left 1 _, Nat.zero_le _, fun _ => ?_⟩
        show (s.installs ++ [(dispatcher, Except.ok ())]).countP succeeded =
          s.installs.countP succeeded + 1
        rw [List.countP_append]
        rfl
  serve _ _ _ _ h := installing_served (served_of_serve dispatchers h)

/-! ## What a thread may rely on -/

namespace Heard

def entered : Heard δ → Option ContextToken
  | ⟨_, .enterContext _, previous⟩ => some previous
  | _ => none

def exited : Heard δ → Option ContextToken
  | ⟨_, .exitContext previous, _⟩ => some previous
  | _ => none

/-- The span that was started, with the context of its opening event. -/
def started : Heard δ → Option (SpanToken × ContextToken)
  | ⟨_, .startSpan span, token⟩ => if token.isNone then none else some (token, span.event.context)
  | _ => none

def ended : Heard δ → Option (SpanToken × ContextToken)
  | ⟨_, .endSpan token context, _⟩ => some (token, context)
  | _ => none

end Heard

/-- What the guard will exit. -/
def ContextGuard.key (guard : ContextGuard) : Option ContextToken :=
  if guard.active then some guard.previous else none

/-- What the guard will end. -/
def SpanGuard.key (guard : SpanGuard) : Option (SpanToken × ContextToken) :=
  if guard.active then some (guard.token, guard.context) else none

structure Memory.Later (t t' : Memory δ τ) : Prop where
  installed : t.state = INSTALLED → t'.state = INSTALLED
  writes : ∀ d ∈ t.writes, d ∈ t'.writes

structure Memory.Good (t : Memory δ τ) : Prop where
  defined : t.undefined = false
  written : t.state = INSTALLED → t.writes ≠ []

/-- `d` is there for all to see. -/
structure Memory.Has (t : Memory δ τ) (d : δ) : Prop where
  installed : t.state = INSTALLED
  written : d ∈ t.writes

namespace Locals

/-- Its guards have still to do what it has asked for and not taken back. -/
structure Settled (s : Locals δ) : Prop where
  contexts : Ledger.Settled Heard.entered Heard.exited ContextGuard.key s.heard s.contexts
  spans : Ledger.Settled Heard.started Heard.ended SpanGuard.key s.heard s.spans

/-- Whoever answered it, or was installed by it, is there for all to see. -/
structure Known (s : Locals δ) (t : Memory δ τ) : Prop where
  heard : ∀ h ∈ s.heard, t.Has h.dispatcher
  installs : ∀ outcome ∈ s.installs, succeeded outcome = true → t.Has outcome.1

structure Keeps (s : Locals δ) (t : Memory δ τ) : Prop extends s.Known t, s.Settled

end Locals

variable {d : δ}

theorem Memory.Later.refl (t : Memory δ τ) : t.Later t := ⟨id, fun _ h => h⟩

theorem Memory.Later.trans {t₁ t₂ t₃ : Memory δ τ} (h : t₁.Later t₂) (h' : t₂.Later t₃) :
    t₁.Later t₃ :=
  ⟨fun hs => h'.installed (h.installed hs), fun d hd => h'.writes d (h.writes d hd)⟩

theorem Memory.Has.later (h : t.Has d) (hle : t.Later t') : t'.Has d :=
  ⟨hle.installed h.installed, hle.writes d h.written⟩

theorem Locals.Known.later (h : s.Known t) (hle : t.Later t') : s.Known t' :=
  ⟨fun e he => (h.heard e he).later hle, fun o ho hok => (h.installs o ho hok).later hle⟩

theorem Locals.Keeps.later (h : s.Keeps t) (hle : t.Later t') : s.Keeps t' :=
  ⟨h.toKnown.later hle, h.toSettled⟩

theorem Locals.Known.hear (h : s.Known t) (e : Heard δ) (he : t.Has e.dispatcher) :
    (s.hear e).Known t := by
  refine ⟨fun e' hm => ?_, h.installs⟩
  obtain hold | hnew := List.mem_append.mp hm
  · exact h.heard e' hold
  · rw [List.mem_singleton.mp hnew]
    exact he

theorem served_later {request : Request δ} {reply : request.Answer}
    (h : Served request reply t t') : t.Later t' := by
  cases h with
  | won _ hstate =>
    refine ⟨fun hinstalled => ?_, fun _ hd => hd⟩
    rw [hstate] at hinstalled
    cases hinstalled
  | lost | loaded => exact Memory.Later.refl _
  | read => exact ⟨id, fun _ hd => hd⟩
  | written => exact ⟨id, fun _ hd => List.mem_cons_of_mem _ hd⟩
  | installed => exact ⟨fun _ => rfl, fun _ hd => hd⟩
  | other _ _ _ _ _ hstate hwrites _ =>
    exact ⟨fun hs => hstate.trans hs, fun d hd => hwrites.symm ▸ hd⟩

theorem grows : Shared.Grows (machine usizeBits schema dispatchers) Memory.Later where
  refl := Memory.Later.refl
  trans _ _ _ := Memory.Later.trans
  serve _ _ _ _ h := served_later (served_of_serve dispatchers h)

/-! ## The code, call by call -/

section Safe

variable (usizeBits schema dispatchers) in
abbrev Safely {α : Type} (post : α → Locals δ → Memory δ τ → Prop) (program : Code δ α)
    (s : Locals δ) (t : Memory δ τ) : Prop :=
  Shared.Safe (machine usizeBits schema dispatchers) Memory.Good Memory.Later Locals.Keeps post
    program s t

variable {α β : Type}

theorem safe_read_bind {f : Locals δ → Code δ α} {post : α → Locals δ → Memory δ τ → Prop}
    (h : Safely usizeBits schema dispatchers post (f s) s t) :
    Safely usizeBits schema dispatchers post (read >>= f) s t := h

/-- An access that has nothing to do with the installation. -/
theorem plain_safe {request : Request δ} (hplain : request.plain = true) (hkeeps : s.Keeps t) :
    Safely usizeBits schema dispatchers (fun _ s' t' => s' = s ∧ t.Later t') (ask request) s t := by
  refine ⟨hkeeps, fun t₁ hle hgood reply t₂ hserve => ?_⟩
  have hserved := served_of_serve dispatchers hserve
  refine ⟨?_, rfl, hle.trans (served_later hserved)⟩
  cases hserved with
  | other _ _ _ _ _ hstate hwrites hundefined =>
    refine ⟨hundefined.trans hgood.defined, fun hinstalled => ?_⟩
    rw [hwrites]
    exact hgood.written (hstate.symm.trans hinstalled)
  | _ => cases hplain

/-- Whoever asks once something is installed finds it, and finds nothing else. -/
theorem dispatcher_safe (hkeeps : s.Keeps t) :
    Safely usizeBits schema dispatchers (fun found s' t' => s' = s ∧ t.Later t' ∧
      (∀ d, found = some d → t'.Has d) ∧ (found = none → t.state ≠ INSTALLED)) dispatcher s t := by
  refine ⟨hkeeps, fun t₁ hle hgood reply t₂ hserve => ?_⟩
  cases hserve
  refine ⟨hgood, ?_⟩
  show Shared.Safe _ _ _ _ _ (if t₁.state ≠ INSTALLED then _ else _) s t₁
  split
  next hstate =>
    exact ⟨rfl, hle, fun d hd => (Option.some_ne_none d hd.symm).elim,
      fun _ hinstalled => hstate (hle.installed hinstalled)⟩
  next hstate =>
    have hinstalled : t₁.state = INSTALLED := not_not.mp hstate
    refine ⟨hkeeps.later hle, fun t₃ hle' hgood' reply t₄ hserve' => ?_⟩
    cases hserve'
    have hwritten := hgood'.written (hle'.installed hinstalled)
    refine ⟨⟨?_, hgood'.written⟩, ?_⟩
    · rw [hgood'.defined, Bool.false_or, List.isEmpty_eq_false_iff]
      exact hwritten
    cases hhead : t₃.writes.head? with
    | none => exact absurd (List.head?_eq_none_iff.mp hhead) hwritten
    | some d =>
      refine ⟨rfl, hle.trans (hle'.trans (served_later (.read t₃))), fun d' hd => ?_, fun hnone => (Option.some_ne_none d hnone).elim⟩
      obtain rfl := Option.some.inj hd
      exact ⟨hle'.installed hinstalled, List.mem_of_head? hhead⟩

theorem invoke_safe (hkeeps : s.Keeps t) (hhas : t.Has d) (query : Query) :
    Safely usizeBits schema dispatchers
      (fun answer s' t' => s' = s.hear ⟨d, query, answer⟩ ∧ t.Later t' ∧ t'.Has d)
      (invoke d query) s t := by
  have hask : Safely usizeBits schema dispatchers (fun _ s' t' => s' = s ∧ t.Later t')
      (ask (.invoke d query)) s t := plain_safe rfl hkeeps
  refine hask.bind fun answer s₁ t₁ h => ?_
  obtain ⟨rfl, hle⟩ := h
  exact ⟨rfl, hle, hhas.later hle⟩

/-- The call is made on what is installed, or nothing is. -/
theorem invokeInstalled_safe (hkeeps : s.Keeps t) (query : Query) :
    Safely usizeBits schema dispatchers (fun answer s' t' => t.Later t' ∧
      ((answer = none ∧ s' = s ∧ t.state ≠ INSTALLED) ∨
        ∃ d value, answer = some value ∧ t'.Has d ∧ s' = s.hear ⟨d, query, value⟩))
      (invokeInstalled query) s t := by
  refine (dispatcher_safe hkeeps).bind fun found s₁ t₁ h => ?_
  obtain ⟨rfl, hle, hfound, hnone⟩ := h
  cases found with
  | none => exact ⟨hle, Or.inl ⟨rfl, rfl, hnone rfl⟩⟩
  | some d =>
    refine (invoke_safe (hkeeps.later hle) (hfound d rfl) query).bind fun answer s₂ t₂ h => ?_
    obtain ⟨rfl, hle', hhas⟩ := h
    exact ⟨hle.trans hle', Or.inr ⟨d, answer, rfl, hhas, rfl⟩⟩

/-- It neither opens nor closes anything. -/
def Query.plain : Query → Bool
  | .enterContext _ | .exitContext _ | .startSpan _ | .endSpan _ _ => false
  | _ => true

theorem Locals.Keeps.hear (h : s.Keeps t) (hhas : t.Has d) {query : Query}
    (hplain : query.plain = true) (answer : query.Answer) : (s.hear ⟨d, query, answer⟩).Keeps t := by
  refine ⟨h.toKnown.hear _ hhas, ?_⟩
  cases query with
  | enterContext | exitContext | startSpan | endSpan => cases hplain
  | _ => exact ⟨h.contexts.other rfl rfl, h.spans.other rfl rfl⟩

/-- What a call leaves, which had to be answered if `must` holds. -/
structure Asked (must : Prop) (s s' : Locals δ) (t' : Memory δ τ) : Prop where
  keeps : s'.Keeps t'
  grown : s.heard <+: s'.heard
  answered : must → s'.heard ≠ s.heard

theorem hear_ne (s : Locals δ) (e : Heard δ) : (s.hear e).heard ≠ s.heard := by
  intro h
  have hlength := congrArg List.length h
  rw [Locals.hear, List.length_append, List.length_singleton] at hlength
  omega

theorem plainQuery_safe (hkeeps : s.Keeps t) (query : Query) (hplain : query.plain = true) :
    Safely usizeBits schema dispatchers (fun _ => Asked (t.state = INSTALLED) s) (invokeInstalled query) s t := by
  refine (invokeInstalled_safe hkeeps query).mono fun answer s' t' h => ?_
  obtain ⟨hle, ⟨-, rfl, hout⟩ | ⟨d, value, -, hhas, rfl⟩⟩ := h
  · exact ⟨hkeeps.later hle, List.prefix_rfl, fun hin => absurd hin hout⟩
  · exact ⟨(hkeeps.later hle).hear hhas hplain value, List.prefix_append _ _,
      fun _ => hear_ne s _⟩

/-- A plain call, and what the caller makes of its answer. -/
theorem plainQuery_map_safe (hkeeps : s.Keeps t) (query : Query) (hplain : query.plain = true)
    (f : Option query.Answer → α) :
    Safely usizeBits schema dispatchers (fun _ => Asked (t.state = INSTALLED) s)
      (invokeInstalled query >>= fun answer => pure (f answer)) s t :=
  (plainQuery_safe hkeeps query hplain).bind fun _ _ _ h => h

theorem recompute_safe (hkeeps : s.Keeps t) (hhas : t.Has d) (site generation : ℕ)
    (metadata : Metadata) :
    Safely usizeBits schema dispatchers (fun _ s' t' => s'.Keeps t' ∧ s.heard <+: s'.heard)
      (recompute usizeBits site generation metadata d) s t := by
  refine (invoke_safe hkeeps hhas (.interest metadata)).bind fun interest s₁ t₁ h => ?_
  obtain ⟨rfl, hle, hhas₁⟩ := h
  have hkeeps₁ := (hkeeps.later hle).hear hhas₁ (rfl : (Query.interest metadata).plain = true)
    interest
  have htagged : Safely usizeBits schema dispatchers _
      (ask (.storeTagged site (Cache.tag usizeBits generation interest))) _ t₁ :=
    plain_safe rfl hkeeps₁
  refine htagged.bind fun _ s₂ t₂ h => ?_
  obtain ⟨rfl, hle₂⟩ := h
  have hstored : Safely usizeBits schema dispatchers _
      (ask (.storeGeneration site generation)) _ t₂ :=
    plain_safe rfl (hkeeps₁.later hle₂)
  refine hstored.bind fun _ s₃ t₃ h => ?_
  obtain ⟨rfl, hle₃⟩ := h
  exact ⟨hkeeps₁.later (hle₂.trans hle₃), List.prefix_append _ _⟩

theorem interest_safe (hkeeps : s.Keeps t) (site : ℕ) (metadata : Metadata) :
    Safely usizeBits schema dispatchers (fun _ => Asked (t.state = INSTALLED) s) (interest usizeBits site metadata)
      s t := by
  refine (dispatcher_safe hkeeps).bind fun found s₁ t₁ h => ?_
  obtain ⟨rfl, hle, hfound, hnone⟩ := h
  cases found with
  | none => exact ⟨hkeeps.later hle, List.prefix_rfl, fun hin => absurd hin (hnone rfl)⟩
  | some d =>
    refine (invoke_safe (hkeeps.later hle) (hfound d rfl) .generation).bind
      fun generation s₂ t₂ h => ?_
    obtain ⟨rfl, hle₂, hhas₂⟩ := h
    have hkeeps₂ := ((hkeeps.later hle).later hle₂).hear hhas₂
      (rfl : Query.generation.plain = true) generation
    -- the rest only adds to what the thread has heard
    have hasked : ∀ {s' : Locals δ} {t' : Memory δ τ}, s'.Keeps t' →
        (s₁.hear ⟨d, .generation, generation⟩).heard <+: s'.heard → Asked (t.state = INSTALLED) s₁ s' t' := by
      intro s' t' hkeeps' hgrown
      refine ⟨hkeeps', (List.prefix_append _ _).trans hgrown, fun _ heq => ?_⟩
      have hlength := hgrown.length_le
      rw [heq, Locals.hear, List.length_append, List.length_singleton] at hlength
      omega
    have hgeneration : Safely usizeBits schema dispatchers _ (ask (.loadGeneration site)) _ t₂ :=
      plain_safe rfl hkeeps₂
    refine hgeneration.bind fun stored s₃ t₃ h => ?_
    obtain ⟨rfl, hle₃⟩ := h
    split
    · have htagged : Safely usizeBits schema dispatchers _ (ask (.loadTagged site)) _ t₃ :=
        plain_safe rfl (hkeeps₂.later hle₃)
      refine htagged.bind fun cached s₄ t₄ h => ?_
      obtain ⟨rfl, hle₄⟩ := h
      have hkeeps₄ := hkeeps₂.later (hle₃.trans hle₄)
      dsimp only
      split
      · exact hasked hkeeps₄ List.prefix_rfl
      · exact (recompute_safe hkeeps₄ (hhas₂.later (hle₃.trans hle₄)) ..).mono
          fun _ _ _ h => hasked h.1 h.2
    · exact (recompute_safe (hkeeps₂.later hle₃) (hhas₂.later hle₃) ..).mono
        fun _ _ _ h => hasked h.1 h.2

theorem enter_safe (hkeeps : s.Keeps t) (context : ContextToken) :
    Safely usizeBits schema dispatchers
      (fun guard s' t' => Asked (t.state = INSTALLED) s (s'.keepContext guard) t')
      (enter context) s t := by
  refine (invokeInstalled_safe hkeeps (.enterContext context)).bind fun answer s₁ t₁ h => ?_
  obtain ⟨hle, ⟨rfl, rfl, hout⟩ | ⟨d, previous, rfl, hhas, rfl⟩⟩ := h
  · have hkeeps₁ := hkeeps.later hle
    exact ⟨⟨⟨hkeeps₁.heard, hkeeps₁.installs⟩, hkeeps₁.contexts.idle rfl, hkeeps₁.spans⟩, List.prefix_rfl,
      fun hin => absurd hin hout⟩
  · have hkeeps₁ := hkeeps.later hle
    refine ⟨⟨⟨(hkeeps₁.toKnown.hear _ hhas).heard, hkeeps₁.installs⟩,
      hkeeps₁.contexts.opening rfl rfl, hkeeps₁.spans.other rfl rfl⟩, List.prefix_append _ _,
      fun _ => hear_ne s _⟩

theorem startSpan_safe (hkeeps : s.Keeps t) (span : SpanRef) :
    Safely usizeBits schema dispatchers
      (fun guard s' t' => Asked (t.state = INSTALLED) s (s'.keepSpan guard) t')
      (startSpan span) s t := by
  refine (invokeInstalled_safe hkeeps (.startSpan span)).bind fun answer s₁ t₁ h => ?_
  obtain ⟨hle, ⟨rfl, rfl, hout⟩ | ⟨d, token, rfl, hhas, rfl⟩⟩ := h
  · have hkeeps₁ := hkeeps.later hle
    exact ⟨⟨⟨hkeeps₁.heard, hkeeps₁.installs⟩, hkeeps₁.contexts, hkeeps₁.spans.idle rfl⟩, List.prefix_rfl,
      fun hin => absurd hin hout⟩
  · have hkeeps₁ := hkeeps.later hle
    have hstarted : Heard.started (⟨d, .startSpan span, token⟩ : Heard δ) =
        (SpanGuard.new token span.event.context).key := by
      cases htoken : token.isNone <;>
        simp [Heard.started, SpanGuard.new, SpanGuard.key, htoken]
    refine ⟨⟨⟨(hkeeps₁.toKnown.hear _ hhas).heard, hkeeps₁.installs⟩,
      hkeeps₁.contexts.other rfl rfl, hkeeps₁.spans.opening hstarted rfl⟩, List.prefix_append _ _,
      fun _ => hear_ne s _⟩

/-- An active guard has been answered, and so something is installed. -/
theorem installed_of_heard (hkeeps : s.Keeps t) (h : s.heard ≠ []) : t.state = INSTALLED := by
  obtain ⟨e, he⟩ := List.exists_mem_of_ne_nil _ h
  exact (hkeeps.heard e he).installed

theorem dropContext_safe (hkeeps : s.Keeps t) {k : ℕ} {guard : ContextGuard}
    (hk : s.contexts[k]? = some ⟨guard, false⟩) :
    Safely usizeBits schema dispatchers
      (fun _ s' t' => Asked (guard.active = true) s (s'.dropContext k guard) t')
      guard.drop s t := by
  rw [ContextGuard.drop]
  split
  next hactive =>
    have hkey : guard.key = some guard.previous := if_pos hactive
    have hinstalled : t.state = INSTALLED :=
      installed_of_heard hkeeps (hkeeps.contexts.log_ne_nil hk (by simp [hkey]))
    refine (invokeInstalled_safe hkeeps (.exitContext guard.previous)).bind
      fun answer s₁ t₁ h => ?_
    obtain ⟨hle, ⟨-, -, hout⟩ | ⟨d, value, -, hhas, rfl⟩⟩ := h
    · exact absurd hinstalled hout
    · have hkeeps₁ := hkeeps.later hle
      exact ⟨⟨⟨(hkeeps₁.toKnown.hear _ hhas).heard, hkeeps₁.installs⟩,
        hkeeps₁.contexts.closing hk rfl hkey.symm, hkeeps₁.spans.other rfl rfl⟩,
        List.prefix_append _ _, fun _ => hear_ne s _⟩
  next hinactive =>
    exact ⟨⟨⟨hkeeps.heard, hkeeps.installs⟩, hkeeps.contexts.forgetting hk (if_neg hinactive), hkeeps.spans⟩,
      List.prefix_rfl, fun hactive => absurd hactive hinactive⟩

theorem dropSpan_safe (hkeeps : s.Keeps t) {k : ℕ} {guard : SpanGuard}
    (hk : s.spans[k]? = some ⟨guard, false⟩) :
    Safely usizeBits schema dispatchers
      (fun _ s' t' => Asked (guard.active = true) s (s'.dropSpan k guard) t')
      guard.drop s t := by
  rw [SpanGuard.drop]
  split
  next hactive =>
    have hkey : guard.key = some (guard.token, guard.context) := if_pos hactive
    have hinstalled : t.state = INSTALLED :=
      installed_of_heard hkeeps (hkeeps.spans.log_ne_nil hk (by simp [hkey]))
    refine (invokeInstalled_safe hkeeps (.endSpan guard.token guard.context)).bind
      fun answer s₁ t₁ h => ?_
    obtain ⟨hle, ⟨-, -, hout⟩ | ⟨d, value, -, hhas, rfl⟩⟩ := h
    · exact absurd hinstalled hout
    · have hkeeps₁ := hkeeps.later hle
      exact ⟨⟨⟨(hkeeps₁.toKnown.hear _ hhas).heard, hkeeps₁.installs⟩,
        hkeeps₁.contexts.other rfl rfl, hkeeps₁.spans.closing hk rfl hkey.symm⟩,
        List.prefix_append _ _, fun _ => hear_ne s _⟩
  next hinactive =>
    exact ⟨⟨⟨hkeeps.heard, hkeeps.installs⟩, hkeeps.contexts, hkeeps.spans.forgetting hk (if_neg hinactive)⟩,
      List.prefix_rfl, fun hactive => absurd hactive hinactive⟩

/-- An installation that succeeds is there for all to see. -/
theorem install_safe (hkeeps : s.Keeps t) (dispatcher : δ) :
    Safely usizeBits schema dispatchers
      (fun outcome s' t' => (s'.returned dispatcher outcome).Keeps t' ∧ s'.heard = s.heard)
      (install dispatcher) s t := by
  have hreturned : ∀ {outcome : Except InstallError Unit} {t' : Memory δ τ}, t.Later t' →
      (succeeded (dispatcher, outcome) = true → t'.Has dispatcher) →
        (s.returned dispatcher outcome).Keeps t' := by
    intro outcome t' hle hhas
    have hkeeps' := hkeeps.later hle
    refine ⟨⟨hkeeps'.heard, fun o ho hok => ?_⟩, hkeeps'.contexts, hkeeps'.spans⟩
    obtain hold | hnew := List.mem_append.mp ho
    · exact hkeeps'.installs o hold hok
    · obtain rfl := List.mem_singleton.mp hnew
      exact hhas hok
  refine ⟨hkeeps, fun t₁ hle hgood won t₂ hserve => ?_⟩
  have hserved : Served .compareExchange won t₁ t₂ := served_of_serve dispatchers hserve
  have hle₂ := hle.trans (served_later hserved)
  cases hserved with
  | other _ _ _ _ hplain => cases hplain
  | lost => exact ⟨hgood, hreturned hle₂ Bool.noConfusion, rfl⟩
  | won _ hstate =>
    have hbusy : INSTALLING ≠ INSTALLED := by decide
    refine ⟨⟨hgood.defined, fun h => (hbusy h).elim⟩, hkeeps.later hle₂, fun t₃ hle₃ hgood₃ _ t₄ hserve => ?_⟩
    cases hserve
    refine ⟨⟨hgood₃.defined, fun _ => List.cons_ne_nil _ _⟩, ?_⟩
    have hle₄ : t.Later { t₃ with writes := dispatcher :: t₃.writes } :=
      (hle₂.trans hle₃).trans (served_later (.written dispatcher t₃))
    refine ⟨hkeeps.later hle₄, fun t₅ hle₅ hgood₅ _ t₆ hserve => ?_⟩
    cases hserve
    have hwritten : dispatcher ∈ t₅.writes := hle₅.writes _ (List.mem_cons_self ..)
    refine ⟨⟨hgood₅.defined, fun _ => List.ne_nil_of_mem hwritten⟩, ?_, rfl⟩
    exact hreturned ((hle₄.trans hle₅).trans (served_later (.installed t₅)))
      fun _ => ⟨rfl, hwritten⟩

/-- Once something is installed, the call is answered. -/
def Operation.asks (s : Locals δ) : Operation δ → Bool
  | .install _ => false
  | .contextualInterest _ mask _ => mask.isContextual
  | .dropContext k => (Owned.live s.contexts k).any ContextGuard.active
  | .dropSpan k => (Owned.live s.spans k).any SpanGuard.active
  | _ => true

theorem Asked.mono {must must' : Prop} {s s' : Locals δ} {t' : Memory δ τ}
    (h : Asked must s s' t') (himp : must' → must) : Asked must' s s' t' :=
  ⟨h.keeps, h.grown, fun hmust => h.answered (himp hmust)⟩

theorem contextualInterest_safe (hkeeps : s.Keeps t) (metadata : Metadata) (mask : Interest)
    (context : ContextToken) :
    Safely usizeBits schema dispatchers
      (fun _ => Asked (t.state = INSTALLED ∧ mask.isContextual = true) s)
      (contextualInterest metadata mask context) s t := by
  rw [contextualInterest]
  split
  next =>
    exact (plainQuery_map_safe hkeeps (.contextualInterest metadata context) rfl _).mono
      fun _ _ _ h => h.mono And.left
  next hmask => exact ⟨hkeeps, List.prefix_rfl, fun hmust => absurd hmust.2 hmask⟩

theorem dropAt_safe {γ : Type} {guards : Locals δ → List (Owned γ)} {drop : γ → Code δ Unit}
    {letGo : γ → Locals δ → Locals δ} {k : ℕ} {post : Unit → Locals δ → Memory δ τ → Prop}
    (hnone : Owned.live (guards s) k = none → post () s t)
    (hsome : ∀ guard, Owned.live (guards s) k = some guard →
      Safely usizeBits schema dispatchers post
        (drop guard >>= fun _ => modify (letGo guard)) s t) :
    Safely usizeBits schema dispatchers post (dropAt guards drop letGo k) s t := by
  refine safe_read_bind ?_
  cases hk : Owned.live (guards s) k with
  | none => exact hnone hk
  | some guard => exact hsome guard hk

theorem code_safe (hkeeps : s.Keeps t) (operation : Operation δ) :
    Safely usizeBits schema dispatchers
      (fun _ => Asked (t.state = INSTALLED ∧ operation.asks s = true) s)
      (operation.code usizeBits schema) s t := by
  cases operation with
  | install dispatcher =>
    refine (install_safe hkeeps dispatcher).bind fun outcome s' t' h => ?_
    exact ⟨h.1, h.2 ▸ List.prefix_rfl, fun hmust => Bool.noConfusion hmust.2⟩
  | interest site => exact (interest_safe hkeeps site _).bind fun _ _ _ h => h.mono And.left
  | contextualInterest site mask context =>
    exact (contextualInterest_safe hkeeps _ mask context).bind fun _ _ _ h => h
  | emit event =>
    exact (plainQuery_safe hkeeps (.emit event) rfl).bind fun _ _ _ h => h.mono And.left
  | startSpan span => exact (startSpan_safe hkeeps span).bind fun _ _ _ h => h.mono And.left
  | capture =>
    exact (plainQuery_map_safe hkeeps .captureContext rfl _).bind fun _ _ _ h => h.mono And.left
  | child parent name =>
    exact (plainQuery_map_safe hkeeps (.createContext parent name) rfl _).bind
      fun _ _ _ h => h.mono And.left
  | link context related =>
    exact (plainQuery_safe hkeeps (.linkContext context related) rfl).bind
      fun _ _ _ h => h.mono And.left
  | enter context => exact (enter_safe hkeeps context).bind fun _ _ _ h => h.mono And.left
  | dropContext k =>
    refine dropAt_safe (fun hk => ⟨hkeeps, List.prefix_rfl, fun hmust => ?_⟩) fun guard hk => ?_
    · rw [Operation.asks, hk] at hmust
      exact Bool.noConfusion hmust.2
    · refine (dropContext_safe hkeeps (Owned.get_of_live hk)).bind
        fun _ _ _ h => h.mono fun hmust => ?_
      rw [Operation.asks, hk] at hmust
      exact hmust.2
  | dropSpan k =>
    refine dropAt_safe (fun hk => ⟨hkeeps, List.prefix_rfl, fun hmust => ?_⟩) fun guard hk => ?_
    · rw [Operation.asks, hk] at hmust
      exact Bool.noConfusion hmust.2
    · refine (dropSpan_safe hkeeps (Owned.get_of_live hk)).bind
        fun _ _ _ h => h.mono fun hmust => ?_
      rw [Operation.asks, hk] at hmust
      exact hmust.2

end Safe

/-! ## Runs -/

theorem rely : Shared.Rely (machine usizeBits schema dispatchers) Memory.Good Memory.Later
    Locals.Keeps where
  toGrows := grows
  later _ _ _ hle h := h.later hle
  start _ _ := ⟨⟨fun _ he => (List.not_mem_nil he).elim, fun _ ho => (List.not_mem_nil ho).elim⟩,
    Ledger.settled_nil, Ledger.settled_nil⟩
  code _ operation _ _ _ hkeeps := (code_safe hkeeps operation).mono fun _ _ _ h => h.keeps

variable (usizeBits schema dispatchers) in
abbrev Reachable (runtime : τ) : World δ τ → Prop :=
  Transition.Reaches (machine usizeBits schema dispatchers).step Transition.always
    (initial usizeBits runtime)

variable {runtime : τ} {w : World δ τ}

theorem sound_of_reachable (h : Reachable usizeBits schema dispatchers runtime w) :
    Shared.Sound (machine usizeBits schema dispatchers) Memory.Good Memory.Later Locals.Keeps w := by
  refine h.invariant (fun _ _ _ hw _ hs => Shared.sound_step rely hw hs) ⟨?_, ?_⟩
  · have hfresh : UNINSTALLED ≠ INSTALLED := by decide
    exact ⟨rfl, fun hinstalled => absurd hinstalled hfresh⟩
  · exact fun _ hm => (List.not_mem_nil hm).elim

theorem writing_balanced (h : Reachable usizeBits schema dispatchers runtime w) :
    ∃ stakes, (writing δ τ).Balanced 1 w stakes :=
  Shared.Right.balanced_of_reaches writing_moved h rfl (le_refl 1)

theorem installing_balanced (h : Reachable usizeBits schema dispatchers runtime w) :
    ∃ stakes, (installing δ τ).Balanced 1 w stakes :=
  Shared.Right.balanced_of_reaches installing_moved h rfl (le_refl 1)

theorem writes_eq {t : Memory δ τ} (hone : t.writes.length ≤ 1) (hd : d ∈ t.writes) :
    t.writes = [d] := by
  obtain ⟨e, he⟩ := List.length_eq_one_iff.mp (le_antisymm hone (List.length_pos_of_mem hd))
  rw [he] at hd ⊢
  rw [List.mem_singleton.mp hd]

/-- The thread is about to access the cell. -/
def Request.touches : Request δ → Bool
  | .writeDispatcher _ | .readDispatcher => true
  | _ => false

/-- **One dispatcher**: in every interleaving the cell is written once at most, with nothing in it
before and no other thread about to touch it; nobody reads it unwritten; one installation succeeds
at most; and whatever has answered any thread, or was installed by it, is the value that was
written. -/
theorem one_dispatcher (h : Reachable usizeBits schema dispatchers runtime w) :
    (∀ (i : ℕ) (s : Locals δ) (dispatcher : δ) (next : Unit → Code δ Unit),
      w.threads[i]? = some ⟨s, .waiting (.writeDispatcher dispatcher) next⟩ →
        w.memory.writes = [] ∧ ∀ (j : ℕ) (s' : Locals δ) (request : Request δ)
          (next' : request.Answer → Code δ Unit), j ≠ i →
            w.threads[j]? = some ⟨s', .waiting request next'⟩ → request.touches = false) ∧
      (∀ thread ∈ w.threads, thread.status ≠ .panicked) ∧
      (w.threads.map fun thread => thread.locals.installs.countP succeeded).sum ≤ 1 ∧
      ∀ thread ∈ w.threads, (∀ e ∈ thread.locals.heard, w.memory.writes = [e.dispatcher]) ∧
        ∀ outcome ∈ thread.locals.installs, succeeded outcome = true →
          w.memory.writes = [outcome.1] := by
  obtain ⟨stakes, hwriting⟩ := writing_balanced h
  obtain ⟨stakes', hinstalling⟩ := installing_balanced h
  have hsound := sound_of_reachable h
  have hone : w.memory.writes.length ≤ 1 := by
    have htotal := hwriting.total
    simp only [writing] at htotal
    omega
  refine ⟨fun i s dispatcher next hi => ?_, fun thread hm hpanicked => ?_, ?_, fun thread hm => ?_⟩
  · have hdemand := hwriting.demand_le hi
    have hleft : (1 : ℕ) + (w.memory.vacant + w.memory.writes.length) ≤ 1 := hdemand
    have hnil : w.memory.writes = [] := List.eq_nil_of_length_eq_zero (by omega)
    refine ⟨hnil, fun j s' request next' hne hj => ?_⟩
    cases request with
    | writeDispatcher dispatcher' =>
      have hboth := hwriting.demand_add_le hne.symm hi hj
      have htwo : (1 : ℕ) + 1 + (w.memory.vacant + w.memory.writes.length) ≤ 1 := hboth
      omega
    | readDispatcher =>
      -- the read could be made now, and there is nothing to be read
      have hstep : (machine usizeBits schema dispatchers).step w (.move j) =
          some { memory := { w.memory with
                   undefined := w.memory.undefined || w.memory.writes.isEmpty }
                 threads := w.threads.set j
                  (Shared.settle (next' w.memory.writes.head?) s') } := by
        rw [Shared.Machine.step, hj]
        rfl
      have hdefined := (sound_of_reachable (h.tail trivial hstep)).memory.defined
      rw [hnil] at hdefined
      cases (Bool.or_eq_false_iff.mp hdefined).2
    | _ => rfl
  · have hfine := hsound.threads thread hm
    rw [Shared.Fine, hpanicked] at hfine
    exact hfine
  · have hsum := hinstalling.sum_held_le
    exact (Nat.le_add_right _ _).trans hsum
  · have hkeeps := (hsound.threads thread hm).locals
    exact ⟨fun e he => writes_eq hone (hkeeps.heard e he).written,
      fun o ho hok => writes_eq hone (hkeeps.installs o ho hok).written⟩

/-- A dispatcher that counts its calls, and hands out tokens by their number. -/
def counting : Dispatchers ℕ ℕ := fun _ query calls =>
  some (match query with
    | .generation => calls
    | .interest _ | .contextualInterest _ _ => Interest.NONE
    | .captureContext | .createContext _ _ | .enterContext _ => ⟨UInt64.ofNat calls, 0⟩
    | .startSpan _ => ⟨UInt64.ofNat calls, 0⟩
    | .emit _ | .linkContext _ _ | .exitContext _ | .endSpan _ _ => (), calls + 1)

/-- Call sites that all log that a page was opened. -/
def pages : ℕ → Metadata := fun _ =>
  { eventName := "page.opened", package := "app", target := "app", modulePath := "app"
    domain := none, severity := .info, eventClass := .operational, kind := .event
    location := none, fields := [] }

/-- Two threads install at once, and one of them has the cell. -/
def racing : List (Shared.Action (Operation ℕ)) :=
  [.spawn, .spawn, .call 0 (.enter .none), .move 0, .call 0 (.install 7), .call 1 (.install 8),
    .move 1, .move 0, .move 1, .move 1, .call 0 (.enter .none), .move 0, .move 0, .move 0]

theorem one_dispatcher_racing : ∃ w : World ℕ ℕ,
    Transition.run (machine 64 pages counting).step (initial 64 3) racing = some w ∧
      w.threads.map (fun thread => thread.locals.heard.map Heard.dispatcher) = [[8], []] ∧
        ∀ thread ∈ w.threads, ∀ e ∈ thread.locals.heard, w.memory.writes = [e.dispatcher] := by
  have hrun : Transition.run (machine 64 pages counting).step (initial 64 3) racing =
      some _ := rfl
  exact ⟨_, hrun, rfl, fun thread hm =>
    ((one_dispatcher (Transition.reaches_of_run_always racing hrun)).2.2.2 thread hm).1⟩

/-- **An installation is seen**: once it has returned, every call through the facade that has
something to ask is answered, by what was installed. -/
theorem installed_answers (h : Reachable usizeBits schema dispatchers runtime w)
    (hinstalled : ∃ thread ∈ w.threads, (d, Except.ok ()) ∈ thread.locals.installs) {i : ℕ}
    {status : Shared.Status (Locals δ) (Request.Answer (δ := δ))}
    (hi : w.threads[i]? = some ⟨s, status⟩) {operation : Operation δ}
    (hasks : operation.asks s = true) {actions : List (Shared.Action (Operation δ))}
    (hquiet : ∀ operation, .call i operation ∉ actions) {w' : World δ τ}
    (hrun : Transition.run (machine usizeBits schema dispatchers).step w
      (.call i operation :: actions) = some w') :
    ∃ s' status', w'.threads[i]? = some ⟨s', status'⟩ ∧ status' ≠ .panicked ∧
      (status' = .idle → ∃ new, new ≠ [] ∧ s'.heard = s.heard ++ new ∧
        ∀ e ∈ new, e.dispatcher = d) := by
  have hsound := sound_of_reachable h
  have hreach' : Reachable usizeBits schema dispatchers runtime w' :=
    h.trans (Transition.reaches_of_run_always _ hrun)
  obtain ⟨thread, hm, hok⟩ := hinstalled
  have hhas : w.memory.Has d := (hsound.threads thread hm).locals.installs _ hok rfl
  have hkeeps : s.Keeps w.memory := (hsound.threads _ (List.mem_of_getElem? hi)).locals
  have hsafe : Safely usizeBits schema dispatchers
      (fun _ s' t' => s.heard <+: s'.heard ∧ s'.heard ≠ s.heard ∧ s'.Keeps t' ∧ t'.Has d)
      (operation.code usizeBits schema) s w.memory :=
    ((code_safe hkeeps operation).later grows).mono fun _ _ _ h =>
      ⟨h.2.grown, h.2.answered ⟨hhas.installed, hasks⟩, h.2.keeps, hhas.later h.1⟩
  obtain ⟨⟨s', status'⟩, hi', hfine⟩ := Shared.fine_of_call rely hsound
    (fun _ _ _ hle h => ⟨h.1, h.2.1, h.2.2.1.later hle, h.2.2.2.later hle⟩) hi hsafe hquiet hrun
  refine ⟨s', status', hi', ?_, ?_⟩
  · rintro rfl
    exact hfine
  · rintro rfl
    obtain ⟨⟨new, hnew⟩, hne, hkeeps', hhas'⟩ := hfine
    refine ⟨new, ?_, hnew.symm, fun e he => ?_⟩
    · rintro rfl
      exact hne (hnew.symm.trans (List.append_nil _))
    · have hone := (one_dispatcher hreach').2.2.2 _ (List.mem_of_getElem? hi')
      have hheard := hone.1 e (hnew ▸ List.mem_append_right _ he)
      have hd := hhas'.written
      rw [hheard] at hd
      exact (List.mem_singleton.mp hd).symm

theorem installed_answers_racing : ∃ (w w' : World ℕ ℕ) (s s' : Locals ℕ),
    Transition.run (machine 64 pages counting).step (initial 64 3) racing = some w ∧
      Transition.run (machine 64 pages counting).step w
        [.call 0 .capture, .move 0, .move 0, .move 0] = some w' ∧
      w.threads[0]? = some ⟨s, .idle⟩ ∧ w'.threads[0]? = some ⟨s', .idle⟩ ∧
      ∃ new, new ≠ [] ∧ s'.heard = s.heard ++ new ∧ ∀ e ∈ new, e.dispatcher = 8 := by
  have hrun : Transition.run (machine 64 pages counting).step (initial 64 3) racing = some _ := rfl
  have hreach : Reachable 64 pages counting 3 _ := Transition.reaches_of_run_always racing hrun
  obtain ⟨s', status', hi', -, hnew⟩ := installed_answers hreach
    ⟨_, List.mem_of_getElem? (i := 1) rfl, List.mem_singleton_self _⟩ (i := 0) rfl
    (rfl : Operation.asks _ .capture = true) (by simp)
    (rfl : Transition.run (machine 64 pages counting).step _
      [.call 0 .capture, .move 0, .move 0, .move 0] = some _)
  obtain rfl : status' = .idle := Option.some_inj.mp
    (congrArg (Option.map Shared.Thread.status) hi').symm
  exact ⟨_, _, _, s', hrun, rfl, rfl, hi', hnew rfl⟩

/-- **Guards settle what they opened**: of the contexts a thread was told to be in before it
entered others, those the dispatcher was told to go back to and those of the guards that are still
there are all, each once; and so for the spans it started and ended. -/
theorem guards_settle (h : Reachable usizeBits schema dispatchers runtime w)
    {thread : Shared.Thread (Locals δ) (Request.Answer (δ := δ))} (hm : thread ∈ w.threads) :
    (thread.locals.heard.filterMap Heard.exited ++
        thread.locals.contexts.filterMap (Owned.due ContextGuard.key)).Perm
        (thread.locals.heard.filterMap Heard.entered) ∧
      (thread.locals.heard.filterMap Heard.ended ++
        thread.locals.spans.filterMap (Owned.due SpanGuard.key)).Perm
        (thread.locals.heard.filterMap Heard.started) :=
  have hkeeps := ((sound_of_reachable h).threads thread hm).locals
  ⟨hkeeps.contexts, hkeeps.spans⟩

/-- The guard of the time without a dispatcher goes first, then the other one. -/
theorem guards_settle_racing : ∃ (w : World ℕ ℕ) (thread : Shared.Thread _ _),
    Transition.run (machine 64 pages counting).step (initial 64 3)
        (racing ++ [.call 0 (.dropContext 0), .call 0 (.dropContext 1), .move 0, .move 0,
          .move 0]) = some w ∧
      w.threads[0]? = some thread ∧ thread.locals.heard.filterMap Heard.entered = [⟨3, 0⟩] ∧
      (thread.locals.heard.filterMap Heard.exited ++ []).Perm [⟨3, 0⟩] := by
  have hrun : Transition.run (machine 64 pages counting).step (initial 64 3)
      (racing ++ [.call 0 (.dropContext 0), .call 0 (.dropContext 1), .move 0, .move 0,
        .move 0]) = some _ := rfl
  exact ⟨_, _, hrun, rfl, rfl, (guards_settle (Transition.reaches_of_run_always _ hrun)
    (List.mem_of_getElem? (i := 0) rfl)).1⟩

end Logwise.Installation
