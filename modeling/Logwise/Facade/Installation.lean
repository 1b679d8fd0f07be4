import Logwise.Facade.Callsite
import Logwise.Library.Ledger
import Logwise.Library.Stake

/-!
# The one dispatcher of a process

`src/dispatch.rs` (`mod global` and what goes through it), and the guards of `src/context.rs` and
`src/span.rs`. Any number of threads install dispatchers, ask through the facade and drop guards;
each access of `STATE`, of the cell `DISPATCHER` and of a call site's cache is one step, and so is
a call of the dispatcher, which may answer anything.
-/

namespace Logwise.Installation

open Ledger (Owned)
open Reentrant (Program)

/-- `AlreadyInstalled` is what a target with atomics may answer. -/
inductive InstallError where
  | alreadyInstalled
  deriving DecidableEq

def UNINSTALLED : ℕ := 0

def INSTALLING : ℕ := 1

def INSTALLED : ℕ := 2

/-- A call of the dispatcher, one for each method of `Dispatch`. -/
inductive Query where
  | generation
  | interest (metadata : Metadata)
  | contextualInterest (metadata : Metadata) (context : ContextToken)
  | emit (event : EventRef)
  | captureContext
  | createContext (parent : ContextToken) (name : String)
  | linkContext (context related : ContextToken)
  | enterContext (context : ContextToken)
  | exitContext (previous : ContextToken)
  | startSpan (span : SpanRef)
  | endSpan (span : SpanToken) (context : ContextToken)

@[reducible] def Query.Answer : Query → Type
  | .generation => ℕ
  | .interest _ | .contextualInterest _ _ => Interest
  | .captureContext | .createContext _ _ | .enterContext _ => ContextToken
  | .startSpan _ => SpanToken
  | .emit _ | .linkContext _ _ | .exitContext _ | .endSpan _ _ => Unit

variable {δ τ : Type}

/-- An access of what the threads share; a call site is given by its place. -/
inductive Request (δ : Type) where
  /-- `STATE.compare_exchange(UNINSTALLED, INSTALLING)`. -/
  | compareExchange
  | writeDispatcher (dispatcher : δ)
  /-- `STATE.store(INSTALLED)`. -/
  | storeInstalled
  | loadState
  | readDispatcher
  | loadGeneration (site : ℕ)
  | loadTagged (site : ℕ)
  | storeTagged (site tagged : ℕ)
  | storeGeneration (site generation : ℕ)
  | invoke (dispatcher : δ) (query : Query)

/-- `readDispatcher` answers `none` where nothing has been written. -/
@[reducible] def Request.Answer : Request δ → Type
  | .compareExchange => Bool
  | .readDispatcher => Option δ
  | .loadState | .loadGeneration _ | .loadTagged _ => ℕ
  | .writeDispatcher _ | .storeInstalled | .storeTagged _ _ | .storeGeneration _ _ => Unit
  | .invoke _ query => query.Answer

/-- A call of a dispatcher and what it answered. -/
structure Heard (δ : Type) where
  dispatcher : δ
  query : Query
  answer : query.Answer

structure ContextGuard where
  previous : ContextToken
  active : Bool
  deriving DecidableEq

def ContextGuard.inactive : ContextGuard := ⟨.none, false⟩

structure SpanGuard where
  token : SpanToken
  context : ContextToken
  active : Bool
  deriving DecidableEq

namespace SpanGuard

def disabled : SpanGuard := ⟨.none, .none, false⟩

def new (token : SpanToken) (context : ContextToken) : SpanGuard := ⟨token, context, !token.isNone⟩

end SpanGuard

/-- What a thread has been told, the guards it was given, none of which is ever moved to another
thread, and what its calls of `install_dispatcher` returned. -/
structure Locals (δ : Type) where
  heard : List (Heard δ)
  contexts : List (Owned ContextGuard)
  spans : List (Owned SpanGuard)
  installs : List (δ × Except InstallError Unit)

abbrev Code (δ α : Type) := Program (Locals δ) (Request.Answer (δ := δ)) α

abbrev ask (request : Request δ) : Code δ request.Answer := Program.request request

abbrev read : Code δ (Locals δ) := Program.read

abbrev modify (f : Locals δ → Locals δ) : Code δ Unit := Program.modify f

namespace Locals

def hear (heard : Heard δ) (s : Locals δ) : Locals δ := { s with heard := s.heard ++ [heard] }

def keepContext (guard : ContextGuard) (s : Locals δ) : Locals δ :=
  { s with contexts := s.contexts ++ [⟨guard, false⟩] }

def keepSpan (guard : SpanGuard) (s : Locals δ) : Locals δ :=
  { s with spans := s.spans ++ [⟨guard, false⟩] }

def dropContext (k : ℕ) (guard : ContextGuard) (s : Locals δ) : Locals δ :=
  { s with contexts := s.contexts.set k ⟨guard, true⟩ }

def dropSpan (k : ℕ) (guard : SpanGuard) (s : Locals δ) : Locals δ :=
  { s with spans := s.spans.set k ⟨guard, true⟩ }

def returned (dispatcher : δ) (outcome : Except InstallError Unit) (s : Locals δ) : Locals δ :=
  { s with installs := s.installs ++ [(dispatcher, outcome)] }

end Locals

/-! ## The code -/

/-- `global::install`. -/
def install (dispatcher : δ) : Code δ (Except InstallError Unit) := do
  if ← ask .compareExchange then
    ask (.writeDispatcher dispatcher)
    ask .storeInstalled
    pure (.ok ())
  else pure (.error .alreadyInstalled)

/-- `global::dispatcher`. -/
def dispatcher : Code δ (Option δ) := do
  if (← ask .loadState) ≠ INSTALLED then pure none
  else
    match ← ask .readDispatcher with
    | some dispatcher => pure (some dispatcher)
    -- `assume_init` of what was never written
    | none => .panic

def invoke (dispatcher : δ) (query : Query) : Code δ query.Answer := do
  let answer ← ask (.invoke dispatcher query)
  modify (Locals.hear ⟨dispatcher, query, answer⟩)
  pure answer

/-- A call that does nothing without a dispatcher. -/
def invokeInstalled (query : Query) : Code δ (Option query.Answer) := do
  match ← dispatcher with
  | some dispatcher => do
    let answer ← invoke dispatcher query
    pure (some answer)
  | none => pure none

/-- The end of `Callsite::interest`, where the cache did not help. -/
def recompute (usizeBits site generation : ℕ) (metadata : Metadata) (dispatcher : δ) :
    Code δ Interest := do
  let interest ← invoke dispatcher (.interest metadata)
  ask (.storeTagged site (Cache.tag usizeBits generation interest))
  ask (.storeGeneration site generation)
  pure interest

def interest (usizeBits site : ℕ) (metadata : Metadata) : Code δ Interest := do
  match ← dispatcher with
  | none => pure Interest.NONE
  | some dispatcher =>
    let generation ← invoke dispatcher .generation
    if (← ask (.loadGeneration site)) = generation then
      let cached ← ask (.loadTagged site)
      let interest := Interest.fromBits cached
      if Cache.tag usizeBits generation interest = cached then pure interest
      else recompute usizeBits site generation metadata dispatcher
    else recompute usizeBits site generation metadata dispatcher

def contextualInterest (metadata : Metadata) (interest : Interest) (context : ContextToken) :
    Code δ Interest := do
  if interest.isContextual then
    let answer ← invokeInstalled (.contextualInterest metadata context)
    pure (answer.getD Interest.NONE)
  else pure interest

def emit (event : EventRef) : Code δ Unit := do
  let _ ← invokeInstalled (.emit event)

def startSpan (span : SpanRef) : Code δ SpanGuard := do
  match ← invokeInstalled (.startSpan span) with
  | none => pure SpanGuard.disabled
  | some token => pure (SpanGuard.new token span.event.context)

def capture : Code δ ContextToken := do
  let answer ← invokeInstalled .captureContext
  pure (answer.getD .none)

def child (parent : ContextToken) (name : String) : Code δ ContextToken := do
  let answer ← invokeInstalled (.createContext parent name)
  pure (answer.getD .none)

def link (context related : ContextToken) : Code δ Unit := do
  let _ ← invokeInstalled (.linkContext context related)

def enter (context : ContextToken) : Code δ ContextGuard := do
  match ← invokeInstalled (.enterContext context) with
  | none => pure ContextGuard.inactive
  | some previous => pure ⟨previous, true⟩

/-- `ContextGuard::drop`. -/
def ContextGuard.drop (guard : ContextGuard) : Code δ Unit :=
  if guard.active then do
    let _ ← invokeInstalled (.exitContext guard.previous)
  else pure ()

/-- `SpanGuard::drop`. -/
def SpanGuard.drop (guard : SpanGuard) : Code δ Unit :=
  if guard.active then do
    let _ ← invokeInstalled (.endSpan guard.token guard.context)
  else pure ()

/-- The `k`-th guard is dropped, unless it has been before. -/
def dropAt {γ : Type} (guards : Locals δ → List (Owned γ)) (drop : γ → Code δ Unit)
    (letGo : γ → Locals δ → Locals δ) (k : ℕ) : Code δ Unit := do
  match Owned.live (guards (← read)) k with
  | some guard => do
    drop guard
    modify (letGo guard)
  | none => pure ()

/-- What a thread may call. A guard is dropped once at most, in whatever order. -/
inductive Operation (δ : Type) where
  | install (dispatcher : δ)
  | interest (site : ℕ)
  | contextualInterest (site : ℕ) (mask : Interest) (context : ContextToken)
  | emit (event : EventRef)
  | startSpan (span : SpanRef)
  | capture
  | child (parent : ContextToken) (name : String)
  | link (context related : ContextToken)
  | enter (context : ContextToken)
  | dropContext (k : ℕ)
  | dropSpan (k : ℕ)

/-- The call, with what becomes of its result. -/
def Operation.code (usizeBits : ℕ) (schema : ℕ → Metadata) : Operation δ → Code δ Unit
  | .install dispatcher => do
    let outcome ← Installation.install dispatcher
    modify (Locals.returned dispatcher outcome)
  | .interest site => do
    let _ ← Installation.interest usizeBits site (schema site)
  | .contextualInterest site mask context => do
    let _ ← Installation.contextualInterest (schema site) mask context
  | .emit event => Installation.emit event
  | .startSpan span => do
    let guard ← Installation.startSpan span
    modify (Locals.keepSpan guard)
  | .capture => do
    let _ ← Installation.capture
  | .child parent name => do
    let _ ← Installation.child parent name
  | .link context related => Installation.link context related
  | .enter context => do
    let guard ← Installation.enter context
    modify (Locals.keepContext guard)
  | .dropContext k => dropAt Locals.contexts ContextGuard.drop (Locals.dropContext k) k
  | .dropSpan k => dropAt Locals.spans SpanGuard.drop (Locals.dropSpan k) k

/-! ## What the threads share -/

/-- `writes` are the values `DISPATCHER` has been given, the last one first; `undefined` says that
it has been read before there was any. -/
structure Memory (δ τ : Type) where
  state : ℕ
  writes : List δ
  undefined : Bool
  caches : ℕ → Cache
  runtime : τ

/-- What the dispatchers do: `none` is a call that does not return. -/
abbrev Dispatchers (δ τ : Type) := δ → (query : Query) → τ → Option (query.Answer × τ)

def serve (dispatchers : Dispatchers δ τ) :
    (request : Request δ) → Memory δ τ → Option (request.Answer × Memory δ τ)
  | .compareExchange, t =>
    if t.state = UNINSTALLED then some (true, { t with state := INSTALLING }) else some (false, t)
  | .writeDispatcher dispatcher, t => some ((), { t with writes := dispatcher :: t.writes })
  | .storeInstalled, t => some ((), { t with state := INSTALLED })
  | .loadState, t => some (t.state, t)
  | .readDispatcher, t =>
    some (t.writes.head?, { t with undefined := t.undefined || t.writes.isEmpty })
  | .loadGeneration site, t => some ((t.caches site).generation, t)
  | .loadTagged site, t => some ((t.caches site).taggedInterest, t)
  | .storeTagged site tagged, t =>
    some ((), { t with
      caches := Function.update t.caches site { t.caches site with taggedInterest := tagged } })
  | .storeGeneration site generation, t =>
    some ((), { t with
      caches := Function.update t.caches site { t.caches site with generation := generation } })
  | .invoke dispatcher query, t =>
    (dispatchers dispatcher query t.runtime).map fun (answer, runtime) =>
      (answer, { t with runtime := runtime })

def machine (usizeBits : ℕ) (schema : ℕ → Metadata) (dispatchers : Dispatchers δ τ) :
    Shared.Machine (Locals δ) (Memory δ τ) (Operation δ) (Request.Answer (δ := δ)) where
  start := { heard := [], contexts := [], spans := [], installs := [] }
  code := Operation.code usizeBits schema
  admits _ _ := true
  serve := serve dispatchers

abbrev World (δ τ : Type) := Shared.World (Locals δ) (Memory δ τ) (Request.Answer (δ := δ))

def initial (usizeBits : ℕ) (runtime : τ) : World δ τ :=
  { memory := { state := UNINSTALLED, writes := [], undefined := false
                caches := fun _ => Cache.new (2 ^ usizeBits - 1), runtime := runtime }
    threads := [] }

end Logwise.Installation
