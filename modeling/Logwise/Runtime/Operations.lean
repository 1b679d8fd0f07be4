import Logwise.Runtime.State

/-!
# Runtime operations

The methods of `Runtime` and its `Dispatch` implementation, each as one whole call. `none`
is a call that does not return: a failed exhaustion assertion, an instant past the last one, or
a lineage walk that never ends. `now` is the instant the call reads from the clock.
-/

namespace Logwise

/-- `u64::MAX`. -/
def u64Max : UInt64 := 0xFFFFFFFFFFFFFFFF

/-- A counter that is not exhausted counts on. -/
theorem toNat_add_one {n : UInt64} (h : n ≠ u64Max) : (n + 1).toNat = n.toNat + 1 := by
  have hlt := n.toNat_lt
  have hne : n.toNat ≠ u64Max.toNat := fun he => h (UInt64.toNat_inj.mp he)
  have hval : u64Max.toNat = 2 ^ 64 - 1 := rfl
  rw [UInt64.toNat_add, UInt64.toNat_one, Nat.mod_eq_of_lt (by omega)]

namespace Runtime

def advanceGeneration (platform : Platform) (rt : Runtime) : Option Runtime :=
  if rt.generation = platform.usizeMax - 1 then none
  else some { rt with generation := (rt.generation + 1) % 2 ^ platform.usizeBits }

def setInterest (platform : Platform) (interest : Interest) (rt : Runtime) : Option Runtime :=
  advanceGeneration platform { rt with baselineInterest := interest.withoutContextual }

def selectorAvailability (platform : Platform) (filter : Filter) (rt : Runtime) :
    ActivationResult :=
  if rt.catalog.any (fun metadata => filter.matchesStatic platform metadata) then .enabled
  else if filter.eventName.isSome && rt.catalog.any (fun metadata =>
      filter.domain.all fun domain => domainMatches metadata domain) then .notCompiled
  else .unknownSelector

def activate (platform : Platform) (filter : Filter) (interest : Interest) (ttl : Duration)
    (now : Instant) (rt : Runtime) : Option (ActivationResult × Runtime) :=
  if filter.target.any (fun target => target != platform.target) then
    some (.unavailableTarget, rt)
  else
    let availability := rt.selectorAvailability platform filter
    if availability ≠ .enabled ∧ filter.context = none then some (availability, rt)
    else if platform.lastInstant < now + ttl then none
    else
      let activation : Activation :=
        { filter := filter, interest := interest.withoutContextual, expires := now + ttl }
      (advanceGeneration platform { rt with activations := rt.activations ++ [activation] }).map
        fun rt => (.enabled, rt)

def activateContext (platform : Platform) (root : ContextToken) (interest : Interest)
    (ttl : Duration) (now : Instant) (rt : Runtime) : Option Runtime :=
  (activate platform (Filter.new.withContext root true) interest ttl now rt).map Prod.snd

def addSink (platform : Platform) (sink : SinkHandle) (capability : Capability)
    (filter : Filter) (level : DetailLevel) (rt : Runtime) : Option (SinkId × Runtime) :=
  if rt.nextSink = u64Max then none
  else
    let registration : SinkRegistration :=
      { id := ⟨rt.nextSink⟩, sink := sink, capability := capability, detail := level,
        filter := filter }
    (advanceGeneration platform
      { rt with nextSink := rt.nextSink + 1, sinks := rt.sinks ++ [registration] }).map
        fun rt => (registration.id, rt)

def addRemoteSink (platform : Platform) (sink : SinkHandle) (filter : Filter)
    (level : DetailLevel) (rt : Runtime) : Option (SinkId × Runtime) :=
  addSink platform sink .remote filter level rt

def addLocalSink (platform : Platform) (sink : SinkHandle) (filter : Filter)
    (level : DetailLevel) (rt : Runtime) : Option (SinkId × Runtime) :=
  addSink platform sink .localRetained filter level rt

/-- The only sink capability that can receive secret fields. -/
def addEphemeralSink (platform : Platform) (sink : SinkHandle) (filter : Filter)
    (level : DetailLevel) (rt : Runtime) : Option (SinkId × Runtime) :=
  addSink platform sink .trustedEphemeral filter level rt

def removeSink (platform : Platform) (id : SinkId) (rt : Runtime) : Option (Bool × Runtime) :=
  if rt.sinks.any (fun registration => registration.id == id) then
    (advanceGeneration platform
      { rt with sinks := rt.sinks.eraseP fun registration => registration.id == id }).map
        fun rt => (true, rt)
  else some (false, rt)

/-- The activations `retain` keeps at instant `now`. -/
def unexpired (now : Instant) (rt : Runtime) : List Activation :=
  rt.activations.filter fun activation => now < activation.expires

/-- Drop the expired activations, advancing the generation when there were any. -/
def retainUnexpired (platform : Platform) (now : Instant) (rt : Runtime) : Option Runtime :=
  if rt.activations.length ≠ (rt.unexpired now).length then
    advanceGeneration platform { rt with activations := rt.unexpired now }
  else some { rt with activations := rt.unexpired now }

def pruneExpiredActivations (platform : Platform) (now : Instant) (rt : Runtime) :
    Option Runtime :=
  if rt.activations.isEmpty then some rt else retainUnexpired platform now rt

/-- `activation_interest`; `metadata` is absent when only the context is asked about. -/
def activationInterest (platform : Platform) (metadata : Option Metadata)
    (context : ContextToken) (now : Instant) (rt : Runtime) : Option (Interest × Runtime) :=
  let matching : Activation → Option Bool := fun activation =>
    if metadata.all (fun metadata => activation.filter.matchesStatic platform metadata) then
      activation.filter.matchesContext rt.contexts context
    else some false
  (Walk.select matching (rt.unexpired now)).bind fun hits =>
    (retainUnexpired platform now rt).map fun rt =>
      (hits.foldl (fun interest activation => interest.union activation.interest)
        Interest.NONE, rt)

def contextIsActive (platform : Platform) (context : ContextToken) (now : Instant)
    (rt : Runtime) : Option (Bool × Runtime) :=
  (activationInterest platform none context now rt).map fun (interest, rt) => (interest.any, rt)

/-- What one registration contributes to the cacheable mask of a call site. -/
def cacheableInterest (sink : SinkRegistration) : Interest :=
  if sink.filter.context.isSome then Interest.CONTEXTUAL
  else sinkInterest sink.capability sink.detail

/-- The mask `interest` computes from the configuration once expired activations are gone. -/
def staticInterest (platform : Platform) (metadata : Metadata) (rt : Runtime) : Interest :=
  let interest := rt.sinks.foldl (fun interest sink =>
    if sink.filter.matchesStatic platform metadata then interest.union (cacheableInterest sink)
    else interest) rt.baselineInterest
  rt.activations.foldl (fun interest activation =>
    -- a TTL activation is always refined dynamically, so that it can expire in time
    if activation.filter.matchesStatic platform metadata then interest.union Interest.CONTEXTUAL
    else interest) interest

def interest (platform : Platform) (metadata : Metadata) (now : Instant) (rt : Runtime) :
    Option (Interest × Runtime) :=
  (pruneExpiredActivations platform now rt).map fun rt =>
    let catalog := if rt.catalog.any (fun known => known == metadata) then rt.catalog
      else rt.catalog ++ [metadata]
    (rt.staticInterest platform metadata, { rt with catalog := catalog })

def contextualInterest (platform : Platform) (metadata : Metadata) (context : ContextToken)
    (now : Instant) (rt : Runtime) : Option (Interest × Runtime) :=
  (activationInterest platform (some metadata) context now rt).bind fun (active, rt') =>
    (Walk.select (fun sink : SinkRegistration =>
      sink.filter.selects platform rt'.contexts metadata context) rt'.sinks).map fun hits =>
        (hits.foldl (fun interest sink => interest.union (sinkInterest sink.capability sink.detail))
          (rt.baselineInterest.union active), rt')

def createContext (parent : ContextToken) (name : String) (rt : Runtime) :
    Option (ContextToken × Runtime) :=
  let id := rt.nextContext
  if id = u64Max then none
  else
    let token := ContextToken.fromParts id 0
    let snapshot : ContextSnapshot :=
      { token := token
        name := name
        parent := if parent.isNone then none else some parent
        links := [] }
    some (token, { rt with
      nextContext := rt.nextContext + 1
      contexts := (id, snapshot) :: rt.contexts })

def linkContext (context related : ContextToken) (rt : Runtime) : Runtime :=
  { rt with contexts := rt.contexts.map fun (id, snapshot) =>
      if id = context.id ∧ related ∉ snapshot.links then
        (id, { snapshot with links := snapshot.links ++ [related] })
      else (id, snapshot) }

def startSpan (span : SpanRef) (now : Instant) (rt : Runtime) : Option (SpanToken × Runtime) :=
  let id := rt.nextSpan
  if id = u64Max then none
  else
    let active : ActiveSpan :=
      { eventName := span.event.metadata.eventName
        context := span.event.context
        timing := span.timing
        started := now
        warningThreshold := span.warningThreshold }
    some (⟨id, 0⟩, { rt with
      nextSpan := rt.nextSpan + 1
      activeSpans := (id, active) :: rt.activeSpans })

/-- `end_span`. At the retention limit the oldest completion makes room and is counted. -/
def endSpan (span : SpanToken) (capturedContext : ContextToken) (now : Instant)
    (rt : Runtime) : Runtime :=
  match rt.activeSpans.lookup span.id with
  | none => rt
  | some active =>
    let elapsed := now - active.started
    let completed : CompletedSpan :=
      { token := span
        eventName := active.eventName
        context := capturedContext
        timing := active.timing
        elapsed := elapsed
        warningThreshold := active.warningThreshold
        thresholdExceeded := active.warningThreshold.any fun threshold => threshold ≤ elapsed }
    let full := rt.completedSpans.length = COMPLETED_SPAN_RETENTION
    { rt with
      activeSpans := rt.activeSpans.filter fun entry => entry.1 != span.id
      completedSpans := (if full then rt.completedSpans.tail else rt.completedSpans) ++ [completed]
      completedSpansDropped :=
        if full then rt.completedSpansDropped + 1 else rt.completedSpansDropped }

def takeCompletedSpans (rt : Runtime) : List CompletedSpan × Runtime :=
  (rt.completedSpans, { rt with completedSpans := [] })

end Runtime

/-- A whole configuration call, as an application or a sink's callback makes it. -/
inductive Operation where
  | setInterest (interest : Interest)
  | activate (filter : Filter) (interest : Interest) (ttl : Duration)
  | activateContext (root : ContextToken) (interest : Interest) (ttl : Duration)
  | addRemoteSink (sink : SinkHandle) (filter : Filter) (level : DetailLevel)
  | addLocalSink (sink : SinkHandle) (filter : Filter) (level : DetailLevel)
  | addEphemeralSink (sink : SinkHandle) (filter : Filter) (level : DetailLevel)
  | removeSink (id : SinkId)
  | createContext (parent : ContextToken) (name : String)
  | linkContext (context related : ContextToken)

/-- Make the call at instant `now`, forgetting what it returns. -/
def Operation.perform (platform : Platform) (now : Instant) (rt : Runtime) :
    Operation → Option Runtime
  | .setInterest interest => rt.setInterest platform interest
  | .activate filter interest ttl =>
    (rt.activate platform filter interest ttl now).map Prod.snd
  | .activateContext root interest ttl => rt.activateContext platform root interest ttl now
  | .addRemoteSink sink filter level => (rt.addRemoteSink platform sink filter level).map Prod.snd
  | .addLocalSink sink filter level => (rt.addLocalSink platform sink filter level).map Prod.snd
  | .addEphemeralSink sink filter level =>
    (rt.addEphemeralSink platform sink filter level).map Prod.snd
  | .removeSink id => (rt.removeSink platform id).map Prod.snd
  | .createContext parent name => (rt.createContext parent name).map Prod.snd
  | .linkContext context related => some (rt.linkContext context related)

/-! ## What an operation leaves alone -/

namespace Runtime

variable {platform : Platform} {rt rt' : Runtime}

theorem advanceGeneration_frame (h : advanceGeneration platform rt = some rt') :
    ∃ generation, rt' = { rt with generation := generation } := by
  unfold advanceGeneration at h
  split at h
  · cases h
  · exact ⟨_, (Option.some.inj h).symm⟩

theorem activate_frame {filter : Filter} {interest : Interest} {ttl : Duration} {now : Instant}
    {result : ActivationResult}
    (h : activate platform filter interest ttl now rt = some (result, rt')) :
    ∃ activations generation,
      rt' = { rt with activations := activations, generation := generation } := by
  unfold activate at h
  split at h
  · cases h
    exact ⟨_, _, rfl⟩
  dsimp only at h
  split at h
  · cases h
    exact ⟨_, _, rfl⟩
  split at h
  · cases h
  · obtain ⟨next, hadvance, he⟩ := Option.map_eq_some_iff.mp h
    obtain ⟨generation, rfl⟩ := advanceGeneration_frame hadvance
    cases he
    exact ⟨_, _, rfl⟩

theorem addSink_frame {sink : SinkHandle} {capability : Capability} {filter : Filter}
    {level : DetailLevel} {id : SinkId}
    (h : addSink platform sink capability filter level rt = some (id, rt')) :
    ∃ nextSink sinks generation,
      rt' = { rt with nextSink := nextSink, sinks := sinks, generation := generation } := by
  unfold addSink at h
  split at h
  · cases h
  · obtain ⟨next, hadvance, he⟩ := Option.map_eq_some_iff.mp h
    obtain ⟨generation, rfl⟩ := advanceGeneration_frame hadvance
    cases he
    exact ⟨_, _, _, rfl⟩

theorem removeSink_frame {id : SinkId} {removed : Bool}
    (h : removeSink platform id rt = some (removed, rt')) :
    ∃ sinks generation, rt' = { rt with sinks := sinks, generation := generation } := by
  unfold removeSink at h
  split at h
  · obtain ⟨next, hadvance, he⟩ := Option.map_eq_some_iff.mp h
    obtain ⟨generation, rfl⟩ := advanceGeneration_frame hadvance
    cases he
    exact ⟨_, _, rfl⟩
  · cases h
    exact ⟨_, _, rfl⟩

theorem createContext_frame {parent token : ContextToken} {name : String}
    (h : createContext parent name rt = some (token, rt')) :
    ∃ nextContext contexts,
      rt' = { rt with nextContext := nextContext, contexts := contexts } := by
  unfold createContext at h
  dsimp only at h
  split at h
  · cases h
  · cases h
    exact ⟨_, _, rfl⟩

end Runtime

end Logwise
