import Logwise.Runtime.Dispatch
import Logwise.Library.Transition

/-!
# Call-site caches against the direct answer

Any number of call sites over one runtime, in any order of whole operations, passing time,
emitted events and queries. A cached mask whose generation is current is the mask the runtime
would compute, so that a query answers what is requested whether or not it hit the cache.
-/

namespace Logwise

/-- A cache is coherent when it is empty or from no later generation than the runtime's, and
holds the runtime's own mask when the generations agree. -/
structure Callsite.Coherent (platform : Platform) (rt : Runtime) (site : Callsite) : Prop where
  seen : site.cache.generation = platform.usizeMax ∨ site.cache.generation ≤ rt.generation
  tagged : site.cache.generation = rt.generation →
    site.cache.taggedInterest =
      Cache.tag platform.usizeBits rt.generation (rt.staticInterest platform site.metadata)

/-- `Callsite::interest` at `now` and `Callsite::contextual_interest` at `now'`. -/
def Callsite.query (platform : Platform) (site : Callsite) (context : ContextToken)
    (now now' : Instant) (rt : Runtime) : Option (Interest × Callsite × Runtime) :=
  let process : Process := { runtime := rt, thread := ⟨context, false⟩, delivered := [] }
  (site.interest platform.usizeBits (some (Runtime.dispatch platform now [])) process).bind
    fun (cached, site, process) =>
      (site.contextualInterest (some (Runtime.dispatch platform now' [])) cached context
        process).map fun (mask, process) => (mask, site, process.runtime)

namespace Runtime

theorem staticInterest_congr {platform : Platform} {metadata : Metadata} {rt rt' : Runtime}
    (hb : rt'.baselineInterest = rt.baselineInterest) (hs : rt'.sinks = rt.sinks)
    (ha : rt'.activations = rt.activations) :
    rt'.staticInterest platform metadata = rt.staticInterest platform metadata := by
  rw [staticInterest, staticInterest, hb, hs, ha]

theorem Tracks.coherent {platform : Platform} {rt rt' : Runtime} {site : Callsite}
    (h : Tracks rt rt') (hs : Sound platform rt') (hc : site.Coherent platform rt) :
    site.Coherent platform rt' := by
  refine ⟨hc.seen.imp_right fun hle => hle.trans h.le, ?_⟩
  intro hgen
  obtain hlt | ⟨hg, hb, hsinks, ha⟩ := h
  · obtain hmax | hle := hc.seen
    · exact absurd (hmax ▸ hgen) hs.generation.ne'
    · omega
  · rw [hg, staticInterest_congr hb hsinks ha]
    exact hc.tagged (hgen.trans hg)

/-- A hit is the mask the runtime would compute. -/
theorem hit_eq_some {platform : Platform} {rt : Runtime} {site : Callsite} {mask : Interest}
    (hc : site.Coherent platform rt) (h : site.hit platform.usizeBits rt.generation = some mask) :
    mask = rt.staticInterest platform site.metadata := by
  unfold Callsite.hit at h
  dsimp only at h
  split at h
  next hcond =>
    rw [← Option.some.inj h, hc.tagged hcond.1, Cache.fromBits_tag platform.wide]
  next => cases h

/-- What `Runtime::interest` leaves: the pruned runtime, with the call site in the catalog. -/
theorem interest_eq_some {platform : Platform} {metadata : Metadata} {now : Instant}
    {rt rt' : Runtime} {mask : Interest} (hs : Sound platform rt)
    (h : rt.interest platform metadata now = some (mask, rt')) :
    mask = rt'.staticInterest platform metadata ∧
      rt'.sinks = rt.sinks ∧ rt'.contexts = rt.contexts ∧
      (∀ metadata context now', now ≤ now' →
        rt'.requested platform metadata context now' =
          rt.requested platform metadata context now') ∧
      Tracks rt rt' ∧ Sound platform rt' := by
  obtain ⟨pruned, hp, he⟩ := Option.map_eq_some_iff.mp h
  obtain ⟨hframe, htracks, hsound⟩ := pruneExpiredActivations_eq_some hs hp
  obtain ⟨hmask, hrt⟩ := Prod.mk.inj he
  have hsinks : pruned.sinks = rt.sinks := by rw [hframe]
  have hcontexts : pruned.contexts = rt.contexts := by rw [hframe]
  subst hrt
  refine ⟨hmask.symm, hsinks, hcontexts, ?_, htracks.trans (Or.inr ⟨rfl, rfl, rfl, rfl⟩),
    hsound.of_fields rfl rfl rfl⟩
  intro metadata context now' hle
  have hpruned : pruned.requested platform metadata context now' =
      rt.requested platform metadata context now' := requested_of_retain hle hframe
  exact hpruned

/-- What a query leaves behind, and what it answers. -/
structure Answered (platform : Platform) (site site' : Callsite) (context : ContextToken)
    (now' : Instant) (rt rt' : Runtime) (mask : Interest) : Prop where
  mask : mask = rt.requested platform site.metadata context now'
  metadata : site'.metadata = site.metadata
  coherent : site'.Coherent platform rt'
  sinks : rt'.sinks = rt.sinks
  contexts : rt'.contexts = rt.contexts
  tracks : Tracks rt rt'
  sound : Sound platform rt'

/-- The first half of a query: the answer is the runtime's static mask for the site. -/
theorem callsite_interest_eq_some {platform : Platform} {site site' : Callsite} {now : Instant}
    {rt : Runtime} {process process' : Process} {mask : Interest} {reactions : List Reaction}
    (hrt : process.runtime = rt) (hs : Sound platform rt) (hc : site.Coherent platform rt)
    (h : site.interest platform.usizeBits (some (dispatch platform now reactions)) process =
      some (mask, site', process')) :
    mask = process'.runtime.staticInterest platform site.metadata ∧
      process'.thread = process.thread ∧ process'.delivered = process.delivered ∧
      site'.metadata = site.metadata ∧ site'.Coherent platform process'.runtime ∧
      process'.runtime.sinks = rt.sinks ∧ process'.runtime.contexts = rt.contexts ∧
      (∀ metadata context now', now ≤ now' →
        process'.runtime.requested platform metadata context now' =
          rt.requested platform metadata context now') ∧
      Tracks rt process'.runtime ∧ Sound platform process'.runtime := by
  subst hrt
  unfold Callsite.interest at h
  dsimp only [dispatch] at h
  split at h
  next hit hhit =>
    cases h
    exact ⟨hit_eq_some hc hhit, rfl, rfl, rfl, hc, rfl, rfl, fun _ _ _ _ => rfl,
      Tracks.refl _, hs⟩
  next =>
    rw [Option.map_map] at h
    obtain ⟨⟨computed, rt'⟩, hi, he⟩ := Option.map_eq_some_iff.mp h
    obtain ⟨hmask, hsinks, hcontexts, hreq, htracks, hsound⟩ := interest_eq_some hs hi
    cases he
    refine ⟨hmask, rfl, rfl, rfl, ⟨Or.inr htracks.le, ?_⟩, hsinks, hcontexts, hreq, htracks,
      hsound⟩
    -- the generation was read before pruning: a mask is only found again if pruning kept it
    intro hgen
    dsimp only at hgen ⊢
    rw [hgen, hmask]

/-- The second half: a mask that needs refinement is refined to what is requested. -/
theorem callsite_contextualInterest_eq_some {platform : Platform} {site : Callsite}
    {context : ContextToken} {now' : Instant} {process process' : Process}
    {cached mask : Interest} {reactions : List Reaction} (hs : Sound platform process.runtime)
    (hcached : cached = process.runtime.staticInterest platform site.metadata)
    (h : site.contextualInterest (some (dispatch platform now' reactions)) cached context process =
      some (mask, process')) :
    mask = process.runtime.requested platform site.metadata context now' ∧
      process'.thread = process.thread ∧ process'.delivered = process.delivered ∧
      process'.runtime.sinks = process.runtime.sinks ∧
      process'.runtime.contexts = process.runtime.contexts ∧
      Tracks process.runtime process'.runtime ∧ Sound platform process'.runtime := by
  unfold Callsite.contextualInterest at h
  split at h
  next =>
    obtain ⟨⟨refined, rt'⟩, hi, he⟩ := Option.map_eq_some_iff.mp h
    obtain ⟨hmask, hret⟩ := contextualInterest_eq_some hs hi
    obtain ⟨hframe, htracks, hsound⟩ := retainUnexpired_eq_some hs hret
    cases he
    exact ⟨hmask, rfl, rfl, by rw [hframe], by rw [hframe], htracks, hsound⟩
  next hplain =>
    have hplain' : (process.runtime.staticInterest platform site.metadata).isContextual = false := by
      rw [← hcached]
      exact Bool.not_eq_true _ ▸ hplain
    cases h
    refine ⟨?_, rfl, rfl, rfl, rfl, Tracks.refl _, hs⟩
    rw [hcached]
    exact staticInterest_eq_requested hplain' context now'

theorem query_answered {platform : Platform} {site site' : Callsite} {context : ContextToken}
    {now now' : Instant} {rt rt' : Runtime} {mask : Interest} (hle : now ≤ now')
    (hs : Sound platform rt) (hc : site.Coherent platform rt)
    (h : site.query platform context now now' rt = some (mask, site', rt')) :
    Answered platform site site' context now' rt rt' mask := by
  obtain ⟨⟨cached, site₁, process₁⟩, hfirst, hrest⟩ := Option.bind_eq_some_iff.mp h
  obtain ⟨⟨refined, process₂⟩, hsecond, he⟩ := Option.map_eq_some_iff.mp hrest
  obtain ⟨hcached, -, -, hmeta, hcoh, hsinks, hcontexts, hreq, htracks, hsound⟩ :=
    callsite_interest_eq_some rfl hs hc hfirst
  obtain ⟨hmask, -, -, hsinks', hcontexts', htracks', hsound'⟩ :=
    callsite_contextualInterest_eq_some hsound (hmeta ▸ hcached) hsecond
  cases he
  refine ⟨?_, hmeta, htracks'.coherent hsound' hcoh, hsinks'.trans hsinks,
    hcontexts'.trans hcontexts, htracks.trans htracks', hsound'⟩
  rw [hmask, hmeta]
  exact hreq _ _ _ hle

/-! ## Queries return -/

theorem interest_generation_le {platform : Platform} {metadata : Metadata} {now : Instant}
    {rt rt' : Runtime} {mask : Interest} (hs : Sound platform rt)
    (h : rt.interest platform metadata now = some (mask, rt')) :
    rt'.generation ≤ rt.generation + 1 := by
  obtain ⟨pruned, hp, he⟩ := Option.map_eq_some_iff.mp h
  have hle : pruned.generation ≤ rt.generation + 1 := by
    unfold pruneExpiredActivations retainUnexpired at hp
    split at hp
    · cases hp
      omega
    split at hp
    · have hpruned : ({ rt with activations := rt.unexpired now } : Runtime).generation <
          platform.usizeMax := hs.generation
      obtain ⟨rfl, -⟩ := advanceGeneration_eq_some hpruned hp
      exact le_rfl
    · cases hp
      exact Nat.le_succ _
  rw [← (Prod.mk.inj he).2]
  exact hle

theorem interest_isSome {platform : Platform} {metadata : Metadata} {now : Instant} {rt : Runtime}
    (hg : rt.generation + 1 < platform.usizeMax) :
    (rt.interest platform metadata now).isSome := by
  rw [interest, Option.isSome_map, pruneExpiredActivations]
  split
  · rfl
  · exact retainUnexpired_isSome hg

theorem contextualInterest_isSome {platform : Platform} {metadata : Metadata}
    {context : ContextToken} {now : Instant} {rt : Runtime} (hs : Sound platform rt)
    (ha : Acyclic rt.contexts) (hg : rt.generation + 1 < platform.usizeMax) :
    (rt.contextualInterest platform metadata context now).isSome := by
  have hlive : (activationInterest platform (some metadata) context now rt).isSome := by
    obtain ⟨hits, hsel⟩ := Option.isSome_iff_exists.mp
      (Walk.select_isSome (fun activation : Activation =>
        if (some metadata).all fun metadata => activation.filter.matchesStatic platform metadata
        then activation.filter.matchesContext rt.contexts context else some false)
        (rt.unexpired now) (fun activation _ => by
          split
          · exact Filter.matchesContext_isSome ha ..
          · rfl))
    simp only [activationInterest, hsel, Option.bind_some, Option.isSome_map]
    exact retainUnexpired_isSome hg
  obtain ⟨⟨active, rt'⟩, hact⟩ := Option.isSome_iff_exists.mp hlive
  have hframe := (retainUnexpired_eq_some hs (activationInterest_eq_some hact)).1
  have hcontexts : rt'.contexts = rt.contexts := by rw [hframe]
  rw [contextualInterest, hact, Option.bind_some, Option.isSome_map]
  exact Walk.select_isSome _ _ fun sink _ => Filter.selects_isSome (hcontexts ▸ ha) ..

theorem callsite_interest_isSome (platform : Platform) (site : Callsite) (now : Instant)
    (reactions : List Reaction) (process : Process)
    (hg : process.runtime.generation + 1 < platform.usizeMax) :
    (site.interest platform.usizeBits (some (dispatch platform now reactions)) process).isSome := by
  unfold Callsite.interest
  dsimp only [dispatch]
  split
  · rfl
  · rw [Option.isSome_map, Option.isSome_map]
    exact interest_isSome hg

theorem callsite_interest_generation_le {platform : Platform} {site site' : Callsite}
    {now : Instant} {process process' : Process} {mask : Interest} {reactions : List Reaction}
    (hs : Sound platform process.runtime)
    (h : site.interest platform.usizeBits (some (dispatch platform now reactions)) process =
      some (mask, site', process')) :
    process'.runtime.generation ≤ process.runtime.generation + 1 := by
  unfold Callsite.interest at h
  dsimp only [dispatch] at h
  split at h
  · cases h
    exact Nat.le_succ _
  · rw [Option.map_map] at h
    obtain ⟨⟨computed, rt⟩, hi, he⟩ := Option.map_eq_some_iff.mp h
    cases he
    exact interest_generation_le hs hi

theorem callsite_contextualInterest_isSome {platform : Platform} (site : Callsite)
    (context : ContextToken) (now : Instant) {process : Process} (cached : Interest)
    (reactions : List Reaction) (hs : Sound platform process.runtime)
    (ha : Acyclic process.runtime.contexts)
    (hg : process.runtime.generation + 1 < platform.usizeMax) :
    (site.contextualInterest (some (dispatch platform now reactions)) cached context
      process).isSome := by
  unfold Callsite.contextualInterest
  split
  · dsimp only [dispatch]
    rw [Option.isSome_map]
    exact contextualInterest_isSome hs ha hg
  · rfl

/-- A query returns unless the generations run out or a lineage is circular. -/
theorem query_isSome {platform : Platform} {site : Callsite} {context : ContextToken}
    {now now' : Instant} {rt : Runtime} (hs : Sound platform rt)
    (hc : site.Coherent platform rt) (ha : Acyclic rt.contexts)
    (hg : rt.generation + 2 < platform.usizeMax) :
    (site.query platform context now now' rt).isSome := by
  obtain ⟨⟨cached, site', process⟩, hf⟩ := Option.isSome_iff_exists.mp
    (callsite_interest_isSome platform site now [] ⟨rt, ⟨context, false⟩, []⟩
      (show rt.generation + 1 < platform.usizeMax by omega))
  obtain ⟨-, -, -, -, -, -, hcontexts, -, -, hsound⟩ := callsite_interest_eq_some rfl hs hc hf
  have hgen : process.runtime.generation ≤ rt.generation + 1 :=
    callsite_interest_generation_le hs hf
  rw [Callsite.query]
  simp only [hf, Option.bind_some, Option.isSome_map]
  exact callsite_contextualInterest_isSome _ _ _ _ _ hsound (hcontexts ▸ ha) (by omega)

end Runtime

end Logwise
