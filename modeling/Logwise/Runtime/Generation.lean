import Logwise.Runtime.Operations

/-!
# Generations

What every operation does to the generation: it moves on whenever something a cached mask
depends on may have changed, and it never reaches the value reserved for an empty cache.
-/

namespace Logwise.Runtime

/-- What holds of every runtime: the reserved generation is not in use, and neither the
baseline nor an activation carries the contextual bit. -/
structure Sound (platform : Platform) (rt : Runtime) : Prop where
  generation : rt.generation < platform.usizeMax
  baseline : rt.baselineInterest.isContextual = false
  activations : ∀ activation ∈ rt.activations, activation.interest.isContextual = false

/-- From `rt` to `rt'` the generation moved on, or else nothing a mask depends on changed. -/
def Tracks (rt rt' : Runtime) : Prop :=
  rt.generation < rt'.generation ∨
    (rt'.generation = rt.generation ∧ rt'.baselineInterest = rt.baselineInterest ∧
      rt'.sinks = rt.sinks ∧ rt'.activations = rt.activations)

theorem Tracks.refl (rt : Runtime) : Tracks rt rt := Or.inr ⟨rfl, rfl, rfl, rfl⟩

theorem Tracks.le {rt rt' : Runtime} (h : Tracks rt rt') : rt.generation ≤ rt'.generation := by
  obtain hlt | ⟨he, -, -, -⟩ := h
  · exact hlt.le
  · exact he.ge

theorem Tracks.trans {a b c : Runtime} (hab : Tracks a b) (hbc : Tracks b c) : Tracks a c := by
  obtain hlt | ⟨hg, hb, hs, ha⟩ := hab
  · exact Or.inl (lt_of_lt_of_le hlt hbc.le)
  obtain hlt' | ⟨hg', hb', hs', ha'⟩ := hbc
  · exact Or.inl (hg ▸ hlt')
  · exact Or.inr ⟨hg'.trans hg, hb'.trans hb, hs'.trans hs, ha'.trans ha⟩

theorem Sound.of_fields {platform : Platform} {rt rt' : Runtime} (h : Sound platform rt)
    (hg : rt'.generation = rt.generation) (hb : rt'.baselineInterest = rt.baselineInterest)
    (ha : rt'.activations = rt.activations) : Sound platform rt' :=
  ⟨hg ▸ h.generation, hb ▸ h.baseline, ha ▸ h.activations⟩

theorem sound_new (platform : Platform) : Sound platform Runtime.new := by
  refine ⟨?_, rfl, fun _ h => by cases h⟩
  have hpow : 2 ^ 16 ≤ 2 ^ platform.usizeBits := Nat.pow_le_pow_right (by decide) platform.wide
  show 0 < 2 ^ platform.usizeBits - 1
  omega

/-! ## One lemma for each operation -/

/-- A step that advances the generation of `rt`, whatever it did to the configuration before. -/
theorem advanceGeneration_eq_some {platform : Platform} {rt rt' : Runtime}
    (hg : rt.generation < platform.usizeMax) (h : advanceGeneration platform rt = some rt') :
    rt' = { rt with generation := rt.generation + 1 } ∧
      rt.generation + 1 < platform.usizeMax := by
  unfold advanceGeneration at h
  split at h
  · cases h
  next hne =>
    have hlt : rt.generation + 1 < platform.usizeMax := by omega
    have hmod : (rt.generation + 1) % 2 ^ platform.usizeBits = rt.generation + 1 := by
      apply Nat.mod_eq_of_lt
      unfold Platform.usizeMax at hlt
      omega
    rw [hmod] at h
    exact ⟨(Option.some.inj h).symm, hlt⟩

theorem advanceGeneration_isSome {platform : Platform} {rt : Runtime}
    (hg : rt.generation + 1 < platform.usizeMax) :
    (advanceGeneration platform rt).isSome := by
  have hne : rt.generation ≠ platform.usizeMax - 1 := by omega
  rw [advanceGeneration, if_neg hne]
  rfl

/-- The common shape of a reconfiguration: change the record, then advance. -/
theorem tracks_of_advance {platform : Platform} {rt edited rt' : Runtime}
    (h : advanceGeneration platform edited = some rt') (hs : Sound platform rt)
    (hgen : edited.generation = rt.generation)
    (hb : edited.baselineInterest.isContextual = false)
    (ha : ∀ activation ∈ edited.activations, activation.interest.isContextual = false) :
    Tracks rt rt' ∧ Sound platform rt' := by
  obtain ⟨rfl, hlt⟩ := advanceGeneration_eq_some (hgen ▸ hs.generation) h
  refine ⟨Or.inl ?_, hlt, hb, ha⟩
  show rt.generation < edited.generation + 1
  omega

theorem setInterest_tracks {platform : Platform} {interest : Interest} {rt rt' : Runtime}
    (hs : Sound platform rt) (h : setInterest platform interest rt = some rt') :
    Tracks rt rt' ∧ Sound platform rt' :=
  tracks_of_advance h hs rfl (Interest.isContextual_withoutContextual interest) hs.activations

theorem activate_tracks {platform : Platform} {filter : Filter} {interest : Interest}
    {ttl : Duration} {now : Instant} {rt rt' : Runtime} {result : ActivationResult}
    (hs : Sound platform rt)
    (h : activate platform filter interest ttl now rt = some (result, rt')) :
    Tracks rt rt' ∧ Sound platform rt' := by
  unfold activate at h
  split at h
  · cases h
    exact ⟨Tracks.refl rt, hs⟩
  dsimp only at h
  split at h
  · cases h
    exact ⟨Tracks.refl rt, hs⟩
  split at h
  · cases h
  · obtain ⟨next, hadv, he⟩ := Option.map_eq_some_iff.mp h
    cases he
    refine tracks_of_advance hadv hs rfl hs.baseline ?_
    intro activation ha
    obtain hold | hnew := List.mem_append.mp ha
    · exact hs.activations activation hold
    · rw [List.mem_singleton.mp hnew]
      exact Interest.isContextual_withoutContextual interest

theorem addSink_tracks {platform : Platform} {sink : SinkHandle} {capability : Capability}
    {filter : Filter} {level : DetailLevel} {rt rt' : Runtime} {id : SinkId}
    (hs : Sound platform rt)
    (h : addSink platform sink capability filter level rt = some (id, rt')) :
    Tracks rt rt' ∧ Sound platform rt' := by
  unfold addSink at h
  split at h
  · cases h
  · obtain ⟨next, hadv, he⟩ := Option.map_eq_some_iff.mp h
    cases he
    exact tracks_of_advance hadv hs rfl hs.baseline hs.activations

theorem removeSink_tracks {platform : Platform} {id : SinkId} {rt rt' : Runtime} {removed : Bool}
    (hs : Sound platform rt) (h : removeSink platform id rt = some (removed, rt')) :
    Tracks rt rt' ∧ Sound platform rt' := by
  unfold removeSink at h
  split at h
  · obtain ⟨next, hadv, he⟩ := Option.map_eq_some_iff.mp h
    cases he
    exact tracks_of_advance hadv hs rfl hs.baseline hs.activations
  · cases h
    exact ⟨Tracks.refl rt, hs⟩

/-- **Expiry**: exactly the activations alive at `now` stay, and the generation moves on when
that drops one. -/
theorem retainUnexpired_eq_some {platform : Platform} {now : Instant} {rt rt' : Runtime}
    (hs : Sound platform rt) (h : retainUnexpired platform now rt = some rt') :
    rt' = { rt with activations := rt.unexpired now, generation := rt'.generation } ∧
      Tracks rt rt' ∧ Sound platform rt' := by
  have hlive : ∀ activation ∈ rt.unexpired now, activation.interest.isContextual = false :=
    fun activation ha => hs.activations activation (List.mem_filter.mp ha).1
  unfold retainUnexpired at h
  split at h
  · have htracks := tracks_of_advance h hs rfl hs.baseline hlive
    have hpruned : ({ rt with activations := rt.unexpired now } : Runtime).generation <
        platform.usizeMax := hs.generation
    obtain ⟨rfl, -⟩ := advanceGeneration_eq_some hpruned h
    exact ⟨rfl, htracks⟩
  next hlen =>
    have hsame : rt.unexpired now = rt.activations :=
      List.filter_sublist.eq_of_length (not_not.mp hlen).symm
    rw [hsame] at h ⊢
    cases h
    exact ⟨rfl, Tracks.refl rt, hs⟩

theorem retainUnexpired_isSome {platform : Platform} {now : Instant} {rt : Runtime}
    (hg : rt.generation + 1 < platform.usizeMax) :
    (retainUnexpired platform now rt).isSome := by
  unfold retainUnexpired
  split
  · exact advanceGeneration_isSome hg
  · rfl

theorem pruneExpiredActivations_eq_some {platform : Platform} {now : Instant}
    {rt rt' : Runtime} (hs : Sound platform rt)
    (h : pruneExpiredActivations platform now rt = some rt') :
    rt' = { rt with activations := rt.unexpired now, generation := rt'.generation } ∧
      Tracks rt rt' ∧ Sound platform rt' := by
  unfold pruneExpiredActivations at h
  split at h
  next hempty =>
    have hnil : rt.activations = [] := List.isEmpty_iff.mp hempty
    cases h
    refine ⟨?_, Tracks.refl rt, hs⟩
    rw [unexpired, hnil, List.filter_nil, ← hnil]
  · exact retainUnexpired_eq_some hs h

theorem activationInterest_eq_some {platform : Platform} {metadata : Option Metadata}
    {context : ContextToken} {now : Instant} {rt rt' : Runtime} {mask : Interest}
    (h : activationInterest platform metadata context now rt = some (mask, rt')) :
    retainUnexpired platform now rt = some rt' := by
  obtain ⟨hits, -, hrest⟩ := Option.bind_eq_some_iff.mp h
  obtain ⟨next, hret, he⟩ := Option.map_eq_some_iff.mp hrest
  cases he
  exact hret

theorem createContext_tracks {platform : Platform} {parent token : ContextToken} {name : String}
    {rt rt' : Runtime} (hs : Sound platform rt)
    (h : createContext parent name rt = some (token, rt')) :
    Tracks rt rt' ∧ Sound platform rt' := by
  unfold createContext at h
  dsimp only at h
  split at h
  · cases h
  · cases h
    exact ⟨Or.inr ⟨rfl, rfl, rfl, rfl⟩, hs.of_fields rfl rfl rfl⟩

/-- **Every configuration call** keeps the generation in step with the masks. -/
theorem perform_tracks {platform : Platform} {now : Instant} {operation : Operation}
    {rt rt' : Runtime} (hs : Sound platform rt)
    (h : operation.perform platform now rt = some rt') :
    Tracks rt rt' ∧ Sound platform rt' := by
  cases operation with
  | setInterest interest => exact setInterest_tracks hs h
  | activate filter interest ttl =>
    obtain ⟨⟨result, next⟩, ha, rfl⟩ := Option.map_eq_some_iff.mp h
    exact activate_tracks hs ha
  | activateContext root interest ttl =>
    obtain ⟨⟨result, next⟩, ha, rfl⟩ := Option.map_eq_some_iff.mp h
    exact activate_tracks hs ha
  | addRemoteSink sink filter level =>
    obtain ⟨⟨id, next⟩, ha, rfl⟩ := Option.map_eq_some_iff.mp h
    exact addSink_tracks hs ha
  | addLocalSink sink filter level =>
    obtain ⟨⟨id, next⟩, ha, rfl⟩ := Option.map_eq_some_iff.mp h
    exact addSink_tracks hs ha
  | addEphemeralSink sink filter level =>
    obtain ⟨⟨id, next⟩, ha, rfl⟩ := Option.map_eq_some_iff.mp h
    exact addSink_tracks hs ha
  | removeSink id =>
    obtain ⟨⟨removed, next⟩, ha, rfl⟩ := Option.map_eq_some_iff.mp h
    exact removeSink_tracks hs ha
  | createContext parent name =>
    obtain ⟨⟨token, next⟩, ha, rfl⟩ := Option.map_eq_some_iff.mp h
    exact createContext_tracks hs ha
  | linkContext context related =>
    cases h
    exact ⟨Or.inr ⟨rfl, rfl, rfl, rfl⟩, hs.of_fields rfl rfl rfl⟩

end Logwise.Runtime
