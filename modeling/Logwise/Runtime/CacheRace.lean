import Logwise.Library.Slots
import Logwise.Library.Transition
import Logwise.Runtime.State

/-!
# One call site, many threads

`Callsite::interest` (`src/dispatch.rs`) as its single loads and stores. The two words of the cache
are not published together: a generation may come to stand next to a mask of another. Calls may
interleave in any way with each other and with changes of the dispatcher's generation, and the
dispatcher may answer differently at every call.
-/

namespace Logwise.CacheRace

/-- How far a call of `interest` has got. -/
inductive CallPc where
  | start
  | readGeneration
  | loadGeneration (generation : ℕ)
  | loadTagged (generation : ℕ)
  | ask (generation : ℕ)
  | storeTagged (generation : ℕ) (interest : Interest)
  | storeGeneration (generation : ℕ) (interest : Interest)
  /-- There is no dispatcher, and nothing is wanted. -/
  | unwanted
  /-- The cached mask is returned. -/
  | cached (generation : ℕ) (interest : Interest)
  /-- The dispatcher's answer is returned. -/
  | told (generation : ℕ) (interest : Interest)
  deriving DecidableEq

/-- The generation a call has read and the mask it has obtained from the dispatcher for it. -/
def CallPc.obtained : CallPc → Option (ℕ × Interest)
  | .storeTagged generation interest | .storeGeneration generation interest
  | .told generation interest => some (generation, interest)
  | _ => none

structure State where
  /-- The current generation of the dispatcher, once it is installed. -/
  dispatcher : Option ℕ
  cache : Cache
  calls : List CallPc

def initial (platform : Platform) : State :=
  { dispatcher := none, cache := Cache.new platform.usizeMax, calls := [] }

inductive Action where
  | install (generation : ℕ)
  | setGeneration (generation : ℕ)
  | call
  /-- The next step of a call; `answer` is what the dispatcher says if it is asked. -/
  | stepCall (i : ℕ) (answer : Interest)
  deriving DecidableEq

def setCall (i : ℕ) (pc : CallPc) (s : State) : State := { s with calls := s.calls.set i pc }

def callStep (platform : Platform) (i : ℕ) (answer : Interest) (s : State) : CallPc → Option State
  | .start =>
    match s.dispatcher with
    | none => some (setCall i .unwanted s)
    | some _ => some (setCall i .readGeneration s)
  | .readGeneration => s.dispatcher.map fun generation => setCall i (.loadGeneration generation) s
  | .loadGeneration generation =>
    if s.cache.generation = generation then some (setCall i (.loadTagged generation) s)
    else some (setCall i (.ask generation) s)
  | .loadTagged generation =>
    let cached := s.cache.taggedInterest
    let interest := Interest.fromBits cached
    if Cache.tag platform.usizeBits generation interest = cached then
      some (setCall i (.cached generation interest) s)
    else some (setCall i (.ask generation) s)
  | .ask generation => some (setCall i (.storeTagged generation answer) s)
  | .storeTagged generation interest =>
    some (setCall i (.storeGeneration generation interest) { s with
      cache := { s.cache with
        taggedInterest := Cache.tag platform.usizeBits generation interest } })
  | .storeGeneration generation interest =>
    some (setCall i (.told generation interest) { s with
      cache := { s.cache with generation := generation } })
  | .unwanted | .cached _ _ | .told _ _ => none

def step (platform : Platform) (s : State) : Action → Option State
  | .install generation =>
    if s.dispatcher = none then some { s with dispatcher := some generation } else none
  | .setGeneration generation => s.dispatcher.map fun _ => { s with dispatcher := some generation }
  | .call => some { s with calls := s.calls ++ [.start] }
  | .stepCall i answer => s.calls[i]?.bind fun pc => callStep platform i answer s pc

/-- The generations fit the upper bits of a tagged word. -/
def Bounded (platform : Platform) (_ : State) : Action → Prop
  | .install generation | .setGeneration generation =>
    generation < 2 ^ (platform.usizeBits - INTEREST_WIDTH)
  | _ => True

instance (platform : Platform) (s : State) (a : Action) : Decidable (Bounded platform s a) := by
  cases a <;> unfold Bounded <;> infer_instance

variable {platform : Platform} {s s' : State} {generation : ℕ} {interest : Interest}

/-- A generation in range and its mask lie next to each other in a tagged word. -/
theorem tag_eq (h : generation < 2 ^ (platform.usizeBits - INTEREST_WIDTH)) (interest : Interest) :
    Cache.tag platform.usizeBits generation interest =
      generation * 2 ^ 7 + interest.bits.toNat := by
  have hwidth : INTEREST_WIDTH = 7 := rfl
  have hsplit : 2 ^ platform.usizeBits = 2 ^ (platform.usizeBits - 7) * 2 ^ 7 := by
    rw [← Nat.pow_add]
    have := platform.wide
    congr 1
    omega
  have hlt : generation * 2 ^ 7 < 2 ^ platform.usizeBits := by
    rw [hsplit]
    exact Nat.mul_lt_mul_of_pos_right (hwidth ▸ h) (by decide)
  rw [Cache.tag, hwidth, Nat.shiftLeft_eq, Nat.mod_eq_of_lt hlt, ← Nat.shiftLeft_eq,
    ← Nat.shiftLeft_add_eq_or_of_lt interest.bits.isLt]

/-- A tagged word says which generation its mask was computed for. -/
theorem tag_inj {generation' : ℕ} {interest' : Interest}
    (h : generation < 2 ^ (platform.usizeBits - INTEREST_WIDTH))
    (h' : generation' < 2 ^ (platform.usizeBits - INTEREST_WIDTH))
    (heq : Cache.tag platform.usizeBits generation interest =
      Cache.tag platform.usizeBits generation' interest') :
    generation = generation' ∧ interest = interest' := by
  rw [tag_eq h, tag_eq h'] at heq
  have hmask := interest.bits.isLt
  have hmask' := interest'.bits.isLt
  have hsame : generation = generation' := by omega
  refine ⟨hsame, Interest.ext_bits (BitVec.eq_of_toNat_eq ?_)⟩
  omega

/-- The generation a call has read. -/
def CallPc.read : CallPc → Option ℕ
  | .loadGeneration generation | .loadTagged generation | .ask generation
  | .storeTagged generation _ | .storeGeneration generation _ | .cached generation _
  | .told generation _ => some generation
  | _ => none

/-- The call has found its generation in the cache, or has stored its tagged mask. -/
def CallPc.afterTagged : CallPc → Bool
  | .loadTagged _ | .storeGeneration _ _ => true
  | _ => false

/-- Some call that had read the generation was told the mask. -/
def State.Obtained (s : State) (generation : ℕ) (interest : Interest) : Prop :=
  ∃ call ∈ s.calls, call.obtained = some (generation, interest)

/-- The tagged word is one that a call stored for the mask it was told. -/
def State.WordObtained (platform : Platform) (s : State) : Prop :=
  ∃ generation interest, generation < 2 ^ (platform.usizeBits - INTEREST_WIDTH) ∧
    s.cache.taggedInterest = Cache.tag platform.usizeBits generation interest ∧
      s.Obtained generation interest

/-- Where the words of the cache and the locals of the calls come from. Every call stores its
tagged mask before its generation, so that a generation in the cache vouches for the other word. -/
structure State.Tagged (platform : Platform) (s : State) : Prop where
  installed : ∀ generation, s.dispatcher = some generation →
    generation < 2 ^ (platform.usizeBits - INTEREST_WIDTH)
  read : ∀ call ∈ s.calls, ∀ generation, call.read = some generation →
    generation < 2 ^ (platform.usizeBits - INTEREST_WIDTH)
  word : s.cache.generation = platform.usizeMax ∨ s.WordObtained platform
  stored : ∀ call ∈ s.calls, call.afterTagged = true → s.WordObtained platform
  served : ∀ call ∈ s.calls, ∀ generation interest, call = .cached generation interest →
    s.Obtained generation interest

theorem tagged_initial (platform : Platform) : (initial platform).Tagged platform where
  installed _ h := by cases h
  read _ h := by cases h
  word := Or.inl rfl
  stored _ h := by cases h
  served _ h := by cases h

theorem lt_usizeMax (h : generation < 2 ^ (platform.usizeBits - INTEREST_WIDTH)) :
    generation < platform.usizeMax := by
  have hwide := platform.wide
  have hlt : 2 ^ (platform.usizeBits - INTEREST_WIDTH) < 2 ^ platform.usizeBits :=
    Nat.pow_lt_pow_right (by decide) (by rw [show INTEREST_WIDTH = 7 from rfl]; omega)
  rw [Platform.usizeMax]
  omega

variable {i : ℕ} {old pc : CallPc}

theorem State.Obtained.set (h : s.Obtained generation interest) (hi : s.calls[i]? = some old)
    (hkeep : ∀ told, old.obtained = some told → pc.obtained = some told)
    (hcalls : s'.calls = s.calls.set i pc) : s'.Obtained generation interest := by
  obtain ⟨call, hcall, hobtained⟩ := h
  by_cases hsame : call = old
  · refine ⟨pc, hcalls ▸ List.mem_of_getElem? (Slots.getElem?_set_of_some hi), ?_⟩
    exact hkeep _ (hsame ▸ hobtained)
  · exact ⟨call, hcalls ▸ Slots.mem_set_of_ne hi hcall hsame, hobtained⟩

/-- A step of one call that leaves the tagged word alone. -/
theorem State.WordObtained.set (h : s.WordObtained platform) (hi : s.calls[i]? = some old)
    (hkeep : ∀ told, old.obtained = some told → pc.obtained = some told)
    (hcalls : s'.calls = s.calls.set i pc)
    (hword : s'.cache.taggedInterest = s.cache.taggedInterest) : s'.WordObtained platform := by
  obtain ⟨generation, interest, hbound, htagged, hobtained⟩ := h
  exact ⟨generation, interest, hbound, hword.trans htagged, hobtained.set hi hkeep hcalls⟩

/-- A step of one call. -/
theorem State.Tagged.advance (h : s.Tagged platform) (hi : s.calls[i]? = some old)
    (hcalls : s'.calls = s.calls.set i pc) (hdispatcher : s'.dispatcher = s.dispatcher)
    (hkeep : ∀ told, old.obtained = some told → pc.obtained = some told)
    (hread : ∀ generation, pc.read = some generation →
      generation < 2 ^ (platform.usizeBits - INTEREST_WIDTH))
    (hword : s.WordObtained platform → s'.WordObtained platform)
    (hgeneration : s'.cache.generation = s.cache.generation ∨ s'.WordObtained platform)
    (hstored : pc.afterTagged = true → s'.WordObtained platform)
    (hserved : ∀ generation interest, pc = .cached generation interest →
      s.Obtained generation interest) : s'.Tagged platform where
  installed generation hg := h.installed generation (hdispatcher ▸ hg)
  read call hcall generation hg := by
    obtain hold | rfl := List.mem_or_eq_of_mem_set (hcalls ▸ hcall)
    · exact h.read call hold generation hg
    · exact hread generation hg
  word := by
    obtain hsame | hnew := hgeneration
    · exact h.word.imp hsame.trans hword
    · exact Or.inr hnew
  stored call hcall hafter := by
    obtain hold | rfl := List.mem_or_eq_of_mem_set (hcalls ▸ hcall)
    · exact hword (h.stored call hold hafter)
    · exact hstored hafter
  served call hcall generation interest hcached := by
    obtain hold | rfl := List.mem_or_eq_of_mem_set (hcalls ▸ hcall)
    · exact (h.served call hold generation interest hcached).set hi hkeep hcalls
    · exact (hserved generation interest hcached).set hi hkeep hcalls

/-- A hit: the word was stored for the generation the call has read. -/
theorem obtained_of_hit (h : s.WordObtained platform)
    (hbound : generation < 2 ^ (platform.usizeBits - INTEREST_WIDTH))
    (hhit : Cache.tag platform.usizeBits generation (Interest.fromBits s.cache.taggedInterest) =
      s.cache.taggedInterest) :
    s.Obtained generation (Interest.fromBits s.cache.taggedInterest) := by
  obtain ⟨generation', interest, hbound', htagged, hobtained⟩ := h
  obtain ⟨hsame, hmask⟩ := tag_inj hbound hbound' (hhit.trans htagged)
  rw [hsame, hmask]
  exact hobtained

theorem tagged_callStep {answer : Interest} (h : s.Tagged platform) (hi : s.calls[i]? = some old)
    (hs : callStep platform i answer s old = some s') : s'.Tagged platform := by
  have hmem : old ∈ s.calls := List.mem_of_getElem? hi
  cases old with
  | start =>
    simp only [callStep] at hs
    split at hs <;> cases hs
    all_goals
      exact h.advance hi rfl rfl nofun nofun (fun hw => hw.set hi nofun rfl rfl) (Or.inl rfl)
        nofun nofun
  | readGeneration =>
    obtain ⟨generation, hg, rfl⟩ := Option.map_eq_some_iff.mp hs
    refine h.advance hi rfl rfl nofun (fun read hread => ?_)
      (fun hw => hw.set hi nofun rfl rfl) (Or.inl rfl) nofun nofun
    cases hread
    exact h.installed generation hg
  | loadGeneration generation =>
    -- no call stores the initial generation, so a match was stored after its mask
    have hbound := h.read _ hmem generation rfl
    simp only [callStep] at hs
    split at hs
    next hsame =>
      cases hs
      have hword : s.WordObtained platform := by
        refine h.word.resolve_left fun hinitial => ?_
        have := lt_usizeMax hbound
        omega
      refine h.advance hi rfl rfl nofun (fun read hread => ?_) (fun hw => hw.set hi nofun rfl rfl)
        (Or.inl rfl) (fun _ => hword.set hi nofun rfl rfl) nofun
      cases hread
      exact hbound
    next =>
      cases hs
      refine h.advance hi rfl rfl nofun (fun read hread => ?_) (fun hw => hw.set hi nofun rfl rfl)
        (Or.inl rfl) nofun nofun
      cases hread
      exact hbound
  | loadTagged generation =>
    -- the tag names one generation, the one this call has read
    have hbound := h.read _ hmem generation rfl
    simp only [callStep] at hs
    split at hs
    next hhit =>
      cases hs
      refine h.advance hi rfl rfl nofun (fun read hread => ?_) (fun hw => hw.set hi nofun rfl rfl)
        (Or.inl rfl) nofun fun g m hcached => ?_
      · cases hread
        exact hbound
      · cases hcached
        exact obtained_of_hit (h.stored _ hmem rfl) hbound hhit
    next =>
      cases hs
      refine h.advance hi rfl rfl nofun (fun read hread => ?_) (fun hw => hw.set hi nofun rfl rfl)
        (Or.inl rfl) nofun nofun
      cases hread
      exact hbound
  | ask generation =>
    cases hs
    refine h.advance hi rfl rfl nofun (fun read hread => ?_) (fun hw => hw.set hi nofun rfl rfl)
      (Or.inl rfl) nofun nofun
    cases hread
    exact h.read _ hmem generation rfl
  | storeTagged generation interest =>
    -- from here on the word is this call's own
    cases hs
    have hbound := h.read _ hmem generation rfl
    have hnew : State.WordObtained platform (setCall i (.storeGeneration generation interest) { s with
        cache := { s.cache with
          taggedInterest := Cache.tag platform.usizeBits generation interest } }) :=
      ⟨generation, interest, hbound, rfl,
        _, List.mem_of_getElem? (Slots.getElem?_set_of_some hi), rfl⟩
    refine h.advance hi rfl rfl (fun _ hold => hold) (fun read hread => ?_) (fun _ => hnew)
      (Or.inl rfl) (fun _ => hnew) nofun
    cases hread
    exact hbound
  | storeGeneration generation interest =>
    -- its mask, or that of a later call, stands in the other word already
    cases hs
    have hkeep : ∀ told, (CallPc.storeGeneration generation interest).obtained = some told →
        (CallPc.told generation interest).obtained = some told := fun _ hold => hold
    refine h.advance hi rfl rfl hkeep (fun read hread => ?_) (fun hw => hw.set hi hkeep rfl rfl)
      (Or.inr ?_) nofun nofun
    · cases hread
      exact h.read _ hmem generation rfl
    · exact (h.stored _ hmem rfl).set hi hkeep rfl rfl
  | unwanted => cases hs
  | cached generation interest => cases hs
  | told generation interest => cases hs

theorem State.Obtained.push (h : s.Obtained generation interest) (call : CallPc) :
    State.Obtained { s with calls := s.calls ++ [call] } generation interest := by
  obtain ⟨told, hmem, hobtained⟩ := h
  exact ⟨told, List.mem_append_left _ hmem, hobtained⟩

theorem State.Tagged.redispatched (h : s.Tagged platform)
    (hbound : generation < 2 ^ (platform.usizeBits - INTEREST_WIDTH)) :
    State.Tagged platform { s with dispatcher := some generation } where
  installed g hg := by
    cases hg
    exact hbound
  read := h.read
  word := h.word
  stored := h.stored
  served := h.served

/-- A call that begins has read nothing. -/
theorem State.Tagged.called (h : s.Tagged platform) :
    State.Tagged platform { s with calls := s.calls ++ [.start] } := by
  have hword : s.WordObtained platform →
      State.WordObtained platform { s with calls := s.calls ++ [.start] } := by
    rintro ⟨generation, interest, hbound, htagged, hobtained⟩
    exact ⟨generation, interest, hbound, htagged, hobtained.push _⟩
  refine ⟨h.installed, ?_, h.word.imp_right hword, ?_, ?_⟩
  · exact Slots.forall_mem_concat h.read nofun
  · refine Slots.forall_mem_concat ?_ nofun
    exact fun call hcall hafter => hword (h.stored call hcall hafter)
  · refine Slots.forall_mem_concat ?_ nofun
    exact fun call hcall generation interest hcached =>
      (h.served call hcall generation interest hcached).push _

theorem tagged_step (s : State) (a : Action) (s' : State) (h : s.Tagged platform)
    (hok : Bounded platform s a) (hs : step platform s a = some s') : s'.Tagged platform := by
  cases a with
  | install generation =>
    simp only [step] at hs
    split at hs
    · cases hs
      exact h.redispatched hok
    · cases hs
  | setGeneration generation =>
    obtain ⟨-, -, rfl⟩ := Option.map_eq_some_iff.mp hs
    exact h.redispatched hok
  | call =>
    cases hs
    exact h.called
  | stepCall i answer =>
    obtain ⟨old, hold, hcall⟩ := Option.bind_eq_some_iff.mp hs
    exact tagged_callStep h hold hcall

theorem tagged_of_reaches
    (h : Transition.Reaches (step platform) (Bounded platform) (initial platform) s) :
    s.Tagged platform :=
  h.invariant tagged_step (tagged_initial platform)

/-- A mask served from the cache was obtained for the generation it is served for, and the cache
serves nothing before its first store. -/
theorem cached_mask_obtained (platform : Platform) (s : State)
    (h : Transition.Reaches (step platform) (Bounded platform) (initial platform) s) :
    (∀ generation interest, CallPc.cached generation interest ∈ s.calls →
        ∃ call ∈ s.calls, call.obtained = some (generation, interest)) ∧
      (s.cache = Cache.new platform.usizeMax → ∀ i generation answer s',
        generation < 2 ^ (platform.usizeBits - INTEREST_WIDTH) →
          s.calls[i]? = some (.loadGeneration generation) →
            step platform s (.stepCall i answer) = some s' →
              s'.calls[i]? = some (.ask generation)) := by
  constructor
  · intro generation interest hcached
    exact (tagged_of_reaches h).served _ hcached generation interest rfl
  · intro hinitial i generation answer s' hbound hi hs
    have hmiss : s.cache.generation ≠ generation := by
      rw [hinitial]
      exact (lt_usizeMax hbound).ne'
    simp only [step, hi, Option.bind_some, callStep, if_neg hmiss] at hs
    cases hs
    exact Slots.getElem?_set_of_some hi

/-- Two calls store crosswise: the newer generation is left next to the older mask. The third call
sees it and asks, and the fourth is served what the third was told. -/
def crossed : List Action :=
  .install 1 :: .call :: (List.replicate 4 (.stepCall 0 Interest.CORE_SECRET) ++
    .setGeneration 2 :: .call :: (List.replicate 5 (.stepCall 1 Interest.NONE) ++
      (List.replicate 2 (.stepCall 0 Interest.NONE) ++ .stepCall 1 Interest.NONE :: .call ::
        (List.replicate 7 (.stepCall 2 Interest.CORE_SUPPORT) ++ .call ::
          List.replicate 4 (.stepCall 3 Interest.NONE)))))

theorem cached_mask_obtained_crossed :
    ∃ s : State,
      Transition.Reaches (step Platform.native64) (Bounded Platform.native64)
        (initial Platform.native64) s ∧
      (∀ generation interest, CallPc.cached generation interest ∈ s.calls →
        ∃ call ∈ s.calls, call.obtained = some (generation, interest)) ∧
      s.calls = [.told 1 Interest.CORE_SECRET, .told 2 Interest.NONE, .told 2 Interest.CORE_SUPPORT,
        .cached 2 Interest.CORE_SUPPORT] := by
  obtain ⟨s, hreach, hcalls⟩ := Transition.exists_reaches (step Platform.native64)
    (Bounded Platform.native64) (initial Platform.native64)
    (fun s => s.calls = [.told 1 Interest.CORE_SECRET, .told 2 Interest.NONE,
      .told 2 Interest.CORE_SUPPORT, .cached 2 Interest.CORE_SUPPORT]) crossed (by decide +kernel)
  exact ⟨s, hreach, (cached_mask_obtained Platform.native64 s hreach).1, hcalls⟩

/-- The two loads of a call that nothing interrupts decide as `hit` does. -/
theorem hit_iff_cached {answer : Interest} (site : Callsite) (hsite : site.cache = s.cache)
    (hi : s.calls[i]? = some (.loadGeneration generation)) :
    site.hit platform.usizeBits generation = some interest ↔
      ∃ s', Transition.run (step platform) s [.stepCall i answer, .stepCall i answer] = some s' ∧
        s'.calls[i]? = some (.cached generation interest) := by
  have hset : ∀ pc, (setCall i pc s).calls[i]? = some pc := fun pc =>
    Slots.getElem?_set_of_some hi
  have hagain : ∀ pc pc', (setCall i pc' (setCall i pc s)).calls[i]? = some pc' := fun pc pc' =>
    Slots.getElem?_set_of_some (hset pc)
  have hcache : ∀ pc, (setCall i pc s).cache = s.cache := fun _ => rfl
  by_cases hgeneration : s.cache.generation = generation
  · by_cases htag : Cache.tag platform.usizeBits generation
        (Interest.fromBits s.cache.taggedInterest) = s.cache.taggedInterest
    · simp [Callsite.hit, Transition.run, step, callStep, hsite, hi, hset, hagain, hcache,
        hgeneration, htag]
    · simp [Callsite.hit, Transition.run, step, callStep, hsite, hi, hset, hagain, hcache,
        hgeneration, htag]
  · simp [Callsite.hit, Transition.run, step, callStep, hsite, hi, hset, hagain, hgeneration]

end Logwise.CacheRace
