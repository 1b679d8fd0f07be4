import Logwise.Facade.Interest

/-!
# The dispatch seam and call sites

`src/dispatch.rs`. A `Dispatch` is what a runtime puts behind the facade; a `Callsite` keeps
the mask it was last told next to the generation the mask was computed for. `none` is a
dispatcher call that does not return.
-/

namespace Logwise

structure SpanToken where
  id : UInt64
  flags : UInt64
  deriving DecidableEq, Repr

namespace SpanToken

def none : SpanToken := ⟨0, 0⟩

def isNone (token : SpanToken) : Bool := token.id == 0

end SpanToken

inductive SpanTiming where
  | wallTime | activeTime | wakeLatency
  deriving DecidableEq, Repr

/-- A duration, in nanoseconds. -/
abbrev Duration := ℕ

structure SpanRef where
  event : EventRef
  timing : SpanTiming
  warningThreshold : Option Duration

/-- The dispatch ABI, over the state `σ` of whatever implements it. -/
structure Dispatch (σ : Type*) where
  generation : σ → ℕ
  interest : Metadata → σ → Option (Interest × σ)
  contextualInterest : Metadata → ContextToken → σ → Option (Interest × σ)
  emit : EventRef → σ → Option σ
  captureContext : σ → ContextToken
  startSpan : SpanRef → σ → Option (SpanToken × σ)

/-- `usize::BITS - ALL_BITS.leading_zeros()`. -/
def INTEREST_WIDTH : ℕ := Nat.log2 Interest.ALL_BITS + 1

structure Cache where
  generation : ℕ
  taggedInterest : ℕ
  deriving DecidableEq, Repr

namespace Cache

def new (usizeMax : ℕ) : Cache := { generation := usizeMax, taggedInterest := 0 }

def tag (usizeBits generation : ℕ) (interest : Interest) : ℕ :=
  (generation <<< INTEREST_WIDTH) % 2 ^ usizeBits ||| interest.bits.toNat

/-- The low bits of a tagged word give back the mask. -/
theorem fromBits_tag {usizeBits : ℕ} (hwide : 16 ≤ usizeBits) (generation : ℕ)
    (interest : Interest) : Interest.fromBits (tag usizeBits generation interest) = interest := by
  have hdvd : 2 ^ 7 ∣ 2 ^ usizeBits := Nat.pow_dvd_pow 2 (by omega)
  have hlow : (generation <<< INTEREST_WIDTH) % 2 ^ usizeBits &&& Interest.ALL_BITS = 0 := by
    rw [show Interest.ALL_BITS = 2 ^ 7 - 1 from rfl, Nat.and_two_pow_sub_one_eq_mod,
      Nat.mod_mod_of_dvd _ hdvd, Nat.shiftLeft_eq, show INTEREST_WIDTH = 7 from rfl,
      Nat.mul_mod_left]
  have hmask : tag usizeBits generation interest &&& Interest.ALL_BITS =
      interest.bits.toNat &&& Interest.ALL_BITS := by
    rw [tag, Nat.and_or_distrib_right, hlow, Nat.zero_or]
  rw [Interest.fromBits, hmask]
  exact Interest.fromBits_bits interest

end Cache

/-- A static call site with a generation-keyed interest cache. -/
structure Callsite where
  metadata : Metadata
  cache : Cache

namespace Callsite

variable {σ : Type*}

def new (usizeMax : ℕ) (metadata : Metadata) : Callsite :=
  { metadata := metadata, cache := Cache.new usizeMax }

/-- The mask a matching generation and tag let the call site reuse. -/
def hit (usizeBits generation : ℕ) (site : Callsite) : Option Interest :=
  let cached := site.cache.taggedInterest
  let interest := Interest.fromBits cached
  if site.cache.generation = generation ∧ Cache.tag usizeBits generation interest = cached then
    some interest
  else none

/-- `Callsite::interest`; without a dispatcher nothing is wanted. -/
def interest (usizeBits : ℕ) (dispatcher : Option (Dispatch σ)) (site : Callsite) (s : σ) :
    Option (Interest × Callsite × σ) :=
  match dispatcher with
  | none => some (Interest.NONE, site, s)
  | some dispatcher =>
    let generation := dispatcher.generation s
    match site.hit usizeBits generation with
    | some interest => some (interest, site, s)
    | none =>
      (dispatcher.interest site.metadata s).map fun (interest, s) =>
        (interest, { site with
          cache := { generation := generation
                     taggedInterest := Cache.tag usizeBits generation interest } }, s)

/-- Refine a mask against the current context when the runtime asked for it. -/
def contextualInterest (dispatcher : Option (Dispatch σ)) (site : Callsite)
    (interest : Interest) (context : ContextToken) (s : σ) : Option (Interest × σ) :=
  if interest.isContextual then
    match dispatcher with
    | none => some (Interest.NONE, s)
    | some dispatcher => dispatcher.contextualInterest site.metadata context s
  else some (interest, s)

end Callsite

end Logwise
