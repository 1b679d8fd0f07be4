import Logwise.Facade.Value
import Mathlib.Data.BitVec

/-!
# Interest masks

`Interest` of `src/dispatch.rs`: the field groups requested by the active views. The
source masks every value with `ALL_BITS`, so the seven defined bits are the whole value.
-/

namespace Logwise

structure Interest where
  bits : BitVec 7
  deriving DecidableEq, Repr

namespace Interest

def NONE : Interest := ⟨0⟩
def CORE_SUPPORT : Interest := ⟨1 <<< 0⟩
def CORE_LOCAL : Interest := ⟨1 <<< 1⟩
def CORE_SECRET : Interest := ⟨1 <<< 2⟩
def DETAIL_SUPPORT : Interest := ⟨1 <<< 3⟩
def DETAIL_LOCAL : Interest := ⟨1 <<< 4⟩
def DETAIL_SECRET : Interest := ⟨1 <<< 5⟩

def CONTEXTUAL : Interest := ⟨1 <<< 6⟩

def ALL_BITS : ℕ := (1 <<< 7) - 1

/-- `from_bits`, with `bits : usize` as a natural number. -/
def fromBits (bits : ℕ) : Interest := ⟨BitVec.ofNat 7 (bits &&& ALL_BITS)⟩

def any (interest : Interest) : Bool := interest.bits != 0

def union (a b : Interest) : Interest := ⟨a.bits ||| b.bits⟩

def isContextual (interest : Interest) : Bool := interest.bits &&& CONTEXTUAL.bits != 0

def withoutContextual (interest : Interest) : Interest :=
  ⟨interest.bits &&& ~~~CONTEXTUAL.bits⟩

/-- The bit `wants` tests for one field group. -/
def groupBit (privacy : Privacy) (level : Detail) : BitVec 7 :=
  match level, privacy with
  | .core, .supportSafe => CORE_SUPPORT.bits
  | .core, .localOnly => CORE_LOCAL.bits
  | .core, .secret => CORE_SECRET.bits
  | .detail, .supportSafe => DETAIL_SUPPORT.bits
  | .detail, .localOnly => DETAIL_LOCAL.bits
  | .detail, .secret => DETAIL_SECRET.bits

def wants (interest : Interest) (privacy : Privacy) (level : Detail) : Bool :=
  interest.bits &&& groupBit privacy level != 0

def unionAll (masks : List Interest) : Interest := masks.foldr union NONE

@[ext] theorem ext_bits {a b : Interest} (h : a.bits = b.bits) : a = b := by
  cases a; cases b; cases h; rfl

theorem union_assoc (a b c : Interest) : (a.union b).union c = a.union (b.union c) :=
  ext_bits (BitVec.or_assoc a.bits b.bits c.bits)

@[simp] theorem none_union (a : Interest) : NONE.union a = a :=
  ext_bits (by simp [union, NONE])

@[simp] theorem union_none (a : Interest) : a.union NONE = a :=
  ext_bits (by simp [union, NONE])

@[simp] theorem unionAll_nil : unionAll [] = NONE := rfl

@[simp] theorem unionAll_cons (a : Interest) (masks : List Interest) :
    unionAll (a :: masks) = a.union (unionAll masks) := rfl

/-- An accumulator that starts at `a` and takes the union with each mask in turn. -/
theorem foldl_union (a : Interest) (masks : List Interest) :
    masks.foldl union a = a.union (unionAll masks) := by
  induction masks generalizing a with
  | nil => simp
  | cons m masks ih => simp [ih, union_assoc]

private theorem or_and_ne_zero {w : ℕ} (a b m : BitVec w) :
    ((a ||| b) &&& m != 0) = ((a &&& m != 0) || (b &&& m != 0)) := by
  have hzero : (a &&& m) ||| (b &&& m) = 0 ↔ a &&& m = 0 ∧ b &&& m = 0 :=
    BitVec.or_eq_zero_iff
  rw [BitVec.and_or_distrib_right, Bool.eq_iff_iff]
  simp only [bne_iff_ne, ne_eq, Bool.or_eq_true]
  rw [hzero, not_and_or]

@[simp] theorem wants_union (a b : Interest) (privacy : Privacy) (level : Detail) :
    (a.union b).wants privacy level = (a.wants privacy level || b.wants privacy level) :=
  or_and_ne_zero a.bits b.bits _

@[simp] theorem isContextual_union (a b : Interest) :
    (a.union b).isContextual = (a.isContextual || b.isContextual) :=
  or_and_ne_zero a.bits b.bits _

@[simp] theorem wants_none (privacy : Privacy) (level : Detail) :
    NONE.wants privacy level = false := by
  simp [wants, NONE]

theorem wants_unionAll {masks : List Interest} {privacy : Privacy} {level : Detail} :
    (unionAll masks).wants privacy level = true ↔ ∃ m ∈ masks, m.wants privacy level = true := by
  induction masks with
  | nil => simp
  | cons m masks ih => simp [ih]

theorem isContextual_unionAll {masks : List Interest} :
    (unionAll masks).isContextual = true ↔ ∃ m ∈ masks, m.isContextual = true := by
  induction masks with
  | nil => simp [NONE, isContextual]
  | cons m masks ih => simp [ih]

@[simp] theorem isContextual_withoutContextual (interest : Interest) :
    interest.withoutContextual.isContextual = false := by
  have hz : interest.withoutContextual.bits &&& CONTEXTUAL.bits = 0 := by
    have hc : ~~~CONTEXTUAL.bits &&& CONTEXTUAL.bits = 0 := by decide
    rw [withoutContextual, BitVec.and_assoc, hc]
    exact BitVec.and_zero
  simp [isContextual, hz]

theorem fromBits_bits (interest : Interest) : fromBits interest.bits.toNat = interest := by
  have hb : interest.bits.toNat < 2 ^ 7 := interest.bits.isLt
  have hm : interest.bits.toNat &&& ALL_BITS = interest.bits.toNat := by
    rw [show ALL_BITS = 2 ^ 7 - 1 from rfl, Nat.and_two_pow_sub_one_eq_mod,
      Nat.mod_eq_of_lt hb]
  exact ext_bits (by simp [fromBits, hm])

end Interest

end Logwise
