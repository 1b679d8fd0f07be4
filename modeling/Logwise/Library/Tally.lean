import Mathlib.Algebra.BigOperators.Group.List.Basic
import Mathlib.Algebra.Ring.Nat
import Mathlib.Data.Finmap

/-!
# Bounded totals

A map that keeps one total for each key, in numbers with a greatest one. Amounts are added one
after another and an addition past the greatest number fails. As long as none does, the map holds
the sums of what was recorded, and none does exactly when all the sums fit.
-/

namespace Tally

variable {κ : Type*} [DecidableEq κ] {limit : ℕ}

/-- A number up to a limit. -/
abbrev Amount (limit : ℕ) := { n : ℕ // n ≤ limit }

def Amount.checkedAdd (a b : Amount limit) : Option (Amount limit) :=
  if h : a.1 + b.1 ≤ limit then some ⟨a.1 + b.1, h⟩ else none

abbrev Totals (κ : Type*) (limit : ℕ) := Finmap fun _ : κ => Amount limit

/-- Adds to the total of a key, or begins it. -/
def add (totals : Totals κ limit) (key : κ) (amount : Amount limit) : Option (Totals κ limit) :=
  match totals.lookup key with
  | some total => (total.checkedAdd amount).map fun total => totals.insert key total
  | none => some (totals.insert key amount)

/-- The sum of what was recorded under a key. -/
def total (key : κ) (records : List (κ × Amount limit)) : ℕ :=
  ((records.filter fun record => record.1 = key).map fun record => record.2.1).sum

/-- No sum exceeds the limit. -/
def Fits (records : List (κ × Amount limit)) : Prop := ∀ key, total key records ≤ limit

/-- The map holds the sums, for the keys that were recorded. -/
def Holds (totals : Totals κ limit) (records : List (κ × Amount limit)) : Prop :=
  ∀ key, (totals.lookup key).map Subtype.val =
    if key ∈ records.map Prod.fst then some (total key records) else none

section

variable {totals after : Totals κ limit} {records : List (κ × Amount limit)} {key : κ}
  {amount : Amount limit}

@[simp] theorem total_nil : total key ([] : List (κ × Amount limit)) = 0 := rfl

theorem total_append (key : κ) (records more : List (κ × Amount limit)) :
    total key (records ++ more) = total key records + total key more := by
  simp [total]

@[simp] theorem total_singleton_self : total key [(key, amount)] = amount.1 := by simp [total]

@[simp] theorem total_singleton_of_ne {key' : κ} (h : key ≠ key') :
    total key' [(key, amount)] = 0 := by
  simp [total, h]

theorem total_eq_zero_of_notMem (h : key ∉ records.map Prod.fst) : total key records = 0 := by
  have hnone : records.filter (fun record => record.1 = key) = [] := by
    rw [List.filter_eq_nil_iff]
    intro record hrecord hkey
    exact h (of_decide_eq_true hkey ▸ List.mem_map_of_mem hrecord)
  rw [total, hnone]
  rfl

theorem Fits.nil : Fits ([] : List (κ × Amount limit)) := fun _ => Nat.zero_le limit

theorem Fits.of_append {more : List (κ × Amount limit)} (h : Fits (records ++ more)) :
    Fits records := fun key =>
  (Nat.le_add_right _ _).trans (total_append key records more ▸ h key)

theorem fits_snoc (h : Fits records) :
    Fits (records ++ [(key, amount)]) ↔ total key records + amount.1 ≤ limit := by
  constructor
  · intro hfits
    have hkey := hfits key
    rwa [total_append, total_singleton_self] at hkey
  · intro hkey key'
    rw [total_append]
    by_cases hne : key = key'
    · subst hne
      rwa [total_singleton_self]
    · rw [total_singleton_of_ne hne]
      exact h key'

theorem Holds.empty : Holds (∅ : Totals κ limit) [] := fun key => by simp

theorem Holds.lookup_some (h : Holds totals records) {sum : Amount limit}
    (hsum : totals.lookup key = some sum) : sum.1 = total key records := by
  have hkey := h key
  rw [hsum] at hkey
  split at hkey
  · exact Option.some.inj hkey
  · cases hkey

theorem Holds.lookup_none (h : Holds totals records) (hnone : totals.lookup key = none) :
    key ∉ records.map Prod.fst := by
  intro hmem
  have hkey := h key
  rw [hnone, if_pos hmem] at hkey
  cases hkey

/-- A total that was begun is looked up. -/
theorem Holds.lookup_eq (h : Holds totals records) (hmem : key ∈ records.map Prod.fst) :
    ∃ sum, totals.lookup key = some sum ∧ sum.1 = total key records := by
  cases hlookup : totals.lookup key with
  | none => exact absurd hmem (h.lookup_none hlookup)
  | some sum => exact ⟨sum, rfl, h.lookup_some hlookup⟩

/-- An addition goes through when the new sum fits. -/
theorem Holds.add_isSome (h : Holds totals records) (hfits : Fits records) (key : κ)
    (amount : Amount limit) :
    (add totals key amount).isSome ↔ Fits (records ++ [(key, amount)]) := by
  rw [fits_snoc hfits, add]
  cases hlookup : totals.lookup key with
  | none =>
    simp only [Option.isSome_some, true_iff]
    rw [total_eq_zero_of_notMem (h.lookup_none hlookup), Nat.zero_add]
    exact amount.2
  | some sum =>
    simp only [Option.isSome_map, Amount.checkedAdd, h.lookup_some hlookup]
    split <;> simp_all

/-- An addition records the amount. -/
theorem Holds.add (h : Holds totals records) (hadd : add totals key amount = some after) :
    Holds after (records ++ [(key, amount)]) := by
  have hinserted : ∃ sum : Amount limit, after = totals.insert key sum ∧
      sum.1 = total key records + amount.1 := by
    rw [Tally.add] at hadd
    cases hlookup : totals.lookup key with
    | none =>
      rw [hlookup] at hadd
      refine ⟨amount, (Option.some.inj hadd).symm, ?_⟩
      rw [total_eq_zero_of_notMem (h.lookup_none hlookup), Nat.zero_add]
    | some sum =>
      rw [hlookup] at hadd
      obtain ⟨new, hnew, rfl⟩ := Option.map_eq_some_iff.mp hadd
      rw [Amount.checkedAdd] at hnew
      split at hnew
      · cases hnew
        exact ⟨_, rfl, by rw [← h.lookup_some hlookup]⟩
      · cases hnew
  obtain ⟨sum, rfl, hsum⟩ := hinserted
  intro key'
  by_cases hne : key' = key
  · subst hne
    simp [hsum, total_append]
  · rw [Finmap.lookup_insert_of_ne _ hne, h key', total_append,
      total_singleton_of_ne (Ne.symm hne)]
    simp [hne]

end

end Tally
