import Mathlib.Data.List.Basic
import Mathlib.Data.Fintype.Card
import Mathlib.Data.Finset.Card

/-!
# Bounded walks

A walk repeats `next`, which either stops with an answer or moves on. `within next n a` follows
it for at most `n` moves. Where a move is decided by a key out of a finite list, a walk that
is still going after as many moves as there are keys goes on for ever, so a bounded walk
decides the unbounded one.
-/

namespace Walk

variable {α β κ : Type*}

/-- Follow `next` from `a` for at most `n` tests. -/
def within (next : α → β ⊕ α) : ℕ → α → Option β
  | 0, _ => none
  | n + 1, a =>
    match next a with
    | .inl b => some b
    | .inr a' => within next n a'

variable {next : α → β ⊕ α} {a a' : α} {b : β} {n m : ℕ}

theorem within_stop (h : next a = .inl b) : within next (n + 1) a = some b := by
  simp [within, h]

theorem within_move (h : next a = .inr a') : within next (n + 1) a = within next n a' := by
  simp [within, h]

/-- A walk along which a measure decreases ends. -/
theorem within_isSome (μ : α → ℕ) (hμ : ∀ a a', next a = .inr a' → μ a' < μ a)
    (h : μ a < n) : (within next n a).isSome := by
  induction n generalizing a with
  | zero => omega
  | succ n ih =>
    cases hn : next a with
    | inl c => simp [within_stop hn]
    | inr c =>
      rw [within_move hn]
      have hlt := hμ a c hn
      exact ih (by omega)

/-- A walk confined to a set in which every member moves on never ends. -/
theorem within_eq_none_of_closed (D : α → Prop)
    (hD : ∀ a, D a → ∃ a', next a = .inr a' ∧ D a') (ha : D a) : within next n a = none := by
  induction n generalizing a with
  | zero => rfl
  | succ n ih =>
    obtain ⟨a', hn, ha'⟩ := hD a ha
    rw [within_move hn]
    exact ih ha'

/-- The places an unfinished walk has visited. -/
theorem exists_trail (h : within next n a = none) :
    ∃ f : ℕ → α, f 0 = a ∧ ∀ i < n, next (f i) = .inr (f (i + 1)) := by
  induction n generalizing a with
  | zero => exact ⟨fun _ => a, rfl, by omega⟩
  | succ n ih =>
    cases hn : next a with
    | inl c => simp [within_stop hn] at h
    | inr c =>
      rw [within_move hn] at h
      obtain ⟨f, h0, hf⟩ := ih h
      refine ⟨fun i => Nat.casesOn i a f, rfl, ?_⟩
      intro i hi
      cases i with
      | zero => simpa [h0] using hn
      | succ i => exact hf i (by omega)

/-- Keys of more places than there are keys collide. -/
private theorem exists_key_collision (keys : List κ) (g : ℕ → κ)
    (hg : ∀ i ≤ keys.length, g i ∈ keys) :
    ∃ i j, i < j ∧ j ≤ keys.length ∧ g i = g j := by
  classical
  have hcard : keys.toFinset.card < (Finset.range (keys.length + 1)).card := by
    have hle := List.toFinset_card_le keys
    rw [Finset.card_range]
    omega
  obtain ⟨i, hi, j, hj, hne, he⟩ := Finset.exists_ne_map_eq_of_card_lt_of_maps_to hcard
    (f := g) (fun k hk => List.mem_toFinset.mpr
      (hg k (by have hk' := Finset.mem_range.mp hk; omega)))
  have hi' := Finset.mem_range.mp hi
  have hj' := Finset.mem_range.mp hj
  obtain hlt | hlt := Nat.lt_or_gt_of_ne hne
  · exact ⟨i, j, hlt, by omega, he⟩
  · exact ⟨j, i, hlt, by omega, he.symm⟩

/-- **Finite keys decide the walk**: where every move is made at a place whose key is in a
list, and the key decides the move, a walk unfinished after that many moves never ends. -/
theorem within_eq_none_iff (key : α → κ) (keys : List κ)
    (hkey : ∀ a a', next a = .inr a' → key a ∈ keys)
    (hdet : ∀ a a' b b', next a = .inr a' → next b = .inr b' → key a = key b → a' = b') :
    within next (keys.length + 1) a = none ↔ ∀ n, within next n a = none := by
  constructor
  · intro h
    obtain ⟨f, h0, hf⟩ := exists_trail h
    obtain ⟨i, j, hij, hj, he⟩ := exists_key_collision keys (fun k => key (f k))
      (fun k hk => hkey _ _ (hf k (by omega)))
    have hloop : f (i + 1) = f (j + 1) :=
      hdet _ _ _ _ (hf i (by omega)) (hf j (by omega)) he
    -- the places up to `j` are closed under moves, since the move at `j` returns to `i + 1`
    intro n
    refine within_eq_none_of_closed (fun x => ∃ k ≤ j, x = f k) ?_ ⟨0, by omega, h0.symm⟩
    rintro x ⟨k, hk, rfl⟩
    refine ⟨f (k + 1), hf k (by omega), ?_⟩
    by_cases hkj : k = j
    · subst hkj
      exact ⟨i + 1, by omega, hloop.symm⟩
    · exact ⟨k + 1, by omega, rfl⟩
  · intro h
    exact h _

/-! ## Filtering by a test that may never answer -/

/-- Keep the members on which `test` answers `true`; there is no answer when one test has none. -/
def select (test : α → Option Bool) : List α → Option (List α)
  | [] => some []
  | x :: xs =>
    (test x).bind fun keep =>
      (select test xs).map fun rest => if keep then x :: rest else rest

theorem select_eq_filter {test : α → Option Bool} {xs ys : List α}
    (h : select test xs = some ys) : ys = xs.filter fun x => test x = some true := by
  induction xs generalizing ys with
  | nil =>
    have he : [] = ys := Option.some.inj h
    rw [← he, List.filter_nil]
  | cons x xs ih =>
    obtain ⟨keep, hk, hr⟩ := Option.bind_eq_some_iff.mp h
    obtain ⟨rest, hrest, rfl⟩ := Option.map_eq_some_iff.mp hr
    rw [ih hrest]
    cases keep <;> simp [hk]

theorem mem_of_select {test : α → Option Bool} {xs ys : List α}
    (h : select test xs = some ys) {x : α} : x ∈ ys ↔ x ∈ xs ∧ test x = some true := by
  rw [select_eq_filter h, List.mem_filter, decide_eq_true_eq]

/-- Filtering has no answer exactly when one of the tests has none. -/
theorem select_eq_none_iff {test : α → Option Bool} {xs : List α} :
    select test xs = none ↔ ∃ x ∈ xs, test x = none := by
  induction xs with
  | nil => simp [select]
  | cons x xs ih =>
    rw [List.exists_mem_cons_iff, ← ih, select]
    cases test x <;> simp

/-- Filtering answers when every test does. -/
theorem select_isSome (test : α → Option Bool) (xs : List α)
    (h : ∀ x ∈ xs, (test x).isSome) : (select test xs).isSome := by
  induction xs with
  | nil => rfl
  | cons x xs ih =>
    obtain ⟨keep, hk⟩ := Option.isSome_iff_exists.mp (h x (List.mem_cons_self ..))
    obtain ⟨rest, hr⟩ := Option.isSome_iff_exists.mp
      (ih fun y hy => h y (List.mem_cons_of_mem _ hy))
    simp [select, hk, hr]

end Walk
