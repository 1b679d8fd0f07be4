import Logwise.Library.Transition
import Mathlib.Order.WellFounded

/-!
# What fair behaviours come to

A behaviour is an infinite sequence of steps and pauses. It is fair to a party when the party acts
again and again as soon as it could act again and again; a lock that is free every now and then is
then taken at last. `leadsTo_of_fair` is the rule: a rank that no step raises and that each turn of
the party lowers, and a party that is able to act every now and then, lead to the goal.
-/

namespace Transition

variable {σ α β : Type*}

/-- `none` is an instant at which nothing happens. -/
structure Behaviour (step : σ → α → Option σ) where
  state : ℕ → σ
  action : ℕ → Option α
  moves : ∀ n a, action n = some a → step (state n) a = some (state (n + 1))
  pauses : ∀ n, action n = none → state (n + 1) = state n

/-- The party whose actions are `turn` could act. -/
def Enabled (step : σ → α → Option σ) (turn : σ → α → Prop) (s : σ) : Prop :=
  ∃ a t, turn s a ∧ step s a = some t

/-- While `during` holds the rank does not grow, and a turn lowers it, until the goal is there. -/
def Nears [Preorder β] (step : σ → α → Option σ) (ok turn : σ → α → Prop)
    (invariant during goal : σ → Prop) (rank : σ → β) : Prop :=
  ∀ s a t, invariant s → invariant t → during s → ¬ goal s → ok s a → step s a = some t →
    goal t ∨ (during t ∧ rank t ≤ rank s ∧ (turn s a → rank t < rank s))

namespace Behaviour

variable {step : σ → α → Option σ} {ok turn turn' : σ → α → Prop} {b : Behaviour step}
  {I P P' Q Q' R : σ → Prop} {n : ℕ}

def Admits (b : Behaviour step) (ok : σ → α → Prop) : Prop :=
  ∀ n a, b.action n = some a → ok (b.state n) a

theorem admits_always : b.Admits always := fun _ _ _ => trivial

/-- Strong fairness. -/
def Fair (b : Behaviour step) (turn : σ → α → Prop) : Prop :=
  (∀ n, ∃ m, n ≤ m ∧ Enabled step turn (b.state m)) →
    ∀ n, ∃ m, n ≤ m ∧ ∃ a, b.action m = some a ∧ turn (b.state m) a

def LeadsTo (b : Behaviour step) (P Q : σ → Prop) : Prop :=
  ∀ n, P (b.state n) → ∃ m, n ≤ m ∧ Q (b.state m)

theorem reaches (hok : b.Admits ok) (n : ℕ) : Reaches step ok (b.state 0) (b.state n) := by
  induction n with
  | zero => exact .refl
  | succ n ih =>
    cases ha : b.action n with
    | none =>
      rw [b.pauses n ha]
      exact ih
    | some a => exact ih.tail (hok n a ha) (b.moves n a ha)

/-- What every step keeps holds from now on. -/
theorem stable (hok : b.Admits ok) (hI : ∀ n, I (b.state n))
    (hstep : ∀ s a t, I s → P s → ok s a → step s a = some t → P t) (h : P (b.state n)) {m : ℕ}
    (hle : n ≤ m) : P (b.state m) := by
  induction m, hle using Nat.le_induction with
  | base => exact h
  | succ m hle ih =>
    cases ha : b.action m with
    | none =>
      rw [b.pauses m ha]
      exact ih
    | some a => exact hstep _ a _ (hI m) ih (hok m a ha) (b.moves m a ha)

/-- What is left of a behaviour from some instant on. -/
def after (b : Behaviour step) (n : ℕ) : Behaviour step where
  state m := b.state (n + m)
  action m := b.action (n + m)
  moves m a ha := b.moves (n + m) a ha
  pauses m ha := b.pauses (n + m) ha

theorem Fair.after (h : b.Fair turn) (n : ℕ) : (b.after n).Fair turn := by
  intro hoften m
  have hoften' : ∀ k, ∃ m, k ≤ m ∧ Enabled step turn (b.state m) := by
    intro k
    obtain ⟨m, hle, henabled⟩ := hoften k
    exact ⟨n + m, hle.trans (Nat.le_add_left m n), henabled⟩
  obtain ⟨k, hle, hacts⟩ := h hoften' (n + m)
  obtain ⟨l, rfl⟩ := Nat.exists_eq_add_of_le hle
  exact ⟨m + l, Nat.le_add_right m l, by rwa [Nat.add_assoc] at hacts⟩

/-! ## Leading to -/

theorem leadsTo_of_imp (h : ∀ n, P (b.state n) → Q (b.state n)) : b.LeadsTo P Q :=
  fun n hP => ⟨n, le_refl n, h n hP⟩

theorem LeadsTo.trans (hPQ : b.LeadsTo P Q) (hQR : b.LeadsTo Q R) : b.LeadsTo P R := by
  intro n hP
  obtain ⟨m, hnm, hQ⟩ := hPQ n hP
  obtain ⟨k, hmk, hR⟩ := hQR m hQ
  exact ⟨k, hnm.trans hmk, hR⟩

theorem LeadsTo.mono (h : b.LeadsTo P Q) (hQ : ∀ s, Q s → Q' s) : b.LeadsTo P Q' := by
  intro n hP
  obtain ⟨m, hle, hm⟩ := h n hP
  exact ⟨m, hle, hQ _ hm⟩

/-- Two parties, each treated fairly, are treated fairly together. -/
theorem Fair.or (h : b.Fair turn) (h' : b.Fair turn') :
    b.Fair fun s a => turn s a ∨ turn' s a := by
  intro hoften n
  by_cases hfirst : ∀ n, ∃ m, n ≤ m ∧ Enabled step turn (b.state m)
  · obtain ⟨m, hle, a, ha, hturn⟩ := h hfirst n
    exact ⟨m, hle, a, ha, Or.inl hturn⟩
  · -- the first party is stuck for good, so it is the other one that could act
    push Not at hfirst
    obtain ⟨last, hstuck⟩ := hfirst
    have hsecond : ∀ n, ∃ m, n ≤ m ∧ Enabled step turn' (b.state m) := by
      intro n
      obtain ⟨m, hle, a, t, hturn, hstep⟩ := hoften (max n last)
      refine ⟨m, (le_max_left n last).trans hle, a, t, ?_, hstep⟩
      refine hturn.resolve_left fun hone => ?_
      exact hstuck m ((le_max_right n last).trans hle) ⟨a, t, hone, hstep⟩
    obtain ⟨m, hle, a, ha, hturn⟩ := h' hsecond n
    exact ⟨m, hle, a, ha, Or.inr hturn⟩

section Rank

variable [LinearOrder β] {during goal : σ → Prop} {rank : σ → β}

/-- As long as the goal is out of reach, the rank does not grow. -/
theorem Nears.le (hnears : Nears step ok turn I during goal rank) (hok : b.Admits ok)
    (hI : ∀ n, I (b.state n)) (hnever : ∀ m, n ≤ m → ¬ goal (b.state m))
    (h : during (b.state n)) {m : ℕ} (hle : n ≤ m) :
    during (b.state m) ∧ rank (b.state m) ≤ rank (b.state n) := by
  induction m, hle using Nat.le_induction with
  | base => exact ⟨h, le_refl _⟩
  | succ m hle ih =>
    cases ha : b.action m with
    | none =>
      rw [b.pauses m ha]
      exact ih
    | some a =>
      obtain hgoal | ⟨hduring, hrank, -⟩ := hnears _ a _ (hI m) (hI (m + 1)) ih.1 (hnever m hle)
        (hok m a ha) (b.moves m a ha)
      · exact absurd hgoal (hnever (m + 1) (Nat.le_succ_of_le hle))
      · exact ⟨hduring, hrank.trans ih.2⟩

/-- **The rule of strong fairness.** -/
theorem leadsTo_of_fair [WellFoundedLT β] (rank : σ → β)
    (hnears : Nears step ok turn I during goal rank) (hfair : b.Fair turn)
    (hok : b.Admits ok) (hI : ∀ n, I (b.state n))
    (hable : b.LeadsTo during fun s => goal s ∨ Enabled step turn s) :
    b.LeadsTo during goal := by
  intro n hn
  generalize hr : rank (b.state n) = r
  -- on the rank: a turn that does not reach the goal starts again from a lower one
  induction r using WellFoundedLT.induction generalizing n with
  | ind r ih =>
    by_contra hnone
    have hnever : ∀ m, n ≤ m → ¬ goal (b.state m) := fun m hle hgoal => hnone ⟨m, hle, hgoal⟩
    have hduring : ∀ {m}, n ≤ m → during (b.state m) ∧ rank (b.state m) ≤ rank (b.state n) :=
      fun hle => Nears.le hnears hok hI hnever hn hle
    have hoften : ∀ k, ∃ m, k ≤ m ∧ Enabled step turn (b.state m) := by
      intro k
      obtain ⟨m, hle, hgoal | henabled⟩ := hable (max n k) (hduring (le_max_left n k)).1
      · exact absurd hgoal (hnever m ((le_max_left n k).trans hle))
      · exact ⟨m, (le_max_right n k).trans hle, henabled⟩
    obtain ⟨m, hle, a, ha, hturn⟩ := hfair hoften n
    obtain ⟨hm, hrank⟩ := hduring hle
    obtain hgoal | ⟨hnext, -, hlower⟩ := hnears _ a _ (hI m) (hI (m + 1)) hm (hnever m hle)
      (hok m a ha) (b.moves m a ha)
    · exact hnever (m + 1) (Nat.le_succ_of_le hle) hgoal
    · have hlt : rank (b.state (m + 1)) < r := ((hlower hturn).trans_le hrank).trans_eq hr
      obtain ⟨k, hk, hgoal⟩ := ih _ hlt (m + 1) hnext rfl
      exact hnever k ((Nat.le_succ_of_le hle).trans hk) hgoal

end Rank

/-! ## Finite runs -/

/-- The states of a listed run, the last one for ever. -/
def playState (step : σ → α → Option σ) : σ → List α → ℕ → σ
  | s, [], _ => s
  | s, _ :: _, 0 => s
  | s, a :: as, n + 1 => (step s a).elim s fun t => playState step t as n

theorem playState_zero (s : σ) (as : List α) : playState step s as 0 = s := by
  cases as <;> rfl

theorem playState_step {s t : σ} {as : List α} {a : α} (n : ℕ) (h : run step s as = some t)
    (ha : as[n]? = some a) :
    step (playState step s as n) a = some (playState step s as (n + 1)) := by
  induction as generalizing s n with
  | nil => cases ha
  | cons first as ih =>
    obtain ⟨m, hm, hrest⟩ := Option.bind_eq_some_iff.mp h
    cases n with
    | zero =>
      cases ha
      simp only [playState, hm, Option.elim_some, playState_zero]
    | succ n =>
      simp only [playState, hm, Option.elim_some]
      exact ih n hrest ha

theorem playState_last {s t : σ} {as : List α} (n : ℕ) (h : run step s as = some t)
    (hn : as.length ≤ n) : playState step s as n = t := by
  induction as generalizing s n with
  | nil => exact Option.some.inj h
  | cons first as ih =>
    obtain ⟨m, hm, hrest⟩ := Option.bind_eq_some_iff.mp h
    cases n with
    | zero => cases hn
    | succ n =>
      simp only [playState, hm, Option.elim_some]
      exact ih n hrest (Nat.le_of_succ_le_succ hn)

/-- A listed run, after which nothing happens. -/
def play {s t : σ} (as : List α) (h : run step s as = some t) : Behaviour step where
  state := playState step s as
  action n := as[n]?
  moves n _ ha := playState_step n h ha
  pauses n hn := by
    have hle := List.getElem?_eq_none_iff.mp hn
    rw [playState_last n h hle, playState_last (n + 1) h (Nat.le_succ_of_le hle)]

theorem admits_play {s t : σ} {as : List α} (h : run step s as = some t)
    (hok : Admitted step ok s as) : (play as h).Admits ok := by
  intro n a ha
  show ok (playState step s as n) a
  induction as generalizing s n with
  | nil => cases ha
  | cons first as ih =>
    obtain ⟨m, hm, hrest⟩ := Option.bind_eq_some_iff.mp h
    obtain ⟨hfirst, hlater⟩ := hok m hm
    cases n with
    | zero =>
      cases ha
      exact hfirst
    | succ n =>
      simp only [playState, hm, Option.elim_some]
      exact ih hrest hlater n ha

/-- It is fair to whom it leaves nothing to do. -/
theorem fair_play {s t : σ} {as : List α} (h : run step s as = some t)
    (hdone : ¬ Enabled step turn t) : (play as h).Fair turn := by
  intro hoften
  obtain ⟨m, hle, henabled⟩ := hoften as.length
  have hlast : (play as h).state m = t := playState_last m h hle
  rw [hlast] at henabled
  exact absurd henabled hdone

end Behaviour

end Transition
