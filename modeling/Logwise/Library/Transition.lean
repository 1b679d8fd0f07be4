import Mathlib.Logic.Relation

/-!
# Executable transition systems

A machine is a partial step function `step : σ → α → Option σ`: `step s a = none` says that
action `a` is not enabled in state `s`. A run may be restricted by a guard on the state and
the action of each of its steps. The rules here are the ones invariant proofs need: one
step, then a whole run.
-/

namespace Transition

variable {σ τ α : Type*}

/-- One step of the machine whose state and action meet the guard `ok`. -/
def Step (step : σ → α → Option σ) (ok : σ → α → Prop) (s t : σ) : Prop :=
  ∃ a, ok s a ∧ step s a = some t

/-- A finite run all of whose steps meet the guard. -/
def Reaches (step : σ → α → Option σ) (ok : σ → α → Prop) : σ → σ → Prop :=
  Relation.ReflTransGen (Step step ok)

def always : σ → α → Prop := fun _ _ => True

def run (step : σ → α → Option σ) : σ → List α → Option σ
  | s, [] => some s
  | s, a :: as => (step s a).bind fun t => run step t as

variable {step : σ → α → Option σ} {ok ok' : σ → α → Prop} {s t u : σ}

theorem Reaches.refl : Reaches step ok s s := Relation.ReflTransGen.refl

theorem Reaches.tail {a : α} (h : Reaches step ok s t) (hok : ok t a)
    (hs : step t a = some u) : Reaches step ok s u :=
  Relation.ReflTransGen.tail h ⟨a, hok, hs⟩

theorem Reaches.head {a : α} (hok : ok s a) (hs : step s a = some t)
    (h : Reaches step ok t u) : Reaches step ok s u :=
  Relation.ReflTransGen.head ⟨a, hok, hs⟩ h

/-- A run that meets a guard meets a weaker one. -/
theorem Reaches.mono (hle : ∀ s a, ok s a → ok' s a) (h : Reaches step ok s t) :
    Reaches step ok' s t := by
  induction h with
  | refl => exact .refl
  | tail _ hst ih =>
    obtain ⟨a, hok, hs⟩ := hst
    exact ih.tail (hle _ a hok) hs

/-- A property each admitted step preserves holds at the end of every admitted run. -/
theorem Reaches.invariant {I : σ → Prop}
    (hstep : ∀ s a t, I s → ok s a → step s a = some t → I t)
    (h : Reaches step ok s t) (hs : I s) : I t := by
  induction h with
  | refl => exact hs
  | tail _ hst ih =>
    obtain ⟨a, hok, he⟩ := hst
    exact hstep _ a _ ih hok he

/-- Two properties, the second of which needs the first to be preserved. -/
theorem Reaches.invariant_of {I J : σ → Prop}
    (hI : ∀ s a t, I s → ok s a → step s a = some t → I t)
    (hJ : ∀ s a t, I s → J s → ok s a → step s a = some t → J t)
    (h : Reaches step ok s t) (hi : I s) (hj : J s) : I t ∧ J t :=
  h.invariant (I := fun s => I s ∧ J s)
    (fun s a t hs hok he => ⟨hI s a t hs.1 hok he, hJ s a t hs.1 hs.2 hok he⟩) ⟨hi, hj⟩

/-- `p` holds in every state a listed run goes through, as far as its actions are enabled. -/
def Throughout (step : σ → α → Option σ) (p : σ → Prop) : σ → List α → Prop
  | s, [] => p s
  | s, a :: as => p s ∧ ∀ t, step s a = some t → Throughout step p t as

/-- Each action of a listed run meets the guard in the state in which it is taken. -/
def Admitted (step : σ → α → Option σ) (ok : σ → α → Prop) : σ → List α → Prop
  | _, [] => True
  | s, a :: as => ∀ t, step s a = some t → ok s a ∧ Admitted step ok t as

/-- A guard that keeps an invariant, and whose violation at once breaks a property the invariant
gives, holds along a run exactly when the property does. -/
theorem throughout_iff_admitted {I p : σ → Prop} (hI : ∀ s, I s → p s)
    (hstep : ∀ s a t, I s → ok s a → step s a = some t → I t)
    (hbreak : ∀ s a t, I s → ¬ ok s a → step s a = some t → ¬ p t) {as : List α} (hs : I s) :
    Throughout step p s as ↔ Admitted step ok s as := by
  induction as generalizing s with
  | nil => exact ⟨fun _ => trivial, fun _ => hI s hs⟩
  | cons a as ih =>
    have hhead : ∀ t, Throughout step p t as → p t := by
      intro t h
      cases as with
      | nil => exact h
      | cons b bs => exact h.1
    constructor
    · intro h t ht
      have hok : ok s a :=
        Classical.byContradiction fun hno => hbreak s a t hs hno ht (hhead t (h.2 t ht))
      exact ⟨hok, (ih (hstep s a t hs hok ht)).mp (h.2 t ht)⟩
    · intro h
      refine ⟨hI s hs, fun t ht => ?_⟩
      obtain ⟨hok, hrest⟩ := h t ht
      exact (ih (hstep s a t hs hok ht)).mpr hrest

theorem run_append (s : σ) (as bs : List α) :
    run step s (as ++ bs) = (run step s as).bind fun t => run step t bs := by
  induction as generalizing s with
  | nil => rfl
  | cons a as ih =>
    rw [List.cons_append, run, run, Option.bind_assoc]
    congr 1
    funext t
    exact ih t

/-- A listed run of one machine is the image of a listed run of another that it simulates. -/
theorem run_map {β : Type*} {step' : τ → β → Option τ} {f : σ → τ} {g : α → β}
    (h : ∀ s a, step' (f s) (g a) = (step s a).map f) (s : σ) (as : List α) :
    run step' (f s) (as.map g) = (run step s as).map f := by
  induction as generalizing s with
  | nil => rfl
  | cons a as ih =>
    show (step' (f s) (g a)).bind _ = ((step s a).bind _).map f
    rw [h]
    cases step s a with
    | none => rfl
    | some t => exact ih t

theorem reaches_of_run_always (as : List α) (h : run step s as = some t) :
    Reaches step always s t := by
  induction as generalizing s with
  | nil => exact (Option.some.inj h) ▸ Reaches.refl
  | cons a as ih =>
    obtain ⟨m, hm, hrun⟩ := Option.bind_eq_some_iff.mp h
    exact Reaches.head trivial hm (ih hrun)

/-- A listed run of actions that are admitted in every state. -/
theorem reaches_of_forall (as : List α) (hok : ∀ a ∈ as, ∀ s, ok s a)
    (h : run step s as = some t) : Reaches step ok s t := by
  induction as generalizing s with
  | nil => exact (Option.some.inj h) ▸ Reaches.refl
  | cons a as ih =>
    obtain ⟨m, hm, hrun⟩ := Option.bind_eq_some_iff.mp h
    obtain ⟨ha, has⟩ := List.forall_mem_cons.mp hok
    exact Reaches.head (ha s) hm (ih has hrun)

/-- The machine that stops at a step the guard does not admit. -/
def guarded (step : σ → α → Option σ) (ok : σ → α → Prop) [∀ s a, Decidable (ok s a)] (s : σ)
    (a : α) : Option σ :=
  if ok s a then step s a else none

instance (s : σ) (a : α) : Decidable (always s a) := .isTrue trivial

/-- A listed run of the guarded machine is an admitted run. -/
theorem reaches_of_run [∀ s a, Decidable (ok s a)] (as : List α)
    (h : run (guarded step ok) s as = some t) : Reaches step ok s t := by
  induction as generalizing s with
  | nil =>
    have he : s = t := Option.some.inj h
    exact he ▸ Reaches.refl
  | cons a as ih =>
    obtain ⟨m, hm, hrun⟩ := Option.bind_eq_some_iff.mp h
    have hok : ok s a ∧ step s a = some m := by simpa [guarded] using hm
    exact Reaches.head hok.1 hok.2 (ih hrun)

/-- A listed run the guarded machine can make is admitted step by step. -/
theorem admitted_of_isSome [∀ s a, Decidable (ok s a)] {as : List α}
    (h : (run (guarded step ok) s as).isSome = true) : Admitted step ok s as := by
  induction as generalizing s with
  | nil => trivial
  | cons a as ih =>
    obtain ⟨t, ht⟩ := Option.isSome_iff_exists.mp h
    obtain ⟨m, hm, hrun⟩ := Option.bind_eq_some_iff.mp ht
    have hok : ok s a ∧ step s a = some m := by simpa [guarded] using hm
    intro u hu
    cases hok.2.symm.trans hu
    exact ⟨hok.1, ih (Option.isSome_of_eq_some hrun)⟩

/-- A run that evaluates to a state with property `p` reaches such a state. -/
theorem exists_reaches (step : σ → α → Option σ) (ok : σ → α → Prop)
    [∀ s a, Decidable (ok s a)] (s : σ) (p : σ → Prop) [DecidablePred p] (as : List α)
    (h : (run (guarded step ok) s as).any (fun t => decide (p t)) = true) :
    ∃ t, Reaches step ok s t ∧ p t := by
  obtain ⟨t, ht, hp⟩ := (Option.any_eq_true _ _).mp h
  exact ⟨t, reaches_of_run as ht, of_decide_eq_true hp⟩

end Transition
