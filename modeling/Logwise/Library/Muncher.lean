import Mathlib.Data.List.Basic

/-!
# Munchers

A macro that takes one item off its input, adds something to what it has and calls itself with the
rest. Its rules are tried in order; a rule may fail to match or may end the whole expansion. Two
munchers that take the same items produce lists in lockstep.
-/

namespace Muncher

variable {τ ρ π : Type*}

/-- What becomes of one rule. -/
inductive Attempt (α : Type*) where
  | noMatch
  | error
  | matched (result : α)

def Attempt.map {α β : Type*} (f : α → β) : Attempt α → Attempt β
  | .noMatch => .noMatch
  | .error => .error
  | .matched result => .matched (f result)

/-- The first rule that matches. An error before it is final. -/
def first : List (τ → Attempt ρ) → τ → Option ρ
  | [], _ => none
  | rule :: rules, input =>
    match rule input with
    | .noMatch => first rules input
    | .error => none
    | .matched result => some result

section

variable {rule : τ → Attempt ρ} {rules : List (τ → Attempt ρ)} {input : τ}

theorem first_cons_of_noMatch (h : rule input = .noMatch) :
    first (rule :: rules) input = first rules input := by
  rw [first, h]

theorem first_cons_of_error (h : rule input = .error) : first (rule :: rules) input = none := by
  rw [first, h]

theorem first_cons_of_matched {result : ρ} (h : rule input = .matched result) :
    first (rule :: rules) input = some result := by
  rw [first, h]

/-- Rules that do not match may be passed over together. -/
theorem first_append_of_noMatch (h : ∀ rule ∈ rules, rule input = .noMatch)
    (more : List (τ → Attempt ρ)) : first (rules ++ more) input = first more input := by
  induction rules with
  | nil => rfl
  | cons rule rules ih =>
    obtain ⟨hrule, hrules⟩ := List.forall_mem_cons.mp h
    rw [List.cons_append, first_cons_of_noMatch hrule]
    exact ih hrules

theorem first_of_noMatch (h : ∀ rule ∈ rules, rule input = .noMatch) :
    first rules input = none := by
  have hnone := first_append_of_noMatch h []
  rwa [List.append_nil] at hnone

end

/-- The expansion. `limit` is how deep calls may still be nested. -/
def munch (isEnd : τ → Bool) (take : τ → Option (ρ × τ)) :
    ℕ → List ρ → τ → Option (List ρ)
  | 0, _, _ => none
  | limit + 1, output, input =>
    if isEnd input then some output
    else (take input).bind fun taken => munch isEnd take limit (output ++ [taken.1]) taken.2

variable {isEnd : τ → Bool} {take : τ → Option (ρ × τ)}

/-- A muncher that produces from each item what `f` makes of it. -/
theorem munch_map {take' : τ → Option (π × τ)} (f : ρ → π)
    (h : ∀ input, take' input = (take input).map fun taken => (f taken.1, taken.2)) (limit : ℕ)
    (output : List ρ) (input : τ) :
    munch isEnd take' limit (output.map f) input =
      (munch isEnd take limit output input).map (List.map f) := by
  induction limit generalizing output input with
  | zero => rfl
  | succ limit ih =>
    rw [munch, munch]
    split
    · rfl
    · rw [h]
      cases take input with
      | none => rfl
      | some taken => simpa using ih (output ++ [taken.1]) taken.2

end Muncher
