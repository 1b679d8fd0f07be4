import Mathlib.Data.List.Basic

/-!
# String literals

What the text between the quotes of a Rust string literal denotes, as a machine that reads it
character by character. A machine that is between two characters of the value is in a `text` state.
-/

namespace StringLiteral

inductive State where
  /-- Between two characters; `skipping` the blanks after an escaped line break. -/
  | text (skipping : Bool)
  | escaped
  /-- Inside `\xHH`, before the first digit. -/
  | high
  | low (digit : ℕ)
  /-- Inside `\u{..}`, before the brace. -/
  | opening
  | payload (value digits : ℕ)
  deriving DecidableEq, Repr

def hexDigit (c : Char) : Option ℕ :=
  if '0' ≤ c ∧ c ≤ '9' then some (c.toNat - '0'.toNat)
  else if 'a' ≤ c ∧ c ≤ 'f' then some (c.toNat - 'a'.toNat + 10)
  else if 'A' ≤ c ∧ c ≤ 'F' then some (c.toNat - 'A'.toNat + 10)
  else none

def isBlank (c : Char) : Bool := c = ' ' ∨ c = '\t' ∨ c = '\n' ∨ c = '\r'

/-- The characters a simple escape stands for. -/
def simpleEscape (c : Char) : Option Char :=
  if c = 'n' then some '\n'
  else if c = 'r' then some '\r'
  else if c = 't' then some '\t'
  else if c = '0' then some (Char.ofNat 0)
  else if c = '\\' ∨ c = '\'' ∨ c = '"' then some c
  else none

/-- Read one character: what it adds to the value, and the state after it. -/
def step : State → Char → Option (List Char × State)
  | .text skipping, c =>
    if skipping ∧ isBlank c then some ([], .text true)
    else if c = '\\' then some ([], .escaped)
    else if c = '"' ∨ c = '\r' then none
    else some ([c], .text false)
  | .escaped, c =>
    if c = 'x' then some ([], .high)
    else if c = 'u' then some ([], .opening)
    else if c = '\n' then some ([], .text true)
    else (simpleEscape c).map fun value => ([value], .text false)
  | .high, c => ((hexDigit c).filter (· < 8)).map fun digit => ([], .low digit)
  | .low high, c => (hexDigit c).map fun digit => ([Char.ofNat (16 * high + digit)], .text false)
  | .opening, c => if c = '{' then some ([], .payload 0 0) else none
  | .payload value digits, c =>
    if c = '}' then
      if 0 < digits ∧ value.isValidChar then some ([Char.ofNat value], .text false) else none
    else if c = '_' ∧ 0 < digits then some ([], .payload value digits)
    else if digits < 6 then
      (hexDigit c).map fun digit => ([], .payload (16 * value + digit) (digits + 1))
    else none

def run : State → List Char → Option (List Char × State)
  | state, [] => some ([], state)
  | state, c :: text =>
    (step state c).bind fun read => (run read.2 text).map fun more => (read.1 ++ more.1, more.2)

/-- The value of a literal, if it is one. -/
def decode (text : List Char) : Option (List Char) :=
  (run (.text false) text).bind fun read =>
    match read.2 with
    | .text _ => some read.1
    | _ => none

example : decode "a\\u{4_1}\\n\\x7B".toList = some ['a', 'A', '\n', '{'] := by decide

/-- Reading one text after another. -/
theorem run_append (state : State) (first second : List Char) :
    run state (first ++ second) =
      (run state first).bind fun read =>
        (run read.2 second).map fun more => (read.1 ++ more.1, more.2) := by
  induction first generalizing state with
  | nil => simp [run]
  | cons c first ih =>
    rw [List.cons_append, run, run]
    cases step state c with
    | none => rfl
    | some read =>
      simp only [Option.bind_some, ih]
      cases run read.2 first with
      | none => rfl
      | some more =>
        simp only [Option.map_some, Option.bind_some, Option.map_map]
        refine congrArg (Option.map · _) (funext fun p => ?_)
        simp

variable {state last : State} {first second value : List Char}

/-- A text that is read is read in parts. -/
theorem run_append_eq_some (first second : List Char)
    (h : run state (first ++ second) = some (value, last)) :
    ∃ added next more, run state first = some (added, next) ∧
      run next second = some (more, last) ∧ value = added ++ more := by
  rw [run_append] at h
  obtain ⟨⟨added, next⟩, hfirst, hmore⟩ := Option.bind_eq_some_iff.mp h
  obtain ⟨⟨more, last'⟩, hsecond, heq⟩ := Option.map_eq_some_iff.mp hmore
  cases heq
  exact ⟨added, next, more, hfirst, hsecond, rfl⟩

theorem run_append_of_eq_some {added more : List Char} {next : State}
    (hfirst : run state first = some (added, next))
    (hsecond : run next second = some (more, last)) :
    run state (first ++ second) = some (added ++ more, last) := by
  rw [run_append, hfirst, Option.bind_some, hsecond]
  rfl

theorem run_singleton {c : Char} {added : List Char} {next : State}
    (h : step state c = some (added, next)) : run state [c] = some (added, next) := by
  rw [run, h]
  simp [run]

theorem step_of_run_singleton {c : Char} {added : List Char} {next : State}
    (h : run state [c] = some (added, next)) : step state c = some (added, next) := by
  rw [run] at h
  obtain ⟨⟨added', next'⟩, hstep, hrest⟩ := Option.bind_eq_some_iff.mp h
  rw [hstep]
  simpa [run] using hrest

theorem decode_of_run {skipping : Bool} (h : run (.text false) first = some (value, .text skipping)) :
    decode first = some value := by
  rw [decode, h]
  rfl

theorem run_of_decode (h : decode first = some value) :
    ∃ skipping, run (.text false) first = some (value, .text skipping) := by
  obtain ⟨⟨value', last⟩, hrun, hlast⟩ := Option.bind_eq_some_iff.mp h
  cases last with
  | text skipping =>
    cases hlast
    exact ⟨skipping, hrun⟩
  | _ => cases hlast

/-! ## Braces -/

/-- A brace that is read between characters stands for itself. -/
theorem step_text_brace (skipping : Bool) {c : Char} (h : c = '{' ∨ c = '}') :
    step (.text skipping) c = some ([c], .text false) := by
  obtain rfl | rfl := h <;> cases skipping <;> rfl

/-- A closing brace is read between characters or ends a payload. -/
theorem step_close {added : List Char} {next : State} (h : step state '}' = some (added, next)) :
    next = .text false := by
  cases state with
  | text skipping =>
    rw [step_text_brace skipping (Or.inr rfl)] at h
    cases h
    rfl
  | escaped => cases h
  | high => cases h
  | low digit => cases h
  | opening => cases h
  | payload value digits =>
    rw [step, if_pos rfl] at h
    split at h
    · cases h
      rfl
    · cases h

/-- A payload lasts until its closing brace. -/
theorem run_payload {digits total : ℕ} {text : List Char} (h : '}' ∉ text)
    (hrun : run (.payload total digits) text = some (value, last)) :
    ∃ total' digits', last = .payload total' digits' := by
  induction text generalizing total digits value with
  | nil =>
    cases hrun
    exact ⟨total, digits, rfl⟩
  | cons c text ih =>
    obtain ⟨hc, hrest⟩ := List.ne_and_not_mem_of_not_mem_cons h
    rw [run] at hrun
    obtain ⟨⟨added, next⟩, hstep, hmore⟩ := Option.bind_eq_some_iff.mp hrun
    obtain ⟨⟨more, last'⟩, htext, heq⟩ := Option.map_eq_some_iff.mp hmore
    cases heq
    rw [step, if_neg (Ne.symm hc)] at hstep
    split at hstep
    · cases hstep
      exact ih hrest htext
    · split at hstep
      · obtain ⟨digit, -, hnext⟩ := Option.map_eq_some_iff.mp hstep
        cases hnext
        exact ih hrest htext
      · cases hstep

end StringLiteral
