import Logwise.Legacy.Record
import Mathlib.Tactic.Ring

/-!
# What the text of a duration says

`Duration`'s `Debug` writes the number of seconds, milliseconds, microseconds or nanoseconds, with
all the digits of the fraction. Two durations never have the same text.
-/

namespace Logwise.Legacy

section Digits

variable {a b s t : List Char} {x y : Char}

theorem takeWhile_digits (ha : ∀ c ∈ a, c.isDigit = true) (hx : x.isDigit = false) :
    (a ++ x :: s).takeWhile Char.isDigit = a := by
  rw [List.takeWhile_append_of_pos ha, List.takeWhile_cons_of_neg (by simp [hx]), List.append_nil]

/-- A run of digits ends where they end. -/
theorem digits_append_inj (ha : ∀ c ∈ a, c.isDigit = true) (hb : ∀ c ∈ b, c.isDigit = true)
    (hx : x.isDigit = false) (hy : y.isDigit = false) (h : a ++ x :: s = b ++ y :: t) :
    a = b ∧ x :: s = y :: t := by
  have hdigits := congrArg (List.takeWhile Char.isDigit) h
  rw [takeWhile_digits ha hx, takeWhile_digits hb hy] at hdigits
  subst hdigits
  exact ⟨rfl, List.append_cancel_left h⟩

theorem toDigits_inj {m n : ℕ} (h : Nat.toDigits 10 m = Nat.toDigits 10 n) : m = n := by
  have hvalue := congrArg (fun digits => Nat.ofDigitChars 10 digits 0) h
  simpa only [Nat.ofDigitChars_ten_toDigits] using hvalue

theorem digitChar_inj {m n : ℕ} (hm : m < 10) (hn : n < 10)
    (h : Nat.digitChar m = Nat.digitChar n) : m = n := by
  have hvalue := congrArg Char.toNat h
  rw [Nat.toNat_digitChar_of_lt_ten hm, Nat.toNat_digitChar_of_lt_ten hn] at hvalue
  omega

end Digits

section Fractions

variable {k f g : ℕ}

/-- One digit, and what is left of the fraction. -/
theorem fractionDigits_succ (hf : f ≠ 0) :
    fractionDigits (k + 1) f (10 ^ (k + 1) / 10) =
      Nat.digitChar (f / 10 ^ k) :: fractionDigits k (f % 10 ^ k) (10 ^ k / 10) := by
  have hdivisor : 10 ^ (k + 1) / 10 = 10 ^ k := by
    rw [pow_succ, Nat.mul_div_cancel _ (by decide)]
  rw [fractionDigits, if_neg hf, hdivisor]

theorem div_lt_ten (hf : f < 10 ^ (k + 1)) : f / 10 ^ k < 10 := by
  rw [Nat.div_lt_iff_lt_mul (Nat.pow_pos (by decide))]
  rwa [pow_succ, mul_comm] at hf

theorem mod_pow_lt (f k : ℕ) : f % 10 ^ k < 10 ^ k := Nat.mod_lt _ (Nat.pow_pos (by decide))

theorem isDigit_of_mem_fractionDigits (hf : f < 10 ^ k) {c : Char}
    (hc : c ∈ fractionDigits k f (10 ^ k / 10)) : c.isDigit = true := by
  induction k generalizing f with
  | zero => simp [fractionDigits] at hc
  | succ k ih =>
    by_cases hzero : f = 0
    · simp [hzero, fractionDigits] at hc
    · rw [fractionDigits_succ hzero] at hc
      obtain rfl | hc := List.mem_cons.mp hc
      · simp [div_lt_ten hf]
      · exact ih (mod_pow_lt f k) hc

/-- Trailing zeros are the only digits left out. -/
theorem fractionDigits_inj (hf : f < 10 ^ k) (hg : g < 10 ^ k)
    (h : fractionDigits k f (10 ^ k / 10) = fractionDigits k g (10 ^ k / 10)) : f = g := by
  induction k generalizing f g with
  | zero => omega
  | succ k ih =>
    by_cases hf' : f = 0
    · by_cases hg' : g = 0
      · rw [hf', hg']
      · rw [fractionDigits_succ hg', hf', fractionDigits, if_pos rfl] at h
        cases h
    · by_cases hg' : g = 0
      · rw [fractionDigits_succ hf', hg', fractionDigits, if_pos rfl] at h
        cases h
      · rw [fractionDigits_succ hf', fractionDigits_succ hg'] at h
        have hhead := digitChar_inj (div_lt_ten hf) (div_lt_ten hg) (List.cons.inj h).1
        have hrest := ih (mod_pow_lt f k) (mod_pow_lt g k) (List.cons.inj h).2
        rw [← Nat.div_add_mod f (10 ^ k), ← Nat.div_add_mod g (10 ^ k), hhead, hrest]

end Fractions

/-- The digits of the fraction in each unit, and the unit's name. -/
def durationUnits : List (ℕ × String) := [(9, "s"), (6, "ms"), (3, "µs"), (0, "ns")]

/-- What follows the whole units. -/
def decimalTail (digits : List Char) (name : String) : List Char :=
  (if digits = [] then [] else '.' :: digits) ++ name.toList

theorem debugDuration_eq (nanos : ℕ) :
    ∃ k name, (k, name) ∈ durationUnits ∧
      (debugDuration nanos).toList =
        Nat.toDigits 10 (nanos / 10 ^ k) ++
          decimalTail (fractionDigits k (nanos % 10 ^ k) (10 ^ k / 10)) name := by
  have hdecimal : ∀ k name, (decimal nanos (10 ^ k) k ++ name).toList =
      Nat.toDigits 10 (nanos / 10 ^ k) ++
        decimalTail (fractionDigits k (nanos % 10 ^ k) (10 ^ k / 10)) name := by
    intro k name
    simp only [decimal, decimalTail, String.toList_append, Nat.toString_eq_repr, Nat.toList_repr,
      List.append_assoc]
    split <;> simp
  rw [debugDuration]
  split
  · exact ⟨9, "s", by decide, hdecimal 9 "s"⟩
  · split
    · exact ⟨6, "ms", by decide, hdecimal 6 "ms"⟩
    · split
      · exact ⟨3, "µs", by decide, hdecimal 3 "µs"⟩
      · refine ⟨0, "ns", by decide, ?_⟩
        simp [decimalTail, fractionDigits, Nat.toString_eq_repr]

/-- A unit's name begins with a letter and tells the unit. -/
theorem durationUnits_name {k : ℕ} {name : String} (h : (k, name) ∈ durationUnits) :
    ∃ x rest, name.toList = x :: rest ∧ x.isDigit = false ∧ x ≠ '.' := by
  simp only [durationUnits, List.mem_cons, Prod.mk.injEq, List.not_mem_nil, or_false] at h
  obtain ⟨-, rfl⟩ | ⟨-, rfl⟩ | ⟨-, rfl⟩ | ⟨-, rfl⟩ := h
  · exact ⟨'s', [], by decide, by decide, by decide⟩
  · exact ⟨'m', ['s'], by decide, by decide, by decide⟩
  · exact ⟨'µ', ['s'], by decide, by decide, by decide⟩
  · exact ⟨'n', ['s'], by decide, by decide, by decide⟩

theorem durationUnits_inj {j k : ℕ} {name name' : String} (hj : (j, name) ∈ durationUnits)
    (hk : (k, name') ∈ durationUnits) (h : name = name') : j = k := by
  subst h
  simp only [durationUnits, List.mem_cons, Prod.mk.injEq, List.not_mem_nil, or_false] at hj hk
  obtain ⟨rfl, rfl⟩ | ⟨rfl, rfl⟩ | ⟨rfl, rfl⟩ | ⟨rfl, rfl⟩ := hj <;> simpa [eq_comm] using hk

theorem decimalTail_cons {k : ℕ} {name : String} (h : (k, name) ∈ durationUnits)
    (digits : List Char) :
    ∃ x rest, decimalTail digits name = x :: rest ∧ x.isDigit = false := by
  obtain ⟨x, rest, hname, hx, -⟩ := durationUnits_name h
  by_cases hnil : digits = []
  · exact ⟨x, rest, by simp [decimalTail, hnil, hname], hx⟩
  · exact ⟨'.', digits ++ name.toList, by simp [decimalTail, hnil], by decide⟩

/-- The tail tells the fraction and the unit. -/
theorem decimalTail_inj {j k : ℕ} {name name' : String} {d e : List Char}
    (hj : (j, name) ∈ durationUnits) (hk : (k, name') ∈ durationUnits)
    (hd : ∀ c ∈ d, c.isDigit = true) (he : ∀ c ∈ e, c.isDigit = true)
    (h : decimalTail d name = decimalTail e name') : d = e ∧ name = name' := by
  obtain ⟨x, rest, hname, hx, hpoint⟩ := durationUnits_name hj
  obtain ⟨y, rest', hname', hy, hpoint'⟩ := durationUnits_name hk
  rw [decimalTail, decimalTail, hname, hname'] at h
  have hnames : x :: rest = y :: rest' → name = name' := fun hrest =>
    String.toList_inj.mp (hname.trans (hrest.trans hname'.symm))
  by_cases hdnil : d = []
  · by_cases henil : e = []
    · rw [if_pos hdnil, if_pos henil] at h
      exact ⟨hdnil.trans henil.symm, hnames h⟩
    · rw [if_pos hdnil, if_neg henil] at h
      exact absurd (List.cons.inj h).1 hpoint
  · by_cases henil : e = []
    · rw [if_neg hdnil, if_pos henil] at h
      exact absurd (List.cons.inj h).1.symm hpoint'
    · rw [if_neg hdnil, if_neg henil] at h
      obtain ⟨hdigits, hrest⟩ := digits_append_inj hd he hx hy (List.cons.inj h).2
      exact ⟨hdigits, hnames hrest⟩

/-- **The text of a duration is that of no other.** -/
theorem debugDuration_injective : Function.Injective debugDuration := by
  intro m n h
  obtain ⟨j, name, hj, hm⟩ := debugDuration_eq m
  obtain ⟨k, name', hk, hn⟩ := debugDuration_eq n
  have hdigits : ∀ n c, c ∈ Nat.toDigits 10 n → c.isDigit = true := fun n c hc =>
    Nat.isDigit_of_mem_toDigits (by decide) (by decide) hc
  obtain ⟨x, rest, hx, hxdigit⟩ :=
    decimalTail_cons hj (fractionDigits j (m % 10 ^ j) (10 ^ j / 10))
  obtain ⟨y, rest', hy, hydigit⟩ :=
    decimalTail_cons hk (fractionDigits k (n % 10 ^ k) (10 ^ k / 10))
  have htext := hm.symm.trans ((congrArg String.toList h).trans hn)
  rw [hx, hy] at htext
  obtain ⟨hwhole, htail⟩ := digits_append_inj (hdigits _) (hdigits _) hxdigit hydigit htext
  rw [← hx, ← hy] at htail
  obtain ⟨hfraction, hname⟩ := decimalTail_inj hj hk
    (fun c hc => isDigit_of_mem_fractionDigits (mod_pow_lt m j) hc)
    (fun c hc => isDigit_of_mem_fractionDigits (mod_pow_lt n k) hc) htail
  obtain rfl := durationUnits_inj hj hk hname
  rw [← Nat.div_add_mod m (10 ^ j), ← Nat.div_add_mod n (10 ^ j), toDigits_inj hwhole,
    fractionDigits_inj (mod_pow_lt m j) (mod_pow_lt n j) hfraction]

end Logwise.Legacy
