import Mathlib.Algebra.Ring.Nat
import Mathlib.Data.List.Basic
import Mathlib.Data.List.Infix

/-!
# Character boundaries of UTF-8 text

Text is a list of characters. A byte offset is a boundary when some prefix of the characters
ends there; cutting text back to the last boundary at or below a limit yields the longest
prefix that fits.
-/

namespace Utf8

/-- The number of bytes of a text. -/
def size (cs : List Char) : ℕ := (cs.map Char.utf8Size).sum

@[simp] theorem size_nil : size [] = 0 := rfl

@[simp] theorem size_cons (c : Char) (cs : List Char) : size (c :: cs) = c.utf8Size + size cs := rfl

@[simp] theorem size_append (xs ys : List Char) : size (xs ++ ys) = size xs + size ys := by
  simp [size]

theorem size_le_of_prefix {xs ys : List Char} (h : xs <+: ys) : size xs ≤ size ys := by
  obtain ⟨rest, rfl⟩ := h
  rw [size_append]
  exact Nat.le_add_right ..

/-- `str::is_char_boundary`. -/
def isCharBoundary : List Char → ℕ → Bool
  | _, 0 => true
  | [], _ + 1 => false
  | c :: cs, n + 1 => if c.utf8Size ≤ n + 1 then isCharBoundary cs (n + 1 - c.utf8Size) else false

/-- The longest prefix of at most `n` bytes. -/
def takeBytes : List Char → ℕ → List Char
  | [], _ => []
  | c :: cs, n => if c.utf8Size ≤ n then c :: takeBytes cs (n - c.utf8Size) else []

/-- `while length > 0 && !is_char_boundary(length) { length -= 1 }`. -/
def backOff (cs : List Char) : ℕ → ℕ
  | 0 => 0
  | n + 1 => if isCharBoundary cs (n + 1) then n + 1 else backOff cs n

/-- The boundaries are the sizes of the prefixes. -/
theorem isCharBoundary_iff {cs : List Char} {n : ℕ} :
    isCharBoundary cs n = true ↔ ∃ p, p <+: cs ∧ size p = n := by
  induction cs generalizing n with
  | nil =>
    cases n with
    | zero => exact ⟨fun _ => ⟨[], List.nil_prefix, rfl⟩, fun _ => rfl⟩
    | succ n =>
      refine ⟨fun h => (by cases h), ?_⟩
      rintro ⟨p, hp, hn⟩
      rw [List.prefix_nil.mp hp] at hn
      cases hn
  | cons c cs ih =>
    have hpos := c.utf8Size_pos
    cases n with
    | zero => exact ⟨fun _ => ⟨[], List.nil_prefix, rfl⟩, fun _ => rfl⟩
    | succ n =>
      rw [isCharBoundary]
      constructor
      · intro h
        split at h
        next hle =>
          obtain ⟨p, hp, hn⟩ := ih.mp h
          refine ⟨c :: p, List.cons_prefix_cons.mpr ⟨rfl, hp⟩, ?_⟩
          rw [size_cons, hn]
          omega
        next => cases h
      · rintro ⟨p, hp, hn⟩
        cases p with
        | nil => cases hn
        | cons d p =>
          obtain ⟨rfl, hp'⟩ := List.cons_prefix_cons.mp hp
          rw [size_cons] at hn
          rw [if_pos (by omega)]
          exact ih.mpr ⟨p, hp', by omega⟩

theorem takeBytes_isPrefix (cs : List Char) (n : ℕ) : takeBytes cs n <+: cs := by
  induction cs generalizing n with
  | nil => exact List.nil_prefix
  | cons c cs ih =>
    rw [takeBytes]
    split
    · exact List.cons_prefix_cons.mpr ⟨rfl, ih _⟩
    · exact List.nil_prefix

theorem size_takeBytes_le (cs : List Char) (n : ℕ) : size (takeBytes cs n) ≤ n := by
  induction cs generalizing n with
  | nil => exact Nat.zero_le n
  | cons c cs ih =>
    rw [takeBytes]
    split
    next hle =>
      have htail := ih (n - c.utf8Size)
      rw [size_cons]
      omega
    next => exact Nat.zero_le n

/-- **Longest**: every prefix within the limit is a prefix of what was taken. -/
theorem prefix_takeBytes {p cs : List Char} {n : ℕ} (hp : p <+: cs) (hn : size p ≤ n) :
    p <+: takeBytes cs n := by
  induction cs generalizing p n with
  | nil => exact hp
  | cons c cs ih =>
    cases p with
    | nil => exact List.nil_prefix
    | cons d p =>
      obtain ⟨rfl, hp'⟩ := List.cons_prefix_cons.mp hp
      rw [size_cons] at hn
      rw [takeBytes, if_pos (by omega)]
      exact List.cons_prefix_cons.mpr ⟨rfl, ih hp' (by omega)⟩

theorem takeBytes_eq_self {cs : List Char} {n : ℕ} (h : size cs ≤ n) : takeBytes cs n = cs :=
  (takeBytes_isPrefix cs n).eq_of_length_le (prefix_takeBytes List.prefix_rfl h).length_le

/-- Nothing is cut off exactly when the whole text fits. -/
theorem size_takeBytes_eq_iff {cs : List Char} {n : ℕ} :
    size (takeBytes cs n) = size cs ↔ size cs ≤ n := by
  constructor
  · intro h
    exact h ▸ size_takeBytes_le cs n
  · intro h
    rw [takeBytes_eq_self h]

theorem takeBytes_eq_self_iff {cs : List Char} {n : ℕ} : takeBytes cs n = cs ↔ size cs ≤ n :=
  ⟨fun h => size_takeBytes_eq_iff.mp (congrArg size h), takeBytes_eq_self⟩

/-- Taking twice takes the smaller limit. -/
theorem takeBytes_takeBytes (cs : List Char) (n m : ℕ) :
    takeBytes (takeBytes cs n) m = takeBytes cs (min m n) := by
  refine List.IsPrefix.eq_of_length_le ?_ ?_
  · refine prefix_takeBytes ((takeBytes_isPrefix _ m).trans (takeBytes_isPrefix cs n)) ?_
    have hm := size_takeBytes_le (takeBytes cs n) m
    have hn := size_le_of_prefix (takeBytes_isPrefix (takeBytes cs n) m)
    have hn' := size_takeBytes_le cs n
    omega
  · have hmin := size_takeBytes_le cs (min m n)
    refine (prefix_takeBytes (prefix_takeBytes (takeBytes_isPrefix cs (min m n)) ?_) ?_).length_le
    · omega
    · omega

theorem takeBytes_append_of_le {xs ys : List Char} {n : ℕ} (h : size xs ≤ n) :
    takeBytes (xs ++ ys) n = xs ++ takeBytes ys (n - size xs) := by
  induction xs generalizing n with
  | nil => rfl
  | cons x xs ih =>
    rw [size_cons] at h
    rw [List.cons_append, takeBytes, if_pos (by omega), ih (by omega), size_cons,
      List.cons_append, Nat.sub_sub]

theorem takeBytes_append_of_lt {xs ys : List Char} {n : ℕ} (h : n < size xs) :
    takeBytes (xs ++ ys) n = takeBytes xs n := by
  induction xs generalizing n with
  | nil => cases h
  | cons x xs ih =>
    rw [size_cons] at h
    rw [List.cons_append, takeBytes, takeBytes]
    split
    next hx => rw [ih (by omega)]
    next => rfl

/-- What does not fit is cut before a character that is larger than the room left. -/
theorem exists_takeBytes_append {cs : List Char} {n : ℕ} (h : n < size cs) :
    ∃ c rest, cs = takeBytes cs n ++ c :: rest ∧ n < size (takeBytes cs n) + c.utf8Size := by
  induction cs generalizing n with
  | nil => cases h
  | cons c cs ih =>
    rw [size_cons] at h
    rw [takeBytes]
    split
    next hfits =>
      obtain ⟨d, rest, hrest, hlarge⟩ := ih (n := n - c.utf8Size) (by omega)
      refine ⟨d, rest, ?_, ?_⟩
      · rw [List.cons_append, ← hrest]
      · rw [size_cons]
        omega
    next hfits =>
      refine ⟨c, cs, rfl, ?_⟩
      rw [size_nil]
      omega

/-- What is appended shows in the first `n` bytes only if its first character still fits. -/
theorem takeBytes_append_eq_iff {xs ys : List Char} {n : ℕ} :
    takeBytes (xs ++ ys) n = takeBytes xs n ↔ ∀ c ∈ ys.head?, n < size xs + c.utf8Size := by
  by_cases hfits : size xs ≤ n
  · rw [takeBytes_append_of_le hfits, takeBytes_eq_self hfits, List.append_right_eq_self]
    cases ys with
    | nil => simp [takeBytes]
    | cons y ys =>
      rw [takeBytes]
      split
      next hy => simpa using (by omega : size xs + y.utf8Size ≤ n)
      next hy => simpa using (by omega : n < size xs + y.utf8Size)
  · rw [takeBytes_append_of_lt (by omega)]
    exact iff_of_true rfl fun c _ => by omega

/-- **The loop finds the longest prefix**: backing off from any length stops at the size of the
longest prefix within it. -/
theorem backOff_eq (cs : List Char) (n : ℕ) : backOff cs n = size (takeBytes cs n) := by
  induction n with
  | zero =>
    have hz := size_takeBytes_le cs 0
    rw [backOff]
    omega
  | succ n ih =>
    rw [backOff]
    split
    next hb =>
      obtain ⟨p, hp, hn⟩ := isCharBoundary_iff.mp hb
      have hle := size_le_of_prefix (prefix_takeBytes hp hn.le)
      have hge := size_takeBytes_le cs (n + 1)
      omega
    next hb =>
      rw [ih]
      have hlt : size (takeBytes cs (n + 1)) ≤ n := by
        have hle := size_takeBytes_le cs (n + 1)
        have hne : size (takeBytes cs (n + 1)) ≠ n + 1 := fun he =>
          hb (isCharBoundary_iff.mpr ⟨_, takeBytes_isPrefix cs (n + 1), he⟩)
        omega
      apply Nat.le_antisymm
      · refine size_le_of_prefix (prefix_takeBytes (takeBytes_isPrefix cs n) ?_)
        have hle := size_takeBytes_le cs n
        omega
      · exact size_le_of_prefix (prefix_takeBytes (takeBytes_isPrefix cs (n + 1)) hlt)

/-- Backing off from a length clamped to the text loses nothing. -/
theorem backOff_min_size (cs : List Char) (n : ℕ) :
    backOff cs (min (size cs) n) = size (takeBytes cs n) := by
  rw [backOff_eq]
  obtain hle | hle := Nat.le_total (size cs) n
  · rw [Nat.min_eq_left hle, takeBytes_eq_self le_rfl, takeBytes_eq_self hle]
  · rw [Nat.min_eq_right hle]

/-- Cutting at the length the loop finds keeps the longest prefix. -/
theorem takeBytes_backOff (cs : List Char) (n : ℕ) :
    takeBytes cs (backOff cs n) = takeBytes cs n := by
  have htwice := takeBytes_takeBytes cs n (size (takeBytes cs n))
  rw [takeBytes_eq_self le_rfl, Nat.min_eq_left (size_takeBytes_le cs n)] at htwice
  rw [backOff_eq]
  exact htwice.symm

/-- `p` is the longest prefix of `cs` of at most `n` bytes. -/
structure Longest (p cs : List Char) (n : ℕ) : Prop where
  isPrefix : p <+: cs
  fits : size p ≤ n
  longest : ∀ q, q <+: cs → size q ≤ n → q <+: p

theorem longest_takeBytes (cs : List Char) (n : ℕ) : Longest (takeBytes cs n) cs n :=
  ⟨takeBytes_isPrefix cs n, size_takeBytes_le cs n, fun _ => prefix_takeBytes⟩

theorem Longest.eq_takeBytes {p cs : List Char} {n : ℕ} (h : Longest p cs n) :
    p = takeBytes cs n :=
  (prefix_takeBytes h.isPrefix h.fits).eq_of_length_le
    (h.longest _ (takeBytes_isPrefix cs n) (size_takeBytes_le cs n)).length_le

/-- A run of `while length > 0 && !is_char_boundary(length) { length -= 1 }`, from a length to the
one that it leaves with. -/
inductive BacksOff (cs : List Char) : ℕ → ℕ → Prop where
  | leave {n : ℕ} (h : ¬ (0 < n ∧ isCharBoundary cs n = false)) : BacksOff cs n n
  | round {n m : ℕ} (h : 0 < n ∧ isCharBoundary cs n = false) (rest : BacksOff cs (n - 1) m) :
    BacksOff cs n m

/-- The loop ends, whatever length it starts with. -/
theorem backsOff_backOff (cs : List Char) (n : ℕ) : BacksOff cs n (backOff cs n) := by
  induction n with
  | zero => exact .leave fun h => Nat.lt_irrefl 0 h.1
  | succ n ih =>
    rw [backOff]
    by_cases hb : isCharBoundary cs (n + 1) = true
    · rw [if_pos hb]
      exact .leave fun h => absurd hb (by simp [h.2])
    · rw [if_neg hb]
      exact .round ⟨Nat.succ_pos n, (Bool.not_eq_true _).mp hb⟩ ih

/-! ## Bytes -/

def encode (cs : List Char) : List UInt8 := cs.flatMap String.utf8EncodeChar

@[simp] theorem encode_nil : encode [] = [] := rfl

theorem encode_cons (c : Char) (cs : List Char) :
    encode (c :: cs) = String.utf8EncodeChar c ++ encode cs := rfl

theorem encode_append (xs ys : List Char) : encode (xs ++ ys) = encode xs ++ encode ys := by
  simp [encode]

@[simp] theorem length_encode (cs : List Char) : (encode cs).length = size cs := by
  induction cs with
  | nil => rfl
  | cons c cs ih => rw [encode_cons, List.length_append, ih, String.length_utf8EncodeChar, size_cons]

/-- The bytes before a prefix's end are the prefix's bytes. -/
theorem take_encode_of_prefix {p cs : List Char} (h : p <+: cs) :
    (encode cs).take (size p) = encode p := by
  obtain ⟨rest, rfl⟩ := h
  rw [encode_append, ← length_encode p, List.take_left']
  rfl

theorem take_encode_takeBytes (cs : List Char) (n : ℕ) :
    (encode cs).take (size (takeBytes cs n)) = encode (takeBytes cs n) :=
  take_encode_of_prefix (takeBytes_isPrefix cs n)

/-- `str::from_utf8`, on a list of bytes. -/
def decode (bytes : List UInt8) : Option (List Char) :=
  bytes.toByteArray.utf8Decode?.map Array.toList

theorem decode_encode (cs : List Char) : decode (encode cs) = some cs := by
  have hbytes : (encode cs).toByteArray = cs.utf8Encode := rfl
  rw [decode, hbytes, List.utf8Decode?_utf8Encode]
  rfl

end Utf8
