import Logwise.Library.Utf8
import Mathlib.Data.Nat.Basic

/-!
# Parsers of byte formats

A parser takes what it needs from the front of a byte list. `Reads` says that it recognizes an
encoding whatever follows, so encodings compose by concatenation. The formats are the ones of
length-prefixed binary records: little-endian words, counted text, tagged options, counted lists.
-/

namespace Codec

variable {α β : Type}

abbrev Parser (α : Type) := StateT (List UInt8) Option α

namespace Parser

/-- On `bytes`, followed by anything, the parser yields `value` and leaves what follows. -/
def Reads (p : Parser α) (bytes : List UInt8) (value : α) : Prop :=
  ∀ rest, p (bytes ++ rest) = some (value, rest)

def fail : Parser α := fun _ => none

def take (count : ℕ) : Parser (List UInt8) := fun input =>
  if count ≤ input.length then some (input.take count, input.drop count) else none

theorem reads_pure (value : α) : (pure value : Parser α).Reads [] value := fun _ => rfl

theorem Reads.bind {p : Parser α} {f : α → Parser β} {bytes more : List UInt8} {a : α} {b : β}
    (h : p.Reads bytes a) (hf : (f a).Reads more b) : (p >>= f).Reads (bytes ++ more) b := by
  intro rest
  change (p (bytes ++ more ++ rest)).bind (fun out => f out.1 out.2) = some (b, rest)
  rw [List.append_assoc, h]
  exact hf rest

/-- The last parser of a sequence: nothing follows it. -/
theorem Reads.bind_pure {p : Parser α} {f : α → Parser β} {bytes : List UInt8} {a : α} {b : β}
    (h : p.Reads bytes a) (hf : f a = pure b) : (p >>= f).Reads bytes b := by
  have hbind := h.bind (hf ▸ reads_pure b)
  rwa [List.append_nil] at hbind

theorem reads_take {bytes : List UInt8} {count : ℕ} (h : bytes.length = count) :
    (take count).Reads bytes bytes := by
  intro rest
  rw [take, if_pos (by simp [h]), ← h, List.take_left, List.drop_left]

theorem Reads.run {p : Parser α} {bytes : List UInt8} {a : α} (h : p.Reads bytes a) :
    p bytes = some (a, []) := by
  have ha := h []
  rwa [List.append_nil] at ha

end Parser

open Codec.Parser

/-! ## Little-endian words -/

/-- `to_le_bytes` of a word of `count` bytes. -/
def leBytes : ℕ → ℕ → List UInt8
  | 0, _ => []
  | count + 1, value => UInt8.ofNat value :: leBytes count (value / 256)

/-- `from_le_bytes`. -/
def ofLeBytes : List UInt8 → ℕ
  | [] => 0
  | byte :: bytes => byte.toNat + 256 * ofLeBytes bytes

@[simp] theorem length_leBytes (count value : ℕ) : (leBytes count value).length = count := by
  induction count generalizing value with
  | zero => rfl
  | succ count ih => rw [leBytes, List.length_cons, ih]

theorem ofLeBytes_leBytes {count value : ℕ} (h : value < 256 ^ count) :
    ofLeBytes (leBytes count value) = value := by
  induction count generalizing value with
  | zero =>
    rw [Nat.pow_zero] at h
    simp only [leBytes, ofLeBytes]
    omega
  | succ count ih =>
    rw [Nat.pow_succ] at h
    have hdiv : value / 256 < 256 ^ count := by omega
    have hbyte : (UInt8.ofNat value).toNat = value % 256 := UInt8.toNat_ofNat'
    rw [leBytes, ofLeBytes, ih hdiv, hbyte]
    omega

def u8 : Parser UInt8 := fun
  | byte :: rest => some (byte, rest)
  | [] => none

def word (count : ℕ) : Parser ℕ := do
  let bytes ← take count
  pure (ofLeBytes bytes)

def u16 : Parser UInt16 := do pure (UInt16.ofNat (← word 2))

def u32 : Parser UInt32 := do pure (UInt32.ofNat (← word 4))

def u64 : Parser UInt64 := do pure (UInt64.ofNat (← word 8))

def u16Bytes (value : UInt16) : List UInt8 := leBytes 2 value.toNat

def u32Bytes (value : UInt32) : List UInt8 := leBytes 4 value.toNat

def u64Bytes (value : UInt64) : List UInt8 := leBytes 8 value.toNat

theorem reads_u8 (value : UInt8) : u8.Reads [value] value := fun _ => rfl

theorem reads_word {count value : ℕ} (h : value < 256 ^ count) :
    (word count).Reads (leBytes count value) value :=
  (reads_take (length_leBytes count value)).bind_pure (by rw [ofLeBytes_leBytes h])

theorem reads_u16 (value : UInt16) : u16.Reads (u16Bytes value) value :=
  (reads_word value.toNat_lt).bind_pure (by rw [UInt16.ofNat_toNat])

theorem reads_u32 (value : UInt32) : u32.Reads (u32Bytes value) value :=
  (reads_word value.toNat_lt).bind_pure (by rw [UInt32.ofNat_toNat])

theorem reads_u64 (value : UInt64) : u64.Reads (u64Bytes value) value :=
  (reads_word value.toNat_lt).bind_pure (by rw [UInt64.ofNat_toNat])

/-! ## Text -/

/-- A `u16` byte length, then UTF-8. -/
def text : Parser String := do
  let length ← u16
  let bytes ← take length.toNat
  match Utf8.decode bytes with
  | some cs => pure (String.ofList cs)
  | none => fail

def textBytes (cs : List Char) : List UInt8 := leBytes 2 (Utf8.size cs) ++ Utf8.encode cs

@[simp] theorem length_textBytes (cs : List Char) : (textBytes cs).length = 2 + Utf8.size cs := by
  rw [textBytes, List.length_append, length_leBytes, Utf8.length_encode]

theorem reads_text {cs : List Char} (h : Utf8.size cs < 2 ^ 16) :
    text.Reads (textBytes cs) (String.ofList cs) := by
  have hlength : (UInt16.ofNat (Utf8.size cs)).toNat = Utf8.size cs := UInt16.toNat_ofNat_of_lt h
  have hread := reads_u16 (UInt16.ofNat (Utf8.size cs))
  rw [u16Bytes, hlength] at hread
  refine hread.bind ((reads_take ?_).bind_pure ?_)
  · rw [Utf8.length_encode, hlength]
  · rw [Utf8.decode_encode]

/-! ## Options and lists -/

/-- A presence tag, then the value. -/
def tagged (p : Parser α) : Parser (Option α) := do
  let tag ← u8
  if tag = 0 then pure none
  else if tag = 1 then
    let value ← p
    pure (some value)
  else fail

def taggedBytes (encode : α → List UInt8) : Option α → List UInt8
  | some value => 1 :: encode value
  | none => [0]

theorem taggedBytes_map (encode : β → List UInt8) (f : α → β) (value : Option α) :
    taggedBytes encode (value.map f) = taggedBytes (fun a => encode (f a)) value := by
  cases value <;> rfl

theorem length_taggedBytes (encode : α → List UInt8) (value : Option α) :
    (taggedBytes encode value).length = 1 + (value.map fun a => (encode a).length).getD 0 := by
  cases value with
  | none => rfl
  | some a => exact Nat.add_comm _ _

theorem reads_tagged {p : Parser α} {encode : α → List UInt8} {value : Option α}
    (h : ∀ a ∈ value, p.Reads (encode a) a) :
    (tagged p).Reads (taggedBytes encode value) value := by
  cases value with
  | none => exact (reads_u8 0).bind_pure rfl
  | some a => exact (reads_u8 1).bind ((h a rfl).bind_pure rfl)

/-- `count` values, one after the other. -/
def times (p : Parser α) : ℕ → Parser (List α)
  | 0 => pure []
  | count + 1 => do
    let value ← p
    let values ← times p count
    pure (value :: values)

theorem reads_times {p : Parser α} {encode : α → List UInt8} {values : List α}
    (h : ∀ a ∈ values, p.Reads (encode a) a) :
    (times p values.length).Reads (values.flatMap encode) values := by
  induction values with
  | nil => exact reads_pure []
  | cons a values ih =>
    refine (h a (List.mem_cons_self ..)).bind ?_
    exact (ih fun b hb => h b (List.mem_cons_of_mem _ hb)).bind_pure rfl

/-- A `u16` count, then the values. -/
def counted (p : Parser α) : Parser (List α) := do
  let count ← u16
  times p count.toNat

def countedBytes (encode : α → List UInt8) (values : List α) : List UInt8 :=
  leBytes 2 values.length ++ values.flatMap encode

theorem length_countedBytes (encode : α → List UInt8) (values : List α) :
    (countedBytes encode values).length = 2 + (values.map fun a => (encode a).length).sum := by
  rw [countedBytes, List.length_append, length_leBytes, List.length_flatMap]

theorem reads_counted {p : Parser α} {encode : α → List UInt8} {values : List α}
    (hlen : values.length < 2 ^ 16) (h : ∀ a ∈ values, p.Reads (encode a) a) :
    (counted p).Reads (countedBytes encode values) values := by
  have hcount : (UInt16.ofNat values.length).toNat = values.length := UInt16.toNat_ofNat_of_lt hlen
  have hread := reads_u16 (UInt16.ofNat values.length)
  rw [u16Bytes, hcount] at hread
  refine hread.bind ?_
  rw [hcount]
  exact reads_times h

end Codec
