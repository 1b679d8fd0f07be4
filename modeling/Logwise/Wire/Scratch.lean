import Logwise.Wire.Encoder

/-!
# What a formatter leaves in the scratch buffer

`captured` is the text a formatter leaves in a buffer of some free bytes, and whether a chunk was
cut. The scratch writer computes it and never panics; a formatter that stops at the first error
leaves the longest prefix of its text that fits.
-/

namespace Logwise

namespace Formatter

/-- The text left in `free` bytes, and whether a chunk did not fit. -/
def captured : Formatter → ℕ → List Char × Bool
  | .done, _ => ([], false)
  | .writeStr chunk onOk onErr, free =>
    if Utf8.size chunk.toList ≤ free then
      let rest := captured onOk (free - Utf8.size chunk.toList)
      (chunk.toList ++ rest.1, rest.2)
    else
      let kept := Utf8.takeBytes chunk.toList free
      (kept ++ (captured onErr (free - Utf8.size kept)).1, true)

/-- The first character that goes into a buffer of `free` bytes. -/
def firstFitting : Formatter → ℕ → Option Char
  | .done, _ => none
  | .writeStr chunk onOk onErr, free =>
    match chunk.toList with
    | [] => firstFitting onOk free
    | c :: _ => if c.utf8Size ≤ free then some c else firstFitting onErr free

/-- The first character written after a chunk was cut, if it fits what the cut left free. -/
def resumed : Formatter → ℕ → Option Char
  | .done, _ => none
  | .writeStr chunk onOk onErr, free =>
    if Utf8.size chunk.toList ≤ free then resumed onOk (free - Utf8.size chunk.toList)
    else firstFitting onErr (free - Utf8.size (Utf8.takeBytes chunk.toList free))

/-- Nothing that follows a cut gets into the first `limit` bytes of the value. -/
def StopsWhenCut (limit free : ℕ) (formatter : Formatter) : Prop :=
  ∀ c ∈ formatter.resumed free,
    limit < Utf8.size (Utf8.takeBytes formatter.text.toList free) + c.utf8Size

theorem text_writeStr (chunk : String) (onOk onErr : Formatter) :
    (writeStr chunk onOk onErr).text.toList = chunk.toList ++ onOk.text.toList := by
  rw [text, String.toList_append]

/-- A chunk is cut exactly when the text does not fit. -/
theorem captured_snd (formatter : Formatter) (free : ℕ) :
    (formatter.captured free).2 = true ↔ free < Utf8.size formatter.text.toList := by
  induction formatter generalizing free with
  | done => simp [captured, text]
  | writeStr chunk onOk onErr ihOk ihErr =>
    rw [captured, text_writeStr, Utf8.size_append]
    split
    next hfits =>
      rw [ihOk]
      omega
    next hfits =>
      simp only [true_iff]
      omega

/-- Text that fits is captured whole. -/
theorem captured_fst_of_le {formatter : Formatter} {free : ℕ}
    (h : Utf8.size formatter.text.toList ≤ free) :
    (formatter.captured free).1 = formatter.text.toList := by
  induction formatter generalizing free with
  | done => simp [captured, text]
  | writeStr chunk onOk onErr ihOk ihErr =>
    rw [text_writeStr, Utf8.size_append] at h
    rw [captured, if_pos (by omega), text_writeStr]
    dsimp only
    rw [ihOk (by omega)]

theorem captured_head? (formatter : Formatter) (free : ℕ) :
    (formatter.captured free).1.head? = formatter.firstFitting free := by
  induction formatter generalizing free with
  | done => rfl
  | writeStr chunk onOk onErr ihOk ihErr =>
    rw [captured, firstFitting]
    cases hchunk : chunk.toList with
    | nil => simpa using ihOk free
    | cons c cs =>
      dsimp only
      by_cases hc : c.utf8Size ≤ free
      · rw [if_pos hc]
        split
        · rfl
        · simp [Utf8.takeBytes, hc]
      · have hbig : ¬ Utf8.size (c :: cs) ≤ free := by
          rw [Utf8.size_cons]
          omega
        rw [if_neg hc, if_neg hbig]
        simpa [Utf8.takeBytes, hc] using ihErr free

/-- What is captured is the longest prefix that fits, then whatever follows the first cut. -/
theorem exists_captured_eq (formatter : Formatter) (free : ℕ) : ∃ extra,
    (formatter.captured free).1 = Utf8.takeBytes formatter.text.toList free ++ extra ∧
      extra.head? = formatter.resumed free := by
  induction formatter generalizing free with
  | done => exact ⟨[], rfl, rfl⟩
  | writeStr chunk onOk onErr ihOk ihErr =>
    rw [captured, resumed, text_writeStr]
    split
    next hfits =>
      obtain ⟨extra, hextra, hhead⟩ := ihOk (free - Utf8.size chunk.toList)
      refine ⟨extra, ?_, hhead⟩
      dsimp only
      rw [Utf8.takeBytes_append_of_le hfits, hextra, List.append_assoc]
    next hfits =>
      refine ⟨_, ?_, captured_head? onErr _⟩
      rw [Utf8.takeBytes_append_of_lt (by omega)]

/-- **Where the value is a prefix**: cut to `limit` bytes, what was captured is the longest prefix
of the text that fits both limits exactly when nothing after a cut gets into them. -/
theorem takeBytes_captured_iff (formatter : Formatter) (limit free : ℕ) :
    Utf8.takeBytes (formatter.captured free).1 limit =
        Utf8.takeBytes formatter.text.toList (min limit free) ↔
      formatter.StopsWhenCut limit free := by
  obtain ⟨extra, hextra, hhead⟩ := exists_captured_eq formatter free
  rw [hextra, ← Utf8.takeBytes_takeBytes, StopsWhenCut, ← hhead, Utf8.takeBytes_append_eq_iff]

/-- A formatter that returns the first error writes nothing after a cut. -/
theorem Propagates.stopsWhenCut {formatter : Formatter} (h : formatter.Propagates)
    (limit free : ℕ) : formatter.StopsWhenCut limit free := by
  have hnone : ∀ free, formatter.resumed free = none := by
    induction formatter with
    | done => exact fun _ => rfl
    | writeStr chunk onOk onErr ihOk ihErr =>
      intro free
      rw [resumed]
      split
      · exact ihOk h.1 _
      · rw [h.2]
        rfl
  intro c hc
  rw [hnone] at hc
  cases hc

end Formatter

end Logwise
