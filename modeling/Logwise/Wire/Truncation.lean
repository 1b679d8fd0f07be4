import Logwise.Sinks.Owned
import Logwise.Wire.RoundTrip

/-!
# The truncation routines agree

A retaining sink cuts an owned string, the encoder cuts a dynamic string, and formatted text is cut
chunk by chunk in the scratch buffer and then once more. Each keeps the longest prefix that fits its
limits, and reports whether that is everything.
-/

namespace Logwise

namespace Formatter

/-- Nothing follows a cut where nothing is cut. -/
theorem stopsWhenCut_of_fits {formatter : Formatter} {free : ℕ}
    (h : Utf8.size formatter.text.toList ≤ free) (limit : ℕ) :
    formatter.StopsWhenCut limit free := by
  apply (takeBytes_captured_iff formatter limit free).mp
  rw [captured_fst_of_le h, ← Utf8.takeBytes_takeBytes, Utf8.takeBytes_eq_self h]

/-- A value is reported as truncated exactly when it is not the whole text. -/
theorem cut_iff {formatter : Formatter} {limit free : ℕ} :
    ((formatter.captured free).2 = true ∨ limit < Utf8.size (formatter.captured free).1) ↔
      min limit free < Utf8.size formatter.text.toList := by
  rw [captured_snd]
  by_cases hfits : Utf8.size formatter.text.toList ≤ free
  · rw [captured_fst_of_le hfits]
    omega
  · exact iff_of_true (Or.inl (Nat.lt_of_not_le hfits)) (by omega)

end Formatter

namespace Wire

namespace Encoder

/-- Where there is room for it, the operation writes the text `kept` after its length, and reports
it as truncated unless it is all of `cs`; elsewhere it returns an error. -/
def Puts (operation : Encode Unit) (encoder : Encoder) (kept cs : List Char) : Prop :=
  if (Codec.textBytes kept).length ≤ encoder.room then
    ∃ encoder', operation encoder = .ok () encoder' ∧
      encoder'.written = encoder.written ++ Codec.textBytes kept ∧
        encoder'.truncatedValues =
          min u32Max (encoder.truncatedValues + if kept = cs then 0 else 1)
  else ∃ error encoder', operation encoder = .error (.error error) encoder'

variable {limit free : ℕ}

theorem Writes.puts {operation : Encode Unit} {kept cs : List Char} {cut : ℕ}
    (h : Writes limit free operation True (Codec.textBytes kept) cut)
    (hcut : cut = if kept = cs then 0 else 1) {encoder : Encoder}
    (hready : encoder.Ready limit free) : encoder.Puts operation kept cs := by
  obtain ⟨refusal, hwrites⟩ := h
  rw [Puts]
  split
  next hroom =>
    obtain ⟨encoder', hrun, -, happends⟩ := (hwrites encoder hready).1 trivial hroom
    exact ⟨encoder', hrun, happends.written, hcut ▸ happends.truncated⟩
  next hroom =>
    obtain ⟨encoder', hrun⟩ := (hwrites encoder hready).2 fun hyes => hroom hyes.2
    exact ⟨_, encoder', hrun⟩

theorem puts_dynamic (hlimit : limit ≤ u16Max) (value : String) {encoder : Encoder}
    (hready : encoder.Ready limit free) :
    encoder.Puts (dynamic value false) (Utf8.takeBytes value.toList limit) value.toList := by
  refine (writes_dynamic hlimit value).puts ?_ hready
  simp only [Utf8.takeBytes_eq_self_iff, ← not_le, ite_not]

/-- Cut twice, in the scratch buffer and at the limit, a text is cut once at the smaller of them. -/
theorem puts_formatted (hlimit : limit ≤ u16Max) {arguments : Formatter}
    (hstops : arguments.StopsWhenCut limit free) {encoder : Encoder}
    (hready : encoder.Ready limit free) :
    encoder.Puts (formatted arguments)
      (Utf8.takeBytes arguments.text.toList (min limit free)) arguments.text.toList := by
  have hwrites : Writes limit free (formatted arguments) _ _ _ := writes_formatted hlimit arguments
  rw [(arguments.takeBytes_captured_iff limit free).mpr hstops] at hwrites
  refine hwrites.puts ?_ hready
  rw [if_congr arguments.cut_iff rfl rfl]
  simp only [Utf8.takeBytes_eq_self_iff, ← not_le, ite_not]

/-- **One truncation**: whatever the text, the loops end, and a sink's copy, a dynamic string and
formatted text that fits the scratch buffer are cut to the same longest prefix within the limit and
reported alike. In a smaller scratch buffer the buffer is the limit. -/
theorem truncations_agree {max : ℕ} (hmax : max ≤ u16Max) (s : String) :
    (∀ cs n, Utf8.BacksOff cs n (Utf8.backOff cs n)) ∧
    (∃ kept, Utf8.Longest kept s.toList max ∧
      (∀ truncated, truncate s max truncated =
        (String.ofList kept, if kept = s.toList then truncated else truncated + 1)) ∧
      ∀ (free : ℕ) (encoder : Encoder), encoder.Ready max free →
        encoder.Puts (dynamic s false) kept s.toList ∧
        ∀ arguments : Formatter, arguments.text = s → Utf8.size s.toList ≤ free →
          encoder.Puts (formatted arguments) kept s.toList) ∧
    ∀ free : ℕ, ∃ kept, Utf8.Longest kept s.toList (min max free) ∧
      ∀ (encoder : Encoder) (arguments : Formatter), encoder.Ready max free →
        arguments.text = s → arguments.Propagates →
          encoder.Puts (formatted arguments) kept s.toList := by
  refine ⟨Utf8.backsOff_backOff, ⟨_, Utf8.longest_takeBytes s.toList max, ?_, ?_⟩, fun free => ?_⟩
  · intro truncated
    simp only [truncate_eq, Utf8.takeBytes_eq_self_iff]
  · intro free encoder hready
    refine ⟨puts_dynamic hmax s hready, ?_⟩
    rintro arguments rfl hfits
    have hputs := puts_formatted hmax (arguments.stopsWhenCut_of_fits hfits max) hready
    rwa [← Utf8.takeBytes_takeBytes, Utf8.takeBytes_eq_self hfits] at hputs
  · refine ⟨_, Utf8.longest_takeBytes s.toList (min max free), ?_⟩
    rintro encoder arguments hready rfl hpropagates
    exact puts_formatted hmax (hpropagates.stopsWhenCut max free) hready

theorem truncations_agree_accent :
    truncate "aé" 2 0 = ("a", 1) ∧
      (Encoder.new 2 [0, 0, 0] [0, 0, 0]).Puts (dynamic "aé" false) ['a'] ['a', 'é'] ∧
        (Encoder.new 2 [0, 0, 0] [0, 0, 0]).Puts (formatted (.literal "aé")) ['a'] ['a', 'é'] := by
  obtain ⟨-, ⟨kept, hlongest, htruncate, hputs⟩, -⟩ :=
    truncations_agree (by decide : 2 ≤ u16Max) "aé"
  have hready : Ready 2 3 (Encoder.new 2 [0, 0, 0] [0, 0, 0]) :=
    ⟨Nat.zero_le _, rfl, rfl, Nat.zero_le _⟩
  obtain rfl : kept = ['a'] := hlongest.eq_takeBytes
  obtain ⟨hdynamic, hformatted⟩ := hputs 3 _ hready
  exact ⟨htruncate 0, hdynamic, hformatted (.literal "aé") rfl (by decide)⟩

end Encoder

end Wire

end Logwise
