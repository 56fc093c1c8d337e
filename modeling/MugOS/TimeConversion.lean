import MugOS.Time
import MugOS.Lib.Scaling

/-!
# The Range and the Accuracy of Tick Conversions

`computeConversion` is used in two directions: a steady timer converts its ticks to nanoseconds,
an event timer converts nanoseconds to its ticks. The two searches of the function trade the range
for the accuracy; here both are stated, for every frequency and for both directions.

The factor that is found is the rounded ratio of `Scaling`, because no step of the computation
overflows.

## Main results

* `noWrap_of_lt`: the 64-bit arithmetic of the conversion is exact.
* `conversion_range_accuracy`: the shift, the factor, the range and the error.
-/

namespace MugOS.Time

/-- No 64-bit value that `computeConversion(mult, shift, from, to, maxSec)` computes wraps: the
length of the range in ticks, and for each shift the shifted frequency and the sum that is
divided. -/
def NoWrap (from_ to_ maxSec : ℕ) : Prop :=
  maxSec * from_ < 2 ^ 64 ∧
    ∀ shift, 1 ≤ shift → shift ≤ 32 →
      to_ * 2 ^ shift < 2 ^ 64 ∧ to_ * 2 ^ shift + from_ / 2 < 2 ^ 64

/-- The arithmetic of the conversion is exact if half of the frequency to convert from fits beside
the shifted frequency to convert to. -/
theorem noWrap_of_lt {from_ to_ : ℕ} (hfrom : from_ < 2 ^ 32) (hto : to_ < 2 ^ 32) :
    NoWrap from_ to_ 3600 := by
  refine ⟨by omega, ?_⟩
  intro shift _ hshift
  have hpow : 2 ^ shift ≤ 2 ^ 32 := Nat.pow_le_pow_right (by decide) hshift
  have hmul : to_ * 2 ^ shift ≤ (2 ^ 32 - 1) * 2 ^ 32 := Nat.mul_le_mul (by omega) hpow
  omega

/-- Where nothing wraps, the factor is the ratio of the frequencies rounded to its fixed number
of bits. -/
theorem factor_eq_roundedRatio {from_ to_ shift : ℕ} (hwrap : NoWrap from_ to_ 3600)
    (hshift : 1 ≤ shift) (hshift' : shift ≤ 32) :
    factor from_ to_ shift = Scaling.roundedRatio from_ to_ shift :=
  factor_of_lt (hwrap.2 shift hshift hshift').2

/-- The last factor for ticks is small enough: it has four digits at most. -/
theorem event_last {to_ : ℕ} (hto : to_ < 2 ^ 32) :
    factor 1000000000 to_ 1 < 2 ^ factorDigits 1000000000 := by
  have hwrap : NoWrap 1000000000 to_ 3600 := noWrap_of_lt (by decide) hto
  have hbig : 2 ^ 20 ≤ 2 ^ factorDigits 1000000000 :=
    Nat.pow_le_pow_right (by decide) (factorDigits_spec (by decide)).2.1
  rw [factor_eq_roundedRatio hwrap (le_refl 1) (by decide), Scaling.roundedRatio]
  omega

/-- The two uses of the conversion: a frequency is converted to nanoseconds for a steady timer,
and nanoseconds to a frequency for an event timer. -/
def Use (frequency from_ to_ : ℕ) : Prop :=
  (from_ = frequency ∧ to_ = 1000000000) ∨ (from_ = 1000000000 ∧ to_ = frequency)

/-- In both uses the arguments are positive 32-bit numbers, and the last factor is small
enough. -/
theorem Use.last {frequency from_ to_ : ℕ} (huse : Use frequency from_ to_)
    (hpos : 1 ≤ frequency) (hlt : frequency < 2 ^ 32) :
    0 < from_ ∧ from_ < 2 ^ 32 ∧ to_ < 2 ^ 32 ∧ factor from_ to_ 1 < 2 ^ factorDigits from_ := by
  rcases huse with ⟨rfl, rfl⟩ | ⟨rfl, rfl⟩
  · exact ⟨hpos, hlt, by decide, steady_last hpos hlt⟩
  · exact ⟨by decide, by decide, hlt, event_last hlt⟩

/-- **The range and the accuracy of a conversion.** For every frequency and both uses the search
ends with a shift of at least one and a factor of 32 bits, which is stored as it is; no 64-bit
value wraps on the way. Up to one hour the product does not overflow, and the result differs from
the exact one by `t / 2 ^ (shift + 1) + 1` at most, with exact quotients and with quotients that are
rounded down. -/
theorem conversion_range_accuracy {frequency from_ to_ : ℕ} (huse : Use frequency from_ to_)
    (hpos : 1 ≤ frequency) (hlt : frequency < 2 ^ 32) :
    NoWrap from_ to_ 3600 ∧
    ∃ mult shift,
      findConversion from_ to_ (factorDigits from_) 32 ((3600 * from_) >>> 32) = (mult, shift) ∧
      computeConversion from_ to_ 3600 = some (mult, shift) ∧ 1 ≤ shift ∧ mult < 2 ^ 32 ∧
      ∀ t, t ≤ 3600 * from_ → t * mult < 2 ^ 64 ∧
        |(((t * mult) >>> shift : ℕ) : ℚ) - t * to_ / from_| ≤ t / 2 ^ (shift + 1) + 1 ∧
        |(((t * mult) >>> shift : ℕ) : ℤ) - (t * to_ / from_ : ℕ)| ≤
          (t / 2 ^ (shift + 1) : ℕ) + 1 := by
  obtain ⟨hfrom, hfrom', hto, hlast⟩ := huse.last hpos hlt
  have hwrap := noWrap_of_lt hfrom' hto
  obtain ⟨shift, heq, hfind, hs, hs', hfit, -⟩ := computeConversion_spec hfrom hfrom' hlast
  have hdigits : 2 ^ factorDigits from_ ≤ 2 ^ 32 :=
    Nat.pow_le_pow_right (by decide) (factorDigits_spec hfrom').2.2
  refine ⟨hwrap, factor from_ to_ shift, shift, hfind, heq, hs, by omega, ?_⟩
  intro t ht
  have hscaled : (t * factor from_ to_ shift) >>> shift = Scaling.scaled from_ to_ shift t := by
    rw [factor_eq_roundedRatio hwrap hs hs', Nat.shiftRight_eq_div_pow, Scaling.scaled]
  rw [hscaled]
  refine ⟨?_, Scaling.abs_scaled_sub_le hfrom to_ shift t,
    Scaling.abs_scaled_sub_div_le hfrom to_ shift t⟩
  rw [mul_comm]
  exact mul_hour_lt hfrom' hfit ht

/-- The statement for the timer of the PC, whose frequency is 1193182 Hz, as an event timer. -/
theorem conversion_range_accuracy_pit :
    NoWrap 1000000000 1193182 3600 ∧
    ∃ mult shift, computeConversion 1000000000 1193182 3600 = some (mult, shift) ∧
      1 ≤ shift ∧ mult < 2 ^ 32 ∧
      ∀ t, t ≤ 3600 * 1000000000 → t * mult < 2 ^ 64 ∧
        |(((t * mult) >>> shift : ℕ) : ℚ) - t * (1193182 : ℕ) / (1000000000 : ℕ)| ≤
          t / 2 ^ (shift + 1) + 1 ∧
        |(((t * mult) >>> shift : ℕ) : ℤ) - (t * 1193182 / 1000000000 : ℕ)| ≤
          (t / 2 ^ (shift + 1) : ℕ) + 1 := by
  have huse : Use 1193182 1000000000 1193182 := .inr ⟨rfl, rfl⟩
  obtain ⟨hwrap, mult, shift, -, hconversion, hshift, hmult, hbounds⟩ :=
    conversion_range_accuracy huse (by decide) (by decide)
  exact ⟨hwrap, mult, shift, hconversion, hshift, hmult, hbounds⟩

end MugOS.Time
