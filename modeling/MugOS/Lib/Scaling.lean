import Mathlib.Tactic

/-!
# Scaling by a Rounded Ratio

A number is multiplied by a ratio `to / from` in integer arithmetic: the ratio is rounded to a
multiple of `1 / 2 ^ shift`, and the product with the rounded ratio is shifted back. This is how
clocks convert between ticks and time.

## Main results

* `abs_scaled_sub_le`: the error of the result, which is half a unit of the rounded ratio for
  each unit of the number, and less than one for the shift.
* `abs_scaled_sub_div_le`: the same bound when both sides are rounded down.
-/

namespace Scaling

/-- The ratio `to / from` as a multiple of `1 / 2 ^ shift`, rounded to the nearest. -/
def roundedRatio (from_ to_ shift : ℕ) : ℕ := (to_ * 2 ^ shift + from_ / 2) / from_

/-- A number times the rounded ratio, rounded down. -/
def scaled (from_ to_ shift t : ℕ) : ℕ := t * roundedRatio from_ to_ shift / 2 ^ shift

/-- The ratio rounded to a fixed number of bits is off by half a unit of the last bit at
most. -/
theorem roundedRatio_bounds {from_ : ℕ} (hfrom : 0 < from_) (to_ shift : ℕ) :
    2 * (from_ * roundedRatio from_ to_ shift) ≤ 2 * (to_ * 2 ^ shift) + from_ ∧
      2 * (to_ * 2 ^ shift) ≤ 2 * (from_ * roundedRatio from_ to_ shift) + from_ := by
  have hbelow := Nat.mul_div_le (to_ * 2 ^ shift + from_ / 2) from_
  have habove := Nat.lt_mul_div_succ (to_ * 2 ^ shift + from_ / 2) hfrom
  rw [← roundedRatio] at hbelow habove
  rw [mul_add, mul_one] at habove
  omega

/-- The error of the rounded ratio, as a rational number. -/
theorem abs_roundedRatio_sub_le {from_ : ℕ} (hfrom : 0 < from_) (to_ shift : ℕ) :
    |(roundedRatio from_ to_ shift : ℚ) / 2 ^ shift - to_ / from_| ≤ 1 / 2 ^ (shift + 1) := by
  obtain ⟨hupper, hlower⟩ := roundedRatio_bounds hfrom to_ shift
  have hfrom' : (0 : ℚ) < from_ := by exact_mod_cast hfrom
  have hpow : (0 : ℚ) < 2 ^ shift := by positivity
  have hupper' : 2 * ((from_ : ℚ) * roundedRatio from_ to_ shift) ≤
      2 * (to_ * 2 ^ shift) + from_ := by exact_mod_cast hupper
  have hlower' : 2 * ((to_ : ℚ) * 2 ^ shift) ≤
      2 * (from_ * roundedRatio from_ to_ shift) + from_ := by exact_mod_cast hlower
  have hsplit : (roundedRatio from_ to_ shift : ℚ) / 2 ^ shift - to_ / from_ =
      (2 * (from_ * roundedRatio from_ to_ shift) - 2 * (to_ * 2 ^ shift)) /
        (2 ^ (shift + 1) * from_) := by
    rw [pow_succ]
    field_simp
  rw [hsplit, abs_div, abs_of_pos (by positivity : (0 : ℚ) < 2 ^ (shift + 1) * from_),
    div_le_div_iff₀ (by positivity) (by positivity)]
  have habs : |2 * ((from_ : ℚ) * roundedRatio from_ to_ shift) - 2 * (to_ * 2 ^ shift)| ≤ from_ :=
    abs_le.mpr ⟨by linarith, by linarith⟩
  have hmul := mul_le_mul_of_nonneg_right habs (by positivity : (0 : ℚ) ≤ 2 ^ (shift + 1))
  linarith

/-- The number before the last shift is close to the exact result. -/
theorem abs_mul_roundedRatio_sub_le {from_ : ℕ} (hfrom : 0 < from_) (to_ shift t : ℕ) :
    |(t * roundedRatio from_ to_ shift : ℚ) / 2 ^ shift - t * to_ / from_| ≤
      t / 2 ^ (shift + 1) := by
  have hratio := abs_roundedRatio_sub_le hfrom to_ shift
  have hfactor : (t * roundedRatio from_ to_ shift : ℚ) / 2 ^ shift - t * to_ / from_ =
      t * ((roundedRatio from_ to_ shift : ℚ) / 2 ^ shift - to_ / from_) := by ring
  rw [hfactor, abs_mul, Nat.abs_cast, div_eq_mul_one_div (t : ℚ)]
  exact mul_le_mul_of_nonneg_left hratio (Nat.cast_nonneg t)

/-- The scaled value is the product with the rounded ratio, shifted and rounded down. -/
theorem scaled_bounds (from_ to_ shift t : ℕ) :
    (scaled from_ to_ shift t : ℚ) ≤ (t * roundedRatio from_ to_ shift : ℚ) / 2 ^ shift ∧
      (t * roundedRatio from_ to_ shift : ℚ) / 2 ^ shift < scaled from_ to_ shift t + 1 := by
  have hpow : (0 : ℚ) < 2 ^ shift := by positivity
  have hbelow := Nat.mul_div_le (t * roundedRatio from_ to_ shift) (2 ^ shift)
  have habove := Nat.lt_mul_div_succ (t * roundedRatio from_ to_ shift) (Nat.two_pow_pos shift)
  rw [← scaled] at hbelow habove
  constructor
  · rw [le_div_iff₀ hpow, mul_comm]
    exact_mod_cast hbelow
  · rw [div_lt_iff₀' hpow]
    exact_mod_cast habove

/-- **The error of the scaled number**: half a unit of the rounded ratio for each unit of the
number, and less than one for the shift. -/
theorem abs_scaled_sub_le {from_ : ℕ} (hfrom : 0 < from_) (to_ shift t : ℕ) :
    |(scaled from_ to_ shift t : ℚ) - t * to_ / from_| ≤ t / 2 ^ (shift + 1) + 1 := by
  obtain ⟨hlower, hupper⟩ := abs_le.mp (abs_mul_roundedRatio_sub_le hfrom to_ shift t)
  obtain ⟨hbelow, habove⟩ := scaled_bounds from_ to_ shift t
  exact abs_le.mpr ⟨by linarith, by linarith⟩

/-- The scaled value differs from the exact quotient, also rounded down, by the same bound. -/
theorem abs_scaled_sub_div_le {from_ : ℕ} (hfrom : 0 < from_) (to_ shift t : ℕ) :
    |(scaled from_ to_ shift t : ℤ) - (t * to_ / from_ : ℕ)| ≤ (t / 2 ^ (shift + 1) : ℕ) + 1 := by
  obtain ⟨hlower, hupper⟩ := abs_le.mp (abs_mul_roundedRatio_sub_le hfrom to_ shift t)
  obtain ⟨hbelow, habove⟩ := scaled_bounds from_ to_ shift t
  have hfrom' : (0 : ℚ) < from_ := by exact_mod_cast hfrom
  have hquot : ((t * to_ / from_ : ℕ) : ℚ) ≤ (t * to_ : ℚ) / from_ := by
    exact_mod_cast @Nat.cast_div_le ℚ _ _ _ (t * to_) from_
  have hquot' : (t * to_ : ℚ) / from_ < (t * to_ / from_ : ℕ) + 1 := by
    rw [div_lt_iff₀' hfrom']
    exact_mod_cast Nat.lt_mul_div_succ (t * to_) hfrom
  have hhalf : (t : ℚ) / 2 ^ (shift + 1) < (t / 2 ^ (shift + 1) : ℕ) + 1 := by
    rw [div_lt_iff₀' (by positivity)]
    exact_mod_cast Nat.lt_mul_div_succ t (Nat.two_pow_pos (shift + 1))
  -- Both differences are below the bound plus one, and they are integers.
  have hpos : (scaled from_ to_ shift t : ℚ) <
      (t * to_ / from_ : ℕ) + (t / 2 ^ (shift + 1) : ℕ) + 2 := by linarith
  have hneg : ((t * to_ / from_ : ℕ) : ℚ) <
      scaled from_ to_ shift t + (t / 2 ^ (shift + 1) : ℕ) + 2 := by linarith
  have hpos' : scaled from_ to_ shift t < t * to_ / from_ + t / 2 ^ (shift + 1) + 2 := by
    exact_mod_cast hpos
  have hneg' : t * to_ / from_ < scaled from_ to_ shift t + t / 2 ^ (shift + 1) + 2 := by
    exact_mod_cast hneg
  exact abs_le.mpr ⟨by omega, by omega⟩

end Scaling
