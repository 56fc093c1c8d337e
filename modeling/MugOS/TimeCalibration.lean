import MugOS.TimeSleep
import Mathlib.Data.Real.Basic
import Mathlib.Algebra.Order.Floor.Div
import Mathlib.Algebra.Order.Floor.Ring
import Mathlib.Algebra.Order.Archimedean.Real.Basic

/-!
# Frequency Calibration

`measureFrequency` measures the frequency of a counter with the help of the other timers. It has
two copies, for the time stamp counter and for the timer of the APIC, which differ in how they read
their counter. Five times both wait for 50 milliseconds; from each sample they take two
estimates: twenty times the ticks, and the ticks divided by the time that has really passed.

The expression for the second estimate divides by the time only the constant that rounds the
quotient up. So the second estimate is far above the first, and never taken.

## Main results

* `combine_spec`: the result is twenty times the smallest number of ticks.
* `measureFrequency_iff`: when this is the minimum of both estimates, for both copies.
-/

namespace MugOS.Time

/-! ### The two copies -/

/-- `UINT64_MAX`. -/
def UINT64_MAX : ℕ := 2 ^ 64 - 1

/-- One round of the loop, from the two minima so far: `ticks` and `dt` are the differences of the
counter and of the time. A division by zero is `none`. -/
def calibrate (minima : ℕ × ℕ) (sample : ℕ × ℤ) : Option (ℕ × ℕ) :=
  let (freq1, freq2) := minima
  let (ticks, dt) := sample
  if dt = 0 then none
  else
    let freq_temp1 := ticks * (1000 / 50) % 2 ^ 64
    -- The division binds more tightly than the sum.
    let freq_temp2 := toUnsignedLong (ticks * 1000000000 + dt - Int.tdiv 1 dt)
    some (min freq1 freq_temp1, min freq2 freq_temp2)

/-- The loop over the samples, and the final minimum. -/
def combine (samples : List (ℕ × ℤ)) : Option ℕ :=
  match samples.foldlM calibrate (UINT64_MAX, UINT64_MAX) with
  | none => none
  | some (freq1, freq2) =>
      let freq := min freq1 freq2
      some (if freq = UINT64_MAX then 0 else freq)

/-- The values that one round reads for the time stamp counter, in this order. -/
structure TscReading where
  t0 : ℤ
  tscTicks_t0 : ℕ
  tscTicks_tf : ℕ
  tf : ℤ
  deriving DecidableEq, Repr

/-- `tscTicks_delta` and `dt`: the differences of the counter and of the time, in 64 bits. -/
def TscReading.sample (reading : TscReading) : ℕ × ℤ :=
  ((reading.tscTicks_tf + 2 ^ 64 - reading.tscTicks_t0) % 2 ^ 64,
    (reading.tf - reading.t0).bmod (2 ^ 64))

/-- `measureFrequency()` of the time stamp counter. -/
def TSC.measureFrequency (readings : Fin 5 → TscReading) : Option ℕ :=
  combine (List.ofFn fun i => (readings i).sample)

/-- The values that one round reads for the timer of the APIC, which counts down. -/
structure ApicReading where
  t0 : ℤ
  ticks_final : ℕ
  tf : ℤ
  deriving DecidableEq, Repr

/-- `ticks_delta` and `dt`: the ticks that have passed, and the difference of the time, in 64
bits. -/
def ApicReading.sample (reading : ApicReading) : ℕ × ℤ :=
  ((0xffffffff + 2 ^ 64 - reading.ticks_final) % 2 ^ 64, (reading.tf - reading.t0).bmod (2 ^ 64))

/-- `measureFrequency()` of the timer of the APIC. -/
def APIC.measureFrequency (readings : Fin 5 → ApicReading) : Option ℕ :=
  combine (List.ofFn fun i => (readings i).sample)

/-! ### The result -/

/-- A sample whose second estimate does not overflow. -/
def Regular (sample : ℕ × ℤ) : Prop :=
  1 ≤ sample.2 ∧ (sample.1 : ℤ) * 1000000000 + sample.2 < 2 ^ 64

/-- The second estimate of a regular sample is not below the first. -/
theorem Regular.estimates {sample : ℕ × ℤ} (hreg : Regular sample) (freq1 freq2 : ℕ) :
    ∃ estimate, calibrate (freq1, freq2) sample =
        some (min freq1 (20 * sample.1), min freq2 estimate) ∧ 20 * sample.1 ≤ estimate := by
  obtain ⟨ticks, dt⟩ := sample
  obtain ⟨hpos, hlt⟩ := hreg
  simp only at hpos hlt
  have hdiv : 0 ≤ Int.tdiv 1 dt ∧ Int.tdiv 1 dt ≤ 1 := by
    rw [Int.tdiv_eq_ediv_of_nonneg (by decide)]
    exact ⟨Int.ediv_nonneg (by decide) (by omega), Int.ediv_le_self _ (by decide)⟩
  refine ⟨toUnsignedLong (ticks * 1000000000 + dt - Int.tdiv 1 dt), ?_, ?_⟩
  · have hfirst : ticks * (1000 / 50) % 2 ^ 64 = 20 * ticks := by omega
    simp only [calibrate, hfirst, if_neg (show ¬ dt = 0 by omega)]
  · rw [toUnsignedLong, Int.emod_eq_of_lt (by omega) (by omega)]
    simp only
    omega

/-- **The loop** takes the smallest first estimate, and its second minimum is not below. -/
theorem foldlM_calibrate {samples : List (ℕ × ℤ)} (hreg : ∀ sample ∈ samples, Regular sample)
    {freq1 freq2 : ℕ} (hle : freq1 ≤ freq2) :
    ∃ freq2', samples.foldlM calibrate (freq1, freq2) =
        some (samples.foldl (fun freq sample => min freq (20 * sample.1)) freq1, freq2') ∧
      samples.foldl (fun freq sample => min freq (20 * sample.1)) freq1 ≤ freq2' := by
  induction samples generalizing freq1 freq2 with
  | nil => exact ⟨freq2, rfl, hle⟩
  | cons sample samples ih =>
      obtain ⟨estimate, hround, hest⟩ := (hreg sample (by simp)).estimates freq1 freq2
      obtain ⟨freq2', heq, hmin⟩ := @ih (fun other hother => hreg other (by simp [hother]))
        (min freq1 (20 * sample.1)) (min freq2 estimate) (min_le_min hle hest)
      refine ⟨freq2', ?_, hmin⟩
      rw [List.foldlM_cons, hround]
      exact heq

/-- The minimum over a list is a lower bound, and it is the first value or one of the list. -/
theorem foldl_min_spec (samples : List (ℕ × ℤ)) (freq : ℕ) :
    let least := samples.foldl (fun freq sample => min freq (20 * sample.1)) freq
    least ≤ freq ∧ (∀ sample ∈ samples, least ≤ 20 * sample.1) ∧
      (least = freq ∨ ∃ sample ∈ samples, least = 20 * sample.1) := by
  induction samples generalizing freq with
  | nil => simp
  | cons sample samples ih =>
      obtain ⟨hle, hall, hmem⟩ := ih (min freq (20 * sample.1))
      simp only [List.foldl_cons] at *
      refine ⟨by omega, ?_, ?_⟩
      · intro other hother
        rcases List.mem_cons.mp hother with rfl | hother
        · omega
        · exact hall other hother
      · rcases hmem with heq | ⟨other, hother, heq⟩
        · rcases min_choice freq (20 * sample.1) with hmin | hmin
          · exact .inl (heq.trans hmin)
          · exact .inr ⟨sample, by simp, heq.trans hmin⟩
        · exact .inr ⟨other, by simp [hother], heq⟩

/-- **The result is twenty times the smallest number of ticks.** -/
theorem combine_spec {samples : List (ℕ × ℤ)} (hne : samples ≠ [])
    (hreg : ∀ sample ∈ samples, Regular sample) :
    ∃ result, combine samples = some result ∧ (∀ sample ∈ samples, result ≤ 20 * sample.1) ∧
      ∃ sample ∈ samples, result = 20 * sample.1 := by
  obtain ⟨freq2', heq, hmin⟩ := foldlM_calibrate hreg (le_refl UINT64_MAX)
  obtain ⟨-, hall, hmem⟩ := foldl_min_spec samples UINT64_MAX
  set least := samples.foldl (fun freq sample => min freq (20 * sample.1)) UINT64_MAX with hleast
  obtain ⟨first, hfirst⟩ := List.exists_mem_of_ne_nil samples hne
  have hsmall : least < UINT64_MAX := by
    have hle := hall first hfirst
    have hlt := (hreg first hfirst).2
    have hpos := (hreg first hfirst).1
    have hmax : UINT64_MAX = 2 ^ 64 - 1 := rfl
    omega
  refine ⟨least, ?_, hall, hmem.resolve_left (by omega)⟩
  simp only [combine, heq, min_eq_left hmin]
  rw [if_neg (by omega)]

/-! ### The intended result -/

/-- What a calibration is to return: the minimum of both estimates over the samples, which is at
most the true frequency of the counter, rounded up, whenever no sample has more ticks than this
frequency gives. -/
def Calibrated (ticks dt : Fin 5 → ℕ) (measured : Option ℕ) : Prop :=
  ∃ freq, measured = some freq ∧
    IsLeast {n | ∃ i, n = 20 * ticks i ∨ n = ticks i * 1000000000 ⌈/⌉ dt i} freq ∧
    ∀ F : ℝ, (∀ i, (ticks i : ℝ) ≤ F * dt i / 1000000000) → (freq : ℤ) ≤ ⌈F⌉

/-- The second estimate, rounded up, is at most the true frequency, rounded up. -/
theorem ceil_estimate_le {ticks dt : ℕ} (hdt : 1 ≤ dt) {F : ℝ}
    (htrue : (ticks : ℝ) ≤ F * dt / 1000000000) :
    ((ticks * 1000000000 ⌈/⌉ dt : ℕ) : ℤ) ≤ ⌈F⌉ := by
  have hdt' : (0 : ℝ) < dt := by exact_mod_cast hdt
  have hF : (ticks : ℝ) * 1000000000 ≤ F * dt := by
    rw [le_div_iff₀ (by norm_num)] at htrue
    exact htrue
  have hnonneg : 0 ≤ ⌈F⌉ := by
    apply Int.ceil_nonneg
    have hticks : (0 : ℝ) ≤ ticks * 1000000000 := by positivity
    exact nonneg_of_mul_nonneg_left (hticks.trans hF) hdt'
  obtain ⟨n, hn⟩ := Int.eq_ofNat_of_zero_le hnonneg
  have hbound : (ticks : ℝ) * 1000000000 ≤ n * dt := by
    have hceil : F ≤ (⌈F⌉ : ℝ) := Int.le_ceil F
    rw [hn] at hceil
    exact hF.trans (mul_le_mul_of_nonneg_right (by exact_mod_cast hceil) hdt'.le)
  have hbound' : ticks * 1000000000 ≤ n * dt := by exact_mod_cast hbound
  rw [hn]
  have hdiv : ticks * 1000000000 ⌈/⌉ dt ≤ n := by
    rw [ceilDiv_le_iff_le_mul (by omega)]
    linarith
  exact_mod_cast hdiv

/-- A number is not above the rounded-up estimate of a sample if its product stays below the
next multiple. -/
theorem le_ceil_estimate_iff {n ticks dt : ℕ} (hdt : 1 ≤ dt) :
    n ≤ ticks * 1000000000 ⌈/⌉ dt ↔ n * dt < ticks * 1000000000 + dt := by
  rw [Nat.ceilDiv_eq_add_pred_div, Nat.le_div_iff_mul_le (by omega)]
  omega

/-- **When a result is the intended one**: twenty times the smallest number of ticks is the minimum
of both estimates if and only if some first estimate is above no second one. -/
theorem calibrated_iff {ticks dt : Fin 5 → ℕ} (hpos : ∀ i, 1 ≤ dt i) {freq : ℕ}
    (hle : ∀ i, freq ≤ 20 * ticks i) (hmem : ∃ i, freq = 20 * ticks i) :
    Calibrated ticks dt (some freq) ↔
      ∃ j, ∀ i, 20 * ticks j * dt i < ticks i * 1000000000 + dt i := by
  constructor
  · rintro ⟨freq', heq, hleast, -⟩
    obtain rfl := Option.some.inj heq
    obtain ⟨j, hj⟩ := hmem
    refine ⟨j, ?_⟩
    intro i
    rw [← le_ceil_estimate_iff (hpos i), ← hj]
    exact hleast.2 ⟨i, .inr rfl⟩
  · rintro ⟨j, hbelow⟩
    have hsecond : ∀ i, freq ≤ ticks i * 1000000000 ⌈/⌉ dt i := fun i =>
      (hle j).trans ((le_ceil_estimate_iff (hpos i)).mpr (hbelow i))
    refine ⟨freq, rfl, ⟨?_, ?_⟩, ?_⟩
    · obtain ⟨i, hi⟩ := hmem
      exact ⟨i, .inl hi⟩
    · rintro n ⟨i, rfl | rfl⟩
      · exact hle i
      · exact hsecond i
    · intro F htrue
      exact (Int.ofNat_le.mpr (hsecond 0)).trans (ceil_estimate_le (hpos 0) (htrue 0))

/-- The loop over five samples is calibrated if and only if one sample is near enough to all
the others. -/
theorem combine_iff {ticks dt : Fin 5 → ℕ} (hlt : ∀ i, ticks i * 1000000000 + dt i < 2 ^ 64)
    (hpos : ∀ i, 1 ≤ dt i) {samples : Fin 5 → ℕ × ℤ}
    (hsamples : ∀ i, samples i = (ticks i, (dt i : ℤ))) :
    Calibrated ticks dt (combine (List.ofFn samples)) ↔
      ∃ j, ∀ i, 20 * ticks j * dt i < ticks i * 1000000000 + dt i := by
  have hreg : ∀ sample ∈ List.ofFn samples, Regular sample := by
    intro sample hsample
    obtain ⟨i, rfl⟩ := List.mem_ofFn.mp hsample
    have hpos' : (1 : ℤ) ≤ dt i := by exact_mod_cast hpos i
    have hlt' : (ticks i : ℤ) * 1000000000 + dt i < 2 ^ 64 := by exact_mod_cast hlt i
    rw [hsamples i]
    exact ⟨hpos', hlt'⟩
  obtain ⟨freq, heq, hle, sample, hsample, hfreq⟩ := combine_spec (by simp) hreg
  rw [heq]
  refine calibrated_iff hpos ?_ ?_
  · intro i
    have := hle (samples i) (List.mem_ofFn.mpr ⟨i, rfl⟩)
    rwa [hsamples i] at this
  · obtain ⟨i, rfl⟩ := List.mem_ofFn.mp hsample
    exact ⟨i, by rw [hfreq, hsamples i]⟩

/-- **When the calibration combines its samples as intended.** For any five samples that do not
overflow, each of the two copies returns the minimum of both estimates if and only if one of the
first estimates, twenty times the ticks of a sample, is above none of the second estimates: that
is, if the delays did not return late. -/
theorem measureFrequency_iff {ticks dt : Fin 5 → ℕ}
    (hlt : ∀ i, ticks i * 1000000000 + dt i < 2 ^ 64) (hpos : ∀ i, 1 ≤ dt i) :
    (∀ readings : Fin 5 → TscReading, (∀ i, (readings i).sample = (ticks i, (dt i : ℤ))) →
      (Calibrated ticks dt (TSC.measureFrequency readings) ↔
        ∃ j, ∀ i, 20 * ticks j * dt i < ticks i * 1000000000 + dt i)) ∧
    (∀ readings : Fin 5 → ApicReading, (∀ i, (readings i).sample = (ticks i, (dt i : ℤ))) →
      (Calibrated ticks dt (APIC.measureFrequency readings) ↔
        ∃ j, ∀ i, 20 * ticks j * dt i < ticks i * 1000000000 + dt i)) :=
  ⟨fun _ hsamples => combine_iff hlt hpos hsamples, fun _ hsamples => combine_iff hlt hpos hsamples⟩

/-- A round of the time stamp counter at one gigahertz that has waited for the given time. -/
def gigahertzReading (dt : ℕ) : TscReading := ⟨0, 0, dt, dt⟩

/-- The statement for five rounds at one gigahertz whose delays are exact. -/
theorem measureFrequency_exact :
    Calibrated (fun _ => 50000000) (fun _ => 50000000)
      (TSC.measureFrequency fun _ => gigahertzReading 50000000) :=
  ((@measureFrequency_iff (fun _ => 50000000) (fun _ => 50000000) (by decide) (by decide)).1
    (fun _ => gigahertzReading 50000000) (by decide +kernel)).mpr ⟨0, by decide⟩

/-- **A frequency that is twice too high**: a counter of one gigahertz, when every delay returns
after 100 milliseconds. -/
theorem measureFrequency_late :
    (∀ i : Fin 5, ((fun _ => gigahertzReading 100000000) i).sample = (100000000, 100000000)) ∧
      TSC.measureFrequency (fun _ => gigahertzReading 100000000) = some 2000000000 ∧
      ¬ Calibrated (fun _ => 100000000) (fun _ => 100000000)
        (TSC.measureFrequency fun _ => gigahertzReading 100000000) := by
  have hmeasured : TSC.measureFrequency (fun _ => gigahertzReading 100000000) =
      some 2000000000 := by decide +kernel
  refine ⟨by decide +kernel, hmeasured, ?_⟩
  rintro ⟨freq, hfreq, hleast, -⟩
  rw [hmeasured, Option.some.injEq] at hfreq
  have hle : freq ≤ 100000000 * 1000000000 ⌈/⌉ 100000000 := hleast.2 ⟨0, .inr rfl⟩
  rw [Nat.ceilDiv_eq_add_pred_div] at hle
  omega

end MugOS.Time
