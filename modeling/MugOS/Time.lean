import Mathlib.Tactic

/-!
# Kernel Time

The steady timers of `Kernel/Time/Time.c`: the conversion from ticks to nanoseconds by a
multiplication and a shift, the registration of timers, and the reading of the time.

`computeConversion` takes the frequency as a 32-bit number, and chooses the largest factor with
which the ticks of one hour do not overflow. `Time_get` multiplies the whole counter by this
factor, in 64-bit arithmetic.

## Main results

* `conversion_spec`: the factor and the shift for a frequency.
* `time_runs_backwards`: for no frequency does the time never run backwards; it does not up to
  the first overflow of the product.
-/

namespace MugOS.Time

/-! ### The conversion -/

/-- The first loop of `computeConversion`: the shift that limits the range. The loop ends when
its variable is zero, after 64 rounds at most. -/
def shiftAccuracy : ℕ → ℕ → ℕ → ℕ
  | 0, _, accuracy => accuracy
  | rounds + 1, tempMult, accuracy =>
      if tempMult = 0 then accuracy
      else shiftAccuracy rounds (tempMult >>> 1) ((accuracy + 2 ^ 32 - 1) % 2 ^ 32)

/-- The factor for a shift: `((to << shift) + from/2) / from`, in 64-bit arithmetic. -/
def factor (from_ to_ shift : ℕ) : ℕ := ((to_ <<< shift) % 2 ^ 64 + from_ / 2) % 2 ^ 64 / from_

/-- The second loop of `computeConversion`, downwards from a shift: the factor and the shift
with which it ends. -/
def findConversion (from_ to_ accuracy : ℕ) : ℕ → ℕ → ℕ × ℕ
  | 0, tempMult => (tempMult, 0)
  | shift + 1, _ =>
      let tempMult := factor from_ to_ (shift + 1)
      if tempMult >>> accuracy = 0 then (tempMult, shift + 1)
      else findConversion from_ to_ accuracy shift tempMult

/-- `computeConversion(mult, shift, from, to, maxSec)`: the factor and the shift; a division by
zero is `none`. -/
def computeConversion (from_ to_ maxSec : ℕ) : Option (ℕ × ℕ) :=
  let tempMult := (maxSec * from_ % 2 ^ 64) >>> 32
  let accuracy := shiftAccuracy 64 tempMult 32
  if from_ = 0 then none
  else
    let (tempMult, tempShift) := findConversion from_ to_ accuracy 32 tempMult
    some (tempMult % 2 ^ 32, tempShift)

/-! ### Timers -/

/-- `struct SteadyTimer`; what `read` returns is an argument of the functions that call it. -/
structure SteadyTimer where
  score : ℤ
  mask : ℕ
  frequency : ℕ
  mult : ℕ
  shift : ℕ
  deriving DecidableEq, Repr

/-- `m_steadyTimers` and `m_steadyTimer`: the registered timers, and the selected one. -/
structure Timers where
  steadyTimers : List SteadyTimer
  steadyTimer : Option SteadyTimer
  deriving DecidableEq, Repr

/-- A value of type `ktime_t`: the number modulo `2 ^ 64`, in the signed range. -/
def toKtime (n : ℕ) : ℤ := (n : ℤ).bmod (2 ^ 64)

/-- `ticksToNs(timer, ticks)`: the product with the factor in 64 bits, shifted. -/
def ticksToNs (timer : SteadyTimer) (ticks : ℕ) : ℤ :=
  toKtime ((timer.mult * ticks % 2 ^ 64) >>> timer.shift)

/-- The test of `Time_registerSteadyTimer` whether the new timer is selected. -/
def Timers.selects (timers : Timers) (timer : SteadyTimer) : Bool :=
  match timers.steadyTimer with
  | none => true
  | some selected => selected.score < timer.score

/-- `Time_registerSteadyTimer(timer)`. The frequency is passed on as a 32-bit number. -/
def Timers.registerSteadyTimer (timers : Timers) (timer : SteadyTimer) : Option Timers :=
  match computeConversion (timer.frequency % 2 ^ 32) 1000000000 3600 with
  | none => none
  | some (mult, shift) =>
      let timer := { timer with mult := mult, shift := shift }
      some {
        steadyTimers := timers.steadyTimers ++ [timer]
        steadyTimer := if timers.selects timer then some timer else timers.steadyTimer }

/-- `Time_get()` when the counter has the value `ticks`. -/
def Timers.get (timers : Timers) (ticks : ℕ) : Option ℤ :=
  timers.steadyTimer.map fun timer => ticksToNs timer ticks

/-! ### The factor and the shift -/

/-- **The first loop** subtracts the number of binary digits of its variable. -/
theorem shiftAccuracy_spec {rounds tempMult accuracy digits : ℕ} (hlt : tempMult < 2 ^ digits)
    (hdigits : digits ≤ accuracy) (hrounds : digits ≤ rounds) (hacc : accuracy ≤ 32) :
    tempMult < 2 ^ (accuracy - shiftAccuracy rounds tempMult accuracy) ∧
      accuracy - digits ≤ shiftAccuracy rounds tempMult accuracy ∧
      shiftAccuracy rounds tempMult accuracy ≤ accuracy := by
  induction rounds generalizing tempMult accuracy digits with
  | zero =>
      obtain rfl : digits = 0 := by omega
      simpa [shiftAccuracy] using hlt
  | succ rounds ih =>
      rw [shiftAccuracy]
      split
      · rename_i hzero
        simp [hzero]
      · rename_i hne
        obtain ⟨digits, rfl⟩ : ∃ k, digits = k + 1 := by
          refine ⟨digits - 1, ?_⟩
          rcases Nat.eq_zero_or_pos digits with rfl | hpos
          · simp at hlt
            omega
          · omega
        have hhalf : tempMult >>> 1 < 2 ^ digits := by
          rw [Nat.shiftRight_eq_div_pow]
          rw [pow_succ] at hlt
          omega
        have hmod : (accuracy + 2 ^ 32 - 1) % 2 ^ 32 = accuracy - 1 := by omega
        obtain ⟨hupper, hlow, hhigh⟩ := @ih (tempMult >>> 1) (accuracy - 1) digits hhalf (by omega)
          (by omega) (by omega)
        rw [hmod]
        refine ⟨?_, by omega, by omega⟩
        have hexp : accuracy - shiftAccuracy rounds (tempMult >>> 1) (accuracy - 1) =
            accuracy - 1 - shiftAccuracy rounds (tempMult >>> 1) (accuracy - 1) + 1 := by omega
        rw [Nat.shiftRight_eq_div_pow] at hupper
        rw [hexp, pow_succ]
        rw [Nat.shiftRight_eq_div_pow]
        omega

/-- The second loop ends at a shift with a factor that is small enough, the factor of the next
shift being too large, if the factor of the last shift is small enough. -/
theorem findConversion_spec {from_ to_ accuracy : ℕ} (hlast : factor from_ to_ 1 < 2 ^ accuracy)
    (shift tempMult : ℕ) (hshift : 1 ≤ shift) :
    ∃ s, findConversion from_ to_ accuracy shift tempMult = (factor from_ to_ s, s) ∧ 1 ≤ s ∧
      s ≤ shift ∧ factor from_ to_ s < 2 ^ accuracy ∧
      (s = shift ∨ 2 ^ accuracy ≤ factor from_ to_ (s + 1)) := by
  induction shift generalizing tempMult with
  | zero => omega
  | succ shift ih =>
      have hsmall : ∀ n, n >>> accuracy = 0 ↔ n < 2 ^ accuracy := by
        intro n
        rw [Nat.shiftRight_eq_div_pow, Nat.div_eq_zero_iff_lt (Nat.two_pow_pos accuracy)]
      rw [findConversion]
      by_cases hfits : factor from_ to_ (shift + 1) < 2 ^ accuracy
      · simp only [(hsmall _).mpr hfits, if_true]
        exact ⟨shift + 1, rfl, hshift, le_refl _, hfits, .inl rfl⟩
      · have hpos : 1 ≤ shift := by
          by_contra hzero
          obtain rfl : shift = 0 := by omega
          exact hfits hlast
        simp only [if_neg (fun hzero => hfits ((hsmall _).mp hzero))]
        obtain ⟨s, heq, hs, hle, hfit, hmax⟩ := ih (factor from_ to_ (shift + 1)) hpos
        refine ⟨s, heq, hs, by omega, hfit, .inr ?_⟩
        rcases hmax with rfl | hmax
        · exact Nat.le_of_not_lt hfits
        · exact hmax

/-- A factor for which the 64-bit arithmetic does not overflow. -/
theorem factor_of_lt {from_ to_ shift : ℕ} (hlt : to_ * 2 ^ shift + from_ / 2 < 2 ^ 64) :
    factor from_ to_ shift = (to_ * 2 ^ shift + from_ / 2) / from_ := by
  rw [factor, Nat.shiftLeft_eq, Nat.mod_eq_of_lt (a := to_ * 2 ^ shift) (by omega),
    Nat.mod_eq_of_lt hlt]

/-- The factors for nanoseconds are computed without a wrap for shifts up to 33. -/
theorem factor_eq {from_ shift : ℕ} (hfrom : from_ < 2 ^ 32) (hshift : shift ≤ 33) :
    factor from_ 1000000000 shift = (1000000000 * 2 ^ shift + from_ / 2) / from_ := by
  have hpow : 2 ^ shift ≤ 2 ^ 33 := Nat.pow_le_pow_right (by decide) hshift
  exact factor_of_lt (by omega)

/-- The number of digits that the first loop leaves to the factor. -/
def factorDigits (from_ : ℕ) : ℕ := shiftAccuracy 64 ((3600 * from_) >>> 32) 32

/-- **The digits of the factor** and those of the ticks of one hour fit into 64 digits. -/
theorem factorDigits_spec {from_ : ℕ} (hlt : from_ < 2 ^ 32) :
    3600 * from_ < 2 ^ (64 - factorDigits from_) ∧ 20 ≤ factorDigits from_ ∧
      factorDigits from_ ≤ 32 := by
  have hdigits : (3600 * from_) >>> 32 < 2 ^ 12 := by
    rw [Nat.shiftRight_eq_div_pow]
    omega
  obtain ⟨hrange, hlow, hhigh⟩ := @shiftAccuracy_spec 64 _ 32 12 hdigits (by decide) (by decide)
    (le_refl 32)
  rw [← factorDigits] at hrange hlow hhigh
  refine ⟨?_, by omega, hhigh⟩
  rw [Nat.shiftRight_eq_div_pow] at hrange
  rw [show 64 - factorDigits from_ = 32 - factorDigits from_ + 32 by omega, pow_add]
  omega

/-- A factor with its number of digits does not overflow with the ticks of one hour. -/
theorem mul_hour_lt {from_ mult t : ℕ} (hlt : from_ < 2 ^ 32)
    (hmult : mult < 2 ^ factorDigits from_) (ht : t ≤ 3600 * from_) : mult * t < 2 ^ 64 := by
  obtain ⟨hhour, -, hhigh⟩ := factorDigits_spec hlt
  have hsplit : 2 ^ factorDigits from_ * 2 ^ (64 - factorDigits from_) = 2 ^ 64 := by
    rw [← pow_add]
    congr 1
    omega
  rw [← hsplit]
  exact Nat.mul_lt_mul'' hmult (ht.trans_lt hhour)

/-- **The conversion ends** with a factor of at most its number of digits, which is not cut off,
if the factor of the last shift has no more. -/
theorem computeConversion_spec {from_ to_ : ℕ} (hpos : 0 < from_) (hlt : from_ < 2 ^ 32)
    (hlast : factor from_ to_ 1 < 2 ^ factorDigits from_) :
    ∃ shift, computeConversion from_ to_ 3600 = some (factor from_ to_ shift, shift) ∧
      findConversion from_ to_ (factorDigits from_) 32 ((3600 * from_) >>> 32) =
        (factor from_ to_ shift, shift) ∧
      1 ≤ shift ∧ shift ≤ 32 ∧ factor from_ to_ shift < 2 ^ factorDigits from_ ∧
      (shift = 32 ∨ 2 ^ factorDigits from_ ≤ factor from_ to_ (shift + 1)) := by
  have hmod : 3600 * from_ % 2 ^ 64 = 3600 * from_ := Nat.mod_eq_of_lt (by omega)
  obtain ⟨shift, heq, hs, hle, hfit, hmax⟩ :=
    findConversion_spec hlast 32 ((3600 * from_) >>> 32) (by decide)
  have hpow32 : 2 ^ factorDigits from_ ≤ 2 ^ 32 :=
    Nat.pow_le_pow_right (by decide) (factorDigits_spec hlt).2.2
  refine ⟨shift, ?_, heq, hs, hle, hfit, hmax⟩
  rw [computeConversion, hmod, if_neg (by omega), ← factorDigits, heq]
  simp only [Option.some.injEq, Prod.mk.injEq, and_true]
  exact Nat.mod_eq_of_lt (by omega)

/-- The last of the factors for nanoseconds, at a shift of 1, is small enough for every
frequency. -/
theorem steady_last {from_ : ℕ} (hpos : 0 < from_) (hlt : from_ < 2 ^ 32) :
    factor from_ 1000000000 1 < 2 ^ factorDigits from_ := by
  rw [factor_eq hlt (by decide), Nat.div_lt_iff_lt_mul hpos]
  by_cases hsmall : from_ < 4096
  · -- The ticks of an hour have 32 digits at most.
    have hzero : (3600 * from_) >>> 32 = 0 := by
      rw [Nat.shiftRight_eq_div_pow]
      omega
    have h32 : factorDigits from_ = 32 := by
      rw [factorDigits, hzero]
      rfl
    rw [h32]
    omega
  · have hbig : 2 ^ 20 ≤ 2 ^ factorDigits from_ :=
      Nat.pow_le_pow_right (by decide) (factorDigits_spec hlt).2.1
    have := Nat.mul_le_mul_right from_ hbig
    omega

/-- **The conversion of ticks to nanoseconds**: the ticks of an hour do not overflow, and the
factor is not small. -/
theorem conversion_spec {from_ : ℕ} (hpos : 0 < from_) (hlt : from_ < 2 ^ 32) :
    ∃ mult shift, computeConversion from_ 1000000000 3600 = some (mult, shift) ∧ 1 ≤ shift ∧
      shift ≤ 32 ∧ 2 ≤ mult ∧ mult < 2 ^ 32 ∧ mult * (3600 * from_) < 2 ^ 64 := by
  obtain ⟨s, heq, -, hs, hle, hfit, hmax⟩ := computeConversion_spec hpos hlt (steady_last hpos hlt)
  obtain ⟨-, hlow, hhigh⟩ := factorDigits_spec hlt
  have hbig : 2 ^ 20 ≤ 2 ^ factorDigits from_ := Nat.pow_le_pow_right (by decide) hlow
  have hpow32 : 2 ^ factorDigits from_ ≤ 2 ^ 32 := Nat.pow_le_pow_right (by decide) hhigh
  refine ⟨_, s, heq, hs, hle, ?_, by omega, mul_hour_lt hlt hfit (le_refl _)⟩
  rw [factor_eq hlt (by omega), Nat.le_div_iff_mul_le hpos]
  rcases hmax with rfl | hmax
  · omega
  · rw [factor_eq hlt (by omega), Nat.le_div_iff_mul_le hpos, pow_succ] at hmax
    have := Nat.mul_le_mul_right from_ hbig
    omega

/-! ### The time -/

/-- The conversion of a number of nanoseconds below `2 ^ 63` to `ktime_t` is the number
itself. -/
theorem toKtime_of_lt {n : ℕ} (h : n < 2 ^ 63) : toKtime n = n := by
  have hint : (n : ℤ) < 2 ^ 63 := by exact_mod_cast h
  unfold toKtime
  rw [Int.bmod_eq_of_le_mul_two]
  · push_cast
    linarith [Int.natCast_nonneg n]
  · push_cast
    linarith

/-- What `Time_get` returns is not negative, and it is the shifted product. -/
theorem ticksToNs_eq {timer : SteadyTimer} (hshift : 1 ≤ timer.shift) (ticks : ℕ) :
    ticksToNs timer ticks = ((timer.mult * ticks % 2 ^ 64 / 2 ^ timer.shift : ℕ) : ℤ) := by
  rw [ticksToNs, Nat.shiftRight_eq_div_pow]
  apply toKtime_of_lt
  have hmod : timer.mult * ticks % 2 ^ 64 < 2 ^ 63 * 2 ^ 1 := Nat.mod_lt _ (Nat.two_pow_pos 64)
  have hpow : 2 ^ 1 ≤ 2 ^ timer.shift := Nat.pow_le_pow_right (by decide) hshift
  rw [Nat.div_lt_iff_lt_mul (Nat.two_pow_pos _)]
  exact hmod.trans_le (Nat.mul_le_mul_left _ hpow)

/-- **The time runs forwards** as long as the product does not overflow. -/
theorem ticksToNs_mono {timer : SteadyTimer} (hshift : 1 ≤ timer.shift) {t₁ t₂ : ℕ} (hle : t₁ ≤ t₂)
    (hlt : timer.mult * t₂ < 2 ^ 64) : ticksToNs timer t₁ ≤ ticksToNs timer t₂ := by
  have hmul : timer.mult * t₁ ≤ timer.mult * t₂ := Nat.mul_le_mul_left _ hle
  rw [ticksToNs_eq hshift, ticksToNs_eq hshift, Nat.mod_eq_of_lt hlt,
    Nat.mod_eq_of_lt (hmul.trans_lt hlt)]
  exact_mod_cast Nat.div_le_div_right hmul

/-- **The time runs backwards** when the product overflows. -/
theorem ticksToNs_overflow {timer : SteadyTimer} (hshift : 1 ≤ timer.shift)
    (hshift' : timer.shift ≤ 32) (hmult : 2 ≤ timer.mult) (hmult' : timer.mult < 2 ^ 32) :
    ∃ t, t + 1 < 2 ^ 64 ∧ ticksToNs timer (t + 1) < ticksToNs timer t := by
  set t := (2 ^ 64 - 1) / timer.mult with ht
  have hpos : 0 < timer.mult := by omega
  have hbelow : timer.mult * t ≤ 2 ^ 64 - 1 := Nat.mul_div_le _ _
  have habove : 2 ^ 64 - 1 < timer.mult * (t + 1) := Nat.lt_mul_div_succ _ hpos
  have hnext : timer.mult * (t + 1) = timer.mult * t + timer.mult := by ring
  have hhalf : 2 * t ≤ timer.mult * t := Nat.mul_le_mul_right t hmult
  refine ⟨t, by omega, ?_⟩
  have hwrap : timer.mult * (t + 1) % 2 ^ 64 = timer.mult * (t + 1) - 2 ^ 64 := by
    rw [Nat.mod_eq_sub_mod (by omega), Nat.mod_eq_of_lt (by omega)]
  rw [ticksToNs_eq hshift, ticksToNs_eq hshift, hwrap, Nat.mod_eq_of_lt (by omega)]
  have hpow : 2 ^ timer.shift ≤ 2 ^ 32 := Nat.pow_le_pow_right (by decide) hshift'
  have hpow0 : 0 < 2 ^ timer.shift := Nat.two_pow_pos _
  have hgap : timer.mult * (t + 1) - 2 ^ 64 + 2 ^ timer.shift ≤ timer.mult * t := by omega
  have hdiv := Nat.div_le_div_right (c := 2 ^ timer.shift) hgap
  rw [Nat.add_div_right _ hpow0] at hdiv
  exact_mod_cast hdiv

/-- **Time never runs backwards** for a timer that is registered: the registration does not
divide by zero, and of two counter values that are read one after the other the first gives no
later time. -/
def NeverBackwards (timers : Timers) (timer : SteadyTimer) : Prop :=
  ∃ timers', timers.registerSteadyTimer timer = some timers' ∧
    ∀ t₁ t₂, t₁ ≤ t₂ → t₂ < 2 ^ 64 →
      ∃ v₁ v₂, timers'.get t₁ = some v₁ ∧ timers'.get t₂ = some v₂ ∧ v₁ ≤ v₂

/-- A timer that is selected is registered with its conversion, behind those registered
before. -/
theorem registerSteadyTimer_eq {timers : Timers} {timer : SteadyTimer}
    (hselects : timers.selects timer = true) {mult shift : ℕ}
    (hconv : computeConversion (timer.frequency % 2 ^ 32) 1000000000 3600 = some (mult, shift)) :
    timers.registerSteadyTimer timer =
      some ⟨timers.steadyTimers ++ [{ timer with mult := mult, shift := shift }],
        some { timer with mult := mult, shift := shift }⟩ := by
  have hsel : timers.selects { timer with mult := mult, shift := shift } = true := hselects
  rw [Timers.registerSteadyTimer, hconv]
  simp only [hsel, if_true]

/-- **For no frequency does the time never run backwards.** For every timer that is selected when
it is registered: a frequency that is a multiple of `2 ^ 32` leads to a division by zero, and no
other does; then the counter overflows the product, where the time runs backwards. Up to there, and
in particular for the ticks of the first hour, the time runs forwards. -/
theorem time_runs_backwards {timers : Timers} {timer : SteadyTimer}
    (hselects : timers.selects timer = true) :
    ¬ NeverBackwards timers timer ∧
    (timers.registerSteadyTimer timer = none ↔ 2 ^ 32 ∣ timer.frequency) ∧
    ∀ timers', timers.registerSteadyTimer timer = some timers' →
      ∃ selected, timers'.steadyTimer = some selected ∧
        (∀ t₁ t₂, t₁ ≤ t₂ → selected.mult * t₂ < 2 ^ 64 →
          ticksToNs selected t₁ ≤ ticksToNs selected t₂) ∧
        ∀ t, t ≤ 3600 * (timer.frequency % 2 ^ 32) → selected.mult * t < 2 ^ 64 := by
  by_cases hdvd : 2 ^ 32 ∣ timer.frequency
  · have hnone : timers.registerSteadyTimer timer = none := by
      rw [Timers.registerSteadyTimer, Nat.mod_eq_zero_of_dvd hdvd]
      rfl
    refine ⟨?_, iff_of_true hnone hdvd, by simp [hnone]⟩
    rintro ⟨timers', hsome, -⟩
    simp [hnone] at hsome
  · have hpos : 0 < timer.frequency % 2 ^ 32 := by
      rcases Nat.eq_zero_or_pos (timer.frequency % 2 ^ 32) with hzero | hpos
      · exact absurd (Nat.dvd_of_mod_eq_zero hzero) hdvd
      · exact hpos
    obtain ⟨mult, shift, hconv, hs, hs', hm, hm', hhour⟩ :=
      conversion_spec hpos (Nat.mod_lt _ (by decide))
    have hreg := registerSteadyTimer_eq hselects hconv
    refine ⟨?_, iff_of_false (by simp [hreg]) hdvd, ?_⟩
    · rintro ⟨timers', hsome, hmono⟩
      rw [hreg, Option.some.injEq] at hsome
      subst hsome
      obtain ⟨t, hlt, hback⟩ :=
        @ticksToNs_overflow { timer with mult := mult, shift := shift } hs hs' hm hm'
      obtain ⟨v₁, v₂, hv₁, hv₂, hle⟩ := hmono t (t + 1) (by omega) hlt
      simp only [Timers.get, Option.map_some, Option.some.injEq] at hv₁ hv₂
      omega
    · intro timers' hsome
      rw [hreg, Option.some.injEq] at hsome
      subst hsome
      refine ⟨_, rfl, fun t₁ t₂ => ticksToNs_mono hs, ?_⟩
      intro t ht
      exact (Nat.mul_le_mul_left mult ht).trans_lt hhour

/-- No timer, and a timer of one gigahertz that is to be registered. -/
def gigahertz : SteadyTimer := ⟨0, 2 ^ 64 - 1, 1000000000, 0, 0⟩

/-- The conditions hold of a timer of one gigahertz, so its time runs backwards in some run. -/
theorem time_runs_backwards_gigahertz :
    Timers.selects ⟨[], none⟩ gigahertz = true ∧ ¬ NeverBackwards ⟨[], none⟩ gigahertz :=
  ⟨rfl, (@time_runs_backwards ⟨[], none⟩ gigahertz rfl).1⟩

/-- **A time that runs backwards**: the counter of a timer of one gigahertz, whose factor is
`2 ^ 21`, is read after two hours and 26 minutes, and one tick later. The registration of a timer
with the frequency `2 ^ 32` divides by zero. -/
theorem gigahertz_runs_backwards :
    (∃ timers', Timers.registerSteadyTimer ⟨[], none⟩ gigahertz = some timers' ∧
      timers'.get 8796093022207 = some 8796093022207 ∧ timers'.get 8796093022208 = some 0) ∧
    Timers.registerSteadyTimer ⟨[], none⟩ { gigahertz with frequency := 2 ^ 32 } = none ∧
    ¬ NeverBackwards ⟨[], none⟩ gigahertz := by
  have hreg : ∃ timers', Timers.registerSteadyTimer ⟨[], none⟩ gigahertz = some timers' ∧
      timers'.get 8796093022207 = some 8796093022207 ∧
      timers'.get 8796093022208 = some 0 := by
    refine ⟨_, rfl, ?_, ?_⟩ <;> decide +kernel
  refine ⟨hreg, by decide +kernel, ?_⟩
  rintro ⟨timers', hsome, hmono⟩
  obtain ⟨timers'', hsome', hget, hget'⟩ := hreg
  rw [hsome, Option.some.injEq] at hsome'
  subst hsome'
  obtain ⟨v₁, v₂, hv₁, hv₂, hle⟩ := hmono 8796093022207 8796093022208 (by omega) (by omega)
  rw [hget, Option.some.injEq] at hv₁
  rw [hget', Option.some.injEq] at hv₂
  omega

end MugOS.Time
