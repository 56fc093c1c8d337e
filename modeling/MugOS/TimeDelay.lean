import MugOS.Time
import Mathlib.Algebra.Order.Floor.Div

/-!
# Busy-Wait Delays

`delayTicks` of `Kernel/Time/Time.c` reads the counter of the steady timer until the difference to
its first value, cut off at the mask of the timer, has reached a number of ticks. The counter is
read at every tick.

The number of ticks is not cut off, so the loop ends for a number that is within the mask, and runs
forever for any other. The number is computed in 64-bit arithmetic, and is too small where this
overflows.

## Main results

* `delayTicks_spec`, `delayTicks_hangs`: the loop, within the mask and outside of it.
* `delays_exact_iff`: when the delays end exactly after the ticks of their argument.
-/

namespace MugOS.Time

/-- A counter that increases by one tick at a time, modulo `mask + 1`: its value after `k` ticks. -/
def counter (mask initial k : ℕ) : ℕ := (initial + k) % (mask + 1)

/-- The loop of `delayTicks`, whose next read is that at tick `k`: the tick at which it exits. -/
def delayLoop (mask : ℕ) (read : ℕ → ℕ) (t0 ticks : ℕ) : ℕ → ℕ → Option ℕ
  | 0, _ => none
  | fuel + 1, k =>
      if ((read k + 2 ^ 64 - t0) % 2 ^ 64) &&& mask < ticks then
        delayLoop mask read t0 ticks fuel (k + 1)
      else some k

/-- `delayTicks(ticks)` with a steady timer: the number of ticks after which it returns. -/
def SteadyTimer.delayTicks (timer : SteadyTimer) (read : ℕ → ℕ) (ticks fuel : ℕ) : Option ℕ :=
  delayLoop timer.mask read (read 0) ticks fuel 0

/-- `mdelay(ms)`: a delay of the ticks of so many milliseconds, rounded up. -/
def SteadyTimer.mdelay (timer : SteadyTimer) (read : ℕ → ℕ) (ms fuel : ℕ) : Option ℕ :=
  timer.delayTicks read ((timer.frequency * ms % 2 ^ 64 + 999) % 2 ^ 64 / 1000) fuel

/-- `udelay(us)`: a delay of the ticks of so many microseconds, rounded up. -/
def SteadyTimer.udelay (timer : SteadyTimer) (read : ℕ → ℕ) (us fuel : ℕ) : Option ℕ :=
  timer.delayTicks read ((timer.frequency * us % 2 ^ 64 + 999999) % 2 ^ 64 / 1000000) fuel

/-- `ndelay(ns)`: a delay of the ticks of so many nanoseconds, rounded up. -/
def SteadyTimer.ndelay (timer : SteadyTimer) (read : ℕ → ℕ) (ns fuel : ℕ) : Option ℕ :=
  timer.delayTicks read ((timer.frequency * ns % 2 ^ 64 + 999999999) % 2 ^ 64 / 1000000000) fuel

/-! ### The loop -/

/-- The masked difference of two counter values is the number of ticks between them, modulo the
range of the counter. -/
theorem counter_elapsed {b initial : ℕ} (hb : b ≤ 64) (hinit : initial < 2 ^ b) (k : ℕ) :
    ((counter (2 ^ b - 1) initial k + 2 ^ 64 - counter (2 ^ b - 1) initial 0) % 2 ^ 64) &&&
      (2 ^ b - 1) = k % 2 ^ b := by
  have hrange : 2 ^ b - 1 + 1 = 2 ^ b := by
    have := Nat.two_pow_pos b
    omega
  have hdvd : 2 ^ b ∣ 2 ^ 64 := pow_dvd_pow 2 hb
  have hle : initial < 2 ^ 64 := hinit.trans_le (Nat.pow_le_pow_right (by decide) hb)
  rw [Nat.and_two_pow_sub_one_eq_mod, counter, counter, hrange, add_zero, Nat.mod_eq_of_lt hinit,
    Nat.mod_mod_of_dvd _ hdvd]
  -- Both sides agree after the first value has been added.
  apply Nat.ModEq.add_right_cancel' initial
  rw [Nat.sub_add_cancel (by omega)]
  calc (initial + k) % 2 ^ b + 2 ^ 64 ≡ initial + k + 0 [MOD 2 ^ b] :=
        (Nat.mod_modEq _ _).add ((Nat.modEq_zero_iff_dvd).mpr hdvd)
    _ = k + initial := by omega

/-- The loop goes on as long as fewer ticks have passed. -/
theorem delayLoop_exits {mask t0 ticks : ℕ} {read : ℕ → ℕ}
    (hbelow : ∀ k, k < ticks → ((read k + 2 ^ 64 - t0) % 2 ^ 64) &&& mask = k)
    (hat : ((read ticks + 2 ^ 64 - t0) % 2 ^ 64) &&& mask = ticks) (n k : ℕ) (hk : k + n = ticks) :
    delayLoop mask read t0 ticks (n + 1) k = some ticks := by
  induction n generalizing k with
  | zero =>
      obtain rfl : k = ticks := by omega
      rw [delayLoop, hat, if_neg (lt_irrefl _)]
  | succ n ih =>
      rw [delayLoop, hbelow k (by omega), if_pos (by omega)]
      exact ih (k + 1) (by omega)

/-- The loop goes on forever if the masked difference never reaches the number of ticks. -/
theorem delayLoop_none {mask t0 ticks : ℕ} {read : ℕ → ℕ}
    (h : ∀ k, ((read k + 2 ^ 64 - t0) % 2 ^ 64) &&& mask < ticks) (fuel k : ℕ) :
    delayLoop mask read t0 ticks fuel k = none := by
  induction fuel generalizing k with
  | zero => rfl
  | succ fuel ih => rw [delayLoop, if_pos (h k), ih]

/-- A loop that has exited does not depend on the rest of the fuel. -/
theorem delayLoop_unique {mask t0 ticks : ℕ} {read : ℕ → ℕ} {fuel fuel' k n n' : ℕ}
    (h : delayLoop mask read t0 ticks fuel k = some n)
    (h' : delayLoop mask read t0 ticks fuel' k = some n') : n = n' := by
  induction fuel generalizing fuel' k with
  | zero => simp [delayLoop] at h
  | succ fuel ih =>
      cases fuel' with
      | zero => simp [delayLoop] at h'
      | succ fuel' =>
          rw [delayLoop] at h h'
          split at h
          · rename_i hmore
            rw [if_pos hmore] at h'
            exact ih h h'
          · rename_i hdone
            rw [if_neg hdone] at h'
            exact Option.some.inj (h.symm.trans h')

section Counter

variable {timer : SteadyTimer} {b initial : ℕ} (hb : b ≤ 64) (hmask : timer.mask = 2 ^ b - 1)
  (hinit : initial < 2 ^ b)

include hb hmask hinit

/-- **A delay within the mask** ends exactly after its ticks. -/
theorem delayTicks_spec {ticks : ℕ} (hticks : ticks ≤ timer.mask) :
    timer.delayTicks (counter timer.mask initial) ticks (ticks + 1) = some ticks := by
  have hlt : ticks < 2 ^ b := by
    have := Nat.two_pow_pos b
    omega
  rw [SteadyTimer.delayTicks, hmask]
  refine delayLoop_exits ?_ ?_ ticks 0 (by omega)
  · intro k hk
    rw [counter_elapsed hb hinit, Nat.mod_eq_of_lt (by omega)]
  · rw [counter_elapsed hb hinit, Nat.mod_eq_of_lt hlt]

/-- **A delay beyond the mask** of the counter never ends, however often the loop looks at
it. -/
theorem delayTicks_hangs {ticks : ℕ} (hticks : timer.mask < ticks) (fuel : ℕ) :
    timer.delayTicks (counter timer.mask initial) ticks fuel = none := by
  rw [SteadyTimer.delayTicks, hmask]
  apply delayLoop_none
  intro k
  have hmod : k % 2 ^ b < 2 ^ b := Nat.mod_lt _ (Nat.two_pow_pos b)
  rw [counter_elapsed hb hinit]
  omega

/-- The loop of a delay ends after exactly the ticks asked for if the mask allows them, and
never otherwise. -/
theorem delayTicks_iff (ticks n : ℕ) :
    (∃ fuel, timer.delayTicks (counter timer.mask initial) ticks fuel = some n) ↔
      ticks = n ∧ n ≤ timer.mask := by
  constructor
  · rintro ⟨fuel, hfuel⟩
    have hle : ticks ≤ timer.mask := by
      by_contra hlt
      rw [delayTicks_hangs hb hmask hinit (by omega)] at hfuel
      simp at hfuel
    have heq := delayLoop_unique (delayTicks_spec hb hmask hinit hle) hfuel
    exact ⟨heq, heq ▸ hle⟩
  · rintro ⟨rfl, hle⟩
    exact ⟨_, delayTicks_spec hb hmask hinit hle⟩

end Counter

/-! ### The number of ticks -/

/-- The number of ticks in 64-bit arithmetic is that of the exact quotient if and only if nothing
overflows. -/
theorem wrapped_ceil_iff {unit : ℕ} (hpos : 0 < unit) (hunit : unit ≤ 2 ^ 64) (product : ℕ) :
    (product % 2 ^ 64 + (unit - 1)) % 2 ^ 64 / unit = product ⌈/⌉ unit ↔
      product + (unit - 1) < 2 ^ 64 := by
  rw [Nat.mod_add_mod, Nat.ceilDiv_eq_add_pred_div, Nat.add_sub_assoc (show 1 ≤ unit from hpos)]
  constructor
  · intro heq
    by_contra hge
    have hsub : (product + (unit - 1)) % 2 ^ 64 ≤ product + (unit - 1) - unit := by
      have := Nat.mod_add_div (product + (unit - 1)) (2 ^ 64)
      have : 1 ≤ (product + (unit - 1)) / 2 ^ 64 := (Nat.one_le_div_iff (by decide)).mpr (by omega)
      omega
    have hdiv := Nat.div_le_div_right (c := unit) hsub
    have hstep := Nat.div_eq_sub_div hpos (a := product + (unit - 1)) (by omega)
    omega
  · intro hlt
    rw [Nat.mod_eq_of_lt hlt]

/-- **When the delays are exact.** Let the counter be one of at most 64 digits that increases by
one at a time, and start with any value. A call of `mdelay`, `udelay` or `ndelay` returns, exactly
after the ticks of its argument rounded up, if and only if these ticks are within the mask of the
counter and their computation does not overflow. -/
theorem delays_exact_iff {timer : SteadyTimer} {b initial : ℕ} (hb : b ≤ 64)
    (hmask : timer.mask = 2 ^ b - 1) (hinit : initial < 2 ^ b) (arg : ℕ) :
    ((∃ fuel, timer.mdelay (counter timer.mask initial) arg fuel =
        some (timer.frequency * arg ⌈/⌉ 1000)) ↔
      timer.frequency * arg + 999 < 2 ^ 64 ∧ timer.frequency * arg ⌈/⌉ 1000 ≤ timer.mask) ∧
    ((∃ fuel, timer.udelay (counter timer.mask initial) arg fuel =
        some (timer.frequency * arg ⌈/⌉ 1000000)) ↔
      timer.frequency * arg + 999999 < 2 ^ 64 ∧
        timer.frequency * arg ⌈/⌉ 1000000 ≤ timer.mask) ∧
    ((∃ fuel, timer.ndelay (counter timer.mask initial) arg fuel =
        some (timer.frequency * arg ⌈/⌉ 1000000000)) ↔
      timer.frequency * arg + 999999999 < 2 ^ 64 ∧
        timer.frequency * arg ⌈/⌉ 1000000000 ≤ timer.mask) := by
  refine ⟨?_, ?_, ?_⟩
  · simp only [SteadyTimer.mdelay]
    rw [delayTicks_iff hb hmask hinit]
    exact and_congr_left' (@wrapped_ceil_iff 1000 (by decide) (by decide) _)
  · simp only [SteadyTimer.udelay]
    rw [delayTicks_iff hb hmask hinit]
    exact and_congr_left' (@wrapped_ceil_iff 1000000 (by decide) (by decide) _)
  · simp only [SteadyTimer.ndelay]
    rw [delayTicks_iff hb hmask hinit]
    exact and_congr_left' (@wrapped_ceil_iff 1000000000 (by decide) (by decide) _)

/-- The power management timer with a counter of 24 digits. -/
def pmTimer : SteadyTimer := ⟨50, 0xffffff, 3579545, 0, 0⟩

/-- The statement for the power management timer and a delay of four seconds, which is exact. -/
theorem delays_exact_pmTimer :
    ∃ fuel, pmTimer.mdelay (counter pmTimer.mask 0) 4000 fuel = some (3579545 * 4000 ⌈/⌉ 1000) :=
  ((@delays_exact_iff pmTimer 24 0 (by decide) rfl (by decide) 4000).1).mpr (by decide)

/-- **A delay that never ends**: five seconds have more ticks than the counter of the power
management timer can show. -/
theorem pmTimer_hangs :
    pmTimer.mask = 2 ^ 24 - 1 ∧
      ¬ ∃ fuel n, pmTimer.mdelay (counter pmTimer.mask 0) 5000 fuel = some n := by
  refine ⟨rfl, ?_⟩
  rintro ⟨fuel, n, hexit⟩
  rw [SteadyTimer.mdelay,
    delayTicks_hangs (by decide : 24 ≤ 64) rfl (by decide) (by decide)] at hexit
  simp at hexit

end MugOS.Time
