import MugOS.TimeConversion

/-!
# Sleeping

The event timers of `Kernel/Time/Time.c`: their registration, which computes the factor and the
shift that convert nanoseconds to ticks, and the functions that sleep, which schedule one event
after the other and wait for each.

A duration is converted in wrapping 64-bit arithmetic, so a duration of some hours is cut to the
remainder. What is scheduled for the remainder is at least the smallest count of the timer; only
this count can make up for the ticks that are lost.

## Main results

* `registerAll_selected`: the timer that is selected has the factor and the shift of its
  frequency.
* `sleepNanoseconds_spec`: the events of a sleep, for every duration.
* `sleep_long_enough_iff`: when a sleep is long enough, for the four units.
-/

namespace MugOS.Time

/-! ### Event timers -/

/-- `struct EventTimer`; what `scheduleEvent` is called with is the result of the functions that
call it. -/
structure EventTimer where
  score : ℤ
  frequency : ℕ
  minTick : ℕ
  maxTick : ℕ
  mult : ℕ
  shift : ℕ
  deriving DecidableEq, Repr

/-- `m_eventTimers` and `m_eventTimer`: the registered timers, and the selected one. -/
structure EventTimers where
  eventTimers : List EventTimer
  eventTimer : Option EventTimer
  deriving DecidableEq, Repr

/-- The test of `Time_registerEventTimer` whether the new timer is selected. -/
def EventTimers.selects (timers : EventTimers) (timer : EventTimer) : Bool :=
  match timers.eventTimer with
  | none => true
  | some selected => selected.score < timer.score

/-- The part of `Time_registerEventTimer(timer)` after the conversion has been computed. -/
def EventTimers.add (timers : EventTimers) (timer : EventTimer) : EventTimers where
  eventTimers := timers.eventTimers ++ [timer]
  eventTimer := if timers.selects timer then some timer else timers.eventTimer

/-- `Time_registerEventTimer(timer)`. The frequency is passed on as a 32-bit number. -/
def EventTimers.registerEventTimer (timers : EventTimers) (timer : EventTimer) :
    Option EventTimers :=
  (computeConversion 1000000000 (timer.frequency % 2 ^ 32) 3600).map fun (mult, shift) =>
    timers.add { timer with mult := mult, shift := shift }

/-- The registration of one timer after the other. -/
def EventTimers.registerAll (timers : EventTimers) (registered : List EventTimer) :
    Option EventTimers :=
  registered.foldlM EventTimers.registerEventTimer timers

/-! ### Sleeping -/

/-- A value of type `unsigned long` as a `long`: the same 64 bits, in the signed range. -/
def toLong (n : ℕ) : ℤ := (n : ℤ).bmod (2 ^ 64)

/-- A value of type `long` as an `unsigned long`. -/
def toUnsignedLong (n : ℤ) : ℕ := (n % 2 ^ 64).toNat

/-- The counts with which `sleepNanoseconds(ns)` calls `scheduleEvent` for a timer. Every event is
waited for before the next one is scheduled; a division by zero is `none`. -/
def EventTimer.sleepNanoseconds (timer : EventTimer) (ns : ℕ) : Option (List ℕ) :=
  let n_ticks := (ns * timer.mult % 2 ^ 64) >>> timer.shift
  if timer.maxTick = 0 then none
  else
    let n_full := toLong (n_ticks / timer.maxTick)
    let n_rem := toLong (max (n_ticks % timer.maxTick) timer.minTick)
    some (List.replicate n_full.toNat timer.maxTick ++ [toUnsignedLong n_rem])

/-- `sleepNanoseconds(ns)` with the timer that is selected. -/
def EventTimers.sleepNanoseconds (timers : EventTimers) (ns : ℕ) : Option (List ℕ) :=
  timers.eventTimer.bind fun timer => timer.sleepNanoseconds ns

/-- `sleep(sec)`: a sleep of so many seconds, converted to nanoseconds in 64 bits. -/
def EventTimers.sleep (timers : EventTimers) (sec : ℕ) : Option (List ℕ) :=
  timers.sleepNanoseconds (sec * 1000000000 % 2 ^ 64)

/-- `msleep(ms)`: a sleep of so many milliseconds, converted to nanoseconds in 64 bits. -/
def EventTimers.msleep (timers : EventTimers) (ms : ℕ) : Option (List ℕ) :=
  timers.sleepNanoseconds (ms * 1000000 % 2 ^ 64)

/-- `usleep(us)`: a sleep of so many microseconds, converted to nanoseconds in 64 bits. -/
def EventTimers.usleep (timers : EventTimers) (us : ℕ) : Option (List ℕ) :=
  timers.sleepNanoseconds (us * 1000 % 2 ^ 64)

/-- `nsleep(ns)`: a sleep of so many nanoseconds. -/
def EventTimers.nsleep (timers : EventTimers) (ns : ℕ) : Option (List ℕ) :=
  timers.sleepNanoseconds ns

/-! ### Registered timers -/

/-- The factor and the shift of a timer are those of its frequency. -/
def EventTimer.Registered (timer : EventTimer) : Prop :=
  computeConversion 1000000000 (timer.frequency % 2 ^ 32) 3600 = some (timer.mult, timer.shift)

/-- The timer that is selected, if there is one, has been registered. -/
def EventTimers.Selected (timers : EventTimers) : Prop :=
  ∀ timer, timers.eventTimer = some timer → timer.Registered

/-- A registration keeps the selected timer or selects the new one. -/
theorem registerEventTimer_selected {timers timers' : EventTimers} {timer : EventTimer}
    (hsel : timers.Selected) (h : timers.registerEventTimer timer = some timers') :
    timers'.Selected := by
  rw [EventTimers.registerEventTimer, Option.map_eq_some_iff] at h
  obtain ⟨⟨mult, shift⟩, hconv, rfl⟩ := h
  intro selected hselected
  simp only [EventTimers.add] at hselected
  split at hselected
  · rw [← Option.some.inj hselected]
    exact hconv
  · exact hsel selected hselected

/-- **The selected timer is registered** after any registrations. -/
theorem registerAll_selected {registered : List EventTimer} {timers timers' : EventTimers}
    (hsel : timers.Selected) (h : timers.registerAll registered = some timers') :
    timers'.Selected := by
  induction registered generalizing timers with
  | nil =>
      obtain rfl := Option.some.inj h
      exact hsel
  | cons timer registered ih =>
      rw [EventTimers.registerAll, List.foldlM_cons, Option.bind_eq_bind,
        Option.bind_eq_some_iff] at h
      obtain ⟨next, hnext, hrest⟩ := h
      exact ih (registerEventTimer_selected hsel hnext) hrest

/-- The factor and the shift of a registered timer: one hour does not overflow. -/
theorem EventTimer.Registered.spec {timer : EventTimer} (hreg : timer.Registered) :
    1 ≤ timer.shift ∧ timer.shift ≤ 32 ∧ ∀ ns, ns ≤ 3600 * 1000000000 →
      ns * timer.mult < 2 ^ 64 := by
  have hlt : timer.frequency % 2 ^ 32 < 2 ^ 32 := Nat.mod_lt _ (by decide)
  have hfrom : 1000000000 < 2 ^ 32 := by decide
  obtain ⟨shift, heq, -, hs, hs', hfit, -⟩ :=
    computeConversion_spec (by decide) hfrom (event_last hlt)
  unfold EventTimer.Registered at hreg
  rw [heq, Option.some.injEq, Prod.mk.injEq] at hreg
  obtain ⟨hmult, hshift⟩ := hreg
  rw [← hmult, ← hshift]
  refine ⟨hs, hs', ?_⟩
  intro ns hns
  exact (mul_comm _ _).trans_lt (mul_hour_lt hfrom hfit hns)

/-! ### The events of a sleep -/

/-- A count below half of the range is the same as a signed number. -/
theorem toLong_of_lt {n : ℕ} (h : n < 2 ^ 63) : toLong n = n := toKtime_of_lt h

/-- A count that is signed on the way to `scheduleEvent` arrives as it was. -/
theorem toUnsignedLong_toLong {n : ℕ} (h : n < 2 ^ 64) : toUnsignedLong (toLong n) = n := by
  have hrange : (2 : ℤ) ^ 64 = ((2 ^ 64 : ℕ) : ℤ) := by norm_num
  unfold toUnsignedLong toLong
  rw [hrange, Int.bmod_emod]
  omega

/-- The ticks of a duration, rounded down, without a wrap of the product. -/
def EventTimer.ticks (timer : EventTimer) (ns : ℕ) : ℕ := ns * timer.mult / 2 ^ timer.shift

/-- The ticks that are lost when the product of a duration overflows. -/
def EventTimer.lostTicks (timer : EventTimer) (ns : ℕ) : ℕ :=
  ns * timer.mult / 2 ^ 64 * 2 ^ (64 - timer.shift)

/-- The wrapped product gives the ticks without those that are lost. -/
theorem wrapped_ticks {timer : EventTimer} (hshift : timer.shift ≤ 32) (ns : ℕ) :
    (ns * timer.mult % 2 ^ 64) >>> timer.shift + timer.lostTicks ns = timer.ticks ns := by
  have hsplit : 2 ^ 64 = 2 ^ (64 - timer.shift) * 2 ^ timer.shift := by
    rw [← pow_add]
    congr 1
    omega
  rw [Nat.shiftRight_eq_div_pow, EventTimer.lostTicks, EventTimer.ticks]
  conv_rhs => rw [← Nat.mod_add_div (ns * timer.mult) (2 ^ 64)]
  rw [mul_comm (2 ^ 64) (ns * timer.mult / 2 ^ 64)]
  conv_rhs => rw [hsplit, ← mul_assoc]
  rw [Nat.add_mul_div_right _ _ (Nat.two_pow_pos _), ← hsplit]

/-- The product of a duration does not overflow, or the smallest count of the timer makes up for
the ticks that are lost. -/
def EventTimer.Covers (timer : EventTimer) (ns : ℕ) : Prop :=
  ns * timer.mult < 2 ^ 64 ∨
    timer.lostTicks ns + (timer.ticks ns - timer.lostTicks ns) % timer.maxTick ≤ timer.minTick

/-- Nothing is lost if and only if the product does not overflow. -/
theorem lostTicks_eq_zero_iff {timer : EventTimer} {ns : ℕ} :
    timer.lostTicks ns = 0 ↔ ns * timer.mult < 2 ^ 64 := by
  rw [EventTimer.lostTicks, Nat.mul_eq_zero, Nat.div_eq_zero_iff_lt (Nat.two_pow_pos 64)]
  have := Nat.two_pow_pos (64 - timer.shift)
  omega

/-- What the claim of a duration of `ns` nanoseconds is about: finitely many events are scheduled,
each with a count that the timer supports, and together they have the ticks of the duration. -/
def EventTimer.SleepsFor (timer : EventTimer) (ns : ℕ) (scheduled : Option (List ℕ)) : Prop :=
  ∃ counts, scheduled = some counts ∧
    (∀ count ∈ counts, timer.minTick ≤ count ∧ count ≤ timer.maxTick) ∧
    timer.ticks ns ≤ counts.sum

/-- **The events of a sleep**: full periods, and one event for the remainder. -/
theorem sleepNanoseconds_spec {timer : EventTimer} (hmin : 1 ≤ timer.minTick)
    (hle : timer.minTick ≤ timer.maxTick) (hmax : timer.maxTick < 2 ^ 64) (hshift : 1 ≤ timer.shift)
    {ns n_ticks : ℕ} (hticks : (ns * timer.mult % 2 ^ 64) >>> timer.shift = n_ticks) :
    timer.sleepNanoseconds ns =
      some (List.replicate (n_ticks / timer.maxTick) timer.maxTick ++
        [max (n_ticks % timer.maxTick) timer.minTick]) := by
  have hrem : n_ticks % timer.maxTick < timer.maxTick := Nat.mod_lt _ (by omega)
  have hhalf : n_ticks < 2 ^ 63 := by
    rw [← hticks, Nat.shiftRight_eq_div_pow, Nat.div_lt_iff_lt_mul (Nat.two_pow_pos _)]
    have hpow : 2 ^ 1 ≤ 2 ^ timer.shift := Nat.pow_le_pow_right (by decide) hshift
    have hmod : ns * timer.mult % 2 ^ 64 < 2 ^ 63 * 2 ^ 1 := Nat.mod_lt _ (Nat.two_pow_pos 64)
    exact hmod.trans_le (Nat.mul_le_mul_left _ hpow)
  have hfull : n_ticks / timer.maxTick < 2 ^ 63 := (Nat.div_le_self _ _).trans_lt hhalf
  simp only [EventTimer.sleepNanoseconds, hticks]
  rw [if_neg (by omega), toLong_of_lt hfull, Int.toNat_natCast, toUnsignedLong_toLong (by omega)]

/-- The counts of a sleep add up to its ticks, and to the smallest count more where the last
one is below it. -/
theorem sum_events (n_ticks maxTick minTick : ℕ) :
    (List.replicate (n_ticks / maxTick) maxTick ++ [max (n_ticks % maxTick) minTick]).sum =
      n_ticks + (minTick - n_ticks % maxTick) := by
  have hsplit := Nat.div_add_mod' n_ticks maxTick
  simp only [List.sum_append, List.sum_replicate, smul_eq_mul, List.sum_singleton]
  omega

/-- **A sleep is long enough** if and only if the product does not overflow, or the smallest count
of the timer makes up for the ticks that are lost. -/
theorem sleepNanoseconds_iff {timer : EventTimer} (hreg : timer.Registered)
    (hmin : 1 ≤ timer.minTick) (hle : timer.minTick ≤ timer.maxTick)
    (hmax : timer.maxTick < 2 ^ 64) (ns : ℕ) :
    timer.SleepsFor ns (timer.sleepNanoseconds (ns % 2 ^ 64)) ↔ timer.Covers ns := by
  obtain ⟨hshift, hshift', -⟩ := hreg.spec
  have hwrapped := wrapped_ticks hshift' ns
  have hlost : timer.lostTicks ns ≤ timer.ticks ns := hwrapped ▸ Nat.le_add_left _ _
  have hmod : (ns % 2 ^ 64 * timer.mult % 2 ^ 64) >>> timer.shift =
      timer.ticks ns - timer.lostTicks ns := by
    rw [Nat.mod_mul_mod]
    exact Nat.eq_sub_of_add_eq hwrapped
  have hevents := sleepNanoseconds_spec hmin hle hmax hshift hmod
  have hrem : (timer.ticks ns - timer.lostTicks ns) % timer.maxTick < timer.maxTick :=
    Nat.mod_lt _ (by omega)
  rw [EventTimer.SleepsFor, hevents, EventTimer.Covers, ← lostTicks_eq_zero_iff]
  constructor
  · rintro ⟨counts, hcounts, -, hsum⟩
    obtain rfl := Option.some.inj hcounts
    rw [sum_events] at hsum
    omega
  · intro henough
    refine ⟨_, rfl, ?_, ?_⟩
    · intro count hcount
      rw [List.mem_append, List.mem_replicate, List.mem_singleton] at hcount
      omega
    · rw [sum_events]
      omega

/-- **When a sleep is long enough.** Whatever timers have been registered: a call of `sleep`,
`msleep`, `usleep` or `nsleep` schedules finitely many events with counts that the selected timer
supports, and at least the ticks of the duration, if and only if the product of the duration and
the factor of the timer does not overflow, or the smallest count of the timer makes up for the
ticks that are lost. One hour never overflows. -/
theorem sleep_long_enough_iff {registered : List EventTimer} {timers : EventTimers}
    {timer : EventTimer}
    (hreg : EventTimers.registerAll ⟨[], none⟩ registered = some timers)
    (hsel : timers.eventTimer = some timer) (hmin : 1 ≤ timer.minTick)
    (hle : timer.minTick ≤ timer.maxTick) (hmax : timer.maxTick < 2 ^ 64) :
    (∀ sec, timer.SleepsFor (sec * 1000000000) (timers.sleep sec) ↔
      timer.Covers (sec * 1000000000)) ∧
    (∀ ms, timer.SleepsFor (ms * 1000000) (timers.msleep ms) ↔ timer.Covers (ms * 1000000)) ∧
    (∀ us, timer.SleepsFor (us * 1000) (timers.usleep us) ↔ timer.Covers (us * 1000)) ∧
    (∀ ns, ns < 2 ^ 64 → (timer.SleepsFor ns (timers.nsleep ns) ↔ timer.Covers ns)) ∧
    ∀ ns, ns ≤ 3600 * 1000000000 → ns * timer.mult < 2 ^ 64 := by
  have hregistered : timer.Registered :=
    registerAll_selected (fun selected hnone => by simp at hnone) hreg timer hsel
  have hcall : ∀ ns, timers.sleepNanoseconds ns = timer.sleepNanoseconds ns := by
    intro ns
    rw [EventTimers.sleepNanoseconds, hsel, Option.bind_some]
  have hiff := sleepNanoseconds_iff hregistered hmin hle hmax
  refine ⟨?_, ?_, ?_, ?_, hregistered.spec.2.2⟩
  · intro sec
    rw [EventTimers.sleep, hcall]
    exact hiff _
  · intro ms
    rw [EventTimers.msleep, hcall]
    exact hiff _
  · intro us
    rw [EventTimers.usleep, hcall]
    exact hiff _
  · intro ns hns
    have hself := hiff ns
    rw [Nat.mod_eq_of_lt hns] at hself
    rw [EventTimers.nsleep, hcall]
    exact hself

/-- The event timer of the APIC, at one gigahertz. -/
def apicTimer : EventTimer := ⟨100, 1000000000, 1, 2 ^ 32 - 1, 0, 0⟩

/-- The timer of the APIC is registered with the conversions that its frequency gives. -/
theorem apicTimer_registered :
    EventTimers.registerAll ⟨[], none⟩ [apicTimer] =
      some ⟨[{ apicTimer with mult := 2 ^ 21, shift := 21 }],
        some { apicTimer with mult := 2 ^ 21, shift := 21 }⟩ := by
  decide +kernel

/-- The statement for the timer of the APIC and a sleep of 8796 seconds, which is long enough. -/
theorem sleep_long_enough_apic :
    EventTimer.SleepsFor { apicTimer with mult := 2 ^ 21, shift := 21 } (8796 * 1000000000)
      (EventTimers.sleep ⟨[{ apicTimer with mult := 2 ^ 21, shift := 21 }],
        some { apicTimer with mult := 2 ^ 21, shift := 21 }⟩ 8796) :=
  ((@sleep_long_enough_iff [apicTimer] _ _ apicTimer_registered rfl (by decide) (by decide)
    (by decide)).1 8796).mpr (.inl (by decide))

/-- **A sleep that is too short**: the timer of the APIC is to sleep for 8797 seconds, and it
schedules one event of 0.9 seconds. -/
theorem sleep_too_short :
    ∃ timers timer, EventTimers.registerAll ⟨[], none⟩ [apicTimer] = some timers ∧
      timers.eventTimer = some timer ∧ timers.sleep 8797 = some [906977792] ∧
      timer.ticks (8797 * 1000000000) = 8797000000000 ∧
      ¬ timer.SleepsFor (8797 * 1000000000) (timers.sleep 8797) := by
  have hsleep : EventTimers.sleep ⟨[{ apicTimer with mult := 2 ^ 21, shift := 21 }],
      some { apicTimer with mult := 2 ^ 21, shift := 21 }⟩ 8797 = some [906977792] := by
    decide +kernel
  refine ⟨_, _, apicTimer_registered, rfl, hsleep, by decide +kernel, ?_⟩
  rintro ⟨counts, hcounts, -, hsum⟩
  rw [hsleep] at hcounts
  obtain rfl := Option.some.inj hcounts
  revert hsum
  decide +kernel

end MugOS.Time
