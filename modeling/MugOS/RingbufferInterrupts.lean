import MugOS.Ringbuffer
import MugOS.Lib.Run

/-!
# The Ring Buffer under Interrupts

One CPU works on a ring buffer, and an interrupt handler works on the same buffer. An
operation can be interrupted at any point outside of its locked part; the handler then
runs complete operations.

`Ringbuffer_pop` and `Ringbuffer_pushBack` test the element count before they take the
lock. A handler that runs in between can make the test obsolete, and the locked part then
moves the count below `0` or above the size. This is the only way for the buffer to go
wrong.

## Main results

* `interrupts_run_safe`: in every run in which each test still holds when its lock is taken,
  the count is in range and the buffer holds the pending elements.
* `interrupted_pop_underflows`: a pop that is interrupted by a pop.
-/

namespace MugOS.Ringbuffer

/-- Where the interrupted code is: outside of the operations, at the start of a call, or
behind the test of a pop or a push, which is before its lock. -/
inductive Point
  | idle
  | called (c : Call)
  | tested (c : Call)
  deriving DecidableEq

/-- The buffer, the interrupted code, and two ledgers: the elements that were pushed and not
yet popped or overwritten, the oldest first, and the elements that a pop returned although
they were not the oldest pending ones. -/
structure Cpu where
  ring : Ringbuffer
  point : Point
  pending : List Int32
  stray : List Int32

/-- The ledgers after a call returned. An overwriting push returns false when it replaced the
oldest element. -/
def Cpu.settle (m : Cpu) (ring : Ringbuffer) (point : Point) : Call → Bool × Option Int32 → Cpu
  | .pop _, (true, some x) =>
      if m.pending.head? = some x then ⟨ring, point, m.pending.tail, m.stray⟩
      else ⟨ring, point, m.pending, x :: m.stray⟩
  | .pushBack value, (true, _) => ⟨ring, point, m.pending ++ [value], m.stray⟩
  | .pushBackOverwrite value, (true, _) => ⟨ring, point, m.pending ++ [value], m.stray⟩
  | .pushBackOverwrite value, (false, _) => ⟨ring, point, m.pending.tail ++ [value], m.stray⟩
  | _, _ => ⟨ring, point, m.pending, m.stray⟩

/-- What happens next: the code makes a call, goes on to the next point or through a locked
part, or the handler runs a complete operation. -/
inductive Action
  | call (c : Call)
  | advance
  | interrupt (c : Call)
  deriving DecidableEq

/-- The next point of the interrupted code, locked parts being one step. -/
def Cpu.advance (m : Cpu) : Except Fault Cpu :=
  match m.point with
  | .idle => .ok m
  | .called (.pop none) => .ok (m.settle m.ring .idle (.pop none) (false, none))
  | .called (.pop (some old)) =>
      if m.ring.inReadBuffer = 0 then
        .ok (m.settle m.ring .idle (.pop (some old)) (false, some old))
      else .ok { m with point := .tested (.pop (some old)) }
  | .called (.pushBack value) =>
      if m.ring.isBufferFull then .ok (m.settle m.ring .idle (.pushBack value) (false, none))
      else .ok { m with point := .tested (.pushBack value) }
  | .called (.pushBackOverwrite value) => do
      let (ok, ring) ← m.ring.pushBackOverwrite value
      return m.settle ring .idle (.pushBackOverwrite value) (ok, none)
  | .tested (.pop valueOut) => do
      let (x, ring) ← m.ring.popLocked
      return m.settle ring .idle (.pop valueOut) (true, some x)
  | .tested (.pushBack value) => do
      let ring ← m.ring.pushBackLocked value
      return m.settle ring .idle (.pushBack value) (true, none)
  | .tested (.pushBackOverwrite _) => .error .wild

/-- One action. The code is interrupted only outside of locked parts, and there every point
is one. -/
def Cpu.act (m : Cpu) : Action → Except Fault Cpu
  | .call c => if m.point = .idle then .ok { m with point := .called c } else .ok m
  | .advance => m.advance
  | .interrupt c => do
      let (r, ring) ← m.ring.exec c
      return m.settle ring m.point c r

/-- The step relation of the processor: an action that it carries out, and the state behind
it. -/
def Cpu.Step (m : Cpu) (a : Action) (m' : Cpu) : Prop := m.act a = .ok m'

/-- The processor at the start: no call is in progress, and nothing is pending. -/
def Cpu.start (ring : Ringbuffer) : Cpu := ⟨ring, .idle, [], []⟩

/-- The test before a lock still holds when the lock is taken: no interrupt has emptied the
buffer of a pop, or filled the buffer of a push. -/
def Undisturbed (m : Cpu) : Action → Prop
  | .advance =>
      match m.point with
      | .tested (.pop _) => m.ring.inReadBuffer ≠ 0
      | .tested (.pushBack _) => m.ring.isBufferFull = false
      | _ => True
  | _ => True

/-- The count is in range, every pending element is in the buffer, at its place, and every
element that was returned was the oldest pending one. -/
structure Safe (m : Cpu) : Prop where
  count_le : m.ring.inReadBuffer ≤ m.ring.size
  queue_eq : m.ring.queue = m.pending
  stray_eq : m.stray = []

/-! ### The invariant -/

/-- What is kept: the invariant of the buffer, and the ledgers. The point is free, but for
overwriting pushes, which have no test. -/
structure IntInv (n : ℕ) (m : Cpu) : Prop where
  ring : Inv n m.ring
  queue_eq : m.ring.queue = m.pending
  stray_eq : m.stray = []

/-- A call that does to the queue what it is meant to do. -/
theorem IntInv.settle {n : ℕ} {m : Cpu} (h : IntInv n m) {ring : Ringbuffer}
    {r : Bool × Option Int32} {c : Call} (point : Point) (hring : Inv n ring)
    (hstep : queueStep n m.ring.queue c = (r, ring.queue)) :
    IntInv n (m.settle ring point c r) := by
  rw [h.queue_eq] at hstep
  cases c with
  | pop valueOut =>
      cases valueOut with
      | none =>
          obtain ⟨rfl, hq⟩ := Prod.mk.inj hstep
          exact ⟨hring, hq.symm, h.stray_eq⟩
      | some old =>
          cases hpending : m.pending with
          | nil =>
              rw [hpending] at hstep
              obtain ⟨rfl, hq⟩ := Prod.mk.inj hstep
              exact ⟨hring, hq.symm.trans hpending.symm, h.stray_eq⟩
          | cons x rest =>
              rw [hpending] at hstep
              obtain ⟨rfl, hq⟩ := Prod.mk.inj hstep
              simp only [Cpu.settle, hpending, List.head?_cons, if_true, List.tail_cons]
              exact ⟨hring, hq.symm, h.stray_eq⟩
  | pushBack value =>
      rw [queueStep] at hstep
      split at hstep
      · obtain ⟨rfl, hq⟩ := Prod.mk.inj hstep
        exact ⟨hring, hq.symm, h.stray_eq⟩
      · obtain ⟨rfl, hq⟩ := Prod.mk.inj hstep
        exact ⟨hring, hq.symm, h.stray_eq⟩
  | pushBackOverwrite value =>
      rw [queueStep] at hstep
      split at hstep
      · obtain ⟨rfl, hq⟩ := Prod.mk.inj hstep
        exact ⟨hring, hq.symm, h.stray_eq⟩
      · obtain ⟨rfl, hq⟩ := Prod.mk.inj hstep
        exact ⟨hring, hq.symm, h.stray_eq⟩

/-- A complete operation that is run on a state of the invariant. -/
theorem IntInv.exec {n : ℕ} {m : Cpu} (h : IntInv n m) {ring : Ringbuffer}
    {r : Bool × Option Int32} {c : Call} (point : Point) (hexec : m.ring.exec c = .ok (r, ring)) :
    IntInv n (m.settle ring point c r) := by
  obtain ⟨r', ring', hexec', hring, hstep⟩ := h.ring.exec c
  obtain ⟨rfl, rfl⟩ := Prod.mk.inj (Except.ok.inj (hexec.symm.trans hexec'))
  exact h.settle point hring hstep

/-- A pop that returns the first element of a queue that is not empty is the step of the
queue. -/
theorem queueStep_pop {n : ℕ} {queue rest : List Int32} {x old : Int32} (h : queue = x :: rest) :
    queueStep n queue (.pop (some old)) = ((true, some x), rest) := by
  rw [h]
  rfl

/-- **The interrupted code goes on**, in a state in which its test still holds. -/
theorem IntInv.advance {n : ℕ} {m m' : Cpu} (h : IntInv n m) (hund : Undisturbed m .advance)
    (hok : m.advance = .ok m') : IntInv n m' := by
  have hlength : m.ring.queue.length = m.ring.inReadBuffer := Circular.length_window _ _ _ _
  unfold Cpu.advance at hok
  split at hok
  · exact Except.ok.inj hok ▸ h
  · exact Except.ok.inj hok ▸ ⟨h.ring, h.queue_eq, h.stray_eq⟩
  · split at hok
    · exact Except.ok.inj hok ▸ ⟨h.ring, h.queue_eq, h.stray_eq⟩
    · exact Except.ok.inj hok ▸ ⟨h.ring, h.queue_eq, h.stray_eq⟩
  · split at hok
    · exact Except.ok.inj hok ▸ ⟨h.ring, h.queue_eq, h.stray_eq⟩
    · exact Except.ok.inj hok ▸ ⟨h.ring, h.queue_eq, h.stray_eq⟩
  · rename_i value hpoint
    obtain ⟨⟨ok, ring⟩, hpush, hok⟩ := bind_eq_ok.mp hok
    rw [← Except.ok.inj hok]
    refine h.exec .idle ?_
    simp [Ringbuffer.exec, hpush, bind, Except.bind, pure, Except.pure]
  · rename_i valueOut hpoint
    simp only [Undisturbed, hpoint] at hund
    obtain ⟨⟨x, ring⟩, hpop, hok⟩ := bind_eq_ok.mp hok
    obtain ⟨x', ring', hpop', hring, hqueue⟩ := h.ring.popLocked hund
    obtain ⟨rfl, rfl⟩ := Prod.mk.inj (Except.ok.inj (hpop.symm.trans hpop'))
    rw [← Except.ok.inj hok]
    exact h.settle .idle hring (c := .pop (some x)) (queueStep_pop hqueue)
  · rename_i value hpoint
    simp only [Undisturbed, hpoint] at hund
    have hroom : m.ring.inReadBuffer < n := by
      have := mt h.ring.full_iff.mpr (by simp [hund])
      have := h.ring.count_le
      omega
    obtain ⟨ring, hpush, hok⟩ := bind_eq_ok.mp hok
    obtain ⟨ring', hpush', hring, hqueue⟩ := h.ring.pushBackLocked hroom value
    obtain rfl := Except.ok.inj (hpush.symm.trans hpush')
    rw [← Except.ok.inj hok]
    refine h.settle .idle hring ?_
    rw [queueStep, if_pos (by omega), hqueue]
  · exact absurd hok (by simp)

/-- **One action** of the processor that does not disturb a call between its test and its lock
keeps the invariant. -/
theorem IntInv.step {n : ℕ} {m m' : Cpu} {a : Action} (h : IntInv n m) (hund : Undisturbed m a)
    (hstep : m.Step a m') : IntInv n m' := by
  cases a with
  | call c =>
      simp only [Cpu.Step, Cpu.act] at hstep
      split at hstep
      · exact Except.ok.inj hstep ▸ ⟨h.ring, h.queue_eq, h.stray_eq⟩
      · exact Except.ok.inj hstep ▸ h
  | advance => exact h.advance hund hstep
  | interrupt c =>
      obtain ⟨⟨r, ring⟩, hexec, hok⟩ := bind_eq_ok.mp hstep
      rw [← Except.ok.inj hok]
      exact h.exec m.point hexec

/-! ### Every run -/

/-- **The ring buffer under interrupts, over whole runs.** From an initialised buffer, in
every run of the CPU in which each test still holds when its lock is taken, the count stays
in range, the buffer holds exactly the pending elements in their order, and no other element
is ever returned. -/
theorem interrupts_run_safe {n : ℕ} {buffer : List Int32} {ring : Ringbuffer}
    (hlen : buffer.length = n) (hfits : 4 * n ≤ 2 ^ 64)
    (hinit : initWithBuffer n (some buffer) = .ok ring) {as : List Action} {m : Cpu}
    (h : Runs (fun m a m' => m.Step a m' ∧ Undisturbed m a) (.start ring) as m) : Safe m := by
  obtain ⟨hring, hempty⟩ := Inv.init hlen hfits hinit
  have hinv : IntInv n m :=
    h.invariant ⟨hring, hempty, rfl⟩ fun _ _ _ hi hstep => hi.step hstep.2 hstep.1
  exact ⟨hinv.ring.size_eq ▸ hinv.ring.count_le, hinv.queue_eq, hinv.stray_eq⟩

/-- A sequence of actions. -/
def Cpu.acts : Cpu → List Action → Except Fault Cpu
  | m, [] => .ok m
  | m, a :: as => do (← m.act a).acts as

/-- A run followed by actions that are executed is a run of all these actions. -/
theorem runs_of_acts {m₀ m m' : Cpu} {as as' : List Action} (hruns : Runs Cpu.Step m₀ as m)
    (h : m.acts as' = .ok m') : Runs Cpu.Step m₀ (as ++ as') m' := by
  induction as' generalizing as m with
  | nil =>
      obtain rfl := Except.ok.inj h
      simpa using hruns
  | cons a as' ih =>
      obtain ⟨m₁, hact, hrest⟩ := bind_eq_ok.mp h
      simpa using ih (hruns.snoc hact) hrest

/-- **A pop that is interrupted behind its test** by a pop of the only element: the count
wraps around below `0`. -/
theorem interrupted_pop_underflows : ∃ ring m,
    initWithBuffer 2 (some [0, 0]) = .ok ring ∧
      Runs Cpu.Step (.start ring) [.interrupt (.pushBack 5), .call (.pop (some 0)), .advance,
        .interrupt (.pop (some 0)), .advance] m ∧ ¬ Safe m := by
  have hacts : ((Cpu.start ⟨2, 0, 0, [0, 0]⟩).acts [.interrupt (.pushBack 5),
      .call (.pop (some 0)), .advance, .interrupt (.pop (some 0)), .advance]) =
        .ok ⟨⟨2, 0, 2 ^ 64 - 1, [5, 0]⟩, .idle, [], [0]⟩ := rfl
  refine ⟨⟨2, 0, 0, [0, 0]⟩, _, rfl, runs_of_acts .nil hacts, ?_⟩
  rintro ⟨hcount, -, -⟩
  exact absurd hcount (by norm_num)

/-- The guarantee at a run in which a push is interrupted by a pop. -/
theorem interrupts_run_safe_push : ∃ ring m,
    initWithBuffer 1 (some [0]) = .ok ring ∧
      Runs (fun m a m' => m.Step a m' ∧ Undisturbed m a) (.start ring)
        [.call (.pushBack 5), .advance, .interrupt (.pop (some 0)), .advance] m ∧
      m.pending = [5] ∧ Safe m := by
  have hcall : Runs (fun m a m' => m.Step a m' ∧ Undisturbed m a) (.start ⟨1, 0, 0, [0]⟩)
      [.call (.pushBack 5)] ⟨⟨1, 0, 0, [0]⟩, .called (.pushBack 5), [], []⟩ :=
    .snoc .nil ⟨rfl, trivial⟩
  have htested : Runs (fun m a m' => m.Step a m' ∧ Undisturbed m a) (.start ⟨1, 0, 0, [0]⟩)
      [.call (.pushBack 5), .advance] ⟨⟨1, 0, 0, [0]⟩, .tested (.pushBack 5), [], []⟩ :=
    hcall.snoc ⟨rfl, trivial⟩
  have hback : Runs (fun m a m' => m.Step a m' ∧ Undisturbed m a) (.start ⟨1, 0, 0, [0]⟩)
      [.call (.pushBack 5), .advance, .interrupt (.pop (some 0))]
      ⟨⟨1, 0, 0, [0]⟩, .tested (.pushBack 5), [], []⟩ :=
    htested.snoc ⟨rfl, trivial⟩
  have hruns : Runs (fun m a m' => m.Step a m' ∧ Undisturbed m a) (.start ⟨1, 0, 0, [0]⟩)
      [.call (.pushBack 5), .advance, .interrupt (.pop (some 0)), .advance]
      ⟨⟨1, 0, 1, [5]⟩, .idle, [5], []⟩ :=
    hback.snoc ⟨rfl, rfl⟩
  exact ⟨_, _, rfl, hruns, rfl, interrupts_run_safe (n := 1)
    (show ([0] : List Int32).length = 1 from rfl) (by norm_num) rfl hruns⟩

end MugOS.Ringbuffer
