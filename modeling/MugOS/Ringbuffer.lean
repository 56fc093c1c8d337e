import MugOS.Memory
import MugOS.Lib.Circular

/-!
# The Ring Buffer

`Stdlib/mugOS/Ringbuffer.c`: a queue of `int` in a buffer of fixed size. The parts of the
operations that run with interrupts disabled, between `lock()` and `unlock()`, are
definitions of their own. Accesses outside of the buffer are the outcome `Fault.wild`.

## Main results

* `ringbuffer_refines_queue`: every sequence of calls behaves as on a bounded queue, and
  every buffer index is inside of the buffer.
-/

namespace MugOS

open Circular

/-- `struct s_Ringbuffer`, without `isAllocated`, which no operation reads. -/
structure Ringbuffer where
  size : ℕ
  readBeginIndex : ℕ
  inReadBuffer : ℕ
  buffer : List Int32
  deriving DecidableEq

namespace Ringbuffer

/-! ### The operations -/

/-- `Ringbuffer_initWithBuffer(this, n, buffer)`, no buffer being `NULL`. -/
def initWithBuffer (n : ℕ) (buffer : Option (List Int32)) : Except Fault Ringbuffer :=
  match buffer with
  | none => .error .assertion
  | some buffer =>
      if n = 0 then .error .assertion
      else .ok { size := n, readBeginIndex := 0, inReadBuffer := 0, buffer := buffer }

/-- `Ringbuffer_getDataSize(this)`: the number of elements in the buffer. -/
def getDataSize (this : Ringbuffer) : ℕ := this.inReadBuffer

/-- `Ringbuffer_isBufferFull(this)`: whether there are as many elements as cells. -/
def isBufferFull (this : Ringbuffer) : Bool := this.inReadBuffer ≥ this.size

/-- `this->buffer[i]`: the value in a cell, a fault outside of the array. -/
def load (this : Ringbuffer) (i : ℕ) : Except Fault Int32 :=
  if i < this.buffer.length then .ok (this.buffer.getD i default) else .error .wild

/-- `this->buffer[i] = value`: a store to a cell, a fault outside of the array. -/
def store (this : Ringbuffer) (i : ℕ) (value : Int32) : Except Fault Ringbuffer :=
  if i < this.buffer.length then .ok { this with buffer := this.buffer.set i value }
  else .error .wild

/-- `incrementRingBeginIndex()`: the index of the first element moves on by one, around the
end. -/
def incrementRingBeginIndex (this : Ringbuffer) : Ringbuffer :=
  { this with readBeginIndex := wadd this.readBeginIndex 1 % this.size }

/-- The locked part of `Ringbuffer_pop`: the value that is stored to `*valueOut`. -/
def popLocked (this : Ringbuffer) : Except Fault (Int32 × Ringbuffer) := do
  let value ← this.load this.readBeginIndex
  let this := { this with inReadBuffer := wsub this.inReadBuffer 1 }
  return (value, this.incrementRingBeginIndex)

/-- `Ringbuffer_pop(this, valueOut)`: `valueOut` is the variable that is pointed to, none for
`NULL`; the results are the return value and the variable afterwards. -/
def pop (this : Ringbuffer) (valueOut : Option Int32) :
    Except Fault ((Bool × Option Int32) × Ringbuffer) :=
  if valueOut = none then .ok ((false, valueOut), this)
  else if this.inReadBuffer = 0 then .ok ((false, valueOut), this)
  else do
    let (value, this) ← this.popLocked
    return ((true, some value), this)

/-- `write_index` of the two push operations: the cell behind the last element. -/
def writeIndex (this : Ringbuffer) : ℕ :=
  wadd this.readBeginIndex this.inReadBuffer % this.size

/-- The locked part of `Ringbuffer_pushBack`: the store, and the count of one more element. -/
def pushBackLocked (this : Ringbuffer) (value : Int32) : Except Fault Ringbuffer := do
  let this ← this.store this.writeIndex value
  return { this with inReadBuffer := wadd this.inReadBuffer 1 }

/-- `Ringbuffer_pushBack(this, value)`: puts the value behind the others, and fails on a full
buffer. -/
def pushBack (this : Ringbuffer) (value : Int32) : Except Fault (Bool × Ringbuffer) :=
  if this.isBufferFull then .ok (false, this)
  else do
    let this ← this.pushBackLocked value
    return (true, this)

/-- `Ringbuffer_pushBackOverwrite(this, value)`, all of it locked. -/
def pushBackOverwrite (this : Ringbuffer) (value : Int32) : Except Fault (Bool × Ringbuffer) :=
  if this.isBufferFull then do
    let this ← this.store this.readBeginIndex value
    return (false, this.incrementRingBeginIndex)
  else do
    let this ← this.pushBackLocked value
    return (true, this)

/-! ### Calls, and the queue that they are about -/

/-- A call of an operation, with the value or the pointer that it is given. -/
inductive Call
  | pop (valueOut : Option Int32)
  | pushBack (value : Int32)
  | pushBackOverwrite (value : Int32)
  deriving DecidableEq

/-- A call on a ring buffer: what it returns, and the variable of a pop afterwards. -/
def exec (this : Ringbuffer) : Call → Except Fault ((Bool × Option Int32) × Ringbuffer)
  | .pop valueOut => this.pop valueOut
  | .pushBack value => do
      let (ok, this) ← this.pushBack value
      return ((ok, none), this)
  | .pushBackOverwrite value => do
      let (ok, this) ← this.pushBackOverwrite value
      return ((ok, none), this)

/-- A sequence of calls, with what each of them returns. -/
def execs (this : Ringbuffer) : List Call → Except Fault (List (Bool × Option Int32) × Ringbuffer)
  | [] => .ok ([], this)
  | c :: cs => do
      let (r, this) ← this.exec c
      let (rs, this) ← this.execs cs
      return (r :: rs, this)

/-- The abstract behaviour: a call on a queue of at most `n` elements, the oldest first. -/
def queueStep (n : ℕ) (queue : List Int32) : Call → (Bool × Option Int32) × List Int32
  | .pop none => ((false, none), queue)
  | .pop (some old) =>
      match queue with
      | [] => ((false, some old), [])
      | x :: rest => ((true, some x), rest)
  | .pushBack value =>
      if queue.length < n then ((true, none), queue ++ [value]) else ((false, none), queue)
  | .pushBackOverwrite value =>
      if queue.length < n then ((true, none), queue ++ [value])
      else ((false, none), queue.tail ++ [value])

/-- A sequence of calls on the queue, with what each of them is to return. -/
def queueSteps (n : ℕ) : List Int32 → List Call → List (Bool × Option Int32) × List Int32
  | queue, [] => ([], queue)
  | queue, c :: cs =>
      let (r, queue) := queueStep n queue c
      let (rs, queue) := queueSteps n queue cs
      (r :: rs, queue)

/-- The queue that a ring buffer represents: `inReadBuffer` elements, read circularly from
`readBeginIndex`. -/
def queue (this : Ringbuffer) : List Int32 :=
  window this.buffer this.size this.readBeginIndex this.inReadBuffer

/-! ### The invariant -/

/-- A ring buffer of capacity `n`: its buffer has `n` elements of four bytes in the address
space, and the indices are in range. -/
structure Inv (n : ℕ) (this : Ringbuffer) : Prop where
  size_eq : this.size = n
  pos : 0 < n
  length_eq : this.buffer.length = n
  fits : 4 * n ≤ 2 ^ 64
  begin_lt : this.readBeginIndex < n
  count_le : this.inReadBuffer ≤ n

section Inv

variable {n : ℕ} {this : Ringbuffer} (h : Inv n this)

include h

/-- The index for the next write is the cell behind the elements, as the sum of the indices
does not wrap. -/
theorem Inv.writeIndex_eq :
    this.writeIndex = cell n this.readBeginIndex this.inReadBuffer := by
  have := h.begin_lt
  have := h.count_le
  have := h.fits
  rw [writeIndex, wadd_of_lt (by omega), h.size_eq, cell]

/-- Every index that is written to is inside of the buffer. -/
theorem Inv.writeIndex_lt : this.writeIndex < n := by
  rw [h.writeIndex_eq]
  exact cell_lt h.pos _ _

/-- The index behind the first element is computed without a wrap. -/
theorem Inv.next_eq : wadd this.readBeginIndex 1 % this.size = (this.readBeginIndex + 1) % n := by
  have := h.begin_lt
  have := h.fits
  rw [wadd_of_lt (by omega), h.size_eq]

/-- The first cell of the queue is the one at the index of the first element. -/
theorem Inv.cell_zero : cell n this.readBeginIndex 0 = this.readBeginIndex := by
  rw [cell, Nat.add_zero, Nat.mod_eq_of_lt h.begin_lt]

/-- The buffer is full if and only if it has as many elements as cells. -/
theorem Inv.full_iff : this.isBufferFull = true ↔ this.inReadBuffer = n := by
  have := h.count_le
  rw [isBufferFull, decide_eq_true_eq, h.size_eq]
  omega

/-- **The locked part of a pop** on a buffer that is not empty. -/
theorem Inv.popLocked (hpos : this.inReadBuffer ≠ 0) :
    ∃ x this', this.popLocked = .ok (x, this') ∧ Inv n this' ∧ this.queue = x :: this'.queue := by
  have hlt : this.readBeginIndex < this.buffer.length := by
    rw [h.length_eq]
    exact h.begin_lt
  have hdec : wsub this.inReadBuffer 1 = this.inReadBuffer - 1 := by
    have := h.count_le
    have := h.fits
    exact wsub_of_le (by omega) (by omega)
  refine ⟨_, _, by rw [Ringbuffer.popLocked, load, if_pos hlt]; rfl, ?_, ?_⟩
  · refine ⟨h.size_eq, h.pos, h.length_eq, h.fits, ?_, ?_⟩
    · rw [incrementRingBeginIndex, h.next_eq]
      exact Nat.mod_lt _ h.pos
    · have := h.count_le
      simp only [incrementRingBeginIndex, hdec]
      omega
  · obtain ⟨k, hk⟩ : ∃ k, this.inReadBuffer = k + 1 := ⟨this.inReadBuffer - 1, by omega⟩
    simp only [queue, incrementRingBeginIndex, hdec, h.next_eq]
    rw [hk, h.size_eq, window_succ, h.cell_zero, Nat.add_sub_cancel]

/-- **The locked part of a push** on a buffer that is not full. -/
theorem Inv.pushBackLocked (hroom : this.inReadBuffer < n) (value : Int32) :
    ∃ this', this.pushBackLocked value = .ok this' ∧ Inv n this' ∧
      this'.queue = this.queue ++ [value] := by
  have hlt : this.writeIndex < this.buffer.length := by
    rw [h.length_eq]
    exact h.writeIndex_lt
  have hinc : wadd this.inReadBuffer 1 = this.inReadBuffer + 1 := by
    have := h.fits
    exact wadd_of_lt (by omega)
  refine ⟨_, by rw [Ringbuffer.pushBackLocked, store, if_pos hlt]; rfl, ?_, ?_⟩
  · refine ⟨h.size_eq, h.pos, ?_, h.fits, h.begin_lt, ?_⟩
    · rw [List.length_set]
      exact h.length_eq
    · simp only [hinc]
      omega
  · simp only [queue, hinc, h.writeIndex_eq, h.size_eq]
    exact window_concat h.length_eq hroom value

/-- **An overwriting push** on a full buffer drops the oldest element and puts the new one at
the end. -/
theorem Inv.overwrite (hfull : this.inReadBuffer = n) (value : Int32) :
    ∃ this', (this.store this.readBeginIndex value) = .ok this' ∧
      Inv n this'.incrementRingBeginIndex ∧
      this'.incrementRingBeginIndex.queue = this.queue.tail ++ [value] := by
  have hlt : this.readBeginIndex < this.buffer.length := by
    rw [h.length_eq]
    exact h.begin_lt
  refine ⟨_, by rw [store, if_pos hlt], ?_, ?_⟩
  · refine ⟨h.size_eq, h.pos, ?_, h.fits, ?_, h.count_le⟩
    · rw [incrementRingBeginIndex, List.length_set]
      exact h.length_eq
    · simp only [incrementRingBeginIndex, h.next_eq]
      exact Nat.mod_lt _ h.pos
  · simp only [queue, incrementRingBeginIndex]
    rw [h.next_eq, h.size_eq, hfull]
    have hover := window_overwrite h.length_eq h.pos this.readBeginIndex value
    rwa [h.cell_zero] at hover

/-- **One call** does to the queue what it is meant to do. -/
theorem Inv.exec (c : Call) :
    ∃ r this', this.exec c = .ok (r, this') ∧ Inv n this' ∧
      queueStep n this.queue c = (r, this'.queue) := by
  have hlength : this.queue.length = this.inReadBuffer := length_window _ _ _ _
  have hcount := h.count_le
  cases c with
  | pop valueOut =>
      cases valueOut with
      | none => exact ⟨(false, none), this, by simp [Ringbuffer.exec, pop], h, rfl⟩
      | some old =>
          by_cases hzero : this.inReadBuffer = 0
          · refine ⟨(false, some old), this, by simp [Ringbuffer.exec, pop, hzero], h, ?_⟩
            rw [hzero] at hlength
            rw [List.length_eq_zero_iff.mp hlength]
            rfl
          · obtain ⟨x, this', hpop, h', hqueue⟩ := h.popLocked hzero
            refine ⟨(true, some x), this', ?_, h', by rw [hqueue]; rfl⟩
            simp [Ringbuffer.exec, pop, hzero, hpop, bind, Except.bind, pure, Except.pure]
  | pushBack value =>
      by_cases hfull : this.isBufferFull = true
      · refine ⟨(false, none), this, ?_, h, ?_⟩
        · simp [Ringbuffer.exec, pushBack, hfull, bind, Except.bind, pure, Except.pure]
        · rw [queueStep, if_neg (by have := h.full_iff.mp hfull; omega)]
      · have hroom : this.inReadBuffer < n := by
          have := mt h.full_iff.mpr hfull
          omega
        obtain ⟨this', hpush, h', hqueue⟩ := h.pushBackLocked hroom value
        refine ⟨(true, none), this', ?_, h', ?_⟩
        · simp [Ringbuffer.exec, pushBack, hfull, hpush, bind, Except.bind, pure, Except.pure]
        · rw [queueStep, if_pos (by omega), hqueue]
  | pushBackOverwrite value =>
      by_cases hfull : this.isBufferFull = true
      · obtain ⟨this', hstore, h', hqueue⟩ := h.overwrite (h.full_iff.mp hfull) value
        refine ⟨(false, none), _, ?_, h', ?_⟩
        · simp [Ringbuffer.exec, pushBackOverwrite, hfull, hstore, bind, Except.bind, pure,
            Except.pure]
        · rw [queueStep, if_neg (by have := h.full_iff.mp hfull; omega), hqueue]
      · have hroom : this.inReadBuffer < n := by
          have := mt h.full_iff.mpr hfull
          omega
        obtain ⟨this', hpush, h', hqueue⟩ := h.pushBackLocked hroom value
        refine ⟨(true, none), this', ?_, h', ?_⟩
        · simp [Ringbuffer.exec, pushBackOverwrite, hfull, hpush, bind, Except.bind, pure,
            Except.pure]
        · rw [queueStep, if_pos (by omega), hqueue]

end Inv

/-- A sequence of calls does to the queue what it is meant to do. -/
theorem Inv.execs {n : ℕ} {this : Ringbuffer} (h : Inv n this) (cs : List Call) :
    ∃ rs this', this.execs cs = .ok (rs, this') ∧ Inv n this' ∧
      queueSteps n this.queue cs = (rs, this'.queue) := by
  induction cs generalizing this with
  | nil => exact ⟨[], this, rfl, h, rfl⟩
  | cons c cs ih =>
      obtain ⟨r, this₁, hexec, h₁, hstep⟩ := h.exec c
      obtain ⟨rs, this₂, hexecs, h₂, hsteps⟩ := ih h₁
      refine ⟨r :: rs, this₂, ?_, h₂, ?_⟩
      · rw [Ringbuffer.execs, hexec]
        simp only [bind, Except.bind, hexecs]
        rfl
      · rw [queueSteps, hstep]
        simp only [hsteps]

/-- After the initialisation with a buffer of `n` cells, the invariant holds and the queue is
empty. -/
theorem Inv.init {n : ℕ} {buffer : List Int32} {this : Ringbuffer} (hlen : buffer.length = n)
    (hfits : 4 * n ≤ 2 ^ 64) (h : initWithBuffer n (some buffer) = .ok this) :
    Inv n this ∧ this.queue = [] := by
  simp only [initWithBuffer] at h
  split at h
  · exact absurd h (by simp)
  · obtain rfl := Except.ok.inj h
    exact ⟨⟨rfl, by omega, hlen, hfits, by simp only; omega, by simp only; omega⟩, rfl⟩

/-- **The ring buffer is a bounded queue.** After `Ringbuffer_initWithBuffer` with a buffer of
`n` elements, every sequence of calls returns (so no access is outside of the buffer), and
its results and the queue it leaves are those of the same calls on a queue of at most `n`
elements, which at the start is empty. -/
theorem ringbuffer_refines_queue {n : ℕ} {buffer : List Int32} {this : Ringbuffer}
    (hlen : buffer.length = n) (hfits : 4 * n ≤ 2 ^ 64)
    (h : initWithBuffer n (some buffer) = .ok this) (cs : List Call) :
    ∃ rs this', this.execs cs = .ok (rs, this') ∧
      queueSteps n [] cs = (rs, this'.queue) ∧
      this'.getDataSize = this'.queue.length ∧ this'.queue.length ≤ n ∧
      this'.readBeginIndex < n ∧ this'.writeIndex < n := by
  obtain ⟨h₀, hempty⟩ := Inv.init hlen hfits h
  obtain ⟨rs, this', hexecs, h', hsteps⟩ := h₀.execs cs
  rw [hempty] at hsteps
  have hlength : this'.queue.length = this'.inReadBuffer := length_window _ _ _ _
  exact ⟨rs, this', hexecs, hsteps, hlength.symm, hlength ▸ h'.count_le, h'.begin_lt,
    h'.writeIndex_lt⟩

/-- The refinement at a buffer of one element, which is pushed to, overwritten and emptied. -/
theorem ringbuffer_refines_queue_one : ∃ this this' : Ringbuffer,
    initWithBuffer 1 (some [0]) = .ok this ∧
      this.execs [.pushBack 5, .pushBackOverwrite 6, .pop (some 0)] =
        .ok ([(true, none), (false, none), (true, some 6)], this') ∧ this'.queue = [] := by
  obtain ⟨rs, this', hexecs, hsteps, -⟩ := ringbuffer_refines_queue (n := 1)
    (show ([0] : List Int32).length = 1 from rfl) (by norm_num)
    (show initWithBuffer 1 (some [0]) = .ok ⟨1, 0, 0, [0]⟩ from rfl)
    [.pushBack 5, .pushBackOverwrite 6, .pop (some 0)]
  obtain ⟨hrs, hqueue⟩ := Prod.mk.inj hsteps
  exact ⟨_, this', rfl, hrs ▸ hexecs, hqueue.symm⟩

end Ringbuffer

end MugOS
