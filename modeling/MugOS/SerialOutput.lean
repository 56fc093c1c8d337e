import MugOS.Lib.Outcome
import MugOS.Lib.Run
import MugOS.SerialSpec

/-!
# Serial Output

Calls that send strings through the serial port, and interrupts of the device that may come between
the two parts of a call: `pushBackWriteBuffer` decides whether THRE has to be set before it disables
interrupts.

The port stalls, bytes being queued with THRE not set, if the string does not fit into the buffer
that was empty, since the function then returns before it sets THRE, and if the buffer is emptied
by an interrupt behind the decision.

## Main results

* `Good.pushBackLocked`, `Good.interrupt`: what keeps THRE set while bytes are queued.
* `output_never_stalls`: in every run whose steps are orderly, THRE is set while bytes are queued.
-/

namespace MugOS.Serial

/-! ### Runs -/

/-- The device, and the call of `pushBackWriteBuffer` that has decided but not yet disabled
interrupts: its string and `shouldTriggerTHRE`. -/
structure System where
  device : Device
  pending : Option (List UInt8 × Bool)

/-- What may happen next to the driver: a call, the rest of one, or an interrupt. -/
inductive Step
  /-- `Serial_sendString(device, str)` up to `IRQ_disableSave`, `none` being `NULL`; the call of
  `Serial_sendByte(device, byte)` is that with the string of the byte -/
  | call (str : Option (List UInt8))
  /-- the rest of it -/
  | locked
  /-- an interrupt of the device, with at most `n` interrupts identified -/
  | interrupt (n : ℕ)
  /-- bytes arrive at the device -/
  | arrive (bytes : List UInt8)

/-- A call of `pushBackWriteBuffer` up to `IRQ_disableSave`, if no other one is under way. -/
def enter (s : System) (str : Option (List UInt8)) : Option System :=
  match s.pending, str with
  | some _, _ => none
  | none, none => some s
  | none, some str =>
      if strlen str = 0 then some s
      else some { s with pending := some (str, shouldTriggerTHRE s.device) }

/-- The rest of the call that is under way, behind `IRQ_disableSave`, with the interrupts
off. -/
def finish (P : Surroundings) (s : System) : Except Fault (Option System) :=
  match s.pending with
  | none => .ok none
  | some (str, shouldTrigger) => do
      let (_, dev) ← pushBackLocked P s.device str shouldTrigger
      return some ⟨dev, none⟩

/-- The system takes a step; `none` if it cannot. -/
def step (P : Surroundings) (s : System) : Step → Except Fault (Option System)
  | .call str => .ok (enter s str)
  | .locked => finish P s
  | .interrupt n => do
      let dev ← handleDeviceInterrupt P n s.device
      return dev.map fun dev => { s with device := dev }
  | .arrive bytes =>
      .ok (some { s with device := { s.device with received := s.device.received ++ bytes } })

/-- **The port does not stall**: while bytes are queued, THRE is set. -/
def Live (dev : Device) : Prop := dev.queued ≠ [] → dev.ier &&& ierThre ≠ 0

/-- **The steps that keep it so.** A string that finds the buffer empty when interrupts are
disabled was known to find it empty and fits into it, or is sent at once. The messages that are
logged fit into the buffer. -/
def Orderly (P : Surroundings) (s : System) : Step → Prop
  | .locked =>
      ∀ str shouldTrigger, s.pending = some (str, shouldTrigger) → s.device.queued = [] →
        if shouldTrigger then strlen str ≤ extBuffSize
        else transmitterEmpty P s.device ∧ strlen str ≤ s.device.internalBufferSize
  | .interrupt _ => ∀ message, (P.log message).length ≤ extBuffSize
  | _ => True

/-! ### Single functions -/

/-- After the bit THRE of a register is set, it is set. -/
theorem or_ierThre (ier : UInt8) : (ier ||| ierThre) &&& ierThre ≠ 0 := by
  have hbit : ∀ ier : UInt8, (ier ||| ierThre) &&& ierThre ≠ 0 := by decide +kernel
  exact hbit ier

/-- What the driver keeps: its buffers, THRE being set while bytes are queued, and the size of the
internal buffer. -/
structure Good (dev : Device) : Prop where
  wf : Wf dev
  live : Live dev
  size_le : dev.internalBufferSize ≤ 14

/-- At the start the device is good: its buffers are well-formed, and no byte is queued. -/
theorem good_start (is16550A : Bool) : Good (.start is16550A) := by
  refine ⟨wf_start is16550A, fun hne => absurd rfl hne, ?_⟩
  cases is16550A <;> decide

/-- The string length of a string with a terminating zero behind it is at most its number of
bytes. -/
theorem strlen_append_zero (str : List UInt8) : strlen (str ++ [0]) ≤ str.length := by
  induction str with
  | nil => simp [strlen, text]
  | cons c str ih =>
      by_cases hc : c = 0
      · simp [strlen, text, hc]
      · simp only [strlen, text, List.cons_append, List.takeWhile_cons, ne_eq, hc,
          not_false_eq_true, decide_true, if_true, List.length_cons] at ih ⊢
        omega

section Good

variable {dev : Device} (h : Good dev)

include h

/-- Whether a device is good depends only on its write buffer, the bit THRE and its read
buffer. -/
theorem Good.congr {dev' : Device} (hwrite : dev'.externalWriteBuff = dev.externalWriteBuff)
    (hier : dev'.ier = dev.ier) (hsize : dev'.internalBufferSize = dev.internalBufferSize)
    (hread : Ringbuffer.Inv extBuffSize dev'.externalReadBuff) : Good dev' := by
  refine ⟨⟨hwrite ▸ h.wf.write, hread⟩, ?_, hsize ▸ h.size_le⟩
  intro hne
  rw [hier]
  apply h.live
  rwa [Device.queued, ← hwrite]

/-- When the transmitter is empty, its service returns and the device is good. -/
theorem Good.processTHRE : Ends (fun _ => False) (processTHRE dev) Good := by
  obtain ⟨buff, ier, hthre, hbuff, hcontents, hier⟩ := processTHRE_spec h.wf
  rw [hthre]
  refine ⟨⟨hbuff, h.wf.read⟩, ?_, h.size_le⟩
  intro hne
  rw [show ier = dev.ier from hier hne]
  apply h.live
  intro hnil
  rw [hnil, List.drop_nil] at hcontents
  exact hne hcontents

/-- **A string is queued** that finds bytes in the buffer, or is known to find none, or is sent at
once. -/
theorem Good.pushBackLocked (P : Surroundings) {str : List UInt8} {shouldTrigger : Bool}
    (horderly : dev.queued = [] →
      if shouldTrigger then strlen str ≤ extBuffSize
      else transmitterEmpty P dev ∧ strlen str ≤ dev.internalBufferSize) :
    Ends (fun _ => False) (pushBackLocked P dev str shouldTrigger) fun r => Good r.2 := by
  have hsize := h.size_le
  by_cases hfits : dev.queued.length + (text str).length ≤ extBuffSize
  · obtain ⟨buff, ier, sent, hpush, hbuff, -, hcontents, hier⟩ :=
      pushBackLocked_fits h.wf P shouldTrigger hfits
    rw [hpush]
    refine ⟨⟨hbuff, h.wf.read⟩, ?_, hsize⟩
    intro hne
    rw [show ier = _ from hier hne]
    cases shouldTrigger with
    | true => exact or_ierThre dev.ier
    | false =>
        apply h.live
        intro hnil
        obtain ⟨hempty, hlength⟩ := horderly hnil
        rw [strlen] at hlength
        rw [if_pos hempty, hnil, List.nil_append, List.drop_eq_nil_of_le hlength] at hcontents
        exact hne hcontents
  · obtain ⟨buff, hpush, hbuff, hcontents⟩ :=
      pushBackLocked_full h.wf P shouldTrigger (Nat.lt_of_not_le hfits)
    rw [hpush]
    refine ⟨⟨hbuff, h.wf.read⟩, ?_, hsize⟩
    intro _
    apply h.live
    intro hnil
    have hlength := horderly hnil
    rw [hnil, List.length_nil, Nat.zero_add] at hfits
    cases shouldTrigger with
    | true => exact hfits hlength
    | false => exact hfits (hlength.2.trans (hsize.trans (by decide)))

/-- A string is queued with interrupts disabled all the time. -/
theorem Good.pushBackWriteBuffer (P : Surroundings) {str : Option (List UInt8)}
    (hlength : ∀ str' ∈ str, strlen str' ≤ extBuffSize) :
    Ends (fun _ => False) (pushBackWriteBuffer P dev str) fun r => Good r.2 := by
  unfold Serial.pushBackWriteBuffer
  split
  · exact h
  · rename_i str
    split
    · exact h
    · apply h.pushBackLocked P
      intro hnil
      have htrigger : shouldTriggerTHRE dev = true :=
        decide_eq_true ((contents_eq_nil_iff _).mp hnil)
      rw [if_pos htrigger]
      exact hlength str rfl

/-- Logging a message that fits the buffer keeps the device good. -/
theorem Good.log {P : Surroundings} (hlog : ∀ message, (P.log message).length ≤ extBuffSize)
    (message : Message) : Ends (fun _ => False) (log P dev message) Good := by
  have hlength : strlen (P.log message ++ [0]) ≤ extBuffSize :=
    (strlen_append_zero _).trans (hlog message)
  exact (h.pushBackWriteBuffer P (by simpa using hlength)).bind fun r hr => hr

/-- Logging a message if a bit of the line status is set keeps the device good. -/
theorem Good.logIf {P : Surroundings} (hlog : ∀ message, (P.log message).length ≤ extBuffSize)
    (lsr mask : UInt8) (message : Message) :
    Ends (fun _ => False) (logIf P lsr mask message dev) Good := by
  unfold Serial.logIf
  split
  · exact h.log hlog message
  · exact h

/-- Handling a change of the line status, which may log messages, keeps the device good. -/
theorem Good.processUpdatedLSR {P : Surroundings}
    (hlog : ∀ message, (P.log message).length ≤ extBuffSize) :
    Ends (fun _ => False) (processUpdatedLSR P dev) Good := by
  have hread : Good (readLsr P dev).2 := h.congr rfl rfl rfl h.wf.read
  refine (hread.logIf hlog _ _ .dataLost).bind fun _ h₁ => ?_
  refine (h₁.logIf hlog _ _ .parityError).bind fun _ h₂ => ?_
  refine (h₂.logIf hlog _ _ .framingError).bind fun _ h₃ => ?_
  refine (h₃.logIf hlog _ _ .gotBreak).bind fun _ h₄ => ?_
  exact h₄.logIf hlog _ _ .impendingError

/-- Reading received bytes, at most as many as asked for, keeps the device good. -/
theorem Good.readAvailable (P : Surroundings) (n : ℕ) :
    Good (readAvailable P n dev).2 ∧ (readAvailable P n dev).1.length ≤ n := by
  induction n generalizing dev with
  | zero => exact ⟨h, Nat.le_refl 0⟩
  | succ n ih =>
      rw [Serial.readAvailable]
      simp only
      split
      · exact ⟨h.congr rfl rfl rfl h.wf.read, Nat.zero_le _⟩
      · obtain ⟨hgood, hlength⟩ :=
          ih (show Good { (readLsr P dev).2 with received := (readLsr P dev).2.received.tail } from
            h.congr rfl rfl rfl h.wf.read)
        exact ⟨hgood, Nat.succ_le_succ hlength⟩

/-- Warning about received bytes that are discarded keeps the device good. -/
theorem Good.warnIfFull {P : Surroundings} (hlog : ∀ message, (P.log message).length ≤ extBuffSize)
    (ok : Bool) : Ends (fun _ => False) (warnIfFull P ok dev) Good := by
  have hcount : Good { dev with counter := dev.counter + 1 } := h.congr rfl rfl rfl h.wf.read
  unfold Serial.warnIfFull
  split
  · exact h
  · simp only
    split
    · exact hcount.log hlog _
    · exact hcount

/-- **Received bytes** are put into the read buffer and sent back. -/
theorem Good.processAvailableData {P : Surroundings}
    (hlog : ∀ message, (P.log message).length ≤ extBuffSize) :
    Ends (fun _ => False) (processAvailableData P dev) Good := by
  obtain ⟨hread, hlength⟩ := h.readAvailable P dev.internalBufferSize
  unfold Serial.processAvailableData
  generalize Serial.readAvailable P dev.internalBufferSize dev = r at hread hlength
  obtain ⟨bytes, dev₁⟩ := r
  have hsize := h.size_le
  have htemp : strlen (bytes ++ List.replicate (15 - bytes.length) 0) ≤ extBuffSize := by
    refine (List.takeWhile_prefix _).length_le.trans ?_
    rw [List.length_append, List.length_replicate]
    simp only at hlength
    simp only [extBuffSize]
    omega
  have hpush : Ends (fun _ => False)
      (pushBackReadBuffer dev₁ (bytes ++ List.replicate (15 - bytes.length) 0))
      fun r => Good r.2 := by
    obtain ⟨buff, hpush, hbuff, -⟩ := pushBackReadBuffer_spec hread.wf _
    rw [hpush]
    exact hread.congr rfl rfl rfl hbuff
  refine hpush.bind fun r hr => ?_
  refine (hr.warnIfFull hlog r.1).bind fun dev₂ h₂ => ?_
  exact (h₂.pushBackWriteBuffer P (by simpa using htemp)).bind fun _ hr => hr

/-- **The services** of an interrupt, whatever it identifies, keep the device good. -/
theorem Good.service {P : Surroundings} (hlog : ∀ message, (P.log message).length ≤ extBuffSize)
    (iir : UInt8) : Ends (fun _ => False) (service P iir dev) Good := by
  unfold Serial.service
  split
  · exact h
  · exact h
  · exact h.processTHRE
  · exact h.processAvailableData hlog
  · exact h.processUpdatedLSR hlog
  · exact h.processAvailableData hlog
  · exact h.log hlog _

/-- **An interrupt** of the device, with any number of services, leaves it good if it
returns. -/
theorem Good.interrupt {P : Surroundings} (hlog : ∀ message, (P.log message).length ≤ extBuffSize)
    (n : ℕ) : Ends (fun _ => False) (handleDeviceInterrupt P n dev)
      fun r => ∀ dev' ∈ r, Good dev' := by
  induction n generalizing dev with
  | zero => simp [handleDeviceInterrupt]
  | succ n ih =>
      have hread : Good { dev with reads := dev.reads + 1 } := h.congr rfl rfl rfl h.wf.read
      refine (hread.service hlog _).bind fun dev₁ h₁ => ?_
      split
      · simpa using h₁
      · exact ih h₁

end Good

/-! ### Whole runs -/

/-- **Every orderly step** returns, and keeps THRE set while bytes are queued. -/
theorem Good.step {P : Surroundings} {s : System} (h : Good s.device) {a : Step}
    (horderly : Orderly P s a) :
    Ends (fun _ => False) (Serial.step P s a) fun r => ∀ s' ∈ r, Good s'.device := by
  cases a with
  | call str =>
      show ∀ s' ∈ enter s str, Good s'.device
      unfold enter
      split
      · simp
      · simpa using h
      · split <;> simpa using h
  | locked =>
      show Ends _ (finish P s) _
      unfold finish
      split
      · simp
      · rename_i str shouldTrigger hpending
        refine (h.pushBackLocked P (horderly str shouldTrigger hpending)).bind fun r hr => ?_
        simpa using hr
  | interrupt n =>
      refine (h.interrupt horderly n).bind fun r hr => ?_
      cases r with
      | none => simp
      | some dev => simpa using hr dev rfl
  | arrive bytes =>
      have harrive : Good { s.device with received := s.device.received ++ bytes } :=
        h.congr rfl rfl rfl h.wf.read
      simpa [Serial.step] using harrive

/-- **The serial output never stalls** in a run whose steps are orderly: in every state, if
bytes are queued, the bit THRE of the Interrupt Enable Register is set. -/
theorem output_never_stalls (P : Surroundings) (is16550A : Bool) (as : List Step) (s : System)
    (h : Runs (fun s a s' => Orderly P s a ∧ step P s a = .ok (some s'))
      ⟨.start is16550A, none⟩ as s) :
    s.device.externalWriteBuff.getDataSize ≠ 0 → s.device.ier &&& ierThre ≠ 0 := by
  have hgood : (fun s : System => Good s.device) s :=
    h.invariant (I := fun s : System => Good s.device) (good_start is16550A)
      fun t a u ht hstep => (ht.step hstep.1).value hstep.2 u rfl
  intro hne
  exact hgood.live (mt (contents_eq_nil_iff _).mp hne)

/-- A call that sends a string and is not interrupted is a run of its two steps. -/
theorem runs_call {P : Surroundings} {R : System → Step → Prop} {dev dev' : Device}
    {str : List UInt8} {ok : Bool} (hstr : strlen str ≠ 0)
    (hpush : pushBackLocked P dev str (shouldTriggerTHRE dev) = .ok (ok, dev'))
    (hcall : R ⟨dev, none⟩ (.call (some str)))
    (hlocked : R ⟨dev, some (str, shouldTriggerTHRE dev)⟩ .locked) :
    Runs (fun s a s' => R s a ∧ step P s a = .ok (some s')) ⟨dev, none⟩ [.call (some str), .locked]
      ⟨dev', none⟩ := by
  have hfirst : step P ⟨dev, none⟩ (.call (some str)) =
      .ok (some ⟨dev, some (str, shouldTriggerTHRE dev)⟩) := by
    simp [step, enter, hstr]
  have hsecond : step P ⟨dev, some (str, shouldTriggerTHRE dev)⟩ .locked =
      .ok (some ⟨dev', none⟩) := by
    simp [step, finish, hpush, bind, Except.bind, pure, Except.pure]
  exact .snoc (.snoc .nil ⟨hcall, hfirst⟩) ⟨hlocked, hsecond⟩

/-- The string "Hi" is sent by a call that is not interrupted. -/
theorem output_never_stalls_hi : ∃ s : System,
    Runs (fun s a s' => Orderly quiet s a ∧ step quiet s a = .ok (some s')) ⟨.start true, none⟩
      [.call (some [72, 105, 0]), .locked] s ∧
    s.device.queued = [72, 105] ∧ s.device.ier &&& ierThre ≠ 0 := by
  obtain ⟨buff, ier, sent, hpush, hbuff, -, hcontents, -⟩ :=
    pushBackLocked_fits (wf_start true) quiet true
      (show (Device.start true).queued.length + (text [72, 105, 0]).length ≤ extBuffSize by decide)
  have hqueued : contents buff = [72, 105] := by
    rw [if_neg (by decide)] at hcontents
    rw [hcontents]
    rfl
  have horderly : Orderly quiet ⟨.start true, some ([72, 105, 0], shouldTriggerTHRE (.start true))⟩
      .locked := by
    rintro str shouldTrigger hpending -
    obtain ⟨rfl, rfl⟩ : [72, 105, 0] = str ∧ shouldTriggerTHRE (.start true) = shouldTrigger := by
      simpa using hpending
    decide
  have hruns := runs_call (R := Orderly quiet) (show strlen [72, 105, 0] ≠ 0 by decide) hpush
    trivial
    horderly
  refine ⟨_, hruns, hqueued, output_never_stalls quiet true _ _ hruns ?_⟩
  exact mt (contents_eq_nil_iff buff).mpr (by simp [hqueued])

/-- **The port stalls** behind a string of more bytes than the buffer has: 1024 of them are
queued, and THRE is not set. -/
theorem long_string_stalls : ∃ s : System,
    Runs (fun s a s' => True ∧ step quiet s a = .ok (some s')) ⟨.start true, none⟩
      [.call (some (List.replicate 1025 65 ++ [0])), .locked] s ∧
    s.pending = none ∧ s.device.externalWriteBuff.getDataSize = 1024 ∧
    s.device.ier &&& ierThre = 0 := by
  have htext : text (List.replicate 1025 65 ++ [0]) = List.replicate 1025 65 := by
    decide +kernel
  have hlength : (text (List.replicate 1025 65 ++ [0])).length = 1025 := by
    rw [htext, List.length_replicate]
  obtain ⟨buff, hpush, hbuff, hcontents⟩ := pushBackLocked_full (wf_start true) quiet true
    (hlength.symm ▸ (by decide : extBuffSize < (Device.start true).queued.length + 1025))
  have hstr : strlen (List.replicate 1025 65 ++ [0]) ≠ 0 := by
    rw [strlen, hlength]
    decide
  refine ⟨_, runs_call (R := fun _ _ => True) hstr hpush trivial trivial, rfl, ?_, ?_⟩
  · show buff.getDataSize = 1024
    rw [← length_contents, hcontents, List.length_append, List.length_take, hlength]
    decide
  · show (0b00001101 : UInt8) &&& ierThre = 0
    decide

end MugOS.Serial
