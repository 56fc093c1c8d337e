import Mathlib.Data.List.TakeWhile
import MugOS.Lib.Run
import MugOS.SerialSpec

/-!
# Bytes through the Serial Port

Bytes that the device receives in batches, and calls of `Serial_receiveByte` that take them out
of the read buffer. Between the two stand functions for strings: a batch goes into the read
buffer up to its first zero byte, and the byte zero is sent as a string without characters.

## Main results

* `Line.Inv.step`: the read buffer holds the texts of the batches, less the bytes that were popped.
* `transparent_iff`: the bytes come through unless one of them is zero; a byte that is sent is
  enqueued unless it is zero.
-/

namespace MugOS.Serial

/-! ### Runs -/

/-- The device, with the bytes that have arrived and the bytes that have been popped from the read
buffer. -/
structure Line where
  device : Device
  arrived : List UInt8
  popped : List UInt8

/-- What happens at the serial port: bytes arrive, or a function of the driver is called. -/
inductive Event
  /-- bytes are received, and `processAvailableData` is called for them -/
  | batch (bytes : List UInt8)
  /-- `Serial_receiveByte(device)` -/
  | receive
  /-- `Serial_sendString(device, str)` -/
  | send (str : List UInt8)
  /-- the interrupt of an empty transmitter -/
  | transmit

/-- `Serial_receiveByte(device)`: a byte is popped if there is one. -/
def Line.receiveByte (s : Line) : Except Fault Line := do
  let (b, dev) ← popFrontReadBuffer s.device
  return { s with
    device := dev
    popped := if s.device.externalReadBuff.getDataSize = 0 then s.popped else s.popped ++ [b] }

/-- An event happens at the serial port, and what has arrived or was popped is recorded. -/
def Line.step (P : Surroundings) (s : Line) : Event → Except Fault Line
  | .batch bytes => do
      let dev ← processAvailableData P { s.device with received := s.device.received ++ bytes }
      return { s with device := dev, arrived := s.arrived ++ bytes }
  | .receive => s.receiveByte
  | .send str => do
      let (_, dev) ← pushBackWriteBuffer P s.device (some str)
      return { s with device := dev }
  | .transmit => do
      let dev ← processTHRE s.device
      return { s with device := dev }

/-- A batch is not larger than the internal buffer, and the read buffer has room for it. -/
def Line.Admits (s : Line) : Event → Prop
  | .batch bytes => bytes.length ≤ s.device.internalBufferSize ∧
      s.device.externalReadBuff.getDataSize + bytes.length ≤ extBuffSize
  | _ => True

/-- `n` calls of `Serial_receiveByte`. -/
def Line.receiveBytes : ℕ → Line → Except Fault Line
  | 0, s => .ok s
  | n + 1, s => do
      let s ← s.receiveByte
      receiveBytes n s

/-- **The bytes come through**: those that were popped are the first of those that arrived, and they
are all of them after enough calls. -/
def Line.Transparent (s : Line) : Prop :=
  s.popped <+: s.arrived ∧ ∃ n t, s.receiveBytes n = .ok t ∧ t.popped = s.arrived

/-- **A byte is enqueued** by a call of `Serial_sendByte` that returns true: it is the last of those
that wait or have been sent already. -/
def Enqueues (P : Surroundings) (dev : Device) (b : UInt8) : Prop :=
  ∀ dev', sendByteInternal P dev b = .ok (true, dev') →
    dev'.sent ++ dev'.queued = dev.sent ++ dev.queued ++ [b]

/-! ### Single functions -/

/-- The text of a string is not changed by zeros behind it. -/
theorem text_append_zeros (str : List UInt8) (n : ℕ) :
    text (str ++ List.replicate n 0) = text str := by
  induction str with
  | nil =>
      cases n with
      | zero => rfl
      | succ n => simp [text, List.replicate_succ]
  | cons c str ih =>
      simp only [text] at ih
      simp only [text, List.cons_append, List.takeWhile_cons, ih]

/-- No byte of a text is zero, as the zeros are what is left out of it. -/
theorem zero_not_mem_text (str : List UInt8) : 0 ∉ text str := by
  intro hzero
  simpa using List.mem_takeWhile_imp hzero

/-- A string is its own text if no byte of it is zero. -/
theorem text_eq_self {str : List UInt8} (hzero : 0 ∉ str) : text str = str := by
  rw [text, List.takeWhile_eq_self_iff]
  intro c hc
  simpa using fun heq : c = 0 => hzero (heq ▸ hc)

/-- The bit Data Ready of the line status is clear if and only if no byte is waiting. -/
theorem readLsr_dr (P : Surroundings) (dev : Device) :
    (readLsr P dev).1 &&& lsrDr = 0 ↔ dev.received = [] := by
  have hbits : ∀ v : UInt8, ∀ b : Bool,
      ((v &&& ~~~lsrDr) ||| (if b then 0 else lsrDr)) &&& lsrDr = 0 ↔ b = true := by
    decide +kernel
  have hthis := hbits (P.lsr dev.reads) (decide (dev.received = []))
  simp only [decide_eq_true_eq] at hthis
  exact hthis

/-- Reading up to `n` bytes reads all that are waiting, if these are at most `n`. -/
theorem readAvailable_spec (P : Surroundings) (n : ℕ) {dev : Device}
    (hn : dev.received.length ≤ n) :
    ∃ reads, readAvailable P n dev =
      (dev.received, { dev with received := [], reads := reads }) := by
  induction n generalizing dev with
  | zero =>
      have hnil : dev.received = [] := List.length_eq_zero_iff.mp (Nat.le_zero.mp hn)
      refine ⟨dev.reads, ?_⟩
      rw [readAvailable, hnil]
      simp only [← hnil]
  | succ n ih =>
      rw [readAvailable]
      by_cases hnil : dev.received = []
      · refine ⟨dev.reads + 1, ?_⟩
        simp only [(readLsr_dr P dev).mpr hnil, if_true, hnil]
        simp only [readLsr, ← hnil]
      · obtain ⟨b, bs, hreceived⟩ := List.exists_cons_of_ne_nil hnil
        have hlength : bs.length ≤ n := by
          rw [hreceived, List.length_cons] at hn
          omega
        obtain ⟨reads, hrest⟩ := ih (show List.length
          (Device.received { dev with received := bs, reads := dev.reads + 1 }) ≤ n from hlength)
        refine ⟨reads, ?_⟩
        have hdr := mt (readLsr_dr P dev).mp hnil
        simp only [if_neg hdr]
        simp only [readLsr, hreceived, List.tail_cons, List.headD_cons, hrest]

/-- What a function leaves that does not deal with received bytes. -/
structure Reads (dev dev' : Device) : Prop where
  wf : Wf dev'
  buffer : dev'.externalReadBuff = dev.externalReadBuff
  received : dev'.received = dev.received
  size : dev'.internalBufferSize = dev.internalBufferSize

section Wf

variable {dev : Device} (h : Wf dev)

include h

/-- A string that is sent does not matter to the bytes received. -/
theorem pushBackWriteBuffer_reads (P : Surroundings) (str : List UInt8) :
    ∃ ok dev', pushBackWriteBuffer P dev (some str) = .ok (ok, dev') ∧ Reads dev dev' := by
  by_cases hzero : strlen str = 0
  · exact ⟨true, dev, by rw [pushBackWriteBuffer, if_pos hzero], h, rfl, rfl, rfl⟩
  · simp only [pushBackWriteBuffer, if_neg hzero]
    by_cases hfits : dev.queued.length + (text str).length ≤ extBuffSize
    · obtain ⟨buff, ier, sent, hpush, hbuff, -⟩ :=
        pushBackLocked_fits h P (shouldTriggerTHRE dev) hfits
      exact ⟨true, _, hpush, ⟨hbuff, h.read⟩, rfl, rfl, rfl⟩
    · obtain ⟨buff, hpush, hbuff, -⟩ :=
        pushBackLocked_full h P (shouldTriggerTHRE dev) (Nat.lt_of_not_le hfits)
      exact ⟨false, _, hpush, ⟨hbuff, h.read⟩, rfl, rfl, rfl⟩

/-- Sending bytes from the write buffer changes nothing of what has been received and read. -/
theorem processTHRE_reads : ∃ dev', processTHRE dev = .ok dev' ∧ Reads dev dev' := by
  obtain ⟨buff, ier, hthre, hbuff, -⟩ := processTHRE_spec h
  exact ⟨_, hthre, ⟨hbuff, h.read⟩, rfl, rfl, rfl⟩

/-- **A batch** goes into the read buffer up to its first zero byte. -/
theorem processAvailableData_spec (P : Surroundings)
    (hlength : dev.received.length ≤ dev.internalBufferSize)
    (hroom : (contents dev.externalReadBuff).length + dev.received.length ≤ extBuffSize) :
    ∃ dev', processAvailableData P dev = .ok dev' ∧ Wf dev' ∧
      contents dev'.externalReadBuff = contents dev.externalReadBuff ++ text dev.received ∧
      dev'.received = [] ∧ dev'.internalBufferSize = dev.internalBufferSize := by
  obtain ⟨reads, hread⟩ := readAvailable_spec P dev.internalBufferSize hlength
  set temp := dev.received ++ List.replicate (15 - dev.received.length) 0 with htemp
  have htext : text temp = text dev.received := text_append_zeros _ _
  have hle : (text dev.received).length ≤ dev.received.length :=
    (List.takeWhile_prefix _).length_le
  obtain ⟨buff, hpush, hbuff, hcontents⟩ := pushBackReadBuffer_spec
    (show Wf { dev with received := [], reads := reads } from ⟨h.write, h.read⟩) temp
  rw [htext] at hpush hcontents
  simp only at hpush hcontents
  rw [decide_eq_true (by omega)] at hpush
  rw [List.take_of_length_le (by omega)] at hcontents
  obtain ⟨ok, dev', hwrite, hreads⟩ := pushBackWriteBuffer_reads
    (show Wf { dev with externalReadBuff := buff, received := [], reads := reads } from
      ⟨h.write, hbuff⟩) P temp
  refine ⟨dev', ?_, hreads.wf, ?_, hreads.received, hreads.size⟩
  · rw [processAvailableData, hread]
    simp only [← htemp, hpush, bind, Except.bind, warnIfFull, if_true, hwrite]
    rfl
  · rw [hreads.buffer]
    exact hcontents

/-- **The byte zero** is a string without characters; another one is enqueued. -/
theorem enqueues_iff (P : Surroundings) (b : UInt8) : Enqueues P dev b ↔ b ≠ 0 := by
  constructor
  · rintro henqueues rfl
    have hnothing := henqueues dev rfl
    simpa using congrArg List.length hnothing
  · intro hb dev' hsend
    have htext : text [b, 0] = [b] := by simp [text, hb]
    have hstrlen : strlen [b, 0] ≠ 0 := by simp [strlen, htext]
    rw [sendByteInternal, pushBackWriteBuffer, if_neg hstrlen] at hsend
    by_cases hfits : dev.queued.length + (text [b, 0]).length ≤ extBuffSize
    · obtain ⟨buff, ier, sent, hpush, -, hsent, -⟩ :=
        pushBackLocked_fits h P (shouldTriggerTHRE dev) hfits
      obtain ⟨-, rfl⟩ := Prod.mk.inj (Except.ok.inj (hpush.symm.trans hsend))
      rw [htext] at hsent
      exact hsent
    · obtain ⟨buff, hpush, -⟩ :=
        pushBackLocked_full h P (shouldTriggerTHRE dev) (Nat.lt_of_not_le hfits)
      rw [hpush] at hsend
      cases hsend

end Wf

/-! ### Whole runs -/

/-- The texts of batches, each up to its first zero, one after the other. -/
def texts (batches : List (List UInt8)) : List UInt8 := (batches.map text).flatten

/-- What the line keeps: the read buffer holds the texts of the batches that have arrived, less the
bytes that were popped. -/
structure Line.Inv (s : Line) : Prop where
  wf : Wf s.device
  read : s.device.received = []
  passed : ∃ batches, batches.flatten = s.arrived ∧
    s.popped ++ contents s.device.externalReadBuff = texts batches

/-- A call of `Serial_receiveByte` takes the oldest byte, if any, out of the read buffer and
keeps the invariant. -/
theorem Line.Inv.receiveByte {s : Line} (h : s.Inv) :
    ∃ t, s.receiveByte = .ok t ∧ t.Inv ∧ t.arrived = s.arrived ∧
      contents t.device.externalReadBuff = (contents s.device.externalReadBuff).tail ∧
      t.popped ++ contents t.device.externalReadBuff =
        s.popped ++ contents s.device.externalReadBuff := by
  obtain ⟨buff, hpop, hbuff, hcontents⟩ := popFrontReadBuffer_spec h.wf
  have hsame : (if s.device.externalReadBuff.getDataSize = 0 then s.popped
      else s.popped ++ [(contents s.device.externalReadBuff).headD 0]) ++ contents buff =
      s.popped ++ contents s.device.externalReadBuff := by
    rw [hcontents]
    by_cases hzero : s.device.externalReadBuff.getDataSize = 0
    · rw [if_pos hzero, (contents_eq_nil_iff _).mpr hzero, List.tail_nil]
    · obtain ⟨b, bs, hcons⟩ :=
        List.exists_cons_of_ne_nil (mt (contents_eq_nil_iff _).mp hzero)
      rw [if_neg hzero, hcons, List.headD_cons, List.tail_cons, List.append_assoc]
      rfl
  refine ⟨⟨{ s.device with externalReadBuff := buff }, s.arrived, _⟩, ?_,
    ⟨⟨h.wf.write, hbuff⟩, h.read, ?_⟩, rfl, hcontents, hsame⟩
  · rw [Line.receiveByte, hpop]
    rfl
  · obtain ⟨batches, harrived, hpassed⟩ := h.passed
    exact ⟨batches, harrived, hsame.trans hpassed⟩

/-- **Every event** that the line admits returns and keeps the invariant. -/
theorem Line.Inv.step {s : Line} (h : s.Inv) (P : Surroundings) {e : Event} (hadmits : s.Admits e) :
    ∃ t, s.step P e = .ok t ∧ t.Inv := by
  obtain ⟨batches, harrived, hpassed⟩ := h.passed
  cases e with
  | batch bytes =>
      obtain ⟨hlength, hroom⟩ := hadmits
      rw [← length_contents] at hroom
      have hreceived : s.device.received ++ bytes = bytes := by rw [h.read, List.nil_append]
      obtain ⟨dev, hdata, hwf, hcontents, hread, -⟩ := processAvailableData_spec
        (show Wf { s.device with received := bytes } from ⟨h.wf.write, h.wf.read⟩) P hlength hroom
      refine ⟨⟨dev, s.arrived ++ bytes, s.popped⟩, ?_, hwf, hread, batches ++ [bytes], ?_, ?_⟩
      · rw [Line.step, hreceived, hdata]
        rfl
      · simp [harrived]
      · simp only at hcontents
        simp only [texts] at hpassed
        simp only [texts, List.map_append, List.flatten_append, hcontents, ← List.append_assoc,
          hpassed]
        simp
  | receive =>
      obtain ⟨t, hreceive, hinv, -⟩ := h.receiveByte
      exact ⟨t, hreceive, hinv⟩
  | send str =>
      obtain ⟨ok, dev, hsend, hreads⟩ := pushBackWriteBuffer_reads h.wf P str
      refine ⟨⟨dev, s.arrived, s.popped⟩, ?_, hreads.wf, hreads.received.trans h.read, batches,
        harrived, hreads.buffer ▸ hpassed⟩
      rw [Line.step, hsend]
      rfl
  | transmit =>
      obtain ⟨dev, hthre, hreads⟩ := processTHRE_reads h.wf
      refine ⟨⟨dev, s.arrived, s.popped⟩, ?_, hreads.wf, hreads.received.trans h.read, batches,
        harrived, hreads.buffer ▸ hpassed⟩
      rw [Line.step, hthre]
      rfl

/-- Enough calls of `Serial_receiveByte` take everything out of the read buffer. -/
theorem Line.Inv.receiveBytes {s : Line} (h : s.Inv) (n : ℕ) :
    ∃ t, s.receiveBytes n = .ok t ∧
      contents t.device.externalReadBuff = (contents s.device.externalReadBuff).drop n ∧
      t.popped ++ contents t.device.externalReadBuff =
        s.popped ++ contents s.device.externalReadBuff := by
  induction n generalizing s with
  | zero => exact ⟨s, rfl, rfl, rfl⟩
  | succ n ih =>
      obtain ⟨u, hreceive, hinv, -, htail, hsame⟩ := h.receiveByte
      obtain ⟨t, hrest, hdrop, hsame'⟩ := ih hinv
      refine ⟨t, ?_, ?_, hsame'.trans hsame⟩
      · rw [Line.receiveBytes, hreceive]
        exact hrest
      · rw [hdrop, htail, List.drop_tail]

/-- No byte of the texts of batches is zero, as none of a single text is. -/
theorem zero_not_mem_texts (batches : List (List UInt8)) : 0 ∉ texts batches := by
  simp [texts, zero_not_mem_text]

/-- Batches are their own texts if no byte of them is zero. -/
theorem texts_eq_flatten {batches : List (List UInt8)} (hzero : 0 ∉ batches.flatten) :
    texts batches = batches.flatten := by
  have hsame : ∀ batch ∈ batches, text batch = batch :=
    fun batch hbatch => text_eq_self fun h => hzero (List.mem_flatten.mpr ⟨batch, hbatch, h⟩)
  rw [texts, List.map_congr_left hsame, List.map_id']

/-- **The bytes come through** unless one of them is zero, since no zero gets into the read
buffer. -/
theorem Line.Inv.comesThrough_iff {s : Line} (h : s.Inv) : s.Transparent ↔ 0 ∉ s.arrived := by
  obtain ⟨batches, harrived, hpassed⟩ := h.passed
  constructor
  · rintro ⟨-, n, t, hreceive, hpopped⟩ hzero
    obtain ⟨t', hreceive', -, hsame⟩ := h.receiveBytes n
    obtain rfl := Except.ok.inj (hreceive'.symm.trans hreceive)
    apply zero_not_mem_texts batches
    rw [← hpassed, ← hsame, hpopped]
    exact List.mem_append_left _ hzero
  · intro hzero
    have hall : s.popped ++ contents s.device.externalReadBuff = s.arrived := by
      rw [hpassed, texts_eq_flatten (harrived ▸ hzero), harrived]
    obtain ⟨t, hreceive, hdrop, hsame⟩ :=
      h.receiveBytes (contents s.device.externalReadBuff).length
    rw [List.drop_length] at hdrop
    refine ⟨⟨_, hall⟩, _, t, hreceive, ?_⟩
    rw [hdrop, List.append_nil] at hsame
    exact hsame.trans hall

/-- Every run of events that the line admits, from its start, has the invariant at its end. -/
theorem Line.Inv.of_runs {P : Surroundings} {is16550A : Bool} {es : List Event} {s : Line}
    (h : Runs (fun s e t => s.Admits e ∧ s.step P e = .ok t) ⟨.start is16550A, [], []⟩ es s) :
    s.Inv := by
  have hstart : Line.Inv ⟨.start is16550A, [], []⟩ := ⟨wf_start is16550A, rfl, [], rfl, rfl⟩
  apply h.invariant hstart
  intro t e u ht hstep
  obtain ⟨u', hstep', hu⟩ := ht.step P hstep.1
  obtain rfl := Except.ok.inj (hstep'.symm.trans hstep.2)
  exact hu

/-- **The serial port is transparent to bytes other than zero.** In every run whose batches fit
into the internal buffer and into the read buffer, the bytes popped are the first of those that
arrived and in the end all of them if and only if no byte that arrived is zero. A byte that is
sent with success is enqueued if and only if it is not zero. No event of such a run fails. -/
theorem transparent_iff (P : Surroundings) (is16550A : Bool) (es : List Event) (s : Line)
    (h : Runs (fun s e t => s.Admits e ∧ s.step P e = .ok t) ⟨.start is16550A, [], []⟩ es s) :
    (s.Transparent ↔ 0 ∉ s.arrived) ∧ (∀ b, Enqueues P s.device b ↔ b ≠ 0) ∧
      ∀ e, s.Admits e → ∃ t, s.step P e = .ok t := by
  have hinv := Line.Inv.of_runs h
  refine ⟨hinv.comesThrough_iff, fun b => enqueues_iff hinv.wf P b, ?_⟩
  intro e hadmits
  obtain ⟨t, hstep, -⟩ := hinv.step P hadmits
  exact ⟨t, hstep⟩

/-- A batch that arrives first, of at most fourteen bytes, is a run of one event. -/
theorem runs_batch {bytes : List UInt8} (hlength : bytes.length ≤ 14) : ∃ s : Line,
    Runs (fun s e t => s.Admits e ∧ s.step quiet e = .ok t) ⟨.start true, [], []⟩ [.batch bytes] s ∧
      s.arrived = bytes := by
  have hroom : bytes.length ≤ extBuffSize := hlength.trans (by decide)
  have hempty : contents (Device.start true).externalReadBuff = [] := rfl
  have hwf := wf_start true
  obtain ⟨dev, hdata, -⟩ := processAvailableData_spec
    (show Wf { Device.start true with received := bytes } from ⟨hwf.write, hwf.read⟩) quiet hlength
    (show (contents (Device.start true).externalReadBuff).length + bytes.length ≤ extBuffSize by
      rwa [hempty, List.length_nil, Nat.zero_add])
  refine ⟨⟨dev, bytes, []⟩, .snoc .nil ⟨⟨hlength, ?_⟩, ?_⟩, rfl⟩
  · rw [← length_contents, hempty, List.length_nil, Nat.zero_add]
    exact hroom
  · show (do
      let dev ← processAvailableData quiet { Device.start true with received := bytes }
      return (⟨dev, bytes, []⟩ : Line)) = .ok ⟨dev, bytes, []⟩
    rw [hdata]
    rfl

/-- The bytes of "Hi" arrive in one batch and come through, and the letters can be sent. -/
theorem transparent_iff_hi : ∃ s : Line,
    Runs (fun s e t => s.Admits e ∧ s.step quiet e = .ok t) ⟨.start true, [], []⟩
      [.batch [72, 105]] s ∧ s.Transparent ∧ Enqueues quiet s.device 72 := by
  obtain ⟨s, hruns, harrived⟩ := runs_batch (show [72, 105].length ≤ 14 by decide)
  obtain ⟨htransparent, henqueues, -⟩ := transparent_iff quiet true _ s hruns
  refine ⟨s, hruns, htransparent.mpr ?_, (henqueues 72).mpr (by decide)⟩
  rw [harrived]
  decide

/-- **Bytes are lost** from a zero byte on, and the byte zero is not sent. -/
theorem zero_byte_lost : ∃ s : Line,
    Runs (fun s e t => s.Admits e ∧ s.step quiet e = .ok t) ⟨.start true, [], []⟩
      [.batch [65, 0, 66]] s ∧ s.arrived = [65, 0, 66] ∧ ¬ s.Transparent ∧
      sendByteInternal quiet s.device 0 = .ok (true, s.device) ∧ ¬ Enqueues quiet s.device 0 := by
  obtain ⟨s, hruns, harrived⟩ := runs_batch (show [65, 0, 66].length ≤ 14 by decide)
  have hinv := Line.Inv.of_runs hruns
  refine ⟨s, hruns, harrived, ?_, rfl, ?_⟩
  · rw [hinv.comesThrough_iff, harrived]
    decide
  · rw [enqueues_iff hinv.wf]
    decide

end MugOS.Serial
