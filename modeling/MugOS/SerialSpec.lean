import Mathlib.Data.FinEnum
import MugOS.Serial

/-!
# What the Serial Driver's Functions Do

The ring buffers as queues of bytes, and one lemma for each function of the driver: it returns, and
says which bytes are queued and sent, and what becomes of the bit THRE.

## Main results

* `pushString_spec`: as much of a string is queued as there is room for.
* `processTHRE_spec`, `pushBackLocked_spec`: the write buffer.
* `readAvailable_spec`, `pushBackReadBuffer_spec`, `popFrontReadBuffer_spec`: the read buffer.
-/

namespace MugOS.Serial

/-! ### Ring buffers of bytes -/

/-- A byte that is put into an element of a ring buffer is found there as it was. -/
theorem toByte_ofByte (b : UInt8) : toByte (ofByte b) = b := by
  have hlt := b.toNat_lt
  have hint : (ofByte b).toInt = b.toNat := by
    rw [ofByte, Int32.toInt_ofInt_of_le (by omega) (by omega)]
  rw [toByte, hint]
  apply UInt8.toNat_inj.mp
  rw [UInt8.toNat_ofNat']
  omega

/-- The bytes in a ring buffer, the oldest first. -/
def contents (buff : Ringbuffer) : List UInt8 := buff.queue.map toByte

/-- The contents of a ring buffer are as many bytes as its counter says. -/
theorem length_contents (buff : Ringbuffer) : (contents buff).length = buff.getDataSize := by
  rw [contents, List.length_map]
  exact Circular.length_window _ _ _ _

/-- The contents of a ring buffer are empty if and only if its counter is zero. -/
theorem contents_eq_nil_iff (buff : Ringbuffer) : contents buff = [] ↔ buff.getDataSize = 0 := by
  rw [← length_contents, List.length_eq_zero_iff]

section Ringbuffer

variable {n : ℕ} {buff : Ringbuffer} (h : Ringbuffer.Inv n buff)

include h

/-- The contents of a ring buffer are no more bytes than it has cells. -/
theorem length_contents_le : (contents buff).length ≤ n := by
  rw [length_contents]
  exact h.count_le

/-- A byte is put into a ring buffer, if there is room. -/
theorem pushBack_spec (b : UInt8) :
    ∃ buff', buff.pushBack (ofByte b) = .ok (decide ((contents buff).length < n), buff') ∧
      Ringbuffer.Inv n buff' ∧
      contents buff' =
        if (contents buff).length < n then contents buff ++ [b] else contents buff := by
  have hlength := length_contents buff
  have hcount := h.count_le
  rw [Ringbuffer.getDataSize] at hlength
  by_cases hfull : buff.isBufferFull = true
  · have hn := h.full_iff.mp hfull
    refine ⟨buff, ?_, h, ?_⟩
    · rw [Ringbuffer.pushBack, if_pos hfull, decide_eq_false (by omega)]
    · rw [if_neg (by omega)]
  · have hroom : buff.inReadBuffer < n := by
      have := mt h.full_iff.mpr hfull
      omega
    obtain ⟨buff', hpush, h', hqueue⟩ := h.pushBackLocked hroom (ofByte b)
    refine ⟨buff', ?_, h', ?_⟩
    · rw [Ringbuffer.pushBack, if_neg hfull, hpush, decide_eq_true (by omega)]
      rfl
    · rw [if_pos (by omega), contents, hqueue, List.map_append, List.map_singleton, toByte_ofByte]
      rfl

/-- A pop takes the oldest byte out of a ring buffer that is not empty, and leaves the
others. -/
theorem pop_spec (hne : contents buff ≠ []) :
    ∃ x buff', buff.pop (some 0) = .ok ((true, some x), buff') ∧ Ringbuffer.Inv n buff' ∧
      contents buff = toByte x :: contents buff' := by
  have hpos : buff.inReadBuffer ≠ 0 := mt (contents_eq_nil_iff buff).mpr hne
  obtain ⟨x, buff', hpop, h', hqueue⟩ := h.popLocked hpos
  refine ⟨x, buff', ?_, h', ?_⟩
  · rw [Ringbuffer.pop, if_neg (by simp), if_neg hpos, hpop]
    rfl
  · rw [contents, hqueue, List.map_cons]
    rfl

end Ringbuffer

/-- **A string is put into a ring buffer**, as much of it as there is room for. -/
theorem pushString_spec (str : List UInt8) {n : ℕ} {buff : Ringbuffer} (h : Ringbuffer.Inv n buff) :
    ∃ buff', pushString str buff =
        .ok (decide ((contents buff).length + (text str).length ≤ n), buff') ∧
      Ringbuffer.Inv n buff' ∧
      contents buff' = contents buff ++ (text str).take (n - (contents buff).length) := by
  induction str generalizing buff with
  | nil =>
      refine ⟨buff, ?_, h, by simp [text]⟩
      rw [pushString, decide_eq_true (by simpa [text] using length_contents_le h)]
  | cons c str ih =>
      by_cases hc : c = 0
      · refine ⟨buff, ?_, h, by simp [text, hc]⟩
        rw [pushString, if_pos hc, decide_eq_true (by simpa [text, hc] using length_contents_le h)]
      · obtain ⟨buff₁, hpush, h₁, hcontents⟩ := pushBack_spec h c
        have htext : text (c :: str) = c :: text str := by simp [text, hc]
        rw [pushString, if_neg hc, hpush, htext]
        by_cases hroom : (contents buff).length < n
        · rw [if_pos hroom] at hcontents
          obtain ⟨buff₂, hrest, h₂, hcontents₂⟩ := ih h₁
          refine ⟨buff₂, ?_, h₂, ?_⟩
          · simp only [hroom, decide_true, bind, Except.bind, if_true, hrest, hcontents]
            congr 2
            simp only [List.length_append, List.length_cons, List.length_nil, decide_eq_decide]
            omega
          · have hn : n - (contents buff).length = n - (contents buff₁).length + 1 := by
              rw [hcontents, List.length_append, List.length_singleton]
              omega
            rw [hcontents₂, hn, List.take_succ_cons, hcontents, List.append_assoc]
            rfl
        · rw [if_neg hroom] at hcontents
          refine ⟨buff₁, ?_, h₁, ?_⟩
          · simp only [hroom, decide_false, bind, Except.bind]
            rw [decide_eq_false (by simp only [List.length_cons]; omega)]
            rfl
          · rw [hcontents, Nat.sub_eq_zero_of_le (by omega), List.take_zero, List.append_nil]

/-! ### The write buffer -/

/-- The ring buffers of a device are those of `Serial_init`. -/
structure Wf (dev : Device) : Prop where
  write : Ringbuffer.Inv extBuffSize dev.externalWriteBuff
  read : Ringbuffer.Inv extBuffSize dev.externalReadBuff

/-- Both ring buffers of the device at the start are well-formed. -/
theorem wf_start (is16550A : Bool) : Wf (.start is16550A) := by
  have hbuff : Ringbuffer.Inv extBuffSize ⟨extBuffSize, 0, 0, List.replicate extBuffSize 0⟩ :=
    ⟨rfl, by simp, by simp, by norm_num [extBuffSize], by simp, by simp⟩
  exact ⟨hbuff, hbuff⟩

/-- The bytes that wait in the write buffer to be sent. -/
def Device.queued (dev : Device) : List UInt8 := contents dev.externalWriteBuff

/-- The transmitter is empty when the Line Status Register is read next. -/
def transmitterEmpty (P : Surroundings) (dev : Device) : Prop := P.lsr dev.reads &&& lsrTemt ≠ 0

instance (P : Surroundings) (dev : Device) : Decidable (transmitterEmpty P dev) :=
  inferInstanceAs (Decidable (_ ≠ _))

/-- The bit TEMT of the line status is set if and only if the transmitter is empty. -/
theorem readLsr_temt (P : Surroundings) (dev : Device) :
    (readLsr P dev).1 &&& lsrTemt ≠ 0 ↔ transmitterEmpty P dev := by
  have hbits : ∀ v : UInt8, ∀ b : Bool,
      ((v &&& ~~~lsrDr) ||| (if b then 0 else lsrDr)) &&& lsrTemt = v &&& lsrTemt := by
    decide +kernel
  have hthis := hbits (P.lsr dev.reads) (decide (dev.received = []))
  simp only [decide_eq_true_eq] at hthis
  rw [readLsr, hthis, transmitterEmpty]

section Wf

variable {dev : Device} (h : Wf dev)

include h

/-- A byte is taken out of the write buffer; if it was the last one, THRE is cleared. -/
theorem popFrontWriteBuffer_spec (hne : dev.queued ≠ []) :
    ∃ b buff ier, popFrontWriteBuffer dev =
        .ok (b, { dev with externalWriteBuff := buff, ier := ier }) ∧
      Ringbuffer.Inv extBuffSize buff ∧ dev.queued = b :: contents buff ∧
      (contents buff ≠ [] → ier = dev.ier) := by
  obtain ⟨x, buff, hpop, hbuff, hcontents⟩ := pop_spec h.write hne
  rw [popFrontWriteBuffer, hpop]
  by_cases hzero : buff.getDataSize = 0
  · refine ⟨toByte x, buff, dev.ier &&& ~~~ierThre, ?_, hbuff, hcontents, ?_⟩
    · simp only [bind, Except.bind, hzero, if_true, Option.getD_some]
      rfl
    · intro hbuff'
      exact absurd ((contents_eq_nil_iff buff).mpr hzero) hbuff'
  · refine ⟨toByte x, buff, dev.ier, ?_, hbuff, hcontents, fun _ => rfl⟩
    simp only [bind, Except.bind, hzero, if_false, Option.getD_some]
    rfl

/-- Sending bytes, up to a number, takes them out of the write buffer and gives them to the
device. -/
theorem sendBytes_spec (n : ℕ) :
    ∃ buff ier, sendBytes n dev = .ok { dev with
        externalWriteBuff := buff
        ier := ier
        sent := dev.sent ++ dev.queued.take n } ∧
      Ringbuffer.Inv extBuffSize buff ∧ contents buff = dev.queued.drop n ∧
      (contents buff ≠ [] → ier = dev.ier) := by
  induction n generalizing dev with
  | zero =>
      refine ⟨dev.externalWriteBuff, dev.ier, ?_, h.write, rfl, fun _ => rfl⟩
      rw [sendBytes, List.take_zero, List.append_nil]
  | succ n ih =>
      by_cases hne : dev.queued = []
      · refine ⟨dev.externalWriteBuff, dev.ier, ?_, h.write, ?_, fun _ => rfl⟩
        · have hzero := (contents_eq_nil_iff _).mp hne
          rw [sendBytes, if_neg (by omega), hne, List.take_nil, List.append_nil]
        · rw [hne, List.drop_nil]
          exact hne
      · obtain ⟨b, buff, ier, hpop, hbuff, hcontents, hier⟩ := popFrontWriteBuffer_spec h hne
        have hpos := mt (contents_eq_nil_iff _).mpr hne
        obtain ⟨buff', ier', hsend, hbuff', hcontents', hier'⟩ :=
          ih (show Wf { dev with
            externalWriteBuff := buff, ier := ier, sent := dev.sent ++ [b] } from
            ⟨hbuff, h.read⟩)
        have hqueued : Device.queued { dev with
            externalWriteBuff := buff, ier := ier, sent := dev.sent ++ [b] } = contents buff := rfl
        rw [hqueued] at hsend hcontents'
        refine ⟨buff', ier', ?_, hbuff', ?_, ?_⟩
        · rw [sendBytes, if_pos (by omega), hpop]
          simp only [bind, Except.bind, hsend, hcontents, List.take_succ_cons, List.append_assoc,
            List.singleton_append]
        · rw [hcontents', hcontents, List.drop_succ_cons]
        · intro hne'
          have hbuff'' : contents buff ≠ [] := by
            intro hnil
            rw [hnil, List.drop_nil] at hcontents'
            exact hne' hcontents'
          rw [hier' hne', hier hbuff'']

/-- **The transmitter is empty**: as many bytes are sent as it takes, and THRE is left set if some
are left. -/
theorem processTHRE_spec :
    ∃ buff ier, processTHRE dev = .ok { dev with
        externalWriteBuff := buff
        ier := ier
        sent := dev.sent ++ dev.queued.take dev.internalBufferSize } ∧
      Ringbuffer.Inv extBuffSize buff ∧ contents buff = dev.queued.drop dev.internalBufferSize ∧
      (contents buff ≠ [] → ier = dev.ier) := by
  obtain ⟨buff, ier, hsend, hbuff, hcontents, hier⟩ := sendBytes_spec h dev.internalBufferSize
  rw [processTHRE, hsend]
  simp only [bind, Except.bind]
  by_cases hzero : buff.getDataSize = 0
  · have hnil := (contents_eq_nil_iff buff).mpr hzero
    rw [if_pos hzero]
    split
    · exact ⟨buff, _, rfl, hbuff, hcontents, fun hne => absurd hnil hne⟩
    · exact ⟨buff, ier, rfl, hbuff, hcontents, hier⟩
  · rw [if_neg hzero]
    exact ⟨buff, ier, rfl, hbuff, hcontents, hier⟩

/-- The end of `pushBackWriteBuffer`: bytes are sent if the transmitter is empty. -/
theorem sendIfEmpty_spec (P : Surroundings) :
    ∃ buff ier sent, sendIfEmpty P dev = .ok { dev with
        externalWriteBuff := buff
        ier := ier
        sent := sent
        reads := dev.reads + 1 } ∧
      Ringbuffer.Inv extBuffSize buff ∧ sent ++ contents buff = dev.sent ++ dev.queued ∧
      contents buff = (if transmitterEmpty P dev then dev.queued.drop dev.internalBufferSize
        else dev.queued) ∧
      (contents buff ≠ [] → ier = dev.ier) := by
  have hlsr := readLsr_temt P dev
  by_cases hempty : transmitterEmpty P dev
  · by_cases hqueued : dev.queued = []
    · refine ⟨dev.externalWriteBuff, dev.ier, dev.sent, ?_, h.write, rfl, ?_, fun _ => rfl⟩
      · have hzero : dev.externalWriteBuff.getDataSize = 0 := (contents_eq_nil_iff _).mp hqueued
        exact if_neg fun hsend => absurd hzero (Nat.ne_of_gt hsend.2)
      · rw [if_pos hempty, hqueued, List.drop_nil]
        exact hqueued
    · have hwf : Wf { dev with reads := dev.reads + 1 } := ⟨h.write, h.read⟩
      obtain ⟨buff, ier, hthre, hbuff, hcontents, hier⟩ := processTHRE_spec hwf
      have hpos := mt (contents_eq_nil_iff _).mpr hqueued
      refine ⟨buff, ier, dev.sent ++ dev.queued.take dev.internalBufferSize, ?_, hbuff, ?_, ?_,
        hier⟩
      · exact (if_pos ⟨hlsr.mpr hempty, Nat.pos_of_ne_zero hpos⟩).trans hthre
      · rw [hcontents, List.append_assoc]
        exact congrArg _ (List.take_append_drop _ _)
      · rw [if_pos hempty, hcontents]
        rfl
  · refine ⟨dev.externalWriteBuff, dev.ier, dev.sent, ?_, h.write, rfl, ?_, fun _ => rfl⟩
    · exact if_neg fun hsend => hempty (hlsr.mp hsend.1)
    · rw [if_neg hempty]
      rfl

/-- **A string is put into the write buffer**, there being room: THRE is set if that was decided
before, and as many bytes are sent as the transmitter takes, if it is empty. -/
theorem pushBackLocked_fits (P : Surroundings) {str : List UInt8} (shouldTrigger : Bool)
    (hfits : dev.queued.length + (text str).length ≤ extBuffSize) :
    ∃ buff ier sent, pushBackLocked P dev str shouldTrigger = .ok (true, { dev with
        externalWriteBuff := buff
        ier := ier
        sent := sent
        reads := dev.reads + 1 }) ∧
      Ringbuffer.Inv extBuffSize buff ∧ sent ++ contents buff = dev.sent ++ dev.queued ++ text str ∧
      contents buff = (if transmitterEmpty P dev then
        (dev.queued ++ text str).drop dev.internalBufferSize else dev.queued ++ text str) ∧
      (contents buff ≠ [] → ier = if shouldTrigger then dev.ier ||| ierThre else dev.ier) := by
  obtain ⟨buff, hpush, hbuff, hcontents⟩ := pushString_spec str h.write
  rw [show contents dev.externalWriteBuff = dev.queued from rfl, decide_eq_true hfits] at hpush
  have hall : contents buff = dev.queued ++ text str := by
    rw [hcontents]
    exact congrArg _ (List.take_of_length_le (Nat.le_sub_of_add_le' hfits))
  have hwf : Wf { dev with
      externalWriteBuff := buff
      ier := if shouldTrigger then dev.ier ||| ierThre else dev.ier } := ⟨hbuff, h.read⟩
  obtain ⟨buff', ier, sent, hsend, hbuff', hsent, hcontents', hier⟩ := sendIfEmpty_spec hwf P
  refine ⟨buff', ier, sent, ?_, hbuff', ?_, ?_, hier⟩
  · rw [pushBackLocked, hpush]
    simp only [bind, Except.bind, if_true, hsend]
    rfl
  · rw [hsent, List.append_assoc, ← hall]
    rfl
  · rw [hcontents', ← hall]
    rfl

/-- **A string for which there is no room**: the function returns early, with the buffer full. -/
theorem pushBackLocked_full (P : Surroundings) {str : List UInt8} (shouldTrigger : Bool)
    (hfull : extBuffSize < dev.queued.length + (text str).length) :
    ∃ buff, pushBackLocked P dev str shouldTrigger =
        .ok (false, { dev with externalWriteBuff := buff }) ∧
      Ringbuffer.Inv extBuffSize buff ∧
      contents buff = dev.queued ++ (text str).take (extBuffSize - dev.queued.length) := by
  obtain ⟨buff, hpush, hbuff, hcontents⟩ := pushString_spec str h.write
  rw [show contents dev.externalWriteBuff = dev.queued from rfl,
    decide_eq_false (Nat.not_le.mpr hfull)] at hpush
  refine ⟨buff, ?_, hbuff, hcontents⟩
  rw [pushBackLocked, hpush]
  rfl

/-! ### The read buffer -/

/-- **A string is put into the read buffer**, as much of it as there is room for. -/
theorem pushBackReadBuffer_spec (str : List UInt8) :
    ∃ buff, pushBackReadBuffer dev str =
        .ok (decide ((contents dev.externalReadBuff).length + (text str).length ≤ extBuffSize),
          { dev with externalReadBuff := buff }) ∧
      Ringbuffer.Inv extBuffSize buff ∧
      contents buff = contents dev.externalReadBuff ++
        (text str).take (extBuffSize - (contents dev.externalReadBuff).length) := by
  have hle := length_contents_le h.read
  by_cases hzero : strlen str = 0
  · have htext : text str = [] := List.length_eq_zero_iff.mp hzero
    refine ⟨dev.externalReadBuff, ?_, h.read, by rw [htext, List.take_nil, List.append_nil]⟩
    rw [pushBackReadBuffer, if_pos hzero, htext, decide_eq_true (by simpa using hle)]
    rfl
  · obtain ⟨buff, hpush, hbuff, hcontents⟩ := pushString_spec str h.read
    refine ⟨buff, ?_, hbuff, hcontents⟩
    rw [pushBackReadBuffer, if_neg hzero, hpush]
    rfl

/-- Taking a byte out of the read buffer returns its oldest one, or zero if there is none. -/
theorem popFrontReadBuffer_spec :
    ∃ buff, popFrontReadBuffer dev =
        .ok ((contents dev.externalReadBuff).headD 0, { dev with externalReadBuff := buff }) ∧
      Ringbuffer.Inv extBuffSize buff ∧ contents buff = (contents dev.externalReadBuff).tail := by
  by_cases hzero : dev.externalReadBuff.getDataSize = 0
  · have hnil := (contents_eq_nil_iff _).mpr hzero
    refine ⟨dev.externalReadBuff, ?_, h.read, by rw [hnil, List.tail_nil]⟩
    rw [popFrontReadBuffer, if_pos hzero, hnil]
    rfl
  · obtain ⟨x, buff, hpop, hbuff, hcontents⟩ :=
      pop_spec h.read (mt (contents_eq_nil_iff _).mp hzero)
    refine ⟨buff, ?_, hbuff, by rw [hcontents, List.tail_cons]⟩
    rw [popFrontReadBuffer, if_neg hzero, hpop, hcontents]
    rfl

end Wf

/-- A device that never interrupts, and whose transmitter is busy. -/
def quiet : Surroundings := ⟨fun _ => 0, fun _ => 1, fun _ => []⟩

end MugOS.Serial
