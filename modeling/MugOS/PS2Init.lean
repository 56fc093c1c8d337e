import MugOS.Lib.Hoare
import MugOS.MemoryFunctions
import MugOS.PS2Mouse

/-!
# Finding the Keyboard and the Mouse

The initialisation of `Kernel/Drivers/Input/PS2.c`: the driver sends commands to the two devices,
and reads their answers from a buffer that interrupts fill.

The first part is the buffer, with interrupts at any time. The second part is the exchange of
commands and answers. There, the way to the devices and back is a parameter: what a write to a
device returns, and which byte the buffer offers, or that it stays empty until the wait for it
ends.

Messages, and the typematic byte's meaning, are left out.

## Main results

* `responses_fifo`: the buffer is a queue that drops what arrives while it is full.
* `init_ready`: what is known of the devices that are enabled.
* `mouse_never_reset`: the initialisation of the mouse resets the keyboard.
-/

namespace MugOS.PS2.Init

/-! ### The response buffer -/

/-- `RESPONSE_BUFFER_SIZE`. -/
abbrev responseBufferSize : ℕ := 5

/-- `m_responseBuffer`, by the offsets of its bytes, and `m_inBuffer`. -/
structure Responses where
  responseBuffer : Bytes
  inBuffer : ℕ

/-- `pushResponseBuffer(value)`: puts a byte behind those in the buffer, and drops it if the
buffer is full. -/
def pushResponseBuffer (value : UInt8) (s : Responses) : Responses :=
  if s.inBuffer = responseBufferSize then s
  else ⟨Function.update s.responseBuffer s.inBuffer value, s.inBuffer + 1⟩

/-- `receiveByte(byte_out)` after the wait: nothing if the buffer stayed empty. -/
def receiveByte (s : Responses) : Option UInt8 × Responses :=
  if s.inBuffer < 1 then (none, s)
  else (some (s.responseBuffer 0),
    ⟨memmove s.responseBuffer 0 1 (responseBufferSize - 1), s.inBuffer - 1⟩)

/-- What happens to the buffer: an interrupt with a byte, or a byte that is asked for. -/
inductive Op
  | irq (value : UInt8)
  | receive
  deriving DecidableEq, Repr

/-- The bytes that are received, and the buffer at the end. -/
def runOps : List Op → Responses → List UInt8 × Responses
  | [], s => ([], s)
  | .irq value :: ops, s => runOps ops (pushResponseBuffer value s)
  | .receive :: ops, s =>
      let r := receiveByte s
      let rest := runOps ops r.2
      (r.1.toList ++ rest.1, rest.2)

/-- The bytes in the buffer, in the order in which they arrived. -/
def Responses.contents (s : Responses) : List UInt8 := (List.range s.inBuffer).map s.responseBuffer

/-- The bytes that arrive while there is room, where `n` bytes are waiting at first. -/
def accepted : List Op → ℕ → List UInt8
  | [], _ => []
  | .irq value :: ops, n =>
      if n = responseBufferSize then accepted ops n else value :: accepted ops (n + 1)
  | .receive :: ops, n => accepted ops (n - 1)

/-- The move of the buffer down by one puts every byte into the place of the one before it. -/
theorem memmove_down (buffer : Bytes) {i : ℕ} (hi : i < responseBufferSize - 1) :
    memmove buffer 0 1 (responseBufferSize - 1) i = buffer (i + 1) := by
  have hcopy : Copying.copyEach (fun i => wadd 0 i) (fun i => wadd 1 i) buffer
      (List.range (responseBufferSize - 1)) (0 + i) = buffer (1 + i) :=
    copyEach_range buffer (by norm_num) (by norm_num) (fun i => List.mem_range)
      (List.pairwise_lt_range.imp fun hlt => ⟨by omega, by omega⟩) hi
  rw [memmove, if_pos (by norm_num)]
  simpa [Nat.add_comm] using hcopy

/-- A byte that arrives where there is room is put behind the contents of the buffer. -/
theorem contents_push {s : Responses} (value : UInt8) (hroom : s.inBuffer ≠ responseBufferSize) :
    (pushResponseBuffer value s).contents = s.contents ++ [value] := by
  rw [pushResponseBuffer, if_neg hroom]
  simp only [Responses.contents, List.range_succ, List.map_append, List.map_cons, List.map_nil,
    Function.update_self]
  congr 1
  refine List.map_congr_left fun i hi => Function.update_of_ne ?_ _ _
  exact (List.mem_range.mp hi).ne

/-- A byte that is received is the first one of the contents, and those that are left are the
rest. -/
theorem contents_receive {s : Responses} (hsize : s.inBuffer ≤ responseBufferSize)
    (hsome : ¬ s.inBuffer < 1) :
    s.contents = s.responseBuffer 0 :: (receiveByte s).2.contents := by
  obtain ⟨n, hn⟩ : ∃ n, s.inBuffer = n + 1 := ⟨s.inBuffer - 1, by omega⟩
  simp only [receiveByte, Responses.contents, hn, List.range_succ_eq_map,
    List.map_cons, List.map_map, Nat.add_sub_cancel]
  congr 1
  refine List.map_congr_left fun i hi => ?_
  have hlt := List.mem_range.mp hi
  exact (memmove_down _ (by simp only [responseBufferSize] at hsize ⊢; omega)).symm

/-- **The buffer is a queue.** Whatever bytes arrive and are asked for, in whatever order, the bytes
that are received, and after them those that still wait, are the bytes that arrived while fewer than
five were waiting; there are never more than five. -/
theorem responses_fifo (ops : List Op) (buffer : Bytes) :
    (runOps ops ⟨buffer, 0⟩).1 ++ (runOps ops ⟨buffer, 0⟩).2.contents = accepted ops 0 ∧
      (runOps ops ⟨buffer, 0⟩).2.inBuffer ≤ responseBufferSize := by
  suffices h : ∀ s : Responses, s.inBuffer ≤ responseBufferSize →
      (runOps ops s).1 ++ (runOps ops s).2.contents = s.contents ++ accepted ops s.inBuffer ∧
        (runOps ops s).2.inBuffer ≤ responseBufferSize by
    exact h ⟨buffer, 0⟩ (Nat.zero_le _)
  induction ops with
  | nil => exact fun s hs => ⟨by simp [runOps, accepted], hs⟩
  | cons op ops ih =>
      intro s hs
      cases op with
      | irq value =>
          by_cases hfull : s.inBuffer = responseBufferSize
          · have hdrop : pushResponseBuffer value s = s := by rw [pushResponseBuffer, if_pos hfull]
            simp only [runOps, hdrop, accepted, if_pos hfull]
            exact ih s hs
          · have hone : (pushResponseBuffer value s).inBuffer = s.inBuffer + 1 := by
              rw [pushResponseBuffer, if_neg hfull]
            obtain ⟨hqueue, hsize⟩ := ih (pushResponseBuffer value s) (by rw [hone]; omega)
            refine ⟨?_, hsize⟩
            simp only [runOps, accepted, if_neg hfull]
            rw [hqueue, contents_push value hfull, hone, List.append_assoc, List.singleton_append]
      | receive =>
          by_cases hempty : s.inBuffer < 1
          · have hnone : receiveByte s = (none, s) := by rw [receiveByte, if_pos hempty]
            have hzero : s.inBuffer - 1 = s.inBuffer := by omega
            simp only [runOps, hnone, accepted, hzero]
            exact ih s hs
          · have hone : (receiveByte s).2.inBuffer = s.inBuffer - 1 := by
              rw [receiveByte, if_neg hempty]
            have hbyte : (receiveByte s).1 = some (s.responseBuffer 0) := by
              rw [receiveByte, if_neg hempty]
            obtain ⟨hqueue, hsize⟩ := ih (receiveByte s).2 (by rw [hone]; omega)
            refine ⟨?_, hsize⟩
            simp only [runOps, hbyte, accepted]
            rw [Option.toList_some, List.append_assoc, hqueue, hone, contents_receive hs hempty,
              List.singleton_append, List.cons_append]

/-! ### The devices -/

/-- `PS2_RES_ACK`. -/
abbrev resAck : UInt8 := 0xfa

/-- `PS2_RES_RESEND`. -/
abbrev resResend : UInt8 := 0xfe

/-- `PS2_RES_SELFTEST_PASSED`. -/
abbrev resSelftestPassed : UInt8 := 0xaa

/-- `PS2_CMD_RESET`. -/
abbrev cmdReset : UInt8 := 0xff

/-- `PS2_CMD_IDENTIFY`. -/
abbrev cmdIdentify : UInt8 := 0xf2

/-- `PS2_CMD_ENABLE_SCANNING`. -/
abbrev cmdEnableScanning : UInt8 := 0xf4

/-- `PS2_CMD_DISABLE_SCANNING`. -/
abbrev cmdDisableScanning : UInt8 := 0xf5

/-- `PS2_KB_CMD_SET_SCANCODE_SET`. -/
abbrev kbCmdSetScancodeSet : UInt8 := 0xf0

/-- `PS2_KB_SCANCODE_SET2`. -/
abbrev kbScancodeSet2 : UInt8 := 0x02

/-- `PS2_KB_CMD_SET_DELAY_AND_RATE`. -/
abbrev kbCmdSetDelayAndRate : UInt8 := 0xf3

/-- `PS2_KB_CMD_SET_LED`. -/
abbrev kbCmdSetLed : UInt8 := 0xed

/-- `PS2_KB_LED_NUMLOCK`. -/
abbrev kbLedNumlock : UInt8 := 0b00000010

/-- `PS2_MOUSE_CMD_SET_SAMPLERATE`. -/
abbrev mouseCmdSetSamplerate : UInt8 := 0xf3

/-- `PS2_MOUSE_CMD_SET_RESOLUTION`. -/
abbrev mouseCmdSetResolution : UInt8 := 0xe8

/-- The way to the devices and back: bytes that are sent, and answers that are received. -/
structure Link (σ : Type) where
  /-- `PS2Controller_sendByteToDevice(device, byte)` -/
  send : ℕ → UInt8 → σ → Bool × σ
  /-- `receiveByte(byte_out)` -/
  receive : σ → Option UInt8 × σ
  /-- `PS2Controller_flush()` -/
  flush : σ → σ
  /-- `PS2Controller_enableDevicesIRQs()` -/
  enableDevicesIRQs : σ → σ

/-- A byte that was sent to a device, with the result, or an answer that was asked for. -/
inductive Event
  | sent (device : ℕ) (byte : UInt8) (success : Bool)
  | answer (byte : Option UInt8)
  deriving DecidableEq, Repr

/-- `struct PS2Keyboard`: what the driver knows of the keyboard. -/
structure Keyboard where
  enabled : Bool
  translated : Bool
  scancodeSet : UInt8
  name : Option String
  leds : UInt8
  deriving DecidableEq, Repr

/-- `struct PS2Mouse`: what the driver knows of the mouse. -/
structure Mouse where
  enabled : Bool
  type : UInt8
  name : Option String
  packetSize : UInt8
  deriving DecidableEq, Repr

/-- The functions that are installed as handlers. -/
inductive Handler
  | initIRQ
  | keyboardIRQ
  | mouseIRQ
  deriving DecidableEq, Repr

/-- The devices, the exchange so far with the last event first, and the variables of the driver. -/
structure World (σ : Type) where
  link : σ
  events : List Event
  enabled : Bool
  keyboard : Keyboard
  mouse : Mouse
  keyboardHandler : Option Handler
  mouseHandler : Option Handler

/-- What the functions of the driver are. -/
abbrev Routine (σ α : Type) := StateT (World σ) (Except Fault) α

variable {σ : Type} (L : Link σ)

/-- `PS2Controller_sendByteToDevice(device, byte)`. -/
def send (device : ℕ) (byte : UInt8) : Routine σ Bool := fun w =>
  let r := L.send device byte w.link
  .ok (r.1, { w with link := r.2, events := .sent device byte r.1 :: w.events })

/-- `receiveByte(byte_out)`. -/
def receive : Routine σ (Option UInt8) := fun w =>
  let r := L.receive w.link
  .ok (r.1, { w with link := r.2, events := .answer r.1 :: w.events })

/-- The loop of `sendByteToDeviceHandleResend`, with `n` rounds left and the last response. -/
def resendLoop (device : ℕ) (byte : UInt8) : ℕ → UInt8 → Routine σ UInt8
  | 0, response => pure response
  | n + 1, _ => do
      let success ← send L device byte
      if !success then pure resResend
      else do
        let response ← receive L
        if response.isNone then pure resResend
        else if response.getD 0 ≠ resResend then pure (response.getD 0)
        else resendLoop device byte n (response.getD 0)

/-- `sendByteToDeviceHandleResend(device, byte)`. -/
def sendByteToDeviceHandleResend (device : ℕ) (byte : UInt8) : Routine σ UInt8 :=
  resendLoop L device byte 3 0

/-- The `switch` of `getKeyboardName`: the name for the two bytes of an identification. -/
def keyboardName (byte1 byte2 : UInt8) : Option String :=
  if byte1 = 0xab then
    if byte2 = 0x41 then some "PS/2 MF2 keyboard"
    else if byte2 = 0x54 then some "PS/2 short keyboard"
    else if byte2 = 0x83 then some "PS/2 MF2 keyboard"
    else if byte2 = 0x84 then some "PS/2 short keyboard"
    else if byte2 = 0x85 then some "PS/2 NCD N-97 keyboard"
    else if byte2 = 0x86 then some "PS/2 122-key keyboard"
    else if byte2 = 0x90 then some "PS/2 Japanse 'G' keyboard"
    else if byte2 = 0x91 then some "PS/2 Japanse 'P' keyboard"
    else if byte2 = 0x92 then some "PS/2 Japanse 'A' keyboard"
    else if byte2 = 0xc1 then some "PS/2 MF2 keyboard"
    else none
  else if byte1 = 0xac then
    if byte2 = 0xa1 then some "PS/2 NCD Sun keyboard" else none
  else none

/-- `getKeyboardName()`. -/
def getKeyboardName : Routine σ (Option String) := do
  let buff ← sendByteToDeviceHandleResend L 1 cmdIdentify
  if buff ≠ resAck then pure none
  else do
    let byte1 ← receive L
    if byte1.isNone then pure (some "AT Keyboard")
    else do
      let byte2 ← receive L
      if byte2.isNone then pure none
      else pure (keyboardName (byte1.getD 0) (byte2.getD 0))

/-- `getMouseType()`. -/
def getMouseType : Routine σ UInt8 := do
  let buff ← sendByteToDeviceHandleResend L 2 cmdIdentify
  if buff ≠ resAck then pure 0xff
  else do
    let buff ← receive L
    pure (buff.getD 0xff)

/-- `resetDevice(device)`: sends a reset, and waits for its acknowledgement and the self
test. -/
def resetDevice (device : ℕ) : Routine σ Bool :=
  if ¬ (device = 1 ∨ device = 2) then fun _ => .error .assertion
  else do
    let buff ← sendByteToDeviceHandleResend L device cmdReset
    if buff ≠ resAck then pure false
    else do
      let buff ← receive L
      if buff.isNone ∨ buff.getD 0 ≠ resSelftestPassed then pure false
      else if device = 2 then do
        let _ ← receive L
        pure true
      else pure true

/-- Sets the record of the keyboard, and no other variable. -/
def setKeyboard (f : Keyboard → Keyboard) : Routine σ Unit :=
  modify fun w => { w with keyboard := f w.keyboard }

/-- Sets the record of the mouse, and no other variable. -/
def setMouse (f : Mouse → Mouse) : Routine σ Unit :=
  modify fun w => { w with mouse := f w.mouse }

/-- The last part of `PS2_initKeyboard`: the keyboard is enabled, its repeat rate and LEDs are
set. -/
def finishKeyboard : Routine σ Unit := do
  setKeyboard fun k => { k with enabled := true }
  let _ ← sendByteToDeviceHandleResend L 1 kbCmdSetDelayAndRate
  let _ ← sendByteToDeviceHandleResend L 1 (0b00000000 ||| 0b00010110)
  setKeyboard fun k => { k with leds := kbLedNumlock }
  let _ ← sendByteToDeviceHandleResend L 1 kbCmdSetLed
  let _ ← sendByteToDeviceHandleResend L 1 kbLedNumlock
  pure ()

/-- `PS2_initKeyboard(&m_PS2Keyboard)`. -/
def initKeyboard : Routine σ Unit := do
  setKeyboard fun k => { k with enabled := false }
  let reset ← resetDevice L 1
  if !reset then pure ()
  else do
    let _ ← sendByteToDeviceHandleResend L 1 cmdDisableScanning
    let buff1 ← sendByteToDeviceHandleResend L 1 kbCmdSetScancodeSet
    let buff2 ← sendByteToDeviceHandleResend L 1 kbScancodeSet2
    if buff1 ≠ resAck ∨ buff2 ≠ resAck then setKeyboard fun k => { k with enabled := false }
    else do
      setKeyboard fun k => { k with scancodeSet := if k.translated then 1 else 2 }
      let name ← getKeyboardName L
      setKeyboard fun k => { k with name := name }
      if name.isNone then pure () else finishKeyboard L

/-- A command with a parameter for the mouse, both sent whatever the answers are. -/
def mouseCommand (command parameter : UInt8) : Routine σ Unit := do
  let _ ← sendByteToDeviceHandleResend L 2 command
  let _ ← sendByteToDeviceHandleResend L 2 parameter
  pure ()

/-- `mouse->type = getMouseType()`. -/
def updateMouseType : Routine σ Unit := do
  let type ← getMouseType L
  setMouse fun m => { m with type := type }

/-- The last part of `PS2_initMouse`: the name and the size of the packets. -/
def nameMouse : Routine σ Unit := do
  let w ← get
  if w.mouse.type = Mouse.typeStd then
    setMouse fun m =>
      { m with name := some "Standard PS/2 mouse", packetSize := 3, enabled := true }
  else if w.mouse.type = Mouse.typeWheel then
    setMouse fun m =>
      { m with name := some "PS/2 mouse with scroll wheel", packetSize := 4, enabled := true }
  else if w.mouse.type = Mouse.type5Buttons then
    setMouse fun m =>
      { m with name := some "PS/2 5-button mouse", packetSize := 4, enabled := true }
  else pure ()

/-- `PS2_initMouse(&m_PS2Mouse)`. -/
def initMouse : Routine σ Unit := do
  setMouse fun m => { m with enabled := false }
  -- The device that is reset is number 1, the keyboard.
  let reset ← resetDevice L 1
  if !reset then pure ()
  else do
    updateMouseType L
    let w ← get
    if w.mouse.type = 0xff then pure ()
    else do
      mouseCommand L mouseCmdSetSamplerate 200
      mouseCommand L mouseCmdSetSamplerate 100
      mouseCommand L mouseCmdSetSamplerate 80
      updateMouseType L
      mouseCommand L mouseCmdSetSamplerate 200
      mouseCommand L mouseCmdSetSamplerate 200
      mouseCommand L mouseCmdSetSamplerate 80
      updateMouseType L
      mouseCommand L mouseCmdSetSamplerate 40
      mouseCommand L mouseCmdSetResolution 0x03
      nameMouse

/-- The end of `PS2_init` for the keyboard. -/
def installKeyboard : Routine σ Unit := do
  let w ← get
  if w.keyboard.enabled then do
    let _ ← sendByteToDeviceHandleResend L 1 cmdEnableScanning
    modify fun w => { w with keyboardHandler := some .keyboardIRQ }
  else modify fun w => { w with keyboardHandler := none }

/-- The end of `PS2_init` for the mouse. -/
def installMouse : Routine σ Unit := do
  let w ← get
  if w.mouse.enabled then do
    let _ ← sendByteToDeviceHandleResend L 2 cmdEnableScanning
    modify fun w => { w with mouseHandler := some .mouseIRQ }
  else modify fun w => { w with mouseHandler := none }

/-- `PS2_init()` after `PS2Controller_init()`, with what `PS2Controller_getStatus` returns. -/
def init (enabled port1 port2 translation : Bool) : Routine σ Unit := do
  setKeyboard fun k => { k with translated := translation }
  if !enabled then
    modify fun w => { w with
      enabled := false
      keyboard := { w.keyboard with enabled := false }
      mouse := { w.mouse with enabled := false } }
  else do
    modify fun w => { w with enabled := true }
    if port1 then let _ ← send L 1 cmdDisableScanning
    if port2 then let _ ← send L 2 cmdDisableScanning
    modify fun w => { w with
      link := L.enableDevicesIRQs (L.flush w.link)
      keyboardHandler := some .initIRQ
      mouseHandler := some .initIRQ }
    if port1 then initKeyboard L
    if port2 then initMouse L
    installKeyboard L
    installMouse L

/-! ### One exchange -/

/-- The records of the devices, and the handlers. -/
abbrev Variables := Keyboard × Mouse × Option Handler × Option Handler

/-- The variables of the driver: the two records and the two handlers. -/
def World.variables (w : World σ) : Variables :=
  (w.keyboard, w.mouse, w.keyboardHandler, w.mouseHandler)

/-- The variables have given values, given events have happened in their order, the last one first,
and the mouse was not reset. -/
structure Exchange (v : Variables) (l : List Event) (w : World σ) : Prop where
  vars : w.variables = v
  history : l.Sublist w.events
  kept : ∀ success, .sent 2 cmdReset success ∉ w.events

/-- What is known after an exchange with an event more is known of the shorter list too. -/
theorem Exchange.drop {v : Variables} {e : Event} {l : List Event} {w : World σ}
    (h : Exchange v (e :: l) w) : Exchange v l w :=
  ⟨h.vars, (List.sublist_cons_self e l).trans h.history, h.kept⟩

/-- Sending a byte, which is no reset of port 2, adds this event to the exchange and changes no
variable. -/
theorem send_spec {device : ℕ} {byte : UInt8} (hbyte : ¬ (device = 2 ∧ byte = cmdReset))
    (v : Variables) (l : List Event) : Ensures (fun _ => False) (Exchange v l) (send L device byte)
      fun success => Exchange v (.sent device byte success :: l) := by
  refine fun w hw => ⟨hw.vars, hw.history.cons_cons _, fun success hmem => ?_⟩
  rcases List.mem_cons.mp hmem with heq | hmem
  · injection heq with hdevice hreset
    exact hbyte ⟨hdevice.symm, hreset.symm⟩
  · exact hw.kept success hmem

/-- Asking for an answer adds this event to the exchange and changes no variable. -/
theorem receive_spec (v : Variables) (l : List Event) : Ensures (fun _ => False) (Exchange v l)
    (receive L) fun byte => Exchange v (.answer byte :: l) := by
  refine fun w hw => ⟨hw.vars, hw.history.cons_cons _, fun success hmem => ?_⟩
  rcases List.mem_cons.mp hmem with heq | hmem
  · cases heq
  · exact hw.kept success hmem

/-- The end of a command: it was sent at least once, and an answer other than "resend" is the answer
to the last time that it was sent. -/
structure Answered (v : Variables) (l : List Event) (device : ℕ) (byte response : UInt8)
    (w : World σ) : Prop where
  tried : ∃ success, Exchange v (.sent device byte success :: l) w
  answer : response ≠ resResend →
    Exchange v (.answer (some response) :: .sent device byte true :: l) w

/-- At the end of a command all that was known of the exchange before it is still known. -/
theorem Answered.before {v : Variables} {l : List Event} {device : ℕ} {byte response : UInt8}
    {w : World σ} (h : Answered v l device byte response w) : Exchange v l w :=
  h.tried.choose_spec.drop

/-- One round of the loop that sends a byte again; `f` is what follows an answer "resend". -/
theorem resendRound_spec {device : ℕ} {byte : UInt8} (hbyte : ¬ (device = 2 ∧ byte = cmdReset))
    (v : Variables) (l : List Event) {f : UInt8 → Routine σ UInt8}
    (hnext : Ensures (fun _ => False) (Exchange v (.sent device byte true :: l)) (f resResend)
      (Answered v l device byte)) :
    Ensures (fun _ => False) (Exchange v l)
      (do
        let success ← send L device byte
        if !success then pure resResend
        else do
          let response ← receive L
          if response.isNone then pure resResend
          else if response.getD 0 ≠ resResend then pure (response.getD 0)
          else f (response.getD 0))
      (Answered v l device byte) := by
  refine (send_spec L hbyte v l).bind fun success => Ensures.ite (fun _ => ?_) fun hsent => ?_
  · exact Ensures.pure fun w hw => ⟨⟨success, hw⟩, fun h => absurd rfl h⟩
  · obtain rfl : success = true := by simpa using hsent
    refine (receive_spec L v _).bind fun response => Ensures.ite (fun _ => ?_) fun hsome => ?_
    · exact Ensures.pure fun w hw => ⟨⟨true, hw.drop⟩, fun h => absurd rfl h⟩
    · obtain ⟨answer, rfl⟩ := Option.ne_none_iff_exists'.mp (by simpa using hsome)
      refine Ensures.ite (fun _ => ?_) fun hlast => ?_
      · exact Ensures.pure fun w hw => ⟨⟨true, hw.drop⟩, fun _ => hw⟩
      · rw [not_not.mp hlast]
        exact hnext.mono (fun w hw => hw.drop) fun _ _ hw => hw

/-- The loop that sends a byte again, up to its limit, ends with the byte answered or given
up. -/
theorem resendLoop_spec {device : ℕ} {byte : UInt8} (hbyte : ¬ (device = 2 ∧ byte = cmdReset))
    (v : Variables) (l : List Event) : ∀ n response,
      Ensures (fun _ => False) (Exchange v l) (resendLoop L device byte (n + 1) response)
        (Answered v l device byte) := by
  intro n
  induction n with
  | zero =>
      exact fun _ => resendRound_spec L hbyte v l (f := resendLoop L device byte 0)
        (Ensures.pure fun w hw => ⟨⟨true, hw⟩, fun h => absurd rfl h⟩)
  | succ n ih =>
      exact fun _ => resendRound_spec L hbyte v l (f := resendLoop L device byte (n + 1))
        ((ih resResend).mono (fun w hw => hw.drop) fun _ _ hw => hw)

/-- **A command** for a device is sent, and again if it asks for this, and ends with its
answer. -/
theorem command_spec {device : ℕ} {byte : UInt8} (hbyte : ¬ (device = 2 ∧ byte = cmdReset))
    (v : Variables) (l : List Event) : Ensures (fun _ => False) (Exchange v l)
      (sendByteToDeviceHandleResend L device byte) (Answered v l device byte) :=
  resendLoop_spec L hbyte v l 2 0

/-- A command whose answer does not matter keeps what is known of the exchange. -/
theorem command_keeps {device : ℕ} {byte : UInt8} (hbyte : ¬ (device = 2 ∧ byte = cmdReset))
    (v : Variables) (l : List Event) : Ensures (fun _ => False) (Exchange v l)
      (sendByteToDeviceHandleResend L device byte) fun _ => Exchange v l :=
  (command_spec L hbyte v l).mono (fun _ hw => hw) fun _ _ hw => hw.before

/-- Setting the record of the keyboard changes this record, and none of the other variables. -/
theorem setKeyboard_spec (f : Keyboard → Keyboard) (k : Keyboard) (m : Mouse)
    (h₁ h₂ : Option Handler) (l : List Event) :
    Ensures (fun _ => False) (Exchange (k, m, h₁, h₂) l) (setKeyboard f : Routine σ Unit)
      fun _ => Exchange (f k, m, h₁, h₂) l := by
  refine Ensures.modify fun w hw => ⟨?_, hw.history, hw.kept⟩
  have hv := hw.vars
  simp only [World.variables, Prod.mk.injEq] at hv ⊢
  exact ⟨congrArg f hv.1, hv.2⟩

/-- Another record of the mouse changes this record only, and not the exchange. -/
theorem Exchange.setMouse {k : Keyboard} {m : Mouse} {h₁ h₂ : Option Handler} {l : List Event}
    {w : World σ} (hw : Exchange (k, m, h₁, h₂) l w) (f : Mouse → Mouse) :
    Exchange (k, f m, h₁, h₂) l { w with mouse := f w.mouse } := by
  have hv := hw.vars
  simp only [World.variables, Prod.mk.injEq] at hv
  exact ⟨by simp only [World.variables, hv], hw.history, hw.kept⟩

/-- Setting the record of the mouse changes this record, and none of the other variables. -/
theorem setMouse_spec (f : Mouse → Mouse) (k : Keyboard) (m : Mouse) (h₁ h₂ : Option Handler)
    (l : List Event) :
    Ensures (fun _ => False) (Exchange (k, m, h₁, h₂) l) (setMouse f : Routine σ Unit)
      fun _ => Exchange (k, f m, h₁, h₂) l :=
  Ensures.modify fun _ hw => hw.setMouse f

/-! ### The keyboard -/

/-- The events of the reset of the keyboard, the last one first. -/
def resetEvents : List Event :=
  [.answer (some resSelftestPassed), .answer (some resAck), .sent 1 cmdReset true]

/-- The events of an identified keyboard with scancode set 2, the last one first. -/
def handshake : List Event :=
  [.answer (some resAck), .sent 1 cmdIdentify true, .answer (some resAck),
    .sent 1 kbScancodeSet2 true, .answer (some resAck), .sent 1 kbCmdSetScancodeSet true] ++
    resetEvents

/-- The reset of the keyboard: it is sent, and a successful one was acknowledged and passed. -/
theorem resetDevice_spec (v : Variables) (l : List Event) :
    Ensures (fun _ => False) (Exchange v l) (resetDevice L 1) fun reset w =>
      (∃ success, Exchange v (.sent 1 cmdReset success :: l) w) ∧
      (reset = true → Exchange v (resetEvents ++ l) w) := by
  refine Ensures.ite (fun hdevice => absurd (Or.inl rfl) hdevice) fun _ => ?_
  refine (command_spec L (by simp) v l).bind fun buff => Ensures.ite (fun _ => ?_) fun hack => ?_
  · exact Ensures.pure fun w hw => ⟨hw.tried, fun h => by cases h⟩
  · obtain rfl : buff = resAck := not_not.mp hack
    refine Ensures.mono (P := Exchange v (.answer (some resAck) :: .sent 1 cmdReset true :: l)) ?_
      (fun w hw => hw.answer (by decide)) fun _ _ hw => hw
    refine (receive_spec L v _).bind fun buff => Ensures.ite (fun _ => ?_) fun hpassed => ?_
    · exact Ensures.pure fun w hw => ⟨⟨true, hw.drop.drop⟩, fun h => by cases h⟩
    · obtain ⟨hsome, hvalue⟩ := not_or.mp hpassed
      obtain ⟨byte, rfl⟩ := Option.ne_none_iff_exists'.mp (by simpa using hsome)
      obtain rfl : byte = resSelftestPassed := not_not.mp hvalue
      refine Ensures.ite (fun hdevice => absurd hdevice (by decide)) fun _ => ?_
      exact Ensures.pure fun w hw => ⟨⟨true, hw.drop.drop⟩, fun _ => hw⟩

/-- The name of the keyboard: one that is found was asked for. -/
theorem getKeyboardName_spec (v : Variables) (l : List Event) :
    Ensures (fun _ => False) (Exchange v l) (getKeyboardName L) fun name w =>
      Exchange v l w ∧ (name.isNone = false →
        Exchange v (.answer (some resAck) :: .sent 1 cmdIdentify true :: l) w) := by
  refine (command_spec L (by simp) v l).bind fun buff => Ensures.ite (fun _ => ?_) fun hack => ?_
  · exact Ensures.pure fun w hw => ⟨hw.before, fun h => by cases h⟩
  · obtain rfl : buff = resAck := not_not.mp hack
    refine Ensures.mono
      (P := Exchange v (.answer (some resAck) :: .sent 1 cmdIdentify true :: l)) ?_
      (fun w hw => hw.answer (by decide)) fun _ _ hw => hw
    refine (receive_spec L v _).bind fun byte1 => Ensures.ite (fun _ => ?_) fun _ => ?_
    · exact Ensures.pure fun w hw => ⟨hw.drop.drop.drop, fun _ => hw.drop⟩
    · refine (receive_spec L v _).bind fun byte2 => Ensures.ite (fun _ => ?_) fun _ => ?_
      · exact Ensures.pure fun w hw => ⟨hw.drop.drop.drop.drop, fun h => by cases h⟩
      · exact Ensures.pure fun w hw => ⟨hw.drop.drop.drop.drop, fun _ => hw.drop.drop⟩

/-- What is known of a keyboard that is enabled, beside the exchange with it. -/
structure Keyboard.Ready (k : Keyboard) (translated : Bool) : Prop where
  scancodeSet : k.scancodeSet = if translated then 1 else 2
  name : k.name ≠ none
  leds : k.leds = kbLedNumlock

/-- What has happened with a keyboard: the handshake, if it is enabled. -/
def Keyboard.events (k : Keyboard) : List Event := if k.enabled then handshake else []

/-- The keyboard is as it was found, and it is enabled only after the exchange. -/
structure KeyboardFound (t : Bool) (m : Mouse) (h₁ h₂ : Option Handler) (w : World σ) : Prop where
  exchange : Exchange (w.keyboard, m, h₁, h₂) w.keyboard.events w
  translated : w.keyboard.translated = t
  ready : w.keyboard.enabled = true → w.keyboard.Ready t

/-- A keyboard that is not enabled is one that was not found, so nothing more is to be shown of
it. -/
theorem KeyboardFound.disabled {k : Keyboard} {m : Mouse} {h₁ h₂ : Option Handler} {l : List Event}
    {w : World σ} {t : Bool} (hw : Exchange (k, m, h₁, h₂) l w) (hk : k.enabled = false)
    (ht : k.translated = t) : KeyboardFound t m h₁ h₂ w := by
  have hkeyboard : w.keyboard = k := (Prod.mk.inj hw.vars).1
  subst hkeyboard
  have hnone : w.keyboard.events = [] := by rw [Keyboard.events, hk]; rfl
  exact ⟨⟨hw.vars, hnone ▸ List.nil_sublist _, hw.kept⟩, ht, fun h => by rw [hk] at h; cases h⟩

/-- The last part, after the exchange, enables the keyboard with the handler of its scancode
set. -/
theorem finishKeyboard_spec (k : Keyboard) (m : Mouse) (h₁ h₂ : Option Handler)
    (hset : k.scancodeSet = if k.translated then 1 else 2) (hname : k.name ≠ none) :
    Ensures (fun _ => False) (Exchange (k, m, h₁, h₂) handshake) (finishKeyboard L)
      fun _ => KeyboardFound k.translated m h₁ h₂ := by
  refine (setKeyboard_spec _ k m h₁ h₂ _).bind fun _ => ?_
  refine (command_keeps L (by simp) _ _).bind fun _ =>
    (command_keeps L (by simp) _ _).bind fun _ => ?_
  refine (setKeyboard_spec _ _ m h₁ h₂ _).bind fun _ => ?_
  refine (command_keeps L (by simp) _ _).bind fun _ =>
    (command_keeps L (by simp) _ _).bind fun _ => ?_
  refine Ensures.pure fun w hw => ?_
  have hkeyboard := (Prod.mk.inj hw.vars).1
  refine ⟨?_, ?_, fun _ => ⟨?_, ?_, ?_⟩⟩
  · rw [hkeyboard]
    exact hw
  · rw [hkeyboard]
  · rw [hkeyboard]
    exact hset
  · rw [hkeyboard]
    exact hname
  · rw [hkeyboard]

/-- **The keyboard** is enabled only after the whole exchange. -/
theorem initKeyboard_spec (k : Keyboard) (m : Mouse) (h₁ h₂ : Option Handler) :
    Ensures (fun _ => False) (Exchange (k, m, h₁, h₂) []) (initKeyboard L)
      fun _ => KeyboardFound k.translated m h₁ h₂ := by
  refine (setKeyboard_spec _ k m h₁ h₂ _).bind fun _ => ?_
  refine (resetDevice_spec L _ _).bind fun reset => Ensures.ite (fun _ => ?_) fun hreset => ?_
  · exact Ensures.pure fun w hw => KeyboardFound.disabled hw.1.choose_spec rfl rfl
  · obtain rfl : reset = true := by simpa using hreset
    refine Ensures.mono (P := Exchange _ resetEvents) ?_ (fun w hw => hw.2 rfl) fun _ _ hw => hw
    refine (command_keeps L (by simp) _ _).bind fun _ => (command_spec L (by simp) _ _).bind
      fun buff1 => ?_
    by_cases hack1 : buff1 = resAck
    · subst hack1
      refine Ensures.mono (P := Exchange _ (.answer (some resAck) ::
        .sent 1 kbCmdSetScancodeSet true :: resetEvents)) ?_ (fun w hw => hw.answer (by decide))
        fun _ _ hw => hw
      refine (command_spec L (by simp) _ _).bind fun buff2 =>
        Ensures.ite (fun _ => ?_) fun hack => ?_
      · exact (setKeyboard_spec _ _ m h₁ h₂ _).mono (fun w hw => hw.before)
          fun _ _ hw => KeyboardFound.disabled hw rfl rfl
      · obtain rfl : buff2 = resAck := not_not.mp (not_or.mp hack).2
        refine Ensures.mono (P := Exchange _ (.answer (some resAck) ::
          .sent 1 kbScancodeSet2 true :: .answer (some resAck) ::
            .sent 1 kbCmdSetScancodeSet true :: resetEvents)) ?_ (fun w hw => hw.answer (by decide))
          fun _ _ hw => hw
        refine (setKeyboard_spec _ _ m h₁ h₂ _).bind fun _ => ?_
        refine (getKeyboardName_spec L _ _).bind fun name => ?_
        cases name with
        | none =>
            refine Ensures.bind ((setKeyboard_spec _ _ m h₁ h₂ _).mono (fun w hw => hw.1)
              fun _ _ hw => hw) fun _ => ?_
            exact Ensures.pure fun w hw => KeyboardFound.disabled hw rfl rfl
        | some name =>
            refine Ensures.bind ((setKeyboard_spec _ _ m h₁ h₂ _).mono (fun w hw => hw.2 rfl)
              fun _ _ hw => hw) fun _ => ?_
            exact finishKeyboard_spec L _ m h₁ h₂ rfl (by simp)
    · refine Ensures.mono (P := Exchange _ resetEvents) ?_ (fun w hw => hw.before) fun _ _ hw => hw
      refine (command_keeps L (by simp) _ _).bind fun buff2 => ?_
      rw [if_pos (Or.inl hack1)]
      exact (setKeyboard_spec _ _ m h₁ h₂ _).mono (fun w hw => hw)
        fun _ _ hw => KeyboardFound.disabled hw rfl rfl

/-! ### The mouse -/

section Mouse

variable (k : Keyboard) (h₁ h₂ : Option Handler) (l : List Event)

/-- The mouse is not enabled yet, while commands are sent to find out its type. -/
structure MouseSought (w : World σ) : Prop where
  exchange : Exchange (k, w.mouse, h₁, h₂) l w
  disabled : w.mouse.enabled = false

/-- The mouse is as it was found, after a reset of the keyboard. -/
structure MouseFound (w : World σ) : Prop where
  exchange : ∃ success, Exchange (k, w.mouse, h₁, h₂) (.sent 1 cmdReset success :: l) w
  ready : w.mouse.enabled = true → Mouse.Recognised w.mouse.type w.mouse.packetSize

/-- An exchange that leaves the variables as they are. -/
theorem MouseSought.keep {α : Type} {m : Routine σ α}
    (h : ∀ v, Ensures (fun _ => False) (Exchange v l) m fun _ => Exchange v l) :
    Ensures (fun _ => False) (MouseSought k h₁ h₂ l) m fun _ => MouseSought k h₁ h₂ l := by
  refine fun w hw => (h _ w hw.exchange).mono fun r hr => ?_
  have hmouse : r.2.mouse = w.mouse := (Prod.mk.inj (Prod.mk.inj hr.vars).2).1
  exact ⟨by rw [hmouse]; exact hr, by rw [hmouse]; exact hw.disabled⟩

/-- A command with a parameter, neither of them a reset, keeps what is known of the mouse. -/
theorem mouseCommand_spec (command parameter : UInt8) (hcommand : command ≠ cmdReset)
    (hparameter : parameter ≠ cmdReset) : Ensures (fun _ => False) (MouseSought k h₁ h₂ l)
      (mouseCommand L command parameter) fun _ => MouseSought k h₁ h₂ l := by
  refine MouseSought.keep k h₁ h₂ l fun v => ?_
  refine (command_keeps L (fun h => hcommand h.2) v l).bind fun _ => ?_
  exact (command_keeps L (fun h => hparameter h.2) v l).bind fun _ => Ensures.pure fun _ hw => hw

/-- Asking for the type of the mouse, by two commands, keeps what is known of it. -/
theorem updateMouseType_spec : Ensures (fun _ => False) (MouseSought k h₁ h₂ l) (updateMouseType L)
    fun _ => MouseSought k h₁ h₂ l := by
  have htype : ∀ v, Ensures (fun _ => False) (Exchange v l) (getMouseType L)
      fun _ => Exchange v l := by
    intro v
    have hcommand : ¬ (2 = 2 ∧ cmdIdentify = cmdReset) := by decide
    refine (command_keeps L hcommand v l).bind fun buff => Ensures.ite (fun _ => ?_) fun _ => ?_
    · exact Ensures.pure fun _ hw => hw
    · exact (receive_spec L v l).bind fun buff => Ensures.pure fun w hw => hw.drop
  refine (MouseSought.keep k h₁ h₂ l htype).bind fun type w hw => ?_
  exact ⟨hw.exchange.setMouse fun m => { m with type := type }, hw.disabled⟩

/-- The end: a mouse that is enabled has one of the three types. -/
theorem nameMouse_spec : Ensures (fun _ => False) (MouseSought k h₁ h₂ l)
    (nameMouse : Routine σ Unit) fun _ w => Exchange (k, w.mouse, h₁, h₂) l w ∧
      (w.mouse.enabled = true → Mouse.Recognised w.mouse.type w.mouse.packetSize) := by
  refine Ensures.get.bind fun u => ?_
  rintro w ⟨rfl, hw⟩
  by_cases hstd : u.mouse.type = Mouse.typeStd
  · rw [if_pos hstd]
    exact ⟨hw.exchange.setMouse fun m => { m with
      name := some "Standard PS/2 mouse", packetSize := 3, enabled := true },
      fun _ => Or.inl ⟨hstd, rfl⟩⟩
  by_cases hwheel : u.mouse.type = Mouse.typeWheel
  · rw [if_neg hstd, if_pos hwheel]
    exact ⟨hw.exchange.setMouse fun m => { m with
      name := some "PS/2 mouse with scroll wheel", packetSize := 4, enabled := true },
      fun _ => Or.inr (Or.inl ⟨hwheel, rfl⟩)⟩
  by_cases h5Buttons : u.mouse.type = Mouse.type5Buttons
  · rw [if_neg hstd, if_neg hwheel, if_pos h5Buttons]
    exact ⟨hw.exchange.setMouse fun m => { m with
      name := some "PS/2 5-button mouse", packetSize := 4, enabled := true },
      fun _ => Or.inr (Or.inr ⟨h5Buttons, rfl⟩)⟩
  · rw [if_neg hstd, if_neg hwheel, if_neg h5Buttons]
    exact ⟨hw.exchange, fun h => by rw [hw.disabled] at h; cases h⟩

/-- **The mouse** is enabled only with a type that the decoder of the packets knows, and the
keyboard is reset. -/
theorem initMouse_spec (m : Mouse) : Ensures (fun _ => False) (Exchange (k, m, h₁, h₂) l)
    (initMouse L) fun _ => MouseFound k h₁ h₂ l := by
  refine (setMouse_spec _ k m h₁ h₂ l).bind fun _ => ?_
  refine (resetDevice_spec L _ _).bind fun reset => ?_
  rintro w ⟨⟨success, hsent⟩, -⟩
  have hmouse : w.mouse = { m with enabled := false } := (Prod.mk.inj (Prod.mk.inj hsent.vars).2).1
  have hsought : MouseSought k h₁ h₂ (.sent 1 cmdReset success :: l) w :=
    ⟨by rw [hmouse]; exact hsent, by rw [hmouse]⟩
  have hfound : ∀ u : World σ, MouseSought k h₁ h₂ (.sent 1 cmdReset success :: l) u →
      MouseFound k h₁ h₂ l u := fun u hu =>
    ⟨⟨success, hu.exchange⟩, fun h => by rw [hu.disabled] at h; cases h⟩
  have hcommand := fun command parameter hcommand hparameter =>
    mouseCommand_spec L k h₁ h₂ (.sent 1 cmdReset success :: l) command parameter hcommand
    hparameter
  have hupdate := updateMouseType_spec L k h₁ h₂ (.sent 1 cmdReset success :: l)
  suffices hrest : Ensures (fun _ => False)
      (MouseSought k h₁ h₂ (.sent 1 cmdReset success :: l)) (do
        updateMouseType L
        let w ← get
        if w.mouse.type = 0xff then pure ()
        else do
          mouseCommand L mouseCmdSetSamplerate 200
          mouseCommand L mouseCmdSetSamplerate 100
          mouseCommand L mouseCmdSetSamplerate 80
          updateMouseType L
          mouseCommand L mouseCmdSetSamplerate 200
          mouseCommand L mouseCmdSetSamplerate 200
          mouseCommand L mouseCmdSetSamplerate 80
          updateMouseType L
          mouseCommand L mouseCmdSetSamplerate 40
          mouseCommand L mouseCmdSetResolution 0x03
          nameMouse) fun _ => MouseFound k h₁ h₂ l by
    cases reset with
    | false => exact hfound w hsought
    | true => exact hrest w hsought
  refine hupdate.bind fun _ => Ensures.get.bind fun u => Ensures.ite (fun _ => ?_) fun _ => ?_
  · exact Ensures.pure fun w hw => hfound w hw.2
  · refine Ensures.mono (P := MouseSought k h₁ h₂ (.sent 1 cmdReset success :: l)) ?_
      (fun w hw => hw.2) fun _ _ hw => hw
    refine (hcommand _ _ (by decide) (by decide)).bind fun _ => ?_
    refine (hcommand _ _ (by decide) (by decide)).bind fun _ => ?_
    refine (hcommand _ _ (by decide) (by decide)).bind fun _ => hupdate.bind fun _ => ?_
    refine (hcommand _ _ (by decide) (by decide)).bind fun _ => ?_
    refine (hcommand _ _ (by decide) (by decide)).bind fun _ => ?_
    refine (hcommand _ _ (by decide) (by decide)).bind fun _ => hupdate.bind fun _ => ?_
    refine (hcommand _ _ (by decide) (by decide)).bind fun _ => ?_
    refine (hcommand _ _ (by decide) (by decide)).bind fun _ => ?_
    exact (nameMouse_spec k h₁ h₂ _).mono (fun _ hw => hw) fun _ w hw =>
      ⟨⟨success, hw.1⟩, hw.2⟩

end Mouse

/-! ### Both devices -/

/-- What is known after the devices were looked for. -/
structure Found (t port2 : Bool) (h₁ h₂ : Option Handler) (w : World σ) : Prop where
  exchange : Exchange (w.keyboard, w.mouse, h₁, h₂) w.keyboard.events w
  keyboard : w.keyboard.enabled = true → w.keyboard.Ready t
  mouse : w.mouse.enabled = true → Mouse.Recognised w.mouse.type w.mouse.packetSize
  reset : port2 = true → ∃ success, .sent 1 cmdReset success ∈ w.events

/-- Looking for the devices on the two ports ends with what is known of each of them. -/
theorem devices_spec (port1 port2 : Bool) {k : Keyboard} {m : Mouse} (h₁ h₂ : Option Handler)
    (hk : k.enabled = false) (hm : m.enabled = false) {γ : Type} {rest : Routine σ γ}
    {Q : γ → World σ → Prop}
    (hrest : Ensures (fun _ => False) (Found k.translated port2 h₁ h₂) rest Q) :
    Ensures (fun _ => False) (Exchange (k, m, h₁, h₂) [])
      (do
        if port1 then initKeyboard L
        if port2 then initMouse L
        rest) Q := by
  have hmouse : Ensures (fun _ => False) (KeyboardFound k.translated m h₁ h₂) (do
      if port2 then initMouse L
      rest) Q := by
    refine Ensures.ite (fun hport2 => ?_) fun hport2 => ?_
    · intro w hw
      have hfound := initMouse_spec L w.keyboard h₁ h₂ w.keyboard.events m w hw.exchange
      refine hfound.bind fun r hr => hrest r.2 ?_
      obtain ⟨success, hsent⟩ := hr.exchange
      have hkeyboard : r.2.keyboard = w.keyboard := (Prod.mk.inj hsent.vars).1
      refine ⟨by rw [hkeyboard]; exact hsent.drop, ?_, hr.ready, fun _ => ⟨success, ?_⟩⟩
      · rw [hkeyboard]
        exact hw.ready
      · exact hsent.history.subset List.mem_cons_self
    · refine hrest.mono (fun w hw => ?_) fun _ _ hw => hw
      have hsame : w.mouse = m := (Prod.mk.inj (Prod.mk.inj hw.exchange.vars).2).1
      refine ⟨by rw [hsame]; exact hw.exchange, hw.ready, ?_, fun h => absurd h hport2⟩
      intro h
      rw [hsame, hm] at h
      cases h
  refine Ensures.ite (fun _ => ?_) fun _ => ?_
  · exact (initKeyboard_spec L k m h₁ h₂).bind fun _ => hmouse
  · exact hmouse.mono (fun w hw => KeyboardFound.disabled hw hk rfl) fun _ _ hw => hw

/-- The handler of the keyboard after the initialisation. -/
def Keyboard.handler (k : Keyboard) : Option Handler :=
  if k.enabled then some .keyboardIRQ else none

/-- The handler of the mouse after the initialisation. -/
def Mouse.handler (m : Mouse) : Option Handler := if m.enabled then some .mouseIRQ else none

/-- Installing the handlers puts those of the two records in place, and changes nothing
else. -/
theorem install_spec (k : Keyboard) (m : Mouse) (h₁ h₂ : Option Handler) (l : List Event) :
    Ensures (fun _ => False) (Exchange (k, m, h₁, h₂) l)
      (do
        installKeyboard L
        installMouse L)
      fun _ => Exchange (k, m, k.handler, m.handler) l := by
  have hkeyboard : Ensures (fun _ => False) (Exchange (k, m, h₁, h₂) l) (installKeyboard L)
      fun _ => Exchange (k, m, k.handler, h₂) l := by
    have hset : ∀ h, Ensures (fun _ => False) (Exchange (k, m, h₁, h₂) l)
        (modify fun w => { w with keyboardHandler := h } : Routine σ Unit)
        fun _ => Exchange (k, m, h, h₂) l := fun h => Ensures.modify fun w hw => by
      have hv := hw.vars
      simp only [World.variables, Prod.mk.injEq] at hv
      exact ⟨by simp only [World.variables, hv], hw.history, hw.kept⟩
    refine Ensures.get.bind fun u => ?_
    rintro w ⟨rfl, hw⟩
    have hsame : u.keyboard = k := (Prod.mk.inj hw.vars).1
    rw [hsame]
    cases henabled : k.enabled with
    | true =>
        rw [Keyboard.handler, henabled]
        exact ((command_keeps L (by decide) _ l).bind fun _ => hset _) u hw
    | false =>
        rw [Keyboard.handler, henabled]
        exact hset none u hw
  have hmouse : Ensures (fun _ => False) (Exchange (k, m, k.handler, h₂) l) (installMouse L)
      fun _ => Exchange (k, m, k.handler, m.handler) l := by
    have hset : ∀ h, Ensures (fun _ => False) (Exchange (k, m, k.handler, h₂) l)
        (modify fun w => { w with mouseHandler := h } : Routine σ Unit)
        fun _ => Exchange (k, m, k.handler, h) l := fun h => Ensures.modify fun w hw => by
      have hv := hw.vars
      simp only [World.variables, Prod.mk.injEq] at hv
      exact ⟨by simp only [World.variables, hv], hw.history, hw.kept⟩
    refine Ensures.get.bind fun u => ?_
    rintro w ⟨rfl, hw⟩
    have hsame : u.mouse = m := (Prod.mk.inj (Prod.mk.inj hw.vars).2).1
    rw [hsame]
    cases henabled : m.enabled with
    | true =>
        rw [Mouse.handler, henabled]
        exact ((command_keeps L (by decide) _ l).bind fun _ => hset _) u hw
    | false =>
        rw [Mouse.handler, henabled]
        exact hset none u hw
  exact hkeyboard.bind fun _ => hmouse

/-- Installing the handlers keeps what is known of the devices. -/
theorem install_found (t port2 : Bool) (h₁ h₂ : Option Handler) :
    Ensures (fun _ => False) (Found t port2 h₁ h₂)
      (do
        installKeyboard L
        installMouse L)
      fun _ w' => Found t port2 w'.keyboard.handler w'.mouse.handler w' := by
  intro w hw
  have hinstall := fun l => install_spec L w.keyboard w.mouse h₁ h₂ l w
  obtain ⟨⟨a, w'⟩, hw', hexchange⟩ := (hinstall _ hw.exchange).returns
  refine Ends.of_eq hw' ?_
  obtain ⟨hkeyboard, hrest⟩ := Prod.mk.inj hexchange.vars
  have hmouse : w'.mouse = w.mouse := (Prod.mk.inj hrest).1
  refine ⟨?_, ?_, ?_, fun hport2 => ?_⟩
  · rw [hkeyboard, hmouse]
    exact hexchange
  · rw [hkeyboard]
    exact hw.keyboard
  · rw [hmouse]
    exact hw.mouse
  · obtain ⟨success, hmem⟩ := hw.reset hport2
    have hone := hinstall [.sent 1 cmdReset success]
      ⟨hw.exchange.vars, List.singleton_sublist.mpr hmem, hw.exchange.kept⟩
    exact ⟨success, List.singleton_sublist.mp (hone.value hw').history⟩

/-- Scanning is turned off on a port that is there, before the rest of the initialisation. -/
theorem disableScanning_spec (port : Bool) (device : ℕ) (v : Variables) {γ : Type}
    {rest : Routine σ γ} {Q : γ → World σ → Prop}
    (hrest : Ensures (fun _ => False) (Exchange v []) rest Q) :
    Ensures (fun _ => False) (Exchange v [])
      (do
        if port then let _ ← send L device cmdDisableScanning
        rest) Q := by
  have hbyte : ¬ (device = 2 ∧ cmdDisableScanning = cmdReset) := fun h => absurd h.2 (by decide)
  refine Ensures.ite (fun _ => ?_) fun _ => hrest
  exact (send_spec L hbyte v []).bind fun _ => hrest.mono (fun w hw => hw.drop) fun _ _ hw => hw

/-- The driver before its initialisation: nothing has been sent, and no device is enabled. -/
def start (link : σ) : World σ :=
  ⟨link, [], false, ⟨false, false, 0, none, 0⟩, ⟨false, 0, none, 0⟩, none, none⟩

/-- The initialisation with a controller finds the devices of its ports and leaves their
handlers installed. -/
theorem init_enabled (port1 port2 translation : Bool) {k : Keyboard} {m : Mouse}
    (hk : k.enabled = false) (hm : m.enabled = false) :
    Ensures (fun _ => False) (Exchange (k, m, none, none) [])
      (init L true port1 port2 translation) fun _ w' =>
        Found translation port2 w'.keyboard.handler w'.mouse.handler w' := by
  refine (setKeyboard_spec _ _ _ _ _ []).bind fun _ => Ensures.ite (fun h => by cases h) fun _ => ?_
  refine (Ensures.modify (Q := fun _ => Exchange _ []) fun w hw =>
    ⟨hw.vars, hw.history, hw.kept⟩).bind fun _ => ?_
  refine disableScanning_spec L port1 1 _ (disableScanning_spec L port2 2 _ ?_)
  refine (Ensures.modify (Q := fun _ => Exchange
    ({ k with translated := translation }, m, some .initIRQ, some .initIRQ) [])
    fun w hw => ⟨?_, hw.history, hw.kept⟩).bind fun _ => ?_
  · have hv := hw.vars
    simp only [World.variables, Prod.mk.injEq] at hv ⊢
    exact ⟨hv.1, hv.2.1, trivial⟩
  · exact devices_spec L port1 port2 (k := { k with translated := translation }) _ _ hk hm
      (install_found L translation port2 _ _)

/-- The initialisation returns, and what is known then. -/
theorem init_spec (enabled port1 port2 translation : Bool) (link : σ) :
    ∃ w', init L enabled port1 port2 translation (start link) = .ok ((), w') ∧
      Found translation (enabled && port2) w'.keyboard.handler w'.mouse.handler w' := by
  have hstart : Exchange ((start link).keyboard, (start link).mouse, none, none) []
      (start link) := ⟨rfl, List.nil_sublist _, fun _ hmem => by cases hmem⟩
  cases enabled with
  | false =>
      refine ⟨_, rfl, ⟨rfl, List.nil_sublist _, hstart.kept⟩, fun h => ?_, fun h => ?_, fun h => ?_⟩
      · cases h
      · cases h
      · cases h
  | true =>
      have hinit := init_enabled L port1 port2 translation (k := (start link).keyboard)
        (m := (start link).mouse) rfl rfl
      obtain ⟨⟨a, w'⟩, hw', hfound⟩ := (hinit (start link) hstart).returns
      exact ⟨w', hw', hfound⟩

/-- **What is known of the devices after the initialisation**, whatever they answer. It returns, and
no handler is left that only serves the initialisation. The keyboard is enabled only after it was
reset and passed its test, accepted scancode set 2 and was identified, in this order; and then the
driver decodes the set that the controller makes of it. The mouse is enabled only with a type and a
packet size that the decoder of its packets knows. -/
theorem init_ready (enabled port1 port2 translation : Bool) (link : σ) :
    ∃ w', init L enabled port1 port2 translation (start link) = .ok ((), w') ∧
      w'.keyboardHandler = w'.keyboard.handler ∧ w'.mouseHandler = w'.mouse.handler ∧
      (w'.keyboard.enabled = true →
        handshake.Sublist w'.events ∧ w'.keyboard.Ready translation) ∧
      (w'.mouse.enabled = true → Mouse.Recognised w'.mouse.type w'.mouse.packetSize) := by
  obtain ⟨w', hw', hfound⟩ := init_spec L enabled port1 port2 translation link
  have hv := hfound.exchange.vars
  simp only [World.variables, Prod.mk.injEq, true_and] at hv
  refine ⟨w', hw', hv.1, hv.2, fun henabled => ⟨?_, hfound.keyboard henabled⟩, hfound.mouse⟩
  have hhistory := hfound.exchange.history
  rwa [Keyboard.events, if_pos henabled] at hhistory

/-- The number of resets that were sent to a device. -/
def resets (device : ℕ) (events : List Event) : ℕ :=
  events.countP fun e =>
    match e with
    | .sent device' byte _ => decide (device' = device ∧ byte = cmdReset)
    | .answer _ => false

/-- **Looking for the mouse resets the keyboard**: whatever was exchanged before, `PS2_initMouse`
returns and has sent at least one more reset to the first port, and none to the second one. -/
theorem initMouse_resets {w : World σ} (hkept : ∀ success, .sent 2 cmdReset success ∉ w.events) :
    ∃ w', initMouse L w = .ok ((), w') ∧ resets 1 w.events < resets 1 w'.events ∧
      ∀ success, .sent 2 cmdReset success ∉ w'.events := by
  have hw : Exchange (w.keyboard, w.mouse, w.keyboardHandler, w.mouseHandler) w.events w :=
    ⟨rfl, .refl _, hkept⟩
  obtain ⟨⟨⟨⟩, w'⟩, hw', hfound⟩ :=
    (initMouse_spec L w.keyboard w.keyboardHandler w.mouseHandler w.events w.mouse w hw).returns
  obtain ⟨success, hsent⟩ := hfound.exchange
  refine ⟨w', hw', ?_, hsent.kept⟩
  -- The earlier events and the reset are events now.
  have hcount : resets 1 (.sent 1 cmdReset success :: w.events) ≤ resets 1 w'.events :=
    hsent.history.countP_le
  have hone : resets 1 (.sent 1 cmdReset success :: w.events) = resets 1 w.events + 1 :=
    List.countP_cons_of_pos (by simp)
  omega

/-- **The mouse is never reset.** Whatever the devices answer, no reset is sent to the second port;
where there is a mouse, a reset is sent to the keyboard. It is `PS2_initMouse` that sends it, in
addition to those that were sent before. -/
theorem mouse_never_reset (enabled port1 port2 translation : Bool) (link : σ) :
    (∃ w', init L enabled port1 port2 translation (start link) = .ok ((), w') ∧
      (∀ success, .sent 2 cmdReset success ∉ w'.events) ∧
      (enabled = true → port2 = true → ∃ success, .sent 1 cmdReset success ∈ w'.events)) ∧
    ∀ w : World σ, (∀ success, .sent 2 cmdReset success ∉ w.events) →
      ∃ w', initMouse L w = .ok ((), w') ∧ resets 1 w.events < resets 1 w'.events ∧
        ∀ success, .sent 2 cmdReset success ∉ w'.events := by
  refine ⟨?_, fun w hkept => initMouse_resets L hkept⟩
  obtain ⟨w', hw', hfound⟩ := init_spec L enabled port1 port2 translation link
  refine ⟨w', hw', hfound.exchange.kept, fun henabled hport2 => hfound.reset ?_⟩
  rw [henabled, hport2]
  rfl

end MugOS.PS2.Init
