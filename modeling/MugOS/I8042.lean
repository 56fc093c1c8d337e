import MugOS.Lib.Hoare
import MugOS.Lib.Run
import MugOS.Memory

/-!
# The Driver of the i8042 Controller

`Kernel/Arch/x86_64/Drivers/Input/i8042.c`: the ports 0x60 and 0x64 of the PS/2 controller. A
command is written to port 0x64, and its parameter, or a byte for the keyboard, to port 0x60; the
controller takes a byte only while its input buffer is empty, which bit 1 of its status says, and
offers one while bit 0 says that its output buffer is full. The driver waits for these bits, up
to a limit.

The controller, with the devices behind it and the time that passes, is any device: what its ports
answer, and how a write, a read and a delay change it, are parameters. The accesses that the driver
makes are recorded.

Messages and the FADT flag that only decides about one are left out.

## Main results

* `wait_iff`: when the wait for a bit succeeds.
* `Op.guarded`: no byte is written while the input buffer is full.
* `init_silent`: a controller that never answers.
-/

namespace MugOS.I8042

/-! ### The controller -/

/-- A controller: its answers at the ports, and how it changes. -/
structure Device (σ : Type) where
  /-- `inb(PS2C_PORT_STATUS_REGISTER)` -/
  status : σ → UInt8 × σ
  /-- `inb(PS2C_PORT_DATA)` -/
  data : σ → UInt8 × σ
  /-- `outb(PS2C_PORT_COMMAND, command)` -/
  command : UInt8 → σ → σ
  /-- `outb(PS2C_PORT_DATA, byte)` -/
  input : UInt8 → σ → σ
  /-- `udelay(50)` -/
  delay : σ → σ

/-- An access to a port, with the byte that was read or written. -/
inductive Access
  | status (byte : UInt8)
  | data (byte : UInt8)
  | command (byte : UInt8)
  | input (byte : UInt8)
  deriving DecidableEq, Repr

/-- The controller, the accesses so far with the last one first, and the variables of the driver. -/
structure World (σ : Type) where
  device : σ
  accesses : List Access
  enabled : Bool
  isPort1Valid : Bool
  isPort2Valid : Bool
  translation : Bool
  configByte : UInt8

/-- What the functions of the driver are. -/
abbrev Routine (σ α : Type) := StateT (World σ) (Except Fault) α

variable {σ : Type} (D : Device σ)

/-- `inb(PS2C_PORT_STATUS_REGISTER)`. -/
def inbStatus : Routine σ UInt8 := fun w =>
  let r := D.status w.device
  .ok (r.1, { w with device := r.2, accesses := .status r.1 :: w.accesses })

/-- `inb(PS2C_PORT_DATA)`. -/
def inbData : Routine σ UInt8 := fun w =>
  let r := D.data w.device
  .ok (r.1, { w with device := r.2, accesses := .data r.1 :: w.accesses })

/-- `outb(PS2C_PORT_COMMAND, command)`: the controller gets a command, and the access is
recorded. -/
def outbCommand (command : UInt8) : Routine σ Unit := fun w =>
  .ok ((), { w with
    device := D.command command w.device, accesses := .command command :: w.accesses })

/-- `outb(PS2C_PORT_DATA, byte)`: the controller gets a byte, and the access is recorded. -/
def outbData (byte : UInt8) : Routine σ Unit := fun w =>
  .ok ((), { w with device := D.input byte w.device, accesses := .input byte :: w.accesses })

/-- `udelay(50)`. -/
def udelay : Routine σ Unit := fun w => .ok ((), { w with device := D.delay w.device })

/-! ### The driver -/

/-- `PS2C_STATUS_OUTPUT_BUFF`. -/
abbrev statusOutputBuff : UInt8 := 0b00000001

/-- `PS2C_STATUS_INPUT_BUFF`. -/
abbrev statusInputBuff : UInt8 := 0b00000010

/-- `PS2C_CMD_READ_CONFIG_BYTE`. -/
abbrev cmdReadConfigByte : UInt8 := 0x20

/-- `PS2C_CMD_WRITE_CONFIG_BYTE`. -/
abbrev cmdWriteConfigByte : UInt8 := 0x60

/-- `PS2C_CMD_DISABLE_PORT2`. -/
abbrev cmdDisablePort2 : UInt8 := 0xa7

/-- `PS2C_CMD_ENABLE_PORT2`. -/
abbrev cmdEnablePort2 : UInt8 := 0xa8

/-- `PS2C_CMD_TEST_PORT2`. -/
abbrev cmdTestPort2 : UInt8 := 0xa9

/-- `PS2C_CMD_TEST_PORT1`. -/
abbrev cmdTestPort1 : UInt8 := 0xab

/-- `PS2C_CMD_DISABLE_PORT1`. -/
abbrev cmdDisablePort1 : UInt8 := 0xad

/-- `PS2C_CMD_ENABLE_PORT1`. -/
abbrev cmdEnablePort1 : UInt8 := 0xae

/-- `PS2C_CMD_WRITE_PORT2_INPUT_BUFF`. -/
abbrev cmdWritePort2InputBuff : UInt8 := 0xd4

/-- `PS2C_CONFBYTE_PORT1_INTERRUPT`. -/
abbrev confbytePort1Interrupt : UInt8 := 0b00000001

/-- `PS2C_CONFBYTE_PORT2_INTERRUPT`. -/
abbrev confbytePort2Interrupt : UInt8 := 0b00000010

/-- `PS2C_CONFBYTE_PORT1_CLOCK`. -/
abbrev confbytePort1Clock : UInt8 := 0b00010000

/-- `PS2C_CONFBYTE_PORT2_CLOCK`. -/
abbrev confbytePort2Clock : UInt8 := 0b00100000

/-- `PS2C_CONFBYTE_PORT1_TRANSLATION`. -/
abbrev confbytePort1Translation : UInt8 := 0b01000000

/-- `TIMEOUT`. -/
abbrev timeout : ℕ := 100000

/-- `while (timer++ < TIMEOUT)`, with `n` rounds left; the result is `timer` after the loop. -/
def waitLoop (mask value : UInt8) : ℕ → ℕ → Routine σ ℕ
  | 0, timer => pure (timer + 1)
  | n + 1, timer => do
      let statusRegister ← inbStatus D
      if statusRegister &&& mask = value then pure (timer + 1)
      else do
        udelay D
        waitLoop mask value n (timer + 1)

/-- `waitUntilBitValueOrTimeout(mask, value)`: polls the status, and tells whether the value
came in time. -/
def waitUntilBitValueOrTimeout (mask value : UInt8) : Routine σ Bool := do
  let timer ← waitLoop D mask value timeout 0
  pure (decide (timer < timeout))

/-- `pollByte(byte_out)`: the byte, or nothing on a timeout. -/
def pollByte : Routine σ (Option UInt8) := do
  let ready ← waitUntilBitValueOrTimeout D statusOutputBuff 1
  if ready then do
    let byte ← inbData D
    pure (some byte)
  else pure none

/-- `sendCommand(command)`: waits for the input buffer to be empty, and writes the command if
it is. -/
def sendCommand (command : UInt8) : Routine σ Bool := do
  let ready ← waitUntilBitValueOrTimeout D statusInputBuff 0
  if ready then do
    outbCommand D command
    pure true
  else pure false

/-- `readControllerConfigurationByte()`. -/
def readControllerConfigurationByte : Routine σ UInt8 := do
  let _ ← sendCommand D cmdReadConfigByte
  let res ← pollByte D
  pure (res.getD 0x00)

/-- The last part of a command with a parameter: `outb(PS2C_PORT_DATA, byte)` when the input buffer
is empty. -/
def sendData (byte : UInt8) : Routine σ Bool := do
  let ready ← waitUntilBitValueOrTimeout D statusInputBuff 0
  if ready then do
    outbData D byte
    pure true
  else pure false

/-- `writeControllerConfigurationByte(byte)`: the command, and the byte if that was sent. -/
def writeControllerConfigurationByte (byte : UInt8) : Routine σ Bool := do
  let sent ← sendCommand D cmdWriteConfigByte
  if sent then sendData D byte else pure false

/-- `i8042_flush()`, for at most as many rounds as `fuel` says. -/
def flush : ℕ → Routine σ Unit
  | 0 => fun _ => .error .diverges
  | fuel + 1 => do
      let statusRegister ← inbStatus D
      if statusRegister &&& statusOutputBuff ≠ 0 then do
        udelay D
        let _ ← inbData D
        flush fuel
      else pure ()

/-- `i8042_init()` up to the interface tests: the configuration byte that was read last. -/
def configure (fuel : ℕ) : Routine σ UInt8 := do
  let _ ← sendCommand D cmdDisablePort1
  let _ ← sendCommand D cmdDisablePort2
  flush D fuel
  let buff ← readControllerConfigurationByte D
  modify fun w => { w with translation := buff &&& confbytePort1Translation ≠ 0 }
  let buff := buff &&& ~~~(confbytePort1Interrupt ||| confbytePort2Interrupt ||| confbytePort1Clock)
  let _ ← writeControllerConfigurationByte D buff
  flush D fuel
  let _ ← sendCommand D cmdEnablePort2
  let buff ← readControllerConfigurationByte D
  modify fun w => { w with isPort2Valid := buff &&& confbytePort2Clock = 0 }
  if buff &&& confbytePort2Clock = 0 then do
    let _ ← sendCommand D cmdDisablePort2
    let buff := buff &&& ~~~(confbytePort2Interrupt ||| confbytePort2Clock)
    let _ ← writeControllerConfigurationByte D buff
    flush D fuel
    pure buff
  else pure buff

/-- The interface tests of `i8042_init()`: `pollByte` leaves `buff` as it is on a timeout. -/
def testPorts (buff : UInt8) : Routine σ Unit := do
  let _ ← sendCommand D cmdTestPort1
  let answer ← pollByte D
  let buff := answer.getD buff
  modify fun w => { w with isPort1Valid := buff = 0x00 }
  let w ← get
  if w.isPort2Valid then do
    let _ ← sendCommand D cmdTestPort2
    let answer ← pollByte D
    let buff := answer.getD buff
    modify fun w => { w with isPort2Valid := buff = 0x00 }
  else pure ()

/-- `i8042_init()`: sets the controller up, tests its ports, and enables those that passed. -/
def init (fuel : ℕ) : Routine σ Unit := do
  let buff ← configure D fuel
  testPorts D buff
  modify fun w => { w with enabled := w.isPort1Valid || w.isPort2Valid }
  let w ← get
  if !w.enabled then pure ()
  else do
    if w.isPort1Valid then let _ ← sendCommand D cmdEnablePort1
    if w.isPort2Valid then let _ ← sendCommand D cmdEnablePort2
    let configByte ← readControllerConfigurationByte D
    modify fun w => { w with configByte := configByte }

/-- `i8042_enableDevicesIRQs()`; the result of the write is that of the function it calls last. -/
def enableDevicesIRQs : Routine σ Bool := do
  modify fun w =>
    if w.isPort1Valid then { w with configByte := w.configByte ||| confbytePort1Interrupt } else w
  modify fun w =>
    if w.isPort2Valid then { w with configByte := w.configByte ||| confbytePort2Interrupt } else w
  let w ← get
  writeControllerConfigurationByte D w.configByte

/-- `i8042_sendByteToDevice(device, byte)`: writes the byte, behind a command if it is for port
2. -/
def sendByteToDevice (device : ℕ) (byte : UInt8) : Routine σ Bool :=
  if ¬ (device = 1 ∨ device = 2) then fun _ => .error .assertion
  else if device = 2 then do
    let res ← sendCommand D cmdWritePort2InputBuff
    if res then sendData D byte else pure false
  else sendData D byte

/-- `i8042_receiveByte()`. -/
def receiveByte : Routine σ UInt8 := inbData D

/-! ### Waiting -/

/-- The controller after a round of the loop that waits. -/
def round (w : World σ) : World σ :=
  { w with
    device := D.delay (D.status w.device).2
    accesses := .status (D.status w.device).1 :: w.accesses }

/-- The loop ends before its last round exactly when a round before the last one sees the value. -/
theorem waitLoop_spec (mask value : UInt8) : ∀ n timer (w : World σ),
    ∃ r, waitLoop D mask value n timer w = .ok r ∧ (r.1 < timer + n ↔
      ∃ k, k + 1 < n ∧ (D.status ((round D)^[k] w).device).1 &&& mask = value) := by
  intro n
  induction n with
  | zero =>
      intro timer w
      refine ⟨(timer + 1, w), rfl, ⟨fun h => by omega, fun ⟨k, hk, _⟩ => by omega⟩⟩
  | succ n ih =>
      intro timer w
      by_cases hit : (D.status w.device).1 &&& mask = value
      · have hstop : waitLoop D mask value (n + 1) timer w = .ok (timer + 1,
            { w with
              device := (D.status w.device).2
              accesses := .status (D.status w.device).1 :: w.accesses }) := by
          simp only [waitLoop, inbStatus, bind, StateT.bind, Except.bind, if_pos hit]
          rfl
        refine ⟨_, hstop, ⟨fun h => ⟨0, by omega, hit⟩, fun ⟨k, hk, _⟩ => ?_⟩⟩
        simp only
        omega
      · have hnext : waitLoop D mask value (n + 1) timer w =
            waitLoop D mask value n (timer + 1) (round D w) := by
          simp only [waitLoop, inbStatus, udelay, bind, StateT.bind, Except.bind, if_neg hit]
          rfl
        obtain ⟨r, hr, hiff⟩ := ih (timer + 1) (round D w)
        refine ⟨r, hnext.trans hr, ?_⟩
        rw [Nat.add_right_comm] at hiff
        rw [← Nat.add_assoc, hiff]
        constructor
        · rintro ⟨k, hk, hseen⟩
          exact ⟨k + 1, by omega, by rwa [Function.iterate_succ_apply]⟩
        · rintro ⟨k, hk, hseen⟩
          cases k with
          | zero => exact absurd hseen hit
          | succ k => exact ⟨k, by omega, by rwa [Function.iterate_succ_apply] at hseen⟩

/-- **Waiting for a bit** always returns, and succeeds exactly when one of the first `TIMEOUT - 1`
reads of the status shows the value: what the last of the `TIMEOUT` reads shows does not count. -/
theorem wait_iff (mask value : UInt8) (w : World σ) :
    ∃ r, waitUntilBitValueOrTimeout D mask value w = .ok r ∧ (r.1 = true ↔
      ∃ k < timeout - 1, (D.status ((round D)^[k] w).device).1 &&& mask = value) := by
  obtain ⟨r, hr, hiff⟩ := waitLoop_spec D mask value timeout 0 w
  refine ⟨(decide (r.1 < timeout), r.2), ?_, ?_⟩
  · simp only [waitUntilBitValueOrTimeout, bind, StateT.bind, Except.bind, hr]
    rfl
  · rw [decide_eq_true_eq, ← Nat.zero_add timeout, hiff]
    refine exists_congr fun k => and_congr_left fun _ => ?_
    omega

/-! ### The input buffer -/

/-- The last access read a status whose input buffer was empty. -/
def Ready (accesses : List Access) : Prop :=
  ∃ byte rest, accesses = .status byte :: rest ∧ byte &&& statusInputBuff = 0

/-- An access that writes. -/
def Access.Writes : Access → Prop
  | .status _ | .data _ => False
  | .command _ | .input _ => True

/-- Right before every write, the status was read, and the input buffer was empty. -/
def Guarded (accesses : List Access) : Prop :=
  ∀ later access earlier, accesses = later ++ access :: earlier → access.Writes → Ready earlier

/-- An access in front of guarded ones is guarded, if it is ready to write where it writes. -/
theorem guarded_cons {access : Access} {accesses : List Access} (h : Guarded accesses)
    (haccess : access.Writes → Ready accesses) : Guarded (access :: accesses) := by
  intro later a earlier heq ha
  cases later with
  | nil =>
      obtain ⟨rfl, rfl⟩ := List.cons.inj heq
      exact haccess ha
  | cons b later =>
      rw [List.cons_append] at heq
      exact h later a earlier (List.cons.inj heq).2 ha

/-- The record of the accesses is guarded. -/
abbrev Safe (w : World σ) : Prop := Guarded w.accesses

/-- A routine keeps the record guarded. -/
abbrev Keeps {α : Type} (m : Routine σ α) : Prop :=
  Ensures (fun _ => True) Safe m fun _ => Safe

/-- Reading the status keeps the accesses guarded, and records the byte that was read. -/
theorem inbStatus_safe : Ensures (fun _ => True) Safe (inbStatus D) fun byte w =>
    Safe w ∧ ∃ rest, w.accesses = .status byte :: rest :=
  fun _ hw => ⟨guarded_cons hw fun h => h.elim, _, rfl⟩

/-- Reading a data byte keeps the accesses guarded, as a read needs no ready input buffer. -/
theorem inbData_safe : Keeps (inbData D) := fun _ hw => guarded_cons hw fun h => h.elim

/-- Writing a command where the input buffer is empty. -/
theorem outbCommand_safe (command : UInt8) : Ensures (fun _ => True)
    (fun w => Safe w ∧ Ready w.accesses) (outbCommand D command) fun _ => Safe :=
  fun _ hw => guarded_cons hw.1 fun _ => hw.2

/-- Writing a data byte where the input buffer was just seen empty keeps the accesses
guarded. -/
theorem outbData_safe (byte : UInt8) : Ensures (fun _ => True)
    (fun w => Safe w ∧ Ready w.accesses) (outbData D byte) fun _ => Safe :=
  fun _ hw => guarded_cons hw.1 fun _ => hw.2

/-- A delay between accesses keeps them guarded, as it makes none of its own. -/
theorem udelay_safe : Keeps (udelay D) := fun _ hw => hw

/-- The loop that waits ends early only after a status with the value. -/
theorem waitLoop_safe (mask value : UInt8) : ∀ n timer,
    Ensures (fun _ => True) Safe (waitLoop D mask value n timer) fun t w => Safe w ∧
      (t < timer + n → ∃ byte rest, w.accesses = .status byte :: rest ∧ byte &&& mask = value) := by
  intro n
  induction n with
  | zero => exact fun timer => Ensures.pure fun w hw => ⟨hw, fun h => by omega⟩
  | succ n ih =>
      intro timer
      refine (inbStatus_safe D).bind fun byte => Ensures.ite (fun hit => ?_) fun _ => ?_
      · exact Ensures.pure fun w hw => ⟨hw.1, fun _ => ⟨byte, hw.2.choose, hw.2.choose_spec, hit⟩⟩
      · refine ((udelay_safe D).mono (fun w hw => hw.1) fun _ _ hw => hw).bind fun _ => ?_
        exact (ih (timer + 1)).mono (fun _ hw => hw) fun t w hw =>
          ⟨hw.1, fun ht => hw.2 (by omega)⟩

/-- A wait for the input buffer that succeeds leaves the port ready. -/
theorem wait_safe (mask value : UInt8) :
    Ensures (fun _ => True) Safe (waitUntilBitValueOrTimeout D mask value) fun ready w => Safe w ∧
      (ready = true → ∃ byte rest, w.accesses = .status byte :: rest ∧ byte &&& mask = value) := by
  refine (waitLoop_safe D mask value timeout 0).bind fun t => Ensures.pure fun w hw => ?_
  exact ⟨hw.1, fun ht => hw.2 (by simpa using ht)⟩

/-- Polling for a byte, which only reads, keeps the accesses guarded. -/
theorem pollByte_safe : Keeps (pollByte D) := by
  refine (wait_safe D _ _).bind fun ready => Ensures.ite (fun _ => ?_) fun _ => ?_
  · refine ((inbData_safe D).mono (fun w hw => hw.1) fun _ _ hw => hw).bind fun _ => ?_
    exact Ensures.pure fun _ hw => hw
  · exact Ensures.pure fun w hw => hw.1

/-- Sending a command keeps the accesses guarded: it is written after the input buffer was seen
empty. -/
theorem sendCommand_safe (command : UInt8) : Keeps (sendCommand D command) := by
  refine (wait_safe D _ _).bind fun ready => Ensures.ite (fun hready => ?_) fun _ => ?_
  · refine ((outbCommand_safe D command).mono (fun w hw => ⟨hw.1, hw.2 hready⟩)
      fun _ _ hw => hw).bind fun _ => ?_
    exact Ensures.pure fun _ hw => hw
  · exact Ensures.pure fun w hw => hw.1

/-- Sending a parameter keeps the accesses guarded: it is written after the input buffer was
seen empty. -/
theorem sendData_safe (byte : UInt8) : Keeps (sendData D byte) := by
  refine (wait_safe D _ _).bind fun ready => Ensures.ite (fun hready => ?_) fun _ => ?_
  · refine ((outbData_safe D byte).mono (fun w hw => ⟨hw.1, hw.2 hready⟩)
      fun _ _ hw => hw).bind fun _ => ?_
    exact Ensures.pure fun _ hw => hw
  · exact Ensures.pure fun w hw => hw.1

/-- A value that is computed without an access keeps the accesses guarded. -/
theorem pure_safe {α : Type} (a : α) : Keeps (pure a : Routine σ α) := Ensures.pure fun _ hw => hw

/-- Looking at the variables of the driver keeps the accesses guarded. -/
theorem get_safe : Keeps (get : Routine σ (World σ)) := fun _ hw => hw

/-- Changing the variables of the driver, but not the record of accesses, keeps them
guarded. -/
theorem modify_safe {f : World σ → World σ} (hf : ∀ w, (f w).accesses = w.accesses) :
    Keeps (modify f : Routine σ Unit) :=
  Ensures.modify fun w hw => (congrArg Guarded (hf w)).mpr hw

/-- Reading the configuration byte, a command and a poll, keeps the accesses guarded. -/
theorem readConfiguration_safe : Keeps (readControllerConfigurationByte D) :=
  (sendCommand_safe D _).bind fun _ => (pollByte_safe D).bind fun _ => pure_safe _

/-- Writing the configuration byte, a command and a parameter, keeps the accesses guarded. -/
theorem writeConfiguration_safe (byte : UInt8) : Keeps (writeControllerConfigurationByte D byte) :=
  (sendCommand_safe D _).bind fun _ =>
    Ensures.ite (fun _ => sendData_safe D byte) fun _ => pure_safe _

/-- Flushing the output buffer, which only reads, keeps the accesses guarded for any number of
rounds. -/
theorem flush_safe : ∀ fuel, Keeps (flush D fuel) := by
  intro fuel
  induction fuel with
  | zero => exact Ensures.error trivial
  | succ fuel ih =>
      refine (inbStatus_safe D).bind fun byte => Ensures.ite (fun _ => ?_) fun _ => ?_
      · refine ((udelay_safe D).mono (fun w hw => hw.1) fun _ _ hw => hw).bind fun _ => ?_
        exact (inbData_safe D).bind fun _ => ih
      · exact Ensures.pure fun w hw => hw.1

/-- The first part of the initialisation, up to the self test, keeps the accesses guarded. -/
theorem configure_safe (fuel : ℕ) : Keeps (configure D fuel) := by
  refine (sendCommand_safe D _).bind fun _ => (sendCommand_safe D _).bind fun _ => ?_
  refine (flush_safe D fuel).bind fun _ => (readConfiguration_safe D).bind fun buff => ?_
  refine Ensures.keeps_bind (modify_safe fun _ => rfl) fun _ => ?_
  refine (writeConfiguration_safe D _).bind fun _ => (flush_safe D fuel).bind fun _ => ?_
  refine (sendCommand_safe D _).bind fun _ => (readConfiguration_safe D).bind fun buff => ?_
  refine Ensures.keeps_bind (modify_safe fun _ => rfl) fun _ => ?_
  refine Ensures.ite (fun _ => ?_) fun _ => pure_safe _
  refine (sendCommand_safe D _).bind fun _ => (writeConfiguration_safe D _).bind fun _ => ?_
  exact (flush_safe D fuel).bind fun _ => pure_safe _

/-- The interface tests of the two ports keep the accesses guarded. -/
theorem testPorts_safe (buff : UInt8) : Keeps (testPorts D buff) := by
  refine (sendCommand_safe D _).bind fun _ => (pollByte_safe D).bind fun _ => ?_
  refine Ensures.keeps_bind (modify_safe fun _ => rfl) fun _ => ?_
  refine Ensures.keeps_bind get_safe fun w => Ensures.ite (fun _ => ?_) fun _ => pure_safe _
  exact (sendCommand_safe D _).bind fun _ =>
    (pollByte_safe D).bind fun _ => modify_safe fun _ => rfl

/-- The initialisation of the controller keeps the accesses guarded, however it ends. -/
theorem init_safe (fuel : ℕ) : Keeps (init D fuel) := by
  refine (configure_safe D fuel).bind fun buff => (testPorts_safe D buff).bind fun _ => ?_
  refine Ensures.keeps_bind (modify_safe fun _ => rfl) fun _ => ?_
  refine Ensures.keeps_bind get_safe fun w => Ensures.ite (fun _ => pure_safe _) fun _ => ?_
  have hlast : Keeps (do
      let configByte ← readControllerConfigurationByte D
      modify fun w => { w with configByte := configByte }) :=
    (readConfiguration_safe D).bind fun _ => modify_safe fun _ => rfl
  have hport2 : Keeps (do
      if w.isPort2Valid then let _ ← sendCommand D cmdEnablePort2
      let configByte ← readControllerConfigurationByte D
      modify fun w => { w with configByte := configByte }) :=
    Ensures.ite (fun _ => (sendCommand_safe D _).bind fun _ => hlast) fun _ => hlast
  exact Ensures.ite (fun _ => (sendCommand_safe D _).bind fun _ => hport2) fun _ => hport2

/-- Enabling the interrupts of the valid ports keeps the accesses guarded. -/
theorem enableDevicesIRQs_safe : Keeps (enableDevicesIRQs D) := by
  refine Ensures.keeps_bind (modify_safe fun w => by split <;> rfl) fun _ => ?_
  refine Ensures.keeps_bind (modify_safe fun w => by split <;> rfl) fun _ => ?_
  exact Ensures.keeps_bind get_safe fun w => writeConfiguration_safe D _

/-- Sending a byte to the device at either port keeps the accesses guarded. -/
theorem sendByteToDevice_safe (device : ℕ) (byte : UInt8) :
    Keeps (sendByteToDevice D device byte) := by
  refine Ensures.ite (fun _ => Ensures.error trivial) fun _ => ?_
  refine Ensures.ite (fun _ => ?_) fun _ => sendData_safe D byte
  exact (sendCommand_safe D _).bind fun _ =>
    Ensures.ite (fun _ => sendData_safe D byte) fun _ => pure_safe _

/-! ### Runs -/

/-- A call of the driver, with the arguments that its callers choose. -/
inductive Op
  | init (fuel : ℕ)
  | enableDevicesIRQs
  | sendByteToDevice (device : ℕ) (byte : UInt8)
  | receiveByte
  | flush (fuel : ℕ)

/-- A call that returns, in the state that it leaves. -/
def Op.Step (w : World σ) (op : Op) (w' : World σ) : Prop :=
  match op with
  | .init fuel => ∃ a, I8042.init D fuel w = .ok (a, w')
  | .enableDevicesIRQs => ∃ a, I8042.enableDevicesIRQs D w = .ok (a, w')
  | .sendByteToDevice device byte => ∃ a, I8042.sendByteToDevice D device byte w = .ok (a, w')
  | .receiveByte => ∃ a, I8042.receiveByte D w = .ok (a, w')
  | .flush fuel => ∃ a, I8042.flush D fuel w = .ok (a, w')

/-- A call of the driver, whichever it is, keeps the record of accesses guarded. -/
theorem Op.Step.safe {w w' : World σ} {op : Op} (h : Op.Step D w op w') (hw : Safe w) :
    Safe w' := by
  cases op with
  | init fuel =>
      obtain ⟨a, h⟩ := h
      exact (init_safe D fuel w hw).value h
  | enableDevicesIRQs =>
      obtain ⟨a, h⟩ := h
      exact (enableDevicesIRQs_safe D w hw).value h
  | sendByteToDevice device byte =>
      obtain ⟨a, h⟩ := h
      exact (sendByteToDevice_safe D device byte w hw).value h
  | receiveByte =>
      obtain ⟨a, h⟩ := h
      exact (inbData_safe D w hw).value h
  | flush fuel =>
      obtain ⟨a, h⟩ := h
      exact (flush_safe D fuel w hw).value h

/-- **No byte is lost in a full buffer**: whatever the controller answers, in every sequence of
calls of the driver, the access before each write to a port read a status whose input buffer
was empty. -/
theorem runs_guarded {w w' : World σ} (hstart : w.accesses = []) {ops : List Op}
    (hrun : Runs (Op.Step D) w ops w') : Guarded w'.accesses := by
  refine hrun.invariant (I := Safe) ?_ fun _ _ _ hw h => h.safe D hw
  intro later access earlier heq
  rw [hstart] at heq
  simp at heq

/-- A controller that is always ready, and never offers a byte. -/
def idle : Device Unit where
  status _ := (0, ())
  data _ := (0, ())
  command _ _ := ()
  input _ _ := ()
  delay _ := ()

/-- The driver before its initialisation. -/
def start : World Unit := ⟨(), [], false, false, false, false, 0⟩

/-- Waiting for an empty input buffer takes one round. -/
theorem idle_wait (w : World Unit) : waitUntilBitValueOrTimeout idle statusInputBuff 0 w =
    .ok (true, { w with accesses := .status 0 :: w.accesses }) := by
  have hloop : ∀ n, waitLoop idle statusInputBuff 0 (n + 1) 0 w =
      .ok (1, { w with accesses := .status 0 :: w.accesses }) := by
    intro n
    have hempty : (0 : UInt8) &&& statusInputBuff = 0 := by decide
    simp only [waitLoop, inbStatus, idle, bind, StateT.bind, Except.bind, if_pos hempty]
    rfl
  simp only [waitUntilBitValueOrTimeout, bind, StateT.bind, Except.bind, hloop 99999]
  rfl

/-- With a controller whose input buffer is always empty, a data byte is written after one look
at the status. -/
theorem idle_sendData (byte : UInt8) (w : World Unit) : sendData idle byte w =
    .ok (true, { w with accesses := .input byte :: .status 0 :: w.accesses }) := by
  simp only [sendData, bind, StateT.bind, Except.bind, idle_wait]
  rfl

/-- A byte for the mouse is sent at once, behind its command. -/
theorem idle_mouse (byte : UInt8) (w : World Unit) : sendByteToDevice idle 2 byte w =
    .ok (true, { w with
      accesses := .input byte :: .status 0 :: .command cmdWritePort2InputBuff :: .status 0 ::
        w.accesses }) := by
  have hmouse : sendByteToDevice idle 2 byte = (do
      let res ← sendCommand idle cmdWritePort2InputBuff
      if res then sendData idle byte else pure false) := rfl
  have hcommand : sendCommand idle cmdWritePort2InputBuff w = .ok (true, { w with
      accesses := .command cmdWritePort2InputBuff :: .status 0 :: w.accesses }) := by
    simp only [sendCommand, bind, StateT.bind, Except.bind, idle_wait]
    rfl
  rw [hmouse]
  simp only [bind, StateT.bind, Except.bind, hcommand, if_true, idle_sendData]

/-- A run of four calls: a byte for each device, and two that read. -/
theorem runs_guarded_idle :
    ∃ w', Runs (Op.Step idle) start [.sendByteToDevice 1 0xf4, .sendByteToDevice 2 0xf4,
      .receiveByte, .flush 1] w' ∧ Guarded w'.accesses := by
  have hrun : Runs (Op.Step idle) start [.sendByteToDevice 1 0xf4, .sendByteToDevice 2 0xf4,
      .receiveByte, .flush 1] _ :=
    (((Runs.nil.snoc ⟨true, idle_sendData 0xf4 start⟩).snoc ⟨true, idle_mouse 0xf4 _⟩).snoc
      ⟨0, rfl⟩).snoc ⟨(), rfl⟩
  exact ⟨_, hrun, runs_guarded idle rfl hrun⟩

end MugOS.I8042
