import MugOS.I8042

/-!
# What the i8042 Controller Receives

The controller takes a byte at port 0x60 as the parameter of the command before it, if that command
has one, and otherwise sends it to the keyboard. The driver gives up between a command and its
parameter when the input buffer stays full; the command then waits for the next byte.

The second part is about controllers that do not answer. The initialisation takes the timeout of an
interface test for the byte that it had read before it.

## Main results

* `runs_received`: the messages of a run.
* `keyboard_misdirected`: a byte for the keyboard after a command without its parameter.
* `init_unresponsive`: controllers that never offer a byte, or always do.
-/

namespace MugOS.I8042

/-! ### Messages -/

/-- What the controller is told: a command alone, or a byte for what the command before it
named. -/
inductive Message
  | command (byte : UInt8)
  | configuration (byte : UInt8)
  | outputPort (byte : UInt8)
  | keyboardBuffer (byte : UInt8)
  | mouseBuffer (byte : UInt8)
  | keyboard (byte : UInt8)
  | mouse (byte : UInt8)
  deriving DecidableEq, Repr

/-- The message of a parameter, by the command that it belongs to; a byte without a command is for
the keyboard. -/
def Message.ofByte (command : Option UInt8) (byte : UInt8) : Message :=
  if command = some cmdWriteConfigByte then .configuration byte
  else if command = some 0xd1 then .outputPort byte
  else if command = some 0xd2 then .keyboardBuffer byte
  else if command = some 0xd3 then .mouseBuffer byte
  else if command = some cmdWritePort2InputBuff then .mouse byte
  else .keyboard byte

/-- The commands that have a parameter, which is the next byte of input. -/
def TakesParameter (command : UInt8) : Prop :=
  command = cmdWriteConfigByte ∨ command = 0xd1 ∨ command = 0xd2 ∨ command = 0xd3 ∨
    command = cmdWritePort2InputBuff

instance (command : UInt8) : Decidable (TakesParameter command) :=
  inferInstanceAs (Decidable (_ ∨ _ ∨ _ ∨ _ ∨ _))

/-- The command that waits for its parameter, and the messages so far with the last one first. -/
structure Received where
  pending : Option UInt8
  messages : List Message

/-- What one access tells the controller, given what it was told before. -/
def Received.add (r : Received) : Access → Received
  | .status _ => r
  | .data _ => r
  | .command byte =>
      if TakesParameter byte then ⟨some byte, r.messages⟩ else ⟨none, .command byte :: r.messages⟩
  | .input byte => ⟨none, Message.ofByte r.pending byte :: r.messages⟩

/-- What the accesses told the controller, taken together from the first one on. -/
def received (accesses : List Access) : Received :=
  accesses.foldr (fun access r => r.add access) ⟨none, []⟩

/-- What the controller was told by all the accesses so far. -/
def World.received {σ : Type} (w : World σ) : Received := I8042.received w.accesses

variable {σ : Type} (D : Device σ)

/-- The configuration byte with the interrupts of the valid ports. -/
def World.withInterrupts (w : World σ) : UInt8 :=
  (w.configByte ||| if w.isPort1Valid then confbytePort1Interrupt else 0) |||
    if w.isPort2Valid then confbytePort2Interrupt else 0

/-- The controller was told something, and the driver has a configuration. -/
structure Told (r : Received) (b : UInt8) (w : World σ) : Prop where
  received : w.received = r
  interrupts : w.withInterrupts = b

/-- A routine that always returns, keeps the configuration of the driver, and tells the controller
something with the given effect. -/
abbrev Tells {α : Type} (m : Routine σ α) (effect : Received → α → Received) : Prop :=
  ∀ r b, Ensures (fun _ => False) (Told r b) m fun a w => Told (effect r a) b w

/-- A round of waiting tells the controller nothing, whatever the status shows. -/
theorem waitLoop_tells (mask value : UInt8) : ∀ n timer,
    Tells (waitLoop D mask value n timer) fun r _ => r := by
  intro n
  induction n with
  | zero => exact fun timer r b => Ensures.pure fun _ hw => hw
  | succ n ih =>
      intro timer r b
      have hread : Ensures (fun _ => False) (Told r b) (inbStatus D) fun _ => Told r b :=
        fun _ hw => ⟨hw.received, hw.interrupts⟩
      have hdelay : Ensures (fun _ => False) (Told r b) (udelay D) fun _ => Told r b :=
        fun _ hw => ⟨hw.received, hw.interrupts⟩
      refine hread.bind fun _ => Ensures.ite (fun _ => Ensures.pure fun _ hw => hw) fun _ => ?_
      exact hdelay.bind fun _ => ih (timer + 1) r b

/-- Waiting for a bit of the status tells the controller nothing, whether it comes or not. -/
theorem wait_tells (mask value : UInt8) :
    Tells (waitUntilBitValueOrTimeout D mask value) fun r _ => r :=
  fun r b => (waitLoop_tells D mask value timeout 0 r b).bind fun _ => Ensures.pure fun _ hw => hw

/-- A command that is sent is told to the controller as a command, and one that times out is
not. -/
theorem sendCommand_tells (command : UInt8) :
    Tells (sendCommand D command) fun r sent => if sent then r.add (.command command) else r := by
  intro r b
  have hwrite : Ensures (fun _ => False) (Told r b) (outbCommand D command)
      fun _ => Told (r.add (.command command)) b := fun _ hw =>
    ⟨congrArg (fun r : Received => r.add (.command command)) hw.received, hw.interrupts⟩
  refine (wait_tells D _ _ r b).bind fun ready => Ensures.ite (fun _ => ?_) fun _ => ?_
  · exact hwrite.bind fun _ => Ensures.pure fun _ hw => hw
  · exact Ensures.pure fun _ hw => hw

/-- A byte that is sent is told to the controller as an input, and one that times out is
not. -/
theorem sendData_tells (byte : UInt8) :
    Tells (sendData D byte) fun r sent => if sent then r.add (.input byte) else r := by
  intro r b
  have hwrite : Ensures (fun _ => False) (Told r b) (outbData D byte)
      fun _ => Told (r.add (.input byte)) b := fun _ hw =>
    ⟨congrArg (fun r : Received => r.add (.input byte)) hw.received, hw.interrupts⟩
  refine (wait_tells D _ _ r b).bind fun ready => Ensures.ite (fun _ => ?_) fun _ => ?_
  · exact hwrite.bind fun _ => Ensures.pure fun _ hw => hw
  · exact Ensures.pure fun _ hw => hw

/-- **A command with a parameter** is told whole if it returns true; if it returns false, nothing is
told, or the command without its parameter. -/
theorem parameter_tells {command : UInt8} (htakes : TakesParameter command) (byte : UInt8)
    (r : Received) (b : UInt8) :
    Ensures (fun _ => False) (Told r b)
      (do
        let sent ← sendCommand D command
        if sent then sendData D byte else pure false)
      fun sent w => if sent then Told ⟨none, Message.ofByte (some command) byte :: r.messages⟩ b w
        else Told r b w ∨ Told ⟨some command, r.messages⟩ b w := by
  have hadd : r.add (.command command) = ⟨some command, r.messages⟩ := by
    simp only [Received.add, if_pos htakes]
  refine (sendCommand_tells D command r b).bind fun sent => ?_
  cases sent with
  | true =>
      simp only [if_true, hadd]
      refine (sendData_tells D byte _ b).mono (fun _ hw => hw) fun done w hw => ?_
      cases done with
      | true => exact hw
      | false => exact Or.inr hw
  | false => exact Ensures.pure fun w hw => Or.inl hw

/-! ### Calls -/

/-- A call that tells the controller something, after the initialisation. -/
inductive Call
  | keyboard (byte : UInt8)
  | mouse (byte : UInt8)
  | enableDevicesIRQs
  deriving DecidableEq, Repr

/-- The function of a call. -/
def Call.run : Call → Routine σ Bool
  | .keyboard byte => sendByteToDevice D 1 byte
  | .mouse byte => sendByteToDevice D 2 byte
  | .enableDevicesIRQs => I8042.enableDevicesIRQs D

/-- What a call is to tell the controller, by the configuration of the driver. -/
def Call.message (interrupts : UInt8) : Call → Message
  | .keyboard byte => .keyboard byte
  | .mouse byte => .mouse byte
  | .enableDevicesIRQs => .configuration interrupts

/-- The configuration byte is written with the interrupts of the valid ports. -/
theorem enableDevicesIRQs_eq (w : World σ) :
    I8042.enableDevicesIRQs D w = writeControllerConfigurationByte D w.withInterrupts
      { w with configByte := w.withInterrupts } := by
  obtain ⟨device, accesses, enabled, port1, port2, translation, configByte⟩ := w
  cases port1 <;> cases port2 <;>
    simp [I8042.enableDevicesIRQs, World.withInterrupts, modify, modifyGet, MonadStateOf.modifyGet,
      StateT.modifyGet, get, getThe, MonadStateOf.get, StateT.get, bind, StateT.bind, Except.bind,
      pure, Except.pure]

/-- Setting the interrupt bits twice leaves the configuration byte as after the first time. -/
theorem withInterrupts_twice (w : World σ) :
    ({ w with configByte := w.withInterrupts } : World σ).withInterrupts = w.withInterrupts := by
  obtain ⟨device, accesses, enabled, port1, port2, translation, configByte⟩ := w
  have hmask : confbytePort1Interrupt ||| (confbytePort2Interrupt ||| (confbytePort1Interrupt |||
      confbytePort2Interrupt)) = confbytePort1Interrupt ||| confbytePort2Interrupt := by decide
  simp only [World.withInterrupts]
  cases port1 <;> cases port2 <;> simp [UInt8.or_assoc, hmask]

/-- **One call** from a controller that waits for no parameter always returns. It tells its message
if it returns true; otherwise it tells nothing, except that the controller may wait for a
parameter. -/
theorem Call.run_tells (call : Call) {w : World σ} {ms : List Message} {b : UInt8}
    (hw : Told ⟨none, ms⟩ b w) : ∃ sent w', call.run D w = .ok (sent, w') ∧
      if sent then Told ⟨none, call.message b :: ms⟩ b w'
      else Told ⟨none, ms⟩ b w' ∨ ∃ command, Told ⟨some command, ms⟩ b w' := by
  cases call with
  | keyboard byte =>
      obtain ⟨⟨sent, w'⟩, hr, htold⟩ := (sendData_tells D byte _ b w hw).returns
      refine ⟨sent, w', hr, ?_⟩
      cases sent with
      | true => exact htold
      | false => exact Or.inl htold
  | mouse byte =>
      have htakes : TakesParameter cmdWritePort2InputBuff := by decide
      obtain ⟨⟨sent, w'⟩, hr, htold⟩ := (parameter_tells D htakes byte _ b w hw).returns
      refine ⟨sent, w', hr, ?_⟩
      cases sent with
      | true => exact htold
      | false => exact htold.imp_right fun h => ⟨_, h⟩
  | enableDevicesIRQs =>
      have hset : Told ⟨none, ms⟩ b { w with configByte := w.withInterrupts } :=
        ⟨hw.received, (withInterrupts_twice w).trans hw.interrupts⟩
      have htakes : TakesParameter cmdWriteConfigByte := by decide
      obtain ⟨⟨sent, w'⟩, hr, htold⟩ :=
        (parameter_tells D htakes w.withInterrupts _ b _ hset).returns
      refine ⟨sent, w', (enableDevicesIRQs_eq D w).trans hr, ?_⟩
      cases sent with
      | true =>
          rw [hw.interrupts] at htold
          exact htold
      | false => exact htold.imp_right fun h => ⟨_, h⟩

/-- A call with what it returns; if that is false, no parameter is missing. -/
def Call.Step (w : World σ) (c : Call × Bool) (w' : World σ) : Prop :=
  c.1.run D w = .ok (c.2, w') ∧ (c.2 = false → w'.received.pending = none)

/-- The messages of the calls that returned true, in the order of the calls. -/
def intended (interrupts : UInt8) (cs : List (Call × Bool)) : List Message :=
  (cs.filter fun c => c.2).map fun c => c.1.message interrupts

/-- **The controller receives what the driver means**: in every sequence of calls in which no call
gives up between a command and its parameter, whatever the controller is, it receives the messages
of the calls that return true, in their order, and waits for no parameter at the end. -/
theorem runs_received {w w' : World σ} (hstart : w.accesses = []) {cs : List (Call × Bool)}
    (hrun : Runs (Call.Step D) w cs w') :
    w'.received.messages.reverse = intended w.withInterrupts cs ∧ w'.received.pending = none := by
  suffices htold : Told ⟨none, (intended w.withInterrupts cs).reverse⟩ w.withInterrupts w' by
    rw [htold.received]
    exact ⟨List.reverse_reverse _, rfl⟩
  induction hrun with
  | nil => exact ⟨by rw [World.received, hstart]; rfl, rfl⟩
  | @snoc cs t u c _ hlast ih =>
      obtain ⟨sent, v, hv, htold⟩ := c.1.run_tells D ih
      obtain ⟨hstep, hclean⟩ := hlast
      obtain ⟨rfl, rfl⟩ := Prod.mk.inj (Except.ok.inj (hstep.symm.trans hv))
      obtain ⟨call, sent⟩ := c
      cases sent with
      | true => simpa [intended] using htold
      | false =>
          have hsame : intended w.withInterrupts (cs ++ [(call, false)]) =
              intended w.withInterrupts cs := by simp [intended]
          rw [hsame]
          refine htold.resolve_right ?_
          rintro ⟨command, hcommand⟩
          have hpending := hclean rfl
          rw [hcommand.received] at hpending
          cases hpending

/-- A run of three calls: a byte for the keyboard, one for the mouse, and one for the keyboard. -/
theorem runs_received_idle :
    ∃ w', Runs (Call.Step idle) start
        [(.keyboard 0xf4, true), (.mouse 0xf6, true), (.keyboard 0xed, true)] w' ∧
      w'.received.messages.reverse = [.keyboard 0xf4, .mouse 0xf6, .keyboard 0xed] ∧
      w'.received.pending = none := by
  have hrun : Runs (Call.Step idle) start
      [(.keyboard 0xf4, true), (.mouse 0xf6, true), (.keyboard 0xed, true)] _ :=
    ((Runs.nil.snoc ⟨idle_sendData 0xf4 start, nofun⟩).snoc ⟨idle_mouse 0xf6 _, nofun⟩).snoc
      ⟨idle_sendData 0xed _, nofun⟩
  exact ⟨_, hrun, runs_received idle rfl hrun⟩

/-- **A byte goes astray** after a call that gave up between a command and its parameter: the byte
for the keyboard that is sent next is received by the mouse, or as the configuration. -/
theorem keyboard_misdirected {w w' : World σ} {command byte : UInt8}
    (hpending : w.received.pending = some command)
    (hcommand : command = cmdWriteConfigByte ∨ command = cmdWritePort2InputBuff)
    (hrun : sendByteToDevice D 1 byte w = .ok (true, w')) :
    w'.received.messages =
      (if command = cmdWriteConfigByte then .configuration byte else .mouse byte) ::
        w.received.messages := by
  have htold : w'.received = w.received.add (.input byte) :=
    ((sendData_tells D byte w.received w.withInterrupts w ⟨rfl, rfl⟩).value hrun).received
  rw [htold, Received.add, hpending]
  rcases hcommand with rfl | rfl
  · rfl
  · rfl

/-! ### Controllers that do not answer -/

/-- The variables of the driver, which are all of its state but the device and the record. -/
def World.variables (w : World σ) : Bool × Bool × Bool × Bool × UInt8 :=
  (w.enabled, w.isPort1Valid, w.isPort2Valid, w.translation, w.configByte)

/-- A routine that always returns, with a value of the given kind, and keeps the variables of the
driver. -/
abbrev Quiet {α : Type} (m : Routine σ α) (Q : α → Prop) : Prop :=
  ∀ v, Ensures (fun _ => False) (fun w => w.variables = v) m fun a w => w.variables = v ∧ Q a

/-- The loop that waits runs to its end if no status shows the value. -/
theorem waitLoop_quiet (mask value : UInt8) : ∀ n timer, Quiet (waitLoop D mask value n timer)
    fun t => (∀ s, (D.status s).1 &&& mask ≠ value) → t = timer + n + 1 := by
  intro n
  induction n with
  | zero => exact fun timer v => Ensures.pure fun _ hw => ⟨hw, fun _ => rfl⟩
  | succ n ih =>
      intro timer v
      have hread : Ensures (fun _ => False) (fun w => w.variables = v) (inbStatus D)
          fun byte w => w.variables = v ∧ ∃ s, byte = (D.status s).1 := fun w hw => ⟨hw, _, rfl⟩
      refine hread.bind fun byte => Ensures.ite (fun hit => Ensures.pure ?_) fun _ => ?_
      · rintro w ⟨hw, s, rfl⟩
        exact ⟨hw, fun hnever => absurd hit (hnever s)⟩
      · have hdelay : Ensures (fun _ => False)
            (fun w => w.variables = v ∧ ∃ s, byte = (D.status s).1) (udelay D)
            fun _ w => w.variables = v := fun _ hw => hw.1
        refine hdelay.bind fun _ => (ih (timer + 1) v).mono (fun _ hw => hw) fun t w hw => ?_
        exact ⟨hw.1, fun hnever => by rw [hw.2 hnever]; omega⟩

/-- A wait fails if no status that the controller shows has the value waited for. -/
theorem wait_quiet (mask value : UInt8) : Quiet (waitUntilBitValueOrTimeout D mask value)
    fun ready => (∀ s, (D.status s).1 &&& mask ≠ value) → ready = false := by
  intro v
  refine (waitLoop_quiet D mask value timeout 0 v).bind fun t => Ensures.pure fun w hw => ?_
  refine ⟨hw.1, fun hnever => ?_⟩
  rw [hw.2 hnever]
  rfl

/-- Sending a command returns, whether the controller takes it or the wait times out. -/
theorem sendCommand_quiet (command : UInt8) : Quiet (sendCommand D command) fun _ => True := by
  intro v
  have hwrite : Ensures (fun _ => False) (fun w => w.variables = v) (outbCommand D command)
      fun _ w => w.variables = v := fun _ hw => hw
  refine (wait_quiet D _ _ v).bind fun ready => Ensures.ite (fun _ => ?_) fun _ => ?_
  · exact (hwrite.mono (fun _ hw => hw.1) fun _ _ hw => hw).bind fun _ =>
      Ensures.pure fun _ hw => ⟨hw, trivial⟩
  · exact Ensures.pure fun _ hw => ⟨hw.1, trivial⟩

/-- A command leaves the variables of the driver as they are. -/
theorem sendCommand_steady (command : UInt8)
    (v : Bool × Bool × Bool × Bool × UInt8) :
    Ensures (fun _ => False) (fun w : World σ => w.variables = v) (sendCommand D command)
      fun _ w => w.variables = v :=
  (sendCommand_quiet D command v).mono (fun _ hw => hw) fun _ _ hw => hw.1

/-- Sending a parameter returns, whether the controller takes it or the wait times out. -/
theorem sendData_quiet (byte : UInt8) : Quiet (sendData D byte) fun _ => True := by
  intro v
  have hwrite : Ensures (fun _ => False) (fun w => w.variables = v) (outbData D byte)
      fun _ w => w.variables = v := fun _ hw => hw
  refine (wait_quiet D _ _ v).bind fun ready => Ensures.ite (fun _ => ?_) fun _ => ?_
  · exact (hwrite.mono (fun _ hw => hw.1) fun _ _ hw => hw).bind fun _ =>
      Ensures.pure fun _ hw => ⟨hw, trivial⟩
  · exact Ensures.pure fun _ hw => ⟨hw.1, trivial⟩

section Silent

variable (hsilent : ∀ s, (D.status s).1 &&& statusOutputBuff = 0)

include hsilent

/-- A controller whose output buffer stays empty offers no byte to a poll. -/
theorem pollByte_silent : Quiet (pollByte D) fun byte => byte = none := by
  intro v
  have hnever : ∀ s, (D.status s).1 &&& statusOutputBuff ≠ 1 := by
    intro s
    rw [hsilent s]
    decide
  refine (wait_quiet D _ _ v).bind fun ready => Ensures.ite (fun hready => ?_) fun _ => ?_
  · intro w hw
    rw [hw.2 hnever] at hready
    cases hready
  · exact Ensures.pure fun _ hw => ⟨hw.1, rfl⟩

/-- The configuration of a silent controller reads as zero. -/
theorem readConfiguration_silent :
    Quiet (readControllerConfigurationByte D) fun byte => byte = 0 := by
  intro v
  refine ((sendCommand_quiet D _ v).mono (fun _ hw => hw) fun _ _ hw => hw.1).bind fun _ => ?_
  refine (pollByte_silent D hsilent v).bind fun byte => Ensures.pure fun w hw => ⟨hw.1, ?_⟩
  rw [hw.2]
  rfl

/-- Flushing the output buffer of a silent controller ends after one look at the status. -/
theorem flush_silent (fuel : ℕ) : Quiet (flush D (fuel + 1)) fun _ => True := by
  intro v
  have hread : Ensures (fun _ => False) (fun w => w.variables = v) (inbStatus D)
      fun byte w => w.variables = v ∧ byte &&& statusOutputBuff = 0 :=
    fun w hw => ⟨hw, hsilent w.device⟩
  refine hread.bind fun byte => Ensures.ite (fun hfull => ?_) fun _ => ?_
  · exact fun w hw => absurd hw.2 hfull
  · exact Ensures.pure fun _ hw => ⟨hw.1, trivial⟩

/-- A flush leaves the variables of the driver as they are. -/
theorem flush_steady (fuel : ℕ) (v : Bool × Bool × Bool × Bool × UInt8) :
    Ensures (fun _ => False) (fun w : World σ => w.variables = v) (flush D (fuel + 1))
      fun _ w => w.variables = v :=
  (flush_silent D hsilent fuel v).mono (fun _ hw => hw) fun _ _ hw => hw.1

/-- Up to the interface tests, a silent controller has a second port and no translation. -/
theorem configure_silent (fuel : ℕ) (e p₁ p₂ t : Bool) (c : UInt8) :
    Ensures (fun _ => False) (fun w => w.variables = (e, p₁, p₂, t, c)) (configure D (fuel + 1))
      fun buff w => w.variables = (e, p₁, true, false, c) ∧ buff = 0 := by
  have hcommand := sendCommand_steady D
  have hflush := flush_steady D hsilent fuel
  have hwrite : ∀ byte v, Ensures (fun _ => False) (fun w => w.variables = v)
      (writeControllerConfigurationByte D byte) fun _ w => w.variables = v := by
    intro byte v
    refine (hcommand _ v).bind fun _ => Ensures.ite (fun _ => ?_) fun _ => ?_
    · exact (sendData_quiet D byte v).mono (fun _ hw => hw) fun _ _ hw => hw.1
    · exact Ensures.pure fun _ hw => hw
  refine (hcommand _ _).bind fun _ => (hcommand _ _).bind fun _ => (hflush _).bind fun _ => ?_
  refine (readConfiguration_silent D hsilent _).bind fun buff => Ensures.assume ?_
  rintro rfl
  have htranslation : Ensures (fun _ => False) (fun w : World σ => w.variables = (e, p₁, p₂, t, c))
      (modify fun w => { w with translation := 0 &&& confbytePort1Translation ≠ 0 } :
        Routine σ Unit)
      fun _ w => w.variables = (e, p₁, p₂, false, c) := Ensures.modify fun w hw => by
    simp only [World.variables, Prod.mk.injEq] at hw ⊢
    exact ⟨hw.1, hw.2.1, hw.2.2.1, by decide, hw.2.2.2.2⟩
  refine htranslation.bind fun _ => (hwrite _ _).bind fun _ => (hflush _).bind fun _ => ?_
  refine (hcommand _ _).bind fun _ => (readConfiguration_silent D hsilent _).bind fun buff =>
    Ensures.assume ?_
  rintro rfl
  have hport : Ensures (fun _ => False) (fun w : World σ => w.variables = (e, p₁, p₂, false, c))
      (modify fun w => { w with isPort2Valid := 0 &&& confbytePort2Clock = 0 } : Routine σ Unit)
      fun _ w => w.variables = (e, p₁, true, false, c) := Ensures.modify fun w hw => by
    simp only [World.variables, Prod.mk.injEq] at hw ⊢
    exact ⟨hw.1, hw.2.1, by decide, hw.2.2.2.1, hw.2.2.2.2⟩
  refine hport.bind fun _ => Ensures.ite (fun _ => ?_) fun hclock => absurd (by decide) hclock
  refine (hcommand _ _).bind fun _ => (hwrite _ _).bind fun _ => (hflush _).bind fun _ => ?_
  exact Ensures.pure fun w hw => ⟨hw, by decide⟩

/-- The interface tests of a silent controller find two working ports. -/
theorem testPorts_silent (e p₁ t : Bool) (c : UInt8) :
    Ensures (fun _ => False) (fun w => w.variables = (e, p₁, true, t, c)) (testPorts D 0)
      fun _ w => w.variables = (e, true, true, t, c) := by
  have hcommand := sendCommand_steady D
  refine (hcommand _ _).bind fun _ => (pollByte_silent D hsilent _).bind fun answer =>
    Ensures.assume ?_
  rintro rfl
  have hport1 : Ensures (fun _ => False) (fun w : World σ => w.variables = (e, p₁, true, t, c))
      (modify fun w => { w with isPort1Valid := (none : Option UInt8).getD 0 = 0x00 } :
        Routine σ Unit)
      fun _ w => w.variables = (e, true, true, t, c) := Ensures.modify fun w hw => by
    simp only [World.variables, Prod.mk.injEq] at hw ⊢
    exact ⟨hw.1, by decide, hw.2.2.1, hw.2.2.2⟩
  refine hport1.bind fun _ => Ensures.get.bind fun w => ?_
  refine Ensures.ite (fun _ => ?_) fun hport2 => ?_
  · refine ((hcommand _ (e, true, true, t, c)).mono (fun _ hw => hw.2) fun _ _ hw => hw).bind
      fun _ => (pollByte_silent D hsilent _).bind fun again => Ensures.assume ?_
    rintro rfl
    refine Ensures.modify fun w hw => ?_
    simp only [World.variables, Prod.mk.injEq] at hw ⊢
    exact ⟨hw.1, hw.2.1, by decide, hw.2.2.2⟩
  · rintro s ⟨rfl, hw⟩
    simp only [World.variables, Prod.mk.injEq] at hw
    exact absurd hw.2.2.1 hport2

/-- The initialisation enables a silent controller, with two ports. -/
theorem init_silent (fuel : ℕ) (w : World σ) :
    ∃ w', init D (fuel + 1) w = .ok ((), w') ∧ w'.variables = (true, true, true, false, 0) := by
  have hcommand := sendCommand_steady D
  have hlast : ∀ c, Ensures (fun _ => False)
      (fun w : World σ => w.variables = (true, true, true, false, c))
      (do
        let configByte ← readControllerConfigurationByte D
        modify fun w => { w with configByte := configByte })
      fun _ w => w.variables = (true, true, true, false, 0) := by
    intro c
    refine (readConfiguration_silent D hsilent _).bind fun configByte => Ensures.assume ?_
    rintro rfl
    refine Ensures.modify fun w hw => ?_
    simp only [World.variables, Prod.mk.injEq] at hw ⊢
    exact ⟨hw.1, hw.2.1, hw.2.2.1, hw.2.2.2.1, trivial⟩
  have hinit : Ensures (fun _ => False) (fun u => u.variables = w.variables) (init D (fuel + 1))
      fun _ w => w.variables = (true, true, true, false, 0) := by
    refine (configure_silent D hsilent fuel _ _ _ _ _).bind fun buff => Ensures.assume ?_
    rintro rfl
    refine (testPorts_silent D hsilent _ _ _ _).bind fun _ => ?_
    have henabled : Ensures (fun _ => False)
        (fun u : World σ => u.variables = (w.enabled, true, true, false, w.configByte))
        (modify fun w => { w with enabled := w.isPort1Valid || w.isPort2Valid } : Routine σ Unit)
        fun _ u => u.variables = (true, true, true, false, w.configByte) :=
      Ensures.modify fun u hu => by
        simp only [World.variables, Prod.mk.injEq] at hu ⊢
        exact ⟨by rw [hu.2.1]; rfl, hu.2⟩
    refine henabled.bind fun _ => Ensures.get.bind fun u => ?_
    rintro s ⟨rfl, hu⟩
    have hfields := hu
    simp only [World.variables, Prod.mk.injEq] at hfields
    obtain ⟨henable, hport1, hport2, -⟩ := hfields
    simp only [henable, hport1, hport2, Bool.not_true, Bool.false_eq_true, if_false, if_true]
    exact ((hcommand _ _).bind fun _ => (hcommand _ _).bind fun _ => hlast _) u hu
  obtain ⟨⟨a, w'⟩, hw', hvariables⟩ := (hinit w rfl).returns
  exact ⟨w', hw', hvariables⟩

end Silent

/-- The initialisation never returns from a controller that always offers a byte. -/
theorem init_floating (hfloating : ∀ s, (D.status s).1 &&& statusOutputBuff ≠ 0) (fuel : ℕ)
    (w : World σ) : init D fuel w = .error .diverges := by
  have hflush : ∀ fuel, Ensures (fun e => e = .diverges) (fun _ => True) (flush D fuel)
      fun _ _ => False := by
    intro fuel
    induction fuel with
    | zero => exact Ensures.error rfl
    | succ fuel ih =>
        have hread : Ensures (fun e => e = .diverges) (fun _ => True) (inbStatus D)
            fun byte _ => True ∧ byte &&& statusOutputBuff ≠ 0 :=
          fun w _ => ⟨trivial, hfloating w.device⟩
        refine hread.bind fun byte => Ensures.assume fun hfull => ?_
        refine Ensures.ite (fun _ => ?_) fun hempty => absurd hfull hempty
        have hdelay : Ensures (fun e => e = .diverges) (fun _ => True) (udelay D) fun _ _ => True :=
          fun _ _ => trivial
        have hdata : Ensures (fun e => e = .diverges) (fun _ => True) (inbData D) fun _ _ => True :=
          fun _ _ => trivial
        exact hdelay.bind fun _ => hdata.bind fun _ => ih
  have hcommand : ∀ command, Ensures (fun e => e = .diverges) (fun _ => True)
      (sendCommand D command) fun _ _ => True := fun command w _ =>
    ((sendCommand_quiet D command w.variables w rfl).mono_errors fun _ h => h.elim).mono
      fun _ _ => trivial
  have hinit : Ensures (fun e => e = .diverges) (fun _ => True) (init D fuel) fun _ _ => False := by
    refine Ensures.bind (Q := fun _ _ => False) ?_ fun _ _ h => h.elim
    refine (hcommand _).bind fun _ => (hcommand _).bind fun _ => ?_
    exact (hflush fuel).bind fun _ _ h => h.elim
  have hw := hinit w trivial
  cases hresult : init D fuel w with
  | ok r =>
      rw [hresult] at hw
      exact hw.elim
  | error e =>
      rw [hresult] at hw
      exact congrArg Except.error hw

/-- **Controllers that do not answer.** One that never offers a byte is taken for a controller with
two working ports and no translation; at one that always offers a byte, as the ports of a machine
without a controller may, the initialisation does not end. -/
theorem init_unresponsive (w : World σ) :
    ((∀ s, (D.status s).1 &&& statusOutputBuff = 0) → ∀ fuel, ∃ w',
      init D (fuel + 1) w = .ok ((), w') ∧ w'.enabled ∧ w'.isPort1Valid ∧ w'.isPort2Valid ∧
        ¬ w'.translation ∧ w'.configByte = 0) ∧
    ((∀ s, (D.status s).1 &&& statusOutputBuff ≠ 0) →
      ∀ fuel, init D fuel w = .error .diverges) := by
  refine ⟨fun hsilent fuel => ?_, fun hfloating fuel => init_floating D hfloating fuel w⟩
  obtain ⟨w', hw', hvariables⟩ := init_silent D hsilent fuel w
  simp only [World.variables, Prod.mk.injEq] at hvariables
  obtain ⟨henabled, hport1, hport2, htranslation, hconfig⟩ := hvariables
  exact ⟨w', hw', henabled, hport1, hport2, by simp [htranslation], hconfig⟩

/-- A machine without a controller, whose ports read as ones. -/
def absent : Device Unit where
  status _ := (0xff, ())
  data _ := (0xff, ())
  command _ _ := ()
  input _ _ := ()
  delay _ := ()

/-- With a controller that is always ready but silent the initialisation succeeds, and without
any controller it does not end. -/
theorem init_idle_absent : (∃ w', init idle 1 start = .ok ((), w') ∧ w'.enabled ∧ w'.isPort1Valid ∧
      w'.isPort2Valid ∧ ¬ w'.translation ∧ w'.configByte = 0) ∧
    init absent 5 start = .error .diverges := by
  have hzero : (0 : UInt8) &&& statusOutputBuff = 0 := by decide
  have hones : (0xff : UInt8) &&& statusOutputBuff ≠ 0 := by decide
  exact ⟨(init_unresponsive idle start).1 (fun _ => hzero) 0,
    (init_unresponsive absent start).2 (fun _ => hones) 5⟩

end MugOS.I8042
