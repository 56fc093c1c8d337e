import MugOS.Memory
import MugOS.Lib.PriorityController

/-!
# Interrupts through the 8259 PIC

`Kernel/IRQ/IRQ.c`, `Drivers/IrqChip/i8259.c`, `Drivers/IrqChip/IrqChip.c` and the table of handlers
of `Platform/ISR.c`, on a machine without a local APIC. The two controllers have sixteen lines; the
handlers of drivers are numbered, and a record is kept of those that ran.

Over this there is an abstract machine with sixteen lines that are requested and enabled or not.
It knows nothing of masks, of lines in service or of ends of interrupts: an interrupt serves the
first line that is requested and enabled. The kernel refines it, except that it stops at an
interrupt of the second controller whose request is gone: `handleSpuriousIRQ15` acknowledges it as
IRQ 7, where `i8259_sendEIO` asserts an IRQ that is remapped.

Messages are left out.

## Main results

* `exec_refines`: one call.
* `runs_refine`: every run of the kernel is one of the abstract machine, and fails where that stops.
-/

namespace MugOS.IRQ

open Priority

/-! ### Ports -/

/-- `PIC_MASTER_CMD`. -/
abbrev picMasterCmd : ℕ := 0x20

/-- `PIC_MASTER_DATA`. -/
abbrev picMasterData : ℕ := 0x21

/-- `PIC_SLAVE_CMD`. -/
abbrev picSlaveCmd : ℕ := 0xa0

/-- `PIC_SLAVE_DATA`. -/
abbrev picSlaveData : ℕ := 0xa1

/-- `PIC_ICW1_ICW4|PIC_ICW1_INIT`. -/
abbrev picIcw1 : BitVec 8 := 0x11#8

/-- `PIC_ICW4_8086`. -/
abbrev picIcw4 : BitVec 8 := 0x01#8

/-- `PIC_CMD_EOI`. -/
abbrev picCmdEoi : BitVec 8 := 0x20#8

/-- `PIC_CMD_READ_ISR`. -/
abbrev picCmdReadIsr : BitVec 8 := 0x0b#8

/-- `ISA_IRQ_OFFSET`. -/
abbrev isaIrqOffset : ℕ := 0x20

/-- `IRQ_LPT1`. -/
abbrev irqLpt1 : ℕ := 0x07 + isaIrqOffset

/-- `IRQ_ATA2`. -/
abbrev irqAta2 : ℕ := 0x0f + isaIrqOffset

/-- `outb(port, value)`: a write to the command or data port of one of the controllers. -/
def outb (p : Pair) (port : ℕ) (value : BitVec 8) : Pair :=
  if port = picMasterCmd then { p with master := p.master.command value }
  else if port = picMasterData then { p with master := p.master.data value }
  else if port = picSlaveCmd then { p with slave := p.slave.command value }
  else if port = picSlaveData then { p with slave := p.slave.data value }
  else p

/-- `inb(port)`: a read of the status or the mask of one of the controllers. -/
def inb (p : Pair) (port : ℕ) : BitVec 8 :=
  if port = picMasterCmd then p.master.status
  else if port = picMasterData then p.master.mask
  else if port = picSlaveCmd then p.slave.status
  else p.slave.mask

/-! ### The state -/

/-- An `isr_t` in the table of `ISR.c`, by the function that it points to. -/
inductive IsrHandler
  | prehandler
  | spuriousIRQ7
  | spuriousIRQ15
  | exception
  deriving DecidableEq, Repr

/-- The controllers, the static data of the modules, and the handlers that ran, with their IRQs. -/
structure State where
  pics : Pair
  /-- `m_remapOffset` -/
  remapOffset : ℕ
  /-- `m_handlers` of `ISR.c` -/
  isrHandlers : ℕ → Option IsrHandler
  /-- `m_handlers` of `IRQ.c` -/
  handlers : ℕ → Option ℕ
  log : List (ℕ × ℕ)

/-- A write to a port of the controllers, which changes no variable of the driver. -/
def State.out (s : State) (port : ℕ) (value : BitVec 8) : State :=
  { s with pics := outb s.pics port value }

/-! ### `i8259.c` -/

/-- `remap(offset)`: initialises both controllers with the vectors from the offset on. -/
def remap (s : State) (offset : ℕ) : Except Fault State :=
  if offset % 8 ≠ 0 then .error .panic
  else
    let s := { s with remapOffset := offset }
    let s := (s.out picMasterCmd picIcw1).out picSlaveCmd picIcw1
    let s := (s.out picMasterData (.ofNat 8 offset)).out picSlaveData (.ofNat 8 (offset + 8))
    let s := (s.out picMasterData 4#8).out picSlaveData 2#8
    .ok ((s.out picMasterData picIcw4).out picSlaveData picIcw4)

/-- `getCombinedRegister(PIC_CMD_READ_ISR)`: the lines in service, the slave's in the upper
byte. -/
def getCombinedISR (s : State) : BitVec 16 × State :=
  let s := (s.out picMasterCmd picCmdReadIsr).out picSlaveCmd picCmdReadIsr
  (inb s.pics picSlaveCmd ++ inb s.pics picMasterCmd, s)

/-- The line of an IRQ: `irq -= m_remapOffset; assertValidIRQ(irq)`. -/
def picLine (s : State) (irq : ℤ) : Except Fault ℕ :=
  let irq := irq - s.remapOffset
  if 0 ≤ irq ∧ irq < 16 then .ok irq.toNat else .error .assertion

/-- The read and the write of a mask that `i8259_enableSpecific` and `i8259_disableSpecific` make,
given what they do to the mask for a line of a controller. -/
def updateMask (change : BitVec 8 → ℕ → BitVec 8) (s : State) (irq : ℤ) : Except Fault State := do
  let line ← picLine s irq
  let port := if line < 8 then picMasterData else picSlaveData
  return s.out port (change (inb s.pics port) (if line < 8 then line else line - 8))

/-- `i8259_enableSpecific(irq)`. -/
def i8259EnableSpecific : State → ℤ → Except Fault State :=
  updateMask fun mask line => mask &&& ~~~(1#8 <<< line)

/-- `i8259_disableSpecific(irq)`. -/
def i8259DisableSpecific : State → ℤ → Except Fault State :=
  updateMask fun mask line => mask ||| 1#8 <<< line

/-- `i8259_disableAllIRQ()`: masks all lines but that of the slave. -/
def i8259DisableAllIRQ (s : State) : State :=
  (s.out picMasterData 0xfb#8).out picSlaveData 0xff#8

/-- `i8259_sendEIO(irq)`: ends the interrupt at the master, and at the slave for its lines. -/
def i8259SendEio (s : State) (irq : ℤ) : Except Fault State := do
  let line ← picLine s irq
  let s := if line ≥ 8 then s.out picSlaveCmd picCmdEoi else s
  return s.out picMasterCmd picCmdEoi

/-! ### `IRQ.c` and `ISR.c` -/

/-- `ISR_installHandler(vector, handler)`: enters the handler in the table. -/
def isrInstallHandler (s : State) (vector : ℕ) (handler : IsrHandler) : State :=
  { s with isrHandlers := Function.update s.isrHandlers vector (some handler) }

/-- `IRQ_prehandler(params)`: the handler that a driver installed runs, and the interrupt ends. -/
def irqPrehandler (s : State) (irq : ℕ) : Except Fault State :=
  let s := match s.handlers irq with
    | some handler => { s with log := s.log ++ [(irq, handler)] }
    | none => s
  i8259SendEio s irq

/-- `handleSpuriousIRQ7(params)`: ignores the interrupt if line 7 is not in service. -/
def handleSpuriousIRQ7 (s : State) (vector : ℕ) : Except Fault State :=
  let (isr, s) := getCombinedISR s
  if isr.getLsbD 7 = false then .ok s else irqPrehandler s vector

/-- `handleSpuriousIRQ15(params)`: ends the interrupt at the master only if line 15 is not in
service. -/
def handleSpuriousIRQ15 (s : State) (vector : ℕ) : Except Fault State :=
  let (isr, s) := getCombinedISR s
  if isr.getLsbD 15 = false then i8259SendEio s 7 else irqPrehandler s vector

/-- `ISR_asmPrehandler`: the handler of a vector, or `ISR_noHandler`. -/
def isrPrehandler (s : State) (vector : ℕ) : Except Fault State :=
  match s.isrHandlers vector with
  | some .prehandler => irqPrehandler s vector
  | some .spuriousIRQ7 => handleSpuriousIRQ7 s vector
  | some .spuriousIRQ15 => handleSpuriousIRQ15 s vector
  | some .exception => .error .panic
  | none => if vector ≥ 32 then .ok s else .error .panic

/-- `i8259_init()`: remaps the controllers and installs the handlers of spurious interrupts. -/
def i8259Init (s : State) : Except Fault State := do
  let s ← remap s isaIrqOffset
  return isrInstallHandler (isrInstallHandler s irqLpt1 .spuriousIRQ7) irqAta2 .spuriousIRQ15

/-- The table of handlers that `ISR_init()` leaves. -/
def isrInit (s : State) : State :=
  let s := { s with isrHandlers := fun _ => none }
  let s := isrInstallHandler (isrInstallHandler s 0x00 .exception) 0x08 .exception
  isrInstallHandler (isrInstallHandler s 0x0b .exception) 0x0e .exception

/-- `installPrehandler(IRQ_prehandler)`, over the vectors of its loop. -/
def installPrehandler (s : State) (vectors : List ℕ) : State :=
  vectors.foldl (fun s irq =>
    if s.isrHandlers irq = none then isrInstallHandler s irq .prehandler else s) s

/-- `IRQ_init()`: initialises the driver, installs the handler of all vectors and masks the
lines. -/
def irqInit (s : State) : Except Fault State := do
  let s ← i8259Init { s with handlers := fun _ => none }
  return i8259DisableAllIRQ (installPrehandler s (List.range' 32 224))

/-- `isValidIRQ(irq)`: whether the number is that of a vector from 32 on. -/
def isValidIRQ (irq : ℤ) : Bool := decide (irq ≥ 32 ∧ irq < 256)

/-! ### Calls -/

/-- The calls of drivers, what happens to the sixteen lines, and interrupts of the processor. The
line to the second controller is raised and lowered like the others, so that its request may also be
gone when the interrupt is acknowledged. -/
inductive Call
  | enableSpecific (irq : ℤ)
  | disableSpecific (irq : ℤ)
  | installHandler (irq : ℤ) (handler : ℕ)
  | removeHandler (irq : ℤ)
  | raise (line : ℕ)
  | lower (line : ℕ)
  | interrupt
  deriving DecidableEq, Repr

/-- A function of `IRQ.c`, which asserts its IRQ first. -/
def checked (irq : ℤ) (s : Except Fault State) : Except Fault State :=
  if isValidIRQ irq then s else .error .assertion

/-- What a device does to one of the sixteen lines. -/
def onLine (f : Controller → ℕ → Controller) (s : State) (line : ℕ) : State :=
  if line < 8 then { s with pics := { s.pics with master := f s.pics.master line } }
  else { s with pics := { s.pics with slave := f s.pics.slave (line - 8) } }

/-- One call of the interface: a line, a handler, an interrupt or a device that raises its
line. -/
def exec (s : State) : Call → Except Fault State
  | .enableSpecific irq => checked irq (i8259EnableSpecific s irq)
  | .disableSpecific irq => checked irq (i8259DisableSpecific s irq)
  | .installHandler irq handler =>
      checked irq (.ok { s with handlers := Function.update s.handlers irq.toNat (some handler) })
  | .removeHandler irq =>
      checked irq (.ok { s with handlers := Function.update s.handlers irq.toNat none })
  | .raise line => .ok (onLine Controller.raise s line)
  | .lower line => .ok (onLine Controller.lower s line)
  | .interrupt =>
      let (vector, pics) := s.pics.acknowledge
      isrPrehandler { s with pics := pics } vector

/-- Several calls. -/
def execAll : List Call → State → Except Fault State
  | [], s => .ok s
  | call :: rest, s => do
      let s ← exec s call
      execAll rest s

/-! ### The abstract machine -/

/-- Sixteen lines, the handlers of the drivers by their IRQs, and those that ran. -/
structure Lines where
  requested : ℕ → Bool
  enabled : ℕ → Bool
  handlers : ℕ → Option ℕ
  log : List (ℕ × ℕ)

/-- The first of eight lines, from a line on, that is requested and enabled. -/
def Lines.first (s : Lines) (start : ℕ) : Option ℕ :=
  (List.range 8).find? fun l => s.requested (start + l) && s.enabled (start + l)

/-- A line is served: its request is gone and its handler runs, if there is one. -/
def Lines.serve (s : Lines) (line : ℕ) : Lines :=
  { s with
    requested := Function.update s.requested line false
    log := s.log ++ (s.handlers (32 + line)).toList.map fun handler => (32 + line, handler) }

/-- An interrupt: the first line that is requested and enabled is served; where this is the one that
the second controller is connected to, the first such line of the second controller is. The machine
stops if that has none. -/
def Lines.interrupt (s : Lines) : Option Lines :=
  match s.first 0 with
  | none => some s
  | some l =>
      if l = cascadeLine then
        let s := { s with requested := Function.update s.requested l false }
        (s.first 8).map fun l' => s.serve (8 + l')
      else some (s.serve l)

/-- An IRQ that a driver may name, within the given number. -/
def validBelow (n : ℤ) (irq : ℤ) (s : Lines) : Option Lines :=
  if 32 ≤ irq ∧ irq < n then some s else none

/-- One call of the abstract machine, if its number is one that the machine admits. -/
def Lines.step (s : Lines) : Call → Option Lines
  | .enableSpecific irq =>
      validBelow 48 irq { s with enabled := Function.update s.enabled (irq.toNat - 32) true }
  | .disableSpecific irq =>
      validBelow 48 irq { s with enabled := Function.update s.enabled (irq.toNat - 32) false }
  | .installHandler irq handler =>
      validBelow 256 irq { s with handlers := Function.update s.handlers irq.toNat (some handler) }
  | .removeHandler irq =>
      validBelow 256 irq { s with handlers := Function.update s.handlers irq.toNat none }
  | .raise line => some { s with requested := Function.update s.requested line true }
  | .lower line => some { s with requested := Function.update s.requested line false }
  | .interrupt => s.interrupt

/-- Several calls of the abstract machine, as far as each is admitted. -/
def Lines.steps (s : Lines) : List Call → Option Lines
  | [] => some s
  | call :: rest => s.step call >>= fun s => s.steps rest

/-- The machine after `IRQ_init`: the line to the second controller is enabled. -/
def Lines.start (log : List (ℕ × ℕ)) : Lines where
  requested := fun _ => false
  enabled := fun line => decide (line = cascadeLine)
  handlers := fun _ => none
  log := log

/-! ### The controllers mirror the lines -/

/-- A controller that mirrors eight lines, with some of them in service. -/
structure Mirror (c : Controller) (base : ℕ) (served : BitVec 8) (requested enabled : ℕ → Bool) :
    Prop where
  pending : c.pending = 0
  base_eq : c.base = base
  inService : c.inService = served
  requests : ∀ l < 8, c.requests.getLsbD l = requested l
  mask : ∀ l < 8, c.mask.getLsbD l = !enabled l

section

variable {c : Controller} {base : ℕ} {served : BitVec 8} {requested enabled : ℕ → Bool}

/-- A mirror only depends on the requests and enables of the eight lines of the controller. -/
theorem Mirror.congr (h : Mirror c base served requested enabled) {requested' enabled' : ℕ → Bool}
    (hrequested : ∀ l < 8, requested' l = requested l)
    (henabled : ∀ l < 8, enabled' l = enabled l) :
    Mirror c base served requested' enabled' where
  pending := h.pending
  base_eq := h.base_eq
  inService := h.inService
  requests := fun l hl => by rw [h.requests l hl, hrequested l hl]
  mask := fun l hl => by rw [h.mask l hl, henabled l hl]

/-- Writing a mask makes the lines enabled whose bits are clear in it. -/
theorem Mirror.data (h : Mirror c base served requested enabled) {v : BitVec 8}
    {enabled' : ℕ → Bool} (hv : ∀ l < 8, v.getLsbD l = !enabled' l) :
    Mirror (c.data v) base served requested enabled' := by
  have hdata : c.data v = { c with mask := v } := by rw [Controller.data, h.pending]
  rw [hdata]
  exact ⟨h.pending, h.base_eq, h.inService, h.requests, hv⟩

/-- When a device raises its line, the controller has its request, and nothing else changes. -/
theorem Mirror.raise (h : Mirror c base served requested enabled) (line : ℕ) :
    Mirror (c.raise line) base served (Function.update requested line true) enabled := by
  refine ⟨h.pending, h.base_eq, h.inService, fun l hl => ?_, h.mask⟩
  rw [Controller.raise, getLsbD_set hl, h.requests l hl, Function.update_apply]
  split <;> simp_all

/-- When a device lowers its line, the request disappears, and nothing else changes. -/
theorem Mirror.lower (h : Mirror c base served requested enabled) (line : ℕ) :
    Mirror (c.lower line) base served (Function.update requested line false) enabled := by
  refine ⟨h.pending, h.base_eq, h.inService, fun l hl => ?_, h.mask⟩
  rw [Controller.lower, getLsbD_clear hl, h.requests l hl, Function.update_apply]
  split <;> simp_all

/-- After the command to read the ISR, the status that is read is the set of lines in
service. -/
theorem Mirror.readIsr (h : Mirror c base served requested enabled) :
    Mirror (c.command picCmdReadIsr) base served requested enabled ∧
      (c.command picCmdReadIsr).status = served :=
  ⟨⟨h.pending, h.base_eq, h.inService, h.requests, h.mask⟩, h.inService⟩

/-- The end of interrupt of the only line in service leaves no line in service. -/
theorem Mirror.eoi {l : ℕ} (h : Mirror c base (1#8 <<< l) requested enabled) :
    Mirror (c.command picCmdEoi) base 0#8 requested enabled := by
  rw [Controller.command_eoi h.inService]
  exact ⟨h.pending, h.base_eq, rfl, h.requests, h.mask⟩

/-- **The line that is served next** is the first one that is requested and enabled. -/
theorem Mirror.next (h : Mirror c base 0#8 requested enabled) :
    c.next = (List.range 8).find? fun l => requested l && enabled l := by
  rw [Controller.next_spec h.inService]
  refine List.find?_congr fun l hl => ?_
  rw [h.requests l (List.mem_range.mp hl), h.mask l (List.mem_range.mp hl), Bool.not_not]

/-- An interrupt of a controller that has nothing to serve. -/
theorem Mirror.acknowledge_none (h : Mirror c base 0#8 requested enabled)
    (hnone : ((List.range 8).find? fun l => requested l && enabled l) = none) :
    c.acknowledge = (none, c) := by
  rw [Controller.acknowledge, h.next, hnone]

/-- Acknowledging the first line that is requested and enabled puts it in service and clears
its request. -/
theorem Mirror.acknowledge_some (h : Mirror c base 0#8 requested enabled) {l : ℕ}
    (hsome : ((List.range 8).find? fun l => requested l && enabled l) = some l) :
    ∃ c', c.acknowledge = (some l, c') ∧
      Mirror c' base (1#8 <<< l) (Function.update requested l false) enabled := by
  refine ⟨{ c.lower l with inService := c.inService ||| 1#8 <<< l }, ?_, ?_⟩
  · rw [Controller.acknowledge, h.next, hsome]
  · have hlower := h.lower l
    refine ⟨hlower.pending, hlower.base_eq, ?_, hlower.requests, hlower.mask⟩
    rw [h.inService, BitVec.zero_or]

end

/-- The handler in the table of `ISR.c` of a line. -/
def isrOf (line : ℕ) : IsrHandler :=
  if line = 7 then .spuriousIRQ7 else if line = 15 then .spuriousIRQ15 else .prehandler

/-- **The kernel mirrors the lines**, with some of them in service. -/
structure Mirrors (k : State) (s : Lines) (master slave : BitVec 8) : Prop where
  remapOffset : k.remapOffset = isaIrqOffset
  master : Mirror k.pics.master 32 master s.requested s.enabled
  slave : Mirror k.pics.slave 40 slave (fun l => s.requested (8 + l)) fun l => s.enabled (8 + l)
  isrHandlers : ∀ line < 16, k.isrHandlers (32 + line) = some (isrOf line)
  handlers : k.handlers = s.handlers
  log : k.log = s.log

/-- **The kernel refines the lines**: no line is in service. -/
def Refines (k : State) (s : Lines) : Prop := Mirrors k s 0#8 0#8

section

variable {k : State} {s : Lines} {master slave : BitVec 8}

/-- The line of an IRQ is its distance from 32, and an IRQ outside of the sixteen fails the
assertion. -/
theorem Mirrors.line_eq (h : Mirrors k s master slave) {irq : ℤ} :
    picLine k irq = if 32 ≤ irq ∧ irq < 48 then .ok (irq.toNat - 32) else .error .assertion := by
  simp only [picLine, h.remapOffset, isaIrqOffset]
  by_cases hirq : 32 ≤ irq ∧ irq < 48
  · rw [if_pos (by omega), if_pos hirq]
    congr 1
    omega
  · rw [if_neg (by omega), if_neg hirq]

/-- Reading the combined ISR gives the lines in service of both controllers, and changes
nothing else. -/
theorem Mirrors.readIsr (h : Mirrors k s master slave) :
    ∃ k', getCombinedISR k = (slave ++ master, k') ∧ Mirrors k' s master slave := by
  obtain ⟨hmaster, hreadm⟩ := h.master.readIsr
  obtain ⟨hslave, hreads⟩ := h.slave.readIsr
  refine ⟨(k.out picMasterCmd picCmdReadIsr).out picSlaveCmd picCmdReadIsr, ?_,
    ⟨h.remapOffset, hmaster, hslave, h.isrHandlers, h.handlers, h.log⟩⟩
  rw [← hreadm, ← hreads]
  rfl

/-- The lines that are in service while a line is served. -/
def InService (line : ℕ) (master slave : BitVec 8) : Prop :=
  line < 8 ∧ master = 1#8 <<< line ∧ slave = 0#8 ∨
    ∃ l < 8, line = 8 + l ∧ master = 1#8 <<< cascadeLine ∧ slave = 1#8 <<< l

/-- **The end of an interrupt**: no line is in service any more. -/
theorem Mirrors.sendEio (h : Mirrors k s master slave) {line : ℕ}
    (hline : InService line master slave) :
    ∃ k', i8259SendEio k (32 + line : ℕ) = .ok k' ∧ Refines k' s := by
  have hpic : picLine k (32 + line : ℕ) = .ok line := by
    have hlt : line < 16 := by rcases hline with ⟨h, -⟩ | ⟨l, h, rfl, -⟩ <;> omega
    rw [h.line_eq, if_pos (by omega)]
    congr 1
    omega
  rw [i8259SendEio, hpic]
  rcases hline with ⟨hlt, rfl, rfl⟩ | ⟨l, hlt, rfl, rfl, rfl⟩
  · refine ⟨_, rfl, ?_⟩
    rw [if_neg (by omega)]
    exact ⟨h.remapOffset, h.master.eoi, h.slave, h.isrHandlers, h.handlers, h.log⟩
  · refine ⟨_, rfl, ?_⟩
    rw [if_pos (by omega)]
    exact ⟨h.remapOffset, h.master.eoi, h.slave.eoi, h.isrHandlers, h.handlers, h.log⟩

/-- **The handler of a line runs**, and the interrupt ends. -/
theorem Mirrors.handled (h : Mirrors k s master slave) {line : ℕ}
    (hline : InService line master slave) :
    ∃ k', irqPrehandler k (32 + line) = .ok k' ∧
      Refines k' { s with log := s.log ++
        (s.handlers (32 + line)).toList.map fun handler => (32 + line, handler) } := by
  simp only [irqPrehandler, congrFun h.handlers (32 + line)]
  cases hhandler : s.handlers (32 + line) with
  | none =>
      obtain ⟨k', hsend, hrefines⟩ := h.sendEio hline
      refine ⟨k', hsend, ?_⟩
      simpa using hrefines
  | some handler =>
      have hlogged : Mirrors { k with log := k.log ++ [(32 + line, handler)] }
          { s with log := s.log ++ [(32 + line, handler)] } master slave :=
        ⟨h.remapOffset, h.master, h.slave, h.isrHandlers, h.handlers, by rw [h.log]⟩
      exact hlogged.sendEio hline

/-- **The interrupt of a line** leads to its handler, also where it could be spurious. -/
theorem Mirrors.dispatched (h : Mirrors k s master slave) {line : ℕ}
    (hline : InService line master slave) :
    ∃ k', isrPrehandler k (32 + line) = .ok k' ∧
      Refines k' { s with log := s.log ++
        (s.handlers (32 + line)).toList.map fun handler => (32 + line, handler) } := by
  have hlt : line < 16 := by rcases hline with ⟨h, -⟩ | ⟨l, h, rfl, -⟩ <;> omega
  rw [isrPrehandler, h.isrHandlers line hlt, isrOf]
  obtain ⟨k₁, hisr, hread⟩ := h.readIsr
  by_cases h7 : line = 7
  · obtain ⟨-, rfl, rfl⟩ := hline.resolve_right fun ⟨l, _, heq, _⟩ => by omega
    subst h7
    obtain ⟨k', hpre, hrefines⟩ := hread.handled (.inl ⟨by omega, rfl, rfl⟩)
    refine ⟨k', ?_, hrefines⟩
    simp only [if_true, handleSpuriousIRQ7, hisr]
    rw [if_neg (by decide)]
    exact hpre
  · by_cases h15 : line = 15
    · obtain ⟨l, hl, heq, rfl, rfl⟩ := hline.resolve_left fun ⟨hlt, _⟩ => by omega
      obtain rfl : l = 7 := by omega
      subst h15
      obtain ⟨k', hpre, hrefines⟩ := hread.handled (.inr ⟨7, hl, rfl, rfl, rfl⟩)
      refine ⟨k', ?_, hrefines⟩
      simp only [h7, if_false, if_true, handleSpuriousIRQ15, hisr]
      rw [if_neg (by decide)]
      exact hpre
    · simp only [h7, h15, if_false]
      exact h.handled hline

/-- The request of a line of the first controller is gone, and the line is in service. -/
theorem Mirrors.masterServed (h : Refines k s) {l : ℕ} (hl : l < 8) {c : Controller}
    (hc : Mirror c 32 (1#8 <<< l) (Function.update s.requested l false) s.enabled) :
    Mirrors { k with pics := { k.pics with master := c } }
      { s with requested := Function.update s.requested l false } (1#8 <<< l) 0#8 :=
  ⟨h.remapOffset, hc, h.slave.congr (fun i _ => Function.update_of_ne (by omega) _ _)
    fun _ _ => rfl, h.isrHandlers, h.handlers, h.log⟩

/-- An interrupt of a line of the slave puts this line and the cascade line of the master in
service. -/
theorem Mirrors.slaveServed (h : Mirrors k s master 0#8) {l : ℕ} {c : Controller}
    (hc : Mirror c 40 (1#8 <<< l) (Function.update (fun i => s.requested (8 + i)) l false)
      fun i => s.enabled (8 + i)) :
    Mirrors { k with pics := { k.pics with slave := c } }
      { s with requested := Function.update s.requested (8 + l) false } master (1#8 <<< l) := by
  refine ⟨h.remapOffset, h.master.congr (fun i _ => Function.update_of_ne (by omega) _ _)
    fun _ _ => rfl, hc.congr (fun i _ => ?_) fun _ _ => rfl, h.isrHandlers, h.handlers, h.log⟩
  simp only [Function.update_apply, Nat.add_left_cancel_iff]

/-- What the kernel does agrees with what the machine does: both go on and the kernel refines the
machine, or the machine stops and the kernel fails an assertion. -/
def Agrees : Except Fault State → Option Lines → Prop
  | .ok k, some s => Refines k s
  | .error e, none => e = .assertion
  | _, _ => False

/-- A line that is found among the eight lines of a controller is one of them. -/
theorem Lines.first_lt {start l : ℕ} (h : s.first start = some l) : l < 8 :=
  List.mem_range.mp (List.mem_of_find?_eq_some h)

/-- A spurious interrupt of the first controller is ignored. -/
theorem Mirrors.spuriousIRQ7 (h : Refines k s) :
    ∃ k', isrPrehandler k (32 + 7) = .ok k' ∧ Refines k' s := by
  obtain ⟨k', hisr, hread⟩ := h.readIsr
  refine ⟨k', ?_, hread⟩
  rw [isrPrehandler, h.isrHandlers 7 (by omega), isrOf, if_pos rfl]
  simp only [handleSpuriousIRQ7, hisr]
  rw [if_pos (by decide)]

/-- **A spurious interrupt of the second controller** is acknowledged as an IRQ that is none. -/
theorem Mirrors.spuriousIRQ15 (h : Mirrors k s (1#8 <<< cascadeLine) 0#8) :
    isrPrehandler k (32 + 15) = .error .assertion := by
  obtain ⟨k', hisr, hread⟩ := h.readIsr
  rw [isrPrehandler, h.isrHandlers 15 (by omega), isrOf, if_neg (by omega), if_pos rfl]
  simp only [handleSpuriousIRQ15, hisr]
  rw [if_pos (by decide), i8259SendEio, hread.line_eq, if_neg (by omega)]
  rfl

/-- **An interrupt** does the same to the driver with its controllers as to the sixteen
lines. -/
theorem Mirrors.interrupt (h : Refines k s) : Agrees (exec k .interrupt) s.interrupt := by
  have hzero : (fun l => s.requested (0 + l) && s.enabled (0 + l)) =
      fun l => s.requested l && s.enabled l := by simp
  cases hfirst : s.first 0 with
  | none =>
      have hfind := hfirst
      rw [Lines.first, hzero] at hfind
      obtain ⟨k', hisr, hrefines⟩ := Mirrors.spuriousIRQ7 h
      rw [Lines.interrupt, hfirst]
      simp only [exec, Pair.acknowledge, h.master.acknowledge_none hfind, h.master.base_eq]
      rw [hisr]
      exact hrefines
  | some l =>
      have hl := Lines.first_lt hfirst
      have hfind := hfirst
      rw [Lines.first, hzero] at hfind
      obtain ⟨m, hack, hm⟩ := h.master.acknowledge_some hfind
      have hserved := Mirrors.masterServed h hl hm
      rw [Lines.interrupt, hfirst]
      by_cases hcascade : l = cascadeLine
      · subst hcascade
        simp only [exec, Pair.acknowledge, hack, if_true]
        cases hsecond : Lines.first
            { s with requested := Function.update s.requested cascadeLine false } 8 with
        | none =>
            have hslave : k.pics.slave.acknowledge = (none, k.pics.slave) :=
              hserved.slave.acknowledge_none hsecond
            simp only [hslave, h.slave.base_eq, Option.getD_none, Option.map_none]
            rw [hserved.spuriousIRQ15]
            rfl
        | some l' =>
            obtain ⟨c, hslave, hc⟩ := hserved.slave.acknowledge_some hsecond
            have hack' : k.pics.slave.acknowledge = (some l', c) := hslave
            obtain ⟨k', hisr, hrefines⟩ := (hserved.slaveServed hc).dispatched
              (.inr ⟨l', Lines.first_lt hsecond, rfl, rfl, rfl⟩)
            simp only [hack', hc.base_eq, Option.getD_some, Option.map_some]
            rw [show 40 + l' = 32 + (8 + l') by omega, hisr]
            exact hrefines
      · obtain ⟨k', hisr, hrefines⟩ := hserved.dispatched (.inl ⟨hl, rfl, rfl⟩)
        simp only [exec, Pair.acknowledge, hack, hcascade, if_false, hm.base_eq]
        rw [hisr]
        exact hrefines

/-! ### Calls of drivers -/

/-- The line of an IRQ that is named belongs to one of the controllers. -/
theorem Mirrors.masked (h : Refines k s) {change : BitVec 8 → ℕ → BitVec 8} {enable : Bool}
    (hchange : ∀ (mask : BitVec 8) (line l : ℕ), l < 8 →
      (change mask line).getLsbD l = if l = line then !enable else mask.getLsbD l) (irq : ℤ) :
    Agrees (checked irq (updateMask change k irq))
      (validBelow 48 irq
        { s with enabled := Function.update s.enabled (irq.toNat - 32) enable }) := by
  rw [checked, updateMask, h.line_eq, validBelow, isValidIRQ]
  by_cases hirq : 32 ≤ irq ∧ irq < 48
  · rw [if_pos hirq, if_pos hirq, if_pos (by simp; omega)]
    generalize hline : irq.toNat - 32 = line
    have hlt : line < 16 := by omega
    simp only [bind, Except.bind]
    by_cases hmaster : line < 8
    · rw [if_pos hmaster, if_pos hmaster]
      refine ⟨h.remapOffset, h.master.data fun l hl => ?_, h.slave.congr (fun _ _ => rfl)
        fun l _ => Function.update_of_ne (by omega) _ _, h.isrHandlers, h.handlers, h.log⟩
      have hmask : inb k.pics picMasterData = k.pics.master.mask := rfl
      rw [hchange _ _ l hl, hmask, h.master.mask l hl]
      simp only [Function.update_apply]
      split <;> rfl
    · rw [if_neg hmaster, if_neg hmaster]
      refine ⟨h.remapOffset, h.master.congr (fun _ _ => rfl)
        fun l _ => Function.update_of_ne (by omega) _ _, h.slave.data fun l hl => ?_,
        h.isrHandlers, h.handlers, h.log⟩
      have hmask : inb k.pics picSlaveData = k.pics.slave.mask := rfl
      rw [hchange _ _ l hl, hmask, h.slave.mask l hl]
      simp only [Function.update_apply, show 8 + l = line ↔ l = line - 8 by omega]
      split <;> rfl
  · rw [if_neg hirq, if_neg hirq]
    split <;> rfl

/-- A device that raises or lowers its line does the same to both, as each controller mirrors
its lines. -/
theorem Mirrors.onLine (h : Refines k s) {f : Controller → ℕ → Controller} {value : Bool}
    (hf : ∀ {c : Controller} {base : ℕ} {requested enabled : ℕ → Bool} {l : ℕ},
      Mirror c base 0#8 requested enabled →
        Mirror (f c l) base 0#8 (Function.update requested l value) enabled) (line : ℕ) :
    Refines (onLine f k line) { s with requested := Function.update s.requested line value } := by
  rw [IRQ.onLine]
  split
  · exact ⟨h.remapOffset, hf h.master, h.slave.congr
      (fun l _ => Function.update_of_ne (by omega) _ _) fun _ _ => rfl, h.isrHandlers, h.handlers,
      h.log⟩
  · refine ⟨h.remapOffset, h.master.congr (fun l _ => Function.update_of_ne (by omega) _ _)
      fun _ _ => rfl, (hf h.slave).congr (fun l _ => ?_) fun _ _ => rfl, h.isrHandlers, h.handlers,
      h.log⟩
    simp only [Function.update_apply, show 8 + l = line ↔ l = line - 8 by omega]

/-- **One call**: the kernel and the machine both go on, or both stop. -/
theorem exec_refines (h : Refines k s) (call : Call) : Agrees (exec k call) (s.step call) := by
  cases call with
  | enableSpecific irq =>
      refine Mirrors.masked h (fun mask line l hl => ?_) irq
      rw [getLsbD_clear hl]
      split <;> simp_all
  | disableSpecific irq =>
      refine Mirrors.masked h (fun mask line l hl => ?_) irq
      rw [getLsbD_set hl]
      split <;> simp_all
  | installHandler irq handler =>
      simp only [exec, Lines.step, checked, isValidIRQ, validBelow, decide_eq_true_eq, ge_iff_le]
      split
      · exact ⟨h.remapOffset, h.master, h.slave, h.isrHandlers, by rw [h.handlers], h.log⟩
      · rfl
  | removeHandler irq =>
      simp only [exec, Lines.step, checked, isValidIRQ, validBelow, decide_eq_true_eq, ge_iff_le]
      split
      · exact ⟨h.remapOffset, h.master, h.slave, h.isrHandlers, by rw [h.handlers], h.log⟩
      · rfl
  | raise line => exact Mirrors.onLine h (fun hc => hc.raise _) line
  | lower line => exact Mirrors.onLine h (fun hc => hc.lower _) line
  | interrupt => exact Mirrors.interrupt h

end

/-! ### Runs -/

/-- One round of `installPrehandler` installs the handler for its vector, if there is none. -/
theorem installPrehandler_cons (w : ℕ) (rest : List ℕ) (s : State) :
    installPrehandler s (w :: rest) = installPrehandler
      (if s.isrHandlers w = none then isrInstallHandler s w .prehandler else s) rest := rfl

/-- After `installPrehandler` every one of the vectors without a handler has the prehandler,
and others are as before. -/
theorem installPrehandler_isr (vectors : List ℕ) (s : State) (v : ℕ) :
    (installPrehandler s vectors).isrHandlers v =
      if v ∈ vectors ∧ s.isrHandlers v = none then some .prehandler else s.isrHandlers v := by
  induction vectors generalizing s with
  | nil => simp [installPrehandler]
  | cons w rest ih =>
      rw [installPrehandler_cons, ih]
      by_cases hvw : v = w
      · subst hvw
        by_cases hnone : s.isrHandlers v = none <;> simp [hnone, isrInstallHandler]
      · by_cases hnone : s.isrHandlers w = none <;> simp [hnone, hvw, isrInstallHandler]

/-- `installPrehandler` changes the table of handlers and nothing else. -/
theorem installPrehandler_eq (vectors : List ℕ) (s : State) :
    installPrehandler s vectors =
      { s with isrHandlers := (installPrehandler s vectors).isrHandlers } := by
  induction vectors generalizing s with
  | nil => rfl
  | cons w rest ih =>
      rw [installPrehandler_cons, ih]
      split <;> rfl

/-- A controller that was initialised, with no mask yet. -/
structure Initialised (c : Controller) (base : ℕ) : Prop where
  pending : c.pending = 0
  base_eq : c.base = base
  requests : c.requests = 0#8
  inService : c.inService = 0#8

/-- Writing a mask to a controller that was just initialised makes it mirror the lines that are
enabled by it. -/
theorem Initialised.data {c : Controller} {base : ℕ} (h : Initialised c base) {v : BitVec 8}
    {enabled : ℕ → Bool} (hv : ∀ l < 8, v.getLsbD l = !enabled l) :
    Mirror (c.data v) base 0#8 (fun _ => false) enabled := by
  have hmirror : Mirror c base 0#8 (fun _ => false) fun l => !c.mask.getLsbD l := by
    refine ⟨h.pending, h.base_eq, h.inService, fun l _ => ?_, fun l _ => (Bool.not_not _).symm⟩
    rw [h.requests, BitVec.getLsbD_zero]
  exact hmirror.data hv

/-- **`i8259_init`**, whatever the controllers were before. -/
theorem i8259Init_spec (s : State) : ∃ k, i8259Init s = .ok k ∧ k.remapOffset = isaIrqOffset ∧
    Initialised k.pics.master 32 ∧ Initialised k.pics.slave 40 ∧
    k.isrHandlers = Function.update (Function.update s.isrHandlers irqLpt1 (some .spuriousIRQ7))
      irqAta2 (some .spuriousIRQ15) ∧ k.handlers = s.handlers ∧ k.log = s.log :=
  ⟨_, rfl, rfl, ⟨rfl, rfl, rfl, rfl⟩, ⟨rfl, rfl, rfl, rfl⟩, rfl, rfl, rfl⟩

/-- `ISR_init` leaves no handlers for the vectors of interrupts, those from 32 on. -/
theorem isrInit_isr (s : State) {v : ℕ} (hv : 32 ≤ v) : (isrInit s).isrHandlers v = none := by
  simp only [isrInit, isrInstallHandler]
  repeat rw [Function.update_of_ne (by omega)]

/-- **After `ISR_init` and `IRQ_init`** the kernel refines the machine at its start, whatever the
controllers were before. -/
theorem irqInit_refines (s : State) :
    ∃ k, irqInit (isrInit s) = .ok k ∧ Refines k (Lines.start s.log) := by
  have hmaster : ∀ l < 8, (0xfb#8).getLsbD l = !decide (l = cascadeLine) := by decide
  have hslave : ∀ l < 8, (0xff#8).getLsbD l = !decide (8 + l = cascadeLine) := by decide
  obtain ⟨k, hinit, hoffset, hm, hs, hisr, hhandlers, hlog⟩ :=
    i8259Init_spec { isrInit s with handlers := fun _ => none }
  refine ⟨i8259DisableAllIRQ (installPrehandler k (List.range' 32 224)), ?_, ?_⟩
  · rw [irqInit, hinit]
    rfl
  · have hmem : ∀ line < 16, 32 + line ∈ List.range' 32 224 := fun line hline =>
      List.mem_range'_1.mpr (by omega)
    generalize List.range' 32 224 = vectors at hmem ⊢
    rw [installPrehandler_eq]
    refine ⟨hoffset, hm.data hmaster, hs.data hslave, fun line hline => ?_, hhandlers, hlog⟩
    have htable : k.isrHandlers (32 + line) = if line = 15 then some .spuriousIRQ15
        else if line = 7 then some .spuriousIRQ7 else none := by
      simp only [hisr, Function.update_apply, irqLpt1, irqAta2, isaIrqOffset,
        isrInit_isr s (show 32 ≤ 32 + line by omega)]
      simp only [show 32 + line = 0x0f + 0x20 ↔ line = 15 by omega,
        show 32 + line = 0x07 + 0x20 ↔ line = 7 by omega]
    have hinstalled := installPrehandler_isr vectors k (32 + line)
    rw [htable] at hinstalled
    refine hinstalled.trans ?_
    rw [isrOf]
    by_cases h7 : line = 7
    · simp [h7]
    · by_cases h15 : line = 15
      · simp [h15]
      · simp [hmem line hline, h7, h15]

/-- **Every run refines the abstract machine**: after `ISR_init` and `IRQ_init`, whatever the
controllers were before, the kernel and the machine go through any calls and interrupts alike; the
kernel fails, with an assertion, exactly where the machine stops. -/
theorem runs_refine (s : State) (cs : List Call) :
    Agrees (irqInit (isrInit s) >>= execAll cs) ((Lines.start s.log).steps cs) := by
  obtain ⟨k, hinit, hrefines⟩ := irqInit_refines s
  rw [hinit]
  change Agrees (execAll cs k) _
  generalize Lines.start s.log = l at hrefines ⊢
  clear hinit
  induction cs generalizing k l with
  | nil => exact hrefines
  | cons call rest ih =>
      have hstep := exec_refines hrefines call
      rw [execAll, Lines.steps]
      cases hexec : exec k call with
      | error e =>
          cases hmachine : l.step call with
          | none =>
              rw [hexec, hmachine] at hstep
              exact hstep
          | some l' =>
              rw [hexec, hmachine] at hstep
              exact hstep.elim
      | ok k' =>
          cases hmachine : l.step call with
          | none =>
              rw [hexec, hmachine] at hstep
              exact hstep.elim
          | some l' =>
              rw [hexec, hmachine] at hstep
              exact ih k' l' hstep

end MugOS.IRQ
