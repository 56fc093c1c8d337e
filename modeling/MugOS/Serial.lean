import MugOS.Ringbuffer

/-!
# The Serial Port Driver

`Kernel/Drivers/Output/Serial.c`, for one UART device that is present. Bytes that are to be sent
wait in a ring buffer until the device interrupts, its transmitter being empty; the interrupt is
enabled by the bit THRE of the Interrupt Enable Register. Bytes that are received are put into
another ring buffer and sent back.

What the hardware answers is arbitrary, apart from the Interrupt Enable Register, which is read
as it was written, and the received bytes, which are read in their order while Data Ready is set.
The interrupt handler runs with interrupts disabled, and so does what stands between
`IRQ_disableSave` and `IRQ_restore`.
-/

namespace MugOS.Serial

/-- `UARTDEVICE_EXT_BUFF_SIZE`. -/
abbrev extBuffSize : ℕ := 1024

/-- `SERIAL_IER_THRE`. -/
abbrev ierThre : UInt8 := 0b00000010

/-- `SERIAL_LSR_DR`. -/
abbrev lsrDr : UInt8 := 0b00000001

/-- `SERIAL_LSR_TEMT`. -/
abbrev lsrTemt : UInt8 := 0b01000000

/-- The messages that the driver logs while it handles interrupts. -/
inductive Message
  | dataLost
  | parityError
  | framingError
  | gotBreak
  | impendingError
  /-- `"Received data but read buffer is full, ..."` -/
  | readBufferFull (counter : UInt32)
  /-- `"IRQ: Invalid or unsupported IRR value"` -/
  | invalidIir
  deriving DecidableEq

/-- The surroundings of the driver: what its registers show, and what else happens. -/
structure Surroundings where
  /-- the Line Status Register each time that it is read, Data Ready apart -/
  lsr : ℕ → UInt8
  /-- the Interrupt Identification Register each time that it is read -/
  iir : ℕ → UInt8
  /-- the string that `log` sends to the device for a message, without the terminating zero; it is
  empty if the default device is another one -/
  log : Message → List UInt8

/-- `struct UARTDevice` and the hardware, with its registers and buffers. -/
structure Device where
  /-- 14 on a 16550A, 1 otherwise -/
  internalBufferSize : ℕ
  externalWriteBuff : Ringbuffer
  externalReadBuff : Ringbuffer
  /-- the Interrupt Enable Register -/
  ier : UInt8
  /-- the bytes that the device has received and that have not been read -/
  received : List UInt8
  /-- the bytes that have been written to the transmit buffer -/
  sent : List UInt8
  /-- the static variable `counter` of `processAvailableData` -/
  counter : UInt32
  /-- how many registers have been read -/
  reads : ℕ

/-! ### The write buffer -/

/-- `(uint8_t) temp`: the lowest byte of an element. -/
def toByte (value : Int32) : UInt8 := UInt8.ofNat (value.toInt % 256).toNat

/-- A byte as the `int` that is put into a ring buffer. -/
def ofByte (b : UInt8) : Int32 := Int32.ofInt b.toNat

/-- `inb(dev->port+SERIAL_OFFSET_LSR)`: the status, with Data Ready if bytes are waiting. -/
def readLsr (P : Surroundings) (dev : Device) : UInt8 × Device :=
  ((P.lsr dev.reads &&& ~~~lsrDr) ||| (if dev.received = [] then 0 else lsrDr),
    { dev with reads := dev.reads + 1 })

/-- `popFrontWriteBuffer(dev)`, the buffer not being empty. -/
def popFrontWriteBuffer (dev : Device) : Except Fault (UInt8 × Device) := do
  let ((_, temp), buff) ← dev.externalWriteBuff.pop (some 0)
  let dev := { dev with externalWriteBuff := buff }
  let dev := if buff.getDataSize = 0 then { dev with ier := dev.ier &&& ~~~ierThre } else dev
  return (toByte (temp.getD 0), dev)

/-- The loop of `processTHRE`: at most `n` bytes are sent. -/
def sendBytes : ℕ → Device → Except Fault Device
  | 0, dev => .ok dev
  | n + 1, dev =>
      if dev.externalWriteBuff.getDataSize > 0 then do
        let (toSend, dev) ← popFrontWriteBuffer dev
        sendBytes n { dev with sent := dev.sent ++ [toSend] }
      else .ok dev

/-- `processTHRE(dev)`: sends queued bytes, and turns the interrupt off when there are no
more. -/
def processTHRE (dev : Device) : Except Fault Device := do
  let dev ← sendBytes dev.internalBufferSize dev
  if dev.externalWriteBuff.getDataSize = 0 then
    if dev.ier &&& ierThre ≠ 0 then return { dev with ier := dev.ier &&& ~~~ierThre }
    else return dev
  else return dev

/-- The loop over a string that is put into a ring buffer: whether all of it was. -/
def pushString : List UInt8 → Ringbuffer → Except Fault (Bool × Ringbuffer)
  | [], buff => .ok (true, buff)
  | c :: str, buff =>
      if c = 0 then .ok (true, buff)
      else do
        let (ok, buff) ← buff.pushBack (ofByte c)
        if ok then pushString str buff else return (false, buff)

/-- A string up to its terminating zero, which is what the driver sends of it. -/
def text (str : List UInt8) : List UInt8 := str.takeWhile (· ≠ 0)

/-- `strlen(str)`: the number of bytes before the terminating zero. -/
def strlen (str : List UInt8) : ℕ := (text str).length

/-- `shouldTriggerTHRE`, which `pushBackWriteBuffer` decides before it disables interrupts. -/
def shouldTriggerTHRE (dev : Device) : Bool := dev.externalWriteBuff.getDataSize = 0

/-- The end of `pushBackWriteBuffer`: bytes are sent by hand if the transmitter is empty. -/
def sendIfEmpty (P : Surroundings) (dev : Device) : Except Fault Device :=
  let (lsr, dev) := readLsr P dev
  if lsr &&& lsrTemt ≠ 0 ∧ dev.externalWriteBuff.getDataSize > 0 then processTHRE dev else .ok dev

/-- The part of `pushBackWriteBuffer` that runs with interrupts disabled. -/
def pushBackLocked (P : Surroundings) (dev : Device) (str : List UInt8) (shouldTrigger : Bool) :
    Except Fault (Bool × Device) := do
  let (ok, buff) ← pushString str dev.externalWriteBuff
  if ok then
    let dev ← sendIfEmpty P { dev with
      externalWriteBuff := buff
      ier := if shouldTrigger then dev.ier ||| ierThre else dev.ier }
    return (true, dev)
  else return (false, { dev with externalWriteBuff := buff })

/-- `pushBackWriteBuffer(dev, str)` with interrupts disabled, `none` being `NULL`. -/
def pushBackWriteBuffer (P : Surroundings) (dev : Device) (str : Option (List UInt8)) :
    Except Fault (Bool × Device) :=
  match str with
  | none => .ok (true, dev)
  | some str =>
      if strlen str = 0 then .ok (true, dev)
      else pushBackLocked P dev str (shouldTriggerTHRE dev)

/-- `sendByteInternal(device, byte)`: the byte is queued as a string of its own. -/
def sendByteInternal (P : Surroundings) (dev : Device) (byte : UInt8) :
    Except Fault (Bool × Device) :=
  pushBackWriteBuffer P dev (some [byte, 0])

/-! ### The read buffer -/

/-- `pushBackReadBuffer(dev, str)`: puts the bytes of a string behind those received, if they
fit. -/
def pushBackReadBuffer (dev : Device) (str : List UInt8) : Except Fault (Bool × Device) := do
  if strlen str = 0 then return (true, dev)
  else
    let (ok, buff) ← pushString str dev.externalReadBuff
    return (ok, { dev with externalReadBuff := buff })

/-- `popFrontReadBuffer(dev)`: takes the oldest received byte, or zero if there is none. -/
def popFrontReadBuffer (dev : Device) : Except Fault (UInt8 × Device) := do
  if dev.externalReadBuff.getDataSize = 0 then return (0x00, dev)
  else
    let ((_, temp), buff) ← dev.externalReadBuff.pop (some 0)
    return (toByte (temp.getD 0), { dev with externalReadBuff := buff })

/-! ### Interrupts -/

/-- `log(..., message)`, which sends the string to the default device. -/
def log (P : Surroundings) (dev : Device) (message : Message) : Except Fault Device := do
  let (_, dev) ← pushBackWriteBuffer P dev (some (P.log message ++ [0]))
  return dev

/-- The bytes that are read while Data Ready is set, at most `n`. -/
def readAvailable (P : Surroundings) : ℕ → Device → List UInt8 × Device
  | 0, dev => ([], dev)
  | n + 1, dev =>
      let (lsr, dev) := readLsr P dev
      if lsr &&& lsrDr = 0 then ([], dev)
      else
        let (bytes, dev') := readAvailable P n { dev with received := dev.received.tail }
        (dev.received.headD 0 :: bytes, dev')

/-- A warning at every 256th time that bytes are discarded. -/
def warnIfFull (P : Surroundings) (ok : Bool) (dev : Device) : Except Fault Device :=
  if ok then .ok dev
  else
    let dev := { dev with counter := dev.counter + 1 }
    if dev.counter % 256 = 0 then log P dev (.readBufferFull dev.counter) else .ok dev

/-- `processAvailableData(dev)`: the bytes go through the array `temp`, which is zero at first. -/
def processAvailableData (P : Surroundings) (dev : Device) : Except Fault Device := do
  let (bytes, dev) := readAvailable P dev.internalBufferSize dev
  let temp := bytes ++ List.replicate (15 - bytes.length) 0
  let (ok, dev) ← pushBackReadBuffer dev temp
  let dev ← warnIfFull P ok dev
  let (_, dev) ← pushBackWriteBuffer P dev (some temp)
  return dev

/-- A message of `processUpdatedLSR`, logged if its bit of the status is set. -/
def logIf (P : Surroundings) (lsr mask : UInt8) (message : Message) (dev : Device) :
    Except Fault Device :=
  if lsr &&& mask ≠ 0 then log P dev message else .ok dev

/-- `processUpdatedLSR(dev)`: logs a message for each error bit of the status. -/
def processUpdatedLSR (P : Surroundings) (dev : Device) : Except Fault Device := do
  let (lsr, dev) := readLsr P dev
  let dev ← logIf P lsr 0b00000010 .dataLost dev
  let dev ← logIf P lsr 0b00000100 .parityError dev
  let dev ← logIf P lsr 0b00001000 .framingError dev
  let dev ← logIf P lsr 0b00010000 .gotBreak dev
  logIf P lsr 0b10000000 .impendingError dev

/-- The switch of `handleDeviceInterrupt`: what is done for each identification. -/
def service (P : Surroundings) (iir : UInt8) (dev : Device) : Except Fault Device :=
  match iir.toNat with
  | 0b0001 => .ok dev
  | 0b0000 => .ok dev
  | 0b0010 => processTHRE dev
  | 0b0100 => processAvailableData P dev
  | 0b0110 => processUpdatedLSR P dev
  | 0b1100 => processAvailableData P dev
  | _ => log P dev .invalidIir

/-- `handleDeviceInterrupt(dev)`, if at most `n` interrupts are identified: `none` if there are
more. -/
def handleDeviceInterrupt (P : Surroundings) : ℕ → Device → Except Fault (Option Device)
  | 0, _ => .ok none
  | n + 1, dev => do
      let iir := P.iir dev.reads &&& 0b00001111
      let dev ← service P iir { dev with reads := dev.reads + 1 }
      if iir = 0b0001 then return some dev else handleDeviceInterrupt P n dev

/-! ### The start -/

/-- The device after `Serial_init`, a 16550A or another one: its interrupts are enabled, that
of THRE excepted. -/
def Device.start (is16550A : Bool) : Device :=
  let buff : Ringbuffer := ⟨extBuffSize, 0, 0, List.replicate extBuffSize 0⟩
  ⟨if is16550A then 14 else 1, buff, buff, 0b00001101, [], [], 0, 0⟩

end MugOS.Serial
