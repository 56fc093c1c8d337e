import Mathlib.Tactic

/-!
# The Keyboard Decoder for Scancode Set 1

`handleScancodeSet1` of `Kernel/Drivers/Input/PS2.c` with the tables and the LED sequence that
it uses. The static variables of the functions are the state of a decoder, and what the
functions do elsewhere is a list of outputs: the calls of the keyboard subsystem, the bytes
that are sent to the device, and log messages.
-/

namespace MugOS.PS2

/-- The `keycode_t` of the tables and of the two sequences, in the order of their values,
`KEY_IGNORE` being the largest, and the other ones by their value. -/
inductive Keycode
  | keyReserved | keyEsc | key1 | key2 | key3 | key4 | key5 | key6 | key7 | key8 | key9 | key0
  | keyMinus | keyEqual | keyBackspace | keyTab | keyQ | keyW | keyE | keyR | keyT | keyY | keyU
  | keyI | keyO | keyP | keyLbracket | keyRbracket | keyEnter | keyLctrl | keyA | keyS | keyD
  | keyF | keyG | keyH | keyJ | keyK | keyL | keySemicolon | keyQuote | keyGrave | keyLshift
  | keyBackslash | keyZ | keyX | keyC | keyV | keyB | keyN | keyM | keyComma | keyDot | keySlash
  | keyRshift | keyNumpadAsterisk | keyLalt | keySpace | keyCapslock | keyF1 | keyF2 | keyF3
  | keyF4 | keyF5 | keyF6 | keyF7 | keyF8 | keyF9 | keyF10 | keyNumlock | keyScrolllock
  | keyNumpad7 | keyNumpad8 | keyNumpad9 | keyNumpadMinus | keyNumpad4 | keyNumpad5 | keyNumpad6
  | keyNumpadPlus | keyNumpad1 | keyNumpad2 | keyNumpad3 | keyNumpad0 | keyNumpadDot
  | keyLessthan | keyF11 | keyF12 | keyHiragana | keyHenkan | keyKatakanahiragana | keyMuhenkan
  | keyNumpadEnter | keyRctrl | keyNumpadSlash | keyPrintscreen | keyRalt | keyHome | keyUp
  | keyPageup | keyLeft | keyRight | keyEnd | keyDown | keyPagedown | keyInsert | keyDelete
  | keyMute | keyVolumedown | keyVolumeup | keyPower | keyPause | keyYen | keyLmeta | keyRmeta
  | keyStop | keyCopy | keyPaste | keyCut | keyMenu | keyCalc | keySleep | keyWakeup | keyMail
  | keyBookmarks | keyComputer | keyBack | keyForward | keyNextsong | keyPlaypause
  | keyPrevioussong | keyStopcd | keyHomepage | keyRefresh | keyF13 | keyF14 | keyF15 | keySearch
  | keyMedia | keyIgnore
  | other (value : ℕ)
  deriving DecidableEq, Repr

/-- `getKeycodeSet1(scancode)`: the keycode of a scancode of set 1 without an escape byte. -/
def getKeycodeSet1 (scancode : UInt8) : Keycode :=
  match scancode.toNat with
  | 0x00 => .keyReserved
  | 0x01 => .keyEsc
  | 0x02 => .key1
  | 0x03 => .key2
  | 0x04 => .key3
  | 0x05 => .key4
  | 0x06 => .key5
  | 0x07 => .key6
  | 0x08 => .key7
  | 0x09 => .key8
  | 0x0a => .key9
  | 0x0b => .key0
  | 0x0c => .keyMinus
  | 0x0d => .keyEqual
  | 0x0e => .keyBackspace
  | 0x0f => .keyTab
  | 0x10 => .keyQ
  | 0x11 => .keyW
  | 0x12 => .keyE
  | 0x13 => .keyR
  | 0x14 => .keyT
  | 0x15 => .keyY
  | 0x16 => .keyU
  | 0x17 => .keyI
  | 0x18 => .keyO
  | 0x19 => .keyP
  | 0x1a => .keyLbracket
  | 0x1b => .keyRbracket
  | 0x1c => .keyEnter
  | 0x1d => .keyLctrl
  | 0x1e => .keyA
  | 0x1f => .keyS
  | 0x20 => .keyD
  | 0x21 => .keyF
  | 0x22 => .keyG
  | 0x23 => .keyH
  | 0x24 => .keyJ
  | 0x25 => .keyK
  | 0x26 => .keyL
  | 0x27 => .keySemicolon
  | 0x28 => .keyQuote
  | 0x29 => .keyGrave
  | 0x2a => .keyLshift
  | 0x2b => .keyBackslash
  | 0x2c => .keyZ
  | 0x2d => .keyX
  | 0x2e => .keyC
  | 0x2f => .keyV
  | 0x30 => .keyB
  | 0x31 => .keyN
  | 0x32 => .keyM
  | 0x33 => .keyComma
  | 0x34 => .keyDot
  | 0x35 => .keySlash
  | 0x36 => .keyRshift
  | 0x37 => .keyNumpadAsterisk
  | 0x38 => .keyLalt
  | 0x39 => .keySpace
  | 0x3a => .keyCapslock
  | 0x3b => .keyF1
  | 0x3c => .keyF2
  | 0x3d => .keyF3
  | 0x3e => .keyF4
  | 0x3f => .keyF5
  | 0x40 => .keyF6
  | 0x41 => .keyF7
  | 0x42 => .keyF8
  | 0x43 => .keyF9
  | 0x44 => .keyF10
  | 0x45 => .keyNumlock
  | 0x46 => .keyScrolllock
  | 0x47 => .keyNumpad7
  | 0x48 => .keyNumpad8
  | 0x49 => .keyNumpad9
  | 0x4a => .keyNumpadMinus
  | 0x4b => .keyNumpad4
  | 0x4c => .keyNumpad5
  | 0x4d => .keyNumpad6
  | 0x4e => .keyNumpadPlus
  | 0x4f => .keyNumpad1
  | 0x50 => .keyNumpad2
  | 0x51 => .keyNumpad3
  | 0x52 => .keyNumpad0
  | 0x53 => .keyNumpadDot
  | 0x54 => .keyReserved
  | 0x56 => .keyLessthan
  | 0x57 => .keyF11
  | 0x58 => .keyF12
  | 0x5d => .keyF13
  | 0x5e => .keyF14
  | 0x5f => .keyF15
  | 0x70 => .keyKatakanahiragana
  | 0x77 => .keyHiragana
  | 0x79 => .keyHenkan
  | 0x7b => .keyMuhenkan
  | 0x7d => .keyYen
  | _ => .keyReserved

/-- `getKeycodeEscapedSet1(scancode)`: the keycode of a scancode of set 1 behind an escape
byte. -/
def getKeycodeEscapedSet1 (scancode : UInt8) : Keycode :=
  match scancode.toNat with
  | 0x10 => .keyPrevioussong
  | 0x19 => .keyNextsong
  | 0x1c => .keyNumpadEnter
  | 0x1d => .keyRctrl
  | 0x20 => .keyMute
  | 0x21 => .keyCalc
  | 0x22 => .keyPlaypause
  | 0x23 => .keyPaste
  | 0x24 => .keyStopcd
  | 0x25 => .keyCut
  | 0x26 => .keyCopy
  | 0x2a => .keyIgnore
  | 0x2e => .keyVolumedown
  | 0x30 => .keyVolumeup
  | 0x32 => .keyHomepage
  | 0x35 => .keyNumpadSlash
  | 0x36 => .keyIgnore
  | 0x37 => .keyIgnore
  | 0x38 => .keyRalt
  | 0x46 => .keyIgnore
  | 0x47 => .keyHome
  | 0x48 => .keyUp
  | 0x49 => .keyPageup
  | 0x4b => .keyLeft
  | 0x4d => .keyRight
  | 0x4f => .keyEnd
  | 0x50 => .keyDown
  | 0x51 => .keyPagedown
  | 0x52 => .keyInsert
  | 0x53 => .keyDelete
  | 0x5b => .keyLmeta
  | 0x5c => .keyRmeta
  | 0x5d => .keyMenu
  | 0x5e => .keyPower
  | 0x5f => .keySleep
  | 0x63 => .keyWakeup
  | 0x65 => .keySearch
  | 0x66 => .keyBookmarks
  | 0x67 => .keyRefresh
  | 0x68 => .keyStop
  | 0x69 => .keyForward
  | 0x6a => .keyBack
  | 0x6b => .keyComputer
  | 0x6c => .keyMail
  | 0x6d => .keyMedia
  | _ => .keyReserved

/-! ### The state -/

/-- What the decoder does elsewhere: it notifies the subsystem, sends a byte, or logs. -/
inductive Output
  /-- `Keyboard_notifyPressed(keycode)` -/
  | pressed (keycode : Keycode)
  /-- `Keyboard_notifyReleased(keycode)` -/
  | released (keycode : Keycode)
  /-- `Keyboard_notifySysRq()` -/
  | sysRq
  /-- `PS2Controller_sendByteToDevice(1, byte)` -/
  | send (byte : UInt8)
  /-- `log(ERROR, MODULE, "Unrecognized scancode %#hhx", scancode)` -/
  | unrecognized (scancode : UInt8)
  deriving DecidableEq, Repr

/-- The static variables of `handleScancodeSet1` and `cycleLedSequence`, and the LEDs of the
keyboard. -/
structure Decoder where
  released : Bool
  escaped : Bool
  printScreenPressed : ℕ
  printScreenReleased : ℕ
  pause : ℕ
  numlockWasSet : Bool
  capslockWasSet : Bool
  scrolllockWasSet : Bool
  wantedLeds : UInt8
  resendCount : ℕ
  ledSequence : ℕ
  leds : UInt8
  deriving DecidableEq, Repr

/-- The initial values, with the LEDs as they are. -/
def Decoder.start (leds : UInt8) : Decoder :=
  ⟨false, false, 0, 0, 0, false, false, false, 0, 0, 0, leds⟩

/-- The label `reset_state`: nothing is remembered of the code that was read. -/
def Decoder.reset (d : Decoder) : Decoder :=
  { d with
    released := false
    escaped := false
    printScreenPressed := 0
    printScreenReleased := 0
    pause := 0 }

/-- What a part of the function ends in: the function goes on, or it has returned. -/
abbrev Stage (α : Type) := Except (List Output × Decoder) α

/-! ### Sequences -/

/-- The print screen pressed sequence: 0xe0, 0x2a, 0xe0, 0x37. -/
def checkPrintScreenPressed (d : Decoder) (scancode : UInt8) : Stage Decoder :=
  match d.printScreenPressed with
  | 1 =>
      if scancode ≠ 0x2a then .ok { d with printScreenPressed := 0 }
      else .error ([], { d with printScreenPressed := 2, escaped := false })
  | 2 =>
      if scancode ≠ 0xe0 then .ok { d with printScreenPressed := 0 }
      else .error ([], { d with printScreenPressed := 3 })
  | 3 =>
      if scancode ≠ 0x37 then .ok { d with printScreenPressed := 0, escaped := true }
      else .error ([.pressed .keyPrintscreen], d.reset)
  | _ => .ok d

/-- The print screen released sequence: 0xe0, 0xb7, 0xe0, 0xaa. -/
def checkPrintScreenReleased (d : Decoder) (scancode : UInt8) : Stage Decoder :=
  match d.printScreenReleased with
  | 1 =>
      if scancode ≠ 0xb7 then .ok { d with printScreenReleased := 0 }
      else .error ([], { d with printScreenReleased := 2 })
  | 2 =>
      if scancode ≠ 0xe0 then .ok { d with printScreenReleased := 0 }
      else .error ([], { d with printScreenReleased := 3 })
  | 3 =>
      if scancode ≠ 0xaa then .ok { d with printScreenReleased := 0 }
      else .error ([.released .keyPrintscreen], d.reset)
  | _ => .ok d

/-- The pause sequence: 0xe1, 0x1d, 0x45, 0xe1, 0x9d, 0xc5. -/
def checkPause (d : Decoder) (scancode : UInt8) : Stage Decoder :=
  match d.pause with
  | 1 => if scancode ≠ 0x1d then .ok { d with pause := 0 } else .error ([], { d with pause := 2 })
  | 2 => if scancode ≠ 0x45 then .ok { d with pause := 0 } else .error ([], { d with pause := 3 })
  | 3 => if scancode ≠ 0xe1 then .ok { d with pause := 0 } else .error ([], { d with pause := 4 })
  | 4 => if scancode ≠ 0x9d then .ok { d with pause := 0 } else .error ([], { d with pause := 5 })
  | 5 =>
      if scancode ≠ 0xc5 then .ok { d with pause := 0 }
      else .error ([.pressed .keyPause], d.reset)
  | _ => .ok d

/-- 1. Check for sequences progression: PrintScreen pressed and released, and Pause. -/
def checkSequences (d : Decoder) (scancode : UInt8) : Stage Decoder := do
  let d ← checkPrintScreenPressed d scancode
  let d ← checkPrintScreenReleased d scancode
  checkPause d scancode

/-- `cycleLedSequence(startSequence, leds, acked)`. -/
def cycleLedSequence (d : Decoder) (startSequence : Bool) (leds : UInt8) (acked : Bool) :
    Bool × List Output × Decoder :=
  let sequence := if startSequence then 1 else d.ledSequence
  let sequence := if acked then sequence + 1 else sequence
  match sequence with
  | 1 => (false, [.send 0xed], { d with ledSequence := sequence })
  | 2 => (false, [.send leds], { d with ledSequence := sequence })
  | 3 => (true, [], { d with ledSequence := 0 })
  | _ => (false, [], { d with ledSequence := sequence })

/-! ### Single bytes -/

/-- The calls for the lock keys when the keyboard has acknowledged the LEDs. -/
def notifyLocks (d : Decoder) : List Output :=
  (if d.numlockWasSet then [.pressed .keyNumlock] else []) ++
    (if d.scrolllockWasSet then [.pressed .keyScrolllock] else []) ++
    (if d.capslockWasSet then [.pressed .keyCapslock] else [])

/-- The special cases, and the release bit: the scancode without it. -/
def preprocess (d : Decoder) (scancode : UInt8) : Stage (UInt8 × Decoder) :=
  if scancode = 0x54 then .error ([.sysRq], d)
  else if scancode = 0xe0 then
    .error ([], { d with escaped := true, printScreenPressed := 1, printScreenReleased := 1 })
  else if scancode = 0xe1 then .error ([], { d with pause := 1 })
  else if scancode = 0xd4 then .error ([], d)
  else if scancode = 0xfa then
    let (acked, out, d) := cycleLedSequence d false d.wantedLeds true
    if acked then .error (out ++ notifyLocks d, { d with leds := d.wantedLeds })
    else .error (out, d)
  else if scancode = 0xfe then
    if d.resendCount + 1 = 3 then .error ([], { d with resendCount := 0 }.reset)
    else
      let (_, out, d) :=
        cycleLedSequence { d with resendCount := d.resendCount + 1 } false d.wantedLeds false
      .error (out, d)
  else if scancode &&& 0x80 ≠ 0 then .ok (scancode &&& 0x7f, { d with released := true })
  else .ok (scancode, d)

/-- The message to the keyboard subsystem, and `reset_state`. -/
def message (d : Decoder) (keycode : Keycode) : List Output × Decoder :=
  ([if d.released then .released keycode else .pressed keycode], d.reset)

/-- The first press of a lock key: the LED sequence starts with the bit flipped. -/
def startLeds (d : Decoder) (bit : UInt8) : List Output × Decoder :=
  let d := { d with wantedLeds := d.leds ^^^ bit }
  let (_, out, d) := cycleLedSequence d true d.wantedLeds false
  (out, d)

/-- The keycode is handled: notified, or taken as a lock key, and the code is at its end. -/
def handleKeycode (d : Decoder) (scancode : UInt8) (keycode : Keycode) : List Output × Decoder :=
  match keycode with
  | .keyReserved => ([.unrecognized scancode], d.reset)
  | .keyNumlock =>
      if d.released then message { d with numlockWasSet := false } keycode
      else if d.numlockWasSet then message d keycode
      else
        let (out, d) := startLeds d 0b010
        (out, { d with numlockWasSet := true })
  | .keyScrolllock =>
      if d.released then message { d with scrolllockWasSet := false } keycode
      else if d.scrolllockWasSet then message d keycode
      else
        let (out, d) := startLeds d 0b001
        (out, { d with scrolllockWasSet := true })
  | .keyCapslock =>
      if d.released then message { d with capslockWasSet := false } keycode
      else if d.capslockWasSet then message d keycode
      else
        let (out, d) := startLeds d 0b100
        (out, { d with capslockWasSet := true })
  | .keyIgnore => ([], d.reset)
  | _ => message d keycode

/-- `handleScancodeSet1(scancode)`: the checks for sequences and special cases, and then the
keycode. -/
def handleScancodeSet1 (d : Decoder) (scancode : UInt8) : List Output × Decoder :=
  let stages : Stage (UInt8 × Decoder) := do
    let d ← checkSequences d scancode
    preprocess d scancode
  match stages with
  | .error result => result
  | .ok (scancode, d) =>
      handleKeycode d scancode
        (if d.escaped then getKeycodeEscapedSet1 scancode else getKeycodeSet1 scancode)

/-- Bytes that arrive one by one, with the outputs for all of them. -/
def feed (d : Decoder) : List UInt8 → List Output × Decoder
  | [] => ([], d)
  | b :: bs =>
      let (out, d) := handleScancodeSet1 d b
      let (outs, d) := feed d bs
      (out ++ outs, d)

end MugOS.PS2
