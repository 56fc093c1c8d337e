import MugOS.Scancode

/-!
# The Keyboard Decoder for Scancode Set 2

`handleScancodeSet2` of `Kernel/Drivers/Input/PS2.c` with its tables. A release has a byte of its
own, 0xf0, before the scancode of the key. The static variables are those of `handleScancodeSet1`,
`breaked_state` taking the place of `released`; the lock keys and the replies of the keyboard are
handled the same way.
-/

namespace MugOS.PS2.Set2

/-! ### Tables -/

/-- `getKeycodeSet2(scancode)`: the keycode of a scancode of set 2 without an escape byte. -/
def getKeycodeSet2 (scancode : UInt8) : Keycode :=
  match scancode.toNat with
  | 0x01 => .keyF9
  | 0x03 => .keyF5
  | 0x04 => .keyF3
  | 0x05 => .keyF1
  | 0x06 => .keyF2
  | 0x07 => .keyF12
  | 0x09 => .keyF10
  | 0x0a => .keyF8
  | 0x0b => .keyF6
  | 0x0c => .keyF4
  | 0x0d => .keyTab
  | 0x0e => .keyGrave
  | 0x11 => .keyLalt
  | 0x12 => .keyLshift
  | 0x13 => .keyKatakanahiragana
  | 0x14 => .keyLctrl
  | 0x15 => .keyQ
  | 0x16 => .key1
  | 0x1a => .keyZ
  | 0x1b => .keyS
  | 0x1c => .keyA
  | 0x1d => .keyW
  | 0x1e => .key2
  | 0x21 => .keyC
  | 0x22 => .keyX
  | 0x23 => .keyD
  | 0x24 => .keyE
  | 0x25 => .key4
  | 0x26 => .key3
  | 0x29 => .keySpace
  | 0x2a => .keyV
  | 0x2b => .keyF
  | 0x2c => .keyT
  | 0x2d => .keyR
  | 0x2e => .key5
  | 0x2f => .keyF13
  | 0x31 => .keyN
  | 0x32 => .keyB
  | 0x33 => .keyH
  | 0x34 => .keyG
  | 0x35 => .keyY
  | 0x36 => .key6
  | 0x37 => .keyF14
  | 0x3a => .keyM
  | 0x3b => .keyJ
  | 0x3c => .keyU
  | 0x3d => .key7
  | 0x3e => .key8
  | 0x3f => .keyF15
  | 0x41 => .keyComma
  | 0x42 => .keyK
  | 0x43 => .keyI
  | 0x44 => .keyO
  | 0x45 => .key0
  | 0x46 => .key9
  | 0x49 => .keyDot
  | 0x4a => .keySlash
  | 0x4b => .keyL
  | 0x4c => .keySemicolon
  | 0x4d => .keyP
  | 0x4e => .keyMinus
  | 0x52 => .keyQuote
  | 0x54 => .keyLbracket
  | 0x55 => .keyEqual
  | 0x58 => .keyCapslock
  | 0x59 => .keyRshift
  | 0x5a => .keyEnter
  | 0x5b => .keyRbracket
  | 0x5d => .keyBackslash
  | 0x61 => .keyLessthan
  | 0x62 => .keyHiragana
  | 0x64 => .keyHenkan
  | 0x66 => .keyBackspace
  | 0x67 => .keyMuhenkan
  | 0x69 => .keyNumpad1
  | 0x6a => .keyYen
  | 0x6b => .keyNumpad4
  | 0x6c => .keyNumpad7
  | 0x70 => .keyNumpad0
  | 0x71 => .keyNumpadDot
  | 0x72 => .keyNumpad2
  | 0x73 => .keyNumpad5
  | 0x74 => .keyNumpad6
  | 0x75 => .keyNumpad8
  | 0x76 => .keyEsc
  | 0x77 => .keyNumlock
  | 0x78 => .keyF11
  | 0x79 => .keyNumpadPlus
  | 0x7a => .keyNumpad3
  | 0x7b => .keyNumpadMinus
  | 0x7c => .keyNumpadAsterisk
  | 0x7d => .keyNumpad9
  | 0x7e => .keyScrolllock
  | 0x83 => .keyF7
  | _ => .keyReserved

/-- `getKeycodeEscapedSet2(scancode)`: the keycode of a scancode of set 2 behind an escape
byte. -/
def getKeycodeEscapedSet2 (scancode : UInt8) : Keycode :=
  match scancode.toNat with
  | 0x10 => .keySearch
  | 0x11 => .keyRalt
  | 0x14 => .keyRctrl
  | 0x15 => .keyPrevioussong
  | 0x18 => .keyBookmarks
  | 0x1f => .keyLmeta
  | 0x20 => .keyRefresh
  | 0x21 => .keyVolumedown
  | 0x23 => .keyMute
  | 0x27 => .keyRmeta
  | 0x28 => .keyStop
  | 0x2b => .keyCalc
  | 0x2f => .keyMenu
  | 0x30 => .keyForward
  | 0x32 => .keyVolumeup
  | 0x33 => .keyPaste
  | 0x34 => .keyPlaypause
  | 0x37 => .keyPower
  | 0x38 => .keyBack
  | 0x3a => .keyHomepage
  | 0x3b => .keyStop
  | 0x3f => .keySleep
  | 0x42 => .keyCut
  | 0x48 => .keyMail
  | 0x4a => .keyNumpadSlash
  | 0x4b => .keyPaste
  | 0x4d => .keyNextsong
  | 0x50 => .keyMedia
  | 0x5a => .keyNumpadEnter
  | 0x5e => .keyWakeup
  | 0x69 => .keyEnd
  | 0x6b => .keyLeft
  | 0x6c => .keyHome
  | 0x70 => .keyInsert
  | 0x71 => .keyDelete
  | 0x72 => .keyDown
  | 0x74 => .keyRight
  | 0x75 => .keyUp
  | 0x7a => .keyPagedown
  | 0x7d => .keyPageup
  | _ => .keyReserved

/-! ### Sequences -/

/-- The print screen pressed sequence: 0xe0, 0x12, 0xe0, 0x7c. -/
def checkPrintScreenPressed (d : Decoder) (scancode : UInt8) : Stage Decoder :=
  match d.printScreenPressed with
  | 1 =>
      if scancode ≠ 0x12 then .ok { d with printScreenPressed := 0, escaped := true }
      else .error ([], { d with printScreenPressed := 2, escaped := false })
  | 2 =>
      if scancode ≠ 0xe0 then .ok { d with printScreenPressed := 0 }
      else .error ([], { d with printScreenPressed := 3 })
  | 3 =>
      if scancode ≠ 0x7c then .ok { d with printScreenPressed := 0, escaped := true }
      -- The other variables are not reset here.
      else .error ([.pressed .keyPrintscreen], { d with printScreenPressed := 0 })
  | _ => .ok d

/-- The print screen released sequence: 0xe0, 0xf0, 0x7c, 0xe0, 0xf0, 0x12. -/
def checkPrintScreenReleased (d : Decoder) (scancode : UInt8) : Stage Decoder :=
  match d.printScreenReleased with
  | 1 =>
      if scancode ≠ 0xf0 then .ok { d with printScreenReleased := 0 }
      else .ok { d with printScreenReleased := 2, released := true }
  | 2 =>
      if scancode ≠ 0x7c then .ok { d with printScreenReleased := 0 }
      else .error ([], { d with printScreenReleased := 3 })
  | 3 =>
      if scancode ≠ 0xe0 then
        .ok { d with printScreenReleased := 0, escaped := false, released := false }
      else .error ([], { d with printScreenReleased := 4 })
  | 4 =>
      if scancode ≠ 0xf0 then .ok { d with printScreenReleased := 0 }
      else .error ([], { d with printScreenReleased := 5 })
  | 5 =>
      if scancode ≠ 0x12 then .ok { d with printScreenReleased := 0 }
      else
        .error ([.released .keyPrintscreen],
          { d with printScreenReleased := 0, escaped := false, released := false })
  | _ => .ok d

/-- The pause sequence: 0xe1, 0x14, 0x77, 0xe1, 0xf0, 0x14, 0xf0, 0x77. -/
def checkPause (d : Decoder) (scancode : UInt8) : Stage Decoder :=
  match d.pause with
  | 1 => if scancode ≠ 0x14 then .ok { d with pause := 0 } else .error ([], { d with pause := 2 })
  | 2 => if scancode ≠ 0x77 then .ok { d with pause := 0 } else .error ([], { d with pause := 3 })
  | 3 => if scancode ≠ 0xe1 then .ok { d with pause := 0 } else .error ([], { d with pause := 4 })
  | 4 => if scancode ≠ 0xf0 then .ok { d with pause := 0 } else .error ([], { d with pause := 5 })
  | 5 => if scancode ≠ 0x14 then .ok { d with pause := 0 } else .error ([], { d with pause := 6 })
  | 6 => if scancode ≠ 0xf0 then .ok { d with pause := 0 } else .error ([], { d with pause := 7 })
  | 7 =>
      if scancode ≠ 0x77 then .ok { d with pause := 0 }
      else .error ([.pressed .keyPause], d.reset)
  | _ => .ok d

/-- The three sequences, in the order of the function. -/
def checkSequences (d : Decoder) (scancode : UInt8) : Stage Decoder := do
  let d ← checkPrintScreenPressed d scancode
  let d ← checkPrintScreenReleased d scancode
  checkPause d scancode

/-! ### Single bytes -/

/-- The special cases: a fake shift, SysRq, an escape or break byte, and the replies of the
keyboard. -/
def preprocess (d : Decoder) (scancode : UInt8) : Stage Decoder :=
  if scancode = 0x12 ∧ d.escaped then .error ([], d.reset)
  else if scancode = 0x84 then .error (if d.released then [] else [.sysRq], d)
  else if scancode = 0xe0 then
    .error ([], { d with escaped := true, printScreenPressed := 1, printScreenReleased := 1 })
  else if scancode = 0xe1 then .error ([], { d with pause := 1 })
  else if scancode = 0xf0 then .error ([], { d with released := true })
  else if scancode = 0xfa then
    let (acked, out, d) := cycleLedSequence d false d.wantedLeds true
    if acked then .error (out ++ notifyLocks d, { d with leds := d.wantedLeds })
    else .error (out, d)
  else if scancode = 0xfe then
    if d.resendCount + 1 = 3 then .error ([], { d with resendCount := 0 }.reset)
    else
      let (_, out, d) :=
        cycleLedSequence { d with resendCount := d.resendCount + 1 } false d.wantedLeds false
      .error (out, d)
  else .ok d

/-- `handleScancodeSet2(scancode)`. The tables do not have `KEY_IGNORE`, so that the keycodes are
handled as those of set 1 are. -/
def handleScancodeSet2 (d : Decoder) (scancode : UInt8) : List Output × Decoder :=
  let stages : Stage Decoder := do
    let d ← checkSequences d scancode
    preprocess d scancode
  match stages with
  | .error result => result
  | .ok d =>
      handleKeycode d scancode
        (if d.escaped then getKeycodeEscapedSet2 scancode else getKeycodeSet2 scancode)

/-- Bytes that arrive one by one, with the outputs for all of them. -/
def feed (d : Decoder) : List UInt8 → List Output × Decoder
  | [] => ([], d)
  | b :: bs =>
      let (out, d) := handleScancodeSet2 d b
      let (outs, d) := feed d bs
      (out ++ outs, d)

end MugOS.PS2.Set2
