import MugOS.Scancode

/-!
# The Characters of Keys

The tables of `Kernel/Drivers/Input/Keyboard.c` that say which character a key stands for on an
AZERTY keyboard, for each combination of modifiers that has a table. Characters are given by their
codes in code page 437; keys without a character have the code 0.
-/

namespace MugOS.Keyboard

open PS2

/-- `getChar_AZERTY_NoModifier(k)`. -/
def getCharAZERTYNoModifier : Keycode → UInt8
  | .keyReserved => 0
  | .key1 => 38
  | .key2 => 130
  | .key3 => 34
  | .key4 => 39
  | .key5 => 40
  | .key6 => 45
  | .key7 => 138
  | .key8 => 95
  | .key9 => 135
  | .key0 => 133
  | .keyMinus => 41
  | .keyEqual => 61
  | .keyTab => 9
  | .keyQ => 97
  | .keyW => 122
  | .keyE => 101
  | .keyR => 114
  | .keyT => 116
  | .keyY => 121
  | .keyU => 117
  | .keyI => 105
  | .keyO => 111
  | .keyP => 112
  | .keyLbracket => 94
  | .keyRbracket => 36
  | .keyEnter => 10
  | .keyA => 113
  | .keyS => 115
  | .keyD => 100
  | .keyF => 102
  | .keyG => 103
  | .keyH => 104
  | .keyJ => 106
  | .keyK => 107
  | .keyL => 108
  | .keySemicolon => 109
  | .keyQuote => 163
  | .keyGrave => 253
  | .keyBackslash => 42
  | .keyZ => 119
  | .keyX => 120
  | .keyC => 99
  | .keyV => 118
  | .keyB => 98
  | .keyN => 110
  | .keyM => 44
  | .keyComma => 59
  | .keyDot => 58
  | .keySlash => 33
  | .keyNumpadAsterisk => 42
  | .keySpace => 32
  | .keyNumpad7 => 55
  | .keyNumpad8 => 56
  | .keyNumpad9 => 57
  | .keyNumpadMinus => 45
  | .keyNumpad4 => 52
  | .keyNumpad5 => 53
  | .keyNumpad6 => 54
  | .keyNumpadPlus => 43
  | .keyNumpad1 => 49
  | .keyNumpad2 => 50
  | .keyNumpad3 => 51
  | .keyNumpad0 => 48
  | .keyNumpadDot => 46
  | .keyLessthan => 60
  | .keyNumpadEnter => 10
  | .keyNumpadSlash => 47
  | _ => 0

/-- `getChar_AZERTY_CapsLock(k)`. -/
def getCharAZERTYCapsLock : Keycode → UInt8
  | .keyReserved => 0
  | .key1 => 38
  | .key2 => 144
  | .key3 => 34
  | .key4 => 39
  | .key5 => 40
  | .key6 => 45
  | .key7 => 138
  | .key8 => 95
  | .key9 => 128
  | .key0 => 133
  | .keyMinus => 41
  | .keyEqual => 61
  | .keyTab => 9
  | .keyQ => 65
  | .keyW => 90
  | .keyE => 69
  | .keyR => 82
  | .keyT => 84
  | .keyY => 89
  | .keyU => 85
  | .keyI => 73
  | .keyO => 79
  | .keyP => 80
  | .keyLbracket => 94
  | .keyRbracket => 36
  | .keyEnter => 10
  | .keyA => 81
  | .keyS => 83
  | .keyD => 68
  | .keyF => 70
  | .keyG => 71
  | .keyH => 72
  | .keyJ => 74
  | .keyK => 75
  | .keyL => 76
  | .keySemicolon => 77
  | .keyQuote => 163
  | .keyGrave => 253
  | .keyBackslash => 42
  | .keyZ => 87
  | .keyX => 88
  | .keyC => 67
  | .keyV => 86
  | .keyB => 66
  | .keyN => 78
  | .keyM => 44
  | .keyComma => 59
  | .keyDot => 58
  | .keySlash => 33
  | .keyNumpadAsterisk => 42
  | .keySpace => 32
  | .keyNumpad7 => 55
  | .keyNumpad8 => 56
  | .keyNumpad9 => 57
  | .keyNumpadMinus => 45
  | .keyNumpad4 => 52
  | .keyNumpad5 => 53
  | .keyNumpad6 => 54
  | .keyNumpadPlus => 43
  | .keyNumpad1 => 49
  | .keyNumpad2 => 50
  | .keyNumpad3 => 51
  | .keyNumpad0 => 48
  | .keyNumpadDot => 46
  | .keyLessthan => 60
  | .keyNumpadEnter => 10
  | .keyNumpadSlash => 47
  | _ => 0

/-- `getChar_AZERTY_ShiftAltGr(k)`. -/
def getCharAZERTYShiftAltGr : Keycode → UInt8
  | .keyReserved => 0
  | .key1 => 173
  | .key2 => 0
  | .key3 => 156
  | .key4 => 36
  | .key5 => 0
  | .key6 => 0
  | .key7 => 0
  | .key8 => 0
  | .key9 => 241
  | .key0 => 248
  | .keyMinus => 168
  | .keyEqual => 0
  | .keyTab => 9
  | .keyQ => 146
  | .keyW => 60
  | .keyE => 155
  | .keyR => 0
  | .keyT => 0
  | .keyY => 157
  | .keyU => 0
  | .keyI => 0
  | .keyO => 0
  | .keyP => 0
  | .keyLbracket => 248
  | .keyRbracket => 0
  | .keyEnter => 10
  | .keyA => 234
  | .keyS => 0
  | .keyD => 0
  | .keyF => 0
  | .keyG => 0
  | .keyH => 0
  | .keyJ => 0
  | .keyK => 38
  | .keyL => 0
  | .keySemicolon => 248
  | .keyQuote => 0
  | .keyGrave => 170
  | .keyBackslash => 0
  | .keyZ => 0
  | .keyX => 62
  | .keyC => 0
  | .keyV => 0
  | .keyB => 0
  | .keyN => 0
  | .keyM => 0
  | .keyComma => 0
  | .keyDot => 246
  | .keySlash => 0
  | .keyNumpadAsterisk => 42
  | .keySpace => 32
  | .keyNumpad7 => 55
  | .keyNumpad8 => 56
  | .keyNumpad9 => 57
  | .keyNumpadMinus => 45
  | .keyNumpad4 => 52
  | .keyNumpad5 => 53
  | .keyNumpad6 => 54
  | .keyNumpadPlus => 43
  | .keyNumpad1 => 49
  | .keyNumpad2 => 50
  | .keyNumpad3 => 51
  | .keyNumpad0 => 48
  | .keyNumpadDot => 46
  | .keyLessthan => 0
  | .keyNumpadEnter => 10
  | .keyNumpadSlash => 47
  | _ => 0

/-- `getChar_AZERTY_AltGr(k)`. -/
def getCharAZERTYAltGr : Keycode → UInt8
  | .keyReserved => 0
  | .key1 => 0
  | .key2 => 126
  | .key3 => 35
  | .key4 => 123
  | .key5 => 91
  | .key6 => 124
  | .key7 => 96
  | .key8 => 92
  | .key9 => 94
  | .key0 => 64
  | .keyMinus => 93
  | .keyEqual => 125
  | .keyTab => 9
  | .keyQ => 145
  | .keyW => 174
  | .keyE => 0
  | .keyR => 0
  | .keyT => 0
  | .keyY => 0
  | .keyU => 0
  | .keyI => 0
  | .keyO => 0
  | .keyP => 0
  | .keyLbracket => 0
  | .keyRbracket => 0
  | .keyEnter => 10
  | .keyA => 64
  | .keyS => 0
  | .keyD => 0
  | .keyF => 0
  | .keyG => 0
  | .keyH => 0
  | .keyJ => 0
  | .keyK => 0
  | .keyL => 0
  | .keySemicolon => 230
  | .keyQuote => 94
  | .keyGrave => 170
  | .keyBackslash => 96
  | .keyZ => 0
  | .keyX => 175
  | .keyC => 155
  | .keyV => 0
  | .keyB => 0
  | .keyN => 0
  | .keyM => 0
  | .keyComma => 249
  | .keyDot => 250
  | .keySlash => 0
  | .keyNumpadAsterisk => 42
  | .keySpace => 32
  | .keyNumpad7 => 55
  | .keyNumpad8 => 56
  | .keyNumpad9 => 57
  | .keyNumpadMinus => 45
  | .keyNumpad4 => 52
  | .keyNumpad5 => 53
  | .keyNumpad6 => 54
  | .keyNumpadPlus => 43
  | .keyNumpad1 => 49
  | .keyNumpad2 => 50
  | .keyNumpad3 => 51
  | .keyNumpad0 => 48
  | .keyNumpadDot => 46
  | .keyLessthan => 124
  | .keyNumpadEnter => 10
  | .keyNumpadSlash => 47
  | _ => 0

/-- `getChar_AZERTY_Shift(k)`. -/
def getCharAZERTYShift : Keycode → UInt8
  | .keyReserved => 0
  | .key1 => 49
  | .key2 => 50
  | .key3 => 51
  | .key4 => 52
  | .key5 => 53
  | .key6 => 54
  | .key7 => 55
  | .key8 => 56
  | .key9 => 57
  | .key0 => 48
  | .keyMinus => 248
  | .keyEqual => 43
  | .keyTab => 0
  | .keyQ => 65
  | .keyW => 90
  | .keyE => 69
  | .keyR => 82
  | .keyT => 84
  | .keyY => 89
  | .keyU => 85
  | .keyI => 73
  | .keyO => 79
  | .keyP => 80
  | .keyLbracket => 0
  | .keyRbracket => 156
  | .keyEnter => 10
  | .keyA => 81
  | .keyS => 83
  | .keyD => 68
  | .keyF => 70
  | .keyG => 71
  | .keyH => 72
  | .keyJ => 74
  | .keyK => 75
  | .keyL => 76
  | .keySemicolon => 77
  | .keyQuote => 37
  | .keyGrave => 126
  | .keyBackslash => 230
  | .keyZ => 87
  | .keyX => 88
  | .keyC => 67
  | .keyV => 86
  | .keyB => 66
  | .keyN => 78
  | .keyM => 63
  | .keyComma => 46
  | .keyDot => 47
  | .keySlash => 0
  | .keyNumpadAsterisk => 42
  | .keySpace => 32
  | .keyNumpad7 => 55
  | .keyNumpad8 => 56
  | .keyNumpad9 => 57
  | .keyNumpadMinus => 45
  | .keyNumpad4 => 52
  | .keyNumpad5 => 53
  | .keyNumpad6 => 54
  | .keyNumpadPlus => 43
  | .keyNumpad1 => 49
  | .keyNumpad2 => 50
  | .keyNumpad3 => 51
  | .keyNumpad0 => 48
  | .keyNumpadDot => 46
  | .keyLessthan => 62
  | .keyNumpadEnter => 10
  | .keyNumpadSlash => 47
  | _ => 0

end MugOS.Keyboard
