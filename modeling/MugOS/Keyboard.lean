import MugOS.KeyboardLayout

/-!
# The Keyboard Subsystem

`Kernel/Drivers/Input/Keyboard.c`: keyboard drivers notify the subsystem of keys that are pressed
and released, and the subsystem keeps track of modifiers and locks, translates the keys of the
numeric pad, and calls the callbacks that are registered. What the callbacks are told is the
output here; every registered callback is told the same.
-/

namespace MugOS.Keyboard

open PS2

/-! ### The state -/

/-- The static variables of the subsystem: locks, modifiers, and what is remembered of the
numeric pad. -/
structure State where
  capslockOn : Bool
  numlockOn : Bool
  /-- `m_numlockKeyWasFunction` -/
  wasFunction : ℕ → Bool
  modifierKeys : UInt8
  leftShift : Bool
  rightShift : Bool
  leftCtrl : Bool
  rightCtrl : Bool
  leftAlt : Bool
  rightAlt : Bool
  leftMeta : Bool
  rightMeta : Bool

/-- `KB_MODIFIER_CTRL`. -/
abbrev modifierCtrl : UInt8 := 0b00000001

/-- `KB_MODIFIER_SHIFT`. -/
abbrev modifierShift : UInt8 := 0b00000010

/-- `KB_MODIFIER_ALT`. -/
abbrev modifierAlt : UInt8 := 0b00000100

/-- `KB_MODIFIER_META`. -/
abbrev modifierMeta : UInt8 := 0b00001000

/-- `KB_MODIFIER_NUMLOCK`. -/
abbrev modifierNumlock : UInt8 := 0b00010000

/-- `KB_MODIFIER_CAPSLOCK`. -/
abbrev modifierCapslock : UInt8 := 0b00100000

/-- The static variables before anything runs. -/
def State.zero : State :=
  ⟨false, false, fun _ => false, 0, false, false, false, false, false, false, false, false⟩

/-- `Keyboard_init()`: NumLock is on, CapsLock off, and no modifier is held. -/
def init (s : State) : State :=
  { s with
    leftShift := false
    rightShift := false
    numlockOn := true
    capslockOn := false
    modifierKeys := modifierNumlock
    wasFunction := fun _ => false }

/-- The state behind `Keyboard_init()`. -/
def State.start : State := init State.zero

/-! ### Keys -/

/-- The keys of the numeric pad that depend on NumLock, `isNumpadKey(k)`, by their indices in
`m_numlockKeyWasFunction`. -/
def numpadIndex : Keycode → Option ℕ
  | .keyNumpad7 => some 0
  | .keyNumpad8 => some 1
  | .keyNumpad9 => some 2
  | .keyNumpad4 => some 3
  | .keyNumpad5 => some 4
  | .keyNumpad6 => some 5
  | .keyNumpad1 => some 6
  | .keyNumpad2 => some 7
  | .keyNumpad3 => some 8
  | .keyNumpad0 => some 9
  | .keyNumpadDot => some 10
  | _ => none

/-- `getNumpadKey_NoNumluck(k)`. -/
def getNumpadKeyNoNumluck : Keycode → Keycode
  | .keyNumpad7 => .keyHome
  | .keyNumpad8 => .keyUp
  | .keyNumpad9 => .keyPageup
  | .keyNumpad4 => .keyLeft
  | .keyNumpad5 => .keyReserved
  | .keyNumpad6 => .keyRight
  | .keyNumpad1 => .keyEnd
  | .keyNumpad2 => .keyDown
  | .keyNumpad3 => .keyPagedown
  | .keyNumpad0 => .keyInsert
  | .keyNumpadDot => .keyDelete
  | _ => .keyReserved

/-- `getChar_AZERTY(k)`: the character of a key, by the table for the modifiers that are
held. -/
def getCharAZERTY (s : State) (k : Keycode) : UInt8 :=
  if (s.leftShift || s.rightShift) && !s.rightAlt && !s.capslockOn then getCharAZERTYShift k
  else if s.rightAlt && !s.leftShift && !s.rightShift then getCharAZERTYAltGr k
  else if (s.leftShift || s.rightShift) && s.rightAlt then getCharAZERTYShiftAltGr k
  else if s.capslockOn && !s.leftShift && !s.rightShift then getCharAZERTYCapsLock k
  else getCharAZERTYNoModifier k

/-! ### Notifications -/

/-- What the callbacks are told of one event of a key. -/
structure Call where
  keycode : Keycode
  character : ℤ
  /-- whether the mode is `KB_KEYMODE_KEY_RELEASED` -/
  released : Bool
  modifierKeys : UInt8
  deriving DecidableEq, Repr

/-- `executeCallbacks` at the end of the notifications; the character is sign-extended. -/
def executeCallbacks (s : State) (keycode : Keycode) (released : Bool) : Call :=
  ⟨keycode, (getCharAZERTY s keycode).toInt8.toInt, released, s.modifierKeys⟩

/-- The flags of the modifier keys in the switches of `Keyboard_notifyPressed` and
`Keyboard_notifyReleased`. -/
def setModifier (s : State) (keycode : Keycode) (down : Bool) : State :=
  match keycode with
  | .keyLctrl => { s with rightCtrl := down }
  | .keyLshift => { s with leftShift := down }
  | .keyRshift => { s with rightShift := down }
  | .keyLalt => { s with leftAlt := down }
  | .keyRctrl => { s with rightCtrl := down }
  | .keyRalt => { s with rightAlt := down }
  | .keyLmeta => { s with leftMeta := down }
  | .keyRmeta => { s with rightMeta := down }
  | _ => s

/-- The modifiers that are set when a key is pressed. -/
def setFlags (shiftOn ctrlOn altOn metaOn : Bool) (modifiers : UInt8) : UInt8 :=
  let modifiers := if shiftOn then modifiers ||| modifierShift else modifiers
  let modifiers := if ctrlOn then modifiers ||| modifierCtrl else modifiers
  let modifiers := if altOn then modifiers ||| modifierAlt else modifiers
  if metaOn then modifiers ||| modifierMeta else modifiers

/-- The modifiers that are cleared when a key is released. -/
def clearFlags (shiftOn ctrlOn altOn metaOn : Bool) (modifiers : UInt8) : UInt8 :=
  let modifiers := if !shiftOn then modifiers &&& ~~~modifierShift else modifiers
  let modifiers := if !ctrlOn then modifiers &&& ~~~modifierCtrl else modifiers
  let modifiers := if !altOn then modifiers &&& ~~~modifierAlt else modifiers
  if !metaOn then modifiers &&& ~~~modifierMeta else modifiers

/-- The modifiers are updated by one of these functions. -/
def State.updateModifiers (s : State) (flags : Bool → Bool → Bool → Bool → UInt8 → UInt8) : State :=
  { s with
    modifierKeys := flags (s.leftShift || s.rightShift) (s.leftCtrl || s.rightCtrl)
      (s.leftAlt || s.rightAlt) (s.leftMeta || s.rightMeta) s.modifierKeys }

/-- A store to `m_numlockKeyWasFunction`, for one key of the numeric pad. -/
def State.setFunction (s : State) (i : ℕ) (b : Bool) : State :=
  { s with wasFunction := Function.update s.wasFunction i b }

/-- The state of `Keyboard_notifyReleased` where it looks at the numeric pad. -/
def releaseKey (s : State) (keycode : Keycode) : State :=
  let s := setModifier s keycode false
  let s :=
    if keycode = .keyNumlock then
      { s with
        numlockOn := !s.numlockOn
        modifierKeys := s.modifierKeys ^^^ modifierNumlock }
    else s
  s.updateModifiers clearFlags

/-- `Keyboard_notifyReleased(keycode)`: updates the modifiers, and tells the callbacks the key
or its function. -/
def notifyReleased (s : State) (keycode : Keycode) : Option Call × State :=
  let s := releaseKey s keycode
  match numpadIndex keycode with
  | none => (some (executeCallbacks s keycode true), s)
  | some i =>
      if keycode = .keyNumpad5 then
        if s.wasFunction i then (none, s.setFunction i false)
        else (some (executeCallbacks s keycode true), s)
      else if s.wasFunction i || !s.numlockOn then
        let s := s.setFunction i false
        (some (executeCallbacks s (getNumpadKeyNoNumluck keycode) true), s)
      else (some (executeCallbacks s keycode true), s)

/-- Whether a key of the numeric pad that is pressed stands for its function. -/
def State.functionMode (s : State) : Bool :=
  s.leftShift || s.rightShift || s.leftCtrl || s.rightCtrl || !s.numlockOn

/-- The state of `Keyboard_notifyPressed` where it looks at the numeric pad. -/
def pressKey (s : State) (keycode : Keycode) : State :=
  let s := setModifier s keycode true
  let s :=
    if keycode = .keyCapslock then
      { s with
        capslockOn := !s.capslockOn
        modifierKeys := s.modifierKeys ^^^ modifierCapslock }
    else s
  s.updateModifiers setFlags

/-- `Keyboard_notifyPressed(keycode)`: updates the modifiers, and tells the callbacks the key
or its function. -/
def notifyPressed (s : State) (keycode : Keycode) : Option Call × State :=
  let s := pressKey s keycode
  match numpadIndex keycode with
  | none => (some (executeCallbacks s keycode false), s)
  | some i =>
      if s.functionMode then
        let s := s.setFunction i true
        if keycode = .keyNumpad5 then (none, s)
        else (some (executeCallbacks s (getNumpadKeyNoNumluck keycode) false), s)
      else (some (executeCallbacks s keycode false), s)

/-- A notification of the subsystem by a driver: a key is pressed or released. -/
inductive Notification
  | pressed (keycode : Keycode)
  | released (keycode : Keycode)
  deriving DecidableEq, Repr

/-- A call of `Keyboard_notifyPressed` or `Keyboard_notifyReleased`. -/
def notify (s : State) : Notification → Option Call × State
  | .pressed keycode => notifyPressed s keycode
  | .released keycode => notifyReleased s keycode

/-- The state behind a sequence of notifications. -/
def after (ns : List Notification) : State := ns.foldl (fun s n => (notify s n).2) State.start

/-! ### Keys that are held -/

/-- The key of a notification. -/
def Notification.keycode : Notification → Keycode
  | .pressed keycode => keycode
  | .released keycode => keycode

/-- Whether the key of a notification is down after it. -/
def Notification.down : Notification → Bool
  | .pressed _ => true
  | .released _ => false

/-- Whether a key is held after a sequence of notifications: it was notified pressed more recently
than released. -/
def held (ns : List Notification) : Keycode → Bool :=
  ns.foldl (fun h n => Function.update h n.keycode n.down) fun _ => false

@[simp] theorem after_append (ns : List Notification) (n : Notification) :
    after (ns ++ [n]) = (notify (after ns) n).2 := by
  simp [after, List.foldl_append]

@[simp] theorem held_append (ns : List Notification) (n : Notification) :
    held (ns ++ [n]) = Function.update (held ns) n.keycode n.down := by
  simp [held, List.foldl_append]

end MugOS.Keyboard
