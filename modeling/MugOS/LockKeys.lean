import MugOS.KeyboardModifiers
import MugOS.Lib.Run

/-!
# Lock Keys and LEDs

The keyboard, its driver and the keyboard subsystem together. The keyboard sends the codes of keys
and replies to the bytes that the driver sends to it; the driver (`handleScancodeSet1` or
`handleScancodeSet2`) starts a handshake of two bytes that sets the LEDs when a lock key is pressed,
and notifies the subsystem, which has a state of CapsLock and NumLock of its own.

A lock key goes through the driver and the subsystem in different ways: the LEDs change when the
handshake ends, `m_capslockOn` changes when the subsystem is notified of a press, which is when the
handshake ends if the key is held, and on every repeat, and `m_numlockOn` changes when the key is
released. The conditions under which these stay in step are `Orderly`.

## Main results

* `Inv.quiet`, `Inv.lock`, `Inv.ack`, `Inv.resend`: what single bytes preserve.
* `inStep_of_runs`: LEDs and locks are in step in every orderly run, for every scancode set whose
  codes are read as they should be.
-/

namespace MugOS.LockKeys

open PS2

/-! ### The system -/

/-- The lock keys, each with a LED and a bit of its own. -/
inductive Lock
  | numlock
  | scrolllock
  | capslock
  deriving DecidableEq, Repr

/-- The keycode of a lock key. -/
def Lock.keycode : Lock → Keycode
  | .numlock => .keyNumlock
  | .scrolllock => .keyScrolllock
  | .capslock => .keyCapslock

/-- The bit of its LED. -/
def Lock.bit : Lock → UInt8
  | .numlock => 0b010
  | .scrolllock => 0b001
  | .capslock => 0b100

/-- Whether the LED of a lock is on in a byte for the LEDs. -/
def isOn (leds : UInt8) (key : Lock) : Bool := leds &&& key.bit ≠ 0

/-- A scancode set: the function of the driver, and the codes that the keyboard sends. -/
structure ScancodeSet where
  handle : Decoder → UInt8 → List Output × Decoder
  /-- the codes of keys that are no lock keys -/
  Code : Type
  bytes : Code → List UInt8
  /-- whether the code would be a lock key's without its escape byte -/
  hidesLock : Code → Bool
  /-- how much of a release of PrintScreen has come when an escape byte is to be the next part -/
  awaited : ℕ
  /-- whether any other byte then clears the flags of the function -/
  clears : Bool
  makeByte : Lock → UInt8
  breakBytes : Lock → List UInt8

/-- The keyboard, the driver and the subsystem, with what is under way between them. -/
structure System where
  decoder : Decoder
  keyboard : Keyboard.State
  /-- how many bytes have been sent to the keyboard that it has not replied to -/
  outstanding : ℕ
  /-- the lock keys whose make code came more recently than their break code -/
  held : Lock → Bool
  /-- how often each lock key has been pressed, repeats not counted -/
  presses : Lock → ℕ
  /-- the bytes that are left of the code that the keyboard sends -/
  rest : List UInt8
  /-- the lock key whose break code it is -/
  breaking : Option Lock

/-- The system after the initialization: only NumLock is on. -/
def System.start : System :=
  ⟨.start 0b010, .start, 0, fun _ => false, fun _ => 0, [], none⟩

/-- What the subsystem makes of an output of the driver. -/
def react (s : Keyboard.State) : Output → Keyboard.State
  | .pressed keycode => (Keyboard.notify s (.pressed keycode)).2
  | .released keycode => (Keyboard.notify s (.released keycode)).2
  | _ => s

/-- The bytes among the outputs that are sent to the keyboard. -/
def sends (out : List Output) : ℕ :=
  out.countP fun
    | .send _ => true
    | _ => false

/-- A byte arrives at the driver, whose outputs go to the subsystem and to the keyboard. -/
def deliver (S : ScancodeSet) (s : System) (b : UInt8) : System :=
  let (out, d) := S.handle s.decoder b
  { s with
    decoder := d
    keyboard := out.foldl react s.keyboard
    outstanding := s.outstanding + sends out }

/-- The next byte of a code arrives. Behind the last byte of its break code, a lock key is held no
longer. -/
def deliverNext (S : ScancodeSet) (s : System) : System :=
  match s.rest with
  | [] => s
  | b :: rest =>
      let s := { deliver S s b with rest := rest }
      match rest, s.breaking with
      | [], some key => { s with held := Function.update s.held key false, breaking := none }
      | _, _ => s

/-- What may happen next: a code begins or goes on, or the keyboard replies. -/
inductive Step (S : ScancodeSet)
  /-- the code of a key that is no lock key begins -/
  | code (c : S.Code)
  /-- the make code of a lock key: it is pressed, or repeats while it is held -/
  | lockMake (key : Lock)
  /-- the break code of a lock key begins -/
  | lockBreak (key : Lock)
  /-- the next byte of a code that has begun -/
  | next
  /-- the reply to a byte that was sent to the keyboard: ACK or RESEND -/
  | reply (acked : Bool)

/-- The system takes a step. The codes of keys do not overlap, but replies may come between their
bytes. -/
def step (S : ScancodeSet) (s : System) : Step S → Option System
  | .code c =>
      if s.rest = [] then
        some (deliverNext S { s with rest := S.bytes c, breaking := none })
      else none
  | .lockMake key =>
      if s.rest = [] then
        some { deliver S s (S.makeByte key) with
          held := Function.update s.held key true
          presses :=
            if s.held key then s.presses
            else Function.update s.presses key (s.presses key + 1) }
      else none
  | .lockBreak key =>
      if s.rest = [] ∧ s.held key then
        some (deliverNext S { s with rest := S.breakBytes key, breaking := some key })
      else none
  | .next => if s.rest ≠ [] then some (deliverNext S s) else none
  | .reply acked =>
      if s.outstanding ≠ 0 then
        some (deliver S { s with outstanding := s.outstanding - 1 } (if acked then 0xfa else 0xfe))
      else none

/-- **LEDs and locks are in step**: when no reply is awaited and no lock key is held, the LEDs of
CapsLock and NumLock are those of the subsystem, and each press has changed them once. -/
def InStep (s : System) : Prop :=
  s.outstanding = 0 → (∀ key, s.held key = false) →
    isOn s.decoder.leds .capslock = s.keyboard.capslockOn ∧
    isOn s.decoder.leds .numlock = s.keyboard.numlockOn ∧
    s.keyboard.capslockOn = decide (s.presses .capslock % 2 = 1) ∧
    s.keyboard.numlockOn = decide (s.presses .numlock % 2 = 0)

/-- **The steps that keep them in step.** A lock key is pressed only when no handshake is under way,
and CapsLock does not repeat. No code of a lock key comes where the driver still expects the second
byte of an escaped code, and no make code where it takes the next code for a break code, unless it
is about to clear both flags. The code of another key that is a lock key's but for its escape byte
does not come where this byte is taken for a part of PrintScreen. No reply comes within the code of
Pause, it is not the third RESEND, and the ACK that ends a handshake comes while CapsLock is held
exactly if CapsLock has started it. -/
def Orderly {S : ScancodeSet} (s : System) : Step S → Prop
  | .code c =>
      S.hidesLock c = true → s.decoder.printScreenReleased = S.awaited →
        s.decoder.escaped = true
  | .next => True
  | .lockMake key =>
      (s.decoder.escaped = false ∧ s.decoder.released = false ∨
        S.clears = true ∧ s.decoder.printScreenReleased = S.awaited) ∧
        if s.held key then key ≠ .capslock else s.decoder.ledSequence = 0
  | .lockBreak _ =>
      s.decoder.escaped = false ∨
        S.clears = true ∧ s.decoder.printScreenReleased = S.awaited
  | .reply true =>
      s.decoder.pause = 0 ∧ (s.decoder.ledSequence = 2 →
        s.held .capslock = isOn (s.decoder.wantedLeds ^^^ s.decoder.leds) .capslock)
  | .reply false => s.decoder.pause = 0 ∧ s.decoder.resendCount ≠ 2

/-! ### Reading codes -/

/-- The variables of the driver that say which part of a code has arrived. -/
structure Flags where
  released : Bool
  escaped : Bool
  printScreenPressed : ℕ
  printScreenReleased : ℕ
  pause : ℕ
  deriving DecidableEq, Repr

/-- The flags when nothing has arrived, or only a break byte. -/
def Flags.idle (released : Bool) : Flags := ⟨released, false, 0, 0, 0⟩

/-- The flags of a decoder, which are what it knows of the code that is being read. -/
def flags (d : Decoder) : Flags :=
  ⟨d.released, d.escaped, d.printScreenPressed, d.printScreenReleased, d.pause⟩

/-- A decoder with other flags, and everything else as it was. -/
def withFlags (d : Decoder) (f : Flags) : Decoder :=
  { d with
    released := f.released
    escaped := f.escaped
    printScreenPressed := f.printScreenPressed
    printScreenReleased := f.printScreenReleased
    pause := f.pause }

@[simp] theorem flags_withFlags (d : Decoder) (f : Flags) : flags (withFlags d f) = f := rfl

@[simp] theorem withFlags_flags (d : Decoder) : withFlags d (flags d) = d := rfl

/-- The outputs that change neither the LEDs nor CapsLock nor NumLock. -/
def Harmless (out : List Output) : Prop :=
  ∀ o ∈ out, o ≠ .pressed .keyCapslock ∧ o ≠ .released .keyNumlock ∧ ∀ b, o ≠ .send b

/-- What the driver takes a byte for: a part of a code that is no lock key's, a lock key, or
something that does not come where it should. -/
inductive Reading
  | quiet (f : Flags)
  | lock (key : Lock) (released : Bool)
  | unexpected
  deriving DecidableEq

/-- The driver at an ACK, the flags apart: the handshake goes on, and its end is notified. -/
def acknowledge (d : Decoder) : List Output × Decoder :=
  let (acked, out, d) := cycleLedSequence d false d.wantedLeds true
  if acked then (out ++ notifyLocks d, { d with leds := d.wantedLeds }) else (out, d)

/-- The driver at a RESEND that is not the third, the flags apart. -/
def resend (d : Decoder) : List Output × Decoder :=
  let (_, out, d) :=
    cycleLedSequence { d with resendCount := d.resendCount + 1 } false d.wantedLeds false
  (out, d)

/-- The handshake about the LEDs does not change what the decoder knows of the current
scancode. -/
theorem flags_cycleLedSequence (d : Decoder) (start : Bool) (leds : UInt8) (acked : Bool) :
    flags (cycleLedSequence d start leds acked).2.2 = flags d := by
  simp only [cycleLedSequence]
  split <;> rfl

/-- An ACK does not change what the decoder knows of the current scancode. -/
@[simp] theorem flags_acknowledge (d : Decoder) : flags (acknowledge d).2 = flags d := by
  have hcycle := flags_cycleLedSequence d false d.wantedLeds true
  unfold acknowledge
  generalize cycleLedSequence d false d.wantedLeds true = r at hcycle ⊢
  obtain ⟨acked, out, d'⟩ := r
  cases acked with
  | false => exact hcycle
  | true => exact hcycle

/-- A RESEND does not change what the decoder knows of the current scancode. -/
@[simp] theorem flags_resend (d : Decoder) : flags (resend d).2 = flags d :=
  flags_cycleLedSequence { d with resendCount := d.resendCount + 1 } false d.wantedLeds false

/-- How the driver reads single bytes, from the flags alone. -/
structure Reader (S : ScancodeSet) where
  read : Flags → UInt8 → Reading
  /-- the flags behind a reply -/
  interrupt : Flags → Flags
  interrupt_interrupt : ∀ f, interrupt (interrupt f) = interrupt f
  handle_ack : ∀ d, S.handle d 0xfa = acknowledge (withFlags d (interrupt (flags d)))
  handle_resend : ∀ d, d.resendCount ≠ 2 →
    S.handle d 0xfe = resend (withFlags d (interrupt (flags d)))
  handle_quiet : ∀ d b f, read (flags d) b = .quiet f →
    ∃ out, S.handle d b = (out, withFlags d f) ∧ Harmless out
  handle_lock : ∀ d b key released, read (flags d) b = .lock key released →
    ∃ c, S.handle d b = handleKeycode (withFlags d (.idle released)) c key.keycode

section Leads

variable {S : ScancodeSet} (R : Reader S)

/-- The flags that may be there when the next byte arrives: those behind the last byte, or behind
replies. -/
def Reader.variants (f : Flags) : List Flags :=
  if f.pause = 0 then [f, R.interrupt f] else [f]

/-- From each of some flags, the bytes are read as a part of a code that is no lock key's, whichever
replies come between them, and some flags are behind them. -/
def Reader.Leads : List Flags → List UInt8 → List Flags → Prop
  | fs, [], fs' => fs ⊆ fs'
  | fs, b :: bs, fs' =>
      ∃ gs : List Flags, (∀ f ∈ fs, ∃ g, R.read f b = .quiet g ∧ R.variants g ⊆ gs) ∧
        Reader.Leads gs bs fs'

/-- The flags behind a byte, if it is read as a part of a code that is no lock key's. -/
def Reader.next (f : Flags) (b : UInt8) : List Flags :=
  match R.read f b with
  | .quiet g => R.variants g
  | _ => []

/-- The same, decided. -/
def Reader.leads : List Flags → List UInt8 → List Flags → Bool
  | fs, [], fs' => fs.all (· ∈ fs')
  | fs, b :: bs, fs' =>
      fs.all (fun f => R.next f b ≠ []) && Reader.leads (fs.flatMap (R.next · b)).dedup bs fs'

/-- What the executable check finds about the flags that a code leads to is so. -/
theorem Reader.leads_sound {fs fs' : List Flags} {bs : List UInt8} (h : R.leads fs bs fs' = true) :
    R.Leads fs bs fs' := by
  induction bs generalizing fs with
  | nil => exact fun f hf => by simpa using List.all_eq_true.mp h f hf
  | cons b bs ih =>
      obtain ⟨hquiet, hrest⟩ : (∀ f ∈ fs, R.next f b ≠ []) ∧
          R.leads (fs.flatMap (R.next · b)).dedup bs fs' = true := by
        simpa [Reader.leads] using h
      refine ⟨_, fun f hf => ?_, ih hrest⟩
      have hnext := hquiet f hf
      unfold Reader.next at hnext
      split at hnext
      · rename_i g hg
        refine ⟨g, hg, fun g' hg' => ?_⟩
        rw [List.mem_dedup, List.mem_flatMap]
        exact ⟨f, hf, by simpa [Reader.next, hg] using hg'⟩
      · exact absurd rfl hnext

/-- A code leads from fewer flags to the same flags. -/
theorem Reader.Leads.mono {fs gs fs' : List Flags} {bs : List UInt8} (h : R.Leads fs bs fs')
    (hsub : gs ⊆ fs) : R.Leads gs bs fs' := by
  cases bs with
  | nil => exact fun f hf => h (hsub hf)
  | cons b bs =>
      obtain ⟨hs, hread, hrest⟩ := h
      exact ⟨hs, fun f hf => hread f (hsub hf), hrest⟩

/-- Two codes one after the other lead to what the second one leads to from where the first one
leads. -/
theorem Reader.Leads.append {fs gs hs : List Flags} {bs bs' : List UInt8} (h : R.Leads fs bs gs)
    (h' : R.Leads gs bs' hs) : R.Leads fs (bs ++ bs') hs := by
  induction bs generalizing fs with
  | nil => exact h'.mono R h
  | cons b bs ih =>
      obtain ⟨ks, hread, hrest⟩ := h
      exact ⟨ks, hread, ih hrest⟩

/-- Outside of Pause, the flags that replies can leave after a reply are among those that they
could leave before it. -/
theorem Reader.variants_interrupt {f : Flags} (hpause : f.pause = 0) :
    R.variants (R.interrupt f) ⊆ R.variants f := by
  have hsub : R.variants (R.interrupt f) ⊆ [R.interrupt f] := by
    unfold Reader.variants
    split
    · rw [R.interrupt_interrupt]
      simp
    · simp
  have hmem : [R.interrupt f] ⊆ R.variants f := by simp [Reader.variants, hpause]
  exact fun g hg => hmem (hsub hg)

/-- The flags that the decoder has are among the variants that replies can leave. -/
theorem Reader.mem_variants (f : Flags) : f ∈ R.variants f := by
  unfold Reader.variants
  split <;> simp

/-- **The codes are read as they should be**: between codes the flags are among `boundary`, a code
that is no lock key's is never taken for one, and those of the lock keys are read as such. -/
structure Reader.Faithful (boundary : List Flags) : Prop where
  idle : Flags.idle false ∈ boundary
  closed : ∀ f ∈ boundary, R.variants f ⊆ boundary
  nonempty : ∀ c, S.bytes c ≠ []
  code : ∀ c, ∀ f ∈ boundary,
    (S.hidesLock c = true → f.printScreenReleased = S.awaited → f.escaped = true) →
      R.Leads (R.variants f) (S.bytes c) boundary
  make : ∀ key, ∀ f ∈ boundary,
    (f.escaped = false ∧ f.released = false ∨
        S.clears = true ∧ f.printScreenReleased = S.awaited) →
      R.read f (S.makeByte key) = .lock key false
  breaks : ∀ key, ∀ f ∈ boundary,
    (f.escaped = false ∨ S.clears = true ∧ f.printScreenReleased = S.awaited) →
    ∃ bs b gs, S.breakBytes key = bs ++ [b] ∧
      R.Leads (R.variants f) bs gs ∧ ∀ g ∈ gs, R.read g b = .lock key true

end Leads

/-! ### LEDs and locks -/

/-- Each of the three locks is on in the LEDs if and only if its bit is set. -/
theorem isOn_eq : ∀ leds : UInt8,
    isOn leds .numlock = leds.toBitVec.getLsbD 1 ∧ isOn leds .scrolllock = leds.toBitVec.getLsbD 0 ∧
    isOn leds .capslock = leds.toBitVec.getLsbD 2 := by
  decide +kernel

/-- A lock is on in the exclusive or of two LED bytes if it is on in one of them only. -/
@[simp] theorem isOn_xor (a b : UInt8) (key : Lock) :
    isOn (a ^^^ b) key = (isOn a key != isOn b key) := by
  obtain ⟨hn, hs, hc⟩ := isOn_eq a
  obtain ⟨hn', hs', hc'⟩ := isOn_eq b
  obtain ⟨hn'', hs'', hc''⟩ := isOn_eq (a ^^^ b)
  cases key with
  | numlock => simp [hn, hn', hn'']
  | scrolllock => simp [hs, hs', hs'']
  | capslock => simp [hc, hc', hc'']

/-- Each lock has a bit of its own, which turns no other lock on. -/
@[simp] theorem isOn_bit (key key' : Lock) : isOn key.bit key' = decide (key = key') := by
  cases key <;> cases key' <;> decide

/-- Whether the driver has seen the press of a lock key. -/
def wasSet (d : Decoder) : Lock → Bool
  | .numlock => d.numlockWasSet
  | .scrolllock => d.scrolllockWasSet
  | .capslock => d.capslockWasSet

/-- The driver has seen the press or the release of a lock key. -/
def setWasSet (d : Decoder) (key : Lock) (b : Bool) : Decoder :=
  match key with
  | .numlock => { d with numlockWasSet := b }
  | .scrolllock => { d with scrolllockWasSet := b }
  | .capslock => { d with capslockWasSet := b }

@[simp] theorem wasSet_setWasSet (d : Decoder) (key : Lock) (b : Bool) :
    wasSet (setWasSet d key b) = Function.update (wasSet d) key b := by
  funext key'
  cases key <;> cases key' <;> rfl

/-- **The first press** of a lock key starts a handshake. -/
theorem handleKeycode_press {d : Decoder} {key : Lock} {c : UInt8} (hreleased : d.released = false)
    (hset : wasSet d key = false) :
    handleKeycode d c key.keycode =
      ([.send 0xed],
        setWasSet { d with wantedLeds := d.leds ^^^ key.bit, ledSequence := 1 } key true) := by
  cases key with
  | numlock =>
      have hset' : d.numlockWasSet = false := hset
      simp [handleKeycode, Lock.keycode, hreleased, hset', startLeds, cycleLedSequence, Lock.bit,
        setWasSet]
  | scrolllock =>
      have hset' : d.scrolllockWasSet = false := hset
      simp [handleKeycode, Lock.keycode, hreleased, hset', startLeds, cycleLedSequence, Lock.bit,
        setWasSet]
  | capslock =>
      have hset' : d.capslockWasSet = false := hset
      simp [handleKeycode, Lock.keycode, hreleased, hset', startLeds, cycleLedSequence, Lock.bit,
        setWasSet]

/-- A make code of a lock key that is held already is passed on as a press, without a change of
the locks. -/
theorem handleKeycode_repeat {d : Decoder} {key : Lock} {c : UInt8} (hreleased : d.released = false)
    (hset : wasSet d key = true) :
    handleKeycode d c key.keycode = ([.pressed key.keycode], d.reset) := by
  cases key with
  | numlock =>
      have hset' : d.numlockWasSet = true := hset
      simp [handleKeycode, Lock.keycode, hreleased, hset', message]
  | scrolllock =>
      have hset' : d.scrolllockWasSet = true := hset
      simp [handleKeycode, Lock.keycode, hreleased, hset', message]
  | capslock =>
      have hset' : d.capslockWasSet = true := hset
      simp [handleKeycode, Lock.keycode, hreleased, hset', message]

/-- A break code of a lock key is passed on as its release, and the key counts as not held. -/
theorem handleKeycode_release {d : Decoder} {key : Lock} {c : UInt8}
    (hreleased : d.released = true) :
    handleKeycode d c key.keycode = ([.released key.keycode], (setWasSet d key false).reset) := by
  cases key <;> simp [handleKeycode, Lock.keycode, hreleased, message, setWasSet]

/-- **What an output does to the locks** of the subsystem: CapsLock changes with presses, NumLock
with releases. -/
theorem react_locks (s : Keyboard.State) (o : Output) :
    (react s o).capslockOn = (s.capslockOn != decide (o = .pressed .keyCapslock)) ∧
      (react s o).numlockOn = (s.numlockOn != decide (o = .released .keyNumlock)) := by
  have hmodifier : ∀ keycode down,
      (Keyboard.setModifier s keycode down).capslockOn = s.capslockOn ∧
      (Keyboard.setModifier s keycode down).numlockOn = s.numlockOn := by
    intro keycode down
    unfold Keyboard.setModifier
    split <;> exact ⟨rfl, rfl⟩
  cases o with
  | pressed keycode =>
      have hpress : (Keyboard.pressKey s keycode).capslockOn =
            (s.capslockOn != decide (keycode = .keyCapslock)) ∧
          (Keyboard.pressKey s keycode).numlockOn = s.numlockOn := by
        by_cases hkey : keycode = .keyCapslock <;>
          simp [Keyboard.pressKey, Keyboard.State.updateModifiers, hkey, hmodifier]
      obtain ⟨s', rfl, hstate⟩ := Keyboard.notify_state s (.pressed keycode)
      rcases hstate with hstate | ⟨i, b, hstate⟩
      · simpa [react, hstate] using hpress
      · simpa [react, hstate, Keyboard.State.setFunction] using hpress
  | released keycode =>
      have hrelease : (Keyboard.releaseKey s keycode).capslockOn = s.capslockOn ∧
          (Keyboard.releaseKey s keycode).numlockOn =
            (s.numlockOn != decide (keycode = .keyNumlock)) := by
        by_cases hkey : keycode = .keyNumlock <;>
          simp [Keyboard.releaseKey, Keyboard.State.updateModifiers, hkey, hmodifier]
      obtain ⟨s', rfl, hstate⟩ := Keyboard.notify_state s (.released keycode)
      rcases hstate with hstate | ⟨i, b, hstate⟩
      · simpa [react, hstate] using hrelease
      · simpa [react, hstate, Keyboard.State.setFunction] using hrelease
  | sysRq => simp [react]
  | send b => simp [react]
  | unrecognized c => simp [react]

/-- Harmless outputs toggle no lock of the keyboard, and send no LEDs. -/
theorem Harmless.react {out : List Output} (h : Harmless out) (s : Keyboard.State) :
    (out.foldl LockKeys.react s).capslockOn = s.capslockOn ∧
      (out.foldl LockKeys.react s).numlockOn = s.numlockOn ∧ sends out = 0 := by
  induction out generalizing s with
  | nil => exact ⟨rfl, rfl, rfl⟩
  | cons o out ih =>
      obtain ⟨hcaps, hnum, hsends⟩ := ih (fun o' ho' => h o' (List.mem_cons_of_mem o ho'))
        (LockKeys.react s o)
      obtain ⟨hpressed, hreleased, hsend⟩ := h o List.mem_cons_self
      obtain ⟨hcaps', hnum'⟩ := react_locks s o
      refine ⟨?_, ?_, ?_⟩
      · rw [List.foldl_cons, hcaps, hcaps']
        simp [hpressed]
      · rw [List.foldl_cons, hnum, hnum']
        simp [hreleased]
      · rw [sends] at hsends ⊢
        rw [List.countP_cons, hsends]
        cases o with
        | send b => exact absurd rfl (hsend b)
        | pressed keycode => rfl
        | released keycode => rfl
        | sysRq => rfl
        | unrecognized c => rfl

/-- The notifications at the end of a handshake: CapsLock changes if it is held. -/
theorem react_notifyLocks (d : Decoder) (s : Keyboard.State) :
    ((notifyLocks d).foldl react s).capslockOn = (s.capslockOn != d.capslockWasSet) ∧
      ((notifyLocks d).foldl react s).numlockOn = s.numlockOn ∧ sends (notifyLocks d) = 0 := by
  unfold notifyLocks
  cases d.numlockWasSet <;> cases d.scrolllockWasSet <;> cases d.capslockWasSet <;>
    simp [react_locks, sends]

/-- The parity of the next number is the opposite of the parity of this one. -/
theorem decide_succ_mod (n r : ℕ) (hr : r < 2) :
    decide ((n + 1) % 2 = r) = !decide (n % 2 = r) := by
  by_cases h : n % 2 = r
  · simp only [h, decide_true, Bool.not_true, decide_eq_false_iff_not]
    omega
  · simp only [h, decide_false, Bool.not_false, decide_eq_true_eq]
    omega

/-- A change of a LED that the keyboard has not acknowledged. -/
def pending (d : Decoder) (key : Lock) : Bool :=
  d.ledSequence ≠ 0 && isOn (d.wantedLeds ^^^ d.leds) key

/-- **How LEDs and locks are related in between.** The driver knows which lock keys are held,
at most one reply is awaited, CapsLock is that of the LED, and NumLock differs from its LED
while the key is held or the LED is about to change, but not both. -/
structure Kept (s : System) : Prop where
  wasSet : wasSet s.decoder = s.held
  sequence : s.decoder.ledSequence = 0 ∧ s.outstanding = 0 ∨
    (s.decoder.ledSequence = 1 ∨ s.decoder.ledSequence = 2) ∧ s.outstanding = 1
  capslock : s.keyboard.capslockOn = isOn s.decoder.leds .capslock
  numlock : s.keyboard.numlockOn =
    (isOn s.decoder.leds .numlock != (s.held .numlock != pending s.decoder .numlock))
  capsPresses : decide (s.presses .capslock % 2 = 1) =
    (isOn s.decoder.leds .capslock != pending s.decoder .capslock)
  numPresses : decide (s.presses .numlock % 2 = 0) =
    (isOn s.decoder.leds .numlock != pending s.decoder .numlock)

/-- At the start no lock key is held, no handshake is under way, and the keyboard and the LEDs
agree. -/
theorem kept_start : Kept .start where
  wasSet := by
    funext key
    cases key <;> rfl
  sequence := .inl ⟨rfl, rfl⟩
  capslock := by decide
  numlock := by decide
  capsPresses := by decide
  numPresses := by decide

section Kept

variable {s : System} (h : Kept s)

include h

/-- When no handshake is under way and no lock key is held, the keyboard, the LEDs and the
presses are in step. -/
theorem Kept.inStep : InStep s := by
  intro hout hheld
  have hseq : s.decoder.ledSequence = 0 := by
    rcases h.sequence with hseq | hseq
    · exact hseq.1
    · omega
  have hpending : ∀ key, pending s.decoder key = false := by simp [pending, hseq]
  have hcaps := h.capsPresses
  have hnum := h.numPresses
  have hnumlock := h.numlock
  simp only [hpending, hheld, Bool.bne_false] at hcaps hnum hnumlock
  exact ⟨h.capslock.symm, hnumlock.symm, h.capslock.trans hcaps.symm, hnumlock.trans hnum.symm⟩

/-- The code that is being sent does not matter for this. -/
theorem Kept.withRest (rest : List UInt8) (breaking : Option Lock) :
    Kept { s with rest := rest, breaking := breaking } :=
  ⟨h.wasSet, h.sequence, h.capslock, h.numlock, h.capsPresses, h.numPresses⟩

/-- **A byte of another code** changes nothing of this. -/
theorem Kept.quiet {S : ScancodeSet} {b : UInt8} {out : List Output} {f : Flags}
    (hhandle : S.handle s.decoder b = (out, withFlags s.decoder f)) (hout : Harmless out) :
    Kept (deliver S s b) := by
  obtain ⟨hcaps, hnum, hsends⟩ := hout.react s.keyboard
  rw [deliver, hhandle]
  refine ⟨h.wasSet, ?_, hcaps.trans h.capslock, hnum.trans h.numlock, h.capsPresses, h.numPresses⟩
  simp only [hsends, add_zero]
  exact h.sequence

/-- **A lock key is pressed** when no handshake is under way: one starts. -/
theorem Kept.press {S : ScancodeSet} {b c : UInt8} {key : Lock}
    (hhandle : S.handle s.decoder b =
      handleKeycode (withFlags s.decoder (.idle false)) c key.keycode)
    (hheld : s.held key = false) (hseq : s.decoder.ledSequence = 0) :
    Kept { deliver S s b with
      held := Function.update s.held key true
      presses := Function.update s.presses key (s.presses key + 1) } := by
  have hout : s.outstanding = 0 := by
    rcases h.sequence with hs | hs <;> omega
  have hset : LockKeys.wasSet (withFlags s.decoder (.idle false)) key = false := by
    rw [← hheld, ← h.wasSet]
    rfl
  have hpending : ∀ key', pending s.decoder key' = false := by simp [pending, hseq]
  have hnumlock := h.numlock
  have hcaps := h.capsPresses
  have hnum := h.numPresses
  simp only [hpending, Bool.bne_false] at hnumlock hcaps hnum
  rw [deliver, hhandle, handleKeycode_press rfl hset]
  have hleds : ∀ d : Decoder, (setWasSet d key true).leds = d.leds := by
    intro d
    cases key <;> rfl
  have hpending' : ∀ key', pending (setWasSet { withFlags s.decoder (.idle false) with
      wantedLeds := (withFlags s.decoder (.idle false)).leds ^^^ key.bit, ledSequence := 1 } key
      true)
        key' = decide (key = key') := by
    intro key'
    have hcancel : ∀ a b : Bool, ((a != b) != a) = b := by decide
    have hwanted : isOn ((withFlags s.decoder (.idle false)).leds ^^^ key.bit ^^^
        (withFlags s.decoder (.idle false)).leds) key' = decide (key = key') := by
      rw [isOn_xor, isOn_xor, isOn_bit, hcancel]
    cases key <;> exact hwanted
  refine ⟨?_, .inr ⟨.inl ?_, ?_⟩, ?_, ?_, ?_, ?_⟩
  · simp only [wasSet_setWasSet, ← h.wasSet]
    rfl
  · cases key <;> rfl
  · simp [hout, sends]
  · cases key <;> exact h.capslock
  · rw [hleds, hpending']
    refine hnumlock.trans ?_
    cases key <;> simp [withFlags, hheld]
  · rw [hleds, hpending']
    cases key <;> simp [withFlags, ← hcaps, decide_succ_mod _ 1]
  · rw [hleds, hpending']
    cases key <;> simp [withFlags, ← hnum, decide_succ_mod _ 0]

/-- A lock key that is held repeats: only CapsLock would change. -/
theorem Kept.repeats {S : ScancodeSet} {b c : UInt8} {key : Lock}
    (hhandle : S.handle s.decoder b =
      handleKeycode (withFlags s.decoder (.idle false)) c key.keycode)
    (hheld : s.held key = true) (hkey : key ≠ .capslock) :
    Kept { deliver S s b with held := Function.update s.held key true } := by
  have hset : LockKeys.wasSet (withFlags s.decoder (.idle false)) key = true := by
    rw [← hheld, ← h.wasSet]
    rfl
  have hsame : Function.update s.held key true = s.held := by rw [← hheld, Function.update_eq_self]
  have hreset : (withFlags s.decoder (.idle false)).reset = withFlags s.decoder (.idle false) := rfl
  have hout : Harmless [.pressed key.keycode] := by
    cases key with
    | numlock => simp [Harmless, Lock.keycode]
    | scrolllock => simp [Harmless, Lock.keycode]
    | capslock => exact absurd rfl hkey
  rw [handleKeycode_repeat rfl hset, hreset] at hhandle
  rw [hsame]
  exact h.quiet hhandle hout

/-- **A lock key is released**: NumLock changes its flag in the keyboard now, the others did so
when pressed. -/
theorem Kept.release {S : ScancodeSet} {b c : UInt8} {key : Lock}
    (hhandle : S.handle s.decoder b =
      handleKeycode (withFlags s.decoder (.idle true)) c key.keycode)
    (hheld : s.held key = true) :
    Kept { deliver S s b with held := Function.update s.held key false } := by
  have hleds : ∀ d : Decoder, (setWasSet d key false).reset.leds = d.leds ∧
      (setWasSet d key false).reset.ledSequence = d.ledSequence ∧
      (setWasSet d key false).reset.wantedLeds = d.wantedLeds := by
    intro d
    cases key <;> exact ⟨rfl, rfl, rfl⟩
  have hpending : ∀ key',
      pending (setWasSet (withFlags s.decoder (.idle true)) key false).reset key' =
        pending s.decoder key' := by
    intro key'
    simp only [pending, hleds]
    rfl
  obtain ⟨hcaps, hnum⟩ := react_locks s.keyboard (.released key.keycode)
  rw [deliver, hhandle, handleKeycode_release rfl]
  refine ⟨?_, ?_, ?_, ?_, ?_, ?_⟩
  · simp only [← h.wasSet, ← wasSet_setWasSet]
    cases key <;> rfl
  · simp only [hleds, sends]
    simpa [withFlags] using h.sequence
  · simp only [hleds, List.foldl_cons, List.foldl_nil, hcaps]
    simpa [withFlags] using h.capslock
  · simp only [hleds, hpending, List.foldl_cons, List.foldl_nil, hnum, h.numlock]
    cases key <;> simp_all [withFlags, Lock.keycode]
  · simp only [hleds, hpending]
    exact h.capsPresses
  · simp only [hleds, hpending]
    exact h.numPresses

/-- **The keyboard acknowledges** a byte of the handshake. -/
theorem Kept.ack {S : ScancodeSet} {f : Flags}
    (hhandle : S.handle s.decoder 0xfa = acknowledge (withFlags s.decoder f))
    (hout : s.outstanding ≠ 0)
    (hcaps : s.decoder.ledSequence = 2 →
      s.held .capslock = isOn (s.decoder.wantedLeds ^^^ s.decoder.leds) .capslock) :
    Kept (deliver S { s with outstanding := s.outstanding - 1 } 0xfa) := by
  have hone : s.outstanding = 1 := by
    rcases h.sequence with hs | hs <;> omega
  rcases h.sequence with hseq | ⟨hseq | hseq, -⟩
  · omega
  · have hack : acknowledge (withFlags s.decoder f) = ([.send s.decoder.wantedLeds],
        { withFlags s.decoder f with ledSequence := 2 }) := by
      simp [acknowledge, cycleLedSequence, withFlags, hseq]
    rw [deliver, hhandle, hack]
    have hpending : ∀ key, pending { withFlags s.decoder f with ledSequence := 2 } key =
        pending s.decoder key := by
      intro key
      simp [pending, withFlags, hseq]
    refine ⟨h.wasSet, .inr ⟨.inr rfl, ?_⟩, h.capslock, ?_, ?_, ?_⟩
    · simp [hone, sends]
    · rw [hpending]
      exact h.numlock
    · rw [hpending]
      exact h.capsPresses
    · rw [hpending]
      exact h.numPresses
  · have hack : acknowledge (withFlags s.decoder f) = (notifyLocks s.decoder,
        { withFlags s.decoder f with ledSequence := 0, leds := s.decoder.wantedLeds }) := by
      simp [acknowledge, cycleLedSequence, withFlags, hseq, notifyLocks]
    obtain ⟨hcapslock, hnumlock, hsends⟩ := react_notifyLocks s.decoder s.keyboard
    have hheld : s.decoder.capslockWasSet = s.held .capslock := congrFun h.wasSet .capslock
    have hpending : ∀ key, pending s.decoder key =
        (isOn s.decoder.wantedLeds key != isOn s.decoder.leds key) := by
      simp [pending, hseq]
    have hdone : ∀ key, pending { withFlags s.decoder f with
        ledSequence := 0, leds := s.decoder.wantedLeds } key = false := by
      simp [pending]
    have hchanged : ∀ a b : Bool, (a != (b != a)) = b := by decide
    rw [deliver, hhandle, hack]
    refine ⟨h.wasSet, .inl ⟨rfl, ?_⟩, ?_, ?_, ?_, ?_⟩
    · simp [hone, hsends]
    · refine hcapslock.trans ?_
      rw [hheld, hcaps hseq, isOn_xor, h.capslock, hchanged]
    · refine hnumlock.trans ?_
      rw [hdone, Bool.bne_false, h.numlock, hpending]
      have hmove : ∀ a b c : Bool, (a != (b != (c != a))) = (c != b) := by decide
      exact hmove _ _ _
    · rw [hdone, Bool.bne_false]
      refine h.capsPresses.trans ?_
      rw [hpending, hchanged]
    · rw [hdone, Bool.bne_false]
      refine h.numPresses.trans ?_
      rw [hpending, hchanged]

/-- **The keyboard asks for a byte again**: it is sent again. -/
theorem Kept.resend {S : ScancodeSet} {f : Flags}
    (hhandle : S.handle s.decoder 0xfe = LockKeys.resend (withFlags s.decoder f))
    (hout : s.outstanding ≠ 0) :
    Kept (deliver S { s with outstanding := s.outstanding - 1 } 0xfe) := by
  have hone : s.outstanding = 1 := by
    rcases h.sequence with hs | hs <;> omega
  obtain ⟨b, hresend⟩ : ∃ b, LockKeys.resend (withFlags s.decoder f) =
      ([.send b], { withFlags s.decoder f with resendCount := s.decoder.resendCount + 1 }) := by
    rcases h.sequence with hseq | ⟨hseq | hseq, -⟩
    · omega
    · exact ⟨0xed, by simp [LockKeys.resend, cycleLedSequence, withFlags, hseq]⟩
    · exact ⟨s.decoder.wantedLeds, by simp [LockKeys.resend, cycleLedSequence, withFlags, hseq]⟩
  rw [deliver, hhandle, hresend]
  refine ⟨h.wasSet, ?_, h.capslock, h.numlock, h.capsPresses, h.numPresses⟩
  have hsent : s.outstanding - 1 + sends [.send b] = s.outstanding := by simp [hone, sends]
  simp only [hsent]
  exact h.sequence

end Kept

/-! ### Runs -/

section Runs

variable {S : ScancodeSet} (R : Reader S) (boundary : List Flags)

/-- **The invariant**: LEDs and locks are related as they should be, and what is left of a code will
be read as it should be, whichever replies come before it. -/
structure Inv (s : System) : Prop where
  kept : Kept s
  sending : s.breaking = none → R.Leads (R.variants (flags s.decoder)) s.rest boundary
  breaking : ∀ key, s.breaking = some key → s.held key = true ∧ ∃ bs b gs, s.rest = bs ++ [b] ∧
    R.Leads (R.variants (flags s.decoder)) bs gs ∧ ∀ f ∈ gs, R.read f b = .lock key true

variable {R boundary} {s : System}

/-- Between codes no break code is being read, and the flags are among those of a boundary. -/
theorem Inv.idle (h : Inv R boundary s) (hrest : s.rest = []) :
    s.breaking = none ∧ R.variants (flags s.decoder) ⊆ boundary := by
  have hnone : s.breaking = none := by
    cases hbreaking : s.breaking with
    | none => rfl
    | some key =>
        obtain ⟨-, bs, b, gs, hbs, -⟩ := h.breaking key hbreaking
        exact absurd (hrest.symm.trans hbs) (by simp)
  have hleads := h.sending hnone
  rw [hrest] at hleads
  exact ⟨hnone, hleads⟩

/-- A byte that is read as a part of another code, and the flags behind it. -/
theorem Inv.read {b : UInt8} {bs : List UInt8} {fs : List Flags} (h : Kept s)
    (hleads : R.Leads (R.variants (flags s.decoder)) (b :: bs) fs) :
    Kept (deliver S s b) ∧ R.Leads (R.variants (flags (deliver S s b).decoder)) bs fs := by
  obtain ⟨gs, hread, hrest⟩ := hleads
  obtain ⟨g, hquiet, hsub⟩ := hread _ (R.mem_variants _)
  obtain ⟨out, hhandle, hout⟩ := R.handle_quiet _ _ _ hquiet
  refine ⟨h.quiet hhandle hout, ?_⟩
  have hflags : flags (deliver S s b).decoder = g := by rw [deliver, hhandle, flags_withFlags]
  rw [hflags]
  exact hrest.mono R hsub

section Faithful

variable (hR : R.Faithful boundary)

include hR

/-- With idle flags, the empty rest of a code leads from their variants to the boundary. -/
theorem leads_idle {d : Decoder} (hflags : flags d = .idle false) :
    R.Leads (R.variants (flags d)) [] boundary := by
  rw [hflags]
  exact hR.closed _ hR.idle

/-- **The next byte of a code** is delivered and keeps the invariant. -/
theorem Inv.next (h : Inv R boundary s) (hrest : s.rest ≠ []) :
    Inv R boundary (deliverNext S s) := by
  obtain ⟨b, rest, hbytes⟩ := List.exists_cons_of_ne_nil hrest
  cases hbreaking : s.breaking with
  | none =>
      have hleads := h.sending hbreaking
      rw [hbytes] at hleads
      obtain ⟨hkept, hleads'⟩ := Inv.read h.kept hleads
      have hnext : deliverNext S s = { deliver S s b with rest := rest } := by
        simp only [deliverNext, hbytes]
        split
        · rename_i hsome
          exact absurd (hsome.symm.trans hbreaking) (by simp)
        · rfl
      rw [hnext]
      refine ⟨hkept.withRest _ _, fun _ => hleads', ?_⟩
      intro key hkey
      exact absurd (hkey.symm.trans hbreaking) (by simp)
  | some key =>
      obtain ⟨hheld, bs, b', gs, hbs, hleads, hlock⟩ := h.breaking key hbreaking
      cases bs with
      | nil =>
          obtain ⟨rfl, rfl⟩ : b = b' ∧ rest = [] := by simpa using hbytes.symm.trans hbs
          obtain ⟨c, hhandle⟩ := R.handle_lock _ _ _ _ (hlock _ (hleads (R.mem_variants _)))
          have hkept := h.kept.release hhandle hheld
          have hnext : deliverNext S s = { deliver S s b with
              rest := []
              held := Function.update s.held key false
              breaking := none } := by
            simp only [deliverNext, hbytes]
            split
            · rename_i key' _ hsome
              have heq : key' = key :=
                Option.some.inj (hsome.symm.trans hbreaking)
              rw [heq]
              rfl
            · rename_i hnone
              exact absurd hbreaking (hnone key rfl)
          rw [hnext]
          refine ⟨hkept.withRest _ _, fun _ => ?_, by simp⟩
          refine leads_idle hR ?_
          rw [deliver, hhandle, handleKeycode_release rfl]
          rfl
      | cons b'' bs =>
          obtain ⟨rfl, rfl⟩ : b = b'' ∧ rest = bs ++ [b'] := by
            simpa using hbytes.symm.trans hbs
          obtain ⟨hkept, hleads'⟩ := Inv.read h.kept hleads
          have hnext : deliverNext S s = { deliver S s b with rest := bs ++ [b'] } := by
            simp only [deliverNext, hbytes]
            split
            · rename_i hnil _
              exact absurd hnil (by simp)
            · rfl
          rw [hnext]
          refine ⟨hkept.withRest _ _, ?_, ?_⟩
          · intro hnone
            exact absurd (hnone.symm.trans hbreaking) (by simp)
          · intro key' hkey'
            obtain rfl : key = key' := Option.some.inj (hbreaking.symm.trans hkey')
            exact ⟨hheld, bs, b', gs, rfl, hleads', hlock⟩

/-- **The make code of a lock key**, which toggles its lock once, keeps the invariant. -/
theorem Inv.lockMake (h : Inv R boundary s) (hrest : s.rest = []) {key : Lock}
    (horderly : Orderly (S := S) s (.lockMake key)) :
    Inv R boundary { deliver S s (S.makeByte key) with
      held := Function.update s.held key true
      presses :=
        if s.held key then s.presses else Function.update s.presses key (s.presses key + 1) } := by
  obtain ⟨hnone, hboundary⟩ := h.idle hrest
  obtain ⟨hclear, hpress⟩ := horderly
  obtain ⟨c, hhandle⟩ := R.handle_lock _ _ _ _
    (hR.make key _ (hboundary (R.mem_variants _)) hclear)
  have hkept : Kept { deliver S s (S.makeByte key) with
      held := Function.update s.held key true
      presses :=
        if s.held key then s.presses
        else Function.update s.presses key (s.presses key + 1) } := by
    cases hheld : s.held key with
    | true =>
        rw [hheld, if_pos rfl] at hpress
        exact h.kept.repeats hhandle hheld hpress
    | false =>
        rw [hheld, if_neg (by simp)] at hpress
        exact h.kept.press hhandle hheld hpress
  have hflags : flags (deliver S s (S.makeByte key)).decoder = .idle false := by
    rw [deliver, hhandle]
    cases hset : wasSet (withFlags s.decoder (.idle false)) key with
    | true =>
        rw [handleKeycode_repeat rfl hset]
        rfl
    | false =>
        rw [handleKeycode_press rfl hset]
        cases key <;> rfl
  refine ⟨hkept, fun _ => ?_, fun key' hkey' => ?_⟩
  · show R.Leads _ s.rest boundary
    rw [hrest]
    exact leads_idle hR hflags
  · exact absurd (hkey'.symm.trans hnone) (by simp)

omit hR in
/-- **A reply** of the keyboard, which comes within no code of Pause. -/
theorem Inv.reply (h : Inv R boundary s) (hout : s.outstanding ≠ 0) {acked : Bool}
    (horderly : Orderly (S := S) s (.reply acked)) :
    Inv R boundary (deliver S { s with outstanding := s.outstanding - 1 }
      (if acked then 0xfa else 0xfe)) := by
  have hpause : (flags s.decoder).pause = 0 := by
    cases acked with
    | true => exact horderly.1
    | false => exact horderly.1
  obtain ⟨hkept, hflags⟩ : Kept (deliver S { s with outstanding := s.outstanding - 1 }
        (if acked then 0xfa else 0xfe)) ∧
      flags (deliver S { s with outstanding := s.outstanding - 1 }
        (if acked then 0xfa else 0xfe)).decoder = R.interrupt (flags s.decoder) := by
    cases acked with
    | true =>
        have hhandle := R.handle_ack s.decoder
        refine ⟨h.kept.ack hhandle hout horderly.2, ?_⟩
        show flags (S.handle s.decoder 0xfa).2 = _
        rw [hhandle, flags_acknowledge, flags_withFlags]
    | false =>
        have hhandle := R.handle_resend s.decoder horderly.2
        refine ⟨h.kept.resend hhandle hout, ?_⟩
        show flags (S.handle s.decoder 0xfe).2 = _
        rw [hhandle, flags_resend, flags_withFlags]
  have hsub : R.variants (flags (deliver S { s with outstanding := s.outstanding - 1 }
      (if acked then 0xfa else 0xfe)).decoder) ⊆ R.variants (flags s.decoder) := by
    rw [hflags]
    exact R.variants_interrupt hpause
  refine ⟨hkept, fun hnone => (h.sending hnone).mono R hsub, fun key hkey => ?_⟩
  obtain ⟨hheld, bs, b, gs, hbs, hleads, hlock⟩ := h.breaking key hkey
  exact ⟨hheld, bs, b, gs, hbs, hleads.mono R hsub, hlock⟩

/-- **The invariant is preserved** by every orderly step. -/
theorem Inv.step (h : Inv R boundary s) {a : Step S} {s' : System} (horderly : Orderly s a)
    (hstep : LockKeys.step S s a = some s') : Inv R boundary s' := by
  cases a with
  | code c =>
      simp only [LockKeys.step, Option.ite_none_right_eq_some, Option.some.injEq] at hstep
      obtain ⟨hrest, rfl⟩ := hstep
      refine Inv.next hR ⟨h.kept.withRest _ _, fun _ => ?_, by simp⟩ (hR.nonempty c)
      exact hR.code c _ ((h.idle hrest).2 (R.mem_variants _)) horderly
  | lockMake key =>
      simp only [LockKeys.step, Option.ite_none_right_eq_some, Option.some.injEq] at hstep
      obtain ⟨hrest, rfl⟩ := hstep
      exact h.lockMake hR hrest horderly
  | lockBreak key =>
      simp only [LockKeys.step, Option.ite_none_right_eq_some, Option.some.injEq] at hstep
      obtain ⟨⟨hrest, hheld⟩, rfl⟩ := hstep
      obtain ⟨bs, b, gs, hbs, hleads, hlock⟩ :=
        hR.breaks key _ ((h.idle hrest).2 (R.mem_variants _)) horderly
      refine Inv.next hR ⟨h.kept.withRest _ _, by simp, ?_⟩ (by simp [hbs])
      intro key' hkey'
      obtain rfl : key = key' := Option.some.inj hkey'
      exact ⟨hheld, bs, b, gs, hbs, hleads, hlock⟩
  | next =>
      simp only [LockKeys.step, Option.ite_none_right_eq_some, Option.some.injEq] at hstep
      obtain ⟨hrest, rfl⟩ := hstep
      exact h.next hR hrest
  | reply acked =>
      simp only [LockKeys.step, Option.ite_none_right_eq_some, Option.some.injEq] at hstep
      obtain ⟨hout, rfl⟩ := hstep
      exact h.reply hout horderly

/-- **LEDs and locks stay in step in every orderly run** of a system whose codes are read as they
should be. -/
theorem inStep_of_runs {as : List (Step S)}
    (h : Runs (fun s a s' => Orderly s a ∧ LockKeys.step S s a = some s') .start as s) :
    InStep s := by
  have hstart : Inv R boundary .start :=
    ⟨kept_start, fun _ => leads_idle hR rfl, by simp [System.start]⟩
  have hinv : Inv R boundary s := h.invariant hstart fun t a u ht hstep =>
    ht.step hR hstep.1 hstep.2
  exact hinv.kept.inStep

end Faithful

end Runs

end MugOS.LockKeys
