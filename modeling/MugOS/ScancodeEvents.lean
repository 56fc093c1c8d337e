import Mathlib.Data.FinEnum
import MugOS.Scancode

/-!
# Decoding Key Events

Key events, their encoding in scancode set 1, and what the decoder makes of sequences of
events that arrive byte by byte.

A release of Ctrl and PrintScreen, 0xe0 0xb7, is the beginning of the release of PrintScreen,
and the decoder waits for its end. Every other event leaves the decoder as it was.

## Main results

* `feed_event`: an event that arrives at an idle decoder.
* `decodes_iff`: a sequence of events is decoded as it should be exactly when it has no
  release of Ctrl and PrintScreen.
-/

namespace MugOS.PS2

/-! ### Events -/

/-- A key with a code of its own in the first table. The lock keys and SysRq have further
effects. -/
def IsPlainKey (k : UInt8) : Prop :=
  k < 0x80 ∧ getKeycodeSet1 k ∉
    [Keycode.keyReserved, .keyNumlock, .keyScrolllock, .keyCapslock]

/-- A key with a code in the table of escaped scancodes. -/
def IsExtendedKey (k : UInt8) : Prop :=
  k < 0x80 ∧ getKeycodeEscapedSet1 k ∉ [Keycode.keyReserved, .keyIgnore]

instance (k : UInt8) : Decidable (IsPlainKey k) := inferInstanceAs (Decidable (_ ∧ _))

instance (k : UInt8) : Decidable (IsExtendedKey k) := inferInstanceAs (Decidable (_ ∧ _))

/-- A key event. Extended keys may come with a fake shift before or after them. -/
inductive Event
  | plain (key : { k : UInt8 // IsPlainKey k }) (released : Bool)
  | extended (key : { k : UInt8 // IsExtendedKey k }) (released before after : Bool)
  | printScreen (released : Bool)
  | ctrlPrintScreen (released : Bool)
  | pause
  deriving DecidableEq

/-- The scancode of a key that is pressed or released. -/
def scancode (k : UInt8) (released : Bool) : UInt8 := if released then k ||| 0x80 else k

/-- The bytes that the keyboard sends for an event. -/
def Event.encode : Event → List UInt8
  | .plain key released => [scancode key released]
  | .extended key released before after =>
      (if before then [0xe0, 0x2a] else []) ++ [0xe0, scancode key released] ++
        (if after then [0xe0, 0xaa] else [])
  | .printScreen false => [0xe0, 0x2a, 0xe0, 0x37]
  | .printScreen true => [0xe0, 0xb7, 0xe0, 0xaa]
  | .ctrlPrintScreen released => [0xe0, scancode 0x37 released]
  | .pause => [0xe1, 0x1d, 0x45, 0xe1, 0x9d, 0xc5]

/-- The call for a key that is pressed or released. -/
def notify (keycode : Keycode) (released : Bool) : Output :=
  if released then .released keycode else .pressed keycode

/-- The calls that an event should lead to. -/
def Event.calls : Event → List Output
  | .plain key released => [notify (getKeycodeSet1 key) released]
  | .extended key released _ _ => [notify (getKeycodeEscapedSet1 key) released]
  | .printScreen released => [notify .keyPrintscreen released]
  | .ctrlPrintScreen _ => []
  | .pause => [.pressed .keyPause]

/-- The calls of the keyboard subsystem among the outputs. -/
def notifications (out : List Output) : List Output :=
  out.filter fun o =>
    match o with
    | .pressed _ | .released _ => true
    | _ => false

/-- The bytes of a sequence of events, one event after the other. -/
def encode (events : List Event) : List UInt8 := events.flatMap Event.encode

/-- Nothing has begun: no flag is set and no sequence has started. -/
def Decoder.Idle (d : Decoder) : Prop := d.reset = d

/-- A sequence of events is decoded as it should be: the bytes of each event lead to exactly
its calls, and the decoder then treats every event as it would if it were idle. -/
def Decodes (d : Decoder) (events : List Event) : Prop :=
  ∀ before e after, events = before ++ e :: after →
    notifications (feed (feed d (encode before)).2 e.encode).1 = e.calls ∧
    ∀ next : Event,
      notifications (feed (feed d (encode (before ++ [e]))).2 next.encode).1 =
        notifications (feed (feed d (encode (before ++ [e]))).2.reset next.encode).1

/-! ### Single events -/

/-- Feeding bytes in two parts makes the outputs of both parts, one after the other. -/
theorem feed_append (d : Decoder) (bs bs' : List UInt8) :
    feed d (bs ++ bs') =
      ((feed d bs).1 ++ (feed (feed d bs).2 bs').1, (feed (feed d bs).2 bs').2) := by
  induction bs generalizing d with
  | nil => simp [feed]
  | cons b bs ih => simp [feed, ih]

/-- An idle decoder has its flags and counters at the start. -/
theorem Decoder.Idle.fields {d : Decoder} (h : d.Idle) :
    d.released = false ∧ d.escaped = false ∧ d.printScreenPressed = 0 ∧
      d.printScreenReleased = 0 ∧ d.pause = 0 := by
  rw [Decoder.Idle] at h
  rw [← h]
  exact ⟨rfl, rfl, rfl, rfl, rfl⟩

/-- What the bytes of keys have in common: none is a special byte, the release bit is the
leading one, and the keycode is handled by a message. -/
structure KeyByte (table : UInt8 → Keycode) (k : UInt8) (released : Bool) : Prop where
  special : scancode k released ∉ [0x54, 0xe0, 0xe1, 0xd4, 0xfa, 0xfe]
  pressed : released = false → scancode k released &&& 0x80 = 0
  cleared : released = true →
    scancode k released &&& 0x80 ≠ 0 ∧ scancode k released &&& 0x7f = k
  keycode : table k ∉
    [Keycode.keyReserved, .keyNumlock, .keyScrolllock, .keyCapslock, .keyIgnore]

/-- The make and break bytes of a plain key are bytes of a key for the table of plain
scancodes. -/
theorem IsPlainKey.keyByte {k : UInt8} (h : IsPlainKey k) (released : Bool) :
    KeyByte getKeycodeSet1 k released := by
  have hall : ∀ k : UInt8, IsPlainKey k → ∀ released : Bool,
      scancode k released ∉ [0x54, 0xe0, 0xe1, 0xd4, 0xfa, 0xfe] ∧
      (released = false → scancode k released &&& 0x80 = 0) ∧
      (released = true →
        scancode k released &&& 0x80 ≠ 0 ∧ scancode k released &&& 0x7f = k) ∧
      getKeycodeSet1 k ∉ [Keycode.keyReserved, .keyNumlock, .keyScrolllock, .keyCapslock,
        .keyIgnore] := by decide +kernel
  obtain ⟨h1, h2, h3, h4⟩ := hall k h released
  exact ⟨h1, h2, h3, h4⟩

/-- The bytes of extended keys, which are not in a sequence either. -/
theorem IsExtendedKey.keyByte {k : UInt8} (h : IsExtendedKey k) (released : Bool) :
    KeyByte getKeycodeEscapedSet1 k released ∧
      scancode k released ∉ [0x2a, 0x37, 0xaa, 0xb7] := by
  have hall : ∀ k : UInt8, IsExtendedKey k → ∀ released : Bool,
      scancode k released ∉ [0x54, 0xe0, 0xe1, 0xd4, 0xfa, 0xfe] ∧
      (released = false → scancode k released &&& 0x80 = 0) ∧
      (released = true →
        scancode k released &&& 0x80 ≠ 0 ∧ scancode k released &&& 0x7f = k) ∧
      getKeycodeEscapedSet1 k ∉ [Keycode.keyReserved, .keyNumlock, .keyScrolllock, .keyCapslock,
        .keyIgnore] ∧
      scancode k released ∉ [0x2a, 0x37, 0xaa, 0xb7] := by decide +kernel
  obtain ⟨h1, h2, h3, h4, h5⟩ := hall k h released
  exact ⟨⟨h1, h2, h3, h4⟩, h5⟩

/-- A keycode without further effects is passed on as the message of a press or release. -/
theorem handleKeycode_eq_message {keycode : Keycode} (h : keycode ∉
    [Keycode.keyReserved, .keyNumlock, .keyScrolllock, .keyCapslock, .keyIgnore]) (d : Decoder)
    (c : UInt8) : handleKeycode d c keycode = message d keycode := by
  unfold handleKeycode
  split <;> simp_all

/-- The first stage takes the release bit off the byte of a key and remembers it. -/
theorem KeyByte.preprocess {table : UInt8 → Keycode} {k : UInt8} {released : Bool}
    (h : KeyByte table k released) (d : Decoder) :
    PS2.preprocess d (scancode k released) =
      .ok (k, { d with released := d.released || released }) := by
  have hspecial := h.special
  simp only [List.mem_cons, List.not_mem_nil, or_false, not_or] at hspecial
  obtain ⟨h1, h2, h3, h4, h5, h6⟩ := hspecial
  unfold PS2.preprocess
  rw [if_neg h1, if_neg h2, if_neg h3, if_neg h4, if_neg h5, if_neg h6]
  cases released with
  | false =>
      rw [if_neg (by simpa using h.pressed rfl)]
      simp [scancode]
  | true =>
      rw [if_pos (h.cleared rfl).1, (h.cleared rfl).2]
      simp

/-- **The byte of a key** that belongs to no sequence: the key is passed on, and the decoder
is reset. -/
theorem handle_key {table : UInt8 → Keycode} {k : UInt8} {released : Bool} {d d' : Decoder}
    (h : KeyByte table k released) (hchecks : checkSequences d (scancode k released) = .ok d')
    (htable : (if d'.escaped then getKeycodeEscapedSet1 k else getKeycodeSet1 k) = table k)
    (hreleased : d'.released = false) :
    handleScancodeSet1 d (scancode k released) = ([notify (table k) released], d'.reset) := by
  have hstages : (do
      let d ← checkSequences d (scancode k released)
      PS2.preprocess d (scancode k released)) =
        (.ok (k, { d' with released := released }) : Stage (UInt8 × Decoder)) := by
    rw [hchecks]
    simp only [bind, Except.bind, h.preprocess d', hreleased, Bool.false_or]
  rw [handleScancodeSet1, hstages]
  simp only [htable, handleKeycode_eq_message h.keycode, message, notify]
  rfl

/-- The state behind an escape byte, where PrintScreen may have begun. -/
def Decoder.afterEscape (d : Decoder) : Decoder :=
  { d with escaped := true, printScreenPressed := 1, printScreenReleased := 1 }

/-- The state behind a fake shift and an escape byte. -/
def Decoder.afterFakeShift (d : Decoder) : Decoder :=
  { d with printScreenPressed := 3, printScreenReleased := 1 }

/-- The state behind a release of Ctrl and PrintScreen. -/
def Decoder.afterCtrlPrintScreen (d : Decoder) : Decoder :=
  { d with escaped := true, printScreenReleased := 2 }

/-- The key A is pressed. -/
def keyA : Event := .plain ⟨0x1e, by decide⟩ false

section Idle

variable {d : Decoder} (h : d.Idle)

include h

/-- An idle decoder is not changed by a reset of a decoder that differs in the flags only. -/
theorem Decoder.Idle.eq : d = ⟨false, false, 0, 0, 0, d.numlockWasSet, d.capslockWasSet,
    d.scrolllockWasSet, d.wantedLeds, d.resendCount, d.ledSequence, d.leds⟩ :=
  h.symm

/-- **A plain key** at an idle decoder is notified with its keycode, and leaves the decoder
idle. -/
theorem Decoder.Idle.plain {k : UInt8} (hk : IsPlainKey k) (released : Bool) :
    feed d [scancode k released] = ([notify (getKeycodeSet1 k) released], d) := by
  obtain ⟨h1, h2, h3, h4, h5⟩ := h.fields
  have hchecks : checkSequences d (scancode k released) = .ok d := by
    simp [checkSequences, checkPrintScreenPressed, checkPrintScreenReleased, checkPause, h3, h4, h5,
      bind, Except.bind]
  have hkey := handle_key (hk.keyByte released) hchecks (by simp [h2]) h1
  simp [feed, hkey, show d.reset = d from h]

/-- An escape byte at an idle decoder makes no output, and is remembered. -/
theorem Decoder.Idle.escape : handleScancodeSet1 d 0xe0 = ([], d.afterEscape) := by
  rw [h.eq]
  rfl

/-- **An extended key** behind an escape byte is notified with its keycode, and leaves the
decoder idle. -/
theorem Decoder.Idle.extended {k : UInt8} (hk : IsExtendedKey k) (released : Bool) :
    handleScancodeSet1 d.afterEscape (scancode k released) =
      ([notify (getKeycodeEscapedSet1 k) released], d) := by
  obtain ⟨h1, h2, h3, h4, h5⟩ := h.fields
  obtain ⟨hbyte, hseq⟩ := hk.keyByte released
  simp only [List.mem_cons, List.not_mem_nil, or_false, not_or] at hseq
  have hchecks : checkSequences d.afterEscape (scancode k released) =
      .ok { d with escaped := true } := by
    simp [checkSequences, checkPrintScreenPressed, checkPrintScreenReleased, checkPause,
      Decoder.afterEscape, hseq, h3, h4, h5, bind, Except.bind]
  rw [handle_key hbyte hchecks rfl h1]
  congr 1

/-- **An extended key** behind a fake shift and an escape byte. -/
theorem Decoder.Idle.extended_fakeShift {k : UInt8} (hk : IsExtendedKey k) (released : Bool) :
    handleScancodeSet1 d.afterFakeShift (scancode k released) =
      ([notify (getKeycodeEscapedSet1 k) released], d) := by
  obtain ⟨h1, h2, h3, h4, h5⟩ := h.fields
  obtain ⟨hbyte, hseq⟩ := hk.keyByte released
  simp only [List.mem_cons, List.not_mem_nil, or_false, not_or] at hseq
  have hchecks : checkSequences d.afterFakeShift (scancode k released) =
      .ok { d with escaped := true } := by
    simp [checkSequences, checkPrintScreenPressed, checkPrintScreenReleased, checkPause,
      Decoder.afterFakeShift, hseq, h3, h4, h5, bind, Except.bind]
  rw [handle_key hbyte hchecks rfl h1]
  congr 1

/-- A fake shift and an escape byte at an idle decoder. -/
theorem Decoder.Idle.fakeShift : feed d [0xe0, 0x2a, 0xe0] = ([], d.afterFakeShift) := by
  have hshift : handleScancodeSet1 d.afterEscape 0x2a =
      ([], { d with printScreenPressed := 2, printScreenReleased := 1 }) := by
    rw [h.eq]
    rfl
  have hescape : handleScancodeSet1 { d with printScreenPressed := 2, printScreenReleased := 1 }
      0xe0 = ([], d.afterFakeShift) := by
    rw [h.eq]
    rfl
  simp [feed, h.escape, hshift, hescape]

/-- The release of a fake shift at an idle decoder makes no output, and leaves it idle. -/
theorem Decoder.Idle.fakeShift_released : feed d [0xe0, 0xaa] = ([], d) := by
  have hshift : handleScancodeSet1 d.afterEscape 0xaa = ([], d) := by
    rw [h.eq]
    rfl
  simp [feed, h.escape, hshift]

/-- **A release of Ctrl and PrintScreen** leaves the decoder waiting. -/
theorem feed_ctrlPrintScreen : feed d (Event.ctrlPrintScreen true).encode =
    ([], d.afterCtrlPrintScreen) := by
  have hrelease : handleScancodeSet1 d.afterEscape 0xb7 = ([], d.afterCtrlPrintScreen) := by
    rw [h.eq]
    rfl
  have hcode : scancode 0x37 true = 0xb7 := by decide
  simp [feed, Event.encode, hcode, h.escape, hrelease]

/-- PrintScreen at an idle decoder: a fake shift and one byte, or a release of Ctrl and
PrintScreen and the release of a fake shift. -/
theorem Decoder.Idle.printScreen (released : Bool) :
    feed d (Event.printScreen released).encode = ([notify .keyPrintscreen released], d) := by
  cases released with
  | false =>
      have hlast : handleScancodeSet1 d.afterFakeShift 0x37 = ([.pressed .keyPrintscreen], d) := by
        rw [h.eq]
        rfl
      rw [show (Event.printScreen false).encode = [0xe0, 0x2a, 0xe0] ++ [0x37] from rfl,
        feed_append, h.fakeShift]
      simp [feed, hlast, notify]
  | true =>
      have hescape : handleScancodeSet1 d.afterCtrlPrintScreen 0xe0 =
          ([], { d with escaped := true, printScreenReleased := 3 }) := by
        rw [h.eq]
        rfl
      have hlast : handleScancodeSet1 { d with escaped := true, printScreenReleased := 3 } 0xaa =
          ([.released .keyPrintscreen], d) := by
        rw [h.eq]
        rfl
      rw [show (Event.printScreen true).encode =
          (Event.ctrlPrintScreen true).encode ++ [0xe0, 0xaa] from rfl,
        feed_append, feed_ctrlPrintScreen h]
      simp [feed, hescape, hlast, notify]

/-- The pause sequence at an idle decoder is notified as one press of Pause, and leaves it
idle. -/
theorem Decoder.Idle.pause :
    feed d [0xe1, 0x1d, 0x45, 0xe1, 0x9d, 0xc5] = ([.pressed .keyPause], d) := by
  have h1 : handleScancodeSet1 d 0xe1 = ([], { d with pause := 1 }) := by
    rw [h.eq]
    rfl
  have h2 : handleScancodeSet1 { d with pause := 1 } 0x1d = ([], { d with pause := 2 }) := by
    rw [h.eq]
    rfl
  have h3 : handleScancodeSet1 { d with pause := 2 } 0x45 = ([], { d with pause := 3 }) := by
    rw [h.eq]
    rfl
  have h4 : handleScancodeSet1 { d with pause := 3 } 0xe1 = ([], { d with pause := 4 }) := by
    rw [h.eq]
    rfl
  have h5 : handleScancodeSet1 { d with pause := 4 } 0x9d = ([], { d with pause := 5 }) := by
    rw [h.eq]
    rfl
  have h6 : handleScancodeSet1 { d with pause := 5 } 0xc5 = ([.pressed .keyPause], d) := by
    rw [h.eq]
    rfl
  simp [feed, h1, h2, h3, h4, h5, h6]

/-- **An event at an idle decoder** leads to its calls and leaves the decoder idle, unless it
is a release of Ctrl and PrintScreen. -/
theorem feed_event {e : Event} (he : e ≠ .ctrlPrintScreen true) :
    feed d e.encode = (e.calls, d) := by
  cases e with
  | plain key released => exact h.plain key.2 released
  | extended key released before after =>
      have hkey : feed d ((if before then [0xe0, 0x2a] else []) ++ [0xe0, scancode key released]) =
          ([notify (getKeycodeEscapedSet1 key) released], d) := by
        cases before with
        | false => simp [feed, h.escape, h.extended key.2 released]
        | true =>
            have := feed_append d [0xe0, 0x2a, 0xe0] [scancode key released]
            rw [h.fakeShift] at this
            simpa [feed, h.extended_fakeShift key.2 released] using this
      rw [Event.encode, feed_append, hkey]
      cases after with
      | false => simp [feed, Event.calls]
      | true => simp [h.fakeShift_released, Event.calls]
  | printScreen released => exact h.printScreen released
  | ctrlPrintScreen released =>
      cases released with
      | false =>
          rw [h.eq]
          rfl
      | true => exact absurd rfl he
  | pause => exact h.pause

/-- The key A behind a release of Ctrl and PrintScreen is not recognized. -/
theorem feed_keyA_after : feed d.afterCtrlPrintScreen keyA.encode = ([.unrecognized 0x1e], d) := by
  rw [h.eq]
  rfl

end Idle

/-! ### Sequences of events -/

/-- The calls that an event is to make are all notifications. -/
theorem notifications_calls (e : Event) : notifications e.calls = e.calls := by
  have hnotify : ∀ keycode released,
      notifications [notify keycode released] = [notify keycode released] := by
    intro keycode released
    cases released <;> rfl
  cases e with
  | plain key released => exact hnotify _ released
  | extended key released before after => exact hnotify _ released
  | printScreen released => exact hnotify _ released
  | ctrlPrintScreen released => rfl
  | pause => rfl

/-- A sequence of events without releases of Ctrl and PrintScreen leaves the decoder idle. -/
theorem feed_events {d : Decoder} (h : d.Idle) (events : List Event)
    (he : ∀ e ∈ events, e ≠ .ctrlPrintScreen true) : (feed d (encode events)).2 = d := by
  induction events with
  | nil => rfl
  | cons e events ih =>
      rw [encode, List.flatMap_cons, feed_append, feed_event h (he e List.mem_cons_self)]
      exact ih fun e' he' => he e' (List.mem_cons_of_mem e he')

/-- **Scancode set 1 is decoded faithfully** exactly when there is no release of Ctrl and
PrintScreen. From an idle decoder, the bytes of a sequence of events, fed one by one, lead to
the calls of each event and to a decoder that treats what comes next as an idle one does, if
and only if no event of the sequence is a release of Ctrl and PrintScreen. -/
theorem decodes_iff {d : Decoder} (h : d.Idle) (events : List Event) :
    Decodes d events ↔ ∀ e ∈ events, e ≠ .ctrlPrintScreen true := by
  constructor
  · intro hdec e he heq
    subst heq
    -- The first release in the sequence arrives at an idle decoder.
    obtain ⟨before, after, hsplit, hfirst⟩ := List.eq_append_cons_of_mem he
    have hbefore : (feed d (encode before)).2 = d :=
      feed_events h before fun e he' heq => hfirst (heq ▸ he')
    have hstate : (feed d (encode (before ++ [.ctrlPrintScreen true]))).2 =
        d.afterCtrlPrintScreen := by
      rw [encode, List.flatMap_append, feed_append, ← encode, hbefore, List.flatMap_singleton,
        feed_ctrlPrintScreen h]
    have hnext := (hdec before _ after hsplit).2 keyA
    rw [hstate, show d.afterCtrlPrintScreen.reset = d from h,
      feed_event h (show keyA ≠ .ctrlPrintScreen true from Event.noConfusion),
      feed_keyA_after h] at hnext
    exact absurd hnext (show ¬ notifications [.unrecognized 0x1e] = notifications keyA.calls
      by decide)
  · intro he before e after hsplit
    have hmem : ∀ e' ∈ before ++ [e], e' ≠ .ctrlPrintScreen true := by
      intro e' he'
      apply he
      rw [hsplit]
      simp only [List.mem_append, List.mem_cons] at he' ⊢
      tauto
    have hbefore : (feed d (encode before)).2 = d :=
      feed_events h before fun e' he' => hmem e' (List.mem_append_left _ he')
    refine ⟨?_, ?_⟩
    · rw [hbefore, feed_event h (hmem e (by simp))]
      exact notifications_calls e
    · intro next
      rw [feed_events h _ hmem, show d.reset = d from h]

/-- **A release of Ctrl and PrintScreen is taken for the beginning of another event**: the key
A that is pressed next is not recognized. -/
theorem ctrlPrintScreen_swallows_key :
    (feed (.start 0) (encode [.ctrlPrintScreen true, keyA])).1 = [.unrecognized 0x1e] ∧
      ¬ Decodes (.start 0) [.ctrlPrintScreen true, keyA] := by
  refine ⟨by decide +kernel, ?_⟩
  intro hdec
  have hcalls := (hdec [.ctrlPrintScreen true] keyA [] rfl).1
  exact absurd hcalls (by decide +kernel)

/-- The equivalence at a sequence in which an arrow key with a fake shift is pressed and
PrintScreen is released. -/
theorem decodes_iff_arrow :
    (Decoder.start 0).Idle ∧
      Decodes (.start 0) [.extended ⟨0x48, by decide⟩ false true false, .printScreen true] := by
  have hidle : (Decoder.start 0).Idle := rfl
  refine ⟨hidle, (decodes_iff hidle _).mpr ?_⟩
  decide

end MugOS.PS2
