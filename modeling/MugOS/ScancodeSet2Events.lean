import MugOS.ScancodeEvents
import MugOS.ScancodeSet2

/-!
# Decoding Key Events in Set 2

Key events, their encoding in scancode set 2, and what the decoder makes of sequences of events
that arrive byte by byte.

When PrintScreen has been pressed, the decoder still waits for the second byte of a release of
PrintScreen. The release of the asterisk of the numeric pad, 0xf0 0x7c, is then taken for the rest
of it and not reported.

## Main results

* `feed_event`: an event that arrives at an idle decoder.
* `feed_event_waiting`: an event that arrives behind a press of PrintScreen.
* `set2_decodes_iff`: which sequences of events are decoded as they should be.
-/

namespace MugOS.PS2.Set2

/-! ### Events -/

/-- A key with a code of its own in the first table. The lock keys have further effects. -/
def IsPlainKey (k : UInt8) : Prop :=
  getKeycodeSet2 k ∉ [Keycode.keyReserved, .keyNumlock, .keyScrolllock, .keyCapslock]

/-- A key with a code in the table of escaped scancodes. -/
def IsExtendedKey (k : UInt8) : Prop := getKeycodeEscapedSet2 k ≠ .keyReserved

instance (k : UInt8) : Decidable (IsPlainKey k) := inferInstanceAs (Decidable (_ ∉ _))

instance (k : UInt8) : Decidable (IsExtendedKey k) := inferInstanceAs (Decidable (_ ≠ _))

/-- A key event. Extended keys may come with a fake shift before or after them. -/
inductive Event
  | plain (key : { k : UInt8 // IsPlainKey k }) (released : Bool)
  | extended (key : { k : UInt8 // IsExtendedKey k }) (released before after : Bool)
  | printScreen (released : Bool)
  | pause
  deriving DecidableEq

/-- The bytes of a key that is pressed or released. -/
def scancodes (k : UInt8) (released : Bool) : List UInt8 := if released then [0xf0, k] else [k]

/-- The bytes that the keyboard sends for an event. -/
def Event.encode : Event → List UInt8
  | .plain key released => scancodes key released
  | .extended key released before after =>
      (if before then [0xe0, 0x12] else []) ++ 0xe0 :: scancodes key released ++
        (if after then [0xe0, 0xf0, 0x12] else [])
  | .printScreen false => [0xe0, 0x12, 0xe0, 0x7c]
  | .printScreen true => [0xe0, 0xf0, 0x7c, 0xe0, 0xf0, 0x12]
  | .pause => [0xe1, 0x14, 0x77, 0xe1, 0xf0, 0x14, 0xf0, 0x77]

/-- The calls that an event should lead to. -/
def Event.calls : Event → List Output
  | .plain key released => [notify (getKeycodeSet2 key) released]
  | .extended key released _ _ => [notify (getKeycodeEscapedSet2 key) released]
  | .printScreen released => [notify .keyPrintscreen released]
  | .pause => [.pressed .keyPause]

/-- The bytes of a sequence of events, one event after the other. -/
def encode (events : List Event) : List UInt8 := events.flatMap Event.encode

/-- The bytes of each event of a sequence lead to exactly its calls. -/
def Notifies (d : Decoder) (events : List Event) : Prop :=
  ∀ before e after, events = before ++ e :: after →
    notifications (feed (feed d (encode before)).2 e.encode).1 = e.calls

/-- After each event of a sequence the decoder treats every event as it would if it were idle. -/
def Recovers (d : Decoder) (events : List Event) : Prop :=
  ∀ before e after, events = before ++ e :: after → ∀ next : Event,
    notifications (feed (feed d (encode (before ++ [e]))).2 next.encode).1 =
      notifications (feed (feed d (encode (before ++ [e]))).2.reset next.encode).1

/-- The asterisk of the numeric pad is released. -/
def asteriskReleased : Event := .plain ⟨0x7c, by decide⟩ true

/-! ### Single events -/

/-- Feeding bytes in two parts makes the outputs of both parts, one after the other. -/
theorem feed_append (d : Decoder) (bs bs' : List UInt8) :
    feed d (bs ++ bs') =
      ((feed d bs).1 ++ (feed (feed d bs).2 bs').1, (feed (feed d bs).2 bs').2) := by
  induction bs generalizing d with
  | nil => simp [feed]
  | cons b bs ih => simp [feed, ih]

/-- What the bytes of keys have in common: none is a special byte, and the keycode is handled by a
message. -/
structure KeyByte (table : UInt8 → Keycode) (k : UInt8) : Prop where
  special : k ∉ [0x84, 0xe0, 0xe1, 0xf0, 0xfa, 0xfe]
  keycode : table k ∉
    [Keycode.keyReserved, .keyNumlock, .keyScrolllock, .keyCapslock, .keyIgnore]

/-- The code of a plain key is the code of a key for the table of plain scancodes. -/
theorem IsPlainKey.keyByte {k : UInt8} (h : IsPlainKey k) : KeyByte getKeycodeSet2 k := by
  have hall : ∀ k : UInt8, IsPlainKey k →
      k ∉ [0x84, 0xe0, 0xe1, 0xf0, 0xfa, 0xfe] ∧ getKeycodeSet2 k ∉
        [Keycode.keyReserved, .keyNumlock, .keyScrolllock, .keyCapslock, .keyIgnore] := by
    decide +kernel
  exact ⟨(hall k h).1, (hall k h).2⟩

/-- The bytes of extended keys, which are not in a sequence either. -/
theorem IsExtendedKey.keyByte {k : UInt8} (h : IsExtendedKey k) :
    KeyByte getKeycodeEscapedSet2 k ∧ k ∉ [0x12, 0x7c] := by
  have hall : ∀ k : UInt8, IsExtendedKey k →
      (k ∉ [0x84, 0xe0, 0xe1, 0xf0, 0xfa, 0xfe] ∧ getKeycodeEscapedSet2 k ∉
        [Keycode.keyReserved, .keyNumlock, .keyScrolllock, .keyCapslock, .keyIgnore]) ∧
      k ∉ [0x12, 0x7c] := by
    decide +kernel
  exact ⟨⟨(hall k h).1.1, (hall k h).1.2⟩, (hall k h).2⟩

/-- **The byte of a key** that belongs to no sequence: the key is passed on, and the decoder is
reset. -/
theorem handle_key {table : UInt8 → Keycode} {k : UInt8} {d d' : Decoder} (h : KeyByte table k)
    (hchecks : checkSequences d k = .ok d') (hshift : k = 0x12 → d'.escaped = false)
    (htable : (if d'.escaped then getKeycodeEscapedSet2 k else getKeycodeSet2 k) = table k) :
    handleScancodeSet2 d k = ([notify (table k) d'.released], d'.reset) := by
  have hspecial := h.special
  simp only [List.mem_cons, List.not_mem_nil, or_false, not_or] at hspecial
  obtain ⟨h1, h2, h3, h4, h5, h6⟩ := hspecial
  have hpre : preprocess d' k = .ok d' := by
    unfold preprocess
    rw [if_neg (fun hk => by simp [hshift hk.1] at hk), if_neg h1, if_neg h2, if_neg h3, if_neg h4,
      if_neg h5, if_neg h6]
  have hstages : (do
      let d ← checkSequences d k
      preprocess d k) = (.ok d' : Stage Decoder) := by
    rw [hchecks]
    exact hpre
  rw [handleScancodeSet2, hstages]
  simp only [htable, handleKeycode_eq_message h.keycode, message, notify]

/-- The state behind an escape byte and a break byte. -/
def afterEscapeBreak (d : Decoder) : Decoder :=
  { d with released := true, escaped := true, printScreenReleased := 2 }

/-- The state behind a press of PrintScreen, where its release is expected first. -/
def waiting (d : Decoder) : Decoder := { d with printScreenReleased := 1 }

section Idle

variable {d : Decoder} (h : d.Idle)

include h

/-- **A plain key** at an idle decoder is notified with its keycode, and leaves the decoder
idle. -/
theorem idle_plain {k : UInt8} (hk : IsPlainKey k) (released : Bool) :
    feed d (scancodes k released) = ([notify (getKeycodeSet2 k) released], d) := by
  obtain ⟨h1, h2, h3, h4, h5⟩ := h.fields
  have hkey : ∀ released, handleScancodeSet2 { d with released := released } k =
      ([notify (getKeycodeSet2 k) released], d) := by
    intro released
    have hchecks : checkSequences { d with released := released } k =
        .ok { d with released := released } := by
      simp [checkSequences, checkPrintScreenPressed, checkPrintScreenReleased, checkPause, h3, h4,
        h5, bind, Except.bind]
    have hreset : Decoder.reset { d with released := released } = d := h
    have hhandle := handle_key hk.keyByte hchecks (fun _ => h2) (by simp [h2])
    rwa [hreset] at hhandle
  cases released with
  | false =>
      have hpress := hkey false
      rw [show { d with released := false } = d by rw [← h1]] at hpress
      simp [scancodes, feed, hpress]
  | true =>
      have hbreak : handleScancodeSet2 d 0xf0 = ([], { d with released := true }) := by
        rw [h.eq]
        rfl
      simp [scancodes, feed, hbreak, hkey true]

/-- An escape byte at an idle decoder makes no output, and is remembered. -/
theorem idle_escape : handleScancodeSet2 d 0xe0 = ([], d.afterEscape) := by
  rw [h.eq]
  rfl

/-- A fake shift and an escape byte at an idle decoder. -/
theorem idle_fakeShift : feed d [0xe0, 0x12, 0xe0] = ([], d.afterFakeShift) := by
  rw [h.eq]
  rfl

/-- The release of a fake shift at an idle decoder makes no output, and leaves it idle. -/
theorem idle_fakeShift_released : feed d [0xe0, 0xf0, 0x12] = ([], d) := by
  rw [h.eq]
  rfl

/-- A break byte behind an escape byte, or behind a fake shift, makes no output and is
remembered. -/
theorem escape_break : handleScancodeSet2 d.afterEscape 0xf0 = ([], afterEscapeBreak d) ∧
    handleScancodeSet2 d.afterFakeShift 0xf0 = ([], afterEscapeBreak d) := by
  rw [h.eq]
  exact ⟨rfl, rfl⟩

/-- **An extended key** behind an escape byte, a fake shift or a break byte is notified with
its keycode. -/
theorem idle_extended {k : UInt8} (hk : IsExtendedKey k) {s : Decoder} (released : Bool)
    (hs : s = d.afterEscape ∧ released = false ∨ s = d.afterFakeShift ∧ released = false ∨
      s = afterEscapeBreak d ∧ released = true) :
    handleScancodeSet2 s k = ([notify (getKeycodeEscapedSet2 k) released], d) := by
  obtain ⟨h1, h2, h3, h4, h5⟩ := h.fields
  obtain ⟨hbyte, hseq⟩ := hk.keyByte
  have hf0 : k ≠ 0xf0 := by
    intro hk'
    exact hbyte.special (by simp [hk'])
  simp only [List.mem_cons, List.not_mem_nil, or_false, not_or] at hseq
  have hchecks : checkSequences s k = .ok { d with escaped := true, released := released } := by
    rcases hs with ⟨rfl, rfl⟩ | ⟨rfl, rfl⟩ | ⟨rfl, rfl⟩
    all_goals
      simp [checkSequences, checkPrintScreenPressed, checkPrintScreenReleased, checkPause,
        Decoder.afterEscape, Decoder.afterFakeShift, afterEscapeBreak, hseq, hf0, h1, h3, h4, h5,
        bind, Except.bind]
  have hreset : Decoder.reset { d with escaped := true, released := released } = d := h
  have hhandle := handle_key hbyte hchecks (fun hk' => absurd hk' hseq.1) rfl
  rwa [hreset] at hhandle

/-- The bytes of an extended key behind the escape byte. -/
theorem feed_extended {k : UInt8} (hk : IsExtendedKey k) {s : Decoder} (released : Bool)
    (hs : s = d.afterEscape ∨ s = d.afterFakeShift) :
    feed s (scancodes k released) = ([notify (getKeycodeEscapedSet2 k) released], d) := by
  cases released with
  | false =>
      have hkey := idle_extended h hk (s := s) false (by tauto)
      simp [scancodes, feed, hkey]
  | true =>
      have hbreak : handleScancodeSet2 s 0xf0 = ([], afterEscapeBreak d) := by
        rcases hs with rfl | rfl
        · exact (escape_break h).1
        · exact (escape_break h).2
      have hkey := idle_extended h hk (s := afterEscapeBreak d) true (by tauto)
      simp [scancodes, feed, hbreak, hkey]

/-- PrintScreen at an idle decoder: the press is a fake shift and one more byte, and leaves the
decoder waiting for a break byte. -/
theorem idle_printScreen (released : Bool) :
    feed d (Event.printScreen released).encode =
      ([notify .keyPrintscreen released], if released then d else waiting d) := by
  cases released with
  | false =>
      have hlast : handleScancodeSet2 d.afterFakeShift 0x7c =
          ([.pressed .keyPrintscreen], waiting d) := by
        rw [h.eq]
        rfl
      have happend := feed_append d [0xe0, 0x12, 0xe0] [0x7c]
      rw [idle_fakeShift h] at happend
      simpa [feed, hlast, notify, Event.encode] using happend
  | true =>
      have h1 : handleScancodeSet2 (afterEscapeBreak d) 0x7c =
          ([], { afterEscapeBreak d with printScreenReleased := 3 }) := by
        rw [h.eq]
        rfl
      have h2 : handleScancodeSet2 { afterEscapeBreak d with printScreenReleased := 3 } 0xe0 =
          ([], { afterEscapeBreak d with printScreenReleased := 4 }) := by
        rw [h.eq]
        rfl
      have h3 : handleScancodeSet2 { afterEscapeBreak d with printScreenReleased := 4 } 0xf0 =
          ([], { afterEscapeBreak d with printScreenReleased := 5 }) := by
        rw [h.eq]
        rfl
      have h4 : handleScancodeSet2 { afterEscapeBreak d with printScreenReleased := 5 } 0x12 =
          ([.released .keyPrintscreen], d) := by
        rw [h.eq]
        rfl
      simp [feed, Event.encode, idle_escape h, (escape_break h).1, h1, h2, h3, h4, notify]

/-- The pause sequence at an idle decoder is notified as one press of Pause, and leaves it
idle. -/
theorem idle_pause : feed d Event.pause.encode = ([.pressed .keyPause], d) := by
  have h1 : handleScancodeSet2 d 0xe1 = ([], { d with pause := 1 }) := by
    rw [h.eq]
    rfl
  have h2 : handleScancodeSet2 { d with pause := 1 } 0x14 = ([], { d with pause := 2 }) := by
    rw [h.eq]
    rfl
  have h3 : handleScancodeSet2 { d with pause := 2 } 0x77 = ([], { d with pause := 3 }) := by
    rw [h.eq]
    rfl
  have h4 : handleScancodeSet2 { d with pause := 3 } 0xe1 = ([], { d with pause := 4 }) := by
    rw [h.eq]
    rfl
  have h5 : handleScancodeSet2 { d with pause := 4 } 0xf0 = ([], { d with pause := 5 }) := by
    rw [h.eq]
    rfl
  have h6 : handleScancodeSet2 { d with pause := 5 } 0x14 = ([], { d with pause := 6 }) := by
    rw [h.eq]
    rfl
  have h7 : handleScancodeSet2 { d with pause := 6 } 0xf0 = ([], { d with pause := 7 }) := by
    rw [h.eq]
    rfl
  have h8 : handleScancodeSet2 { d with pause := 7 } 0x77 = ([.pressed .keyPause], d) := by
    rw [h.eq]
    rfl
  simp [feed, Event.encode, h1, h2, h3, h4, h5, h6, h7, h8]

/-- **An event at an idle decoder** leads to its calls and leaves the decoder idle, unless it is a
press of PrintScreen. -/
theorem feed_event (e : Event) :
    feed d e.encode = (e.calls, if e = .printScreen false then waiting d else d) := by
  cases e with
  | plain key released => exact idle_plain h key.2 released
  | extended key released before after =>
      have hkey : feed d ((if before then [0xe0, 0x12] else []) ++ 0xe0 :: scancodes key released) =
          ([notify (getKeycodeEscapedSet2 key) released], d) := by
        cases before with
        | false => simp [feed, idle_escape h, feed_extended h key.2 released (.inl rfl)]
        | true =>
            have happend := feed_append d [0xe0, 0x12, 0xe0] (scancodes key released)
            rw [idle_fakeShift h, feed_extended h key.2 released (.inr rfl)] at happend
            exact happend
      rw [Event.encode, feed_append, hkey]
      cases after with
      | false => simp [feed, Event.calls]
      | true => simp [idle_fakeShift_released h, Event.calls]
  | printScreen released =>
      rw [idle_printScreen h released]
      cases released with
      | false => rfl
      | true => rfl
  | pause => exact idle_pause h

/-- What comes behind a press of PrintScreen is treated as at an idle decoder unless it is a break
byte. -/
theorem handle_waiting {b : UInt8} (hb : b ≠ 0xf0) :
    handleScancodeSet2 (waiting d) b = handleScancodeSet2 d b := by
  obtain ⟨h1, h2, h3, h4, h5⟩ := h.fields
  have hchecks : checkSequences (waiting d) b = checkSequences d b := by
    have hleft : checkSequences (waiting d) b = .ok { d with printScreenReleased := 0 } := by
      simp [checkSequences, checkPrintScreenPressed, checkPrintScreenReleased, checkPause, waiting,
        hb, h3, h5, bind, Except.bind]
    have hright : checkSequences d b = .ok d := by
      simp [checkSequences, checkPrintScreenPressed, checkPrintScreenReleased, checkPause, h3,
        h4, h5, bind, Except.bind]
    rw [hleft, hright, ← h4]
  rw [handleScancodeSet2, handleScancodeSet2, hchecks]

/-- **An event behind a press of PrintScreen** is treated as at an idle decoder, unless the asterisk
of the numeric pad is released. -/
theorem feed_event_waiting {e : Event} (he : e ≠ asteriskReleased) :
    feed (waiting d) e.encode = feed d e.encode := by
  have hfirst : ∀ b bs, b ≠ 0xf0 → feed (waiting d) (b :: bs) = feed d (b :: bs) := by
    intro b bs hb
    simp only [feed, handle_waiting h hb]
  cases e with
  | plain key released =>
      cases released with
      | false => exact hfirst key [] fun hk => key.2.keyByte.special (by simp [hk])
      | true =>
          have hne : key.1 ≠ 0x7c := fun hk =>
            he (congrArg (Event.plain · true) (Subtype.ext hk))
          obtain ⟨h1, h2, h3, h4, h5⟩ := h.fields
          have hbreak : handleScancodeSet2 (waiting d) 0xf0 =
              ([], { d with released := true, printScreenReleased := 2 }) := by
            rw [h.eq]
            rfl
          have hchecks : checkSequences { d with released := true, printScreenReleased := 2 } key =
              .ok { d with released := true } := by
            simp [checkSequences, checkPrintScreenPressed, checkPrintScreenReleased, checkPause,
              hne, h3, h4, h5, bind, Except.bind]
          have hreset : Decoder.reset { d with released := true } = d := h
          have hkey := handle_key key.2.keyByte hchecks (fun _ => h2) (by simp [h2])
          rw [hreset] at hkey
          rw [Event.encode, idle_plain h key.2 true]
          simp [scancodes, feed, hbreak, hkey]
  | extended key released before after =>
      cases before with
      | false => exact hfirst 0xe0 _ (by decide)
      | true => exact hfirst 0xe0 _ (by decide)
  | printScreen released =>
      cases released with
      | false => exact hfirst 0xe0 _ (by decide)
      | true => exact hfirst 0xe0 _ (by decide)
  | pause => exact hfirst 0xe1 _ (by decide)

/-- **The release of the asterisk behind a press of PrintScreen** is not reported. -/
theorem feed_asterisk_waiting : (feed (waiting d) asteriskReleased.encode).1 = [] := by
  rw [h.eq]
  rfl

end Idle

/-! ### Sequences of events -/

/-- The calls that an event is to make are all notifications. -/
theorem notifications_calls (e : Event) : notifications e.calls = e.calls := by
  have hnotify : ∀ keycode released,
      notifications [notify keycode released] = [notify keycode released] := by
    intro keycode released
    cases released <;> rfl
  cases e with
  | plain key released => exact hnotify _ released
  | extended key released before after => exact hnotify _ released
  | printScreen released => exact hnotify _ released
  | pause => rfl

/-- No press of PrintScreen is directly followed by the release of the asterisk of the numeric
pad. -/
def AsteriskKept (events : List Event) : Prop :=
  ∀ before after, events ≠ before ++ .printScreen false :: asteriskReleased :: after

/-- The state behind a sequence of events: a decoder that is idle, or waiting behind a press of
PrintScreen. -/
def stateAfter (d : Decoder) (events : List Event) : Decoder :=
  if events.getLast? = some (.printScreen false) then waiting d else d

/-- An event makes the same outputs at the state after earlier events as at the idle
decoder. -/
theorem feed_stateAfter {d : Decoder} (h : d.Idle) {before after : List Event} {e : Event}
    (hkept : AsteriskKept (before ++ e :: after)) :
    feed (stateAfter d before) e.encode = feed d e.encode := by
  unfold stateAfter
  split
  · rename_i hlast
    apply feed_event_waiting h
    rintro rfl
    obtain ⟨ys, hys⟩ := List.getLast?_eq_some_iff.mp hlast
    exact hkept ys after (by simp [hys])
  · rfl

/-- If no press of PrintScreen in a sequence is followed by the release of the asterisk, none
in its beginnings is. -/
theorem AsteriskKept.take {before after : List Event} (hkept : AsteriskKept (before ++ after)) :
    AsteriskKept before :=
  fun b a heq => hkept b (a ++ after) (by simp [heq])

/-- **A sequence of events** leaves the decoder idle, or waiting if its last event is a press of
PrintScreen. -/
theorem feed_events {d : Decoder} (h : d.Idle) (events : List Event) (hkept : AsteriskKept events) :
    (feed d (encode events)).2 = stateAfter d events := by
  induction events using List.reverseRecOn with
  | nil => rfl
  | append_singleton events e ih =>
      rw [encode, List.flatMap_append, feed_append, ← encode, List.flatMap_singleton,
        ih hkept.take, feed_stateAfter h hkept, feed_event h e]
      simp [stateAfter]

/-- The events of a sequence lead to their calls if no asterisk is lost. -/
theorem notifies_of_asteriskKept {d : Decoder} (h : d.Idle) {events : List Event}
    (hkept : AsteriskKept events) : Notifies d events := by
  rintro before e after rfl
  rw [feed_events h before hkept.take, feed_stateAfter h hkept, feed_event h e]
  exact notifications_calls e

/-- An asterisk that is lost is missing among the calls. -/
theorem asteriskKept_of_notifies {d : Decoder} (h : d.Idle) {events : List Event}
    (hnotifies : Notifies d events) : AsteriskKept events := by
  induction events using List.reverseRecOn with
  | nil => simp [AsteriskKept]
  | append_singleton events e ih =>
      have hkept : AsteriskKept events :=
        ih fun before e' after heq => hnotifies before e' (after ++ [e]) (by simp [heq])
      intro before after heq
      -- The last event is the asterisk, since none is lost before it.
      rcases after.eq_nil_or_concat with rfl | ⟨after, e', rfl⟩
      · have hevents : events = before ++ [.printScreen false] ∧ e = asteriskReleased := by
          have heq' : events ++ [e] = (before ++ [.printScreen false]) ++ [asteriskReleased] := by
            simpa using heq
          simpa using List.append_inj' heq' rfl
        obtain ⟨rfl, rfl⟩ := hevents
        have hcalls := hnotifies (before ++ [.printScreen false]) asteriskReleased [] rfl
        rw [feed_events h _ hkept, stateAfter, if_pos (by simp), feed_asterisk_waiting h] at hcalls
        exact absurd hcalls (by decide +kernel)
      · refine hkept before after ?_
        have heq' : events ++ [e] =
            (before ++ .printScreen false :: asteriskReleased :: after) ++ [e'] := by
          simpa using heq
        exact (List.append_inj' heq' rfl).1

/-- Behind a press of PrintScreen the decoder does not treat every event as an idle one does. -/
theorem waiting_ne_idle {d : Decoder} (h : d.Idle) :
    notifications (feed (waiting d) asteriskReleased.encode).1 ≠
      notifications (feed (waiting d).reset asteriskReleased.encode).1 := by
  rw [feed_asterisk_waiting h, show (waiting d).reset = d from h, feed_event h]
  exact show notifications [] ≠ notifications asteriskReleased.calls by decide +kernel

/-- **Which sequences of events in scancode set 2 are decoded faithfully.** From an idle
decoder, the bytes of each event lead to exactly its calls if and only if no press of
PrintScreen is directly followed by the release of the asterisk of the numeric pad. The decoder
moreover treats whatever event comes next as an idle one does, after each event, if and only if
PrintScreen is not pressed. -/
theorem set2_decodes_iff {d : Decoder} (h : d.Idle) (events : List Event) :
    (Notifies d events ↔ AsteriskKept events) ∧
      (Notifies d events ∧ Recovers d events ↔ ∀ e ∈ events, e ≠ .printScreen false) := by
  refine ⟨⟨asteriskKept_of_notifies h, notifies_of_asteriskKept h⟩, ?_, ?_⟩
  · rintro ⟨hnotifies, hrecovers⟩ e he rfl
    obtain ⟨before, after, rfl⟩ := List.append_of_mem he
    have hnext := hrecovers before _ after rfl asteriskReleased
    have hkept : AsteriskKept (before ++ [.printScreen false] ++ after) := by
      simpa using asteriskKept_of_notifies h hnotifies
    rw [feed_events h _ hkept.take, stateAfter, if_pos (by simp)] at hnext
    exact waiting_ne_idle h hnext
  · intro hnone
    have hkept : AsteriskKept events := by
      rintro before after rfl
      exact hnone _ (by simp) rfl
    refine ⟨notifies_of_asteriskKept h hkept, ?_⟩
    rintro before e after rfl next
    have hlast : stateAfter d (before ++ [e]) = d :=
      if_neg (by simpa using hnone e (by simp))
    have hkept' : AsteriskKept (before ++ [e] ++ after) := by simpa using hkept
    rw [feed_events h _ hkept'.take, hlast, show d.reset = d from h]

/-- The equivalences at a sequence in which an arrow key is pressed with a fake shift and released,
and PrintScreen is released. -/
theorem set2_decodes_iff_arrow : (Decoder.start 0b010).Idle ∧
    Notifies (.start 0b010) [.extended ⟨0x75, by decide⟩ false true false,
      .extended ⟨0x75, by decide⟩ true false true, .printScreen true] ∧
    Recovers (.start 0b010) [.extended ⟨0x75, by decide⟩ false true false,
      .extended ⟨0x75, by decide⟩ true false true, .printScreen true] :=
  have hidle : (Decoder.start 0b010).Idle := rfl
  ⟨hidle, (set2_decodes_iff hidle _).2.mpr (by decide)⟩

/-- **A release that is lost**: the asterisk of the numeric pad is held, PrintScreen is pressed, and
the asterisk is released. -/
theorem printScreen_swallows_asterisk :
    (feed (.start 0b010) (encode [.plain ⟨0x7c, by decide⟩ false, .printScreen false,
      asteriskReleased])).1 = [.pressed .keyNumpadAsterisk, .pressed .keyPrintscreen] ∧
    ¬ Notifies (.start 0b010) [.plain ⟨0x7c, by decide⟩ false, .printScreen false,
      asteriskReleased] := by
  refine ⟨by decide +kernel, ?_⟩
  intro hnotifies
  have hcalls := hnotifies [.plain ⟨0x7c, by decide⟩ false, .printScreen false] asteriskReleased
    [] rfl
  exact absurd hcalls (by decide +kernel)

end MugOS.PS2.Set2
