import Mathlib.Data.FinEnum
import MugOS.Keyboard

/-!
# Modifiers

The modifiers that the callbacks are told, compared with the modifier keys that are held, over
every sequence of notifications.

`Keyboard_notifyPressed` and `Keyboard_notifyReleased` treat the left Ctrl key as the right one.
When one of the two is released while the other is held, the Ctrl modifier is cleared.

## Main results

* `Tracks.pressed`, `Tracks.released`: what one notification preserves.
* `modifiers_reflect_iff`: the modifiers are those of the keys held exactly when no Ctrl key is
  released while the other is held.
-/

namespace MugOS.Keyboard

open PS2

/-! ### Flags -/

/-- The modifier is set: one of the bits of its flag is. -/
def hasFlag (modifiers flag : UInt8) : Bool := modifiers &&& flag ≠ 0

/-- Each of the four modifiers is on if and only if its bit of the flags is set. -/
theorem hasFlag_eq : ∀ modifiers : UInt8,
    hasFlag modifiers modifierCtrl = modifiers.toBitVec.getLsbD 0 ∧
    hasFlag modifiers modifierShift = modifiers.toBitVec.getLsbD 1 ∧
    hasFlag modifiers modifierAlt = modifiers.toBitVec.getLsbD 2 ∧
    hasFlag modifiers modifierMeta = modifiers.toBitVec.getLsbD 3 := by
  decide +kernel

/-- The modifiers Shift, Ctrl, Alt and Meta, apart from the locks. -/
structure Modifiers where
  shift : Bool
  ctrl : Bool
  alt : Bool
  metaOn : Bool
  deriving DecidableEq

/-- The modifiers in the flags that the callbacks are told. -/
def ofFlags (modifiers : UInt8) : Modifiers :=
  ⟨hasFlag modifiers modifierShift, hasFlag modifiers modifierCtrl, hasFlag modifiers modifierAlt,
    hasFlag modifiers modifierMeta⟩

/-- The modifiers that the flags stand for are read from the four lowest bits. -/
theorem ofFlags_eq (modifiers : UInt8) : ofFlags modifiers =
    ⟨modifiers.toBitVec.getLsbD 1, modifiers.toBitVec.getLsbD 0, modifiers.toBitVec.getLsbD 2,
      modifiers.toBitVec.getLsbD 3⟩ := by
  obtain ⟨hctrl, hshift, halt, hmeta⟩ := hasFlag_eq modifiers
  rw [ofFlags, hctrl, hshift, halt, hmeta]

/-- After modifiers are set, each of them is on if it was on before or is one of those set. -/
theorem ofFlags_setFlags (s c a m : Bool) (modifiers : UInt8) :
    ofFlags (setFlags s c a m modifiers) =
      ⟨(ofFlags modifiers).shift || s, (ofFlags modifiers).ctrl || c,
        (ofFlags modifiers).alt || a, (ofFlags modifiers).metaOn || m⟩ := by
  rw [ofFlags_eq, ofFlags_eq]
  cases s <;> cases c <;> cases a <;> cases m <;> simp [setFlags]

/-- After modifiers are cleared, each of them is on if it was on before and is not one of those
cleared. -/
theorem ofFlags_clearFlags (s c a m : Bool) (modifiers : UInt8) :
    ofFlags (clearFlags s c a m modifiers) =
      ⟨(ofFlags modifiers).shift && s, (ofFlags modifiers).ctrl && c,
        (ofFlags modifiers).alt && a, (ofFlags modifiers).metaOn && m⟩ := by
  rw [ofFlags_eq, ofFlags_eq]
  cases s <;> cases c <;> cases a <;> cases m <;> simp [clearFlags]

/-- The locks have flags of their own, so toggling one of them changes none of the four
modifiers. -/
theorem ofFlags_xor (modifiers lock : UInt8)
    (h : lock = modifierNumlock ∨ lock = modifierCapslock) :
    ofFlags (modifiers ^^^ lock) = ofFlags modifiers := by
  rw [ofFlags_eq, ofFlags_eq]
  rcases h with rfl | rfl <;> simp

/-! ### Single notifications -/

/-- The flags of the modifier keys when a key goes down or up. -/
structure Moves (s : State) (keycode : Keycode) (down : Bool) (s' : State) : Prop where
  leftShift : s'.leftShift = if keycode = .keyLshift then down else s.leftShift
  rightShift : s'.rightShift = if keycode = .keyRshift then down else s.rightShift
  leftCtrl : s'.leftCtrl = s.leftCtrl
  rightCtrl : s'.rightCtrl = if keycode = .keyLctrl ∨ keycode = .keyRctrl then down else s.rightCtrl
  leftAlt : s'.leftAlt = if keycode = .keyLalt then down else s.leftAlt
  rightAlt : s'.rightAlt = if keycode = .keyRalt then down else s.rightAlt
  leftMeta : s'.leftMeta = if keycode = .keyLmeta then down else s.leftMeta
  rightMeta : s'.rightMeta = if keycode = .keyRmeta then down else s.rightMeta

/-- The switches of the two functions move the variable of the key, and only this one, as the
key moves. -/
theorem moves_setModifier (s : State) (keycode : Keycode) (down : Bool) :
    Moves s keycode down (setModifier s keycode down) := by
  unfold setModifier
  split <;> constructor <;> simp_all

/-- The modifiers of the keys that are down, the flags being set. -/
def State.pressedModifiers (s : State) : Modifiers :=
  ⟨s.leftShift || s.rightShift, s.leftCtrl || s.rightCtrl, s.leftAlt || s.rightAlt,
    s.leftMeta || s.rightMeta⟩

/-- A key that is pressed moves its variable, and sets the modifiers that are held then. -/
theorem pressKey_spec (s : State) (keycode : Keycode) :
    Moves s keycode true (pressKey s keycode) ∧
      ofFlags (pressKey s keycode).modifierKeys =
        ⟨(ofFlags s.modifierKeys).shift || (pressKey s keycode).pressedModifiers.shift,
          (ofFlags s.modifierKeys).ctrl || (pressKey s keycode).pressedModifiers.ctrl,
          (ofFlags s.modifierKeys).alt || (pressKey s keycode).pressedModifiers.alt,
          (ofFlags s.modifierKeys).metaOn || (pressKey s keycode).pressedModifiers.metaOn⟩ := by
  have hmoves := moves_setModifier s keycode true
  have hm : (setModifier s keycode true).modifierKeys = s.modifierKeys := by
    unfold setModifier
    split <;> rfl
  unfold pressKey
  split
  · refine ⟨⟨hmoves.1, hmoves.2, hmoves.3, hmoves.4, hmoves.5, hmoves.6, hmoves.7, hmoves.8⟩, ?_⟩
    simp only [State.updateModifiers, ofFlags_setFlags, ofFlags_xor _ _ (.inr rfl), hm]
    rfl
  · refine ⟨⟨hmoves.1, hmoves.2, hmoves.3, hmoves.4, hmoves.5, hmoves.6, hmoves.7, hmoves.8⟩, ?_⟩
    simp only [State.updateModifiers, ofFlags_setFlags, hm]
    rfl

/-- A key that is released moves its variable, and clears the modifiers that are not held any
more. -/
theorem releaseKey_spec (s : State) (keycode : Keycode) :
    Moves s keycode false (releaseKey s keycode) ∧
      ofFlags (releaseKey s keycode).modifierKeys =
        ⟨(ofFlags s.modifierKeys).shift && (releaseKey s keycode).pressedModifiers.shift,
          (ofFlags s.modifierKeys).ctrl && (releaseKey s keycode).pressedModifiers.ctrl,
          (ofFlags s.modifierKeys).alt && (releaseKey s keycode).pressedModifiers.alt,
          (ofFlags s.modifierKeys).metaOn && (releaseKey s keycode).pressedModifiers.metaOn⟩ := by
  have hmoves := moves_setModifier s keycode false
  have hm : (setModifier s keycode false).modifierKeys = s.modifierKeys := by
    unfold setModifier
    split <;> rfl
  unfold releaseKey
  split
  · refine ⟨⟨hmoves.1, hmoves.2, hmoves.3, hmoves.4, hmoves.5, hmoves.6, hmoves.7, hmoves.8⟩, ?_⟩
    simp only [State.updateModifiers, ofFlags_clearFlags, ofFlags_xor _ _ (.inl rfl), hm]
    rfl
  · refine ⟨⟨hmoves.1, hmoves.2, hmoves.3, hmoves.4, hmoves.5, hmoves.6, hmoves.7, hmoves.8⟩, ?_⟩
    simp only [State.updateModifiers, ofFlags_clearFlags, hm]
    rfl

/-- What comes behind the switches is of no influence on the modifiers. -/
theorem notify_state (s : State) (n : Notification) :
    ∃ s', (s' = match n with
        | .pressed keycode => pressKey s keycode
        | .released keycode => releaseKey s keycode) ∧
      ((notify s n).2 = s' ∨ ∃ i b, (notify s n).2 = s'.setFunction i b) := by
  cases n with
  | pressed keycode =>
      refine ⟨_, rfl, ?_⟩
      simp only [notify, notifyPressed]
      split
      · exact .inl rfl
      · split
        · split
          · exact .inr ⟨_, _, rfl⟩
          · exact .inr ⟨_, _, rfl⟩
        · exact .inl rfl
  | released keycode =>
      refine ⟨_, rfl, ?_⟩
      simp only [notify, notifyReleased]
      split
      · exact .inl rfl
      · split
        · split
          · exact .inr ⟨_, _, rfl⟩
          · exact .inl rfl
        · split
          · exact .inr ⟨_, _, rfl⟩
          · exact .inl rfl

/-- A call passes on the modifiers of the state that it leaves. -/
theorem notify_modifierKeys {s : State} {n : Notification} {call : Call}
    (h : (notify s n).1 = some call) : call.modifierKeys = (notify s n).2.modifierKeys := by
  cases n with
  | pressed keycode =>
      revert h
      simp only [notify, notifyPressed]
      split
      · rintro ⟨⟩
        rfl
      · split
        · split
          · rintro ⟨⟩
          · rintro ⟨⟩
            rfl
        · rintro ⟨⟩
          rfl
  | released keycode =>
      revert h
      simp only [notify, notifyReleased]
      split
      · rintro ⟨⟩
        rfl
      · split
        · split
          · rintro ⟨⟩
          · rintro ⟨⟩
            rfl
        · split
          · rintro ⟨⟩
            rfl
          · rintro ⟨⟩
            rfl

/-- The modifiers of which at least one key is held. -/
def ofHeld (h : Keycode → Bool) : Modifiers :=
  ⟨h .keyLshift || h .keyRshift, h .keyLctrl || h .keyRctrl, h .keyLalt || h .keyRalt,
    h .keyLmeta || h .keyRmeta⟩

/-- **The subsystem keeps track of the keys held**, the two Ctrl keys being one. -/
structure Tracks (s : State) (h : Keycode → Bool) : Prop where
  leftShift : s.leftShift = h .keyLshift
  rightShift : s.rightShift = h .keyRshift
  leftCtrl : s.leftCtrl = false
  rightCtrl : s.rightCtrl = (h .keyLctrl || h .keyRctrl)
  leftAlt : s.leftAlt = h .keyLalt
  rightAlt : s.rightAlt = h .keyRalt
  leftMeta : s.leftMeta = h .keyLmeta
  rightMeta : s.rightMeta = h .keyRmeta
  flags : ofFlags s.modifierKeys = ofHeld h

/-- At the start, with no key held and no modifier on, the modifiers are those of the held
keys. -/
theorem tracks_start : Tracks State.start (held []) := by
  constructor <;> decide

/-- What is remembered of the numeric pad has no influence on the modifiers. -/
theorem Tracks.setFunction {s : State} {h : Keycode → Bool} (ht : Tracks s h) (i : ℕ) (b : Bool) :
    Tracks (s.setFunction i b) h :=
  ⟨ht.leftShift, ht.rightShift, ht.leftCtrl, ht.rightCtrl, ht.leftAlt, ht.rightAlt, ht.leftMeta,
    ht.rightMeta, ht.flags⟩

/-- A Ctrl key that is released while the other is held. -/
def CtrlReleased (h : Keycode → Bool) (n : Notification) : Prop :=
  n = .released .keyLctrl ∧ h .keyRctrl = true ∨ n = .released .keyRctrl ∧ h .keyLctrl = true

section

variable {s s' : State} {h : Keycode → Bool} (ht : Tracks s h)

include ht

/-- The keys that are down and the modifiers they stand for. -/
theorem Tracks.pressedModifiers : s.pressedModifiers = ofHeld h := by
  rw [State.pressedModifiers, ofHeld, ht.leftShift, ht.rightShift, ht.leftCtrl, ht.rightCtrl,
    ht.leftAlt, ht.rightAlt, ht.leftMeta, ht.rightMeta, Bool.false_or]

/-- A key that goes down or up keeps the modifiers those of the held keys, but for the release
of a Ctrl key. -/
theorem Tracks.moves {keycode : Keycode} {down : Bool} (hm : Moves s keycode down s')
    (hctrl : down = false → ¬ CtrlReleased h (.released keycode))
    (hflags : s'.pressedModifiers = ofHeld (Function.update h keycode down) →
      ofFlags s'.modifierKeys = ofHeld (Function.update h keycode down)) :
    Tracks s' (Function.update h keycode down) := by
  have hother : ∀ k, Function.update h keycode down k = if keycode = k then down else h k := by
    intro k
    rw [Function.update_apply]
    simp only [eq_comm]
  have hrc : s'.rightCtrl = (Function.update h keycode down .keyLctrl ||
      Function.update h keycode down .keyRctrl) := by
    rw [hm.rightCtrl, hother, hother, ht.rightCtrl]
    cases down with
    | true =>
        by_cases hl : keycode = .keyLctrl
        · simp [hl]
        · by_cases hr : keycode = .keyRctrl <;> simp [hl, hr]
    | false =>
        have hnot := hctrl rfl
        simp only [CtrlReleased, Notification.released.injEq, not_or, not_and,
          Bool.not_eq_true] at hnot
        by_cases hl : keycode = .keyLctrl
        · simp [hl, hnot.1 hl]
        · by_cases hr : keycode = .keyRctrl
          · simp [hr, hnot.2 hr]
          · simp [hl, hr]
  have hls := hm.leftShift.trans (by rw [ht.leftShift, ← hother])
  have hrs := hm.rightShift.trans (by rw [ht.rightShift, ← hother])
  have hla := hm.leftAlt.trans (by rw [ht.leftAlt, ← hother])
  have hra := hm.rightAlt.trans (by rw [ht.rightAlt, ← hother])
  have hlm := hm.leftMeta.trans (by rw [ht.leftMeta, ← hother])
  have hrm := hm.rightMeta.trans (by rw [ht.rightMeta, ← hother])
  have hlc := hm.leftCtrl.trans ht.leftCtrl
  refine ⟨hls, hrs, hlc, hrc, hla, hra, hlm, hrm, hflags ?_⟩
  rw [State.pressedModifiers, ofHeld, hls, hrs, hlc, hrc, hla, hra, hlm, hrm, Bool.false_or]

omit ht in
/-- A modifier that was set because of a key stays set when another goes down. -/
theorem or_update (keycode k k' : Keycode) :
    ((h k || h k') || (Function.update h keycode true k || Function.update h keycode true k')) =
      (Function.update h keycode true k || Function.update h keycode true k') := by
  simp only [Function.update_apply]
  split_ifs <;> simp

omit ht in
/-- A modifier that stays set because of a key was set when another goes up. -/
theorem and_update (keycode k k' : Keycode) :
    ((h k || h k') && (Function.update h keycode false k || Function.update h keycode false k')) =
      (Function.update h keycode false k || Function.update h keycode false k') := by
  simp only [Function.update_apply]
  cases h k <;> cases h k' <;> split_ifs <;> simp

/-- **A notification** that does not release a Ctrl key while the other is held. -/
theorem Tracks.notify {n : Notification} (hn : ¬ CtrlReleased h n) :
    Tracks (notify s n).2 (Function.update h n.keycode n.down) := by
  obtain ⟨s', hs', hstate⟩ := notify_state s n
  have htracks : Tracks s' (Function.update h n.keycode n.down) := by
    cases n with
    | pressed keycode =>
        obtain ⟨hmoves, hflags⟩ := pressKey_spec s keycode
        subst hs'
        refine ht.moves hmoves (by simp [Notification.down]) fun hpressed => ?_
        rw [hflags, hpressed, ht.flags]
        simp only [ofHeld, Notification.keycode, Notification.down, or_update]
    | released keycode =>
        obtain ⟨hmoves, hflags⟩ := releaseKey_spec s keycode
        subst hs'
        refine ht.moves hmoves (fun _ => hn) fun hpressed => ?_
        rw [hflags, hpressed, ht.flags]
        simp only [ofHeld, Notification.keycode, Notification.down, and_update]
  rcases hstate with hstate | ⟨i, b, hstate⟩
  · rw [hstate]
    exact htracks
  · rw [hstate]
    exact htracks.setFunction i b

end

/-! ### Sequences of notifications -/

/-- **The modifiers reflect the keys held**: with every notification that leads to a call, the
callbacks are told the modifiers of which a key is held. -/
def ModifiersReflect (ns : List Notification) : Prop :=
  ∀ before n rest, ns = before ++ n :: rest → ∀ call, (notify (after before) n).1 = some call →
    ofFlags call.modifierKeys = ofHeld (held (before ++ [n]))

/-- No Ctrl key is released while the other is held. -/
def NoCtrlReleased (ns : List Notification) : Prop :=
  ∀ before n rest, ns = before ++ n :: rest → ¬ CtrlReleased (held before) n

/-- The variable of the left Ctrl key is set by no notification, since pressing this key does
not set it. -/
theorem leftCtrl_after (ns : List Notification) : (after ns).leftCtrl = false := by
  induction ns using List.reverseRecOn with
  | nil => rfl
  | append_singleton ns n ih =>
      rw [after_append]
      obtain ⟨s', hs', hstate⟩ := notify_state (after ns) n
      have hleft : s'.leftCtrl = false := by
        cases n with
        | pressed keycode => rw [hs', (pressKey_spec _ keycode).1.leftCtrl, ih]
        | released keycode => rw [hs', (releaseKey_spec _ keycode).1.leftCtrl, ih]
      rcases hstate with hstate | ⟨i, b, hstate⟩
      · rw [hstate, hleft]
      · rw [hstate]
        exact hleft

/-- The subsystem keeps track of the keys held as long as no Ctrl key is released while the other
is held. -/
theorem tracks_after {ns : List Notification} (h : NoCtrlReleased ns)
    {before rest : List Notification}
    (hsplit : ns = before ++ rest) : Tracks (after before) (held before) := by
  induction before using List.reverseRecOn generalizing rest with
  | nil => exact tracks_start
  | append_singleton before n ih =>
      have hsplit' : ns = before ++ n :: rest := by simpa using hsplit
      rw [after_append, held_append]
      exact (ih hsplit').notify (h before n rest hsplit')

/-- A Ctrl key that is released clears the modifier, also while the other one is held. -/
theorem release_ctrl {s : State} {keycode : Keycode} (hleft : s.leftCtrl = false)
    (hkey : keycode = .keyLctrl ∨ keycode = .keyRctrl) :
    ∃ call, (notify s (.released keycode)).1 = some call ∧
      (ofFlags call.modifierKeys).ctrl = false := by
  have hnumpad : numpadIndex keycode = none := by rcases hkey with rfl | rfl <;> rfl
  obtain ⟨hmoves, hflags⟩ := releaseKey_spec s keycode
  refine ⟨executeCallbacks (releaseKey s keycode) keycode true, ?_, ?_⟩
  · simp only [notify, notifyReleased, hnumpad]
  · simp only [executeCallbacks, hflags, State.pressedModifiers, hmoves.leftCtrl, hmoves.rightCtrl,
      if_pos hkey, hleft, Bool.or_self, Bool.and_false]

/-- **The modifiers reflect the keys held exactly when no Ctrl key is released while the other is
held**, for every sequence of notifications. -/
theorem modifiers_reflect_iff (ns : List Notification) :
    ModifiersReflect ns ↔ NoCtrlReleased ns := by
  constructor
  · rintro hreflect before n rest hsplit hrel
    obtain ⟨keycode, hkey, rfl, hother⟩ : ∃ keycode,
        (keycode = .keyLctrl ∨ keycode = .keyRctrl) ∧ n = .released keycode ∧
        (ofHeld (held (before ++ [n]))).ctrl = true := by
      rcases hrel with ⟨rfl, hheld⟩ | ⟨rfl, hheld⟩
      · exact ⟨_, .inl rfl, rfl, by simp [ofHeld, Notification.keycode, hheld]⟩
      · exact ⟨_, .inr rfl, rfl, by simp [ofHeld, Notification.keycode, hheld]⟩
    obtain ⟨call, hcall, hctrl⟩ := release_ctrl (leftCtrl_after before) hkey
    rw [hreflect before _ rest hsplit call hcall, hother] at hctrl
    exact absurd hctrl (by simp)
  · intro hno before n rest hsplit call hcall
    have htracks : Tracks (after (before ++ [n])) (held (before ++ [n])) :=
      tracks_after hno (show ns = before ++ [n] ++ rest by simpa using hsplit)
    rw [notify_modifierKeys hcall, ← after_append]
    exact htracks.flags

/-- **A Ctrl key that is held without its modifier**: both Ctrl keys are pressed, and the left one
is released. -/
theorem left_ctrl_clears :
    ((notify (after [.pressed .keyLctrl, .pressed .keyRctrl]) (.released .keyLctrl)).1.map
        fun call => (ofFlags call.modifierKeys).ctrl) = some false ∧
      held [.pressed .keyLctrl, .pressed .keyRctrl, .released .keyLctrl] .keyRctrl = true ∧
      ¬ ModifiersReflect [.pressed .keyLctrl, .pressed .keyRctrl, .released .keyLctrl] := by
  refine ⟨by decide +kernel, by decide +kernel, ?_⟩
  intro hreflect
  obtain ⟨call, hcall, hctrl⟩ :=
    release_ctrl (leftCtrl_after [.pressed .keyLctrl, .pressed .keyRctrl]) (.inl rfl)
  have hflags := hreflect [.pressed .keyLctrl, .pressed .keyRctrl] _ [] rfl call hcall
  rw [hflags] at hctrl
  exact absurd hctrl (by decide +kernel)

end MugOS.Keyboard
