import MugOS.LockKeys
import MugOS.ScancodeSet2

/-!
# Lock Keys in Scancode Sets 1 and 2

The two scancode sets as systems, and how their codes are read with replies of the keyboard between
the bytes.

## Main results

* `faithful1`, `faithful2`: codes are read as they should be.
* `leds_in_step`: LEDs and locks are in step in every orderly run.
* `capslock_released_early`: a run in which they are not.
-/

namespace MugOS.LockKeys

open PS2

/-! ### The two sets -/

/-- The lock key with a keycode. -/
def lockOf : Keycode → Option Lock
  | .keyNumlock => some .numlock
  | .keyScrolllock => some .scrolllock
  | .keyCapslock => some .capslock
  | _ => none

/-- The bytes of set 1 that are no scancodes by themselves: press and release of SysRq, the escape
bytes, and the replies. -/
def markers1 : List UInt8 := [0x54, 0xd4, 0xe0, 0xe1, 0xfa, 0xfe]

/-- The codes of set 1 that are no lock key's, of known and of unknown keys. The code of an extended
key with a fake shift, and those of PrintScreen, are several of these one behind the other. -/
inductive Code1
  | key (b : { b : UInt8 // b ∉ markers1 ∧ lockOf (getKeycodeSet1 (b &&& 0x7f)) = none })
  | escaped (b : { b : UInt8 // b ∉ markers1 })
  | sysRq (released : Bool)
  | pause

/-- The bytes of a code of set 1. -/
def Code1.bytes : Code1 → List UInt8
  | .key b => [b.1]
  | .escaped b => [0xe0, b.1]
  | .sysRq released => [if released then 0xd4 else 0x54]
  | .pause => [0xe1, 0x1d, 0x45, 0xe1, 0x9d, 0xc5]

/-- Scancode set 1. -/
def set1 : ScancodeSet where
  handle := handleScancodeSet1
  Code := Code1
  bytes := Code1.bytes
  hidesLock
    | .escaped b => (lockOf (getKeycodeSet1 (b.1 &&& 0x7f))).isSome
    | _ => false
  awaited := 2
  clears := false
  makeByte
    | .numlock => 0x45
    | .scrolllock => 0x46
    | .capslock => 0x3a
  breakBytes
    | .numlock => [0xc5]
    | .scrolllock => [0xc6]
    | .capslock => [0xba]

/-- The bytes of set 2 that are no scancodes by themselves: SysRq, the escape bytes, the break byte
and the replies. -/
def markers2 : List UInt8 := [0x84, 0xe0, 0xe1, 0xf0, 0xfa, 0xfe]

/-- The codes of set 2 that are no lock key's, of known and of unknown keys. The code of an extended
key with a fake shift, and those of PrintScreen, are several of these one behind the other. -/
inductive Code2
  | key (k : { k : UInt8 // k ∉ markers2 ∧ lockOf (Set2.getKeycodeSet2 k) = none })
    (released : Bool)
  | escaped (k : { k : UInt8 // k ∉ markers2 }) (released : Bool)
  | sysRq (released : Bool)
  | pause

/-- The break byte before a scancode of set 2, if the key is released. -/
def breakByte (released : Bool) : List UInt8 := if released then [0xf0] else []

/-- The bytes of a code of set 2. -/
def Code2.bytes : Code2 → List UInt8
  | .key k released => breakByte released ++ [k.1]
  | .escaped k released => 0xe0 :: breakByte released ++ [k.1]
  | .sysRq released => breakByte released ++ [0x84]
  | .pause => [0xe1, 0x14, 0x77, 0xe1, 0xf0, 0x14, 0xf0, 0x77]

/-- Scancode set 2. -/
def set2 : ScancodeSet where
  handle := Set2.handleScancodeSet2
  Code := Code2
  bytes := Code2.bytes
  hidesLock
    | .escaped k _ => (lockOf (Set2.getKeycodeSet2 k.1)).isSome
    | _ => false
  awaited := 3
  clears := true
  makeByte
    | .numlock => 0x77
    | .scrolllock => 0x7e
    | .capslock => 0x58
  breakBytes
    | .numlock => [0xf0, 0x77]
    | .scrolllock => [0xf0, 0x7e]
    | .capslock => [0xf0, 0x58]

/-! ### Reading bytes -/

/-- A keycode that is a lock key's is the keycode of this lock. -/
theorem lockOf_eq_some {keycode : Keycode} {key : Lock} (h : lockOf keycode = some key) :
    keycode = key.keycode := by
  unfold lockOf at h
  split at h <;> simp_all <;> subst h <;> rfl

/-- No escaped scancode of set 1 has the keycode of a lock key. -/
theorem lockOf_escaped1 (c : UInt8) : lockOf (getKeycodeEscapedSet1 c) = none := by
  unfold getKeycodeEscapedSet1
  split <;> rfl

/-- No escaped scancode of set 2 has the keycode of a lock key. -/
theorem lockOf_escaped2 (c : UInt8) : lockOf (Set2.getKeycodeEscapedSet2 c) = none := by
  unfold Set2.getKeycodeEscapedSet2
  split <;> rfl

/-- The outputs that are harmless, decided: none of them toggles a lock or sends a byte. -/
def isHarmless (out : List Output) : Bool :=
  out.all fun
    | .pressed keycode => keycode ≠ .keyCapslock
    | .released keycode => keycode ≠ .keyNumlock
    | .send _ => false
    | _ => true

/-- Outputs that pass the executable check for harmless ones are harmless. -/
theorem harmless_of_isHarmless {out : List Output} (h : isHarmless out = true) : Harmless out := by
  intro o ho
  have ho' := List.all_eq_true.mp h o ho
  cases o <;> simp_all

/-- A keycode that is no lock key's is passed on or not, and the decoder is reset. -/
theorem handleKeycode_other {keycode : Keycode} (h : lockOf keycode = none) (d : Decoder)
    (c : UInt8) :
    ∃ out, handleKeycode d c keycode = (out, withFlags d (.idle false)) ∧ Harmless out := by
  have hmessage : ∃ out, message d keycode = (out, withFlags d (.idle false)) ∧ Harmless out := by
    refine ⟨_, rfl, harmless_of_isHarmless ?_⟩
    cases d.released with
    | false =>
        have hne : keycode ≠ .keyCapslock := by
          rintro rfl
          exact absurd h (by simp [lockOf])
        simp [isHarmless, hne]
    | true =>
        have hne : keycode ≠ .keyNumlock := by
          rintro rfl
          exact absurd h (by simp [lockOf])
        simp [isHarmless, hne]
  unfold handleKeycode
  split
  · exact ⟨_, rfl, harmless_of_isHarmless rfl⟩
  · exact absurd h (by simp [lockOf])
  · exact absurd h (by simp [lockOf])
  · exact absurd h (by simp [lockOf])
  · exact ⟨_, rfl, harmless_of_isHarmless rfl⟩
  · exact hmessage

/-- What a stage has come to, with the other variables of `d`. -/
def relocate (d : Decoder) : Stage Decoder → Stage Decoder
  | .error (out, e) => .error (out, withFlags d (flags e))
  | .ok e => .ok (withFlags d (flags e))

/-- A stage that looks at the flags only, so that it does the same to every decoder with these
flags. -/
def Local (stage : Decoder → Stage Decoder) : Prop :=
  ∀ d, stage d = relocate d (stage (withFlags (.start 0) (flags d)))

/-- Two stages in a row that each look at the flags only look at nothing else together. -/
theorem Local.bind {stage stage' : Decoder → Stage Decoder} (h : Local stage) (h' : Local stage') :
    Local fun d => (stage d).bind stage' := by
  intro d
  show Except.bind (stage d) stage' = relocate d (Except.bind (stage _) stage')
  rw [h d]
  cases stage (withFlags (.start 0) (flags d)) with
  | error r => rfl
  | ok e =>
      show stage' (withFlags d (flags e)) = relocate d (stage' e)
      rw [h' e, h' (withFlags d (flags e)), flags_withFlags]
      cases stage' (withFlags (.start 0) (flags e)) <;> rfl

/-- How a byte is read, from what the stages of the driver make of the flags. -/
def readWith (stages : Decoder → UInt8 → Stage Decoder) (code : UInt8 → UInt8)
    (table : Bool → UInt8 → Keycode) (f : Flags) (b : UInt8) : Reading :=
  if b = 0xfa ∨ b = 0xfe then .unexpected
  else
    match stages (withFlags (.start 0) f) b with
    | .error (out, d) => if isHarmless out then .quiet (flags d) else .unexpected
    | .ok d =>
        match lockOf (table d.escaped (code b)) with
        | some key => if flags d = .idle d.released then .lock key d.released else .unexpected
        | none => .quiet (.idle false)

/-- How a driver handles a byte: the checks for sequences, the special cases, and the keycode. -/
structure Driver (S : ScancodeSet) where
  checks : Decoder → UInt8 → Stage Decoder
  special : Decoder → UInt8 → Stage Decoder
  code : UInt8 → UInt8
  table : Bool → UInt8 → Keycode
  /-- the flags behind a reply, which breaks off the sequences -/
  interrupt : Flags → Flags
  handle_eq : ∀ d b, S.handle d b =
    match (checks d b).bind (special · b) with
    | .error result => result
    | .ok d => handleKeycode d (code b) (table d.escaped (code b))
  checks_local : ∀ b, Local (checks · b)
  special_local : ∀ b, b ≠ 0xfa → b ≠ 0xfe → Local (special · b)
  checks_reply : ∀ d b, b = 0xfa ∨ b = 0xfe → checks d b = .ok (withFlags d (interrupt (flags d)))
  special_ack : ∀ d, special d 0xfa = .error (acknowledge d)
  special_resend : ∀ d, d.resendCount ≠ 2 → special d 0xfe = .error (resend d)
  interrupt_interrupt : ∀ f, interrupt (interrupt f) = interrupt f

section Driver

variable {S : ScancodeSet} (D : Driver S)

/-- The parts of the function before the keycode. -/
def Driver.stages (d : Decoder) (b : UInt8) : Stage Decoder := (D.checks d b).bind (D.special · b)

/-- The stages of a driver look at the flags of the decoder only, but for the replies. -/
theorem Driver.stages_local {b : UInt8} (hb : ¬ (b = 0xfa ∨ b = 0xfe)) (d : Decoder) :
    D.stages d b = relocate d (D.stages (withFlags (.start 0) (flags d)) b) :=
  (D.checks_local b).bind
    (D.special_local b (fun hfa => hb (.inl hfa)) (fun hfe => hb (.inr hfe))) d

/-- The handler of a driver is its stages, followed by the lookup of the keycode where they
come to a scancode. -/
theorem Driver.handle_stages (d : Decoder) (b : UInt8) : S.handle d b =
    match D.stages d b with
    | .error result => result
    | .ok d => handleKeycode d (D.code b) (D.table d.escaped (D.code b)) :=
  D.handle_eq d b

/-- A byte that is read as a part of a code that is no lock key's. -/
theorem Driver.handle_quiet {d : Decoder} {b : UInt8} {f : Flags}
    (h : readWith D.stages D.code D.table (flags d) b = .quiet f) :
    ∃ out, S.handle d b = (out, withFlags d f) ∧ Harmless out := by
  unfold readWith at h
  split at h
  · cases h
  rename_i hb
  have hlocal := D.stages_local hb d
  split at h
  · rename_i out e hstages
    split at h
    · rename_i hharmless
      obtain rfl : flags e = f := by simpa using h
      refine ⟨out, ?_, harmless_of_isHarmless hharmless⟩
      rw [D.handle_stages, hlocal, hstages]
      rfl
    · cases h
  · rename_i e hstages
    split at h
    · split at h <;> cases h
    · rename_i hlock
      obtain rfl : .idle false = f := by simpa using h
      rw [D.handle_stages, hlocal, hstages]
      exact handleKeycode_other hlock _ _

/-- A byte that is read as a lock key's is handled as this key, pressed or released. -/
theorem Driver.handle_lock {d : Decoder} {b : UInt8} {key : Lock} {released : Bool}
    (h : readWith D.stages D.code D.table (flags d) b = .lock key released) :
    ∃ c, S.handle d b = handleKeycode (withFlags d (.idle released)) c key.keycode := by
  unfold readWith at h
  split at h
  · cases h
  rename_i hb
  have hlocal := D.stages_local hb d
  split at h
  · split at h <;> cases h
  · rename_i e hstages
    split at h
    · rename_i key' hlock
      split at h
      · rename_i hidle
        obtain ⟨rfl, rfl⟩ : key' = key ∧ e.released = released := by simpa using h
        refine ⟨D.code b, ?_⟩
        rw [D.handle_stages, hlocal, hstages]
        show handleKeycode (withFlags d (flags e)) (D.code b) (D.table e.escaped (D.code b)) = _
        rw [lockOf_eq_some hlock, hidle]
      · cases h
    · cases h

/-- How the driver reads bytes. -/
def Driver.reader : Reader S where
  read := readWith D.stages D.code D.table
  interrupt := D.interrupt
  interrupt_interrupt := D.interrupt_interrupt
  handle_ack d := by
    rw [D.handle_eq, D.checks_reply d 0xfa (.inl rfl)]
    show (match D.special _ 0xfa with
      | .error result => result
      | .ok d => _) = _
    rw [D.special_ack]
  handle_resend d hd := by
    rw [D.handle_eq, D.checks_reply d 0xfe (.inr rfl)]
    show (match D.special _ 0xfe with
      | .error result => result
      | .ok d => _) = _
    rw [D.special_resend (withFlags d (D.interrupt (flags d))) hd]
  handle_quiet _ _ _ := D.handle_quiet
  handle_lock _ _ _ _ := D.handle_lock

/-- From each of some flags, a byte is read as a part of a code whatever key it names, and some
flags are behind it. Where `plain` is not set, it names keys after an escape byte only. -/
def Driver.passes (plain : Bool) (fs : List Flags) (b : UInt8) (fs' : List Flags) : Bool :=
  fs.all fun f =>
    match D.stages (withFlags (.start 0) f) b with
    | .error (out, d) => isHarmless out && (D.reader.variants (flags d)).all (· ∈ fs')
    | .ok d => (plain || d.escaped) && (D.reader.variants (.idle false)).all (· ∈ fs')

/-- A code that passes the executable check leads to the flags of the check, if its key is no
lock key. -/
theorem Driver.leads_of_passes {plain : Bool} {fs fs' : List Flags} {b : UInt8}
    (h : D.passes plain fs b fs' = true) (hb : ¬ (b = 0xfa ∨ b = 0xfe))
    (hlock : ∀ escaped, (plain || escaped) = true → lockOf (D.table escaped (D.code b)) = none) :
    D.reader.Leads fs [b] fs' := by
  refine ⟨fs', fun f hf => ?_, fun _ hg => hg⟩
  have hall : ∀ {gs : List Flags}, gs.all (· ∈ fs') = true → gs ⊆ fs' := fun hgs g hg => by
    simpa using List.all_eq_true.mp hgs g hg
  have hpass := List.all_eq_true.mp h f hf
  show ∃ g, readWith D.stages D.code D.table f b = .quiet g ∧ D.reader.variants g ⊆ fs'
  unfold readWith
  rw [if_neg hb]
  cases hstages : D.stages (withFlags (.start 0) f) b with
  | error r =>
      simp only [hstages, Bool.and_eq_true] at hpass
      exact ⟨_, if_pos hpass.1, hall hpass.2⟩
  | ok d =>
      simp only [hstages, Bool.and_eq_true] at hpass
      exact ⟨_, by simp only [hlock _ hpass.1], hall hpass.2⟩

end Driver

/-! ### Set 1 -/

/-- The checks of `handleScancodeSet1` look at the flags only. -/
theorem checkSequences1_local (b : UInt8) : Local (PS2.checkSequences · b) := by
  have h1 : Local (PS2.checkPrintScreenPressed · b) := by
    intro d
    simp only [PS2.checkPrintScreenPressed, withFlags, flags]
    split <;> try split
    all_goals rfl
  have h2 : Local (PS2.checkPrintScreenReleased · b) := by
    intro d
    simp only [PS2.checkPrintScreenReleased, withFlags, flags]
    split <;> try split
    all_goals rfl
  have h3 : Local (PS2.checkPause · b) := by
    intro d
    simp only [PS2.checkPause, withFlags, flags]
    split <;> try split
    all_goals rfl
  exact h1.bind (h2.bind h3)

/-- The special cases of set 1, apart from the scancode that they pass on. -/
def special1 (d : Decoder) (b : UInt8) : Stage Decoder := (PS2.preprocess d b).map Prod.snd

/-- The special cases of set 1 look at the flags only, but for the replies. -/
theorem special1_local (b : UInt8) (hfa : b ≠ 0xfa) (hfe : b ≠ 0xfe) : Local (special1 · b) := by
  intro d
  simp only [special1, PS2.preprocess, if_neg hfa, if_neg hfe]
  by_cases h1 : b = 0x54
  · simp only [if_pos h1]
    rfl
  by_cases h2 : b = 0xe0
  · simp only [if_neg h1, if_pos h2]
    rfl
  by_cases h3 : b = 0xe1
  · simp only [if_neg h1, if_neg h2, if_pos h3]
    rfl
  by_cases h4 : b = 0xd4
  · simp only [if_neg h1, if_neg h2, if_neg h3, if_pos h4]
    rfl
  simp only [if_neg h1, if_neg h2, if_neg h3, if_neg h4]
  split <;> rfl

/-- An ACK is a special case of set 1, which the handshake takes. -/
theorem special1_ack (d : Decoder) : special1 d 0xfa = .error (acknowledge d) := by
  unfold special1 PS2.preprocess acknowledge
  generalize cycleLedSequence d false d.wantedLeds true = r
  obtain ⟨acked, out, d'⟩ := r
  cases acked <;> rfl

/-- The special case of a RESEND that is not the third. -/
theorem special1_resend (d : Decoder) (hd : d.resendCount ≠ 2) :
    special1 d 0xfe = .error (resend d) := by
  unfold special1 PS2.preprocess
  simp [hd, Except.map, resend]

/-- A byte whose leading bit is clear is the byte without this bit. -/
theorem and_low {b : UInt8} (hb : b &&& 0x80 = 0) : b = b &&& 0x7f := by
  have hall : b &&& 0xff = b := UInt8.and_neg_one
  have hsplit : b &&& 0xff = (b &&& 0x7f) ||| (b &&& 0x80) := by
    apply UInt8.toBitVec_inj.mp
    simp [← BitVec.and_or_distrib_left]
  rw [hb, hall, UInt8.or_zero] at hsplit
  exact hsplit

/-- The scancode that the first stage of set 1 passes on is the byte without the release
bit. -/
theorem preprocess_code {d d' : Decoder} {b c : UInt8} (h : PS2.preprocess d b = .ok (c, d')) :
    c = b &&& 0x7f := by
  have hspecial : b ∉ [0x54, 0xe0, 0xe1, 0xd4, 0xfa, (0xfe : UInt8)] := by
    intro hmem
    simp only [List.mem_cons, List.not_mem_nil, or_false] at hmem
    rcases hmem with rfl | rfl | rfl | rfl | rfl | rfl
    · cases h
    · cases h
    · cases h
    · cases h
    · have hack := special1_ack d
      rw [special1, h] at hack
      cases hack
    · by_cases hcount : d.resendCount + 1 = 3 <;> simp [PS2.preprocess, hcount] at h
  simp only [List.mem_cons, List.not_mem_nil, or_false, not_or] at hspecial
  obtain ⟨h1, h2, h3, h4, h5, h6⟩ := hspecial
  simp only [PS2.preprocess, h1, h2, h3, h4, h5, h6, if_false] at h
  split at h
  · cases h
    rfl
  · rename_i hpressed
    cases h
    exact and_low (not_ne_iff.mp hpressed)

/-- The flags behind a reply in set 1, which takes part in no sequence but breaks off two of
them. -/
def interrupt1 (f : Flags) : Flags where
  released := f.released
  escaped := f.escaped || f.printScreenPressed = 3
  printScreenPressed := if f.printScreenPressed ≤ 3 then 0 else f.printScreenPressed
  printScreenReleased := if f.printScreenReleased ≤ 3 then 0 else f.printScreenReleased
  pause := if f.pause ≤ 5 then 0 else f.pause

/-- A reply breaks off the sequences of set 1 that are being read, and is not part of them. -/
theorem checkSequences_reply1 (d : Decoder) (b : UInt8) (hb : b = 0xfa ∨ b = 0xfe) :
    PS2.checkSequences d b = .ok (withFlags d (interrupt1 (flags d))) := by
  have h1 : ∀ d, PS2.checkPrintScreenPressed d b = .ok { d with
      escaped := d.escaped || d.printScreenPressed = 3
      printScreenPressed := if d.printScreenPressed ≤ 3 then 0 else d.printScreenPressed } := by
    rintro ⟨r, e, p⟩
    rcases hb with rfl | rfl <;> rcases p with _ | _ | _ | _ | p <;>
      simp [PS2.checkPrintScreenPressed]
  have h2 : ∀ d, PS2.checkPrintScreenReleased d b = .ok { d with
      printScreenReleased := if d.printScreenReleased ≤ 3 then 0 else d.printScreenReleased } := by
    rintro ⟨r, e, q, p⟩
    rcases hb with rfl | rfl <;> rcases p with _ | _ | _ | _ | p <;>
      simp [PS2.checkPrintScreenReleased]
  have h3 : ∀ d, PS2.checkPause d b = .ok { d with
      pause := if d.pause ≤ 5 then 0 else d.pause } := by
    rintro ⟨r, e, q, u, p⟩
    rcases hb with rfl | rfl <;> rcases p with _ | _ | _ | _ | _ | _ | p <;> simp [PS2.checkPause]
  show Except.bind (PS2.checkPrintScreenPressed d b) _ = _
  rw [h1]
  show Except.bind (PS2.checkPrintScreenReleased _ b) _ = _
  rw [h2]
  exact h3 _

/-- The driver of set 1. -/
def driver1 : Driver set1 where
  checks := PS2.checkSequences
  special := special1
  code b := b &&& 0x7f
  table escaped := if escaped then getKeycodeEscapedSet1 else getKeycodeSet1
  interrupt := interrupt1
  handle_eq d b := by
    show handleScancodeSet1 d b = _
    unfold handleScancodeSet1
    cases PS2.checkSequences d b with
    | error result => rfl
    | ok d' =>
        show (match PS2.preprocess d' b with
          | .error result => result
          | .ok (c, d) => handleKeycode d c
              (if d.escaped then getKeycodeEscapedSet1 c else getKeycodeSet1 c)) =
            match (PS2.preprocess d' b).map Prod.snd with
            | .error result => result
            | .ok d => handleKeycode d (b &&& 0x7f)
                ((if d.escaped then getKeycodeEscapedSet1 else getKeycodeSet1) (b &&& 0x7f))
        cases hpre : PS2.preprocess d' b with
        | error result => rfl
        | ok r =>
            obtain ⟨c, d''⟩ := r
            obtain rfl := preprocess_code hpre
            show handleKeycode d'' _ _ = handleKeycode d'' _ _
            cases d''.escaped <;> rfl
  checks_local := checkSequences1_local
  special_local := special1_local
  checks_reply := checkSequences_reply1
  special_ack := special1_ack
  special_resend := special1_resend
  interrupt_interrupt f := by
    simp only [interrupt1, Flags.mk.injEq, true_and]
    split_ifs <;> simp_all

/-- The flags between two codes of set 1: idle, behind a release of Ctrl and PrintScreen, behind the
first half of a press of PrintScreen, and where a release of PrintScreen is taken to go on. -/
def boundary1 : List Flags :=
  [.idle false, ⟨false, true, 0, 2, 0⟩, ⟨false, true, 0, 0, 0⟩, ⟨false, false, 2, 1, 0⟩,
    ⟨false, false, 0, 2, 0⟩]

/-- A byte of its own comes in no sequence, or it is taken for a part of PrintScreen. -/
theorem passes_key1 : ∀ b : UInt8, b ∉ markers1 →
    driver1.passes true boundary1 b boundary1 = true := by
  decide +kernel

/-- A byte of its own that is no lock key's is read as a code between two codes. -/
theorem leads_key1 {b : UInt8} (hb : b ∉ markers1)
    (hlock : lockOf (getKeycodeSet1 (b &&& 0x7f)) = none) :
    driver1.reader.Leads boundary1 [b] boundary1 := by
  refine driver1.leads_of_passes (passes_key1 b hb) ?_ fun escaped _ => ?_
  · rintro (rfl | rfl) <;> simp [markers1] at hb
  · cases escaped with
    | true => exact lockOf_escaped1 _
    | false => exact hlock

/-- The flags behind an escape byte in set 1. -/
def escaped1 : List Flags :=
  [⟨false, true, 1, 1, 0⟩, ⟨false, true, 0, 3, 0⟩, ⟨false, true, 0, 0, 0⟩, ⟨false, false, 3, 1, 0⟩]

/-- The flags behind an escape byte that is taken for a part of a release of PrintScreen only. -/
def unescaped1 : List Flags := [⟨false, false, 0, 3, 0⟩, .idle false]

/-- The byte behind an escape byte names an extended key, or it is taken for a part of PrintScreen;
where the escape byte is lost, it names any key. -/
theorem passes_escaped1 : ∀ b : UInt8, b ∉ markers1 →
    driver1.passes false escaped1 b boundary1 = true ∧
      driver1.passes true (unescaped1 ++ escaped1) b boundary1 = true := by
  decide +kernel

/-- An escaped code is read as a code, unless it hides a lock key's and the escape byte is lost. -/
theorem leads_escaped1 {b : UInt8} (hb : b ∉ markers1) {f : Flags} (hf : f ∈ boundary1)
    (hhides : (lockOf (getKeycodeSet1 (b &&& 0x7f))).isSome = true → f.printScreenReleased = 2 →
      f.escaped = true) :
    driver1.reader.Leads (driver1.reader.variants f) [0xe0, b] boundary1 := by
  have hreply : ¬ (b = 0xfa ∨ b = 0xfe) := by
    rintro (rfl | rfl) <;> simp [markers1] at hb
  obtain ⟨hescaped, hany⟩ := passes_escaped1 b hb
  cases hlock : lockOf (getKeycodeSet1 (b &&& 0x7f)) with
  | none =>
      have hbefore : driver1.reader.Leads (driver1.reader.variants f) [0xe0]
          (unescaped1 ++ escaped1) := by
        apply driver1.reader.leads_sound
        clear hhides
        revert f
        decide
      refine hbefore.append _ (driver1.leads_of_passes hany hreply fun escaped _ => ?_)
      cases escaped with
      | true => exact lockOf_escaped1 _
      | false => exact hlock
  | some key =>
      have hbefore : driver1.reader.Leads (driver1.reader.variants f) [0xe0] escaped1 := by
        apply driver1.reader.leads_sound
        have hwaits : f.printScreenReleased = 2 → f.escaped = true := hhides (by simp [hlock])
        clear hhides
        revert f
        decide
      refine hbefore.append _ (driver1.leads_of_passes hescaped hreply fun escaped h => ?_)
      obtain rfl : escaped = true := by simpa using h
      exact lockOf_escaped1 _

/-- **The codes of set 1 are read as they should be.** -/
theorem faithful1 : driver1.reader.Faithful boundary1 where
  idle := by decide
  closed := by decide
  nonempty c := by
    cases c <;> exact List.cons_ne_nil _ _
  code c f hf hhides := by
    have hclosed : driver1.reader.variants f ⊆ boundary1 := by
      clear hhides
      revert f
      decide
    cases c with
    | key b => exact (leads_key1 b.2.1 b.2.2).mono _ hclosed
    | escaped b => exact leads_escaped1 b.2 hf hhides
    | sysRq released =>
        have hsysRq : driver1.reader.Leads boundary1 (Code1.bytes (.sysRq released)) boundary1 := by
          apply driver1.reader.leads_sound
          cases released <;> decide
        exact hsysRq.mono _ hclosed
    | pause =>
        have hpause : driver1.reader.Leads boundary1 (Code1.bytes .pause) boundary1 :=
          driver1.reader.leads_sound (by decide)
        exact hpause.mono _ hclosed
  make key f hf hclear := by
    revert f
    cases key <;> decide
  breaks key f hf hclear := by
    have hescaped : f.escaped = false := hclear.resolve_right fun h => Bool.false_ne_true h.1
    have hvariants : driver1.reader.variants f ⊆
        [.idle false, ⟨false, false, 2, 1, 0⟩, ⟨false, false, 0, 2, 0⟩] := by
      clear hclear
      revert f
      decide
    cases key with
    | numlock => exact ⟨[], 0xc5, _, rfl, hvariants, by decide⟩
    | scrolllock => exact ⟨[], 0xc6, _, rfl, hvariants, by decide⟩
    | capslock => exact ⟨[], 0xba, _, rfl, hvariants, by decide⟩

/-! ### Set 2 -/

/-- The checks of `handleScancodeSet2` look at the flags only. -/
theorem checkSequences2_local (b : UInt8) : Local (Set2.checkSequences · b) := by
  have h1 : Local (Set2.checkPrintScreenPressed · b) := by
    intro d
    simp only [Set2.checkPrintScreenPressed, withFlags, flags]
    split <;> try split
    all_goals rfl
  have h2 : Local (Set2.checkPrintScreenReleased · b) := by
    intro d
    simp only [Set2.checkPrintScreenReleased, withFlags, flags]
    split <;> try split
    all_goals rfl
  have h3 : Local (Set2.checkPause · b) := by
    intro d
    simp only [Set2.checkPause, withFlags, flags]
    split <;> try split
    all_goals rfl
  exact h1.bind (h2.bind h3)

/-- The special cases of set 2 look at the flags only, the replies apart. -/
theorem special2_local (b : UInt8) (hfa : b ≠ 0xfa) (hfe : b ≠ 0xfe) :
    Local (Set2.preprocess · b) := by
  intro d
  simp only [Set2.preprocess, if_neg hfa, if_neg hfe, withFlags, flags]
  split
  · rfl
  · split
    · rfl
    · split_ifs <;> rfl

/-- An ACK is a special case of set 2, which the handshake takes. -/
theorem special2_ack (d : Decoder) : Set2.preprocess d 0xfa = .error (acknowledge d) := by
  unfold Set2.preprocess acknowledge
  generalize cycleLedSequence d false d.wantedLeds true = r
  obtain ⟨acked, out, d'⟩ := r
  cases acked <;> rfl

/-- The special case of a RESEND that is not the third. -/
theorem special2_resend (d : Decoder) (hd : d.resendCount ≠ 2) :
    Set2.preprocess d 0xfe = .error (resend d) := by
  unfold Set2.preprocess
  simp [hd, resend]

/-- The flags behind a reply in set 2, which takes part in no sequence but breaks off two of
them. -/
def interrupt2 (f : Flags) : Flags where
  released := f.released && f.printScreenReleased ≠ 3
  escaped := (f.escaped || f.printScreenPressed = 1 || f.printScreenPressed = 3) &&
    f.printScreenReleased ≠ 3
  printScreenPressed := if f.printScreenPressed ≤ 3 then 0 else f.printScreenPressed
  printScreenReleased := if f.printScreenReleased ≤ 5 then 0 else f.printScreenReleased
  pause := if f.pause ≤ 7 then 0 else f.pause

/-- A reply breaks off the sequences of set 2 that are being read, and is not part of them. -/
theorem checkSequences_reply2 (d : Decoder) (b : UInt8) (hb : b = 0xfa ∨ b = 0xfe) :
    Set2.checkSequences d b = .ok (withFlags d (interrupt2 (flags d))) := by
  have h1 : ∀ d, Set2.checkPrintScreenPressed d b = .ok { d with
      escaped := d.escaped || d.printScreenPressed = 1 || d.printScreenPressed = 3
      printScreenPressed := if d.printScreenPressed ≤ 3 then 0 else d.printScreenPressed } := by
    rintro ⟨r, e, p⟩
    rcases hb with rfl | rfl <;> rcases p with _ | _ | _ | _ | p <;>
      simp [Set2.checkPrintScreenPressed]
  have h2 : ∀ d, Set2.checkPrintScreenReleased d b = .ok { d with
      released := d.released && d.printScreenReleased ≠ 3
      escaped := d.escaped && d.printScreenReleased ≠ 3
      printScreenReleased := if d.printScreenReleased ≤ 5 then 0 else d.printScreenReleased } := by
    rintro ⟨r, e, q, p⟩
    rcases hb with rfl | rfl <;> rcases p with _ | _ | _ | _ | _ | _ | p <;>
      simp [Set2.checkPrintScreenReleased]
  have h3 : ∀ d, Set2.checkPause d b = .ok { d with
      pause := if d.pause ≤ 7 then 0 else d.pause } := by
    rintro ⟨r, e, q, u, p⟩
    rcases hb with rfl | rfl <;> rcases p with _ | _ | _ | _ | _ | _ | _ | _ | p <;>
      simp [Set2.checkPause]
  show Except.bind (Set2.checkPrintScreenPressed d b) _ = _
  rw [h1]
  show Except.bind (Set2.checkPrintScreenReleased _ b) _ = _
  rw [h2]
  exact h3 _

/-- The driver of set 2. -/
def driver2 : Driver set2 where
  checks := Set2.checkSequences
  special := Set2.preprocess
  code b := b
  table escaped := if escaped then Set2.getKeycodeEscapedSet2 else Set2.getKeycodeSet2
  interrupt := interrupt2
  handle_eq d b := by
    show Set2.handleScancodeSet2 d b = _
    unfold Set2.handleScancodeSet2
    show (match (Set2.checkSequences d b).bind (Set2.preprocess · b) with
      | .error result => result
      | .ok d => handleKeycode d b
          (if d.escaped then Set2.getKeycodeEscapedSet2 b else Set2.getKeycodeSet2 b)) = _
    cases (Set2.checkSequences d b).bind (Set2.preprocess · b) with
    | error result => rfl
    | ok d' =>
        show handleKeycode d' b _ = handleKeycode d' b _
        cases d'.escaped <;> rfl
  checks_local := checkSequences2_local
  special_local := special2_local
  checks_reply := checkSequences_reply2
  special_ack := special2_ack
  special_resend := special2_resend
  interrupt_interrupt f := by
    by_cases hp : f.printScreenPressed ≤ 3 <;> by_cases hr : f.printScreenReleased ≤ 5 <;>
      by_cases hu : f.pause ≤ 7 <;> simp [interrupt2, hp, hr, hu]
    all_goals
      have hp1 : f.printScreenPressed ≠ 1 := by omega
      have hp3 : f.printScreenPressed ≠ 3 := by omega
      simp [hp1, hp3]

/-- The flags between two codes of set 2: idle, behind a release of SysRq, behind a press of
PrintScreen or its first half, and where a release of PrintScreen is taken to go on. -/
def boundary2 : List Flags :=
  [.idle false, .idle true, ⟨false, false, 0, 1, 0⟩, ⟨true, false, 0, 1, 0⟩,
    ⟨false, false, 2, 1, 0⟩, ⟨true, false, 2, 1, 0⟩, ⟨true, true, 0, 3, 0⟩, ⟨true, false, 0, 3, 0⟩]

/-- The flags behind a break byte. -/
def breaking2 : List Flags := [.idle true, ⟨true, false, 0, 2, 0⟩]

/-- A scancode of its own comes in no sequence, or it is taken for a part of PrintScreen. -/
theorem passes_key2 : ∀ k : UInt8, k ∉ markers2 →
    driver2.passes true boundary2 k boundary2 = true ∧
      driver2.passes true breaking2 k boundary2 = true := by
  decide +kernel

/-- A break byte between two codes of set 2 leads to the flags of a break code that is being
read. -/
theorem leads_break2 : driver2.reader.Leads boundary2 [0xf0] breaking2 :=
  driver2.reader.leads_sound (by decide)

/-- A scancode of its own that is no lock key's is read as a code between two codes. -/
theorem leads_key2 {k : UInt8} (hk : k ∉ markers2) (hlock : lockOf (Set2.getKeycodeSet2 k) = none)
    (released : Bool) :
    driver2.reader.Leads boundary2 (breakByte released ++ [k]) boundary2 := by
  have hreply : ¬ (k = 0xfa ∨ k = 0xfe) := by
    rintro (rfl | rfl) <;> simp [markers2] at hk
  have hnone : ∀ escaped, (true || escaped) = true →
      lockOf (driver2.table escaped (driver2.code k)) = none := by
    intro escaped _
    cases escaped with
    | true => exact lockOf_escaped2 k
    | false => exact hlock
  obtain ⟨hpress, hrelease⟩ := passes_key2 k hk
  cases released with
  | false => exact driver2.leads_of_passes hpress hreply hnone
  | true => exact leads_break2.append _ (driver2.leads_of_passes hrelease hreply hnone)

/-- The flags behind an escape byte in set 2, and behind a break byte that follows. -/
def escaped2 : Bool → List Flags
  | false =>
      [⟨false, true, 1, 1, 0⟩, ⟨true, true, 1, 1, 0⟩, ⟨false, false, 3, 1, 0⟩,
        ⟨true, false, 3, 1, 0⟩, ⟨true, true, 0, 4, 0⟩, ⟨false, true, 0, 0, 0⟩,
        ⟨true, true, 0, 0, 0⟩]
  | true => [⟨true, true, 0, 2, 0⟩, ⟨true, true, 0, 5, 0⟩, ⟨true, true, 0, 0, 0⟩]

/-- The flags behind an escape byte that is taken for a part of a release of PrintScreen only, and
behind a break byte that follows. -/
def unescaped2 : Bool → List Flags
  | false => [⟨true, false, 0, 4, 0⟩, .idle true]
  | true => [⟨true, false, 0, 5, 0⟩, .idle true]

/-- The scancode behind an escape byte names an extended key, or it is taken for a part of
PrintScreen; where the escape byte is lost, it names any key. -/
theorem passes_escaped2 : ∀ k : UInt8, k ∉ markers2 → ∀ released,
    driver2.passes false (escaped2 released) k boundary2 = true ∧
      driver2.passes true (unescaped2 released ++ escaped2 released) k boundary2 = true := by
  decide +kernel

/-- An escaped code is read as a code, unless it hides a lock key's and the escape byte is lost. -/
theorem leads_escaped2 {k : UInt8} (hk : k ∉ markers2) (released : Bool) {f : Flags}
    (hf : f ∈ boundary2)
    (hhides : (lockOf (Set2.getKeycodeSet2 k)).isSome = true → f.printScreenReleased = 3 →
      f.escaped = true) :
    driver2.reader.Leads (driver2.reader.variants f) (0xe0 :: breakByte released ++ [k])
      boundary2 := by
  have hreply : ¬ (k = 0xfa ∨ k = 0xfe) := by
    rintro (rfl | rfl) <;> simp [markers2] at hk
  obtain ⟨hescaped, hany⟩ := passes_escaped2 k hk released
  cases hlock : lockOf (Set2.getKeycodeSet2 k) with
  | none =>
      have hbefore : driver2.reader.Leads (driver2.reader.variants f)
          (0xe0 :: breakByte released) (unescaped2 released ++ escaped2 released) := by
        apply driver2.reader.leads_sound
        clear hhides hescaped hany
        revert f
        cases released <;> decide
      refine hbefore.append _ (driver2.leads_of_passes hany hreply fun escaped _ => ?_)
      cases escaped with
      | true => exact lockOf_escaped2 k
      | false => exact hlock
  | some key =>
      have hbefore : driver2.reader.Leads (driver2.reader.variants f)
          (0xe0 :: breakByte released) (escaped2 released) := by
        apply driver2.reader.leads_sound
        have hwaits : f.printScreenReleased = 3 → f.escaped = true := hhides (by simp [hlock])
        clear hhides hescaped hany
        revert f
        cases released <;> decide
      refine hbefore.append _ (driver2.leads_of_passes hescaped hreply fun escaped h => ?_)
      obtain rfl : escaped = true := by simpa using h
      exact lockOf_escaped2 k

/-- **The codes of set 2 are read as they should be.** -/
theorem faithful2 : driver2.reader.Faithful boundary2 where
  idle := by decide
  closed := by decide
  nonempty c := by
    cases c <;> simp [set2, Code2.bytes]
  code c f hf hhides := by
    have hclosed : driver2.reader.variants f ⊆ boundary2 := by
      clear hhides
      revert f
      decide
    cases c with
    | key k released => exact (leads_key2 k.2.1 k.2.2 released).mono _ hclosed
    | escaped k released => exact leads_escaped2 k.2 released hf hhides
    | sysRq released =>
        have hsysRq : driver2.reader.Leads boundary2 (breakByte released ++ [0x84]) boundary2 := by
          apply driver2.reader.leads_sound
          cases released <;> decide
        exact hsysRq.mono _ hclosed
    | pause =>
        have hpause : driver2.reader.Leads boundary2 (Code2.bytes .pause) boundary2 :=
          driver2.reader.leads_sound (by decide)
        exact hpause.mono _ hclosed
  make key f hf hclear := by
    revert f
    cases key <;> decide
  breaks key f hf hclear := by
    have hbreak : driver2.reader.Leads (driver2.reader.variants f) [0xf0] breaking2 := by
      refine leads_break2.mono _ ?_
      clear hclear
      revert f
      decide
    cases key with
    | numlock => exact ⟨[0xf0], 0x77, breaking2, rfl, hbreak, by decide⟩
    | scrolllock => exact ⟨[0xf0], 0x7e, breaking2, rfl, hbreak, by decide⟩
    | capslock => exact ⟨[0xf0], 0x58, breaking2, rfl, hbreak, by decide⟩

/-! ### Runs -/

/-- The scancode sets that the driver supports. -/
def scancodeSet : Bool → ScancodeSet
  | false => set1
  | true => set2

/-- **LEDs and locks stay in step in every orderly run**, in both scancode sets. -/
theorem leds_in_step (second : Bool) (as : List (Step (scancodeSet second))) (s : System)
    (h : Runs (fun s a s' => Orderly s a ∧ step (scancodeSet second) s a = some s') .start as s) :
    InStep s := by
  cases second with
  | false => exact inStep_of_runs faithful1 h
  | true => exact inStep_of_runs faithful2 h

/-- Behind the release of SysRq, the make code of NumLock is taken for its break code. -/
example : (Set2.feed (.start 0b010) [0x84, 0xf0, 0x84, 0x77]).1 =
    [.sysRq, .released .keyNumlock] := by
  decide

/-- The state behind a step that may happen, and the same state for any other. -/
def next (S : ScancodeSet) (s : System) (a : Step S) : System := (step S s a).getD s

/-- A step that can be taken leads to the state that `next` computes. -/
theorem step_next {S : ScancodeSet} {s : System} {a : Step S} (h : (step S s a).isSome = true) :
    step S s a = some (next S s a) := by
  obtain ⟨s', hs'⟩ := Option.isSome_iff_exists.mp h
  rw [next, hs', Option.getD_some]

/-- An orderly run of set 2: SysRq is pressed and released, A is pressed, whose code is then
taken for a release, CapsLock is pressed, the keyboard acknowledges both bytes, and CapsLock is
released. -/
theorem leds_in_step_capslock : ∃ s : System,
    Runs (fun s a s' => Orderly s a ∧ step (scancodeSet true) s a = some s') .start
      [.code (.sysRq false), .code (.sysRq true), .next, .code (.key ⟨0x1c, by decide⟩ false),
        .lockMake .capslock, .reply true, .reply true, .lockBreak .capslock, .next] s ∧
    s.keyboard.capslockOn = true ∧ InStep s := by
  have hruns : Runs (fun s a s' => Orderly s a ∧ step (scancodeSet true) s a = some s') .start
      [.code (.sysRq false), .code (.sysRq true), .next, .code (.key ⟨0x1c, by decide⟩ false),
        .lockMake .capslock, .reply true, .reply true, .lockBreak .capslock, .next]
      ([.code (.sysRq false), .code (.sysRq true), .next, .code (.key ⟨0x1c, by decide⟩ false),
        .lockMake .capslock, .reply true, .reply true, .lockBreak .capslock, .next].foldl
        (next (scancodeSet true)) .start) :=
    .snoc (.snoc (.snoc (.snoc (.snoc (.snoc (.snoc (.snoc (.snoc .nil
      ⟨fun h => absurd h (by decide), step_next (by decide)⟩)
      ⟨fun h => absurd h (by decide), step_next (by decide)⟩)
      ⟨trivial, step_next (by decide)⟩)
      ⟨fun h => absurd h (by decide), step_next (by decide)⟩)
      ⟨⟨.inl (by decide), by exact rfl⟩, step_next (by decide)⟩)
      ⟨⟨by decide, by decide⟩, step_next (by decide)⟩)
      ⟨⟨by decide, by decide⟩, step_next (by decide)⟩)
      ⟨.inl (by decide), step_next (by decide)⟩)
      ⟨trivial, step_next (by decide)⟩
  exact ⟨_, hruns, by decide, leds_in_step true _ _ hruns⟩

/-- **A LED that is on without its lock**: CapsLock is pressed, and released before the keyboard has
acknowledged both bytes. -/
theorem capslock_released_early : ∃ s : System,
    Runs (fun s a s' => step set1 s a = some s') .start
      [.lockMake .capslock, .reply true, .lockBreak .capslock, .reply true] s ∧
    s.outstanding = 0 ∧ (∀ key, s.held key = false) ∧ isOn s.decoder.leds .capslock = true ∧
    s.keyboard.capslockOn = false ∧ ¬ InStep s := by
  have hruns : Runs (fun s a s' => step set1 s a = some s') .start
      [.lockMake .capslock, .reply true, .lockBreak .capslock, .reply true]
      ([.lockMake .capslock, .reply true, .lockBreak .capslock, .reply true].foldl
        (next set1) .start) :=
    .snoc (.snoc (.snoc (.snoc .nil
      (step_next (by decide))) (step_next (by decide)))
      (step_next (by decide))) (step_next (by decide))
  refine ⟨_, hruns, by decide, ?_, by decide, by decide, ?_⟩
  · intro key
    cases key <;> decide
  · intro hstep
    have hleds := (hstep (by decide) fun key => by cases key <;> decide).1
    exact absurd hleds (by decide)

end MugOS.LockKeys
