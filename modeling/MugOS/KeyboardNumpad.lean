import MugOS.Keyboard

/-!
# The Numeric Pad

The keys of the numeric pad stand for digits or for functions, depending on Shift, Ctrl and NumLock.
A key that was pressed as a function is remembered, so that its release is reported as the same
function. But the release of a key that was pressed as a digit is reported as a function if NumLock
has been switched off meanwhile.

## Main results

* `reported_pressed`, `reported_released`: what the callbacks are told.
* `Stroke.wasFunction`: what is remembered at a release is how the key was pressed.
* `numpad_matches_iff`: releases are reported as their presses were exactly when NumLock is on at
  the release of every key that was pressed as a digit, the key 5 excepted.
-/

namespace MugOS.Keyboard

open PS2

/-! ### Single notifications -/

/-- The key with an index in `m_numlockKeyWasFunction`. -/
def numpadKey : ℕ → Keycode
  | 0 => .keyNumpad7
  | 1 => .keyNumpad8
  | 2 => .keyNumpad9
  | 3 => .keyNumpad4
  | 4 => .keyNumpad5
  | 5 => .keyNumpad6
  | 6 => .keyNumpad1
  | 7 => .keyNumpad2
  | 8 => .keyNumpad3
  | 9 => .keyNumpad0
  | _ => .keyNumpadDot

/-- The index of a key of the numeric pad is the index of this key alone. -/
theorem eq_numpadKey {keycode : Keycode} {i : ℕ} (h : numpadIndex keycode = some i) :
    keycode = numpadKey i := by
  unfold numpadIndex at h
  split at h <;> simp_all <;> subst h <;> rfl

/-- The function of a key of the numeric pad is another keycode than the key's own. -/
theorem getNumpadKeyNoNumluck_ne {keycode : Keycode} {i : ℕ} (h : numpadIndex keycode = some i) :
    getNumpadKeyNoNumluck keycode ≠ keycode := by
  unfold numpadIndex at h
  split at h <;> simp_all [getNumpadKeyNoNumluck]

/-- The keys of the numeric pad are no modifiers or locks. -/
theorem pressKey_numpad {keycode : Keycode} {i : ℕ} (h : numpadIndex keycode = some i) (s : State) :
    (pressKey s keycode).functionMode = s.functionMode := by
  unfold numpadIndex at h
  split at h <;> simp_all [pressKey, setModifier, State.updateModifiers, State.functionMode]

/-- The keys of the numeric pad are no modifiers or locks. -/
theorem releaseKey_numpad {keycode : Keycode} {i : ℕ} (h : numpadIndex keycode = some i)
    (s : State) : (releaseKey s keycode).numlockOn = s.numlockOn := by
  unfold numpadIndex at h
  split at h <;> simp_all [releaseKey, setModifier, State.updateModifiers]

/-- The switches over modifiers do not touch what is remembered of the numeric pad. -/
theorem setModifier_wasFunction (s : State) (keycode : Keycode) (down : Bool) :
    (setModifier s keycode down).wasFunction = s.wasFunction := by
  unfold setModifier
  split <;> rfl

/-- The part of the press before the numeric pad does not change what is remembered. -/
theorem pressKey_wasFunction (s : State) (keycode : Keycode) :
    (pressKey s keycode).wasFunction = s.wasFunction := by
  unfold pressKey
  split <;> exact setModifier_wasFunction s keycode true

/-- The part of the release before the numeric pad does not change what is remembered. -/
theorem releaseKey_wasFunction (s : State) (keycode : Keycode) :
    (releaseKey s keycode).wasFunction = s.wasFunction := by
  unfold releaseKey
  split <;> exact setModifier_wasFunction s keycode false

/-- The keycode that the callbacks are told, if they are called. -/
def reported (s : State) (n : Notification) : Option Keycode := (notify s n).1.map Call.keycode

/-- **A press**: of the numeric pad the key or its function is reported. -/
theorem reported_pressed {keycode : Keycode} {i : ℕ} (h : numpadIndex keycode = some i)
    (s : State) :
    reported s (.pressed keycode) =
      if s.functionMode then
        if keycode = .keyNumpad5 then none else some (getNumpadKeyNoNumluck keycode)
      else some keycode := by
  simp only [reported, notify, notifyPressed, h, pressKey_numpad h]
  split
  · split <;> rfl
  · rfl

/-- **A release**: of the numeric pad the key or its function is reported. -/
theorem reported_released {keycode : Keycode} {i : ℕ} (h : numpadIndex keycode = some i)
    (s : State) : reported s (.released keycode) =
      if keycode = .keyNumpad5 then if s.wasFunction i then none else some keycode
      else if s.wasFunction i || !s.numlockOn then some (getNumpadKeyNoNumluck keycode)
      else some keycode := by
  simp only [reported, notify, notifyReleased, h, releaseKey_numpad h, releaseKey_wasFunction]
  split
  · split <;> rfl
  · split <;> rfl

/-- After a press, its key of the numeric pad is remembered as a function if NumLock was off,
and others are as before. -/
theorem wasFunction_pressed (s : State) (keycode : Keycode) (j : ℕ) :
    (notify s (.pressed keycode)).2.wasFunction j =
      if numpadIndex keycode = some j then s.wasFunction j || s.functionMode
      else s.wasFunction j := by
  simp only [notify, notifyPressed]
  cases h : numpadIndex keycode with
  | none => simp [pressKey_wasFunction]
  | some i =>
      simp only [pressKey_numpad h, Option.some.injEq]
      by_cases hmode : s.functionMode = true
      · have hset : ((pressKey s keycode).setFunction i true).wasFunction j =
            if i = j then s.wasFunction j || s.functionMode else s.wasFunction j := by
          simp only [State.setFunction, pressKey_wasFunction, Function.update_apply, hmode,
            eq_comm (a := j), Bool.or_true]
        simp only [hmode, if_true] at hset ⊢
        split <;> exact hset
      · have hkeep : (if i = j then s.wasFunction j || s.functionMode else s.wasFunction j) =
            s.wasFunction j := by
          rw [Bool.eq_false_of_not_eq_true hmode, Bool.or_false, ite_self]
        rw [hkeep, if_neg hmode]
        exact congrFun (pressKey_wasFunction s keycode) j

/-- After a release, its key of the numeric pad is not remembered as a function, and others are
as before. -/
theorem wasFunction_released (s : State) (keycode : Keycode) (j : ℕ) :
    (notify s (.released keycode)).2.wasFunction j =
      if numpadIndex keycode = some j then false else s.wasFunction j := by
  simp only [notify, notifyReleased]
  cases h : numpadIndex keycode with
  | none => simp [releaseKey_wasFunction]
  | some i =>
      have hclear : ((releaseKey s keycode).setFunction i false).wasFunction j =
          if some i = some j then false else s.wasFunction j := by
        simp only [State.setFunction, releaseKey_wasFunction, Function.update_apply,
          Option.some.injEq, eq_comm (a := j)]
      have hkeep : s.wasFunction i = false →
          (releaseKey s keycode).wasFunction j =
            if some i = some j then false else s.wasFunction j := by
        intro hfalse
        rw [releaseKey_wasFunction]
        split
        · rename_i hij
          rw [← Option.some.inj hij, hfalse]
        · rfl
      simp only [releaseKey_wasFunction]
      split
      · split
        · exact hclear
        · exact hkeep (by simp_all)
      · split
        · exact hclear
        · exact hkeep (by simp_all)

/-- What is remembered of a key does not change with other keys. -/
theorem wasFunction_other {s : State} {n : Notification} {i : ℕ}
    (h : numpadIndex n.keycode ≠ some i) : (notify s n).2.wasFunction i = s.wasFunction i := by
  cases n with
  | pressed k => exact (wasFunction_pressed s k i).trans (if_neg h)
  | released k => exact (wasFunction_released s k i).trans (if_neg h)

/-! ### Sequences of notifications -/

/-- A key of the numeric pad that is remembered as a function is one that is held. -/
theorem held_of_wasFunction (ns : List Notification) {keycode : Keycode} {i : ℕ}
    (hindex : numpadIndex keycode = some i) (h : (after ns).wasFunction i = true) :
    held ns keycode = true := by
  induction ns using List.reverseRecOn with
  | nil => exact absurd h (by simp [after, State.start, init])
  | append_singleton ns n ih =>
      rw [after_append] at h
      rw [held_append, Function.update_apply]
      by_cases hn : numpadIndex n.keycode = some i
      · rw [if_pos ((eq_numpadKey hindex).trans (eq_numpadKey hn).symm)]
        cases n with
        | pressed k => rfl
        | released k =>
            have hclear := (wasFunction_released (after ns) k i).trans (if_pos hn)
            exact absurd (hclear.symm.trans h) Bool.false_ne_true
      · rw [wasFunction_other hn] at h
        rw [if_neg (fun heq => hn (by rw [← heq, hindex])), ih h]

/-- What is remembered of a key does not change between its notifications. -/
theorem wasFunction_between (ns : List Notification) {keycode : Keycode} {i : ℕ}
    (hindex : numpadIndex keycode = some i) {between : List Notification}
    (hnone : ∀ n ∈ between, n.keycode ≠ keycode) :
    (after (ns ++ between)).wasFunction i = (after ns).wasFunction i := by
  induction between using List.reverseRecOn with
  | nil => rw [List.append_nil]
  | append_singleton between n ih =>
      have hother : numpadIndex n.keycode ≠ some i := fun hn =>
        hnone n (by simp) ((eq_numpadKey hn).trans (eq_numpadKey hindex).symm)
      rw [← List.append_assoc, after_append, wasFunction_other hother,
        ih fun n hn => hnone n (by simp [hn])]

/-- Presses and releases of every key alternate, and the first is a press. -/
def Alternates (ns : List Notification) : Prop :=
  ∀ before n rest, ns = before ++ n :: rest → held before n.keycode = !n.down

/-- A key of the numeric pad is pressed after `before`, and its next notification is the release
behind `between`. -/
structure Stroke (ns before between : List Notification) (keycode : Keycode) : Prop where
  split : ∃ rest, ns = before ++ .pressed keycode :: (between ++ .released keycode :: rest)
  numpad : numpadIndex keycode ≠ none
  none_between : ∀ n ∈ between, n.keycode ≠ keycode

/-- **Releases are reported as their presses were**, and not at all if these were not. -/
def NumpadMatches (ns : List Notification) : Prop :=
  ∀ before between keycode, Stroke ns before between keycode →
    reported (after (before ++ .pressed keycode :: between)) (.released keycode) =
      reported (after before) (.pressed keycode)

/-- No key of the numeric pad is pressed as a digit and released with NumLock off, the key 5
excepted. -/
def DigitsKept (ns : List Notification) : Prop :=
  ∀ before between keycode, Stroke ns before between keycode → keycode ≠ .keyNumpad5 →
    (after before).functionMode = false →
    (after (before ++ .pressed keycode :: between)).numlockOn = true

/-- **What is remembered at a release** is how the key was pressed. -/
theorem Stroke.wasFunction {ns before between : List Notification} {keycode : Keycode}
    (h : Stroke ns before between keycode) (halt : Alternates ns) {i : ℕ}
    (hindex : numpadIndex keycode = some i) :
    (after (before ++ .pressed keycode :: between)).wasFunction i =
      (after before).functionMode := by
  obtain ⟨rest, hsplit⟩ := h.split
  have hup : (after before).wasFunction i = false := by
    by_contra hset
    have hheld := held_of_wasFunction before hindex (by simpa using hset)
    have halternate := halt before (.pressed keycode) _ hsplit
    rw [Notification.keycode, hheld] at halternate
    exact absurd halternate (by simp [Notification.down])
  have happend : before ++ .pressed keycode :: between =
      (before ++ [.pressed keycode]) ++ between := by simp
  rw [happend, wasFunction_between _ hindex h.none_between, after_append, wasFunction_pressed,
    if_pos hindex, hup, Bool.false_or]

/-- **The release of a key matches its press** unless it was pressed as a digit and NumLock is off
now, the key 5 excepted. -/
theorem Stroke.matches_iff {ns before between : List Notification} {keycode : Keycode}
    (h : Stroke ns before between keycode) (halt : Alternates ns) :
    reported (after (before ++ .pressed keycode :: between)) (.released keycode) =
        reported (after before) (.pressed keycode) ↔
      (keycode ≠ .keyNumpad5 → (after before).functionMode = false →
        (after (before ++ .pressed keycode :: between)).numlockOn = true) := by
  obtain ⟨i, hindex⟩ := Option.ne_none_iff_exists'.mp h.numpad
  rw [reported_pressed hindex, reported_released hindex, h.wasFunction halt hindex]
  have hne := getNumpadKeyNoNumluck_ne hindex
  by_cases hfive : keycode = .keyNumpad5
  · simp [hfive]
  · cases (after before).functionMode with
    | true => simp [hfive]
    | false =>
        cases (after (before ++ .pressed keycode :: between)).numlockOn with
        | true => simp [hfive]
        | false => simp [hfive, hne]

/-- **Releases of the numeric pad are reported as their presses were exactly when no key is pressed
as a digit and released with NumLock off**, the key 5 excepted. -/
theorem numpad_matches_iff (ns : List Notification) (h : Alternates ns) :
    NumpadMatches ns ↔ DigitsKept ns :=
  forall_congr' fun _ => forall_congr' fun _ => forall_congr' fun _ =>
    forall_congr' fun hstroke => hstroke.matches_iff h

/-- NumLock is pressed and released while the key 7 is held. -/
def numlockDuringSeven : List Notification :=
  [.pressed .keyNumpad7, .pressed .keyNumlock, .released .keyNumlock, .released .keyNumpad7]

/-- In the run with NumLock pressed during the key 7, the notifications of every key
alternate. -/
theorem alternates_numlockDuringSeven : Alternates numlockDuringSeven := by
  rintro (_ | ⟨a, _ | ⟨b, _ | ⟨c, _ | ⟨d, before⟩⟩⟩⟩) n rest hsplit
  all_goals
    simp only [numlockDuringSeven, List.cons_append, List.nil_append, List.cons.injEq] at hsplit
  · obtain ⟨rfl, -⟩ := hsplit
    decide +kernel
  · obtain ⟨rfl, rfl, -⟩ := hsplit
    decide +kernel
  · obtain ⟨rfl, rfl, rfl, -⟩ := hsplit
    decide +kernel
  · obtain ⟨rfl, rfl, rfl, rfl, -⟩ := hsplit
    decide +kernel
  · simp at hsplit

/-- The run has a stroke of the key 7 of the numeric pad, with NumLock pressed and released in
it. -/
theorem stroke_numlockDuringSeven : Stroke numlockDuringSeven []
    [.pressed .keyNumlock, .released .keyNumlock] .keyNumpad7 :=
  ⟨⟨[], rfl⟩, by simp [numpadIndex], by simp [Notification.keycode]⟩

/-- The equivalence, at NumLock being pressed and released while the key 7 is held. -/
theorem numpad_matches_numlock : Alternates numlockDuringSeven ∧
    (NumpadMatches numlockDuringSeven ↔ DigitsKept numlockDuringSeven) :=
  ⟨alternates_numlockDuringSeven, numpad_matches_iff _ alternates_numlockDuringSeven⟩

/-- **A digit that is released as a function**: the key 7 is pressed with NumLock on, NumLock is
pressed and released, and the key 7 is released. -/
theorem numlock_during_seven :
    Alternates numlockDuringSeven ∧
      reported (after []) (.pressed .keyNumpad7) = some .keyNumpad7 ∧
      reported (after [.pressed .keyNumpad7, .pressed .keyNumlock, .released .keyNumlock])
        (.released .keyNumpad7) = some .keyHome ∧
      ¬ NumpadMatches numlockDuringSeven := by
  have hpress : reported (after []) (.pressed .keyNumpad7) = some .keyNumpad7 := by decide +kernel
  have hrelease : reported (after [.pressed .keyNumpad7, .pressed .keyNumlock,
      .released .keyNumlock]) (.released .keyNumpad7) = some .keyHome := by
    decide +kernel
  refine ⟨alternates_numlockDuringSeven, hpress, hrelease, fun hmatches => ?_⟩
  have heq := hmatches _ _ _ stroke_numlockDuringSeven
  rw [hpress] at heq
  exact absurd (hrelease.symm.trans heq) (by decide)

end MugOS.Keyboard
