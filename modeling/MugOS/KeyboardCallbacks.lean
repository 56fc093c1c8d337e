import Mathlib.Data.List.ReduceOption
import Mathlib.Data.Multiset.Filter
import MugOS.Keyboard

/-!
# The Callbacks of the Keyboard

The array `m_callbacks` of `Kernel/Drivers/Input/Keyboard.c`, over registrations, the SysRq key and
the notifications of keys. A callback is a number, and `none` is `NULL`; a callback that registers
others while it runs is left out.

Over this there is a registry without slots: a multiset of callbacks that has a capacity. Which slot
a callback is in matters for the order of the calls only.

## Main results

* `step_refines`: one event.
* `callbacks_refine`: every run tells the callbacks of the registry, each as often as it is there.
* `sysRq_controls`: the printing of keys in every run that leaves it to SysRq.
-/

namespace MugOS.Keyboard.Callbacks

/-! ### The array -/

/-- `MAX_CALLBACKS`. -/
abbrev maxCallbacks : ℕ := 16

/-- `keyCallback_printKey`, the first callback. -/
abbrev keyCallbackPrintKey : ℕ := 0

/-- `findAvailableCallbackIndex()`, with `none` for `-1`. -/
def findAvailableCallbackIndex (slots : List (Option ℕ)) : Option ℕ := slots.findIdx? (·.isNone)

/-- `Keyboard_registerKeyCallback(callback)`: stores it in the first free slot, and fails if
there is none. -/
def registerKeyCallback (slots : List (Option ℕ)) (callback : Option ℕ) :
    Bool × List (Option ℕ) :=
  match findAvailableCallbackIndex slots with
  | none => (false, slots)
  | some index => (true, slots.set index callback)

/-- `Keyboard_unregisterKeyCallback(callback)`: clears every slot with this callback. -/
def unregisterKeyCallback (slots : List (Option ℕ)) (callback : Option ℕ) : List (Option ℕ) :=
  slots.map fun c => if c = callback then none else c

/-- The loop of `executeCallbacks`: the callbacks that are called, in order. -/
def callEach (slots : List (Option ℕ)) (call : Call) : List (ℕ × Call) :=
  slots.filterMap fun c => c.map fun callback => (callback, call)

/-- The callbacks, the static variable of `Keyboard_notifySysRq`, and the other variables. -/
structure System where
  slots : List (Option ℕ)
  callbackOn : Bool
  keyboard : State

/-- `Keyboard_notifySysRq()`: switches the printing of keys off or on, by its callback. -/
def notifySysRq (s : System) : System :=
  { s with
    slots :=
      if s.callbackOn then unregisterKeyCallback s.slots (some keyCallbackPrintKey)
      else (registerKeyCallback s.slots (some keyCallbackPrintKey)).2
    callbackOn := !s.callbackOn }

/-- The system after `Keyboard_init()`. -/
def start : System where
  slots := (registerKeyCallback (List.replicate maxCallbacks none) (some keyCallbackPrintKey)).2
  callbackOn := true
  keyboard := State.start

/-- What happens: calls of other modules, and of the drivers of keyboards. -/
inductive Event
  | register (callback : Option ℕ)
  | unregister (callback : Option ℕ)
  | sysRq
  | notify (n : Notification)
  deriving DecidableEq, Repr

/-- One event: whether it is a registration that succeeds, and the callbacks that are called. -/
def step (s : System) : Event → (Bool × List (ℕ × Call)) × System
  | .register callback =>
      let (registered, slots) := registerKeyCallback s.slots callback
      ((registered, []), { s with slots := slots })
  | .unregister callback =>
      ((false, []), { s with slots := unregisterKeyCallback s.slots callback })
  | .sysRq => ((false, []), notifySysRq s)
  | .notify n =>
      let (call, keyboard) := Keyboard.notify s.keyboard n
      ((false, call.elim [] (callEach s.slots)), { s with keyboard := keyboard })

/-- Several events. -/
def steps : List Event → System → List (Bool × List (ℕ × Call)) × System
  | [], s => ([], s)
  | e :: rest, s =>
      let (out, s) := step s e
      let (outs, s) := steps rest s
      (out :: outs, s)

/-! ### The registry -/

/-- The callbacks that are registered, whether keys are printed, and the variables of the
keyboard. -/
structure Registry where
  callbacks : Multiset ℕ
  printing : Bool
  keyboard : State

/-- A callback is added if there is room, which is told; of the null callback nothing else
remains. -/
def add (callbacks : Multiset ℕ) (callback : Option ℕ) : Bool × Multiset ℕ :=
  if callbacks.card < maxCallbacks then (true, callback.elim callbacks (· ::ₘ callbacks))
  else (false, callbacks)

/-- A callback is removed, as often as it is there. -/
def remove (callbacks : Multiset ℕ) (callback : Option ℕ) : Multiset ℕ :=
  callbacks.filter fun c => some c ≠ callback

/-- One event of the registry: a notification is told to every callback. -/
def Registry.step (r : Registry) : Event → (Bool × Multiset (ℕ × Call)) × Registry
  | .register callback =>
      (((add r.callbacks callback).1, 0), { r with callbacks := (add r.callbacks callback).2 })
  | .unregister callback => ((false, 0), { r with callbacks := remove r.callbacks callback })
  | .sysRq =>
      ((false, 0),
        { r with
          callbacks :=
            if r.printing then remove r.callbacks (some keyCallbackPrintKey)
            else (add r.callbacks (some keyCallbackPrintKey)).2
          printing := !r.printing })
  | .notify n =>
      let (call, keyboard) := Keyboard.notify r.keyboard n
      ((false, call.elim 0 fun call => r.callbacks.map fun callback => (callback, call)),
        { r with keyboard := keyboard })

/-- Several events one after the other, with what each returns and tells the callbacks. -/
def Registry.steps (r : Registry) : List Event → List (Bool × Multiset (ℕ × Call)) × Registry
  | [] => ([], r)
  | e :: rest =>
      let (out, r) := r.step e
      let (outs, r) := r.steps rest
      (out :: outs, r)

/-- The registry at the start: keys are printed. -/
def Registry.start : Registry := ⟨{keyCallbackPrintKey}, true, State.start⟩

/-! ### The array refines the registry -/

/-- **The array represents a multiset of callbacks.** -/
structure Represents (slots : List (Option ℕ)) (callbacks : Multiset ℕ) : Prop where
  length_eq : slots.length = maxCallbacks
  registered : (slots.reduceOption : Multiset ℕ) = callbacks

section

variable {slots : List (Option ℕ)} {callbacks : Multiset ℕ}

/-- A slot is available exactly where fewer callbacks are registered than there are slots. -/
theorem Represents.available (h : Represents slots callbacks) :
    (findAvailableCallbackIndex slots).isSome ↔ callbacks.card < maxCallbacks := by
  rw [← h.registered, Multiset.coe_card, ← h.length_eq, List.reduceOption_length_lt_iff,
    findAvailableCallbackIndex, List.findIdx?_isSome, List.any_eq_true]
  simp

/-- A callback that is put into a slot that was available is one more of the registered
ones. -/
theorem reduceOption_set {index : ℕ} (hindex : findAvailableCallbackIndex slots = some index)
    (callback : Option ℕ) : ((slots.set index callback).reduceOption : Multiset ℕ) =
      callback.elim (slots.reduceOption : Multiset ℕ)
        (· ::ₘ (slots.reduceOption : Multiset ℕ)) := by
  obtain ⟨hlt, hnone, -⟩ := List.findIdx?_eq_some_iff_getElem.mp hindex
  have hslot : slots[index] = none := Option.isNone_iff_eq_none.mp hnone
  have hslots : slots = slots.take index ++ none :: slots.drop (index + 1) := by
    rw [← hslot, List.getElem_cons_drop, List.take_append_drop]
  have hbefore : slots.reduceOption =
      (slots.take index).reduceOption ++ (slots.drop (index + 1)).reduceOption := by
    conv_lhs => rw [hslots]
    rw [List.reduceOption_append, List.reduceOption_cons_of_none]
  rw [List.set_eq_take_append_cons_drop, if_pos hlt, List.reduceOption_append, hbefore]
  cases callback with
  | none => rw [List.reduceOption_cons_of_none, Option.elim_none]
  | some c =>
      rw [List.reduceOption_cons_of_some, Option.elim_some, Multiset.cons_coe, Multiset.coe_eq_coe]
      exact List.perm_middle

/-- **Registering**: the callback is added, or there is no room. -/
theorem Represents.register (h : Represents slots callbacks) (callback : Option ℕ) :
    (registerKeyCallback slots callback).1 = (add callbacks callback).1 ∧
      Represents (registerKeyCallback slots callback).2 (add callbacks callback).2 := by
  rw [registerKeyCallback, add]
  cases hindex : findAvailableCallbackIndex slots with
  | none =>
      have hfull : ¬ callbacks.card < maxCallbacks := by
        rw [← h.available, hindex]
        exact Bool.false_ne_true
      rw [if_neg hfull]
      exact ⟨rfl, h⟩
  | some index =>
      have hroom : callbacks.card < maxCallbacks := h.available.mp (hindex ▸ rfl)
      rw [if_pos hroom]
      refine ⟨rfl, by rw [List.length_set, h.length_eq], ?_⟩
      rw [reduceOption_set hindex, h.registered]

/-- The callbacks that are left after one is unregistered are the others, in the same order. -/
theorem reduceOption_unregister (slots : List (Option ℕ)) (callback : Option ℕ) :
    (unregisterKeyCallback slots callback).reduceOption =
      slots.reduceOption.filter fun c => some c ≠ callback := by
  induction slots with
  | nil => rfl
  | cons c rest ih =>
      rw [unregisterKeyCallback] at ih
      cases c with
      | none =>
          rw [unregisterKeyCallback, List.map_cons, ite_self, List.reduceOption_cons_of_none,
            List.reduceOption_cons_of_none, ih]
      | some c =>
          rw [unregisterKeyCallback, List.map_cons, List.reduceOption_cons_of_some]
          by_cases hc : some c = callback
          · rw [if_pos hc, List.reduceOption_cons_of_none, ih,
              List.filter_cons_of_neg (by simpa using hc)]
          · rw [if_neg hc, List.reduceOption_cons_of_some, ih,
              List.filter_cons_of_pos (by simpa using hc)]

/-- **Unregistering**: the callback is removed from every slot. -/
theorem Represents.unregister (h : Represents slots callbacks) (callback : Option ℕ) :
    Represents (unregisterKeyCallback slots callback) (remove callbacks callback) := by
  refine ⟨by rw [unregisterKeyCallback, List.length_map, h.length_eq], ?_⟩
  rw [reduceOption_unregister, remove, ← h.registered, Multiset.filter_coe]

/-- **The callbacks that are called** are those that are registered. -/
theorem Represents.called (h : Represents slots callbacks) (call : Call) :
    (callEach slots call : Multiset (ℕ × Call)) =
      callbacks.map fun callback => (callback, call) := by
  have hcalled : callEach slots call = slots.reduceOption.map fun callback => (callback, call) := by
    rw [callEach, List.reduceOption, List.map_filterMap]
    rfl
  rw [hcalled, ← h.registered, Multiset.map_coe]

end

/-- **The system refines the registry**: the slots hold its callbacks, and the switch and the
keyboard are the same. -/
structure Refines (s : System) (r : Registry) : Prop where
  slots : Represents s.slots r.callbacks
  callbackOn : s.callbackOn = r.printing
  keyboard : s.keyboard = r.keyboard

/-- What is told, without the order of the callbacks. -/
def told (out : Bool × List (ℕ × Call)) : Bool × Multiset (ℕ × Call) := (out.1, out.2)

/-- The system at the start, which prints keys, refines the registry at the start. -/
theorem start_refines : Refines start Registry.start :=
  ⟨⟨rfl, rfl⟩, rfl, rfl⟩

/-- **One event** tells the callbacks the same in the system as in the registry, and the
refinement is kept. -/
theorem step_refines {s : System} {r : Registry} (h : Refines s r) (e : Event) :
    told (step s e).1 = (r.step e).1 ∧ Refines (step s e).2 (r.step e).2 := by
  cases e with
  | register callback =>
      obtain ⟨hok, hslots⟩ := h.slots.register callback
      exact ⟨by rw [told, step, hok]; rfl, hslots, h.callbackOn, h.keyboard⟩
  | unregister callback =>
      exact ⟨rfl, h.slots.unregister callback, h.callbackOn, h.keyboard⟩
  | sysRq =>
      refine ⟨rfl, ?_, congrArg (!·) h.callbackOn, h.keyboard⟩
      simp only [step, notifySysRq, Registry.step, h.callbackOn]
      split
      · exact h.slots.unregister _
      · exact (h.slots.register _).2
  | notify n =>
      simp only [step, Registry.step, told, h.keyboard]
      refine ⟨?_, h.slots, h.callbackOn, rfl⟩
      cases (Keyboard.notify r.keyboard n).1 with
      | none => rfl
      | some call => exact congrArg (Prod.mk false) (h.slots.called call)

/-- A sequence of events tells the callbacks the same in the system as in the registry, event
by event. -/
theorem steps_refine {s : System} {r : Registry} (h : Refines s r) (es : List Event) :
    (steps es s).1.map told = (r.steps es).1 ∧ Refines (steps es s).2 (r.steps es).2 := by
  induction es generalizing s r with
  | nil => exact ⟨rfl, h⟩
  | cons e rest ih =>
      obtain ⟨htold, hnext⟩ := step_refines h e
      obtain ⟨houts, hlast⟩ := ih hnext
      exact ⟨congrArg₂ List.cons htold houts, hlast⟩

/-- **Every run refines the registry**: after `Keyboard_init`, a registration succeeds exactly where
there is room, and a notification is told to every callback as often as it is registered. -/
theorem callbacks_refine (es : List Event) :
    (steps es start).1.map told = (Registry.start.steps es).1 ∧
      Refines (steps es start).2 (Registry.start.steps es).2 :=
  steps_refine start_refines es

/-! ### Printing keys -/

/-- An event that leaves `keyCallback_printKey` to SysRq. -/
def Event.Foreign (e : Event) : Prop :=
  e ≠ .register (some keyCallbackPrintKey) ∧ e ≠ .unregister (some keyCallbackPrintKey)

/-- **Keys are printed once at most, and not where SysRq turned this off.** They may not be printed
where SysRq turned it on, as it does not look whether there is room. -/
structure Registry.Prints (r : Registry) : Prop where
  once : r.callbacks.count keyCallbackPrintKey ≤ 1
  off : r.printing = false → r.callbacks.count keyCallbackPrintKey = 0

/-- Adding another callback does not change how often the callback that prints keys is
registered. -/
theorem count_add (callbacks : Multiset ℕ) {callback : Option ℕ}
    (hne : callback ≠ some keyCallbackPrintKey) :
    (add callbacks callback).2.count keyCallbackPrintKey = callbacks.count keyCallbackPrintKey := by
  rw [add]
  split
  · cases callback with
    | none => rfl
    | some c => exact Multiset.count_cons_of_ne (fun h => hne (congrArg some h.symm)) _
  · rfl

/-- Adding the callback that prints keys registers it at most once more. -/
theorem count_add_self (callbacks : Multiset ℕ) :
    (add callbacks (some keyCallbackPrintKey)).2.count keyCallbackPrintKey ≤
      callbacks.count keyCallbackPrintKey + 1 := by
  rw [add]
  split
  · exact (Multiset.count_cons_self _ _).le
  · exact Nat.le_succ _

/-- Removing a callback takes all its registrations away and leaves those of the callback that
prints keys, if it is another one. -/
theorem count_remove (callbacks : Multiset ℕ) (callback : Option ℕ) :
    (remove callbacks callback).count keyCallbackPrintKey =
      if callback = some keyCallbackPrintKey then 0
      else callbacks.count keyCallbackPrintKey := by
  rw [remove]
  split
  case isTrue h => exact Multiset.count_filter_of_neg (by simp [h])
  case isFalse h => exact Multiset.count_filter_of_pos (Ne.symm h)

/-- **One event** that does not concern the callback that prints keys keeps them printed once
at most, and not where SysRq turned this off. -/
theorem Registry.Prints.step {r : Registry} (h : r.Prints) {e : Event} (he : e.Foreign) :
    (r.step e).2.Prints := by
  cases e with
  | register callback =>
      have hcount := count_add r.callbacks fun heq => he.1 (congrArg _ heq)
      exact ⟨hcount.trans_le h.once, fun hoff => hcount.trans (h.off hoff)⟩
  | unregister callback =>
      have hcount := count_remove r.callbacks callback
      rw [if_neg fun heq => he.2 (congrArg _ heq)] at hcount
      exact ⟨hcount.trans_le h.once, fun hoff => hcount.trans (h.off hoff)⟩
  | sysRq =>
      have hremoved := count_remove r.callbacks (some keyCallbackPrintKey)
      have hadded := count_add_self r.callbacks
      rw [if_pos rfl] at hremoved
      cases hprinting : r.printing with
      | true =>
          constructor <;> simp [Registry.step, hprinting, hremoved]
      | false =>
          rw [h.off hprinting] at hadded
          constructor
          · simpa [Registry.step, hprinting] using hadded
          · simp [Registry.step, hprinting]
  | notify n => exact ⟨h.once, h.off⟩

/-- **SysRq controls the printing of keys**: in every run that leaves the callback to it, the array
has the callback once at most, and nowhere while `callbackOn` is false. -/
theorem sysRq_controls (es : List Event) (hes : ∀ e ∈ es, e.Foreign) :
    (steps es start).2.slots.reduceOption.count keyCallbackPrintKey ≤ 1 ∧
      ((steps es start).2.callbackOn = false →
        some keyCallbackPrintKey ∉ (steps es start).2.slots) := by
  have hprints : ∀ r : Registry, r.Prints → (r.steps es).2.Prints := by
    induction es with
    | nil => exact fun _ h => h
    | cons e rest ih =>
        intro r h
        exact ih (fun e he => hes e (List.mem_cons_of_mem _ he)) _
          (h.step (hes e List.mem_cons_self))
  have hlast := hprints Registry.start ⟨le_rfl, fun h => absurd h Bool.noConfusion⟩
  have hrefines := (steps_refine start_refines es).2
  have hcount := hlast.once
  have hoff := hlast.off
  rw [← hrefines.slots.registered, Multiset.coe_count] at hcount hoff
  refine ⟨hcount, fun hcallback hmem => ?_⟩
  exact List.count_eq_zero.mp (hoff (hrefines.callbackOn ▸ hcallback))
    (List.reduceOption_mem_iff.mpr hmem)

/-- SysRq removes the callback that prints keys, sixteen others take all slots, and SysRq is pressed
again. -/
def crowded : List Event :=
  .sysRq :: (List.range maxCallbacks).map (fun k => .register (some (k + 1))) ++ [.sysRq]

/-- The statement after these events: keys are printed once at most. -/
theorem sysRq_controls_crowded :
    (steps crowded start).2.slots.reduceOption.count keyCallbackPrintKey ≤ 1 ∧
      ((steps crowded start).2.callbackOn = false →
        some keyCallbackPrintKey ∉ (steps crowded start).2.slots) := by
  refine sysRq_controls crowded ?_
  simp only [Event.Foreign]
  decide

/-- Keys are not printed then, although `callbackOn` is true: the registration failed. -/
example : (steps crowded start).2.callbackOn = true ∧
    some keyCallbackPrintKey ∉ (steps crowded start).2.slots := by
  decide +kernel

end MugOS.Keyboard.Callbacks
