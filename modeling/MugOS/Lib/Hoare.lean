import MugOS.Lib.Outcome

/-!
# Postconditions of Computations with a State

A computation in `StateT σ (Except ε)` reads and writes a state and may end with an error.
`Ensures allow P m Q` says that from every state with `P` it ends with a value and a state that have
`Q`, or with an admitted error.

## Main results

* `Ensures.bind`, `Ensures.ite`: the rules for sequences and for branches.
* `Ensures.keeps_bind`: the rule for a sequence of computations that keep an invariant.
-/

namespace MugOS

variable {σ ε α β : Type} {allow : ε → Prop} {P P' : σ → Prop} {Q Q' : α → σ → Prop}

/-- From every state with the first property, the computation ends with the other one, or with an
admitted error. -/
def Ensures (allow : ε → Prop) (P : σ → Prop) (m : StateT σ (Except ε) α) (Q : α → σ → Prop) :
    Prop :=
  ∀ s, P s → Ends allow (m s) fun r => Q r.1 r.2

/-- A value that is computed from nothing ensures what already holds of it before. -/
theorem Ensures.pure {a : α} (h : ∀ s, P s → Q a s) :
    Ensures allow P (pure a : StateT σ (Except ε) α) Q :=
  fun s hs => h s hs

/-- **The rule for a sequence**: what the first part ensures is the precondition of the second
one. -/
theorem Ensures.bind {R : β → σ → Prop} {m : StateT σ (Except ε) α}
    {f : α → StateT σ (Except ε) β} (h : Ensures allow P m Q)
    (hf : ∀ a, Ensures allow (Q a) (f a) R) : Ensures allow P (m >>= f) R :=
  fun s hs => (h s hs).bind fun r hr => hf r.1 r.2 hr

/-- **The rule for a branch**: both branches ensure the postcondition, each under its own
condition. -/
theorem Ensures.ite {b : Prop} [Decidable b] {m n : StateT σ (Except ε) α}
    (hm : b → Ensures allow P m Q) (hn : ¬ b → Ensures allow P n Q) :
    Ensures allow P (if b then m else n) Q := by
  split_ifs with hb
  · exact hm hb
  · exact hn hb

/-- A computation may be given a stronger precondition and a weaker postcondition. -/
theorem Ensures.mono {m : StateT σ (Except ε) α} (h : Ensures allow P m Q) (hP : ∀ s, P' s → P s)
    (hQ : ∀ a s, Q a s → Q' a s) : Ensures allow P' m Q' :=
  fun s hs => (h s (hP s hs)).mono fun r hr => hQ r.1 r.2 hr

/-- A fact that does not depend on the state is a hypothesis. -/
theorem Ensures.assume {p : Prop} {m : StateT σ (Except ε) α} (h : p → Ensures allow P m Q) :
    Ensures allow (fun s => P s ∧ p) m Q :=
  fun s hs => h hs.2 s hs.1

/-- **The rule for a sequence that keeps an invariant.** -/
theorem Ensures.keeps_bind {m : StateT σ (Except ε) α} {f : α → StateT σ (Except ε) β}
    (h : Ensures allow P m fun _ => P) (hf : ∀ a, Ensures allow P (f a) fun _ => P) :
    Ensures allow P (m >>= f) fun _ => P :=
  h.bind hf

/-- A computation that ends with an admitted error ensures everything. -/
theorem Ensures.error {e : ε} (he : allow e) :
    Ensures allow P (fun _ => .error e : StateT σ (Except ε) α) Q :=
  fun _ _ => he

/-- Looking at the state returns it, and the precondition still holds. -/
theorem Ensures.get : Ensures allow P (get : StateT σ (Except ε) σ) fun a s => a = s ∧ P s :=
  fun _ hs => ⟨rfl, hs⟩

/-- Changing the state ensures what holds of every changed state. -/
theorem Ensures.modify {f : σ → σ} {Q : Unit → σ → Prop} (h : ∀ s, P s → Q () (f s)) :
    Ensures allow P (modify f : StateT σ (Except ε) Unit) Q :=
  fun s hs => h s hs

end MugOS
