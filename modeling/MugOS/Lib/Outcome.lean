import Mathlib.Tactic

/-!
# Postconditions of Computations that Can Fail

`Ends allow x P` says how a computation in `Except` may end: with a value that has the property
`P`, or with one of the errors that are admitted. Computations in sequence are treated one after
the other.

## Main results

* `Ends.bind`: the rule for a sequence.
* `Ends.range`: the rule for a loop that counts.
* `Ends.foldlM`: the rule for a loop over a list.
-/

namespace MugOS

variable {ε α β : Type} {allow : ε → Prop} {P Q : α → Prop}

/-- A computation ends with a value that has the property, or with an admitted error. -/
def Ends (allow : ε → Prop) (x : Except ε α) (P : α → Prop) : Prop :=
  match x with
  | .ok a => P a
  | .error e => allow e

@[simp] theorem ends_ok {a : α} : Ends allow (.ok a) P ↔ P a := Iff.rfl

@[simp] theorem ends_pure {a : α} : Ends allow (pure a) P ↔ P a := Iff.rfl

@[simp] theorem ends_error {e : ε} : Ends allow (.error e : Except ε α) P ↔ allow e := Iff.rfl

/-- A sequence whose first computation returns a value goes on with this value. -/
theorem ok_bind (a : α) (f : α → Except ε β) : (Except.ok a >>= f) = f a := rfl

/-- A sequence whose first computation ends with an error. -/
theorem error_bind (e : ε) (f : α → Except ε β) : (Except.error e >>= f) = Except.error e := rfl

/-- If two computations agree up to a function of their values and one of them returns, then so
does the other. -/
theorem exists_ok_of_map_eq {γ : Type} {f : α → γ} {x y : Except ε α} {a : α}
    (h : x.map f = y.map f) (hx : x = .ok a) : ∃ b, y = .ok b ∧ f a = f b := by
  subst hx
  cases y with
  | error e => exact absurd h (by simp [Except.map])
  | ok b => exact ⟨b, rfl, Except.ok.inj h⟩

/-- A computation whose value is known ends well if the value has the property. -/
theorem Ends.of_eq {x : Except ε α} {a : α} (hx : x = .ok a) (ha : P a) : Ends allow x P :=
  hx ▸ ha

/-- If a computation that ends well returns a value, this value has the property. -/
theorem Ends.value {x : Except ε α} (h : Ends allow x P) {a : α} (hx : x = .ok a) : P a := by
  rw [hx] at h
  exact h

/-- A computation that ends well does so for a weaker property too. -/
theorem Ends.mono {x : Except ε α} (h : Ends allow x P) (hPQ : ∀ a, P a → Q a) :
    Ends allow x Q := by
  cases x with
  | ok a => exact hPQ a h
  | error e => exact h

/-- A computation that ends well does so when more errors are admitted too. -/
theorem Ends.mono_errors {allow' : ε → Prop} {x : Except ε α} (h : Ends allow x P)
    (hallow : ∀ e, allow e → allow' e) : Ends allow' x P := by
  cases x with
  | ok a => exact h
  | error e => exact hallow e h

/-- **The rule for a sequence**: what the first computation guarantees is what the second one
starts from. -/
theorem Ends.bind {R : β → Prop} {x : Except ε α} {f : α → Except ε β} (h : Ends allow x P)
    (hf : ∀ a, P a → Ends allow (f a) R) : Ends allow (x >>= f) R := by
  cases x with
  | ok a => exact hf a h
  | error e => exact h

/-- **The rule for a loop that counts**: what each pass makes of its index holds in the end of the
number of passes. -/
theorem Ends.range {I : ℕ → α → Prop} {f : α → ℕ → Except ε α} {a : α} (n : ℕ) (h : I 0 a)
    (hpass : ∀ i < n, ∀ b, I i b → Ends allow (f b i) (I (i + 1))) :
    Ends allow ((List.range n).foldlM f a) (I n) := by
  induction n with
  | zero => exact h
  | succ n ih =>
      rw [List.range_succ, List.foldlM_append]
      have hfirst := ih fun i hi => hpass i (Nat.lt_succ_of_lt hi)
      refine hfirst.bind fun b hb => ?_
      rw [List.foldlM_cons]
      exact (hpass n (Nat.lt_succ_self n) b hb).bind fun c hc => hc

/-- **The rule for a loop over a list**: what each pass keeps holds in the end. -/
theorem Ends.foldlM {f : α → β → Except ε α} {a : α} (xs : List β) (h : P a)
    (hpass : ∀ x ∈ xs, ∀ b, P b → Ends allow (f b x) P) : Ends allow (xs.foldlM f a) P := by
  induction xs generalizing a with
  | nil => exact h
  | cons x xs ih =>
      rw [List.foldlM_cons]
      refine (hpass x List.mem_cons_self a h).bind fun b hb => ?_
      exact ih hb fun y hy => hpass y (List.mem_cons_of_mem x hy)

/-- A computation that returns when no error is admitted. -/
theorem Ends.returns {x : Except ε α} (h : Ends (fun _ => False) x P) : ∃ a, x = .ok a ∧ P a := by
  cases x with
  | ok a => exact ⟨a, rfl, h⟩
  | error e => exact h.elim

end MugOS
