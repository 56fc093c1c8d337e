import Mathlib.Tactic

/-!
# Programs That Read a Memory of Which Only a Part Can Be Read

A memory whose cells at some addresses can be read, while an access to any other ends the program
with an error. The footprint of a program is the set of addresses that it reads if it can read all
of them. It does what it does with the whole memory if all of its footprint can be read, and ends
with the error if not.

Addresses, values, results and errors are arbitrary.

## Main results

* `HasFootprint.bind`, `HasFootprint.stop`: the footprint of a sequence of programs.
-/

namespace MugOS

namespace Footprint

universe u

variable {ι β ε : Type*} {α γ : Type u}

/-- Reading an address of a memory of which a part can be read. -/
noncomputable def partialRead (fail : ε) (P : ι → Prop) (m : ι → β) (i : ι) : Except ε β :=
  open Classical in if P i then .ok (m i) else .error fail

/-- The program `r` has the footprint `U`, and the result `q` if it can read all of it. -/
structure HasFootprint (fail : ε) (P : ι → Prop) (U : ι → Prop) (r q : Except ε α) : Prop where
  shown : (∀ i, U i → P i) → r = q
  hidden : (¬ ∀ i, U i → P i) → r = .error fail

variable {fail : ε} {P : ι → Prop} {U W : ι → Prop}

/-- A program that reads nothing has the empty footprint. -/
theorem HasFootprint.pure (r : Except ε α) : HasFootprint fail P (fun _ => False) r r :=
  ⟨fun _ => rfl, fun h => absurd (fun _ hi => hi.elim) h⟩

/-- Reading one address has this address as its footprint. -/
theorem HasFootprint.read (m : ι → β) (i : ι) :
    HasFootprint fail P (· = i) (partialRead fail P m i) (.ok (m i)) := by
  refine ⟨?_, ?_⟩
  · intro h
    rw [partialRead, if_pos (h i rfl)]
  · intro h
    rw [partialRead, if_neg]
    exact fun hi => h fun j hj => hj ▸ hi

/-- A footprint can be replaced by any set with the same addresses. -/
theorem HasFootprint.congr {r q : Except ε α} (h : HasFootprint fail P U r q)
    (hU : ∀ i, W i ↔ U i) : HasFootprint fail P W r q := by
  obtain rfl : W = U := funext fun i => propext (hU i)
  exact h

/-- **A sequence of programs** the first of which returns. -/
theorem HasFootprint.bind {r : Except ε α} {a : α} {f : α → Except ε γ} {q : Except ε γ}
    (h : HasFootprint fail P U r (.ok a)) (h' : HasFootprint fail P W (f a) q) :
    HasFootprint fail P (fun i => U i ∨ W i) (r >>= f) q := by
  by_cases hU : ∀ i, U i → P i
  · rw [h.shown hU]
    refine ⟨fun hall => h'.shown fun i hi => hall i (.inr hi), fun hall => h'.hidden ?_⟩
    intro hW
    exact hall fun i hi => hi.elim (hU i) (hW i)
  · rw [h.hidden hU]
    refine ⟨fun hall => absurd (fun i hi => hall i (.inl hi)) hU, fun _ => rfl⟩

/-- **A sequence of programs** the first of which ends with an error: the second reads nothing. -/
theorem HasFootprint.stop {r : Except ε α} {e : ε} (f : α → Except ε γ)
    (h : HasFootprint fail P U r (.error e)) :
    HasFootprint fail P U (r >>= f) (.error e) := by
  refine ⟨?_, ?_⟩
  · intro hU
    rw [h.shown hU]
    rfl
  · intro hU
    rw [h.hidden hU]
    rfl

end Footprint

end MugOS
