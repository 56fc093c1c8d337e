import Mathlib.Tactic

/-!
# Copying Cells One After the Other

A loop that copies cells of a memory to other cells of it, in some order. If no cell is read after
it was written, then every target has what its source had at the start, although sources and
targets may overlap.

Addresses, values and the indices of the copies are arbitrary.

## Main results

* `copyEach_other`: the cells that are no targets.
* `copyEach_copied`: the targets.
-/

namespace MugOS

namespace Copying

variable {ι α β : Type*} [DecidableEq α] {target source : ι → α}

/-- The copies with the given indices, in the order of the list. -/
def copyEach (target source : ι → α) (m : α → β) (is : List ι) : α → β :=
  is.foldl (fun m i => Function.update m (target i) (m (source i))) m

/-- Cells that are the target of no copy stay as they are. -/
theorem copyEach_other (m : α → β) {is : List ι} {a : α} (ha : ∀ i ∈ is, target i ≠ a) :
    copyEach target source m is a = m a := by
  induction is generalizing m with
  | nil => rfl
  | cons i is ih =>
      have hhead : target i ≠ a := ha i List.mem_cons_self
      rw [copyEach, List.foldl_cons, ← copyEach, ih _ fun j hj => ha j (List.mem_cons_of_mem _ hj),
        Function.update_of_ne hhead.symm]

/-- **The targets have what the sources had**, if no cell is read or written again after it was
written. -/
theorem copyEach_copied (m : α → β) {is : List ι}
    (horder : is.Pairwise fun i j => target i ≠ source j ∧ target j ≠ target i) {i : ι}
    (hi : i ∈ is) : copyEach target source m is (target i) = m (source i) := by
  induction is generalizing m with
  | nil => cases hi
  | cons k is ih =>
      obtain ⟨hfirst, hothers⟩ := List.pairwise_cons.mp horder
      rw [copyEach, List.foldl_cons, ← copyEach]
      rcases List.mem_cons.mp hi with rfl | hi
      · rw [copyEach_other _ fun j hj => (hfirst j hj).2, Function.update_self]
      · rw [ih _ hothers hi, Function.update_of_ne (hfirst i hi).1.symm]

end Copying

end MugOS
