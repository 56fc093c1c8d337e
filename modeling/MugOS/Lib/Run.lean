import Mathlib.Tactic

/-!
# Runs of a Labelled Transition System

A component is given by a step relation `step : σ → κ → σ → Prop`: from a state, under a
call, to the next state. `Runs step s cs t` says that the calls `cs` lead from `s` to
`t`. What one step preserves, every run preserves.

## Main results

* `Runs.invariant`: the induction over runs, done once.
* `Runs.unique`: when a step has one outcome, so has a run.
* `Runs.initial`: a run has a state after each of its first calls.
* `iterate_mem`: a function that is iterated leaves a finite set soon or never.
-/

namespace MugOS

variable {σ κ : Type*}

/-- The calls `cs` lead from one state to another, the last call at the end. -/
inductive Runs (step : σ → κ → σ → Prop) (s : σ) : List κ → σ → Prop
  | nil : Runs step s [] s
  | snoc {cs : List κ} {t u : σ} {c : κ} :
      Runs step s cs t → step t c u → Runs step s (cs ++ [c]) u

/-- **The invariant rule**: what holds at the start and is preserved by every step holds
after every run. -/
theorem Runs.invariant {step : σ → κ → σ → Prop} {I : σ → Prop} {s t : σ} {cs : List κ}
    (h : Runs step s cs t) (hs : I s)
    (hstep : ∀ t c u, I t → step t c u → I u) : I t := by
  induction h with
  | nil => exact hs
  | snoc _ hlast ih => exact hstep _ _ _ ih hlast

/-- A run of one step relation is a run of any relation that has all of its steps. -/
theorem Runs.mono {step step' : σ → κ → σ → Prop} {s t : σ} {cs : List κ}
    (h : Runs step s cs t) (hstep : ∀ t c u, step t c u → step' t c u) : Runs step' s cs t := by
  induction h with
  | nil => exact .nil
  | snoc _ hlast ih => exact .snoc ih (hstep _ _ _ hlast)

/-- A run with one more call is a run followed by one step with this call. -/
theorem Runs.snoc_iff {step : σ → κ → σ → Prop} {s u : σ} {cs : List κ} {c : κ} :
    Runs step s (cs ++ [c]) u ↔ ∃ t, Runs step s cs t ∧ step t c u := by
  constructor
  · intro h
    generalize hcs : cs ++ [c] = cs' at h
    cases h with
    | nil => exact absurd hcs (by simp)
    | snoc hrun hlast =>
        obtain ⟨rfl, hc⟩ := List.append_inj' hcs rfl
        obtain rfl := List.singleton_inj.mp hc
        exact ⟨_, hrun, hlast⟩
  · rintro ⟨t, hrun, hlast⟩
    exact .snoc hrun hlast

/-- **Runs of steps with one outcome** have one outcome. -/
theorem Runs.unique {step : σ → κ → σ → Prop}
    (hstep : ∀ t c u u', step t c u → step t c u' → u = u') {s t t' : σ} {cs : List κ}
    (h : Runs step s cs t) (h' : Runs step s cs t') : t = t' := by
  induction h generalizing t' with
  | nil =>
      generalize hcs : ([] : List κ) = cs at h'
      cases h' with
      | nil => rfl
      | snoc => exact absurd hcs (by simp)
  | snoc _ hlast ih =>
      obtain ⟨v, hv, hlast'⟩ := Runs.snoc_iff.mp h'
      obtain rfl := ih hv
      exact hstep _ _ _ _ hlast hlast'

/-- A run passes through a state after each of its first calls. -/
theorem Runs.initial {step : σ → κ → σ → Prop} {s t : σ} {cs₁ cs₂ : List κ}
    (h : Runs step s (cs₁ ++ cs₂) t) : ∃ u, Runs step s cs₁ u := by
  induction cs₂ using List.reverseRecOn generalizing t with
  | nil => exact ⟨t, by simpa using h⟩
  | append_singleton cs c ih =>
      rw [← List.append_assoc] at h
      obtain ⟨u, hu, -⟩ := Runs.snoc_iff.mp h
      exact ih hu

/-! ### Iterating a function -/

/-- **A function that is iterated** stays in a finite set forever if it does so for as many steps as
the set has elements. -/
theorem iterate_mem {f : σ → σ} {S : Finset σ} {x : σ} (h : ∀ k ≤ S.card, f^[k] x ∈ S) (k : ℕ) :
    f^[k] x ∈ S := by
  classical
  by_contra hout
  have hex : ∃ n, f^[n] x ∉ S := ⟨k, hout⟩
  obtain ⟨n, hn, hfirst⟩ : ∃ n, f^[n] x ∉ S ∧ ∀ m < n, f^[m] x ∈ S :=
    ⟨Nat.find hex, Nat.find_spec hex, fun m hm => not_not.mp (Nat.find_min hex hm)⟩
  have hcard : S.card < (Finset.range n).card := by
    rw [Finset.card_range]
    by_contra hle
    exact hn (h n (by omega))
  -- Two of the elements before the first one outside are the same: it is reached before.
  have hrepeat : ∀ i j, i < j → j < n → f^[i] x ≠ f^[j] x := by
    intro i j hij hj heq
    refine hn ?_
    have hback : f^[n] x = f^[n - j + i] x := by
      rw [Function.iterate_add_apply, heq, ← Function.iterate_add_apply, Nat.sub_add_cancel hj.le]
    rw [hback]
    exact hfirst _ (by omega)
  have hmaps : ∀ m ∈ Finset.range n, f^[m] x ∈ S := fun m hm => hfirst m (Finset.mem_range.mp hm)
  obtain ⟨i, hi, j, hj, hne, heq⟩ := Finset.exists_ne_map_eq_of_card_lt_of_maps_to hcard hmaps
  rw [Finset.mem_range] at hi hj
  rcases Nat.lt_or_gt_of_ne hne with hlt | hlt
  · exact hrepeat i j hlt hj heq
  · exact hrepeat j i hlt hi heq.symm

end MugOS
