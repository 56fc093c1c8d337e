import Mathlib.Tactic

/-!
# Open Addressing with Downward Linear Probing

A table of `n` slots arranged in a circle; a key `k` has a home slot, and it is looked
for at its home, then one slot below, and so on, until it is met or an empty slot is met.
The table is *probed* when no key occurs twice and every key can be met that way: all
slots on the way from its home down to it are occupied.

Positions are compared along the circle through `dist n h i`, the number of steps from
`h` down to `i`, and `back n h d`, the slot `d` steps below `h`.

## Main results

* `searchFrom_spec`: what a downward search returns.
* `Probed.insert`: filling the first empty slot below the home of a new key.
* `Probed.search_hit`, `Probed.search_miss`: where the search for a key ends.
* `Probed.erase`: emptying a slot that no other key is reached through.
* `Probed.shift`: emptying a slot, and moving into it a key that is reached through it.
-/

namespace MugOS.Probe

variable {κ : Type*}

/-! ### The circle of slots -/

/-- The number of steps from slot `h` down to slot `i`. -/
def dist (n h i : ℕ) : ℕ := if i ≤ h then h - i else h + n - i

/-- The slot `d` steps below slot `h`, around the beginning of the table. -/
def back (n h d : ℕ) : ℕ := if d ≤ h then h - d else h + n - d

/-- The slot right below slot `i`, which is the last one for slot 0. -/
def prev (n i : ℕ) : ℕ := if i = 0 then n - 1 else i - 1

/-- The distance between two slots of a table is less than its size. -/
theorem dist_lt {n h i : ℕ} (hh : h < n) (hi : i < n) : dist n h i < n := by
  unfold dist
  split <;> omega

/-- The slot that is fewer steps below than the table has slots is a slot of the table. -/
theorem back_lt {n h d : ℕ} (hh : h < n) (hd : d < n) : back n h d < n := by
  unfold back
  split <;> omega

/-- Stepping down the distance to a slot leads to the slot. -/
theorem back_dist {n h i : ℕ} (hh : h < n) (hi : i < n) : back n h (dist n h i) = i := by
  unfold back dist
  split <;> split <;> omega

/-- The distance from a slot to the one `d` steps below it is `d`, as long as the steps do not
go around. -/
theorem dist_back {n h d : ℕ} (hh : h < n) (hd : d < n) : dist n h (back n h d) = d := by
  unfold back dist
  split <;> split <;> omega

/-- Zero steps below a slot is the slot itself. -/
@[simp] theorem back_zero (n h : ℕ) : back n h 0 = h := by
  simp [back]

/-- One more step down from a slot is as many steps down from the slot below it. -/
theorem back_succ {n h d : ℕ} (hh : h < n) (hd : d + 1 < n) :
    back n h (d + 1) = back n (prev n h) d := by
  unfold back prev
  split <;> split <;> split <;> omega

/-! ### Searching downwards -/

/-- The loop `while (!stop(i)) i = step(i)`, for at most `fuel` tests. -/
def searchFrom (step : ℕ → ℕ) (stop : ℕ → Bool) : ℕ → ℕ → Option ℕ
  | 0, _ => none
  | fuel + 1, i => if stop i then some i else searchFrom step stop fuel (step i)

/-- A search that finds a slot has found one at which it is to stop. -/
theorem searchFrom_stop {step : ℕ → ℕ} {stop : ℕ → Bool} {fuel h i : ℕ}
    (hsearch : searchFrom step stop fuel h = some i) : stop i = true := by
  induction fuel generalizing h with
  | zero => cases hsearch
  | succ fuel ih =>
      rw [searchFrom] at hsearch
      split at hsearch
      · rename_i hstop
        exact Option.some.inj hsearch ▸ hstop
      · exact ih hsearch

/-- **What a downward search returns**: the first slot below the start at which the search
stops, provided there is one within the fuel. -/
theorem searchFrom_spec {n : ℕ} {step : ℕ → ℕ} {stop : ℕ → Bool}
    (hstep : ∀ i < n, step i = prev n i) {fuel h d : ℕ} (hh : h < n) (hd : d < n)
    (hfuel : d < fuel) (hstop : stop (back n h d) = true)
    (hbefore : ∀ d' < d, stop (back n h d') = false) :
    searchFrom step stop fuel h = some (back n h d) := by
  induction d generalizing fuel h with
  | zero =>
      obtain ⟨fuel, rfl⟩ : ∃ f, fuel = f + 1 := ⟨fuel - 1, by omega⟩
      rw [back_zero] at hstop ⊢
      rw [searchFrom, if_pos hstop]
  | succ d ih =>
      obtain ⟨fuel, rfl⟩ : ∃ f, fuel = f + 1 := ⟨fuel - 1, by omega⟩
      have hhead : stop h = false := by simpa using hbefore 0 (by omega)
      have hprev : prev n h < n := by
        unfold prev
        split <;> omega
      rw [searchFrom, hhead, hstep h hh, back_succ hh hd]
      simp only [Bool.false_eq_true, if_false]
      refine ih hprev (by omega) (by omega) ?_ ?_
      · rwa [← back_succ hh hd]
      · intro d' hd'
        rw [← back_succ hh (by omega)]
        exact hbefore (d' + 1) (by omega)

/-- Among the slots of the circle there is a first one, going down, with a property that
some slot has. -/
theorem exists_first {n h : ℕ} (hh : h < n) {p : ℕ → Bool} {i : ℕ} (hi : i < n)
    (hp : p i = true) :
    ∃ d < n, p (back n h d) = true ∧ ∀ d' < d, p (back n h d') = false := by
  have hex : ∃ d, d < n ∧ p (back n h d) = true :=
    ⟨dist n h i, dist_lt hh hi, by rwa [back_dist hh hi]⟩
  classical
  refine ⟨Nat.find hex, (Nat.find_spec hex).1, (Nat.find_spec hex).2, ?_⟩
  intro d' hd'
  have hlt : d' < n := hd'.trans (Nat.find_spec hex).1
  have := Nat.find_min hex hd'
  simp only [hlt, true_and] at this
  simpa using this

/-! ### Probed tables -/

/-- Every slot on the way from the home of a key down to its slot is occupied. -/
def PathFull (n : ℕ) (home : κ → ℕ) (slots : ℕ → Option κ) : Prop :=
  ∀ i < n, ∀ k, slots i = some k → ∀ d < dist n (home k) i, slots (back n (home k) d) ≠ none

/-- A table in which every key is met by probing, and no key occurs twice. -/
structure Probed (n : ℕ) (home : κ → ℕ) (slots : ℕ → Option κ) : Prop where
  path : PathFull n home slots
  distinct : ∀ i < n, ∀ j < n, ∀ k, slots i = some k → slots j = some k → i = j

/-- The slot `c` belongs to the run of occupied slots right below `p`. -/
def InRunBelow (n : ℕ) (slots : ℕ → Option κ) (p c : ℕ) : Prop :=
  ∀ d, 0 < d → d ≤ dist n p c → slots (back n p d) ≠ none

/-- A key with home `h` in slot `c` is met without passing slot `p`: going down from `p`,
its home comes before `c` and is not `p`. -/
def Stays (n p c h : ℕ) : Prop := 0 < dist n p h ∧ dist n p h ≤ dist n p c

section

variable {n : ℕ} {home : κ → ℕ} {slots : ℕ → Option κ}

/-- Filling an empty slot that is reached from the home of its new key keeps the paths. -/
theorem PathFull.update (h : PathFull n home slots) {j : ℕ} (hj : j < n) {k : κ}
    (hpath : ∀ d < dist n (home k) j, slots (back n (home k) d) ≠ none) :
    PathFull n home (Function.update slots j (some k)) := by
  intro i hi k' hk' d hd
  by_cases hb : back n (home k') d = j
  · rw [hb, Function.update_self]
    simp
  · rw [Function.update_of_ne hb]
    by_cases hij : i = j
    · subst hij
      rw [Function.update_self, Option.some.injEq] at hk'
      subst hk'
      exact hpath d hd
    · rw [Function.update_of_ne hij] at hk'
      exact h i hi k' hk' d hd

variable (hhome : ∀ k, home k < n)

include hhome

/-- **Insertion**: a new key goes to the first empty slot below its home. -/
theorem Probed.insert (h : Probed n home slots) {d : ℕ} (hd : d < n) {k : κ}
    (hfull : ∀ d' < d, slots (back n (home k) d') ≠ none)
    (hnew : ∀ i < n, slots i ≠ some k) :
    Probed n home (Function.update slots (back n (home k) d) (some k)) := by
  have hj : back n (home k) d < n := back_lt (hhome k) hd
  refine ⟨h.path.update hj ?_, ?_⟩
  · rw [dist_back (hhome k) hd]
    exact hfull
  · intro i hi j hj' k' hi' hj''
    by_cases hi0 : i = back n (home k) d <;> by_cases hj0 : j = back n (home k) d
    · rw [hi0, hj0]
    · rw [hi0, Function.update_self, Option.some.injEq] at hi'
      rw [Function.update_of_ne hj0, ← hi'] at hj''
      exact absurd hj'' (hnew j hj')
    · rw [hj0, Function.update_self, Option.some.injEq] at hj''
      rw [Function.update_of_ne hi0, ← hj''] at hi'
      exact absurd hi' (hnew i hi)
    · rw [Function.update_of_ne hi0] at hi'
      rw [Function.update_of_ne hj0] at hj''
      exact h.distinct i hi j hj' k' hi' hj''

/-- The search for a key that is present ends at its slot: before it, every slot on the
way is occupied by another key. -/
theorem Probed.search_hit (h : Probed n home slots) {i : ℕ} (hi : i < n) {k : κ}
    (hk : slots i = some k) :
    ∀ d < dist n (home k) i,
      slots (back n (home k) d) ≠ none ∧ slots (back n (home k) d) ≠ some k := by
  intro d hd
  refine ⟨h.path i hi k hk d hd, ?_⟩
  intro hsame
  have hdn : d < n := hd.trans (dist_lt (hhome k) hi)
  have := h.distinct _ (back_lt (hhome k) hdn) i hi k hsame hk
  rw [← this, dist_back (hhome k) hdn] at hd
  exact absurd hd (lt_irrefl _)

/-- **Erasure**: emptying a slot that no key of the run below it is reached through keeps
every other key reachable. -/
theorem PathFull.erase (h : PathFull n home slots) {p : ℕ} (hp : p < n)
    (hstays : ∀ c < n, c ≠ p → ∀ k, slots c = some k → InRunBelow n slots p c →
      Stays n p c (home k)) :
    PathFull n home (Function.update slots p none) := by
  intro i hi k hk d hd
  have hip : i ≠ p := by
    rintro rfl
    simp at hk
  rw [Function.update_of_ne hip] at hk
  have hdn : d < n := hd.trans (dist_lt (hhome k) hi)
  by_cases hb : back n (home k) d = p
  · exfalso
    have hrun : InRunBelow n slots p i := by
      intro e he hle
      have hpos : back n p e = back n (home k) (d + e) := by
        have hk' := hhome k
        unfold back dist at *
        subst hb
        split_ifs at * <;> omega
      by_cases hlast : back n p e = i
      · rw [hlast, hk]
        simp
      · rw [hpos]
        apply h i hi k hk
        have hk' := hhome k
        rw [hpos] at hlast
        unfold back dist at *
        subst hb
        split_ifs at * <;> omega
    obtain ⟨h1, h2⟩ := hstays i hi hip k hk hrun
    have hk' := hhome k
    unfold back dist at *
    subst hb
    split_ifs at * <;> omega
  · rw [Function.update_of_ne hb]
    exact h i hi k hk d hd

/-- Emptying a slot that no key of the run below it is reached through. -/
theorem Probed.erase (h : Probed n home slots) {p : ℕ} (hp : p < n)
    (hstays : ∀ c < n, c ≠ p → ∀ k, slots c = some k → InRunBelow n slots p c →
      Stays n p c (home k)) :
    Probed n home (Function.update slots p none) := by
  refine ⟨h.path.erase hhome hp hstays, ?_⟩
  intro i hi j hj k hi' hj'
  have hip : i ≠ p := by
    rintro rfl
    simp at hi'
  have hjp : j ≠ p := by
    rintro rfl
    simp at hj'
  rw [Function.update_of_ne hip] at hi'
  rw [Function.update_of_ne hjp] at hj'
  exact h.distinct i hi j hj k hi' hj'

/-- **Back-shift**: when the slot `p` is emptied and the key of slot `c`, in the run below,
is reached through `p`, that key may move to `p`, provided no key of the run below `c` is
reached through `c`. -/
theorem Probed.shift (h : Probed n home slots) {p c : ℕ} (hp : p < n) (hc : c < n)
    (hcp : c ≠ p) {k : κ} (hk : slots c = some k) (hocc : slots p ≠ none)
    (hrun : InRunBelow n slots p c) (hmove : ¬ Stays n p c (home k))
    (hempty : ∃ z < n, slots z = none)
    (hstays : ∀ e < n, e ≠ c → ∀ k', slots e = some k' → InRunBelow n slots c e →
      Stays n c e (home k')) :
    Probed n home (Function.update (Function.update slots p (some k)) c none) := by
  have hfull : PathFull n home (Function.update slots p (some k)) := by
    apply h.path.update hp
    intro d hd
    apply h.path c hc k hk
    have hk' := hhome k
    unfold Stays dist at *
    split_ifs at * <;> omega
  have hocc' : ∀ e, Function.update slots p (some k) e ≠ none → slots e ≠ none := by
    intro e he
    by_cases hep : e = p
    · rwa [hep]
    · rwa [Function.update_of_ne hep] at he
  refine ⟨hfull.erase hhome hc ?_, ?_⟩
  · intro e he hec k' hk' hrun'
    have hep : e ≠ p := by
      rintro rfl
      obtain ⟨z, hz, hzn⟩ := hempty
      have hze : z ≠ e := by
        rintro rfl
        exact hocc hzn
      by_cases hside : dist n e z ≤ dist n e c
      · refine hrun (dist n e z) ?_ hside (by rw [back_dist hp hz, hzn])
        unfold dist
        split_ifs <;> omega
      · refine hocc' _ (hrun' (dist n c z) ?_ ?_) (by rw [back_dist hc hz, hzn])
        · unfold dist at *
          split_ifs at * <;> omega
        · unfold dist at *
          split_ifs at * <;> omega
    rw [Function.update_of_ne hep] at hk'
    exact hstays e he hec k' hk' fun d hd hle => hocc' _ (hrun' d hd hle)
  · intro i hi j hj k' hi' hj'
    have hic : i ≠ c := by
      rintro rfl
      simp at hi'
    have hjc : j ≠ c := by
      rintro rfl
      simp at hj'
    rw [Function.update_of_ne hic] at hi'
    rw [Function.update_of_ne hjc] at hj'
    by_cases hip : i = p <;> by_cases hjp : j = p
    · rw [hip, hjp]
    · rw [hip, Function.update_self, Option.some.injEq] at hi'
      rw [Function.update_of_ne hjp, ← hi'] at hj'
      exact absurd (h.distinct j hj c hc k hj' hk) hjc
    · rw [hjp, Function.update_self, Option.some.injEq] at hj'
      rw [Function.update_of_ne hip, ← hj'] at hi'
      exact absurd (h.distinct i hi c hc k hi' hk) hic
    · rw [Function.update_of_ne hip] at hi'
      rw [Function.update_of_ne hjp] at hj'
      exact h.distinct i hi j hj k' hi' hj'

end

end MugOS.Probe
