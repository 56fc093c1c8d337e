import Mathlib.Tactic

/-!
# Circular Windows

A *window* of a list `buf` of `n` cells is the sequence of `count` cells that is read from
the cell `start` on, starting over at cell `0` after the last one. It is what a queue in a
circular buffer represents. The operations of such a queue are stores to single cells and
moves of `start` and `count`; this module says what they do to the window.

## Main results

* `window_concat`: a store behind the window and a larger count append an element.
* `window_tail`: moving the start and decreasing the count drops the first element.
* `window_overwrite`: in a full window, a store to the first cell and moving the start drop
  the first element and append one.
-/

namespace MugOS.Circular

variable {α : Type*}

/-- The cell `i` places behind `start`, around the end of the buffer. -/
def cell (n start i : ℕ) : ℕ := (start + i) % n

/-- The elements of the window of `count` cells that begins at `start`. -/
def window [Inhabited α] (buf : List α) (n start count : ℕ) : List α :=
  (List.range count).map fun i => buf.getD (cell n start i) default

/-- The cell of any place of a window lies in the buffer. -/
theorem cell_lt {n : ℕ} (hn : 0 < n) (start i : ℕ) : cell n start i < n := Nat.mod_lt _ hn

/-- Moving the start of a window by one moves every cell of it by one place. -/
theorem cell_succ (n start i : ℕ) : cell n ((start + 1) % n) i = cell n start (i + 1) := by
  unfold cell
  rw [Nat.mod_add_mod, show start + 1 + i = start + (i + 1) by omega]

/-- Different places of a window that is no longer than the buffer are different cells. -/
theorem cell_injective {n start i j : ℕ} (hi : i < n) (hj : j < n)
    (h : cell n start i = cell n start j) : i = j := by
  unfold cell at h
  have hmod : i ≡ j [MOD n] := Nat.ModEq.add_left_cancel' start h
  exact Nat.ModEq.eq_of_lt_of_lt hmod hi hj

section Window

variable [Inhabited α] {buf : List α} {n start count : ℕ}

/-- A window has as many elements as it counts, also where it wraps around. -/
@[simp] theorem length_window (buf : List α) (n start count : ℕ) :
    (window buf n start count).length = count := by
  simp [window]

/-- A window begins with the element in its first cell, followed by the window from the next
cell on. -/
theorem window_succ (buf : List α) (n start count : ℕ) :
    window buf n start (count + 1) =
      buf.getD (cell n start 0) default :: window buf n ((start + 1) % n) count := by
  rw [window, List.range_succ_eq_map, List.map_cons, List.map_map, window]
  congr 1
  apply List.map_congr_left
  intro i _
  rw [Function.comp_apply, cell_succ]

/-- Moving the start of a window drops its first element. -/
theorem window_tail (buf : List α) (n start count : ℕ) :
    window buf n ((start + 1) % n) count = (window buf n start (count + 1)).tail := by
  rw [window_succ, List.tail_cons]

/-- The elements of a buffer in which one cell was written. -/
theorem getD_set {i j : ℕ} (hi : i < buf.length) (x : α) :
    (buf.set i x).getD j default = if i = j then x else buf.getD j default := by
  rw [List.getD_eq_getElem?_getD, List.getElem?_set, List.getD_eq_getElem?_getD]
  split
  · rename_i heq
    subst heq
    simp
  · rfl

/-- A window that does not reach the cell that is written. -/
theorem window_set_of_not_mem {k : ℕ} (hk : k < buf.length) (x : α)
    (h : ∀ i < count, cell n start i ≠ k) :
    window (buf.set k x) n start count = window buf n start count := by
  apply List.map_congr_left
  intro i hi
  rw [getD_set hk, if_neg (fun heq => h i (List.mem_range.mp hi) heq.symm)]

/-- **Appending**: a store to the cell behind the window. -/
theorem window_concat (hlen : buf.length = n) (hcount : count < n) (x : α) :
    window (buf.set (cell n start count) x) n start (count + 1) =
      window buf n start count ++ [x] := by
  have hk : cell n start count < buf.length := hlen ▸ cell_lt (by omega) start count
  have hold : window (buf.set (cell n start count) x) n start count =
      window buf n start count := by
    apply window_set_of_not_mem hk
    intro i hi heq
    have := cell_injective (by omega) hcount heq
    omega
  conv_lhs => rw [window, List.range_succ, List.map_append]
  rw [← hold, window, List.map_singleton, getD_set hk, if_pos rfl]

/-- The cell behind a window of the whole buffer is its first cell again. -/
theorem cell_full (n start : ℕ) : cell n start n = cell n start 0 := by
  simp [cell]

/-- **Overwriting**: in a full window, the first cell becomes the last one. -/
theorem window_overwrite (hlen : buf.length = n) (hn : 0 < n) (start : ℕ) (x : α) :
    window (buf.set (cell n start 0) x) n ((start + 1) % n) n =
      (window buf n start n).tail ++ [x] := by
  obtain ⟨m, rfl⟩ : ∃ m, n = m + 1 := ⟨n - 1, by omega⟩
  have hlast : cell (m + 1) start 0 = cell (m + 1) ((start + 1) % (m + 1)) m := by
    rw [cell_succ, cell_full]
  rw [hlast, window_concat hlen (by omega), window_tail]

end Window

end MugOS.Circular
