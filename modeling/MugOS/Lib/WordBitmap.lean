import Mathlib.Data.List.Basic
import Mathlib.Tactic

/-!
# Bitmaps Packed in 64-bit Words

A bitmap is a list of 64-bit words read from the most significant bit down: bit `b`
of the map is bit `b % 64`, counted from the left, of word `b / 64`. This module knows
nothing of allocators. It gives the reading function `bit`, the counted word loop
`fill` and the two families of masks that a range update needs, with what each of them
does to every bit of the map.

## Main results

* `bit_setMasked`: a store that changes the positions `p ≤ j < q` of one word.
* `bit_fill`: a loop of stores that overwrites a run of whole words.
* `getMsbD_tailMask`, `getMsbD_headMask`: the masks of a partial first and last word.
* `and_msb_eq_zero`, `and_one_eq_zero`: reading the outermost bits of a word through a
  mask, as a shifting loop does.
-/

namespace MugOS.WordBitmap

/-- Word `i` of the bitmap, which is `0` outside of it. -/
def word (ws : List (BitVec 64)) (i : ℕ) : BitVec 64 := ws.getD i 0

/-- Bit `b` of the bitmap, the most significant bit of each word first. -/
def bit (ws : List (BitVec 64)) (b : ℕ) : Bool := (word ws (b / 64)).getMsbD (b % 64)

/-- The counted loop `for (i = lo ; i < lo + n ; i++) ws[i] = w`. -/
def fill (w : BitVec 64) : ℕ → ℕ → List (BitVec 64) → List (BitVec 64)
  | _, 0, ws => ws
  | lo, n + 1, ws => fill w (lo + 1) n (ws.set lo w)

/-! ### Stores and loops of stores -/

/-- A store changes the word at its own index and no other. -/
theorem word_set (ws : List (BitVec 64)) (i j : ℕ) (w : BitVec 64) (hi : i < ws.length) :
    word (ws.set i w) j = if i = j then w else word ws j := by
  unfold word
  by_cases hij : i = j
  · subst hij
    simp [List.getD_eq_getElem?_getD, hi]
  · simp [List.getD_eq_getElem?_getD, List.getElem?_set_ne hij, hij]

/-- A store changes the bits of its own word and no other. -/
theorem bit_set (ws : List (BitVec 64)) (i b : ℕ) (w : BitVec 64) (hi : i < ws.length) :
    bit (ws.set i w) b = if i = b / 64 then w.getMsbD (b % 64) else bit ws b := by
  unfold bit
  rw [word_set ws i _ w hi]
  split <;> rfl

/-- A store whose word differs from the old one only at the positions `p ≤ j < q`, where
it holds `v`, changes exactly those bits of the map. -/
theorem bit_setMasked (v : Bool) (ws : List (BitVec 64)) (i p q b : ℕ) (w : BitVec 64)
    (hi : i < ws.length) (hq : q ≤ 64)
    (hw : ∀ j < 64, w.getMsbD j = if p ≤ j ∧ j < q then v else (word ws i).getMsbD j) :
    bit (ws.set i w) b = if i * 64 + p ≤ b ∧ b < i * 64 + q then v else bit ws b := by
  rw [bit_set ws i b w hi]
  by_cases hib : i = b / 64
  · rw [if_pos hib, hw _ (Nat.mod_lt _ (by decide))]
    by_cases hin : p ≤ b % 64 ∧ b % 64 < q
    · rw [if_pos hin, if_pos (by omega)]
    · rw [if_neg hin, if_neg (by omega), bit, hib]
  · rw [if_neg hib, if_neg (by omega)]

/-- The loop over the words of a range keeps the length of the bitmap. -/
@[simp] theorem length_fill (w : BitVec 64) (lo n : ℕ) (ws : List (BitVec 64)) :
    (fill w lo n ws).length = ws.length := by
  induction n generalizing lo ws with
  | zero => rfl
  | succ n ih => simp only [fill, ih, List.length_set]

/-- The word loop overwrites exactly the words `lo ≤ j < lo + n`. -/
theorem word_fill (w : BitVec 64) (lo n : ℕ) (ws : List (BitVec 64)) (j : ℕ)
    (h : lo + n ≤ ws.length) :
    word (fill w lo n ws) j = if lo ≤ j ∧ j < lo + n then w else word ws j := by
  induction n generalizing lo ws with
  | zero =>
      have : ¬ (lo ≤ j ∧ j < lo + 0) := by omega
      simp only [fill, if_neg this]
  | succ n ih =>
      have hlen : lo + 1 + n ≤ (ws.set lo w).length := by
        rw [List.length_set]
        omega
      rw [fill, ih _ _ hlen, word_set _ _ _ _ (by omega)]
      by_cases hj : lo = j
      · subst hj
        simp
      · by_cases hin : lo + 1 ≤ j ∧ j < lo + 1 + n
        · rw [if_pos hin, if_pos (by omega)]
        · rw [if_neg hin, if_neg hj, if_neg (by omega)]

/-- A word loop that stores a uniform word overwrites exactly the bits of the words
`lo ≤ j < lo + n`. -/
theorem bit_fill (v : Bool) (w : BitVec 64) (lo n : ℕ) (ws : List (BitVec 64)) (b : ℕ)
    (h : lo + n ≤ ws.length) (hw : ∀ j < 64, w.getMsbD j = v) :
    bit (fill w lo n ws) b = if lo * 64 ≤ b ∧ b < (lo + n) * 64 then v else bit ws b := by
  unfold bit
  rw [word_fill w lo n ws _ h]
  by_cases hin : lo ≤ b / 64 ∧ b / 64 < lo + n
  · rw [if_pos hin, if_pos (by omega), hw _ (Nat.mod_lt _ (by decide))]
  · rw [if_neg hin, if_neg (by omega)]

/-! ### Masks -/

/-- The bits of `2 ^ k - 1` in a word, from the right. -/
theorem getLsbD_shiftLeft_sub_one (k j : ℕ) (hk : k < 64) :
    ((1#64 <<< k) - 1#64).getLsbD j = decide (j < k) := by
  have hpow : 2 ^ k < 2 ^ 64 := Nat.pow_lt_pow_right (by decide) hk
  have hpos : 0 < 2 ^ k := Nat.two_pow_pos k
  have hval : ((1#64 <<< k) - 1#64).toNat = 2 ^ k - 1 := by
    rw [BitVec.toNat_sub, BitVec.toNat_shiftLeft]
    simp only [BitVec.toNat_ofNat, Nat.shiftLeft_eq]
    omega
  rw [BitVec.getLsbD, hval, Nat.testBit_two_pow_sub_one]

/-- The mask of a partial first word: `(1 << (64 - f)) - 1` selects the positions from
`f` on. -/
theorem getMsbD_tailMask (f j : ℕ) (hf : f ≠ 0) (hf' : f < 64) :
    ((1#64 <<< (64 - f)) - 1#64).getMsbD j = decide (f ≤ j ∧ j < 64) := by
  rw [BitVec.getMsbD, getLsbD_shiftLeft_sub_one _ _ (by omega)]
  by_cases hj : j < 64
  · simp only [hj, decide_true, Bool.true_and, and_true]
    exact decide_eq_decide.mpr (by omega)
  · simp [hj]

/-- The mask of a partial last word: `((1 << l) - 1) << (64 - l)` selects the positions
before `l`. -/
theorem getMsbD_headMask (l j : ℕ) (hl : l < 64) :
    (((1#64 <<< l) - 1#64) <<< (64 - l)).getMsbD j = decide (j < l) := by
  rw [BitVec.getMsbD_shiftLeft, BitVec.getMsbD, getLsbD_shiftLeft_sub_one _ _ hl]
  by_cases hj : j + (64 - l) < 64
  · simp only [hj, decide_true, Bool.true_and]
    exact decide_eq_decide.mpr (by omega)
  · simp only [hj, decide_false, Bool.false_and]
    exact (decide_eq_false (by omega)).symm

/-! ### The outermost bits of a word -/

/-- Testing the leftmost bit of a word through its mask. -/
theorem and_msb_eq_zero (w : BitVec 64) :
    w &&& 0x8000000000000000#64 = 0#64 ↔ w.getMsbD 0 = false := by
  have hmask : 0x8000000000000000#64 = BitVec.twoPow 64 63 := by decide
  rw [hmask, BitVec.and_twoPow, BitVec.getMsbD]
  cases h : w.getLsbD 63 with
  | false => simp
  | true =>
      simp only [if_true]
      decide

/-- Testing the rightmost bit of a word through its mask. -/
theorem and_one_eq_zero (w : BitVec 64) : w &&& 1#64 = 0#64 ↔ w.getMsbD 63 = false := by
  have hmask : 1#64 = BitVec.twoPow 64 0 := by decide
  rw [hmask, BitVec.and_twoPow, BitVec.getMsbD]
  cases h : w.getLsbD 0 with
  | false => simp
  | true =>
      simp only [if_true]
      decide

/-- Every one of the 64 bits of the all-ones word is set. -/
theorem getMsbD_ones : ∀ j < 64, (0xffffffffffffffff#64).getMsbD j = true := by decide

/-- Every one of the 64 bits of the zero word is clear. -/
theorem getMsbD_zeros : ∀ j < 64, (0x0000000000000000#64).getMsbD j = false := by decide

/-- A word is all ones if and only if each of its 64 bits is set. -/
theorem eq_ones_iff (w : BitVec 64) :
    w = 0xffffffffffffffff#64 ↔ ∀ j < 64, w.getMsbD j = true := by
  constructor
  · rintro rfl
    exact getMsbD_ones
  · intro h
    apply BitVec.eq_of_getMsbD_eq
    intro j hj
    rw [h j hj, getMsbD_ones j hj]

end MugOS.WordBitmap
