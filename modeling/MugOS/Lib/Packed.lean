import Mathlib.Tactic

/-!
# Tables of Packed Entries

A table of entries of `w` bits each, one after the other in a sequence of bytes, least significant
bit first: entry `i` takes the bits from `w * i` on, wherever these lie in the bytes. `Packed w
bytes i v` says that `v` is entry `i`.

## Main results

* `Packed.unique`: an entry has one value.
* `packed_even`, `packed_odd`: the entries of a table with 12 bits each, from the 16-bit number at
  byte `i + i / 2`.
-/

namespace MugOS

/-- Bit `b` of a sequence of bytes, the least significant bit of each byte first. -/
def streamBit (bytes : ℕ → UInt8) (b : ℕ) : Bool := (bytes (b / 8)).toNat.testBit (b % 8)

/-- `v` is entry `i` of the table with `w` bits for each entry. -/
def Packed (w : ℕ) (bytes : ℕ → UInt8) (i v : ℕ) : Prop :=
  v < 2 ^ w ∧ ∀ j < w, v.testBit j = streamBit bytes (w * i + j)

variable {w : ℕ} {bytes : ℕ → UInt8} {i : ℕ}

/-- The bytes of a packed entry determine its value. -/
theorem Packed.unique {v v' : ℕ} (h : Packed w bytes i v) (h' : Packed w bytes i v') : v = v' := by
  apply Nat.eq_of_testBit_eq
  intro j
  by_cases hj : j < w
  · rw [h.2 j hj, h'.2 j hj]
  · have hpow : 2 ^ w ≤ 2 ^ j := Nat.pow_le_pow_right (by decide) (by omega)
    rw [Nat.testBit_lt_two_pow (h.1.trans_le hpow),
      Nat.testBit_lt_two_pow (h'.1.trans_le hpow)]

/-- The 16-bit number at byte `i`, low byte first. -/
def word16 (bytes : ℕ → UInt8) (i : ℕ) : ℕ := (bytes i).toNat + 256 * (bytes (i + 1)).toNat

/-- A 16-bit number read from a byte on has the sixteen bits of the stream from there on. -/
theorem word16_testBit (bytes : ℕ → UInt8) (i : ℕ) {j : ℕ} (hj : j < 16) :
    (word16 bytes i).testBit j = streamBit bytes (8 * i + j) := by
  have hlow := UInt8.toNat_lt (bytes i)
  have hsplit := Nat.testBit_two_pow_mul_add (i := 8) (bytes (i + 1)).toNat hlow j
  rw [word16, Nat.add_comm, show (256 : ℕ) = 2 ^ 8 from rfl, hsplit, streamBit]
  split
  · rw [show (8 * i + j) / 8 = i by omega, show (8 * i + j) % 8 = j by omega]
  · rw [show (8 * i + j) / 8 = i + 1 by omega, show (8 * i + j) % 8 = j - 8 by omega]

/-- A number of two bytes is below `2 ^ 16`. -/
theorem word16_lt (bytes : ℕ → UInt8) (i : ℕ) : word16 bytes i < 2 ^ 16 := by
  have hlow := UInt8.toNat_lt (bytes i)
  have hhigh := UInt8.toNat_lt (bytes (i + 1))
  rw [word16]
  omega

/-- **An entry at an even index** is the lower 12 bits of the number at its first byte. -/
theorem packed_even (bytes : ℕ → UInt8) {i : ℕ} (hi : i % 2 = 0) :
    Packed 12 bytes i (word16 bytes (i + i / 2) % 2 ^ 12) := by
  refine ⟨Nat.mod_lt _ (by decide), fun j hj => ?_⟩
  rw [Nat.testBit_mod_two_pow, decide_eq_true hj, Bool.true_and,
    word16_testBit bytes _ (by omega)]
  congr 1
  omega

/-- **An entry at an odd index** is the upper 12 bits of the number at its first byte. -/
theorem packed_odd (bytes : ℕ → UInt8) {i : ℕ} (hi : i % 2 = 1) :
    Packed 12 bytes i (word16 bytes (i + i / 2) / 2 ^ 4) := by
  have hlt := word16_lt bytes (i + i / 2)
  refine ⟨by omega, fun j hj => ?_⟩
  rw [← Nat.shiftRight_eq_div_pow, Nat.testBit_shiftRight, word16_testBit bytes _ (by omega)]
  congr 1
  omega

end MugOS
