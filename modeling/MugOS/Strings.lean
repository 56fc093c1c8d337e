import Mathlib.Data.List.Lex
import Mathlib.Data.UInt
import Mathlib.Tactic.Common

/-!
# Comparing Strings and Memory

`strncmp` and `memcmp` of `Stdlib/string.c`. A string is a list of characters, which are signed and
of which those behind a `0` do not matter; behind the list there is a `0`. That `strncmp` asserts
its pointers is left out.

`strncmp` is the lexicographic order of the characters as signed numbers, and not as unsigned ones;
`memcmp` is no order, as it answers `1` wherever the bytes differ.

## Main results

* `strncmp_spec`: the sign of the result of `strncmp`.
* `memcmp_spec`: the result of `memcmp`.
-/

namespace MugOS.Strings

/-- The loop of `strncmp`, from `i` on, with `n` rounds left. -/
def strncmpLoop (s₁ s₂ : ℕ → ℤ) : ℕ → ℕ → ℤ
  | 0, _ => 0
  | n + 1, i =>
      if s₁ i = 0 ∨ s₂ i = 0 then
        if s₁ i = 0 ∧ s₂ i ≠ 0 then -1
        else if s₁ i ≠ 0 ∧ s₂ i = 0 then 1
        else 0
      else
        let temp := s₁ i - s₂ i
        if temp ≠ 0 then temp else strncmpLoop s₁ s₂ n (i + 1)

/-- A character of a string; behind the end there is a `0`. -/
def charAt (str : List Int8) (i : ℕ) : ℤ := (str.getD i 0).toInt

/-- `strncmp(s1, s2, n)`: the loop over the first `n` characters of both strings. -/
def strncmp (s₁ s₂ : List Int8) (n : ℕ) : ℤ := strncmpLoop (charAt s₁) (charAt s₂) n 0

/-- The loop of `memcmp`, from `i` on, with `n` rounds left. -/
def memcmpLoop (u8ptr₁ u8ptr₂ : ℕ → UInt8) : ℕ → ℕ → ℤ
  | 0, _ => 0
  | n + 1, i => if u8ptr₁ i ≠ u8ptr₂ i then 1 else memcmpLoop u8ptr₁ u8ptr₂ n (i + 1)

/-- `memcmp(ptr1, ptr2, size)`: zero if the bytes are the same, and one if they are not. -/
def memcmp (ptr₁ ptr₂ : ℕ → UInt8) (size : ℕ) : ℤ := memcmpLoop ptr₁ ptr₂ size 0

/-! ### `strncmp` -/

/-- The characters of a string up to its end, as numbers. -/
def text (str : List Int8) : List ℤ := (str.takeWhile (· ≠ 0)).map Int8.toInt

/-- The comparison from a later index on is that of what is left of both strings. -/
theorem strncmpLoop_succ (s₁ s₂ : ℕ → ℤ) (n i : ℕ) : strncmpLoop s₁ s₂ n (i + 1) =
    strncmpLoop (fun j => s₁ (j + 1)) (fun j => s₂ (j + 1)) n i := by
  induction n generalizing i with
  | zero => rfl
  | succ n ih => simp only [strncmpLoop, ih]

/-- The characters of what is left of a string are those of the string, one place further
on. -/
theorem charAt_tail (str : List Int8) (i : ℕ) : charAt str.tail i = charAt str (i + 1) := by
  cases str <;> rfl

/-- One round of the loop compares the first characters, and goes on with what is left of both
strings. -/
theorem strncmp_succ (s₁ s₂ : List Int8) (n : ℕ) : strncmp s₁ s₂ (n + 1) =
    if charAt s₁ 0 = 0 ∨ charAt s₂ 0 = 0 then
      if charAt s₁ 0 = 0 ∧ charAt s₂ 0 ≠ 0 then -1
      else if charAt s₁ 0 ≠ 0 ∧ charAt s₂ 0 = 0 then 1
      else 0
    else if charAt s₁ 0 - charAt s₂ 0 ≠ 0 then charAt s₁ 0 - charAt s₂ 0
    else strncmp s₁.tail s₂.tail n := by
  have htail₁ : charAt s₁.tail = fun j => charAt s₁ (j + 1) := funext (charAt_tail s₁)
  have htail₂ : charAt s₂.tail = fun j => charAt s₂ (j + 1) := funext (charAt_tail s₂)
  simp only [strncmp, strncmpLoop, strncmpLoop_succ, htail₁, htail₂]

/-- A text that is not empty has its first character in front of the text of what is left. -/
theorem text_eq (str : List Int8) :
    text str = if charAt str 0 = 0 then [] else charAt str 0 :: text str.tail := by
  cases str with
  | nil => rfl
  | cons c rest =>
      have hzero : c.toInt = 0 ↔ c = 0 := by
        rw [← Int8.toInt_inj]
        rfl
      have hhead : charAt (c :: rest) 0 = c.toInt := rfl
      rw [hhead, text]
      by_cases hc : c = 0
      · rw [if_pos (hzero.mpr hc), List.takeWhile_cons_of_neg (by simpa using hc), List.map_nil]
      · rw [if_neg (mt hzero.mp hc), List.takeWhile_cons_of_pos (by simpa using hc), List.map_cons]
        rfl

/-- Exchanging the two strings changes the sign of the comparison. -/
theorem strncmp_swap (s₁ s₂ : List Int8) (n : ℕ) : strncmp s₂ s₁ n = -strncmp s₁ s₂ n := by
  induction n generalizing s₁ s₂ with
  | zero => rfl
  | succ n ih =>
      rw [strncmp_succ, strncmp_succ, ih]
      split_ifs <;> omega

/-- The result is negative where the first text is smaller. -/
theorem strncmp_neg_iff (s₁ s₂ : List Int8) (n : ℕ) :
    strncmp s₁ s₂ n < 0 ↔ (text s₁).take n < (text s₂).take n := by
  induction n generalizing s₁ s₂ with
  | zero => simp [strncmp, strncmpLoop]
  | succ n ih =>
      rw [strncmp_succ, text_eq s₁, text_eq s₂]
      generalize charAt s₁ 0 = a
      generalize charAt s₂ 0 = b
      by_cases ha : a = 0
      · by_cases hb : b = 0
        · simp [ha, hb]
        · simp [ha, hb]
      · by_cases hb : b = 0
        · simp [ha, hb]
        · rw [if_neg (not_or.mpr ⟨ha, hb⟩), if_neg ha, if_neg hb, List.take_succ_cons,
            List.take_succ_cons, List.cons_lt_cons_iff, ← ih]
          by_cases hab : a = b
          · rw [if_neg (by omega)]
            simp [hab]
          · rw [if_pos (by omega)]
            omega

/-- **`strncmp` is the lexicographic order** of the first `n` characters of the texts. -/
theorem strncmp_spec (s₁ s₂ : List Int8) (n : ℕ) :
    (strncmp s₁ s₂ n < 0 ↔ (text s₁).take n < (text s₂).take n) ∧
      (0 < strncmp s₁ s₂ n ↔ (text s₂).take n < (text s₁).take n) ∧
      (strncmp s₁ s₂ n = 0 ↔ (text s₁).take n = (text s₂).take n) := by
  have hless := strncmp_neg_iff s₁ s₂ n
  have hgreater : 0 < strncmp s₁ s₂ n ↔ (text s₂).take n < (text s₁).take n := by
    rw [← strncmp_neg_iff, strncmp_swap s₁ s₂]
    omega
  refine ⟨hless, hgreater, fun h => ?_, fun h => ?_⟩
  · rw [h] at hless hgreater
    exact le_antisymm (not_lt.mp (mt hgreater.mpr (lt_irrefl 0)))
      (not_lt.mp (mt hless.mpr (lt_irrefl 0)))
  · rw [h] at hless hgreater
    exact le_antisymm (not_lt.mp (mt hgreater.mp (lt_irrefl _)))
      (not_lt.mp (mt hless.mp (lt_irrefl _)))

/-! ### `memcmp` -/

/-- The loop returns zero if and only if the bytes that are left are the same. -/
theorem memcmpLoop_spec (p₁ p₂ : ℕ → UInt8) (n i : ℕ) :
    memcmpLoop p₁ p₂ n i = if ∀ k < n, p₁ (i + k) = p₂ (i + k) then 0 else 1 := by
  induction n generalizing i with
  | zero => simp [memcmpLoop]
  | succ n ih =>
      have hsplit : (∀ k < n + 1, p₁ (i + k) = p₂ (i + k)) ↔
          p₁ i = p₂ i ∧ ∀ k < n, p₁ (i + 1 + k) = p₂ (i + 1 + k) := by
        rw [Nat.forall_lt_succ_left]
        simp only [Nat.add_zero, Nat.add_assoc, Nat.add_comm 1]
      rw [memcmpLoop, ih]
      by_cases hhead : p₁ i = p₂ i
      · simp only [hsplit, hhead, ne_eq, not_true_eq_false, if_false, true_and]
      · simp only [hsplit, hhead, ne_eq, not_false_eq_true, if_true, false_and, if_false]

/-- **`memcmp` decides whether the bytes are equal**, and nothing else. -/
theorem memcmp_spec (p₁ p₂ : ℕ → UInt8) (size : ℕ) :
    memcmp p₁ p₂ size = if ∀ i < size, p₁ i = p₂ i then 0 else 1 := by
  simp only [memcmp, memcmpLoop_spec, Nat.zero_add]

end MugOS.Strings
