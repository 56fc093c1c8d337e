import MugOS.Lib.Copying
import MugOS.Memory

/-!
# Copying Bytes

`memcpy` and `memmove` of `Stdlib/string.c`, on a memory of bytes. Both copy byte by byte;
`memmove` begins at the end of the ranges if the source is below the destination, so that no byte
is overwritten before it is read.

## Main results

* `memcpy_spec`: `memcpy` copies if it reads no byte that it writes.
* `memmove_spec`: `memmove` copies whatever the overlap.
-/

namespace MugOS

open Copying

/-- A memory of bytes, by their addresses. -/
abbrev Bytes := ℕ → UInt8

/-- `memcpy(dst, src, size)`: copies the bytes one by one, from the first on. -/
def memcpy (mem : Bytes) (dst src size : ℕ) : Bytes :=
  copyEach (fun i => wadd dst i) (fun i => wadd src i) mem (List.range size)

/-- `memmove(dest, src, size)`: copies the bytes forward or backward, as the places overlap. -/
def memmove (mem : Bytes) (dest src size : ℕ) : Bytes :=
  if src > dest then
    copyEach (fun i => wadd dest i) (fun i => wadd src i) mem (List.range size)
  else if src < dest then
    copyEach (fun i => wadd dest i) (fun i => wadd src i) mem (List.range size).reverse
  else mem

section

variable {dest src size : ℕ} {is : List ℕ}

/-- Copies within a range leave the bytes outside of it. -/
theorem copyEach_outside (mem : Bytes) (hdest : dest + size ≤ 2 ^ 64) (his : ∀ i ∈ is, i < size)
    {x : ℕ} (hx : ¬ (dest ≤ x ∧ x < dest + size)) :
    copyEach (fun i => wadd dest i) (fun i => wadd src i) mem is x = mem x := by
  refine copyEach_other mem fun i hi heq => ?_
  have hlt := his i hi
  simp only [wadd_of_lt (show dest + i < 2 ^ 64 by omega)] at heq
  omega

/-- Copies in an order in which no byte is overwritten before it is read. -/
theorem copyEach_range (mem : Bytes) (hdest : dest + size ≤ 2 ^ 64) (hsrc : src + size ≤ 2 ^ 64)
    (his : ∀ i, i ∈ is ↔ i < size)
    (horder : is.Pairwise fun i j => dest + i ≠ src + j ∧ i ≠ j) {i : ℕ} (hi : i < size) :
    copyEach (fun i => wadd dest i) (fun i => wadd src i) mem is (dest + i) = mem (src + i) := by
  have hpairs : is.Pairwise fun i j =>
      wadd dest i ≠ wadd src j ∧ wadd dest j ≠ wadd dest i := by
    refine horder.imp_of_mem fun hi hj hne => ?_
    have hlti := (his _).mp hi
    have hltj := (his _).mp hj
    rw [wadd_of_lt (by omega), wadd_of_lt (by omega), wadd_of_lt (by omega)]
    omega
  have hcopied := copyEach_copied mem hpairs ((his i).mpr hi)
  simp only [wadd_of_lt (show dest + i < 2 ^ 64 by omega),
    wadd_of_lt (show src + i < 2 ^ 64 by omega)] at hcopied
  exact hcopied

/-- **What `memcpy` does** if it reads no byte that it writes. -/
theorem memcpy_spec (mem : Bytes) (hdest : dest + size ≤ 2 ^ 64) (hsrc : src + size ≤ 2 ^ 64)
    (hapart : ∀ i < size, ∀ j < size, dest + i ≠ src + j) :
    (∀ i < size, memcpy mem dest src size (dest + i) = mem (src + i)) ∧
      ∀ x, ¬ (dest ≤ x ∧ x < dest + size) → memcpy mem dest src size x = mem x := by
  refine ⟨fun i hi => ?_, fun x hx => ?_⟩
  · refine copyEach_range mem hdest hsrc (fun i => List.mem_range) ?_ hi
    refine List.pairwise_lt_range.imp_of_mem fun hi hj hlt => ⟨?_, by omega⟩
    exact hapart _ (List.mem_range.mp hi) _ (List.mem_range.mp hj)
  · exact copyEach_outside mem hdest (fun i => List.mem_range.mp) hx

/-- **What `memmove` does**, for ranges that overlap in any way and do not wrap around. -/
theorem memmove_spec (mem : Bytes) (hdest : dest + size ≤ 2 ^ 64) (hsrc : src + size ≤ 2 ^ 64) :
    (∀ i < size, memmove mem dest src size (dest + i) = mem (src + i)) ∧
      ∀ x, ¬ (dest ≤ x ∧ x < dest + size) → memmove mem dest src size x = mem x := by
  unfold memmove
  refine ⟨fun i hi => ?_, fun x hx => ?_⟩
  · split_ifs with habove hbelow
    · -- upwards, every source is above the targets so far
      refine copyEach_range mem hdest hsrc (fun i => List.mem_range) ?_ hi
      exact List.pairwise_lt_range.imp fun hlt => ⟨by omega, by omega⟩
    · -- downwards, every source is below the targets so far
      refine copyEach_range mem hdest hsrc (fun i => by simp) ?_ hi
      rw [List.pairwise_reverse]
      exact List.pairwise_lt_range.imp fun hlt => ⟨by omega, by omega⟩
    · rw [show dest = src by omega]
  · split_ifs with habove hbelow
    · exact copyEach_outside mem hdest (fun i => List.mem_range.mp) hx
    · exact copyEach_outside mem hdest (fun i hi => by simpa using hi) hx
    · rfl

end

/-- A move by one byte upwards, in which all but one byte of the source are overwritten. -/
theorem memmove_spec_overlap :
    (∀ i < 4, memmove UInt8.ofNat 0x1001 0x1000 4 (0x1001 + i) = UInt8.ofNat (0x1000 + i)) ∧
      ∀ x, ¬ (0x1001 ≤ x ∧ x < 0x1001 + 4) →
        memmove UInt8.ofNat 0x1001 0x1000 4 x = UInt8.ofNat x :=
  memmove_spec UInt8.ofNat (by norm_num) (by norm_num)

end MugOS
