import MugOS.Heap

/-!
# The Bitmaps of the Heap, Bit by Bit

What the bit operations of `Heap.c` do to single bits: the search for the first clear bit,
the masks of one block, the mask of an empty chunk, and the bitmaps of Chunguses. Later
modules speak of bits only.

## Main results

* `clzll_not_spec`: the first clear bit that the heap looks for is clear.
* `getMsbD_emptyMask`: an empty chunk has clear bits for its blocks.
* `bit_markUsed`, `bit_markFree`: one bit of a Chungus changes.
* `findFreeChunkInChungus_spec`: a `ChunkInfo` that is found is free.
* `getSmallbucketOrder_eq`: the order of a size.
-/

namespace MugOS.Heap

open WordBitmap

/-! ### Words -/

/-- The number of leading zeros of a word that is not zero is the index of its first set
bit. -/
theorem getMsbD_clzll {x : BitVec 64} (hx : x ≠ 0#64) :
    clzll x < 64 ∧ x.getMsbD (clzll x) = true := by
  have hne : x.toNat ≠ 0 := by
    intro h0
    exact hx (BitVec.eq_of_toNat_eq (by simpa using h0))
  have hlt : x.toNat.log2 < 64 := (Nat.log2_lt hne).mpr x.isLt
  have hidx : 64 - 1 - (63 - x.toNat.log2) = x.toNat.log2 := by omega
  refine ⟨by rw [clzll]; omega, ?_⟩
  rw [BitVec.getMsbD_eq_getLsbD, clzll, hidx, BitVec.getLsbD, Nat.testBit_log2 hne]
  simp only [Bool.and_true, decide_eq_true_eq]
  omega

/-- The bit that `__builtin_clzll(~w)` finds is clear. -/
theorem clzll_not_spec {w : BitVec 64} (hw : w ≠ 0xffffffffffffffff#64) :
    clzll (~~~w) < 64 ∧ w.getMsbD (clzll (~~~w)) = false := by
  have hne : ~~~w ≠ 0#64 := by
    intro h0
    apply hw
    rw [← BitVec.not_not (b := w), h0]
    rfl
  obtain ⟨hlt, hbit⟩ := getMsbD_clzll hne
  refine ⟨hlt, ?_⟩
  rw [BitVec.getMsbD_not] at hbit
  simpa [hlt] using hbit

/-- The mask of bit `n`, counted from the left, has this bit set and no other. -/
theorem getMsbD_bitMask {n j : ℕ} (hj : j < 64) : (bitMask n).getMsbD j = decide (j = n) := by
  have hmsb : ∀ k, (0x8000000000000000#64).getMsbD k = decide (k = 0) := by
    intro k
    by_cases hk : k < 64
    · interval_cases k <;> rfl
    · rw [BitVec.getMsbD_eq_getLsbD, decide_eq_false hk, Bool.false_and,
        decide_eq_false (by omega)]
  rw [bitMask, BitVec.getMsbD_ushiftRight, hmsb]
  by_cases hjn : j = n
  · simp [hjn] at hj ⊢
    exact hj
  · by_cases hlt : j < n
    · simp [hlt, hjn]
    · have : j - n ≠ 0 := by omega
      simp [this, hjn]

/-- Or with the mask of a bit sets this bit and leaves the others as they are. -/
theorem getMsbD_or_bitMask (w : BitVec 64) {n j : ℕ} (hj : j < 64) :
    (w ||| bitMask n).getMsbD j = (w.getMsbD j || decide (j = n)) := by
  rw [BitVec.getMsbD_or, getMsbD_bitMask hj]

/-- And with the complement of the mask of a bit clears this bit and leaves the others as they
are. -/
theorem getMsbD_and_not_bitMask (w : BitVec 64) {n j : ℕ} (hj : j < 64) :
    (w &&& ~~~(bitMask n)).getMsbD j = (w.getMsbD j && decide (j ≠ n)) := by
  rw [BitVec.getMsbD_and, BitVec.getMsbD_not, getMsbD_bitMask hj, decide_eq_true hj]
  simp

/-- **The bitmap of an empty chunk**: the bits of its blocks are clear, the others set. -/
theorem getMsbD_emptyMask {size j : ℕ} (h1 : 64 ≤ size) (h2 : size ≤ pageSize) (hj : j < 64) :
    (emptyMask size).getMsbD j = decide (pageSize / size ≤ j) := by
  have hn1 : 1 ≤ pageSize / size := (Nat.one_le_div_iff (by omega)).mpr h2
  have hn2 : pageSize / size ≤ 64 := by
    simp only [pageSize]
    rw [Nat.div_le_iff_le_mul (by omega)]
    omega
  generalize hn : pageSize / size = n at *
  have hmask : bitMask (n - 1) = 1#64 <<< (64 - n) := by
    apply BitVec.eq_of_toNat_eq
    rw [bitMask, BitVec.toNat_ushiftRight, BitVec.toNat_shiftLeft]
    have hpow : (2 : ℕ) ^ (64 - n) < 2 ^ 64 := Nat.pow_lt_pow_right (by decide) (by omega)
    have hsplit : (9223372036854775808 : ℕ) = 2 ^ (64 - n) * 2 ^ (n - 1) := by
      rw [← pow_add, show 64 - n + (n - 1) = 63 by omega]
      norm_num
    simp only [BitVec.toNat_ofNat, Nat.shiftLeft_eq, Nat.shiftRight_eq_div_pow, one_mul,
      Nat.mod_eq_of_lt hpow, show (9223372036854775808 : ℕ) % 2 ^ 64 = 9223372036854775808 from rfl,
      show (1 : ℕ) % 2 ^ 64 = 1 from rfl]
    rw [hsplit]
    exact Nat.mul_div_cancel _ (by positivity)
  rw [show emptyMask size = 1#64 <<< (64 - n) - 1#64 by rw [emptyMask, hn, hmask]]
  by_cases h64 : n = 64
  · subst h64
    have hzero : (1#64 <<< (64 - 64)) - 1#64 = 0#64 := by decide
    rw [hzero, getMsbD_zeros j hj, decide_eq_false (by omega)]
  · rw [getMsbD_tailMask n j (by omega) (by omega)]
    simp [hj]

/-! ### Chunguses -/

/-- The bitmap of a Chungus has two words, and the bits without a `ChunkInfo` are set. -/
structure Chungus.Wf (chungus : Chungus) : Prop where
  length_eq : chungus.bitmap.length = chungusBitmapSize
  tail : ∀ i, chungusNChunks ≤ i → i < 64 * chungusBitmapSize → bit chungus.bitmap i = true

/-- Marking a `ChunkInfo` as used sets its bit and no other. -/
theorem bit_markUsed {c : Chungus} {i : ℕ} (hi : i / 64 < c.bitmap.length) (j : ℕ) :
    bit (markUsed c i).bitmap j = (bit c.bitmap j || decide (j = i)) := by
  rw [markUsed, bit_set _ _ _ _ hi]
  split
  · rename_i heq
    have hiff : j % 64 = i % 64 ↔ j = i := by omega
    rw [getMsbD_or_bitMask _ (Nat.mod_lt _ (by decide)), heq, decide_eq_decide.mpr hiff]
    rfl
  · rw [decide_eq_false (by omega), Bool.or_false]

/-- Marking a `ChunkInfo` as free clears its bit and no other. -/
theorem bit_markFree {c : Chungus} {i : ℕ} (hi : i / 64 < c.bitmap.length) (j : ℕ) :
    bit (markFree c i).bitmap j = (bit c.bitmap j && decide (j ≠ i)) := by
  rw [markFree, bit_set _ _ _ _ hi]
  split
  · rename_i heq
    have hiff : j % 64 ≠ i % 64 ↔ j ≠ i := by omega
    rw [getMsbD_and_not_bitMask _ (Nat.mod_lt _ (by decide)), heq, decide_eq_decide.mpr hiff]
    rfl
  · rw [decide_eq_true (by omega), Bool.and_true]

/-- Marking a `ChunkInfo` as used keeps the bits behind the last `ChunkInfo` set. -/
theorem Chungus.Wf.markUsed {c : Chungus} (h : c.Wf) {i : ℕ} (hi : i < chungusNChunks) :
    (markUsed c i).Wf := by
  have hlen : i / 64 < c.bitmap.length := by
    rw [h.length_eq]
    simp only [chungusNChunks, chungusBitmapSize, pageSize] at *
    omega
  refine ⟨by simp [Heap.markUsed, h.length_eq], fun j hj hj' => ?_⟩
  rw [bit_markUsed hlen, h.tail j hj hj', Bool.true_or]

/-- Marking a `ChunkInfo` as free keeps the bits behind the last `ChunkInfo` set. -/
theorem Chungus.Wf.markFree {c : Chungus} (h : c.Wf) {i : ℕ} (hi : i < chungusNChunks) :
    (markFree c i).Wf := by
  have hlen : i / 64 < c.bitmap.length := by
    rw [h.length_eq]
    simp only [chungusNChunks, chungusBitmapSize, pageSize] at *
    omega
  refine ⟨by simp [Heap.markFree, h.length_eq], fun j hj hj' => ?_⟩
  rw [bit_markFree hlen, h.tail j hj hj', Bool.true_and, decide_eq_true (by omega)]

/-- In a new Chungus the bits of the `ChunkInfo`s are clear, and those behind the last one are
set. -/
theorem bit_newChungus {i : ℕ} (hi : i < 64 * chungusBitmapSize) :
    bit [0#64, invalidMask] i = decide (chungusNChunks ≤ i) := by
  revert i
  decide +kernel

/-- A new Chungus is well-formed, whatever its `ChunkInfo`s hold. -/
theorem wf_newChungus (chunks : ℕ → ChunkInfo) : Chungus.Wf ⟨[0#64, invalidMask], chunks⟩ :=
  ⟨rfl, fun _ hi hi' => (bit_newChungus hi').trans (decide_eq_true hi)⟩

/-- **A `ChunkInfo` that is found** in a Chungus has a clear bit, which says that it is
free. -/
theorem findFreeChunkInChungus_spec {c : Chungus} {index : ℕ}
    (h : findFreeChunkInChungus c = some index) : bit c.bitmap index = false := by
  obtain ⟨i, hi, hword⟩ := List.exists_of_findSome?_eq_some h
  split at hword
  · exact absurd hword (by simp)
  · rename_i hne
    obtain ⟨hlt, hclear⟩ := clzll_not_spec hne
    rw [← Option.some.inj hword, bit,
      show (64 * i + clzll (~~~(word c.bitmap i))) / 64 = i by omega,
      show (64 * i + clzll (~~~(word c.bitmap i))) % 64 = clzll (~~~(word c.bitmap i)) by omega]
    exact hclear

/-- In a Chungus that counts as empty the bit of every `ChunkInfo` is clear. -/
theorem bit_of_isChungusEmpty {c : Chungus} (h : isChungusEmpty c = true) {i : ℕ}
    (hi : i < chungusNChunks) : bit c.bitmap i = false := by
  have hmask : ∀ j < 64, invalidMask.getMsbD j = decide (37 ≤ j) := by decide +kernel
  simp only [isChungusEmpty, Bool.and_eq_true, List.all_eq_true, List.mem_range,
    decide_eq_true_eq, chungusBitmapSize] at h
  obtain ⟨hfirst, hlast⟩ := h
  have hlt : i % 64 < 64 := Nat.mod_lt _ (by decide)
  rw [bit]
  by_cases hi64 : i < 64
  · rw [show i / 64 = 0 by omega, hfirst 0 (by norm_num)]
    exact getMsbD_zeros _ hlt
  · simp only [chungusNChunks, pageSize] at hi
    rw [show i / 64 = 1 by omega]
    have hbit := congrArg (fun w => w.getMsbD (i % 64)) hlast
    simp only [BitVec.getMsbD_and, BitVec.getMsbD_not, hmask _ hlt] at hbit
    simpa [hlt, show ¬ 37 ≤ i % 64 by omega] using hbit

/-! ### Orders -/

/-- The order of a size: the buckets are for the powers of two from `MIN_BLOCK_SIZE` on. -/
theorem getSmallbucketOrder_eq {size : ℕ} (h1 : minBlockSize ≤ size)
    (h2 : size < bigbucketThreshold) :
    getSmallbucketOrder size = .ok ((size - 1).log2 + 1 - smallbucketsOffset) := by
  have hne : size - 1 ≠ 0 := by
    simp only [minBlockSize] at h1
    omega
  have hlt : size - 1 < 2 ^ 64 := by
    simp only [bigbucketThreshold, pageSize] at h2
    omega
  have hlog : (size - 1).log2 < 64 := (Nat.log2_lt hne).mpr hlt
  have hclz : clzll (BitVec.ofNat 64 (size - 1)) = 63 - (size - 1).log2 := by
    rw [clzll, BitVec.toNat_ofNat, Nat.mod_eq_of_lt hlt]
  rw [getSmallbucketOrder, if_neg (by omega), hclz]
  congr 2
  omega

end MugOS.Heap
