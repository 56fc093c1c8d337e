import MugOS.SlabAllocator

/-!
# The Geometry of Slabs

The number of pages and objects of a slab that `initCache` computes: the header, the list of
free objects and the objects fit into the pages, and a header that is an object of `kmalloc`
fits into it.

## Main results

* `wf_geometry`: the geometry of every object size.
* `getKmallocCache_spec`: the cache of a `kmalloc` request has room for it.
-/

namespace MugOS.SlabAllocator

/-- Where the objects of a slab begin, relative to its first page. -/
def Cache.offset (cache : Cache) : ℕ :=
  if cache.offslab then 0 else (sizeofSlab + 4 * cache.nObjects + 7) / 8 * 8

/-- **A sound geometry**: the objects of a slab fit into its pages, behind the header if that is
there, and there are at least two of them; a header that is elsewhere is not large. -/
structure Cache.Wf (cache : Cache) : Prop where
  objSize_pos : 0 < cache.objSize
  objSize_round : cache.objSize % 8 = 0
  two_le : 2 ≤ cache.nObjects
  few : cache.nObjects ≤ 336
  nPages_pos : 0 < cache.nPages
  offset_lt : cache.offset < pageSize
  fits : cache.offset + cache.nObjects * cache.objSize ≤ cache.nPages * pageSize
  header : cache.offslab = true → sizeofSlab + 4 * cache.nObjects ≤ 256

/-- The objects of a slab begin at a multiple of eight, whatever the cache. -/
theorem Cache.offset_round (cache : Cache) : cache.offset % 8 = 0 := by
  unfold Cache.offset
  split
  · rfl
  · omega

/-- On a slab with its header the objects begin behind the list of free objects. -/
theorem Cache.offset_ge {cache : Cache} (h : cache.offslab = false) :
    sizeofSlab + 4 * cache.nObjects ≤ cache.offset := by
  simp only [Cache.offset, h, Bool.false_eq_true, if_false]
  omega

/-- The objects of a slab with its header: rounding up the end of the list of free objects costs
no object, as what is left over is a multiple of four but not of eight. -/
theorem onslab_fits {n m pages : ℕ} (hpages : 1 ≤ pages)
    (h : n * (8 * m + 4) ≤ pages * pageSize - sizeofSlab) :
    (sizeofSlab + 4 * n + 7) / 8 * 8 + n * (8 * m) ≤ pages * pageSize := by
  have hsplit : n * (8 * m + 4) = 8 * (n * m) + 4 * n := by ring
  have hsplit' : n * (8 * m) = 8 * (n * m) := by ring
  rw [hsplit] at h
  rw [hsplit']
  simp only [pageSize, sizeofSlab] at *
  omega

/-- The geometry of small objects, whose slabs have their headers. -/
theorem wf_onslab {m : ℕ} (hm : 1 ≤ m) (hle : m ≤ 64) {pages n : ℕ}
    (hpages : pages = (128 * m + 4095) / 4096)
    (hn : n = (pages * pageSize - sizeofSlab) / (8 * m + 4)) (constructed : Bool) :
    (⟨false, 8 * m, pages, n, constructed⟩ : Cache).Wf := by
  have hpos : 0 < 8 * m + 4 := by omega
  have hpages' : pages = 1 ∧ m ≤ 32 ∨ pages = 2 ∧ 33 ≤ m := by omega
  have hmul : n * (8 * m + 4) ≤ pages * pageSize - sizeofSlab := by
    rw [hn]
    exact Nat.div_mul_le_self _ _
  have hlow : 15 ≤ n := by
    rw [hn, Nat.le_div_iff_mul_le hpos]
    simp only [pageSize, sizeofSlab]
    omega
  have hhigh : n ≤ 336 := by
    have hle12 : n * 12 ≤ n * (8 * m + 4) := Nat.mul_le_mul_left n (by omega)
    rcases hpages' with ⟨rfl, -⟩ | ⟨rfl, hm33⟩
    · simp only [pageSize, sizeofSlab] at hmul
      omega
    · have hle268 : n * 268 ≤ n * (8 * m + 4) := Nat.mul_le_mul_left n (by omega)
      simp only [pageSize, sizeofSlab] at hmul
      omega
  refine ⟨by simp only; omega, by simp only; omega, by simp only; omega, hhigh,
    by simp only; omega, ?_, ?_, by simp⟩
  · simp only [Cache.offset, Bool.false_eq_true, if_false, sizeofSlab, pageSize]
    omega
  · simp only [Cache.offset, Bool.false_eq_true, if_false]
    exact onslab_fits (by omega) hmul

/-- The geometry of large objects, with the header outside of the slab, is well-formed. -/
theorem wf_offslab {m : ℕ} (hm : 65 ≤ m) {pages n : ℕ} (hpages : pages = (128 * m + 4095) / 4096)
    (hn : n = pages * pageSize / (8 * m)) (constructed : Bool) :
    (⟨true, 8 * m, pages, n, constructed⟩ : Cache).Wf := by
  have hpos : 0 < 8 * m := by omega
  have hmul : n * (8 * m) ≤ pages * pageSize := by
    rw [hn]
    exact Nat.div_mul_le_self _ _
  have hlow : 16 ≤ n := by
    rw [hn, Nat.le_div_iff_mul_le hpos]
    simp only [pageSize]
    omega
  have hhigh : n ≤ 23 := by
    by_contra hge
    have : 24 * (8 * m) ≤ n * (8 * m) := Nat.mul_le_mul_right _ (by omega)
    simp only [pageSize] at hmul
    omega
  refine ⟨hpos, by simp only; omega, by simp only; omega, by simp only; omega,
    by simp only; omega, by simp [Cache.offset], ?_, ?_⟩
  · simp only [Cache.offset, if_true]
    omega
  · intro _
    simp only [sizeofSlab]
    omega

/-- **The geometry of every object size** from 1 to below `2 ^ 58` is well-formed, small or
large. -/
theorem wf_geometry {objsize : ℕ} (hpos : 1 ≤ objsize) (hlt : objsize < 2 ^ 58)
    (constructed : Bool) : (geometry objsize constructed).Wf := by
  obtain ⟨m, hm, hm1, hm2⟩ : ∃ m, roundMultiple objsize = 8 * m ∧ 1 ≤ m ∧ m ≤ 2 ^ 55 := by
    refine ⟨(objsize + 7) / 8, ?_, by omega, by omega⟩
    rw [roundMultiple, wadd_of_lt (by simp only [objRound]; omega)]
    simp only [objRound]
    omega
  have hpages : (slabTargetNObj * (8 * m) + pageSize - 1) % 2 ^ 64 / pageSize =
      (128 * m + 4095) / 4096 := by
    simp only [slabTargetNObj, pageSize]
    rw [Nat.mod_eq_of_lt (by omega)]
    congr 1
    omega
  unfold geometry
  simp only [hm, hpages]
  by_cases hoff : 8 * m > slabOffslabThreshold
  · have hm65 : 65 ≤ m := by
      simp only [slabOffslabThreshold] at hoff
      omega
    simp only [hoff, decide_true, if_true]
    exact wf_offslab hm65 rfl rfl constructed
  · have hm64 : m ≤ 64 := by
      simp only [slabOffslabThreshold] at hoff
      omega
    simp only [hoff, decide_false, Bool.false_eq_true, if_false]
    exact wf_onslab hm1 hm64 rfl rfl constructed

/-- The geometry that `m_cacheCache` is initialised with is well-formed. -/
theorem wf_cacheCacheInit : cacheCacheInit.Wf := by
  refine ⟨?_, ?_, ?_, ?_, ?_, ?_, ?_, ?_⟩ <;> decide

/-- The objects of the caches of `kmalloc` have the size of the cache, as it is a power of two
from eight on. -/
theorem objSize_kmalloc {i : ℕ} (h : i < kmallocNCaches) :
    (geometry (kmallocMinCacheSize * 2 ^ i) false).objSize = kmallocMinCacheSize * 2 ^ i := by
  revert i
  decide

/-- **The cache of a `kmalloc` request** exists and has objects that are large enough. -/
theorem getKmallocCache_spec {size : ℕ} (hle : size ≤ kmallocMaxCacheSize) :
    getKmallocCache size < kmallocNCaches ∧
      size ≤ kmallocMinCacheSize * 2 ^ getKmallocCache size := by
  unfold getKmallocCache
  split
  · rename_i hsmall
    exact ⟨by decide, by simpa using hsmall⟩
  · rename_i hlarge
    have hne : size - 1 ≠ 0 := by
      simp only [kmallocMinCacheSize] at hlarge
      omega
    have hlow : 5 ≤ (size - 1).log2 := by
      rw [Nat.le_log2 hne]
      simp only [kmallocMinCacheSize] at hlarge
      omega
    have hhigh : (size - 1).log2 < 16 := by
      rw [Nat.log2_lt hne]
      simp only [kmallocMaxCacheSize] at hle
      omega
    have hpow : size - 1 < 2 ^ ((size - 1).log2 + 1) := (Nat.log2_lt hne).mp (Nat.lt_succ_self _)
    obtain ⟨e, he⟩ : ∃ e, (size - 1).log2 = e + 4 := ⟨(size - 1).log2 - 4, by omega⟩
    simp only [he, kmallocCachesOffset, kmallocNCaches, kmallocMinCacheSize] at *
    refine ⟨by omega, ?_⟩
    have hexp : 32 * 2 ^ (e + 4 + 1 - 5) = 2 ^ (e + 4 + 1) := by
      rw [show e + 4 + 1 - 5 = e by omega, show e + 4 + 1 = e + 5 by omega, pow_add]
      ring
    omega

end MugOS.SlabAllocator
