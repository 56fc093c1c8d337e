import MugOS.SlabCalls

/-!
# How Deep the Slab Allocator Calls Itself

The header of a slab of large objects comes from `kmalloc`, which can need a new slab in turn. A
header is small, though, so that its own slab has its header within: the second call of `kmalloc`
is the last.

## Main results

* `growCache_congr`: a cache grows with one call of `kmalloc` at most, for the header of a slab.
* `cacheMalloc_step_onslab`: a cache whose slabs have their headers within does not call `kmalloc`.
* `slab_geometry_sound`: the geometry of every object size, and the depth of the recursion.
-/

namespace MugOS.SlabAllocator

open LinkedList

/-! ### One level of the recursion -/

/-- The body of `Cache_malloc`, with `inner` for the calls of `Cache_malloc` that it makes through
`growCache`, `allocateSlab` and `kmalloc`. -/
def cacheMallocStep (src : PageSource) (inner : State → CacheRef → Except Fault (ℕ × State))
    (s : State) (c : CacheRef) : Except Fault (ℕ × State) :=
  if ¬ isEmpty s.links (.slabs c .partialSlabs) then mallocPartial s c
  else if ¬ isEmpty s.links (.slabs c .emptySlabs) then mallocEmpty s c
  else do
    let (grown, s) ← growCache src (kmallocWith inner) s c
    if grown then mallocEmpty s c else return (0, s)

/-- `Cache_malloc` with one more level of recursion is its body, around itself with one level
less. -/
theorem cacheMalloc_succ (src : PageSource) (depth : ℕ) (s : State) (c : CacheRef) :
    cacheMalloc src (depth + 1) s c = cacheMallocStep src (cacheMalloc src depth) s c := rfl

/-- The number of bytes that a slab asks `kmalloc` for: its header and its list of free
objects. -/
def Cache.headerSize (cache : Cache) : ℕ := sizeofSlab + getSlabFreelistSize cache.nObjects

/-- **A cache grows with one call of `kmalloc` at most**: that for the header of a slab that does
not have it within. -/
theorem growCache_congr {src : PageSource} {k k' : State → ℕ → Except Fault (ℕ × State)}
    {s : State} {c : CacheRef}
    (h : (s.caches c).offslab = true →
      k s (s.caches c).headerSize = k' s (s.caches c).headerSize) :
    growCache src k s c = growCache src k' s c := by
  have hslab : allocateSlab src k s (s.caches c).nPages (s.caches c).nObjects
      (s.caches c).offslab = allocateSlab src k' s (s.caches c).nPages (s.caches c).nObjects
        (s.caches c).offslab := by
    unfold allocateSlab
    cases hoff : (s.caches c).offslab with
    | false => simp only [Bool.false_eq_true, if_false]
    | true =>
        have hcall := h hoff
        rw [Cache.headerSize] at hcall
        simp only [if_true, hcall]
  unfold growCache
  simp only [hslab]

/-- **A cache whose slabs have their headers within** does not call `kmalloc`. -/
theorem cacheMalloc_step_onslab {src : PageSource} {s : State} {c : CacheRef}
    (h : (s.caches c).offslab = false)
    (inner inner' : State → CacheRef → Except Fault (ℕ × State)) :
    cacheMallocStep src inner s c = cacheMallocStep src inner' s c := by
  have hgrow : growCache src (kmallocWith inner) s c = growCache src (kmallocWith inner') s c :=
    growCache_congr fun hoff => absurd hoff (by simp [h])
  unfold cacheMallocStep
  rw [hgrow]

/-! ### The caches of headers -/

/-- The caches of objects of up to 256 bytes have slabs with their headers within. -/
theorem onslab_of_le {size : ℕ} (hle : size ≤ 256) :
    getKmallocCache size < kmallocNCaches ∧
      (geometry (kmallocMinCacheSize * 2 ^ getKmallocCache size) false).offslab = false := by
  have hspec := @getKmallocCache_spec size (by simp only [kmallocMaxCacheSize]; omega)
  have hidx : getKmallocCache size ≤ 3 := by
    unfold getKmallocCache
    split
    · omega
    · rename_i hlarge
      have hlog : (size - 1).log2 < 8 := by
        rw [Nat.log2_lt (by simp only [kmallocMinCacheSize] at hlarge; omega)]
        omega
      simp only [kmallocCachesOffset]
      omega
  refine ⟨hspec.1, ?_⟩
  generalize getKmallocCache size = i at hidx
  revert i
  decide

/-- **Two levels are enough**: what a third one would do does not matter. -/
theorem cacheMalloc_step_step {src : PageSource} {s : State} (hready : KmallocReady s)
    {c : CacheRef} (hwf : (s.caches c).Wf)
    (inner inner' : State → CacheRef → Except Fault (ℕ × State)) :
    cacheMallocStep src (cacheMallocStep src inner) s c =
      cacheMallocStep src (cacheMallocStep src inner') s c := by
  have hgrow : growCache src (kmallocWith (cacheMallocStep src inner)) s c =
      growCache src (kmallocWith (cacheMallocStep src inner')) s c := by
    refine growCache_congr fun hoff => ?_
    have hheader : (s.caches c).headerSize ≤ 256 := by
      have := hwf.header hoff
      simp only [Cache.headerSize, getSlabFreelistSize]
      omega
    -- The header comes from a cache whose slabs have their headers within.
    obtain ⟨hidx, hon⟩ := onslab_of_le hheader
    unfold kmallocWith
    split
    · rfl
    · refine cacheMalloc_step_onslab ?_ inner inner'
      rw [hready _ hidx]
      exact hon
  unfold cacheMallocStep at hgrow ⊢
  rw [hgrow]

/-! ### The geometry in the terms of the source -/

/-- Where `allocateSlab` puts the objects of a slab that has its header within. -/
def Cache.payloadOf (cache : Cache) (slab : ℕ) : ℕ :=
  align (wadd slab (sizeofSlab + getSlabFreelistSize cache.nObjects))

/-- **What `initCache` computes is sound.** There are at least two objects, and an `int` holds
their number. On a slab with its header within, header, list of free objects, padding and objects
end within the pages, and the objects begin in the first one; otherwise the objects fit into the
pages, and what `kmalloc` is asked for comes from a cache that exists, has objects that are large
enough, and whose slabs have their headers within. -/
structure Cache.Sound (cache : Cache) : Prop where
  two_le : 2 ≤ cache.nObjects
  int : cache.nObjects < 2 ^ 31
  within : cache.offslab = false → ∀ slab, slab % pageSize = 0 →
    slab + cache.nPages * pageSize ≤ 2 ^ 64 →
    slab + sizeofSlab + getSlabFreelistSize cache.nObjects ≤ cache.payloadOf slab ∧
    cache.payloadOf slab % objRound = 0 ∧ cache.payloadOf slab < slab + pageSize ∧
    cache.payloadOf slab + cache.nObjects * cache.objSize ≤ slab + cache.nPages * pageSize
  apart : cache.offslab = true → cache.nObjects * cache.objSize ≤ cache.nPages * pageSize ∧
    cache.headerSize ≠ 0 ∧ cache.headerSize ≤ kmallocMaxCacheSize ∧
    getKmallocCache cache.headerSize < kmallocNCaches ∧
    cache.headerSize ≤ kmallocMinCacheSize * 2 ^ getKmallocCache cache.headerSize ∧
    (geometry (kmallocMinCacheSize * 2 ^ getKmallocCache cache.headerSize) false).offslab = false

/-- The objects of a slab with its header on it begin at the offset that the geometry gives. -/
theorem Cache.payloadOf_eq {cache : Cache} (hwf : cache.Wf) (hoff : cache.offslab = false)
    {slab : ℕ} (hslab : slab % pageSize = 0) (hfits : slab + cache.nPages * pageSize ≤ 2 ^ 64) :
    cache.payloadOf slab = slab + cache.offset := by
  have hpages := hwf.nPages_pos
  have hlt := hwf.offset_lt
  have hoffset : cache.offset = (sizeofSlab + 4 * cache.nObjects + 7) / 8 * 8 := by
    simp [Cache.offset, hoff]
  simp only [pageSize] at *
  have hround : slab + 4096 ≤ 2 ^ 64 := by
    have : 1 * 4096 ≤ cache.nPages * 4096 := Nat.mul_le_mul_right _ hpages
    omega
  have hsum : wadd slab (sizeofSlab + getSlabFreelistSize cache.nObjects) =
      slab + (sizeofSlab + 4 * cache.nObjects) := by
    rw [getSlabFreelistSize, mul_comm, wadd_of_lt]
    omega
  rw [Cache.payloadOf, hsum, align, roundMultiple, hoffset]
  simp only [objRound, sizeofSlab] at *
  rw [wadd_of_lt (by omega)]
  omega

/-- A well-formed geometry is sound: its objects fit the pages and at least two of them do. -/
theorem Cache.Wf.sound {cache : Cache} (hwf : cache.Wf) : cache.Sound where
  two_le := hwf.two_le
  int := by
    have := hwf.few
    omega
  within := by
    intro hoff slab hslab hfits
    have hge := Cache.offset_ge hoff
    have hround := cache.offset_round
    have hlt := hwf.offset_lt
    have hend := hwf.fits
    rw [Cache.payloadOf_eq hwf hoff hslab hfits]
    simp only [getSlabFreelistSize, pageSize, objRound, sizeofSlab] at *
    refine ⟨by omega, by omega, by omega, by omega⟩
  apart := by
    intro hoff
    have hheader : cache.headerSize ≤ 256 := by
      have := hwf.header hoff
      simp only [Cache.headerSize, getSlabFreelistSize]
      omega
    have hle : cache.headerSize ≤ kmallocMaxCacheSize := by
      simp only [kmallocMaxCacheSize]
      omega
    have hfits := hwf.fits
    obtain ⟨hidx, hroom⟩ := getKmallocCache_spec hle
    refine ⟨by omega, ?_, hle, hidx, hroom, (onslab_of_le hheader).2⟩
    simp only [Cache.headerSize, sizeofSlab]
    omega

/-- **The geometry of slabs is sound, and the recursion is two calls deep.** For every object size
from 1 to `2 ^ 58` the geometry that `initCache` computes is sound; and in every state with the
caches of `kmalloc`, as every state has that is reached, a `Cache_malloc` of a cache with this
geometry, and a `kmalloc` of any size, do the same whatever a third nested call would do: it is
never made. -/
theorem slab_geometry_sound {objsize : ℕ} (hpos : 1 ≤ objsize) (hlt : objsize < 2 ^ 58)
    (constructed : Bool) :
    (geometry objsize constructed).Sound ∧
      (∀ (src : PageSource) (s : State), KmallocReady s →
        (∀ c, s.caches c = geometry objsize constructed → ∀ inner,
          cacheMallocStep src (cacheMallocStep src inner) s c = cacheMalloc src 2 s c) ∧
        ∀ size inner,
          kmallocWith (cacheMallocStep src (cacheMallocStep src inner)) s size =
            kmalloc src 2 s size) ∧
      ∀ src depth s, Reached src depth s → KmallocReady s := by
  have hwf := wf_geometry hpos hlt constructed
  refine ⟨hwf.sound, ?_, fun src depth s h => h.kmallocReady⟩
  intro src s hready
  refine ⟨?_, ?_⟩
  · intro c hc inner
    exact cacheMalloc_step_step hready (hc ▸ hwf) inner fun _ _ => .error .diverges
  · intro size inner
    unfold kmalloc kmallocWith
    split
    · rfl
    · rename_i hsize
      have hspec := @getKmallocCache_spec size (by omega)
      have hcache := hready _ hspec.1
      have hobj : 1 ≤ kmallocMinCacheSize * 2 ^ getKmallocCache size ∧
          kmallocMinCacheSize * 2 ^ getKmallocCache size < 2 ^ 58 := by
        have := hspec.1
        generalize getKmallocCache size = i at this
        revert i
        decide
      exact cacheMalloc_step_step hready (hcache ▸ wf_geometry hobj.1 hobj.2 false) inner
        fun _ _ => .error .diverges

/-- Memory of which nothing is known. -/
def noSlabs : ℕ → Slab := fun _ => ⟨none, 0, 0, 0, fun _ => 0⟩

/-- The geometry of objects of 1024 bytes, whose slabs have their headers elsewhere, and the depth
of the recursion for them right after `SlabAllocator_init`. -/
theorem slab_geometry_sound_1024 :
    (geometry 1024 false).offslab = true ∧ (geometry 1024 false).headerSize = 120 ∧
      (geometry 1024 false).Sound ∧
      ∃ s, slabAllocatorInit (State.static noSlabs) = .ok s ∧
        cacheMallocStep (fun _ _ _ _ => 0) (cacheMallocStep (fun _ _ _ _ => 0)
          fun _ _ => .error .wild) s (.kmalloc 5) =
            cacheMalloc (fun _ _ _ _ => 0) 2 s (.kmalloc 5) := by
  have hsound := @slab_geometry_sound 1024 (by decide) (by decide) false
  have hok : (slabAllocatorInit (State.static noSlabs)).toBool = true := by decide +kernel
  refine ⟨by decide, by decide, hsound.1, ?_⟩
  cases hinit : slabAllocatorInit (State.static noSlabs) with
  | error f =>
      rw [hinit] at hok
      exact absurd hok (by simp [Except.toBool])
  | ok s =>
      have hready := kmallocReady_init hinit
      exact ⟨s, rfl, (hsound.2.1 _ s hready).1 _ (hready 5 (by decide)) _⟩

end MugOS.SlabAllocator
