import MugOS.HeapRealloc

/-!
# Blocks Are Moved

What `Heap_realloc` does in every run in which the entry of the old block outlives the allocation
of the new one: the block is copied and the old one is freed, and all other live blocks keep their
bytes and their entries in the hash map.

## Main results

* `ReallocInv.malloc`, `ReallocInv.freeEntry`: an allocation and a free return, and they keep the
  invariant and the other live blocks.
* `ReallocInv.realloc`: so does a reallocation, which moves its block.
* `heap_realloc_run`: blocks are moved in every such run.
* `heap_realloc_run_twoPages`: the block of a page is moved to two pages.
-/

namespace MugOS.Heap

open WordBitmap Hashmap LinkedList Links

/-! ### Live blocks that stay -/

/-- No block is described by a slot of the cache. -/
def Uncached (s : State) : Prop := ∀ k slot, ¬ s.Reg k (.cached slot)

/-- The block at an address is in use, with the entry of the hash map and the base and the size
that it had before. -/
structure Preserved (s s' : State) (ptr : ℕ) : Prop where
  inUse : InUse s' ptr
  info : ∀ v c, s.Reg (getPage ptr) v → s.chunk v = .ok c →
    s'.Reg (getPage ptr) v ∧ ∃ c', s'.chunk v = .ok c' ∧ c'.base = c.base ∧ c'.size = c.size

section

variable {s s' s'' : State} {owner owner' : ℕ → Option Owner} {B B' : ℕ → List (ℕ × ℕ)}
  {live live' : List ℕ} {ptr : ℕ}

/-- Two changes in a row that each preserve a block and its bytes preserve it together. -/
theorem Preserved.trans (h : Preserved s s' ptr) (h' : Preserved s' s'' ptr) :
    Preserved s s'' ptr where
  inUse := h'.inUse
  info := by
    intro v c hv hc
    obtain ⟨hv', c', hc', hbase, hsize⟩ := h.info v c hv hc
    obtain ⟨hv'', c'', hc'', hbase', hsize'⟩ := h'.info v c' hv' hc'
    exact ⟨hv'', c'', hc'', hbase'.trans hbase, hsize'.trans hsize⟩

/-- The base of a registered chunk is the page of its blocks. -/
theorem Consistent.base_eq (h : Consistent s owner B live) {k page index : ℕ}
    (hreg : s.Reg k (.pool page index)) : (s.info page index).base = k :=
  (h.shape.pool_wf hreg).1

/-- The bytes of a live block are in use, so no call but its own free or move changes them. -/
theorem Consistent.inUse (h : Consistent s owner B live) (hptr : ptr ∈ live) : InUse s ptr := by
  obtain ⟨v, hv⟩ := h.live.reg ptr hptr
  refine ⟨v, hv, ?_⟩
  rintro page index rfl hsmall
  obtain ⟨i, -, heq, hbit⟩ := h.live.small ptr hptr page index hv hsmall
  have hbase := h.base_eq hv
  have hpos : 0 < (s.info page index).size :=
    lt_of_lt_of_le (by decide) (h.shape.pool_wf hv).2.size_ge
  have hoffset : getOffset ptr = i * (s.info page index).size := by
    unfold getPage at hbase
    unfold getOffset
    simp only [pageSize] at *
    omega
  rwa [hoffset, Nat.mul_div_cancel _ hpos]

/-- A live block that keeps its entry and the size of its chunk. -/
theorem Consistent.preserved (h : Consistent s owner B live) (h' : Consistent s' owner' B' live')
    (huncached : Uncached s) (hptr : ptr ∈ live')
    (hreg : ∀ v, s.Reg (getPage ptr) v → s'.Reg (getPage ptr) v)
    (hsize : ∀ page index, s.Reg (getPage ptr) (.pool page index) →
      (s'.info page index).size = (s.info page index).size) : Preserved s s' ptr where
  inUse := h'.inUse hptr
  info := by
    intro v c hv hc
    refine ⟨hreg v hv, ?_⟩
    cases v with
    | null => cases h.shape.refs _ _ hv
    | cached slot => exact absurd hv (huncached _ slot)
    | pool page index =>
        obtain rfl := Except.ok.inj hc
        exact ⟨s'.info page index, rfl, (h'.base_eq (hreg _ hv)).trans (h.base_eq hv).symm,
          hsize page index hv⟩

/-- The blocks are live in whatever order they are listed. -/
theorem Live.perm (h : Live s live) (hperm : live.Perm live') : Live s live' :=
  ⟨hperm.nodup_iff.mp h.nodup, fun p hp => h.reg p (hperm.mem_iff.mpr hp),
    fun p hp => h.small p (hperm.mem_iff.mpr hp), fun p hp => h.big p (hperm.mem_iff.mpr hp)⟩

end

/-! ### The invariant -/

/-- **The invariant**: the live blocks have room, the loops end, and no block is described by a
slot of the cache. -/
structure ReallocInv (m : Session) : Prop extends BlocksInv m where
  counted : Counted m.heap
  uncached : Uncached m.heap

/-- A request that has a bucket whose first chunk has blocks that are large enough, or that is not
served from the cache. -/
def Served (s : State) (size : ℕ) : Prop :=
  (size ≤ bigbucketThreshold / 2 ∨ bigbucketThreshold ≤ size) ∧ HeadFits s size ∧
    (bigbucketThreshold ≤ size → fittingSlot s.freeCache size = none)

/-- A chunk that the free of a block gives back is not one of a full Chungus. -/
def ReleasesFit (s : State) (ptr : ℕ) : Prop :=
  ∀ page index, s.Reg (getPage ptr) (.pool page index) → Releases s ptr page index →
    isChungusFull (s.memory page) = false

/-- The heap at the start, with no live block, satisfies the invariant of the moves. -/
theorem ReallocInv.start (memory : ℕ → Chungus) : ReallocInv (.start memory) where
  toBlocksInv := .start memory
  counted := counted_start memory
  uncached := by
    rintro k slot ⟨-, i, hi, -⟩
    simp [Session.start, State.start, Hashmap.empty] at hi

section

variable {src : PageSource} (hsrc : src.Sound) {m : Session} (h : ReallocInv m)

include h

/-- A live block is described by a `ChunkInfo` of the pool that has room for it. -/
theorem ReallocInv.info {b : ℕ × ℕ} (hb : b ∈ m.live) :
    ∃ page index, m.heap.Reg (getPage b.1) (.pool page index) ∧
      b.2 ≤ (m.heap.info page index).size := by
  obtain ⟨owner, B, hc, -⟩ := h.consistent
  obtain ⟨v, hv⟩ := hc.live.reg b.1 (List.mem_map_of_mem hb)
  cases v with
  | null => cases hc.shape.refs _ _ hv
  | cached slot => exact absurd hv (h.uncached _ slot)
  | pool page index => exact ⟨page, index, hv, (h.sizes b hb _ hv _ rfl).1⟩

/-- No live block has the address 0, which stands for a refused request. -/
theorem ReallocInv.ne_zero {ptr size : ℕ} (hlive : (ptr, size) ∈ m.live) : ptr ≠ 0 := by
  obtain ⟨page, index, hreg, -⟩ := h.info hlive
  rintro rfl
  have hzero : getPage 0 = 0 := rfl
  exact hreg.1 hzero

include hsrc in
/-- **An allocation** returns and keeps the invariant and the live blocks. -/
theorem ReallocInv.malloc {size : ℕ} (hserved : Served m.heap size) :
    ∃ res s', malloc src m.heap size = .ok (res, s') ∧ Enters src m.heap s' ∧
      (∀ b ∈ m.live, Preserved m.heap s' b.1) ∧ (res = 0 → ReallocInv ⟨s', m.live⟩) ∧
      (res ≠ 0 → ReallocInv ⟨s', (res, size) :: m.live⟩) := by
  obtain ⟨hsize, hfits, hslot⟩ := hserved
  obtain ⟨owner, B, hc, -⟩ := h.consistent
  obtain ⟨res, s', hok, hspend⟩ := malloc_total hsrc hc h.counted
    (fun hsmall => hasBucket_chunkSize (hsize.resolve_right (by omega))) hslot
  obtain ⟨owner', B', hg, -, hout⟩ := malloc_keeps hsrc hc hslot hok
  obtain ⟨hnull, hblock⟩ := h.toBlocksInv.malloc hsrc hfits hok
  have huncached : Uncached s' := by
    intro k slot hk
    obtain ⟨C, hreg, -⟩ := hspend
    rcases hreg k _ hk with hk | ⟨page, index, heq, -⟩
    · exact h.uncached k slot hk
    · cases heq
  have hpreserved : ∀ live', Consistent s' owner' B' live' →
      (∀ p ∈ m.live.map Prod.fst, p ∈ live') → ∀ b ∈ m.live, Preserved m.heap s' b.1 := by
    intro live' hc' hsub b hb
    exact hc.preserved hc' h.uncached (hsub _ (List.mem_map_of_mem hb)) (hg.reg _) (hg.size _)
  refine ⟨res, s', hok, malloc_enters hsrc hc.shape hc.lists hslot hok, ?_,
    fun hzero => ⟨hnull hzero, h.counted.spends hspend, huncached⟩,
    fun hne => ⟨hblock hne, h.counted.spends hspend, huncached⟩⟩
  cases hout with
  | null hc' _ => exact hpreserved _ hc' fun p hp => hp
  | block page index _ hc' _ _ _ _ _ =>
      exact hpreserved _ hc' fun p hp => List.mem_cons_of_mem _ hp

/-- **The free of a block** through its entry returns and keeps the invariant and the other live
blocks. -/
theorem ReallocInv.freeEntry {ptr size entry page index : ℕ} (hlive : (ptr, size) ∈ m.live)
    (hentry : entry < m.heap.allocMap.totalEntries)
    (hkey : keyAt m.heap.allocMap.entries entry = getPage ptr)
    (hvalue : (entryAt m.heap.allocMap.entries entry).value = .pool page index)
    (hreg : m.heap.Reg (getPage ptr) (.pool page index)) (hfits : ReleasesFit m.heap ptr) :
    ∃ s', (if (m.heap.info page index).size < bigbucketThreshold then
          freeSmallbucket m.heap entry ptr
        else freeLargebucket m.heap entry) = .ok s' ∧
      ReallocInv ⟨s', m.live.erase (ptr, size)⟩ ∧ ¬ InUse s' ptr ∧
      ∀ b ∈ m.live.erase (ptr, size), Preserved m.heap s' b.1 := by
  obtain ⟨owner, B, hc, -⟩ := h.consistent
  have hptr : ptr ∈ m.live.map Prod.fst := List.mem_map.mpr ⟨_, hlive, rfl⟩
  obtain ⟨s', hok, hspend, hgone⟩ : ∃ s', (if (m.heap.info page index).size < bigbucketThreshold
      then freeSmallbucket m.heap entry ptr else freeLargebucket m.heap entry) = .ok s' ∧
      Spends m.heap s' ∧ ¬ InUse s' ptr := by
    split
    · rename_i hsmall
      obtain ⟨order, horder, hsmallorder⟩ := (h.sizes _ hlive _ hreg _ rfl).2 hsmall
      exact freeSmallbucket_total hc h.counted hptr hentry hkey hvalue hreg hsmall horder
        hsmallorder (hfits page index hreg)
    · exact freeLargebucket_total hc hentry hkey hvalue hreg
  obtain ⟨hinv, _, _, hloses⟩ := h.toBlocksInv.freeEntry hlive hentry hkey hvalue hreg rfl
    ⟨fun slot hk => absurd hk (h.uncached _ slot), hfits⟩ hok
  refine ⟨s', hok, ⟨hinv, h.counted.spends hspend,
    fun k slot hk => h.uncached k slot (hloses.reg _ _ hk)⟩, hgone, ?_⟩
  intro b hb
  obtain ⟨owner', B', hc', -⟩ := hinv.consistent
  have hb' : b.1 ∈ (m.live.erase (ptr, size)).map Prod.fst := List.mem_map_of_mem hb
  have hkept : ∀ v, m.heap.Reg (getPage b.1) v → s'.Reg (getPage b.1) v := by
    intro v hv
    obtain ⟨w, hw⟩ := hc'.live.reg b.1 hb'
    obtain rfl := hv.unique hc.shape.wf (hloses.reg _ _ hw)
    exact hw
  exact hc.preserved hc' h.uncached hb' hkept fun p i hp => hloses.size _ p i (hkept _ hp)

/-- A live block is used for another size for which its chunk has room. -/
theorem ReallocInv.resize {ptr n n' page index : ℕ} (hlive : (ptr, n) ∈ m.live)
    (hreg : m.heap.Reg (getPage ptr) (.pool page index))
    (hle : n' ≤ (m.heap.info page index).size) :
    ReallocInv ⟨m.heap, (ptr, n') :: m.live.erase (ptr, n)⟩ := by
  obtain ⟨owner, B, hc, hholds⟩ := h.consistent
  have hptr : ptr ∈ m.live.map Prod.fst := List.mem_map.mpr ⟨_, hlive, rfl⟩
  refine ⟨⟨⟨owner, B, ⟨hc.shape, hc.lists, ?_⟩, ?_⟩, ?_, h.slots⟩, h.counted, h.uncached⟩
  · rw [List.map_cons, map_fst_erase hc.live.nodup hlive]
    exact hc.live.perm (List.perm_cons_erase hptr)
  · exact fun b _ slot hk => absurd hk (h.uncached _ slot)
  · refine LiveSizes.cons (fun b hb => h.sizes b (List.mem_of_mem_erase hb)) hc.shape hreg ?_
    rintro size hsize
    obtain rfl := Option.some.inj hsize
    exact ⟨hle, (h.sizes _ hlive _ hreg _ rfl).2⟩

/-- A live block ends at `2 ^ 64` at the latest, so that the addresses of its bytes do not
wrap. -/
theorem ReallocInv.fits {b : ℕ × ℕ} (hb : b ∈ m.live) : b.1 + b.2 ≤ 2 ^ 64 := by
  obtain ⟨owner, B, hc, hholds⟩ := h.consistent
  obtain ⟨page, index, hreg, hsize⟩ := h.info hb
  obtain ⟨hbase, hwf⟩ := hc.shape.pool_wf hreg
  have hfits := hwf.fits
  rw [hbase] at hfits
  have hpages : (m.heap.info page index).size ≤
      roundToPage (m.heap.info page index).size * pageSize := by
    rw [roundToPage]
    simp only [pageSize]
    omega
  rcases h.toBlocksInv.placed hc hholds hb hreg with
    ⟨p, i, k, heq, -, -, hsmall, hk, hblock, -⟩ | ⟨hself, -⟩
  · cases heq
    have hle := block_lt hwf.size_ge hk
    have hone : 1 ≤ roundToPage (m.heap.info page index).size :=
      roundToPage_pos (lt_of_lt_of_le (by decide) hwf.size_ge)
    have hpage : pageSize ≤ roundToPage (m.heap.info page index).size * pageSize :=
      Nat.le_mul_of_pos_left _ hone
    omega
  · rw [← hself] at hfits
    omega

end

/-! ### A reallocation -/

/-- A live block that stays: it is in use as before, and its bytes are the same. -/
structure Kept (s s' : State) (mem mem' : Bytes) (b : ℕ × ℕ) : Prop extends
    Preserved s s' b.1 where
  bytes : ∀ x, HasByte b x → mem' x = mem x

/-- **What `Heap_realloc` is to do** with the block `ptr` of the size `n` when it returns `res`:
all other live blocks stay; the block stays if `NULL` or the block itself is returned; and
otherwise the bytes are those of the new block, and the old one is not in use any more. -/
structure Moved (m : Session) (s' : State) (mem mem' : Bytes) (ptr n newSize res : ℕ) : Prop where
  others : ∀ b ∈ m.live, b ≠ (ptr, n) → Kept m.heap s' mem mem' b
  stays : res = 0 ∨ res = ptr → Kept m.heap s' mem mem' (ptr, n)
  inUse : res ≠ 0 → InUse s' res
  copied : res ≠ 0 → res ≠ ptr → ∀ i < min n newSize, mem' (res + i) = mem (ptr + i)
  freed : res ≠ 0 → res ≠ ptr → ¬ InUse s' ptr

/-- A reallocation of the block at an address that finds its entry, and if the block is to be
moved, is served by a block that is large enough, before the entry is gone. -/
def ReallocFits (src : PageSource) (s : State) (ptr newSize : ℕ) : Prop :=
  ∃ entry, Hashmap.find s.allocMap ptr = .ok (some entry) ∧
    ∀ c, s.chunk (entryAt s.allocMap.entries entry).value = .ok c → c.size < newSize →
      Served s newSize ∧ ∀ res s', Heap.malloc src s newSize = .ok (res, s') → res ≠ 0 →
        EntryLasts s s' entry ptr ∧ ReleasesFit s' ptr

/-- The free of the old block, of the given size. -/
def freeOld (old s : State) (mapEntry ptr oldSize : ℕ) : Except Fault State :=
  if oldSize < bigbucketThreshold then freeOldSmall old s mapEntry ptr
  else freeOldLarge old s mapEntry

/-- A block is moved by an allocation, a copy and a free. -/
theorem moveBlock_eq (src : PageSource) (s : State) (mem : Bytes) {mapEntry ptr oldSize newSize : ℕ}
    (hsize : oldSize < newSize) :
    moveBlock src s mem mapEntry ptr oldSize newSize = (do
      let (newPtr, s') ← Heap.malloc src s newSize
      if newPtr = 0 then return (0, s', mem)
      else
        let mem := memcpy mem newPtr ptr oldSize
        let s' ← freeOld s s' mapEntry ptr oldSize
        return (newPtr, s', mem)) := by
  unfold moveBlock Heap.malloc freeOld
  by_cases hsmall : newSize < bigbucketThreshold
  · simp only [if_pos hsmall, if_pos (hsize.trans hsmall)]
  · simp only [if_neg hsmall]
    by_cases hold : oldSize < bigbucketThreshold
    · simp only [if_pos hold]
    · simp only [if_neg hold]

section

variable {src : PageSource} (hsrc : src.Sound) {m : Session} (h : ReallocInv m)

include h

/-- **The free of the old block** through the entry that was found before the allocation. -/
theorem ReallocInv.freeOld {old : State} {owner : ℕ → Option Owner} {ptr size entry page index : ℕ}
    (hsrc : src.Sound) (hold : Shape old owner) (henters : Enters src old m.heap)
    (hlive : (ptr, size) ∈ m.live) (hentry : entry < old.allocMap.totalEntries)
    (hkey : keyAt old.allocMap.entries entry = getPage ptr)
    (hvalue : (entryAt old.allocMap.entries entry).value = .pool page index)
    (hreg : m.heap.Reg (getPage ptr) (.pool page index))
    (hlasts : EntryLasts old m.heap entry ptr) (hfits : ReleasesFit m.heap ptr) :
    ∃ s', Heap.freeOld old m.heap entry ptr (m.heap.info page index).size = .ok s' ∧
      ReallocInv ⟨s', m.live.erase (ptr, size)⟩ ∧ ¬ InUse s' ptr ∧
      ∀ b ∈ m.live.erase (ptr, size), Preserved m.heap s' b.1 := by
  have hne : keyAt old.allocMap.entries entry ≠ 0 := hkey ▸ hreg.1
  unfold Heap.freeOld freeOldSmall freeOldLarge staleEntry
  by_cases hbase : m.heap.allocMap.base = old.allocMap.base
  · obtain ⟨htotal, heq⟩ := henters.entries hsrc hold hbase hne hentry
    simp only [if_pos hbase, ok_bind]
    exact h.freeEntry hlive (htotal ▸ hentry) (by rw [keyAt, heq]; exact hkey) (heq ▸ hvalue)
      hreg hfits
  · -- the entry is in the old table, but its chunk is registered in the new one
    obtain ⟨howned, hstays⟩ := hlasts.resolve_left hbase
    obtain ⟨hsmall, hnot⟩ := hstays page index hvalue
    obtain ⟨-, i, hi, hnew⟩ := hreg
    have hi' : i < m.heap.allocMap.totalEntries := by
      obtain ⟨owner', B, hc, -⟩ := h.consistent
      rwa [hc.shape.wf.length_eq] at hi
    obtain ⟨s', hok, hrest⟩ := h.freeEntry hlive hi' (by rw [keyAt, hnew]) (by rw [hnew])
      ⟨hkey ▸ hne, i, hi, hnew⟩ hfits
    refine ⟨s', ?_, hrest⟩
    rw [if_pos hsmall] at hok ⊢
    simp only [if_neg hbase, if_pos howned, ok_bind, hvalue]
    rw [← hok]
    exact freeSmallbucketStale_eq (by rw [hnew]) hnot

omit h in
/-- **The copy**: the new block gets the bytes of the old one, and no other block is written to. -/
theorem ReallocInv.copy {s : State} {ptr res size newSize : ℕ} {rest : List (ℕ × ℕ)}
    (h : ReallocInv ⟨s, (res, newSize) :: (ptr, size) :: rest⟩) (hsize : size < newSize)
    (mem : Bytes) :
    (∀ i < size, memcpy mem res ptr size (res + i) = mem (ptr + i)) ∧
      ∀ b ∈ rest, ∀ x, HasByte b x → memcpy mem res ptr size x = mem x := by
  obtain ⟨owner, B, hc, -⟩ := h.consistent
  have hnodup := hc.live.nodup
  simp only [List.map_cons, List.nodup_cons, List.mem_cons, not_or, List.mem_map] at hnodup
  obtain ⟨⟨hne, hnew⟩, -⟩ := hnodup
  have hsafe := h.toBlocksInv.safe
  have hapart : ∀ i < size, ∀ j < size, res + i ≠ ptr + j := by
    intro i hi j hj heq
    refine hsafe.apart (res, newSize) (by simp) (ptr, size) (by simp) ?_ (res + i)
      ⟨by omega, by omega⟩ ⟨by omega, by omega⟩
    exact fun heq => hne (congrArg Prod.fst heq)
  have hdest : res + newSize ≤ 2 ^ 64 := h.fits (b := (res, newSize)) (by simp)
  have hptr : ptr + size ≤ 2 ^ 64 := h.fits (b := (ptr, size)) (by simp)
  obtain ⟨hcopied, hother⟩ := memcpy_spec mem (by omega) hptr hapart
  refine ⟨hcopied, fun b hb x hx => hother x fun hin => ?_⟩
  refine hsafe.apart b (by simp [hb]) (res, newSize) (by simp) ?_ x hx ⟨hin.1, by omega⟩
  rintro rfl
  exact hnew ⟨_, hb, rfl⟩

include hsrc in
/-- **A reallocation** returns, moves its block and keeps the invariant. -/
theorem ReallocInv.realloc {ptr n newSize : ℕ} (hlive : (ptr, n) ∈ m.live) (hpos : newSize ≠ 0)
    (hfits : ReallocFits src m.heap ptr newSize) (mem : Bytes) :
    ∃ res s' mem', Heap.realloc src m.heap mem ptr newSize = .ok (res, s', mem') ∧
      Moved m s' mem mem' ptr n newSize res ∧ (res = 0 → ReallocInv ⟨s', m.live⟩) ∧
      (res ≠ 0 → ReallocInv ⟨s', (res, newSize) :: m.live.erase (ptr, n)⟩) := by
  obtain ⟨owner, B, hc, -⟩ := h.consistent
  obtain ⟨page, index, hreg, hsize⟩ : ∃ page index,
      m.heap.Reg (getPage ptr) (.pool page index) ∧ n ≤ (m.heap.info page index).size :=
    h.info (b := (ptr, n)) hlive
  have hptr : ptr ≠ 0 := h.ne_zero hlive
  obtain ⟨entry, hfind, hmoves⟩ := hfits
  obtain ⟨hentry, hkey⟩ : entry < m.heap.allocMap.totalEntries ∧
      keyAt m.heap.allocMap.entries entry = getPage ptr := by
    rcases find_sound hc.shape.wf ptr with hnone | ⟨i, hi, hsome, hkey, -⟩
    · cases hnone.symm.trans hfind
    · cases hsome.symm.trans hfind
      exact ⟨hi, hkey⟩
  have hvalue : (entryAt m.heap.allocMap.entries entry).value = .pool page index := by
    refine State.Reg.unique hc.shape.wf ⟨hreg.1, entry, ?_, ?_⟩ hreg
    · rwa [hc.shape.wf.length_eq]
    · rw [← hkey]
      rfl
  have hchunk : m.heap.chunk (.pool page index) = .ok (m.heap.info page index) := rfl
  have hself : ∀ b ∈ m.live, Preserved m.heap m.heap b.1 := fun b hb =>
    hc.preserved hc h.uncached (List.mem_map_of_mem hb) (fun _ hv => hv) fun _ _ _ => rfl
  have hinUse : InUse m.heap ptr := (hself _ hlive).inUse
  unfold Heap.realloc
  simp only [if_neg hptr, if_neg hpos, hfind, ok_bind, hvalue, hchunk]
  rw [hvalue] at hmoves
  by_cases hle : (m.heap.info page index).size ≥ newSize
  · refine ⟨ptr, m.heap, mem, by rw [if_pos hle]; rfl,
      ⟨fun b hb _ => ⟨hself b hb, fun _ _ => rfl⟩, fun _ => ⟨hself _ hlive, fun _ _ => rfl⟩,
        fun _ => hinUse, fun _ hne => absurd rfl hne, fun _ hne => absurd rfl hne⟩,
        fun hzero => absurd hzero hptr, fun _ => h.resize hlive hreg hle⟩
  obtain ⟨hserved, hlast⟩ := hmoves _ hchunk (by omega)
  rw [if_neg hle, moveBlock_eq src m.heap mem (by omega)]
  -- The old block counts with all the bytes that are copied.
  have h₁ := h.resize hlive hreg (le_refl (m.heap.info page index).size)
  obtain ⟨res, s₁, hok, henters, hpres, hnull, -⟩ := h.malloc hsrc hserved
  obtain ⟨res', s₁', hok', -, hpres', -, hblock⟩ := h₁.malloc hsrc hserved
  obtain ⟨rfl, rfl⟩ : res = res' ∧ s₁ = s₁' := by
    have := Except.ok.inj (hok.symm.trans hok')
    simpa using this
  simp only [hok, ok_bind]
  by_cases hres : res = 0
  · refine ⟨0, s₁, mem, by rw [if_pos hres]; rfl, ⟨fun b hb _ => ⟨hpres b hb, fun _ _ => rfl⟩,
      fun _ => ⟨hpres _ hlive, fun _ _ => rfl⟩, fun hne => absurd rfl hne,
      fun hne => absurd rfl hne, fun hne => absurd rfl hne⟩, fun _ => hnull hres,
      fun hne => absurd rfl hne⟩
  have h₂ := hblock hres
  obtain ⟨hlasts, hreleases⟩ := hlast res s₁ hok hres
  obtain ⟨hreg₁, c, hchunk₁, -, hsize₁⟩ := (hpres _ hlive).info _ _ hreg hchunk
  obtain rfl : s₁.info page index = c := Except.ok.inj hchunk₁
  obtain ⟨s₂, hfree, h₃, hgone, hkept⟩ := h₂.freeOld hsrc hc.shape henters
    (List.mem_cons_of_mem _ List.mem_cons_self) hentry hkey hvalue hreg₁ hlasts hreleases
  obtain ⟨hcopied, hbytes⟩ := h₂.copy (by omega) mem
  have hne : res ≠ ptr := by
    obtain ⟨owner₂, B₂, hc₂, -⟩ := h₂.consistent
    have hnodup := hc₂.live.nodup
    simp only [List.map_cons, List.nodup_cons, List.mem_cons, not_or] at hnodup
    exact hnodup.1.1
  have herase : ((res, newSize) :: (ptr, (m.heap.info page index).size) ::
      m.live.erase (ptr, n)).erase (ptr, (m.heap.info page index).size) =
      (res, newSize) :: m.live.erase (ptr, n) := by
    rw [List.erase_cons_tail (by simp [hne]), List.erase_cons_head]
  rw [herase] at h₃ hkept
  rw [hsize₁] at hfree
  refine ⟨res, s₂, memcpy mem res ptr (m.heap.info page index).size, ?_, ⟨?_, ?_, ?_, ?_, ?_⟩,
    fun hzero => absurd hzero hres, fun _ => h₃⟩
  · have hfree' : Heap.freeOld m.heap s₁ entry ptr (m.heap.info page index).size = .ok s₂ := hfree
    rw [if_neg hres, hfree']
    rfl
  · intro b hb hbne
    have hb' : b ∈ m.live.erase (ptr, n) := (List.mem_erase_of_ne hbne).mpr hb
    exact ⟨(hpres b hb).trans (hkept b (List.mem_cons_of_mem _ hb')), hbytes b hb'⟩
  · rintro (hzero | heq)
    · exact absurd hzero hres
    · exact absurd heq hne
  · intro _
    obtain ⟨owner₃, B₃, hc₃, -⟩ := h₃.consistent
    exact hc₃.inUse (by simp)
  · exact fun _ _ i hi => hcopied i (by omega)
  · exact fun _ _ => hgone

end

/-! ### Every run -/

/-- A call: `Heap_malloc` or `Heap_free`, or `Heap_realloc` of a block. -/
inductive MoveCall
  | call (c : Call)
  | realloc (ptr newSize : ℕ)

/-- A call that returns. A block that is reallocated is live, and its new size is not 0; the live
blocks stay if `NULL` is returned. -/
inductive MoveStep (src : PageSource) : Session → MoveCall → Session → Prop
  | call {m m' : Session} {c : Call} (h : Step src m c m') : MoveStep src m (.call c) m'
  | null {m : Session} {s' : State} {mem mem' : Bytes} {ptr n newSize : ℕ}
      (hlive : (ptr, n) ∈ m.live) (hpos : newSize ≠ 0)
      (h : realloc src m.heap mem ptr newSize = .ok (0, s', mem')) :
      MoveStep src m (.realloc ptr newSize) ⟨s', m.live⟩
  | realloc {m : Session} {s' : State} {mem mem' : Bytes} {ptr n newSize res : ℕ}
      (hlive : (ptr, n) ∈ m.live) (hpos : newSize ≠ 0)
      (h : realloc src m.heap mem ptr newSize = .ok (res, s', mem')) (hres : res ≠ 0) :
      MoveStep src m (.realloc ptr newSize) ⟨s', (res, newSize) :: m.live.erase (ptr, n)⟩

/-- A call that gets or gives back blocks of the right size, and does not use the entry of a hash
map that was replaced. -/
def MoveFits (src : PageSource) (m : Session) : MoveCall → Prop
  | .call (.malloc size) => Served m.heap size
  | .call (.free ptr) => ReleasesFit m.heap ptr
  | .realloc ptr newSize => ReallocFits src m.heap ptr newSize

/-- **One free** keeps the invariant of the moves, with the freed block taken from the live
ones. -/
theorem ReallocInv.free {m : Session} (h : ReallocInv m) {s' : State} {ptr size : ℕ}
    (hlive : (ptr, size) ∈ m.live) (hok : free m.heap ptr = .ok s')
    (hfits : ReleasesFit m.heap ptr) : ReallocInv ⟨s', m.live.erase (ptr, size)⟩ := by
  obtain ⟨owner, B, hc, -⟩ := h.consistent
  obtain ⟨page, index, hreg, -⟩ := h.info hlive
  have hne : ptr ≠ 0 := h.ne_zero hlive
  obtain ⟨entry, v, chunk, hentry, hkey, hvalue, hreg', hchunk, hok⟩ :=
    free_cases hc.shape.wf hne hok
  obtain rfl := hreg'.unique hc.shape.wf hreg
  obtain rfl : m.heap.info page index = chunk := Except.ok.inj hchunk
  obtain ⟨s₁, hok₁, h₁, -, -⟩ := h.freeEntry hlive hentry hkey hvalue hreg hfits
  obtain rfl := Except.ok.inj (hok.symm.trans hok₁)
  exact h₁

/-- **One step** of a run, an allocation, a free or a move, keeps the invariant of the
moves. -/
theorem ReallocInv.step {src : PageSource} (hsrc : src.Sound) {m m' : Session} {c : MoveCall}
    (h : ReallocInv m) (hstep : MoveStep src m c m') (hfits : MoveFits src m c) :
    ReallocInv m' := by
  cases hstep with
  | call hstep =>
      cases hstep with
      | null hok =>
          obtain ⟨res, s₁, hok₁, -, -, hnull, -⟩ := h.malloc hsrc hfits
          obtain ⟨rfl, rfl⟩ := Prod.mk.inj (Except.ok.inj (hok.symm.trans hok₁))
          exact hnull rfl
      | malloc hok hres =>
          obtain ⟨res, s₁, hok₁, -, -, -, hblock⟩ := h.malloc hsrc hfits
          obtain ⟨rfl, rfl⟩ := Prod.mk.inj (Except.ok.inj (hok.symm.trans hok₁))
          exact hblock hres
      | free hlive hok => exact h.free hlive hok hfits
  | null hlive hpos hok =>
      obtain ⟨res, s₁, mem₁, hok₁, -, hnull, -⟩ := h.realloc hsrc hlive hpos hfits _
      obtain ⟨rfl, heq⟩ := Prod.mk.inj (Except.ok.inj (hok.symm.trans hok₁))
      obtain ⟨rfl, -⟩ := Prod.mk.inj heq
      exact hnull rfl
  | realloc hlive hpos hok hres =>
      obtain ⟨res, s₁, mem₁, hok₁, -, -, hmoved⟩ := h.realloc hsrc hlive hpos hfits _
      obtain ⟨rfl, heq⟩ := Prod.mk.inj (Except.ok.inj (hok.symm.trans hok₁))
      obtain ⟨rfl, -⟩ := Prod.mk.inj heq
      exact hmoved hres

/-- **Blocks are moved in every run.** In every run, with any source that answers with unused pages
or with `NULL`, whose calls get and give back blocks of the right size and do not use the entry of
a hash map that was replaced: the reallocation of a live block that does not do so either returns,
moves the block and lets all other live blocks stay. -/
theorem heap_realloc_run {src : PageSource} (hsrc : src.Sound) {memory : ℕ → Chungus}
    {cs : List MoveCall} {m : Session}
    (h : Runs (fun m c m' => MoveStep src m c m' ∧ MoveFits src m c) (.start memory) cs m)
    {ptr n newSize : ℕ} (hlive : (ptr, n) ∈ m.live) (hpos : 1 ≤ newSize)
    (hfits : ReallocFits src m.heap ptr newSize) (mem : Bytes) :
    ∃ res s' mem', realloc src m.heap mem ptr newSize = .ok (res, s', mem') ∧
      Moved m s' mem mem' ptr n newSize res := by
  have hinv : ReallocInv m := h.invariant (.start memory)
    fun _ _ _ hi hstep => hi.step hsrc hstep.1 hstep.2
  obtain ⟨res, s', mem', hok, hmoved, -⟩ := hinv.realloc hsrc hlive (by omega) hfits mem
  exact ⟨res, s', mem', hok, hmoved⟩

/-- The observation that a block of a page is live and can be moved to two pages: it is found, and
the allocation of the pages replaces neither the hash map nor fills a Chungus. -/
def canMove (m : Session) : Bool :=
  decide ((0x2000000, pageSize) ∈ m.live) &&
    (match Hashmap.find m.heap.allocMap 0x2000000 with | .ok (some _) => true | _ => false) &&
    (m.heap.freeCache.all fun c => decide (c.base = 0)) &&
    match malloc freshSource m.heap (2 * pageSize) with
    | .ok (_, s) =>
        decide (s.allocMap.base = m.heap.allocMap.base) && s.allocMap.entries.all fun e =>
          match e.value with
          | .pool page _ => !isChungusFull (s.memory page)
          | _ => true
    | .error _ => false

/-- In a state of this kind the block of one page is live, and moving it to two pages meets the
condition. -/
theorem reallocFits_of_canMove {m : Session} (h : canMove m = true) :
    (0x2000000, pageSize) ∈ m.live ∧ ReallocFits freshSource m.heap 0x2000000 (2 * pageSize) := by
  simp only [canMove, Bool.and_eq_true, decide_eq_true_eq, List.all_eq_true] at h
  obtain ⟨⟨⟨hlive, hfound⟩, hslots⟩, hlast⟩ := h
  refine ⟨hlive, ?_⟩
  have hslots' : ∀ slot, (m.heap.slot slot).base = 0 := by
    intro slot
    rw [State.slot, List.getD_eq_getElem?_getD]
    cases hget : m.heap.freeCache[slot]? with
    | none => rfl
    | some c => exact hslots c (List.mem_of_getElem? hget)
  cases hfind : Hashmap.find m.heap.allocMap 0x2000000 with
  | error f => simp [hfind] at hfound
  | ok found =>
      cases found with
      | none => simp [hfind] at hfound
      | some entry =>
          refine ⟨entry, hfind, fun c _ _ => ⟨⟨.inr (by decide), fun hlt => absurd hlt (by decide),
            fun _ => fittingSlot_eq_none hslots' _⟩, fun res s hok _ => ?_⟩⟩
          simp only [hok, Bool.and_eq_true, decide_eq_true_eq, List.all_eq_true] at hlast
          refine ⟨.inl hlast.1, ?_⟩
          rintro page index ⟨-, i, hi, he⟩ -
          have hmem : entryAt s.allocMap.entries i ∈ s.allocMap.entries := by
            rw [entryAt_eq_get hi]
            exact List.getElem_mem hi
          have hnotfull := hlast.2 _ hmem
          rw [he] at hnotfull
          simpa using hnotfull

/-- A reallocation at a concrete run: a page is allocated, and its block is moved to two pages. -/
theorem heap_realloc_run_twoPages : ∃ m,
    Runs (fun m c m' => MoveStep freshSource m c m' ∧ MoveFits freshSource m c)
      (.start blankMemory) [.call (.malloc pageSize)] m ∧
      ∃ res s' mem', realloc freshSource m.heap UInt8.ofNat 0x2000000 (2 * pageSize) =
          .ok (res, s', mem') ∧
        Moved m s' UInt8.ofNat mem' 0x2000000 pageSize (2 * pageSize) res := by
  have hrun : (Session.exec freshSource (.start blankMemory) (.malloc pageSize)).map canMove =
      some true := by decide +kernel
  obtain ⟨m, hm, hmoves⟩ := Option.map_eq_some_iff.mp hrun
  obtain ⟨hlive, hfits⟩ := reallocFits_of_canMove hmoves
  have hserved : Served (State.start blankMemory) pageSize :=
    ⟨.inr (le_refl _), fun hlt => absurd hlt (by decide),
      fun _ => fittingSlot_eq_none (InfoInv.start blankMemory).noCache _⟩
  have hruns : Runs (fun m c m' => MoveStep freshSource m c m' ∧ MoveFits freshSource m c)
      (.start blankMemory) [.call (.malloc pageSize)] m :=
    .snoc .nil ⟨.call (step_of_exec hm), hserved⟩
  exact ⟨m, hruns,
    heap_realloc_run (PageSource.checked_sound _) hruns hlive (by decide) hfits UInt8.ofNat⟩

end MugOS.Heap
