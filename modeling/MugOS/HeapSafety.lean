import MugOS.HeapInfo

/-!
# Live Blocks of the Heap Do Not Overlap

The blocks of a chunk are as large as the request for which the chunk was made, and a bucket has
the chunks of all the requests between two powers of two. A request that is served by a chunk
that was made for a smaller one gets a block that is too small. Where this does not happen, and
the slots of the cache that describe live blocks are not used again, live blocks do not overlap.

## Main results

* `heap_blocks_run`: the blocks are apart in every run in which the chunk that serves a request
  has blocks that are large enough, and no slot that describes a live block was used again.
* `shared_bucket_overlaps`: a block of 65 bytes and two of 128 bytes.
-/

namespace MugOS.Heap

open WordBitmap Hashmap LinkedList Links

/-! ### Blocks from the cache -/

/-- The slot that is found has a block of at least the given size. -/
theorem fittingSlot_spec {s : State} {size slot : ℕ}
    (h : fittingSlot s.freeCache size = some slot) :
    slot < nBigblocksCached ∧ (s.slot slot).base ≠ 0 ∧ size ≤ (s.slot slot).size := by
  unfold fittingSlot at h
  have hmem := List.mem_range.mp (List.mem_of_find?_eq_some h)
  have hfits := List.find?_some h
  rw [decide_eq_true_eq] at hfits
  push Not at hfits
  exact ⟨hmem, hfits.1, hfits.2⟩

/-- The pages that a smaller size needs are among those that a larger size needs at the same
address. -/
theorem pages_subset {base size size' q : ℕ} (h : size ≤ size')
    (hq : q ∈ pages base (roundToPage size)) : q ∈ pages base (roundToPage size') := by
  obtain ⟨k, hk, rfl⟩ := mem_pages.mp hq
  refine mem_pages.mpr ⟨k, lt_of_lt_of_le hk ?_, rfl⟩
  unfold roundToPage
  exact Nat.div_le_div_right (by omega)

/-- A well-formed chunk starts at the beginning of a page, below `2 ^ 64`. -/
theorem ChunkInfo.Wf.getPage_base {owner : ℕ → Option Owner} {c : ChunkInfo} (h : c.Wf owner) :
    getPage c.base = c.base ∧ c.base < 2 ^ 64 := by
  have haligned := h.aligned
  have hfits := h.fits
  have hpos : 0 < roundToPage c.size := roundToPage_pos (by
    have := h.size_ge
    simp only [minBlockSize] at this
    omega)
  have : pageSize ≤ roundToPage c.size * pageSize := Nat.le_mul_of_pos_left _ hpos
  unfold getPage
  simp only [pageSize] at *
  omega

section

variable {src : PageSource} {s s' : State} {owner : ℕ → Option Owner} {B : ℕ → List (ℕ × ℕ)}
  {live : List ℕ} {size res : ℕ}

/-- A slot of the cache is emptied: the heap keeps its shape, and no other slot has the base that
this one had. -/
theorem Shape.emptySlot (h : Shape s owner) {slot : ℕ} (hlt : slot < nBigblocksCached) :
    Shape (s.setChunk (.cached slot) { s.slot slot with base := 0 }) owner ∧
      ∀ i, ((s.setChunk (.cached slot) { s.slot slot with base := 0 }).slot i).base ≠ 0 →
        ((s.setChunk (.cached slot) { s.slot slot with base := 0 }).slot i).base ≠
          (s.slot slot).base := by
  refine ⟨h.setSlot hlt fun hzero => absurd rfl hzero, fun i hi => ?_⟩
  have hlen : slot < s.freeCache.length := by
    rw [h.slots]
    exact hlt
  rw [State.slot_setChunk s hlen] at hi ⊢
  split at hi
  · exact absurd rfl hi
  · rename_i hne
    rw [if_neg hne]
    exact fun heq => hne (h.cache_inj i slot hi heq)

/-- **A large block from the cache**, whose slot is emptied. -/
theorem cachedBlock_keeps (hsrc : src.Sound) (h : Consistent s owner B live) {slot : ℕ}
    (hslot : fittingSlot s.freeCache size = some slot)
    (hok : allocateLargebucket src s size = .ok (res, s')) :
    ∃ owner', Grows s s' owner owner' ∧
      ((res = 0 ∧ Consistent s' owner' B live ∧ s'.freeCache = s.freeCache) ∨
        (res ≠ 0 ∧ Consistent s' owner' B (res :: live) ∧ s'.Reg (getPage res) (.cached slot) ∧
          (∀ q ∈ pages res (roundToPage size), owner' q = some (.block res)) ∧
          s'.freeCache = s.freeCache.set slot { s.slot slot with base := 0 })) := by
  obtain ⟨hlt, hne, hsize⟩ := fittingSlot_spec hslot
  obtain ⟨hwf, hbig, hnot⟩ := h.shape.cache slot hne
  obtain ⟨hpage, hbase⟩ := hwf.getPage_base
  unfold allocateLargebucket at hok
  simp only [hslot] at hok
  obtain ⟨⟨b, map, ps⟩, hins, hok⟩ := bind_eq_ok.mp hok
  rcases insert_cases hsrc h.shape.wf s.pages (by rw [hpage]; exact hne) hbase
      (fun v hv => hnot v ⟨hne, hpage ▸ hv⟩) (.cached slot) with
    ⟨ps', hins', howned, hrefused⟩ | ⟨map', ps', hins', hmap, -, -, hcontains, hpages⟩
  · obtain ⟨rfl, rfl, rfl⟩ : b = false ∧ map = s.allocMap ∧ ps = ps' := by
      have := Except.ok.inj (hins.symm.trans hins')
      simpa using this
    obtain ⟨rfl, rfl⟩ := Prod.mk.inj (Except.ok.inj hok)
    exact ⟨owner, .of_eq (fun _ _ hq => hq) (fun _ _ hk => hk) (fun _ _ _ _ => rfl)
      (le_of_lt hrefused) rfl fun _ => rfl, .inl ⟨rfl, h.setPages howned, rfl⟩⟩
  · obtain ⟨rfl, rfl, rfl⟩ : b = true ∧ map = map' ∧ ps = ps' := by
      have := Except.ok.inj (hins.symm.trans hins')
      simpa using this
    obtain ⟨rfl, rfl⟩ := Prod.mk.inj (Except.ok.inj hok)
    rw [hpage] at hcontains
    have hrefused : ps.refused = s.pages.refused := by
      rcases hpages with ⟨-, -, rfl⟩ | hgrown
      · rfl
      · exact hgrown.refused_eq
    -- the slot is emptied before the block enters the hash map
    obtain ⟨hshape₁, hempty⟩ := h.shape.emptySlot hlt
    obtain ⟨owner', hshape, hkeep⟩ := hshape₁.insert hmap hcontains hpages
      (.cached hlt hwf.owner_base) hempty
    set t : State := { s.setChunk (.cached slot) { s.slot slot with base := 0 } with
      allocMap := map, pages := ps } with ht
    have hreg : ∀ k v, t.Reg k v ↔ (k = (s.slot slot).base ∧ v = .cached slot) ∨ s.Reg k v := by
      intro k v
      constructor
      · rintro ⟨hk, hcont⟩
        exact ((hcontains k v hk).mp hcont).imp_right fun hold => ⟨hk, hold⟩
      · rintro (⟨rfl, rfl⟩ | ⟨hk, hold⟩)
        · exact ⟨hne, (hcontains _ _ hne).mpr (.inl ⟨rfl, rfl⟩)⟩
        · exact ⟨hk, (hcontains k v hk).mpr (.inr hold)⟩
    have hpool : ∀ k p i, t.Reg k (.pool p i) ↔ s.Reg k (.pool p i) := by
      intro k p i
      rw [hreg]
      simp
    have hlists : Lists t B := h.lists.congr rfl rfl fun o p i =>
      HasRoom.congr (fun k => hpool k p i) rfl rfl o
    have hreg_new : t.Reg (s.slot slot).base (.cached slot) := (hreg _ _).mpr (.inl ⟨rfl, rfl⟩)
    have hlive : Live t live := h.live.register hnot hreg fun _ _ _ _ => rfl
    have hnew : (s.slot slot).base ∉ live := by
      intro hmem
      obtain ⟨v, hv⟩ := h.live.reg _ hmem
      rw [hpage] at hv
      exact hnot v hv
    refine ⟨owner', ⟨fun q k hq => hkeep q _ (by simp) hq, fun k v hk => (hreg k v).mpr (.inr hk),
      fun _ _ _ _ => rfl, hrefused.ge, fun _ p hp i _ hbit => .inl ⟨hp, hbit⟩⟩,
      .inr ⟨hne, ⟨hshape, hlists, ?_⟩, ?_, ?_, rfl⟩⟩
    · exact hlive.consLarge hshape hnew hpage hreg_new (by simp)
    · show t.Reg (getPage (s.slot slot).base) _
      rw [hpage]
      exact hreg_new
    · intro q hq
      exact hkeep q _ (by simp) (hwf.holds q (pages_subset hsize hq))

/-- **The free of a large block that is described by an empty slot**: it leaves the hash map, and
its pages are lost. -/
theorem freeCached_keeps (h : Consistent s owner B live) {ptr entry slot : ℕ} (hptr : ptr ∈ live)
    (hentry : entry < s.allocMap.totalEntries)
    (hkey : keyAt s.allocMap.entries entry = getPage ptr)
    (hvalue : (entryAt s.allocMap.entries entry).value = .cached slot)
    (hreg : s.Reg (getPage ptr) (.cached slot)) (hempty : (s.slot slot).base = 0)
    (hsize : (s.slot slot).size < bigblocksCacheMaxsize)
    (hok : freeLargebucket s entry = .ok s') :
    Consistent s' owner B (live.erase ptr) ∧ Loses s s' owner owner ∧
      ∃ i < nBigblocksCached, ∀ j, s'.slot j = if j = i then s.slot slot else s.slot j := by
  unfold freeLargebucket at hok
  simp only [hvalue] at hok
  obtain ⟨chunk, hchunk, hok⟩ := bind_eq_ok.mp hok
  obtain rfl : s.slot slot = chunk := Except.ok.inj hchunk
  rw [if_pos hsize] at hok
  -- at least the slot itself is empty
  have hlt : slot < nBigblocksCached := by
    cases h.shape.refs _ _ hreg with
    | cached hlt _ => exact hlt
  have hsome : (emptySlot s.freeCache).isSome = true := by
    unfold emptySlot
    rw [List.find?_isSome]
    exact ⟨slot, List.mem_range.mpr hlt, decide_eq_true hempty⟩
  obtain ⟨i, hi⟩ := Option.isSome_iff_exists.mp hsome
  have hilt : i < nBigblocksCached := List.mem_range.mp (List.mem_of_find?_eq_some hi)
  simp only [hi] at hok
  obtain ⟨map, hdel, hok⟩ := bind_eq_ok.mp hok
  obtain rfl := Except.ok.inj hok
  obtain ⟨hshape, hreg'⟩ := h.shape.unregister hreg.1 hentry hkey hdel
  have hrest : Lists { s.setChunk (.cached i) (s.slot slot) with allocMap := map } B ∧
      Live { s.setChunk (.cached i) (s.slot slot) with allocMap := map } (live.erase ptr) :=
    h.dropLarge hptr hreg (by simp) rfl rfl hreg' fun _ _ _ _ _ => rfl
  have hshape' := hshape.setSlot hilt (c := s.slot slot) fun hne => absurd hempty hne
  refine ⟨⟨hshape', hrest.1, hrest.2⟩, ⟨fun _ _ _ _ hq => hq, fun k v hk => ((hreg' k v).mp hk).1,
    fun _ _ _ _ => rfl, rfl⟩, i, hilt, ?_⟩
  exact State.slot_setChunk s (by rw [h.shape.slots]; exact hilt) _

end

/-! ### The guarantees -/

/-- An address is that of a byte that was requested with the block. -/
def HasByte (b : ℕ × ℕ) (x : ℕ) : Prop := b.1 ≤ x ∧ x < b.1 + b.2

/-- Two blocks have no requested byte in common, so that a write to one leaves the other. -/
def Apart (b b' : ℕ × ℕ) : Prop := ∀ x, HasByte b x → ¬ HasByte b' x

/-- The requested bytes of a live block lie in the pages of one registered chunk, which are in
use. -/
def InChunk (s : State) (b : ℕ × ℕ) : Prop :=
  ∃ base n v, s.Reg base v ∧ (∀ q ∈ pages base n, q ∈ s.pages.owned) ∧
    base ≤ b.1 ∧ b.1 + b.2 ≤ base + n * pageSize

/-- A size for which there is a bucket among the small ones. -/
def HasBucket (size : ℕ) : Prop :=
  ∃ order < nSmallbucket, getSmallbucketOrder size = .ok order

/-- **What the heap is to guarantee**: live blocks lie in one chunk, they do not overlap, and
the chunks of small blocks have a bucket. -/
structure BlocksSafe (m : Session) : Prop where
  inChunk : ∀ b ∈ m.live, InChunk m.heap b
  apart : ∀ b ∈ m.live, ∀ b' ∈ m.live, b ≠ b' → Apart b b'
  buckets : ∀ b ∈ m.live, ∀ page index, m.heap.Reg (getPage b.1) (.pool page index) →
    (m.heap.info page index).size < bigbucketThreshold → HasBucket (m.heap.info page index).size

/-- A call that gets or gives back a block of the right size: the request has a bucket if it is
a small one, and the first chunk of the bucket, if there is one, has blocks that are large
enough; a block that is freed is described by a `ChunkInfo` of the pool, or by a slot of the
cache that was not used again; and a chunk that is given back is not one of a full Chungus. -/
def ServesFit (m : Session) : Call → Prop
  | .malloc size =>
      (size ≤ bigbucketThreshold / 2 ∨ bigbucketThreshold ≤ size) ∧ HeadFits m.heap size
  | .free ptr =>
      (∀ slot, m.heap.Reg (getPage ptr) (.cached slot) → (m.heap.slot slot).base = 0) ∧
        ∀ page index, m.heap.Reg (getPage ptr) (.pool page index) →
          Releases m.heap ptr page index → isChungusFull (m.heap.memory page) = false

/-- Every size up to half a page, rounded as `malloc` does, has a bucket. -/
theorem hasBucket_chunkSize {size : ℕ} (h : size ≤ bigbucketThreshold / 2) :
    HasBucket (chunkSize size) := by
  have hlt : size < bigbucketThreshold := by
    simp only [bigbucketThreshold, pageSize] at *
    omega
  rw [chunkSize, if_pos hlt]
  refine ⟨_, ?_, getSmallbucketOrder_eq (le_max_right _ _) ?_⟩
  · have hne : max size minBlockSize - 1 ≠ 0 := by
      simp only [minBlockSize]
      omega
    have hlog : (max size minBlockSize - 1).log2 < 11 := by
      rw [Nat.log2_lt hne]
      simp only [bigbucketThreshold, minBlockSize, pageSize] at *
      omega
    simp only [nSmallbucket, smallbucketsOffset]
    omega
  · simp only [bigbucketThreshold, minBlockSize, pageSize] at *
    omega

/-! ### The invariant -/

/-- The `ChunkInfo` of a block has at least the size that was asked for, and a bucket if it is
of a small chunk. -/
def FitsInfo (size : ℕ) (info : Option ℕ) : Prop :=
  ∀ n, info = some n → size ≤ n ∧ (n < bigbucketThreshold → HasBucket n)

/-- A block from the cache has the pages that it needs. -/
def HoldsPages (s : State) (owner : ℕ → Option Owner) (b : ℕ × ℕ) : Prop :=
  ∀ slot, s.Reg (getPage b.1) (.cached slot) →
    ∀ q ∈ pages b.1 (roundToPage b.2), owner q = some (.block b.1)

/-- **The invariant**: the heap is consistent, and the live blocks have room. -/
structure BlocksInv (m : Session) : Prop where
  consistent : ∃ owner B, Consistent m.heap owner B (m.live.map Prod.fst) ∧
    ∀ b ∈ m.live, HoldsPages m.heap owner b
  sizes : LiveSizes m.heap m.live FitsInfo
  slots : ∀ i, (m.heap.slot i).size < bigblocksCacheMaxsize

/-- The page of a byte of a block is one of the pages from the page-aligned base of this
block. -/
theorem getPage_mem_pages {base size x : ℕ} (haligned : base % pageSize = 0)
    (hx : HasByte (base, size) x) : getPage x ∈ pages base (roundToPage size) := by
  obtain ⟨h1, h2⟩ := hx
  refine mem_pages.mpr ⟨(x - base) / pageSize, ?_, ?_⟩
  · rw [roundToPage]
    simp only [pageSize] at *
    omega
  · unfold getPage
    simp only [pageSize] at *
    omega

/-- A byte of block number `i` of a chunk lies at an offset whose quotient by the size of the
blocks is `i`. -/
theorem HasByte.block {b : ℕ × ℕ} {base n i x : ℕ} (h : HasByte b x) (hb : b.1 = base + i * n)
    (hsize : b.2 ≤ n) : (x - base) / n = i := by
  obtain ⟨h1, h2⟩ := h
  have hlow : i * n ≤ x - base := by omega
  have hhigh : x - base < (i + 1) * n := by
    rw [Nat.add_mul, Nat.one_mul]
    omega
  exact Nat.div_eq_of_lt_le hlow hhigh

/-- Where a live block lies: it is a block of a small chunk, or it starts at a page and has the
pages that it needs. -/
theorem BlocksInv.placed {m : Session} (h : BlocksInv m) {owner : ℕ → Option Owner}
    {B : ℕ → List (ℕ × ℕ)} (hc : Consistent m.heap owner B (m.live.map Prod.fst))
    (hholds : ∀ b ∈ m.live, HoldsPages m.heap owner b) {b : ℕ × ℕ} (hb : b ∈ m.live)
    {v : ChunkRef} (hreg : m.heap.Reg (getPage b.1) v) :
    (∃ page index i, v = .pool page index ∧ (m.heap.info page index).Wf owner ∧
      (m.heap.info page index).base = getPage b.1 ∧
      (m.heap.info page index).size < bigbucketThreshold ∧
      i < pageSize / (m.heap.info page index).size ∧
      b.1 = getPage b.1 + i * (m.heap.info page index).size ∧
      b.2 ≤ (m.heap.info page index).size) ∨
    (b.1 = getPage b.1 ∧ (∀ q ∈ pages b.1 (roundToPage b.2), owner q = some (.block b.1)) ∧
      ∀ page index, v = .pool page index →
        bigbucketThreshold ≤ (m.heap.info page index).size) := by
  have hmem : b.1 ∈ m.live.map Prod.fst := List.mem_map_of_mem hb
  cases v with
  | null =>
      cases hc.shape.refs _ _ hreg
  | cached slot =>
      exact .inr ⟨hc.live.big b.1 hmem _ hreg (by simp), hholds b hb slot hreg, by simp⟩
  | pool page index =>
      obtain ⟨hbase, hwf⟩ := hc.shape.pool_wf hreg
      obtain ⟨hsize, -⟩ := h.sizes b hb _ hreg _ rfl
      by_cases hsmall : (m.heap.info page index).size < bigbucketThreshold
      · obtain ⟨i, hi, heq, -⟩ := hc.live.small b.1 hmem page index hreg hsmall
        rw [hbase] at heq
        exact .inl ⟨page, index, i, rfl, hwf, hbase, hsmall, hi, heq, hsize⟩
      · have hlarge : ∀ p i, ChunkRef.pool page index = .pool p i →
            bigbucketThreshold ≤ (m.heap.info p i).size := by
          rintro p i ⟨⟩
          omega
        have hself := hc.live.big b.1 hmem _ hreg hlarge
        refine .inr ⟨hself, fun q hq => ?_, hlarge⟩
        have hbase' : (m.heap.info page index).base = b.1 := by rw [hbase, ← hself]
        rw [← hbase'] at hq ⊢
        exact hwf.holds q (pages_subset hsize hq)

/-- The page of every byte of a live block is owned by the chunk under which the block is
found. -/
theorem BlocksInv.owner_byte {m : Session} (h : BlocksInv m) {owner : ℕ → Option Owner}
    {B : ℕ → List (ℕ × ℕ)} (hc : Consistent m.heap owner B (m.live.map Prod.fst))
    (hholds : ∀ b ∈ m.live, HoldsPages m.heap owner b) {b : ℕ × ℕ} (hb : b ∈ m.live)
    {x : ℕ} (hx : HasByte b x) : owner (getPage x) = some (.block (getPage b.1)) := by
  obtain ⟨v, hreg⟩ := hc.live.reg b.1 (List.mem_map_of_mem hb)
  rcases h.placed hc hholds hb hreg with
    ⟨page, index, i, rfl, hwf, hbase, hsmall, hi, heq, hsize⟩ | ⟨hself, hpages, -⟩
  · have hle := block_lt hwf.size_ge hi
    have hpage : getPage x = getPage b.1 := by
      obtain ⟨h1, h2⟩ := hx
      unfold getPage at heq ⊢
      simp only [pageSize] at *
      omega
    rw [hpage, ← hbase]
    exact hwf.owner_base
  · have haligned : b.1 % pageSize = 0 := by
      unfold getPage at hself
      simp only [pageSize] at *
      omega
    rw [← hself]
    exact hpages _ (getPage_mem_pages haligned hx)

/-- **The invariant gives the guarantees**: blocks in one chunk each, no overlap, and a bucket
for the small ones. -/
theorem BlocksInv.safe {m : Session} (h : BlocksInv m) : BlocksSafe m := by
  obtain ⟨owner, B, hc, hholds⟩ := h.consistent
  refine ⟨?_, ?_, ?_⟩
  · intro b hb
    obtain ⟨v, hreg⟩ := hc.live.reg b.1 (List.mem_map_of_mem hb)
    rcases h.placed hc hholds hb hreg with
      ⟨page, index, i, rfl, hwf, hbase, hsmall, hi, heq, hsize⟩ | ⟨hself, hpages, -⟩
    · have hle := block_lt hwf.size_ge hi
      refine ⟨getPage b.1, 1, _, hreg, ?_, by omega, by omega⟩
      intro q hq
      obtain ⟨k, hk, rfl⟩ := mem_pages.mp hq
      obtain rfl : k = 0 := by omega
      rw [Nat.zero_mul, Nat.add_zero, ← hbase]
      exact hc.shape.owned _ _ hwf.owner_base
    · refine ⟨getPage b.1, roundToPage b.2, v, hreg, ?_, by omega, ?_⟩
      · rw [← hself]
        exact fun q hq => hc.shape.owned _ _ (hpages q hq)
      · rw [roundToPage]
        simp only [pageSize] at *
        omega
  · intro b hb b' hb' hne x hx hx'
    have hkey : getPage b.1 = getPage b'.1 := by
      have h1 := h.owner_byte hc hholds hb hx
      rw [h.owner_byte hc hholds hb' hx'] at h1
      exact (Owner.block.inj (Option.some.inj h1)).symm
    have hfst : b.1 ≠ b'.1 := fun heq =>
      hne (List.inj_on_of_nodup_map hc.live.nodup hb hb' heq)
    obtain ⟨v, hreg⟩ := hc.live.reg b.1 (List.mem_map_of_mem hb)
    have hreg' : m.heap.Reg (getPage b'.1) v := by
      rw [← hkey]
      exact hreg
    rcases h.placed hc hholds hb hreg with
      ⟨page, index, i, rfl, -, -, hsmall, -, heq, hsize⟩ | ⟨hself, -, hlarge⟩
    · rcases h.placed hc hholds hb' hreg' with
        ⟨page', index', j, hv, -, -, -, -, heq', hsize'⟩ | ⟨-, -, hlarge'⟩
      · cases hv
        rw [← hkey] at heq'
        have hi := hx.block heq hsize
        have hj := hx'.block heq' hsize'
        exact hfst (heq.trans (hi.symm.trans hj ▸ heq'.symm))
      · have := hlarge' page index rfl
        omega
    · rcases h.placed hc hholds hb' hreg' with
        ⟨page', index', j, rfl, -, -, hsmall, -, -, -⟩ | ⟨hself', -, -⟩
      · have := hlarge page' index' rfl
        omega
      · exact hfst (hself.trans (hkey.trans hself'.symm))
  · intro b hb page index hreg hsmall
    exact (h.sizes b hb _ hreg _ rfl).2 hsmall

/-! ### Every run -/

/-- The heap at the start, with no live block, satisfies the invariant of the blocks. -/
theorem BlocksInv.start (memory : ℕ → Chungus) : BlocksInv (.start memory) where
  consistent := ⟨_, _, consistent_start memory, by simp [Session.start]⟩
  sizes := by simp [LiveSizes, Session.start]
  slots := by
    intro i
    simp only [Session.start, State.slot, State.start, List.getD_eq_getElem?_getD,
      List.getElem?_replicate]
    split <;> decide

section

variable {s s' : State} {owner owner' : ℕ → Option Owner} {b : ℕ × ℕ}

/-- An allocation keeps the pages of the live blocks: their owners and their chunks stay as
they were. -/
theorem HoldsPages.grows (h : HoldsPages s owner b) {live : List ℕ} (hlive : Live s live)
    (hb : b.1 ∈ live) (hs' : Shape s' owner') (hg : Grows s s' owner owner') :
    HoldsPages s' owner' b := by
  intro slot hreg q hq
  obtain ⟨v, hv⟩ := hlive.reg b.1 hb
  obtain rfl := hreg.unique hs'.wf (hg.reg _ _ hv)
  exact hg.blocks q _ (h slot hv q hq)

/-- A free keeps the pages of the blocks that stay live, since it takes the owner of no other
block away. -/
theorem HoldsPages.loses (h : HoldsPages s owner b) {live : List ℕ} (hlive : Live s live)
    (hb : b.1 ∈ live) (hl : Loses s s' owner owner') : HoldsPages s' owner' b := by
  intro slot hreg q hq
  have hold := hl.reg _ _ hreg
  have hself := hlive.big b.1 hb _ hold (by simp)
  refine hl.blocks q b.1 (.cached slot) ?_ (h slot hold q hq)
  rwa [← hself] at hreg

end

/-- **One allocation** keeps the invariant: a refused one adds nothing, and any other adds its
block to the live ones. -/
theorem BlocksInv.malloc {src : PageSource} (hsrc : src.Sound) {m : Session} (h : BlocksInv m)
    {s' : State} {size res : ℕ} (hfits : HeadFits m.heap size)
    (hok : malloc src m.heap size = .ok (res, s')) :
    (res = 0 → BlocksInv ⟨s', m.live⟩) ∧ (res ≠ 0 → BlocksInv ⟨s', (res, size) :: m.live⟩) := by
  obtain ⟨owner, B, hc, hholds⟩ := h.consistent
  by_cases hserved : bigbucketThreshold ≤ size → fittingSlot m.heap.freeCache size = none
  · obtain ⟨owner', B', hg, hcache, hout⟩ := malloc_keeps hsrc hc hserved hok
    have hslots : ∀ i, (s'.slot i).size < bigblocksCacheMaxsize := by
      intro i
      rw [State.slot, hcache]
      exact h.slots i
    cases hout with
    | null hc' _ =>
        refine ⟨fun _ => ⟨⟨owner', B', hc', ?_⟩, h.sizes.grows hc.live hc'.shape hg, hslots⟩,
          fun hne => absurd rfl hne⟩
        exact fun b hb => (hholds b hb).grows hc.live (List.mem_map_of_mem hb) hc'.shape hg
    | block page index hres hc' hreg _ _ horder hfit =>
        refine ⟨fun hzero => absurd hzero hres,
          fun _ => ⟨⟨owner', B', hc', ?_⟩, ?_, hslots⟩⟩
        · intro b hb
          rcases List.mem_cons.mp hb with rfl | hb
          · intro slot hreg'
            cases hreg'.unique hc'.shape.wf hreg
          · exact (hholds b hb).grows hc.live (List.mem_map_of_mem hb) hc'.shape hg
        · refine (h.sizes.grows hc.live hc'.shape hg).cons hc'.shape hreg ?_
          rintro n hn
          obtain rfl := Option.some.inj hn
          exact ⟨hfit hfits, horder⟩
  · push Not at hserved
    obtain ⟨hsize, hslot⟩ := hserved
    obtain ⟨slot, hslot⟩ := Option.ne_none_iff_exists'.mp hslot
    unfold Heap.malloc at hok
    rw [if_neg (by omega)] at hok
    obtain ⟨owner', hg, ⟨rfl, hc', hcache⟩ | ⟨hres, hc', hreg, hpages, hcache⟩⟩ :=
      cachedBlock_keeps hsrc hc hslot hok
    · refine ⟨fun _ => ⟨⟨owner', B, hc', ?_⟩, h.sizes.grows hc.live hc'.shape hg, ?_⟩,
        fun hne => absurd rfl hne⟩
      · exact fun b hb => (hholds b hb).grows hc.live (List.mem_map_of_mem hb) hc'.shape hg
      · intro i
        rw [State.slot, hcache]
        exact h.slots i
    · refine ⟨fun hzero => absurd hzero hres, fun _ => ⟨⟨owner', B, hc', ?_⟩, ?_, ?_⟩⟩
      · intro b hb
        rcases List.mem_cons.mp hb with rfl | hb
        · exact fun _ _ => hpages
        · exact (hholds b hb).grows hc.live (List.mem_map_of_mem hb) hc'.shape hg
      · refine (h.sizes.grows hc.live hc'.shape hg).cons hc'.shape hreg ?_
        intro n hn
        exact absurd hn (by simp [State.refSize])
      · intro i
        have hlen : slot < m.heap.freeCache.length := by
          rw [hc.shape.slots]
          exact (fittingSlot_spec hslot).1
        have hset := State.slot_setChunk m.heap hlen { m.heap.slot slot with base := 0 } i
        rw [State.slot, hcache]
        refine lt_of_eq_of_lt (congrArg ChunkInfo.size hset) ?_
        split
        · exact h.slots slot
        · exact h.slots i

/-- The free of a live block through its entry in the hash map. -/
theorem BlocksInv.freeEntry {m : Session} (h : BlocksInv m) {s' : State}
    {ptr size entry : ℕ} {v : ChunkRef} {chunk : ChunkInfo} (hlive : (ptr, size) ∈ m.live)
    (hentry : entry < m.heap.allocMap.totalEntries)
    (hkey : keyAt m.heap.allocMap.entries entry = getPage ptr)
    (hvalue : (entryAt m.heap.allocMap.entries entry).value = v)
    (hreg : m.heap.Reg (getPage ptr) v) (hchunk : m.heap.chunk v = .ok chunk)
    (hfits : ServesFit m (.free ptr))
    (hok : (if chunk.size < bigbucketThreshold then freeSmallbucket m.heap entry ptr
      else freeLargebucket m.heap entry) = .ok s') :
    BlocksInv ⟨s', m.live.erase (ptr, size)⟩ ∧ ∃ owner owner', Loses m.heap s' owner owner' := by
  obtain ⟨owner, B, hc, hholds⟩ := h.consistent
  obtain ⟨hempty, hrelease⟩ := hfits
  have hptr : ptr ∈ m.live.map Prod.fst := List.mem_map.mpr ⟨_, hlive, rfl⟩
  -- what is common to the kinds of blocks
  have hkept : ∀ {owner' : ℕ → Option Owner} {B' : ℕ → List (ℕ × ℕ)},
      Consistent s' owner' B' ((m.live.map Prod.fst).erase ptr) →
      Loses m.heap s' owner owner' → (∀ i, (s'.slot i).size < bigblocksCacheMaxsize) →
      BlocksInv ⟨s', m.live.erase (ptr, size)⟩ ∧ ∃ owner owner', Loses m.heap s' owner owner' := by
    intro owner' B' hc' hloses hslots
    refine ⟨⟨⟨owner', B', ?_, ?_⟩, h.sizes.loses hloses fun b hb => List.mem_of_mem_erase hb,
      hslots⟩, owner, owner', hloses⟩
    · rw [map_fst_erase hc.live.nodup hlive]
      exact hc'
    · intro b hb
      have hb' := List.mem_of_mem_erase hb
      exact (hholds b hb').loses hc.live (List.mem_map_of_mem hb') hloses
  cases v with
  | null => cases hc.shape.refs _ _ hreg
  | pool page index =>
      obtain rfl : m.heap.info page index = chunk := Except.ok.inj hchunk
      split at hok
      · rename_i hsmall
        obtain ⟨owner', B', hc', hloses, hcache, -⟩ :=
          freeSmallbucket_keeps hc hptr hentry hkey hvalue hreg hsmall (hrelease page index hreg)
          hok
        refine hkept hc' hloses fun i => ?_
        rw [State.slot, hcache]
        exact h.slots i
      · rename_i hlarge
        obtain ⟨owner', hc', hloses, hcases⟩ :=
          freeLargebucket_keeps hc hptr hentry hkey hvalue hreg (by omega) hok
        refine hkept hc' hloses fun i => ?_
        rcases hcases with ⟨slot, -, -, hsize, -, hslots⟩ | ⟨hcache, -⟩
        · rw [hslots]
          split
          · exact hsize
          · exact h.slots i
        · rw [State.slot, hcache]
          exact h.slots i
  | cached slot =>
      obtain rfl : m.heap.slot slot = chunk := Except.ok.inj hchunk
      split at hok
      · -- a slot never has the size of a small chunk
        unfold freeSmallbucket at hok
        simp only [hvalue] at hok
        obtain ⟨_, -, hok⟩ := bind_eq_ok.mp hok
        obtain ⟨_, -, hok⟩ := bind_eq_ok.mp hok
        obtain ⟨_, -, hok⟩ := bind_eq_ok.mp hok
        exact absurd hok (by simp)
      · obtain ⟨hc', hloses, i, -, hslots⟩ := freeCached_keeps hc hptr hentry hkey hvalue hreg
          (hempty slot hreg) (h.slots slot) hok
        refine hkept hc' hloses fun j => ?_
        rw [hslots]
        split
        · exact h.slots slot
        · exact h.slots j

/-- **One free** keeps the invariant, with the freed block taken from the live ones. -/
theorem BlocksInv.free {m : Session} (h : BlocksInv m) {s' : State} {ptr size : ℕ}
    (hlive : (ptr, size) ∈ m.live) (hok : free m.heap ptr = .ok s')
    (hfits : ServesFit m (.free ptr)) : BlocksInv ⟨s', m.live.erase (ptr, size)⟩ := by
  obtain ⟨owner, B, hc, -⟩ := h.consistent
  have hne : ptr ≠ 0 := by
    rintro rfl
    obtain ⟨v, hv⟩ := hc.live.reg 0 (List.mem_map.mpr ⟨_, hlive, rfl⟩)
    exact hv.1 rfl
  obtain ⟨entry, v, chunk, hentry, hkey, hvalue, hreg, hchunk, hok⟩ :=
    free_cases hc.shape.wf hne hok
  exact (h.freeEntry hlive hentry hkey hvalue hreg hchunk hfits hok).1

/-- **One step** of a run keeps the invariant, when the call gets or gives back a block of the
right size. -/
theorem BlocksInv.step {src : PageSource} (hsrc : src.Sound) {m m' : Session} {c : Call}
    (h : BlocksInv m) (hstep : Step src m c m') (hfits : ServesFit m c) : BlocksInv m' := by
  cases hstep with
  | null hok => exact (h.malloc hsrc hfits.2 hok).1 rfl
  | malloc hok hres => exact (h.malloc hsrc hfits.2 hok).2 hres
  | free hlive hok => exact h.free hlive hok hfits

end MugOS.Heap
