import MugOS.HeapSteps

/-!
# Freeing Blocks of the Heap

What `Heap_free` does to the invariants of the heap: a block goes back to its chunk, a chunk
without blocks in use may be given back, and with it its Chungus. A Chungus that is full is
still in the list, and giving one of its elements back would enter it a second time; the
statements are about the other Chunguses.

## Main results

* `Consistent.giveBlock`: a block goes back to its chunk.
* `Consistent.releaseChunk`, `releaseChunkInfo_keeps`: a chunk is given back, with its
  `ChunkInfo`.
* `freeSmallbucket_keeps`: freeing a small block.
-/

namespace MugOS.Heap

open WordBitmap Hashmap LinkedList Links

/-! ### What a free keeps -/

/-- What a free keeps: blocks that are still registered keep their pages and their size, and
nothing else is registered. -/
structure Loses (s s' : State) (owner owner' : ℕ → Option Owner) : Prop where
  blocks : ∀ q k v, s'.Reg k v → owner q = some (.block k) → owner' q = some (.block k)
  reg : ∀ k v, s'.Reg k v → s.Reg k v
  size : ∀ k page index, s'.Reg k (.pool page index) →
    (s'.info page index).size = (s.info page index).size
  refused : s'.pages.refused = s.pages.refused

/-- The `ChunkInfo`s that are still marked as used were so before, and they are still
registered if they were. -/
def KeepsBits (s s' : State) : Prop :=
  ∀ page ∈ s'.pool, ∀ index < chungusNChunks, bit (s'.memory page).bitmap index = true →
    page ∈ s.pool ∧ bit (s.memory page).bitmap index = true ∧
      ∀ k, s.Reg k (.pool page index) → s'.Reg k (.pool page index)

/-- What two frees one after the other release, they release together. -/
theorem Loses.trans {s s' s'' : State} {owner owner' owner'' : ℕ → Option Owner}
    (h : Loses s s' owner owner') (h' : Loses s' s'' owner' owner'') :
    Loses s s'' owner owner'' where
  blocks := fun q k v hk hq => h'.blocks q k v hk (h.blocks q k v (h'.reg k v hk) hq)
  reg := fun k v hk => h.reg k v (h'.reg k v hk)
  size := fun k page index hk =>
    (h'.size k page index hk).trans (h.size k page index (h'.reg k _ hk))
  refused := h'.refused.trans h.refused

/-! ### A block of a chunk -/

section

variable {s s' : State} {owner : ℕ → Option Owner} {B : ℕ → List (ℕ × ℕ)} {live : List ℕ}

/-- **A block goes back to its chunk**, and a chunk that was full enters its bucket. -/
theorem Consistent.giveBlock (h : Consistent s owner B live) {ptr page index order : ℕ}
    (hptr : ptr ∈ live) (hreg : s.Reg (getPage ptr) (.pool page index))
    (hsmall : (s.info page index).size < bigbucketThreshold)
    (hsmallorder : getSmallbucketOrder (s.info page index).size = .ok order)
    (horder : order < nSmallbucket) {links : Links Node}
    (hfull : isChunkFull (s.info page index) = true →
      pushFront s.links (.bucket order) (.chunk page index) = .ok links)
    (hroom : isChunkFull (s.info page index) = false → links = s.links) :
    (∃ B', Consistent { s.setChunk (.pool page index) (freeBlock (s.info page index) ptr) with
        links := links } owner B' (live.erase ptr) ∧ (page, index) ∈ B' order) ∧
      Loses s { s.setChunk (.pool page index) (freeBlock (s.info page index) ptr) with
        links := links } owner owner := by
  obtain ⟨hbase, hwf⟩ := h.shape.pool_wf hreg
  obtain ⟨i, hi, hblock, hset⟩ := h.live.small ptr hptr page index hreg hsmall
  obtain ⟨hchunk, hwf'⟩ := freeBlock_spec hwf hi
  rw [← hblock] at hchunk
  set chunk := freeBlock (s.info page index) ptr with hchunkdef
  have hchunk_size : chunk.size = (s.info page index).size := by rw [hchunk]
  have hi64 : i < 64 := BitVec.lt_of_getMsbD hset
  have hnotfull : isChunkFull chunk = false := by
    rw [isChunkFull_eq_false_iff]
    refine ⟨i, hi64, ?_⟩
    rw [hchunk, getMsbD_and_not_bitMask _ hi64]
    simp
  set s' : State := { s.setChunk (.pool page index) chunk with links := links } with hs'
  have hiff : ∀ k v, s'.Reg k v ↔ s.Reg k v := fun _ _ => Iff.rfl
  have hother : ∀ p j, (p, j) ≠ (page, index) → s'.info p j = s.info p j :=
    fun p j hpj => State.info_setChunk_of_ne s chunk hpj
  have hself : s'.info page index = chunk := State.info_setChunk_self s page index chunk
  have hsize : ∀ p j, (s'.info p j).size = (s.info p j).size :=
    fun p j => State.size_setChunk s hchunk_size p j
  have hroom' : ∀ o p j, (p, j) ≠ (page, index) → (HasRoom s' o p j ↔ HasRoom s o p j) :=
    fun o p j hpj =>
      HasRoom.congr (fun k => hiff k _) (hsize p j) (by rw [hother p j hpj]) o
  have hshape : Shape s' owner := by
    refine (h.shape.setInfo fun k' hk' => ?_).setLinks links
    rw [hchunk]
    exact ⟨(h.shape.pool_wf hk').1, hwf'⟩
  have hlive : Live s' (live.erase ptr) := by
    have hgive := h.live.give hiff hsmall (hself.trans hchunk) hother
    rwa [← hblock] at hgive
  refine ⟨?_, fun _ _ _ _ hq => hq, fun _ _ hk => hk, ?_, rfl⟩
  · cases hf : isChunkFull (s.info page index) with
    | true =>
        refine ⟨_, ⟨hshape, h.lists.pushBucket horder (hfull hf) ?_ rfl rfl ?_ hroom', hlive⟩,
          by simp⟩
        · intro o ho hmem
          have := ((h.lists.mem_iff o ho page index).mp hmem).room
          rw [hf] at this
          exact absurd this (by decide)
        · refine ⟨⟨_, hreg⟩, ?_, ?_, ?_⟩
          · rw [hself, hchunk_size]
            exact hsmall
          · rw [hself, hchunk_size]
            exact hsmallorder
          · rw [hself]
            exact hnotfull
    | false =>
        refine ⟨B, ⟨hshape, h.lists.congr (hroom hf) rfl ?_, hlive⟩,
          (h.lists.mem_iff order horder page index).mpr ⟨⟨_, hreg⟩, hsmall, hsmallorder, hf⟩⟩
        intro o p j
        by_cases hpj : (p, j) = (page, index)
        · obtain ⟨rfl, rfl⟩ := Prod.mk.inj hpj
          exact HasRoom.congr (fun k => hiff k _) (hsize p j) (by rw [hself, hnotfull, hf]) o
        · exact hroom' o p j hpj
  · exact fun _ p j _ => hsize p j

/-! ### A chunk is given back -/

/-- A chunk of small blocks that counts as empty has no live block. -/
theorem Consistent.no_live (h : Consistent s owner B live) {k page index : ℕ}
    (hreg : s.Reg k (.pool page index)) (hsmall : (s.info page index).size < bigbucketThreshold)
    (hempty : isChunkEmpty (s.info page index) = true) : ∀ p ∈ live, getPage p ≠ k := by
  rintro p hp rfl
  have hmin : minBlockSize ≤ (s.info page index).size := (h.shape.pool_wf hreg).2.size_ge
  obtain ⟨i, hi, -, hset⟩ := h.live.small p hp page index hreg hsmall
  have hi64 : i < 64 := BitVec.lt_of_getMsbD hset
  rw [isChunkEmpty, decide_eq_true_eq] at hempty
  rw [hempty, getMsbD_emptyMask hmin (le_of_lt hsmall) hi64, decide_eq_true_eq] at hset
  omega

/-- Deleting the entry of a key from the hash map keeps the shape of the heap, and only the
freed block is gone from the registered ones. -/
theorem Shape.unregister (h : Shape s owner) {k entry : ℕ} (hne : k ≠ 0)
    (hentry : entry < s.allocMap.totalEntries) (hkey : keyAt s.allocMap.entries entry = k)
    {map : Hashmap ChunkRef} (hdel : Hashmap.delete s.allocMap (some entry) = .ok map) :
    Shape { s with allocMap := map } owner ∧
      ∀ k' v, State.Reg { s with allocMap := map } k' v ↔ s.Reg k' v ∧ k' ≠ k := by
  obtain ⟨map', hdel', hmap, hmapbase, htotal, hcontains, -⟩ :=
    delete_cases h.wf hentry (by rw [hkey]; exact hne)
  obtain rfl := Except.ok.inj (hdel.symm.trans hdel')
  rw [hkey] at hcontains
  refine ⟨h.delete hmap hmapbase htotal fun k' v hk' hcont => ((hcontains k' v hk').mp hcont).1, ?_⟩
  intro k' v
  constructor
  · rintro ⟨hk', hcont⟩
    obtain ⟨hold, hne'⟩ := (hcontains k' v hk').mp hcont
    exact ⟨⟨hk', hold⟩, hne'⟩
  · rintro ⟨⟨hk', hold⟩, hne'⟩
    exact ⟨hk', (hcontains k' v hk').mpr ⟨hold, hne'⟩⟩

/-- Once the key of a `ChunkInfo` of the pool has left the hash map, no other one leads to it. -/
theorem Shape.not_reg_of_unregister (h : Shape s owner) {k page index : ℕ}
    (hreg : s.Reg k (.pool page index)) (hreg' : ∀ k' v, s'.Reg k' v ↔ s.Reg k' v ∧ k' ≠ k) :
    ∀ k', ¬ s'.Reg k' (.pool page index) := by
  intro k' hk'
  obtain ⟨hold, hne⟩ := (hreg' k' _).mp hk'
  exact hne (h.key_unique hold hreg)

/-- **An empty chunk leaves its bucket and the hash map**, and its pages are given back. -/
theorem Consistent.releaseChunk (h : Consistent s owner B live) {k page index order entry : ℕ}
    (horder : order < nSmallbucket) (hmem : (page, index) ∈ B order)
    (hempty : isChunkEmpty (s.info page index) = true) (hreg : s.Reg k (.pool page index))
    (hentry : entry < s.allocMap.totalEntries) (hkey : keyAt s.allocMap.entries entry = k)
    {links : Links Node} {map : Hashmap ChunkRef}
    (hpop : pop s.links (.bucket order) (.chunk page index) = .ok links)
    (hfree : freeChunk { s with links := links } (.pool page index) = .ok s')
    (hdel : Hashmap.delete s'.allocMap (some entry) = .ok map) :
    (∃ owner' B', Consistent { s' with allocMap := map } owner' B' live ∧
        Loses s { s' with allocMap := map } owner owner') ∧
      (∀ k' v, State.Reg { s' with allocMap := map } k' v ↔ s.Reg k' v ∧ k' ≠ k) ∧
      s'.pool = s.pool ∧ s'.freeCache = s.freeCache ∧
      ∀ p, (s'.memory p).bitmap = (s.memory p).bitmap := by
  obtain ⟨-, hsmall, -, -⟩ := (h.lists.mem_iff order horder page index).mp hmem
  obtain ⟨rfl, hwf⟩ := h.shape.pool_wf hreg
  obtain rfl := freeChunk_pool hfree
  obtain ⟨hshape₁, hreg₁⟩ := h.shape.unregister hwf.ne_zero hentry hkey hdel
  have hgone := h.shape.not_reg_of_unregister hreg hreg₁
  have hshape₂ := hshape₁.freeBlock hwf.holds (fun v hv => ((hreg₁ _ v).mp hv).2 rfl)
    fun i hi heq => (h.shape.cache i hi).2.2 _ (heq ▸ hreg)
  have hshape₃ := (hshape₂.setLinks links).setInfo
    (c := { s.info page index with base := 0, size := 0 }) fun k' hk' => absurd hk' (hgone k')
  set s' : State := { (({ s with
      links := links
      pages := s.pages.freePages (s.info page index).base
        (roundToPage (s.info page index).size) } : State).setChunk (.pool page index)
      { s.info page index with base := 0, size := 0 }) with allocMap := map } with hs'
  have hother : ∀ p j, (p, j) ≠ (page, index) → s'.info p j = s.info p j :=
    fun p j hpj => State.info_setChunk_of_ne { s with
      links := links
      pages := s.pages.freePages (s.info page index).base (roundToPage (s.info page index).size) }
      _ hpj
  have hkept : ∀ k' p j, s'.Reg k' (.pool p j) → (p, j) ≠ (page, index) := by
    rintro k' p j hk' heq
    obtain ⟨rfl, rfl⟩ := Prod.mk.inj heq
    exact hgone k' hk'
  have hne_of : ∀ k' p j, s.Reg k' (.pool p j) → (p, j) ≠ (page, index) →
      k' ≠ (s.info page index).base := by
    rintro k' p j hk' hpj rfl
    cases hk'.unique h.shape.wf hreg
    exact hpj rfl
  have hlists : Lists s' (Function.update B order ((B order).erase (page, index))) := by
    refine h.lists.popBucket horder hpop hmem rfl rfl ?_ ?_
    · rintro o ⟨⟨k', hk'⟩, -, -, -⟩
      exact hgone k' hk'
    · intro o p j hpj
      have hiff : ∀ k', s'.Reg k' (.pool p j) ↔ s.Reg k' (.pool p j) := fun k' =>
        ⟨fun hk' => ((hreg₁ k' _).mp hk').1,
          fun hk' => (hreg₁ k' _).mpr ⟨hk', hne_of k' p j hk' hpj⟩⟩
      exact HasRoom.congr hiff (congrArg ChunkInfo.size (hother p j hpj))
        (congrArg isChunkFull (hother p j hpj)) o
  have hlive : Live s' live := by
    refine h.live.unregister (h.no_live hreg hsmall hempty) hreg₁ ?_
    intro k' p j hne hk'
    refine hother p j ?_
    rintro heq
    obtain ⟨rfl, rfl⟩ := Prod.mk.inj heq
    exact hne (h.shape.key_unique hk' hreg)
  refine ⟨⟨_, _, ⟨hshape₃, hlists, hlive⟩, ?_, fun k' v hk' => ((hreg₁ k' v).mp hk').1, ?_, rfl⟩,
    hreg₁, rfl, rfl, fun p => State.bitmap_setChunk _ page index _ p⟩
  · intro q k' v hk' hq
    rw [if_neg, hq]
    intro hmemq
    rw [hwf.holds q hmemq] at hq
    cases hq
    exact ((hreg₁ _ v).mp hk').2 rfl
  · intro k' p j hk'
    exact congrArg ChunkInfo.size (hother p j (hkept k' p j hk'))

/-- Marking a `ChunkInfo` of a Chungus as free changes the bitmap only: every `ChunkInfo` reads
as before. -/
theorem State.info_markFree (s : State) (page index p i : ℕ) :
    State.info { s with
      memory := Function.update s.memory page (markFree (s.memory page) index) } p i =
        s.info p i := by
  simp only [State.info]
  by_cases hp : p = page
  · subst hp
    rw [Function.update_self]
    rfl
  · rw [Function.update_of_ne hp]

/-- A `ChunkInfo` that is not registered is marked as free. -/
theorem Consistent.markFree (h : Consistent s owner B live) {page index : ℕ} (hpage : page ∈ s.pool)
    (hindex : index < chungusNChunks) (hnot : ∀ k, ¬ s.Reg k (.pool page index)) :
    Consistent { s with
      memory := Function.update s.memory page (markFree (s.memory page) index) } owner B live :=
  h.congr (h.shape.markFree hpage hindex hnot) rfl rfl (fun _ _ => Iff.rfl)
    fun _ p i _ => s.info_markFree page index p i

/-- **The `ChunkInfo` of a chunk is given back**, and an empty Chungus possibly with it. -/
theorem releaseChunkInfo_keeps (h : Consistent s owner B live) {page index : ℕ}
    (hpage : page ∈ s.pool) (hindex : index < chungusNChunks)
    (hnot : ∀ k, ¬ s.Reg k (.pool page index)) (hfull : isChungusFull (s.memory page) = false)
    (hok : releaseChunkInfo s page index = .ok s') :
    (∃ owner', Consistent s' owner' B live ∧ Loses s s' owner owner') ∧
      (∀ k v, s'.Reg k v ↔ s.Reg k v) ∧ s'.freeCache = s.freeCache ∧
      ∀ p ∈ s'.pool, ∀ i < chungusNChunks, bit (s'.memory p).bitmap i = true →
        p ∈ s.pool ∧ bit (s.memory p).bitmap i = true ∧ (p, i) ≠ (page, index) := by
  have hlength : index / 64 < (s.memory page).bitmap.length := by
    rw [(h.shape.chungus page hpage).length_eq]
    simp only [chungusNChunks, chungusBitmapSize, pageSize] at *
    omega
  set s₁ : State :=
    { s with memory := Function.update s.memory page (markFree (s.memory page) index) } with hs₁
  have hinfo : ∀ p i, s₁.info p i = s.info p i := s.info_markFree page index
  have h₁ : Consistent s₁ owner B live := h.markFree hpage hindex hnot
  have hshape₁ := h₁.shape
  have hbits : ∀ p ∈ s₁.pool, ∀ i < chungusNChunks, bit (s₁.memory p).bitmap i = true →
      p ∈ s.pool ∧ bit (s.memory p).bitmap i = true ∧ (p, i) ≠ (page, index) := by
    intro p hp i _ hbit
    by_cases hpp : p = page
    · subst hpp
      simp only [hs₁, Function.update_self] at hbit
      rw [bit_markFree hlength, Bool.and_eq_true, decide_eq_true_eq] at hbit
      exact ⟨hp, hbit.1, fun heq => hbit.2 (Prod.mk.inj heq).2⟩
    · simp only [hs₁, Function.update_of_ne hpp] at hbit
      exact ⟨hp, hbit, fun heq => hpp (Prod.mk.inj heq).1⟩
  have hkeep : (∃ owner', Consistent s₁ owner' B live ∧ Loses s s₁ owner owner') ∧
      (∀ k v, s₁.Reg k v ↔ s.Reg k v) ∧ s₁.freeCache = s.freeCache ∧
      ∀ p ∈ s₁.pool, ∀ i < chungusNChunks, bit (s₁.memory p).bitmap i = true →
        p ∈ s.pool ∧ bit (s.memory p).bitmap i = true ∧ (p, i) ≠ (page, index) :=
    ⟨⟨owner, h₁, fun _ _ _ _ hq => hq, fun _ _ hk => hk, fun _ p i _ => by rw [hinfo], rfl⟩,
      fun _ _ => Iff.rfl, rfl, hbits⟩
  unfold releaseChunkInfo at hok
  simp only [hfull, Bool.false_eq_true, if_false, ← hs₁] at hok
  split at hok
  swap
  · exact (Except.ok.inj hok) ▸ hkeep
  rename_i hempty
  obtain ⟨should, -, hok⟩ := bind_eq_ok.mp hok
  cases should with
  | false => exact (Except.ok.inj hok) ▸ hkeep
  | true =>
      obtain ⟨links, hpop, hok⟩ := bind_eq_ok.mp hok
      unfold freeChungus at hok
      obtain ⟨s₂, hfree, hok⟩ := bind_eq_ok.mp hok
      unfold State.freePages at hfree
      split at hfree
      swap
      · exact absurd hfree (by simp)
      obtain rfl := Except.ok.inj hfree
      obtain rfl := Except.ok.inj hok
      -- an empty Chungus has no registered elements
      have hnone : ∀ k i, ¬ s₁.Reg k (.pool page i) := by
        intro k i hk
        have hi : i < chungusNChunks := by
          cases hshape₁.refs k _ hk with
          | pool _ hi _ _ _ => exact hi
        exact hshape₁.not_reg_of_bit (bit_of_isChungusEmpty hempty hi) k hk
      have hshape₂ := hshape₁.dropChungus hpage hnone links
      have hinj : Function.Injective Node.chungus := fun _ _ heq => Node.chungus.inj heq
      obtain ⟨l', hpop', hring, hother, -, -⟩ :=
        pop_spec h₁.lists.chunguses (List.mem_map.mpr ⟨page, hpage, rfl⟩)
      obtain rfl := Except.ok.inj (hpop.symm.trans hpop')
      rw [← List.map_erase hinj] at hring
      refine ⟨⟨_, ⟨hshape₂, h₁.lists.setChunguses hring ?_ rfl rfl ?_, ?_⟩, ?_⟩,
        fun _ _ => Iff.rfl, rfl, ?_⟩
      · intro y hy hy'
        refine hother y ?_
        intro hmem
        rcases List.mem_cons.mp hmem with rfl | hmem
        · exact hy' rfl
        · obtain ⟨q, -, rfl⟩ := List.mem_map.mp hmem
          exact hy q rfl
      · exact hasRoom_congr (fun _ _ => Iff.rfl) fun _ _ _ _ => rfl
      · exact h₁.live.congr (fun _ _ => Iff.rfl) fun _ _ _ _ => rfl
      · refine ⟨?_, fun _ _ hk => hk, fun _ p i _ => congrArg ChunkInfo.size (hinfo p i), rfl⟩
        intro q k v _ hq
        have hne : q ≠ page := by
          rintro rfl
          rw [h.shape.pool q hpage] at hq
          exact absurd hq (by simp)
        rw [Function.update_of_ne hne, hq]
      · exact fun p hp => hbits p (List.mem_of_mem_erase hp)

/-! ### Freeing a small block -/

/-- The free of a block that gives its chunk back: the chunk was not full, it is empty
afterwards, and `shouldFreeChunk` says so. -/
def Releases (s : State) (ptr page index : ℕ) : Prop :=
  isChunkFull (s.info page index) = false ∧
    isChunkEmpty (freeBlock (s.info page index) ptr) = true ∧
    ∃ order, getSmallbucketOrder (s.info page index).size = .ok order ∧
      shouldFreeChunk (s.setChunk (.pool page index) (freeBlock (s.info page index) ptr))
        (.bucket order) page index = .ok true

/-- **The free of a small block** keeps the invariant of the heap, for the live blocks without
the freed one, and the other blocks stay registered. -/
theorem freeSmallbucket_keeps (h : Consistent s owner B live) {ptr entry page index : ℕ}
    (hptr : ptr ∈ live) (hentry : entry < s.allocMap.totalEntries)
    (hkey : keyAt s.allocMap.entries entry = getPage ptr)
    (hvalue : (entryAt s.allocMap.entries entry).value = .pool page index)
    (hreg : s.Reg (getPage ptr) (.pool page index))
    (hsmall : (s.info page index).size < bigbucketThreshold)
    (hrelease : Releases s ptr page index → isChungusFull (s.memory page) = false)
    (hok : freeSmallbucket s entry ptr = .ok s') :
    ∃ owner' B', Consistent s' owner' B' (live.erase ptr) ∧ Loses s s' owner owner' ∧
      s'.freeCache = s.freeCache ∧ KeepsBits s s' := by
  obtain ⟨hpage, hindex⟩ := h.shape.pool_mem hreg
  unfold freeSmallbucket at hok
  simp only [hvalue] at hok
  obtain ⟨chunk, hchunk, hok⟩ := bind_eq_ok.mp hok
  obtain rfl : s.info page index = chunk := Except.ok.inj hchunk
  obtain ⟨order, hsmallorder, hok⟩ := bind_eq_ok.mp hok
  obtain ⟨bucket, hbucket, hok⟩ := bind_eq_ok.mp hok
  have horder : order < nSmallbucket := by
    by_contra hge
    rw [smallBucket, if_neg hge] at hbucket
    exact absurd hbucket (by simp)
  obtain rfl := smallBucket_eq hbucket
  have hquiet : ∀ links : Links Node,
      KeepsBits s { s.setChunk (.pool page index) (freeBlock (s.info page index) ptr) with
        links := links } := by
    intro links p hp i _ hbit
    rw [State.bitmap_setChunk] at hbit
    exact ⟨hp, hbit, fun _ hk => hk⟩
  cases hf : isChunkFull (s.info page index) with
  | true =>
      simp only [hf, if_true] at hok
      obtain ⟨links, hpush, hok⟩ := bind_eq_ok.mp hok
      obtain rfl := Except.ok.inj hok
      obtain ⟨⟨B', h', -⟩, hloses⟩ := h.giveBlock hptr hreg hsmall hsmallorder horder
        (fun _ => hpush) (fun hnot => absurd (hf.symm.trans hnot) (by decide))
      exact ⟨owner, B', h', hloses, rfl, hquiet links⟩
  | false =>
      simp only [hf, Bool.false_eq_true, if_false] at hok
      obtain ⟨⟨B₁, h₁, hmem⟩, hloses₁⟩ := h.giveBlock hptr hreg hsmall hsmallorder horder
        (fun hfull => absurd (hf.symm.trans hfull) (by decide)) fun _ => rfl
      set s₁ := s.setChunk (.pool page index) (freeBlock (s.info page index) ptr) with hs₁
      have hstay : ∃ owner' B', Consistent s₁ owner' B' (live.erase ptr) ∧ Loses s s₁ owner owner' ∧
          s₁.freeCache = s.freeCache ∧ KeepsBits s s₁ :=
        ⟨owner, B₁, h₁, hloses₁, rfl, hquiet s.links⟩
      split at hok
      swap
      · exact (Except.ok.inj hok) ▸ hstay
      rename_i hempty
      obtain ⟨should, hshould, hok⟩ := bind_eq_ok.mp hok
      cases should with
      | false => exact (Except.ok.inj hok) ▸ hstay
      | true =>
          have hnotfull := hrelease ⟨hf, hempty, order, hsmallorder, hshould⟩
          obtain ⟨links, hpop, hok⟩ := bind_eq_ok.mp hok
          obtain ⟨s₂, hfree, hok⟩ := bind_eq_ok.mp hok
          obtain ⟨map, hdel, hok⟩ := bind_eq_ok.mp hok
          have hself : s₁.info page index = freeBlock (s.info page index) ptr :=
            State.info_setChunk_self s page index _
          obtain ⟨⟨owner₂, B₂, h₂, hloses₂⟩, hreg₂, hpool₂, hcache₂, hbitmap₂⟩ :=
            h₁.releaseChunk horder hmem ((congrArg isChunkEmpty hself).trans hempty) hreg hentry
            hkey hpop hfree hdel
          have hgone := h₁.shape.not_reg_of_unregister hreg hreg₂
          have hfull₂ : isChungusFull (s₂.memory page) = false := by
            rw [← hnotfull]
            apply isChungusFull_congr
            rw [hbitmap₂, hs₁, State.bitmap_setChunk]
          obtain ⟨⟨owner₃, h₃, hloses₃⟩, hreg₃, hcache₃, hbits₃⟩ :=
            releaseChunkInfo_keeps h₂ (hpool₂ ▸ hpage) hindex hgone hfull₂ hok
          refine ⟨owner₃, B₂, h₃, (hloses₁.trans hloses₂).trans hloses₃, hcache₃.trans hcache₂, ?_⟩
          intro p hp i hi hbit
          obtain ⟨hp₂, hbit₂, hne⟩ := hbits₃ p hp i hi hbit
          refine ⟨hpool₂ ▸ hp₂, ?_, ?_⟩
          · rw [← hbit₂, hbitmap₂, hs₁, State.bitmap_setChunk]
          · intro k hk
            refine (hreg₃ k _).mpr ((hreg₂ k _).mpr ⟨hk, ?_⟩)
            rintro rfl
            cases hk.unique h.shape.wf hreg
            exact hne rfl

/-! ### Freeing a large block -/

/-- The lists and the live blocks when a large block leaves the hash map. -/
theorem Consistent.dropLarge (h : Consistent s owner B live) {ptr : ℕ} {v : ChunkRef}
    (hptr : ptr ∈ live) (hreg : s.Reg (getPage ptr) v)
    (hbig : ∀ page index, v = .pool page index → bigbucketThreshold ≤ (s.info page index).size)
    (hlinks : s'.links = s.links) (hpool : s'.pool = s.pool)
    (hreg' : ∀ k w, s'.Reg k w ↔ s.Reg k w ∧ k ≠ getPage ptr)
    (hinfo : ∀ k page index, k ≠ getPage ptr → s.Reg k (.pool page index) →
      s'.info page index = s.info page index) :
    Lists s' B ∧ Live s' (live.erase ptr) := by
  constructor
  · refine h.lists.congr hlinks hpool ?_
    intro o p i
    constructor
    · rintro ⟨⟨k, hk⟩, hsm, hord, hrm⟩
      obtain ⟨hold, hne⟩ := (hreg' k _).mp hk
      rw [hinfo k p i hne hold] at hsm hord hrm
      exact ⟨⟨k, hold⟩, hsm, hord, hrm⟩
    · rintro ⟨⟨k, hk⟩, hsm, hord, hrm⟩
      have hne : k ≠ getPage ptr := by
        rintro rfl
        have := hbig p i (hreg.unique h.shape.wf hk)
        omega
      rw [← hinfo k p i hne hk] at hsm hord hrm
      exact ⟨⟨k, (hreg' k _).mpr ⟨hk, hne⟩⟩, hsm, hord, hrm⟩
  · -- a large block is alone on its first page
    have hself := h.live.big ptr hptr v hreg hbig
    have hlive : Live s (live.erase ptr) :=
      ⟨h.live.nodup.erase ptr, fun p hp => h.live.reg p (List.mem_of_mem_erase hp),
        fun p hp => h.live.small p (List.mem_of_mem_erase hp),
        fun p hp => h.live.big p (List.mem_of_mem_erase hp)⟩
    refine hlive.unregister ?_ hreg' hinfo
    intro p hp heq
    have hp' := List.mem_of_mem_erase hp
    have hreg_p : s.Reg (getPage p) v := by
      rw [heq]
      exact hreg
    have hsame : p = ptr := by
      rw [h.live.big p hp' v hreg_p hbig, heq, ← hself]
    exact h.live.nodup.not_mem_erase (hsame ▸ hp)

/-- A large block of the pool whose `ChunkInfo` is copied into a slot of the cache leaves the hash
map, and keeps its pages. -/
theorem Consistent.cacheLarge (h : Consistent s owner B live) {ptr entry page index slot : ℕ}
    (hptr : ptr ∈ live) (hentry : entry < s.allocMap.totalEntries)
    (hkey : keyAt s.allocMap.entries entry = getPage ptr)
    (hreg : s.Reg (getPage ptr) (.pool page index))
    (hbig : bigbucketThreshold ≤ (s.info page index).size) (hslot : slot < nBigblocksCached)
    {map : Hashmap ChunkRef} (hdel : Hashmap.delete s.allocMap (some entry) = .ok map) :
    Consistent { s.setChunk (.cached slot) (s.info page index) with allocMap := map } owner B
        (live.erase ptr) ∧
      Loses s { s.setChunk (.cached slot) (s.info page index) with allocMap := map } owner
        owner := by
  obtain ⟨hbase, hwf⟩ := h.shape.pool_wf hreg
  obtain ⟨hshape, hreg'⟩ := h.shape.unregister hreg.1 hentry hkey hdel
  have hlarge : ∀ p i, ChunkRef.pool page index = .pool p i →
      bigbucketThreshold ≤ (s.info p i).size := by
    rintro p i ⟨⟩
    exact hbig
  have hrest : Lists { s.setChunk (.cached slot) (s.info page index) with allocMap := map } B ∧
      Live { s.setChunk (.cached slot) (s.info page index) with allocMap := map }
        (live.erase ptr) :=
    h.dropLarge hptr hreg hlarge rfl rfl hreg' fun _ _ _ _ _ => rfl
  have hshape' := hshape.setSlot hslot (c := s.info page index) fun _ => by
    refine ⟨hwf, hbig, fun v hv => ((hreg' _ v).mp hv).2 hbase, fun j _ heq => ?_⟩
    by_cases hj0 : (s.slot j).base = 0
    · exact hwf.ne_zero (heq ▸ hj0)
    · exact (h.shape.cache j hj0).2.2 _ (heq ▸ hbase ▸ hreg)
  exact ⟨⟨hshape', hrest.1, hrest.2⟩, fun _ _ _ _ hq => hq, fun k v hk => ((hreg' k v).mp hk).1,
    fun _ _ _ _ => rfl, rfl⟩

/-- A large block of the pool whose pages are given back leaves the hash map, and its `ChunkInfo` is
cleared. -/
theorem Consistent.releaseLarge (h : Consistent s owner B live) {ptr entry page index : ℕ}
    (hptr : ptr ∈ live) (hentry : entry < s.allocMap.totalEntries)
    (hkey : keyAt s.allocMap.entries entry = getPage ptr)
    (hreg : s.Reg (getPage ptr) (.pool page index))
    (hbig : bigbucketThreshold ≤ (s.info page index).size) {map : Hashmap ChunkRef}
    (hfree : freeChunk s (.pool page index) = .ok s')
    (hdel : Hashmap.delete s'.allocMap (some entry) = .ok map) :
    (∃ owner', Consistent { s' with allocMap := map } owner' B (live.erase ptr) ∧
        Loses s { s' with allocMap := map } owner owner') ∧
      s'.freeCache = s.freeCache ∧ s'.pages =
        s.pages.freePages (s.info page index).base (roundToPage (s.info page index).size) := by
  obtain ⟨hbase, hwf⟩ := h.shape.pool_wf hreg
  obtain rfl := freeChunk_pool hfree
  obtain ⟨hshape, hreg'⟩ := h.shape.unregister hreg.1 hentry hkey hdel
  have hlarge : ∀ p i, ChunkRef.pool page index = .pool p i →
      bigbucketThreshold ≤ (s.info p i).size := by
    rintro p i ⟨⟩
    exact hbig
  have hgone := h.shape.not_reg_of_unregister hreg hreg'
  have hshape₁ := hshape.freeBlock hwf.holds (fun v hv => ((hreg' _ v).mp hv).2 hbase)
    fun i hi heq => (h.shape.cache i hi).2.2 _ (heq ▸ hbase ▸ hreg)
  have hshape₂ := hshape₁.setInfo (c := { s.info page index with base := 0, size := 0 })
    fun k hk => absurd hk (hgone k)
  set ps := s.pages.freePages (s.info page index).base (roundToPage (s.info page index).size)
  set s₁ : State := ({ s with pages := ps } : State).setChunk (.pool page index)
    { s.info page index with base := 0, size := 0 } with hs₁
  have hinfo : ∀ k p i, k ≠ getPage ptr → s.Reg k (.pool p i) → s₁.info p i = s.info p i := by
    intro k p i hne hk
    refine State.info_setChunk_of_ne ({ s with pages := ps } : State) _ ?_
    rintro ⟨⟩
    exact hne (h.shape.key_unique hk hreg)
  have hrest : Lists { s₁ with allocMap := map } B ∧
      Live { s₁ with allocMap := map } (live.erase ptr) :=
    h.dropLarge hptr hreg hlarge rfl rfl hreg' hinfo
  refine ⟨⟨_, ⟨hshape₂, hrest.1, hrest.2⟩, ?_, fun k v hk => ((hreg' k v).mp hk).1, ?_, rfl⟩,
    rfl, rfl⟩
  · intro q k v hk hq
    rw [if_neg, hq]
    intro hmemq
    rw [hwf.holds q hmemq, hbase] at hq
    cases hq
    exact ((hreg' _ v).mp hk).2 rfl
  · intro k p i hk
    obtain ⟨hold, hne⟩ := (hreg' k _).mp hk
    exact congrArg ChunkInfo.size (hinfo k p i hne hold)

/-- **The free of a large block** that is described by a `ChunkInfo` of the pool: it is cached,
or its pages are given back. -/
theorem freeLargebucket_keeps (h : Consistent s owner B live) {ptr entry page index : ℕ}
    (hptr : ptr ∈ live) (hentry : entry < s.allocMap.totalEntries)
    (hkey : keyAt s.allocMap.entries entry = getPage ptr)
    (hvalue : (entryAt s.allocMap.entries entry).value = .pool page index)
    (hreg : s.Reg (getPage ptr) (.pool page index))
    (hbig : bigbucketThreshold ≤ (s.info page index).size)
    (hok : freeLargebucket s entry = .ok s') :
    ∃ owner', Consistent s' owner' B (live.erase ptr) ∧ Loses s s' owner owner' ∧
      ((∃ slot < nBigblocksCached, (s.slot slot).base = 0 ∧
          (s.info page index).size < bigblocksCacheMaxsize ∧ s'.pages = s.pages ∧
          ∀ i, s'.slot i = if i = slot then s.info page index else s.slot i) ∨
        (s'.freeCache = s.freeCache ∧ s'.pages =
          s.pages.freePages (s.info page index).base (roundToPage (s.info page index).size))) := by
  unfold freeLargebucket at hok
  simp only [hvalue] at hok
  obtain ⟨chunk, hchunk, hok⟩ := bind_eq_ok.mp hok
  obtain rfl : s.info page index = chunk := Except.ok.inj hchunk
  split at hok
  · -- the block is cached
    rename_i slot hslot
    obtain ⟨map, hdel, hok⟩ := bind_eq_ok.mp hok
    obtain rfl := Except.ok.inj hok
    have hsize : (s.info page index).size < bigblocksCacheMaxsize := by
      by_contra hge
      rw [if_neg hge] at hslot
      exact absurd hslot (by simp)
    rw [if_pos hsize] at hslot
    have hlt : slot < nBigblocksCached := List.mem_range.mp (List.mem_of_find?_eq_some hslot)
    have hslot0 : (s.slot slot).base = 0 := by
      unfold emptySlot at hslot
      have := List.find?_some hslot
      exact of_decide_eq_true this
    obtain ⟨h', hloses⟩ := h.cacheLarge hptr hentry hkey hreg hbig hlt hdel
    refine ⟨owner, h', hloses, .inl ⟨slot, hlt, hslot0, hsize, rfl, ?_⟩⟩
    exact State.slot_setChunk s (by rw [h.shape.slots]; exact hlt) _
  · -- its pages are given back
    obtain ⟨s₁, hfree, hok⟩ := bind_eq_ok.mp hok
    obtain ⟨map, hdel, hok⟩ := bind_eq_ok.mp hok
    obtain rfl := Except.ok.inj hok
    obtain ⟨⟨owner', h', hloses⟩, hcache, hpages⟩ :=
      h.releaseLarge hptr hentry hkey hreg hbig hfree hdel
    exact ⟨owner', h', hloses, .inr ⟨hcache, hpages⟩⟩

end

end MugOS.Heap
