import MugOS.HeapBlocks
import MugOS.HeapPool

/-!
# Steps of the Heap

The invariants of the heap together, and what `Heap_malloc` does to them. A call that does not
get the memory that it needs leaves the heap as it was, but for an additional Chungus; unless
the hash map cannot grow, in which case a `ChunkInfo` stays marked as used.

## Main results

* `newBlock_cases`: the part from `getFreeChunk` to `Hashmap_insert` that small and large
  blocks share.
* `Consistent.takeBlock`: handing out a block of a chunk.
* `allocateSmallbucket_keeps`, `allocateLargebucket_keeps`: the two kinds of blocks.
-/

namespace MugOS.Heap

open WordBitmap Hashmap LinkedList Links

/-- **The invariants of the heap**, with the owners of the pages, the chunks of the buckets and
the live blocks. -/
structure Consistent (s : State) (owner : ℕ → Option Owner) (B : ℕ → List (ℕ × ℕ))
    (live : List ℕ) : Prop where
  shape : Shape s owner
  lists : Lists s B
  live : Live s live

/-- The heap at the start is consistent, with no owner of a page, empty lists and no live
block. -/
theorem consistent_start (memory : ℕ → Chungus) :
    Consistent (State.start memory) (fun _ => none) (fun _ => []) [] :=
  ⟨shape_start memory, lists_start memory, live_start memory⟩

section

variable {s s' : State} {owner owner' : ℕ → Option Owner} {B : ℕ → List (ℕ × ℕ)} {live : List ℕ}

/-- A change that the lists and the live blocks do not notice. -/
theorem Consistent.congr (h : Consistent s owner B live) (hs' : Shape s' owner')
    (hlinks : s'.links = s.links) (hpool : s'.pool = s.pool)
    (hreg : ∀ k v, s'.Reg k v ↔ s.Reg k v)
    (hinfo : ∀ k page index, s.Reg k (.pool page index) →
      s'.info page index = s.info page index) : Consistent s' owner' B live :=
  ⟨hs', h.lists.congr hlinks hpool (hasRoom_congr hreg hinfo), h.live.congr hreg hinfo⟩

/-- The pages may change as long as the same ones are in use. -/
theorem Consistent.setPages (h : Consistent s owner B live) {ps : Pages}
    (hps : ps.owned = s.pages.owned) : Consistent { s with pages := ps } owner B live :=
  h.congr (h.shape.setPages_eq hps) rfl rfl (fun _ _ => Iff.rfl) fun _ _ _ _ => rfl

/-- A store to a `ChunkInfo` that no key of the hash map refers to keeps the heap
consistent. -/
theorem Consistent.setFreeInfo (h : Consistent s owner B live) {page index : ℕ}
    (hnot : ∀ k, ¬ s.Reg k (.pool page index)) (c : ChunkInfo) :
    Consistent (s.setChunk (.pool page index) c) owner B live := by
  refine h.congr (h.shape.setInfo fun k hk => absurd hk (hnot k)) rfl rfl (fun _ _ => Iff.rfl) ?_
  intro k p i hk
  rw [State.info_setChunk, if_neg]
  rintro ⟨rfl, rfl⟩
  exact hnot k hk

/-- A search for a `ChunkInfo`, which may add a Chungus, keeps the heap consistent and all
owners. -/
theorem Consistent.searched (h : Consistent s owner B live) (hs : Searched s s') :
    ∃ owner', Consistent s' owner' B live ∧ ∀ q o, owner q = some o → owner' q = some o := by
  obtain ⟨⟨owner', hshape, hkeep⟩, hlists⟩ := hs.keeps h.shape h.lists
  exact ⟨owner', ⟨hshape, hlists, h.live.congr hs.reg_iff fun _ _ _ => hs.info_eq h.shape⟩, hkeep⟩

end

/-! ### What an allocation keeps -/

/-- What an allocation keeps: the pages of blocks stay theirs, registered blocks stay
registered, with their size, and a `ChunkInfo` that is marked as used was so before or is
registered, unless the hash map could not grow. -/
structure Grows (s s' : State) (owner owner' : ℕ → Option Owner) : Prop where
  blocks : ∀ q k, owner q = some (.block k) → owner' q = some (.block k)
  reg : ∀ k v, s.Reg k v → s'.Reg k v
  size : ∀ k page index, s.Reg k (.pool page index) →
    (s'.info page index).size = (s.info page index).size
  refused : s.pages.refused ≤ s'.pages.refused
  bits : s'.pages.refused = s.pages.refused → ∀ page ∈ s'.pool, ∀ index < chungusNChunks,
    bit (s'.memory page).bitmap index = true →
      (page ∈ s.pool ∧ bit (s.memory page).bitmap index = true) ∨ ∃ k, s'.Reg k (.pool page index)

/-- Two allocations in a row keep the blocks that were registered before the first of them. -/
theorem Grows.trans {s s' s'' : State} {owner owner' owner'' : ℕ → Option Owner}
    (h : Grows s s' owner owner') (h' : Grows s' s'' owner' owner'') :
    Grows s s'' owner owner'' where
  blocks := fun q k hq => h'.blocks q k (h.blocks q k hq)
  reg := fun k v hk => h'.reg k v (h.reg k v hk)
  size := fun k page index hk =>
    (h'.size k page index (h.reg k _ hk)).trans (h.size k page index hk)
  refused := h.refused.trans h'.refused
  bits := by
    intro href page hpage index hindex hbit
    have h1 := h.refused
    have h2 := h'.refused
    rcases h'.bits (by omega) page hpage index hindex hbit with ⟨hpage', hbit'⟩ | hreg
    · rcases h.bits (by omega) page hpage' index hindex hbit' with hold | ⟨k, hreg⟩
      · exact .inl hold
      · exact .inr ⟨k, h'.reg k _ hreg⟩
    · exact .inr hreg

/-- A change to which the hash map, the pool and its bitmaps do not belong. -/
theorem Grows.of_eq {s s' : State} {owner owner' : ℕ → Option Owner}
    (hblocks : ∀ q k, owner q = some (.block k) → owner' q = some (.block k))
    (hreg : ∀ k v, s.Reg k v → s'.Reg k v)
    (hsize : ∀ k page index, s.Reg k (.pool page index) →
      (s'.info page index).size = (s.info page index).size)
    (hrefused : s.pages.refused ≤ s'.pages.refused) (hpool : s'.pool = s.pool)
    (hbitmap : ∀ page, (s'.memory page).bitmap = (s.memory page).bitmap) :
    Grows s s' owner owner' := by
  refine ⟨hblocks, hreg, hsize, hrefused, fun _ page hpage index _ hbit => .inl ?_⟩
  rw [hbitmap] at hbit
  exact ⟨hpool ▸ hpage, hbit⟩

/-- A search for a `ChunkInfo` keeps the registered blocks, as an allocation does. -/
theorem Searched.grows {s s' : State} {owner owner' : ℕ → Option Owner} (h : Shape s owner)
    (hs : Searched s s') (hkeep : ∀ q o, owner q = some o → owner' q = some o) :
    Grows s s' owner owner' := by
  refine ⟨fun q k => hkeep q _, fun k v => (hs.reg_iff k v).mpr,
    fun k page index hk => by rw [hs.info_eq h hk], ?_, ?_⟩
  · cases hs with
    | same => exact le_refl _
    | added _ _ hrefused _ => exact hrefused.ge
  · intro _ page hpage index hindex hbit
    cases hs with
    | same => exact .inl ⟨hpage, hbit⟩
    | @added p ps links _ _ _ _ =>
        by_cases hp : page = p
        · subst hp
          simp only [State.addChungus, Function.update_self] at hbit
          have hlt : index < 64 * chungusBitmapSize := by
            simp only [chungusNChunks, chungusBitmapSize, pageSize] at *
            omega
          rw [bit_newChungus hlt, decide_eq_true_eq] at hbit
          omega
        · simp only [State.addChungus, Function.update_of_ne hp] at hbit
          exact .inl ⟨(List.mem_cons.mp hpage).resolve_left hp, hbit⟩

/-- A search for a `ChunkInfo` leaves the cache of freed chunks as it was. -/
theorem Searched.freeCache_eq {s s' : State} (hs : Searched s s') :
    s'.freeCache = s.freeCache := by
  cases hs <;> rfl

/-! ### What a failed allocation leaves -/

/-- The hash map, the cache, the links of the buckets and the bitmaps of chunks and Chunguses
are as before, and so are the pool and the pages in use, up to an additional empty Chungus. -/
structure Untouched (s s' : State) : Prop where
  allocMap : s'.allocMap = s.allocMap
  freeCache : s'.freeCache = s.freeCache
  buckets : ∀ y : Node, y.InBucket →
    s'.links.next y = s.links.next y ∧ s'.links.prev y = s.links.prev y
  chunks : ∀ page index, (s'.info page index).bitmap = (s.info page index).bitmap
  pool : (s'.pool = s.pool ∧ s'.pages.owned = s.pages.owned ∧
      ∀ p, (s'.memory p).bitmap = (s.memory p).bitmap) ∨
    ∃ page, page ∉ s.pages.owned ∧ s'.pool = page :: s.pool ∧
      s'.pages.owned = s.pages.owned ++ [page] ∧ isChungusEmpty (s'.memory page) = true ∧
      ∀ p, p ≠ page → (s'.memory p).bitmap = (s.memory p).bitmap

/-- A failed call that only searched and cleared the base of a `ChunkInfo`. -/
theorem Untouched.of_searched {s s₁ s' : State} {B : ℕ → List (ℕ × ℕ)} {owner : ℕ → Option Owner}
    (h : Shape s owner) (hl : Lists s B) (hs : Searched s s₁) (hmap : s'.allocMap = s₁.allocMap)
    (hcache : s'.freeCache = s₁.freeCache) (hlinks : s'.links = s₁.links)
    (hpool : s'.pool = s₁.pool) (howned : s'.pages.owned = s₁.pages.owned)
    (hbitmap : ∀ p, (s'.memory p).bitmap = (s₁.memory p).bitmap)
    (hchunks : ∀ page index, (s'.info page index).bitmap = (s₁.info page index).bitmap) :
    Untouched s s' := by
  cases hs with
  | same =>
      exact ⟨hmap, hcache, fun y _ => by rw [hlinks]; exact ⟨rfl, rfl⟩, hchunks,
        .inl ⟨hpool, howned, hbitmap⟩⟩
  | @added page ps links hfresh hps hrefused hpush =>
      obtain ⟨l', hpush', -, hother⟩ := pushFront_spec hl.chunguses (h.not_listed hfresh)
      obtain rfl := Except.ok.inj (hpush.symm.trans hpush')
      refine ⟨hmap, hcache, ?_, ?_, .inr ⟨page, hfresh, hpool, ?_, ?_, ?_⟩⟩
      · intro y hy
        rw [hlinks]
        refine hother y ?_
        intro hmem
        rcases List.mem_cons.mp hmem with rfl | hmem
        · exact hy
        · rcases List.mem_cons.mp hmem with rfl | hmem
          · exact hy
          · obtain ⟨q, -, rfl⟩ := List.mem_map.mp hmem
            exact hy
      · intro p i
        rw [hchunks]
        simp only [State.info, State.addChungus]
        by_cases hp : p = page
        · subst hp
          simp
        · simp [Function.update_of_ne hp]
      · rw [howned]
        simpa [State.addChungus, pages] using hps
      · have hempty : isChungusEmpty ⟨[0#64, invalidMask], fun _ => default⟩ = true := by
          decide +kernel
        rw [← hempty, isChungusEmpty, isChungusEmpty, hbitmap]
        simp only [State.addChungus, Function.update_self]
      · intro p hp
        rw [hbitmap]
        simp only [State.addChungus, Function.update_of_ne hp]

/-! ### A new block -/

/-- A block that was given pages and a `ChunkInfo` and was entered into the hash map, with the
heap before and the pages and the hash map afterwards. -/
structure Placed (s : State) (owner : ℕ → Option Owner) (page index base size : ℕ) (ps : Pages)
    (map : Hashmap ChunkRef) (ps' : Pages) : Prop where
  page_mem : page ∈ s.pool
  index_lt : index < chungusNChunks
  clear : bit (s.memory page).bitmap index = false
  size_ge : minBlockSize ≤ size
  fresh : Fresh s.pages.owned base (roundToPage size)
  refused : s.pages.refused ≤ ps'.refused
  contains : ∀ k v, k ≠ 0 → (Contains map.entries k v ↔
    (k = base ∧ v = .pool page index) ∨ Contains s.allocMap.entries k v)
  shape : ∃ owner', Shape { s.useInfo page index base size ps with allocMap := map, pages := ps' }
    owner' ∧ ∀ q o, o ≠ .table → owner q = some o → owner' q = some o

/-- Giving back pages that were not in use before they were taken restores the list of the
pages in use. -/
theorem filter_fresh {owned new : List ℕ} (h : ∀ q ∈ new, q ∉ owned) :
    (owned ++ new).filter (· ∉ new) = owned := by
  rw [List.filter_append, List.filter_eq_self.mpr, List.filter_eq_nil_iff.mpr, List.append_nil]
  · simp
  · intro q hq
    exact decide_eq_true fun hnew => h q hnew hq

section NewBlock

variable {src : PageSource} {s s₁ : State} {owner : ℕ → Option Owner} {B : ℕ → List (ℕ × ℕ)}
  {live : List ℕ}

/-- No pages for a block: the base of the `ChunkInfo` is cleared. -/
theorem Consistent.noPages (h : Consistent s owner B live) {page index : ℕ}
    (hbit : bit (s.memory page).bitmap index = false) {ps : Pages}
    (hps : ps.owned = s.pages.owned) (hrefused : s.pages.refused ≤ ps.refused) :
    Consistent ({ s with pages := ps }.setChunk (.pool page index)
        { s.info page index with base := 0 }) owner B live ∧
      Grows s ({ s with pages := ps }.setChunk (.pool page index)
        { s.info page index with base := 0 }) owner owner := by
  have hnot := h.shape.not_reg_of_bit hbit
  refine ⟨(h.setPages hps).setFreeInfo hnot _, .of_eq (fun _ _ hq => hq) (fun _ _ hk => hk) ?_
    hrefused rfl fun p => State.bitmap_setChunk _ _ _ _ p⟩
  intro k p i hk
  rw [State.info_setChunk, if_neg]
  · rfl
  · rintro ⟨rfl, rfl⟩
    exact hnot k hk

/-- The hash map cannot grow: the pages of the block are given back, but its `ChunkInfo` stays
marked as used. -/
theorem Consistent.notPlaced (h : Consistent s owner B live) {page index base size : ℕ}
    {ps ps' : Pages} (hpage : page ∈ s.pool) (hindex : index < chungusNChunks)
    (hbit : bit (s.memory page).bitmap index = false)
    (hfresh : Fresh s.pages.owned base (roundToPage size))
    (hps : ps'.owned = s.pages.owned ++ pages base (roundToPage size))
    (hrefused : s.pages.refused < ps'.refused) {s' : State}
    (hok : freeChunk { s.useInfo page index base size ps with pages := ps' } (.pool page index) =
      .ok s') :
    Consistent s' owner B live ∧ Grows s s' owner owner ∧ s'.freeCache = s.freeCache ∧
      s.pages.refused < s'.pages.refused ∧ s'.pages.owned = s.pages.owned := by
  have hinfo : State.info { s.useInfo page index base size ps with pages := ps' } page index =
      newInfo (s.info page index) base size := by
    have huse := State.info_useInfo s page index base size ps page index
    rwa [if_pos ⟨rfl, rfl⟩] at huse
  have hfreed := freeChunk_pool hok
  rw [hinfo] at hfreed
  subst hfreed
  set c : ChunkInfo := { newInfo (s.info page index) base size with base := 0, size := 0 } with hc
  -- the same heap, the `ChunkInfo` being overwritten once
  have hnot := h.shape.not_reg_of_bit hbit
  have howned : (ps'.freePages base (roundToPage size)).owned = s.pages.owned := by
    rw [Pages.freePages, hps]
    exact filter_fresh hfresh.unused
  have hlength : index / 64 < (s.memory page).bitmap.length := by
    rw [(h.shape.chungus page hpage).length_eq]
    simp only [chungusNChunks, chungusBitmapSize, pageSize] at *
    omega
  have h₁ := h.setPages howned
  have h₂ := h₁.setFreeInfo hnot c
  have h₃ := h₂.shape.markUsed hpage hindex
  have hinfo' : ∀ k p i, s.Reg k (.pool p i) →
      ((({ s.useInfo page index base size ps with
        pages := ps'.freePages base (roundToPage size) } : State).setChunk (.pool page index)
        c).info
          p i) = s.info p i := by
    intro k p i hk
    have hne : ¬ (p = page ∧ i = index) := by
      rintro ⟨rfl, rfl⟩
      exact hnot k hk
    rw [State.info_setChunk, if_neg hne]
    have huse := State.info_useInfo s page index base size ps p i
    rw [if_neg hne] at huse
    exact huse
  refine ⟨?_, ?_, rfl, hrefused, howned⟩
  · refine h.congr ?_ rfl rfl (fun _ _ => Iff.rfl) hinfo'
    convert h₃ using 1
    simp only [State.useInfo, State.setChunk, State.info, markUsed, Function.update_idem,
      Function.update_self]
    rfl
  · refine ⟨fun _ _ hq => hq, fun _ _ hk => hk,
      fun k p i hk => congrArg ChunkInfo.size (hinfo' k p i hk), le_of_lt hrefused,
      fun heq => absurd heq (ne_of_gt hrefused)⟩

/-- **What happens from `getFreeChunk` to `Hashmap_insert`**: there is no `ChunkInfo`, or there
are no pages, and the heap is as before; or the hash map cannot grow, and the block is given
back; or the block is placed. -/
theorem newBlock_cases (hsrc : src.Sound) (h : Consistent s owner B live) {size : ℕ}
    (hsize : minBlockSize ≤ size) {r : Option (ℕ × ℕ)}
    (hfree : getFreeChunk src s = .ok (r, s₁)) :
    (r = none ∧ Untouched s s₁ ∧ Consistent s₁ owner B live ∧ Grows s s₁ owner owner) ∨
    ∃ page index, r = some (page, index) ∧
    ((∃ s₂, allocateChunk src s₁ page index size = (false, s₂) ∧ Untouched s s₂ ∧
        ∃ owner', Consistent s₂ owner' B live ∧ Grows s s₂ owner owner') ∨
      ∃ base ps owner₁, Consistent s₁ owner₁ B live ∧ Grows s s₁ owner owner₁ ∧
        s₁.freeCache = s.freeCache ∧
        allocateChunk src s₁ page index size = (true, s₁.useInfo page index base size ps) ∧
        ∀ b map ps', Hashmap.insert src s₁.allocMap ps base (.pool page index) =
          .ok (b, map, ps') →
          (b = false ∧ ∀ s', freeChunk { s₁.useInfo page index base size ps with
              allocMap := map, pages := ps' } (.pool page index) = .ok s' →
            Consistent s' owner₁ B live ∧ Grows s s' owner owner₁ ∧
              s'.freeCache = s.freeCache ∧ s.pages.refused < s'.pages.refused ∧
              ∀ q ∈ pages base (roundToPage size), q ∉ s'.pages.owned) ∨
          (b = true ∧ Placed s₁ owner₁ page index base size ps map ps')) := by
  rcases getFreeChunk_cases hsrc h.shape h.lists hfree with
    ⟨rfl, ps, hps, hrefused, rfl⟩ | ⟨page, index, rfl, hsearched, hpage, hindex, hbit⟩
  · refine .inl ⟨rfl, ?_, h.setPages hps, .of_eq (fun _ _ hq => hq) (fun _ _ hk => hk)
      (fun _ _ _ _ => rfl) hrefused rfl fun _ => rfl⟩
    exact .of_searched h.shape h.lists .same rfl rfl rfl rfl hps (fun _ => rfl) fun _ _ => rfl
  refine .inr ⟨page, index, rfl, ?_⟩
  obtain ⟨owner₁, h₁, hkeep⟩ := h.searched hsearched
  have hgrows := hsearched.grows h.shape hkeep
  cases halloc : allocateChunk src s₁ page index size with
  | mk ok s₂ =>
      rcases allocateChunk_cases hsrc halloc with
        ⟨rfl, ps, hps, hrefused, rfl⟩ | ⟨rfl, base, ps, hfresh, hps, hrefused, rfl⟩
      · obtain ⟨h₂, hgrows₂⟩ := h₁.noPages hbit hps hrefused
        refine .inl ⟨_, rfl, ?_, owner₁, h₂, hgrows.trans hgrows₂⟩
        refine .of_searched h.shape h.lists hsearched rfl rfl rfl rfl hps
          (fun p => State.bitmap_setChunk _ _ _ _ p) fun p i => ?_
        rw [State.info_setChunk]
        split
        · rename_i hpi
          rw [hpi.1, hpi.2]
        · rfl
      · refine .inr ⟨base, ps, owner₁, h₁, hgrows, hsearched.freeCache_eq, rfl, ?_⟩
        intro b map ps' hins
        rcases h₁.shape.register hsrc hpage hindex hbit hsize hfresh hps hins with
          ⟨rfl, rfl, hps', hrefused'⟩ | ⟨rfl, hrefused', hshape, hcontains⟩
        · refine .inl ⟨rfl, fun s' hok => ?_⟩
          obtain ⟨h₃, hgrows₃, hcache, hlt, howned⟩ := h₁.notPlaced hpage hindex hbit hfresh
            (hps'.trans hps) (hrefused ▸ hrefused') hok
          exact ⟨h₃, hgrows.trans hgrows₃, hcache.trans hsearched.freeCache_eq,
            lt_of_le_of_lt hgrows.refused hlt, howned ▸ hfresh.unused⟩
        · refine .inr ⟨rfl, hpage, hindex, hbit, hsize, hfresh, ?_, hcontains, hshape⟩
          exact (hrefused'.trans hrefused).ge

end NewBlock

section Placed

variable {s : State} {owner : ℕ → Option Owner} {B : ℕ → List (ℕ × ℕ)} {live : List ℕ}
  {page index base size : ℕ} {ps ps' : Pages} {map : Hashmap ChunkRef}
  (hp : Placed s owner page index base size ps map ps') (h : Consistent s owner B live)

include hp h

/-- The base of a block that is being placed was not a key of the hash map before. -/
theorem Placed.not_reg (v : ChunkRef) : ¬ s.Reg base v := by
  intro hreg
  have hpos : 0 < roundToPage size := roundToPage_pos (by
    have := hp.size_ge
    simp only [minBlockSize] at this
    omega)
  exact hp.fresh.unused base (base_mem_pages hpos) (h.shape.key_owned hreg)

/-- The `ChunkInfo`s of registered blocks stay as they are. -/
theorem Placed.info_eq (links : Links Node) {k p i : ℕ} (hk : s.Reg k (.pool p i)) :
    State.info { s.useInfo page index base size ps with
      allocMap := map, pages := ps', links := links } p i = s.info p i := by
  have huse := State.info_useInfo s page index base size ps p i
  rw [if_neg] at huse
  · exact huse
  · rintro ⟨rfl, rfl⟩
    exact h.shape.not_reg_of_bit hp.clear k hk

omit h in
/-- After a block is placed, the hash map has its base with its `ChunkInfo`, and all other keys
as before. -/
theorem Placed.reg_iff (links : Links Node) (k : ℕ) (v : ChunkRef) :
    State.Reg { s.useInfo page index base size ps with
      allocMap := map, pages := ps', links := links } k v ↔
      (k = base ∧ v = .pool page index) ∨ s.Reg k v :=
  reg_register hp.fresh.ne_zero hp.contains links k v

/-- Placing a new block keeps the registered blocks and the owners of all pages but the
tables. -/
theorem Placed.grows (links : Links Node) {owner' : ℕ → Option Owner}
    (hkeep : ∀ q o, o ≠ .table → owner q = some o → owner' q = some o) :
    Grows s { s.useInfo page index base size ps with
      allocMap := map, pages := ps', links := links } owner owner' := by
  have hreg := hp.reg_iff links
  refine ⟨fun q k hq => hkeep q _ (by simp) hq, fun k v hk => (hreg k v).mpr (.inr hk),
    fun k p i hk => congrArg ChunkInfo.size (hp.info_eq h links hk), hp.refused, ?_⟩
  intro _ p hpool i hi hbit
  have hlength : index / 64 < (s.memory page).bitmap.length := by
    rw [(h.shape.chungus page hp.page_mem).length_eq]
    have := hp.index_lt
    simp only [chungusNChunks, chungusBitmapSize, pageSize] at *
    omega
  have huse := State.bit_useInfo s base size ps hlength p i
  rw [show bit ((s.useInfo page index base size ps).memory p).bitmap i = true from hbit] at huse
  by_cases hpi : p = page ∧ i = index
  · obtain ⟨rfl, rfl⟩ := hpi
    exact .inr ⟨base, (hreg _ _).mpr (.inl ⟨rfl, rfl⟩)⟩
  · rw [decide_eq_false hpi, Bool.or_false] at huse
    exact .inl ⟨hpool, huse.symm⟩

/-- **A large block is placed**: the heap is consistent with the base of the block among the
live ones. -/
theorem Placed.large (hsize : bigbucketThreshold ≤ size) :
    ∃ owner', Consistent { s.useInfo page index base size ps with
        allocMap := map, pages := ps' } owner' B (base :: live) ∧
      Grows s { s.useInfo page index base size ps with allocMap := map, pages := ps' }
        owner owner' := by
  obtain ⟨owner', hshape, hkeep⟩ := hp.shape
  have hreg := hp.reg_iff s.links
  have hlive := h.live.register (hp.not_reg h) hreg fun _ _ _ hk => hp.info_eq h s.links hk
  have hpage : getPage base = base := by
    have := hp.fresh.aligned
    unfold getPage
    simp only [pageSize] at *
    omega
  refine ⟨owner', ⟨hshape, h.lists.registerLarge h.shape hp.fresh.ne_zero hp.clear hp.contains
    hsize, ?_⟩, hp.grows h s.links hkeep⟩
  refine hlive.consLarge hshape ?_ hpage ((hreg _ _).mpr (.inl ⟨rfl, rfl⟩)) ?_
  · intro hmem
    obtain ⟨v, hv⟩ := h.live.reg base hmem
    exact hp.not_reg h v (hpage ▸ hv)
  · rintro p i heq
    cases heq
    have hinfo := State.info_useInfo s page index base size ps page index
    rw [if_pos ⟨rfl, rfl⟩] at hinfo
    exact (congrArg ChunkInfo.size hinfo).symm ▸ hsize

/-- **A chunk of small blocks is placed** in its bucket. -/
theorem Placed.small {order : ℕ} {links : Links Node} (hsize : size < bigbucketThreshold)
    (hsmallorder : getSmallbucketOrder size = .ok order) (horder : order < nSmallbucket)
    (hpush : pushFront s.links (.bucket order) (.chunk page index) = .ok links) :
    ∃ owner', Consistent { s.useInfo page index base size ps with
        allocMap := map, pages := ps', links := links } owner'
        (Function.update B order ((page, index) :: B order)) live ∧
      Grows s { s.useInfo page index base size ps with
        allocMap := map, pages := ps', links := links } owner owner' := by
  obtain ⟨owner', hshape, hkeep⟩ := hp.shape
  have hreg := hp.reg_iff links
  have hlive := h.live.register (hp.not_reg h) hreg fun _ _ _ hk => hp.info_eq h links hk
  exact ⟨owner', ⟨hshape.setLinks links, h.lists.registerSmall h.shape hp.fresh.ne_zero hp.clear
    hp.contains hp.size_ge hsize hsmallorder horder hpush, hlive⟩, hp.grows h links hkeep⟩

end Placed

/-! ### A block of a chunk -/

/-- **A block of the bucket is handed out**, and the chunk leaves the bucket if it is full. -/
theorem Consistent.takeBlock {s : State} {owner : ℕ → Option Owner} {B : ℕ → List (ℕ × ℕ)}
    {live : List ℕ} (h : Consistent s owner B live) {order page index : ℕ}
    (horder : order < nSmallbucket) (hmem : (page, index) ∈ B order) {res : ℕ} {chunk : ChunkInfo}
    (hok : allocateBlock (s.info page index) = .ok (res, chunk)) {links : Links Node}
    (hfull : isChunkFull chunk = true →
      pop s.links (.bucket order) (.chunk page index) = .ok links)
    (hroom : isChunkFull chunk = false → links = s.links) :
    res ≠ 0 ∧ s.Reg (getPage res) (.pool page index) ∧
      (s.info page index).size < bigbucketThreshold ∧
      getSmallbucketOrder (s.info page index).size = .ok order ∧
      (∃ B', Consistent { s.setChunk (.pool page index) chunk with links := links } owner B'
        (res :: live)) ∧
      Grows s { s.setChunk (.pool page index) chunk with links := links } owner owner := by
  obtain ⟨⟨k, hk⟩, hsmall, horder_eq, hnotfull⟩ := (h.lists.mem_iff order horder page index).mp hmem
  obtain ⟨hbase, hwf⟩ := h.shape.pool_wf hk
  obtain ⟨i, hi, hclear, hres, hne, hchunk, hwf'⟩ := allocateBlock_spec hwf hsmall hok
  have hpage : getPage res = k := by rw [hres, hwf.getPage_block hi, hbase]
  have hchunk_size : chunk.size = (s.info page index).size := by rw [hchunk]
  set s' : State := { s.setChunk (.pool page index) chunk with links := links } with hs'
  have hreg : ∀ k v, s'.Reg k v ↔ s.Reg k v := fun _ _ => Iff.rfl
  have hother : ∀ p j, (p, j) ≠ (page, index) → s'.info p j = s.info p j :=
    fun p j hpj => State.info_setChunk_of_ne s chunk hpj
  have hself : s'.info page index = chunk := State.info_setChunk_self s page index chunk
  have hsize : ∀ p j, (s'.info p j).size = (s.info p j).size :=
    fun p j => State.size_setChunk s hchunk_size p j
  have hroom' : ∀ o p j, (p, j) ≠ (page, index) → (HasRoom s' o p j ↔ HasRoom s o p j) :=
    fun o p j hpj =>
      HasRoom.congr (fun k => hreg k _) (hsize p j) (by rw [hother p j hpj]) o
  have hshape : Shape s' owner := by
    refine (h.shape.setInfo fun k' hk' => ⟨?_, hwf'⟩).setLinks links
    rw [hchunk]
    exact (h.shape.pool_wf hk').1
  have hlive : Live s' (res :: live) := by
    rw [hres]
    exact h.live.take h.shape hreg hk hsmall hi hclear (hself.trans hchunk) hother
  refine ⟨hne, hpage ▸ hk, hsmall, horder_eq, ?_, ?_⟩
  · cases hf : isChunkFull chunk with
    | true =>
        refine ⟨_, hshape, h.lists.popBucket horder (hfull hf) hmem rfl rfl ?_ hroom', hlive⟩
        rintro o ⟨-, -, -, hrm⟩
        rw [hself, hf] at hrm
        exact absurd hrm (by decide)
    | false =>
        refine ⟨B, hshape, h.lists.congr (hroom hf) rfl ?_, hlive⟩
        intro o p j
        by_cases hpj : (p, j) = (page, index)
        · obtain ⟨rfl, rfl⟩ := Prod.mk.inj hpj
          exact HasRoom.congr (fun k => hreg k _) (hsize p j) (by rw [hself, hf, hnotfull]) o
        · exact hroom' o p j hpj
  · exact .of_eq (fun _ _ hq => hq) (fun _ _ hk' => hk') (fun _ p j _ => hsize p j) (le_refl _) rfl
      fun p => State.bitmap_setChunk s page index chunk p

/-! ### Allocations -/

/-- The first chunk of the bucket of a small request, if there is one, has blocks of at least
its size. -/
def HeadFits (s : State) (size : ℕ) : Prop :=
  size < bigbucketThreshold → ∀ order, getSmallbucketOrder (chunkSize size) = .ok order →
    ∀ page index, s.links.next (.bucket order) = some (.chunk page index) →
      chunkSize size ≤ (s.info page index).size

/-- The outcome of an allocation: `NULL`, with the heap as before unless the hash map could not
grow, or a block that is described by a `ChunkInfo` of the pool. -/
inductive Allocated (s s' : State) (owner' : ℕ → Option Owner) (B' : ℕ → List (ℕ × ℕ))
    (live : List ℕ) (size : ℕ) : ℕ → Prop
  | null (h : Consistent s' owner' B' live)
      (hleft : Untouched s s' ∨ s.pages.refused < s'.pages.refused) :
      Allocated s s' owner' B' live size 0
  | block {res : ℕ} (page index : ℕ) (hres : res ≠ 0) (h : Consistent s' owner' B' (res :: live))
      (hreg : s'.Reg (getPage res) (.pool page index))
      (hkind : size < bigbucketThreshold ↔ (s'.info page index).size < bigbucketThreshold)
      (hlarge : bigbucketThreshold ≤ size → (s'.info page index).size = size)
      (horder : (s'.info page index).size < bigbucketThreshold →
        ∃ order < nSmallbucket, getSmallbucketOrder (s'.info page index).size = .ok order)
      (hfits : HeadFits s size → size ≤ (s'.info page index).size) :
      Allocated s s' owner' B' live size res

/-- The pages that a request for a large block gets for the block itself. -/
def chunkPages (src : PageSource) (s : State) (size : ℕ) : List ℕ :=
  match getFreeChunk src s with
  | .ok (some _, s) =>
      let base := (s.pages.allocatePages src (roundToPage size) false).1
      if base = 0 then [] else pages base (roundToPage size)
  | _ => []

/-- The base of a chunk is what the page source answered. -/
theorem allocateChunk_base {src : PageSource} {s s' : State} {page index size : ℕ} {b : Bool}
    (hok : allocateChunk src s page index size = (b, s')) :
    (s.pages.allocatePages src (roundToPage size) false).1 =
      if b then ((s'.memory page).chunks index).base else 0 := by
  unfold allocateChunk at hok
  simp only at hok
  split at hok
  · rename_i hzero
    obtain ⟨rfl, -⟩ := Prod.mk.inj hok
    exact hzero
  · obtain ⟨rfl, rfl⟩ := Prod.mk.inj hok
    simp only [if_true, State.setChunk, markUsed, Function.update_self]
    split <;> rfl

section Allocations

variable {src : PageSource} {s s' : State} {owner : ℕ → Option Owner} {B : ℕ → List (ℕ × ℕ)}
  {live : List ℕ} {size res : ℕ}

/-- **A large block from new pages** leaves a consistent heap with this block live, or is
refused. -/
theorem allocateLargebucket_keeps (hsrc : src.Sound) (h : Consistent s owner B live)
    (hsize : bigbucketThreshold ≤ size) (hslot : fittingSlot s.freeCache size = none)
    (hok : allocateLargebucket src s size = .ok (res, s')) :
    (∃ owner' B', Grows s s' owner owner' ∧ s'.freeCache = s.freeCache ∧
      Allocated s s' owner' B' live size res) ∧
      (res = 0 → ∀ q ∈ chunkPages src s size, q ∉ s'.pages.owned) ∧
      (res ≠ 0 → chunkPages src s size = pages res (roundToPage size)) := by
  unfold allocateLargebucket at hok
  simp only [hslot] at hok
  obtain ⟨⟨r, s₁⟩, hfree, hok⟩ := bind_eq_ok.mp hok
  have hmin : minBlockSize ≤ size := by
    simp only [minBlockSize, bigbucketThreshold, pageSize] at *
    omega
  rcases newBlock_cases hsrc h hmin hfree with ⟨rfl, hunt, h₁, hgrows⟩ | ⟨page, index, rfl, hcases⟩
  · obtain ⟨rfl, rfl⟩ := Prod.mk.inj (Except.ok.inj hok)
    refine ⟨⟨owner, B, hgrows, hunt.freeCache, .null h₁ (.inl hunt)⟩, ?_, by simp⟩
    simp [chunkPages, hfree]
  have hpages : chunkPages src s size =
      let base := (s₁.pages.allocatePages src (roundToPage size) false).1
      if base = 0 then [] else pages base (roundToPage size) := by
    simp only [chunkPages, hfree]
  rcases hcases with ⟨s₂, halloc, hunt, owner', h₂, hgrows⟩ |
    ⟨base, ps, owner₁, h₁, hgrows, hcache, halloc, hins⟩
  · have hzero := allocateChunk_base halloc
    simp only [halloc] at hok
    obtain ⟨rfl, rfl⟩ := Prod.mk.inj (Except.ok.inj hok)
    refine ⟨⟨owner', B, hgrows, hunt.freeCache, .null h₂ (.inl hunt)⟩, ?_, by simp⟩
    rw [hpages]
    simp [hzero]
  · have hinfo := State.info_useInfo s₁ page index base size ps page index
    rw [if_pos ⟨rfl, rfl⟩] at hinfo
    have hbase : (((s₁.useInfo page index base size ps).memory page).chunks index).base = base :=
      congrArg ChunkInfo.base hinfo
    have hanswer := allocateChunk_base halloc
    rw [if_pos rfl, hbase] at hanswer
    simp only [halloc, hbase] at hok
    obtain ⟨⟨b, map, ps'⟩, hinsert, hok⟩ := bind_eq_ok.mp hok
    rcases hins b map ps' hinsert with ⟨rfl, hfreed⟩ | ⟨rfl, hplaced⟩
    · obtain ⟨s₃, hfree, hok⟩ := bind_eq_ok.mp hok
      obtain ⟨rfl, rfl⟩ := Prod.mk.inj (Except.ok.inj hok)
      obtain ⟨h₃, hgrows₃, hcache₃, hlt, hgone⟩ := hfreed _ hfree
      refine ⟨⟨owner₁, B, hgrows₃, hcache₃, .null h₃ (.inr hlt)⟩, fun _ q hq => ?_, by simp⟩
      rw [hpages, hanswer] at hq
      simp only at hq
      split at hq
      · exact absurd hq (by simp)
      · exact hgone q hq
    · obtain ⟨rfl, rfl⟩ := Prod.mk.inj (Except.ok.inj hok)
      obtain ⟨owner', h₃, hgrows₃⟩ := hplaced.large h₁ hsize
      have hsize' : State.info { s₁.useInfo page index base size ps with
          allocMap := map, pages := ps' } page index = newInfo (s₁.info page index) base size :=
        hinfo
      have hpage : getPage base = base := by
        have := hplaced.fresh.aligned
        unfold getPage
        simp only [pageSize] at *
        omega
      refine ⟨⟨owner', B, hgrows.trans hgrows₃, hcache,
        .block page index hplaced.fresh.ne_zero h₃ ?_ ?_ ?_ ?_ ?_⟩, ?_, ?_⟩
      · rw [hpage]
        exact (hplaced.reg_iff s₁.links base _).mpr (.inl ⟨rfl, rfl⟩)
      · rw [hsize']
        exact Iff.rfl
      · intro _
        rw [hsize']
        rfl
      · intro hlt
        rw [hsize'] at hlt
        exact absurd hsize (not_le.mpr hlt)
      · intro _
        rw [hsize']
        exact le_refl _
      · exact fun hzero => absurd hzero hplaced.fresh.ne_zero
      · intro _
        rw [hpages, hanswer]
        exact if_neg hplaced.fresh.ne_zero

/-- A chunk for the bucket of a small request, or none if its pages were refused. -/
structure ChunkFor (s s' : State) (owner' : ℕ → Option Owner) (B' : ℕ → List (ℕ × ℕ))
    (live : List ℕ) (order size : ℕ) (r : Option (ℕ × ℕ)) : Prop where
  consistent : Consistent s' owner' B' live
  none : r = none → Untouched s s' ∨ s.pages.refused < s'.pages.refused
  some : ∀ page index, r = some (page, index) → (page, index) ∈ B' order ∧
    (s.links.next (.bucket order) = some (.chunk page index) ∧ s' = s ∨
      size ≤ (s'.info page index).size)

/-- **A new chunk of small blocks** leaves a consistent heap with the chunk at the head of its
bucket, or is refused. -/
theorem newSmallChunk_keeps (hsrc : src.Sound) (h : Consistent s owner B live) {order : ℕ}
    {r : Option (ℕ × ℕ)} (hmin : minBlockSize ≤ size) (hsize : size < bigbucketThreshold)
    (hsmallorder : getSmallbucketOrder size = .ok order) (horder : order < nSmallbucket)
    (hok : newSmallChunk src s (.bucket order) size = .ok (r, s')) :
    ∃ owner' B', Grows s s' owner owner' ∧ s'.freeCache = s.freeCache ∧
      ChunkFor s s' owner' B' live order size r := by
  unfold newSmallChunk at hok
  obtain ⟨⟨found, s₁⟩, hfree, hok⟩ := bind_eq_ok.mp hok
  have hnone : ∀ {t : State} {owner' : ℕ → Option Owner}, Consistent t owner' B live →
      (Untouched s t ∨ s.pages.refused < t.pages.refused) →
      ChunkFor s t owner' B live order size none :=
    fun hc hleft => ⟨hc, fun _ => hleft, fun _ _ heq => absurd heq (by simp)⟩
  rcases newBlock_cases hsrc h hmin hfree with ⟨rfl, hunt, h₁, hgrows⟩ | ⟨page, index, rfl, hcases⟩
  · obtain ⟨rfl, rfl⟩ := Prod.mk.inj (Except.ok.inj hok)
    exact ⟨owner, B, hgrows, hunt.freeCache, hnone h₁ (.inl hunt)⟩
  rcases hcases with ⟨s₂, halloc, hunt, owner', h₂, hgrows⟩ |
    ⟨base, ps, owner₁, h₁, hgrows, hcache, halloc, hins⟩
  · simp only [halloc] at hok
    obtain ⟨rfl, rfl⟩ := Prod.mk.inj (Except.ok.inj hok)
    exact ⟨owner', B, hgrows, hunt.freeCache, hnone h₂ (.inl hunt)⟩
  · have hinfo := State.info_useInfo s₁ page index base size ps page index
    rw [if_pos ⟨rfl, rfl⟩] at hinfo
    have hbase : (((s₁.useInfo page index base size ps).memory page).chunks index).base = base :=
      congrArg ChunkInfo.base hinfo
    simp only [halloc, hbase] at hok
    obtain ⟨⟨b, map, ps'⟩, hinsert, hok⟩ := bind_eq_ok.mp hok
    rcases hins b map ps' hinsert with ⟨rfl, hfreed⟩ | ⟨rfl, hplaced⟩
    · obtain ⟨s₃, hfree, hok⟩ := bind_eq_ok.mp hok
      obtain ⟨rfl, rfl⟩ := Prod.mk.inj (Except.ok.inj hok)
      obtain ⟨h₃, hgrows₃, hcache₃, hlt, -⟩ := hfreed _ hfree
      exact ⟨owner₁, B, hgrows₃, hcache₃, hnone h₃ (.inr hlt)⟩
    · obtain ⟨links, hpush, hok⟩ := bind_eq_ok.mp hok
      obtain ⟨rfl, rfl⟩ := Prod.mk.inj (Except.ok.inj hok)
      obtain ⟨owner', h₃, hgrows₃⟩ := hplaced.small h₁ hsize hsmallorder horder hpush
      refine ⟨owner', _, hgrows.trans hgrows₃, hcache, h₃, by simp, ?_⟩
      rintro p i heq
      obtain ⟨rfl, rfl⟩ := Prod.mk.inj (Option.some.inj heq)
      refine ⟨by simp, .inr ?_⟩
      exact (congrArg ChunkInfo.size hinfo).symm.le

/-- **The chunk for a small request**: the first one of its bucket, or a new one. -/
theorem takeSmallChunk_keeps (hsrc : src.Sound) (h : Consistent s owner B live) {order : ℕ}
    {r : Option (ℕ × ℕ)} (hmin : minBlockSize ≤ size) (hsize : size < bigbucketThreshold)
    (hsmallorder : getSmallbucketOrder size = .ok order) (horder : order < nSmallbucket)
    (hok : takeSmallChunk src s (.bucket order) size = .ok (r, s')) :
    ∃ owner' B', Grows s s' owner owner' ∧ s'.freeCache = s.freeCache ∧
      ChunkFor s s' owner' B' live order size r := by
  unfold takeSmallChunk at hok
  have hhead := (h.lists.buckets order horder).next_head
  split at hok
  · exact newSmallChunk_keeps hsrc h hmin hsize hsmallorder horder hok
  · rename_i hempty
    cases hB : B order with
    | nil =>
        rw [hB] at hhead
        simp [isEmpty, hhead] at hempty
    | cons c rest =>
        rw [hB] at hhead
        simp only [List.map_cons, List.headD_cons] at hhead
        simp only [hhead] at hok
        obtain ⟨⟨page, index⟩, hnode, hok⟩ := bind_eq_ok.mp hok
        obtain rfl : c = (page, index) := Except.ok.inj hnode
        obtain ⟨rfl, rfl⟩ := Prod.mk.inj (Except.ok.inj hok)
        refine ⟨owner, B, .of_eq (fun _ _ hq => hq) (fun _ _ hk => hk) (fun _ _ _ _ => rfl)
          (le_refl _) rfl fun _ => rfl, rfl, h, by simp, ?_⟩
        rintro p i heq
        obtain ⟨rfl, rfl⟩ := Prod.mk.inj (Option.some.inj heq)
        exact ⟨by rw [hB]; exact List.mem_cons_self, .inl ⟨hhead, rfl⟩⟩

/-- **A small block** from its bucket leaves a consistent heap with this block live, or is
refused. -/
theorem allocateSmallbucket_keeps (hsrc : src.Sound) (h : Consistent s owner B live)
    (hok : allocateSmallbucket src s size = .ok (res, s')) :
    ∃ owner' B', Grows s s' owner owner' ∧ s'.freeCache = s.freeCache ∧
      Allocated s s' owner' B' live size res := by
  unfold allocateSmallbucket at hok
  split at hok
  · exact absurd hok (by simp)
  rename_i hsmall
  have hsize : max size minBlockSize < bigbucketThreshold := by
    simp only [minBlockSize, bigbucketThreshold, pageSize] at *
    omega
  have hchunk : chunkSize size = max size minBlockSize := by
    rw [chunkSize, if_pos (by omega)]
  obtain ⟨order, hsmallorder, hok⟩ := bind_eq_ok.mp hok
  obtain ⟨bucket, hbucket, hok⟩ := bind_eq_ok.mp hok
  have horder : order < nSmallbucket := by
    by_contra hge
    rw [smallBucket, if_neg hge] at hbucket
    exact absurd hbucket (by simp)
  obtain rfl := smallBucket_eq hbucket
  obtain ⟨⟨r, s₁⟩, htake, hok⟩ := bind_eq_ok.mp hok
  obtain ⟨owner₁, B₁, hgrows, hcache, hfor⟩ := takeSmallChunk_keeps hsrc h (le_max_right _ _) hsize
    hsmallorder horder htake
  cases r with
  | none =>
      obtain ⟨rfl, rfl⟩ := Prod.mk.inj (Except.ok.inj hok)
      exact ⟨owner₁, B₁, hgrows, hcache, .null hfor.consistent (hfor.none rfl)⟩
  | some pi =>
      obtain ⟨page, index⟩ := pi
      obtain ⟨hmem, hfrom⟩ := hfor.some page index rfl
      obtain ⟨⟨res', chunk⟩, hblock, hok⟩ := bind_eq_ok.mp hok
      -- the bucket afterwards, whether the chunk leaves it or not
      obtain ⟨links, hfull, hroom, rfl, rfl⟩ : ∃ links,
          (isChunkFull chunk = true →
            pop s₁.links (.bucket order) (.chunk page index) = .ok links) ∧
          (isChunkFull chunk = false → links = s₁.links) ∧ res' = res ∧
          { s₁.setChunk (.pool page index) chunk with links := links } = s' := by
        cases hf : isChunkFull chunk with
        | true =>
            simp only [hf, if_true] at hok
            obtain ⟨links, hpop, hok⟩ := bind_eq_ok.mp hok
            obtain ⟨rfl, rfl⟩ := Prod.mk.inj (Except.ok.inj hok)
            exact ⟨links, fun _ => hpop, by simp, rfl, rfl⟩
        | false =>
            simp only [hf, Bool.false_eq_true, if_false] at hok
            obtain ⟨rfl, rfl⟩ := Prod.mk.inj (Except.ok.inj hok)
            exact ⟨s₁.links, by simp, fun _ => rfl, rfl, rfl⟩
      obtain ⟨hne, hreg, hkind, horder_eq, ⟨B', h'⟩, hgrows'⟩ :=
        hfor.consistent.takeBlock horder hmem hblock hfull hroom
      have hsame := hgrows'.size _ _ _ hreg
      refine ⟨owner₁, B', hgrows.trans hgrows', hcache, .block page index hne h'
        (hgrows'.reg _ _ hreg) ?_ (fun hge => by omega) (fun _ => ?_) fun hhead => ?_⟩
      · rw [hsame]
        exact ⟨fun _ => hkind, fun _ => by omega⟩
      · rw [hsame]
        exact ⟨order, horder, horder_eq⟩
      rw [hsame]
      rcases hfrom with ⟨hnext, rfl⟩ | hle
      · have := hhead (by omega) order (hchunk ▸ hsmallorder) page index hnext
        rw [hchunk] at this
        exact (le_max_left _ _).trans this
      · exact (le_max_left _ _).trans hle

end Allocations

end MugOS.Heap
