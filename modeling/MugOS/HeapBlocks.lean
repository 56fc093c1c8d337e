import MugOS.HeapLists

/-!
# Blocks of the Heap

A chunk or a large block enters the hash map, and a chunk hands out and takes back its blocks.
Beside the shape and the lists there are the live blocks: every one of them lies in a
registered block, and in a small chunk it is one of the blocks whose bit is set.

## Main results

* `Shape.register`, `Lists.registerLarge`: a new block is registered.
* `allocateBlock_spec`: a block that is handed out has a bit that was clear.
* `takeBlock_keeps`: handing out a block of a chunk keeps the invariants.
-/

namespace MugOS.Heap

open WordBitmap Hashmap LinkedList Links

/-! ### A new block -/

/-- A `ChunkInfo` that is marked as free is not registered. -/
theorem Shape.not_reg_of_bit {s : State} {owner : ℕ → Option Owner} (h : Shape s owner)
    {page index : ℕ} (hbit : bit (s.memory page).bitmap index = false) (k : ℕ) :
    ¬ s.Reg k (.pool page index) := by
  intro hreg
  cases h.refs k _ hreg with
  | pool _ _ hset _ _ => simp [hset] at hbit

/-- The elements of Chunguses after one of them is used. -/
theorem State.info_useInfo (s : State) (page index base size : ℕ) (ps : Pages) (p i : ℕ) :
    (s.useInfo page index base size ps).info p i =
      if p = page ∧ i = index then newInfo (s.info page index) base size else s.info p i := by
  have hset := State.info_setChunk { s with pages := ps } page index
    (newInfo (s.info page index) base size) p i
  have hsame : (s.useInfo page index base size ps).info p i =
      ({ s with pages := ps }.setChunk (.pool page index)
        (newInfo (s.info page index) base size)).info p i := by
    simp only [State.useInfo, State.info]
    by_cases hp : p = page
    · subst hp
      rw [Function.update_self]
      rfl
    · rw [Function.update_of_ne hp]
  rw [hsame, hset]
  rfl

/-- The bits of Chunguses after one of the elements is used. -/
theorem State.bit_useInfo (s : State) {page index : ℕ} (base size : ℕ) (ps : Pages)
    (hlength : index / 64 < (s.memory page).bitmap.length) (p i : ℕ) :
    bit ((s.useInfo page index base size ps).memory p).bitmap i =
      (bit (s.memory p).bitmap i || decide (p = page ∧ i = index)) := by
  have hset := fun q => State.bitmap_setChunk { s with pages := ps } page index
    (newInfo (s.info page index) base size) q
  simp only [State.useInfo]
  by_cases hp : p = page
  · subst hp
    rw [Function.update_self, bit_markUsed (by rwa [hset]), hset]
    simp
  · rw [Function.update_of_ne hp, hset]
    simp [hp]

/-- A new block: its pages belong to it, and its `ChunkInfo` describes it. -/
theorem Shape.useInfo {s : State} {owner : ℕ → Option Owner} (h : Shape s owner)
    {page index base size : ℕ} {ps : Pages} (hpage : page ∈ s.pool)
    (hindex : index < chungusNChunks) (hbit : bit (s.memory page).bitmap index = false)
    (hsize : minBlockSize ≤ size) (hfresh : Fresh s.pages.owned base (roundToPage size))
    (hps : ps.owned = s.pages.owned ++ pages base (roundToPage size)) :
    ∃ owner', Shape (s.useInfo page index base size ps) owner' ∧
      RefWf (s.useInfo page index base size ps) owner' base (.pool page index) ∧
      ∀ q o, owner q = some o → owner' q = some o := by
  obtain ⟨owner', h₁, hclaimed, hkeep⟩ := h.claimBlock hfresh.unused hps
  have hnot := h₁.not_reg_of_bit hbit
  have h₂ := h₁.setInfo (c := newInfo (s.info page index) base size)
    fun k hreg => absurd hreg (hnot k)
  have h₃ := h₂.markUsed hpage hindex
  have hlength : index / 64 < (s.memory page).bitmap.length := by
    rw [(h.chungus page hpage).length_eq]
    simp only [chungusNChunks, chungusBitmapSize, pageSize] at *
    omega
  refine ⟨owner', h₃, .pool hpage hindex ?_ ?_ ?_, hkeep⟩
  · rw [State.bit_useInfo s base size ps hlength]
    simp
  · rw [State.info_useInfo, if_pos ⟨rfl, rfl⟩]
    rfl
  · rw [State.info_useInfo, if_pos ⟨rfl, rfl⟩]
    refine ⟨hfresh.ne_zero, hfresh.aligned, hfresh.fits, hsize, hclaimed, ?_⟩
    intro hsmall i hi hi64
    have hsmall' : size < bigbucketThreshold := hsmall
    have hmask : (newInfo (s.info page index) base size).bitmap = emptyMask size := by
      rw [newInfo, if_pos hsmall']
    rw [hmask, getMsbD_emptyMask hsize (le_of_lt hsmall') hi64]
    exact decide_eq_true hi

/-- The base of unused pages is a page that is not registered. -/
theorem Shape.fresh_base {s : State} {owner : ℕ → Option Owner} (h : Shape s owner) {base n : ℕ}
    (hpos : 0 < n) (hfresh : Fresh s.pages.owned base n) :
    getPage base = base ∧ base < 2 ^ 64 ∧ ∀ v, ¬ s.Reg base v := by
  refine ⟨?_, ?_, fun v hreg => hfresh.unused base (base_mem_pages hpos) (h.key_owned hreg)⟩
  · have := hfresh.aligned
    unfold getPage
    simp only [pageSize] at *
    omega
  · have := hfresh.fits
    have : pageSize ≤ n * pageSize := Nat.le_mul_of_pos_left _ hpos
    simp only [pageSize] at *
    omega

/-- **A new block is registered**, or the hash map cannot grow. -/
theorem Shape.register {src : PageSource} (hsrc : src.Sound) {s : State}
    {owner : ℕ → Option Owner} (h : Shape s owner) {page index base size : ℕ} {ps : Pages}
    (hpage : page ∈ s.pool) (hindex : index < chungusNChunks)
    (hbit : bit (s.memory page).bitmap index = false) (hsize : minBlockSize ≤ size)
    (hfresh : Fresh s.pages.owned base (roundToPage size))
    (hps : ps.owned = s.pages.owned ++ pages base (roundToPage size)) {b : Bool}
    {map : Hashmap ChunkRef} {ps' : Pages}
    (hins : Hashmap.insert src s.allocMap ps base (.pool page index) = .ok (b, map, ps')) :
    (b = false ∧ map = s.allocMap ∧ ps'.owned = ps.owned ∧ ps.refused < ps'.refused) ∨
    (b = true ∧ ps'.refused = ps.refused ∧
      (∃ owner', Shape { s.useInfo page index base size ps with
        allocMap := map, pages := ps' } owner' ∧
        ∀ q o, o ≠ .table → owner q = some o → owner' q = some o) ∧
      ∀ k v, k ≠ 0 → (Contains map.entries k v ↔
        (k = base ∧ v = .pool page index) ∨ Contains s.allocMap.entries k v)) := by
  obtain ⟨owner₁, h₁, href, hkeep⟩ := h.useInfo hpage hindex hbit hsize hfresh hps
  have hpos : 0 < roundToPage size := roundToPage_pos (by simp only [minBlockSize] at hsize; omega)
  have hmem : base ∈ pages base (roundToPage size) := base_mem_pages hpos
  obtain ⟨hpagebase, hlt, hnew⟩ := h.fresh_base hpos hfresh
  have hcache : ∀ i, (s.slot i).base ≠ 0 → (s.slot i).base ≠ base := by
    intro i hi heq
    refine hfresh.unused base hmem (h.owned base (.block base) ?_)
    rw [← heq]
    exact (h.cache i hi).1.owner_base
  rcases insert_cases hsrc h.wf ps (by rw [hpagebase]; exact hfresh.ne_zero) hlt
      (fun v hv => hnew v ⟨hfresh.ne_zero, hpagebase ▸ hv⟩) (.pool page index) with
    ⟨qs, hins', howned, hrefused⟩ | ⟨map', qs, hins', hwf, -, -, hcontains, hpages⟩
  · rw [hins, Except.ok.injEq, Prod.mk.injEq, Prod.mk.injEq] at hins'
    obtain ⟨rfl, rfl, rfl⟩ := hins'
    exact .inl ⟨rfl, rfl, howned, hrefused⟩
  · rw [hins, Except.ok.injEq, Prod.mk.injEq, Prod.mk.injEq] at hins'
    obtain ⟨rfl, rfl, rfl⟩ := hins'
    rw [hpagebase] at hcontains
    obtain ⟨owner₂, h₂, hkeep₂⟩ := h₁.insert hwf hcontains hpages href hcache
    refine .inr ⟨rfl, ?_, ⟨owner₂, h₂, fun q o hne ho => hkeep₂ q o hne (hkeep q o ho)⟩, hcontains⟩
    rcases hpages with ⟨-, -, rfl⟩ | hgrown
    · rfl
    · exact hgrown.refused_eq

/-! ### The buckets and a new block -/

/-- A chunk is full exactly when no bit of its bitmap is clear. -/
theorem isChunkFull_eq_false_iff {c : ChunkInfo} :
    isChunkFull c = false ↔ ∃ i < 64, c.bitmap.getMsbD i = false := by
  rw [isChunkFull, decide_eq_false_iff_not, eq_ones_iff]
  push Not
  simp only [ne_eq, Bool.not_eq_true]

section Register

variable {s : State} {owner : ℕ → Option Owner} (h : Shape s owner) {page index base size : ℕ}
  {ps ps' : Pages} {map : Hashmap ChunkRef} (hbase : base ≠ 0)
  (hbit : bit (s.memory page).bitmap index = false)
  (hcontains : ∀ k v, k ≠ 0 → (Contains map.entries k v ↔
    (k = base ∧ v = .pool page index) ∨ Contains s.allocMap.entries k v))

include hbase hcontains in
/-- After a new block is registered, its address refers to its `ChunkInfo`, and the other
addresses refer to what they did. -/
theorem reg_register (links : Links Node) (k : ℕ) (v : ChunkRef) :
    State.Reg { s.useInfo page index base size ps with
      allocMap := map, pages := ps', links := links } k v ↔
      (k = base ∧ v = .pool page index) ∨ s.Reg k v := by
  constructor
  · rintro ⟨hk, hmem⟩
    exact ((hcontains k v hk).mp hmem).imp_right fun hold => ⟨hk, hold⟩
  · rintro (⟨rfl, rfl⟩ | ⟨hk, hmem⟩)
    · exact ⟨hbase, (hcontains _ _ hbase).mpr (.inl ⟨rfl, rfl⟩)⟩
    · exact ⟨hk, (hcontains k v hk).mpr (.inr hmem)⟩

include hbase hcontains in
/-- Registering a new block leaves the room of all other chunks as it is. -/
theorem hasRoom_register (links : Links Node) {o p i : ℕ} (hne : (p, i) ≠ (page, index)) :
    HasRoom { s.useInfo page index base size ps with
      allocMap := map, pages := ps', links := links } o p i ↔ HasRoom s o p i := by
  have hinfo : State.info { s.useInfo page index base size ps with
      allocMap := map, pages := ps', links := links } p i = s.info p i := by
    have huse := State.info_useInfo s page index base size ps p i
    rw [if_neg (fun hpi => hne (Prod.ext hpi.1 hpi.2))] at huse
    exact huse
  have hreg : ∀ k, State.Reg { s.useInfo page index base size ps with
      allocMap := map, pages := ps', links := links } k (.pool p i) ↔ s.Reg k (.pool p i) := by
    intro k
    rw [reg_register hbase hcontains links]
    constructor
    · rintro (⟨-, heq⟩ | hreg)
      · cases heq
        exact absurd rfl hne
      · exact hreg
    · exact .inr
  exact HasRoom.congr hreg (by rw [hinfo]) (by rw [hinfo]) o

include h hbase hbit hcontains in
/-- The lists of the buckets do not change when a large block is registered. -/
theorem Lists.registerLarge {B : ℕ → List (ℕ × ℕ)} (hl : Lists s B)
    (hsize : bigbucketThreshold ≤ size) :
    Lists { s.useInfo page index base size ps with allocMap := map, pages := ps' } B := by
  refine hl.congr rfl rfl ?_
  intro o p i
  by_cases hpi : (p, i) = (page, index)
  · obtain ⟨rfl, rfl⟩ := Prod.mk.inj hpi
    constructor
    · rintro ⟨-, hsmall, -, -⟩
      have huse := State.info_useInfo s p i base size ps p i
      rw [if_pos ⟨rfl, rfl⟩] at huse
      have hsmall' : size < bigbucketThreshold := by
        have : State.info { s.useInfo p i base size ps with allocMap := map, pages := ps' } p i =
          newInfo (s.info p i) base size := huse
        rw [this] at hsmall
        exact hsmall
      omega
    · rintro ⟨⟨k, hreg⟩, -, -, -⟩
      exact absurd hreg (h.not_reg_of_bit hbit k)
  · exact hasRoom_register hbase hcontains s.links hpi

include h hbase hbit hcontains in
/-- A new chunk of small blocks enters the bucket of its size, at the front. -/
theorem Lists.registerSmall {B : ℕ → List (ℕ × ℕ)} {order : ℕ} {links : Links Node}
    (hl : Lists s B) (hmin : minBlockSize ≤ size) (hsize : size < bigbucketThreshold)
    (hsmallorder : getSmallbucketOrder size = .ok order) (horder : order < nSmallbucket)
    (hpush : pushFront s.links (.bucket order) (.chunk page index) = .ok links) :
    Lists { s.useInfo page index base size ps with allocMap := map, pages := ps', links := links }
      (Function.update B order ((page, index) :: B order)) := by
  have hinfo : State.info { s.useInfo page index base size ps with
      allocMap := map, pages := ps', links := links } page index =
      newInfo (s.info page index) base size := by
    have huse := State.info_useInfo s page index base size ps page index
    rw [if_pos ⟨rfl, rfl⟩] at huse
    exact huse
  refine hl.pushBucket horder hpush ?_ rfl rfl ⟨⟨base, ?_⟩, ?_, ?_, ?_⟩ ?_
  · intro o ho hmem
    obtain ⟨⟨k, hreg⟩, -, -, -⟩ := (hl.mem_iff o ho page index).mp hmem
    exact h.not_reg_of_bit hbit k hreg
  · exact (reg_register hbase hcontains links _ _).mpr (.inl ⟨rfl, rfl⟩)
  · rw [hinfo]
    exact hsize
  · rw [hinfo]
    exact hsmallorder
  · rw [hinfo, isChunkFull_eq_false_iff]
    refine ⟨0, by norm_num, ?_⟩
    have hmask : (newInfo (s.info page index) base size).bitmap = emptyMask size := by
      rw [newInfo, if_pos hsize]
    rw [hmask, getMsbD_emptyMask hmin (le_of_lt hsize) (by norm_num), decide_eq_false]
    have : 1 ≤ pageSize / size := (Nat.one_le_div_iff (by
      simp only [minBlockSize] at hmin
      omega)).mpr (le_of_lt hsize)
    omega
  · exact fun o p i hne => hasRoom_register hbase hcontains links hne

end Register

/-! ### Live blocks -/

/-- **The live blocks**, by their addresses: each lies in a registered block, at its start if
that is a large one, and otherwise at a block whose bit is set. -/
structure Live (s : State) (live : List ℕ) : Prop where
  nodup : live.Nodup
  reg : ∀ p ∈ live, ∃ v, s.Reg (getPage p) v
  small : ∀ p ∈ live, ∀ page index, s.Reg (getPage p) (.pool page index) →
    (s.info page index).size < bigbucketThreshold →
    ∃ i < pageSize / (s.info page index).size,
      p = (s.info page index).base + i * (s.info page index).size ∧
      (s.info page index).bitmap.getMsbD i = true
  big : ∀ p ∈ live, ∀ v, s.Reg (getPage p) v →
    (∀ page index, v = .pool page index → bigbucketThreshold ≤ (s.info page index).size) →
    p = getPage p

/-- At the start of the heap no block is live. -/
theorem live_start (memory : ℕ → Chungus) : Live (State.start memory) [] :=
  ⟨List.nodup_nil, by simp, by simp, by simp⟩

/-- The live blocks after a change that leaves what is registered. -/
theorem Live.congr {s s' : State} {live : List ℕ} (h : Live s live)
    (hreg : ∀ k v, s'.Reg k v ↔ s.Reg k v)
    (hinfo : ∀ k page index, s.Reg k (.pool page index) → s'.info page index = s.info page index) :
    Live s' live where
  nodup := h.nodup
  reg := fun p hp => (h.reg p hp).imp fun v hv => (hreg _ v).mpr hv
  small := by
    intro p hp page index hk hsmall
    have hk' := (hreg _ _).mp hk
    rw [hinfo _ _ _ hk'] at hsmall ⊢
    exact h.small p hp page index hk' hsmall
  big := by
    intro p hp v hk hbig
    have hk' := (hreg _ _).mp hk
    refine h.big p hp v hk' ?_
    rintro page index rfl
    rw [← hinfo _ _ _ hk']
    exact hbig page index rfl

/-- The live blocks stay live when a new block with an address of its own is registered. -/
theorem Live.register {s s' : State} {live : List ℕ} (h : Live s live) {base : ℕ} {ref : ChunkRef}
    (hnot : ∀ v, ¬ s.Reg base v)
    (hreg : ∀ k v, s'.Reg k v ↔ (k = base ∧ v = ref) ∨ s.Reg k v)
    (hinfo : ∀ k p i, s.Reg k (.pool p i) → s'.info p i = s.info p i) : Live s' live := by
  have hold : ∀ p ∈ live, ∀ v, s'.Reg (getPage p) v → s.Reg (getPage p) v := by
    intro p hp v hv
    rcases (hreg _ v).mp hv with ⟨heq, -⟩ | hv
    · obtain ⟨w, hw⟩ := h.reg p hp
      exact absurd (heq ▸ hw) (hnot w)
    · exact hv
  refine ⟨h.nodup, fun p hp => (h.reg p hp).imp fun v hv => (hreg _ v).mpr (.inr hv), ?_, ?_⟩
  · intro p hp q i hk hsmall
    have hk' := hold p hp _ hk
    rw [hinfo _ _ _ hk'] at hsmall ⊢
    exact h.small p hp q i hk' hsmall
  · intro p hp v hk hbig
    have hk' := hold p hp _ hk
    refine h.big p hp v hk' ?_
    rintro q i rfl
    rw [← hinfo _ _ _ hk']
    exact hbig q i rfl

/-- A large block becomes live under an address that was not live. -/
theorem Live.consLarge {s : State} {owner : ℕ → Option Owner} {live : List ℕ} (h : Live s live)
    (hs : Shape s owner) {base : ℕ} {v : ChunkRef} (hnew : base ∉ live)
    (hpage : getPage base = base) (hreg : s.Reg base v)
    (hbig : ∀ page index, v = .pool page index → bigbucketThreshold ≤ (s.info page index).size) :
    Live s (base :: live) := by
  refine ⟨List.nodup_cons.mpr ⟨hnew, h.nodup⟩, ?_, ?_, ?_⟩
  · intro p hp
    rcases List.mem_cons.mp hp with rfl | hp
    · exact ⟨v, by rwa [hpage]⟩
    · exact h.reg p hp
  · intro p hp page index hk hsmall
    rcases List.mem_cons.mp hp with rfl | hp
    · rw [hpage] at hk
      have hge := hbig page index (hreg.unique hs.wf hk)
      omega
    · exact h.small p hp page index hk hsmall
  · intro p hp w hk hlarge
    rcases List.mem_cons.mp hp with rfl | hp
    · exact hpage.symm
    · exact h.big p hp w hk hlarge

/-! ### Blocks of small chunks -/

/-- Each block of a chunk lies in the page of the chunk. -/
theorem block_lt {size i : ℕ} (hsize : minBlockSize ≤ size) (hi : i < pageSize / size) :
    i * size + size ≤ pageSize := by
  have hpos : 0 < size := by
    simp only [minBlockSize] at hsize
    omega
  calc i * size + size = (i + 1) * size := by ring
    _ ≤ pageSize / size * size := Nat.mul_le_mul_right _ hi
    _ ≤ pageSize := Nat.div_mul_le_self _ _

/-- The page of every block of a chunk is the base of the chunk. -/
theorem ChunkInfo.Wf.getPage_block {owner : ℕ → Option Owner} {c : ChunkInfo} (h : c.Wf owner)
    {i : ℕ} (hi : i < pageSize / c.size) : getPage (c.base + i * c.size) = c.base := by
  have hle := block_lt h.size_ge hi
  have hsize := h.size_ge
  have haligned := h.aligned
  unfold getPage
  simp only [minBlockSize, pageSize] at *
  omega

/-- Two blocks of a chunk with the same address have the same number. -/
theorem block_injective {c : ChunkInfo} (hsize : minBlockSize ≤ c.size) {i j : ℕ}
    (h : c.base + i * c.size = c.base + j * c.size) : i = j := by
  have hpos : 0 < c.size := by
    simp only [minBlockSize] at hsize
    omega
  exact Nat.eq_of_mul_eq_mul_right hpos (Nat.add_left_cancel h)

/-- **A block that is handed out** has a bit that was clear, which is set. -/
theorem allocateBlock_spec {owner : ℕ → Option Owner} {c c' : ChunkInfo} {res : ℕ}
    (hwf : c.Wf owner) (hsmall : c.size < bigbucketThreshold)
    (hok : allocateBlock c = .ok (res, c')) :
    ∃ i < pageSize / c.size, c.bitmap.getMsbD i = false ∧ res = c.base + i * c.size ∧ res ≠ 0 ∧
      c' = { c with bitmap := c.bitmap ||| bitMask i } ∧ c'.Wf owner := by
  unfold allocateBlock at hok
  split at hok
  · exact absurd hok (by simp)
  · rename_i hfull
    obtain ⟨hlt, hclear⟩ := clzll_not_spec hfull
    set i := clzll (~~~c.bitmap) with hi
    have hblock : i < pageSize / c.size := by
      by_contra hge
      rw [hwf.mask hsmall i (by omega) hlt] at hclear
      exact absurd hclear (by decide)
    have hle := block_lt hwf.size_ge hblock
    have hfits := hwf.fits
    have hone : roundToPage c.size = 1 := by
      have hmin := hwf.size_ge
      rw [roundToPage]
      simp only [minBlockSize, bigbucketThreshold, pageSize] at *
      omega
    have hne := hwf.ne_zero
    rw [hone] at hfits
    have hsize := hwf.size_ge
    have hsum : wadd c.base (i * c.size) = c.base + i * c.size := by
      apply wadd_of_lt
      simp only [minBlockSize, pageSize] at *
      omega
    obtain ⟨rfl, rfl⟩ := Prod.mk.inj (Except.ok.inj hok)
    refine ⟨i, hblock, hclear, hsum, by rw [hsum]; omega, rfl, ?_⟩
    refine ⟨hwf.ne_zero, hwf.aligned, hwf.fits, hwf.size_ge, hwf.holds, ?_⟩
    intro _ j hj hj64
    rw [getMsbD_or_bitMask _ hj64, hwf.mask hsmall j hj hj64, Bool.true_or]

/-- Freeing a block of a chunk clears the bit of this block and no other. -/
theorem freeBlock_spec {owner : ℕ → Option Owner} {c : ChunkInfo} (hwf : c.Wf owner)
    {i : ℕ} (hi : i < pageSize / c.size) :
    freeBlock c (c.base + i * c.size) = { c with bitmap := c.bitmap &&& ~~~(bitMask i) } ∧
      ({ c with bitmap := c.bitmap &&& ~~~(bitMask i) } : ChunkInfo).Wf owner := by
  have hle := block_lt hwf.size_ge hi
  have hmin := hwf.size_ge
  have haligned := hwf.aligned
  have hoffset : getOffset (c.base + i * c.size) / c.size = i := by
    have hmod : getOffset (c.base + i * c.size) = i * c.size := by
      unfold getOffset
      simp only [minBlockSize, pageSize] at *
      omega
    rw [hmod]
    exact Nat.mul_div_cancel _ (by simp only [minBlockSize] at hmin; omega)
  refine ⟨by rw [freeBlock, hoffset], hwf.ne_zero, hwf.aligned, hwf.fits, hwf.size_ge, hwf.holds,
    ?_⟩
  intro hsmall j hj hj64
  rw [getMsbD_and_not_bitMask _ hj64, hwf.mask hsmall j hj hj64, Bool.true_and, decide_eq_true]
  have hj' : pageSize / c.size ≤ j := hj
  omega

section Blocks

variable {s s' : State} {owner : ℕ → Option Owner} {live : List ℕ} {page index : ℕ}

/-- A block whose bit was clear is handed out, and becomes live with its bit set. -/
theorem Live.take (h : Live s live) (hs : Shape s owner)
    (hreg : ∀ k v, s'.Reg k v ↔ s.Reg k v) {k i : ℕ} (hk : s.Reg k (.pool page index))
    (hsmall : (s.info page index).size < bigbucketThreshold)
    (hi : i < pageSize / (s.info page index).size)
    (hclear : (s.info page index).bitmap.getMsbD i = false)
    (hinfo : s'.info page index =
      { s.info page index with bitmap := (s.info page index).bitmap ||| bitMask i })
    (hother : ∀ p j, (p, j) ≠ (page, index) → s'.info p j = s.info p j) :
    Live s' (((s.info page index).base + i * (s.info page index).size) :: live) := by
  obtain ⟨hbase, hwf⟩ := hs.pool_wf hk
  set c := s.info page index with hc
  have hpage := hwf.getPage_block hi
  have hkey : ∀ v, s.Reg c.base v → v = .pool page index := fun v hv =>
    hv.unique hs.wf (hbase ▸ hk)
  have hi64 : i < 64 := by
    have hle := block_lt hwf.size_ge hi
    have hmin := hwf.size_ge
    by_contra hge
    have : 64 * 64 ≤ i * c.size := Nat.mul_le_mul (by omega) hmin
    simp only [minBlockSize, pageSize] at *
    omega
  refine ⟨List.nodup_cons.mpr ⟨?_, h.nodup⟩, ?_, ?_, ?_⟩
  · intro hmem
    obtain ⟨j, hj, heq, hset⟩ := h.small _ hmem page index (by rw [hpage, hbase]; exact hk) hsmall
    rw [← block_injective hwf.size_ge heq, hclear] at hset
    exact absurd hset (by decide)
  · intro p hp
    rcases List.mem_cons.mp hp with rfl | hp
    · exact ⟨_, (hreg _ _).mpr (by rw [hpage, hbase]; exact hk)⟩
    · exact (h.reg p hp).imp fun v hv => (hreg _ v).mpr hv
  · intro p hp q j hq hsmall'
    have hq' := (hreg _ _).mp hq
    rcases List.mem_cons.mp hp with rfl | hp'
    · rw [hpage] at hq'
      cases hkey _ hq'
      rw [hinfo]
      refine ⟨i, hi, rfl, ?_⟩
      rw [getMsbD_or_bitMask _ hi64, decide_eq_true rfl, Bool.or_true]
    · by_cases hqj : (q, j) = (page, index)
      · obtain ⟨rfl, rfl⟩ := Prod.mk.inj hqj
        obtain ⟨n, hn, heq, hset⟩ := h.small p hp' q j hq' hsmall
        rw [hinfo]
        refine ⟨n, hn, heq, ?_⟩
        rw [getMsbD_or_bitMask _ (BitVec.lt_of_getMsbD hset), hset, Bool.true_or]
      · rw [hother q j hqj] at hsmall' ⊢
        exact h.small p hp' q j hq' hsmall'
  · intro p hp v hv hbig
    have hv' := (hreg _ _).mp hv
    rcases List.mem_cons.mp hp with rfl | hp
    · rw [hpage] at hv'
      cases hkey _ hv'
      have hge := hbig page index rfl
      rw [hinfo] at hge
      have hge' : bigbucketThreshold ≤ c.size := hge
      omega
    · refine h.big p hp v hv' ?_
      rintro q j rfl
      have hge := hbig q j rfl
      by_cases hqj : (q, j) = (page, index)
      · obtain ⟨rfl, rfl⟩ := Prod.mk.inj hqj
        rw [hinfo] at hge
        exact hge
      · rwa [hother q j hqj] at hge

/-- A live block is taken back: its bit is cleared and it is no longer live. -/
theorem Live.give (h : Live s live) (hreg : ∀ k v, s'.Reg k v ↔ s.Reg k v) {i : ℕ}
    (hsmall : (s.info page index).size < bigbucketThreshold)
    (hinfo : s'.info page index =
      { s.info page index with bitmap := (s.info page index).bitmap &&& ~~~(bitMask i) })
    (hother : ∀ p j, (p, j) ≠ (page, index) → s'.info p j = s.info p j) :
    Live s' (live.erase ((s.info page index).base + i * (s.info page index).size)) := by
  set c := s.info page index with hc
  have hlive : ∀ p ∈ live.erase (c.base + i * c.size), p ∈ live ∧ p ≠ c.base + i * c.size :=
    fun p hp => ⟨List.mem_of_mem_erase hp, fun heq => h.nodup.not_mem_erase (heq ▸ hp)⟩
  refine ⟨h.nodup.erase _, ?_, ?_, ?_⟩
  · intro p hp
    exact (h.reg p (hlive p hp).1).imp fun v hv => (hreg _ v).mpr hv
  · intro p hp q j hq hsmall'
    have hq' := (hreg _ _).mp hq
    obtain ⟨hp', hne⟩ := hlive p hp
    by_cases hqj : (q, j) = (page, index)
    · obtain ⟨rfl, rfl⟩ := Prod.mk.inj hqj
      obtain ⟨n, hn, heq, hset⟩ := h.small p hp' q j hq' hsmall
      rw [hinfo]
      refine ⟨n, hn, heq, ?_⟩
      have hni : n ≠ i := by
        rintro rfl
        exact hne heq
      rw [getMsbD_and_not_bitMask _ (BitVec.lt_of_getMsbD hset), hset, Bool.true_and,
        decide_eq_true hni]
    · rw [hother q j hqj] at hsmall' ⊢
      exact h.small p hp' q j hq' hsmall'
  · intro p hp v hv hbig
    have hv' := (hreg _ _).mp hv
    refine h.big p (hlive p hp).1 v hv' ?_
    rintro q j rfl
    have hge := hbig q j rfl
    by_cases hqj : (q, j) = (page, index)
    · obtain ⟨rfl, rfl⟩ := Prod.mk.inj hqj
      rw [hinfo] at hge
      exact hge
    · rwa [hother q j hqj] at hge

/-- An address in whose page nothing is live can leave the hash map, and the live blocks stay
live. -/
theorem Live.unregister (h : Live s live) {k : ℕ} (hnone : ∀ p ∈ live, getPage p ≠ k)
    (hreg : ∀ k' v, s'.Reg k' v ↔ s.Reg k' v ∧ k' ≠ k)
    (hinfo : ∀ k' p i, k' ≠ k → s.Reg k' (.pool p i) → s'.info p i = s.info p i) :
    Live s' live where
  nodup := h.nodup
  reg := fun p hp => (h.reg p hp).imp fun v hv => (hreg _ v).mpr ⟨hv, hnone p hp⟩
  small := by
    intro p hp q j hq hsmall
    obtain ⟨hq', hne⟩ := (hreg _ _).mp hq
    rw [hinfo _ q j hne hq'] at hsmall ⊢
    exact h.small p hp q j hq' hsmall
  big := by
    intro p hp v hv hbig
    obtain ⟨hv', hne⟩ := (hreg _ _).mp hv
    refine h.big p hp v hv' ?_
    rintro q j rfl
    rw [← hinfo _ q j hne hv']
    exact hbig q j rfl

end Blocks

end MugOS.Heap
