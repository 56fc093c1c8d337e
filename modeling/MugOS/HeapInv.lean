import MugOS.HeapBits
import MugOS.HashmapSpec

/-!
# The Shape of the Heap

What holds of the data of the heap whatever its lists look like. Every page that the heap uses
for something has one *owner*: it holds a Chungus, it belongs to the array of the hash map, or
it belongs to the block with a given base. The hash map refers to `ChunkInfo`s of the pool that
are marked as used and describe the block of the key, or to slots of the cache; and the slots
of the cache with a block describe blocks that are not in the hash map.

Each section is about one kind of change. The functions of the heap are composed of these
changes, so a statement about all of them needs no more than one lemma for each change.

## Main results

* `Shape.addChungus`, `Shape.dropChungus`: the pool grows and shrinks.
* `Shape.insert`, `Shape.delete`: a block enters and leaves the hash map.
* `Shape.freeBlock`: the pages of a block are given back.
* `Shape.setSlot`: the cache changes.
-/

namespace MugOS.Heap

open WordBitmap Hashmap

/-! ### Registered blocks -/

/-- The hash map has the pair of a base and a `ChunkInfo*`. -/
def State.Reg (s : State) (k : ℕ) (v : ChunkRef) : Prop :=
  k ≠ 0 ∧ Contains s.allocMap.entries k v

/-- An element of a Chungus, given by the page of the Chungus and its number in it. -/
def State.info (s : State) (page index : ℕ) : ChunkInfo := (s.memory page).chunks index

/-- A slot of the cache of freed chunks, or an empty one outside of it. -/
def State.slot (s : State) (i : ℕ) : ChunkInfo := s.freeCache.getD i default

/-- A key of the hash map refers to one chunk: the map of a well-formed heap has no second
value for it. -/
theorem State.Reg.unique {s : State} (hwf : s.allocMap.Wf) {k : ℕ} {v v' : ChunkRef}
    (h : s.Reg k v) (h' : s.Reg k v') : v = v' := by
  obtain ⟨hk, i, hi, hei⟩ := h
  obtain ⟨-, j, hj, hej⟩ := h'
  have hki : keyAt s.allocMap.entries i = k := by rw [keyAt, hei]
  have hkj : keyAt s.allocMap.entries j = k := by rw [keyAt, hej]
  have hij := hwf.distinct i hi j hj (hki.trans hkj.symm) (by rwa [hki])
  subst hij
  exact (Entry.mk.inj (hei.symm.trans hej)).2

/-! ### The invariant -/

/-- What a page is used for: a Chungus, the table of the hash map, or a block. -/
inductive Owner
  | chungus
  | table
  | block (base : ℕ)
  deriving DecidableEq

/-- A `ChunkInfo` that describes a block: the pages of the block belong to it, and the bits
without a block of a small chunk are set. -/
structure ChunkInfo.Wf (owner : ℕ → Option Owner) (c : ChunkInfo) : Prop where
  ne_zero : c.base ≠ 0
  aligned : c.base % pageSize = 0
  fits : c.base + roundToPage c.size * pageSize ≤ 2 ^ 64
  size_ge : minBlockSize ≤ c.size
  holds : ∀ q ∈ pages c.base (roundToPage c.size), owner q = some (.block c.base)
  mask : c.size < bigbucketThreshold → ∀ i, pageSize / c.size ≤ i → i < 64 →
    c.bitmap.getMsbD i = true

/-- A `ChunkInfo*` that the hash map has for a key. -/
inductive RefWf (s : State) (owner : ℕ → Option Owner) (k : ℕ) : ChunkRef → Prop
  | pool {page index : ℕ} (hpage : page ∈ s.pool) (hindex : index < chungusNChunks)
      (hbit : bit (s.memory page).bitmap index = true) (hbase : (s.info page index).base = k)
      (hinfo : (s.info page index).Wf owner) : RefWf s owner k (.pool page index)
  | cached {slot : ℕ} (hslot : slot < nBigblocksCached) (howner : owner k = some (.block k)) :
      RefWf s owner k (.cached slot)

/-- **The shape of the heap**, with the owners of the pages. -/
structure Shape (s : State) (owner : ℕ → Option Owner) : Prop where
  wf : s.allocMap.Wf
  owned : ∀ q o, owner q = some o → q ∈ s.pages.owned
  nodup : s.pool.Nodup
  pool : ∀ page ∈ s.pool, owner page = some .chungus
  chungus : ∀ page ∈ s.pool, (s.memory page).Wf
  table : ∀ q ∈ pages s.allocMap.base (mapPages s.allocMap), owner q = some .table
  refs : ∀ k v, s.Reg k v → RefWf s owner k v
  slots : s.freeCache.length = nBigblocksCached
  cache : ∀ i, (s.slot i).base ≠ 0 → (s.slot i).Wf owner ∧ bigbucketThreshold ≤ (s.slot i).size ∧
    ∀ v, ¬ s.Reg (s.slot i).base v
  cache_inj : ∀ i j, (s.slot i).base ≠ 0 → (s.slot i).base = (s.slot j).base → i = j

/-- The first page of a nonempty range belongs to the range. -/
theorem base_mem_pages {base n : ℕ} (h : 0 < n) : base ∈ pages base n :=
  mem_pages.mpr ⟨0, h, by simp⟩

/-- A size that is not zero takes at least one page. -/
theorem roundToPage_pos {size : ℕ} (h : 0 < size) : 0 < roundToPage size := by
  rw [roundToPage]
  simp only [pageSize]
  omega

/-- The first page of a well-formed chunk is owned by the block of this chunk. -/
theorem ChunkInfo.Wf.owner_base {owner : ℕ → Option Owner} {c : ChunkInfo} (h : c.Wf owner) :
    owner c.base = some (.block c.base) := by
  have hsize := h.size_ge
  simp only [minBlockSize] at hsize
  exact h.holds _ (base_mem_pages (roundToPage_pos (by omega)))

/-- A `ChunkInfo` stays well-formed when its pages keep their owner. -/
theorem ChunkInfo.Wf.congr {owner owner' : ℕ → Option Owner} {c : ChunkInfo} (h : c.Wf owner)
    (hkeep : ∀ q, owner q = some (.block c.base) → owner' q = some (.block c.base)) :
    c.Wf owner' :=
  ⟨h.ne_zero, h.aligned, h.fits, h.size_ge, fun q hq => hkeep q (h.holds q hq), h.mask⟩

/-- The page that is the key of a well-formed reference is owned by its block. -/
theorem RefWf.owner_key {s : State} {owner : ℕ → Option Owner} {k : ℕ} {v : ChunkRef}
    (h : RefWf s owner k v) : owner k = some (.block k) := by
  cases h with
  | pool hpage hindex hbit hbase hinfo => exact hbase ▸ hinfo.owner_base
  | cached hslot howner => exact howner

/-- The page of every key of the hash map is one of the pages in use. -/
theorem Shape.key_owned {s : State} {owner : ℕ → Option Owner} (h : Shape s owner) {k : ℕ}
    {v : ChunkRef} (hreg : s.Reg k v) : k ∈ s.pages.owned :=
  h.owned k _ (h.refs k v hreg).owner_key

/-- A key that leads to a `ChunkInfo` of the pool leads to an element of a Chungus. -/
theorem Shape.pool_mem {s : State} {owner : ℕ → Option Owner} (h : Shape s owner)
    {k page index : ℕ} (hreg : s.Reg k (.pool page index)) :
    page ∈ s.pool ∧ index < chungusNChunks := by
  cases h.refs k _ hreg with
  | pool hpage hindex _ _ _ => exact ⟨hpage, hindex⟩

/-- The `ChunkInfo` of the pool to which a key leads is well-formed, and the key is its base. -/
theorem Shape.pool_wf {s : State} {owner : ℕ → Option Owner} (h : Shape s owner)
    {k page index : ℕ} (hreg : s.Reg k (.pool page index)) :
    (s.info page index).base = k ∧ (s.info page index).Wf owner := by
  cases h.refs k _ hreg with
  | pool _ _ _ hbase hwf => exact ⟨hbase, hwf⟩

/-- Only one key leads to a `ChunkInfo` of the pool. -/
theorem Shape.key_unique {s : State} {owner : ℕ → Option Owner} (h : Shape s owner)
    {k k' page index : ℕ} (hreg : s.Reg k (.pool page index))
    (hreg' : s.Reg k' (.pool page index)) : k = k' :=
  (h.pool_wf hreg).1.symm.trans (h.pool_wf hreg').1

/-- What `freeChunk` does to a `ChunkInfo` of the pool, if it returns: the pages of its block are
given back, and its base and size are cleared. -/
theorem freeChunk_pool {s s' : State} {page index : ℕ}
    (hok : freeChunk s (.pool page index) = .ok s') :
    s' = ({ s with
        pages := s.pages.freePages (s.info page index).base
          (roundToPage (s.info page index).size) } : State).setChunk (.pool page index)
      { s.info page index with base := 0, size := 0 } := by
  unfold freeChunk at hok
  obtain ⟨chunk, hchunk, hok⟩ := bind_eq_ok.mp hok
  obtain rfl : s.info page index = chunk := Except.ok.inj hchunk
  obtain ⟨s₁, hpages, hok⟩ := bind_eq_ok.mp hok
  unfold State.freePages at hpages
  split at hpages
  · obtain rfl := Except.ok.inj hpages
    exact (Except.ok.inj hok).symm
  · exact absurd hpages (by simp)

/-- The heap at the start has the shape, with no page owned by anything. -/
theorem shape_start (memory : ℕ → Chungus) : Shape (State.start memory) fun _ => none where
  wf := wf_empty
  owned := by simp
  nodup := List.nodup_nil
  pool := by simp [State.start]
  chungus := by simp [State.start]
  table := by
    intro q hq
    have hzero : mapPages (State.start memory).allocMap = 0 := by
      simp [mapPages, State.start, Hashmap.empty, roundToPage]
    rw [hzero] at hq
    simp [pages] at hq
  refs := by
    rintro k v ⟨-, i, hi, -⟩
    simp [State.start, Hashmap.empty] at hi
  slots := by simp [State.start]
  cache := by
    intro i hi
    refine absurd ?_ hi
    simp only [State.slot, State.start, List.getD_eq_getElem?_getD, List.getElem?_replicate]
    split <;> rfl
  cache_inj := by
    intro i j hi
    refine absurd ?_ hi
    simp only [State.slot, State.start, List.getD_eq_getElem?_getD, List.getElem?_replicate]
    split <;> rfl

/-- A reference stays well-formed when its `ChunkInfo` does not change and its pages keep their
owner. -/
theorem RefWf.congr {s s' : State} {owner owner' : ℕ → Option Owner} {k : ℕ} {v : ChunkRef}
    (h : RefWf s owner k v)
    (hinfo : ∀ page index, v = .pool page index → page ∈ s.pool → page ∈ s'.pool ∧
      bit (s'.memory page).bitmap index = bit (s.memory page).bitmap index ∧
      s'.info page index = s.info page index)
    (hkeep : ∀ q, owner q = some (.block k) → owner' q = some (.block k)) :
    RefWf s' owner' k v := by
  cases h with
  | pool hpage hindex hbit hbase hwf =>
      obtain ⟨hpage', hbit', hinfo'⟩ := hinfo _ _ rfl hpage
      refine .pool hpage' hindex (hbit'.trans hbit) (by rw [hinfo', hbase]) ?_
      rw [hinfo']
      exact hwf.congr (by rwa [hbase])
  | cached hslot howner => exact .cached hslot (hkeep k howner)

/-! ### Links, pages and elements of Chunguses -/

section

variable {s : State} {owner : ℕ → Option Owner} (h : Shape s owner)

include h

/-- The links of the lists can change without a change of the shape. -/
theorem Shape.setLinks (links : Links Node) : Shape { s with links := links } owner :=
  ⟨h.wf, h.owned, h.nodup, h.pool, h.chungus, h.table,
    fun k v hreg => (h.refs k v hreg).congr (fun _ _ _ hp => ⟨hp, rfl, rfl⟩) fun _ hq => hq,
    h.slots, h.cache, h.cache_inj⟩

/-- Other pages are in use, but those with an owner still are. -/
theorem Shape.setPages {ps : Pages} (hps : ∀ q o, owner q = some o → q ∈ ps.owned) :
    Shape { s with pages := ps } owner :=
  ⟨h.wf, hps, h.nodup, h.pool, h.chungus, h.table,
    fun k v hreg => (h.refs k v hreg).congr (fun _ _ _ hp => ⟨hp, rfl, rfl⟩) fun _ hq => hq,
    h.slots, h.cache, h.cache_inj⟩

/-- The shape only depends on which pages are in use, not on the other fields of the page
source. -/
theorem Shape.setPages_eq {ps : Pages} (hps : ps.owned = s.pages.owned) :
    Shape { s with pages := ps } owner :=
  h.setPages fun q o ho => hps ▸ h.owned q o ho

omit h in
/-- After a store into a `ChunkInfo` of a Chungus this one has the new value, and all others
their old one. -/
theorem State.info_setChunk (s : State) (page index : ℕ) (c : ChunkInfo) (p i : ℕ) :
    (s.setChunk (.pool page index) c).info p i =
      if p = page ∧ i = index then c else s.info p i := by
  unfold State.info State.setChunk
  by_cases hp : p = page
  · subst hp
    by_cases hi : i = index
    · simp [hi]
    · simp [hi]
  · simp [hp]

omit h in
/-- A `ChunkInfo` of a Chungus reads as it was stored. -/
@[simp] theorem State.info_setChunk_self (s : State) (page index : ℕ) (c : ChunkInfo) :
    (s.setChunk (.pool page index) c).info page index = c := by
  rw [State.info_setChunk, if_pos ⟨rfl, rfl⟩]

omit h in
/-- A store into a `ChunkInfo` of a Chungus leaves the others as they were. -/
theorem State.info_setChunk_of_ne (s : State) {page index p i : ℕ} (c : ChunkInfo)
    (hne : (p, i) ≠ (page, index)) :
    (s.setChunk (.pool page index) c).info p i = s.info p i := by
  rw [State.info_setChunk, if_neg fun heq => hne (Prod.ext heq.1 heq.2)]

omit h in
/-- A store that keeps the size of a `ChunkInfo` keeps the sizes of all. -/
theorem State.size_setChunk (s : State) {page index : ℕ} {c : ChunkInfo}
    (hsize : c.size = (s.info page index).size) (p i : ℕ) :
    ((s.setChunk (.pool page index) c).info p i).size = (s.info p i).size := by
  by_cases hpi : (p, i) = (page, index)
  · obtain ⟨rfl, rfl⟩ := Prod.mk.inj hpi
    rw [State.info_setChunk_self, hsize]
  · rw [State.info_setChunk_of_ne s c hpi]

omit h in
/-- The bitmaps of the Chunguses after a store to one of the elements. -/
theorem State.bitmap_setChunk (s : State) (page index : ℕ) (c : ChunkInfo) (p : ℕ) :
    ((s.setChunk (.pool page index) c).memory p).bitmap = (s.memory p).bitmap := by
  unfold State.setChunk
  by_cases hp : p = page
  · subst hp
    simp
  · simp [hp]

/-- A store to an element of a Chungus that is not registered, or that still describes its
block. -/
theorem Shape.setInfo {page index : ℕ} {c : ChunkInfo}
    (hc : ∀ k, s.Reg k (.pool page index) → c.base = k ∧ c.Wf owner) :
    Shape (s.setChunk (.pool page index) c) owner := by
  refine ⟨h.wf, h.owned, h.nodup, h.pool, ?_, h.table, ?_, h.slots, h.cache, h.cache_inj⟩
  · intro p hp
    obtain ⟨hlength, htail⟩ := h.chungus p hp
    exact ⟨by rw [State.bitmap_setChunk, hlength], by rw [State.bitmap_setChunk]; exact htail⟩
  · intro k v hreg
    by_cases hv : v = .pool page index
    · subst hv
      obtain ⟨hbase, hwf⟩ := hc k hreg
      cases h.refs k _ hreg with
      | pool hpage hindex hbit _ _ =>
          refine .pool hpage hindex ?_ ?_ ?_
          · rw [State.bitmap_setChunk, hbit]
          · rw [State.info_setChunk, if_pos ⟨rfl, rfl⟩, hbase]
          · rw [State.info_setChunk, if_pos ⟨rfl, rfl⟩]
            exact hwf
    · refine (h.refs k v hreg).congr ?_ fun _ hq => hq
      rintro p i rfl hp
      refine ⟨hp, by rw [State.bitmap_setChunk], ?_⟩
      rw [State.info_setChunk, if_neg]
      rintro ⟨rfl, rfl⟩
      exact hv rfl

/-- A Chungus changes its bitmap, but keeps the bits of the registered elements. -/
theorem Shape.setBitmap {page : ℕ} {c : Chungus} (hchunks : c.chunks = (s.memory page).chunks)
    (hwf : page ∈ s.pool → c.Wf)
    (hbits : ∀ k index, s.Reg k (.pool page index) → bit c.bitmap index = true) :
    Shape { s with memory := Function.update s.memory page c } owner := by
  refine ⟨h.wf, h.owned, h.nodup, h.pool, ?_, h.table, ?_, h.slots, h.cache, h.cache_inj⟩
  · intro p hp
    by_cases hpp : p = page
    · subst hpp
      simpa using hwf hp
    · simpa [Function.update_of_ne hpp] using h.chungus p hp
  · intro k v hreg
    refine (h.refs k v hreg).congr ?_ fun _ hq => hq
    rintro p i rfl hp
    by_cases hpp : p = page
    · subst hpp
      have hold : bit (s.memory p).bitmap i = true := by
        cases h.refs k _ hreg with
        | pool _ _ hbit _ _ => exact hbit
      refine ⟨hp, ?_, ?_⟩
      · simp only [Function.update_self]
        rw [hbits k i hreg, hold]
      · simp only [State.info, Function.update_self, hchunks]
    · refine ⟨hp, ?_, ?_⟩
      · simp only [Function.update_of_ne hpp]
      · simp only [State.info, Function.update_of_ne hpp]

/-- A free `ChunkInfo` that no block uses can be marked as used without a change of the
shape. -/
theorem Shape.markUsed {page index : ℕ} (hpage : page ∈ s.pool) (hindex : index < chungusNChunks) :
    Shape { s with memory := Function.update s.memory page (markUsed (s.memory page) index) }
      owner := by
  refine h.setBitmap rfl (fun _ => (h.chungus page hpage).markUsed hindex) ?_
  intro k i hreg
  have hlength : index / 64 < (s.memory page).bitmap.length := by
    rw [(h.chungus page hpage).length_eq]
    simp only [chungusNChunks, chungusBitmapSize, pageSize] at *
    omega
  cases h.refs k _ hreg with
  | pool _ _ hbit _ _ => rw [bit_markUsed hlength, hbit, Bool.true_or]

/-- A `ChunkInfo` that is not registered is marked as free. -/
theorem Shape.markFree {page index : ℕ} (hpage : page ∈ s.pool) (hindex : index < chungusNChunks)
    (hnot : ∀ k, ¬ s.Reg k (.pool page index)) :
    Shape { s with memory := Function.update s.memory page (markFree (s.memory page) index) }
      owner := by
  refine h.setBitmap rfl (fun _ => (h.chungus page hpage).markFree hindex) ?_
  intro k i hreg
  have hlength : index / 64 < (s.memory page).bitmap.length := by
    rw [(h.chungus page hpage).length_eq]
    simp only [chungusNChunks, chungusBitmapSize, pageSize] at *
    omega
  have hne : i ≠ index := by
    rintro rfl
    exact hnot k hreg
  cases h.refs k _ hreg with
  | pool _ _ hbit _ _ => rw [bit_markFree hlength, hbit, Bool.true_and, decide_eq_true hne]

/-! ### The pool -/

/-- In a heap of the shape, a page that is not in use has no owner. -/
theorem Shape.owner_eq_none {q : ℕ} (hq : q ∉ s.pages.owned) : owner q = none := by
  cases ho : owner q with
  | none => rfl
  | some o => exact absurd (h.owned q o ho) hq

/-- A page that was not in use can become a new Chungus, which then owns it. -/
theorem Shape.addChungus {page : ℕ} {ps : Pages} (hfresh : page ∉ s.pages.owned)
    (hps : ps.owned = s.pages.owned ++ pages page 1) (links : Links Node) :
    Shape { s with
      links := links
      memory := Function.update s.memory page { s.memory page with bitmap := [0#64, invalidMask] }
      pages := ps
      pool := page :: s.pool } (Function.update owner page (some .chungus)) := by
  have hnone := h.owner_eq_none hfresh
  have hnot : page ∉ s.pool := fun hp => by simp [h.pool page hp] at hnone
  have hkeep : ∀ q o, owner q = some o →
      Function.update owner page (some .chungus) q = some o := by
    intro q o ho
    have hne : q ≠ page := by
      rintro rfl
      simp [hnone] at ho
    rw [Function.update_of_ne hne, ho]
  refine ⟨h.wf, ?_, List.nodup_cons.mpr ⟨hnot, h.nodup⟩, ?_, ?_, ?_, ?_, h.slots, ?_, h.cache_inj⟩
  · intro q o ho
    rw [hps, List.mem_append]
    by_cases hq : q = page
    · subst hq
      exact .inr (base_mem_pages one_pos)
    · rw [Function.update_of_ne hq] at ho
      exact .inl (h.owned q o ho)
  · intro p hp
    rcases List.mem_cons.mp hp with rfl | hp
    · exact Function.update_self ..
    · exact hkeep p _ (h.pool p hp)
  · intro p hp
    by_cases hpp : p = page
    · subst hpp
      simpa using wf_newChungus _
    · rcases List.mem_cons.mp hp with rfl | hp
      · exact absurd rfl hpp
      · simpa [Function.update_of_ne hpp] using h.chungus p hp
  · intro q hq
    exact hkeep q _ (h.table q hq)
  · intro k v hreg
    refine (h.refs k v hreg).congr ?_ fun q hq => hkeep q _ hq
    rintro p i rfl hp
    have hpp : p ≠ page := fun heq => hnot (heq ▸ hp)
    refine ⟨List.mem_cons_of_mem _ hp, ?_, ?_⟩
    · simp only [Function.update_of_ne hpp]
    · simp only [State.info, Function.update_of_ne hpp]
  · intro i hi
    obtain ⟨hwf, hbig, hnot⟩ := h.cache i hi
    exact ⟨hwf.congr fun q hq => hkeep q _ hq, hbig, hnot⟩

/-- A Chungus without registered elements is given back. -/
theorem Shape.dropChungus {page : ℕ} (hpage : page ∈ s.pool)
    (hnot : ∀ k index, ¬ s.Reg k (.pool page index)) (links : Links Node) :
    Shape { s with
      links := links
      pages := s.pages.freePages page 1
      pool := s.pool.erase page } (Function.update owner page none) := by
  have hchungus := h.pool page hpage
  have hkeep : ∀ q o, owner q = some o → o ≠ .chungus →
      Function.update owner page none q = some o := by
    intro q o ho hne
    have hqp : q ≠ page := by
      rintro rfl
      rw [hchungus] at ho
      exact hne (Option.some.inj ho).symm
    rw [Function.update_of_ne hqp, ho]
  have hother : ∀ p ∈ s.pool.erase page, p ∈ s.pool ∧ p ≠ page := by
    intro p hp
    exact ⟨List.mem_of_mem_erase hp, fun heq => (h.nodup.not_mem_erase) (heq ▸ hp)⟩
  refine ⟨h.wf, ?_, h.nodup.erase page, ?_, ?_, ?_, ?_, h.slots, ?_, h.cache_inj⟩
  · intro q o ho
    have hqp : q ≠ page := by
      rintro rfl
      simp at ho
    rw [Function.update_of_ne hqp] at ho
    simp only [Pages.freePages, List.mem_filter, decide_eq_true_eq]
    refine ⟨h.owned q o ho, fun hmem => ?_⟩
    obtain ⟨k, hk, rfl⟩ := mem_pages.mp hmem
    obtain rfl : k = 0 := by omega
    simp at hqp
  · intro p hp
    obtain ⟨hp, hne⟩ := hother p hp
    rw [Function.update_of_ne hne, h.pool p hp]
  · exact fun p hp => h.chungus p (hother p hp).1
  · exact fun q hq => hkeep q _ (h.table q hq) (by simp)
  · intro k v hreg
    refine (h.refs k v hreg).congr ?_ fun q hq => hkeep q _ hq (by simp)
    rintro p i rfl hp
    have hne : p ≠ page := by
      rintro rfl
      exact hnot k i hreg
    exact ⟨(List.mem_erase_of_ne hne).mpr hp, rfl, rfl⟩
  · intro i hi
    obtain ⟨hwf, hbig, hnot⟩ := h.cache i hi
    exact ⟨hwf.congr fun q hq => hkeep q _ hq (by simp), hbig, hnot⟩

/-! ### The pages of blocks -/

/-- The pages of a new block, which were not in use, get this block as their owner and the
shape stays. -/
theorem Shape.claimBlock {base n : ℕ} {ps : Pages} (hfresh : ∀ q ∈ pages base n, q ∉ s.pages.owned)
    (hps : ps.owned = s.pages.owned ++ pages base n) :
    ∃ owner', Shape { s with pages := ps } owner' ∧
      (∀ q ∈ pages base n, owner' q = some (.block base)) ∧
      ∀ q o, owner q = some o → owner' q = some o := by
  have hkeep : ∀ q o, owner q = some o →
      (if q ∈ pages base n then some (.block base) else owner q) = some o := by
    intro q o ho
    rw [if_neg, ho]
    exact fun hq => hfresh q hq (h.owned q o ho)
  refine ⟨fun q => if q ∈ pages base n then some (.block base) else owner q,
    ⟨h.wf, ?_, h.nodup, ?_, h.chungus, ?_, ?_, h.slots, ?_, h.cache_inj⟩, ?_, hkeep⟩
  · intro q o ho
    rw [hps, List.mem_append]
    by_cases hq : q ∈ pages base n
    · exact .inr hq
    · rw [if_neg hq] at ho
      exact .inl (h.owned q o ho)
  · exact fun p hp => hkeep p _ (h.pool p hp)
  · exact fun q hq => hkeep q _ (h.table q hq)
  · exact fun k v hreg => (h.refs k v hreg).congr (fun _ _ _ hp => ⟨hp, rfl, rfl⟩)
      fun q hq => hkeep q _ hq
  · intro i hi
    obtain ⟨hwf, hbig, hnot⟩ := h.cache i hi
    exact ⟨hwf.congr fun q hq => hkeep q _ hq, hbig, hnot⟩
  · exact fun q hq => if_pos hq

/-- The pages of a block that is neither registered nor cached are given back. -/
theorem Shape.freeBlock {base n : ℕ} (hholds : ∀ q ∈ pages base n, owner q = some (.block base))
    (hnot : ∀ v, ¬ s.Reg base v) (hcache : ∀ i, (s.slot i).base ≠ 0 → (s.slot i).base ≠ base) :
    Shape { s with pages := s.pages.freePages base n }
      fun q => if q ∈ pages base n then none else owner q := by
  have hkeep : ∀ q o, owner q = some o → o ≠ .block base →
      (if q ∈ pages base n then none else owner q) = some o := by
    intro q o ho hne
    rw [if_neg, ho]
    intro hq
    rw [hholds q hq] at ho
    exact hne (Option.some.inj ho).symm
  refine ⟨h.wf, ?_, h.nodup, ?_, h.chungus, ?_, ?_, h.slots, ?_, h.cache_inj⟩
  · intro q o ho
    by_cases hq : q ∈ pages base n
    · simp [hq] at ho
    · rw [if_neg hq] at ho
      simp only [Pages.freePages, List.mem_filter, decide_eq_true_eq]
      exact ⟨h.owned q o ho, hq⟩
  · exact fun p hp => hkeep p _ (h.pool p hp) (by simp)
  · exact fun q hq => hkeep q _ (h.table q hq) (by simp)
  · intro k v hreg
    refine (h.refs k v hreg).congr (fun _ _ _ hp => ⟨hp, rfl, rfl⟩) fun q hq => hkeep q _ hq ?_
    intro heq
    cases heq
    exact hnot v hreg
  · intro i hi
    obtain ⟨hwf, hbig, hnot⟩ := h.cache i hi
    refine ⟨hwf.congr fun q hq => hkeep q _ hq ?_, hbig, hnot⟩
    intro heq
    exact hcache i hi (Owner.block.inj heq)

/-! ### The hash map -/

/-- A block whose pages are owned by it can enter the hash map, which may grow on the way. -/
theorem Shape.insert {map : Hashmap ChunkRef} {ps : Pages} {k : ℕ} {v : ChunkRef} (hmap : map.Wf)
    (hcontains : ∀ k' v', k' ≠ 0 → (Contains map.entries k' v' ↔
      (k' = k ∧ v' = v) ∨ Contains s.allocMap.entries k' v'))
    (hpages : map.base = s.allocMap.base ∧ mapPages map = mapPages s.allocMap ∧ ps = s.pages ∨
      Regrown s.allocMap map s.pages ps)
    (href : RefWf s owner k v) (hcache : ∀ i, (s.slot i).base ≠ 0 → (s.slot i).base ≠ k) :
    ∃ owner', Shape { s with allocMap := map, pages := ps } owner' ∧
      ∀ q o, o ≠ .table → owner q = some o → owner' q = some o := by
  -- the shape but for the pages of the array
  have hrest : ∀ owner' : ℕ → Option Owner,
      (∀ q o, owner' q = some o → q ∈ ps.owned) →
      (∀ q ∈ pages map.base (mapPages map), owner' q = some .table) →
      (∀ q o, o ≠ .table → owner q = some o → owner' q = some o) →
      Shape { s with allocMap := map, pages := ps } owner' := by
    intro owner' howned htable hkeep
    have hreg : ∀ k' v', State.Reg { s with allocMap := map, pages := ps } k' v' →
        (k' = k ∧ v' = v) ∨ s.Reg k' v' := by
      rintro k' v' ⟨hk', hmem⟩
      exact ((hcontains k' v' hk').mp hmem).imp_right fun hold => ⟨hk', hold⟩
    refine ⟨hmap, howned, h.nodup, ?_, h.chungus, htable, ?_, h.slots, ?_, h.cache_inj⟩
    · exact fun p hp => hkeep p _ (by simp) (h.pool p hp)
    · intro k' v' hreg'
      have hold : RefWf s owner k' v' := by
        rcases hreg k' v' hreg' with ⟨rfl, rfl⟩ | hreg'
        · exact href
        · exact h.refs k' v' hreg'
      exact hold.congr (fun _ _ _ hp => ⟨hp, rfl, rfl⟩) fun q hq => hkeep q _ (by simp) hq
    · intro i hi
      obtain ⟨hwf, hbig, hnot⟩ := h.cache i hi
      refine ⟨hwf.congr fun q hq => hkeep q _ (by simp) hq, hbig, fun v' hreg' => ?_⟩
      rcases hreg _ v' hreg' with ⟨heq, -⟩ | hreg'
      · exact hcache i hi heq
      · exact hnot v' hreg'
  obtain ⟨owner', howned, htable, hkeep⟩ := exists_owner h.owned h.table hpages
  exact ⟨owner', hrest owner' howned htable hkeep, hkeep⟩

/-- A deletion from the hash map, which only takes registered blocks away, keeps the shape. -/
theorem Shape.delete {map : Hashmap ChunkRef} (hmap : map.Wf) (hbase : map.base = s.allocMap.base)
    (htotal : map.totalEntries = s.allocMap.totalEntries)
    (hcontains : ∀ k v, k ≠ 0 → Contains map.entries k v → Contains s.allocMap.entries k v) :
    Shape { s with allocMap := map } owner := by
  have hreg : ∀ k v, State.Reg { s with allocMap := map } k v → s.Reg k v :=
    fun k v hk => ⟨hk.1, hcontains k v hk.1 hk.2⟩
  refine ⟨hmap, h.owned, h.nodup, h.pool, h.chungus, ?_, ?_, h.slots, ?_, h.cache_inj⟩
  · have hpages : mapPages map = mapPages s.allocMap := by rw [mapPages, mapPages, htotal]
    simp only [hbase, hpages]
    exact h.table
  · exact fun k v hk => (h.refs k v (hreg k v hk)).congr (fun _ _ _ hp => ⟨hp, rfl, rfl⟩)
      fun _ hq => hq
  · intro i hi
    obtain ⟨hwf, hbig, hnot⟩ := h.cache i hi
    exact ⟨hwf, hbig, fun v hv => hnot v (hreg _ v hv)⟩

/-! ### The cache -/

omit h in
/-- After a store into a slot of the cache this slot has the new value, and all others their
old one. -/
theorem State.slot_setChunk (s : State) {i : ℕ} (hi : i < s.freeCache.length) (c : ChunkInfo)
    (j : ℕ) : (s.setChunk (.cached i) c).slot j = if j = i then c else s.slot j := by
  simp only [State.slot, State.setChunk, List.getD_eq_getElem?_getD]
  by_cases hij : j = i
  · subst hij
    simp [hi]
  · simp [List.getElem?_set_ne (Ne.symm hij), hij]

/-- A slot is emptied, or it takes over a block that is not registered nor in another slot. -/
theorem Shape.setSlot {i : ℕ} (hi : i < nBigblocksCached) {c : ChunkInfo}
    (hc : c.base ≠ 0 → c.Wf owner ∧ bigbucketThreshold ≤ c.size ∧ (∀ v, ¬ s.Reg c.base v) ∧
      ∀ j, j ≠ i → (s.slot j).base ≠ c.base) :
    Shape (s.setChunk (.cached i) c) owner := by
  have hlen : i < s.freeCache.length := by rwa [h.slots]
  refine ⟨h.wf, h.owned, h.nodup, h.pool, h.chungus, h.table, ?_, ?_, ?_, ?_⟩
  · exact fun k v hk => (h.refs k v hk).congr (fun _ _ _ hp => ⟨hp, rfl, rfl⟩) fun _ hq => hq
  · simp [State.setChunk, h.slots]
  · intro j hj
    rw [State.slot_setChunk s hlen] at hj ⊢
    split at hj
    · rename_i hji
      rw [if_pos hji]
      obtain ⟨hwf, hbig, hnot, -⟩ := hc hj
      exact ⟨hwf, hbig, hnot⟩
    · rename_i hji
      rw [if_neg hji]
      exact h.cache j hj
  · intro j j' hj heq
    rw [State.slot_setChunk s hlen] at hj heq
    rw [State.slot_setChunk s hlen] at heq
    by_cases hji : j = i
    · by_cases hji' : j' = i
      · rw [hji, hji']
      · rw [if_pos hji, if_neg hji'] at heq
        rw [if_pos hji] at hj
        exact absurd heq.symm ((hc hj).2.2.2 j' hji')
    · rw [if_neg hji] at hj heq
      by_cases hji' : j' = i
      · rw [if_pos hji'] at heq
        exact absurd heq ((hc (heq ▸ hj)).2.2.2 j hji)
      · rw [if_neg hji'] at heq
        exact h.cache_inj j j' hj heq

end

end MugOS.Heap
