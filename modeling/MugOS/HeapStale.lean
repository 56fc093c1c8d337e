import MugOS.HeapMoves

/-!
# A Stale Entry

`Heap_realloc` frees the old block through an entry of the hash map that it found before it
allocated the new one. If the hash map grows in between, the entry lies in pages that were given
back. This happens for the first time after 193 chunks, when the hash map has a single page.

## Main results

* `realloc_stale`: a reallocation follows a pointer to a page that was given back.
* `malloc_granted`: an allocation by a source that has pages returns a block.
* `Plenty.step`: one more page is allocated.
* `realloc_follows_freed`: 193 pages are allocated, and one of them is reallocated.
-/

namespace MugOS.Heap

open WordBitmap Hashmap LinkedList Links Probe

/-! ### The old table -/

/-- **A stale entry**: if the hash map grew for the new block, and the page of the entry was given
back, the entry is read all the same. -/
theorem realloc_stale {src : PageSource} {s s' : State} (mem : Bytes) {ptr newSize entry res : ℕ}
    {c : ChunkInfo} (hptr : ptr ≠ 0) (hfind : Hashmap.find s.allocMap ptr = .ok (some entry))
    (hchunk : s.chunk (entryAt s.allocMap.entries entry).value = .ok c) (hsize : c.size < newSize)
    (hok : malloc src s newSize = .ok (res, s')) (hres : res ≠ 0)
    (hmoved : s'.allocMap.base ≠ s.allocMap.base)
    (hfreed : getPage (s.allocMap.base + entry * entrySize) ∉ s'.pages.owned) :
    realloc src s mem ptr newSize = .error .wild := by
  have hstale : staleEntry s.allocMap s' entry = .error .wild := by
    rw [staleEntry, if_neg hmoved, if_neg hfreed]
  unfold realloc
  simp only [if_neg hptr, if_neg (show newSize ≠ 0 by omega), hfind, ok_bind, hchunk,
    if_neg (show ¬ c.size ≥ newSize by omega)]
  rw [moveBlock_eq src s mem hsize, hok, ok_bind]
  simp only [if_neg hres, freeOld, freeOldSmall, freeOldLarge, hstale]
  split <;> rfl

/-- The entries of a hash map with one page lie in that page. -/
theorem getPage_entry {base entry : ℕ} (hbase : base % pageSize = 0)
    (hentry : entry < defaultSize) :
    getPage (base + entry * entrySize) = base := by
  unfold getPage
  simp only [defaultSize, entrySize, pageSize] at *
  omega

/-! ### Allocations that get pages -/

section

variable {src : PageSource} (hsrc : src.Sound) {s : State} {owner : ℕ → Option Owner}
  {B : ℕ → List (ℕ × ℕ)} {live : List ℕ}

include hsrc in
/-- A `ChunkInfo` is found if there is a page for a new Chungus. -/
theorem getFreeChunk_found (h : Consistent s owner B live) (hc : Counted s) {addr : ℕ} {ps : Pages}
    (halloc : s.pages.allocatePages src 1 false = (addr, ps)) (hne : addr ≠ 0) :
    ∃ page index s', getFreeChunk src s = .ok (some (page, index), s') ∧
      s'.allocMap = s.allocMap ∧ (s'.pages = s.pages ∨ s'.pages = ps) := by
  obtain ⟨r, s', hok, -⟩ := getFreeChunk_total hsrc h hc
  have hcopy := hok
  unfold getFreeChunk at hok
  obtain ⟨found, -, hok⟩ := bind_eq_ok.mp hok
  cases found with
  | some found =>
      obtain ⟨page, index⟩ := found
      simp only at hok
      split at hok
      · cases hok
      split at hok
      · obtain ⟨links, -, hok⟩ := bind_eq_ok.mp hok
        obtain ⟨rfl, rfl⟩ := Prod.mk.inj (Except.ok.inj hok)
        exact ⟨page, index, _, hcopy, rfl, .inl rfl⟩
      · obtain ⟨rfl, rfl⟩ := Prod.mk.inj (Except.ok.inj hok)
        exact ⟨page, index, _, hcopy, rfl, .inl rfl⟩
  | none =>
      simp only [allocateChungus, halloc, if_neg hne] at hok
      obtain ⟨links, -, hok⟩ := bind_eq_ok.mp hok
      obtain ⟨found, -, hok⟩ := bind_eq_ok.mp hok
      cases found with
      | none => cases hok
      | some found =>
          obtain ⟨page, index⟩ := found
          simp only at hok
          split at hok
          · cases hok
          · obtain ⟨rfl, rfl⟩ := Prod.mk.inj (Except.ok.inj hok)
            exact ⟨page, index, _, hcopy, rfl, .inr rfl⟩

/-- **An allocation of pages that gets them** comes to the hash map, and if the block enters it, it
is returned. -/
theorem malloc_of_insert {s₁ : State} {page index base size : ℕ} {ps ps' : Pages}
    {map : Hashmap ChunkRef} (hsize : bigbucketThreshold ≤ size)
    (hslot : fittingSlot s.freeCache size = none)
    (hfree : getFreeChunk src s = .ok (some (page, index), s₁)) (hmap : s₁.allocMap = s.allocMap)
    (halloc : s₁.pages.allocatePages src (roundToPage size) false = (base, ps)) (hne : base ≠ 0)
    (hins : Hashmap.insert src s.allocMap ps base (.pool page index) = .ok (true, map, ps')) :
    ∃ s', malloc src s size = .ok (base, s') ∧ s'.allocMap = map ∧ s'.pages = ps' := by
  obtain ⟨s₂, hchunk, hmap₂, hpages₂, hbase₂⟩ : ∃ s₂,
      allocateChunk src s₁ page index size = (true, s₂) ∧ s₂.allocMap = s.allocMap ∧
        s₂.pages = ps ∧ ((s₂.memory page).chunks index).base = base := by
    unfold allocateChunk
    simp only [halloc, if_neg hne]
    refine ⟨_, rfl, hmap, rfl, ?_⟩
    simp only [State.setChunk, Function.update_self, markUsed]
    split <;> rfl
  refine ⟨{ s₂ with allocMap := map, pages := ps' }, ?_, rfl, rfl⟩
  unfold malloc allocateLargebucket
  rw [if_neg (show ¬ size < bigbucketThreshold by omega)]
  simp only [hslot, hfree, ok_bind, hchunk, hmap₂, hpages₂, hbase₂, hins]
  rfl

end

/-! ### A source that has pages -/

/-- The pages in use are those that a source answered so far that puts every answer above the
previous ones. -/
def Below (p : Pages) : Prop := ∀ q ∈ p.owned, q < 0x1000000 * (p.requests + 1)

/-- The source that puts every answer above the previous ones only answers with unused
pages. -/
theorem freshSource_sound : freshSource.Sound := PageSource.checked_sound _

/-- The source answers a request with the pages at its next address, as they are above all
pages in use. -/
theorem Below.granted {p : Pages} (h : Below p) {n : ℕ} (hn : n ≤ 4096)
    (hrequests : p.requests < 20000) (clear : Bool) :
    freshSource p.requests p.owned n clear = 0x1000000 * (p.requests + 1) := by
  unfold freshSource PageSource.checked
  rw [if_pos]
  change Fresh p.owned (0x1000000 * (p.requests + 1)) n
  refine ⟨by omega, ?_, ?_, ?_⟩
  · simp only [pageSize]
    omega
  · simp only [pageSize]
    omega
  · intro q hq howned
    obtain ⟨k, -, rfl⟩ := mem_pages.mp hq
    have := h _ howned
    omega

/-- A request is granted with unused pages, after which the pages in use are still those below
the next answer. -/
theorem Below.allocatePages {p : Pages} (h : Below p) {n : ℕ} (hpos : 0 < n) (hn : n ≤ 4096)
    (hrequests : p.requests < 20000) (clear : Bool) :
    ∃ addr ps, p.allocatePages freshSource n clear = (addr, ps) ∧ Fresh p.owned addr n ∧ Below ps ∧
      ps.requests = p.requests + 1 ∧ ∀ q ∈ p.owned, q ∈ ps.owned := by
  have hgranted := h.granted hn hrequests clear
  have hne : 0x1000000 * (p.requests + 1) ≠ 0 := by omega
  have hfresh : Fresh p.owned (0x1000000 * (p.requests + 1)) n := by
    have hsound := freshSource_sound p.requests p.owned n clear
    rw [hgranted] at hsound
    exact hsound.resolve_left hne
  refine ⟨0x1000000 * (p.requests + 1),
    ⟨p.owned ++ pages (0x1000000 * (p.requests + 1)) n, p.requests + 1, p.refused⟩, ?_, hfresh, ?_,
    rfl, fun q hq => List.mem_append_left _ hq⟩
  · rw [Pages.allocatePages, if_neg hpos.ne']
    simp only [hgranted, if_neg hne]
  · intro q hq
    change q < 0x1000000 * (p.requests + 1 + 1)
    rcases List.mem_append.mp hq with hq | hq
    · have := h q hq
      omega
    · obtain ⟨k, hk, rfl⟩ := mem_pages.mp hq
      simp only [pageSize]
      omega

/-- **An allocation of pages comes to the hash map**: the block is inserted, and if that is done,
it is returned. -/
theorem malloc_granted {s : State} {owner : ℕ → Option Owner} {B : ℕ → List (ℕ × ℕ)}
    {live : List ℕ} (h : Consistent s owner B live) (hc : Counted s) (hbelow : Below s.pages)
    (hrequests : s.pages.requests < 10000) {size : ℕ} (hsize : bigbucketThreshold ≤ size)
    (hmax : roundToPage size ≤ 4096) (hslot : fittingSlot s.freeCache size = none) :
    ∃ base v ps, Fresh s.pages.owned base (roundToPage size) ∧ Below ps ∧
      ps.requests ≤ s.pages.requests + 2 ∧
      (∀ q ∈ s.pages.owned, q ∈ ps.owned) ∧
      ∀ map ps', Hashmap.insert freshSource s.allocMap ps base v = .ok (true, map, ps') →
        ∃ s', malloc freshSource s size = .ok (base, s') ∧ s'.allocMap = map ∧ s'.pages = ps' := by
  obtain ⟨addr, ps₀, halloc₀, hfresh₀, hbelow₀, hrequests₀, howned₀⟩ :=
    hbelow.allocatePages one_pos (by norm_num) (by omega) false
  obtain ⟨page, index, s₁, hfree, hmap, hpages⟩ :=
    getFreeChunk_found freshSource_sound h hc halloc₀ hfresh₀.ne_zero
  obtain ⟨hbelow₁, hrequests₁, howned₁⟩ : Below s₁.pages ∧
      s₁.pages.requests ≤ s.pages.requests + 1 ∧ ∀ q ∈ s.pages.owned, q ∈ s₁.pages.owned := by
    rcases hpages with hpages | hpages
    · rw [hpages]
      exact ⟨hbelow, Nat.le_succ _, fun _ hq => hq⟩
    · rw [hpages]
      exact ⟨hbelow₀, hrequests₀.le, howned₀⟩
  have hpos : 0 < roundToPage size := roundToPage_pos (lt_of_lt_of_le (by decide) hsize)
  obtain ⟨base, ps, halloc, hfresh, hbelow₂, hrequests₂, howned₂⟩ :=
    hbelow₁.allocatePages hpos hmax (by omega) false
  refine ⟨base, .pool page index, ps, ⟨hfresh.ne_zero, hfresh.aligned, hfresh.fits, ?_⟩, hbelow₂,
    by omega, fun q hq => howned₂ q (howned₁ q hq),
    fun map ps' hins => malloc_of_insert hsize hslot hfree hmap halloc hfresh.ne_zero hins⟩
  exact fun q hq howned => hfresh.unused q hq (howned₁ q howned)

/-! ### A hash map that fills up -/

/-- A heap from which `k` blocks of a page were allocated, all of which are live: each has an entry
in the hash map, which has one page. -/
structure Plenty (k : ℕ) (m : Session) : Prop extends ReallocInv m where
  noCache : ∀ slot, (m.heap.slot slot).base = 0
  below : Below m.heap.pages
  requests_le : m.heap.pages.requests ≤ 3 * k
  aligned : m.heap.allocMap.base % pageSize = 0
  total_eq : m.heap.allocMap.totalEntries = defaultSize
  count_eq : m.heap.allocMap.freeEntries + k = defaultSize
  probed : Probed m.heap.allocMap.totalEntries (home m.heap.allocMap.totalEntries)
    (Hashmap.slots m.heap.allocMap.entries)
  same : LiveSizes m.heap m.live fun size info => info = some size
  live : ∃ ptr, (ptr, pageSize) ∈ m.live

/-- A request for pages is not served from an empty cache. -/
theorem served_pages {s : State} (hslots : ∀ slot, (s.slot slot).base = 0) {size : ℕ}
    (hsize : bigbucketThreshold ≤ size) : Served s size :=
  ⟨.inr hsize, fun hlt => absurd hlt (by omega), fun _ => fittingSlot_eq_none hslots size⟩

/-- The block enters the hash map if there are pages for it. -/
theorem insert_granted {map : Hashmap ChunkRef} (hwf : map.Wf) {ps : Pages} (hbelow : Below ps)
    (hrequests : ps.requests < 20000) (hpages : newPages map ≤ 4096)
    (hmax : map.totalEntries ≤ maxSize) {base : ℕ} (hpage : getPage base = base) (hne : base ≠ 0)
    (hlt : base < 2 ^ 64) (hnew : ∀ v, ¬ Contains map.entries base v) (v : ChunkRef) :
    ∃ map' ps', Hashmap.insert freshSource map ps base v = .ok (true, map', ps') ∧
      (Probed map.totalEntries (home map.totalEntries) (slots map.entries) →
        Probed map'.totalEntries (home map'.totalEntries) (slots map'.entries)) := by
  rcases insert_cases freshSource_sound hwf ps (by rw [hpage]; exact hne) hlt
      (by rw [hpage]; exact hnew) v with
    ⟨ps', hins, -⟩ | ⟨map', ps', hins, -, -, hprobed, -⟩
  · exfalso
    rcases insert_roomy freshSource (hwf.roomy ps) (base, v) with
      ⟨_, -, -, hrefused⟩ | ⟨_, hins', -⟩ | ⟨_, _, hins', -⟩
    · have hzero := (hrefused hne hmax).2
      rw [hbelow.granted hpages hrequests] at hzero
      omega
    · cases hins.symm.trans hins'
    · cases hins.symm.trans hins'
  · exact ⟨map', ps', hins, hprobed⟩

/-- **An allocation from plenty of pages** returns a block, which entered the hash map. -/
theorem malloc_plenty {m : Session} (h : ReallocInv m)
    (hslots : ∀ slot, (m.heap.slot slot).base = 0)
    (hbelow : Below m.heap.pages) (hrequests : m.heap.pages.requests < 10000)
    (hpages : newPages m.heap.allocMap ≤ 4096) (htotal : m.heap.allocMap.totalEntries ≤ maxSize)
    {size : ℕ} (hsize : bigbucketThreshold ≤ size) (hmax : roundToPage size ≤ 4096) :
    ∃ res s' v ps, malloc freshSource m.heap size = .ok (res, s') ∧ res ≠ 0 ∧
      ReallocInv ⟨s', (res, size) :: m.live⟩ ∧ (∀ slot, (s'.slot slot).base = 0) ∧
      (LiveSizes m.heap m.live (fun size info => info = some size) →
        LiveSizes s' ((res, size) :: m.live) fun size info => info = some size) ∧
      (Probed m.heap.allocMap.totalEntries (home m.heap.allocMap.totalEntries)
          (slots m.heap.allocMap.entries) →
        Probed s'.allocMap.totalEntries (home s'.allocMap.totalEntries)
          (slots s'.allocMap.entries)) ∧
      Hashmap.insert freshSource m.heap.allocMap ps res v = .ok (true, s'.allocMap, s'.pages) ∧
      Below ps ∧ ps.requests ≤ m.heap.pages.requests + 2 ∧
      ∀ q ∈ m.heap.pages.owned, q ∈ ps.owned := by
  obtain ⟨owner, B, hc, -⟩ := h.consistent
  have hserved := served_pages hslots hsize
  obtain ⟨base, v, ps, hfresh, hbelow', hrequests', howned, hmalloc⟩ :=
    malloc_granted hc h.counted hbelow hrequests hsize hmax (hserved.2.2 hsize)
  have hpos : 0 < roundToPage size := roundToPage_pos (lt_of_lt_of_le (by decide) hsize)
  obtain ⟨hpage, hlt, hnew⟩ := hc.shape.fresh_base hpos hfresh
  obtain ⟨map, ps', hins, hprobed⟩ := insert_granted hc.shape.wf hbelow' (by omega) hpages htotal
    hpage hfresh.ne_zero hlt (fun v hv => hnew v ⟨hfresh.ne_zero, hv⟩) v
  obtain ⟨s', hok, rfl, rfl⟩ := hmalloc map ps' hins
  obtain ⟨res, s₁, hok₁, -, -, -, hblock⟩ := h.malloc freshSource_sound hserved
  obtain ⟨rfl, rfl⟩ := Prod.mk.inj (Except.ok.inj (hok.symm.trans hok₁))
  obtain ⟨owner', B', hg, hcache, hout⟩ := malloc_keeps freshSource_sound hc hserved.2.2 hok
  refine ⟨base, s', v, ps, hok, hfresh.ne_zero, hblock hfresh.ne_zero, ?_, ?_, hprobed, hins,
    hbelow', hrequests', howned⟩
  · intro slot
    rw [State.slot, hcache]
    exact hslots slot
  · intro hsame
    cases hout with
    | null => exact absurd rfl hfresh.ne_zero
    | block page index _ hc' hreg _ hlarge _ _ =>
        refine (hsame.grows hc.live hc'.shape hg).cons hc'.shape hreg ?_
        rw [State.refSize, hlarge hsize]

/-- **One more page** can be allocated from a heap with `k` live pages, as long as the hash map
does not grow. -/
theorem Plenty.step {k : ℕ} {m : Session} (h : Plenty k m) (hk : k ≤ 192) :
    ∃ m', MoveStep freshSource m (.call (.malloc pageSize)) m' ∧ Plenty (k + 1) m' := by
  have hdefault : defaultSize = 256 := by decide
  have htotal := h.total_eq
  have hcount := h.count_eq
  have hrequests := h.requests_le
  rw [hdefault] at htotal hcount
  obtain ⟨owner, B, hc, -⟩ := h.consistent
  obtain ⟨res, s', v, ps, hok, hres, hinv, hslots, hsame, hprobed, hins, hbelow, hrequests', -⟩ :=
    malloc_plenty h.toReallocInv h.noCache h.below (by omega)
      (by rw [newPages, newTotal, htotal]; decide) (by rw [htotal]; decide) (le_refl pageSize)
      (by decide)
  have hneeds : ¬ NeedsGrowth m.heap.allocMap := by
    rintro (hfull | hzero)
    · rw [Hashmap.tooFull, decide_eq_true_eq] at hfull
      omega
    · omega
  obtain ⟨hpages, hbase, htotal', hcount'⟩ : s'.pages = ps ∧
      s'.allocMap.base = m.heap.allocMap.base ∧
      s'.allocMap.totalEntries = m.heap.allocMap.totalEntries ∧
      s'.allocMap.freeEntries = m.heap.allocMap.freeEntries - 1 := by
    rcases insert_roomy freshSource (hc.shape.wf.roomy ps) (res, v) with
      ⟨_, hins', -⟩ | ⟨map', hins', -, -, hbase, htotal', hcount'⟩ | ⟨_, _, -, -, hgrows, -⟩
    · cases hins.symm.trans hins'
    · obtain ⟨-, heq⟩ := Prod.mk.inj (Except.ok.inj (hins.symm.trans hins'))
      obtain ⟨rfl, hps⟩ := Prod.mk.inj heq
      exact ⟨hps, hbase, htotal', hcount'⟩
    · exact absurd hgrows hneeds
  refine ⟨⟨s', (res, pageSize) :: m.live⟩, .call (.malloc hok hres),
    ⟨hinv, hslots, ?_, ?_, ?_, ?_, ?_,
    hprobed h.probed, hsame h.same, res, List.mem_cons_self⟩⟩
  · exact hpages ▸ hbelow
  · simp only [hpages]
    omega
  · exact hbase ▸ h.aligned
  · exact htotal'.trans h.total_eq
  · simp only [hcount', hdefault]
    omega

/-- **One page too many**: when 193 blocks are live, one of them is to be moved, and the hash map
grows for the new block. -/
theorem Plenty.stale {m : Session} (h : Plenty 193 m) {ptr : ℕ} (hlive : (ptr, pageSize) ∈ m.live)
    (mem : Bytes) : realloc freshSource m.heap mem ptr (2 * pageSize) = .error .wild := by
  have hdefault : defaultSize = 256 := by decide
  have htotal := h.total_eq
  have hcount := h.count_eq
  have hrequests := h.requests_le
  rw [hdefault] at htotal hcount
  obtain ⟨owner, B, hc, -⟩ := h.consistent
  obtain ⟨res, s', v, ps, hok, hres, -, -, -, -, hins, -, -, howned⟩ :=
    malloc_plenty h.toReallocInv h.noCache h.below (by omega)
      (by rw [newPages, newTotal, htotal]; decide) (by rw [htotal]; decide)
      (show bigbucketThreshold ≤ 2 * pageSize by decide) (by decide)
  have hneeds : NeedsGrowth m.heap.allocMap := by
    refine .inl ?_
    rw [Hashmap.tooFull, decide_eq_true_eq]
    omega
  obtain ⟨hfresh, hpages⟩ := insert_moves freshSource_sound (hc.shape.wf.roomy ps) hneeds hins
  have hpos : 0 < mapPages m.heap.allocMap := by
    rw [mapPages, htotal]
    decide
  have hbase : m.heap.allocMap.base ∈ pages m.heap.allocMap.base (mapPages m.heap.allocMap) :=
    base_mem_pages hpos
  -- the table is in use before the call, and given back by the growth
  have hused : m.heap.allocMap.base ∈ ps.owned :=
    howned _ (hc.shape.owned _ _ (hc.shape.table _ hbase))
  have hfreed : m.heap.allocMap.base ∈ freedPages m.heap.allocMap :=
    (freedPages_all_iff hc.shape.wf.sized).mpr (by rw [htotal, hdefault]; omega) _ hbase
  obtain ⟨page, index, hreg, -⟩ : ∃ page index,
      m.heap.Reg (getPage ptr) (.pool page index) ∧ pageSize ≤ (m.heap.info page index).size :=
    h.toReallocInv.info (b := (ptr, pageSize)) hlive
  have hsize : (m.heap.info page index).size = pageSize :=
    Option.some.inj (h.same _ hlive _ hreg)
  obtain ⟨hne, entry, hentry, hvalue⟩ := hreg
  rw [hc.shape.wf.length_eq] at hentry
  have hfind : Hashmap.find m.heap.allocMap ptr = .ok (some entry) :=
    find_hit hc.shape.wf h.probed hentry (by rw [keyAt, hvalue]) hne
  refine realloc_stale mem (h.toReallocInv.ne_zero hlive) hfind (c := m.heap.info page index)
    (by rw [hvalue]; rfl) (by rw [hsize]; decide) hok hres ?_ ?_
  · intro heq
    exact hfresh (heq ▸ hused)
  · rw [getPage_entry h.aligned (by rw [hdefault, ← htotal]; exact hentry), hpages]
    simp [hfreed]

/-- What is observed of a heap with one block: its table, its counters and its requests. -/
def firstPage (m : Session) : Bool :=
  decide (m.heap.allocMap.totalEntries = 256) && decide (m.heap.allocMap.freeEntries = 255) &&
    decide (m.heap.allocMap.base % pageSize = 0) && decide (m.heap.pages.requests ≤ 3) &&
    m.heap.pages.owned.all fun q => decide (q < 0x1000000 * (m.heap.pages.requests + 1))

/-- The first page is allocated from the heap at the start, which then has one live page. -/
theorem plenty_first : ∃ m, MoveStep freshSource (.start blankMemory) (.call (.malloc pageSize)) m ∧
    Plenty 1 m := by
  have hslots : ∀ slot, ((Session.start blankMemory).heap.slot slot).base = 0 :=
    (InfoInv.start blankMemory).noCache
  obtain ⟨res, s', v, ps, hok, hres, hinv, hslots', hsame, hprobed, -⟩ :=
    malloc_plenty (ReallocInv.start blankMemory) hslots
      (by simp [Below, Session.start, State.start, Pages.none]) (by decide) (by decide)
      (by decide) (le_refl pageSize) (by decide)
  have hrun : (Session.exec freshSource (.start blankMemory) (.malloc pageSize)).map firstPage =
      some true := by decide +kernel
  obtain ⟨m, hm, hfirst⟩ := Option.map_eq_some_iff.mp hrun
  obtain rfl : m = ⟨s', [(res, pageSize)]⟩ := by
    cases step_of_exec hm with
    | null hnull =>
        obtain ⟨hzero, -⟩ := Prod.mk.inj (Except.ok.inj (hok.symm.trans hnull))
        exact absurd hzero hres
    | malloc hblock _ =>
        obtain ⟨rfl, rfl⟩ := Prod.mk.inj (Except.ok.inj (hok.symm.trans hblock))
        rfl
  simp only [firstPage, Bool.and_eq_true, decide_eq_true_eq, List.all_eq_true] at hfirst
  obtain ⟨⟨⟨⟨htotal, hcount⟩, haligned⟩, hrequests⟩, hbelow⟩ := hfirst
  have hdefault : defaultSize = 256 := by decide
  refine ⟨_, .call (.malloc hok hres), hinv, hslots', hbelow, hrequests, haligned, ?_, ?_,
    hprobed (probed_replicate 0), hsame (by simp [LiveSizes, Session.start]), res, by simp⟩
  · rw [hdefault]
    exact htotal
  · simp only [hcount, hdefault]

/-- As many pages as the hash map has room for are allocated. -/
theorem exists_plenty {k : ℕ} (hk : k ≤ 192) :
    ∃ m, Runs (MoveStep freshSource) (.start blankMemory)
      (List.replicate (k + 1) (.call (.malloc pageSize))) m ∧ Plenty (k + 1) m := by
  induction k with
  | zero =>
      obtain ⟨m, hstep, hm⟩ := plenty_first
      exact ⟨m, .snoc .nil hstep, hm⟩
  | succ k ih =>
      obtain ⟨m, hruns, hm⟩ := ih (by omega)
      obtain ⟨m', hstep, hm'⟩ := hm.step hk
      refine ⟨m', ?_, hm'⟩
      rw [List.replicate_succ']
      exact hruns.snoc hstep

/-- **A reallocation reads a page that was given back**: 193 pages are allocated, and then a live
one is to be moved to two pages. -/
theorem realloc_follows_freed : ∃ m ptr,
    Runs (MoveStep freshSource) (.start blankMemory)
      (List.replicate 193 (.call (.malloc pageSize))) m ∧ (ptr, pageSize) ∈ m.live ∧
      ∀ mem, realloc freshSource m.heap mem ptr (2 * pageSize) = .error .wild ∧
        ¬ ∃ res s' mem', realloc freshSource m.heap mem ptr (2 * pageSize) =
          .ok (res, s', mem') ∧ Moved m s' mem mem' ptr pageSize (2 * pageSize) res := by
  obtain ⟨m, hruns, hm⟩ := exists_plenty (le_refl 192)
  obtain ⟨ptr, hlive⟩ := hm.live
  refine ⟨m, ptr, hruns, hlive, fun mem => ⟨hm.stale hlive mem, ?_⟩⟩
  rintro ⟨res, s', mem', hok, -⟩
  cases (hm.stale hlive mem).symm.trans hok

end MugOS.Heap
