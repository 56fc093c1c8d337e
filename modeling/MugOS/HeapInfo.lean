import MugOS.HeapFree

/-!
# The `ChunkInfo`s of the Heap

A `ChunkInfo` is marked as used in the bitmap of its Chungus when a block gets its pages, and
it is marked as free when the last block of a small chunk is freed. No other place that gives a
block up marks it as free: neither the free of a large block nor `Heap_malloc` when the hash map
cannot grow. In runs without these the marks are exact, and a `Heap_malloc` that returns `NULL`
leaves the heap as it was.

## Main results

* `heap_info_run`: the marks are exact in every run that frees no large block, in which no
  request of the hash map for pages is refused, and that gives no chunk of a full Chungus back.
* `large_free_keeps_info`: a large block is allocated and freed, and its `ChunkInfo` stays
  marked as used.
-/

namespace MugOS.Heap

open WordBitmap Hashmap LinkedList Links

/-! ### Live blocks with their sizes -/

/-- Blocks are compared by their addresses and sizes. -/
instance lawfulBEq_block : LawfulBEq (ℕ × ℕ) := inferInstance

/-- The size in the `ChunkInfo` of the pool that a reference points to. -/
def State.refSize (s : State) : ChunkRef → Option ℕ
  | .pool page index => some (s.info page index).size
  | _ => none

/-- A relation between the size that was asked for a live block and the size in the
`ChunkInfo` that the hash map has for it. -/
def LiveSizes (s : State) (live : List (ℕ × ℕ)) (P : ℕ → Option ℕ → Prop) : Prop :=
  ∀ b ∈ live, ∀ v, s.Reg (getPage b.1) v → P b.2 (s.refSize v)

section

variable {s s' : State} {owner owner' : ℕ → Option Owner} {live : List (ℕ × ℕ)}
  {P : ℕ → Option ℕ → Prop}

/-- An allocation keeps what is known of the sizes of the live blocks: their keys refer to the
same chunks as before. -/
theorem LiveSizes.grows (h : LiveSizes s live P) (hlive : Live s (live.map Prod.fst))
    (hs' : Shape s' owner') (hg : Grows s s' owner owner') : LiveSizes s' live P := by
  intro b hb v hv
  obtain ⟨w, hw⟩ := hlive.reg b.1 (List.mem_map_of_mem hb)
  obtain rfl := hv.unique hs'.wf (hg.reg _ _ hw)
  have hold := h b hb v hw
  cases v with
  | pool page index =>
      rw [State.refSize] at hold ⊢
      rwa [hg.size _ page index hw]
  | null => exact hold
  | cached slot => exact hold

/-- A new block whose chunk has a size that fits the request joins the live blocks with their
sizes. -/
theorem LiveSizes.cons (h : LiveSizes s live P) (hs : Shape s owner) {res size : ℕ}
    {v : ChunkRef} (hreg : s.Reg (getPage res) v) (hP : P size (s.refSize v)) :
    LiveSizes s ((res, size) :: live) P := by
  intro b hb w hw
  rcases List.mem_cons.mp hb with rfl | hb
  · rwa [hw.unique hs.wf hreg]
  · exact h b hb w hw

/-- A free keeps what is known of the sizes of the blocks that stay live, since their chunks
are not touched. -/
theorem LiveSizes.loses (h : LiveSizes s live P) (hl : Loses s s' owner owner')
    {live' : List (ℕ × ℕ)} (hsub : ∀ b ∈ live', b ∈ live) : LiveSizes s' live' P := by
  intro b hb v hv
  have hold := h b (hsub b hb) v (hl.reg _ _ hv)
  cases v with
  | pool page index =>
      rw [State.refSize] at hold ⊢
      rwa [hl.size _ page index hv]
  | null => exact hold
  | cached slot => exact hold

end

/-- The addresses of the blocks that are live after a free are the earlier ones without the
freed address. -/
theorem map_fst_erase {live : List (ℕ × ℕ)} (h : (live.map Prod.fst).Nodup) {ptr size : ℕ}
    (hmem : (ptr, size) ∈ live) :
    (live.erase (ptr, size)).map Prod.fst = (live.map Prod.fst).erase ptr := by
  induction live with
  | nil => simp at hmem
  | cons b live ih =>
      rw [List.map_cons, List.nodup_cons] at h
      by_cases hb : b = (ptr, size)
      · subst hb
        simp
      · have hmem' := (List.mem_cons.mp hmem).resolve_left (Ne.symm hb)
        have hne : b.1 ≠ ptr := by
          rintro rfl
          exact h.1 (List.mem_map.mpr ⟨_, hmem', rfl⟩)
        rw [List.erase_cons_tail (by simpa using hb), List.map_cons, List.map_cons,
          List.erase_cons_tail (by simpa using hne), ih h.2 hmem']

/-- **What `Heap_free` can do**: it finds the entry of the page and frees a small or a large
block. -/
theorem free_cases {s s' : State} {ptr : ℕ} (hwf : s.allocMap.Wf) (hne : ptr ≠ 0)
    (hok : free s ptr = .ok s') :
    ∃ entry v chunk, entry < s.allocMap.totalEntries ∧
      keyAt s.allocMap.entries entry = getPage ptr ∧
      (entryAt s.allocMap.entries entry).value = v ∧ s.Reg (getPage ptr) v ∧
      s.chunk v = .ok chunk ∧
      (if chunk.size < bigbucketThreshold then freeSmallbucket s entry ptr
        else freeLargebucket s entry) = .ok s' := by
  unfold free at hok
  rw [if_neg hne] at hok
  obtain ⟨found, hfind, hok⟩ := bind_eq_ok.mp hok
  rcases find_sound hwf ptr with hnone | ⟨entry, hentry, hsome, hkey, hpage⟩
  · obtain rfl := Except.ok.inj (hfind.symm.trans hnone)
    exact absurd hok (by simp)
  · obtain rfl := Except.ok.inj (hfind.symm.trans hsome)
    simp only at hok
    obtain ⟨chunk, hchunk, hok⟩ := bind_eq_ok.mp hok
    refine ⟨entry, _, chunk, hentry, hkey, rfl, ⟨hpage, entry, ?_, ?_⟩, hchunk, hok⟩
    · rw [hwf.length_eq]
      exact hentry
    · rw [← hkey]
      rfl

/-! ### The marks -/

/-- A `ChunkInfo` that describes a block which is registered in the hash map or cached. -/
def Described (s : State) (page index : ℕ) : Prop :=
  (∃ k, s.Reg k (.pool page index)) ∨
    ∃ slot < nBigblocksCached, (s.slot slot).base ≠ 0 ∧
      (s.slot slot).base = (s.info page index).base

/-- The `ChunkInfo`s that are marked as used are exactly those that describe a block. -/
def InfoExact (s : State) : Prop :=
  ∀ page ∈ s.pool, ∀ index < chungusNChunks,
    bit (s.memory page).bitmap index = true ↔ Described s page index

/-- A call that gives no `ChunkInfo` up without marking it as free: no request of the hash map
for pages is refused; a small request has a bucket; the block that is freed is a small one; and
a chunk that is given back is not one of a full Chungus. -/
def KeepsInfo (m : Session) (c : Call) (m' : Session) : Prop :=
  m'.heap.pages.refused = m.heap.pages.refused ∧
    match c with
    | .malloc size => size ≤ bigbucketThreshold / 2 ∨ bigbucketThreshold ≤ size
    | .free ptr =>
        (∀ size, (ptr, size) ∈ m.live → size < bigbucketThreshold) ∧
          ∀ page index, m.heap.Reg (getPage ptr) (.pool page index) →
            Releases m.heap ptr page index → isChungusFull (m.heap.memory page) = false

/-- The block is described by a `ChunkInfo` of its own kind. -/
def SameKind (size : ℕ) (info : Option ℕ) : Prop :=
  ∃ n, info = some n ∧ (size < bigbucketThreshold ↔ n < bigbucketThreshold)

/-- **The invariant**: the heap is consistent, its `ChunkInfo`s that are marked as used are
registered, and nothing is cached. -/
structure InfoInv (m : Session) : Prop where
  consistent : ∃ owner B, Consistent m.heap owner B (m.live.map Prod.fst)
  kinds : LiveSizes m.heap m.live SameKind
  bits : ∀ page ∈ m.heap.pool, ∀ index < chungusNChunks,
    bit (m.heap.memory page).bitmap index = true → ∃ k, m.heap.Reg k (.pool page index)
  noCache : ∀ slot, (m.heap.slot slot).base = 0

/-- The heap at the start, with no block and nothing cached, satisfies the invariant of the
marks. -/
theorem InfoInv.start (memory : ℕ → Chungus) : InfoInv (.start memory) where
  consistent := ⟨_, _, consistent_start memory⟩
  kinds := by simp [LiveSizes, Session.start]
  bits := by simp [Session.start, State.start]
  noCache := by
    intro slot
    simp only [Session.start, State.slot, State.start, List.getD_eq_getElem?_getD,
      List.getElem?_replicate]
    split <;> rfl

/-- Under the invariant the marks are exact: a `ChunkInfo` is marked as used if and only if a
block uses it. -/
theorem InfoInv.exact {m : Session} (h : InfoInv m) : InfoExact m.heap := by
  obtain ⟨owner, B, hc⟩ := h.consistent
  intro page hpage index hindex
  constructor
  · exact fun hbit => .inl (h.bits page hpage index hindex hbit)
  · rintro (⟨k, hk⟩ | ⟨slot, -, hne, -⟩)
    · cases hc.shape.refs k _ hk with
      | pool _ _ hbit _ _ => exact hbit
    · exact absurd (h.noCache slot) hne

/-- In an empty cache no slot fits a request of any size. -/
theorem fittingSlot_eq_none {s : State} (h : ∀ slot, (s.slot slot).base = 0) (size : ℕ) :
    fittingSlot s.freeCache size = none := by
  rw [fittingSlot, List.find?_eq_none]
  intro i _
  simp only [decide_eq_true_eq, not_not]
  exact .inl (h i)

/-- An allocation that takes nothing from the cache keeps the invariant of the heap, and only
adds owners and registered blocks. -/
theorem malloc_keeps {src : PageSource} (hsrc : src.Sound) {s s' : State}
    {owner : ℕ → Option Owner} {B : ℕ → List (ℕ × ℕ)} {live : List ℕ} {size res : ℕ}
    (h : Consistent s owner B live)
    (hslot : bigbucketThreshold ≤ size → fittingSlot s.freeCache size = none)
    (hok : malloc src s size = .ok (res, s')) :
    ∃ owner' B', Grows s s' owner owner' ∧ s'.freeCache = s.freeCache ∧
      Allocated s s' owner' B' live size res := by
  unfold malloc at hok
  split at hok
  · exact allocateSmallbucket_keeps hsrc h hok
  · rename_i hsize
    exact (allocateLargebucket_keeps hsrc h (by omega) (hslot (by omega)) hok).1

/-! ### Every run -/

/-- **One allocation** keeps the invariant: a refused one leaves the heap as it was, and any
other adds its block to the live ones. -/
theorem InfoInv.malloc {src : PageSource} (hsrc : src.Sound) {m : Session} (h : InfoInv m)
    {s' : State} {size res : ℕ} (hok : malloc src m.heap size = .ok (res, s'))
    (hrefused : s'.pages.refused = m.heap.pages.refused) :
    (res = 0 → Untouched m.heap s' ∧ InfoInv ⟨s', m.live⟩) ∧
      (res ≠ 0 → InfoInv ⟨s', (res, size) :: m.live⟩) := by
  obtain ⟨owner, B, hc⟩ := h.consistent
  obtain ⟨owner', B', hg, hcache, hout⟩ :=
    malloc_keeps hsrc hc (fun _ => fittingSlot_eq_none h.noCache size) hok
  have hbits : ∀ page ∈ s'.pool, ∀ index < chungusNChunks,
      bit (s'.memory page).bitmap index = true → ∃ k, s'.Reg k (.pool page index) := by
    intro page hpage index hindex hbit
    rcases hg.bits hrefused page hpage index hindex hbit with ⟨hold, hbit'⟩ | hreg
    · obtain ⟨k, hk⟩ := h.bits page hold index hindex hbit'
      exact ⟨k, hg.reg k _ hk⟩
    · exact hreg
  have hempty : ∀ slot, (s'.slot slot).base = 0 := by
    intro slot
    rw [State.slot, hcache]
    exact h.noCache slot
  cases hout with
  | null hc' hleft =>
      refine ⟨fun _ => ⟨?_, ⟨_, _, hc'⟩, h.kinds.grows hc.live hc'.shape hg, hbits, hempty⟩,
        fun hne => absurd rfl hne⟩
      rcases hleft with huntouched | hlt
      · exact huntouched
      · omega
  | block page index hres hc' hreg hkind _ _ _ =>
      refine ⟨fun hzero => absurd hzero hres, fun _ => ⟨⟨_, _, hc'⟩, ?_, hbits, hempty⟩⟩
      exact (h.kinds.grows hc.live hc'.shape hg).cons hc'.shape hreg ⟨_, rfl, hkind⟩

/-- **One free** keeps the invariant, with the freed block taken from the live ones. -/
theorem InfoInv.free {m m' : Session} (h : InfoInv m) {s' : State} {ptr size : ℕ}
    (hlive : (ptr, size) ∈ m.live) (hok : free m.heap ptr = .ok s')
    (hkeeps : KeepsInfo m (.free ptr) m') : InfoInv ⟨s', m.live.erase (ptr, size)⟩ := by
  obtain ⟨owner, B, hc⟩ := h.consistent
  obtain ⟨-, hsmall, hrelease⟩ := hkeeps
  have hptr : ptr ∈ m.live.map Prod.fst := List.mem_map.mpr ⟨_, hlive, rfl⟩
  have hne : ptr ≠ 0 := by
    rintro rfl
    obtain ⟨v, hv⟩ := hc.live.reg 0 hptr
    exact hv.1 rfl
  obtain ⟨entry, v, chunk, hentry, hkey, hvalue, hreg, hchunk, hok⟩ :=
    free_cases hc.shape.wf hne hok
  -- a small block is described by a `ChunkInfo` of the pool with a small size
  obtain ⟨n, hn, hkind⟩ := h.kinds _ hlive v hreg
  cases v with
  | null => exact absurd hn (by simp [State.refSize])
  | cached slot => exact absurd hn (by simp [State.refSize])
  | pool page index =>
      obtain rfl : (m.heap.info page index).size = n := Option.some.inj hn
      have hsz : (m.heap.info page index).size < bigbucketThreshold :=
        hkind.mp (hsmall size hlive)
      obtain rfl : m.heap.info page index = chunk := Except.ok.inj hchunk
      rw [if_pos hsz] at hok
      obtain ⟨owner', B', hc', hloses, hcache, hbits⟩ :=
        freeSmallbucket_keeps hc hptr hentry hkey hvalue hreg hsz (hrelease page index hreg) hok
      refine ⟨⟨owner', B', ?_⟩, h.kinds.loses hloses fun b hb => List.mem_of_mem_erase hb, ?_, ?_⟩
      · rw [map_fst_erase hc.live.nodup hlive]
        exact hc'
      · intro p hp i hi hbit
        obtain ⟨hp', hbit', hkept⟩ := hbits p hp i hi hbit
        obtain ⟨k, hk⟩ := h.bits p hp' i hi hbit'
        exact ⟨k, hkept k hk⟩
      · intro slot
        simp only [State.slot, hcache]
        exact h.noCache slot

/-- **One step** of a run, an allocation or a free, keeps the invariant of the marks. -/
theorem InfoInv.step {src : PageSource} (hsrc : src.Sound) {m m' : Session} {c : Call}
    (h : InfoInv m) (hstep : Step src m c m') (hkeeps : KeepsInfo m c m') : InfoInv m' := by
  cases hstep with
  | null hok => exact ((h.malloc hsrc hok hkeeps.1).1 rfl).2
  | malloc hok hres => exact (h.malloc hsrc hok hkeeps.1).2 hres
  | free hlive hok => exact h.free hlive hok hkeeps

/-- **The `ChunkInfo`s over whole runs.** In every run from the initial heap, with any source
that answers with unused pages or with `NULL`, in which no request of the hash map for pages is
refused, no block of a page or more is freed and no chunk of a full Chungus is given back: a
`ChunkInfo` is marked as used exactly if it describes a block that is registered or cached, and
a `Heap_malloc` that returns `NULL` leaves the bitmaps, the buckets and the pages in use as they
were, up to an additional empty Chungus. -/
theorem heap_info_run {src : PageSource} (hsrc : src.Sound) {memory : ℕ → Chungus}
    {cs : List Call} {m : Session}
    (h : Runs (fun m c m' => Step src m c m' ∧ KeepsInfo m c m') (.start memory) cs m) :
    InfoExact m.heap ∧
      ∀ size s', malloc src m.heap size = .ok (0, s') →
        s'.pages.refused = m.heap.pages.refused → Untouched m.heap s' := by
  have hinv : InfoInv m := h.invariant (.start memory)
    fun _ _ _ hi hstep => hi.step hsrc hstep.1 hstep.2
  exact ⟨hinv.exact, fun size s' hok hrefused => ((hinv.malloc hsrc hok hrefused).1 rfl).1⟩

/-- The observation that a `ChunkInfo` is marked as used while nothing is registered or
cached. -/
def leaked (m : Session) : Bool :=
  decide (0x1000000 ∈ m.heap.pool) && bit (m.heap.memory 0x1000000).bitmap 0 &&
    m.heap.allocMap.entries.all (fun e => decide (e.key = 0)) &&
    m.heap.freeCache.all fun c => decide (c.base = 0)

/-- In a heap whose `ChunkInfo` stays marked although no block uses it, the marks are not
exact. -/
theorem not_exact_of_leaked {m : Session} (h : leaked m = true) : ¬ InfoExact m.heap := by
  simp only [leaked, Bool.and_eq_true, decide_eq_true_eq, List.all_eq_true] at h
  obtain ⟨⟨⟨hpool, hbit⟩, hmap⟩, hcache⟩ := h
  intro hexact
  rcases (hexact _ hpool 0 (by norm_num)).mp hbit with ⟨k, hk, i, hi, he⟩ | ⟨slot, -, hne, -⟩
  · rcases entryAt_mem m.heap.allocMap.entries i with hmem | hempty
    · have hzero := hmap _ hmem
      rw [he] at hzero
      exact hk hzero
    · rw [he] at hempty
      exact hk (congrArg Entry.key hempty)
  · rw [State.slot, List.getD_eq_getElem?_getD] at hne
    cases hslot : m.heap.freeCache[slot]? with
    | none =>
        rw [hslot] at hne
        exact hne rfl
    | some c =>
        rw [hslot] at hne
        exact hne (hcache c (List.mem_of_getElem? hslot))

/-- **Freeing a large block does not release its `ChunkInfo`**: 16 pages are allocated and
freed, and the `ChunkInfo` stays marked as used. -/
theorem large_free_keeps_info : ∃ m,
    Runs (Step reuseSource) (.start blankMemory)
      [.malloc bigblocksCacheMaxsize, .free 0x307f000] m ∧ ¬ InfoExact m.heap := by
  have hrun : ((Session.execs reuseSource (.start blankMemory)
      [.malloc bigblocksCacheMaxsize, .free 0x307f000]).map leaked) = some true := by
    decide +kernel
  obtain ⟨m, hm, hleaked⟩ := Option.map_eq_some_iff.mp hrun
  exact ⟨m, runs_of_execs hm, not_exact_of_leaked hleaked⟩

/-- A source that answers each request with pages of its own. -/
def freshSource : PageSource := PageSource.checked fun t _ _ _ => 0x1000000 * (t + 1)

/-- The guarantee at a concrete run: a small block and a page are allocated. -/
theorem heap_info_run_two : ∃ m,
    Runs (fun m c m' => Step freshSource m c m' ∧ KeepsInfo m c m') (.start blankMemory)
      [.malloc minBlockSize, .malloc pageSize] m ∧ InfoExact m.heap := by
  have hrun : ((Session.exec freshSource (.start blankMemory) (.malloc minBlockSize)).bind fun m =>
      (m.exec freshSource (.malloc pageSize)).map fun m' =>
        (m.heap.pages.refused, m'.heap.pages.refused)) = some (0, 0) := by decide +kernel
  obtain ⟨m₁, hm₁, hrest⟩ := Option.bind_eq_some_iff.mp hrun
  obtain ⟨m₂, hm₂, hrefused⟩ := Option.map_eq_some_iff.mp hrest
  obtain ⟨hr₁, hr₂⟩ := Prod.mk.inj hrefused
  have hruns : Runs (fun m c m' => Step freshSource m c m' ∧ KeepsInfo m c m')
      (.start blankMemory) [.malloc minBlockSize, .malloc pageSize] m₂ := by
    refine .snoc (.snoc .nil ⟨step_of_exec hm₁, hr₁, .inl (by norm_num)⟩)
      ⟨step_of_exec hm₂, ?_, .inr (by norm_num)⟩
    rw [hr₁, hr₂]
  exact ⟨m₂, hruns, (heap_info_run (PageSource.checked_sound _) hruns).1⟩

end MugOS.Heap
