import MugOS.HeapInfo

/-!
# The Cache of Large Blocks

`Heap_free` keeps some large blocks in `freeCache`, and `Heap_malloc` hands them out again. A
block that is handed out from the cache is described by its slot, which `Heap_malloc` marks as
empty at once: the hash map then refers to a `ChunkInfo` without a base, and to that of another
block after the slot is used again. In runs in which no request finds a fitting block in the
cache, the cache and the live blocks are as they should be.

A *ledger* beside the heap has the pages that were obtained for large blocks and were not given
back since.

## Main results

* `cache_run_safe`: without requests that the cache serves, live and cached blocks are apart,
  live blocks are described by the hash map, and no page is lost.
* `cached_block_not_described`: a page is allocated, freed and allocated again.
-/

namespace MugOS.Heap

open WordBitmap Hashmap LinkedList Links

/-! ### The ledger -/

/-- The heap, and the pages that were obtained for large blocks and not given back since. -/
structure Ledger where
  session : Session
  held : List ℕ

/-- The pages that a call obtains for a large block. -/
def obtained (src : PageSource) (s : State) : Call → List ℕ
  | .malloc size => if fittingSlot s.freeCache size = none then chunkPages src s size else []
  | .free _ => []

/-- A call, with the pages that it obtains for a large block and those that it gives back. -/
def Ledger.Step (src : PageSource) (l : Ledger) (c : Call) (l' : Ledger) : Prop :=
  Heap.Step src l.session c l'.session ∧
    l'.held = (l.held ++ obtained src l.session.heap c).filter
      (· ∈ l'.session.heap.pages.owned)

/-- The initial heap, for which no page was obtained. -/
def Ledger.start (memory : ℕ → Chungus) : Ledger := ⟨.start memory, []⟩

/-- A call that is about large blocks only. -/
def LargeCall : Call → Prop
  | .malloc size => bigbucketThreshold ≤ size
  | .free _ => True

/-- **What the cache is to guarantee**: no live block is cached, no block is cached twice, the
hash map describes every live block, and the pages that were obtained for large blocks and not
given back are those of a live or of a cached block. -/
structure CacheSafe (l : Ledger) : Prop where
  apart : ∀ b ∈ l.session.live, ∀ slot < nBigblocksCached,
    (l.session.heap.slot slot).base ≠ b.1
  distinct : ∀ i < nBigblocksCached, ∀ j < nBigblocksCached,
    (l.session.heap.slot i).base ≠ 0 →
    (l.session.heap.slot i).base = (l.session.heap.slot j).base → i = j
  described : ∀ b ∈ l.session.live, ∃ v info, l.session.heap.Reg b.1 v ∧
    l.session.heap.chunk v = .ok info ∧ info.base = b.1 ∧ b.2 ≤ info.size
  kept : ∀ q ∈ l.held,
    (∃ b ∈ l.session.live, q ∈ pages b.1 (roundToPage b.2)) ∨
    ∃ slot < nBigblocksCached, (l.session.heap.slot slot).base ≠ 0 ∧
      q ∈ pages (l.session.heap.slot slot).base (roundToPage (l.session.heap.slot slot).size)

/-- A request that the cache does not serve, as none of its slots fits. -/
def MissesCache (l : Ledger) : Call → Prop
  | .malloc size => fittingSlot l.session.heap.freeCache size = none
  | .free _ => True

/-! ### The invariant -/

/-- The `ChunkInfo` of a block has the size that was asked for. -/
def SameSize (size : ℕ) (info : Option ℕ) : Prop := info = some size

/-- **The invariant**: the heap is consistent, its live blocks are large and have the size that
was asked for, and no page is lost. -/
structure CacheInv (l : Ledger) : Prop where
  consistent : ∃ owner B, Consistent l.session.heap owner B (l.session.live.map Prod.fst)
  sizes : LiveSizes l.session.heap l.session.live SameSize
  large : ∀ b ∈ l.session.live, bigbucketThreshold ≤ b.2
  kept : ∀ q ∈ l.held,
    (∃ b ∈ l.session.live, q ∈ pages b.1 (roundToPage b.2)) ∨
    ∃ slot < nBigblocksCached, (l.session.heap.slot slot).base ≠ 0 ∧
      q ∈ pages (l.session.heap.slot slot).base (roundToPage (l.session.heap.slot slot).size)

/-- The invariant of the cache holds at the start, with nothing live and no page held. -/
theorem CacheInv.start (memory : ℕ → Chungus) : CacheInv (.start memory) where
  consistent := ⟨_, _, consistent_start memory⟩
  sizes := by simp [LiveSizes, Ledger.start, Session.start]
  large := by simp [Ledger.start, Session.start]
  kept := by simp [Ledger.start]

/-- A live block is described by a `ChunkInfo` of the pool. -/
theorem CacheInv.info {l : Ledger} (h : CacheInv l) {b : ℕ × ℕ} (hb : b ∈ l.session.live)
    {v : ChunkRef} (hreg : l.session.heap.Reg (getPage b.1) v) :
    ∃ page index, v = .pool page index ∧ (l.session.heap.info page index).size = b.2 ∧
      (l.session.heap.info page index).base = b.1 ∧ getPage b.1 = b.1 := by
  obtain ⟨owner, B, hc⟩ := h.consistent
  have hsize := h.sizes b hb v hreg
  cases v with
  | null => exact absurd hsize (by simp [SameSize, State.refSize])
  | cached slot => exact absurd hsize (by simp [SameSize, State.refSize])
  | pool page index =>
      have hsize' : (l.session.heap.info page index).size = b.2 := Option.some.inj hsize
      have hself : b.1 = getPage b.1 := by
        refine hc.live.big b.1 (List.mem_map_of_mem hb) _ hreg ?_
        rintro p i ⟨⟩
        rw [hsize']
        exact h.large b hb
      refine ⟨page, index, rfl, hsize', ?_, hself.symm⟩
      rw [(hc.shape.pool_wf hreg).1, ← hself]

/-- The invariant gives what the cache guarantees: blocks apart, and no page freed while it is
cached. -/
theorem CacheInv.safe {l : Ledger} (h : CacheInv l) : CacheSafe l := by
  obtain ⟨owner, B, hc⟩ := h.consistent
  refine ⟨?_, fun i _ j _ hi heq => hc.shape.cache_inj i j hi heq, ?_, h.kept⟩
  · intro b hb slot _ heq
    obtain ⟨v, hv⟩ := hc.live.reg b.1 (List.mem_map_of_mem hb)
    obtain ⟨page, index, rfl, -, -, hpage⟩ := h.info hb hv
    rw [hpage, ← heq] at hv
    exact (hc.shape.cache slot hv.1).2.2 _ hv
  · intro b hb
    obtain ⟨v, hv⟩ := hc.live.reg b.1 (List.mem_map_of_mem hb)
    obtain ⟨page, index, rfl, hsize, hbase, hpage⟩ := h.info hb hv
    exact ⟨_, l.session.heap.info page index, hpage ▸ hv, rfl, hbase, hsize.ge⟩

/-! ### Every run -/

/-- **One allocation** that misses the cache keeps the invariant. -/
theorem CacheInv.malloc {src : PageSource} (hsrc : src.Sound) {l : Ledger} (h : CacheInv l)
    {s' : State} {size res : ℕ} (hsize : bigbucketThreshold ≤ size)
    (hslot : fittingSlot l.session.heap.freeCache size = none)
    (hok : malloc src l.session.heap size = .ok (res, s')) {held : List ℕ}
    (hheld : held = (l.held ++ chunkPages src l.session.heap size).filter
      (· ∈ s'.pages.owned)) :
    (res = 0 → CacheInv ⟨⟨s', l.session.live⟩, held⟩) ∧
      (res ≠ 0 → CacheInv ⟨⟨s', (res, size) :: l.session.live⟩, held⟩) := by
  obtain ⟨owner, B, hc⟩ := h.consistent
  unfold Heap.malloc at hok
  rw [if_neg (by omega)] at hok
  obtain ⟨⟨owner', B', hg, hcache, hout⟩, hnull, hblock⟩ :=
    allocateLargebucket_keeps hsrc hc hsize hslot hok
  have hslots : ∀ i, s'.slot i = l.session.heap.slot i := fun i => by rw [State.slot, hcache]; rfl
  have hmem : ∀ q ∈ held, (q ∈ l.held ∨ q ∈ chunkPages src l.session.heap size) ∧
      q ∈ s'.pages.owned := by
    intro q hq
    rw [hheld, List.mem_filter, List.mem_append, decide_eq_true_eq] at hq
    exact hq
  cases hout with
  | null hc' _ =>
      refine ⟨fun _ => ⟨⟨_, _, hc'⟩, h.sizes.grows hc.live hc'.shape hg, h.large, ?_⟩,
        fun hne => absurd rfl hne⟩
      intro q hq
      obtain ⟨hq | hq, howned⟩ := hmem q hq
      · simp only [hslots]
        exact h.kept q hq
      · exact absurd howned (hnull rfl q hq)
  | block page index hres hc' hreg _ hlarge _ _ =>
      refine ⟨fun hzero => absurd hzero hres, fun _ => ⟨⟨_, _, hc'⟩, ?_, ?_, ?_⟩⟩
      · refine (h.sizes.grows hc.live hc'.shape hg).cons hc'.shape hreg ?_
        rw [State.refSize, hlarge hsize]
        rfl
      · intro b hb
        rcases List.mem_cons.mp hb with rfl | hb
        · exact hsize
        · exact h.large b hb
      · intro q hq
        obtain ⟨hq | hq, -⟩ := hmem q hq
        · simp only [hslots]
          rcases h.kept q hq with ⟨b, hb, hqb⟩ | hcached
          · exact .inl ⟨b, List.mem_cons_of_mem _ hb, hqb⟩
          · exact .inr hcached
        · rw [hblock hres] at hq
          exact .inl ⟨(res, size), List.mem_cons_self, hq⟩

/-- **One free** of a large block keeps the invariant. -/
theorem CacheInv.free {l : Ledger} (h : CacheInv l) {s' : State} {ptr size : ℕ}
    (hlive : (ptr, size) ∈ l.session.live) (hok : free l.session.heap ptr = .ok s')
    {held : List ℕ} (hheld : held = l.held.filter (· ∈ s'.pages.owned)) :
    CacheInv ⟨⟨s', l.session.live.erase (ptr, size)⟩, held⟩ := by
  obtain ⟨owner, B, hc⟩ := h.consistent
  have hptr : ptr ∈ l.session.live.map Prod.fst := List.mem_map.mpr ⟨_, hlive, rfl⟩
  have hne : ptr ≠ 0 := by
    rintro rfl
    obtain ⟨v, hv⟩ := hc.live.reg 0 hptr
    exact hv.1 rfl
  obtain ⟨entry, v, chunk, hentry, hkey, hvalue, hreg, hchunk, hok⟩ :=
    free_cases hc.shape.wf hne hok
  obtain ⟨page, index, rfl, hsize, hbase, -⟩ := h.info hlive hreg
  have hbig : bigbucketThreshold ≤ (l.session.heap.info page index).size := by
    rw [hsize]
    exact h.large _ hlive
  obtain rfl : l.session.heap.info page index = chunk := Except.ok.inj hchunk
  rw [if_neg (by omega)] at hok
  obtain ⟨owner', hc', hloses, hcases⟩ :=
    freeLargebucket_keeps hc hptr hentry hkey hvalue hreg hbig hok
  refine ⟨⟨owner', B, ?_⟩, h.sizes.loses hloses fun b hb => List.mem_of_mem_erase hb,
    fun b hb => h.large b (List.mem_of_mem_erase hb), ?_⟩
  · rw [map_fst_erase hc.live.nodup hlive]
    exact hc'
  · intro q hq
    rw [hheld, List.mem_filter, decide_eq_true_eq] at hq
    obtain ⟨hq, howned⟩ := hq
    rcases hcases with ⟨slot, hslot, hempty, -, -, hslots⟩ | ⟨hcache, hpages⟩
    · simp only [hslots]
      rcases h.kept q hq with ⟨b, hb, hqb⟩ | ⟨i, hi, hi0, hqi⟩
      · by_cases hbp : b = (ptr, size)
        · subst hbp
          refine .inr ⟨slot, hslot, ?_⟩
          rw [if_pos rfl, hbase, hsize]
          exact ⟨hne, hqb⟩
        · exact .inl ⟨b, (List.mem_erase_of_ne hbp).mpr hb, hqb⟩
      · have his : i ≠ slot := by
          rintro rfl
          exact hi0 hempty
        refine .inr ⟨i, hi, ?_⟩
        rw [if_neg his]
        exact ⟨hi0, hqi⟩
    · have hslots : ∀ i, s'.slot i = l.session.heap.slot i := fun i => by
        rw [State.slot, hcache]
        rfl
      simp only [hslots]
      rcases h.kept q hq with ⟨b, hb, hqb⟩ | hcached
      · by_cases hbp : b = (ptr, size)
        · subst hbp
          rw [hpages, Pages.freePages, List.mem_filter, decide_eq_true_eq, hbase, hsize] at howned
          exact absurd hqb howned.2
        · exact .inl ⟨b, (List.mem_erase_of_ne hbp).mpr hb, hqb⟩
      · exact .inr hcached

/-- **One step** with large blocks that misses the cache keeps the invariant. -/
theorem CacheInv.step {src : PageSource} (hsrc : src.Sound) {l l' : Ledger} {c : Call}
    (h : CacheInv l) (hstep : l.Step src c l') (hlarge : LargeCall c) (hmiss : MissesCache l c) :
    CacheInv l' := by
  obtain ⟨m', held⟩ := l'
  obtain ⟨hstep, hheld⟩ := hstep
  cases hstep with
  | @null s' size hok =>
      have hslot : fittingSlot l.session.heap.freeCache size = none := hmiss
      rw [obtained, if_pos hslot] at hheld
      exact (h.malloc hsrc hlarge hmiss hok hheld).1 rfl
  | @malloc s' size res hok hres =>
      have hslot : fittingSlot l.session.heap.freeCache size = none := hmiss
      rw [obtained, if_pos hslot] at hheld
      exact (h.malloc hsrc hlarge hmiss hok hheld).2 hres
  | free hlive hok =>
      rw [obtained, List.append_nil] at hheld
      exact h.free hlive hok hheld

/-- **The cache over whole runs.** In every run of allocations of at least a page and of frees
of live blocks, with any source that answers with unused pages or with `NULL`, in which no
request finds a fitting block in the cache: no live block is cached and none is cached twice,
the hash map describes every live block, and every page that was obtained for a large block is
live, cached or given back. -/
theorem cache_run_safe {src : PageSource} (hsrc : src.Sound) {memory : ℕ → Chungus}
    {cs : List Call} {l : Ledger}
    (h : Runs (fun l c l' => Ledger.Step src l c l' ∧ LargeCall c ∧ MissesCache l c)
      (.start memory) cs l) : CacheSafe l := by
  have hinv : CacheInv l := h.invariant (.start memory)
    fun _ _ _ hi hstep => hi.step hsrc hstep.1 hstep.2.1 hstep.2.2
  exact hinv.safe

/-- Every run of the heap with large blocks can be given a ledger of the pages that it
holds. -/
theorem exists_ledger {src : PageSource} {m₀ m : Session} {cs : List Call}
    (h : Runs (Heap.Step src) m₀ cs m) (hlarge : ∀ c ∈ cs, LargeCall c) (held : List ℕ) :
    ∃ l, Runs (fun l c l' => Ledger.Step src l c l' ∧ LargeCall c) ⟨m₀, held⟩ cs l ∧
      l.session = m := by
  induction h with
  | nil => exact ⟨_, .nil, rfl⟩
  | @snoc cs t u c hruns hstep ih =>
      obtain ⟨l, hl, rfl⟩ := ih fun d hd => hlarge d (List.mem_append_left _ hd)
      refine ⟨⟨u, (l.held ++ obtained src l.session.heap c).filter (· ∈ u.heap.pages.owned)⟩,
        .snoc hl ⟨⟨hstep, rfl⟩, hlarge c (by simp)⟩, rfl⟩

/-- The observation that a live block is described by an empty slot. -/
def emptyInfo (m : Session) : Bool :=
  decide ((0x2000000, pageSize) ∈ m.live) &&
    m.heap.allocMap.entries.all (fun e => decide (e.key = 0x2000000 → e.value = .cached 0)) &&
    decide ((m.heap.slot 0).base = 0)

/-- A heap with a live block whose `ChunkInfo` is empty does not have the guarantees. -/
theorem not_cacheSafe_of_emptyInfo {l : Ledger} (h : emptyInfo l.session = true) :
    ¬ CacheSafe l := by
  simp only [emptyInfo, Bool.and_eq_true, decide_eq_true_eq, List.all_eq_true] at h
  obtain ⟨⟨hlive, hmap⟩, hslot⟩ := h
  intro hsafe
  obtain ⟨v, info, ⟨-, i, hi, he⟩, hchunk, hbase, -⟩ := hsafe.described _ hlive
  rcases entryAt_mem l.session.heap.allocMap.entries i with hmem | hempty
  · have hv := hmap _ hmem
    rw [he] at hv
    obtain rfl : v = .cached 0 := hv rfl
    obtain rfl : l.session.heap.slot 0 = info := Except.ok.inj hchunk
    rw [hslot] at hbase
    exact absurd hbase (by norm_num)
  · rw [he] at hempty
    have hkey : (0x2000000 : ℕ) = 0 := congrArg Entry.key hempty
    exact absurd hkey (by norm_num)

/-- **A block from the cache is not described**: a page is allocated, freed and allocated
again, and the hash map refers to an empty slot of the cache. -/
theorem cached_block_not_described : ∃ l,
    Runs (fun l c l' => Ledger.Step freshSource l c l' ∧ LargeCall c) (.start blankMemory)
      [.malloc pageSize, .free 0x2000000, .malloc pageSize] l ∧ ¬ CacheSafe l := by
  have hrun : ((Session.execs freshSource (.start blankMemory)
      [.malloc pageSize, .free 0x2000000, .malloc pageSize]).map emptyInfo) = some true := by
    decide +kernel
  obtain ⟨m, hm, hempty⟩ := Option.map_eq_some_iff.mp hrun
  have hlarge : ∀ c ∈ [Call.malloc pageSize, .free 0x2000000, .malloc pageSize], LargeCall c := by
    simp [LargeCall]
  obtain ⟨l, hl, rfl⟩ := exists_ledger (runs_of_execs hm) hlarge []
  exact ⟨l, hl, not_cacheSafe_of_emptyInfo hempty⟩

/-- The guarantees at a concrete run: a page is allocated and freed. -/
theorem cache_run_safe_onePage : ∃ l,
    Runs (fun l c l' => Ledger.Step freshSource l c l' ∧ LargeCall c ∧ MissesCache l c)
      (.start blankMemory) [.malloc pageSize, .free 0x2000000] l ∧ CacheSafe l := by
  have hrun : ((Session.exec freshSource (.start blankMemory) (.malloc pageSize)).bind fun m =>
      m.exec freshSource (.free 0x2000000)).isSome = true := by decide +kernel
  obtain ⟨m₂, hm⟩ := Option.isSome_iff_exists.mp hrun
  obtain ⟨m₁, hm₁, hm₂⟩ := Option.bind_eq_some_iff.mp hm
  have hmiss : fittingSlot (State.start blankMemory).freeCache pageSize = none := by decide +kernel
  set l₁ : Ledger := ⟨m₁, ([] ++ obtained freshSource (State.start blankMemory)
    (.malloc pageSize)).filter (· ∈ m₁.heap.pages.owned)⟩ with hl₁
  set l₂ : Ledger := ⟨m₂, (l₁.held ++ []).filter (· ∈ m₂.heap.pages.owned)⟩ with hl₂
  have hruns : Runs
      (fun l c l' => Ledger.Step freshSource l c l' ∧ LargeCall c ∧ MissesCache l c)
      (.start blankMemory) [.malloc pageSize, .free 0x2000000] l₂ := by
    have hfirst : Ledger.Step freshSource (.start blankMemory) (.malloc pageSize) l₁ :=
      ⟨step_of_exec hm₁, rfl⟩
    have hsecond : Ledger.Step freshSource l₁ (.free 0x2000000) l₂ := ⟨step_of_exec hm₂, rfl⟩
    exact .snoc (.snoc .nil ⟨hfirst, le_refl _, hmiss⟩) ⟨hsecond, trivial, trivial⟩
  exact ⟨l₂, hruns, cache_run_safe (PageSource.checked_sound _) hruns⟩

end MugOS.Heap
