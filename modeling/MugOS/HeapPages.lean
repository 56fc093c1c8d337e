import MugOS.PagingRun

/-!
# The Page Runs of the Heap

The functions `allocatePages` and `freePages` of `SlabAllocator.c`, which take a run of page
frames from the memory manager and map it at a fixed offset with `VMM_mapInHeap`, and undo
that. The memory manager that serves the data pages also serves the tables of the mapping.

## Main results

* `allocatePages_keeps`, `freePages_keeps`: what one call keeps.
* `heap_pages_run`: in every run the mapped pages of the heap are exactly the live ones,
  the tables are a tree of held frames apart from the live pages, and once every block is
  freed, bitmap and translation are those of the start.
-/

namespace MugOS.HeapPages

open PMM Paging RadixTree

/-! ### VMM_mapInHeap and VMM_toPhysical -/

/-- `m_hsdmOffset`. -/
abbrev hsdmOffset : ℕ := 0xffffd00000000000

/-- `m_hsdmSize`. -/
abbrev hsdmSize : ℕ := 0x0000100000000000

/-- `VMM_mapInHeap(addr, n_pages, flags)`: the mapped address. -/
def mapInHeap (s : State) (addr n flags : ℕ) : Except Fault (ℕ × State) :=
  if addr ≥ hsdmSize then .error .panic
  else do
    let mapped := wadd addr hsdmOffset
    let s ← map s addr mapped n flags
    return (mapped, s)

/-- `VMM_toPhysical(addr)`. The complement of the mask is taken on 64 bits. -/
def toPhysical (addr : ℕ) : Except Fault ℕ :=
  if addr &&& 0xfffff00000000000 ≠ 0 then .ok (addr &&& 0x00000fffffffffff)
  else .error .panic

/-! ### allocatePages and freePages -/

/-- `memset(addr, 0, n * PAGE_SIZE)`, page by page: the frames that the pages are translated
to are cleared. -/
def clearRange (s : State) (addr : ℕ) : ℕ → Except Fault State
  | 0 => .ok s
  | n + 1 => do
      let s ← clearRange s addr n
      match translatePage s (addr + n * pageSize) with
      | none => .error .wild
      | some t => .ok { s with mem := Function.update s.mem t.frame fun _ => Descriptor.zero }

/-- `allocatePages(n, clear)`: the address of the pages, or 0. `PAGE_READ` and `PAGE_KERNEL`
are 0. -/
def allocatePages (s : State) (n : ℕ) (clear : Bool) : Except Fault (ℕ × State) :=
  if n = 0 then .ok (0, s)
  else do
    let (addr, pmm) := PMM.allocatePages s.pmm n
    if addr = 0 then return (0, { s with pmm := pmm })
    let (res, s) ← mapInHeap { s with pmm := pmm } addr n pageWrite
    if clear then
      let s ← clearRange s res n
      return (res, s)
    return (res, s)

/-- `freePages(pages, n)`: unmaps the pages and gives their frames back. -/
def freePages (s : State) (pages n : ℕ) : Except Fault State := do
  let addr ← toPhysical pages
  let (s, _) ← unmap s pages n
  return { s with pmm := PMM.freePages s.pmm addr n }

/-! ### Runs -/

/-- A block of pages that was handed out: its address, the physical address that the memory
manager returned for it, and its number of pages. -/
structure Block where
  addr : ℕ
  phys : ℕ
  n : ℕ
  deriving DecidableEq

/-- The state, and the blocks that are handed out. -/
structure Heap where
  state : State
  live : List Block

/-- A call of the heap for its pages: an allocation, or a free of a block. -/
inductive Call
  | allocate (n : ℕ) (clear : Bool)
  | free (b : Block)

/-- A call that may be made, and that returns: an allocation of 1 to 511 pages, or the free
of a live block with its own number of pages. -/
inductive HeapStep : Heap → Call → Heap → Prop
  | null {m : Heap} {s' : State} {n : ℕ} {clear : Bool} (h1 : 1 ≤ n) (h2 : n < 512)
      (h : allocatePages m.state n clear = .ok (0, s')) :
      HeapStep m (.allocate n clear) ⟨s', m.live⟩
  | allocate {m : Heap} {s' : State} {n res : ℕ} {clear : Bool} (h1 : 1 ≤ n) (h2 : n < 512)
      (h : allocatePages m.state n clear = .ok (res, s')) (hres : res ≠ 0) :
      HeapStep m (.allocate n clear)
        ⟨s', ⟨res, (PMM.allocatePages m.state.pmm n).1, n⟩ :: m.live⟩
  | free {m : Heap} {s' : State} {b : Block} (hb : b ∈ m.live)
      (h : freePages m.state b.addr b.n = .ok s') :
      HeapStep m (.free b) ⟨s', m.live.erase b⟩

/-- The first frame of a block, from its physical address. -/
def Block.frame (b : Block) : ℕ := b.phys / pageSize

/-- The frame is one of those that belong to the block. -/
def Block.Holds (b : Block) (f : ℕ) : Prop := b.frame ≤ f ∧ f < b.frame + b.n

/-- The frame belongs to one of the live blocks. -/
def Live (bs : List Block) (f : ℕ) : Prop := ∃ b ∈ bs, b.Holds f

/-- The number of pages of the heap. -/
abbrev heapPages : ℕ := 2 ^ 32

/-- The virtual page to which the first frame is mapped. -/
abbrev heapStart : ℕ := 0xd00000000

/-- The address to which a frame is mapped, in the part of the address space for the heap. -/
def heapAddr (f : ℕ) : ℕ := hsdmOffset + f * pageSize

/-- The mapped pages of the heap are exactly the live ones, and each of them is translated
to the page that the memory manager returned. -/
structure Mirrors (m : Heap) : Prop where
  toPhysical_eq : ∀ b ∈ m.live, ∀ i < b.n,
    toPhysical (b.addr + i * pageSize) = .ok (b.phys + i * pageSize)
  translate_eq : ∀ b ∈ m.live, ∀ i < b.n, ∃ t,
    translatePage m.state (b.addr + i * pageSize) = some t ∧
      t.frame * pageSize = b.phys + i * pageSize
  only : ∀ f < heapPages, translatePage m.state (heapAddr f) ≠ none →
    ∃ b ∈ m.live, ∃ i < b.n, heapAddr f = b.addr + i * pageSize

/-- The entry `i` of the table `a` is present, is no page, and refers to the table `f`. -/
def PointsTo (s : State) (a i f : ℕ) : Prop :=
  ∃ d w, s.node d w = some a ∧ tree.idx d w = i ∧ (s.mem a i).present = true ∧
    isPage d (s.mem a i) = false ∧ (s.mem a i).address.toNat = f

/-- Every table has one entry that refers to it, is held and not empty, and is no live
page. -/
structure OwnsTables (m : Heap) : Prop where
  distinct : ∀ a i a' i' f, PointsTo m.state a i f → PointsTo m.state a' i' f → a = a' ∧ i = i'
  held : ∀ a i f, PointsTo m.state a i f → Held m.state.pmm f ∧ ¬ Avail m.state.pmm f
  nonempty : ∀ a i f, PointsTo m.state a i f → ∃ j < tableSize, (m.state.mem f j).present = true
  not_live : ∀ a i f, PointsTo m.state a i f → ¬ Live m.live f

/-- The bitmap and the translation are those of `s₀`. The dynamic windows, once in use, are
not looked at. -/
structure Restored (s₀ s : State) : Prop where
  bitmap_eq : s.pmm.bitmap = s₀.pmm.bitmap
  translate_eq : ∀ addr, ¬ (s₀.enabled = true ∧ windowDepth addr ≠ none) →
    translatePage s addr = translatePage s₀ addr

/-! ### Changes outside of the tables -/

/-- The memory manager changes, and keeps what the tables rest on. -/
theorem treeInv_pmm {s : State} {a : BitmapAllocator} (h : TreeInv s none) (hwf : a.WellFormed)
    (hsame : SamePool s.pmm a) (hheld : ∀ d w f, s.node (d + 1) w = some f → Held a f)
    (hroot : ¬ Avail a s.pml4) : TreeInv { s with pmm := a } none where
  pmm_wf := hwf
  pmm_fits := by
    have := h.pmm_fits
    simpa only [firstFrame, hsame.start_eq, hsame.nBlocks_eq] using this
  separated := h.separated
  held := hheld
  root := hroot
  permissive := h.permissive
  nonempty := h.nonempty

/-- The entries that map pages do not depend on the memory manager, only on the tables. -/
theorem leaf_pmm (s : State) (a : BitmapAllocator) (d w : ℕ) (e : Descriptor) :
    Leaf { s with pmm := a } d w e ↔ Leaf s d w e :=
  ⟨fun h => ⟨h.entry_eq, h.present, h.isPage⟩, fun h => ⟨h.entry_eq, h.present, h.isPage⟩⟩

/-- Memory that agrees with the state's on the tables. -/
def SameTables (s : State) (mem : ℕ → ℕ → Descriptor) : Prop :=
  ∀ d w f, s.node d w = some f → mem f = s.mem f

section SameTables

variable {s : State} {mem : ℕ → ℕ → Descriptor} (hmem : SameTables s mem)

include hmem

/-- A store outside of the tables leaves every table of the walk at the frame where it was. -/
theorem SameTables.node_eq (d w : ℕ) : State.node { s with mem := mem } d w = s.node d w :=
  node_eq_of_child (fun d v a ha => 
    congrArg (fun x => tree.child d (x (tree.idx d v))) (hmem d v a ha)) d w

/-- A store outside of the tables leaves every entry of the walk as it was. -/
theorem SameTables.entry_eq (d w : ℕ) : State.entry { s with mem := mem } d w = s.entry d w :=
  entry_eq_of_node (hmem.node_eq d w) fun a ha => congrFun (hmem d w a ha) _

/-- A store outside of the tables leaves the same frames in use as tables. -/
theorem SameTables.isTable_iff (f : ℕ) : IsTable { s with mem := mem } f ↔ IsTable s f :=
  exists₂_congr fun d w => by rw [hmem.node_eq]

/-- A store outside of the tables leaves the pages mapped by the same entries. -/
theorem SameTables.leaf_iff (d w : ℕ) (e : Descriptor) :
    Leaf { s with mem := mem } d w e ↔ Leaf s d w e := by
  constructor
  · rintro ⟨h1, h2, h3⟩
    exact ⟨(hmem.entry_eq d w).symm.trans h1, h2, h3⟩
  · rintro ⟨h1, h2, h3⟩
    exact ⟨(hmem.entry_eq d w).trans h1, h2, h3⟩

/-- A store outside of the tables keeps the invariant that the tables form a tree. -/
theorem SameTables.treeInv (h : TreeInv s none) : TreeInv { s with mem := mem } none where
  pmm_wf := h.pmm_wf
  pmm_fits := h.pmm_fits
  separated := by
    intro d v d' v' a ha ha'
    exact h.separated d v d' v' a ((hmem.node_eq d v).symm.trans ha)
      ((hmem.node_eq d' v').symm.trans ha')
  held := fun d w f hf => h.held d w f ((hmem.node_eq _ w).symm.trans hf)
  root := h.root
  permissive := fun d w e he => h.permissive d w e ((hmem.entry_eq d w).symm.trans he)
  nonempty := by
    intro d w f hf hne
    have hf' := (hmem.node_eq _ w).symm.trans hf
    rw [show ({ s with mem := mem } : State).mem f = s.mem f from hmem _ _ _ hf']
    exact h.nonempty d w f hf' hne

/-- A store outside of the tables leaves the translation of every page as it was. -/
theorem SameTables.page_eq (h : TreeInv s none) (w : ℕ) :
    State.page { s with mem := mem } w = s.page w :=
  page_congr h (hmem.treeInv h) (hmem.leaf_iff · w)

end SameTables

/-- The address of frame `f` in the heap translates to whatever its page, the one at `heapStart
+ f`, is mapped to. -/
theorem translatePage_heapAddr (s : State) {f : ℕ} (hf : f < heapPages) :
    translatePage s (heapAddr f) = s.page (heapStart + f) := by
  have hnum : pageNumber (heapAddr f) = heapStart + f := by
    simp only [pageNumber, heapAddr, pageSize, hsdmOffset, heapStart, heapPages] at *
    omega
  have hwin : windowDepth (heapAddr f) = none := by
    rw [windowDepth, if_pos]
    simp only [heapAddr, pageSize, hsdmOffset, heapPages] at *
    omega
  rw [translatePage_of_canonical, hnum]
  · right
    simp only [heapAddr, pageSize, hsdmOffset, heapPages] at *
    omega
  · rintro ⟨-, hne⟩
    exact hne hwin

/-- Physical addresses of the heap are those of the frames. -/
theorem toPhysical_heapAddr {x : ℕ} (hx : x < hsdmSize) :
    toPhysical (hsdmOffset + x) = .ok x := by
  have hmask : (0x00000fffffffffff : ℕ) = 2 ^ 44 - 1 := by norm_num
  have hbit : ((hsdmOffset + x) &&& 0xfffff00000000000).testBit 63 = true := by
    have h63 : (hsdmOffset + x) / 2 ^ 63 % 2 = 1 := by
      simp only [hsdmOffset, hsdmSize] at *
      omega
    rw [Nat.testBit_and, Nat.testBit_eq_decide_div_mod_eq, h63]
    decide
  have hne : (hsdmOffset + x) &&& 0xfffff00000000000 ≠ 0 := by
    intro h0
    rw [h0] at hbit
    exact absurd hbit (by decide)
  rw [toPhysical, if_pos hne, hmask, Nat.and_two_pow_sub_one_eq_mod]
  congr 1
  simp only [hsdmOffset, hsdmSize] at *
  omega

/-- **Clearing a mapped range** of frames that are not tables changes no table. -/
theorem clearRange_spec {s : State} (h : TreeInv s none) {f n : ℕ} (hn : f + n ≤ heapPages)
    (hmap : ∀ i < n, ∃ t, s.page (heapStart + f + i) = some t ∧ t.frame = f + i)
    (hfree : ∀ i < n, ∀ d w, s.node d w ≠ some (f + i)) :
    ∃ mem, clearRange s (heapAddr f) n = .ok { s with mem := mem } ∧ SameTables s mem := by
  induction n with
  | zero => exact ⟨s.mem, rfl, fun _ _ _ _ => rfl⟩
  | succ n ih =>
      obtain ⟨mem, hok, hmem⟩ := ih (by omega) (fun i hi => hmap i (by omega))
        (fun i hi => hfree i (by omega))
      obtain ⟨t, ht, hframe⟩ := hmap n (by omega)
      have haddr : heapAddr f + n * pageSize = heapAddr (f + n) := by
        simp only [heapAddr, pageSize]
        omega
      have htrans : translatePage { s with mem := mem } (heapAddr f + n * pageSize) = some t := by
        rw [haddr, translatePage_heapAddr _ (by omega), hmem.page_eq h, ← add_assoc, ht]
      refine ⟨Function.update mem t.frame fun _ => Descriptor.zero, ?_, ?_⟩
      · simp only [clearRange, hok, bind, Except.bind, htrans]
      · intro d w g hg
        have hne : g ≠ t.frame := by
          rintro rfl
          exact hfree n (by omega) d w (hframe ▸ hg)
        rw [Function.update_of_ne hne, hmem d w g hg]

/-! ### The invariant -/

/-- The path of the page goes through an entry of the PML4 that belongs to the heap. -/
def InHeap (w : ℕ) : Prop := 416 ≤ tree.idx 0 w ∧ tree.idx 0 w < 448

/-- A page belongs to the heap if and only if it is one of the `heapPages` pages from
`heapStart` on. -/
theorem inHeap_iff {w : ℕ} (hw : w < pageCount) :
    InHeap w ↔ heapStart ≤ w ∧ w < heapStart + heapPages := by
  simp only [InHeap, tree, heapStart, heapPages, pageCount] at *
  omega

/-- A page with the same entry of the PML4 as a page of the heap belongs to the heap too. -/
theorem InHeap.agree {v w : ℕ} (h : InHeap w) (hagree : tree.Agree 1 v w) : InHeap v := by
  rw [InHeap, hagree 0 (by omega)]
  exact h

/-- **Without a mapped page, the heap has no table**: the walk ends at the PML4 for each of its
pages. -/
theorem node_none_of_unmapped {s : State} (h : TreeInv s none)
    (hun : ∀ f < heapPages, s.page (heapStart + f) = none) {w : ℕ} (hw : InHeap w) (d : ℕ) :
    s.node (d + 1) w = none := by
  -- Paths depend on the page number modulo the number of pages only.
  have hidx : tree.Agree 1 (w % pageCount) w := by
    intro k hk
    obtain rfl : k = 0 := by omega
    simp only [tree, pageCount]
    omega
  have hlt : w % pageCount < pageCount := Nat.mod_lt _ (by decide)
  by_contra hne
  obtain ⟨f, hf⟩ := Option.ne_none_iff_exists'.mp hne
  obtain ⟨g, hg⟩ := node_some_of_le hf (show 1 ≤ d + 1 by omega)
  have hg' := (node_congr hidx).trans hg
  obtain ⟨hpres, -, -⟩ := child_eq_some.mp ((node_succ (d := 0) rfl).symm.trans hg')
  obtain ⟨v, hv, hagree, hpage⟩ := exists_mapped h (Nat.zero_le 3) hlt
    (entry_of_node (d := 0) rfl) hpres (by simp)
  obtain ⟨h1, h2⟩ := (inHeap_iff hv).mp (hw.agree (hagree.trans hidx))
  have := hun (v - heapStart) (by omega)
  rw [show heapStart + (v - heapStart) = v by omega] at this
  exact hpage this

/-- A block of frames that is mapped at the offset of the heap. -/
structure Block.InRange (b : Block) : Prop where
  addr_eq : b.addr = heapAddr b.frame
  phys_eq : b.phys = b.frame * pageSize
  pos : 1 ≤ b.n
  small : b.n < 512
  fits : b.frame + b.n ≤ heapPages

/-- **The invariant of the heap's pages**, relative to the state of the start. -/
structure HeapInv (s₀ : State) (m : Heap) : Prop where
  tree : TreeInv m.state none
  pml4_eq : m.state.pml4 = s₀.pml4
  enabled_eq : m.state.enabled = s₀.enabled
  pool : SamePool s₀.pmm m.state.pmm
  blocks : ∀ b ∈ m.live, b.InRange
  disjoint : m.live.Pairwise fun b c => ∀ f, ¬ (b.Holds f ∧ c.Holds f)
  mapped : ∀ f, Live m.live f → m.state.page (heapStart + f) = some (requested pageWrite f)
  unmapped : ∀ f < heapPages, ¬ Live m.live f → m.state.page (heapStart + f) = none
  /-- the tables of the heap have no large pages -/
  small : ∀ d w g i, InHeap w → 1 ≤ d → d ≤ 2 → m.state.node d w = some g →
    (m.state.mem g i).pageSize = false
  /-- the frames that are held and are no tables -/
  residual : ∀ f, Held m.state.pmm f ∧ ¬ IsTable m.state f ↔
    Held s₀.pmm f ∧ ¬ IsTable s₀ f ∨ Live m.live f
  fresh : ∀ f, Live m.live f → ¬ (Held s₀.pmm f ∧ ¬ IsTable s₀ f) ∧ f ≠ s₀.pml4
  others_node : ∀ d w, ¬ InHeap w → m.state.node d w = s₀.node d w
  others_leaf : ∀ w < pageCount, ¬ InHeap w → ∀ d e, Leaf m.state d w e ↔ Leaf s₀ d w e

/-- With no live block, no frame is live. -/
theorem not_live_nil (f : ℕ) : ¬ Live [] f := by
  rintro ⟨b, hb, -⟩
  exact absurd hb (by simp)

/-- The frames of a list of blocks are those of its first block and those of the rest. -/
theorem live_cons {b : Block} {bs : List Block} {f : ℕ} :
    Live (b :: bs) f ↔ b.Holds f ∨ Live bs f := by
  simp only [Live, List.mem_cons, exists_eq_or_imp]

/-- **The start** of a run satisfies the invariant: the tables form a tree, and nothing is
mapped in the heap. -/
theorem HeapInv.start {s₀ : State} (h : TreeInv s₀ none)
    (hun : ∀ f < heapPages, s₀.page (heapStart + f) = none) : HeapInv s₀ ⟨s₀, []⟩ where
  tree := h
  pml4_eq := rfl
  enabled_eq := rfl
  pool := .refl _
  blocks := by simp
  disjoint := .nil
  mapped := fun f hf => absurd hf (not_live_nil f)
  unmapped := fun f hf _ => hun f hf
  small := by
    intro d w g i hw hd1 hd2 hg
    obtain ⟨d, rfl⟩ : ∃ k, d = k + 1 := ⟨d - 1, by omega⟩
    exact absurd ((node_none_of_unmapped h hun hw d).symm.trans hg) (by simp)
  residual := by simp [not_live_nil]
  fresh := fun f hf => absurd hf (not_live_nil f)
  others_node := fun _ _ _ => rfl
  others_leaf := fun _ _ _ _ _ => Iff.rfl

/-- Live frames are held, are no tables, and are frames of the heap. -/
theorem HeapInv.live_held {s₀ : State} {m : Heap} (h : HeapInv s₀ m) {f : ℕ}
    (hf : Live m.live f) : Held m.state.pmm f ∧ ¬ IsTable m.state f ∧ f < heapPages := by
  obtain ⟨h1, h2⟩ := (h.residual f).mpr (.inr hf)
  obtain ⟨b, hb, hholds⟩ := hf
  have := (h.blocks b hb).fits
  exact ⟨h1, h2, by unfold Block.Holds at hholds; omega⟩

/-- Stores outside of the tables, into the memory of the blocks, keep the invariant of the
run. -/
theorem HeapInv.sameTables {s₀ : State} {m : Heap} (h : HeapInv s₀ m)
    {mem : ℕ → ℕ → Descriptor} (hmem : SameTables m.state mem) :
    HeapInv s₀ ⟨{ m.state with mem := mem }, m.live⟩ where
  tree := hmem.treeInv h.tree
  pml4_eq := h.pml4_eq
  enabled_eq := h.enabled_eq
  pool := h.pool
  blocks := h.blocks
  disjoint := h.disjoint
  mapped := fun f hf => (hmem.page_eq h.tree _).trans (h.mapped f hf)
  unmapped := fun f hf hl => (hmem.page_eq h.tree _).trans (h.unmapped f hf hl)
  small := by
    intro d w g i hw hd1 hd2 hg
    have hg' := (hmem.node_eq d w).symm.trans hg
    exact (congrArg Descriptor.pageSize (congrFun (hmem d w g hg') i)).trans
      (h.small d w g i hw hd1 hd2 hg')
  residual := fun f => by
    rw [hmem.isTable_iff]
    exact h.residual f
  fresh := h.fresh
  others_node := fun d w hw => (hmem.node_eq d w).trans (h.others_node d w hw)
  others_leaf := fun w hw hn d e => (hmem.leaf_iff d w e).trans (h.others_leaf w hw hn d e)

/-! ### Allocations -/

section Allocate

variable {s₀ : State} {m : Heap} (h : HeapInv s₀ m) {a : BitmapAllocator} {f n : ℕ}
  (hn1 : 1 ≤ n) (hn : n < 512) (hfits : f + n ≤ heapPages) (hwf : a.WellFormed)
  (hsame : SamePool m.state.pmm a) (havail : ∀ k < n, Avail m.state.pmm (f + k))
  (hheld : ∀ g, Held a g ↔ Held m.state.pmm g ∨ f ≤ g ∧ g < f + n)

include havail in
/-- The frames that an allocation takes were available to the memory manager before it. -/
theorem avail_of_range {g : ℕ} (h1 : f ≤ g) (h2 : g < f + n) : Avail m.state.pmm g := by
  have := havail (g - f) (by omega)
  rwa [show f + (g - f) = g by omega] at this

include h havail in
/-- The frames that an allocation takes belong to no live block, as they were available. -/
theorem HeapInv.not_live {g : ℕ} (h1 : f ≤ g) (h2 : g < f + n) : ¬ Live m.live g := fun hl =>
  (h.live_held hl).1.not_avail (avail_of_range havail h1 h2)

include h hwf hsame hheld in
/-- The tables once the memory manager has handed out the frames. -/
theorem HeapInv.treeInv_allocated : TreeInv { m.state with pmm := a } none := by
  apply treeInv_pmm h.tree hwf hsame
  · intro d w g hg
    exact (hheld g).mpr (.inl (h.tree.held d w g hg))
  · intro hav
    obtain ⟨hm, hnot⟩ := avail_iff.mp hav
    refine h.tree.root (avail_iff.mpr ⟨(hsame.managed_iff _).mp hm, ?_⟩)
    exact fun hh => hnot ((hheld _).mpr (.inl hh))

include h hn1 hn hfits hwf hsame havail hheld in
/-- **The invariant after an allocation**, once its frames are mapped. -/
theorem HeapInv.allocated {s' : State}
    (hmaps : Maps { m.state with pmm := a } s' (heapStart + f) n f pageWrite) :
    HeapInv s₀ ⟨s', ⟨heapAddr f, f * pageSize, n⟩ :: m.live⟩ := by
  set b : Block := ⟨heapAddr f, f * pageSize, n⟩ with hb
  have hframe : b.frame = f := Nat.mul_div_cancel _ (by decide)
  have hholds : ∀ g, b.Holds g ↔ f ≤ g ∧ g < f + n := by
    intro g
    rw [Block.Holds, hframe]
  have htable : ∀ g, b.Holds g → ¬ IsTable m.state g := by
    rintro g hg ⟨d, w, hw⟩
    obtain ⟨h1, h2⟩ := (hholds g).mp hg
    exact h.tree.not_avail hw (avail_of_range havail h1 h2)
  -- The pages outside of the block are translated as before.
  have hpage : ∀ g < heapPages, ¬ b.Holds g →
      s'.page (heapStart + g) = m.state.page (heapStart + g) := by
    intro g hg hnot
    rw [hholds] at hnot
    refine page_congr (h.treeInv_allocated hwf hsame hheld) hmaps.inv
      (hmaps.outside (heapStart + g) ?_ (by omega))
    simp only [heapStart, heapPages, pageCount] at *
    omega
  have hheap : ∀ v, heapStart + f ≤ v → v < heapStart + f + n → v < pageCount ∧ InHeap v := by
    intro v h1 h2
    have hv : v < pageCount := by
      simp only [heapStart, heapPages, pageCount] at *
      omega
    exact ⟨hv, (inHeap_iff hv).mpr ⟨by omega, by omega⟩⟩
  refine ⟨hmaps.inv, hmaps.along.pml4_eq.trans h.pml4_eq,
    hmaps.along.enabled_eq.trans h.enabled_eq, h.pool.trans (hsame.trans hmaps.along.pool),
    ?_, ?_, ?_, ?_, ?_, ?_, ?_, ?_, ?_⟩
  · intro c hc
    rcases List.mem_cons.mp hc with rfl | hc
    · exact ⟨by rw [hframe], by rw [hframe], hn1, hn, by rw [hframe]; exact hfits⟩
    · exact h.blocks c hc
  · refine List.pairwise_cons.mpr ⟨?_, h.disjoint⟩
    rintro c hc g ⟨hg, hg'⟩
    obtain ⟨h1, h2⟩ := (hholds g).mp hg
    exact h.not_live havail h1 h2 ⟨c, hc, hg'⟩
  · intro g hg
    by_cases hin : b.Holds g
    · obtain ⟨h1, h2⟩ := (hholds g).mp hin
      have := hmaps.mapped (g - f) (by omega)
      rwa [show heapStart + f + (g - f) = heapStart + g by omega,
        show f + (g - f) = g by omega] at this
    · have hl := (live_cons.mp hg).resolve_left hin
      rw [hpage g (h.live_held hl).2.2 hin]
      exact h.mapped g hl
  · intro g hlt hg
    rw [live_cons, not_or] at hg
    rw [hpage g hlt hg.1]
    exact h.unmapped g hlt hg.2
  · intro d w g i hw hd1 hd2 hg
    by_contra hsize
    obtain ⟨hg', hsize'⟩ := hmaps.small hn d w g i (by omega) hg (by simpa using hsize)
    exact absurd (h.small d w g i hw hd1 hd2 hg') (by simpa using hsize')
  · intro g
    rw [hmaps.along.residual g]
    change Held a g ∧ ¬ IsTable m.state g ↔ _
    have hres := h.residual g
    rw [hheld, live_cons, hholds, or_and_right, hres]
    have hout : (f ≤ g ∧ g < f + n) ∧ ¬ IsTable m.state g ↔ f ≤ g ∧ g < f + n :=
      and_iff_left_of_imp fun hin => htable g ((hholds g).mpr hin)
    rw [hout]
    exact or_assoc.trans (or_congr_right or_comm)
  · intro g hg
    by_cases hin : b.Holds g
    · obtain ⟨h1, h2⟩ := (hholds g).mp hin
      have hav := avail_of_range havail h1 h2
      refine ⟨?_, ?_⟩
      · intro hres
        exact ((h.residual g).mpr (.inl hres)).1.not_avail hav
      · rintro rfl
        rw [← h.pml4_eq] at hav
        exact h.tree.root hav
    · exact h.fresh g ((live_cons.mp hg).resolve_left hin)
  · intro d w hw
    refine (hmaps.along.other d w ?_).trans (h.others_node d w hw)
    rintro v ⟨h1, h2⟩ hagree
    exact hw ((hheap v h1 h2).2.agree hagree)
  · intro w hw hnot d e
    refine (hmaps.outside w hw ?_ d e).trans
      ((leaf_pmm _ _ _ _ _).trans (h.others_leaf w hw hnot d e))
    rintro ⟨h1, h2⟩
    exact hnot (hheap w h1 h2).2

include h hn1 hn hfits hwf hsame havail hheld in
/-- **Mapping the frames of an allocation**, and clearing them. -/
theorem HeapInv.mapInHeap_keeps :
    mapInHeap { m.state with pmm := a } (f * pageSize) n pageWrite = .error .panic ∨
    ∃ s' mem, mapInHeap { m.state with pmm := a } (f * pageSize) n pageWrite =
        .ok (heapAddr f, s') ∧
      clearRange s' (heapAddr f) n = .ok { s' with mem := mem } ∧ SameTables s' mem ∧
      HeapInv s₀ ⟨s', ⟨heapAddr f, f * pageSize, n⟩ :: m.live⟩ := by
  have hlt : ¬ f * pageSize ≥ hsdmSize := by
    simp only [pageSize, hsdmSize, heapPages] at *
    omega
  have hmapped : wadd (f * pageSize) hsdmOffset = heapAddr f := by
    simp only [wadd, heapAddr, pageSize, hsdmOffset, heapPages] at *
    omega
  have hvars : LoopVars (f * pageSize) (heapAddr f) f (heapStart + f) n := by
    constructor <;> simp only [heapAddr, pageNumber, pageSize, hsdmOffset, heapPages, heapStart,
      pageCount] at * <;> omega
  have hmis : ¬ Misaligned m.state.has1GBPages f (heapStart + f) n := by
    unfold Misaligned
    omega
  have hun : ∀ i < n, m.state.page (heapStart + f + i) = none := by
    intro i hi
    rw [add_assoc]
    exact h.unmapped _ (by omega) (h.not_live havail (by omega) (by omega))
  rcases mapLoop_exact pageWrite n le_rfl (h.treeInv_allocated hwf hsame hheld) hvars
    hun hmis with hpanic | ⟨s', hok, hmaps⟩
  · left
    simp only [mapInHeap, if_neg hlt, hmapped, map, hpanic, bind, Except.bind]
  · right
    have hinv := h.allocated hn1 hn hfits hwf hsame havail hheld hmaps
    have hlive : ∀ i < n, Live (⟨heapAddr f, f * pageSize, n⟩ :: m.live) (f + i) := by
      intro i hi
      refine live_cons.mpr (.inl ?_)
      simp only [Block.Holds, Block.frame, pageSize]
      omega
    obtain ⟨mem, hclear, hmem⟩ := clearRange_spec hinv.tree hfits
      (fun i hi => ⟨_, by rw [add_assoc]; exact hinv.mapped _ (hlive i hi), rfl⟩) (by
        intro i hi d w hw
        cases d with
        | zero =>
            have hroot := (hinv.fresh _ (hlive i hi)).2
            exact hroot ((Option.some.inj hw).symm.trans hinv.pml4_eq)
        | succ d => exact (hinv.live_held (hlive i hi)).2.1 ⟨d, w, hw⟩)
    refine ⟨s', mem, ?_, hclear, hmem, hinv⟩
    simp only [mapInHeap, if_neg hlt, hmapped, map, hok, bind, Except.bind, pure, Except.pure]

end Allocate

/-- **What an allocation keeps**: it panics, it returns no pages and changes nothing, or it
returns the address of pages that are now live. -/
theorem allocatePages_keeps {s₀ : State} {m : Heap} (h : HeapInv s₀ m)
    (hpool : firstFrame s₀.pmm + s₀.pmm.nBlocks ≤ heapPages) {n : ℕ} (hn1 : 1 ≤ n) (hn : n < 512)
    (clear : Bool) :
    allocatePages m.state n clear = .error .panic ∨
    allocatePages m.state n clear = .ok (0, m.state) ∨
    ∃ res s', allocatePages m.state n clear = .ok (res, s') ∧ res ≠ 0 ∧
      HeapInv s₀ ⟨s', ⟨res, (PMM.allocatePages m.state.pmm n).1, n⟩ :: m.live⟩ := by
  unfold allocatePages
  rw [if_neg (by omega)]
  rcases allocatePages_frames h.tree.pmm_wf n with
    heq | ⟨f, a, -, hf0, heq, hwf, hsame, havail, hheld⟩
  · right; left
    simp only [heq, if_true]
    rfl
  · have hne : f * pageSize ≠ 0 := by
      simp only [pageSize]
      omega
    have hfits : f + n ≤ heapPages := by
      have hlast := ((h.pool.managed_iff _).mp (havail (n - 1) (by omega)).1).2
      omega
    have hres : heapAddr f ≠ 0 := by
      simp only [heapAddr, hsdmOffset]
      omega
    simp only [heq, if_neg hne]
    rcases h.mapInHeap_keeps hn1 hn hfits hwf hsame havail hheld with
      hpanic | ⟨s', mem, hmap, hclear, hmem, hinv⟩
    · left
      simp only [hpanic, bind, Except.bind]
    · right; right
      cases clear with
      | false =>
          refine ⟨heapAddr f, s', ?_, hres, hinv⟩
          simp [hmap, bind, Except.bind, pure, Except.pure]
      | true =>
          refine ⟨heapAddr f, { s' with mem := mem }, ?_, hres, hinv.sameTables hmem⟩
          simp [hmap, hclear, bind, Except.bind, pure, Except.pure]

/-! ### Frees -/

section Free

variable {s₀ : State} {m : Heap} (h : HeapInv s₀ m) {b : Block} (hb : b ∈ m.live)

include h hb in
/-- After a free the remaining blocks are still disjoint, and their frames are those of before
without those of the freed block. -/
theorem HeapInv.erase : (∀ c ∈ m.live.erase b, c ∈ m.live) ∧
    (m.live.erase b).Pairwise (fun b c => ∀ f, ¬ (b.Holds f ∧ c.Holds f)) ∧
    ∀ f, Live (m.live.erase b) f ↔ Live m.live f ∧ ¬ b.Holds f := by
  have hperm := List.perm_cons_erase hb
  have hpair := (hperm.pairwise_iff (fun h f hf => h f hf.symm)).mp h.disjoint
  obtain ⟨hfirst, hrest⟩ := List.pairwise_cons.mp hpair
  refine ⟨fun c hc => List.mem_of_mem_erase hc, hrest, ?_⟩
  intro f
  have hlive : Live m.live f ↔ Live (b :: m.live.erase b) f := by
    simp only [Live, hperm.mem_iff]
  rw [hlive, live_cons]
  constructor
  · intro hl
    refine ⟨.inr hl, ?_⟩
    obtain ⟨c, hc, hcf⟩ := hl
    exact fun hbf => hfirst c hc f ⟨hbf, hcf⟩
  · rintro ⟨hl, hnot⟩
    exact hl.resolve_left hnot

include h in
/-- The pages of the heap are mapped by pages of 4 KB. -/
theorem HeapInv.leaf_depth {w d : ℕ} {e : Descriptor} (hw : InHeap w)
    (hleaf : Leaf m.state d w e) : d = 3 := by
  obtain ⟨g, hg, he⟩ := entry_eq_some.mp hleaf.entry_eq
  have hd := node_of_four_le hg
  have hp := hleaf.isPage
  simp only [isPage, Bool.or_eq_true, Bool.and_eq_true, decide_eq_true_eq] at hp
  by_contra hne
  have hp' := hp.resolve_left (by omega)
  have := h.small d w g (Paging.tree.idx d w) hw hp'.1 (by omega) hg
  rw [he, hp'.2] at this
  exact absurd this (by decide)

include h hb in
/-- **Unmapping a live block** succeeds, and takes exactly the pages of the block out of the
translation. -/
theorem HeapInv.unmap_block : ∃ s' tables, unmap m.state b.addr b.n = .ok (s', tables) ∧
    Unmaps m.state s' (heapStart + b.frame) b.n := by
  have hr := h.blocks b hb
  have hfits := hr.fits
  have hsmall := hr.small
  have hheap : ∀ i < b.n, InHeap (heapStart + b.frame + i) := by
    intro i hi
    have hv : heapStart + b.frame + i < pageCount := by
      simp only [heapStart, heapPages, pageCount] at *
      omega
    exact (inHeap_iff hv).mpr ⟨by omega, by omega⟩
  obtain ⟨s', tables, hok, -, hun⟩ := unmapLoop_exact (b.n + 1) (s := m.state)
    (v := heapStart + b.frame) (r := b.n) [] (by omega) h.tree
    (show b.addr < 2 ^ 64 by
      rw [hr.addr_eq]
      simp only [heapAddr, hsdmOffset, pageSize, heapPages] at *
      omega)
    (by
      rw [hr.addr_eq]
      simp only [heapAddr, hsdmOffset, pageSize]
      omega)
    (by
      intro _
      rw [hr.addr_eq]
      simp only [heapAddr, hsdmOffset, pageSize, pageNumber, heapStart, heapPages] at *
      omega)
    (by
      simp only [heapStart, heapPages, pageCount] at *
      omega)
    (by
      intro i hi
      have hmapped := h.mapped (b.frame + i) ⟨b, hb, by omega, by omega⟩
      obtain ⟨d, e, hleaf⟩ := (page_ne_none h.tree).mp (by rw [hmapped]; simp)
      rw [← add_assoc] at hleaf
      obtain rfl := h.leaf_depth (hheap i hi) hleaf
      have hdepth : pageDepth m.state.has1GBPages (heapStart + b.frame) b.n
          (heapStart + b.frame + i) = 3 := by
        rw [pageDepth, if_neg, if_neg]
        · rintro ⟨h1, h2⟩
          omega
        · rintro ⟨-, h1, h2⟩
          omega
      rw [hdepth]
      exact ⟨e, hleaf⟩)
    (by
      intro i hi d g hd1 hd2 hg
      rw [h.small d _ g _ (hheap i hi) hd1 hd2 hg, h.small d _ g _ (hheap i hi) hd1 hd2 hg])
  exact ⟨s', tables, hok, hun⟩

include h hb in
/-- The frames of a block are given back once its pages are unmapped: the tree keeps its shape, and
exactly these frames are no longer held. -/
theorem HeapInv.tree_freed {s' : State} (hun : Unmaps m.state s' (heapStart + b.frame) b.n) :
    TreeInv { s' with pmm := PMM.freePages s'.pmm b.phys b.n } none ∧
      SamePool s'.pmm (PMM.freePages s'.pmm b.phys b.n) ∧
      ∀ g, Held (PMM.freePages s'.pmm b.phys b.n) g ↔ Held s'.pmm g ∧ ¬ b.Holds g := by
  have hr := h.blocks b hb
  have hres : ∀ f, b.Holds f → Held s'.pmm f ∧ ¬ IsTable s' f := by
    intro f hf
    have := h.live_held ⟨b, hb, hf⟩
    exact (hun.along.residual f).mpr ⟨this.1, this.2.1⟩
  obtain ⟨hwf, hsame, hheld⟩ := freePages_frames hun.inv.pmm_wf hr.pos
    (fun k hk => (hres (b.frame + k) ⟨by omega, by omega⟩).1)
  rw [← hr.phys_eq] at hwf hsame hheld
  refine ⟨?_, hsame, hheld⟩
  apply treeInv_pmm hun.inv hwf hsame
  · intro d w f hf
    refine (hheld f).mpr ⟨hun.inv.held d w f hf, ?_⟩
    exact fun hin => (hres f hin).2 ⟨d, w, hf⟩
  · intro hav
    obtain ⟨hm, hnot⟩ := avail_iff.mp hav
    rw [hheld, not_and_not_right] at hnot
    by_cases hh : Held s'.pmm s'.pml4
    · refine (h.fresh _ ⟨b, hb, hnot hh⟩).2 ?_
      rw [hun.along.pml4_eq, h.pml4_eq]
    · exact hun.inv.root (avail_iff.mpr ⟨(hsame.managed_iff _).mp hm, hh⟩)

include h hb in
/-- **What a free keeps**: it returns, and the block is no longer live. -/
theorem freePages_keeps :
    ∃ s', freePages m.state b.addr b.n = .ok s' ∧ HeapInv s₀ ⟨s', m.live.erase b⟩ := by
  have hr := h.blocks b hb
  have hfits := hr.fits
  obtain ⟨s', tables, hok, hun⟩ := h.unmap_block hb
  obtain ⟨hsub, hpair, hlive⟩ := h.erase hb
  have hphys : toPhysical b.addr = .ok b.phys := by
    rw [hr.addr_eq, hr.phys_eq, heapAddr]
    apply toPhysical_heapAddr
    have := hr.pos
    simp only [pageSize, hsdmSize, heapPages] at *
    omega
  obtain ⟨hinv, hsame, hheld⟩ := h.tree_freed hb hun
  refine ⟨{ s' with pmm := PMM.freePages s'.pmm b.phys b.n },
    by simp only [freePages, hphys, hok, bind, Except.bind, pure, Except.pure], ?_⟩
  have hpage : ∀ g < heapPages, ¬ b.Holds g →
      s'.page (heapStart + g) = m.state.page (heapStart + g) := by
    intro g hg hnot
    refine page_congr h.tree hun.inv (hun.outside (heapStart + g) ?_ ?_)
    · simp only [heapStart, heapPages, pageCount] at *
      omega
    · unfold Block.Holds at hnot
      omega
  have hheap : ∀ v, heapStart + b.frame ≤ v → v < heapStart + b.frame + b.n → InHeap v := by
    intro v h1 h2
    have hv : v < pageCount := by
      simp only [heapStart, heapPages, pageCount] at *
      omega
    exact (inHeap_iff hv).mpr ⟨by omega, by omega⟩
  refine ⟨hinv, hun.along.pml4_eq.trans h.pml4_eq, hun.along.enabled_eq.trans h.enabled_eq,
    h.pool.trans (hun.along.pool.trans hsame), fun c hc => h.blocks c (hsub c hc), hpair,
    ?_, ?_, ?_, ?_, ?_, ?_, ?_⟩
  · intro g hg
    obtain ⟨hl, hnot⟩ := (hlive g).mp hg
    exact (hpage g (h.live_held hl).2.2 hnot).trans (h.mapped g hl)
  · intro g hg hnot
    rw [hlive, not_and_not_right] at hnot
    by_cases hin : b.Holds g
    · have := hun.unmapped (g - b.frame) (by unfold Block.Holds at hin; omega)
      rwa [show heapStart + b.frame + (g - b.frame) = heapStart + g by
        unfold Block.Holds at hin; omega] at this
    · exact (hpage g hg hin).trans (h.unmapped g hg fun hl => hin (hnot hl))
  · intro d w g i hw hd1 hd2 hg
    exact (hun.size g i).trans (h.small d w g i hw hd1 hd2 (hun.sub d w g hg))
  · intro g
    change Held (PMM.freePages s'.pmm b.phys b.n) g ∧ ¬ IsTable s' g ↔ _
    have hiff : Held (PMM.freePages s'.pmm b.phys b.n) g ∧ ¬ IsTable s' g ↔
        (Held s'.pmm g ∧ ¬ IsTable s' g) ∧ ¬ b.Holds g := by
      rw [hheld]
      exact and_right_comm
    have hnot : b.Holds g → ¬ (Held s₀.pmm g ∧ ¬ IsTable s₀ g) := fun hg =>
      (h.fresh g ⟨b, hb, hg⟩).1
    rw [hiff, hun.along.residual, h.residual, hlive]
    constructor
    · rintro ⟨hres | hl, hout⟩
      · exact .inl hres
      · exact .inr ⟨hl, hout⟩
    · rintro (hres | ⟨hl, hout⟩)
      · exact ⟨.inl hres, fun hin => hnot hin hres⟩
      · exact ⟨.inr hl, hout⟩
  · intro g hg
    exact h.fresh g ((hlive g).mp hg).1
  · intro d w hw
    refine (hun.along.other d w ?_).trans (h.others_node d w hw)
    rintro v ⟨h1, h2⟩ hagree
    exact hw ((hheap v h1 h2).agree hagree)
  · intro w hw hnot d e
    refine (leaf_pmm _ _ _ _ _).trans ((hun.outside w hw ?_ d e).trans
      (h.others_leaf w hw hnot d e))
    rintro ⟨h1, h2⟩
    exact hnot (hheap w h1 h2)

end Free

/-- **One step** of a run, an allocation or a free, keeps the invariant of the page tables. -/
theorem HeapInv.step {s₀ : State} {m m' : Heap} {c : Call} (h : HeapInv s₀ m)
    (hpool : firstFrame s₀.pmm + s₀.pmm.nBlocks ≤ heapPages) (hstep : HeapStep m c m') :
    HeapInv s₀ m' := by
  cases hstep with
  | @null s' n clear h1 h2 hok =>
      rcases allocatePages_keeps h hpool h1 h2 clear with
        hpanic | hnull | ⟨res, s'', hsome, hne, -⟩
      · rw [hok] at hpanic
        exact absurd hpanic (by simp)
      · rw [hok, Except.ok.injEq, Prod.mk.injEq] at hnull
        rw [hnull.2]
        exact h
      · rw [hok, Except.ok.injEq, Prod.mk.injEq] at hsome
        exact absurd hsome.1.symm hne
  | @allocate s' n res clear h1 h2 hok hres =>
      rcases allocatePages_keeps h hpool h1 h2 clear with
        hpanic | hnull | ⟨res', s'', hsome, -, hinv⟩
      · rw [hok] at hpanic
        exact absurd hpanic (by simp)
      · rw [hok, Except.ok.injEq, Prod.mk.injEq] at hnull
        exact absurd hnull.1 hres
      · rw [hok, Except.ok.injEq, Prod.mk.injEq] at hsome
        obtain ⟨rfl, rfl⟩ := hsome
        exact hinv
  | @free s' b hb hok =>
      obtain ⟨s'', hok', hinv⟩ := freePages_keeps h hb
      rw [hok, Except.ok.injEq] at hok'
      rw [hok']
      exact hinv

/-! ### Every run -/

/-- Under the invariant a page of the heap is mapped if and only if its frame is live, and then
to this frame. -/
theorem HeapInv.mirrors {s₀ : State} {m : Heap} (h : HeapInv s₀ m) : Mirrors m := by
  have haddr : ∀ b ∈ m.live, ∀ i, b.addr + i * pageSize = heapAddr (b.frame + i) := by
    intro b hb i
    rw [(h.blocks b hb).addr_eq]
    simp only [heapAddr, pageSize]
    omega
  have hphys : ∀ b ∈ m.live, ∀ i, b.phys + i * pageSize = (b.frame + i) * pageSize := by
    intro b hb i
    rw [(h.blocks b hb).phys_eq, add_mul]
  have hlive : ∀ b ∈ m.live, ∀ i < b.n, Live m.live (b.frame + i) := fun b hb i hi =>
    ⟨b, hb, by omega, by omega⟩
  refine ⟨?_, ?_, ?_⟩
  · intro b hb i hi
    have hlt := (h.live_held (hlive b hb i hi)).2.2
    rw [haddr b hb, hphys b hb]
    apply toPhysical_heapAddr
    simp only [pageSize, hsdmSize, heapPages] at *
    omega
  · intro b hb i hi
    have hl := hlive b hb i hi
    refine ⟨requested pageWrite (b.frame + i), ?_, ?_⟩
    · rw [haddr b hb, translatePage_heapAddr _ (h.live_held hl).2.2]
      exact h.mapped _ hl
    · rw [hphys b hb]
      rfl
  · intro f hf hne
    rw [translatePage_heapAddr _ hf] at hne
    by_cases hl : Live m.live f
    · obtain ⟨b, hb, h1, h2⟩ := hl
      refine ⟨b, hb, f - b.frame, by omega, ?_⟩
      rw [haddr b hb, show b.frame + (f - b.frame) = f by omega]
    · exact absurd (h.unmapped f hf hl) hne

/-- An entry that refers to a table is met on the walk of some page, which continues at this
table. -/
theorem PointsTo.node {s : State} {a i f : ℕ} (h : PointsTo s a i f) :
    ∃ d w, s.node d w = some a ∧ tree.idx d w = i ∧ s.node (d + 1) w = some f := by
  obtain ⟨d, w, ha, hi, h1, h2, h3⟩ := h
  refine ⟨d, w, ha, hi, (node_succ ha).trans ?_⟩
  rw [hi]
  exact child_eq_some.mpr ⟨h1, h2, h3⟩

/-- Under the invariant every table has one entry that refers to it, is held and not empty, and
is not the frame of a live block. -/
theorem HeapInv.ownsTables {s₀ : State} {m : Heap} (h : HeapInv s₀ m) : OwnsTables m := by
  refine ⟨?_, ?_, ?_, ?_⟩
  · intro a i a' i' f hp hp'
    obtain ⟨d, w, ha, hi, hf⟩ := hp.node
    obtain ⟨d', w', ha', hi', hf'⟩ := hp'.node
    obtain ⟨hd, hagree⟩ := h.tree.separated _ _ _ _ _ hf hf'
    obtain rfl : d = d' := by omega
    rw [agree_succ] at hagree
    refine ⟨?_, ?_⟩
    · exact Option.some.inj (ha.symm.trans ((node_congr hagree.1).trans ha'))
    · rw [← hi, ← hi', hagree.2]
  · intro a i f hp
    obtain ⟨d, w, -, -, hf⟩ := hp.node
    have hheld := h.tree.held d w f hf
    exact ⟨hheld, hheld.not_avail⟩
  · intro a i f hp
    obtain ⟨d, w, -, -, hf⟩ := hp.node
    exact h.tree.nonempty d w f hf (by simp)
  · intro a i f hp hl
    obtain ⟨d, w, -, -, hf⟩ := hp.node
    exact (h.live_held hl).2.1 ⟨d, w, hf⟩

/-- Bitmaps of one length with the same bits are equal. -/
theorem bitmap_eq_of_bit {a a' : BitmapAllocator} (h : a.Shaped) (h' : a'.Shaped)
    (hn : a'.nBlocks = a.nBlocks) (hbit : ∀ b, a'.bit b = a.bit b) : a'.bitmap = a.bitmap := by
  have hlen : a'.bitmap.length = a.bitmap.length := by
    rw [h.length_bitmap, h'.length_bitmap, h.bitmapLength_eq, h'.bitmapLength_eq, hn]
  refine List.ext_getElem hlen ?_
  intro i hi hi'
  apply BitVec.eq_of_getMsbD_eq
  intro k hk
  have := hbit (i * 64 + k)
  rw [BitmapAllocator.bit, BitmapAllocator.bit, WordBitmap.bit, WordBitmap.bit,
    show (i * 64 + k) / 64 = i by omega, show (i * 64 + k) % 64 = k by omega, WordBitmap.word,
    WordBitmap.word] at this
  simpa [List.getD_eq_getElem?_getD, hi, hi'] using this

/-- **Once every block is freed**, everything is as at the start. -/
theorem HeapInv.restored {s₀ s : State} (hs : TreeInv s₀ none)
    (hun : ∀ f < heapPages, s₀.page (heapStart + f) = none) (h : HeapInv s₀ ⟨s, []⟩) :
    Restored s₀ s := by
  have hun' : ∀ f < heapPages, s.page (heapStart + f) = none := fun f hf =>
    h.unmapped f hf (not_live_nil f)
  -- The heap has no tables, and the other tables are those of the start.
  have hnode : ∀ d w, s.node (d + 1) w = s₀.node (d + 1) w := by
    intro d w
    by_cases hw : InHeap w
    · rw [node_none_of_unmapped h.tree hun' hw, node_none_of_unmapped hs hun hw]
    · exact h.others_node (d + 1) w hw
  have htable : ∀ f, IsTable s f ↔ IsTable s₀ f := fun f =>
    exists₂_congr fun d w => by rw [hnode]
  have hheld : ∀ f, Held s.pmm f ↔ Held s₀.pmm f := by
    intro f
    by_cases ht : IsTable s f
    · obtain ⟨d, w, hw⟩ := ht
      exact iff_of_true (h.tree.held d w f hw) (hs.held d w f ((hnode d w).symm.trans hw))
    · have hres := h.residual f
      have ht₀ : ¬ IsTable s₀ f := fun h0 => ht ((htable f).mpr h0)
      simpa [ht, ht₀, not_live_nil] using hres
  refine ⟨bitmap_eq_of_bit hs.pmm_wf.toShaped h.tree.pmm_wf.toShaped h.pool.nBlocks_eq
    (h.pool.bit_eq hheld), ?_⟩
  intro addr hw
  by_cases hc : Canonical addr
  · have hw' : ¬ (s.enabled = true ∧ windowDepth addr ≠ none) := by
      rw [show s.enabled = s₀.enabled from h.enabled_eq]
      exact hw
    rw [translatePage_of_canonical hc hw, translatePage_of_canonical hc hw']
    have hlt := pageNumber_lt addr
    by_cases hin : InHeap (pageNumber addr)
    · obtain ⟨h1, h2⟩ := (inHeap_iff hlt).mp hin
      have h3 := hun (pageNumber addr - heapStart) (by omega)
      have h4 := hun' (pageNumber addr - heapStart) (by omega)
      rw [show heapStart + (pageNumber addr - heapStart) = pageNumber addr by omega] at h3 h4
      rw [h3, h4]
    · exact page_congr hs h.tree (h.others_leaf _ hlt hin)
  · rw [translatePage, translatePage, if_neg hc, if_neg hc]

/-- **The heap's page runs over whole runs.** From a state whose tables are a tree and in
which no page of the heap is mapped, with a memory manager that manages pages below
`m_hsdmSize` only: after every sequence of allocations of less than 512 pages and frees of
live blocks, in any order, the mapped pages of the heap are exactly the live ones, every
table is owned by one entry, and if no block is live, the bitmap and the translation are
those of the start. -/
theorem heap_pages_run {s₀ : State} (hs : TreeInv s₀ none)
    (hun : ∀ f < heapPages, translatePage s₀ (heapAddr f) = none)
    (hpool : s₀.pmm.start + s₀.pmm.nBlocks * pageSize ≤ hsdmSize) {cs : List Call} {m : Heap}
    (h : Runs HeapStep ⟨s₀, []⟩ cs m) :
    Mirrors m ∧ OwnsTables m ∧ (m.live = [] → Restored s₀ m.state) := by
  have hpages : ∀ f < heapPages, s₀.page (heapStart + f) = none := by
    intro f hf
    rw [← translatePage_heapAddr s₀ hf]
    exact hun f hf
  have hframes : firstFrame s₀.pmm + s₀.pmm.nBlocks ≤ heapPages := by
    have := hs.pmm_wf.start_aligned
    simp only [firstFrame, pageSize, hsdmSize, heapPages] at *
    omega
  have hinv : HeapInv s₀ m :=
    h.invariant (.start hs hpages) fun _ _ _ hi hstep => hi.step hframes hstep
  refine ⟨hinv.mirrors, hinv.ownsTables, ?_⟩
  intro hlive
  obtain ⟨s, live⟩ := m
  obtain rfl : live = [] := hlive
  exact hinv.restored hs hpages

/-- An allocation and the free of its block are a run. -/
theorem runs_allocate_free {s s' : State} {r : ℕ × State} {n : ℕ} {clear : Bool} (h1 : 1 ≤ n)
    (h2 : n < 512) (halloc : allocatePages s n clear = .ok r) (hres : r.1 ≠ 0)
    (hfree : freePages r.2 r.1 n = .ok s') :
    Runs HeapStep ⟨s, []⟩
      [.allocate n clear, .free ⟨r.1, (PMM.allocatePages s.pmm n).1, n⟩] ⟨s', []⟩ := by
  have hstep := HeapStep.free (m := ⟨r.2, [⟨r.1, (PMM.allocatePages s.pmm n).1, n⟩]⟩)
    (List.mem_singleton.mpr rfl) hfree
  rw [List.erase_cons_head] at hstep
  exact .snoc (.snoc .nil (.allocate h1 h2 halloc hres)) hstep

/-- A call that returns at all returns the value that `toOption` reads from it. -/
theorem eq_ok_of_isOk {α : Type} {x : Except Fault α} (d : α) (h : x.isOk = true) :
    x = .ok (x.toOption.getD d) := by
  cases x with
  | error f => exact absurd h (by simp [Except.isOk, Except.toBool])
  | ok a => rfl

/-- Two pages, allocated and cleared in cleared tables. -/
def twoPages : ℕ × State :=
  (allocatePages (clearedTables false) 2 true).toOption.getD (0, clearedTables false)

/-- The state after the two pages were freed. -/
def twoPagesFreed : State := (freePages twoPages.2 twoPages.1 2).toOption.getD twoPages.2

/-- The guarantee at a concrete run: two pages are allocated and freed. -/
theorem heap_pages_run_twoPages : Restored (clearedTables false) twoPagesFreed := by
  have halloc : allocatePages (clearedTables false) 2 true = .ok twoPages :=
    eq_ok_of_isOk (0, clearedTables false) (by decide +kernel)
  have hres : twoPages.1 ≠ 0 := by decide +kernel
  have hfree : freePages twoPages.2 twoPages.1 2 = .ok twoPagesFreed :=
    eq_ok_of_isOk twoPages.2 (by decide +kernel)
  have hrun := runs_allocate_free (by decide) (by decide) halloc hres hfree
  have hun : ∀ f < heapPages, translatePage (clearedTables false) (heapAddr f) = none :=
    fun f _ => translatePage_eq_none.mpr fun _ => clearedTables_page false _
  generalize twoPagesFreed = s at hrun ⊢
  exact (heap_pages_run (clearedTables_wellFormed false).tree hun (by decide) hrun).2.2 rfl

end MugOS.HeapPages
