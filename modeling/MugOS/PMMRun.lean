import MugOS.Lib.Run
import MugOS.PMMBits

/-!
# Runs of the Physical Memory Manager

One spec lemma for each public operation (`allocatePages_cases`, `freePages_of_set`),
and over them the behaviour of whole runs: any sequence of allocations and of frees of
pages that are handed out.

A run keeps, beside the allocator, the list of the addresses of the pages that are
handed out. A page that two live allocations shared would occur in it twice, so its
being free of duplicates says that live allocations are disjoint.

## Main results

* `pmm_run_safe`: allocations are aligned, in range and disjoint from everything reserved
  or handed out; the bitmap is exactly the reserved and handed out pages; the counters
  add up to what they did at the start.
* `freePages_exact_iff`: the double-free check is exact unless the only free pages of
  the range lie in its last whole word.
-/

namespace MugOS.PMM

open WordBitmap

/-! ### The updates on well-formed allocators -/

/-- `setBits` on a non-empty range of blocks keeps the allocator well-formed. -/
theorem BitmapAllocator.WellFormed.setBits {a : BitmapAllocator} (ha : a.WellFormed)
    {s e : ℕ} (hse : s < e) (he : e ≤ a.nBlocks) : (setBits a s e).WellFormed := by
  rw [setBits_eq hse he]
  exact { ha with
    length_bitmap := by simpa using ha.length_bitmap
    allocated_lt := Nat.mod_lt _ (by decide) }

/-- `clearBits` on a non-empty range of blocks keeps the allocator well-formed. -/
theorem BitmapAllocator.WellFormed.clearBits {a : BitmapAllocator} (ha : a.WellFormed)
    {s e : ℕ} (hse : s < e) (he : e ≤ a.nBlocks) : (clearBits a s e).WellFormed := by
  rw [clearBits_eq hse he]
  exact { ha with
    length_bitmap := by simpa using ha.length_bitmap
    allocated_lt := Nat.mod_lt _ (by decide) }

/-- After `setBits` the bits of the range are set, and all others are as before. -/
theorem bit_setBits {a : BitmapAllocator} (ha : a.Shaped) {s e : ℕ} (hse : s < e)
    (he : e ≤ a.nBlocks) (b : ℕ) :
    (setBits a s e).bit b = if s ≤ b ∧ b < e then true else a.bit b := by
  rw [setBits_eq hse he]
  exact bit_setWords hse (he.trans ha.nBlocks_le) b

/-- After `clearBits` the bits of the range are clear, and all others are as before. -/
theorem bit_clearBits {a : BitmapAllocator} (ha : a.Shaped) {s e : ℕ} (hse : s < e)
    (he : e ≤ a.nBlocks) (b : ℕ) :
    (clearBits a s e).bit b = if s ≤ b ∧ b < e then false else a.bit b := by
  rw [clearBits_eq hse he]
  exact bit_clearWords hse (he.trans ha.nBlocks_le) b

/-- Two bitmaps that differ on `[s, e)` only, clear there in one and set in the other,
differ by `e - s` in the number of clear bits. -/
theorem count_clear_range {f g : ℕ → Bool} {n s e : ℕ} (hse : s ≤ e) (he : e ≤ n)
    (hf : ∀ b, s ≤ b → b < e → f b = false)
    (hg : ∀ b, g b = if s ≤ b ∧ b < e then true else f b) :
    Nat.count (fun b => f b = false) n = Nat.count (fun b => g b = false) n + (e - s) := by
  have hn : n = s + ((e - s) + (n - e)) := by omega
  rw [hn]
  simp only [Nat.count_add]
  have hlow : Nat.count (fun b => f b = false) s = Nat.count (fun b => g b = false) s := by
    apply count_congr
    intro k hk
    rw [hg, if_neg (by omega)]
  have hmid : Nat.count (fun k => f (s + k) = false) (e - s) = e - s := by
    rw [Nat.count_iff_forall]
    intro k hk
    exact hf _ (by omega) (by omega)
  have hmid' : Nat.count (fun k => g (s + k) = false) (e - s) = 0 := by
    rw [Nat.count_iff_forall_not]
    intro k hk
    rw [hg, if_pos (by omega)]
    simp
  have hhigh : Nat.count (fun k => f (s + (e - s + k)) = false) (n - e) =
      Nat.count (fun k => g (s + (e - s + k)) = false) (n - e) := by
    apply count_congr
    intro k hk
    rw [hg, if_neg (by omega)]
  omega

/-- Allocated and free blocks add up to the same number after `setBits` on free blocks. -/
theorem total_setBits {a : BitmapAllocator} (ha : a.WellFormed) {s e : ℕ} (hse : s < e)
    (he : e ≤ a.nBlocks) (hfree : ∀ b, s ≤ b → b < e → a.bit b = false) :
    wadd (setBits a s e).allocatedBlocks (countFreeBlocks (setBits a s e)) =
      wadd a.allocatedBlocks (countFreeBlocks a) := by
  have hcount := count_clear_range hse.le he hfree (bit_setBits ha.toShaped hse he)
  rw [countFreeBlocks_eq (ha.setBits hse he), countFreeBlocks_eq ha]
  have hn : (setBits a s e).nBlocks = a.nBlocks := by rw [setBits_eq hse he]
  have hal : (setBits a s e).allocatedBlocks = wadd a.allocatedBlocks (e - s) := by
    rw [setBits_eq hse he]
  rw [hn, hal, hcount]
  unfold wadd
  omega

/-- Allocated and free blocks add up to the same number after `clearBits` on blocks that
are not free. -/
theorem total_clearBits {a : BitmapAllocator} (ha : a.WellFormed) {s e : ℕ} (hse : s < e)
    (he : e ≤ a.nBlocks) (hset : ∀ b, s ≤ b → b < e → a.bit b = true) :
    wadd (clearBits a s e).allocatedBlocks (countFreeBlocks (clearBits a s e)) =
      wadd a.allocatedBlocks (countFreeBlocks a) := by
  have hbit := bit_clearBits ha.toShaped hse he
  have hcount : Nat.count (fun b => (clearBits a s e).bit b = false) a.nBlocks =
      Nat.count (fun b => a.bit b = false) a.nBlocks + (e - s) := by
    apply count_clear_range hse.le he
    · intro b h1 h2
      rw [hbit, if_pos ⟨h1, h2⟩]
    · intro b
      by_cases hin : s ≤ b ∧ b < e
      · rw [if_pos hin, hset b hin.1 hin.2]
      · rw [if_neg hin, hbit, if_neg hin]
  rw [countFreeBlocks_eq (ha.clearBits hse he), countFreeBlocks_eq ha]
  have hn : (clearBits a s e).nBlocks = a.nBlocks := by rw [clearBits_eq hse he]
  have hal : (clearBits a s e).allocatedBlocks = wsub a.allocatedBlocks (e - s) := by
    rw [clearBits_eq hse he]
  have hlt := ha.nBlocks_lt
  rw [hn, hal, hcount]
  unfold wadd wsub
  omega

/-! ### One lemma for each operation -/

/-- The address of block `b`, counted in pages from the start of the allocator. -/
def blockAddr (a : BitmapAllocator) (b : ℕ) : ℕ := a.start + b * pageSize

/-- **What `PMM_allocatePages` can do**: return `NULL` and change nothing, or return the
address of a run of free blocks and set exactly their bits. -/
theorem allocatePages_cases {a : BitmapAllocator} (ha : a.WellFormed) (n : ℕ) :
    allocatePages a n = (0, a) ∨
    ∃ s, 1 ≤ n ∧ s + n ≤ a.nBlocks ∧ (∀ b, s ≤ b → b < s + n → a.bit b = false) ∧
      allocatePages a n = (blockAddr a s, setBits a s (s + n)) := by
  rw [allocatePages, allocateFirstFit]
  by_cases hn : n = 0
  · rw [if_pos hn]
    exact .inl rfl
  · rw [if_neg hn]
    cases hs : searchFirstFit a n with
    | inr _ => exact .inl rfl
    | inl e =>
        obtain ⟨hrun, he⟩ := searchFirstFit_found ha hn hs
        have hle := hrun.le
        have hfits := ha.fits
        have haddr : wadd a.start ((e - n) * pageSize) = blockAddr a (e - n) := by
          apply wadd_of_lt
          simp only [pageSize] at *
          omega
        refine .inr ⟨e - n, by omega, by omega, ?_, ?_⟩
        · intro b h1 h2
          exact hrun.clear b h1 (by omega)
        · simp only [haddr, show e - n + n = e by omega]

/-- The address of a block is never `NULL`, which stands for a failed allocation. -/
theorem blockAddr_ne_zero {a : BitmapAllocator} (ha : a.WellFormed) (b : ℕ) :
    blockAddr a b ≠ 0 := by
  have := ha.start_ne_zero
  unfold blockAddr
  omega

/-- `PMM_freePages` recovers the index of a block from its address. -/
theorem blockIndex_blockAddr {a : BitmapAllocator} (ha : a.WellFormed) {b : ℕ}
    (hb : b < a.nBlocks) : blockIndex a (blockAddr a b) = b := by
  have hfits := ha.fits
  have hlt : blockAddr a b < 2 ^ 64 := by
    simp only [blockAddr, pageSize] at *
    omega
  rw [blockIndex, wsub_of_le hlt (by simp [blockAddr])]
  simp [blockAddr]

/-- **`PMM_freePages` on pages that are not free** clears exactly their bits. -/
theorem freePages_of_set {a : BitmapAllocator} (ha : a.WellFormed) {s n : ℕ} (hn : 1 ≤ n)
    (hle : s + n ≤ a.nBlocks) (hset : ∀ b, s ≤ b → b < s + n → a.bit b = true) :
    freePages a (blockAddr a s) n = clearBits a s (s + n) := by
  have hlt := ha.nBlocks_lt
  have hcheck : isFullyAllocated a s (s + n) = true := by
    rw [isFullyAllocated_iff (by omega) hle]
    intro b h1 h2 _
    exact hset b h1 h2
  rw [freePages, blockIndex_blockAddr ha (by omega)]
  simp only [wadd_of_lt (show s + n < 2 ^ 64 by omega), hcheck, Bool.not_true,
    Bool.false_eq_true, if_false]

/-- `PMM_freePages` of no page leaves the allocator as it was. -/
theorem freePages_zero (a : BitmapAllocator) (addr : ℕ) : freePages a addr 0 = a := by
  have hidx : blockIndex a addr < 2 ^ 64 := by
    have : wsub addr a.start < 2 ^ 64 := Nat.mod_lt _ (by decide)
    simp only [blockIndex, pageSize]
    omega
  have hcheck : isFullyAllocated a (blockIndex a addr) (blockIndex a addr) = false := by
    unfold isFullyAllocated
    rw [if_pos le_rfl]
  rw [freePages]
  simp only [wadd_of_lt (show blockIndex a addr + 0 < 2 ^ 64 by omega), Nat.add_zero,
    hcheck, Bool.not_false, if_true]

/-! ### Whole runs -/

/-- A call to the memory manager, with the arguments that the caller chooses. -/
inductive Call
  | allocatePages (n : ℕ)
  | freePages (addr n : ℕ)
  deriving DecidableEq, Repr

/-- The memory manager and the addresses of the pages it has handed out. -/
structure Pool where
  alloc : BitmapAllocator
  out : List ℕ
  deriving DecidableEq, Repr

/-- A call is in order when it frees only pages that are handed out. -/
def Permitted (p : Pool) : Call → Prop
  | .allocatePages _ => True
  | .freePages addr n => ∀ q ∈ pages addr n, q ∈ p.out

instance (p : Pool) (c : Call) : Decidable (Permitted p c) :=
  match c with
  | .allocatePages _ => .isTrue trivial
  | .freePages addr n => inferInstanceAs (Decidable (∀ q ∈ pages addr n, q ∈ p.out))

/-- The effect of a call on the allocator, and on the pages that are handed out. -/
def exec (p : Pool) : Call → Pool
  | .allocatePages n =>
      let (addr, alloc) := allocatePages p.alloc n
      ⟨alloc, if addr = 0 then p.out else p.out ++ pages addr n⟩
  | .freePages addr n =>
      ⟨freePages p.alloc addr n, p.out.filter (· ∉ pages addr n)⟩

/-- One step of a run: a call that the callers may make, with its effect. -/
def Step (p : Pool) (c : Call) (q : Pool) : Prop := Permitted p c ∧ q = exec p c

/-- A block is in the page list of a run of blocks if and only if its number is in the run. -/
theorem mem_pages_blockAddr {a : BitmapAllocator} {s n b : ℕ} :
    blockAddr a b ∈ pages (blockAddr a s) n ↔ s ≤ b ∧ b < s + n := by
  simp only [pages, List.mem_map, List.mem_range, blockAddr, pageSize]
  constructor
  · rintro ⟨k, hk, heq⟩
    omega
  · rintro ⟨h1, h2⟩
    exact ⟨b - s, by omega, by omega⟩

/-- **The invariant of a run** that started from `a₀`: the geometry has not changed, what
is handed out are distinct blocks that were free at the start, the bitmap is exactly the
blocks reserved at the start or handed out, and the counters add up. -/
structure PoolInv (a₀ : BitmapAllocator) (p : Pool) : Prop where
  wf : p.alloc.WellFormed
  nBlocks_eq : p.alloc.nBlocks = a₀.nBlocks
  start_eq : p.alloc.start = a₀.start
  out_block : ∀ q ∈ p.out, ∃ b < a₀.nBlocks, q = blockAddr a₀ b ∧ a₀.bit b = false
  nodup : p.out.Nodup
  bit_iff : ∀ b, p.alloc.bit b = true ↔ a₀.bit b = true ∨ blockAddr a₀ b ∈ p.out
  total : wadd p.alloc.allocatedBlocks (countFreeBlocks p.alloc) =
    wadd a₀.allocatedBlocks (countFreeBlocks a₀)

/-- The addresses of blocks depend on `start` only, and not on the bitmap. -/
theorem blockAddr_congr {a b : BitmapAllocator} (h : a.start = b.start) (i : ℕ) :
    blockAddr a i = blockAddr b i := by
  rw [blockAddr, blockAddr, h]

/-- A block that is free in a run was neither reserved at its beginning nor is it handed
out. -/
theorem PoolInv.free_block {a₀ : BitmapAllocator} {p : Pool} (h : PoolInv a₀ p) {b : ℕ}
    (hb : p.alloc.bit b = false) : a₀.bit b = false ∧ blockAddr a₀ b ∉ p.out := by
  have hnot : ¬ p.alloc.bit b = true := by simp [hb]
  rw [h.bit_iff] at hnot
  push Not at hnot
  exact ⟨by simpa using hnot.1, hnot.2⟩

/-- An allocation of any number of pages, granted or refused, keeps the invariant of a run. -/
theorem PoolInv.allocatePages {a₀ : BitmapAllocator} {p : Pool} (h : PoolInv a₀ p) (n : ℕ) :
    PoolInv a₀ (exec p (.allocatePages n)) := by
  rcases allocatePages_cases h.wf n with heq | ⟨s, hn, hle, hfree, heq⟩
  · simp only [exec, heq, if_true]
    exact h
  · have hse : s < s + n := by omega
    have hadr : blockAddr p.alloc s = blockAddr a₀ s := blockAddr_congr h.start_eq s
    have hne : blockAddr a₀ s ≠ 0 := hadr ▸ blockAddr_ne_zero h.wf s
    simp only [exec, heq, hadr, if_neg hne]
    refine ⟨h.wf.setBits hse hle, ?_, ?_, ?_, ?_, ?_, ?_⟩
    · rw [setBits_eq hse hle]
      exact h.nBlocks_eq
    · rw [setBits_eq hse hle]
      exact h.start_eq
    · intro q hq
      rcases List.mem_append.mp hq with hq | hq
      · exact h.out_block q hq
      · obtain ⟨k, hk, rfl⟩ := List.mem_map.mp hq
        rw [List.mem_range] at hk
        have hb := h.nBlocks_eq
        refine ⟨s + k, by omega, ?_, (h.free_block (hfree _ (by omega) (by omega))).1⟩
        simp only [blockAddr, pageSize]
        omega
    · rw [List.nodup_append']
      refine ⟨h.nodup, nodup_pages _ _, ?_⟩
      intro q hq hq'
      obtain ⟨b, -, rfl, -⟩ := h.out_block q hq
      obtain ⟨h1, h2⟩ := mem_pages_blockAddr.mp hq'
      exact (h.free_block (hfree b h1 h2)).2 hq
    · intro b
      rw [bit_setBits h.wf.toShaped hse hle, List.mem_append, mem_pages_blockAddr]
      by_cases hin : s ≤ b ∧ b < s + n
      · simp [hin]
      · rw [if_neg hin, h.bit_iff, or_iff_left hin]
    · rw [total_setBits h.wf hse hle hfree]
      exact h.total

/-- A free of pages that are handed out keeps the invariant. -/
theorem PoolInv.freePages {a₀ : BitmapAllocator} {p : Pool} (h : PoolInv a₀ p) {addr n : ℕ}
    (hout : ∀ q ∈ pages addr n, q ∈ p.out) :
    PoolInv a₀ (exec p (.freePages addr n)) := by
  rcases Nat.eq_zero_or_pos n with rfl | hn
  · have hnil : pages addr 0 = [] := rfl
    simp only [exec, hnil, List.not_mem_nil, not_false_eq_true, decide_true,
      List.filter_true, freePages_zero]
    exact h
  · have hfirst : addr ∈ pages addr n := by
      simp only [pages, List.mem_map, List.mem_range]
      exact ⟨0, hn, by simp⟩
    obtain ⟨s, hs, rfl, -⟩ := h.out_block addr (hout addr hfirst)
    have hblock : ∀ b, s ≤ b → b < s + n → b < a₀.nBlocks ∧ blockAddr a₀ b ∈ p.out := by
      intro b h1 h2
      have hmem := hout _ (mem_pages_blockAddr.mpr ⟨h1, h2⟩)
      obtain ⟨b', hb', heq, -⟩ := h.out_block _ hmem
      obtain rfl : b = b' := by
        simp only [blockAddr, pageSize] at heq
        omega
      exact ⟨hb', hmem⟩
    have hse : s < s + n := by omega
    have hle : s + n ≤ p.alloc.nBlocks := by
      have := (hblock (s + n - 1) (by omega) (by omega)).1
      rw [h.nBlocks_eq]
      omega
    have hset : ∀ b, s ≤ b → b < s + n → p.alloc.bit b = true := by
      intro b h1 h2
      exact (h.bit_iff b).mpr (.inr (hblock b h1 h2).2)
    have hfree : PMM.freePages p.alloc (blockAddr a₀ s) n = clearBits p.alloc s (s + n) := by
      rw [← blockAddr_congr h.start_eq, freePages_of_set h.wf hn hle hset]
    simp only [exec, hfree]
    refine ⟨h.wf.clearBits hse hle, ?_, ?_, ?_, ?_, ?_, ?_⟩
    · rw [clearBits_eq hse hle]
      exact h.nBlocks_eq
    · rw [clearBits_eq hse hle]
      exact h.start_eq
    · intro q hq
      exact h.out_block q (List.mem_of_mem_filter hq)
    · exact h.nodup.filter _
    · intro b
      rw [bit_clearBits h.wf.toShaped hse hle, List.mem_filter, decide_eq_true_eq,
        mem_pages_blockAddr]
      by_cases hin : s ≤ b ∧ b < s + n
      · obtain ⟨-, hmem⟩ := hblock b hin.1 hin.2
        obtain ⟨b', -, heq, hb'⟩ := h.out_block _ hmem
        obtain rfl : b = b' := by
          simp only [blockAddr, pageSize] at heq
          omega
        simp [hin, hb']
      · rw [if_neg hin, h.bit_iff, and_iff_left hin]
    · rw [total_clearBits h.wf hse hle hset]
      exact h.total

/-- The invariant holds before the first call, when no page is handed out. -/
theorem PoolInv.init {a₀ : BitmapAllocator} (ha : a₀.WellFormed) : PoolInv a₀ ⟨a₀, []⟩ where
  wf := ha
  nBlocks_eq := rfl
  start_eq := rfl
  out_block := by simp
  nodup := List.nodup_nil
  bit_iff := by simp
  total := rfl

/-- Every run of calls from a well-formed allocator keeps the invariant. -/
theorem PoolInv.of_runs {a₀ : BitmapAllocator} (ha : a₀.WellFormed) {cs : List Call}
    {p : Pool} (h : Runs Step ⟨a₀, []⟩ cs p) : PoolInv a₀ p := by
  refine h.invariant (PoolInv.init ha) ?_
  rintro q c r hq ⟨hperm, rfl⟩
  cases c with
  | allocatePages n => exact hq.allocatePages n
  | freePages addr n => exact hq.freePages hperm

/-- **Whole-run safety of the physical memory manager.** After every run of allocations
and of frees of handed out pages, from every well-formed allocator: the pages handed out
are distinct, the bitmap is exactly the reserved and the handed out pages, the counters
add up as at the start, and the next allocation, if it returns an address, returns that
of blocks inside the managed range that are neither reserved nor handed out. -/
theorem pmm_run_safe {a₀ : BitmapAllocator} (ha : a₀.WellFormed) {cs : List Call} {p : Pool}
    (h : Runs Step ⟨a₀, []⟩ cs p) :
    p.out.Nodup ∧
    (∀ b, p.alloc.bit b = true ↔ a₀.bit b = true ∨ blockAddr a₀ b ∈ p.out) ∧
    wadd p.alloc.allocatedBlocks (countFreeBlocks p.alloc) =
      wadd a₀.allocatedBlocks (countFreeBlocks a₀) ∧
    ∀ n, (allocatePages p.alloc n).1 ≠ 0 →
      (allocatePages p.alloc n).1 % pageSize = 0 ∧
      a₀.start ≤ (allocatePages p.alloc n).1 ∧
      ∃ s, (allocatePages p.alloc n).1 = blockAddr a₀ s ∧ s + n ≤ a₀.nBlocks ∧
        ∀ k < n, a₀.bit (s + k) = false ∧ blockAddr a₀ (s + k) ∉ p.out := by
  have hinv := PoolInv.of_runs ha h
  refine ⟨hinv.nodup, hinv.bit_iff, hinv.total, ?_⟩
  intro n hne
  rcases allocatePages_cases hinv.wf n with heq | ⟨s, hn, hle, hfree, heq⟩
  · simp [heq] at hne
  · have hal := ha.start_aligned
    rw [heq, blockAddr_congr hinv.start_eq]
    refine ⟨?_, Nat.le_add_right _ _, s, rfl, hinv.nBlocks_eq ▸ hle, ?_⟩
    · simp only [blockAddr, pageSize] at *
      omega
    · intro k hk
      exact hinv.free_block (hfree _ (by omega) (by omega))

/-- A small allocator: three blocks, the first of them reserved. -/
def threeBlocks : BitmapAllocator :=
  { nBlocks := 3, start := 0x1000, allocatableBlocks := 3, allocatedBlocks := 1,
    bitmap := [0x8000000000000000#64], bitmapLength := 1 }

/-- The allocator with three blocks of the example is well-formed. -/
theorem threeBlocks_wellFormed : threeBlocks.WellFormed := by
  refine ⟨⟨?_, ?_, ?_, ?_⟩, ?_, ?_, ?_, ?_⟩ <;> decide

/-- The pool after two pages are handed out and the second of them is freed again. -/
def threeBlocksPool : Pool :=
  exec (exec ⟨threeBlocks, []⟩ (.allocatePages 2)) (.freePages 0x3000 1)

/-- The guarantees of a run at a concrete one: the freed page is the next one handed out,
and it is neither reserved nor handed out. -/
theorem pmm_run_safe_threeBlocks :
    threeBlocksPool.out = [0x2000] ∧ threeBlocksPool.out.Nodup ∧
    (allocatePages threeBlocksPool.alloc 1).1 = 0x3000 ∧
    ∃ s, (allocatePages threeBlocksPool.alloc 1).1 = blockAddr threeBlocks s ∧
      s + 1 ≤ 3 ∧ ∀ k < 1, threeBlocks.bit (s + k) = false ∧
        blockAddr threeBlocks (s + k) ∉ threeBlocksPool.out := by
  have hrun : Runs Step ⟨threeBlocks, []⟩ ([] ++ [.allocatePages 2] ++ [.freePages 0x3000 1])
      threeBlocksPool := .snoc (.snoc .nil ⟨trivial, rfl⟩) ⟨by decide +kernel, rfl⟩
  have hnext : (allocatePages threeBlocksPool.alloc 1).1 = 0x3000 := by decide +kernel
  obtain ⟨hnodup, -, -, hsafe⟩ := pmm_run_safe threeBlocks_wellFormed hrun
  exact ⟨by decide +kernel, hnodup, hnext, (hsafe 1 (by rw [hnext]; decide)).2.2⟩

/-! ### The double-free check -/

/-- Every bit of the range of blocks is set. -/
def AllSet (a : BitmapAllocator) (s e : ℕ) : Prop := ∀ b, s ≤ b → b < e → a.bit b = true

/-- `a'` is `a` with exactly the bits `[s, e)` cleared and their number subtracted from
the count of allocated blocks. -/
structure FreedExactly (a a' : BitmapAllocator) (s e : ℕ) : Prop where
  nBlocks_eq : a'.nBlocks = a.nBlocks
  start_eq : a'.start = a.start
  allocatable_eq : a'.allocatableBlocks = a.allocatableBlocks
  length_eq : a'.bitmapLength = a.bitmapLength
  allocated_eq : a'.allocatedBlocks = wsub a.allocatedBlocks (e - s)
  bit_eq : ∀ b, a'.bit b = if s ≤ b ∧ b < e then false else a.bit b

/-- The double-free check is exact at an address and a page count: the check accepts
exactly the ranges that are allocated as a whole, such a range is freed and nothing else,
and any other range leaves the allocator as it was. -/
structure ExactFree (a : BitmapAllocator) (addr n : ℕ) : Prop where
  check_iff : isFullyAllocated a (blockIndex a addr) (blockIndex a addr + n) = true ↔
    AllSet a (blockIndex a addr) (blockIndex a addr + n)
  freed : AllSet a (blockIndex a addr) (blockIndex a addr + n) →
    FreedExactly a (freePages a addr n) (blockIndex a addr) (blockIndex a addr + n)
  rejected : ¬ AllSet a (blockIndex a addr) (blockIndex a addr + n) →
    freePages a addr n = a

/-- The only free blocks of the range, and there are some, lie in the last word that the
range covers entirely. -/
def FreeOnlyInLastWholeWord (a : BitmapAllocator) (s e : ℕ) : Prop :=
  (∃ b, InLastWholeWord s e b ∧ a.bit b = false) ∧
  ∀ b, s ≤ b → b < e → ¬ InLastWholeWord s e b → a.bit b = true

/-- The check accepts a range wrongly exactly when its only free blocks lie in its last
whole word. -/
theorem isFullyAllocated_iff_allSet {a : BitmapAllocator} {s e : ℕ} (hse : s < e)
    (he : e ≤ a.nBlocks) :
    (isFullyAllocated a s e = true ↔ AllSet a s e) ↔ ¬ FreeOnlyInLastWholeWord a s e := by
  rw [isFullyAllocated_iff hse he]
  constructor
  · rintro hiff ⟨⟨b, hin, hb⟩, hrest⟩
    have := hiff.mp hrest b (by unfold InLastWholeWord at hin; omega)
      (by unfold InLastWholeWord at hin; omega)
    simp [hb] at this
  · intro hnot
    constructor
    · intro hrest b h1 h2
      by_contra hb
      by_cases hin : InLastWholeWord s e b
      · exact hnot ⟨⟨b, hin, by simpa using hb⟩, hrest⟩
      · exact hb (hrest b h1 h2 hin)
    · intro hall b h1 h2 _
      exact hall b h1 h2

/-- `PMM_freePages` on a non-empty range of blocks, by the outcome of the check. -/
theorem freePages_eq {a : BitmapAllocator} (ha : a.Shaped) {addr n : ℕ}
    (hle : blockIndex a addr + n ≤ a.nBlocks) :
    freePages a addr n =
      if isFullyAllocated a (blockIndex a addr) (blockIndex a addr + n) = true
      then clearBits a (blockIndex a addr) (blockIndex a addr + n) else a := by
  have hlt := ha.nBlocks_lt
  rw [freePages]
  simp only [wadd_of_lt (show blockIndex a addr + n < 2 ^ 64 by omega)]
  cases isFullyAllocated a (blockIndex a addr) (blockIndex a addr + n) <;> simp

/-- **When the double-free check is exact**: for every allocator, address and page count
whose range lies within the blocks, exactly when the range is not empty and its free
blocks, if any, are not all in its last whole word. -/
theorem freePages_exact_iff {a : BitmapAllocator} (ha : a.Shaped) {addr n : ℕ}
    (hle : blockIndex a addr + n ≤ a.nBlocks) :
    ExactFree a addr n ↔
      n ≠ 0 ∧ ¬ FreeOnlyInLastWholeWord a (blockIndex a addr) (blockIndex a addr + n) := by
  set s := blockIndex a addr with hs
  constructor
  · intro h
    have hn : n ≠ 0 := by
      rintro rfl
      have hcheck := h.check_iff.mpr (fun b h1 h2 => by omega)
      rw [isFullyAllocated, if_pos (by omega)] at hcheck
      simp at hcheck
    exact ⟨hn, (isFullyAllocated_iff_allSet (by omega) hle).mp h.check_iff⟩
  · rintro ⟨hn, hnot⟩
    have hiff := (isFullyAllocated_iff_allSet (by omega) hle).mpr hnot
    refine ⟨hiff, ?_, ?_⟩
    · intro hall
      have hse : s < s + n := by omega
      have heq := clearBits_eq hse hle
      rw [freePages_eq ha hle, if_pos (hiff.mpr hall)]
      refine ⟨?_, ?_, ?_, ?_, ?_, bit_clearBits ha hse hle⟩ <;> rw [heq]
    · intro hall
      rw [freePages_eq ha hle, if_neg (fun h => hall (hiff.mp h))]

/-- The condition and the exactness at a concrete range: freeing the reserved block of
the three-block allocator. -/
theorem freePages_exact_iff_threeBlocks : ExactFree threeBlocks 0x1000 1 := by
  rw [freePages_exact_iff threeBlocks_wellFormed.toShaped (by decide)]
  refine ⟨by decide, ?_⟩
  rintro ⟨⟨b, hb, -⟩, -⟩
  revert hb
  simp only [InLastWholeWord, show blockIndex threeBlocks 0x1000 = 0 by decide]
  omega

/-- Three words of blocks, those of the middle word free. -/
def freeMiddleWord : BitmapAllocator :=
  { nBlocks := 192, start := 0x1000, allocatableBlocks := 192, allocatedBlocks := 128,
    bitmap := [0xffffffffffffffff#64, 0x0000000000000000#64, 0xffffffffffffffff#64],
    bitmapLength := 3 }

/-- Freeing the 64 pages of the middle word, all of them free already, is not refused:
the count of allocated blocks drops by 64. -/
theorem freePages_accepts_free_word :
    freeMiddleWord.Shaped ∧
    blockIndex freeMiddleWord 0x41000 + 64 ≤ freeMiddleWord.nBlocks ∧
    freeMiddleWord.bit 64 = false ∧
    (freePages freeMiddleWord 0x41000 64).allocatedBlocks = 64 ∧
    ¬ ExactFree freeMiddleWord 0x41000 64 := by
  refine ⟨by constructor <;> decide, by decide, by decide, by decide, ?_⟩
  intro h
  have hidx : blockIndex freeMiddleWord 0x41000 = 64 := by decide
  have hall := h.check_iff.mp (by decide)
  have := hall 64 (by omega) (by omega)
  revert this
  decide

end MugOS.PMM
