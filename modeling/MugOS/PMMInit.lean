import MugOS.MemoryMap
import MugOS.PMMRun

/-!
# The Initialisation of the Physical Memory Manager

`PMM_init` of `Kernel/Memory/PMM.c` with what it calls: the sizes of the allocator are computed
from the memory map, pages for the bitmap are taken from the map of the bootloader, and the
bits of the usable regions are cleared. The premapping of the bitmap and the messages are left
out.

## Main results

* `freeUsable_spec`: the loop of `initBitmap` over the regions.
* `pmmInit_frees_usable`: `PMM_init` returns, and exactly the usable pages that do not hold the
  bitmap are free.
-/

namespace MugOS.PMM

open MemoryMap

/-! ### The functions -/

/-- The conversion of an `int` to an unsigned 64-bit integer. -/
def ofInt (z : ℤ) : ℕ := (z % 2 ^ 64).toNat

/-- The entries of the memory map that are in use. -/
def regions (memmap : MemoryMap) : List MemoryMapEntry := memmap.entries.take memmap.size.toNat

/-- `getBitmapStart()`. -/
def getBitmapStart : List MemoryMapEntry → Except Fault ℕ
  | [] => .error .panic
  | cur :: rest =>
      if cur.type ≠ .usable then getBitmapStart rest
      else if cur.address ≠ 0 then .ok cur.address
      else if cur.length > pageSize then .ok (wadd cur.address pageSize)
      else getBitmapStart rest

/-- The loop of `getAllocatableBlocks()`. -/
def allocatableBytes : ℕ → List MemoryMapEntry → ℕ
  | bytes, [] => bytes
  | bytes, cur :: rest =>
      match cur.type with
      | .usable | .acpiReclaimable | .bootloaderReclaimable =>
          let bytes := wadd bytes cur.length
          allocatableBytes (if cur.address = 0 then wsub bytes pageSize else bytes) rest
      | _ => allocatableBytes bytes rest

/-- `getAllocatableBlocks()`: the number of pages of the usable regions. -/
def getAllocatableBlocks (entries : List MemoryMapEntry) : ℕ :=
  allocatableBytes 0 entries / pageSize

/-- `getSizeAsPages(n_bytes)`: the number of pages that the bytes need, rounded up. -/
def getSizeAsPages (nBytes : ℕ) : ℕ := wadd nBytes (pageSize - 1) / pageSize

/-- The search of `earlyAllocate` for the first usable region that is large enough. -/
def firstFit (needed : ℕ) : List LimineEntry → Except Fault ℕ
  | [] => .error .panic
  | cur :: rest =>
      if cur.type = .usable ∧ cur.length ≥ needed then
        if cur.base = 0 then
          if cur.length ≤ needed then firstFit needed rest else .ok (wadd cur.base pageSize)
        else .ok cur.base
      else firstFit needed rest

/-- `earlyAllocate(memmap, n_pages)`, with its static variable `allocated_already`. -/
def earlyAllocate (allocatedAlready : Bool) (limine : List LimineEntry) (nPages : ℕ) :
    Except Fault ℕ :=
  if allocatedAlready then .error .assertion
  else firstFit (nPages * pageSize % 2 ^ 64) limine

/-- The loop of `initBitmap` that clears the bits of the usable regions, and counts their
bytes. The bit indices are of type `int`. -/
def freeUsable (a : BitmapAllocator) (freeMemory : ℕ) :
    List MemoryMapEntry → BitmapAllocator × ℕ
  | [] => (a, freeMemory)
  | cur :: rest =>
      if cur.type ≠ .usable then freeUsable a freeMemory rest
      else
        let startBit := toInt (wsub cur.address a.start / pageSize)
        let endBit := toInt (wadd (wsub cur.address a.start) cur.length / pageSize)
        freeUsable (clearBits a (ofInt startBit) (ofInt endBit)) (wadd freeMemory cur.length) rest

/-- `initBitmap(allocator, memmap, bitmap_addr_phys, nPages)`. -/
def initBitmap (a : BitmapAllocator) (entries : List MemoryMapEntry) (bitmapAddr nPages : ℕ) :
    Except Fault BitmapAllocator :=
  let bitmapLength := (a.nBlocks + 63) / 64
  let a := { a with
    bitmapLength := bitmapLength
    bitmap := List.replicate bitmapLength 0xffffffffffffffff#64
    allocatedBlocks := a.allocatableBlocks }
  let (a, freeMemory) := freeUsable a 0 entries
  let freeBlocks := countFreeBlocks a
  if a.allocatedBlocks ≠ wsub a.allocatableBlocks freeBlocks then .error .assertion
  else if freeMemory ≠ pageSize * freeBlocks % 2 ^ 64 then .error .assertion
  else
    let startBit := toInt (wsub bitmapAddr a.start / pageSize)
    let endBit := toInt (wadd (ofInt startBit) nPages)
    let a := setBits a (ofInt startBit) (ofInt endBit)
    if wsub freeBlocks nPages ≠ countFreeBlocks a then .error .assertion else .ok a

/-- The number of blocks from the start to the last usable page. -/
def blockCount (lastUsablePage start : ℕ) : ℕ := wsub lastUsablePage start / pageSize + 1

/-- The number of pages that the bitmap is given. -/
def bitmapPages (nBlocks : ℕ) : ℕ := getSizeAsPages ((nBlocks + 7) / 8)

/-- `PMM_init()`: the allocator, and the address and number of the pages of its bitmap. -/
def pmmInit (memmap : MemoryMap) (limine : List LimineEntry) :
    Except Fault (BitmapAllocator × ℕ × ℕ) :=
  if memmap.size = 0 then .error .panic
  else do
    let start ← getBitmapStart (regions memmap)
    let allocatable := getAllocatableBlocks (regions memmap)
    let nBlocks := blockCount memmap.lastUsablePage start
    let nPages := bitmapPages nBlocks
    let allocated ← earlyAllocate false limine nPages
    let a ← initBitmap ⟨nBlocks, start, allocatable, 0, [], 0⟩ (regions memmap) allocated nPages
    return (a, allocated, nPages)

/-! ### What is assumed of the maps, and what is shown -/

/-- The usable regions of a map, in their order. -/
def usable (entries : List MemoryMapEntry) : List MemoryMapEntry :=
  entries.filter fun e => e.type = .usable

/-- Usable memory, or memory that becomes usable later. -/
def Claimable (e : MemoryMapEntry) : Prop :=
  e.type = .usable ∨ e.type = .acpiReclaimable ∨ e.type = .bootloaderReclaimable

/-- The memory maps: the usable regions are in order, do not overlap, consist of whole pages,
leave out page 0 and span fewer than `2 ^ 31` pages; `lastUsablePage` is the last page of the
highest region that is usable or can be reclaimed; the map of the bootloader has the same
usable regions; and some usable region has room for the bitmap. -/
structure InitMaps (memmap : MemoryMap) (limine : List LimineEntry) : Prop where
  size_le : memmap.size ≤ memmap.entries.length
  ordered : (usable (regions memmap)).Pairwise fun a b => a.address + a.length ≤ b.address
  aligned : ∀ e ∈ usable (regions memmap), e.address % pageSize = 0 ∧ e.length % pageSize = 0
  ne_zero : ∀ e ∈ usable (regions memmap), e.address ≠ 0
  address_lt : ∀ e ∈ usable (regions memmap), e.address < 2 ^ 64
  span : ∀ e ∈ usable (regions memmap), ∀ e' ∈ usable (regions memmap),
    e'.address + e'.length < e.address + 2 ^ 31 * pageSize
  last : ∃ e ∈ regions memmap, Claimable e ∧ e.address + e.length ≤ 2 ^ 64 ∧
    e.address + e.length ≤ memmap.lastUsablePage + pageSize ∧
    memmap.lastUsablePage < e.address + e.length ∧
    ∀ e' ∈ regions memmap, Claimable e' → e'.address + e'.length ≤ e.address + e.length
  limine_iff : ∀ base length, (⟨base, length, .usable⟩ : LimineEntry) ∈ limine ↔
    (⟨base, length, .usable⟩ : MemoryMapEntry) ∈ regions memmap
  room : ∃ first rest, usable (regions memmap) = first :: rest ∧
    ∃ e ∈ usable (regions memmap),
      bitmapPages (blockCount memmap.lastUsablePage first.address) * pageSize ≤ e.length

/-- The page lies in a usable region, as a whole. -/
def UsablePage (memmap : MemoryMap) (page : ℕ) : Prop :=
  ∃ e ∈ regions memmap, e.type = .usable ∧ e.address ≤ page ∧
    page + pageSize ≤ e.address + e.length

/-- The allocator after the initialisation: it is well-formed, its bitmap fits in the pages
that it is given, the free blocks are the usable pages without those of the bitmap, and the
counters add up. -/
structure Initialised (memmap : MemoryMap) (a : BitmapAllocator) (addr nPages : ℕ) : Prop where
  wf : a.WellFormed
  bitmap_fits : a.bitmapLength * 8 ≤ nPages * pageSize
  bit_iff : ∀ b < a.nBlocks, a.bit b = false ↔
    UsablePage memmap (blockAddr a b) ∧ blockAddr a b ∉ pages addr nPages
  total : wadd a.allocatedBlocks (Nat.count (fun b => a.bit b = false) a.nBlocks) =
    a.allocatableBlocks

/-! ### Conversions -/

/-- Small numbers survive the conversion to `int` and back. -/
theorem ofInt_toInt {n : ℕ} (h : n < 2 ^ 31) : ofInt (toInt n) = n := by
  have hint : toInt n = n := by
    unfold toInt
    apply Int.bmod_eq_of_le
    · norm_num
    · norm_num
      omega
  rw [hint, ofInt]
  omega

/-! ### Clearing the usable regions -/

/-- The first block of a region, counted from the start of the allocator. -/
def firstBlock (start : ℕ) (e : MemoryMapEntry) : ℕ := (e.address - start) / pageSize

/-- The block behind the last one of a region, counted from the start of the allocator. -/
def endBlock (start : ℕ) (e : MemoryMapEntry) : ℕ := (e.address - start + e.length) / pageSize

/-- A region of whole pages among the blocks of an allocator. -/
structure Inside (a : BitmapAllocator) (e : MemoryMapEntry) : Prop where
  start_le : a.start ≤ e.address
  aligned : e.address % pageSize = 0 ∧ e.length % pageSize = 0
  end_le : endBlock a.start e ≤ a.nBlocks
  small : endBlock a.start e < 2 ^ 31
  fits : e.address + e.length ≤ 2 ^ 64

/-- The blocks of a region of whole pages are as many as its bytes have pages, from its first
block on. -/
theorem Inside.endBlock_eq {a : BitmapAllocator} {e : MemoryMapEntry} (ha : a.WellFormed)
    (h : Inside a e) : endBlock a.start e = firstBlock a.start e + e.length / pageSize := by
  have := ha.start_aligned
  have := h.aligned
  have := h.start_le
  simp only [endBlock, firstBlock, pageSize] at *
  omega

/-- The first and last bit that are cleared for a region are its first block and the one behind
its last block. -/
theorem Inside.bits {a : BitmapAllocator} {e : MemoryMapEntry} (h : Inside a e)
    (ha : a.WellFormed) (hlt : e.address < 2 ^ 64) :
    ofInt (toInt (wsub e.address a.start / pageSize)) = firstBlock a.start e ∧
      ofInt (toInt (wadd (wsub e.address a.start) e.length / pageSize)) = endBlock a.start e := by
  have hstart := h.start_le
  have hne := ha.start_ne_zero
  have hfits := h.fits
  have hsmall := h.small
  have hle : firstBlock a.start e ≤ endBlock a.start e := Nat.div_le_div_right (by omega)
  rw [wsub_of_le hlt hstart, wadd_of_lt (by omega)]
  exact ⟨ofInt_toInt (lt_of_le_of_lt hle hsmall), ofInt_toInt hsmall⟩

/-- What the loop over the regions keeps of the allocator: all but its bits and its
counters. -/
structure SameShape (a a' : BitmapAllocator) : Prop where
  nBlocks_eq : a'.nBlocks = a.nBlocks
  start_eq : a'.start = a.start
  allocatable_eq : a'.allocatableBlocks = a.allocatableBlocks
  length_eq : a'.bitmapLength = a.bitmapLength

/-- **One region is cleared**, whose bits were all set. -/
theorem clearRegion {a : BitmapAllocator} {e : MemoryMapEntry} (ha : a.WellFormed)
    (h : Inside a e)
    (hset : ∀ b, firstBlock a.start e ≤ b → b < endBlock a.start e → a.bit b = true) :
    (clearBits a (firstBlock a.start e) (endBlock a.start e)).WellFormed ∧
      SameShape a (clearBits a (firstBlock a.start e) (endBlock a.start e)) ∧
      (∀ b, (clearBits a (firstBlock a.start e) (endBlock a.start e)).bit b = false ↔
        a.bit b = false ∨ (firstBlock a.start e ≤ b ∧ b < endBlock a.start e)) ∧
      wadd (clearBits a (firstBlock a.start e) (endBlock a.start e)).allocatedBlocks
        (countFreeBlocks (clearBits a (firstBlock a.start e) (endBlock a.start e))) =
          wadd a.allocatedBlocks (countFreeBlocks a) ∧
      countFreeBlocks (clearBits a (firstBlock a.start e) (endBlock a.start e)) =
        countFreeBlocks a + e.length / pageSize := by
  have hend := h.endBlock_eq ha
  by_cases hse : firstBlock a.start e < endBlock a.start e
  · have hbit := bit_clearBits ha.toShaped hse h.end_le
    have hwf := ha.clearBits hse h.end_le
    have hcount := count_clear_range hse.le h.end_le (f := (clearBits a _ _).bit) (g := a.bit)
      (by
        intro b h1 h2
        rw [hbit, if_pos ⟨h1, h2⟩])
      (by
        intro b
        split
        · rename_i hb
          exact hset b hb.1 hb.2
        · rename_i hb
          rw [hbit, if_neg hb])
    refine ⟨hwf, ?_, ?_, total_clearBits ha hse h.end_le hset, ?_⟩
    · rw [clearBits_eq hse h.end_le]
      exact ⟨rfl, rfl, rfl, rfl⟩
    · intro b
      rw [hbit]
      split
      · rename_i hb
        simp [hb]
      · rename_i hb
        simp [hb]
    · rw [countFreeBlocks_eq hwf, countFreeBlocks_eq ha, clearBits_eq hse h.end_le] at *
      simp only at hcount ⊢
      omega
  · have hsame : clearBits a (firstBlock a.start e) (endBlock a.start e) = a := by
      unfold clearBits
      rw [if_pos (by omega)]
    rw [hsame]
    have hzero : e.length / pageSize = 0 := by
      simp only [pageSize] at hend ⊢
      omega
    refine ⟨ha, ⟨rfl, rfl, rfl, rfl⟩, ?_, rfl, by rw [hzero, Nat.add_zero]⟩
    intro b
    constructor
    · exact .inl
    · rintro (hb | ⟨h1, h2⟩)
      · exact hb
      · omega

/-- Regions that do not overlap have no block in common. -/
theorem endBlock_le_firstBlock {start : ℕ} {e e' : MemoryMapEntry}
    (h : e.address + e.length ≤ e'.address) (hstart : start ≤ e.address) :
    endBlock start e ≤ firstBlock start e' :=
  Nat.div_le_div_right (by omega)

/-- The number of blocks of some regions, those of their whole pages. -/
def blocksOf (entries : List MemoryMapEntry) : ℕ :=
  (entries.map fun e => e.length / pageSize).sum

/-- The number of bytes of some regions, without a wrap of the sum. -/
def bytesOf (entries : List MemoryMapEntry) : ℕ := (entries.map fun e => e.length).sum

/-- **The usable regions are cleared**: these blocks become free, the counters keep adding up,
and both the blocks and the bytes are counted. -/
theorem freeUsable_spec (entries : List MemoryMapEntry) (a : BitmapAllocator) (mem : ℕ)
    (ha : a.WellFormed) (hmem : mem < 2 ^ 64)
    (hinside : ∀ e ∈ usable entries, Inside a e ∧ e.address < 2 ^ 64)
    (hord : (usable entries).Pairwise fun e e' => e.address + e.length ≤ e'.address)
    (hset : ∀ e ∈ usable entries, ∀ b, firstBlock a.start e ≤ b → b < endBlock a.start e →
      a.bit b = true) :
    (freeUsable a mem entries).1.WellFormed ∧ SameShape a (freeUsable a mem entries).1 ∧
      (∀ b, (freeUsable a mem entries).1.bit b = false ↔
        a.bit b = false ∨
          ∃ e ∈ usable entries, firstBlock a.start e ≤ b ∧ b < endBlock a.start e) ∧
      wadd (freeUsable a mem entries).1.allocatedBlocks
        (countFreeBlocks (freeUsable a mem entries).1) =
          wadd a.allocatedBlocks (countFreeBlocks a) ∧
      countFreeBlocks (freeUsable a mem entries).1 =
        countFreeBlocks a + blocksOf (usable entries) ∧
      (freeUsable a mem entries).2 = (mem + bytesOf (usable entries)) % 2 ^ 64 := by
  induction entries generalizing a mem with
  | nil =>
      refine ⟨ha, ⟨rfl, rfl, rfl, rfl⟩, ?_, rfl, rfl, ?_⟩
      · simp [freeUsable, usable]
      · simp only [freeUsable, usable, bytesOf, List.filter_nil, List.map_nil, List.sum_nil]
        omega
  | cons e rest ih =>
      by_cases htype : e.type = .usable
      · have husable : usable (e :: rest) = e :: usable rest := by simp [usable, htype]
        rw [husable] at hinside hord hset ⊢
        obtain ⟨hin, hlt⟩ := hinside e List.mem_cons_self
        obtain ⟨hs, he⟩ := hin.bits ha hlt
        obtain ⟨hwf, hshape, hbit, htotal, hcount⟩ := clearRegion ha hin (hset e List.mem_cons_self)
        set a₁ := clearBits a (firstBlock a.start e) (endBlock a.start e) with ha₁
        have hstep : freeUsable a mem (e :: rest) = freeUsable a₁ (wadd mem e.length) rest := by
          rw [freeUsable, if_neg (by simpa using htype)]
          simp only [hs, he, ← ha₁]
        obtain ⟨hfirst, hord'⟩ := List.pairwise_cons.mp hord
        obtain ⟨hwf', hshape', hbit', htotal', hcount', hmem'⟩ := ih a₁ (wadd mem e.length) hwf
          (Nat.mod_lt _ (by norm_num))
          (by
            intro e' he'
            obtain ⟨hin', hlt'⟩ := hinside e' (List.mem_cons_of_mem _ he')
            refine ⟨⟨?_, hin'.aligned, ?_, ?_, hin'.fits⟩, hlt'⟩
            · rw [hshape.start_eq]
              exact hin'.start_le
            · rw [hshape.start_eq, hshape.nBlocks_eq]
              exact hin'.end_le
            · rw [hshape.start_eq]
              exact hin'.small)
          hord'
          (by
            intro e' he' b h1 h2
            rw [hshape.start_eq] at h1 h2
            have hle := endBlock_le_firstBlock (hfirst e' he') hin.start_le
            have hne := mt (hbit b).mp
            rw [Bool.not_eq_false] at hne
            apply hne
            rintro (hb | hb)
            · rw [hset e' (List.mem_cons_of_mem _ he') b h1 h2] at hb
              exact absurd hb (by simp)
            · omega)
        rw [hstep]
        refine ⟨hwf', ⟨hshape'.nBlocks_eq.trans hshape.nBlocks_eq,
          hshape'.start_eq.trans hshape.start_eq, hshape'.allocatable_eq.trans
          hshape.allocatable_eq,
          hshape'.length_eq.trans hshape.length_eq⟩, ?_, htotal'.trans htotal, ?_, ?_⟩
        · intro b
          rw [hbit', hbit, hshape.start_eq, or_assoc, List.exists_mem_cons_iff]
        · rw [hcount', hcount]
          simp only [blocksOf, List.map_cons, List.sum_cons]
          omega
        · rw [hmem']
          simp only [bytesOf, List.map_cons, List.sum_cons, wadd]
          omega
      · have husable : usable (e :: rest) = usable rest := by simp [usable, htype]
        have hstep : freeUsable a mem (e :: rest) = freeUsable a mem rest := by
          rw [freeUsable, if_pos htype]
        rw [husable] at hinside hord hset ⊢
        rw [hstep]
        exact ih a mem ha hmem hinside hord hset

/-! ### The whole initialisation -/

/-- The first usable region is where the blocks start. -/
theorem getBitmapStart_eq {entries rest : List MemoryMapEntry} {first : MemoryMapEntry}
    (h : usable entries = first :: rest) (hne : first.address ≠ 0) :
    getBitmapStart entries = .ok first.address := by
  induction entries with
  | nil => exact absurd h (by simp [usable])
  | cons e es ih =>
      by_cases htype : e.type = .usable
      · have hcons : usable (e :: es) = e :: usable es := by simp [usable, htype]
        rw [hcons] at h
        obtain ⟨rfl, -⟩ := List.cons.inj h
        rw [getBitmapStart, if_neg (by simpa using htype), if_pos hne]
      · have hcons : usable (e :: es) = usable es := by simp [usable, htype]
        rw [hcons] at h
        rw [getBitmapStart, if_pos htype]
        exact ih h

/-- The first fit is a usable region that is large enough. -/
theorem firstFit_spec (needed : ℕ) {limine : List LimineEntry}
    (hne : ∀ e ∈ limine, e.type = .usable → e.base ≠ 0)
    (hroom : ∃ e ∈ limine, e.type = .usable ∧ needed ≤ e.length) :
    ∃ e ∈ limine, e.type = .usable ∧ needed ≤ e.length ∧ firstFit needed limine = .ok e.base := by
  induction limine with
  | nil => exact absurd hroom (by simp)
  | cons e es ih =>
      by_cases hfit : e.type = .usable ∧ e.length ≥ needed
      · refine ⟨e, List.mem_cons_self, hfit.1, hfit.2, ?_⟩
        rw [firstFit, if_pos hfit, if_neg (hne e List.mem_cons_self hfit.1)]
      · obtain ⟨e', he', htype, hlen⟩ := hroom
        have hmem : e' ∈ es := by
          rcases List.mem_cons.mp he' with rfl | he'
          · exact absurd ⟨htype, hlen⟩ hfit
          · exact he'
        obtain ⟨f, hf, hftype, hflen, hok⟩ := ih
          (fun x hx => hne x (List.mem_cons_of_mem _ hx)) ⟨e', hmem, htype, hlen⟩
        refine ⟨f, List.mem_cons_of_mem _ hf, hftype, hflen, ?_⟩
        rw [firstFit, if_neg hfit, hok]

/-- Every bit of a bitmap of ones, up to its length, is set. -/
theorem bit_replicate_ones {n b : ℕ} (hb : b < n * 64) :
    WordBitmap.bit (List.replicate n 0xffffffffffffffff#64) b = true := by
  have hindex : b / 64 < n := by omega
  rw [WordBitmap.bit, WordBitmap.word, List.getD_eq_getElem?_getD, List.getElem?_replicate,
    if_pos hindex]
  exact WordBitmap.getMsbD_ones _ (Nat.mod_lt _ (by decide))

/-- The blocks of a region that can hold some pages, and the pages at its beginning. -/
theorem blockAddr_mem_iff {a : BitmapAllocator} {e : MemoryMapEntry} (ha : a.WellFormed)
    (h : Inside a e) (b : ℕ) :
    (e.address ≤ blockAddr a b ∧ blockAddr a b + pageSize ≤ e.address + e.length) ↔
      firstBlock a.start e ≤ b ∧ b < endBlock a.start e := by
  have := ha.start_aligned
  have := h.aligned
  have := h.start_le
  simp only [blockAddr, firstBlock, endBlock, pageSize] at *
  omega

/-- The allocator before the usable regions are cleared. -/
def reserved (nBlocks start allocatable : ℕ) : BitmapAllocator :=
  ⟨nBlocks, start, allocatable, allocatable,
    List.replicate ((nBlocks + 63) / 64) 0xffffffffffffffff#64, (nBlocks + 63) / 64⟩

section Init

variable {memmap : MemoryMap} {limine : List LimineEntry} (h : InitMaps memmap limine)

include h

/-- **Where the usable regions lie** in the blocks that are managed. -/
theorem InitMaps.inside {first : MemoryMapEntry} {rest : List MemoryMapEntry}
    (hfirst : usable (regions memmap) = first :: rest) (allocatable : ℕ)
    (halloc : allocatable < 2 ^ 64) :
    (reserved (blockCount memmap.lastUsablePage first.address) first.address
      allocatable).WellFormed ∧
      ∀ e ∈ usable (regions memmap),
        Inside (reserved (blockCount memmap.lastUsablePage first.address) first.address allocatable)
          e ∧ e.address < 2 ^ 64 := by
  obtain ⟨top, htop, htopc, htopLe, hlastLe, hlastLt, hhighest⟩ := h.last
  have hfirstMem : first ∈ usable (regions memmap) := by rw [hfirst]; simp
  have hfirstAligned := (h.aligned first hfirstMem).1
  have hends : ∀ e ∈ usable (regions memmap), e.address + e.length ≤ top.address + top.length := by
    intro e he
    obtain ⟨hmem, htype⟩ := List.mem_filter.mp he
    exact hhighest e hmem (.inl (by simpa using htype))
  have hstarts : ∀ e ∈ usable (regions memmap), first.address ≤ e.address := by
    intro e he
    have hord := h.ordered
    rw [hfirst] at he hord
    rcases List.mem_cons.mp he with rfl | he
    · exact le_refl _
    · have := (List.pairwise_cons.mp hord).1 e he
      omega
  -- Some usable region is not empty, so the last page is not below the start.
  obtain ⟨first', rest', hfirst', big, hbig, hroom⟩ := h.room
  obtain ⟨rfl, rfl⟩ := List.cons.inj (hfirst.symm.trans hfirst')
  have hpages : 1 ≤ bitmapPages (blockCount memmap.lastUsablePage first.address) := by
    have hlt : blockCount memmap.lastUsablePage first.address ≤ 2 ^ 52 := by
      have : wsub memmap.lastUsablePage first.address < 2 ^ 64 := Nat.mod_lt _ (by norm_num)
      simp only [blockCount, pageSize]
      omega
    simp only [bitmapPages, getSizeAsPages, blockCount, wadd, pageSize] at *
    omega
  have hbigEnd := hends big hbig
  have hbigStart := hstarts big hbig
  have hbigAligned := h.aligned big hbig
  have hle : first.address ≤ memmap.lastUsablePage := by
    have : pageSize ≤ big.length := by
      refine le_trans ?_ hroom
      simp only [pageSize]
      omega
    omega
  have hcount : blockCount memmap.lastUsablePage first.address =
      (memmap.lastUsablePage - first.address) / pageSize + 1 := by
    rw [blockCount, wsub_of_le (by omega) hle]
  have hne := h.ne_zero first hfirstMem
  refine ⟨⟨⟨rfl, by simp [reserved], ?_, halloc⟩, ?_, hne, hfirstAligned, ?_⟩, ?_⟩
  · simp only [reserved, hcount, pageSize]
    omega
  · exact Nat.le_add_left 1 _
  · simp only [reserved, hcount, pageSize] at *
    omega
  · intro e he
    have hstart := hstarts e he
    have hend := hends e he
    have haligned := h.aligned e he
    have hspan := h.span first hfirstMem e he
    have hle' : endBlock first.address e ≤ blockCount memmap.lastUsablePage first.address := by
      rw [hcount]
      simp only [endBlock, pageSize] at *
      omega
    have hsmall : endBlock first.address e < 2 ^ 31 := by
      simp only [endBlock, pageSize] at *
      omega
    exact ⟨⟨hstart, haligned, hle', hsmall, by omega⟩, h.address_lt e he⟩

/-- Every usable region of the boot loader's map is a usable region of the kernel's map. -/
theorem InitMaps.mem_limine {e : LimineEntry} (he : e ∈ limine) (htype : e.type = .usable) :
    (⟨e.base, e.length, .usable⟩ : MemoryMapEntry) ∈ usable (regions memmap) := by
  refine List.mem_filter.mpr ⟨(h.limine_iff e.base e.length).mp ?_, by simp⟩
  rw [← htype]
  exact he

/-- **Pages for the bitmap** are found at the beginning of a usable region. -/
theorem InitMaps.earlyAllocate {first : MemoryMapEntry} {rest : List MemoryMapEntry}
    (hfirst : usable (regions memmap) = first :: rest) {nPages : ℕ}
    (hn : nPages = bitmapPages (blockCount memmap.lastUsablePage first.address)) :
    ∃ e ∈ usable (regions memmap), nPages * pageSize ≤ e.length ∧
      PMM.earlyAllocate false limine nPages = .ok e.address := by
  obtain ⟨first', rest', hfirst', big, hbig, hroom⟩ := h.room
  obtain ⟨rfl, rfl⟩ := List.cons.inj (hfirst.symm.trans hfirst')
  rw [← hn] at hroom
  obtain ⟨hmem, htype⟩ := List.mem_filter.mp hbig
  have hbigFits : big.address + big.length ≤ 2 ^ 64 := by
    obtain ⟨top, -, -, htopLe, -, -, hhighest⟩ := h.last
    exact (hhighest big hmem (.inl (by simpa using htype))).trans htopLe
  have hlt : nPages * pageSize < 2 ^ 64 := by
    have := h.ne_zero big hbig
    omega
  have hbigLimine : (⟨big.address, big.length, .usable⟩ : LimineEntry) ∈ limine := by
    refine (h.limine_iff _ _).mpr ?_
    rw [← show big.type = .usable by simpa using htype]
    exact hmem
  obtain ⟨e, he, hetype, hlen, hok⟩ := firstFit_spec (nPages * pageSize)
    (fun e he htype => h.ne_zero _ (h.mem_limine he htype)) ⟨_, hbigLimine, rfl, hroom⟩
  refine ⟨_, h.mem_limine he hetype, hlen, ?_⟩
  rw [PMM.earlyAllocate, if_neg (by simp), Nat.mod_eq_of_lt hlt, hok]

end Init

/-- The number of allocatable blocks is a 64-bit value. -/
theorem getAllocatableBlocks_lt (entries : List MemoryMapEntry) :
    getAllocatableBlocks entries < 2 ^ 64 := by
  have hbytes : ∀ (entries : List MemoryMapEntry) (bytes : ℕ), bytes < 2 ^ 64 →
      allocatableBytes bytes entries < 2 ^ 64 := by
    intro entries
    induction entries with
    | nil => exact fun bytes hb => hb
    | cons e rest ih =>
        intro bytes hb
        have hw : ∀ x y, wadd x y < 2 ^ 64 ∧ wsub x y < 2 ^ 64 := fun x y =>
          ⟨Nat.mod_lt _ (by norm_num), Nat.mod_lt _ (by norm_num)⟩
        unfold allocatableBytes
        split
        · apply ih
          split
          · exact (hw _ _).2
          · exact (hw _ _).1
        · apply ih
          split
          · exact (hw _ _).2
          · exact (hw _ _).1
        · apply ih
          split
          · exact (hw _ _).2
          · exact (hw _ _).1
        · exact ih bytes hb
  exact lt_of_le_of_lt (Nat.div_le_self _ _) (hbytes entries 0 (by norm_num))

/-- The bytes of regions of whole pages are those of their blocks. -/
theorem bytesOf_eq {entries : List MemoryMapEntry}
    (h : ∀ e ∈ entries, e.length % pageSize = 0) :
    bytesOf entries = pageSize * blocksOf entries := by
  induction entries with
  | nil => rfl
  | cons e rest ih =>
      have hrest := ih fun e' he' => h e' (List.mem_cons_of_mem _ he')
      have he := h e List.mem_cons_self
      simp only [bytesOf, blocksOf, List.map_cons, List.sum_cons, pageSize] at *
      omega

/-- If two counters add up to a third one modulo `2 ^ 64`, the first is the difference of the
other two. -/
theorem eq_wsub_of_wadd {x y z : ℕ} (hx : x < 2 ^ 64) (hz : z < 2 ^ 64) (h : wadd x y = z) :
    x = wsub z y := by
  subst h
  simp only [wadd, wsub]
  omega

/-- Before the usable regions are freed, every block is allocated. -/
theorem bit_reserved (start allocatable : ℕ) {nBlocks b : ℕ} (hb : b < nBlocks) :
    (reserved nBlocks start allocatable).bit b = true :=
  bit_replicate_ones (by omega)

/-- Before the usable regions are freed, there are no free blocks. -/
theorem countFreeBlocks_reserved {nBlocks start allocatable : ℕ}
    (hwf : (reserved nBlocks start allocatable).WellFormed) :
    countFreeBlocks (reserved nBlocks start allocatable) = 0 := by
  rw [countFreeBlocks_eq hwf]
  refine Nat.count_of_forall_not fun b hb => ?_
  rw [bit_reserved start allocatable (show b < nBlocks from hb)]
  simp

/-- The pages of the bitmap are the first blocks of the region that holds them: their bits lie in
the region, and the conversions to `int` keep them. -/
theorem Inside.bitmap_bits {a : BitmapAllocator} {e : MemoryMapEntry} {nPages : ℕ} (h : Inside a e)
    (ha : a.WellFormed) (hlt : e.address < 2 ^ 64) (hroom : nPages * pageSize ≤ e.length) :
    firstBlock a.start e + nPages ≤ endBlock a.start e ∧
      ofInt (toInt (wsub e.address a.start / pageSize)) = firstBlock a.start e ∧
      ofInt (toInt (wadd (firstBlock a.start e) nPages)) = firstBlock a.start e + nPages := by
  have hpages : nPages ≤ e.length / pageSize := (Nat.le_div_iff_mul_le (by norm_num)).mpr hroom
  have hend : firstBlock a.start e + nPages ≤ endBlock a.start e := by
    rw [h.endBlock_eq ha]
    exact Nat.add_le_add_left hpages _
  have hsmall := h.small
  refine ⟨hend, (h.bits ha hlt).1, ?_⟩
  rw [wadd_of_lt (by omega)]
  exact ofInt_toInt (by omega)

/-- Where the blocks of a range are free, as many free blocks are lost as the range has when its
bits are set. -/
theorem wsub_countFreeBlocks_setBits {a : BitmapAllocator} (ha : a.WellFormed) {s n : ℕ}
    (hn : 1 ≤ n) (hle : s + n ≤ a.nBlocks)
    (hfree : ∀ b, s ≤ b → b < s + n → a.bit b = false) :
    wsub (countFreeBlocks a) n = countFreeBlocks (setBits a s (s + n)) := by
  have hse : s < s + n := by omega
  have hcount : countFreeBlocks a = countFreeBlocks (setBits a s (s + n)) + n := by
    rw [countFreeBlocks_eq ha, countFreeBlocks_eq (ha.setBits hse hle),
      count_clear_range hse.le hle hfree (bit_setBits ha.toShaped hse hle),
      Nat.add_sub_cancel_left, setBits_eq hse hle]
  have hlt : countFreeBlocks a < 2 ^ 64 := by
    rw [countFreeBlocks_eq ha]
    exact lt_of_le_of_lt (Nat.count_le _) ha.nBlocks_lt
  rw [wsub_of_le hlt (by omega)]
  omega

/-- **The bitmap is initialised**: the assertions hold, and the free blocks are those of the
usable regions without the pages of the bitmap. -/
theorem initBitmap_spec {entries : List MemoryMapEntry} {nBlocks start allocatable nPages : ℕ}
    {home : MemoryMapEntry} (hwf : (reserved nBlocks start allocatable).WellFormed)
    (halloc : allocatable < 2 ^ 64)
    (hinside : ∀ e ∈ usable entries, Inside (reserved nBlocks start allocatable) e ∧
      e.address < 2 ^ 64)
    (hord : (usable entries).Pairwise fun e e' => e.address + e.length ≤ e'.address)
    (hhome : home ∈ usable entries) (hroom : nPages * pageSize ≤ home.length)
    (hpos : 1 ≤ nPages) :
    ∃ a, initBitmap ⟨nBlocks, start, allocatable, 0, [], 0⟩ entries home.address nPages = .ok a ∧
      a.WellFormed ∧ SameShape (reserved nBlocks start allocatable) a ∧
      (∀ b < nBlocks, a.bit b = false ↔
        (∃ e ∈ usable entries, firstBlock start e ≤ b ∧ b < endBlock start e) ∧
          ¬ (firstBlock start home ≤ b ∧ b < firstBlock start home + nPages)) ∧
      wadd a.allocatedBlocks (countFreeBlocks a) = allocatable := by
  set a₀ := reserved nBlocks start allocatable with ha₀
  have hset : ∀ b < nBlocks, a₀.bit b = true := fun b hb => bit_reserved start allocatable hb
  obtain ⟨hwf₁, hshape, hbit, htotal, hcount, hmem⟩ := freeUsable_spec entries a₀ 0 hwf
    (by norm_num) hinside hord
    (fun e he b _ h2 => hset b (lt_of_lt_of_le h2 (hinside e he).1.end_le))
  set a₁ := (freeUsable a₀ 0 entries).1 with ha₁
  have hnone : countFreeBlocks a₀ = 0 := countFreeBlocks_reserved hwf
  rw [hnone, Nat.zero_add] at hcount
  have htotal₁ : wadd a₁.allocatedBlocks (countFreeBlocks a₁) = allocatable := by
    rw [htotal, hnone, wadd, Nat.add_zero]
    exact Nat.mod_eq_of_lt halloc
  have hassert : a₁.allocatedBlocks = wsub a₁.allocatableBlocks (countFreeBlocks a₁) := by
    rw [hshape.allocatable_eq]
    exact eq_wsub_of_wadd hwf₁.allocated_lt halloc htotal₁
  have hbytes : (freeUsable a₀ 0 entries).2 = pageSize * countFreeBlocks a₁ % 2 ^ 64 := by
    rw [hmem, hcount, Nat.zero_add,
      bytesOf_eq fun e he => ((hinside e he).1.aligned).2]
  -- The pages of the bitmap are the first blocks of the region that holds them.
  obtain ⟨hin, hlt⟩ := hinside home hhome
  obtain ⟨hend, hs, he⟩ : firstBlock start home + nPages ≤ endBlock start home ∧
      ofInt (toInt (wsub home.address a₀.start / pageSize)) = firstBlock start home ∧
      ofInt (toInt (wadd (firstBlock start home) nPages)) = firstBlock start home + nPages :=
    hin.bitmap_bits hwf hlt hroom
  rw [← hshape.start_eq] at hs
  have hse : firstBlock start home < firstBlock start home + nPages := by omega
  have hle : firstBlock start home + nPages ≤ a₁.nBlocks := by
    rw [hshape.nBlocks_eq]
    exact hend.trans hin.end_le
  have hfree : ∀ b, firstBlock start home ≤ b → b < firstBlock start home + nPages →
      a₁.bit b = false := by
    intro b h1 h2
    exact (hbit b).mpr (.inr ⟨home, hhome, h1, lt_of_lt_of_le h2 hend⟩)
  have hlast := wsub_countFreeBlocks_setBits hwf₁ hpos hle hfree
  refine ⟨setBits a₁ (firstBlock start home) (firstBlock start home + nPages), ?_,
    hwf₁.setBits hse hle, ?_, ?_, ?_⟩
  · have hinit : initBitmap ⟨nBlocks, start, allocatable, 0, [], 0⟩ entries home.address nPages =
        if a₁.allocatedBlocks ≠ wsub a₁.allocatableBlocks (countFreeBlocks a₁)
        then .error .assertion
        else if (freeUsable a₀ 0 entries).2 ≠ pageSize * countFreeBlocks a₁ % 2 ^ 64 then
          .error .assertion
        else
          let startBit := toInt (wsub home.address a₁.start / pageSize)
          let endBit := toInt (wadd (ofInt startBit) nPages)
          if wsub (countFreeBlocks a₁) nPages ≠
            countFreeBlocks (setBits a₁ (ofInt startBit) (ofInt endBit)) then .error .assertion
          else .ok (setBits a₁ (ofInt startBit) (ofInt endBit)) := rfl
    rw [hinit, if_neg (not_not.mpr hassert), if_neg (not_not.mpr hbytes)]
    simp only [hs, he]
    rw [if_neg (not_not.mpr hlast)]
  · rw [setBits_eq hse hle]
    exact ⟨hshape.nBlocks_eq, hshape.start_eq, hshape.allocatable_eq, hshape.length_eq⟩
  · intro b hb
    rw [bit_setBits hwf₁.toShaped hse hle]
    split
    · rename_i hin'
      simp [hin']
    · rename_i hout
      rw [hbit, hset b hb]
      simp only [Bool.true_eq_false, false_or, hout, not_false_eq_true, and_true]
      rfl
  · rw [total_setBits hwf₁ hse hle hfree]
    exact htotal₁

/-- **`PMM_init` frees exactly the usable memory.** For all memory maps whose usable regions
are in order, disjoint, page-aligned, without page 0 and within fewer than `2 ^ 31` pages, and
of which one can hold the bitmap: no assertion fails, the bitmap fits in the pages that are
reserved for it, a block is free if and only if its page is usable and not one of these pages,
and the number of allocated blocks and that of free ones add up to the allocatable ones. -/
theorem pmmInit_frees_usable {memmap : MemoryMap} {limine : List LimineEntry}
    (h : InitMaps memmap limine) :
    ∃ a addr nPages, pmmInit memmap limine = .ok (a, addr, nPages) ∧
      Initialised memmap a addr nPages := by
  obtain ⟨first, rest, hfirst, -⟩ := h.room
  have hfirstMem : first ∈ usable (regions memmap) := by rw [hfirst]; simp
  set nBlocks := blockCount memmap.lastUsablePage first.address with hnBlocks
  set allocatable := getAllocatableBlocks (regions memmap) with hallocatable
  have halloc : allocatable < 2 ^ 64 := getAllocatableBlocks_lt _
  obtain ⟨hwf, hinside⟩ := h.inside hfirst allocatable halloc
  rw [← hnBlocks] at hwf hinside
  obtain ⟨home, hhome, hroom, hearly⟩ := h.earlyAllocate hfirst
    (show bitmapPages nBlocks = _ from rfl)
  have hnLe : nBlocks ≤ 2 ^ 52 := by
    have : wsub memmap.lastUsablePage first.address < 2 ^ 64 := Nat.mod_lt _ (by norm_num)
    simp only [hnBlocks, blockCount, pageSize]
    omega
  have hnPos : 1 ≤ nBlocks := hwf.nBlocks_pos
  have hpages : 1 ≤ bitmapPages nBlocks := by
    simp only [bitmapPages, getSizeAsPages, wadd, pageSize]
    omega
  obtain ⟨a, hinit, hwfa, hshape, hbit, htotal⟩ :=
    initBitmap_spec hwf halloc hinside h.ordered hhome hroom hpages
  have hsize : memmap.size ≠ 0 := by
    intro hzero
    rw [regions, hzero] at hfirstMem
    simp [usable] at hfirstMem
  refine ⟨a, home.address, bitmapPages nBlocks, ?_, hwfa, ?_, ?_, ?_⟩
  · rw [pmmInit, if_neg hsize, getBitmapStart_eq hfirst (h.ne_zero first hfirstMem)]
    simp only [bind, Except.bind, ← hnBlocks, ← hallocatable, hearly, hinit]
    rfl
  · rw [hshape.length_eq]
    simp only [reserved, bitmapPages, getSizeAsPages, wadd, pageSize]
    omega
  · intro b hb
    rw [hshape.nBlocks_eq] at hb
    rw [hbit b hb]
    have haddr : blockAddr a b = blockAddr (reserved nBlocks first.address allocatable) b :=
      blockAddr_congr hshape.start_eq b
    rw [haddr]
    have husable : UsablePage memmap (blockAddr (reserved nBlocks first.address allocatable) b) ↔
        ∃ e ∈ usable (regions memmap),
          firstBlock first.address e ≤ b ∧ b < endBlock first.address e := by
      constructor
      · rintro ⟨e, he, htype, hpage⟩
        have hmem : e ∈ usable (regions memmap) := List.mem_filter.mpr ⟨he, by simpa using htype⟩
        exact ⟨e, hmem, (blockAddr_mem_iff hwf (hinside e hmem).1 b).mp hpage⟩
      · rintro ⟨e, hmem, hrange⟩
        obtain ⟨he, htype⟩ := List.mem_filter.mp hmem
        exact ⟨e, he, by simpa using htype, (blockAddr_mem_iff hwf (hinside e hmem).1 b).mpr hrange⟩
    have hhomeAddr : home.address =
        blockAddr (reserved nBlocks first.address allocatable) (firstBlock first.address home) := by
      have h1 := hwf.start_aligned
      have h2 := (hinside home hhome).1.aligned
      have h3 := (hinside home hhome).1.start_le
      simp only [blockAddr, reserved, firstBlock, pageSize] at *
      omega
    rw [husable, hhomeAddr, mem_pages_blockAddr]
  · rw [← countFreeBlocks_eq hwfa, htotal, hshape.allocatable_eq]
    rfl

/-- A memory map with two usable regions, of three pages and of one. -/
def twoRegions : MemoryMap :=
  ⟨0x4000, 0x1000, 0x5000, 0, 0, 2, [⟨0x1000, 0x3000, .usable⟩, ⟨0x5000, 0x1000, .usable⟩]⟩

/-- The initialisation at a map with two regions: the bitmap takes the first page. -/
theorem pmmInit_frees_usable_twoRegions :
    InitMaps twoRegions [⟨0x1000, 0x3000, .usable⟩, ⟨0x5000, 0x1000, .usable⟩] ∧
      ∃ a addr nPages, pmmInit twoRegions [⟨0x1000, 0x3000, .usable⟩, ⟨0x5000, 0x1000, .usable⟩] =
        .ok (a, addr, nPages) ∧ Initialised twoRegions a addr nPages := by
  have hregions : regions twoRegions = [⟨0x1000, 0x3000, .usable⟩, ⟨0x5000, 0x1000, .usable⟩] := rfl
  have husable : usable (regions twoRegions) =
      [⟨0x1000, 0x3000, .usable⟩, ⟨0x5000, 0x1000, .usable⟩] := by
    rw [hregions]
    simp [usable]
  have hmaps : InitMaps twoRegions [⟨0x1000, 0x3000, .usable⟩, ⟨0x5000, 0x1000, .usable⟩] := by
    refine ⟨le_rfl, ?_, ?_, ?_, ?_, ?_, ?_, ?_, ?_⟩
    · rw [husable]
      simp
    · rw [husable]
      simp [pageSize]
    · rw [husable]
      simp
    · rw [husable]
      simp
    · intro e he e' he'
      rw [husable] at he he'
      simp only [List.mem_cons, List.not_mem_nil, or_false] at he he'
      rcases he with rfl | rfl <;> rcases he' with rfl | rfl <;> norm_num [pageSize]
    · refine ⟨⟨0x5000, 0x1000, .usable⟩, by rw [hregions]; simp, .inl rfl, ?_, ?_, ?_, ?_⟩
      · norm_num
      · simp [twoRegions, pageSize]
      · simp [twoRegions]
      · rw [hregions]
        simp
    · intro base length
      rw [hregions]
      simp
    · refine ⟨_, _, husable, ⟨0x1000, 0x3000, .usable⟩, by rw [husable]; simp, ?_⟩
      decide +kernel
  exact ⟨hmaps, pmmInit_frees_usable hmaps⟩

end MugOS.PMM
