import Mathlib.Data.Nat.Count
import MugOS.Memory
import MugOS.Lib.WordBitmap

/-!
# The Physical Memory Manager

The bitmap allocator of `Kernel/Memory/PMM.c`: one bit for each physical page from
`start` on, the most significant bit of each 64-bit word first, `1` for a page that is
reserved or handed out. The definitions follow the source function by function; a loop
of the source is a recursion on the number of iterations it has left.

The allocator state is a plain record, and `WellFormed` says what `PMM_init` leaves
behind: the bitmap has the words that `nBlocks` bits need, and the managed blocks are
pages of the 64-bit physical address space.
-/

namespace MugOS.PMM

open WordBitmap

/-- `struct BitmapAllocator`. The pointer `bitmap` is the list of the words it points
to. -/
structure BitmapAllocator where
  /-- the number of blocks, one bit each -/
  nBlocks : ℕ
  /-- the physical address of block `0` -/
  start : ℕ
  /-- the number of blocks that can be allocated -/
  allocatableBlocks : ℕ
  /-- the number of blocks allocated at a given time -/
  allocatedBlocks : ℕ
  bitmap : List (BitVec 64)
  bitmapLength : ℕ
  deriving DecidableEq, Repr

/-- Bit `b` of the allocator's bitmap: block `b` is reserved or handed out. -/
def BitmapAllocator.bit (a : BitmapAllocator) (b : ℕ) : Bool := WordBitmap.bit a.bitmap b

/-! ### The masked range updates -/

/-- The start mask of `clearBits`, e.g. `3 => 0b11100000` on eight bits. -/
def clearStartMask (indexInFirst : ℕ) : BitVec 64 :=
  if indexInFirst = 0 then 0x0000000000000000#64
  else ~~~((1#64 <<< (64 - indexInFirst)) - 1#64)

/-- The end mask of `clearBits`, e.g. `3 => 0b00011111` on eight bits. -/
def clearEndMask (indexInLast : ℕ) : BitVec 64 :=
  if indexInLast = 0 then 0xffffffffffffffff#64
  else ~~~(((1#64 <<< indexInLast) - 1#64) <<< (64 - indexInLast))

/-- The part of `clearBits` that applies the masks. -/
def clearWords (bitmap : List (BitVec 64)) (startBit endBit : ℕ) : List (BitVec 64) :=
  let startMask := clearStartMask (startBit % 64)
  let endMask := clearEndMask (endBit % 64)
  let startIndex := startBit / 64
  let endIndex := endBit / 64
  if startIndex = endIndex then
    bitmap.set startIndex (word bitmap startIndex &&& (startMask ||| endMask))
  else
    let bitmap := bitmap.set startIndex (word bitmap startIndex &&& startMask)
    let bitmap := fill 0x0000000000000000#64 (startIndex + 1)
      (endIndex - (startIndex + 1)) bitmap
    if endBit % 64 ≠ 0 then bitmap.set endIndex (word bitmap endIndex &&& endMask)
    else bitmap

/-- `clearBits(allocator, start_bit, end_bit)`: clears the bits of a range, up to the last
block, and counts them. -/
def clearBits (a : BitmapAllocator) (startBit endBit : ℕ) : BitmapAllocator :=
  if startBit ≥ endBit then a
  else if startBit ≥ a.nBlocks then a
  else
    let endBit := if endBit > a.nBlocks then a.nBlocks else endBit
    { a with
      allocatedBlocks := wsub a.allocatedBlocks (endBit - startBit)
      bitmap := clearWords a.bitmap startBit endBit }

/-- The start mask of `setBits`, e.g. `3 => 0b00011111` on eight bits. -/
def setStartMask (indexInFirst : ℕ) : BitVec 64 :=
  if indexInFirst = 0 then 0xffffffffffffffff#64
  else (1#64 <<< (64 - indexInFirst)) - 1#64

/-- The end mask of `setBits`, e.g. `3 => 0b11100000` on eight bits. -/
def setEndMask (indexInLast : ℕ) : BitVec 64 :=
  if indexInLast = 0 then 0x0000000000000000#64
  else ((1#64 <<< indexInLast) - 1#64) <<< (64 - indexInLast)

/-- The part of `setBits` that applies the masks. -/
def setWords (bitmap : List (BitVec 64)) (startBit endBit : ℕ) : List (BitVec 64) :=
  let startMask := setStartMask (startBit % 64)
  let endMask := setEndMask (endBit % 64)
  let startIndex := startBit / 64
  let endIndex := endBit / 64
  if startIndex = endIndex then
    bitmap.set startIndex (word bitmap startIndex ||| (startMask &&& endMask))
  else
    let bitmap := bitmap.set startIndex (word bitmap startIndex ||| startMask)
    let bitmap := fill 0xffffffffffffffff#64 (startIndex + 1)
      (endIndex - (startIndex + 1)) bitmap
    if endBit % 64 ≠ 0 then bitmap.set endIndex (word bitmap endIndex ||| endMask)
    else bitmap

/-- `setBits(allocator, start_bit, end_bit)`: sets the bits of a range, up to the last block,
and counts them. -/
def setBits (a : BitmapAllocator) (startBit endBit : ℕ) : BitmapAllocator :=
  if startBit ≥ endBit then a
  else if startBit ≥ a.nBlocks then a
  else
    let endBit := if endBit > a.nBlocks then a.nBlocks else endBit
    { a with
      allocatedBlocks := wadd a.allocatedBlocks (endBit - startBit)
      bitmap := setWords a.bitmap startBit endBit }

/-! ### Counting and checking -/

/-- `__builtin_popcountll`: the number of bits of the word that are set. -/
def popcount (w : BitVec 64) : ℕ := Nat.count (fun j => w.getMsbD j = true) 64

/-- The loop of `countFreeBlocks` over the first `n` words from word `i` on. -/
def countWords (bitmap : List (BitVec 64)) : ℕ → ℕ → ℕ → ℕ
  | _, 0, nBits => nBits
  | i, n + 1, nBits => countWords bitmap (i + 1) n (nBits + (64 - popcount (word bitmap i)))

/-- The loop of `countFreeBlocks` over the `n` leftmost bits of the last word. -/
def countLastWord : ℕ → BitVec 64 → ℕ → ℕ
  | 0, _, nBits => nBits
  | n + 1, cur, nBits =>
      countLastWord n (cur <<< 1)
        (if cur &&& 0x8000000000000000#64 = 0#64 then nBits + 1 else nBits)

/-- `countFreeBlocks(allocator)`: the clear bits of all blocks, word by word. -/
def countFreeBlocks (a : BitmapAllocator) : ℕ :=
  let nBits := countWords a.bitmap 0 (a.bitmapLength - 1) 0
  let cur := word a.bitmap (a.bitmapLength - 1)
  let nBitsRemaining := if a.nBlocks % 64 = 0 then 64 else a.nBlocks % 64
  countLastWord nBitsRemaining cur nBits

/-- The right-to-left test loops of `isFullyAllocated`: `n` bits of `cur`, the least
significant one first. -/
def allSetRight : ℕ → BitVec 64 → Bool
  | 0, _ => true
  | n + 1, cur => if cur &&& 1#64 = 0#64 then false else allSetRight n (cur >>> 1)

/-- The left-to-right test loop of `isFullyAllocated`: `n` bits of `cur`, the most
significant one first. -/
def allSetLeft : ℕ → BitVec 64 → Bool
  | 0, _ => true
  | n + 1, cur =>
      if cur &&& 0x8000000000000000#64 = 0#64 then false else allSetLeft n (cur <<< 1)

/-- The middle loop of `isFullyAllocated`: `n` whole words from word `i` on. -/
def allWordsSet (bitmap : List (BitVec 64)) : ℕ → ℕ → Bool
  | _, 0 => true
  | i, n + 1 =>
      if word bitmap i ≠ 0xffffffffffffffff#64 then false
      else allWordsSet bitmap (i + 1) n

/-- `isFullyAllocated(allocator, start_bit, end_bit)`. The middle loop runs while
`i < end_index - 1`, as in the source. -/
def isFullyAllocated (a : BitmapAllocator) (startBit endBit : ℕ) : Bool :=
  if startBit ≥ endBit then false
  else if startBit ≥ a.nBlocks then false
  else if endBit > a.nBlocks then false
  else
    let startIndex := startBit / 64
    let endIndex := endBit / 64
    let indexInFirst := startBit % 64
    let indexInLast := endBit % 64
    if startIndex = endIndex then
      allSetRight (endBit - startBit) (word a.bitmap startIndex >>> (64 - indexInLast))
    else if indexInFirst ≠ 0 && !allSetRight (64 - indexInFirst) (word a.bitmap startIndex)
    then false
    else
      let startIndex := if indexInFirst ≠ 0 then startIndex + 1 else startIndex
      if !allWordsSet a.bitmap startIndex (endIndex - 1 - startIndex) then false
      else allSetLeft indexInLast (word a.bitmap endIndex)

/-! ### Allocation -/

/-- The bit loop of `allocate_firstFit`: `k` bits of `cur` are left, the leftmost being
block `pos`, and `nBits` free blocks end right before it. Returns the index past the
run that was found, or the length of the current run. -/
def scanWord (nPages : ℕ) : ℕ → ℕ → BitVec 64 → ℕ → ℕ ⊕ ℕ
  | _, 0, _, nBits => .inr nBits
  | pos, k + 1, cur, nBits =>
      let nBits := if cur &&& 0x8000000000000000#64 = 0#64 then nBits + 1 else 0
      if nBits = nPages then .inl (pos + 1)
      else scanWord nPages (pos + 1) k (cur <<< 1) nBits

/-- The word loop of `allocate_firstFit` over `m` words from word `i` on. -/
def scanWords (bitmap : List (BitVec 64)) (nPages : ℕ) : ℕ → ℕ → ℕ → ℕ ⊕ ℕ
  | _, 0, nBits => .inr nBits
  | i, m + 1, nBits =>
      match scanWord nPages (i * 64) 64 (word bitmap i) nBits with
      | .inl endIdx => .inl endIdx
      | .inr nBits => scanWords bitmap nPages (i + 1) m nBits

/-- The whole search of `allocate_firstFit`. The last word is read only up to
`nBlocks % 64`. -/
def searchFirstFit (a : BitmapAllocator) (nPages : ℕ) : ℕ ⊕ ℕ :=
  match scanWords a.bitmap nPages 0 (a.bitmapLength - 1) 0 with
  | .inl endIdx => .inl endIdx
  | .inr nBits =>
      scanWord nPages ((a.bitmapLength - 1) * 64) (a.nBlocks % 64)
        (word a.bitmap (a.bitmapLength - 1)) nBits

/-- `allocate_firstFit(allocator, n_pages)`: the returned address (`0` for `NULL`) and
the new state. -/
def allocateFirstFit (a : BitmapAllocator) (nPages : ℕ) : ℕ × BitmapAllocator :=
  if nPages = 0 then (0, a)
  else
    match searchFirstFit a nPages with
    | .inl endIdx =>
        let startIdx := endIdx - nPages
        (wadd a.start (startIdx * pageSize), setBits a startIdx endIdx)
    | .inr _ => (0, a)

/-- `PMM_allocatePages(n_pages)`: the first run of free blocks that is long enough. -/
def allocatePages (a : BitmapAllocator) (nPages : ℕ) : ℕ × BitmapAllocator :=
  allocateFirstFit a nPages

/-- The block index that `PMM_freePages` computes from an address. -/
def blockIndex (a : BitmapAllocator) (addr : ℕ) : ℕ := wsub addr a.start / pageSize

/-- `PMM_freePages(addr, n_pages)`: clears the bits of the pages, if all of them are set. -/
def freePages (a : BitmapAllocator) (addr nPages : ℕ) : BitmapAllocator :=
  let startBit := blockIndex a addr
  let endBit := wadd startBit nPages
  if !isFullyAllocated a startBit endBit then a
  else clearBits a startBit endBit

/-! ### Well-formed allocators -/

/-- The shape of an allocator record: the bitmap has the `ceil(nBlocks / 64)` words that
`nBlocks` bits need, and the counters are 64-bit values. -/
structure BitmapAllocator.Shaped (a : BitmapAllocator) : Prop where
  bitmapLength_eq : a.bitmapLength = (a.nBlocks + 63) / 64
  length_bitmap : a.bitmap.length = a.bitmapLength
  nBlocks_lt : a.nBlocks < 2 ^ 64
  allocated_lt : a.allocatedBlocks < 2 ^ 64

/-- What `PMM_init` establishes and every operation keeps: there is at least one block,
`start` is the non-zero address of a page and the last block is a page of the physical
address space. -/
structure BitmapAllocator.WellFormed (a : BitmapAllocator) : Prop extends a.Shaped where
  nBlocks_pos : 1 ≤ a.nBlocks
  start_ne_zero : a.start ≠ 0
  start_aligned : a.start % pageSize = 0
  fits : a.start + a.nBlocks * pageSize ≤ 2 ^ 64

end MugOS.PMM
