import MugOS.Hashmap
import MugOS.LinkedList
import MugOS.Lib.WordBitmap

/-!
# The Heap

`Heap_malloc` and `Heap_free` of `Stdlib/Heap.c` with everything that they call. Requests
below a page are served by blocks of *chunks*, pages that a bitmap divides into blocks;
larger requests by pages of their own, some of which are cached when they are freed. Each
chunk or large block has a `ChunkInfo`, and these are kept in pages of their own, the
*Chunguses*, again with a bitmap.

The memory that the program itself keeps in its blocks is not part of the state.
-/

namespace MugOS.Heap

open WordBitmap LinkedList

/-! ### Constants -/

/-- `MIN_BLOCK_SIZE`. -/
abbrev minBlockSize : ℕ := 64

/-- `SMALLBUCKETS_OFFSET`. -/
abbrev smallbucketsOffset : ℕ := 6

/-- `N_SMALLBUCKET`. -/
abbrev nSmallbucket : ℕ := 6

/-- `BIGBUCKET_THRESHOLD`. -/
abbrev bigbucketThreshold : ℕ := pageSize

/-- `N_BIGBLOCKS_CACHED`. -/
abbrev nBigblocksCached : ℕ := 16

/-- `BIGBLOCKS_CACHE_MAXSIZE`. -/
abbrev bigblocksCacheMaxsize : ℕ := 16 * pageSize

/-- `CHUNGUS_BITMAP_SIZE`. -/
abbrev chungusBitmapSize : ℕ := 2

/-- `CHUNGUS_N_CHUNKS`: a Chungus has a header of 32 bytes, and a `ChunkInfo` 40 bytes. -/
abbrev chungusNChunks : ℕ := (pageSize - 32) / 40

/-! ### The state -/

/-- `struct ChunkInfo`, apart from its list node. -/
structure ChunkInfo where
  base : ℕ
  size : ℕ
  bitmap : BitVec 64
  deriving DecidableEq, Inhabited

/-- `struct Chungus`, apart from its list node: a bitmap, and the elements that it marks. -/
structure Chungus where
  bitmap : List (BitVec 64)
  chunks : ℕ → ChunkInfo

/-- A `ChunkInfo*`: null, an element of a Chungus given by its page, or a slot of
`freeCache`. -/
inductive ChunkRef
  | null
  | pool (page index : ℕ)
  | cached (slot : ℕ)
  deriving DecidableEq, Inhabited

/-- A list head or a list node: `partialChunguses`, the elements of `smallBuckets`, and the
nodes in Chunguses and in their elements. -/
inductive Node
  | chunguses
  | bucket (order : ℕ)
  | chungus (page : ℕ)
  | chunk (page index : ℕ)
  deriving DecidableEq

/-- The state `m_heap`, the links of its lists, the pages that hold Chunguses, read as such,
and the pages in use. -/
structure State where
  /-- `allocMap` -/
  allocMap : Hashmap ChunkRef
  links : Links Node
  /-- the contents of the Chunguses, by page -/
  memory : ℕ → Chungus
  /-- `freeCache` -/
  freeCache : List ChunkInfo
  pages : Pages
  /-- the pages of the Chunguses that were allocated and not freed -/
  pool : List ℕ

/-- The links of lists without nodes. -/
def noLinks : Node → Option Node
  | .chunguses => some .chunguses
  | .bucket order => some (.bucket order)
  | _ => none

/-- The initial `m_heap`: no block, no Chungus, empty lists and an empty cache. -/
def State.start (memory : ℕ → Chungus) : State where
  allocMap := Hashmap.empty
  links := ⟨noLinks, noLinks⟩
  memory := memory
  freeCache := List.replicate nBigblocksCached ⟨0, 0, 0#64⟩
  pages := Pages.none
  pool := []

/-- A bound for the loops over lists: every node that was ever linked belongs to a page that
was asked for. -/
def State.steps (s : State) : ℕ := s.pages.requests + 1

/-- `*chunk`: the `ChunkInfo` that a reference refers to, in a Chungus or in the cache. -/
def State.chunk (s : State) : ChunkRef → Except Fault ChunkInfo
  | .null => .error .wild
  | .pool page index => .ok ((s.memory page).chunks index)
  | .cached slot => .ok (s.freeCache.getD slot default)

/-- `*chunk = info`: stores a `ChunkInfo` where a reference refers to. -/
def State.setChunk (s : State) (ref : ChunkRef) (info : ChunkInfo) : State :=
  match ref with
  | .null => s
  | .pool page index =>
      { s with
        memory := Function.update s.memory page
          { s.memory page with chunks := Function.update (s.memory page).chunks index info } }
  | .cached slot => { s with freeCache := s.freeCache.set slot info }

/-- `freePages(pages, n)`: unmapping pages that are not in use ends in a panic. -/
def State.freePages (s : State) (addr n : ℕ) : Except Fault State :=
  if ∀ q ∈ MugOS.pages addr n, q ∈ s.pages.owned then
    .ok { s with pages := s.pages.freePages addr n }
  else .error .panic

/-! ### Bit operations -/

/-- `__builtin_clzll(x)`, for an argument other than 0. -/
def clzll (x : BitVec 64) : ℕ := 63 - x.toNat.log2

/-- `__builtin_popcountll(x)`: the number of bits that are set. -/
def popcountll (x : BitVec 64) : ℕ := (List.range 64).countP x.getMsbD

/-- `0x8000000000000000 >> n`: the mask of bit `n`, counted from the most significant one. -/
def bitMask (n : ℕ) : BitVec 64 := 0x8000000000000000#64 >>> n

/-! ### Blocks -/

/-- `allocateBlock(chunk)`: the block, and the chunk afterwards. -/
def allocateBlock (chunk : ChunkInfo) : Except Fault (ℕ × ChunkInfo) :=
  if chunk.bitmap = 0xffffffffffffffff#64 then .error .assertion
  else
    let firstFree := clzll (~~~chunk.bitmap)
    .ok (wadd chunk.base (firstFree * chunk.size),
      { chunk with bitmap := chunk.bitmap ||| bitMask firstFree })

/-- `freeBlock(chunk, ptr)`: clears the bit of the block in the bitmap of its chunk. -/
def freeBlock (chunk : ChunkInfo) (ptr : ℕ) : ChunkInfo :=
  { chunk with bitmap := chunk.bitmap &&& ~~~(bitMask (getOffset ptr / chunk.size)) }

/-! ### Chunks -/

/-- The bitmap of a chunk without allocated blocks: the bits without a block are set. -/
def emptyMask (size : ℕ) : BitVec 64 := bitMask (pageSize / size - 1) - 1#64

/-- `chungus->bitmap[i / 64] |= 0x8000000000000000 >> (i % 64)`. -/
def markUsed (chungus : Chungus) (i : ℕ) : Chungus :=
  { chungus with
    bitmap := chungus.bitmap.set (i / 64) (word chungus.bitmap (i / 64) ||| bitMask (i % 64)) }

/-- `chungus->bitmap[i / 64] &= ~(0x8000000000000000 >> (i % 64))`. -/
def markFree (chungus : Chungus) (i : ℕ) : Chungus :=
  { chungus with
    bitmap := chungus.bitmap.set (i / 64) (word chungus.bitmap (i / 64) &&& ~~~(bitMask (i % 64))) }

/-- `allocateChunk(chunk, size)`, the argument being an element of a Chungus. -/
def allocateChunk (src : PageSource) (s : State) (page index size : ℕ) : Bool × State :=
  let nPages := roundToPage size
  let chunk := (s.memory page).chunks index
  let (base, ps) := s.pages.allocatePages src nPages false
  let s := { s with pages := ps }
  let chunk := { chunk with base := base }
  if base = 0 then (false, s.setChunk (.pool page index) chunk)
  else
    let chunk := { chunk with size := size }
    let chunk :=
      if size < bigbucketThreshold then { chunk with bitmap := emptyMask size } else chunk
    let s := s.setChunk (.pool page index) chunk
    (true, { s with memory := Function.update s.memory page (markUsed (s.memory page) index) })

/-- `freeChunk(chunk)`: gives its pages back, and clears its base and size. -/
def freeChunk (s : State) (ref : ChunkRef) : Except Fault State := do
  let chunk ← s.chunk ref
  let s ← s.freePages chunk.base (roundToPage chunk.size)
  return s.setChunk ref { chunk with base := 0, size := 0 }

/-- `isChunkFull(chunk)`: whether every bit of its bitmap is set. -/
def isChunkFull (chunk : ChunkInfo) : Bool := chunk.bitmap = 0xffffffffffffffff#64

/-- `isChunkEmpty(chunk)`: whether its bitmap is that of an empty chunk of this size. -/
def isChunkEmpty (chunk : ChunkInfo) : Bool := chunk.bitmap = emptyMask chunk.size

/-- `List_getObject(node, struct ChunkInfo, lnode)`. -/
def chunkOfNode : Node → Except Fault (ℕ × ℕ)
  | .chunk page index => .ok (page, index)
  | _ => .error .wild

/-- `shouldFreeChunk(bucket, chunk)`: whether the other chunks of the bucket have enough free
blocks. -/
def shouldFreeChunk (s : State) (bucket : Node) (page index : ℕ) : Except Fault Bool := do
  let chunk := (s.memory page).chunks index
  let target := 3 * pageSize / (2 * chunk.size)
  let (_, found) ← foreach s.links bucket s.steps (0, false) fun (nFree, _) node => do
    let (curPage, curIndex) ← chunkOfNode node
    let cur := (s.memory curPage).chunks curIndex
    let nFree := if (curPage, curIndex) ≠ (page, index) then nFree + (64 - popcountll cur.bitmap)
      else nFree
    return ((nFree, decide (nFree ≥ target)), decide (nFree ≥ target))
  return found

/-! ### Chunguses -/

/-- The bits of the last word of a Chungus bitmap that have no `ChunkInfo`. -/
def invalidMask : BitVec 64 := (1#64 <<< (64 - chungusNChunks % 64)) - 1#64

/-- `allocateChungus()`: its page, 0 for `NULL`, with only the invalid bits set in its
bitmap. -/
def allocateChungus (src : PageSource) (s : State) : ℕ × State :=
  let (page, ps) := s.pages.allocatePages src 1 false
  let s := { s with pages := ps }
  if page = 0 then (0, s)
  else
    (page,
      { s with
        memory := Function.update s.memory page
          { s.memory page with bitmap := [0#64, invalidMask] }
        pool := page :: s.pool })

/-- `freeChungus(chungus)`: gives its page back, which is no Chungus any more. -/
def freeChungus (s : State) (page : ℕ) : Except Fault State := do
  let s ← s.freePages page 1
  return { s with pool := s.pool.erase page }

/-- `isChungusFull(chungus)`: whether every word of its bitmap is all ones. -/
def isChungusFull (chungus : Chungus) : Bool :=
  (List.range chungusBitmapSize).all fun i => word chungus.bitmap i = 0xffffffffffffffff#64

/-- `isChungusEmpty(chungus)`: whether no bit of its bitmap is set but the invalid ones. -/
def isChungusEmpty (chungus : Chungus) : Bool :=
  ((List.range (chungusBitmapSize - 1)).all fun i => word chungus.bitmap i = 0#64) &&
    (word chungus.bitmap (chungusBitmapSize - 1) &&& ~~~invalidMask) = 0#64

/-- `findFreeChunk_chungus(chungus)`: the index of the `ChunkInfo`. -/
def findFreeChunkInChungus (chungus : Chungus) : Option ℕ :=
  (List.range chungusBitmapSize).findSome? fun i =>
    if word chungus.bitmap i = 0xffffffffffffffff#64 then none
    else some (64 * i + clzll (~~~(word chungus.bitmap i)))

/-- `List_getObject(node, struct Chungus, lnode)`. -/
def chungusOfNode : Node → Except Fault ℕ
  | .chungus page => .ok page
  | _ => .error .wild

/-- `findFreeChunk_chungusList(chunguses)`: the first free element of the first Chungus that
has one. -/
def findFreeChunkInList (s : State) : Except Fault (Option (ℕ × ℕ)) :=
  foreach s.links .chunguses s.steps none fun _ node => do
    let page ← chungusOfNode node
    match findFreeChunkInChungus (s.memory page) with
    | some index => return (some (page, index), true)
    | none => return (none, false)

/-- `getFreeChunk(chunguses)`. A `ChunkInfo` outside of its page is an access outside of the
Chungus. -/
def getFreeChunk (src : PageSource) (s : State) : Except Fault (Option (ℕ × ℕ) × State) := do
  match ← findFreeChunkInList s with
  | some (page, index) =>
      if index ≥ chungusNChunks then .error .wild
      else if isChungusFull (s.memory page) then do
        let links ← pop s.links .chunguses (.chungus page)
        return (some (page, index), { s with links := links })
      else return (some (page, index), s)
  | none =>
      let (page, s) := allocateChungus src s
      if page = 0 then return (none, s)
      let links ← pushFront s.links .chunguses (.chungus page)
      let s := { s with links := links }
      match ← findFreeChunkInList s with
      | some (page, index) =>
          if index ≥ chungusNChunks then .error .wild else return (some (page, index), s)
      | none => .error .assertion

/-- `countFreeChunkInChungus(chungus)`: the clear bits of all words of its bitmap. -/
def countFreeChunkInChungus (chungus : Chungus) : ℕ :=
  ((List.range chungusBitmapSize).map fun i => 64 - popcountll (word chungus.bitmap i)).sum

/-- `shouldFreeChungus(chunguses, chungus)`. The source counts the elements of `chungus`
itself for each of the others. -/
def shouldFreeChungus (s : State) (page : ℕ) : Except Fault Bool := do
  let threshold := 3 * pageSize / (2 * chungusNChunks)
  let (_, found) ← foreach s.links .chunguses s.steps (0, false) fun (nFree, _) node => do
    let cur ← chungusOfNode node
    let nFree := if cur ≠ page then nFree + countFreeChunkInChungus (s.memory page) else nFree
    return ((nFree, decide (nFree ≥ threshold)), decide (nFree ≥ threshold))
  return found

/-! ### Small blocks -/

/-- `getSmallbucketOrder(size)`: the index of the bucket for a size, from its number of
bits. -/
def getSmallbucketOrder (size : ℕ) : Except Fault ℕ :=
  if size < minBlockSize then .error .assertion
  else .ok (64 - clzll (BitVec.ofNat 64 (size - 1)) - smallbucketsOffset)

/-- `m_heap.smallBuckets + order`, for the list that is read or written there. -/
def smallBucket (order : ℕ) : Except Fault Node :=
  if order < nSmallbucket then .ok (.bucket order) else .error .wild

/-- The chunk that `allocateSmallbucket` takes when the bucket has none. -/
def newSmallChunk (src : PageSource) (s : State) (bucket : Node) (size : ℕ) :
    Except Fault (Option (ℕ × ℕ) × State) := do
  match ← getFreeChunk src s with
  | (none, s) => return (none, s)
  | (some (page, index), s) =>
      match allocateChunk src s page index size with
      | (false, s) => return (none, s)
      | (true, s) =>
          let base := ((s.memory page).chunks index).base
          match ← Hashmap.insert src s.allocMap s.pages base (.pool page index) with
          | (false, map, ps) =>
              let s ← freeChunk { s with allocMap := map, pages := ps } (.pool page index)
              return (none, s)
          | (true, map, ps) =>
              let links ← pushFront s.links bucket (.chunk page index)
              return (some (page, index), { s with allocMap := map, pages := ps, links := links })

/-- The chunk from which `allocateSmallbucket` takes a block: the first one of the bucket, or
a new one. -/
def takeSmallChunk (src : PageSource) (s : State) (bucket : Node) (size : ℕ) :
    Except Fault (Option (ℕ × ℕ) × State) :=
  if isEmpty s.links bucket then newSmallChunk src s bucket size
  else
    match s.links.next bucket with
    | none => .error .wild
    | some node => do
        let (page, index) ← chunkOfNode node
        return (some (page, index), s)

/-- `allocateSmallbucket(size)`: the block, 0 for `NULL`. -/
def allocateSmallbucket (src : PageSource) (s : State) (size : ℕ) : Except Fault (ℕ × State) :=
  if size ≥ bigbucketThreshold then .error .assertion
  else do
    let size := max size minBlockSize
    let order ← getSmallbucketOrder size
    let bucket ← smallBucket order
    match ← takeSmallChunk src s bucket size with
    | (none, s) => return (0, s)
    | (some (page, index), s) =>
        let (res, chunk) ← allocateBlock ((s.memory page).chunks index)
        let s := s.setChunk (.pool page index) chunk
        if isChunkFull chunk then
          let links ← pop s.links bucket (.chunk page index)
          return (res, { s with links := links })
        else return (res, s)

/-- The part of `freeSmallbucket` that gives the `ChunkInfo` of a freed chunk back to its
Chungus. -/
def releaseChunkInfo (s : State) (page index : ℕ) : Except Fault State := do
  let wasFull := isChungusFull (s.memory page)
  let s := { s with memory := Function.update s.memory page (markFree (s.memory page) index) }
  if wasFull then
    let links ← pushFront s.links .chunguses (.chungus page)
    return { s with links := links }
  else if isChungusEmpty (s.memory page) then
    if ← shouldFreeChungus s page then
      let links ← pop s.links .chunguses (.chungus page)
      freeChungus { s with links := links } page
    else return s
  else return s

/-- `freeSmallbucket(entry, ptr)`, the entry being given by its index. Slots of `freeCache`
never have the size of a small chunk. -/
def freeSmallbucket (s : State) (entry ptr : ℕ) : Except Fault State := do
  let ref := (Hashmap.entryAt s.allocMap.entries entry).value
  let chunk ← s.chunk ref
  let order ← getSmallbucketOrder chunk.size
  let bucket ← smallBucket order
  match ref with
  | .pool page index =>
      let addToBucket := isChunkFull chunk
      let chunk := freeBlock chunk ptr
      let s := s.setChunk (.pool page index) chunk
      if addToBucket then
        let links ← pushFront s.links bucket (.chunk page index)
        return { s with links := links }
      else if isChunkEmpty chunk then
        if ← shouldFreeChunk s bucket page index then
          let links ← pop s.links bucket (.chunk page index)
          let s ← freeChunk { s with links := links } (.pool page index)
          let map ← Hashmap.delete s.allocMap (some entry)
          releaseChunkInfo { s with allocMap := map } page index
        else return s
      else return s
  | _ => .error .wild

/-! ### Large blocks -/

/-- The first slot of `freeCache` with a block of at least the given size. -/
def fittingSlot (freeCache : List ChunkInfo) (size : ℕ) : Option ℕ :=
  (List.range nBigblocksCached).find? fun i =>
    decide (¬ ((freeCache.getD i default).base = 0 ∨ (freeCache.getD i default).size < size))

/-- The first slot of `freeCache` without a block. -/
def emptySlot (freeCache : List ChunkInfo) : Option ℕ :=
  (List.range nBigblocksCached).find? fun i => decide ((freeCache.getD i default).base = 0)

/-- `allocateLargebucket(size)`: a block of whole pages, from a fitting slot of the cache or
from new pages. -/
def allocateLargebucket (src : PageSource) (s : State) (size : ℕ) : Except Fault (ℕ × State) := do
  match fittingSlot s.freeCache size with
  | some slot =>
      let chunk := s.freeCache.getD slot default
      match ← Hashmap.insert src s.allocMap s.pages chunk.base (.cached slot) with
      | (false, map, ps) => return (0, { s with allocMap := map, pages := ps })
      | (true, map, ps) =>
          let s := { s with allocMap := map, pages := ps }
          return (chunk.base, s.setChunk (.cached slot) { chunk with base := 0 })
  | none =>
      match ← getFreeChunk src s with
      | (none, s) => return (0, s)
      | (some (page, index), s) =>
          match allocateChunk src s page index size with
          | (false, s) => return (0, s)
          | (true, s) =>
              let base := ((s.memory page).chunks index).base
              match ← Hashmap.insert src s.allocMap s.pages base (.pool page index) with
              | (false, map, ps) =>
                  let s ← freeChunk { s with allocMap := map, pages := ps } (.pool page index)
                  return (0, s)
              | (true, map, ps) => return (base, { s with allocMap := map, pages := ps })

/-- `freeLargebucket(entry)`, the entry being given by its index. -/
def freeLargebucket (s : State) (entry : ℕ) : Except Fault State := do
  let ref := (Hashmap.entryAt s.allocMap.entries entry).value
  let chunk ← s.chunk ref
  let slot := if chunk.size < bigblocksCacheMaxsize then emptySlot s.freeCache else none
  match slot with
  | some slot =>
      let s := s.setChunk (.cached slot) chunk
      let map ← Hashmap.delete s.allocMap (some entry)
      return { s with allocMap := map }
  | none =>
      let s ← freeChunk s ref
      let map ← Hashmap.delete s.allocMap (some entry)
      return { s with allocMap := map }

/-! ### Public functions -/

/-- `Heap_malloc(size)`: a block of a bucket below the threshold, and one of whole pages from
there on. -/
def malloc (src : PageSource) (s : State) (size : ℕ) : Except Fault (ℕ × State) :=
  if size < bigbucketThreshold then allocateSmallbucket src s size
  else allocateLargebucket src s size

/-- `Heap_free(ptr)`: finds the chunk of the block and frees it there; it panics for an unknown
address. -/
def free (s : State) (ptr : ℕ) : Except Fault State := do
  if ptr = 0 then return s
  match ← Hashmap.find s.allocMap ptr with
  | none => .error .panic
  | some entry =>
      let chunk ← s.chunk (Hashmap.entryAt s.allocMap.entries entry).value
      if chunk.size < bigbucketThreshold then freeSmallbucket s entry ptr
      else freeLargebucket s entry

end MugOS.Heap
