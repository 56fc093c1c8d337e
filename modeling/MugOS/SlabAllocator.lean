import MugOS.Hashmap
import MugOS.LinkedList

/-!
# The Slab Allocator

`Stdlib/mugOS/SlabAllocator.c`: objects of one size come from a *cache*, which takes them from
*slabs*, ranges of pages that are divided into objects. The free objects of a slab are linked
by an array of indices, and the slabs of a cache are in three lists, by whether they are full,
partially used or empty. Large objects have the header of their slab in an object of `kmalloc`,
which has caches of its own. A hash map has the slab of every page.

What the constructors of objects do, and the names of caches, are not part of the state.
-/

namespace MugOS.SlabAllocator

open LinkedList

/-! ### Constants -/

/-- `OBJ_ROUND`. -/
abbrev objRound : ℕ := 8

/-- `KMALLOC_MIN_CACHE_SIZE`. -/
abbrev kmallocMinCacheSize : ℕ := 32

/-- `KMALLOC_MAX_CACHE_SIZE`. -/
abbrev kmallocMaxCacheSize : ℕ := 65536

/-- `KMALLOC_N_CACHES`. -/
abbrev kmallocNCaches : ℕ := 12

/-- `KMALLOC_CACHES_OFFSET`. -/
abbrev kmallocCachesOffset : ℕ := 5

/-- `SLAB_OFFSLAB_THRESHOLD`. -/
abbrev slabOffslabThreshold : ℕ := 512

/-- `SLAB_ENDLIST_MARKER`. -/
abbrev slabEndlistMarker : ℕ := 0xC0C0A123

/-- `SLAB_TARGET_N_OBJ`. -/
abbrev slabTargetNObj : ℕ := 16

/-- `REAP_TARGET`. -/
abbrev reapTarget : ℕ := 16

/-- `sizeof(struct Slab)`. -/
abbrev sizeofSlab : ℕ := 56

/-- `sizeof(struct Cache)`. -/
abbrev sizeofCache : ℕ := 128

/-- `getSlabFreelistSize(n_obj)`: the bytes of a free list with an index of four bytes for each
object. -/
def getSlabFreelistSize (nObj : ℕ) : ℕ := nObj * 4

/-- `roundMultiple(val, OBJ_ROUND)`, in 64-bit arithmetic. -/
def roundMultiple (val : ℕ) : ℕ := wadd val (objRound - 1) / objRound * objRound

/-- `align(ptr)`: the next multiple of the alignment of objects. -/
def align (ptr : ℕ) : ℕ := roundMultiple ptr

/-! ### The state -/

/-- A `struct Cache*`: `m_cacheCache`, an element of `m_kmallocCaches`, or an object of the
former. -/
inductive CacheRef
  | cacheCache
  | kmalloc (index : ℕ)
  | created (addr : ℕ)
  deriving DecidableEq, Repr

/-- The three lists of the slabs of a cache, by how many of their objects are in use. -/
inductive SlabList
  | fullSlabs
  | partialSlabs
  | emptySlabs
  deriving DecidableEq, Repr

/-- A list head or a list node: `m_caches` and the nodes of caches in it, the lists of slabs of
a cache, and the nodes of slabs, given by the address of the slab. -/
inductive Node
  | caches
  | cache (c : CacheRef)
  | slabs (c : CacheRef) (list : SlabList)
  | slab (addr : ℕ)
  deriving DecidableEq, Repr

/-- `struct Cache`, apart from its name and its lists. -/
structure Cache where
  offslab : Bool
  objSize : ℕ
  nPages : ℕ
  nObjects : ℕ
  /-- whether there is a constructor -/
  constructed : Bool
  deriving DecidableEq, Repr

/-- `struct Slab`, apart from its list node, with the array behind it. -/
structure Slab where
  owner : Option CacheRef
  payload : ℕ
  nAllocated : ℤ
  firstFree : ℕ
  freeObjects : ℕ → ℕ

/-- The static data of the allocator, the headers of the slabs by their addresses, and the pages
in use. -/
structure State where
  /-- `m_hashmap` -/
  hashmap : Hashmap ℕ
  links : Links Node
  caches : CacheRef → Cache
  slabs : ℕ → Slab
  pages : Pages
  /-- the number of caches that were entered into `m_caches` -/
  nCaches : ℕ
  /-- a record of the slab from which an object was taken last -/
  carved : ℕ → ℕ

/-- A bound for the loops over lists: every slab has pages of its own, and every cache was
counted. -/
def State.steps (s : State) : ℕ := s.pages.owned.length + s.nCaches + 1

/-- `freePages(pages, n)`: unmapping pages that are not in use ends in a panic. -/
def State.freePages (s : State) (addr n : ℕ) : Except Fault State :=
  if ∀ q ∈ MugOS.pages addr n, q ∈ s.pages.owned then
    .ok { s with pages := s.pages.freePages addr n }
  else .error .panic

/-- A store to the header of a slab, which leaves every other slab. -/
def State.setSlab (s : State) (addr : ℕ) (slab : Slab) : State :=
  { s with slabs := Function.update s.slabs addr slab }

/-- The record of an object that is taken from a slab. -/
def State.carve (s : State) (ptr slab : ℕ) : State :=
  { s with carved := Function.update s.carved ptr slab }

/-! ### Slabs -/

/-- `List_getObject(list->head, struct Slab, slab_lnode)`; for an empty list this is no slab. -/
def headSlab (s : State) (list : Node) : Except Fault ℕ :=
  match s.links.next list with
  | some (.slab addr) => .ok addr
  | _ => .error .wild

/-- The object size of the cache of a slab, `slab->owner->objSize`. -/
def ownerObjSize (s : State) (slab : Slab) : Except Fault ℕ :=
  match slab.owner with
  | none => .error .wild
  | some c => .ok (s.caches c).objSize

/-- The header that `allocateSlab` writes: the last steps of the function, with its loop over
the free list. -/
def newSlab (old : Slab) (payload nObjects : ℕ) : Slab where
  owner := none
  payload := payload
  nAllocated := 0
  firstFree := 0
  freeObjects := fun i =>
    if i + 1 < nObjects then i + 1
    else if i + 1 = nObjects then slabEndlistMarker
    else old.freeObjects i

/-- `isSlabFull(slab)`: whether its chain of free objects is at its end. -/
def isSlabFull (slab : Slab) : Bool := slab.firstFree = slabEndlistMarker

/-- `isSlabEmpty(slab)`: whether none of its objects is in use. -/
def isSlabEmpty (slab : Slab) : Bool := slab.nAllocated = 0

/-- `allocateObject(slab)`: the object, 0 for `NULL`, and the slab afterwards. -/
def allocateObject (s : State) (slab : Slab) : Except Fault (ℕ × Slab) :=
  if slab.firstFree = slabEndlistMarker then .ok (0, slab)
  else do
    let objSize ← ownerObjSize s slab
    return (wadd slab.payload (slab.firstFree * objSize),
      { slab with
        firstFree := slab.freeObjects slab.firstFree
        nAllocated := slab.nAllocated + 1 })

/-- `freeObject(slab, obj_ptr)`: puts the object in front of the chain of its slab. -/
def freeObject (s : State) (slab : Slab) (ptr : ℕ) : Except Fault Slab :=
  if ptr = 0 then .ok slab
  else do
    let objSize ← ownerObjSize s slab
    let objIndex := wsub ptr slab.payload / objSize % 2 ^ 32
    return { slab with
      freeObjects := Function.update slab.freeObjects objIndex slab.firstFree
      firstFree := objIndex
      nAllocated := slab.nAllocated - 1 }

/-! ### Caches -/

/-- The geometry that `initCache` computes for an object size. -/
def geometry (objsize : ℕ) (constructed : Bool) : Cache :=
  let objsize := roundMultiple objsize
  let offslab := decide (objsize > slabOffslabThreshold)
  let nPages := (slabTargetNObj * objsize + pageSize - 1) % 2 ^ 64 / pageSize
  { offslab := offslab
    objSize := objsize
    nPages := nPages
    nObjects := if offslab then nPages * pageSize / objsize
      else (nPages * pageSize - sizeofSlab) / (objsize + getSlabFreelistSize 1)
    constructed := constructed }

/-- `initCache(cache, name, objsize, ctor)`: computes the geometry and initialises the three
lists. -/
def initCache (s : State) (c : CacheRef) (objsize : ℕ) (constructed : Bool) : State :=
  { s with
    caches := Function.update s.caches c (geometry objsize constructed)
    links := init (init (init s.links (.slabs c .fullSlabs)) (.slabs c .partialSlabs))
      (.slabs c .emptySlabs) }

/-- `freeCacheInSlab(cache, slab, ptr)`: gives the object back, and moves the slab to its
list. -/
def freeCacheInSlab (s : State) (c : CacheRef) (slab ptr : ℕ) : Except Fault State := do
  let wasFull := isSlabFull (s.slabs slab)
  let header ← freeObject s (s.slabs slab) ptr
  let s := s.setSlab slab header
  if wasFull then
    let links ← pop s.links (.slabs c .fullSlabs) (.slab slab)
    let links ← pushFront links (.slabs c .partialSlabs) (.slab slab)
    return { s with links := links }
  else if isSlabEmpty header then
    let links ← pop s.links (.slabs c .partialSlabs) (.slab slab)
    let links ← pushFront links (.slabs c .emptySlabs) (.slab slab)
    return { s with links := links }
  else return s

/-- `getKmallocCache(size)`: the index of the first cache whose objects are large enough. -/
def getKmallocCache (size : ℕ) : ℕ :=
  if size ≤ kmallocMinCacheSize then 0
  else
    -- `64 - __builtin_clzll(size - 1)`
    let powerOfTwo := (size - 1).log2 + 1
    powerOfTwo - kmallocCachesOffset

/-- `kfree(ptr)`: finds the slab of the object by its page and gives it back; it panics for an
unknown one. -/
def kfree (s : State) (ptr : ℕ) : Except Fault State := do
  if ptr = 0 then return s
  match ← s.hashmap.find ptr with
  | none => .error .panic
  | some entry =>
      let slab := (Hashmap.entryAt s.hashmap.entries entry).value
      let index := getKmallocCache (← ownerObjSize s (s.slabs slab))
      if (s.slabs slab).owner ≠ some (.kmalloc index) then .error .assertion
      else freeCacheInSlab s (.kmalloc index) slab ptr

/-- `allocateSlab(n_pages, n_objects, offslab)`, given `kmalloc`: the address of the header, 0
for `NULL`. -/
def allocateSlab (src : PageSource) (kmalloc : State → ℕ → Except Fault (ℕ × State)) (s : State)
    (nPages nObjects : ℕ) (offslab : Bool) : Except Fault (ℕ × State) :=
  let freeListSize := getSlabFreelistSize nObjects
  if offslab then do
    let (slab, s) ← kmalloc s (sizeofSlab + freeListSize)
    if slab = 0 then return (0, s)
    let (payload, ps) := s.pages.allocatePages src nPages false
    let s := { s with pages := ps }
    if payload = 0 then
      let s ← kfree s slab
      return (0, s)
    else return (slab, s.setSlab slab (newSlab (s.slabs slab) payload nObjects))
  else
    let (slab, ps) := s.pages.allocatePages src nPages false
    let s := { s with pages := ps }
    if slab = 0 then .ok (0, s)
    else
      let payload := align (wadd slab (sizeofSlab + freeListSize))
      .ok (slab, s.setSlab slab (newSlab (s.slabs slab) payload nObjects))

/-- The addresses `obj_base + i*PAGE_SIZE` over which `growCache` and `removeCacheSlab` go. -/
def slabAddrs (payload nPages : ℕ) : List ℕ :=
  (List.range nPages).map fun i => wadd payload (i * pageSize)

/-- The loop of `growCache` that enters the pages of a slab into the hash map: the addresses
from the first failure on. -/
def insertPages (src : PageSource) (slab : ℕ) :
    List ℕ → Hashmap ℕ → Pages → Except Fault (List ℕ × Hashmap ℕ × Pages)
  | [], map, ps => .ok ([], map, ps)
  | addr :: rest, map, ps => do
      match ← map.insert src ps addr slab with
      | (true, map, ps) => insertPages src slab rest map ps
      | (false, map, ps) => return (addr :: rest, map, ps)

/-- The loops of `growCache`, after a failure, and of `removeCacheSlab` that delete the entries
of pages. An entry that is not found is not deleted. -/
def deletePages : List ℕ → Hashmap ℕ → Except Fault (Hashmap ℕ)
  | [], map => .ok map
  | addr :: rest, map => do
      let entry ← map.find addr
      let map ← map.delete entry
      deletePages rest map

/-- `growCache(cache)`, given `kmalloc`: a new slab, entered in the map and in the list of
empty slabs. -/
def growCache (src : PageSource) (kmalloc : State → ℕ → Except Fault (ℕ × State)) (s : State)
    (c : CacheRef) : Except Fault (Bool × State) := do
  let cache := s.caches c
  let (slab, s) ← allocateSlab src kmalloc s cache.nPages cache.nObjects cache.offslab
  if slab = 0 then return (false, s)
  let addrs := slabAddrs (s.slabs slab).payload cache.nPages
  let (failed, map, ps) ← insertPages src slab addrs s.hashmap s.pages
  if failed ≠ [] then
    let map ← deletePages (addrs.take (addrs.length - failed.length)) map
    return (false, { s with hashmap := map, pages := ps })
  else
    let links ← pushFront s.links (.slabs c .emptySlabs) (.slab slab)
    return (true,
      { s with hashmap := map, pages := ps, links := links }.setSlab slab
        { s.slabs slab with owner := some c })

/-- `kmalloc(size)`, given `Cache_malloc`: an object of the cache for the size, if there is
one. -/
def kmallocWith (cacheMalloc : State → CacheRef → Except Fault (ℕ × State)) (s : State)
    (size : ℕ) : Except Fault (ℕ × State) :=
  if size = 0 ∨ size > kmallocMaxCacheSize then .ok (0, s)
  else cacheMalloc s (.kmalloc (getKmallocCache size))

/-- `Cache_malloc(cache)` from the first slab of `empty_slabs`. -/
def mallocEmpty (s : State) (c : CacheRef) : Except Fault (ℕ × State) := do
  let slab ← headSlab s (.slabs c .emptySlabs)
  let (res, header) ← allocateObject s (s.slabs slab)
  let s := (s.setSlab slab header).carve res slab
  let links ← pop s.links (.slabs c .emptySlabs) (.slab slab)
  let links ← pushFront links (.slabs c .partialSlabs) (.slab slab)
  return (res, { s with links := links })

/-- `Cache_malloc(cache)` from the first slab of `partial_slabs`. -/
def mallocPartial (s : State) (c : CacheRef) : Except Fault (ℕ × State) := do
  let slab ← headSlab s (.slabs c .partialSlabs)
  let (res, header) ← allocateObject s (s.slabs slab)
  let s := (s.setSlab slab header).carve res slab
  if isSlabFull header then
    let links ← pop s.links (.slabs c .partialSlabs) (.slab slab)
    let links ← pushFront links (.slabs c .fullSlabs) (.slab slab)
    return (res, { s with links := links })
  else return (res, s)

/-- `Cache_malloc(cache)`: the object, 0 for `NULL`. The slab of a large object has its header
in an object of `kmalloc`, so that the function calls itself; `depth` bounds these calls. -/
def cacheMalloc (src : PageSource) : ℕ → State → CacheRef → Except Fault (ℕ × State)
  | 0, _, _ => .error .diverges
  | depth + 1, s, c =>
      if ¬ isEmpty s.links (.slabs c .partialSlabs) then mallocPartial s c
      else if ¬ isEmpty s.links (.slabs c .emptySlabs) then mallocEmpty s c
      else do
        let (grown, s) ← growCache src (kmallocWith (cacheMalloc src depth)) s c
        if grown then mallocEmpty s c else return (0, s)

/-- `Cache_free(cache, ptr)`: finds the slab of the object by its address, and gives it
back. -/
def cacheFree (s : State) (c : CacheRef) (ptr : ℕ) : Except Fault State := do
  match ← s.hashmap.find ptr with
  | none => return s
  | some entry =>
      let slab := (Hashmap.entryAt s.hashmap.entries entry).value
      if (s.slabs slab).owner ≠ some c then .error .assertion
      else freeCacheInSlab s c slab ptr

/-- `kmalloc(size)`, with a bound on how deep `Cache_malloc` calls it again. -/
def kmalloc (src : PageSource) (depth : ℕ) (s : State) (size : ℕ) : Except Fault (ℕ × State) :=
  kmallocWith (cacheMalloc src depth) s size

/-- `Cache_create(name, objsize, ctor)`: the address of the cache, 0 for `NULL`. -/
def cacheCreate (src : PageSource) (depth : ℕ) (s : State) (objsize : ℕ) (constructed : Bool) :
    Except Fault (ℕ × State) :=
  if objsize = 0 then .ok (0, s)
  else do
    let (cache, s) ← cacheMalloc src depth s .cacheCache
    if cache = 0 then return (0, s)
    let s := initCache s (.created cache) objsize constructed
    let links ← pushFront s.links .caches (.cache (.created cache))
    return (cache, { s with links := links, nCaches := s.nCaches + 1 })

/-! ### Reaping -/

/-- `freeSlab(slab, n_pages, is_offslab)`: gives the pages back, and the header if it is
elsewhere. -/
def freeSlab (s : State) (slab nPages : ℕ) (offslab : Bool) : Except Fault State :=
  if offslab then do
    let s ← s.freePages (s.slabs slab).payload nPages
    kfree s slab
  else s.freePages slab nPages

/-- `removeCacheSlab(cache, list, to_remove)`: unlinks the slab, takes it out of the map and
frees it. -/
def removeCacheSlab (s : State) (c : CacheRef) (list : SlabList) (slab : ℕ) :
    Except Fault State := do
  let cache := s.caches c
  let links ← pop s.links (.slabs c list) (.slab slab)
  let map ← deletePages (slabAddrs (s.slabs slab).payload cache.nPages) s.hashmap
  freeSlab { s with links := links, hashmap := map } slab cache.nPages cache.offslab

/-- `shrinkCache(cache, n_slabs)`: removes as many of the empty slabs of the cache. -/
def shrinkCache (s : State) (c : CacheRef) : ℕ → Except Fault State
  | 0 => .ok s
  | n + 1 => do
      let slab ← headSlab s (.slabs c .emptySlabs)
      let s ← removeCacheSlab s c .emptySlabs slab
      shrinkCache s c n

/-- A value of type `int`: the number modulo `2 ^ 32`, in the signed range. -/
def toInt32 (n : ℤ) : ℤ := n.bmod (2 ^ 32)

/-- `getReapablePages(cache)`: the pages of its empty slabs, or half of them if its objects are
constructed. -/
def getReapablePages (s : State) (c : CacheRef) : Except Fault ℤ := do
  let nPages ← foreach s.links (.slabs c .emptySlabs) s.steps 0 fun (n : ℤ) _ =>
    .ok (toInt32 (n + (s.caches c).nPages), false)
  return if (s.caches c).constructed then nPages.tdiv 2 else nPages

/-- `List_getObject(node, struct Cache, cache_lnode)`. -/
def cacheOfNode : Node → Except Fault CacheRef
  | .cache c => .ok c
  | _ => .error .wild

/-- The cache that `SlabAllocator_reapAndTear` shrinks, and the number of slabs. -/
def reapChoice (s : State) : Except Fault (Option (CacheRef × ℤ)) := do
  let (found, toReap) ← foreach s.links .caches s.steps ((none : Option CacheRef), (0 : ℤ))
    fun (found, toReap) node => do
      let cur ← cacheOfNode node
      let curPages ← getReapablePages s cur
      return (if curPages > toReap then (some cur, curPages) else (found, toReap), false)
  match found with
  | none => return none
  | some c =>
      let toReap := if toReap > reapTarget then toReap.tdiv 2 else toReap
      return some (c, toReap.tdiv (s.caches c).nPages)

/-- `SlabAllocator_reapAndTear()`: shrinks the cache with the most pages to give back, if there
is one. -/
def reapAndTear (s : State) : Except Fault State := do
  match ← reapChoice s with
  | none => return s
  | some (c, nSlabs) => shrinkCache s c nSlabs.toNat

/-! ### Initialisation -/

/-- `m_cacheCache`. -/
def cacheCacheInit : Cache where
  offslab := false
  objSize := sizeofCache
  nPages := 1
  nObjects := (pageSize - sizeofSlab) / (128 + getSlabFreelistSize 1)
  constructed := false

/-- The links before `SlabAllocator_init`: the lists that are initialised statically. -/
def staticLinks : Node → Option Node
  | .caches => some .caches
  | .slabs .cacheCache list => some (.slabs .cacheCache list)
  | _ => none

/-- The state before `SlabAllocator_init`, with the memory in which headers will be. -/
def State.static (slabs : ℕ → Slab) : State where
  hashmap := Hashmap.empty
  links := ⟨staticLinks, staticLinks⟩
  caches := fun
    | .cacheCache => cacheCacheInit
    | _ => ⟨false, 0, 0, 0, false⟩
  slabs := slabs
  pages := Pages.none
  nCaches := 0
  carved := fun _ => 0

/-- The loop of `SlabAllocator_init`, over the indices of the caches. -/
def initCaches : List ℕ → State → Except Fault State
  | [], s => .ok s
  | i :: rest, s => do
      let s := initCache s (.kmalloc i) (kmallocMinCacheSize * 2 ^ i) false
      let links ← pushFront s.links .caches (.cache (.kmalloc i))
      initCaches rest { s with links := links, nCaches := s.nCaches + 1 }

/-- `SlabAllocator_init()`: initialises the caches of `kmalloc`, one by one. -/
def slabAllocatorInit (s : State) : Except Fault State := initCaches (List.range kmallocNCaches) s

end MugOS.SlabAllocator
