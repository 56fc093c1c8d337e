import MugOS.Memory

/-!
# The Memory Map

`Kernel/Memory/MemoryMap.c`: the memory map of the bootloader is parsed, adjacent entries of
one type are merged, and the entries are copied into the memory map of the kernel, with the
page at address 0 in a region of its own. Printing the map is left out.
-/

namespace MugOS

/-- The types of a `limine_memmap_entry`, with the mark `REMOVED_ENTRY_LIMINE` of merged
entries; all other values are unsupported. -/
inductive LimineType
  | usable | reserved | acpiReclaimable | acpiNvs | badMemory | bootloaderReclaimable
  | kernelAndModules | framebuffer | removed | unsupported
  deriving DecidableEq, Repr

/-- `struct limine_memmap_entry`: a region of the boot loader's map. -/
structure LimineEntry where
  base : ℕ
  length : ℕ
  type : LimineType
  deriving DecidableEq, Repr

/-- `enum MemoryType`: the types of regions in the kernel's map. -/
inductive MemoryType
  | usable | reserved | kernel | framebuffer | acpiNvs | acpiReclaimable | bootloaderReclaimable
  deriving DecidableEq, Repr

/-- `struct MemoryMapEntry`: a region of the kernel's map. -/
structure MemoryMapEntry where
  address : ℕ
  length : ℕ
  type : MemoryType
  deriving DecidableEq, Repr

/-- `struct MemoryMap`: the kernel's map, with its totals and its array of entries. -/
structure MemoryMap where
  totalUsableMemory : ℕ
  firstUsablePage : ℕ
  lastUsablePage : ℕ
  kernelAddress : ℕ
  kernelSize : ℕ
  size : ℤ
  entries : List MemoryMapEntry
  deriving DecidableEq, Repr

namespace MemoryMap

/-- `MMAP_MAX_ENTRIES`. -/
abbrev mmapMaxEntries : ℕ := 128

/-- The conversion of an unsigned integer to `int`. -/
def toInt (n : ℕ) : ℤ := Int.bmod n (2 ^ 32)

/-- The value that `++` or `--` leaves in an `int`: the result wraps at `2 ^ 31`. -/
def wrapInt (z : ℤ) : ℤ := Int.bmod z (2 ^ 32)

/-! ### Parsing -/

/-- `mmap->firstUsablePage = page`, for the first region only. -/
def setFirst (mmap : MemoryMap) (firstNotFound : Bool) (page : ℕ) : MemoryMap × Bool :=
  if firstNotFound then ({ mmap with firstUsablePage := page }, false) else (mmap, firstNotFound)

/-- `mmap->totalUsableMemory` and `mmap->lastUsablePage` with a region added. -/
def addRegion (mmap : MemoryMap) (cur : LimineEntry) (bytes : ℕ) : MemoryMap :=
  { mmap with
    totalUsableMemory := wadd mmap.totalUsableMemory bytes
    lastUsablePage := wsub (wadd cur.base cur.length) pageSize }

/-- The body of the loop of `parseLimineMemoryMap`, with the entry after the current one, if
there is one. -/
def parseEntry (mmap : MemoryMap) (firstNotFound : Bool) (cur : LimineEntry)
    (next : Option LimineEntry) : Except Fault (MemoryMap × Bool) :=
  match cur.type with
  | .usable =>
      let mmap := addRegion mmap cur cur.length
      let (mmap, firstNotFound) :=
        if cur.base = 0 then
          let mmap := { mmap with totalUsableMemory := wsub mmap.totalUsableMemory pageSize }
          setFirst mmap firstNotFound pageSize
        else (mmap, firstNotFound)
      .ok (setFirst mmap firstNotFound cur.base)
  | .acpiReclaimable =>
      let bytes :=
        match next with
        | some next =>
            if wadd cur.base cur.length ≥ next.base then wsub next.base cur.base else cur.length
        | none => cur.length
      .ok (setFirst (addRegion mmap cur bytes) firstNotFound cur.base)
  | .bootloaderReclaimable =>
      .ok (setFirst (addRegion mmap cur cur.length) firstNotFound cur.base)
  | .kernelAndModules =>
      .ok ({ mmap with kernelAddress := cur.base, kernelSize := cur.length }, firstNotFound)
  | .unsupported => .error .panic
  | _ => .ok (mmap, firstNotFound)

/-- The loop of `parseLimineMemoryMap`. -/
def parseLoop : MemoryMap → Bool → List LimineEntry → Except Fault MemoryMap
  | mmap, _, [] => .ok mmap
  | mmap, firstNotFound, cur :: rest => do
      let (mmap, firstNotFound) ← parseEntry mmap firstNotFound cur rest.head?
      parseLoop mmap firstNotFound rest

/-- `parseLimineMemoryMap(mmap, limine_mmap)`: sums up the usable memory and finds its first
and last page. -/
def parseLimineMemoryMap (mmap : MemoryMap) (limine : List LimineEntry) : Except Fault MemoryMap :=
  parseLoop { mmap with totalUsableMemory := 0, firstUsablePage := 0, lastUsablePage := 0 } true
    limine

/-! ### Merging -/

/-- The loop of `processLimineMemoryMap` from the entry `cur` on. -/
def processFrom (nEntries : ℤ) (cur : LimineEntry) : List LimineEntry → ℤ × List LimineEntry
  | [] => (nEntries, [cur])
  | next :: rest =>
      if cur.type = next.type ∧ wadd cur.base cur.length = next.base then
        let nEntries := wrapInt (nEntries - 1)
        let (nEntries, tail) := processFrom nEntries { next with type := .removed } rest
        (nEntries, { cur with length := wadd cur.length next.length } :: tail)
      else
        let (nEntries, tail) := processFrom nEntries next rest
        (nEntries, cur :: tail)

/-- `processLimineMemoryMap(limine_memap)`: the number of entries, and the entries
afterwards. -/
def processLimineMemoryMap : List LimineEntry → ℤ × List LimineEntry
  | [] => (0, [])
  | cur :: rest =>
      let nEntries := toInt (rest.length + 1)
      let nEntries :=
        if cur.type = .usable ∧ cur.base = 0 ∧ cur.length > pageSize then wrapInt (nEntries + 1)
        else nEntries
      processFrom nEntries cur rest

/-! ### Copying -/

/-- `getMemoryType(limineMemoryType)`. -/
def getMemoryType : LimineType → Except Fault MemoryType
  | .usable => .ok .usable
  | .reserved => .ok .reserved
  | .acpiReclaimable => .ok .acpiReclaimable
  | .acpiNvs => .ok .acpiNvs
  | .badMemory => .ok .reserved
  | .bootloaderReclaimable => .ok .bootloaderReclaimable
  | .kernelAndModules => .ok .kernel
  | .framebuffer => .ok .framebuffer
  | .removed => .error .panic
  | .unsupported => .error .panic

/-- `mmap->entries[index] = entry`: a store to an element of the array, which is a fault
outside of it. -/
def store (mmap : MemoryMap) (index : ℕ) (entry : MemoryMapEntry) : Except Fault MemoryMap :=
  if index < mmap.entries.length then .ok { mmap with entries := mmap.entries.set index entry }
  else .error .wild

/-- The loop of `copyIntoMemoryMap`, from an index of the memory map on. -/
def copyLoop : List LimineEntry → ℕ → MemoryMap → Except Fault (ℕ × MemoryMap)
  | [], index, mmap => .ok (index, mmap)
  | cur :: rest, index, mmap =>
      if cur.type = .removed then copyLoop rest index mmap
      else do
        let type ← getMemoryType cur.type
        let mmap ← store mmap index ⟨cur.base, cur.length, type⟩
        copyLoop rest (index + 1) mmap

/-- `copyIntoMemoryMap(mmap, limine_mmap)`: the number of entries that are written, and the
two maps afterwards. -/
def copyIntoMemoryMap (mmap : MemoryMap) :
    List LimineEntry → Except Fault (ℕ × MemoryMap × List LimineEntry)
  | [] => .error .wild
  | first :: rest =>
      if first.type = .usable ∧ first.base = 0 then do
        let mmap ← store mmap 0 ⟨0, pageSize, .reserved⟩
        let first := { first with base := pageSize, length := wsub first.length pageSize }
        let (written, mmap) ← copyLoop (first :: rest) 1 mmap
        return (written, mmap, first :: rest)
      else do
        let (written, mmap) ← copyLoop (first :: rest) 0 mmap
        return (written, mmap, first :: rest)

/-- `MMap_init(memmap, firmware_mmap)`: the number of entries that were written, and the two
maps afterwards. -/
def mmapInit (memmap : MemoryMap) (limine : List LimineEntry) :
    Except Fault (ℕ × MemoryMap × List LimineEntry) := do
  let memmap ← parseLimineMemoryMap memmap limine
  if memmap.totalUsableMemory = 0 then .error .panic
  else
    let (nEntries, limine) := processLimineMemoryMap limine
    let memmap := { memmap with size := nEntries }
    if memmap.size ≥ (mmapMaxEntries : ℤ) then .error .panic
    else copyIntoMemoryMap memmap limine

end MemoryMap

end MugOS
