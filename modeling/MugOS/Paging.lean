import MugOS.Memory
import MugOS.PMM

/-!
# Paging

`Kernel/Arch/x86_64/Memory/Paging.c` function by function, and the walk of the tables that
the processor does.

Tables are read and written in physical memory, by the number of their page frame. The
source reaches a table through the higher half direct mapping before paging is enabled, and
afterwards through one of three pages whose page table entries it redirects to the table;
the frames that these three windows show are a part of the state, which `mapDynamic` changes.

A descriptor is a record of the bit fields that the source or the processor reads. The
field `address` has the 36 bits of the descriptors of tables and of 4 KB pages; in a
descriptor of a large page its low bits are the fields `pat` and `reserved0`, which the
source clears.
-/

namespace MugOS.Paging

open PMM

/-! ### Addresses and descriptors -/

/-- `TABLE_SIZE`. -/
abbrev tableSize : ℕ := 512

/-- Unsigned 64-bit multiplication: the product modulo `2 ^ 64`. -/
def wmul (a b : ℕ) : ℕ := a * b % 2 ^ 64

/-- `getIndexPML4(addr)`: bits 39 to 47 of an address. -/
def getIndexPML4 (addr : ℕ) : ℕ := (addr &&& 0x0000ff8000000000) >>> 39

/-- `getIndexPageDirectoryPointerTable(addr)`: bits 30 to 38 of an address. -/
def getIndexPageDirectoryPointerTable (addr : ℕ) : ℕ := (addr &&& 0x0000007fc0000000) >>> 30

/-- `getIndexPageDirectory(addr)`: bits 21 to 29 of an address. -/
def getIndexPageDirectory (addr : ℕ) : ℕ := (addr &&& 0x000000003fe00000) >>> 21

/-- `getIndexPageTable(addr)`: bits 12 to 20 of an address. -/
def getIndexPageTable (addr : ℕ) : ℕ := (addr &&& 0x00000000001ff000) >>> 12

/-- `get4KBEntryAddress(addr)`, also `getTableEntryAddress(addr)`. -/
def get4KBEntryAddress (addr : ℕ) : ℕ := (addr &&& 0x0000fffffffff000) >>> 12

/-- `get2MBEntryAddress(addr)`: the number of the 2 MB page of a physical address. -/
def get2MBEntryAddress (addr : ℕ) : ℕ := (addr &&& 0x0000ffffffe00000) >>> 21

/-- `get1GBEntryAddress(addr)`: the number of the 1 GB page of a physical address. -/
def get1GBEntryAddress (addr : ℕ) : ℕ := (addr &&& 0x0000ffffc0000000) >>> 30

/-- A descriptor of any of the four levels, by its fields. -/
structure Descriptor where
  present : Bool
  writable : Bool
  /-- `PRIVILEGE_USER` is `true` -/
  privilege : Bool
  writeThrough : Bool
  cacheDisabled : Bool
  /-- bit 7: `pageSize` in a page directory (pointer) table, `pat` in a page table -/
  pageSize : Bool
  address : BitVec 36
  executeDisabled : Bool
  deriving DecidableEq, Repr

/-- A descriptor of cleared memory. -/
def Descriptor.zero : Descriptor := ⟨false, false, false, false, false, false, 0#36, false⟩

/-- `PAGE_WRITE`. -/
abbrev pageWrite : ℕ := 0x01

/-- `PAGE_EXEC`. -/
abbrev pageExec : ℕ := 0x02

/-- `PAGE_USER`. -/
abbrev pageUser : ℕ := 0x04

/-- `PAGE_CACHE_DISABLED`. -/
abbrev pageCacheDisabled : ℕ := 0x08

/-- `PAGE_CACHE_WRITETHROUGH`. -/
abbrev pageCacheWriteThrough : ℕ := 0x10

/-- The descriptor that `set4KBPage`, `set2MBPage` and `set1GBPage` write: they differ in
bit 7 and in the position of the address. -/
def pageDescriptor (flags : ℕ) (pageSize : Bool) (frame : ℕ) : Descriptor where
  present := true
  writable := flags &&& pageWrite != 0
  privilege := flags &&& pageUser != 0
  writeThrough := flags &&& pageCacheWriteThrough != 0
  cacheDisabled := flags &&& pageCacheDisabled != 0
  pageSize := pageSize
  address := BitVec.ofNat 36 frame
  executeDisabled := flags &&& pageExec == 0

/-- `set4KBPage(entry, addr, flags)`: the descriptor of a 4 KB page, for an entry that is not
present. -/
def set4KBPage (flags : ℕ) (entry : Descriptor) (addr : ℕ) : Except Fault Descriptor :=
  if entry.present then .error .assertion
  else .ok (pageDescriptor flags false (get4KBEntryAddress addr))

/-- `set2MBPage(entry, addr, flags)`: the descriptor of a 2 MB page, for an entry that is not
present. -/
def set2MBPage (flags : ℕ) (entry : Descriptor) (addr : ℕ) : Except Fault Descriptor :=
  if entry.present then .error .assertion
  else .ok (pageDescriptor flags true (get2MBEntryAddress addr <<< 9))

/-- `set1GBPage(entry, addr, flags)`: the descriptor of a 1 GB page, for an entry that is not
present. -/
def set1GBPage (has1GBPages : Bool) (flags : ℕ) (entry : Descriptor) (addr : ℕ) :
    Except Fault Descriptor :=
  if entry.present then .error .assertion
  else if !has1GBPages then .error .assertion
  else .ok (pageDescriptor flags true (get1GBEntryAddress addr <<< 18))

/-- The descriptor of a table: the most permissive rights, caching on. -/
def tableDescriptor (frame : ℕ) : Descriptor where
  present := true
  writable := true
  privilege := true
  writeThrough := false
  cacheDisabled := false
  pageSize := false
  address := BitVec.ofNat 36 frame
  executeDisabled := false

/-! ### The state -/

/-- The state of `Paging.c` and of the memory manager it takes its tables from. -/
structure State where
  /-- physical memory, read as tables: by frame and index -/
  mem : ℕ → ℕ → Descriptor
  /-- the frame of `m_pml4` -/
  pml4 : ℕ
  pmm : BitmapAllocator
  /-- `m_has1GBPages` -/
  has1GBPages : Bool
  /-- `m_enabled` -/
  enabled : Bool
  /-- the frames that the dynamic windows show, by the depth of the tables shown there -/
  window : ℕ → ℕ

/-- Physical memory after a store of one descriptor. -/
def store (mem : ℕ → ℕ → Descriptor) (frame index : ℕ) (e : Descriptor) :
    ℕ → ℕ → Descriptor :=
  Function.update mem frame (Function.update (mem frame) index e)

/-- `mapDynamicPDPT`, `mapDynamicPD` and `mapDynamicPT`, for the tables of depth 1, 2 and 3. -/
def State.mapDynamic (s : State) (depth frame : ℕ) : State :=
  if s.enabled then { s with window := Function.update s.window depth frame } else s

/-- `allocatePageOrPanic()`: the frame of the page. -/
def allocatePageOrPanic (s : State) : Except Fault (ℕ × State) :=
  let (addr, pmm) := allocatePages s.pmm 1
  if addr = 0 then .error .panic else .ok (addr / pageSize, { s with pmm := pmm })

/-- `getPDP`, `getPD` and `getPT`: the table of the given depth that an entry refers to,
which is allocated if there is none. -/
def getTable (depth : ℕ) (s : State) (frame index : ℕ) (alloc : Bool) :
    Except Fault (ℕ × State) :=
  let entry := s.mem frame index
  if entry.present then .ok (entry.address.toNat, s.mapDynamic depth entry.address.toNat)
  else if !alloc then .error .panic
  else do
    let (page, s) ← allocatePageOrPanic s
    let s := s.mapDynamic depth page
    let mem := Function.update s.mem page fun _ => Descriptor.zero
    .ok (page, { s with mem := store mem frame index (tableDescriptor
      (get4KBEntryAddress (page * pageSize))) })

/-- `getPDP(entry, alloc)`. -/
def getPDP : State → ℕ → ℕ → Bool → Except Fault (ℕ × State) := getTable 1

/-- `getPD(entry, alloc)`. -/
def getPD : State → ℕ → ℕ → Bool → Except Fault (ℕ × State) := getTable 2

/-- `getPT(entry, alloc)`. -/
def getPT : State → ℕ → ℕ → Bool → Except Fault (ℕ × State) := getTable 3

/-! ### Paging_map -/

/-- The loops of `Paging_map` over the entries of one table. -/
def setPages (set : Descriptor → ℕ → Except Fault Descriptor) (size frame : ℕ) :
    ℕ → ℕ → ℕ → ℕ → (ℕ → ℕ → Descriptor) → Except Fault ((ℕ → ℕ → Descriptor) × ℕ × ℕ)
  | _, 0, phys, virt, mem => .ok (mem, phys, virt)
  | index, n + 1, phys, virt, mem => do
      let e ← set (mem frame index) phys
      setPages set size frame (index + 1) n (wadd phys size) (wadd virt size)
        (store mem frame index e)

/-- One iteration of the loop of `Paging_map`: the state, the physical and the virtual
address, and the number of pages that remain. -/
def mapStep (flags : ℕ) (s : State) (phys virt remaining : ℕ) :
    Except Fault (State × ℕ × ℕ × ℕ) := do
  let pml4Index := getIndexPML4 virt
  let pdpIndex := getIndexPageDirectoryPointerTable virt
  let pdIndex := getIndexPageDirectory virt
  let ptIndex := getIndexPageTable virt
  let (pdp, s) ← getPDP s s.pml4 pml4Index true
  if s.has1GBPages && phys % size1GB == 0 && decide (remaining ≥ size1GB / pageSize) then
    let mappable := min (tableSize - pdpIndex) (wmul remaining pageSize / size1GB)
    let (mem, phys, virt) ←
      setPages (set1GBPage s.has1GBPages flags) size1GB pdp pdpIndex mappable phys virt s.mem
    .ok ({ s with mem := mem }, phys, virt, remaining - mappable * size1GB / pageSize)
  else
    let (pd, s) ← getPD s pdp pdpIndex true
    if phys % size2MB == 0 && decide (remaining ≥ size2MB / pageSize) then
      let mappable := min (tableSize - pdIndex) (wmul remaining pageSize / size2MB)
      let (mem, phys, virt) ←
        setPages (set2MBPage flags) size2MB pd pdIndex mappable phys virt s.mem
      .ok ({ s with mem := mem }, phys, virt, remaining - mappable * size2MB / pageSize)
    else
      let (pt, s) ← getPT s pd pdIndex true
      let mappable := min (tableSize - ptIndex) remaining
      let (mem, phys, virt) ←
        setPages (set4KBPage flags) pageSize pt ptIndex mappable phys virt s.mem
      .ok ({ s with mem := mem }, phys, virt, remaining - mappable)

/-- The loop of `Paging_map`. An iteration that maps nothing is repeated for ever; every
other one maps a page at least, so that as many iterations as pages are enough. -/
def mapLoop (flags : ℕ) : ℕ → State → ℕ → ℕ → ℕ → Except Fault State
  | fuel, s, phys, virt, remaining =>
      if remaining = 0 then .ok s
      else
        match fuel with
        | 0 => .error .diverges
        | fuel + 1 => do
            let (s, phys, virt, remaining) ← mapStep flags s phys virt remaining
            mapLoop flags fuel s phys virt remaining

/-- `Paging_map(phys, virt, n_pages, flags)`: maps the pages of a range, in steps as large as
fit. -/
def map (s : State) (phys virt nPages flags : ℕ) : Except Fault State :=
  mapLoop flags nPages s phys virt nPages

/-! ### Paging_unmap -/

/-- `tableIsEmpty(table)`: whether no entry of the table is present. -/
def tableIsEmpty (mem : ℕ → ℕ → Descriptor) (table : ℕ) : Bool :=
  (List.range tableSize).all fun i => !(mem table i).present

/-- `freeTable(table)`, the argument being an entry that refers to a table. -/
def freeTable (s : State) (frame index : ℕ) : State :=
  let entry := s.mem frame index
  { s with
    mem := store s.mem frame index { entry with present := false }
    pmm := freePages s.pmm (entry.address.toNat * pageSize) 1 }

/-- The loops of `Paging_unmap` over the entries of one table. -/
def clearPages (size frame : ℕ) :
    ℕ → ℕ → ℕ → (ℕ → ℕ → Descriptor) → Except Fault ((ℕ → ℕ → Descriptor) × ℕ)
  | _, 0, virt, mem => .ok (mem, virt)
  | index, n + 1, virt, mem =>
      if !(mem frame index).present then .error .assertion
      else
        clearPages size frame (index + 1) n (wadd virt size)
          (store mem frame index { mem frame index with present := false })

/-- One iteration of the loop of `Paging_unmap`. The page size is read from the first entry
of the table, `cur_pdp->page1GB.pageSize` and `cur_pd->page2MB.pageSize` in the source. The
last component lists the frames that are used as tables. -/
def unmapStep (s : State) (virt remaining : ℕ) :
    Except Fault (State × ℕ × ℕ × List ℕ) := do
  let pml4Index := getIndexPML4 virt
  let pdpIndex := getIndexPageDirectoryPointerTable virt
  let pdIndex := getIndexPageDirectory virt
  let ptIndex := getIndexPageTable virt
  let (pdp, s) ← getPDP s s.pml4 pml4Index false
  if (s.mem pdp 0).pageSize then
    let removable := min (tableSize - pdpIndex) (wmul remaining pageSize / size1GB)
    let (mem, virt) ← clearPages size1GB pdp pdpIndex removable virt s.mem
    let s := { s with mem := mem }
    let s := if tableIsEmpty s.mem pdp then freeTable s s.pml4 pml4Index else s
    .ok (s, virt, remaining - removable * size1GB / pageSize, [pdp])
  else
    let (pd, s) ← getPD s pdp pdpIndex false
    if (s.mem pd 0).pageSize then
      let removable := min (tableSize - pdIndex) (wmul remaining pageSize / size2MB)
      let (mem, virt) ← clearPages size2MB pd pdIndex removable virt s.mem
      let s := { s with mem := mem }
      let s :=
        if tableIsEmpty s.mem pd then
          let s := freeTable s pdp pdpIndex
          if tableIsEmpty s.mem pdp then freeTable s s.pml4 pml4Index else s
        else s
      .ok (s, virt, remaining - removable * size2MB / pageSize, [pdp, pd])
    else
      let (pt, s) ← getPT s pd pdIndex false
      let removable := min (tableSize - ptIndex) remaining
      let (mem, virt) ← clearPages pageSize pt ptIndex removable virt s.mem
      let s := { s with mem := mem }
      let s :=
        if tableIsEmpty s.mem pt then
          let s := freeTable s pd pdIndex
          if tableIsEmpty s.mem pd then
            let s := freeTable s pdp pdpIndex
            if tableIsEmpty s.mem pdp then freeTable s s.pml4 pml4Index else s
          else s
        else s
      .ok (s, virt, remaining - removable, [pdp, pd, pt])

/-- The loop of `Paging_unmap`, with the frames that were used as tables. -/
def unmapLoop : ℕ → State → ℕ → ℕ → List ℕ → Except Fault (State × List ℕ)
  | fuel, s, virt, remaining, used =>
      if remaining = 0 then .ok (s, used)
      else
        match fuel with
        | 0 => .error .diverges
        | fuel + 1 => do
            let (s, virt, remaining, tables) ← unmapStep s virt remaining
            unmapLoop fuel s virt remaining (used ++ tables)

/-- `Paging_unmap(virt, n_pages)`. An iteration that removes nothing can at most free tables
that are empty, after which the next one panics. -/
def unmap (s : State) (virt nPages : ℕ) : Except Fault (State × List ℕ) :=
  unmapLoop (nPages + 1) s virt nPages []

/-! ### The walk of the processor -/

/-- What a page of virtual memory is translated to: a frame, and the rights and the caching
with which it can be accessed. -/
structure Translation where
  frame : ℕ
  writable : Bool
  user : Bool
  executeDisabled : Bool
  writeThrough : Bool
  cacheDisabled : Bool
  deriving DecidableEq, Repr

/-- The translation by a descriptor of `512 ^ level` pages: the low bits of the page number
replace those of the address. -/
def Descriptor.leaf (e : Descriptor) (level page : ℕ) : Translation where
  frame := e.address.toNat / 512 ^ level * 512 ^ level + page % 512 ^ level
  writable := e.writable
  user := e.privilege
  executeDisabled := e.executeDisabled
  writeThrough := e.writeThrough
  cacheDisabled := e.cacheDisabled

/-- The rights that a table leaves to a page below it: the most restrictive ones apply. -/
def Translation.restrict (t : Translation) (e : Descriptor) : Translation :=
  { t with
    writable := t.writable && e.writable
    user := t.user && e.privilege
    executeDisabled := t.executeDisabled || e.executeDisabled }

/-- The walk from a table whose entries stand for `512 ^ level` pages each. The levels 1 and
2, those of 2 MB and 1 GB, may have pages and tables. -/
def walk (mem : ℕ → ℕ → Descriptor) : ℕ → ℕ → ℕ → Option Translation
  | 0, table, page =>
      let e := mem table (page % 512)
      if e.present then some (e.leaf 0 page) else none
  | level + 1, table, page =>
      let e := mem table (page / 512 ^ (level + 1) % 512)
      if !e.present then none
      else if e.pageSize && decide (level < 2) then some (e.leaf (level + 1) page)
      else (walk mem level e.address.toNat page).map (·.restrict e)

/-- A virtual address whose bits 63 to 47 are equal. -/
def Canonical (addr : ℕ) : Prop := addr < 2 ^ 47 ∨ 2 ^ 64 - 2 ^ 47 ≤ addr ∧ addr < 2 ^ 64

instance (addr : ℕ) : Decidable (Canonical addr) :=
  inferInstanceAs (Decidable (_ ∨ _))

/-- The number of the virtual page of an address, of the 48 bits that are translated. -/
def pageNumber (addr : ℕ) : ℕ := addr % 2 ^ 48 / pageSize

/-- The window, by the depth of the tables it shows, to which an address belongs:
`m_dynamicPDPT`, `m_dynamicPD` and `m_dynamicPT` are the last three pages. -/
def windowDepth (addr : ℕ) : Option ℕ :=
  if addr < 0xffffffffffffd000 then none else some ((addr - 0xffffffffffffd000) / pageSize + 1)

/-- The translation of the page of a virtual address. In a dynamic window, the address in
the page table entry is the frame that the window shows. -/
def translatePage (s : State) (addr : ℕ) : Option Translation :=
  if Canonical addr then
    (walk s.mem 3 s.pml4 (pageNumber addr)).map fun t =>
      match windowDepth addr with
      | some depth => if s.enabled then { t with frame := s.window depth } else t
      | none => t
  else none

end MugOS.Paging
