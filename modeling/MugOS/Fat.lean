import MugOS.Fat12
import MugOS.Memory

/-!
# The FAT Driver of the Boot Loader

The functions of `Bootloader/Legacy/SecondStage/fat.c`, over a disk that is a function from the
number of a sector to its bytes. The globals that `FAT_initialize` sets and nothing changes
afterwards (`g_data->bs`, `g_fat` and `g_dataSectionLba`) are a `Volume`; the open files come with
it in `Data`.

A file is read through a buffer of one sector, which the driver refills as soon as its last byte
is taken. The messages that the driver prints are left out.
-/

namespace MugOS.Fat

open Fat12 (upper)

/-! ### The disk and the volume -/

/-- `SECTOR_SIZE`. -/
abbrev sectorSize : ℕ := 512

/-- `MAX_PATH_SIZE`. -/
abbrev maxPathSize : ℕ := 256

/-- `MAX_FILE_HANDLES`. -/
abbrev maxFileHandles : ℕ := 10

/-- `sizeof(FAT_DirectoryEntry)`. -/
abbrev entrySize : ℕ := 32

/-- The size of `__FAT_Data`, which the file allocation table follows in memory: the boot sector
and eleven open files of 538 bytes each. -/
abbrev dataSize : ℕ := 512 + 11 * 538

/-- `MEMORY_FAT_SIZE`. -/
abbrev memoryFatSize : ℕ := 0x10000

/-- The bytes of a sector, at the offsets below `sectorSize`. -/
abbrev Sector := ℕ → UInt8

/-- A disk: what `DISK_readSectors` copies for a sector, and `none` when it fails. -/
abbrev Disk := ℕ → Option Sector

/-- `DISK_readSectors(disk, lba, n_sectors, dataOut)`: the bytes that are copied. -/
def readSectors (disk : Disk) (lba nSectors : ℕ) : Option (ℕ → UInt8) :=
  if (List.range nSectors).all fun k => (disk (lba + k)).isSome then
    some fun i => ((disk (lba + i / sectorSize)).getD fun _ => 0) (i % sectorSize)
  else none

/-- The 32-bit number at byte `i`, low byte first. -/
def word32 (bytes : ℕ → UInt8) (i : ℕ) : ℕ := word16 bytes i + 2 ^ 16 * word16 bytes (i + 2)

/-- `__FAT_BootSector`, as far as the driver uses it. -/
structure BootSector where
  bytesPerSector : ℕ
  sectorsPerCluster : ℕ
  reservedSectors : ℕ
  fatCount : ℕ
  dirEntryCount : ℕ
  sectorsPerFat : ℕ
  deriving DecidableEq, Repr

/-- The boot sector, whose members are read from their bytes, the least significant one
first. -/
def BootSector.ofBytes (bytes : Sector) : BootSector where
  bytesPerSector := word16 bytes 11
  sectorsPerCluster := (bytes 13).toNat
  reservedSectors := word16 bytes 14
  fatCount := (bytes 16).toNat
  dirEntryCount := word16 bytes 17
  sectorsPerFat := word16 bytes 22

/-- The globals that do not change after `FAT_initialize`. -/
structure Volume where
  bootSector : BootSector
  fat : ℕ → UInt8
  dataSectionLba : ℕ

/-! ### Open files -/

/-- A handle, of the root directory (`ROOT_DIR_HANDLE`) or of an open file. -/
inductive Handle
  | root
  | file (i : Fin maxFileHandles)
  deriving DecidableEq, Repr

/-- `__FAT_FileInternal`, with the fields of `FAT_File`. -/
structure FileInternal where
  handle : Handle
  isDirectory : Bool
  position : ℕ
  size : ℕ
  isOpened : Bool
  firstCluster : ℕ
  curCluster : ℕ
  curSectorInCluster : ℕ
  buffer : Sector

/-- `__FAT_Data`, with the other globals: the volume, the root directory and the open files. -/
structure Data extends Volume where
  rootDir : FileInternal
  openedFiles : Fin maxFileHandles → FileInternal

/-- `FAT_DirectoryEntry`, as far as the driver uses it. -/
structure DirectoryEntry where
  name : List UInt8
  attributes : UInt8
  firstClusterHigh : ℕ
  firstClusterLow : ℕ
  size : ℕ
  deriving DecidableEq, Repr

/-- A directory entry, whose members are read from its 32 bytes. -/
def DirectoryEntry.ofBytes (bytes : ℕ → UInt8) : DirectoryEntry where
  name := (List.range 11).map bytes
  attributes := bytes 11
  firstClusterHigh := word16 bytes 20
  firstClusterLow := word16 bytes 26
  size := word32 bytes 28

/-- The entry is that of a directory (`FAT_ATTRIBUTE_DIRECTORY`). -/
def DirectoryEntry.isDirectory (entry : DirectoryEntry) : Bool := entry.attributes &&& 0x10 != 0

/-- The first cluster of a file, which its entry holds split in two integers. -/
def DirectoryEntry.firstCluster (entry : DirectoryEntry) : ℕ :=
  (entry.firstClusterLow + entry.firstClusterHigh * 2 ^ 16) % 2 ^ 32

/-- The record of the file of a handle: that of the root directory, or one of the open
files. -/
def Data.fd (data : Data) : Handle → FileInternal
  | .root => data.rootDir
  | .file i => data.openedFiles i

/-- Stores the record of the file of a handle, and leaves those of all other handles. -/
def Data.setFd (data : Data) (h : Handle) (fd : FileInternal) : Data :=
  match h with
  | .root => { data with rootDir := fd }
  | .file i => { data with openedFiles := Function.update data.openedFiles i fd }

@[simp] theorem Data.fd_setFd (data : Data) (h : Handle) (fd : FileInternal) :
    (data.setFd h fd).fd h = fd := by
  cases h <;> simp [Data.setFd, Data.fd]

@[simp] theorem Data.toVolume_setFd (data : Data) (h : Handle) (fd : FileInternal) :
    (data.setFd h fd).toVolume = data.toVolume := by
  cases h <;> rfl

/-! ### Clusters -/

/-- `__FAT_clusterToLba(cluster)`: the first sector of a cluster, in 32-bit arithmetic. -/
def clusterToLba (vol : Volume) (cluster : ℕ) : ℕ :=
  (vol.dataSectionLba + (cluster + 2 ^ 32 - 2) % 2 ^ 32 * vol.bootSector.sectorsPerCluster) % 2 ^ 32

/-- `__FAT_nextCluster(currentCluster)`: the 12 bits of the FAT for a cluster. -/
def nextCluster (vol : Volume) (currentCluster : ℕ) : ℕ :=
  let fatIndex := currentCluster * 3 % 2 ^ 32 / 2
  if currentCluster % 2 = 0 then word16 vol.fat fatIndex &&& 0x0fff
  else word16 vol.fat fatIndex >>> 4

/-! ### Reading -/

/-- What becomes of a file whose buffer is used up: the next sector is in the buffer; there is no
sector to read, and `FAT_read` returns what it has; or `FAT_read` returns 0. -/
inductive Refill
  | more (fd : FileInternal)
  | stop (fd : FileInternal)
  | failed (fd : FileInternal)

/-- The second half of the loop of `FAT_read`: reads the next sector. -/
def refill (vol : Volume) (disk : Disk) (fd : FileInternal) : Refill :=
  match fd.handle with
  | .root =>
      let fd := { fd with curCluster := (fd.curCluster + 1) % 2 ^ 32 }
      match disk fd.curCluster with
      | none => .failed fd
      | some buffer => .more { fd with buffer := buffer }
  | .file _ =>
      let sector := (fd.curSectorInCluster + 1) % 2 ^ 32
      let fd :=
        if sector ≥ vol.bootSector.sectorsPerCluster then
          { fd with curSectorInCluster := 0, curCluster := nextCluster vol fd.curCluster }
        else { fd with curSectorInCluster := sector }
      if fd.curCluster ≥ 0xff8 then .stop { fd with size := fd.position }
      else
        match disk ((clusterToLba vol fd.curCluster + fd.curSectorInCluster) % 2 ^ 32) with
        | none => .stop fd
        | some buffer => .more { fd with buffer := buffer }

/-- What `FAT_read` returns, what it has copied to `dataOut`, and the file afterwards. -/
structure ReadResult where
  sizeRead : ℕ
  out : List UInt8
  fd : FileInternal

/-- The loop of `FAT_read`, with the bytes copied so far. Each round takes a byte at least. -/
def readLoop (vol : Volume) (disk : Disk) : ℕ → FileInternal → ℕ → List UInt8 → ReadResult
  | 0, fd, _, out => ⟨out.length, out, fd⟩
  | fuel + 1, fd, byteCount, out =>
      if byteCount = 0 then ⟨out.length, out, fd⟩
      else
        let start := fd.position % sectorSize
        let leftInBuffer := sectorSize - start
        let take := if byteCount < leftInBuffer then byteCount else leftInBuffer
        let out := out ++ (List.range take).map fun i => fd.buffer (start + i)
        let fd := { fd with position := (fd.position + take) % 2 ^ 32 }
        let byteCount := byteCount - take
        if leftInBuffer ≠ take then readLoop vol disk fuel fd byteCount out
        else
          match refill vol disk fd with
          | .more fd => readLoop vol disk fuel fd byteCount out
          | .stop fd => ⟨out.length, out, fd⟩
          | .failed fd => ⟨0, out, fd⟩

/-- `FAT_read(disk, file, byteCount, dataOut)`, on the file of the handle. -/
def readFd (vol : Volume) (disk : Disk) (fd : FileInternal) (byteCount : ℕ) : ReadResult :=
  let byteCount :=
    if !fd.isDirectory || (fd.isDirectory && fd.size != 0) then
      let temp := (fd.size + 2 ^ 32 - fd.position) % 2 ^ 32
      if byteCount < temp then byteCount else temp
    else byteCount
  readLoop vol disk byteCount fd byteCount []

/-- `FAT_read(disk, file, byteCount, dataOut)`: the number of bytes read, these bytes, and the
new state. -/
def fatRead (disk : Disk) (data : Data) (h : Handle) (byteCount : ℕ) : ℕ × List UInt8 × Data :=
  let r := readFd data.toVolume disk (data.fd h) byteCount
  (r.sizeRead, r.out, data.setFd h r.fd)

/-- `FAT_readEntry(disk, file, dirOut)`; the entry is `none` when less is read. -/
def readEntry (vol : Volume) (disk : Disk) (fd : FileInternal) :
    Option DirectoryEntry × FileInternal :=
  let r := readFd vol disk fd entrySize
  if r.sizeRead = entrySize then (some (.ofBytes fun i => r.out.getD i 0), r.fd) else (none, r.fd)

/-! ### Finding a file -/

/-- `strchr(str, chr)`, as an index from `i` on; the string ends within `fuel` characters. -/
def strchr (chr : UInt8) (str : ℕ → UInt8) : ℕ → ℕ → Option ℕ
  | 0, _ => none
  | fuel + 1, i =>
      if str i = 0 then none
      else if str i = chr then some i
      else strchr chr str fuel (i + 1)

/-- The characters that a loop `for (i = 0 ; i < n && str[i] ; i++)` copies, in upper case. -/
def copyUpper (str : ℕ → UInt8) : ℕ → ℕ → List UInt8
  | 0, _ => []
  | n + 1, i => if str i = 0 then [] else upper (str i) :: copyUpper str n (i + 1)

/-- The start of `__FAT_findFile`: the 11 characters that are looked for. The base ends at the
dot, or at the eleventh character when there is none; the extension starts after it. -/
def fatName (name : ℕ → UInt8) : List UInt8 :=
  let ext := (strchr 46 name maxPathSize 0).getD 11
  let base := copyUpper name (min 8 ext) 0
  let extension := copyUpper name 3 (ext + 1)
  base ++ List.replicate (8 - base.length) 32 ++
    (extension ++ List.replicate (3 - extension.length) 32)

/-- The loop of `__FAT_findFile`, for at most `fuel` entries. -/
def findLoop (vol : Volume) (disk : Disk) (fatName : List UInt8) :
    ℕ → FileInternal → Option DirectoryEntry × FileInternal
  | 0, fd => (none, fd)
  | fuel + 1, fd =>
      match readEntry vol disk fd with
      | (none, fd) => (none, fd)
      | (some entry, fd) =>
          if fatName = entry.name then (some entry, fd) else findLoop vol disk fatName fuel fd

/-- `__FAT_findFile(disk, file, name, entryOut)`: the entry, of at most 257 that are read. -/
def findFile (vol : Volume) (disk : Disk) (fd : FileInternal) (name : ℕ → UInt8) :
    Option DirectoryEntry × FileInternal :=
  findLoop vol disk (fatName name) 257 fd

/-! ### Opening and closing -/

/-- `__FAT_openEntry(disk, entry)`; the handle is `none` for `NULL`. -/
def openEntry (disk : Disk) (data : Data) (entry : DirectoryEntry) : Option Handle × Data :=
  match (List.finRange maxFileHandles).find? fun i => !(data.openedFiles i).isOpened with
  | none => (none, data)
  | some i =>
      let fd : FileInternal :=
        { handle := .file i
          isDirectory := entry.isDirectory
          position := 0
          size := entry.size
          isOpened := (data.openedFiles i).isOpened
          firstCluster := entry.firstCluster
          curCluster := entry.firstCluster
          curSectorInCluster := 0
          buffer := (data.openedFiles i).buffer }
      match disk (clusterToLba data.toVolume fd.curCluster) with
      | none => (none, data.setFd (.file i) fd)
      | some buffer =>
          (some (.file i), data.setFd (.file i) { fd with buffer := buffer, isOpened := true })

/-- `FAT_close(file)`: takes the root directory back to its beginning, and frees any other
handle. -/
def fatClose (data : Data) (h : Handle) : Data :=
  match h with
  | .root => { data with rootDir :=
      { data.rootDir with position := 0, curCluster := data.rootDir.firstCluster } }
  | .file i => data.setFd (.file i) { data.openedFiles i with isOpened := false }

/-- A lookup that `FAT_open` makes: the first cluster of the directory, `none` for the root
directory, and the name that is looked for. -/
abbrev Lookup := Option ℕ × List UInt8

/-- The directory that a file is, for a lookup: the root, or the one with its first cluster. -/
def FileInternal.dir (fd : FileInternal) : Option ℕ :=
  match fd.handle with
  | .root => none
  | .file _ => some fd.firstCluster

/-- What `FAT_open` returns, the lookups that it has made, and the data afterwards. -/
structure Opened where
  file : Option Handle
  lookups : List Lookup
  data : Data

/-- The name buffer after `memcpy(name, filepath, len)` and `name[len + 1] = '\0'`. -/
def storeName (name : ℕ → UInt8) (component : List UInt8) : ℕ → UInt8 := fun i =>
  if i < component.length then component.getD i 0
  else if i = component.length + 1 then 0
  else name i

/-- The loop of `FAT_open`. The rest of the path is a list of characters. A component that does
not fit the name buffer, and a lookup in a file that is `NULL`, are accesses outside of any
object. -/
def openLoop (disk : Disk) : ℕ → Data → (ℕ → UInt8) → Option Handle → List UInt8 → List Lookup →
    Except Fault Opened
  | 0, _, _, _, _, _ => .error .diverges
  | fuel + 1, data, name, cur, filepath, lookups =>
      if filepath = [] then .ok ⟨cur, lookups, data⟩
      else
        let component := filepath.takeWhile (· != 47)
        let isLast := !filepath.contains 47
        let filepath := (filepath.dropWhile (· != 47)).tail
        if component.length + 1 ≥ maxPathSize then .error .wild
        else
          let name := storeName name component
          match cur with
          | none => .error .wild
          | some h =>
              let fd := data.fd h
              let lookups := lookups ++ [(fd.dir, fatName name)]
              let (found, fd) := findFile data.toVolume disk fd name
              let data := fatClose (data.setFd h fd) h
              match found with
              | none => .ok ⟨none, lookups, data⟩
              | some entry =>
                  if !isLast && !entry.isDirectory then .ok ⟨none, lookups, data⟩
                  else
                    let (cur, data) := openEntry disk data entry
                    openLoop disk fuel data name cur filepath lookups

/-- `FAT_open(disk, filepath)`, a leading slash being ignored. -/
def fatOpen (disk : Disk) (data : Data) (filepath : List UInt8) : Except Fault Opened :=
  let filepath := if filepath.head? = some 47 then filepath.tail else filepath
  openLoop disk (filepath.length + 1) data (fun _ => 0) (some .root) filepath []

/-- `FAT_initialize(disk)`, with what the memory behind `g_data` holds before: the files, and the
bytes that the file allocation table does not fill. -/
def fatInitialize (disk : Disk) (before : Data) : Option Data :=
  match disk 0 with
  | none => none
  | some bytes =>
      let bs := BootSector.ofBytes bytes
      let fatSize := bs.sectorsPerFat * bs.bytesPerSector % 2 ^ 32
      if dataSize + fatSize ≥ memoryFatSize then none
      else
        match readSectors disk bs.reservedSectors (bs.sectorsPerFat % 256) with
        | none => none
        | some fatBytes =>
            let rootDirLba := bs.reservedSectors + bs.sectorsPerFat * bs.fatCount
            let rootDirSize := entrySize * bs.dirEntryCount
            match disk rootDirLba with
            | none => none
            | some buffer =>
                let rootDirSectors :=
                  (rootDirSize + bs.bytesPerSector - 1) / bs.bytesPerSector
                some
                  { bootSector := bs
                    fat := fun i =>
                      if i < bs.sectorsPerFat % 256 * sectorSize then fatBytes i else before.fat i
                    dataSectionLba := rootDirLba + rootDirSectors
                    rootDir :=
                      { handle := .root
                        isDirectory := true
                        position := 0
                        size := rootDirSize
                        isOpened := true
                        firstCluster := rootDirLba
                        curCluster := rootDirLba
                        curSectorInCluster := 0
                        buffer := buffer }
                    openedFiles := fun i => { before.openedFiles i with isOpened := false } }

end MugOS.Fat
