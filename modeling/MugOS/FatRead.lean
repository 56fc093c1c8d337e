import MugOS.Fat

/-!
# Reading a File in Pieces

`FAT_read` copies from a buffer of one sector and refills it when its last byte is taken. Position,
cluster, sector in the cluster and buffer say the same thing four times over; `Stream` says what
makes them agree, and what a file of sectors in a given order reads as.

## Main results

* `Stream.readLoop`: the loop of `FAT_read` returns the bytes at the position, and leaves the
  cursor on the sector of the next one.
* `fatRead_streams`: reads of any sizes return a file piece by piece.
-/

namespace MugOS.Fat

open Fat12

/-! ### A cursor on a stream of sectors -/

/-- What reading does not change in the record of a file: its handle, kind, first cluster and
size. -/
structure Kept (fd fd' : FileInternal) : Prop where
  handle : fd'.handle = fd.handle
  isDirectory : fd'.isDirectory = fd.isDirectory
  isOpened : fd'.isOpened = fd.isOpened
  firstCluster : fd'.firstCluster = fd.firstCluster

/-- What two reads one after the other leave unchanged, they leave unchanged together. -/
theorem Kept.trans {fd₁ fd₂ fd₃ : FileInternal} (h : Kept fd₁ fd₂) (h' : Kept fd₂ fd₃) :
    Kept fd₁ fd₃ :=
  ⟨h'.handle.trans h.handle, h'.isDirectory.trans h.isDirectory, h'.isOpened.trans h.isOpened,
    h'.firstCluster.trans h.firstCluster⟩

/-- A file of `n` sectors with the given bytes. `At fd i` says that the cursor of `fd` is on sector
`i`, wherever the position is, and `Ended` what holds of the file after its last sector. -/
structure Stream (vol : Volume) (disk : Disk) (byte : ℕ → UInt8) (n : ℕ)
    (At : FileInternal → ℕ → Prop) (Ended : FileInternal → Prop) : Prop where
  buffer : ∀ {fd i}, At fd i → i < n → ∀ o < sectorSize, fd.buffer o = byte (i * sectorSize + o)
  frame : ∀ {fd i} (p : ℕ), At fd i → At { fd with position := p } i
  more : ∀ {fd i}, At fd i → i + 1 < n → ∃ fd', refill vol disk fd = .more fd' ∧ At fd' (i + 1) ∧
    fd'.position = fd.position ∧ fd'.size = fd.size ∧ Kept fd fd'
  last : ∀ {fd i}, At fd i → i + 1 = n → fd.position = n * sectorSize → ∃ fd',
    (refill vol disk fd = .more fd' ∨ refill vol disk fd = .stop fd') ∧ Ended fd' ∧ Kept fd fd'

/-- The `n` bytes of a stream of bytes from a position on. -/
def slice (byte : ℕ → UInt8) (p n : ℕ) : List UInt8 := (List.range n).map fun i => byte (p + i)

/-- Two slices, the second of which begins where the first one ends, make up one slice. -/
theorem slice_add (byte : ℕ → UInt8) (p m n : ℕ) :
    slice byte p m ++ slice byte (p + m) n = slice byte p (m + n) := by
  simp [slice, List.range_add, Function.comp_def, Nat.add_assoc]

@[simp] theorem length_slice (byte : ℕ → UInt8) (p n : ℕ) : (slice byte p n).length = n := by
  simp [slice]

/-- When no byte is asked for, the loop returns what was copied before and leaves the file as
it is. -/
theorem readLoop_zero (vol : Volume) (disk : Disk) (fuel : ℕ) (fd : FileInternal)
    (out : List UInt8) : readLoop vol disk fuel fd 0 out = ⟨out.length, out, fd⟩ := by
  cases fuel <;> simp [readLoop]

variable {vol : Volume} {disk : Disk} {byte : ℕ → UInt8} {nSectors : ℕ}
  {At : FileInternal → ℕ → Prop} {Ended : FileInternal → Prop}

/-- The buffer holds the bytes of the stream from the position to the end of the sector. -/
theorem Stream.taken (S : Stream vol disk byte nSectors At Ended) {fd : FileInternal} {p t : ℕ}
    (hat : At fd (p / sectorSize)) (hp : p < nSectors * sectorSize)
    (ht : t ≤ sectorSize - p % sectorSize) :
    (List.range t).map (fun i => fd.buffer (p % sectorSize + i)) = slice byte p t := by
  refine List.map_congr_left fun i hi => ?_
  rw [List.mem_range] at hi
  rw [S.buffer hat (Nat.div_lt_of_lt_mul (by rwa [Nat.mul_comm] at hp)) _ (by omega)]
  congr 1
  have := Nat.div_add_mod p sectorSize
  simp only [sectorSize] at *
  omega

/-- **The loop of `FAT_read`**, for no more bytes than the stream still has: it returns these, and
leaves the cursor on the sector of the next byte. -/
theorem Stream.readLoop (S : Stream vol disk byte nSectors At Ended) {fuel n p : ℕ}
    {fd : FileInternal} (hat : At fd (p / sectorSize))
    (hpos : fd.position = p) (hp : p < nSectors * sectorSize) (hfuel : n ≤ fuel)
    (hn : p + n ≤ nSectors * sectorSize) (hword : p + n < 2 ^ 32) (out : List UInt8) :
    ∃ fd', readLoop vol disk fuel fd n out = ⟨out.length + n, out ++ slice byte p n, fd'⟩ ∧
      Kept fd fd' ∧
      (p + n < nSectors * sectorSize → At fd' ((p + n) / sectorSize) ∧ fd'.position = p + n ∧
        fd'.size = fd.size) ∧
      (p + n = nSectors * sectorSize → Ended fd') := by
  induction fuel generalizing fd n p out with
  | zero =>
      obtain rfl : n = 0 := by omega
      refine ⟨fd, by simp [readLoop_zero, slice], ⟨rfl, rfl, rfl, rfl⟩, ?_, by omega⟩
      exact fun _ => ⟨hat, hpos, rfl⟩
  | succ fuel ih =>
      by_cases hn0 : n = 0
      · subst hn0
        refine ⟨fd, by simp [readLoop_zero, slice], ⟨rfl, rfl, rfl, rfl⟩, ?_, by omega⟩
        exact fun _ => ⟨hat, hpos, rfl⟩
      have hdiv := Nat.div_add_mod p sectorSize
      have hmod := Nat.mod_lt p (show 0 < sectorSize by decide)
      rw [Fat.readLoop, if_neg hn0]
      simp only [hpos]
      by_cases hless : n < sectorSize - p % sectorSize
      · -- The rest of the buffer is more than enough.
        rw [if_pos hless, if_pos (by omega), Nat.sub_self, readLoop_zero,
          S.taken hat hp hless.le, Nat.mod_eq_of_lt hword]
        refine ⟨{ fd with position := p + n }, by rw [List.length_append, length_slice],
          ⟨rfl, rfl, rfl, rfl⟩, ?_, ?_⟩
        · intro _
          refine ⟨?_, rfl, rfl⟩
          rw [show (p + n) / sectorSize = p / sectorSize by simp only [sectorSize] at *; omega]
          exact S.frame _ hat
        · simp only [sectorSize] at *
          omega
      · -- The buffer is used up: the next sector is read.
        set left := sectorSize - p % sectorSize with hleft
        rw [if_neg hless, if_neg (by simp), S.taken hat hp le_rfl,
          Nat.mod_eq_of_lt (show p + left < 2 ^ 32 by omega)]
        have hnext : p + left = (p / sectorSize + 1) * sectorSize := by
          simp only [sectorSize] at *
          omega
        have hat' : At { fd with position := p + left } (p / sectorSize) := S.frame _ hat
        have hout : out ++ slice byte p left ++ slice byte (p + left) (n - left) =
            out ++ slice byte p n := by
          rw [List.append_assoc, slice_add, Nat.add_sub_cancel' (by omega)]
        by_cases hlast : p / sectorSize + 1 < nSectors
        · obtain ⟨fd₁, hrefill, hat₁, hpos₁, hsize₁, hkept₁⟩ := S.more hat' hlast
          have hlt : p + left < nSectors * sectorSize := by
            rw [hnext]
            exact Nat.mul_lt_mul_of_pos_right hlast (by decide)
          rw [hrefill]
          simp only
          obtain ⟨fd₂, hloop, hkept₂, hinside, hend⟩ := ih (n := n - left)
            (p := p + left)
            (by rwa [hnext, Nat.mul_div_cancel _ (by decide)]) hpos₁ hlt (by omega) (by omega)
            (by omega) (out ++ slice byte p left)
          rw [show p + left + (n - left) = p + n by omega] at hinside hend
          refine ⟨fd₂, ?_, ?_, ?_, hend⟩
          · rw [hloop, hout, List.length_append, length_slice,
              show out.length + left + (n - left) = out.length + n by omega]
          · exact Kept.trans ⟨hkept₁.handle, hkept₁.isDirectory, hkept₁.isOpened,
              hkept₁.firstCluster⟩ hkept₂
          · intro hin
            obtain ⟨hat₂, hpos₂, hsize₂⟩ := hinside hin
            exact ⟨hat₂, hpos₂, hsize₂.trans hsize₁⟩
        · have hlt := Nat.div_lt_of_lt_mul (show p < sectorSize * nSectors by
            rwa [Nat.mul_comm] at hp)
          have heq : p / sectorSize + 1 = nSectors := by omega
          rw [heq] at hnext
          have hall : n = left := by omega
          obtain ⟨fd₁, hrefill, hended, hkept⟩ := S.last hat' heq hnext
          refine ⟨fd₁, ?_, ⟨hkept.handle, hkept.isDirectory, hkept.isOpened,
            hkept.firstCluster⟩, by omega, fun _ => hended⟩
          rw [hall, Nat.sub_self]
          rcases hrefill with hrefill | hrefill
          · rw [hrefill]
            simp only
            rw [readLoop_zero, List.length_append, length_slice]
          · rw [hrefill]
            simp only
            rw [List.length_append, length_slice]

/-! ### The stream of a chain of clusters -/

/-- The first sector of a cluster, without the wrap of the 32-bit arithmetic. -/
def clusterLba (vol : Volume) (c : ℕ) : ℕ :=
  vol.dataSectionLba + (c - 2) * vol.bootSector.sectorsPerCluster

/-- The byte of a cluster at an offset, as it is on the disk. -/
def clusterByte (disk : Disk) (vol : Volume) (c o : ℕ) : UInt8 :=
  ((disk (clusterLba vol c + o / sectorSize)).getD fun _ => 0) (o % sectorSize)

/-- The number of bytes in a cluster: those of its sectors. -/
def clusterSize (vol : Volume) : ℕ := vol.bootSector.sectorsPerCluster * sectorSize

/-- The volume that `FAT_initialize` mounts from a disk. -/
def Mounts (disk : Disk) (vol : Volume) : Prop :=
  ∃ before data, fatInitialize disk before = some data ∧ data.toVolume = vol

/-- The first sector of the root directory, behind the reserved sectors and the FATs. -/
def rootLba (vol : Volume) : ℕ :=
  vol.bootSector.reservedSectors + vol.bootSector.sectorsPerFat * vol.bootSector.fatCount

/-- **What `FAT_initialize` leaves**: the root directory at its first sector, all handles free, and
the start of the data section behind the root directory. -/
theorem fatInitialize_eq {disk : Disk} {before data : Data}
    (h : fatInitialize disk before = some data) :
    (∃ bytes, data.bootSector = .ofBytes bytes) ∧
      (∃ buffer, disk (rootLba data.toVolume) = some buffer ∧
        data.rootDir = ⟨.root, true, 0, entrySize * data.bootSector.dirEntryCount, true,
          rootLba data.toVolume, rootLba data.toVolume, 0, buffer⟩) ∧
      (∀ i, (data.openedFiles i).isOpened = false) ∧
      data.dataSectionLba = rootLba data.toVolume +
        (entrySize * data.bootSector.dirEntryCount + data.bootSector.bytesPerSector - 1) /
          data.bootSector.bytesPerSector := by
  unfold fatInitialize at h
  split at h
  · cases h
  rename_i bytes _
  simp only at h
  split_ifs at h
  split at h
  · cases h
  split at h
  · cases h
  rename_i buffer hbuffer
  obtain rfl := Option.some.inj h
  exact ⟨⟨bytes, rfl⟩, ⟨buffer, hbuffer, rfl⟩, fun _ => rfl, rfl⟩

/-- The numbers in a boot sector are small, and so is the start of the data section. -/
theorem Mounts.bounds {disk : Disk} {vol : Volume} (h : Mounts disk vol) :
    vol.bootSector.sectorsPerCluster < 256 ∧ vol.bootSector.dirEntryCount < 2 ^ 16 ∧
      rootLba vol ≤ vol.dataSectionLba ∧ vol.dataSectionLba < 2 ^ 25 := by
  obtain ⟨before, data, hinit, rfl⟩ := h
  obtain ⟨⟨bytes, hbytes⟩, -, -, hdata⟩ := fatInitialize_eq hinit
  have hspc := UInt8.toNat_lt (bytes 13)
  have hcount := UInt8.toNat_lt (bytes 16)
  have hreserved := word16_lt bytes 14
  have hentries := word16_lt bytes 17
  have hper := word16_lt bytes 22
  simp only [hdata, rootLba, hbytes, BootSector.ofBytes, entrySize]
  have hmul : word16 bytes 22 * (bytes 16).toNat ≤ 2 ^ 16 * 2 ^ 8 :=
    Nat.mul_le_mul hper.le (by omega)
  have hroot : (32 * word16 bytes 17 + word16 bytes 11 - 1) / word16 bytes 11 ≤
      32 * word16 bytes 17 := by
    rcases Nat.eq_zero_or_pos (word16 bytes 11) with h0 | hpos
    · simp [h0]
    · rw [Nat.div_le_iff_le_mul_add_pred hpos]
      have := Nat.le_mul_of_pos_left (32 * word16 bytes 17) hpos
      omega
  generalize (32 * word16 bytes 17 + word16 bytes 11 - 1) / word16 bytes 11 = q at hroot ⊢
  omega

/-- `nextCluster` reads the packed 12-bit entry of a cluster from the table. -/
theorem nextCluster_packed (vol : Volume) {c : ℕ} (hc : c < 2 ^ 30) :
    Packed 12 vol.fat c (nextCluster vol c) := by
  have hindex : c * 3 % 2 ^ 32 / 2 = c + c / 2 := by omega
  have hpacked := nextEntry_packed vol.fat c
  rwa [← hindex] at hpacked

/-- The sector that the source computes for a cluster is the one at its place in the data
region; nothing wraps modulo `2 ^ 32`. -/
theorem Mounts.clusterToLba_eq {disk : Disk} {vol : Volume} (h : Mounts disk vol) {c s : ℕ}
    (hc2 : 2 ≤ c) (hc : c < 0xff7) (hs : s < 256) :
    (clusterToLba vol c + s) % 2 ^ 32 = clusterLba vol c + s := by
  obtain ⟨hspc, -, -, hlba⟩ := h.bounds
  have hmul : (c - 2) * vol.bootSector.sectorsPerCluster ≤ 0xff7 * 256 :=
    Nat.mul_le_mul (by omega) hspc.le
  rw [clusterToLba, show (c + 2 ^ 32 - 2) % 2 ^ 32 = c - 2 by omega, clusterLba]
  omega

/-- The cluster and the sector in it after one sector more. -/
def advance (vol : Volume) (cluster sector : ℕ) : ℕ × ℕ :=
  if (sector + 1) % 2 ^ 32 ≥ vol.bootSector.sectorsPerCluster then (nextCluster vol cluster, 0)
  else (cluster, (sector + 1) % 2 ^ 32)

/-- The refill of a file that is not the root directory. -/
theorem refill_file {vol : Volume} {disk : Disk} {fd : FileInternal} {h : Fin maxFileHandles}
    (hhandle : fd.handle = .file h) {c s : ℕ}
    (hadvance : advance vol fd.curCluster fd.curSectorInCluster = (c, s)) :
    refill vol disk fd =
      if c ≥ 0xff8 then
        .stop { fd with curCluster := c, curSectorInCluster := s, size := fd.position }
      else
        match disk ((clusterToLba vol c + s) % 2 ^ 32) with
        | none => .stop { fd with curCluster := c, curSectorInCluster := s }
        | some buffer =>
            .more { fd with curCluster := c, curSectorInCluster := s, buffer := buffer } := by
  rw [advance] at hadvance
  by_cases hsector : (fd.curSectorInCluster + 1) % 2 ^ 32 ≥ vol.bootSector.sectorsPerCluster
  · rw [if_pos hsector] at hadvance
    obtain ⟨rfl, rfl⟩ := Prod.mk.inj hadvance
    cases hdisk : disk ((clusterToLba vol (nextCluster vol fd.curCluster) + 0) % 2 ^ 32) <;>
      simp only [refill, hhandle, if_pos hsector, hdisk]
  · rw [if_neg hsector] at hadvance
    obtain ⟨rfl, rfl⟩ := Prod.mk.inj hadvance
    cases hdisk : disk ((clusterToLba vol fd.curCluster +
        (fd.curSectorInCluster + 1) % 2 ^ 32) % 2 ^ 32) <;>
      simp only [refill, hhandle, if_neg hsector, hdisk]

/-- How the number of a cluster and of the sector in it change with the next sector of a chain:
the cluster changes when its last sector has been passed. -/
theorem succ_div_mod {n i : ℕ} (hn : 0 < n) :
    (i % n + 1 ≥ n → (i + 1) / n = i / n + 1 ∧ (i + 1) % n = 0) ∧
      (¬ i % n + 1 ≥ n → (i + 1) / n = i / n ∧ (i + 1) % n = i % n + 1) := by
  have hdiv := Nat.div_add_mod i n
  have hmod := Nat.mod_lt i hn
  rw [Nat.div_mod_unique hn, Nat.div_mod_unique hn, Nat.mul_succ]
  omega

/-- The first sector that the source computes for a cluster is the one at its place in the data
region. -/
theorem Mounts.clusterToLba_first {disk : Disk} {vol : Volume} (h : Mounts disk vol) {c : ℕ}
    (hc2 : 2 ≤ c) (hc : c < 0xff7) : clusterToLba vol c = clusterLba vol c := by
  have hlba := h.clusterToLba_eq hc2 hc (s := 0) (by decide)
  have hlt : clusterToLba vol c < 2 ^ 32 := Nat.mod_lt _ (by decide)
  rwa [Nat.add_zero, Nat.add_zero, Nat.mod_eq_of_lt hlt] at hlba

/-- The cursor of a file is on sector `i` of its chain, which it has in its buffer. -/
structure OnChain (vol : Volume) (disk : Disk) (cs : List ℕ) (fd : FileInternal) (i : ℕ) :
    Prop where
  handle : ∃ h, fd.handle = .file h
  cluster : fd.curCluster = cs.getD (i / vol.bootSector.sectorsPerCluster) 0
  sector : fd.curSectorInCluster = i % vol.bootSector.sectorsPerCluster
  buffer : disk (clusterLba vol (cs.getD (i / vol.bootSector.sectorsPerCluster) 0) +
    i % vol.bootSector.sectorsPerCluster) = some fd.buffer

/-- The chain is read to its end, which is also taken for the end of the file. -/
def AtEnd (total : ℕ) (fd : FileInternal) : Prop := fd.size = total ∧ fd.position = total

/-- **The clusters of a chain are a stream**: reading sector after sector from the first
cluster on follows the chain. -/
theorem chainStream {disk : Disk} {vol : Volume} (hmount : Mounts disk vol)
    (hreads : ∀ lba, (disk lba).isSome) (hspc : 1 ≤ vol.bootSector.sectorsPerCluster)
    {cs : List ℕ} (hchain : Chain vol.fat cs) :
    Stream vol disk (chainByte (clusterSize vol) (clusterByte disk vol) cs)
      (cs.length * vol.bootSector.sectorsPerCluster) (OnChain vol disk cs)
      (AtEnd (cs.length * vol.bootSector.sectorsPerCluster * sectorSize)) where
  buffer := by
    intro fd i hat _ o ho
    have hdiv : (i * sectorSize + o) / sectorSize = i := by
      simp only [sectorSize] at *
      omega
    have hmod : (i * sectorSize + o) % sectorSize = o := by
      simp only [sectorSize] at *
      omega
    have hin : (sectorSize * (i % vol.bootSector.sectorsPerCluster) + o) / sectorSize =
        i % vol.bootSector.sectorsPerCluster := by
      simp only [sectorSize] at *
      omega
    rw [chainByte, clusterSize, Nat.mul_comm vol.bootSector.sectorsPerCluster,
      ← Nat.div_div_eq_div_mul, Nat.mod_mul, hdiv, hmod, Nat.add_comm o, clusterByte, hin,
      hat.buffer, Nat.mul_add_mod, Nat.mod_eq_of_lt ho]
    rfl
  frame := fun _ hat => ⟨hat.handle, hat.cluster, hat.sector, hat.buffer⟩
  more := by
    intro fd i hat hlt
    obtain ⟨h, hhandle⟩ := hat.handle
    have hspcLt := hmount.bounds.1
    obtain ⟨hturn, hstay⟩ := succ_div_mod (i := i) hspc
    have hmodLt := Nat.mod_lt (i + 1) hspc
    have hidx : (i + 1) / vol.bootSector.sectorsPerCluster < cs.length :=
      Nat.div_lt_of_lt_mul (by rwa [Nat.mul_comm] at hlt)
    obtain ⟨hc2, hc⟩ := hchain.range hidx
    have hadvance : advance vol fd.curCluster fd.curSectorInCluster =
        (cs.getD ((i + 1) / vol.bootSector.sectorsPerCluster) 0,
          (i + 1) % vol.bootSector.sectorsPerCluster) := by
      have := Nat.mod_lt i hspc
      rw [advance, hat.cluster, hat.sector, Nat.mod_eq_of_lt (by omega)]
      split
      · rename_i hend
        obtain ⟨hdiv, hmod⟩ := hturn hend
        rw [hdiv] at hidx
        have hrange := (hchain.range (Nat.lt_of_succ_lt hidx)).2
        rw [hdiv, hmod, (nextCluster_packed vol (by omega)).unique (hchain.next hidx)]
      · rename_i hend
        obtain ⟨hdiv, hmod⟩ := hstay hend
        rw [hdiv, hmod]
    obtain ⟨buffer, hbuffer⟩ := Option.isSome_iff_exists.mp
      (hreads (clusterLba vol (cs.getD ((i + 1) / vol.bootSector.sectorsPerCluster) 0) +
        (i + 1) % vol.bootSector.sectorsPerCluster))
    rw [refill_file hhandle hadvance, if_neg (by omega),
      hmount.clusterToLba_eq hc2 hc (by omega), hbuffer]
    exact ⟨_, rfl, ⟨⟨h, hhandle⟩, rfl, rfl, hbuffer⟩, rfl, rfl, ⟨rfl, rfl, rfl, rfl⟩⟩
  last := by
    intro fd i hat hlast hpos
    obtain ⟨h, hhandle⟩ := hat.handle
    have hspcLt := hmount.bounds.1
    have hmodLt := Nat.mod_lt i hspc
    have hcs := hchain.pos
    -- The last sector of the chain is the last one of its last cluster.
    have hplace : i / vol.bootSector.sectorsPerCluster = cs.length - 1 ∧
        i % vol.bootSector.sectorsPerCluster = vol.bootSector.sectorsPerCluster - 1 := by
      rw [Nat.div_mod_unique hspc, Nat.mul_sub, Nat.mul_one, Nat.mul_comm]
      have := Nat.le_mul_of_pos_left vol.bootSector.sectorsPerCluster hcs
      omega
    obtain ⟨v, hv, hend⟩ := hchain.ending
    have hrange := (hchain.range (i := cs.length - 1) (by omega)).2
    have hadvance : advance vol fd.curCluster fd.curSectorInCluster = (v, 0) := by
      rw [advance, hat.cluster, hat.sector, hplace.1, hplace.2, Nat.mod_eq_of_lt (by omega),
        if_pos (by omega), (nextCluster_packed vol (by omega)).unique hv]
    rw [refill_file hhandle hadvance, if_pos hend]
    exact ⟨_, .inr rfl, ⟨hpos, hpos⟩, ⟨rfl, rfl, rfl, rfl⟩⟩

/-! ### Reading a file in pieces -/

/-- Successive calls of `FAT_read` on a handle: what each returns and copies. -/
def reads (disk : Disk) (data : Data) (h : Handle) : List ℕ → List (ℕ × List UInt8)
  | [] => []
  | n :: counts =>
      let (sizeRead, out, data) := fatRead disk data h n
      (sizeRead, out) :: reads disk data h counts

/-- A file of which `p` bytes are read: the cursor is on the sector of the next byte, or all is
read. -/
structure ReadTo (vol : Volume) (disk : Disk) (cs : List ℕ) (size p : ℕ) (fd : FileInternal) :
    Prop where
  isDirectory : fd.isDirectory = false
  size_eq : fd.size = size
  position : fd.position = p
  le : p ≤ size
  cursor : p < size → OnChain vol disk cs fd (p / sectorSize)

/-- **One call of `FAT_read`** returns the next bytes of the file, as far as there are any. -/
theorem ReadTo.readFd {disk : Disk} {vol : Volume} (hmount : Mounts disk vol)
    (hreads : ∀ lba, (disk lba).isSome) (hspc : 1 ≤ vol.bootSector.sectorsPerCluster)
    {cs : List ℕ} (hchain : Chain vol.fat cs) {size p : ℕ} {fd : FileInternal}
    (h : ReadTo vol disk cs size p fd) (hword : size < 2 ^ 32)
    (henough : size ≤ cs.length * clusterSize vol) (n : ℕ) :
    ∃ fd', Fat.readFd vol disk fd n = ⟨min n (size - p),
        slice (chainByte (clusterSize vol) (clusterByte disk vol) cs) p (min n (size - p)), fd'⟩ ∧
      ReadTo vol disk cs size (p + min n (size - p)) fd' := by
  have hle := h.le
  have htemp : (size + 2 ^ 32 - p) % 2 ^ 32 = size - p := by omega
  have hcount : (if n < size - p then n else size - p) = min n (size - p) := by
    rw [min_def]
    split_ifs <;> omega
  have hstart : Fat.readFd vol disk fd n =
      readLoop vol disk (min n (size - p)) fd (min n (size - p)) [] := by
    rw [Fat.readFd]
    simp only [h.isDirectory, h.size_eq, h.position, Bool.not_false, Bool.true_or, if_true, htemp,
      hcount]
  rw [hstart]
  set m := min n (size - p) with hm
  have hmle : m ≤ size - p := min_le_right _ _
  by_cases hdone : p = size
  · have hm0 : m = 0 := by omega
    rw [hm0]
    exact ⟨fd, by simp [slice, readLoop_zero], h⟩
  · have htotal : cs.length * clusterSize vol =
        cs.length * vol.bootSector.sectorsPerCluster * sectorSize := by
      rw [clusterSize, Nat.mul_assoc]
    rw [htotal] at henough
    obtain ⟨fd', hloop, hkept, hinside, hend⟩ :=
      (chainStream hmount hreads hspc hchain).readLoop (n := m)
        (h.cursor (by omega)) h.position (by omega) le_rfl (by omega) (by omega) []
    refine ⟨fd', by simpa using hloop, ⟨hkept.isDirectory.trans h.isDirectory, ?_, ?_, by omega,
      fun hlt => (hinside (by omega)).1⟩⟩
    · rcases Nat.lt_or_ge (p + m) (cs.length * vol.bootSector.sectorsPerCluster * sectorSize) with
        hlt | hge
      · exact (hinside hlt).2.2.trans h.size_eq
      · have := (hend (by omega)).1
        omega
    · rcases Nat.lt_or_ge (p + m) (cs.length * vol.bootSector.sectorsPerCluster * sectorSize) with
        hlt | hge
      · exact (hinside hlt).2.1
      · have := (hend (by omega)).2
        omega

/-- **Successive calls** of `FAT_read` return consecutive pieces of the file, up to its
size. -/
theorem ReadTo.reads {disk : Disk} {data : Data} (hmount : Mounts disk data.toVolume)
    (hreads : ∀ lba, (disk lba).isSome)
    (hspc : 1 ≤ data.bootSector.sectorsPerCluster) {cs : List ℕ}
    (hchain : Chain data.fat cs) {size p : ℕ} {h : Handle}
    (hto : ReadTo data.toVolume disk cs size p (data.fd h)) (hword : size < 2 ^ 32)
    (henough : size ≤ cs.length * clusterSize data.toVolume) (counts : List ℕ) :
    (∀ r ∈ reads disk data h counts, r.1 = r.2.length) ∧
      ((reads disk data h counts).map Prod.snd).flatten =
        slice (chainByte (clusterSize data.toVolume) (clusterByte disk data.toVolume) cs) p
          (min (size - p) counts.sum) := by
  induction counts generalizing data p with
  | nil => simp [Fat.reads, slice]
  | cons n counts ih =>
      obtain ⟨fd', hread, hto'⟩ := hto.readFd hmount hreads hspc hchain hword henough n
      have hnext : ReadTo (data.setFd h fd').toVolume disk cs size (p + min n (size - p))
          ((data.setFd h fd').fd h) := by
        rwa [Data.toVolume_setFd, Data.fd_setFd]
      obtain ⟨hlen, hpieces⟩ := ih (by rwa [Data.toVolume_setFd])
        (by rwa [Data.toVolume_setFd]) (by rwa [Data.toVolume_setFd]) hnext
        (by rwa [Data.toVolume_setFd])
      rw [Data.toVolume_setFd] at hpieces
      have hsplit : Fat.reads disk data h (n :: counts) =
          (min n (size - p), slice (chainByte (clusterSize data.toVolume)
            (clusterByte disk data.toVolume) cs) p (min n (size - p))) ::
              Fat.reads disk (data.setFd h fd') h counts := by
        simp only [Fat.reads, fatRead, hread]
      rw [hsplit]
      constructor
      · intro r hr
        rcases List.mem_cons.mp hr with rfl | hr
        · simp
        · exact hlen r hr
      · rw [List.map_cons, List.flatten_cons, hpieces, slice_add, List.sum_cons]
        congr 1
        omega

/-- The file of an entry, as `__FAT_openEntry` leaves it. -/
def openedFd (i : Fin maxFileHandles) (entry : DirectoryEntry) (buffer : Sector) : FileInternal :=
  ⟨.file i, entry.isDirectory, 0, entry.size, true, entry.firstCluster, entry.firstCluster, 0,
    buffer⟩

/-- A file that was opened through its entry is at the first sector of its chain. -/
theorem onChain_openedFd {vol : Volume} {disk : Disk} {cs : List ℕ} {entry : DirectoryEntry}
    {buffer : Sector} (i : Fin maxFileHandles) (hget : cs.getD 0 0 = entry.firstCluster)
    (hbuffer : disk (clusterLba vol entry.firstCluster) = some buffer) :
    OnChain vol disk cs (openedFd i entry buffer) 0 where
  handle := ⟨i, rfl⟩
  cluster := by
    rw [Nat.zero_div, hget]
    rfl
  sector := by
    rw [Nat.zero_mod]
    rfl
  buffer := by
    rw [Nat.zero_div, Nat.zero_mod, hget, Nat.add_zero, hbuffer]
    rfl

/-- The handle that `__FAT_openEntry` would use next. -/
def freeHandle (data : Data) : Option (Fin maxFileHandles) :=
  (List.finRange maxFileHandles).find? fun i => !(data.openedFiles i).isOpened

/-- **`__FAT_openEntry` on a disk that can be read** uses the first free handle, if there is
one. -/
theorem openEntry_eq {disk : Disk} (hreads : ∀ lba, (disk lba).isSome) (data : Data)
    (entry : DirectoryEntry) : ∃ buffer,
      disk (clusterToLba data.toVolume entry.firstCluster) = some buffer ∧
      openEntry disk data entry =
        match freeHandle data with
        | none => (none, data)
        | some i => (some (.file i), data.setFd (.file i) (openedFd i entry buffer)) := by
  obtain ⟨buffer, hbuffer⟩ := Option.isSome_iff_exists.mp
    (hreads (clusterToLba data.toVolume entry.firstCluster))
  refine ⟨buffer, hbuffer, ?_⟩
  rw [openEntry, freeHandle]
  cases (List.finRange maxFileHandles).find? fun i => !(data.openedFiles i).isOpened with
  | none => rfl
  | some i =>
      simp only [hbuffer]
      rfl

/-- **`FAT_read` streams the file whatever the read sizes.** On a mounted volume of 512-byte
sectors whose sectors can all be read, for every entry of a file with a chain of enough clusters,
and for every sequence of byte counts: the calls of `FAT_read` on the handle that
`__FAT_openEntry` returns copy as many bytes as they say, and these are, one piece after the other,
the first `min(size, sum of the counts)` bytes of the file's clusters in the order of the chain. -/
theorem fatRead_streams {disk : Disk} {data data' : Data} (hmount : Mounts disk data.toVolume)
    (hreads : ∀ lba, (disk lba).isSome)
    (hspc : 1 ≤ data.bootSector.sectorsPerCluster) {entry : DirectoryEntry}
    (hfile : entry.isDirectory = false) (hsize : entry.size < 2 ^ 32) {cs : List ℕ}
    (hchain : Chain data.fat cs) (hfirst : cs.head? = some entry.firstCluster)
    (henough : entry.size ≤ cs.length * clusterSize data.toVolume) {h : Handle}
    (hopen : openEntry disk data entry = (some h, data')) (counts : List ℕ) :
    (∀ r ∈ reads disk data' h counts, r.1 = r.2.length) ∧
      ((reads disk data' h counts).map Prod.snd).flatten =
        (chainBytes (clusterSize data.toVolume) (clusterByte disk data.toVolume) cs).take
          (min entry.size counts.sum) := by
  obtain ⟨hget, hc2, hc⟩ := hchain.head hfirst
  have hlba := hmount.clusterToLba_first hc2 hc
  obtain ⟨buffer, hbuffer, hopenEq⟩ := openEntry_eq hreads data entry
  rw [hlba] at hbuffer
  rw [hopenEq] at hopen
  split at hopen
  · simp at hopen
  rename_i i _
  simp only [Prod.mk.injEq, Option.some.injEq] at hopen
  obtain ⟨rfl, rfl⟩ := hopen
  have hto : ReadTo data.toVolume disk cs entry.size 0 (openedFd i entry buffer) :=
    { isDirectory := hfile
      size_eq := rfl
      position := rfl
      le := Nat.zero_le _
      cursor := fun _ => by
        rw [Nat.zero_div]
        exact onChain_openedFd i hget hbuffer }
  have hopened : ReadTo (data.setFd (.file i) (openedFd i entry buffer)).toVolume disk cs entry.size
      0 ((data.setFd (.file i) (openedFd i entry buffer)).fd (.file i)) := by
    rwa [Data.toVolume_setFd, Data.fd_setFd]
  have hpieces := ReadTo.reads (by rwa [Data.toVolume_setFd]) hreads
    (by rwa [Data.toVolume_setFd]) (by rwa [Data.toVolume_setFd]) hopened hsize
    (by rwa [Data.toVolume_setFd]) counts
  rw [Data.toVolume_setFd] at hpieces
  refine ⟨hpieces.1, hpieces.2.trans ?_⟩
  have hpos : 0 < clusterSize data.toVolume := Nat.mul_pos hspc (by decide)
  rw [chainBytes_eq hpos, ← List.map_take, List.take_range, slice, Nat.sub_zero,
    min_eq_left ((min_le_left _ _).trans henough)]
  simp

/-! ### A small disk -/

/-- The disk with the given sectors, and nothing but zeros behind them. -/
def imageDisk (sectors : List (List UInt8)) : Disk := fun lba =>
  some fun i => (sectors.getD lba []).getD i 0

/-- A boot sector with one sector for each cluster, one reserved sector, and one table of one
sector; the root directory has `16 * n` entries. -/
def bootBytes (n : UInt8) : List UInt8 :=
  List.replicate 12 0 ++ [2, 1, 1, 0, 1, 16 * n, 0, 0, 0, 0, 1, 0]

/-- A directory entry with a short name, attributes, a first cluster and a size. -/
def entryBytes (name : List UInt8) (attributes cluster size : UInt8) : List UInt8 :=
  name ++ List.replicate (11 - name.length) 32 ++ attributes :: List.replicate 14 0 ++
    [cluster, 0, size, 0, 0, 0]

/-- The memory of the driver at the start. -/
def blankData : Data :=
  { bootSector := ⟨0, 0, 0, 0, 0, 0⟩
    fat := fun _ => 0
    dataSectionLba := 0
    rootDir := ⟨.root, false, 0, 0, false, 0, 0, 0, fun _ => 0⟩
    openedFiles := fun i => ⟨.file i, false, 0, 0, false, 0, 0, 0, fun _ => 0⟩ }

/-- The data of the driver after `FAT_initialize`. -/
def mounted (disk : Disk) : Data := (fatInitialize disk blankData).getD blankData

/-- A disk on which `FAT_initialize` succeeds is mounted by it. -/
theorem mounts_mounted {disk : Disk} (h : (fatInitialize disk blankData).isSome = true) :
    Mounts disk (mounted disk).toVolume := by
  obtain ⟨data, hdata⟩ := Option.isSome_iff_exists.mp h
  exact ⟨blankData, data, hdata, by rw [mounted, hdata, Option.getD_some]⟩

/-- A disk with clusters of two sectors and one file in the clusters 2 and 3. -/
def twoClusterDisk : Disk :=
  imageDisk [List.replicate 12 0 ++ [2, 2, 1, 0, 1, 16, 0, 0, 0, 0, 1, 0],
    [0, 0, 0, 3, 0xf0, 0xff],
    [],
    List.replicate 512 1, List.replicate 512 2, List.replicate 512 3]

/-- The entry of the file. -/
def twoClusterEntry : DirectoryEntry := ⟨65 :: List.replicate 10 32, 0x20, 0, 2, 1400⟩

/-- The file of 1400 bytes, read in four pieces: the second one crosses the boundary of a
sector, the third one that of a cluster, and the last one would go past the end of the file. -/
theorem fatRead_streams_across :
    ∃ h data', openEntry twoClusterDisk (mounted twoClusterDisk) twoClusterEntry =
        (some h, data') ∧
      ((reads twoClusterDisk data' h [2, 600, 500, 400]).map Prod.snd).flatten =
        (chainBytes (clusterSize (mounted twoClusterDisk).toVolume)
          (clusterByte twoClusterDisk (mounted twoClusterDisk).toVolume) [2, 3]).take 1400 := by
  have hmount : Mounts twoClusterDisk (mounted twoClusterDisk).toVolume :=
    mounts_mounted (by decide +kernel)
  have hlink := nextCluster_packed (mounted twoClusterDisk).toVolume (c := 2) (by decide)
  have hend := nextCluster_packed (mounted twoClusterDisk).toVolume (c := 3) (by decide)
  have hnext : nextCluster (mounted twoClusterDisk).toVolume 2 = 3 := by decide +kernel
  have hmark : nextCluster (mounted twoClusterDisk).toVolume 3 = 0xfff := by decide +kernel
  rw [hnext] at hlink
  rw [hmark] at hend
  have hreads : ∀ lba, (twoClusterDisk lba).isSome := fun _ => rfl
  obtain ⟨buffer, -, hopen⟩ := openEntry_eq hreads (mounted twoClusterDisk) twoClusterEntry
  have hfree : freeHandle (mounted twoClusterDisk) = some 0 := by decide +kernel
  rw [hfree] at hopen
  have hstream := fatRead_streams hmount hreads (by decide +kernel) (by decide) (by decide)
    (.cons (by decide) (by decide) hlink (.last (by decide) (by decide) hend (by decide)))
    rfl (by decide +kernel) hopen [2, 600, 500, 400]
  have hmin : min twoClusterEntry.size [2, 600, 500, 400].sum = 1400 := by decide
  rw [hmin] at hstream
  exact ⟨_, _, hopen, hstream.2⟩

end MugOS.Fat
