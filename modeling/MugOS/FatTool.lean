import MugOS.Fat

/-!
# The FAT Tool

`readFile` of `Tools/FAT/Fat.c` reads a file from a disk image, cluster by cluster. It advances the
pointer into the output by the number of sectors in a cluster, where the cluster that it has just
written is longer by a factor of the sector size: the next cluster is written over it.

## Main results

* `readFileLoop_eq`: the loop writes the clusters at that distance.
* `readFile_whole_iff`: when the output is the file.
* `readFile_overlaps`: a file of two clusters comes out wrong.
-/

namespace MugOS.FatTool

open Fat12

/-- `BootSector`, with the same fields as in the boot loader. -/
abbrev BootSector := Fat.BootSector

/-- A disk image, as the tool reads it into memory: its length, and its bytes. -/
structure Image where
  size : ℕ
  byte : ℕ → UInt8

/-- `readSectors(disk, bs, lba, count, buffer_out)`: the bytes that are read. The position is a
product of 32 bits. -/
def readSectors (disk : Image) (bs : BootSector) (lba count : ℕ) : Option (ℕ → UInt8) :=
  let position := lba * bs.bytesPerSector % 2 ^ 32
  if position + bs.bytesPerSector * count ≤ disk.size then some fun i => disk.byte (position + i)
  else none

/-- The first sector after the root directory, which the tool computes when it reads the
directory. -/
def rootDirectoryEnd (bs : BootSector) : ℕ :=
  let lba := bs.reservedSectors + bs.fatCount * bs.sectorsPerFat
  let size := 32 * bs.dirEntryCount
  let sectors := size / bs.bytesPerSector
  let sectors := if size % bs.bytesPerSector > 0 then sectors + 1 else sectors
  lba + sectors

/-- The memory after `n` bytes are stored at `p`. -/
def store (mem : ℕ → UInt8) (p n : ℕ) (bytes : ℕ → UInt8) : ℕ → UInt8 := fun i =>
  if p ≤ i ∧ i < p + n then bytes (i - p) else mem i

/-- The entry of a cluster in the file allocation table. -/
def nextCluster (fat : ℕ → UInt8) (currentCluster : ℕ) : ℕ :=
  let fatIndex := currentCluster + currentCluster / 2
  if currentCluster % 2 = 0 then word16 fat fatIndex &&& 0x0fff else word16 fat fatIndex >>> 4

/-- The loop of `readFile`, from a cluster and with the pointer `output_file` as an offset into the
output; `none` when it does not end within `fuel` rounds. -/
def readFileLoop (disk : Image) (bs : BootSector) (fat : ℕ → UInt8) :
    ℕ → ℕ → ℕ → (ℕ → UInt8) → Option (Bool × (ℕ → UInt8))
  | 0, _, _, _ => none
  | fuel + 1, currentCluster, outputFile, mem =>
      let lba := (((rootDirectoryEnd bs : ℤ) +
        ((currentCluster : ℤ) - 2) * bs.sectorsPerCluster) % 2 ^ 32).toNat
      match readSectors disk bs lba bs.sectorsPerCluster with
      | none => some (false, mem)
      | some bytes =>
          let mem := store mem outputFile (bs.bytesPerSector * bs.sectorsPerCluster) bytes
          let outputFile := outputFile + bs.sectorsPerCluster
          let currentCluster := nextCluster fat currentCluster
          if currentCluster < 0xff8 then
            readFileLoop disk bs fat fuel currentCluster outputFile mem
          else some (true, mem)

/-- `readFile(disk, bs, fat, fileEntry, output_file)`, with what the output holds before. A
loop that does more rounds than there are entries of 12 bits never ends. -/
def readFile (disk : Image) (bs : BootSector) (fat : ℕ → UInt8) (fileEntry : Fat.DirectoryEntry)
    (output : ℕ → UInt8) : Option (Bool × (ℕ → UInt8)) :=
  readFileLoop disk bs fat 0x1000 fileEntry.firstClusterLow 0 output

/-! ### The clusters of the image -/

/-- The number of bytes in a cluster of the image: those of its sectors. -/
def clusterSize (bs : BootSector) : ℕ := bs.bytesPerSector * bs.sectorsPerCluster

/-- Where a cluster starts in the image, in bytes and without a wrap. -/
def clusterStart (bs : BootSector) (c : ℕ) : ℕ :=
  (rootDirectoryEnd bs + (c - 2) * bs.sectorsPerCluster) * bs.bytesPerSector

/-- The byte of a cluster at an offset, as it is in the image. -/
def clusterByte (disk : Image) (bs : BootSector) (c i : ℕ) : UInt8 :=
  disk.byte (clusterStart bs c + i)

/-- The byte that the tool reads for a cluster: its offset in the image is one of 32 bits. -/
def readByte (disk : Image) (bs : BootSector) (c i : ℕ) : UInt8 :=
  disk.byte (clusterStart bs c % 2 ^ 32 + i)

/-- Clusters that are stored one after the other, `step` bytes apart. -/
def written (step size : ℕ) (cluster : ℕ → ℕ → UInt8) :
    List ℕ → ℕ → (ℕ → UInt8) → ℕ → UInt8
  | [], _, mem => mem
  | c :: cs, p, mem => written step size cluster cs (p + step) (store mem p size (cluster c))

/-- A byte of the memory that no cluster is written to stays as it was. -/
theorem written_other {step size : ℕ} {cluster : ℕ → ℕ → UInt8} {cs : List ℕ} {p o : ℕ}
    {mem : ℕ → UInt8} (ho : o < p ∨ ∀ k < cs.length, p + k * step + size ≤ o) :
    written step size cluster cs p mem o = mem o := by
  induction cs generalizing p mem with
  | nil => rfl
  | cons c cs ih =>
      have hnot : ¬ (p ≤ o ∧ o < p + size) := by
        rcases ho with hlt | hge
        · omega
        · have := hge 0 (by simp)
          omega
      rw [written, ih, store, if_neg hnot]
      rcases ho with hlt | hge
      · exact .inl (by omega)
      · refine .inr fun k hk => ?_
        have := hge (k + 1) (by simpa using hk)
        rw [Nat.succ_mul] at this
        omega

/-- **Clusters side by side** stay as they were stored. -/
theorem written_aligned {step size : ℕ} {cluster : ℕ → ℕ → UInt8} {cs : List ℕ}
    (hstep : cs.length = 1 ∨ step = size) {p k i : ℕ} {mem : ℕ → UInt8} (hk : k < cs.length)
    (hi : i < size) :
    written step size cluster cs p mem (p + k * size + i) = cluster (cs.getD k 0) i := by
  induction cs generalizing p k mem with
  | nil => simp at hk
  | cons c cs ih =>
      rw [written]
      cases k with
      | zero =>
          rw [written_other, store, if_pos (by omega), List.getD_cons_zero]
          · congr 1
            omega
          · rcases hstep with hone | rfl
            · obtain rfl : cs = [] := by simpa using hone
              exact .inr fun k hk => absurd hk (by simp)
            · exact .inl (by omega)
      | succ k =>
          have hlong : k < cs.length := by simpa using hk
          obtain rfl : step = size := by
            rcases hstep with hone | hstep
            · have : cs.length = 0 := by simpa using hone
              omega
            · exact hstep
          rw [List.getD_cons_succ, ← ih (.inr rfl) (p := p + step) hlong]
          congr 1
          rw [Nat.succ_mul]
          omega

/-- A cluster that lies in the image is read, from its position modulo `2 ^ 32`. -/
theorem readSectors_cluster {disk : Image} {bs : BootSector} {c : ℕ} (hc : 2 ≤ c)
    (hin : clusterStart bs c + clusterSize bs ≤ disk.size) :
    readSectors disk bs (((rootDirectoryEnd bs : ℤ) +
      ((c : ℤ) - 2) * bs.sectorsPerCluster) % 2 ^ 32).toNat bs.sectorsPerCluster =
        some (readByte disk bs c) := by
  have hlba : (((rootDirectoryEnd bs : ℤ) + ((c : ℤ) - 2) * bs.sectorsPerCluster) % 2 ^ 32).toNat =
      (rootDirectoryEnd bs + (c - 2) * bs.sectorsPerCluster) % 2 ^ 32 := by
    have hcast : (rootDirectoryEnd bs : ℤ) + ((c : ℤ) - 2) * bs.sectorsPerCluster =
        ((rootDirectoryEnd bs + (c - 2) * bs.sectorsPerCluster : ℕ) : ℤ) := by
      push_cast [Nat.cast_sub hc]
      ring
    rw [hcast]
    omega
  have hposition : (rootDirectoryEnd bs + (c - 2) * bs.sectorsPerCluster) % 2 ^ 32 *
      bs.bytesPerSector % 2 ^ 32 = clusterStart bs c % 2 ^ 32 := by
    rw [clusterStart, Nat.mul_mod, Nat.mod_mod, ← Nat.mul_mod]
  have hle := Nat.mod_le (clusterStart bs c) (2 ^ 32)
  rw [clusterSize] at hin
  rw [hlba, readSectors]
  simp only [hposition]
  rw [if_pos (by omega)]
  rfl

/-- **The loop of `readFile`** on a chain of clusters that lie in the image. -/
theorem readFileLoop_eq {disk : Image} {bs : BootSector} {fat : ℕ → UInt8} {cs : List ℕ}
    (hchain : Chain fat cs) (hin : ∀ c ∈ cs, clusterStart bs c + clusterSize bs ≤ disk.size)
    {fuel c p : ℕ} {mem : ℕ → UInt8} (hfuel : cs.length ≤ fuel) (hfirst : cs.head? = some c) :
    readFileLoop disk bs fat fuel c p mem =
      some (true, written bs.sectorsPerCluster (clusterSize bs) (readByte disk bs) cs p mem) := by
  induction hchain generalizing fuel c p mem with
  | last h2 _ hv hend =>
      obtain ⟨fuel, rfl⟩ : ∃ f, fuel = f + 1 := ⟨fuel - 1, by simp at hfuel; omega⟩
      obtain rfl := Option.some.inj hfirst
      have hnext := (nextEntry_packed fat _).unique hv
      rw [readFileLoop, readSectors_cluster h2 (hin _ (by simp))]
      simp only [nextCluster, hnext]
      rw [if_neg (by omega)]
      rfl
  | @cons c₁ c' cs h2 _ hlink htail ih =>
      obtain ⟨fuel, rfl⟩ : ∃ f, fuel = f + 1 := ⟨fuel - 1, by simp at hfuel; omega⟩
      obtain rfl := Option.some.inj hfirst
      have hnext := (nextEntry_packed fat c₁).unique hlink
      have hrange := (htail.range (i := 0) htail.pos).2
      rw [List.getD_cons_zero] at hrange
      rw [readFileLoop, readSectors_cluster h2 (hin c₁ (by simp))]
      simp only [nextCluster, hnext]
      rw [if_pos (by omega)]
      exact ih (fun c hc => hin c (by simp [hc])) (by simpa using hfuel) rfl

/-! ### When the output is the file -/

/-- `readFile` returns `true`, and the output starts with the clusters of the file in order,
whatever it held before. -/
def ReadsWhole (disk : Image) (bs : BootSector) (fat : ℕ → UInt8) (fileEntry : Fat.DirectoryEntry)
    (cs : List ℕ) : Prop :=
  ∀ output, ∃ mem, readFile disk bs fat fileEntry output = some (true, mem) ∧
    ∀ o < cs.length * clusterSize bs,
      mem o = chainByte (clusterSize bs) (clusterByte disk bs) cs o

/-- **When the tool reads a whole file.** For every image, and every entry of a file whose clusters
are chained and lie in the image: `readFile` returns `true` and leaves the clusters of the file in
order in the output, if and only if the file has one cluster or a sector has one byte, and each
cluster has the bytes that are found at its position modulo `2 ^ 32`. -/
theorem readFile_whole_iff {disk : Image} {bs : BootSector} {fat : ℕ → UInt8}
    {fileEntry : Fat.DirectoryEntry} {cs : List ℕ} (hbytes : 1 ≤ bs.bytesPerSector)
    (hspc : 1 ≤ bs.sectorsPerCluster) (hchain : Chain fat cs)
    (hfirst : cs.head? = some fileEntry.firstClusterLow)
    (hin : ∀ c ∈ cs, clusterStart bs c + clusterSize bs ≤ disk.size) :
    ReadsWhole disk bs fat fileEntry cs ↔
      (cs.length = 1 ∨ bs.bytesPerSector = 1) ∧
        ∀ c ∈ cs, ∀ i < clusterSize bs, readByte disk bs c i = clusterByte disk bs c i := by
  have hcs := hchain.pos
  have hread : ∀ output, readFile disk bs fat fileEntry output = some (true,
      written bs.sectorsPerCluster (clusterSize bs) (readByte disk bs) cs 0 output) := fun output =>
    readFileLoop_eq hchain hin (hchain.length_le.trans (by decide)) hfirst
  have hsize : 0 < clusterSize bs := Nat.mul_pos hbytes hspc
  have hplace : ∀ k i, i < clusterSize bs →
      chainByte (clusterSize bs) (clusterByte disk bs) cs (k * clusterSize bs + i) =
        clusterByte disk bs (cs.getD k 0) i := by
    intro k i hi
    rw [chainByte, Nat.mul_comm, Nat.mul_add_div hsize, Nat.div_eq_of_lt hi, Nat.add_zero,
      Nat.mul_add_mod, Nat.mod_eq_of_lt hi]
  constructor
  · intro hwhole
    have hstep : cs.length = 1 ∨ bs.bytesPerSector = 1 := by
      by_contra hnot
      rw [not_or] at hnot
      -- The last byte of the last cluster is not written.
      have hlast : ∀ k < cs.length, 0 + k * bs.sectorsPerCluster + clusterSize bs ≤
          cs.length * clusterSize bs - 1 := by
        intro k hk
        have hkle : k * bs.sectorsPerCluster ≤ (cs.length - 1) * bs.sectorsPerCluster :=
          Nat.mul_le_mul_right _ (by omega)
        have hlonger : (cs.length - 1) * bs.sectorsPerCluster <
            (cs.length - 1) * clusterSize bs := by
          refine Nat.mul_lt_mul_of_pos_left ?_ (by omega)
          rw [clusterSize]
          exact (Nat.lt_mul_iff_one_lt_left hspc).mpr (by omega)
        have hsum : cs.length * clusterSize bs =
            (cs.length - 1) * clusterSize bs + clusterSize bs := by
          rw [← Nat.succ_mul]
          congr 1
          omega
        omega
      obtain ⟨mem, hmem, hall⟩ := hwhole fun _ =>
        chainByte (clusterSize bs) (clusterByte disk bs) cs (cs.length * clusterSize bs - 1) + 1
      rw [hread, Option.some.injEq, Prod.mk.injEq] at hmem
      have hpos : 0 < cs.length * clusterSize bs := Nat.mul_pos hcs hsize
      have hbyte := hall (cs.length * clusterSize bs - 1) (by omega)
      rw [← hmem.2, written_other (.inr hlast)] at hbyte
      exact absurd hbyte (by simp)
    refine ⟨hstep, ?_⟩
    intro c hc i hi
    obtain ⟨k, hk, rfl⟩ := List.mem_iff_getElem.mp hc
    obtain ⟨mem, hmem, hall⟩ := hwhole fun _ => 0
    rw [hread, Option.some.injEq, Prod.mk.injEq] at hmem
    have hlt : k * clusterSize bs + i < cs.length * clusterSize bs := by
      have := Nat.mul_le_mul_right (clusterSize bs) (show k + 1 ≤ cs.length from hk)
      rw [Nat.succ_mul] at this
      omega
    have haligned : cs.length = 1 ∨ bs.sectorsPerCluster = clusterSize bs :=
      hstep.imp_right fun hone => by rw [clusterSize, hone, Nat.one_mul]
    have hbyte := hall _ hlt
    rw [hplace k i hi, ← hmem.2, ← Nat.zero_add (k * clusterSize bs),
      written_aligned haligned hk hi, List.getD_eq_getElem _ _ hk] at hbyte
    exact hbyte
  · rintro ⟨hstep, hsame⟩ output
    refine ⟨_, hread output, fun o ho => ?_⟩
    have haligned : cs.length = 1 ∨ bs.sectorsPerCluster = clusterSize bs :=
      hstep.imp_right fun hone => by rw [clusterSize, hone, Nat.one_mul]
    have hk : o / clusterSize bs < cs.length :=
      Nat.div_lt_of_lt_mul (by rwa [Nat.mul_comm] at ho)
    have hi := Nat.mod_lt o hsize
    have hsplit : o = 0 + o / clusterSize bs * clusterSize bs + o % clusterSize bs := by
      rw [Nat.zero_add, Nat.mul_comm, Nat.div_add_mod]
    rw [chainByte, ← hsame _ (by rw [List.getD_eq_getElem _ _ hk]; exact List.getElem_mem hk) _ hi]
    conv_lhs => rw [hsplit]
    exact written_aligned haligned hk hi

/-! ### A small image -/

/-- A boot sector with sectors of two bytes, one for each cluster. -/
def smallBoot : BootSector := ⟨2, 1, 1, 1, 0, 1⟩

/-- A table that chains the clusters 2 and 3, or ends after cluster 2. -/
def smallFat (next : UInt8) : ℕ → UInt8 :=
  fun i => ([0, 0, 0, next, 0xf0, 0xff] : List UInt8).getD i 0

/-- An image whose bytes count up. -/
def smallImage : Image := ⟨16, fun i => UInt8.ofNat i⟩

/-- The entry of a file that starts at cluster 3. -/
def lastClusterEntry : Fat.DirectoryEntry := ⟨[], 0, 0, 3, 2⟩

/-- The entry of a file that starts at cluster 2. -/
def bothClustersEntry : Fat.DirectoryEntry := ⟨[], 0, 0, 2, 4⟩

/-- The entry of cluster 3 marks the end of the chain. -/
theorem packed_three : Packed 12 (smallFat 3) 3 0xfff := by
  have hpacked := nextEntry_packed (smallFat 3) 3
  rwa [show (if 3 % 2 = 0 then word16 (smallFat 3) (3 + 3 / 2) &&& 0x0fff
    else word16 (smallFat 3) (3 + 3 / 2) >>> 4) = 0xfff by decide] at hpacked

/-- The equivalence at a file of one cluster, which is read as it is. -/
theorem readFile_whole_iff_one :
    ReadsWhole smallImage smallBoot (smallFat 3) lastClusterEntry [3] :=
  (readFile_whole_iff (by decide) (by decide)
    (.last (by decide) (by decide) packed_three (by decide)) rfl (by decide)).mpr
      ⟨.inl rfl, by decide⟩

/-- **A file of two clusters** comes out wrong: its second cluster is written over the second byte
of the first one, and the last byte is not written. -/
theorem readFile_overlaps :
    Chain (smallFat 3) [2, 3] ∧
      ((readFile smallImage smallBoot (smallFat 3) bothClustersEntry fun _ => 0).map fun r =>
        (r.1, (List.range 4).map r.2)) = some (true, [4, 6, 7, 0]) ∧
      ¬ ReadsWhole smallImage smallBoot (smallFat 3) bothClustersEntry [2, 3] := by
  have hpacked := nextEntry_packed (smallFat 3) 2
  rw [show (if 2 % 2 = 0 then word16 (smallFat 3) (2 + 2 / 2) &&& 0x0fff
    else word16 (smallFat 3) (2 + 2 / 2) >>> 4) = 3 by decide] at hpacked
  have hread : ((readFile smallImage smallBoot (smallFat 3) bothClustersEntry fun _ => 0).map
      fun r => (r.1, (List.range 4).map r.2)) = some (true, [4, 6, 7, 0]) := by decide +kernel
  refine ⟨.cons (by decide) (by decide) hpacked
    (.last (by decide) (by decide) packed_three (by decide)), hread, fun hwhole => ?_⟩
  obtain ⟨mem, hmem, hall⟩ := hwhole fun _ => 0
  rw [hmem] at hread
  have hlast := hall 3 (by decide)
  simp only [Option.map_some, Option.some.injEq, Prod.mk.injEq] at hread
  have hzero : mem 3 = 0 := by
    have := congrArg (fun l : List UInt8 => l.getD 3 0) hread.2
    simpa using this
  rw [hzero] at hlast
  exact absurd hlast (by decide +kernel)

end MugOS.FatTool
