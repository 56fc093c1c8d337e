import Mathlib.Data.Nat.Bitwise
import Mathlib.Tactic.Ring
import MugOS.Fat

/-!
# Sectors of the Disk

`DISK_initialize` and `DISK_readSectors` of the second stage, in `disk.c`, and the calls of INT 13h
under them, in `x86.asm`. A sector has a number, and an address of a cylinder, a head and a sector
of a track that is packed into registers. The BIOS is a parameter: whatever it answers to a read,
and does at a reset. That the pointers are not `NULL` is left out, as is the address of the buffer.

## Main results

* `lba_readRegisters`: the address that the BIOS is given is that of the sector.
* `diskReadSectors_spec`: what the BIOS is asked for, how often, and what comes of it.
* `diskReadSectors_agrees`: the disk of the file system is what the BIOS reads.
-/

namespace MugOS.Disk

/-! ### Addresses -/

/-- What INT 13h, function 8, answers: the last cylinder, sector of a track and head. -/
structure Parameters where
  ch : UInt8
  cl : UInt8
  dh : UInt8

/-- `DISK`: a drive, with its number and its geometry. -/
structure Drive where
  id : ℕ
  cylinders : ℕ
  sectors : ℕ
  heads : ℕ
  deriving DecidableEq, Repr

/-- `DISK_initialize(disk, driveNumber)`, and the end of `x86_Disk_GetDriveParameters`. -/
def diskInitialize (driveNumber : ℕ) (p : Parameters) : Drive where
  id := driveNumber
  cylinders := 256 * (p.cl.toNat >>> 6) + p.ch.toNat + 1
  sectors := p.cl.toNat &&& 0x3f
  heads := p.dh.toNat + 1

/-- The registers of INT 13h, function 2, that say what is to be read. -/
structure Registers where
  dl : ℕ
  ch : ℕ
  cl : ℕ
  dh : ℕ
  al : ℕ
  deriving DecidableEq, Repr

/-- The registers that `x86_Disk_Read` sets, with the cylinder split over two of them. -/
def readRegisters (drive cylinder sector head count : ℕ) : Registers where
  dl := drive % 256
  ch := cylinder % 256
  cl := (cylinder / 256 % 256) <<< 6 % 256 ||| (sector % 256 &&& 0x3f)
  dh := head % 256
  al := count % 256

/-- `DISK_LBAtoCHS`: the cylinder, the sector and the head, or `none` at a division by zero. -/
def lbaToCHS (disk : Drive) (lba : ℕ) : Option (ℕ × ℕ × ℕ) :=
  if disk.sectors = 0 ∨ disk.heads = 0 then none
  else some (lba / disk.sectors / disk.heads % 2 ^ 16, (lba % disk.sectors + 1) % 2 ^ 16,
    lba / disk.sectors % disk.heads % 2 ^ 16)

/-! ### Reading -/

/-- A BIOS: the answer to a read, with the bytes or `none` for a failure, and a reset of a drive. -/
structure Bios (σ : Type) where
  read : Registers → σ → Option (ℕ → UInt8) × σ
  reset : ℕ → σ → σ

variable {σ : Type}

/-- The loop of `DISK_readSectors`, for at most `n` reads. -/
def readLoop (bios : Bios σ) (r : Registers) : ℕ → σ → Option (ℕ → UInt8) × σ
  | 0, s => (none, s)
  | n + 1, s =>
      match bios.read r s with
      | (some bytes, s) => (some bytes, s)
      | (none, s) => readLoop bios r n (bios.reset r.dl s)

/-- `DISK_readSectors(disk, lba, n_sectors, dataOut)`; `none` for a division by zero. -/
def diskReadSectors (bios : Bios σ) (disk : Drive) (lba nSectors : ℕ) (s : σ) :
    Option (Option (ℕ → UInt8) × σ) := do
  let (cylinder, sector, head) ← lbaToCHS disk lba
  return readLoop bios (readRegisters disk.id cylinder sector head nSectors) 3 s

/-! ### The address -/

/-- The number of the sector that the BIOS reads first. -/
def Registers.lba (r : Registers) (disk : Drive) : ℕ :=
  ((256 * (r.cl >>> 6) + r.ch) * disk.heads + r.dh) * disk.sectors + ((r.cl &&& 0x3f) - 1)

/-- Masking the six low bits of a number is taking its remainder modulo 64. -/
theorem and_sectorMask (n : ℕ) : n &&& 0x3f = n % 64 := Nat.and_two_pow_sub_one_eq_mod n 6

/-- The register `CL` holds two bits of the cylinder above the six bits of the sector. -/
theorem readRegisters_cl (drive cylinder sector head count : ℕ) :
    (readRegisters drive cylinder sector head count).cl =
      64 * (cylinder / 256 % 4) + sector % 64 := by
  have hlow : sector % 256 % 64 < 2 ^ 6 := Nat.mod_lt _ (by norm_num)
  have hhigh : (cylinder / 256 % 256) <<< 6 % 256 = 2 ^ 6 * (cylinder / 256 % 4) := by
    rw [Nat.shiftLeft_eq]
    omega
  have hcl : (readRegisters drive cylinder sector head count).cl =
      (cylinder / 256 % 256) <<< 6 % 256 ||| (sector % 256 &&& 0x3f) := rfl
  rw [hcl, and_sectorMask, hhigh, ← Nat.two_pow_add_eq_or_of_lt hlow]
  omega

/-- The cylinder that the BIOS reads from `CH` and the high bits of `CL` is the one that was
packed, modulo 1024. -/
theorem readRegisters_cylinder (drive cylinder sector head count : ℕ) :
    256 * ((readRegisters drive cylinder sector head count).cl >>> 6) +
      (readRegisters drive cylinder sector head count).ch = cylinder % 1024 := by
  have hch : (readRegisters drive cylinder sector head count).ch = cylinder % 256 := rfl
  rw [readRegisters_cl, hch, Nat.shiftRight_eq_div_pow]
  omega

/-- The cylinder (of ten bits), the head and the sector of a number make up this number modulo
the size of the drive. -/
theorem mod_address (lba sectors heads : ℕ) :
    (lba / sectors / heads % 1024 * heads + lba / sectors % heads) * sectors + lba % sectors =
      lba % (sectors * (heads * 1024)) := by
  rw [Nat.mod_mul, Nat.mod_mul]
  ring

/-- **The address that the BIOS is given** is that of the sector, as far as ten bits have room for
its cylinder. -/
theorem lba_readRegisters {disk : Drive} (hsectors : disk.sectors < 64) (hheads : disk.heads ≤ 256)
    {lba cylinder sector head : ℕ} (hchs : lbaToCHS disk lba = some (cylinder, sector, head))
    (drive count : ℕ) : (readRegisters drive cylinder sector head count).lba disk =
      lba % (disk.sectors * (disk.heads * 1024)) := by
  rw [lbaToCHS] at hchs
  split at hchs
  case isTrue => simp at hchs
  case isFalse hne =>
    obtain ⟨hs, hh⟩ := not_or.mp hne
    simp only [Option.some.injEq, Prod.mk.injEq] at hchs
    obtain ⟨rfl, rfl, rfl⟩ := hchs
    have hsector := Nat.mod_lt lba (Nat.pos_of_ne_zero hs)
    have hhead := Nat.mod_lt (lba / disk.sectors) (Nat.pos_of_ne_zero hh)
    rw [Registers.lba, readRegisters_cylinder, readRegisters_cl, and_sectorMask, ← mod_address]
    have hdh : (readRegisters drive (lba / disk.sectors / disk.heads % 2 ^ 16)
        ((lba % disk.sectors + 1) % 2 ^ 16) (lba / disk.sectors % disk.heads % 2 ^ 16) count).dh =
          lba / disk.sectors % disk.heads := by
      simp only [readRegisters]
      omega
    have hcylinder : lba / disk.sectors / disk.heads % 2 ^ 16 % 1024 =
        lba / disk.sectors / disk.heads % 1024 := Nat.mod_mod_of_dvd _ (by norm_num)
    rw [hdh, hcylinder]
    congr 1
    omega

/-! ### The reads -/

/-- The state before read number `k`, where those before it failed. -/
def before (bios : Bios σ) (r : Registers) (s : σ) : ℕ → σ
  | 0 => s
  | k + 1 => bios.reset r.dl (bios.read r (before bios r s k)).2

/-- The state before read number `k + 1` is that before read number `k`, started after the
first read and its reset. -/
theorem before_succ (bios : Bios σ) (r : Registers) (s : σ) (k : ℕ) :
    before bios r s (k + 1) = before bios r (bios.reset r.dl (bios.read r s).2) k := by
  induction k with
  | zero => rfl
  | succ k ih => rw [before, ih, before]

/-- **The reads of the loop**: it ends with the bytes of the first read that succeeds, in the state
behind that read; or all `n` reads fail, and it ends in the state behind the last reset. -/
theorem readLoop_spec (bios : Bios σ) (r : Registers) (n : ℕ) (s : σ) :
    (∃ k < n, ∃ bytes, (∀ j < k, (bios.read r (before bios r s j)).1 = none) ∧
      (bios.read r (before bios r s k)).1 = some bytes ∧
      readLoop bios r n s = (some bytes, (bios.read r (before bios r s k)).2)) ∨
    ((∀ j < n, (bios.read r (before bios r s j)).1 = none) ∧
      readLoop bios r n s = (none, before bios r s n)) := by
  induction n generalizing s with
  | zero => exact .inr ⟨fun j hj => absurd hj (Nat.not_lt_zero j), rfl⟩
  | succ n ih =>
      rw [readLoop]
      obtain ⟨answer, s', hread⟩ : ∃ answer s', bios.read r s = (answer, s') := ⟨_, _, rfl⟩
      cases answer with
      | some found =>
          refine .inl ⟨0, Nat.succ_pos n, found, fun j hj => absurd hj (Nat.not_lt_zero j), ?_, ?_⟩
          · rw [before, hread]
          · rw [before, hread]
      | none =>
          have hnext : ∀ k, before bios r s (k + 1) =
              before bios r (bios.reset r.dl s') k := fun k => by rw [before_succ, hread]
          -- The first read fails, and the others are those of the loop behind the reset.
          have hfailed : ∀ k,
              (∀ j < k, (bios.read r (before bios r (bios.reset r.dl s') j)).1 = none) →
              ∀ j < k + 1, (bios.read r (before bios r s j)).1 = none := by
            intro k hk j hj
            cases j with
            | zero => rw [before, hread]
            | succ j => rw [hnext]; exact hk j (Nat.lt_of_succ_lt_succ hj)
          rw [hread]
          rcases ih (bios.reset r.dl s') with ⟨k, hk, bytes, hbefore, hbytes, hloop⟩ | ⟨hall, hloop⟩
          · exact .inl ⟨k + 1, Nat.succ_lt_succ hk, bytes, hfailed k hbefore,
              by rw [hnext]; exact hbytes, by rw [hnext]; exact hloop⟩
          · exact .inr ⟨hfailed n hall, by rw [hnext]; exact hloop⟩

/-! ### Sectors -/

/-- The geometry that the driver computes from the BIOS fits into the registers: fewer than 64
sectors, at most 256 heads and 1024 cylinders. -/
theorem diskInitialize_bounds (driveNumber : ℕ) (p : Parameters) :
    (diskInitialize driveNumber p).sectors < 64 ∧ (diskInitialize driveNumber p).heads ≤ 256 ∧
      (diskInitialize driveNumber p).cylinders ≤ 1024 := by
  have hch := p.ch.toNat_lt
  have hcl := p.cl.toNat_lt
  have hdh := p.dh.toNat_lt
  simp only [diskInitialize, and_sectorMask, Nat.shiftRight_eq_div_pow]
  omega

/-- The registers with which a drive is read whose parameters the BIOS gave. -/
theorem diskReadSectors_eq (bios : Bios σ) {driveNumber : ℕ} {p : Parameters} {disk : Drive}
    (hdisk : disk = diskInitialize driveNumber p) (hsectors : disk.sectors ≠ 0)
    (lba nSectors : ℕ) (s : σ) :
    ∃ r, diskReadSectors bios disk lba nSectors s = some (readLoop bios r 3 s) ∧
      r.dl = driveNumber % 256 ∧ r.al = nSectors % 256 ∧
      (lba < disk.sectors * (disk.heads * disk.cylinders) → r.lba disk = lba) := by
  obtain ⟨hlt, hheads, hcylinders⟩ := diskInitialize_bounds driveNumber p
  rw [← hdisk] at hlt hheads hcylinders
  have hpos : ¬ (disk.sectors = 0 ∨ disk.heads = 0) := by
    refine not_or.mpr ⟨hsectors, ?_⟩
    rw [hdisk]
    exact Nat.succ_ne_zero _
  cases hchs : lbaToCHS disk lba with
  | none =>
      rw [lbaToCHS, if_neg hpos] at hchs
      simp at hchs
  | some chs =>
      obtain ⟨cylinder, sector, head⟩ := chs
      refine ⟨readRegisters disk.id cylinder sector head nSectors, ?_, ?_, rfl, fun hlba => ?_⟩
      · rw [diskReadSectors, hchs]
        rfl
      · rw [hdisk]
        rfl
      · rw [lba_readRegisters hlt hheads hchs]
        refine Nat.mod_eq_of_lt (hlba.trans_le ?_)
        exact Nat.mul_le_mul_left _ (Nat.mul_le_mul_left _ hcylinders)

/-- **Reading sectors** of a drive whose parameters the BIOS gave, with any BIOS: a division by zero
where it gave no sectors; else the BIOS is asked for the same sectors at most three times, with a
reset after each failure. After the first success nothing more is asked, and its bytes count; after
three failures and resets there are none. The sectors are those from `lba` on, where the drive has
`lba`. -/
theorem diskReadSectors_spec (bios : Bios σ) (driveNumber : ℕ) (p : Parameters)
    (lba nSectors : ℕ) (s : σ) :
    let disk := diskInitialize driveNumber p
    if disk.sectors = 0 then diskReadSectors bios disk lba nSectors s = none
    else ∃ r out, diskReadSectors bios disk lba nSectors s = some out ∧
      r.dl = driveNumber % 256 ∧ r.al = nSectors % 256 ∧
      (lba < disk.sectors * (disk.heads * disk.cylinders) → r.lba disk = lba) ∧
      ((∃ k < 3, ∃ bytes, (∀ j < k, (bios.read r (before bios r s j)).1 = none) ∧
          (bios.read r (before bios r s k)).1 = some bytes ∧
          out = (some bytes, (bios.read r (before bios r s k)).2)) ∨
        ((∀ j < 3, (bios.read r (before bios r s j)).1 = none) ∧
          out = (none, before bios r s 3))) := by
  intro disk
  split
  case isTrue hzero =>
    rw [diskReadSectors, lbaToCHS, if_pos (.inl hzero)]
    rfl
  case isFalse hne =>
    obtain ⟨r, hread, hdl, hal, hlba⟩ := diskReadSectors_eq bios rfl hne lba nSectors s
    exact ⟨r, _, hread, hdl, hal, hlba, readLoop_spec bios r 3 s⟩

/-! ### The disk of the file system -/

/-- A BIOS whose reads, where they succeed, give the bytes of a disk of the file system. -/
def Serves (bios : Bios σ) (drive : Drive) (disk : Fat.Disk) : Prop :=
  ∀ r s bytes, (bios.read r s).1 = some bytes →
    Fat.readSectors disk (r.lba drive) r.al = some bytes

/-- **The file system reads its disk**: what `DISK_readSectors` copies is what `Fat.readSectors`
does, where the drive has the sector. -/
theorem diskReadSectors_agrees {bios : Bios σ} {driveNumber : ℕ} {p : Parameters} {drive : Drive}
    (hdrive : drive = diskInitialize driveNumber p) (hsectors : drive.sectors ≠ 0)
    {disk : Fat.Disk} (hserves : Serves bios drive disk) {lba nSectors : ℕ}
    (hlba : lba < drive.sectors * (drive.heads * drive.cylinders)) (hcount : nSectors < 256)
    {s : σ} {out : Option (ℕ → UInt8) × σ}
    (hout : diskReadSectors bios drive lba nSectors s = some out)
    {bytes : ℕ → UInt8} (hbytes : out.1 = some bytes) :
    Fat.readSectors disk lba nSectors = some bytes := by
  obtain ⟨r, hread, -, hal, haddress⟩ := diskReadSectors_eq bios hdrive hsectors lba nSectors s
  rw [hread] at hout
  obtain rfl := Option.some.inj hout
  rcases readLoop_spec bios r 3 s with ⟨k, -, found, -, hk, hloop⟩ | ⟨-, hloop⟩
  · rw [hloop] at hbytes
    obtain rfl : found = bytes := Option.some.inj hbytes
    have hserved := hserves r _ found hk
    rwa [haddress hlba, hal, Nat.mod_eq_of_lt hcount] at hserved
  · rw [hloop] at hbytes
    exact nomatch hbytes

end MugOS.Disk
