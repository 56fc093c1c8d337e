import MugOS.FatOpen
import MugOS.Lib.Run

/-!
# What `FAT_open` Remembers

All lookups of paths start in the root directory, which is one open file that they share.
`FAT_close` sets its position and its sector back, but not its buffer, which holds another sector
when a lookup went past the first one. As long as no call leaves the first sector of the root
directory, its state is the same before every call, and `FAT_open` does not depend on the calls
before.

## Main results

* `AsMounted.step`: a call that stays in the first sector leaves the root directory as it was.
* `openLoop_agrees`: which handles are free makes no difference.
* `fatOpen_history`: after runs of such calls, `FAT_open` returns the same.
* `fatOpen_forgets`: a lookup in the second sector hides the files of the first one.
-/

namespace MugOS.Fat

open Fat12

variable {disk : Disk} {vol : Volume}

/-! ### The number of a handle -/

/-- The record of a file, entered under another handle. -/
def FileInternal.rename (j : Fin maxFileHandles) (fd : FileInternal) : FileInternal :=
  { fd with handle := .file j }

/-- The outcome of a refill, with the file entered under another handle. -/
def Refill.rename (j : Fin maxFileHandles) : Refill → Refill
  | .more fd => .more (fd.rename j)
  | .stop fd => .stop (fd.rename j)
  | .failed fd => .failed (fd.rename j)

/-- The file that a refill leaves. -/
def Refill.fd : Refill → FileInternal
  | .more fd => fd
  | .stop fd => fd
  | .failed fd => fd

/-- A refill does not look at the number of the handle, and keeps it. -/
theorem refill_rename {fd : FileInternal} {i : Fin maxFileHandles} (h : fd.handle = .file i)
    (j : Fin maxFileHandles) :
    refill vol disk (fd.rename j) = (refill vol disk fd).rename j ∧
      (refill vol disk fd).fd.handle = .file i := by
  obtain ⟨c, s, hadvance⟩ : ∃ c s, advance vol fd.curCluster fd.curSectorInCluster = (c, s) :=
    ⟨_, _, rfl⟩
  have hrenamed : refill vol disk (fd.rename j) = _ := refill_file (h := j) rfl hadvance
  rw [refill_file h hadvance, hrenamed]
  split
  · exact ⟨rfl, h⟩
  · split
    · exact ⟨rfl, h⟩
    · exact ⟨rfl, h⟩

/-- The loop of `FAT_read` does not look at it either. -/
theorem readLoop_rename {fd : FileInternal} {i : Fin maxFileHandles} (h : fd.handle = .file i)
    (j : Fin maxFileHandles) (fuel n : ℕ) (out : List UInt8) :
    ∃ r, readLoop vol disk fuel fd n out = r ∧ r.fd.handle = .file i ∧
      readLoop vol disk fuel (fd.rename j) n out = { r with fd := r.fd.rename j } := by
  induction fuel generalizing fd n out with
  | zero => exact ⟨_, rfl, h, rfl⟩
  | succ fuel ih =>
      rw [readLoop, readLoop]
      split
      · exact ⟨_, rfl, h, rfl⟩
      · have hstore : ∀ p, ({ fd.rename j with position := p } : FileInternal) =
            ({ fd with position := p } : FileInternal).rename j := fun _ => rfl
        have hposition : (fd.rename j).position = fd.position := rfl
        have hbuffer : (fd.rename j).buffer = fd.buffer := rfl
        simp only [hstore]
        simp only [hposition, hbuffer]
        generalize (if n < sectorSize - fd.position % sectorSize then n
          else sectorSize - fd.position % sectorSize) = take
        set fd₁ : FileInternal := { fd with position := (fd.position + take) % 2 ^ 32 } with hfd₁
        have h₁ : fd₁.handle = .file i := h
        split
        · exact ih h₁ _ _
        · obtain ⟨hrename, hhandle⟩ := refill_rename h₁ j
          rw [hrename]
          cases hrefill : refill vol disk fd₁ with
          | more fd' =>
              rw [hrefill] at hhandle
              exact ih hhandle _ _
          | stop fd' =>
              rw [hrefill] at hhandle
              exact ⟨_, rfl, hhandle, rfl⟩
          | failed fd' =>
              rw [hrefill] at hhandle
              exact ⟨_, rfl, hhandle, rfl⟩

/-- Reading an entry through another handle gives the same entry, and a file that differs in
the handle only. -/
theorem readEntry_rename {fd : FileInternal} {i : Fin maxFileHandles} (h : fd.handle = .file i)
    (j : Fin maxFileHandles) :
    ∃ e fd', readEntry vol disk fd = (e, fd') ∧ fd'.handle = .file i ∧
      readEntry vol disk (fd.rename j) = (e, fd'.rename j) := by
  set n := if !fd.isDirectory || (fd.isDirectory && fd.size != 0) then
      (if entrySize < (fd.size + 2 ^ 32 - fd.position) % 2 ^ 32 then entrySize
        else (fd.size + 2 ^ 32 - fd.position) % 2 ^ 32)
    else entrySize with hn
  obtain ⟨r, hr, hhandle, hrename⟩ := readLoop_rename h j n n []
  have hread : readFd vol disk fd entrySize = r := hr
  have hread' : readFd vol disk (fd.rename j) entrySize = { r with fd := r.fd.rename j } := hrename
  rw [readEntry, readEntry, hread, hread']
  simp only
  split
  · exact ⟨_, _, rfl, hhandle, rfl⟩
  · exact ⟨_, _, rfl, hhandle, rfl⟩

/-- **A file is found under any number of the handle.** -/
theorem findLoop_rename {fd : FileInternal} {i : Fin maxFileHandles} (h : fd.handle = .file i)
    (j : Fin maxFileHandles) (fatName : List UInt8) (fuel : ℕ) :
    (findLoop vol disk fatName fuel (fd.rename j)).1 = (findLoop vol disk fatName fuel fd).1 := by
  induction fuel generalizing fd with
  | zero => rfl
  | succ fuel ih =>
      obtain ⟨e, fd', hread, hhandle, hrename⟩ := readEntry_rename h j
      rw [findLoop, findLoop, hread, hrename]
      cases e with
      | none => rfl
      | some e =>
          simp only
          split
          · rfl
          · exact ih hhandle

/-! ### Which handles are free -/

/-- Two calls of `FAT_open` return the same: `NULL`, or handles with the same first cluster, size
and directory flag. -/
def Agree : Except Fault Opened → Except Fault Opened → Prop
  | .ok o₁, .ok o₂ =>
      match o₁.file, o₂.file with
      | none, none => True
      | some h₁, some h₂ =>
          (o₁.data.fd h₁).firstCluster = (o₂.data.fd h₂).firstCluster ∧
            (o₁.data.fd h₁).size = (o₂.data.fd h₂).size ∧
            (o₁.data.fd h₁).isDirectory = (o₂.data.fd h₂).isDirectory
      | _, _ => False
  | .error f₁, .error f₂ => f₁ = f₂
  | _, _ => False

/-- Two files that differ in the number of the handle only. -/
def Alike (d₁ : Data) (h₁ : Handle) (d₂ : Data) (h₂ : Handle) : Prop :=
  (h₁ = .root ∧ h₂ = .root ∧ d₁.rootDir = d₂.rootDir) ∨
    ∃ i j k, h₁ = .file i ∧ h₂ = .file j ∧ (d₁.fd h₁).handle = .file k ∧
      d₂.fd h₂ = (d₁.fd h₁).rename j

/-- Files that are alike, through whatever handles, have the same first cluster and size and
are both directories or both not. -/
theorem Alike.same {d₁ d₂ : Data} {h₁ h₂ : Handle} (h : Alike d₁ h₁ d₂ h₂) :
    (d₁.fd h₁).firstCluster = (d₂.fd h₂).firstCluster ∧
      (d₁.fd h₁).size = (d₂.fd h₂).size ∧ (d₁.fd h₁).isDirectory = (d₂.fd h₂).isDirectory := by
  rcases h with ⟨rfl, rfl, hroot⟩ | ⟨i, j, k, -, -, -, hrename⟩
  · simp [Data.fd, hroot]
  · rw [hrename]
    exact ⟨rfl, rfl, rfl⟩

/-- The search for a name in two alike directories finds the same entry, or nothing in both. -/
theorem Alike.findFile {d₁ d₂ : Data} {h₁ h₂ : Handle} (h : Alike d₁ h₁ d₂ h₂) (vol : Volume)
    (disk : Disk) (name : ℕ → UInt8) :
    (findFile vol disk (d₂.fd h₂) name).1 = (findFile vol disk (d₁.fd h₁) name).1 := by
  rcases h with ⟨rfl, rfl, hroot⟩ | ⟨i, j, k, -, -, hhandle, hrename⟩
  · simp [Data.fd, hroot]
  · rw [hrename]
    exact findLoop_rename hhandle j _ _

/-- A handle to use next: one is free, or the current file has one. -/
def HasHandle (data : Data) (h : Handle) : Prop :=
  (∃ i, (data.openedFiles i).isOpened = false) ∨ ∃ i, h = .file i

/-- **Which handles are free makes no difference**: the loop of `FAT_open` returns the same from
alike files. -/
theorem openLoop_agrees (hreads : ∀ lba, (disk lba).isSome) {fuel : ℕ} {d₁ d₂ : Data}
    {name : ℕ → UInt8} {h₁ h₂ : Handle} {path : List UInt8} {l₁ l₂ : List Lookup}
    (hvol : d₁.toVolume = d₂.toVolume) (halike : Alike d₁ h₁ d₂ h₂) (hfree₁ : HasHandle d₁ h₁)
    (hfree₂ : HasHandle d₂ h₂) :
    Agree (openLoop disk fuel d₁ name (some h₁) path l₁)
      (openLoop disk fuel d₂ name (some h₂) path l₂) := by
  induction fuel generalizing d₁ d₂ name h₁ h₂ path l₁ l₂ with
  | zero => rfl
  | succ fuel ih =>
      rw [openLoop, openLoop]
      split
      · exact halike.same
      simp only
      split
      · rfl
      set name' := storeName name (path.takeWhile (· != 47))
      have hfound := halike.findFile d₁.toVolume disk name'
      rw [← hvol]
      rcases hfind₁ : findFile d₁.toVolume disk (d₁.fd h₁) name' with ⟨found, fd₁⟩
      rcases hfind₂ : findFile d₁.toVolume disk (d₂.fd h₂) name' with ⟨found', fd₂⟩
      rw [hfind₁, hfind₂] at hfound
      obtain rfl : found' = found := hfound
      cases found' with
      | none => trivial
      | some entry =>
          simp only
          split
          · trivial
          · obtain ⟨i, hi⟩ := exists_freeHandle (exists_free_fatClose d₁ hfree₁ fd₁)
            obtain ⟨j, hj⟩ := exists_freeHandle (exists_free_fatClose d₂ hfree₂ fd₂)
            obtain ⟨b₁, hb₁, hopen₁⟩ :=
              openEntry_eq hreads (fatClose (d₁.setFd h₁ fd₁) h₁) entry
            obtain ⟨b₂, hb₂, hopen₂⟩ :=
              openEntry_eq hreads (fatClose (d₂.setFd h₂ fd₂) h₂) entry
            simp only [toVolume_fatClose, Data.toVolume_setFd] at hb₁ hb₂
            rw [← hvol, hb₁] at hb₂
            obtain rfl := Option.some.inj hb₂
            rw [hopen₁, hopen₂, hi, hj]
            refine ih (by simpa using hvol) (.inr ⟨i, j, i, rfl, rfl, ?_, ?_⟩) (.inr ⟨i, rfl⟩)
              (.inr ⟨j, rfl⟩)
            · rw [Data.fd_setFd]
              rfl
            · rw [Data.fd_setFd, Data.fd_setFd]
              rfl

/-! ### The root directory -/

/-- The volume and the root directory are as `FAT_initialize` left them. -/
structure AsMounted (data₀ data : Data) : Prop where
  volume : data.toVolume = data₀.toVolume
  rootDir : data.rootDir = data₀.rootDir

/-- A lookup of a name in the root directory ends in its first sector, before the last entry in
it: the directory ends there, or one of the first 15 entries has the name. -/
def StaysInSector (disk : Disk) (vol : Volume) (fatName : List UInt8) : Prop :=
  (1 ≤ vol.bootSector.dirEntryCount ∧ vol.bootSector.dirEntryCount < 16) ∨
    ∃ m < 15, (vol.bootSector.dirEntryCount ≠ 0 → m < vol.bootSector.dirEntryCount) ∧
      fatName = (slotAt (rootByte disk vol) m).name

/-- An entry that is not the last one of a sector is read from the buffer: the position moves
on by 32 bytes, and no sector is read. -/
theorem readEntry_inSector {fd : FileInternal} {k : ℕ} (hpos : fd.position = entrySize * k)
    (hk : k < 15) (hdir : fd.isDirectory = true)
    (hsize : fd.size = 0 ∨ entrySize * (k + 1) ≤ fd.size) (hword : fd.size < 2 ^ 32) :
    readEntry vol disk fd =
      (some (slotAt fd.buffer k), { fd with position := entrySize * (k + 1) }) := by
  have hcount : (if !fd.isDirectory || (fd.isDirectory && fd.size != 0) then
      (if entrySize < (fd.size + 2 ^ 32 - fd.position) % 2 ^ 32 then entrySize
        else (fd.size + 2 ^ 32 - fd.position) % 2 ^ 32)
      else entrySize) = entrySize := by
    rw [hdir, hpos]
    rcases hsize with h0 | hle
    · simp [h0]
    · have htemp : (fd.size + 2 ^ 32 - entrySize * k) % 2 ^ 32 = fd.size - entrySize * k := by
        simp only [entrySize] at *
        omega
      rw [htemp]
      simp only [entrySize] at *
      split_ifs <;> omega
  have hread : readFd vol disk fd entrySize =
      ⟨entrySize, slice fd.buffer (entrySize * k) entrySize,
        { fd with position := entrySize * (k + 1) }⟩ := by
    rw [readFd]
    simp only [hcount]
    have hmod : entrySize * k % sectorSize = entrySize * k := Nat.mod_eq_of_lt (by
      simp only [entrySize, sectorSize]
      omega)
    have hleft : entrySize < sectorSize - entrySize * k := by
      simp only [entrySize, sectorSize]
      omega
    have hword' : (entrySize * k + entrySize) % 2 ^ 32 = entrySize * (k + 1) := by
      simp only [entrySize]
      omega
    rw [show entrySize = 31 + 1 from rfl, readLoop, ← show entrySize = 31 + 1 from rfl,
      if_neg (by decide)]
    simp only [hpos, hmod, if_pos hleft, if_pos hleft.ne', Nat.sub_self, readLoop_zero, hword']
    simp [slice]
  exact readEntry_some hread

/-- **A lookup that stays in the first sector** moves the position and nothing else. -/
theorem findLoop_inSector {fd : FileInternal} (hdir : fd.isDirectory = true)
    (hsize : fd.size = entrySize * vol.bootSector.dirEntryCount)
    (hword : vol.bootSector.dirEntryCount < 2 ^ 16) {name : List UInt8} {fuel k : ℕ}
    (hstays : (1 ≤ vol.bootSector.dirEntryCount ∧ vol.bootSector.dirEntryCount < 16 ∧
        k ≤ vol.bootSector.dirEntryCount) ∨
      ∃ m, k ≤ m ∧ m < 15 ∧
        (vol.bootSector.dirEntryCount ≠ 0 → m < vol.bootSector.dirEntryCount) ∧
        name = (slotAt fd.buffer m).name) :
    ∃ p, (findLoop vol disk name fuel { fd with position := entrySize * k }).2 =
      { fd with position := p } := by
  induction fuel generalizing k with
  | zero => exact ⟨_, rfl⟩
  | succ fuel ih =>
      have hplace : (1 ≤ vol.bootSector.dirEntryCount ∧ vol.bootSector.dirEntryCount < 16 ∧
          k ≤ vol.bootSector.dirEntryCount) ∨
          k < 15 ∧ (vol.bootSector.dirEntryCount ≠ 0 → k < vol.bootSector.dirEntryCount) := by
        rcases hstays with hsmall | ⟨m, hm, h15, hlt, -⟩
        · exact .inl hsmall
        · exact .inr ⟨by omega, fun hne => hm.trans_lt (hlt hne)⟩
      have hcases : k < 15 ∧ (fd.size = 0 ∨ entrySize * (k + 1) ≤ fd.size) ∨
          fd.size ≠ 0 ∧ entrySize * k = fd.size := by
        clear hstays ih
        simp only [entrySize] at *
        omega
      have hpos : ({ fd with position := entrySize * k } : FileInternal).position =
        entrySize * k := rfl
      rw [findLoop]
      rcases hcases with ⟨hk, hroom⟩ | ⟨hne, hend⟩
      · rw [readEntry_inSector hpos hk hdir hroom
          (by simp only [hsize, entrySize]; omega)]
        simp only
        split
        · exact ⟨_, rfl⟩
        · rename_i hname
          refine ih ?_
          rcases hstays with ⟨h1, h16, hle⟩ | ⟨m, hm, h15, hlt, hslot⟩
          · refine .inl ⟨h1, h16, ?_⟩
            simp only [entrySize] at *
            omega
          · refine .inr ⟨m, ?_, h15, hlt, hslot⟩
            rcases Nat.lt_or_eq_of_le hm with hlt | rfl
            · exact hlt
            · exact absurd hslot hname
      · rw [readEntry_none
          (show ({ fd with position := entrySize * k } : FileInternal).size ≠ 0 from hne) hend]
        exact ⟨_, rfl⟩

/-! ### Calls -/

/-- The calls of the driver, with the arguments that the callers choose. -/
inductive Call
  | fatOpen (filepath : List UInt8)
  | fatRead (h : Handle) (byteCount : ℕ)
  | fatClose (h : Handle)

/-- There are two free handles, as many as a call of `FAT_open` holds at once. -/
def TwoFree (data : Data) : Prop :=
  ∃ i j, i ≠ j ∧ (data.openedFiles i).isOpened = false ∧ (data.openedFiles j).isOpened = false

/-- A call in a state with two free handles, and the state after it. -/
def Step (disk : Disk) (data : Data) (c : Call) (data' : Data) : Prop :=
  TwoFree data ∧
    match c with
    | .fatOpen filepath => ∃ o, fatOpen disk data filepath = .ok o ∧ o.data = data'
    | .fatRead h byteCount =>
        (data.fd h).isOpened = true ∧ (fatRead disk data h byteCount).2.2 = data'
    | .fatClose h => fatClose data h = data'

/-- The first name that `FAT_open` looks for, in the root directory. -/
def firstName (filepath : List UInt8) : Option (List UInt8) :=
  let filepath := if filepath.head? = some 47 then filepath.tail else filepath
  if filepath = [] then none
  else some (fatName (storeName (fun _ => 0) (filepath.takeWhile (· != 47))))

/-- The call does not leave the first sector of the root directory: the first lookup of a path ends
there, and nothing is read from the root directory itself. -/
def Contained (disk : Disk) (vol : Volume) : Call → Prop
  | .fatOpen filepath => ∀ name, firstName filepath = some name → StaysInSector disk vol name
  | .fatRead h byteCount => h = .root → byteCount = 0
  | .fatClose _ => True

/-- Opening an entry leaves the volume and the root directory alone. -/
theorem openEntry_frame (disk : Disk) (data : Data) (entry : DirectoryEntry) :
    (openEntry disk data entry).1 ≠ some .root ∧
      (openEntry disk data entry).2.toVolume = data.toVolume ∧
      (openEntry disk data entry).2.rootDir = data.rootDir := by
  unfold openEntry
  split
  · simp
  · simp only
    split <;> simp [Data.setFd]

/-- The loop of `FAT_open` leaves the volume and the root directory alone, once it is past the root
directory. -/
theorem openLoop_frame {fuel : ℕ} {data : Data} {name : ℕ → UInt8} {cur : Option Handle}
    {path : List UInt8} {lookups : List Lookup} {o : Opened} (hcur : cur ≠ some .root)
    (h : openLoop disk fuel data name cur path lookups = .ok o) :
    AsMounted data o.data := by
  induction fuel generalizing data name cur path lookups with
  | zero => cases h
  | succ fuel ih =>
      rw [openLoop] at h
      split at h
      · obtain rfl := Except.ok.inj h
        exact ⟨rfl, rfl⟩
      simp only at h
      split at h
      · cases h
      split at h
      · cases h
      · rename_i hd
        cases hd with
        | root => exact absurd rfl hcur
        | file i =>
            rcases hfind : findFile data.toVolume disk (data.fd (.file i))
              (storeName name (path.takeWhile (· != 47))) with ⟨_ | entry, fd⟩
            · simp only [hfind] at h
              obtain rfl := Except.ok.inj h
              exact ⟨by simp, rfl⟩
            · simp only [hfind] at h
              split at h
              · obtain rfl := Except.ok.inj h
                exact ⟨by simp, rfl⟩
              · obtain ⟨hne, hvol, hroot⟩ :=
                  openEntry_frame disk (fatClose (data.setFd (.file i) fd) (.file i)) entry
                obtain ⟨hvol', hroot'⟩ := ih hne h
                exact ⟨hvol'.trans (hvol.trans (by simp)), hroot'.trans hroot⟩

/-- The root directory after `FAT_initialize` has its first sector in the buffer. -/
theorem rootDir_buffer {before data₀ : Data} (hinit : fatInitialize disk before = some data₀)
    {m : ℕ} (hm : m < 16) :
    slotAt data₀.rootDir.buffer m = slotAt (rootByte disk data₀.toVolume) m := by
  obtain ⟨-, ⟨buffer, hbuffer, hfd⟩, -⟩ := fatInitialize_eq hinit
  refine ofBytes_congr fun i hi => ?_
  have hdiv : (entrySize * m + i) / sectorSize = 0 := by
    simp only [entrySize, sectorSize] at *
    omega
  have hmod : (entrySize * m + i) % sectorSize = entrySize * m + i := by
    simp only [entrySize, sectorSize] at *
    omega
  rw [rootByte, hdiv, hmod, Nat.add_zero, hbuffer, hfd]
  rfl

/-- **A path whose first lookup stays in the first sector** leaves the root directory as it was. -/
theorem AsMounted.fatOpen {before data₀ data : Data}
    (hinit : fatInitialize disk before = some data₀) (h : AsMounted data₀ data)
    {filepath : List UInt8} (hstays : ∀ name, firstName filepath = some name →
      StaysInSector disk data₀.toVolume name) {o : Opened}
    (hopen : fatOpen disk data filepath = .ok o) : AsMounted data₀ o.data := by
  simp only [Fat.fatOpen] at hopen
  simp only [firstName] at hstays
  generalize (if filepath.head? = some 47 then filepath.tail else filepath) = path
    at hopen hstays
  rw [openLoop] at hopen
  split at hopen
  · obtain rfl := Except.ok.inj hopen
    exact h
  rename_i hpath
  have hin := hstays _ (if_neg hpath)
  simp only at hopen
  split at hopen
  · cases hopen
  set name := storeName (fun _ => 0) (path.takeWhile (· != 47))
  obtain ⟨-, ⟨buffer, -, hfd⟩, -⟩ := fatInitialize_eq hinit
  -- The lookup moves the position, and closing the root directory sets it back.
  have hdir : data.rootDir.isDirectory = true := by rw [h.rootDir, hfd]
  have hsize : data.rootDir.size = entrySize * data.toVolume.bootSector.dirEntryCount := by
    rw [h.rootDir, hfd, h.volume]
  have hword : data.toVolume.bootSector.dirEntryCount < 2 ^ 16 := by
    rw [h.volume]
    exact (Mounts.bounds ⟨before, data₀, hinit, rfl⟩).2.1
  have hplace : (1 ≤ data.toVolume.bootSector.dirEntryCount ∧
      data.toVolume.bootSector.dirEntryCount < 16 ∧ 0 ≤ data.toVolume.bootSector.dirEntryCount) ∨
      ∃ m, 0 ≤ m ∧ m < 15 ∧ (data.toVolume.bootSector.dirEntryCount ≠ 0 →
        m < data.toVolume.bootSector.dirEntryCount) ∧
        fatName name = (slotAt data.rootDir.buffer m).name := by
    rw [h.volume, h.rootDir]
    rcases hin with ⟨h1, h16⟩ | ⟨m, h15, hlt, hslot⟩
    · exact .inl ⟨h1, h16, Nat.zero_le _⟩
    · exact .inr ⟨m, Nat.zero_le _, h15, hlt, by rwa [rootDir_buffer hinit (by omega)]⟩
  obtain ⟨p, hp⟩ : ∃ p, (findLoop data.toVolume disk (fatName name) 257
      { data.rootDir with position := entrySize * 0 }).2 = { data.rootDir with position := p } :=
    findLoop_inSector hdir hsize hword hplace
  have hstart :
      ({ data.rootDir with position := entrySize * 0 } : FileInternal) = data.rootDir := by
    rw [h.rootDir, hfd]
    rfl
  have hclose : AsMounted data₀ (Fat.fatClose
      (data.setFd .root { data.rootDir with position := p }) .root) := by
    refine ⟨by simpa using h.volume, ?_⟩
    simp only [Fat.fatClose, Data.setFd, h.rootDir, hfd]
  rw [hstart] at hp
  rcases hfind : findFile data.toVolume disk (data.fd .root) name with ⟨found, fd⟩
  obtain rfl : fd = { data.rootDir with position := p } := by
    rw [← hp]
    exact (congrArg Prod.snd hfind).symm
  rw [hfind] at hopen
  cases found with
  | none =>
      obtain rfl := Except.ok.inj hopen
      exact hclose
  | some entry =>
      simp only at hopen
      split at hopen
      · obtain rfl := Except.ok.inj hopen
        exact hclose
      · obtain ⟨hne, hvol, hroot⟩ := openEntry_frame disk
          (Fat.fatClose (data.setFd .root { data.rootDir with position := p }) .root) entry
        obtain ⟨hvol', hroot'⟩ := openLoop_frame hne hopen
        exact ⟨hvol'.trans (hvol.trans hclose.volume), hroot'.trans (hroot.trans hclose.rootDir)⟩

/-- Reading zero bytes leaves the file as it is, the position and the buffer included. -/
theorem readFd_zero (vol : Volume) (disk : Disk) (fd : FileInternal) :
    (readFd vol disk fd 0).fd = fd := by
  have hcount : (if !fd.isDirectory || (fd.isDirectory && fd.size != 0) then
      (if 0 < (fd.size + 2 ^ 32 - fd.position) % 2 ^ 32 then 0
        else (fd.size + 2 ^ 32 - fd.position) % 2 ^ 32)
      else 0) = 0 := by
    split_ifs <;> omega
  rw [readFd]
  simp only [hcount, readLoop_zero]

/-- **A call that stays in the first sector** leaves the volume and the root directory as they
were. -/
theorem AsMounted.step {before data₀ t u : Data} (hinit : fatInitialize disk before = some data₀)
    (h : AsMounted data₀ t) {c : Call} (hstep : Step disk t c u)
    (hin : Contained disk data₀.toVolume c) : AsMounted data₀ u := by
  obtain ⟨-, hstep⟩ := hstep
  cases c with
  | fatOpen filepath =>
      obtain ⟨o, hopen, rfl⟩ := hstep
      exact h.fatOpen hinit hin hopen
  | fatRead hd n =>
      obtain ⟨-, rfl⟩ := hstep
      cases hd with
      | root =>
          obtain rfl := hin rfl
          have hnone : (readFd t.toVolume disk (t.fd .root) 0).fd = t.rootDir := readFd_zero _ _ _
          refine ⟨by simpa [Fat.fatRead] using h.volume, ?_⟩
          simp only [Fat.fatRead, hnone]
          exact h.rootDir
      | file i => exact ⟨by simpa [Fat.fatRead] using h.volume, h.rootDir⟩
  | fatClose hd =>
      obtain rfl := hstep
      refine ⟨by simpa using h.volume, ?_⟩
      cases hd with
      | root =>
          obtain ⟨-, ⟨buffer, -, hfd⟩, -⟩ := fatInitialize_eq hinit
          simp only [Fat.fatClose, h.rootDir, hfd]
      | file i => exact h.rootDir

/-- **`FAT_open` does not depend on history** as long as the calls stay in the first sector of the
root directory: for any two states that runs of such calls reach from `FAT_initialize`, with two
free handles, and for every path, `FAT_open` returns `NULL` in both or handles with the same first
cluster, size and directory flag. -/
theorem fatOpen_history {before data₀ : Data} (hinit : fatInitialize disk before = some data₀)
    (hreads : ∀ lba, (disk lba).isSome) {cs₁ cs₂ : List Call} {s₁ s₂ : Data}
    (h₁ : Runs (fun t c u => Step disk t c u ∧ Contained disk data₀.toVolume c) data₀ cs₁ s₁)
    (h₂ : Runs (fun t c u => Step disk t c u ∧ Contained disk data₀.toVolume c) data₀ cs₂ s₂)
    (hfree₁ : TwoFree s₁) (hfree₂ : TwoFree s₂) (filepath : List UInt8) :
    Agree (fatOpen disk s₁ filepath) (fatOpen disk s₂ filepath) := by
  have hmounted : ∀ {cs s}, Runs (fun t c u => Step disk t c u ∧
      Contained disk data₀.toVolume c) data₀ cs s → AsMounted data₀ s := by
    intro cs s hrun
    exact hrun.invariant ⟨rfl, rfl⟩ fun t c u ht hs => ht.step hinit hs.1 hs.2
  obtain ⟨hvol₁, hroot₁⟩ := hmounted h₁
  obtain ⟨hvol₂, hroot₂⟩ := hmounted h₂
  obtain ⟨i₁, -, -, hi₁, -⟩ := hfree₁
  obtain ⟨i₂, -, -, hi₂, -⟩ := hfree₂
  exact openLoop_agrees hreads (hvol₁.trans hvol₂.symm)
    (.inl ⟨rfl, rfl, hroot₁.trans hroot₂.symm⟩) (.inl ⟨i₁, hi₁⟩) (.inl ⟨i₂, hi₂⟩)

/-! ### A root directory of two sectors -/

/-- A disk with a file `A` in the first sector of the root directory, and a file `B` in the
second. -/
def twoSectorDisk : Disk :=
  imageDisk [bootBytes 2, [], entryBytes [65] 0x20 2 1, entryBytes [66] 0x20 3 1]

/-- `FAT_initialize` succeeds on the disk with two sectors of entries. -/
theorem mounted_twoSectorDisk :
    fatInitialize twoSectorDisk blankData = some (mounted twoSectorDisk) := by
  have hsome : (fatInitialize twoSectorDisk blankData).isSome = true := by decide +kernel
  obtain ⟨data, hdata⟩ := Option.isSome_iff_exists.mp hsome
  rw [mounted, hdata, Option.getD_some]

/-- At least two handles are free directly after the disk was mounted. -/
theorem twoFree_mounted : TwoFree (mounted twoSectorDisk) :=
  ⟨0, 1, by decide, by decide +kernel, by decide +kernel⟩

/-- A computation that returns, from what is known of its value. -/
theorem exists_ok_of_map {α β : Type} {x : Except Fault α} {f : α → β} {b : β}
    (h : x.toOption.map f = some b) : ∃ a, x = .ok a ∧ f a = b := by
  cases x with
  | error e => cases h
  | ok a => exact ⟨a, rfl, Option.some.inj h⟩

/-- The path `A`, after it was opened before, and directly after `FAT_initialize`. -/
theorem fatOpen_history_reopened :
    ∃ s, Runs (fun t c u => Step twoSectorDisk t c u ∧
        Contained twoSectorDisk (mounted twoSectorDisk).toVolume c) (mounted twoSectorDisk)
        [.fatOpen [65]] s ∧
      Agree (fatOpen twoSectorDisk s [65])
        (fatOpen twoSectorDisk (mounted twoSectorDisk) [65]) := by
  have hfirst : (fatOpen twoSectorDisk (mounted twoSectorDisk) [65]).toOption.map
      (fun o => ((o.data.openedFiles 1).isOpened, (o.data.openedFiles 2).isOpened)) =
        some (false, false) := by decide +kernel
  obtain ⟨o, hopen, hfree⟩ := exists_ok_of_map hfirst
  rw [Prod.mk.injEq] at hfree
  have hin : Contained twoSectorDisk (mounted twoSectorDisk).toVolume (.fatOpen [65]) := by
    intro name hname
    obtain rfl := Option.some.inj hname
    exact .inr ⟨0, by decide, by decide +kernel, by decide +kernel⟩
  have hstep : Step twoSectorDisk (mounted twoSectorDisk) (.fatOpen [65]) o.data :=
    ⟨twoFree_mounted, o, hopen, rfl⟩
  have hrun : Runs (fun t c u => Step twoSectorDisk t c u ∧
      Contained twoSectorDisk (mounted twoSectorDisk).toVolume c) (mounted twoSectorDisk)
      [.fatOpen [65]] o.data := Runs.nil.snoc ⟨hstep, hin⟩
  exact ⟨o.data, hrun, fatOpen_history mounted_twoSectorDisk (fun _ => rfl) hrun .nil
    ⟨1, 2, by decide, hfree.1, hfree.2⟩ twoFree_mounted [65]⟩

/-- **A lookup of `B` hides `A`**: directly after `FAT_initialize` the file `A` is found; after `B`
was opened and closed it is not. -/
theorem fatOpen_forgets :
    ∃ s, Runs (Step twoSectorDisk) (mounted twoSectorDisk)
        [.fatOpen [66], .fatClose (.file 0)] s ∧ TwoFree s ∧
      ¬ Agree (fatOpen twoSectorDisk (mounted twoSectorDisk) [65])
        (fatOpen twoSectorDisk s [65]) := by
  have hfirst : (fatOpen twoSectorDisk (mounted twoSectorDisk) [65]).toOption.map Opened.file =
      some (some (.file 0)) := by decide +kernel
  have hother : (fatOpen twoSectorDisk (mounted twoSectorDisk) [66]).toOption.map
      (fun o => ((o.data.openedFiles 1).isOpened, (o.data.openedFiles 2).isOpened,
        (fatOpen twoSectorDisk (fatClose o.data (.file 0)) [65]).toOption.map Opened.file)) =
        some (false, false, some none) := by decide +kernel
  obtain ⟨o₁, hopen₁, hfile₁⟩ := exists_ok_of_map hfirst
  obtain ⟨o, hopen, hafter⟩ := exists_ok_of_map hother
  simp only [Prod.mk.injEq] at hafter
  obtain ⟨hfree, hfree', hlater⟩ := hafter
  obtain ⟨o₂, hopen₂, hfile₂⟩ := exists_ok_of_map hlater
  have hstep : Step twoSectorDisk (mounted twoSectorDisk) (.fatOpen [66]) o.data :=
    ⟨twoFree_mounted, o, hopen, rfl⟩
  have hclose : Step twoSectorDisk o.data (.fatClose (.file 0)) (fatClose o.data (.file 0)) :=
    ⟨⟨1, 2, by decide, hfree, hfree'⟩, rfl⟩
  refine ⟨fatClose o.data (.file 0), (Runs.nil.snoc hstep).snoc hclose, ?_, ?_⟩
  · exact ⟨1, 2, by decide, by simpa [fatClose, Data.setFd] using hfree,
      by simpa [fatClose, Data.setFd] using hfree'⟩
  · simp [hopen₁, hopen₂, Agree, hfile₁, hfile₂]

end MugOS.Fat
