import MugOS.ACPI
import MugOS.Lib.Footprint
import MugOS.Lib.Outcome

/-!
# What the Parsers of ACPI Tables Read

The parsers of `Kernel/Drivers/ACPI/ACPI.c` as programs that read a table byte by byte, where a
read may fail. `parseMADT` is modelled in `MugOS.ACPI` as a function of the bytes of a table; here
it reads them, and the memory for its arrays comes from an allocator with a state of its own, on
which it depends what can be read.

## Main results

* `readCounts_footprint`, `readEntries_footprint`: the bytes that the loops of `parseMADT` read.
* `readMADT_footprint`: the bytes that `parseMADT` reads if memory is allocated.
* `readMADT_shown`: what it does with any allocator if all of them can be read.
-/

namespace MugOS.ACPI

open Footprint

/-! ### Reading -/

/-- The ways in which reading the tables ends early, before the parser returns. -/
inductive Stop
  /-- a byte is read in a page that is not mapped, or not mapped to the frame of the byte -/
  | badRead
  /-- the assertion of `set4KBPage`: an entry is present already -/
  | mappedTwice
  /-- any other -/
  | fault (fault : Fault)
  deriving DecidableEq, Repr

/-- A program that does not read, as one that does. -/
def toStop {α : Type} : Except Fault α → Except Stop α
  | .ok a => .ok a
  | .error f => .error (.fault f)

/-- How the bytes of a structure are read, by their offsets. -/
abbrev Reader := ℕ → Except Stop UInt8

/-- `n` bytes from an offset on, read one after the other: the first bad read ends it. -/
def readBytes (read : Reader) : ℕ → ℕ → Except Stop (List UInt8)
  | _, 0 => .ok []
  | offset, n + 1 => do
      let b ← read offset
      let rest ← readBytes read (offset + 1) n
      return b :: rest

/-- The number that little-endian bytes stand for. -/
def leValue (bs : List UInt8) : ℕ := bs.foldr (fun b n => b.toNat + 2 ^ 8 * n) 0

/-- A member of type `uint32_t`: four bytes, the least significant one first. -/
def read32 (read : Reader) (offset : ℕ) : Except Stop ℕ := do
  let bs ← readBytes read offset 4
  return leValue bs

/-- A member of type `uint64_t`: eight bytes, the least significant one first. -/
def read64 (read : Reader) (offset : ℕ) : Except Stop ℕ := do
  let bs ← readBytes read offset 8
  return leValue bs

/-- `isChecksumValid(table, size)`, which reads all bytes of the table. -/
def readChecksum (read : Reader) (size : ℕ) : Except Stop Bool := do
  let bs ← readBytes read 0 size
  return decide (bs.foldl (· + ·) 0 = 0)

/-- `strncmp(table + offset, name, strlen(name)) == 0`: the comparison ends at the first character
that differs. -/
def readMatches (read : Reader) : ℕ → List UInt8 → Except Stop Bool
  | _, [] => .ok true
  | offset, c :: name => do
      let b ← read offset
      if b = c then readMatches read (offset + 1) name else .ok false

/-! ### parseMADT -/

/-- The loop of `parseMADT` that counts entries, `length` being that of the table. -/
def readCounts (read : Reader) (length : ℕ) : ℕ → ℕ → State → Except Stop State
  | rounds, offset, s =>
      if offset < length then
        match rounds with
        | 0 => .error (.fault .diverges)
        | rounds + 1 => do
            let entryType ← read offset
            let entryLength ← read (offset + 1)
            readCounts read length rounds ((offset + entryLength.toNat) % 2 ^ 32)
              (countEntry entryType s)
      else .ok s

/-- The body of the loop that copies entries, with the reads of type, length and fields. -/
def readEntry (read : Reader) (offset : ℕ) (s : State) : Except Stop State := do
  let entryType ← read offset
  match entryKind entryType with
  | none => .ok s
  | some kind => do
      let entryLength ← read (offset + 1)
      if entryLength.toNat ≠ structSize kind then .error (.fault .assertion)
      else do
        let entry ← readBytes read offset (structSize kind)
        .ok { s with
          entries := Function.update s.entries kind
            (Function.update (s.entries kind) (s.count kind) entry)
          count := Function.update s.count kind (s.count kind + 1) }

/-- The loop that copies entries: it reads the length of each one to come to the next. -/
def readEntries (read : Reader) (length : ℕ) : ℕ → ℕ → State → Except Stop State
  | rounds, offset, s =>
      if offset < length then
        match rounds with
        | 0 => .error (.fault .diverges)
        | rounds + 1 => do
            let s ← readEntry read offset s
            let entryLength ← read (offset + 1)
            readEntries read length rounds ((offset + entryLength.toNat) % 2 ^ 32) s
      else .ok s

section

variable {V : Type} (kmalloc : V → ℕ → Except Fault (ℕ × V)) (read : V → Reader)

/-- The calls of `kmalloc` for the arrays. -/
def kmallocArrays : List EntryKind → V → State → Except Stop (State × V)
  | [], v, s => .ok (s, v)
  | kind :: kinds, v, s => do
      let (array, v) ← toStop (kmalloc v (s.count kind * structSize kind))
      kmallocArrays kinds v { s with array := Function.update s.array kind array }

/-- `parseMADT` from the call of `memcpy` on, for a table whose checksum is right. -/
def readValidMADT (length : ℕ) (v : V) (s : State) : Except Stop (State × V) := do
  let raw ← readBytes (read v) 0 rawMADTSize
  let s ← readCounts (read v) length length rawMADTSize { s with raw := raw }
  let (s, v) ← kmallocArrays kmalloc allKinds v s
  if ∃ kind ∈ allKinds, s.array kind = 0 ∧ s.count kind ≠ 0 then .error (.fault .assertion)
  else do
    let s ← readEntries (read v) length length rawMADTSize { s with count := fun _ => 0 }
    return ({ s with present := true }, v)

/-- `parseMADT(madt_ptr)`, with each of its reads made through the current translation. -/
def readMADT (v : V) (s : State) : Except Stop (State × V) := do
  let length ← read32 (read v) 4
  let valid ← readChecksum (read v) length
  if valid then readValidMADT kmalloc read length v s
  else .ok ({ s with present := false, messages := s.messages ++ [.invalidChecksum] }, v)

/-! ### All tables -/

/-- The variables of `ACPI.c` that the tables are copied to. -/
structure Globals where
  /-- `m_nTables` -/
  nTables : ℤ
  /-- the bytes of `g_FADT` -/
  fadt : List UInt8
  fadtPresent : Bool
  madt : State
  /-- the bytes of `g_HPETT` -/
  hpett : List UInt8
  hpettPresent : Bool

/-- The variables when `ACPI_init` is called. -/
def Globals.start : Globals := ⟨0, [], false, .start, [], false⟩

/-- `parseFADT(fadt_ptr)`: checks the sum and copies the table as a whole. -/
def readFADT (v : V) (g : Globals) : Except Stop Globals := do
  let length ← read32 (read v) 4
  let valid ← readChecksum (read v) length
  if valid then do
    let fadt ← readBytes (read v) 0 length
    return { g with fadt := fadt, fadtPresent := true }
  else .ok { g with fadtPresent := false }

/-- `parseHPETT(hpett)`: checks the sum and copies the table as a whole. -/
def readHPETT (v : V) (g : Globals) : Except Stop Globals := do
  let length ← read32 (read v) 4
  let valid ← readChecksum (read v) length
  if valid then do
    let hpett ← readBytes (read v) 0 length
    return { g with hpett := hpett, hpettPresent := true }
  else .ok g

/-- `"FACP"`. -/
def facp : List UInt8 := [0x46, 0x41, 0x43, 0x50]

/-- `"APIC"`. -/
def apic : List UInt8 := [0x41, 0x50, 0x49, 0x43]

/-- `"HPET"`. -/
def hpet : List UInt8 := [0x48, 0x50, 0x45, 0x54]

/-- The part of the loop of `parseXSDT` between `VMM_map` and `VMM_unmap`. -/
def readTable (v : V) (g : Globals) : Except Stop (Globals × V) := do
  let isFADT ← readMatches (read v) 0 facp
  if isFADT then do
    let g ← readFADT read v g
    return (g, v)
  else do
    let isMADT ← readMatches (read v) 0 apic
    if isMADT then do
      let (madt, v) ← readMADT kmalloc read v g.madt
      return ({ g with madt := madt }, v)
    else do
      let isHPETT ← readMatches (read v) 0 hpet
      if isHPETT then do
        let g ← readHPETT read v g
        return (g, v)
      else .ok (g, v)

end

/-! ### Footprints of the readers -/

section

variable (P : ℕ → Prop) (table : ℕ → UInt8)

/-- The program reads the bytes `U` of the table, if they can be read, and has a result then. -/
abbrev Reads {α : Type} (U : ℕ → Prop) (r q : Except Stop α) : Prop := HasFootprint .badRead P U r q

/-- The table, of which a part can be read. -/
noncomputable abbrev shownBytes : Reader := partialRead .badRead P table

variable {P}

/-- The bytes of a range are the first one and the bytes of the rest of the range. -/
theorem bytes_succ (offset n : ℕ) :
    bytes table offset (n + 1) = table offset :: bytes table (offset + 1) n := by
  simp only [bytes, List.range_succ_eq_map, List.map_cons, List.map_map, Nat.add_zero]
  congr 1
  exact List.map_congr_left fun i _ => by simp only [Function.comp_apply]; congr 1; omega

/-- Reading a range of bytes touches the bytes of the range only, and returns them. -/
theorem readBytes_footprint (offset n : ℕ) :
    Reads P (fun i => offset ≤ i ∧ i < offset + n) (readBytes (shownBytes P table) offset n)
      (.ok (bytes table offset n)) := by
  induction n generalizing offset with
  | zero =>
      refine (HasFootprint.pure _).congr fun i => ?_
      simp only [iff_false]
      omega
  | succ n ih =>
      rw [bytes_succ]
      refine (((HasFootprint.read table offset).bind
        ((ih (offset + 1)).bind (.pure (.ok (table offset :: _)))))).congr fun i => ?_
      simp only [or_false]
      omega

/-- The value of the four bytes from byte 4 on is the length in the header. -/
theorem leValue_header : leValue (bytes table 4 4) = headerLength table := by
  simp only [bytes, leValue, headerLength, List.range_succ, List.range_zero, List.nil_append,
    List.cons_append, List.map_cons, List.map_nil, List.foldr_cons, List.foldr_nil]
  ring

/-- Reading a member of type `uint32_t` touches its four bytes only, and returns their
value. -/
theorem read32_footprint (offset : ℕ) :
    Reads P (fun i => offset ≤ i ∧ i < offset + 4) (read32 (shownBytes P table) offset)
      (.ok (leValue (bytes table offset 4))) :=
  ((readBytes_footprint table offset 4).bind (.pure _)).congr fun i => by simp

/-- Reading a member of type `uint64_t` touches its eight bytes only, and returns their
value. -/
theorem read64_footprint (offset : ℕ) :
    Reads P (fun i => offset ≤ i ∧ i < offset + 8) (read64 (shownBytes P table) offset)
      (.ok (leValue (bytes table offset 8))) :=
  ((readBytes_footprint table offset 8).bind (.pure _)).congr fun i => by simp

/-- The checksum of the first `size` bytes touches these bytes only, and tells whether their
sum is zero. -/
theorem readChecksum_footprint (size : ℕ) :
    Reads P (fun i => i < size) (readChecksum (shownBytes P table) size)
      (.ok (isChecksumValid table size)) :=
  ((readBytes_footprint table 0 size).bind (.pure _)).congr fun i => by simp

/-- A comparison with a name reads a byte if those before it are the letters of the name. -/
theorem readMatches_footprint (offset : ℕ) (name : List UInt8) :
    Reads P (fun i => offset ≤ i ∧ i < offset + name.length ∧
        bytes table offset (i - offset) = name.take (i - offset))
      (readMatches (shownBytes P table) offset name)
      (.ok (decide (bytes table offset name.length = name))) := by
  induction name generalizing offset with
  | nil =>
      refine (HasFootprint.pure _).congr fun i => ?_
      simp only [List.length_nil, iff_false]
      omega
  | cons c name ih =>
      have hnext : ∀ i, offset + 1 ≤ i → (bytes table offset (i - offset) =
          (c :: name).take (i - offset) ↔ table offset = c ∧
            bytes table (offset + 1) (i - (offset + 1)) = name.take (i - (offset + 1))) := by
        intro i hi
        obtain ⟨k, rfl⟩ := Nat.exists_eq_add_of_le hi
        rw [show offset + 1 + k - offset = k + 1 by omega, Nat.add_sub_cancel_left, bytes_succ,
          List.take_succ_cons, List.cons.injEq]
      have hresult : decide (bytes table offset (c :: name).length = c :: name) =
          (decide (table offset = c) &&
            decide (bytes table (offset + 1) name.length = name)) := by
        rw [← Bool.decide_and]
        exact decide_eq_decide.mpr (by rw [List.length_cons, bytes_succ, List.cons.injEq])
      rw [hresult]
      by_cases hc : table offset = c
      · have hrest := ih (offset + 1)
        rw [decide_eq_true hc, Bool.true_and]
        refine ((HasFootprint.read table offset).bind (f := fun b =>
          if b = c then readMatches (shownBytes P table) (offset + 1) name else .ok false)
          (by rw [if_pos hc]; exact hrest)).congr fun i => ?_
        rw [List.length_cons]
        by_cases hi : i = offset
        · subst hi
          simp [bytes]
        · constructor
          · rintro ⟨h1, h2, h3⟩
            exact .inr ⟨by omega, by omega, ((hnext i (by omega)).mp h3).2⟩
          · rintro (h | ⟨h1, h2, h3⟩)
            · exact absurd h hi
            · exact ⟨by omega, by omega, (hnext i h1).mpr ⟨hc, h3⟩⟩
      · rw [decide_eq_false hc, Bool.false_and]
        refine ((HasFootprint.read table offset).bind (f := fun b =>
          if b = c then readMatches (shownBytes P table) (offset + 1) name else .ok false)
          (by rw [if_neg hc]; exact .pure _)).congr fun i => ?_
        rw [List.length_cons]
        by_cases hi : i = offset
        · subst hi
          simp [bytes]
        · simp only [hi, or_false, iff_false]
          rintro ⟨h1, -, h3⟩
          exact hc ((hnext i (by omega)).mp h3).1

end

/-! ### Footprints of the loops over entries -/

section

variable (table : ℕ → UInt8)

/-- The offset of an entry, by its number, the first one having the given offset. -/
def entryOffset : ℕ → ℕ → ℕ
  | offset, 0 => offset
  | offset, k + 1 => entryOffset ((offset + entryLength table offset) % 2 ^ 32) k

/-- The loops over the entries come to entry `k`: this one and all before it start within the
table. -/
def Reached (offset k : ℕ) : Prop := ∀ j ≤ k, entryOffset table offset j < headerLength table

/-- The entry has the size of the structure that it is copied to, if it is copied. -/
def Sized (offset : ℕ) : Prop :=
  ∀ kind, entryKind (table offset) = some kind → entryLength table offset = structSize kind

/-- The bytes that are read when entries are counted: type and length of every entry. -/
def CountUsed (rounds offset i : ℕ) : Prop :=
  ∃ k < rounds, Reached table offset k ∧
    (i = entryOffset table offset k ∨ i = entryOffset table offset k + 1)

/-- The bytes of an entry that are read when entries are copied. -/
def EntryUsed (offset i : ℕ) : Prop :=
  i = offset ∨ i = offset + 1 ∨ ∃ kind, entryKind (table offset) = some kind ∧
    entryLength table offset = structSize kind ∧ offset ≤ i ∧ i < offset + structSize kind

/-- The bytes that are read when entries are copied, up to the first that has another size than
the structure. -/
def CopyUsed (rounds offset i : ℕ) : Prop :=
  ∃ k < rounds, Reached table offset k ∧ (∀ j < k, Sized table (entryOffset table offset j)) ∧
    EntryUsed table (entryOffset table offset k) i

variable {table} {offset : ℕ}

/-- The loops come to the first entry if it is in the table. -/
theorem reached_zero : Reached table offset 0 ↔ offset < headerLength table := by
  simp [Reached, entryOffset]

/-- The loops come to an entry if they come to its predecessor and it is in the table. -/
theorem reached_succ {k : ℕ} : Reached table offset (k + 1) ↔
    offset < headerLength table ∧
      Reached table ((offset + entryLength table offset) % 2 ^ 32) k := by
  constructor
  · intro h
    exact ⟨h 0 (by omega), fun j hj => h (j + 1) (by omega)⟩
  · rintro ⟨h0, h⟩ (_ | j) hj
    · exact h0
    · exact h j (by omega)

/-- The loops come to no entry if they do not come to the first. -/
theorem not_reached (h : ¬ offset < headerLength table) (k : ℕ) : ¬ Reached table offset k :=
  fun hr => h (hr 0 (by omega))

/-- The bytes that are read when entries are counted: of the first entry, and of the others. -/
theorem countUsed_succ {rounds i : ℕ} (hlt : offset < headerLength table) :
    CountUsed table (rounds + 1) offset i ↔ i = offset ∨ i = offset + 1 ∨
      CountUsed table rounds ((offset + entryLength table offset) % 2 ^ 32) i := by
  constructor
  · rintro ⟨_ | k, hk, hr, hi⟩
    · exact hi.imp_right .inl
    · exact .inr (.inr ⟨k, by omega, (reached_succ.mp hr).2, hi⟩)
  · rintro (hi | hi | ⟨k, hk, hr, hi⟩)
    · exact ⟨0, by omega, reached_zero.mpr hlt, .inl hi⟩
    · exact ⟨0, by omega, reached_zero.mpr hlt, .inr hi⟩
    · exact ⟨k + 1, by omega, reached_succ.mpr ⟨hlt, hr⟩, hi⟩

/-- The bytes that are read when entries are copied: of the first entry, and of the others if the
first has the right size. -/
theorem copyUsed_succ {rounds i : ℕ} (hlt : offset < headerLength table) :
    CopyUsed table (rounds + 1) offset i ↔ EntryUsed table offset i ∨ Sized table offset ∧
      CopyUsed table rounds ((offset + entryLength table offset) % 2 ^ 32) i := by
  constructor
  · rintro ⟨_ | k, hk, hr, hs, hi⟩
    · exact .inl hi
    · exact .inr ⟨hs 0 (by omega), k, by omega, (reached_succ.mp hr).2,
        fun j hj => hs (j + 1) (by omega), hi⟩
  · rintro (hi | ⟨h0, k, hk, hr, hs, hi⟩)
    · exact ⟨0, by omega, reached_zero.mpr hlt, fun j hj => absurd hj (by omega), hi⟩
    · refine ⟨k + 1, by omega, reached_succ.mpr ⟨hlt, hr⟩, ?_, hi⟩
      rintro (_ | j) hj
      · exact h0
      · exact hs j (by omega)

variable {P : ℕ → Prop}
variable (table)

/-- **The loop that counts entries** reads the type and the length of every entry. -/
theorem readCounts_footprint (rounds offset : ℕ) (s : State) :
    Reads P (CountUsed table rounds offset)
      (readCounts (shownBytes P table) (headerLength table) rounds offset s)
      (toStop (countEntries table rounds offset s)) := by
  induction rounds generalizing offset s with
  | zero =>
      refine HasFootprint.congr (U := fun _ => False) ?_ fun i => ?_
      · unfold readCounts countEntries
        split
        · exact .pure _
        · exact .pure _
      · simp [CountUsed]
  | succ rounds ih =>
      unfold readCounts countEntries
      by_cases hlt : offset < headerLength table
      · rw [if_pos hlt, if_pos hlt]
        refine ((HasFootprint.read table offset).bind
          ((HasFootprint.read table (offset + 1)).bind (ih _ _))).congr fun i => ?_
        exact countUsed_succ hlt
      · rw [if_neg hlt, if_neg hlt]
        refine (HasFootprint.pure _).congr fun i => ?_
        simp [CountUsed, not_reached hlt]

/-- **Copying an entry** reads its type, its length if it is of a kind that is copied, and all of
it if it has the right size. -/
theorem readEntry_footprint (offset : ℕ) (s : State) :
    Reads P (fun i => i = offset ∨ ∃ kind, entryKind (table offset) = some kind ∧
        (i = offset + 1 ∨ entryLength table offset = structSize kind ∧ offset ≤ i ∧
          i < offset + structSize kind))
      (readEntry (shownBytes P table) offset s) (toStop (copyEntry table offset s)) := by
  unfold readEntry copyEntry
  cases hkind : entryKind (table offset) with
  | none =>
      refine ((HasFootprint.read table offset).bind (q := .ok s) (W := fun _ => False) ?_).congr
        fun i => by simp
      simp only [hkind]
      exact .pure _
  | some kind =>
      by_cases hsize : entryLength table offset = structSize kind
      · have hlength : (table (offset + 1)).toNat = structSize kind := hsize
        have hbytes := (readBytes_footprint (P := P) table offset
          (structSize kind)).bind (f := fun entry => .ok { s with
            entries := Function.update s.entries kind
              (Function.update (s.entries kind) (s.count kind) entry)
            count := Function.update s.count kind (s.count kind + 1) }) (.pure _)
        refine ((HasFootprint.read table offset).bind (a := table offset)
          (W := fun i => i = offset + 1 ∨ (offset ≤ i ∧ i < offset + structSize kind ∨ False))
          ?_).congr fun i => by simp [hsize]
        simp only [hkind]
        refine (HasFootprint.read table (offset + 1)).bind ?_
        simp only [hsize, hlength, ne_eq, not_true_eq_false, if_false]
        exact hbytes
      · have hlength : ¬ (table (offset + 1)).toNat = structSize kind := hsize
        refine ((HasFootprint.read table offset).bind (a := table offset)
          (W := fun i => i = offset + 1 ∨ False) ?_).congr fun i => by simp [hsize]
        simp only [hkind]
        refine (HasFootprint.read table (offset + 1)).bind ?_
        simp only [hsize, hlength, ne_eq, not_false_eq_true, if_true]
        exact .pure _

/-- Copying an entry fails no assertion exactly when the entry has the size of its kind. -/
theorem copyEntry_sized_iff (s : State) :
    (∃ s', copyEntry table offset s = .ok s') ↔ Sized table offset := by
  unfold copyEntry Sized
  cases hkind : entryKind (table offset) with
  | none => simp
  | some kind =>
      by_cases hsize : entryLength table offset = structSize kind
      · simp [hsize]
      · simp [hsize]

/-- **The loop that copies entries** reads type and length of every entry, and all of those that
are copied, up to the first that has the wrong size. -/
theorem readEntries_footprint (rounds offset : ℕ) (s : State) :
    Reads P (CopyUsed table rounds offset)
      (readEntries (shownBytes P table) (headerLength table) rounds offset s)
      (toStop (copyEntries table rounds offset s)) := by
  induction rounds generalizing offset s with
  | zero =>
      refine HasFootprint.congr (U := fun _ => False) ?_ fun i => ?_
      · unfold readEntries copyEntries
        split
        · exact .pure _
        · exact .pure _
      · simp [CopyUsed]
  | succ rounds ih =>
      unfold readEntries copyEntries
      by_cases hlt : offset < headerLength table
      · rw [if_pos hlt, if_pos hlt]
        have hentry := readEntry_footprint (P := P) table offset s
        cases hcopy : copyEntry table offset s with
        | ok s' =>
            have hsized := (copyEntry_sized_iff table s).mp ⟨s', hcopy⟩
            rw [hcopy] at hentry
            refine (hentry.bind ((HasFootprint.read table (offset + 1)).bind
              (ih _ s'))).congr fun i => ?_
            rw [copyUsed_succ hlt, EntryUsed]
            constructor
            · rintro ((hi | hi | ⟨kind, hkind, hi⟩) | ⟨-, hi⟩)
              · exact .inl (.inl hi)
              · exact .inr (.inl hi)
              · exact .inl (.inr ⟨kind, hkind, .inr hi⟩)
              · exact .inr (.inr hi)
            · rintro ((hi | ⟨kind, hkind, hi | hi⟩) | hi | hi)
              · exact .inl (.inl hi)
              · exact .inl (.inr (.inl hi))
              · exact .inl (.inr (.inr ⟨kind, hkind, hi⟩))
              · exact .inl (.inr (.inl hi))
              · exact .inr ⟨hsized, hi⟩
        | error f =>
            have hsized : ¬ Sized table offset := by
              intro h
              obtain ⟨s', hok⟩ := (copyEntry_sized_iff table s).mpr h
              exact absurd (hcopy.symm.trans hok) (by simp)
            obtain ⟨kind, hkind, hsize⟩ : ∃ kind, entryKind (table offset) = some kind ∧
                entryLength table offset ≠ structSize kind := by
              by_contra hall
              refine hsized fun kind hkind => ?_
              by_contra hsize
              exact hall ⟨kind, hkind, hsize⟩
            rw [hcopy] at hentry
            refine (hentry.stop _).congr fun i => ?_
            rw [copyUsed_succ hlt, EntryUsed]
            simp [hsized, hkind, hsize]
      · rw [if_neg hlt, if_neg hlt]
        refine (HasFootprint.pure _).congr fun i => ?_
        simp [CopyUsed, not_reached hlt]

end

/-! ### The footprint of parseMADT -/

/-- The answers of an allocator that has memory for every array of up to 65536 bytes, as large as
`kmalloc` supports. -/
def enoughMemory (_ size : ℕ) : ℕ := if size ≤ 65536 then 1 else 0

section

variable (table : ℕ → UInt8) (s : State)

/-- The entries are counted, and there are not too many of a kind for an array. -/
def Allocatable : Prop :=
  ∃ s', countEntries table (headerLength table) rawMADTSize s = .ok s' ∧
    ¬ ∃ kind ∈ allKinds, 65536 < s'.count kind * structSize kind

/-- **The bytes of a MADT that `parseMADT` reads** if there is enough memory: the length and, for
the checksum, all bytes up to it; if the checksum is right then the header, type and length of
every entry, and, if there can be arrays for them, the entries up to the first of a wrong size. -/
def MADTUsed (i : ℕ) : Prop :=
  (4 ≤ i ∧ i < 8) ∨ i < headerLength table ∨
    isChecksumValid table (headerLength table) = true ∧
      (i < rawMADTSize ∨ CountUsed table (headerLength table) rawMADTSize i ∨
        Allocatable table s ∧ CopyUsed table (headerLength table) rawMADTSize i)

variable {table s}

/-- Every kind of entry is in the list of all kinds. -/
theorem mem_allKinds (kind : EntryKind) : kind ∈ allKinds := by
  cases kind <;> decide

/-- Counting does not end if there are too many entries. -/
theorem countEntries_error {rounds offset : ℕ} {f : Fault}
    (h : countEntries table rounds offset s = .error f) :
    f = .diverges ∧ Reached table offset rounds := by
  induction rounds generalizing offset s with
  | zero =>
      unfold countEntries at h
      split at h
      · rename_i hlt
        exact ⟨(Except.error.inj h).symm, reached_zero.mpr hlt⟩
      · cases h
  | succ rounds ih =>
      unfold countEntries at h
      split at h
      · rename_i hlt
        exact (ih h).imp_right fun hr => reached_succ.mpr ⟨hlt, hr⟩
      · cases h

/-- Copying ends with a failed assertion, or does not end if there are too many entries. -/
theorem copyEntries_error {rounds offset : ℕ} {f : Fault}
    (h : copyEntries table rounds offset s = .error f) :
    f = .assertion ∨ f = .diverges ∧ Reached table offset rounds := by
  induction rounds generalizing offset s with
  | zero =>
      unfold copyEntries at h
      split at h
      · rename_i hlt
        exact .inr ⟨(Except.error.inj h).symm, reached_zero.mpr hlt⟩
      · cases h
  | succ rounds ih =>
      unfold copyEntries at h
      split at h
      · rename_i hlt
        cases hcopy : copyEntry table offset s with
        | error f' =>
            rw [hcopy] at h
            obtain rfl : f' = f := Except.error.inj h
            unfold copyEntry at hcopy
            split at hcopy
            · cases hcopy
            · split at hcopy
              · exact .inl (Except.error.inj hcopy).symm
              · cases hcopy
        | ok s' =>
            rw [hcopy] at h
            exact (ih h).imp_right fun hr => hr.imp_right fun hr => reached_succ.mpr ⟨hlt, hr⟩
      · cases h

/-- What the first loop counts depends on the counts that it starts with, and on nothing else
of the state. -/
theorem countEntries_count (table : ℕ → UInt8) (rounds offset : ℕ) {s t : State}
    (h : s.count = t.count) :
    (countEntries table rounds offset s).map State.count =
      (countEntries table rounds offset t).map State.count := by
  induction rounds generalizing offset s t with
  | zero =>
      unfold countEntries
      split
      · rfl
      · exact congrArg Except.ok h
  | succ rounds ih =>
      unfold countEntries
      split
      · refine ih _ ?_
        unfold countEntry
        cases entryKind (table offset) with
        | some kind => simp only [h]
        | none => simp only; split <;> exact h
      · exact congrArg Except.ok h

/-- Copying depends on the counts only, as far as the counts are concerned. -/
theorem copyEntries_count (table : ℕ → UInt8) (rounds offset : ℕ) {s t : State}
    (h : s.count = t.count) :
    (copyEntries table rounds offset s).map State.count =
      (copyEntries table rounds offset t).map State.count := by
  induction rounds generalizing offset s t with
  | zero =>
      unfold copyEntries
      split
      · rfl
      · exact congrArg Except.ok h
  | succ rounds ih =>
      unfold copyEntries copyEntry
      split
      · cases entryKind (table offset) with
        | none => exact ih _ h
        | some kind =>
            simp only
            split
            · rfl
            · exact ih _ (by simp only [h])
      · exact congrArg Except.ok h

section

variable {V : Type} {P : V → ℕ → Prop} {v : V} {kmalloc : V → ℕ → Except Fault (ℕ × V)}

/-- The arrays, if the allocator has enough memory and its state does not change. -/
theorem kmallocArrays_enough (kinds : List EntryKind) (v : V) (s : State) :
    kmallocArrays (fun v size => .ok (enoughMemory 0 size, v)) kinds v s =
      .ok ({ s with array := fun kind =>
        if kind ∈ kinds then enoughMemory 0 (s.count kind * structSize kind)
        else s.array kind }, v) := by
  induction kinds generalizing s with
  | nil => simp [kmallocArrays]
  | cons kind kinds ih =>
      simp only [kmallocArrays, toStop, bind, Except.bind, ih, Except.ok.injEq, Prod.mk.injEq,
        and_true]
      congr 1
      funext other
      by_cases hother : other = kind
      · subst hother
        simp
      · simp [hother]

/-- The arrays do not depend on the order of the calls. -/
theorem allocateArrays_enough (s : State) : allocateArrays enoughMemory s =
    { s with array := fun kind => enoughMemory 0 (s.count kind * structSize kind) } := rfl

/-- Some array is missing after the allocations exactly when the entries of some kind take more
than 65536 bytes. -/
theorem missing_iff {count : EntryKind → ℕ} :
    (∃ kind ∈ allKinds, enoughMemory 0 (count kind * structSize kind) = 0 ∧ count kind ≠ 0) ↔
      ∃ kind ∈ allKinds, 65536 < count kind * structSize kind := by
  refine exists_congr fun kind => and_congr_right fun _ => ?_
  unfold enoughMemory
  constructor
  · rintro ⟨h, -⟩
    by_contra hle
    rw [if_pos (by omega)] at h
    exact absurd h (by simp)
  · intro h
    refine ⟨if_neg (by omega), ?_⟩
    intro h0
    rw [h0] at h
    omega

/-- Whether there can be arrays for the entries, in terms of their numbers. -/
theorem allocatable_iff {s₁ : State} (h : countEntries table (headerLength table) rawMADTSize
      { s with raw := bytes table 0 rawMADTSize } = .ok s₁) :
    Allocatable table s ↔ ¬ ∃ kind ∈ allKinds, 65536 < s₁.count kind * structSize kind := by
  have hsame := countEntries_count table (headerLength table) rawMADTSize
    (s := s) (t := { s with raw := bytes table 0 rawMADTSize }) rfl
  rw [h] at hsame
  constructor
  · rintro ⟨s', hs', hle⟩
    rw [hs'] at hsame
    have hc : s'.count = s₁.count := Except.ok.inj hsame
    rwa [hc] at hle
  · intro hle
    cases hs' : countEntries table (headerLength table) rawMADTSize s with
    | error f =>
        rw [hs'] at hsame
        exact absurd hsame (by simp [Except.map])
    | ok s' =>
        rw [hs'] at hsame
        have hc : s'.count = s₁.count := Except.ok.inj hsame
        exact ⟨s', hs', by rw [hc]; exact hle⟩

/-- There can be no arrays if counting the entries does not end. -/
theorem not_allocatable {f : Fault} (h : countEntries table (headerLength table) rawMADTSize
      { s with raw := bytes table 0 rawMADTSize } = .error f) : ¬ Allocatable table s := by
  have hsame := countEntries_count table (headerLength table) rawMADTSize
    (s := s) (t := { s with raw := bytes table 0 rawMADTSize }) rfl
  rintro ⟨s', hs', -⟩
  rw [hs', h] at hsame
  exact absurd hsame (by simp [Except.map])

/-- The state in which the entries are copied: the arrays are allocated and the counters are
back at zero. -/
def arraysReady (s : State) : State :=
  { s with
    array := fun kind => enoughMemory 0 (s.count kind * structSize kind)
    count := fun _ => 0 }

/-- **The result of `parseMADT`** for a table with the right checksum, if there is enough
memory. -/
theorem parseMADT_enough (hvalid : isChecksumValid table (headerLength table) = true) :
    parseMADT enoughMemory table s =
      match countEntries table (headerLength table) rawMADTSize
        { s with raw := bytes table 0 rawMADTSize } with
      | .error f => .error f
      | .ok s₁ =>
          if ∃ kind ∈ allKinds, 65536 < s₁.count kind * structSize kind then .error .assertion
          else (copyEntries table (headerLength table) rawMADTSize (arraysReady s₁)).map
            fun s => { s with present := true } := by
  rw [parseMADT, if_neg (not_not.mpr hvalid)]
  dsimp only
  cases countEntries table (headerLength table) rawMADTSize
      { s with raw := bytes table 0 rawMADTSize } with
  | error f => rfl
  | ok s₁ =>
      change (if _ then _ else _) = _
      rw [allocateArrays_enough]
      refine if_congr missing_iff rfl ?_
      change (copyEntries table (headerLength table) rawMADTSize (arraysReady s₁) >>= _) = _
      cases copyEntries table (headerLength table) rawMADTSize (arraysReady s₁) <;> rfl

/-- `parseMADT` as a program that reads, for a table with the right checksum, if there is enough
memory. -/
theorem readValidMADT_enough (read : Reader) (length : ℕ) (v : V) :
    readValidMADT (fun v size => .ok (enoughMemory 0 size, v)) (fun _ => read) length v s = (do
      let raw ← readBytes read 0 rawMADTSize
      let s₁ ← readCounts read length length rawMADTSize { s with raw := raw }
      if ∃ kind ∈ allKinds, 65536 < s₁.count kind * structSize kind then
        .error (.fault .assertion)
      else do
        let s ← readEntries read length length rawMADTSize (arraysReady s₁)
        .ok ({ s with present := true }, v)) := by
  unfold readValidMADT
  congr 1
  funext raw
  congr 1
  funext s₁
  simp only [kmallocArrays_enough, mem_allKinds, if_true]
  exact if_congr missing_iff rfl rfl

variable (table s) in
/-- **The footprint of `parseMADT`** if there is enough memory. -/
theorem readMADT_footprint {P : ℕ → Prop} (v : V) :
    Reads P (MADTUsed table s)
      (readMADT (fun v size => .ok (enoughMemory 0 size, v)) (fun _ => shownBytes P table) v s)
      (toStop ((parseMADT enoughMemory table s).map (·, v))) := by
  have hlength := read32_footprint (P := P) table 4
  rw [leValue_header] at hlength
  refine (hlength.bind ((readChecksum_footprint table (headerLength table)).bind
    (W := fun i => isChecksumValid table (headerLength table) = true ∧
      (i < rawMADTSize ∨ CountUsed table (headerLength table) rawMADTSize i ∨
        Allocatable table s ∧ CopyUsed table (headerLength table) rawMADTSize i))
    ?_)).congr fun i => by rw [MADTUsed]
  by_cases hvalid : isChecksumValid table (headerLength table) = true
  swap
  · rw [parseMADT, if_pos hvalid, if_neg hvalid]
    refine (HasFootprint.pure _).congr fun i => ?_
    simp [hvalid]
  rw [parseMADT_enough hvalid, if_pos hvalid, readValidMADT_enough]
  have hraw := readBytes_footprint (P := P) table 0 rawMADTSize
  have hcount := readCounts_footprint (P := P) table (headerLength table) rawMADTSize
    { s with raw := bytes table 0 rawMADTSize }
  cases hcounted : countEntries table (headerLength table) rawMADTSize
      { s with raw := bytes table 0 rawMADTSize } with
  | error f =>
      rw [hcounted] at hcount
      refine (hraw.bind (hcount.stop _)).congr fun i => ?_
      simp [hvalid, not_allocatable hcounted]
  | ok s₁ =>
      rw [hcounted] at hcount
      simp only
      by_cases hle : ∃ kind ∈ allKinds, 65536 < s₁.count kind * structSize kind
      · refine (hraw.bind (hcount.bind (W := fun _ => False) ?_)).congr fun i => by
          simp [hvalid, (allocatable_iff hcounted).not.mpr (not_not.mpr hle)]
        rw [if_pos hle, if_pos hle]
        exact .pure _
      · refine (hraw.bind (hcount.bind (W := CopyUsed table (headerLength table) rawMADTSize)
          ?_)).congr fun i => by simp [hvalid, (allocatable_iff hcounted).mpr hle]
        have hcopy := readEntries_footprint (P := P) table (headerLength table)
          rawMADTSize (arraysReady s₁)
        rw [if_neg hle, if_neg hle]
        cases hcopied : copyEntries table (headerLength table) rawMADTSize (arraysReady s₁) with
        | error f =>
            rw [hcopied] at hcopy
            exact hcopy.stop _
        | ok s₂ =>
            rw [hcopied] at hcopy
            exact (hcopy.bind (.pure _)).congr fun i => by simp

end

/-- The arrays, whatever the allocator does: if it has no memory for one that is needed, then the
assertion behind the calls fails. -/
theorem kmallocArrays_cases {V : Type} {kmalloc : V → ℕ → Except Fault (ℕ × V)} {I : V → Prop}
    (hkeep : ∀ v n p v', I v → kmalloc v n = .ok (p, v') → I v' ∧ (65536 < n → p = 0))
    {Q : Fault → Prop} (hfault : ∀ v n f, I v → kmalloc v n = .error f → Q f)
    (kinds : List EntryKind) (hnodup : kinds.Nodup) {v : V} (hv : I v) (s : State) :
    (∃ f, kmallocArrays kmalloc kinds v s = .error (.fault f) ∧ Q f) ∨
    ∃ s' v', kmallocArrays kmalloc kinds v s = .ok (s', v') ∧ I v' ∧ s'.count = s.count ∧
      (∀ kind ∉ kinds, s'.array kind = s.array kind) ∧
      ∀ kind ∈ kinds, 65536 < s.count kind * structSize kind → s'.array kind = 0 := by
  induction kinds generalizing v s with
  | nil => exact .inr ⟨s, v, rfl, hv, rfl, fun _ _ => rfl, by simp⟩
  | cons kind kinds ih =>
      obtain ⟨hnot, hnodup'⟩ := List.nodup_cons.mp hnodup
      cases hk : kmalloc v (s.count kind * structSize kind) with
      | error f =>
          left
          exact ⟨f, by simp [kmallocArrays, hk, toStop, bind, Except.bind], hfault _ _ _ hv hk⟩
      | ok r =>
          obtain ⟨p, v₁⟩ := r
          obtain ⟨hv₁, hlarge⟩ := hkeep _ _ _ _ hv hk
          have hstep : kmallocArrays kmalloc (kind :: kinds) v s = kmallocArrays kmalloc kinds v₁
              { s with array := Function.update s.array kind p } := by
            simp [kmallocArrays, hk, toStop, bind, Except.bind]
          rw [hstep]
          rcases ih hnodup' hv₁ { s with array := Function.update s.array kind p } with
            herr | ⟨s', v', hok, hv', hcount, hother, hlarge'⟩
          · exact .inl herr
          · refine .inr ⟨s', v', hok, hv', hcount, ?_, ?_⟩
            · intro other hout
              rw [List.mem_cons, not_or] at hout
              exact (hother other hout.2).trans (Function.update_of_ne hout.1 _ _)
            · intro other hin hsize
              rcases List.mem_cons.mp hin with rfl | hin
              · exact (hother other hnot).trans ((Function.update_self _ _ _).trans (hlarge hsize))
              · exact hlarge' other hin hsize

/-- `parseMADT` behind the test of the checksum, with any allocator. -/
theorem readValidMADT_shown {V : Type} {kmalloc : V → ℕ → Except Fault (ℕ × V)} {I : V → Prop}
    {read : V → Reader} {P : V → ℕ → Prop} (hread : ∀ v, read v = shownBytes (P v) table)
    (hkeep : ∀ v n p v', I v → kmalloc v n = .ok (p, v') → I v' ∧ (65536 < n → p = 0))
    {Q : Fault → Prop} (hfault : ∀ v n f, I v → kmalloc v n = .error f → Q f)
    (hassertion : Q .assertion)
    (hdiverges : Reached table rawMADTSize (headerLength table) → Q .diverges) {t : State}
    (hcount : t.count = s.count) (hused : ∀ v, I v → ∀ i, MADTUsed table s i → P v i) {v : V}
    (hv : I v) (hvalid : isChecksumValid table (headerLength table) = true) :
    (∃ f, readValidMADT kmalloc read (headerLength table) v t = .error (.fault f) ∧ Q f) ∨
    ∃ t' v' s', readValidMADT kmalloc read (headerLength table) v t = .ok (t', v') ∧ I v' ∧
      parseMADT enoughMemory table s = .ok s' ∧ t'.count = s'.count := by
  have hraw := (readBytes_footprint (P := P v) table 0 rawMADTSize).shown fun i hi =>
    hused v hv i (.inr (.inr ⟨hvalid, .inl (by omega)⟩))
  have hcounts := (readCounts_footprint (P := P v) table (headerLength table) rawMADTSize
    { t with raw := bytes table 0 rawMADTSize }).shown fun i hi =>
      hused v hv i (.inr (.inr ⟨hvalid, .inr (.inl hi)⟩))
  rw [parseMADT_enough hvalid]
  rw [← hread] at hraw hcounts
  rw [readValidMADT, hraw, ok_bind, hcounts]
  cases hcounted : countEntries table (headerLength table) rawMADTSize
      { t with raw := bytes table 0 rawMADTSize } with
  | error f =>
      obtain ⟨rfl, hr⟩ := countEntries_error hcounted
      exact .inl ⟨.diverges, rfl, hdiverges hr⟩
  | ok t₁ =>
      obtain ⟨s₁, hcounted', hcount₁⟩ := exists_ok_of_map_eq
        (countEntries_count table (headerLength table) rawMADTSize
          (s := { t with raw := bytes table 0 rawMADTSize })
          (t := { s with raw := bytes table 0 rawMADTSize }) hcount) hcounted
      rw [toStop, ok_bind, hcounted']
      rcases kmallocArrays_cases hkeep hfault allKinds (by decide) hv t₁ with
        ⟨f, herr, hf⟩ | ⟨t₂, v₂, hok, hv₂, hcount₂, -, hlarge⟩
      · exact .inl ⟨f, by rw [herr]; rfl, hf⟩
      rw [hok, ok_bind]
      simp only
      by_cases hmissing : ∃ kind ∈ allKinds, t₂.array kind = 0 ∧ t₂.count kind ≠ 0
      · exact .inl ⟨.assertion, if_pos hmissing, hassertion⟩
      have hle : ¬ ∃ kind ∈ allKinds, 65536 < s₁.count kind * structSize kind := by
        rintro ⟨kind, hkind, hsize⟩
        rw [← hcount₁] at hsize
        refine hmissing ⟨kind, hkind, hlarge kind hkind hsize, ?_⟩
        intro h0
        rw [hcount₂] at h0
        rw [h0] at hsize
        omega
      have hcopy := (readEntries_footprint (P := P v₂) table (headerLength table)
        rawMADTSize { t₂ with count := fun _ => 0 }).shown fun i hi =>
          hused v₂ hv₂ i (.inr (.inr ⟨hvalid, .inr (.inr
            ⟨(allocatable_iff hcounted').mpr hle, hi⟩)⟩))
      rw [← hread] at hcopy
      rw [if_neg hmissing, if_neg hle, hcopy]
      cases hcopied : copyEntries table (headerLength table) rawMADTSize
          { t₂ with count := fun _ => 0 } with
      | error f =>
          refine .inl ⟨f, rfl, ?_⟩
          rcases copyEntries_error hcopied with rfl | ⟨rfl, hr⟩
          · exact hassertion
          · exact hdiverges hr
      | ok t₃ =>
          obtain ⟨s₃, hcopied', hcount₃⟩ := exists_ok_of_map_eq
            (copyEntries_count table (headerLength table) rawMADTSize
              (s := { t₂ with count := fun _ => 0 }) (t := arraysReady s₁) rfl) hcopied
          rw [hcopied']
          exact .inr ⟨_, v₂, _, rfl, hv₂, rfl, hcount₃⟩

/-- **`parseMADT` with any allocator**, if all that it may read can be read whatever the allocator
does: it ends for another reason, or it returns, and so does `parseMADT` with enough memory, with
the same counts. -/
theorem readMADT_shown {V : Type} {kmalloc : V → ℕ → Except Fault (ℕ × V)} {I : V → Prop}
    {read : V → Reader} {P : V → ℕ → Prop} (hread : ∀ v, read v = shownBytes (P v) table)
    (hkeep : ∀ v n p v', I v → kmalloc v n = .ok (p, v') → I v' ∧ (65536 < n → p = 0))
    {Q : Fault → Prop} (hfault : ∀ v n f, I v → kmalloc v n = .error f → Q f)
    (hassertion : Q .assertion)
    (hdiverges : Reached table rawMADTSize (headerLength table) → Q .diverges) {t : State}
    (hcount : t.count = s.count) (hused : ∀ v, I v → ∀ i, MADTUsed table s i → P v i) {v : V}
    (hv : I v) :
    (∃ f, readMADT kmalloc read v t = .error (.fault f) ∧ Q f) ∨
    ∃ t' v' s', readMADT kmalloc read v t = .ok (t', v') ∧ I v' ∧
      parseMADT enoughMemory table s = .ok s' ∧ t'.count = s'.count := by
  have hlength := (read32_footprint (P := P v) table 4).shown fun i hi =>
    hused v hv i (.inl hi)
  have hchecksum := (readChecksum_footprint (P := P v) table
    (headerLength table)).shown fun i hi => hused v hv i (.inr (.inl hi))
  rw [leValue_header, ← hread] at hlength
  rw [← hread] at hchecksum
  have hread' : readMADT kmalloc read v t =
      if isChecksumValid table (headerLength table) then
        readValidMADT kmalloc read (headerLength table) v t
      else .ok ({ t with
        present := false, messages := t.messages ++ [.invalidChecksum] }, v) := by
    rw [readMADT, hlength, ok_bind, hchecksum, ok_bind]
  rw [hread']
  by_cases hvalid : isChecksumValid table (headerLength table) = true
  · rw [if_pos hvalid]
    exact readValidMADT_shown hread hkeep hfault hassertion hdiverges hcount hused hv hvalid
  · rw [if_neg hvalid, parseMADT, if_pos hvalid]
    exact .inr ⟨_, v, _, rfl, hv, rfl, hcount⟩

end

/-! ### The footprint of a table -/

/-- The kinds of tables that are parsed, each by a function of its own. -/
inductive TableKind
  | fadt
  | madt
  | hpett
  deriving DecidableEq, Repr

/-- The parser for a table, chosen by the four bytes of its signature. -/
def tableKind (table : ℕ → UInt8) : Option TableKind :=
  if bytes table 0 4 = facp then some .fadt
  else if bytes table 0 4 = apic then some .madt
  else if bytes table 0 4 = hpet then some .hpett
  else none

/-- What a table does to the entries of the MADT, if there is enough memory. -/
def tableResult (table : ℕ → UInt8) (s : State) : Except Fault State :=
  match tableKind table with
  | some .madt => parseMADT enoughMemory table s
  | _ => .ok s

/-- The bytes of the signature that are read: those before which it agrees with one that is looked
for. -/
def SignatureUsed (table : ℕ → UInt8) (i : ℕ) : Prop :=
  i < 4 ∧ ∃ name ∈ [facp, apic, hpet], bytes table 0 i = name.take i

/-- **The bytes of a table that are read** if there is enough memory. -/
def TableUsed (s : State) (table : ℕ → UInt8) (i : ℕ) : Prop :=
  SignatureUsed table i ∨
    match tableKind table with
    | some .madt => MADTUsed table s i
    | some _ => (4 ≤ i ∧ i < 8) ∨ i < headerLength table
    | none => False

section

variable {table : ℕ → UInt8} {P : ℕ → Prop}

/-- The first bytes of a table that begins with a name. -/
theorem bytes_take {name : List UInt8} {n i : ℕ} (h : bytes table 0 n = name) (hi : i ≤ n) :
    bytes table 0 i = name.take i := by
  rw [← h, bytes, bytes, ← List.map_take, List.take_range, Nat.min_eq_left hi]

/-- Comparing with a name of four letters reads a letter only if all letters before it agree,
and tells whether the names are equal. -/
theorem readMatches_four {name : List UInt8} (hname : name.length = 4) :
    Reads P (fun i => i < 4 ∧ bytes table 0 i = name.take i)
      (readMatches (shownBytes P table) 0 name) (.ok (decide (bytes table 0 4 = name))) := by
  have h := readMatches_footprint (P := P) table 0 name
  rw [hname] at h
  exact h.congr fun i => by simp

/-- **The footprint of a table that is copied as a whole**: its length, and the bytes up to it. -/
theorem readWhole_footprint {α : Type} (copied : List UInt8 → α) (ignored : α) :
    Reads P (fun i => (4 ≤ i ∧ i < 8) ∨ i < headerLength table)
      (do
        let length ← read32 (shownBytes P table) 4
        let valid ← readChecksum (shownBytes P table) length
        if valid then do
          let whole ← readBytes (shownBytes P table) 0 length
          return copied whole
        else .ok ignored)
      (.ok (if isChecksumValid table (headerLength table) then
        copied (bytes table 0 (headerLength table)) else ignored)) := by
  have hlength := read32_footprint (P := P) table 4
  rw [leValue_header] at hlength
  have hchecksum := readChecksum_footprint (P := P) table (headerLength table)
  by_cases hvalid : isChecksumValid table (headerLength table) = true
  · refine (hlength.bind (hchecksum.bind
      (W := fun i => (0 ≤ i ∧ i < 0 + headerLength table) ∨ False) ?_)).congr fun i => by simp
    rw [if_pos hvalid, if_pos hvalid]
    exact (readBytes_footprint table 0 (headerLength table)).bind (.pure _)
  · refine (hlength.bind (hchecksum.bind (W := fun _ => False) ?_)).congr fun i => by simp
    rw [if_neg hvalid, if_neg hvalid]
    exact .pure _

/-- `parseFADT` touches the length and the bytes that it says, copies them, and leaves the MADT
as it is. -/
theorem readFADT_footprint {V : Type} (v : V) (g : Globals) :
    ∃ g', g'.madt = g.madt ∧ Reads P (fun i => (4 ≤ i ∧ i < 8) ∨ i < headerLength table)
      (readFADT (fun _ => shownBytes P table) v g) (.ok g') := by
  refine ⟨_, ?_, readWhole_footprint (fun fadt => { g with fadt := fadt, fadtPresent := true })
    { g with fadtPresent := false }⟩
  split <;> rfl

/-- `parseHPETT` touches the length and the bytes that it says, copies them, and leaves the
MADT as it is. -/
theorem readHPETT_footprint {V : Type} (v : V) (g : Globals) :
    ∃ g', g'.madt = g.madt ∧ Reads P (fun i => (4 ≤ i ∧ i < 8) ∨ i < headerLength table)
      (readHPETT (fun _ => shownBytes P table) v g) (.ok g') := by
  refine ⟨_, ?_, readWhole_footprint (fun hpett => { g with hpett := hpett, hpettPresent := true })
    g⟩
  split <;> rfl

end

end MugOS.ACPI
