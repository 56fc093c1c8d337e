import MugOS.Memory

/-!
# The Multiple APIC Description Table

`parseMADT` of `Kernel/Drivers/ACPI/ACPI.c`: the table is checked by its checksum, its entries are
counted, arrays are allocated for the eight kinds of entries that the kernel uses, and the entries
are copied into them. The length of an entry has to be the size of the structure that
`Kernel/Drivers/ACPI/Tables.h` declares for its type.

The structures for I/O APIC NMI sources and for local x2APICs are two bytes longer than the entries
that the ACPI specification describes.

## Main results

* `countEntries_eq`, `copyEntries_ok_iff`: the two loops on a table whose entries tile it.
* `parses_iff`: a conforming table is parsed exactly when it has no entries of these two types.
-/

namespace MugOS.ACPI

/-! ### Entries -/

/-- The types of entries that are counted and copied. -/
inductive EntryKind
  | lapic
  | ioapic
  | ioapicIso
  | ioapicNmiSrc
  | lapicNmi
  | lapicAddrOverride
  | x2apic
  | x2apicNmi
  deriving DecidableEq, Repr

/-- `enum MADTEntryType`, as far as its entries are used. -/
def entryKind (entryType : UInt8) : Option EntryKind :=
  match entryType.toNat with
  | 0x00 => some .lapic
  | 0x01 => some .ioapic
  | 0x02 => some .ioapicIso
  | 0x03 => some .ioapicNmiSrc
  | 0x04 => some .lapicNmi
  | 0x05 => some .lapicAddrOverride
  | 0x09 => some .x2apic
  | 0x0a => some .x2apicNmi
  | _ => none

/-- The types that are skipped without a message: `MADT_ENTRYTYPE_IOSAPIC`,
`MADT_ENTRYTYPE_LSAPIC` and `MADT_ENTRYTYPE_PIS`. -/
def isSkipped (entryType : UInt8) : Bool := entryType = 0x06 || entryType = 0x07 || entryType = 0x08

/-- `sizeof(struct MADTEntry_*)`, as the sum of the sizes of the members. All structures but the
last are packed, and the members of the last are aligned without padding. -/
def structSize : EntryKind → ℕ
  | .lapic => 2 + 1 + 1 + 4
  | .ioapic => 2 + 1 + 1 + 4 + 4
  | .ioapicIso => 2 + 1 + 1 + 4 + 2
  | .ioapicNmiSrc => 2 + 1 + 1 + 2 + 4
  | .lapicNmi => 2 + 1 + 2 + 1
  | .lapicAddrOverride => 2 + 2 + 8
  | .x2apic => 2 + 2 + 4 + 4 + 2 + 4
  | .x2apicNmi => 2 + 2 + 4 + 1 + 3

/-! ### The parser -/

/-- `sizeof(struct rawMADT)`. -/
abbrev rawMADTSize : ℕ := 44

/-- The messages that the parser logs: a table with a wrong checksum, and an entry of a type
that it does not support. -/
inductive Message
  /-- `"Invalid MADT checksum, table will be ignored"` -/
  | invalidChecksum
  /-- `"Unsupported MADT_raw type %d"` -/
  | unsupported (entryType : UInt8)
  deriving DecidableEq, Repr

/-- `g_MADT`, with what is in its arrays, `g_MADTPresent`, and the messages so far. -/
structure State where
  /-- the part of `g_MADT` that is copied from the table -/
  raw : List UInt8
  count : EntryKind → ℕ
  array : EntryKind → ℕ
  entries : EntryKind → ℕ → List UInt8
  present : Bool
  messages : List Message

/-- The state before a table is parsed. -/
def State.start : State := ⟨[], fun _ => 0, fun _ => 0, fun _ _ => [], false, []⟩

/-- The `n` bytes of the table from an offset on, in their order in memory. -/
def bytes (table : ℕ → UInt8) (offset n : ℕ) : List UInt8 :=
  (List.range n).map fun i => table (offset + i)

/-- `header.length`: the length of the whole table in bytes, read from its bytes 4 to 7. -/
def headerLength (table : ℕ → UInt8) : ℕ :=
  (table 4).toNat + (table 5).toNat * 2 ^ 8 + (table 6).toNat * 2 ^ 16 + (table 7).toNat * 2 ^ 24

/-- `isChecksumValid(table, size)`: whether the bytes of the table sum up to zero modulo
256. -/
def isChecksumValid (table : ℕ → UInt8) (size : ℕ) : Bool :=
  (bytes table 0 size).foldl (· + ·) 0 = 0

/-- `curHdr->entryLength` of the entry at an offset. -/
def entryLength (table : ℕ → UInt8) (offset : ℕ) : ℕ := (table (offset + 1)).toNat

/-- The body of the loop that counts entries: one more of a kind that is stored, or a message
for an unknown type. -/
def countEntry (entryType : UInt8) (s : State) : State :=
  match entryKind entryType with
  | some kind => { s with count := Function.update s.count kind (s.count kind + 1) }
  | none =>
      if isSkipped entryType then s
      else { s with messages := s.messages ++ [.unsupported entryType] }

/-- The loop that counts entries, from an offset on. Every entry has a length, so that a loop
with more rounds than there are bytes does not end. -/
def countEntries (table : ℕ → UInt8) : ℕ → ℕ → State → Except Fault State
  | rounds, offset, s =>
      if offset < headerLength table then
        match rounds with
        | 0 => .error .diverges
        | rounds + 1 =>
            countEntries table rounds ((offset + entryLength table offset) % 2 ^ 32)
              (countEntry (table offset) s)
      else .ok s

/-- The kinds of entries in the order of the allocations and of the assertions. -/
def allKinds : List EntryKind :=
  [.lapic, .ioapic, .ioapicIso, .ioapicNmiSrc, .lapicNmi, .lapicAddrOverride, .x2apic, .x2apicNmi]

/-- The calls of `kmalloc`, which is told how many calls there were before. -/
def allocateArrays (kmalloc : ℕ → ℕ → ℕ) (s : State) : State :=
  { s with array := fun kind => kmalloc (allKinds.idxOf kind) (s.count kind * structSize kind) }

/-- The body of the loop that copies entries: the assertion about its length, and the copy into
the array of its kind. -/
def copyEntry (table : ℕ → UInt8) (offset : ℕ) (s : State) : Except Fault State :=
  match entryKind (table offset) with
  | none => .ok s
  | some kind =>
      if entryLength table offset ≠ structSize kind then .error .assertion
      else
        .ok { s with
          entries := Function.update s.entries kind
            (Function.update (s.entries kind) (s.count kind) (bytes table offset (structSize kind)))
          count := Function.update s.count kind (s.count kind + 1) }

/-- The loop that copies entries, from an offset on. -/
def copyEntries (table : ℕ → UInt8) : ℕ → ℕ → State → Except Fault State
  | rounds, offset, s =>
      if offset < headerLength table then
        match rounds with
        | 0 => .error .diverges
        | rounds + 1 => do
            let s ← copyEntry table offset s
            copyEntries table rounds ((offset + entryLength table offset) % 2 ^ 32) s
      else .ok s

/-- `parseMADT(madt_ptr)`: checks the sum, copies the header, counts the entries, allocates the
arrays and copies the entries. -/
def parseMADT (kmalloc : ℕ → ℕ → ℕ) (table : ℕ → UInt8) (s : State) : Except Fault State :=
  if ¬ isChecksumValid table (headerLength table) then
    .ok { s with present := false, messages := s.messages ++ [.invalidChecksum] }
  else do
    let s := { s with raw := bytes table 0 rawMADTSize }
    let s ← countEntries table (headerLength table) rawMADTSize s
    let s := allocateArrays kmalloc s
    if ∃ kind ∈ allKinds, s.array kind = 0 ∧ s.count kind ≠ 0 then .error .assertion
    else
      let s ← copyEntries table (headerLength table) rawMADTSize { s with count := fun _ => 0 }
      return { s with present := true }

/-! ### Conforming tables -/

/-- The lengths that the ACPI specification gives the entries. -/
def specLength : EntryKind → ℕ
  | .lapic => 8
  | .ioapic => 12
  | .ioapicIso => 10
  | .ioapicNmiSrc => 8
  | .lapicNmi => 6
  | .lapicAddrOverride => 12
  | .x2apic => 16
  | .x2apicNmi => 12

/-- The entries tile the table from an offset on: the kinds of the entries are the given ones,
their lengths are those of the specification, and the last one ends with the table. -/
inductive Tiles (table : ℕ → UInt8) : ℕ → List (Option EntryKind) → Prop
  | done : Tiles table (headerLength table) []
  | entry {offset : ℕ} {kinds : List (Option EntryKind)} (hlt : offset < headerLength table)
      (hpos : 0 < entryLength table offset)
      (hlength : ∀ kind, entryKind (table offset) = some kind →
        entryLength table offset = specLength kind)
      (hrest : Tiles table (offset + entryLength table offset) kinds) :
      Tiles table offset (entryKind (table offset) :: kinds)

/-- **A conforming MADT** with entries of the given kinds. -/
structure Conforming (table : ℕ → UInt8) (kinds : List (Option EntryKind)) : Prop where
  checksum : isChecksumValid table (headerLength table) = true
  length_le : headerLength table ≤ 65536
  tiles : Tiles table rawMADTSize kinds

/-- The table is parsed: the parser returns, and the table counts as present. -/
def Parsed (kmalloc : ℕ → ℕ → ℕ) (table : ℕ → UInt8) : Prop :=
  ∃ s, parseMADT kmalloc table State.start = .ok s ∧ s.present = true

/-! ### The loops -/

section

variable {table : ℕ → UInt8} {offset rounds : ℕ} {kinds : List (Option EntryKind)}

/-- Entries that tile the table from an offset on end with the table: the offset is at most its
length. -/
theorem Tiles.le (h : Tiles table offset kinds) : offset ≤ headerLength table := by
  cases h with
  | done => exact le_refl _
  | entry hlt hpos hlength hrest => exact hlt.le

/-- The next entry of a table that is not large begins where its predecessor ends. -/
theorem Tiles.next_eq (hrest : Tiles table (offset + entryLength table offset) kinds)
    (hle : headerLength table ≤ 65536) :
    (offset + entryLength table offset) % 2 ^ 32 = offset + entryLength table offset :=
  Nat.mod_eq_of_lt (by have := hrest.le; omega)

/-- The entries of one kind take their bytes of the table: as many as there are, each of the
size that the specification gives for the kind. -/
theorem Tiles.count_mul_le (h : Tiles table offset kinds) (kind : EntryKind) :
    offset + kinds.count (some kind) * specLength kind ≤ headerLength table := by
  induction h with
  | done => simp
  | @entry offset kinds hlt hpos hlength hrest ih =>
      rw [List.count_cons]
      by_cases hkind : entryKind (table offset) = some kind
      · rw [if_pos (by simpa using hkind), Nat.succ_mul, ← hlength kind hkind]
        rw [← hlength kind hkind] at ih
        omega
      · rw [if_neg (by simpa using hkind), Nat.add_zero]
        omega

/-- **The first loop** counts the entries: with enough rounds it returns, and has added to the
count of each kind the number of its entries. -/
theorem countEntries_eq (h : Tiles table offset kinds) (hle : headerLength table ≤ 65536)
    (hrounds : headerLength table ≤ offset + rounds) (s : State) :
    ∃ s', countEntries table rounds offset s = .ok s' ∧
      ∀ kind, s'.count kind = s.count kind + kinds.count (some kind) := by
  induction h generalizing rounds s with
  | done =>
      unfold countEntries
      rw [if_neg (lt_irrefl _)]
      exact ⟨s, rfl, by simp⟩
  | @entry offset kinds hlt hpos hlength hrest ih =>
      obtain ⟨rounds, rfl⟩ : ∃ k, rounds = k + 1 := ⟨rounds - 1, by omega⟩
      unfold countEntries
      rw [if_pos hlt]
      simp only [hrest.next_eq hle]
      obtain ⟨s', heq, hcount⟩ := @ih rounds (by omega) (countEntry (table offset) s)
      refine ⟨s', heq, fun kind => ?_⟩
      rw [hcount kind, List.count_cons, countEntry]
      cases hkind : entryKind (table offset) with
      | none =>
          simp only
          split <;> simp
      | some kind' =>
          by_cases hsame : kind = kind'
          · subst hsame
            simp only [Function.update_self, beq_self_eq_true, if_true]
            omega
          · have hne : (some kind' == some kind) = false := by simpa using Ne.symm hsame
            simp [Function.update_of_ne hsame, hne]

/-- An entry of the specification is copied exactly when it has the size of its structure. -/
theorem copyEntry_ok_iff (hlength : ∀ kind, entryKind (table offset) = some kind →
    entryLength table offset = specLength kind) (s : State) :
    (∃ s', copyEntry table offset s = .ok s') ↔
      ∀ kind, entryKind (table offset) = some kind → specLength kind = structSize kind := by
  rw [copyEntry]
  cases hkind : entryKind (table offset) with
  | none => simp
  | some kind' =>
      simp only
      rw [hlength kind' hkind]
      by_cases hsize : specLength kind' = structSize kind'
      · rw [if_neg (not_not_intro hsize)]
        simp [hsize]
      · rw [if_pos hsize]
        simp [hsize]

/-- **The second loop** returns exactly when every entry has the size of its structure. -/
theorem copyEntries_ok_iff (h : Tiles table offset kinds) (hle : headerLength table ≤ 65536)
    (hrounds : headerLength table ≤ offset + rounds) (s : State) :
    (∃ s', copyEntries table rounds offset s = .ok s') ↔
      ∀ kind, some kind ∈ kinds → specLength kind = structSize kind := by
  induction h generalizing rounds s with
  | done =>
      unfold copyEntries
      rw [if_neg (lt_irrefl _)]
      simp
  | @entry offset kinds hlt hpos hlength hrest ih =>
      obtain ⟨rounds, rfl⟩ : ∃ k, rounds = k + 1 := ⟨rounds - 1, by omega⟩
      unfold copyEntries
      rw [if_pos hlt]
      simp only [hrest.next_eq hle, bind_eq_ok]
      have hentry := copyEntry_ok_iff hlength s
      have hih := @ih rounds (by omega)
      constructor
      · rintro ⟨s', s₁, hfirst, hothers⟩ kind hmem
        rcases List.mem_cons.mp hmem with hhead | htail
        · exact hentry.mp ⟨s₁, hfirst⟩ kind hhead.symm
        · exact (hih s₁).mp ⟨s', hothers⟩ kind htail
      · intro hall
        obtain ⟨s₁, hfirst⟩ := hentry.mpr fun kind hkind => hall kind (by rw [hkind]; simp)
        obtain ⟨s', hothers⟩ := (hih s₁).mpr fun kind hmem =>
          hall kind (List.mem_cons_of_mem _ hmem)
        exact ⟨s', s₁, hfirst, hothers⟩

end

/-- The kinds whose structures are as long as the specification says. -/
theorem specLength_eq_iff (kind : EntryKind) :
    specLength kind = structSize kind ↔ kind ≠ .ioapicNmiSrc ∧ kind ≠ .x2apic := by
  cases kind <;> decide

/-- **A conforming MADT is parsed exactly when it has neither NMI sources nor x2APICs**, `kmalloc`
succeeding for the sizes it supports. -/
theorem parses_iff {kmalloc : ℕ → ℕ → ℕ}
    (hkmalloc : ∀ t size, 1 ≤ size → size ≤ 65536 → kmalloc t size ≠ 0) {table : ℕ → UInt8}
    {kinds : List (Option EntryKind)} (h : Conforming table kinds) :
    Parsed kmalloc table ↔ some .ioapicNmiSrc ∉ kinds ∧ some .x2apic ∉ kinds := by
  obtain ⟨hchecksum, hle, htiles⟩ := h
  have hsizes : (some .ioapicNmiSrc ∉ kinds ∧ some .x2apic ∉ kinds) ↔
      ∀ kind, some kind ∈ kinds → specLength kind = structSize kind := by
    simp only [specLength_eq_iff]
    constructor
    · rintro ⟨hnmi, hx2⟩ kind hmem
      exact ⟨fun heq => hnmi (heq ▸ hmem), fun heq => hx2 (heq ▸ hmem)⟩
    · exact fun hall => ⟨fun hmem => (hall _ hmem).1 rfl, fun hmem => (hall _ hmem).2 rfl⟩
  obtain ⟨s, hcount, hcounts⟩ := countEntries_eq htiles hle (Nat.le_add_left _ _)
    ⟨bytes table 0 rawMADTSize, fun _ => 0, fun _ => 0, fun _ _ => [], false, []⟩
  have hcopy := copyEntries_ok_iff htiles hle (Nat.le_add_left _ _)
    { allocateArrays kmalloc s with count := fun _ => 0 }
  -- Arrays for structures that are as long as the entries are no longer than the table.
  have harrays : (∀ kind, some kind ∈ kinds → specLength kind = structSize kind) →
      ¬ ∃ kind ∈ allKinds, (allocateArrays kmalloc s).array kind = 0 ∧
        (allocateArrays kmalloc s).count kind ≠ 0 := by
    rintro hall ⟨kind, -, harray, hne⟩
    have hcountk : s.count kind = kinds.count (some kind) := by
      rw [hcounts kind, Nat.zero_add]
    have hpos : 0 < s.count kind := Nat.pos_of_ne_zero hne
    have hmem : some kind ∈ kinds := List.count_pos_iff.mp (hcountk ▸ hpos)
    have hmul := htiles.count_mul_le kind
    rw [hall kind hmem, ← hcountk] at hmul
    have hsize : 0 < structSize kind := by cases kind <;> decide
    exact hkmalloc _ (s.count kind * structSize kind) (Nat.mul_pos hpos hsize) (by omega) harray
  have hparse : parseMADT kmalloc table State.start =
      if ∃ kind ∈ allKinds, (allocateArrays kmalloc s).array kind = 0 ∧
        (allocateArrays kmalloc s).count kind ≠ 0 then .error .assertion
      else do
        let s ← copyEntries table (headerLength table) rawMADTSize
          { allocateArrays kmalloc s with count := fun _ => 0 }
        return { s with present := true } := by
    have hstart : ({ State.start with raw := bytes table 0 rawMADTSize } : State) =
        ⟨bytes table 0 rawMADTSize, fun _ => 0, fun _ => 0, fun _ _ => [], false, []⟩ := rfl
    rw [parseMADT, if_neg (not_not_intro hchecksum), hstart]
    show (countEntries table (headerLength table) rawMADTSize
      ⟨bytes table 0 rawMADTSize, fun _ => 0, fun _ => 0, fun _ _ => [], false, []⟩ >>= _) = _
    rw [hcount]
    rfl
  rw [hsizes, Parsed, hparse]
  constructor
  · rintro ⟨s', hok, -⟩
    split at hok
    · exact absurd hok (by simp)
    · obtain ⟨s'', hloop, -⟩ := bind_eq_ok.mp hok
      exact hcopy.mp ⟨s'', hloop⟩
  · intro hall
    obtain ⟨s', hloop⟩ := hcopy.mpr hall
    rw [if_neg (harrays hall), hloop]
    exact ⟨_, rfl, rfl⟩

/-- A table of 44 bytes of header and some entries, with its length and checksum. -/
def tableOf (entries : List UInt8) : ℕ → UInt8 :=
  let length := rawMADTSize + entries.length
  let table := fun i => if i = 4 then UInt8.ofNat length else if i < rawMADTSize then 0
    else entries.getD (i - rawMADTSize) 0
  Function.update table 9 (0 - (bytes table 0 length).foldl (· + ·) 0)

/-- An allocator that hands out one page after the other. -/
def pageKmalloc : ℕ → ℕ → ℕ := fun t _ => 0x1000 * (t + 1)

/-- The allocator with a page of its own for each size gives memory for every size of 1 to
65536 bytes. -/
theorem pageKmalloc_succeeds (t size : ℕ) (_ : 1 ≤ size) (_ : size ≤ 65536) :
    pageKmalloc t size ≠ 0 := by
  simp [pageKmalloc]

/-- The equivalence for a table with one local APIC and one interrupt source override. -/
theorem parses_iff_lapic :
    Conforming (tableOf [0, 8, 0, 0, 1, 0, 0, 0, 2, 10, 0, 0, 2, 0, 0, 0, 0, 0])
        [some .lapic, some .ioapicIso] ∧
      Parsed pageKmalloc (tableOf [0, 8, 0, 0, 1, 0, 0, 0, 2, 10, 0, 0, 2, 0, 0, 0, 0, 0]) := by
  have hconf : Conforming (tableOf [0, 8, 0, 0, 1, 0, 0, 0, 2, 10, 0, 0, 2, 0, 0, 0, 0, 0])
      [some .lapic, some .ioapicIso] := by
    refine ⟨by decide +kernel, by decide +kernel, ?_⟩
    refine .entry (by decide +kernel) (by decide +kernel) (by decide +kernel) ?_
    refine .entry (by decide +kernel) (by decide +kernel) (by decide +kernel) ?_
    exact .done
  exact ⟨hconf, (parses_iff pageKmalloc_succeeds hconf).mpr ⟨by decide, by decide⟩⟩

/-- Whether a computation ends with a failed assertion. -/
def failsAssertion {α : Type} : Except Fault α → Bool
  | .error .assertion => true
  | _ => false

/-- A computation that is found to fail an assertion is the error of the assertion. -/
theorem eq_of_failsAssertion {α : Type} {x : Except Fault α} (h : failsAssertion x = true) :
    x = .error .assertion := by
  unfold failsAssertion at h
  split at h
  · rfl
  · exact absurd h (by simp)

/-- **A conforming table that is not parsed**: its only entry is an NMI source of eight bytes. -/
theorem nmiSource_fails :
    Conforming (tableOf [3, 8, 0, 0, 1, 0, 0, 0]) [some .ioapicNmiSrc] ∧
      parseMADT pageKmalloc (tableOf [3, 8, 0, 0, 1, 0, 0, 0]) State.start = .error .assertion ∧
      ¬ Parsed pageKmalloc (tableOf [3, 8, 0, 0, 1, 0, 0, 0]) := by
  have hfails : parseMADT pageKmalloc (tableOf [3, 8, 0, 0, 1, 0, 0, 0]) State.start =
      .error .assertion := by
    exact eq_of_failsAssertion (by decide +kernel)
  refine ⟨⟨by decide +kernel, by decide +kernel, ?_⟩, hfails, ?_⟩
  · refine .entry (by decide +kernel) (by decide +kernel) (by decide +kernel) ?_
    exact .done
  · rintro ⟨s, hok, -⟩
    rw [hfails] at hok
    exact absurd hok (by simp)

end MugOS.ACPI
