import MugOS.MemoryMap

/-!
# The Memory Map Keeps the Firmware's Regions

What `MMap_init` makes of the memory map of the bootloader. The number of entries is predicted
by `processLimineMemoryMap` before `copyIntoMemoryMap` writes them. The prediction counts the
page at address 0 as a region of its own only when the first entry is longer than a page; the
copy splits it off in any case.

## Main results

* `processFrom_spec`: merging keeps the regions, and the count of type `int` follows it.
* `mmapInit_keeps_iff`: the map is kept exactly when the first page stands apart.
* `firstPageApart_iff`: for maps without empty entries, this means that the first entry is not
  the usable page at address 0 alone.
* `mmapInit_loses_last`: there, the last region is lost.
-/

namespace MugOS.MemoryMap

/-! ### The property -/

/-- A type of memory that the kernel knows, and that is not the mark of a removed entry. -/
def Known (t : LimineType) : Prop := t ≠ .removed ∧ t ≠ .unsupported

/-- Entries sorted by their bases, no two of which have an address in common. An entry of length
0 has no address at all, so that it may lie anywhere between the bases of its neighbours. -/
def Ordered (l : List LimineEntry) : Prop :=
  l.Pairwise fun a b => a.base ≤ b.base ∧
    ∀ x, ¬ ((a.base ≤ x ∧ x < a.base + a.length) ∧ b.base ≤ x ∧ x < b.base + b.length)

/-- Some entry of the list has the address in its range, and the type. -/
def Holds (l : List LimineEntry) (a : ℕ) (t : LimineType) : Prop :=
  ∃ e ∈ l, e.base ≤ a ∧ a < e.base + e.length ∧ e.type = t

/-- The entries that are not marked as removed, in their order. -/
def active (l : List LimineEntry) : List LimineEntry := l.filter fun e => e.type ≠ .removed

/-- The entry that is counted for the first page: one, if the first entry is usable, begins at
address 0 and is longer than a page. -/
def firstPageEntries : List LimineEntry → ℤ
  | [] => 0
  | cur :: _ => if cur.type = .usable ∧ cur.base = 0 ∧ cur.length > pageSize then 1 else 0

/-- A memory map of the bootloader: entries of whole pages, empty ones among them, of known types,
sorted and without overlap, that end below `2 ^ 64`; some usable byte above the first page; and
few enough entries for the memory map of the kernel, the one of the first page included. -/
structure WellFormed (limine : List LimineEntry) : Prop where
  known : ∀ e ∈ limine, Known e.type
  aligned : ∀ e ∈ limine, e.base % pageSize = 0 ∧ e.length % pageSize = 0
  fits : ∀ e ∈ limine, e.base + e.length < 2 ^ 64
  ordered : Ordered limine
  usable : ∃ a, pageSize ≤ a ∧ Holds limine a .usable
  few : (active (processLimineMemoryMap limine).2).length + firstPageEntries limine <
    mmapMaxEntries

/-- The page at address 0 is usable: an entry of the map has it. -/
def PageZeroUsable (limine : List LimineEntry) : Prop := Holds limine 0 .usable

/-- What the map of the kernel is to say about an address: the type of the bootloader's map,
but the page at address 0 is reserved if it was usable. -/
def Reported (limine : List LimineEntry) (a : ℕ) (t : MemoryType) : Prop :=
  (a < pageSize ∧ PageZeroUsable limine ∧ t = .reserved) ∨
    (¬ (a < pageSize ∧ PageZeroUsable limine) ∧ ∃ lt, Holds limine a lt ∧ getMemoryType lt = .ok t)

/-- The memory map is kept: `MMap_init` returns, as many entries are written as are announced,
and these are sorted, do not overlap, and have the addresses and types that they should. -/
def Kept (memmap : MemoryMap) (limine : List LimineEntry) : Prop :=
  ∃ written mmap limine', mmapInit memmap limine = .ok (written, mmap, limine') ∧
    mmap.size = written ∧
    (mmap.entries.take written).Pairwise (fun a b => a.address ≤ b.address ∧
      ∀ x, ¬ ((a.address ≤ x ∧ x < a.address + a.length) ∧
        b.address ≤ x ∧ x < b.address + b.length)) ∧
    ∀ a t, (∃ e ∈ mmap.entries.take written, e.address ≤ a ∧ a < e.address + e.length ∧
      e.type = t) ↔ Reported limine a t

/-! ### The condition -/

/-- The bytes of an entry that are counted as usable, given the entry behind it: an ACPI
reclaimable entry is cut where that one begins. -/
def countedLength (e : LimineEntry) (next : Option LimineEntry) : ℕ :=
  match e.type, next with
  | .usable, _ | .bootloaderReclaimable, _ | .acpiReclaimable, none => e.length
  | .acpiReclaimable, some next => min e.length (next.base - e.base)
  | _, _ => 0

/-- The bytes of a map that are counted as usable. -/
def counted : List LimineEntry → ℕ
  | [] => 0
  | e :: rest => countedLength e rest.head? + counted rest

/-- The usable entries with base 0. A page is subtracted for each of them. -/
def zeroEntries (l : List LimineEntry) : ℕ := l.countP fun e => e.type = .usable ∧ e.base = 0

/-- The first page stands apart. A first entry that is usable with base 0 is longer than a page
and the only one with base 0. Behind another first entry, page 0 is not usable, and the bytes
that are counted as usable do not cancel with the pages that are subtracted. -/
def FirstPageApart : List LimineEntry → Prop
  | [] => False
  | first :: rest =>
      if first.type = .usable ∧ first.base = 0 then
        pageSize < first.length ∧ ∀ e ∈ rest, e.base ≠ 0
      else
        ¬ PageZeroUsable (first :: rest) ∧
          counted (first :: rest) ≠ pageSize * zeroEntries (first :: rest)

/-! ### Sorted entries -/

/-- Two sorted entries have no address in common when the first one ends before the second one
begins, or the second one is empty. -/
theorem apart_iff {a b : LimineEntry} :
    (a.base ≤ b.base ∧
      ∀ x, ¬ ((a.base ≤ x ∧ x < a.base + a.length) ∧ b.base ≤ x ∧ x < b.base + b.length)) ↔
    a.base ≤ b.base ∧ (a.base + a.length ≤ b.base ∨ b.length = 0) := by
  refine and_congr_right fun hle => ?_
  constructor
  · intro h
    by_contra hnot
    exact h b.base ⟨⟨hle, by omega⟩, le_refl _, by omega⟩
  · rintro hend x ⟨⟨h1, h2⟩, h3, h4⟩
    omega

/-- Entries are in order when each is sorted before those behind it, and ends before them or has
empty ones behind it. -/
theorem ordered_iff {l : List LimineEntry} :
    Ordered l ↔ l.Pairwise fun a b =>
      a.base ≤ b.base ∧ (a.base + a.length ≤ b.base ∨ b.length = 0) := by
  simp only [Ordered, apart_iff]

/-- The entries behind the first one of an ordered map. -/
theorem Ordered.of_mem {e e' : LimineEntry} {l : List LimineEntry} (h : Ordered (e :: l))
    (he' : e' ∈ l) : e.base ≤ e'.base ∧ (e.base + e.length ≤ e'.base ∨ e'.length = 0) :=
  (List.pairwise_cons.mp (ordered_iff.mp h)).1 e' he'

/-- An ordered map without its first entry is ordered. -/
theorem Ordered.tail {e : LimineEntry} {l : List LimineEntry} (h : Ordered (e :: l)) :
    Ordered l :=
  (List.pairwise_cons.mp h).2

/-- An entry that starts before the entries of an ordered map and overlaps none of them can be
put in front of it. -/
theorem Ordered.cons {e : LimineEntry} {l : List LimineEntry} (h : Ordered l)
    (hfirst : ∀ e' ∈ l, e.base ≤ e'.base ∧ (e.base + e.length ≤ e'.base ∨ e'.length = 0)) :
    Ordered (e :: l) :=
  ordered_iff.mpr (List.pairwise_cons.mpr ⟨hfirst, ordered_iff.mp h⟩)

/-! ### Merging keeps the regions -/

/-- The entries `A` are those of `l`, some of them merged. -/
structure Squashed (l A : List LimineEntry) : Prop where
  known : ∀ e ∈ A, Known e.type
  ordered : Ordered A
  holds : ∀ a t, Holds A a t ↔ Holds l a t
  bases : (A.map LimineEntry.base).Sublist (l.map LimineEntry.base)
  ends : ∀ e ∈ A, ∃ e₀ ∈ l, e.base + e.length = e₀.base + e₀.length

/-- In an empty map there is nothing to merge, so it is squashed already. -/
theorem Squashed.nil : Squashed [] [] :=
  ⟨by simp, List.Pairwise.nil, by simp, .slnil, by simp⟩

/-- A map holds what its first entry holds and what the others hold. -/
theorem holds_cons {e : LimineEntry} {l : List LimineEntry} {a : ℕ} {t : LimineType} :
    Holds (e :: l) a t ↔ (e.base ≤ a ∧ a < e.base + e.length ∧ e.type = t) ∨ Holds l a t := by
  simp [Holds]

/-- An entry that is sorted before a map is sorted before what merging makes of the map. -/
theorem Squashed.apart {e e' : LimineEntry} {l A : List LimineEntry} (h : Squashed l A)
    (hord : Ordered (e :: l)) (he' : e' ∈ A) :
    e.base ≤ e'.base ∧ (e.base + e.length ≤ e'.base ∨ e'.length = 0) := by
  obtain ⟨e₀, he₀, hbase⟩ := List.mem_map.mp (h.bases.subset (List.mem_map_of_mem he'))
  refine ⟨hbase ▸ (hord.of_mem he₀).1, ?_⟩
  by_cases hempty : e'.length = 0
  · exact .inr hempty
  · -- The map has an entry with the first address, and this entry is not empty.
    have hheld : Holds A e'.base e'.type := ⟨e', he', le_refl _, by omega, rfl⟩
    obtain ⟨e₁, he₁, hle, hlt, -⟩ := (h.holds _ _).mp hheld
    have := hord.of_mem he₁
    omega

/-- An entry of a known type that stays as it is stands in front of the squashed rest. -/
theorem Squashed.cons {cur : LimineEntry} {rest A : List LimineEntry} (h : Squashed rest A)
    (hknown : Known cur.type) (hord : Ordered (cur :: rest)) :
    Squashed (cur :: rest) (cur :: A) where
  known := by
    intro e he
    rcases List.mem_cons.mp he with rfl | he
    · exact hknown
    · exact h.known e he
  ordered := h.ordered.cons fun e he => h.apart hord he
  holds := by
    intro a t
    rw [holds_cons, holds_cons, h.holds]
  bases := h.bases.cons_cons cur.base
  ends := by
    intro e he
    rcases List.mem_cons.mp he with rfl | he
    · exact ⟨e, List.mem_cons_self, rfl⟩
    · obtain ⟨e₀, he₀, hend⟩ := h.ends e he
      exact ⟨e₀, List.mem_cons_of_mem _ he₀, hend⟩

/-- Two adjacent entries of one type become one that covers both, in front of the squashed
rest. -/
theorem Squashed.merge {cur next : LimineEntry} {rest A : List LimineEntry} (h : Squashed rest A)
    (hknown : Known cur.type) (hord : Ordered (cur :: next :: rest))
    (htype : cur.type = next.type) (hadj : cur.base + cur.length = next.base) :
    Squashed (cur :: next :: rest) ({ cur with length := cur.length + next.length } :: A) where
  known := by
    intro e he
    rcases List.mem_cons.mp he with rfl | he
    · exact hknown
    · exact h.known e he
  ordered := by
    refine h.ordered.cons fun e he => ?_
    have := h.apart hord.tail he
    simp only
    omega
  holds := by
    intro a t
    rw [holds_cons, holds_cons, holds_cons, h.holds, ← htype, ← or_assoc]
    refine or_congr_left ?_
    simp only
    by_cases ht : cur.type = t
    · simp only [ht, and_true]
      omega
    · simp [ht]
  bases := (h.bases.cons next.base).cons_cons cur.base
  ends := by
    intro e he
    rcases List.mem_cons.mp he with rfl | he
    · refine ⟨next, by simp, ?_⟩
      simp only
      omega
    · obtain ⟨e₀, he₀, hend⟩ := h.ends e he
      exact ⟨e₀, by simp [he₀], hend⟩

/-- Two entries that are not merged stay apart, and the loop goes on with the second one. -/
theorem processFrom_of_ne {cur next : LimineEntry} {rest : List LimineEntry} (n : ℤ)
    (h : ¬ (cur.type = next.type ∧ wadd cur.base cur.length = next.base)) :
    processFrom n cur (next :: rest) =
      ((processFrom n next rest).1, cur :: (processFrom n next rest).2) := by
  rw [processFrom, if_neg h]

/-- Behind a removed entry, the loop goes on with the next one. -/
theorem processFrom_removed {cur : LimineEntry} (hcur : cur.type = .removed) (n : ℤ)
    (next : LimineEntry) (rest : List LimineEntry) (hnext : Known next.type) :
    processFrom n cur (next :: rest) =
      ((processFrom n next rest).1, cur :: (processFrom n next rest).2) := by
  apply processFrom_of_ne
  rintro ⟨htype, -⟩
  exact hnext.1 (htype ▸ hcur)

/-- One entry less is counted modulo `2 ^ 32`, as the entries themselves are. -/
theorem wrapInt_sub_one (z : ℤ) : wrapInt (wrapInt z - 1) = wrapInt (z - 1) :=
  Int.bmod_sub_bmod

/-- One entry more is counted modulo `2 ^ 32`, whether the count wrapped before or after it. -/
theorem wrapInt_add_one (z : ℤ) : wrapInt (wrapInt z + 1) = wrapInt (z + 1) :=
  Int.bmod_add_bmod

/-- Of two entries that are merged, the second one is removed and no longer counted. -/
theorem processFrom_merge {cur next : LimineEntry} {rest : List LimineEntry} (z : ℤ)
    (h : cur.type = next.type ∧ wadd cur.base cur.length = next.base) :
    processFrom (wrapInt z) cur (next :: rest) =
      ((processFrom (wrapInt (z - 1)) { next with type := .removed } rest).1,
        { cur with length := wadd cur.length next.length } ::
          (processFrom (wrapInt (z - 1)) { next with type := .removed } rest).2) := by
  simp only [processFrom, if_pos h, wrapInt_sub_one]

/-- **Merging keeps the regions**, and the number of entries is counted modulo `2 ^ 32`. The first
entry keeps its base and its type, and does not get shorter; at least half of the entries stay. -/
theorem processFrom_spec (z : ℤ) (cur : LimineEntry) (rest : List LimineEntry)
    (hknown : ∀ e ∈ cur :: rest, Known e.type) (hord : Ordered (cur :: rest))
    (hfits : ∀ e ∈ cur :: rest, e.base + e.length < 2 ^ 64) :
    ∃ length tail, (processFrom (wrapInt z) cur rest).2 = { cur with length := length } :: tail ∧
      cur.length ≤ length ∧ Squashed (cur :: rest) ({ cur with length := length } :: active tail) ∧
      (processFrom (wrapInt z) cur rest).1 =
        wrapInt (z + (active tail).length - rest.length) ∧
      rest.length ≤ 2 * (active tail).length + 1 := by
  have hcur : Known cur.type := hknown cur List.mem_cons_self
  match rest with
  | [] =>
      exact ⟨cur.length, [], rfl, le_refl _, Squashed.nil.cons hcur hord,
        by simp [processFrom, active], by simp⟩
  | next :: rest =>
      have hnext : Known next.type := hknown next (by simp)
      have hcurFits := hfits cur List.mem_cons_self
      have hnextFits := hfits next (by simp)
      have hsum : wadd cur.base cur.length = cur.base + cur.length := wadd_of_lt hcurFits
      by_cases hmerge : cur.type = next.type ∧ wadd cur.base cur.length = next.base
      · have hadj := hmerge.2
        rw [hsum] at hadj
        have hlen : wadd cur.length next.length = cur.length + next.length :=
          wadd_of_lt (by omega)
        -- The entry after a merged pair is not merged with it.
        match rest with
        | [] =>
            refine ⟨cur.length + next.length, [{ next with type := .removed }], ?_, by omega, ?_,
              ?_, by simp⟩
            · rw [processFrom_merge z hmerge, hlen]
              rfl
            · have : active [{ next with type := .removed }] = [] := by simp [active]
              rw [this]
              exact Squashed.nil.merge hcur hord hmerge.1 hadj
            · rw [processFrom_merge z hmerge]
              simp [processFrom, active]
        | next' :: rest =>
            have hknown' : ∀ e ∈ next' :: rest, Known e.type := by
              intro e he
              exact hknown e (by simp only [List.mem_cons] at he ⊢; tauto)
            have hnext' : Known next'.type := hknown' next' List.mem_cons_self
            obtain ⟨length, tail, heq, hle, hsq, hcount, hhalf⟩ := processFrom_spec (z - 1) next'
              rest hknown' hord.tail.tail fun e he => hfits e (by
                simp only [List.mem_cons] at he ⊢
                tauto)
            have hactive : active ({ next with type := .removed } ::
                { next' with length := length } :: tail) =
                  { next' with length := length } :: active tail := by
              simp [active, hnext'.1]
            refine ⟨cur.length + next.length,
              { next with type := .removed } :: { next' with length := length } :: tail, ?_,
              by omega, ?_, ?_, ?_⟩
            · rw [processFrom_merge z hmerge, hlen, processFrom_removed rfl _ _ _ hnext', heq]
            · rw [hactive]
              exact hsq.merge hcur hord hmerge.1 hadj
            · rw [processFrom_merge z hmerge, processFrom_removed rfl _ _ _ hnext', hactive]
              simp only [hcount, List.length_cons]
              congr 1
              push_cast
              ring
            · rw [hactive]
              simp only [List.length_cons]
              omega
      · have hknown' : ∀ e ∈ next :: rest, Known e.type := fun e he =>
          hknown e (List.mem_cons_of_mem _ he)
        obtain ⟨length, tail, heq, hle, hsq, hcount, hhalf⟩ := processFrom_spec z next rest hknown'
          hord.tail fun e he => hfits e (List.mem_cons_of_mem _ he)
        have hactive : active ({ next with length := length } :: tail) =
            { next with length := length } :: active tail := by
          simp [active, hnext.1]
        refine ⟨cur.length, { next with length := length } :: tail, ?_, le_refl _, ?_, ?_, ?_⟩
        · rw [processFrom_of_ne _ hmerge, heq]
        · rw [hactive]
          exact hsq.cons hcur hord
        · rw [processFrom_of_ne _ hmerge, hactive]
          simp only [hcount, List.length_cons]
          congr 1
          push_cast
          ring
        · rw [hactive]
          simp only [List.length_cons]
          omega
termination_by rest.length

/-- The entry count is of type `int` from the beginning, the one of the first page included. -/
theorem processLimineMemoryMap_cons (cur : LimineEntry) (rest : List LimineEntry) :
    processLimineMemoryMap (cur :: rest) =
      processFrom (wrapInt (rest.length + 1 + firstPageEntries (cur :: rest))) cur rest := by
  have hint : toInt (rest.length + 1) = wrapInt (rest.length + 1) :=
    congrArg wrapInt (Nat.cast_succ rest.length)
  rw [processLimineMemoryMap, firstPageEntries, hint]
  split
  · rw [wrapInt_add_one]
  · rw [add_zero]

/-! ### Parsing counts the usable bytes -/

/-- Setting the first page changes neither the total nor the entries. -/
theorem setFirst_spec (mmap : MemoryMap) (b : Bool) (page : ℕ) :
    (setFirst mmap b page).1.totalUsableMemory = mmap.totalUsableMemory ∧
      (setFirst mmap b page).1.entries = mmap.entries := by
  cases b <;> exact ⟨rfl, rfl⟩

/-- An ACPI reclaimable entry is cut where the next one begins. -/
theorem cut_eq {cur next : LimineEntry} (hle : cur.base ≤ next.base)
    (hcur : cur.base + cur.length < 2 ^ 64) (hnext : next.base + next.length < 2 ^ 64) :
    (if wadd cur.base cur.length ≥ next.base then wsub next.base cur.base else cur.length) =
      min cur.length (next.base - cur.base) := by
  rw [wadd_of_lt hcur, wsub_of_le (by omega) hle]
  split <;> omega

/-- **One entry is parsed.** The total grows by the bytes that are counted for it, less a page if
it is usable with base 0. -/
theorem parseEntry_spec (mmap : MemoryMap) (b : Bool) {cur : LimineEntry}
    {rest : List LimineEntry} (hknown : Known cur.type) (hord : Ordered (cur :: rest))
    (hfits : ∀ e ∈ cur :: rest, e.base + e.length < 2 ^ 64)
    (htotal : mmap.totalUsableMemory < 2 ^ 64) :
    ∃ r, parseEntry mmap b cur rest.head? = .ok r ∧
      (r.1.totalUsableMemory + pageSize * zeroEntries [cur]) % 2 ^ 64 =
        (mmap.totalUsableMemory + countedLength cur rest.head?) % 2 ^ 64 ∧
      r.1.totalUsableMemory < 2 ^ 64 ∧ r.1.entries = mmap.entries := by
  have hcur := hfits cur List.mem_cons_self
  unfold parseEntry countedLength
  cases htype : cur.type with
  | usable =>
      simp only [zeroEntries, List.countP_singleton, htype, true_and, decide_eq_true_eq]
      refine ⟨_, rfl, ?_, ?_, ?_⟩
      · by_cases hbase : cur.base = 0
        · rw [(setFirst_spec _ _ _).1, if_pos hbase, if_pos hbase, (setFirst_spec _ _ _).1]
          simp only [addRegion, wadd, wsub, pageSize]
          omega
        · rw [(setFirst_spec _ _ _).1, if_neg hbase, if_neg hbase]
          simp only [addRegion, wadd, Nat.mod_mod, mul_zero, add_zero]
      · rw [(setFirst_spec _ _ _).1]
        split
        · rw [(setFirst_spec _ _ _).1]
          exact Nat.mod_lt _ (by norm_num)
        · exact Nat.mod_lt _ (by norm_num)
      · rw [(setFirst_spec _ _ _).2]
        split
        · rw [(setFirst_spec _ _ _).2]
          rfl
        · rfl
  | acpiReclaimable =>
      refine ⟨_, rfl, ?_, ?_, (setFirst_spec _ _ _).2⟩
      · rw [(setFirst_spec _ _ _).1]
        simp only [zeroEntries, List.countP_singleton, htype, reduceCtorEq, false_and,
          decide_false, Bool.false_eq_true, if_false, mul_zero, add_zero]
        cases rest with
        | nil => simp only [List.head?_nil, addRegion, wadd, Nat.mod_mod]
        | cons next rest =>
            simp only [List.head?_cons, addRegion, cut_eq (hord.of_mem List.mem_cons_self).1 hcur
              (hfits next (by simp))]
            rw [wadd, Nat.mod_mod]
      · rw [(setFirst_spec _ _ _).1]
        exact Nat.mod_lt _ (by norm_num)
  | bootloaderReclaimable =>
      refine ⟨_, rfl, ?_, ?_, (setFirst_spec _ _ _).2⟩
      · rw [(setFirst_spec _ _ _).1]
        simp [zeroEntries, htype, addRegion, wadd]
      · rw [(setFirst_spec _ _ _).1]
        exact Nat.mod_lt _ (by norm_num)
  | unsupported => exact absurd htype hknown.2
  | reserved | acpiNvs | badMemory | kernelAndModules | framebuffer | removed =>
      exact ⟨_, rfl, by simp [zeroEntries, htype], htotal, rfl⟩

/-- **The map is parsed**: the total is counted, and the entries are left alone. -/
theorem parseLoop_spec (mmap : MemoryMap) (b : Bool) {l : List LimineEntry}
    (hknown : ∀ e ∈ l, Known e.type) (hord : Ordered l)
    (hfits : ∀ e ∈ l, e.base + e.length < 2 ^ 64) (htotal : mmap.totalUsableMemory < 2 ^ 64) :
    ∃ mmap', parseLoop mmap b l = .ok mmap' ∧
      (mmap'.totalUsableMemory + pageSize * zeroEntries l) % 2 ^ 64 =
        (mmap.totalUsableMemory + counted l) % 2 ^ 64 ∧
      mmap'.totalUsableMemory < 2 ^ 64 ∧ mmap'.entries = mmap.entries := by
  induction l generalizing mmap b with
  | nil => exact ⟨mmap, rfl, by simp [zeroEntries, counted], htotal, rfl⟩
  | cons cur rest ih =>
      obtain ⟨⟨m₁, b₁⟩, hparse, hsum, hlt, hentries⟩ := parseEntry_spec mmap b
        (hknown cur List.mem_cons_self) hord hfits htotal
      obtain ⟨mmap', hloop, hsum', hlt', hentries'⟩ := ih m₁ b₁
        (fun e he => hknown e (List.mem_cons_of_mem _ he)) hord.tail
        (fun e he => hfits e (List.mem_cons_of_mem _ he)) hlt
      refine ⟨mmap', ?_, ?_, hlt', hentries'.trans hentries⟩
      · rw [parseLoop, hparse]
        exact hloop
      · have hzero : zeroEntries ([cur] ++ rest) = zeroEntries [cur] + zeroEntries rest :=
          List.countP_append
        rw [List.singleton_append] at hzero
        simp only at hsum
        rw [counted, hzero, Nat.mul_add]
        omega

/-- The part of an entry that is counted is never longer than the entry. -/
theorem countedLength_le (e : LimineEntry) (next : Option LimineEntry) :
    countedLength e next ≤ e.length := by
  unfold countedLength
  split <;> omega

/-- The bytes of sorted entries without overlap fit between their bases and the end of the
address space. -/
theorem counted_lt {m : ℕ} {l : List LimineEntry} (hm : m < 2 ^ 64) (hord : Ordered l)
    (hfits : ∀ e ∈ l, e.base + e.length < 2 ^ 64) (hle : ∀ e ∈ l, m ≤ e.base ∨ e.length = 0) :
    m + counted l < 2 ^ 64 := by
  induction l generalizing m with
  | nil => exact hm
  | cons e rest ih =>
      have hcount := countedLength_le e rest.head?
      have hfit := hfits e List.mem_cons_self
      have hfits' : ∀ e' ∈ rest, e'.base + e'.length < 2 ^ 64 := fun e' he' =>
        hfits e' (List.mem_cons_of_mem _ he')
      rw [counted]
      rcases hle e List.mem_cons_self with hbase | hempty
      · have := ih hfit hord.tail hfits' fun e' he' => (hord.of_mem he').2
        omega
      · have := ih hm hord.tail hfits' fun e' he' => hle e' (List.mem_cons_of_mem _ he')
        omega

/-- A map with a usable entry that is not empty has something counted. -/
theorem counted_pos {e : LimineEntry} {l : List LimineEntry} (he : e ∈ l) (htype : e.type = .usable)
    (hpos : 0 < e.length) : 0 < counted l := by
  induction l with
  | nil => simp at he
  | cons cur rest ih =>
      rw [counted]
      rcases List.mem_cons.mp he with rfl | he
      · have : countedLength e rest.head? = e.length := by simp only [countedLength, htype]
        omega
      · exact Nat.add_pos_right _ (ih he)

/-! ### Copying -/

/-- The type that a known type is translated to by the table of types. -/
def translated (t : LimineType) : MemoryType :=
  match getMemoryType t with
  | .ok t => t
  | .error _ => .reserved

/-- Each of the known types is translated, to the type that the table of types says. -/
theorem getMemoryType_eq {t : LimineType} (h : Known t) : getMemoryType t = .ok (translated t) := by
  cases t with
  | removed => exact absurd rfl h.1
  | unsupported => exact absurd rfl h.2
  | _ => rfl

/-- The entry of the memory map for an entry of the bootloader's map. -/
def translate (e : LimineEntry) : MemoryMapEntry := ⟨e.base, e.length, translated e.type⟩

/-- **The entries are copied**, one behind the other, without those that were merged; the size
stays. -/
theorem copyLoop_spec {l : List LimineEntry} (index : ℕ) (mmap : MemoryMap)
    (hknown : ∀ e ∈ active l, Known e.type)
    (hroom : index + (active l).length ≤ mmap.entries.length) :
    ∃ mmap', copyLoop l index mmap = .ok (index + (active l).length, mmap') ∧
      mmap'.size = mmap.size ∧
      mmap'.entries.take (index + (active l).length) =
        mmap.entries.take index ++ (active l).map translate := by
  induction l generalizing index mmap with
  | nil => exact ⟨mmap, rfl, rfl, by simp [active]⟩
  | cons cur rest ih =>
      by_cases hremoved : cur.type = .removed
      · have hactive : active (cur :: rest) = active rest := by simp [active, hremoved]
        rw [hactive] at hknown hroom ⊢
        obtain ⟨mmap', hcopy, hsize, hentries⟩ := ih index mmap hknown hroom
        exact ⟨mmap', by rw [copyLoop, if_pos hremoved, hcopy], hsize, hentries⟩
      · have hactive : active (cur :: rest) = cur :: active rest := by simp [active, hremoved]
        rw [hactive] at hknown hroom ⊢
        rw [List.length_cons] at hroom ⊢
        have hindex : index < mmap.entries.length := by omega
        obtain ⟨mmap', hcopy, hsize, hentries⟩ := ih (index + 1)
          { mmap with entries := mmap.entries.set index (translate cur) }
          (fun e he => hknown e (List.mem_cons_of_mem _ he))
          (by simp only [List.length_set]; omega)
        refine ⟨mmap', ?_, hsize, ?_⟩
        · rw [copyLoop, if_neg hremoved, getMemoryType_eq (hknown cur List.mem_cons_self)]
          simp only [bind, Except.bind, store, if_pos hindex]
          rw [show index + ((active rest).length + 1) = index + 1 + (active rest).length by omega]
          exact hcopy
        · rw [show index + ((active rest).length + 1) = index + 1 + (active rest).length by omega,
            hentries]
          have htake : (mmap.entries.set index (translate cur)).take (index + 1) =
              mmap.entries.take index ++ [translate cur] := by
            rw [List.take_succ_eq_append_getElem (by simpa using hindex), List.getElem_set_self,
              List.take_set_of_le (le_refl index)]
          rw [htake, List.map_cons, List.append_assoc, List.singleton_append]

/-! ### The whole map -/

/-- An address has a type in the output if and only if an entry that was not merged covers it
with a type that is translated to it. -/
theorem exists_translate_iff {A : List LimineEntry} (hknown : ∀ e ∈ A, Known e.type) (a : ℕ)
    (t : MemoryType) :
    (∃ e ∈ A.map translate, e.address ≤ a ∧ a < e.address + e.length ∧ e.type = t) ↔
      ∃ lt, Holds A a lt ∧ getMemoryType lt = .ok t := by
  constructor
  · rintro ⟨e, he, h1, h2, h3⟩
    obtain ⟨e₀, he₀, rfl⟩ := List.mem_map.mp he
    refine ⟨e₀.type, ⟨e₀, he₀, h1, h2, rfl⟩, ?_⟩
    rw [getMemoryType_eq (hknown e₀ he₀)]
    exact congrArg _ h3
  · rintro ⟨lt, ⟨e, he, h1, h2, rfl⟩, ht⟩
    refine ⟨translate e, List.mem_map_of_mem he, h1, h2, ?_⟩
    rw [getMemoryType_eq (hknown e he)] at ht
    exact Except.ok.inj ht

/-- Numbers from 0 to below `2 ^ 31` are converted to themselves. -/
theorem wrapInt_of_lt {z : ℤ} (h0 : 0 ≤ z) (h : z < 2 ^ 31) : wrapInt z = z :=
  Int.bmod_eq_of_le (by norm_num; omega) (by norm_num; omega)

/-- `MMap_init` copies the entries of `A` behind those of `before`, and has announced `size`. -/
theorem kept_iff {memmap mmap : MemoryMap} {limine limine' A : List LimineEntry} {written : ℕ}
    {before : List MemoryMapEntry}
    (hinit : mmapInit memmap limine = .ok (written, mmap, limine'))
    (htake : mmap.entries.take written = before ++ A.map translate) :
    Kept memmap limine ↔ mmap.size = written ∧
      (before ++ A.map translate).Pairwise (fun a b => a.address ≤ b.address ∧
        ∀ x, ¬ ((a.address ≤ x ∧ x < a.address + a.length) ∧
          b.address ≤ x ∧ x < b.address + b.length)) ∧
      ∀ a t, (∃ e ∈ before ++ A.map translate, e.address ≤ a ∧ a < e.address + e.length ∧
        e.type = t) ↔ Reported limine a t := by
  rw [← htake]
  constructor
  · rintro ⟨written', mmap', limine'', hok, hkept⟩
    obtain ⟨rfl, hpair⟩ := Prod.mk.inj (Except.ok.inj (hinit.symm.trans hok))
    obtain ⟨rfl, -⟩ := Prod.mk.inj hpair
    exact hkept
  · intro hkept
    exact ⟨written, mmap, limine', hinit, hkept⟩

/-- The first page is counted as an entry of its own once or not at all, never as a negative
number. -/
theorem firstPageEntries_nonneg (l : List LimineEntry) : 0 ≤ firstPageEntries l := by
  unfold firstPageEntries
  split
  · exact le_refl 0
  · split <;> norm_num

/-- What the split of the first page says about an address. -/
theorem reported_split {first : LimineEntry} {limine rest A : List LimineEntry} {length : ℕ}
    (hl : limine = first :: rest) (htype : first.type = .usable) (hbase : first.base = 0)
    (hfirst : pageSize < first.length) (hlength : first.length ≤ length)
    (hsq : Squashed limine ({ first with length := length } :: A)) (a : ℕ) (t : MemoryType) :
    (∃ e ∈ [⟨0, pageSize, .reserved⟩] ++
        ({ first with base := pageSize, length := length - pageSize } :: A).map translate,
      e.address ≤ a ∧ a < e.address + e.length ∧ e.type = t) ↔ Reported limine a t := by
  have hpage : PageZeroUsable limine := ⟨first, by simp [hl], by omega, by omega, htype⟩
  have hknown : ∀ e ∈ { first with base := pageSize, length := length - pageSize } :: A,
      Known e.type := by
    intro e he
    rcases List.mem_cons.mp he with rfl | he
    · exact hsq.known { first with length := length } List.mem_cons_self
    · exact hsq.known e (List.mem_cons_of_mem _ he)
  -- The entries behind the first one begin behind its end, or they are empty.
  have hrest : ∀ e ∈ A, length ≤ e.base ∨ e.length = 0 := by
    intro e he
    have := (hsq.ordered.of_mem he).2
    simp only at this
    omega
  have hcons : (∃ e ∈ [⟨0, pageSize, .reserved⟩] ++
        ({ first with base := pageSize, length := length - pageSize } :: A).map translate,
      e.address ≤ a ∧ a < e.address + e.length ∧ e.type = t) ↔
      (a < pageSize ∧ t = .reserved) ∨ ∃ lt,
        Holds ({ first with base := pageSize, length := length - pageSize } :: A) a lt ∧
          getMemoryType lt = .ok t := by
    rw [← exists_translate_iff hknown, List.singleton_append]
    simp only [List.exists_mem_cons_iff, Nat.zero_le, Nat.zero_add, true_and]
    exact or_congr_left (and_congr_right fun _ => eq_comm)
  rw [hcons, Reported]
  simp only [hpage, and_true, true_and]
  by_cases ha : a < pageSize
  · simp only [ha, true_and, not_true_eq_false, false_and, or_false]
    refine or_iff_left ?_
    rintro ⟨lt, ⟨e, he, h1, h2, -⟩, -⟩
    rcases List.mem_cons.mp he with rfl | he
    · simp only at h1
      omega
    · have := hrest e he
      omega
  · simp only [ha, false_and, false_or, not_false_eq_true, true_and, ← hsq.holds, holds_cons]
    have hsame : ∀ lt, (pageSize ≤ a ∧ a < pageSize + (length - pageSize) ∧ first.type = lt) ↔
        (first.base ≤ a ∧ a < first.base + length ∧ first.type = lt) := by
      intro lt
      constructor
      · rintro ⟨h1, h2, h3⟩
        exact ⟨by omega, by omega, h3⟩
      · rintro ⟨h1, h2, h3⟩
        exact ⟨by omega, by omega, h3⟩
    simp only [hsame]

/-- **The copy of entries whose first page is split off**: page 0 is written as reserved, and the
rest of the first entry and the other entries behind it. -/
theorem copyIntoMemoryMap_split {mmap : MemoryMap} {e : LimineEntry} {tail : List LimineEntry}
    (hknown : ∀ e' ∈ e :: active tail, Known e'.type)
    (hroom : (active tail).length + 2 ≤ mmap.entries.length) (htype : e.type = .usable)
    (hbase : e.base = 0) :
    ∃ mmap', copyIntoMemoryMap mmap (e :: tail) = .ok (1 + ((active tail).length + 1), mmap',
        { e with base := pageSize, length := wsub e.length pageSize } :: tail) ∧
      mmap'.size = mmap.size ∧
      mmap'.entries.take (1 + ((active tail).length + 1)) = [⟨0, pageSize, .reserved⟩] ++
        ({ e with base := pageSize, length := wsub e.length pageSize } ::
          active tail).map translate := by
  have hactive : active ({ e with base := pageSize, length := wsub e.length pageSize } :: tail) =
      { e with base := pageSize, length := wsub e.length pageSize } :: active tail := by
    simp [active, htype]
  set mmap₁ : MemoryMap :=
    { mmap with entries := mmap.entries.set 0 ⟨0, pageSize, .reserved⟩ } with hmmap₁
  have hlen₁ : mmap₁.entries.length = mmap.entries.length := List.length_set
  have hstore : store mmap 0 ⟨0, pageSize, .reserved⟩ = .ok mmap₁ := by
    rw [store, if_pos (by omega)]
  have hhead : mmap₁.entries.take 1 = [⟨0, pageSize, .reserved⟩] := by
    obtain ⟨e', es, hes⟩ := List.exists_cons_of_length_pos (l := mmap.entries) (by omega)
    rw [hmmap₁, hes]
    rfl
  have hknown₁ : ∀ e' ∈ { e with base := pageSize, length := wsub e.length pageSize } ::
      active tail, Known e'.type := by
    intro e' he'
    rcases List.mem_cons.mp he' with rfl | he'
    · exact hknown e List.mem_cons_self
    · exact hknown e' (List.mem_cons_of_mem _ he')
  obtain ⟨mmap', hcopy, hsize, htake⟩ := copyLoop_spec 1 mmap₁
    (l := { e with base := pageSize, length := wsub e.length pageSize } :: tail)
    (hactive ▸ hknown₁) (by
      rw [hlen₁, hactive, List.length_cons]
      omega)
  rw [hactive, List.length_cons] at hcopy htake
  refine ⟨mmap', ?_, hsize, hhead ▸ htake⟩
  rw [copyIntoMemoryMap, if_pos ⟨htype, hbase⟩, hstore]
  simp only [bind, Except.bind, hcopy]
  rfl

/-- The first page of a usable entry at address 0 is announced as an entry of its own if and only
if the entry is longer than a page. -/
theorem firstPageEntries_eq_one {first : LimineEntry} {rest : List LimineEntry}
    (htype : first.type = .usable) (hbase : first.base = 0) :
    firstPageEntries (first :: rest) = 1 ↔ pageSize < first.length := by
  rw [firstPageEntries]
  simp only [htype, hbase, true_and, gt_iff_lt]
  split
  · exact iff_of_true rfl ‹_›
  · exact iff_of_false (by norm_num) ‹_›

/-- Some bytes are counted when the only entry at address 0 is a usable one longer than a page. -/
theorem counted_ne_of_alone {first : LimineEntry} {rest : List LimineEntry}
    (htype : first.type = .usable) (hlong : pageSize < first.length)
    (hothers : ∀ e ∈ rest, e.base ≠ 0) :
    counted (first :: rest) ≠ pageSize * zeroEntries (first :: rest) := by
  have hzero : zeroEntries rest = 0 := List.countP_eq_zero.mpr fun e he => by simp [hothers e he]
  have hone : zeroEntries (first :: rest) ≤ 1 := by
    rw [zeroEntries, List.countP_cons]
    simp only [zeroEntries] at hzero
    split <;> omega
  have hfirst : countedLength first rest.head? = first.length := by
    simp only [countedLength, htype]
  have hle := Nat.mul_le_mul_left pageSize hone
  rw [counted, hfirst]
  omega

/-- The reserved page, the rest of the first entry and the entries behind it are sorted and share
no address, if no other entry begins inside the first page. -/
theorem pairwise_split {first : LimineEntry} {A : List LimineEntry} {length : ℕ}
    (hbase : first.base = 0) (hlong : pageSize ≤ length)
    (hordered : Ordered ({ first with length := length } :: A))
    (hbases : ∀ e ∈ A, pageSize ≤ e.base) :
    List.Pairwise (fun a b : MemoryMapEntry => a.address ≤ b.address ∧
        ∀ x, ¬ ((a.address ≤ x ∧ x < a.address + a.length) ∧
          b.address ≤ x ∧ x < b.address + b.length))
      ([⟨0, pageSize, .reserved⟩] ++
        ({ first with base := pageSize, length := length - pageSize } :: A).map translate) := by
  refine List.pairwise_cons.mpr ⟨?_, List.pairwise_map.mpr (hordered.tail.cons ?_)⟩
  · intro e he
    obtain ⟨e₀, he₀, rfl⟩ := List.mem_map.mp he
    refine ⟨Nat.zero_le _, ?_⟩
    rintro x ⟨⟨-, hlt⟩, hge, -⟩
    rcases List.mem_cons.mp he₀ with rfl | he₀
    · simp only [translate] at hge hlt
      omega
    · have := hbases e₀ he₀
      simp only [translate] at hge hlt
      omega
  · intro e he
    have := hbases e he
    have := (hordered.of_mem he).2
    simp only at this ⊢
    omega

section Map

variable {limine : List LimineEntry} (h : WellFormed limine)

include h

/-- **The merged entries**, and the number that is announced for them. -/
theorem WellFormed.process {first : LimineEntry} {rest : List LimineEntry}
    (hl : limine = first :: rest) :
    ∃ length tail, (processLimineMemoryMap limine).2 = { first with length := length } :: tail ∧
      first.length ≤ length ∧
      Squashed limine ({ first with length := length } :: active tail) ∧
      (processLimineMemoryMap limine).1 = (active tail).length + 1 + firstPageEntries limine ∧
      (active tail).length + 1 + firstPageEntries limine < mmapMaxEntries ∧
      rest.length ≤ 2 * (active tail).length + 1 := by
  have hfew := h.few
  subst hl
  obtain ⟨length, tail, heq, hle, hsq, hn, hhalf⟩ := processFrom_spec
    (rest.length + 1 + firstPageEntries (first :: rest)) first rest h.known h.ordered h.fits
  rw [processLimineMemoryMap_cons] at hfew ⊢
  have hactive : (active (processFrom
      (wrapInt (rest.length + 1 + firstPageEntries (first :: rest))) first rest).2).length =
        (active tail).length + 1 := by
    rw [heq]
    simp [active, (h.known first List.mem_cons_self).1]
  rw [hactive] at hfew
  push_cast at hfew
  refine ⟨length, tail, heq, hle, hsq, ?_, hfew, hhalf⟩
  have hextra := firstPageEntries_nonneg (first :: rest)
  have hsum : (rest.length : ℤ) + 1 + firstPageEntries (first :: rest) + (active tail).length -
      rest.length = (active tail).length + 1 + firstPageEntries (first :: rest) := by ring
  rw [hn, hsum]
  exact wrapInt_of_lt (by omega) (by omega)

/-- A well-formed map is not empty: it has a first entry and the rest. -/
theorem WellFormed.exists_cons : ∃ first rest, limine = first :: rest := by
  obtain ⟨a, -, e, he, -⟩ := h.usable
  exact List.exists_cons_of_ne_nil (List.ne_nil_of_mem he)

/-- **Parsing** panics on no entry, and the total is 0 when what is counted cancels with what is
subtracted. -/
theorem WellFormed.parse (memmap : MemoryMap) :
    ∃ mmap, parseLimineMemoryMap memmap limine = .ok mmap ∧
      (mmap.totalUsableMemory = 0 ↔ counted limine = pageSize * zeroEntries limine) ∧
      mmap.entries = memmap.entries := by
  obtain ⟨mmap, hparse, hsum, hlt, hentries⟩ :=
    parseLoop_spec { memmap with totalUsableMemory := 0, firstUsablePage := 0, lastUsablePage := 0 }
      true h.known h.ordered h.fits (by norm_num)
  refine ⟨mmap, hparse, ?_, hentries⟩
  have hcounted : 0 + counted limine < 2 ^ 64 :=
    counted_lt (by norm_num) h.ordered h.fits fun e _ => .inl (Nat.zero_le e.base)
  have hzero : pageSize * zeroEntries limine < 2 ^ 64 := by
    obtain ⟨first, rest, hl⟩ := h.exists_cons
    obtain ⟨length, tail, -, -, -, -, hfew, hhalf⟩ := h.process hl
    have hextra := firstPageEntries_nonneg limine
    have hcount : zeroEntries limine ≤ limine.length := List.countP_le_length
    rw [hl, List.length_cons, ← hl] at hcount
    simp only [pageSize, mmapMaxEntries] at hfew ⊢
    omega
  rw [Nat.mod_eq_of_lt hcounted, Nat.zero_add] at hsum
  constructor
  · intro htotal
    rw [htotal, Nat.zero_add, Nat.mod_eq_of_lt hzero] at hsum
    exact hsum.symm
  · intro heq
    omega

/-- `MMap_init` panics when no memory is counted, and copies the merged entries otherwise. -/
theorem WellFormed.mmapInit_eq (memmap : MemoryMap) :
    ∃ mmap : MemoryMap, mmap.entries = memmap.entries ∧
      mmap.size = (processLimineMemoryMap limine).1 ∧
      mmapInit memmap limine =
        if counted limine = pageSize * zeroEntries limine then .error .panic
        else copyIntoMemoryMap mmap (processLimineMemoryMap limine).2 := by
  obtain ⟨mmap, hparse, htotal, hentries⟩ := h.parse memmap
  obtain ⟨first, rest, hl⟩ := h.exists_cons
  obtain ⟨length, tail, -, -, -, hn, hfew, -⟩ := h.process hl
  refine ⟨{ mmap with size := (processLimineMemoryMap limine).1 }, hentries, rfl, ?_⟩
  rw [mmapInit, hparse]
  simp only [bind, Except.bind, htotal]
  split
  · rfl
  · rw [if_neg (by omega)]

/-- **A map whose first entry is not split** is copied as it is. It is kept unless page 0 is
usable by a later entry, or nothing is counted. -/
theorem WellFormed.kept_iff_of_not_usable {memmap : MemoryMap}
    (hlen : memmap.entries.length = mmapMaxEntries) {first : LimineEntry}
    {rest : List LimineEntry} (hl : limine = first :: rest)
    (hfirst : ¬ (first.type = .usable ∧ first.base = 0)) :
    Kept memmap limine ↔
      ¬ PageZeroUsable limine ∧ counted limine ≠ pageSize * zeroEntries limine := by
  obtain ⟨mmap, hentries, hsize, hinit⟩ := h.mmapInit_eq memmap
  by_cases hcount : counted limine = pageSize * zeroEntries limine
  · refine iff_of_false ?_ fun hne => hne.2 hcount
    rintro ⟨written, mmap', limine', hok, -⟩
    rw [hinit, if_pos hcount] at hok
    exact absurd hok (by simp)
  obtain ⟨length, tail, hproc, -, hsq, hn, hfew, -⟩ := h.process hl
  have hextra : firstPageEntries limine = 0 := by
    rw [hl, firstPageEntries, if_neg fun hc => hfirst ⟨hc.1, hc.2.1⟩]
  rw [hextra, add_zero] at hn hfew
  have hactive : active ({ first with length := length } :: tail) =
      { first with length := length } :: active tail := by
    simp [active, (h.known first (by simp [hl])).1]
  obtain ⟨mmap', hcopy, hsize', htake⟩ := copyLoop_spec 0 mmap
    (l := { first with length := length } :: tail) (hactive ▸ hsq.known) (by
      rw [hentries, hlen, hactive, List.length_cons]
      omega)
  rw [hactive, Nat.zero_add] at hcopy htake
  have hfinal : mmapInit memmap limine = .ok
      (({ first with length := length } :: active tail).length, mmap',
        { first with length := length } :: tail) := by
    rw [hinit, if_neg hcount, hproc, copyIntoMemoryMap, if_neg hfirst, hcopy]
    rfl
  rw [kept_iff hfinal htake, List.take_zero, List.nil_append]
  constructor
  · rintro ⟨-, -, hreported⟩
    refine ⟨fun hpage => ?_, hcount⟩
    -- A usable first page would be reported as it is.
    have h0 := (hreported 0 .usable).mp
      ((exists_translate_iff hsq.known 0 .usable).mpr
        ⟨.usable, (hsq.holds 0 .usable).mpr hpage, rfl⟩)
    rcases h0 with ⟨-, -, ht⟩ | ⟨hnot, -⟩
    · exact absurd ht (by decide)
    · exact hnot ⟨by norm_num, hpage⟩
  · rintro ⟨hpage, -⟩
    refine ⟨?_, List.pairwise_map.mpr hsq.ordered, ?_⟩
    · rw [hsize', hsize, hn, List.length_cons]
      push_cast
      rfl
    · intro a t
      rw [exists_translate_iff hsq.known, Reported]
      simp only [hsq.holds, hpage, and_false, false_and, false_or, not_false_eq_true, true_and]

/-- Behind a first entry that is not empty, an entry with the same base is not merged into it, so
that one of the entries that are left has this base. -/
theorem WellFormed.exists_active_base {first cur e : LimineEntry} {rest tail : List LimineEntry}
    (hl : limine = first :: rest) (hpos : 0 < first.length)
    (hproc : (processLimineMemoryMap limine).2 = cur :: tail) (he : e ∈ rest)
    (hbase : e.base = first.base) : ∃ e' ∈ active tail, e'.base = first.base := by
  obtain ⟨next, rest, rfl⟩ := List.exists_cons_of_ne_nil (List.ne_nil_of_mem he)
  have hord := h.ordered
  have hknown := h.known
  have hfits := h.fits
  rw [hl] at hord hknown hfits
  have hnext : next.base = first.base := by
    have hle := (hord.of_mem List.mem_cons_self).1
    rcases List.mem_cons.mp he with rfl | he
    · exact hbase
    · have := (hord.tail.of_mem he).1
      omega
  have hne : ¬ (first.type = next.type ∧ wadd first.base first.length = next.base) := by
    rintro ⟨-, hsum⟩
    rw [wadd_of_lt (hfits first List.mem_cons_self)] at hsum
    omega
  obtain ⟨length, tail', heq, -⟩ := processFrom_spec
    ((next :: rest).length + 1 + firstPageEntries (first :: next :: rest)) next rest
    (fun e he => hknown e (List.mem_cons_of_mem _ he)) hord.tail
    (fun e he => hfits e (List.mem_cons_of_mem _ he))
  rw [hl, processLimineMemoryMap_cons, processFrom_of_ne _ hne, heq] at hproc
  obtain ⟨-, rfl⟩ := List.cons.inj hproc
  refine ⟨{ next with length := length }, ?_, hnext⟩
  simp [active, (hknown next (by simp)).1]

/-- **A map whose first page is split off**: one entry more is written than there are merged
entries. The map is kept if that is announced, and if no entry is sorted before the rest of the
first one. -/
theorem WellFormed.kept_iff_of_usable {memmap : MemoryMap}
    (hlen : memmap.entries.length = mmapMaxEntries) {first : LimineEntry}
    {rest : List LimineEntry} (hl : limine = first :: rest) (htype : first.type = .usable)
    (hbase : first.base = 0) :
    Kept memmap limine ↔ pageSize < first.length ∧ ∀ e ∈ rest, e.base ≠ 0 := by
  obtain ⟨mmap, hentries, hsize, hinit⟩ := h.mmapInit_eq memmap
  by_cases hcount : counted limine = pageSize * zeroEntries limine
  · -- Nothing is counted, which cannot be with a longer first entry alone at address 0.
    refine iff_of_false ?_ fun ⟨hlong, hothers⟩ =>
      counted_ne_of_alone htype hlong hothers (hl ▸ hcount)
    rintro ⟨written, mmap', limine', hok, -⟩
    rw [hinit, if_pos hcount] at hok
    exact absurd hok (by simp)
  obtain ⟨length, tail, hproc, hle, hsq, hn, hfew, -⟩ := h.process hl
  have hextra := firstPageEntries_nonneg limine
  have hroom : (active tail).length + 2 ≤ mmap.entries.length := by
    rw [hentries, hlen]
    omega
  obtain ⟨mmap', hcopy, hsize', htake⟩ := copyIntoMemoryMap_split hsq.known hroom htype hbase
  have hfinal := hinit.trans ((if_neg hcount).trans ((congrArg _ hproc).trans hcopy))
  have hannounced : mmap'.size = ((1 + ((active tail).length + 1) : ℕ) : ℤ) ↔
      pageSize < first.length := by
    rw [← (firstPageEntries_eq_one htype hbase : firstPageEntries (first :: rest) = 1 ↔ _), ← hl,
      hsize', hsize, hn]
    push_cast
    omega
  rw [kept_iff hfinal htake, hannounced]
  refine and_congr_right fun hlong => ?_
  have hlenLt : length < 2 ^ 64 := by
    obtain ⟨e₀, he₀, hend⟩ := hsq.ends { first with length := length } List.mem_cons_self
    have := h.fits e₀ he₀
    simp only at hend
    omega
  rw [wsub_of_le hlenLt (le_trans hlong.le hle)]
  constructor
  · -- The rest of the first entry is behind any other entry with base 0.
    rintro ⟨hpairs, -⟩ e he hzero
    have hsorted := (List.pairwise_cons.mp (List.pairwise_cons.mp hpairs).2).1
    obtain ⟨e', he', hbase'⟩ := h.exists_active_base hl (Nat.zero_lt_of_lt hlong) hproc he
      (hzero.trans hbase.symm)
    have hle' : pageSize ≤ e'.base := (hsorted (translate e') (List.mem_map_of_mem he')).1
    rw [hbase', hbase] at hle'
    exact absurd hle' (by norm_num)
  · intro hothers
    have hbases : ∀ e ∈ active tail, pageSize ≤ e.base := by
      intro e he
      have hsub := hsq.bases
      rw [hl, List.map_cons, List.map_cons, List.cons_sublist_cons] at hsub
      obtain ⟨e₀, he₀, heq⟩ := List.mem_map.mp (hsub.subset (List.mem_map_of_mem he))
      have haligned := (h.aligned e₀ (by simp [hl, he₀])).1
      have := hothers e₀ he₀
      simp only [pageSize] at haligned ⊢
      omega
    exact ⟨pairwise_split hbase (le_trans hlong.le hle) hsq.ordered hbases,
      fun a t => reported_split hl htype hbase hlong hle hsq a t⟩

end Map

/-- In a map without empty entries, only the first one can have base 0, and the first page stands
apart unless the first entry is the usable page at address 0 alone. -/
theorem firstPageApart_iff {first : LimineEntry} {rest : List LimineEntry}
    (h : WellFormed (first :: rest)) (hpos : ∀ e ∈ first :: rest, 0 < e.length) :
    FirstPageApart (first :: rest) ↔
      ¬ (first.type = .usable ∧ first.base = 0 ∧ first.length = pageSize) := by
  have hothers : ∀ e ∈ rest, e.base ≠ 0 := by
    intro e he
    have := h.ordered.of_mem he
    have := hpos first List.mem_cons_self
    have := hpos e (List.mem_cons_of_mem _ he)
    omega
  have hlong : pageSize < first.length ↔ first.length ≠ pageSize := by
    have := (h.aligned first List.mem_cons_self).2
    have := hpos first List.mem_cons_self
    simp only [pageSize] at *
    omega
  rw [FirstPageApart]
  by_cases hfirst : first.type = .usable ∧ first.base = 0
  · rw [if_pos hfirst, hlong]
    simp only [hfirst.1, hfirst.2, true_and]
    exact and_iff_left hothers
  · rw [if_neg hfirst]
    refine iff_of_true ⟨?_, ?_⟩ fun hc => hfirst ⟨hc.1, hc.2.1⟩
    · rintro ⟨e, he, hle, -, htype⟩
      rcases List.mem_cons.mp he with rfl | he
      · exact hfirst ⟨htype, by omega⟩
      · exact hothers e he (by omega)
    · have hzero : zeroEntries (first :: rest) = 0 := by
        refine List.countP_eq_zero.mpr fun e he => ?_
        rcases List.mem_cons.mp he with rfl | he
        · simpa using hfirst
        · simp [hothers e he]
      obtain ⟨a, -, e, he, hle, hlt, htype⟩ := h.usable
      rw [hzero, mul_zero]
      exact (counted_pos he htype (by omega)).ne'

/-- **The memory map is kept exactly when the first page stands apart.** For every memory map of
the bootloader that is well-formed, `MMap_init` returns, writes as many entries as it announces,
and these are sorted and cover the same addresses with the same types, page 0 being reserved, if
and only if the first entry is longer than a page and alone at address 0, or is no usable entry
at address 0, page 0 is not usable behind it and some usable bytes are counted. -/
theorem mmapInit_keeps_iff {memmap : MemoryMap} {limine : List LimineEntry}
    (h : WellFormed limine) (hlen : memmap.entries.length = mmapMaxEntries) :
    Kept memmap limine ↔ FirstPageApart limine := by
  obtain ⟨first, rest, hl⟩ := h.exists_cons
  rw [hl, FirstPageApart, ← hl]
  split
  · exact h.kept_iff_of_usable hlen hl (And.left ‹_›) (And.right ‹_›)
  · exact h.kept_iff_of_not_usable hlen hl ‹_›

/-- A memory map with nothing in it. -/
def blankMap : MemoryMap :=
  ⟨0, 0, 0, 0, 0, 0, List.replicate mmapMaxEntries ⟨0, 0, .usable⟩⟩

/-- The equivalence at a map with two adjacent usable regions and an empty reserved one. -/
theorem mmapInit_keeps_iff_two :
    WellFormed [⟨0, 0x2000, .usable⟩, ⟨0x2000, 0x1000, .usable⟩, ⟨0x8000, 0, .reserved⟩] ∧
      Kept blankMap
        [⟨0, 0x2000, .usable⟩, ⟨0x2000, 0x1000, .usable⟩, ⟨0x8000, 0, .reserved⟩] := by
  have hwf : WellFormed
      [⟨0, 0x2000, .usable⟩, ⟨0x2000, 0x1000, .usable⟩, ⟨0x8000, 0, .reserved⟩] := by
    refine ⟨?_, ?_, ?_, ?_, ⟨0x1000, by norm_num, by simp [Holds]⟩, by decide +kernel⟩
    · simp [Known]
    · simp [pageSize]
    · simp
    · simp [ordered_iff]
  refine ⟨hwf, (mmapInit_keeps_iff hwf (by simp [blankMap])).mpr ?_⟩
  simp [FirstPageApart, pageSize]

/-- **The last region is lost** when the first entry is the usable page at address 0: three
entries are written, two are announced, and the second of these is empty. -/
theorem mmapInit_loses_last :
    WellFormed [⟨0, 0x1000, .usable⟩, ⟨0x100000, 0x1000000, .usable⟩] ∧
      ((mmapInit blankMap [⟨0, 0x1000, .usable⟩, ⟨0x100000, 0x1000000, .usable⟩]).toOption.map
        fun r => (r.1, r.2.1.size, r.2.1.entries.take 2)) =
          some (3, 2, [⟨0, 0x1000, .reserved⟩, ⟨0x1000, 0, .usable⟩]) ∧
      ¬ Kept blankMap [⟨0, 0x1000, .usable⟩, ⟨0x100000, 0x1000000, .usable⟩] := by
  have hrun : (mmapInit blankMap
      [⟨0, 0x1000, .usable⟩, ⟨0x100000, 0x1000000, .usable⟩]).toOption.map
        (fun r => (r.1, r.2.1.size, r.2.1.entries.take 2)) =
          some (3, 2, [⟨0, 0x1000, .reserved⟩, ⟨0x1000, 0, .usable⟩]) := by decide +kernel
  refine ⟨?_, hrun, ?_⟩
  · refine ⟨?_, ?_, ?_, ?_, ⟨0x100000, by norm_num, by simp [Holds]⟩, by decide +kernel⟩
    · simp [Known]
    · simp [pageSize]
    · simp
    · simp [ordered_iff]
  · rintro ⟨written, mmap, limine', hok, hsize, -⟩
    rw [hok] at hrun
    simp only [Except.toOption, Option.map_some, Option.some.injEq, Prod.mk.injEq] at hrun
    omega

end MugOS.MemoryMap
