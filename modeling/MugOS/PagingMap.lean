import MugOS.PagingTree

/-!
# What Paging_map Does

One iteration of `Paging_map` sets a block of entries of one table. The size of the pages
is chosen from the alignment of the physical address and from the number of pages that
remain; the alignment of the virtual address is not looked at, and when it is smaller than
the size chosen, the block starts below the virtual address.

## Main results

* `mapStep_cases`: what one iteration can do.
* `mapLoop_exact`: a loop all of whose iterations are aligned maps exactly the range.
* `mapLoop_misaligned`: a loop with a misaligned iteration maps a page outside of the range.
-/

namespace MugOS.Paging

open PMM RadixTree

/-! ### One iteration -/

/-- The depth at which an iteration of `Paging_map` sets entries. -/
def stepDepth (has1GBPages : Bool) (phys remaining : ℕ) : ℕ :=
  if has1GBPages && phys % size1GB == 0 && decide (remaining ≥ size1GB / pageSize) then 1
  else if phys % size2MB == 0 && decide (remaining ≥ size2MB / pageSize) then 2
  else 3

/-- The number of entries that an iteration sets. -/
def stepCount (d v remaining : ℕ) : ℕ := min (tableSize - tree.idx d v) (remaining / span d)

/-- The entry of depth `d` that maps the pages from a physical address on. -/
def pageEntry (flags : ℕ) : ℕ → ℕ → Descriptor
  | 1, addr => pageDescriptor flags true (get1GBEntryAddress addr <<< 18)
  | 2, addr => pageDescriptor flags true (get2MBEntryAddress addr <<< 9)
  | _, addr => pageDescriptor flags false (get4KBEntryAddress addr)

/-- The entry that is made for a page is present and marked as one of a page at its depth. -/
theorem pageEntry_isPage (flags : ℕ) {d : ℕ} (hd1 : 1 ≤ d) (hd : d ≤ 3) (addr : ℕ) :
    (pageEntry flags d addr).present = true ∧ isPage d (pageEntry flags d addr) = true := by
  interval_cases d <;> simp [pageEntry, pageDescriptor, isPage]

/-- The depth of the entries that a step sets is 1, 2 or 3. -/
theorem stepDepth_bounds (b : Bool) (phys remaining : ℕ) :
    1 ≤ stepDepth b phys remaining ∧ stepDepth b phys remaining ≤ 3 := by
  unfold stepDepth
  split_ifs <;> omega

/-- A chosen size fits into what remains and divides the physical address. -/
theorem stepDepth_fits {b : Bool} {phys remaining : ℕ} (hr : 0 < remaining)
    (hp : phys % pageSize = 0) :
    span (stepDepth b phys remaining) ≤ remaining ∧
      phys % (span (stepDepth b phys remaining) * pageSize) = 0 := by
  unfold stepDepth
  split_ifs with h1 h2
  · simp only [Bool.and_eq_true, beq_iff_eq, decide_eq_true_eq, size1GB, pageSize] at h1
    simp only [span, pageSize]
    omega
  · simp only [Bool.and_eq_true, beq_iff_eq, decide_eq_true_eq, size2MB, pageSize] at h2
    simp only [span, pageSize]
    omega
  · simp only [span, pageSize] at *
    omega

/-- A step that fits into what remains sets at least one entry. -/
theorem stepCount_pos {d v remaining : ℕ} (hfit : span d ≤ remaining) :
    1 ≤ stepCount d v remaining := by
  have h1 := idx_lt d v
  have h2 : 1 ≤ remaining / span d := (Nat.one_le_div_iff (by unfold span; positivity)).mpr hfit
  simp only [stepCount, tableSize] at *
  omega

/-- The page number of an address is one of the virtual pages. -/
theorem pageNumber_lt (addr : ℕ) : pageNumber addr < pageCount := by
  simp only [pageNumber, pageCount, pageSize]
  omega

/-- The number of pages that the source computes in bytes is the quotient in pages. -/
theorem wmul_div {remaining n : ℕ} (hlt : remaining * pageSize < 2 ^ 64) :
    wmul remaining pageSize / (n * pageSize) = remaining / n := by
  rw [wmul, Nat.mod_eq_of_lt hlt, Nat.mul_div_mul_right _ _ (by decide)]

/-- The entry of an unmapped page is not one of a page. -/
theorem not_leaf_of_unmapped {s : State} {hole : Option ℕ} (h : TreeInv s hole) {v : ℕ}
    (hun : s.page v = none) (d : ℕ) (e : Descriptor) : ¬ Leaf s d v e := by
  intro hleaf
  exact (page_ne_none h).mpr ⟨d, e, hleaf⟩ hun

/-- `set1GBPage` on an empty entry returns the entry of a page of 1 GB. -/
theorem set1GBPage_ok (flags : ℕ) (e : Descriptor) (addr : ℕ) (he : e.present = false) :
    set1GBPage true flags e addr = .ok (pageEntry flags 1 addr) := by
  simp [set1GBPage, he, pageEntry]

/-- `set2MBPage` on an empty entry returns the entry of a page of 2 MB. -/
theorem set2MBPage_ok (flags : ℕ) (e : Descriptor) (addr : ℕ) (he : e.present = false) :
    set2MBPage flags e addr = .ok (pageEntry flags 2 addr) := by
  simp [set2MBPage, he, pageEntry]

/-- `set4KBPage` on an empty entry returns the entry of a page of 4 KB. -/
theorem set4KBPage_ok (flags : ℕ) (e : Descriptor) (addr : ℕ) (he : e.present = false) :
    set4KBPage flags e addr = .ok (pageEntry flags 3 addr) := by
  simp [set4KBPage, he, pageEntry]

/-- A page of 1 GB has as many bytes as the pages below an entry at depth 1. -/
theorem size1GB_eq : size1GB = span 1 * pageSize := rfl

theorem size2MB_eq : size2MB = span 2 * pageSize := rfl

/-- The number of entries that the source computes from a size in bytes is `stepCount`. -/
theorem mappable_eq {d v remaining : ℕ} (hlt : remaining * pageSize < 2 ^ 64) :
    min (tableSize - tree.idx d v) (wmul remaining pageSize / (span d * pageSize)) =
      stepCount d v remaining := by
  rw [stepCount, wmul_div hlt]

/-- The number of pages that the source takes off what remains, from a size in bytes. -/
theorem pages_eq (k d : ℕ) : k * (span d * pageSize) / pageSize = k * span d := by
  rw [← Nat.mul_assoc, Nat.mul_div_cancel _ (by decide)]

/-- The path of a page has been walked down to the table `g` at depth `d`, tables having been
allocated where there were none, and no translation has changed. -/
structure Walked (s t : State) (v d g : ℕ) : Prop where
  inv : TreeInv t (some g)
  node : t.node d v = some g
  along : Along (· = v) s t
  size : ∀ k, NoNewLarge k s t
  leaf : ∀ d' w e, Leaf t d' w e ↔ Leaf s d' w e

/-- The first table of the path of an unmapped page is found or allocated, or there is no
page left for it. -/
theorem walk_first {s : State} (h : TreeInv s none) {v : ℕ} (hun : s.page v = none) :
    getTable 1 s s.pml4 (tree.idx 0 v) true = .error .panic ∨
    ∃ g t, getTable 1 s s.pml4 (tree.idx 0 v) true = .ok (g, t) ∧ Walked s t v 1 g := by
  rcases getTable_alloc h (v := v) rfl (by omega) (.inl rfl) (not_leaf_of_unmapped h hun 0) with
    hpanic | ⟨g, t, heq, hnode, hinv, halong, hsize, hleaf⟩
  · exact .inl hpanic
  · exact .inr ⟨g, t, heq, hinv, hnode, halong, hsize, hleaf⟩

/-- The next table of the path of an unmapped page is found or allocated, or there is no page
left for it. -/
theorem Walked.next {s t : State} {v d g : ℕ} (hw : Walked s t v d g) (h : TreeInv s none)
    (hun : s.page v = none) (hd : d ≤ 2) :
    getTable (d + 1) t g (tree.idx d v) true = .error .panic ∨
    ∃ g' u, getTable (d + 1) t g (tree.idx d v) true = .ok (g', u) ∧
      Walked s u v (d + 1) g' := by
  have hunt : t.page v = none := (page_congr h hw.inv fun d' e => hw.leaf d' v e).trans hun
  rcases getTable_alloc hw.inv hw.node hd (.inr rfl) (not_leaf_of_unmapped hw.inv hunt d) with
    hpanic | ⟨g', u, heq, hnode, hinv, halong, hsize, hleaf⟩
  · exact .inl hpanic
  · exact .inr ⟨g', u, heq, hinv, hnode, hw.along.trans halong,
      fun k => (hw.size k).trans (hsize k), fun d' w e => (hleaf d' w e).trans (hw.leaf d' w e)⟩

/-- **Setting a block of entries of the table that has been walked to**: an assertion fails
because a page of the block was mapped before the walk, or exactly the block is mapped. -/
theorem Walked.setPages {s t : State} {v d g k : ℕ} (hw : Walked s t v d g)
    (h : TreeInv s none) (hd1 : 1 ≤ d) (hd : d ≤ 3) (hv : v < pageCount) (hk1 : 1 ≤ k)
    (hk : tree.idx d v + k ≤ tableSize) {set : Descriptor → ℕ → Except Fault Descriptor}
    {flags : ℕ} (hset : ∀ e addr, e.present = false → set e addr = .ok (pageEntry flags d addr))
    (hfail : ∀ e addr, e.present = true → set e addr = .error .assertion)
    {phys virt : ℕ} (hphys : phys < 2 ^ 64) (hvirt : virt < 2 ^ 64) :
    (setPages set (span d * pageSize) g (tree.idx d v) k phys virt t.mem =
        .error .assertion ∧ ∃ w < pageCount, InBlock d v k w ∧ s.page w ≠ none) ∨
    ∃ mem, setPages set (span d * pageSize) g (tree.idx d v) k phys virt t.mem =
        .ok (mem, (phys + k * (span d * pageSize)) % 2 ^ 64,
          (virt + k * (span d * pageSize)) % 2 ^ 64) ∧
      BlockSet s { t with mem := mem } d v k
        (fun j => pageEntry flags d ((phys + j * (span d * pageSize)) % 2 ^ 64)) := by
  rcases setPages_spec hw.inv hd1 hv hw.node (.inr rfl) hk1 hk hset hfail
      (pageEntry_isPage flags hd1 hd) (span d * pageSize) hphys hvirt with
    ⟨herr, w, hwlt, hin, hpage⟩ | ⟨mem, hok, hblock⟩
  · refine .inl ⟨herr, w, hwlt, hin, ?_⟩
    rwa [page_congr h hw.inv fun d' e => hw.leaf d' w e] at hpage
  · exact .inr ⟨mem, hok, .of_along h hw.inv hw.along (hw.size d) hw.leaf hblock⟩

/-- **What an iteration of `Paging_map` can do** at an unmapped page: panic because there is
no page left for a table, fail an assertion because a page of its block is mapped, or map
exactly the pages of the block. -/
theorem mapStep_cases {s : State} (h : TreeInv s none) (flags : ℕ) {phys virt remaining : ℕ}
    (hphys : phys < 2 ^ 64) (hvirt : virt < 2 ^ 64) (hr : 0 < remaining)
    (hlt : remaining * pageSize < 2 ^ 64) (hp : phys % pageSize = 0)
    (hun : s.page (pageNumber virt) = none) {v d k : ℕ} (hv : v = pageNumber virt)
    (hd : d = stepDepth s.has1GBPages phys remaining) (hk : k = stepCount d v remaining) :
    mapStep flags s phys virt remaining = .error .panic ∨
    (mapStep flags s phys virt remaining = .error .assertion ∧
      ∃ w < pageCount, InBlock d v k w ∧ s.page w ≠ none) ∨
    ∃ s', mapStep flags s phys virt remaining =
        .ok (s', (phys + k * (span d * pageSize)) % 2 ^ 64,
          (virt + k * (span d * pageSize)) % 2 ^ 64, remaining - k * span d) ∧
      BlockSet s s' d v k
        (fun j => pageEntry flags d ((phys + j * (span d * pageSize)) % 2 ^ 64)) := by
  have hvlt : v < pageCount := hv ▸ pageNumber_lt virt
  have hk1 : 1 ≤ k := by
    rw [hk]
    exact stepCount_pos (hd ▸ (stepDepth_fits hr hp).1)
  have hkle : tree.idx d v + k ≤ tableSize := by
    have := idx_lt d v
    rw [hk, stepCount]
    omega
  rw [← hv] at hun
  simp only [mapStep, getIndexPML4_eq, getIndexPageDirectoryPointerTable_eq,
    getIndexPageDirectory_eq, getIndexPageTable_eq, ← hv, getPDP, getPD, getPT]
  rcases walk_first h hun with hpanic | ⟨pdp, s₁, heq₁, hw₁⟩
  · left
    rw [hpanic]
    rfl
  simp only [heq₁, bind, Except.bind]
  rw [← hw₁.along.has1GB_eq] at hd
  by_cases hc1 : (s₁.has1GBPages && phys % size1GB == 0 &&
      decide (remaining ≥ size1GB / pageSize)) = true
  · -- Pages of 1 GB, in the page directory pointer table.
    obtain rfl : d = 1 := by rw [hd, stepDepth, if_pos hc1]
    have h1GB : s₁.has1GBPages = true := by
      simp only [Bool.and_eq_true] at hc1
      exact hc1.1.1
    have hset : ∀ e addr, e.present = false →
        set1GBPage s₁.has1GBPages flags e addr = .ok (pageEntry flags 1 addr) := by
      rw [h1GB]
      exact set1GBPage_ok flags
    have hfail : ∀ e addr, e.present = true →
        set1GBPage s₁.has1GBPages flags e addr = .error .assertion := by
      intro e addr he
      simp [set1GBPage, he]
    rw [if_pos hc1, size1GB_eq, mappable_eq hlt, ← hk]
    rcases hw₁.setPages h le_rfl (by omega) hvlt hk1 hkle hset hfail hphys hvirt with
      ⟨herr, hmapped⟩ | ⟨mem, hok, hblock⟩
    · exact .inr (.inl ⟨by rw [herr], hmapped⟩)
    · exact .inr (.inr ⟨_, by rw [hok, pages_eq], hblock⟩)
  rw [if_neg hc1]
  rcases hw₁.next h hun (by omega) with hpanic | ⟨pd, s₂, heq₂, hw₂⟩
  · left
    rw [hpanic]
  simp only [heq₂]
  by_cases hc2 : (phys % size2MB == 0 && decide (remaining ≥ size2MB / pageSize)) = true
  · -- Pages of 2 MB, in the page directory.
    obtain rfl : d = 2 := by rw [hd, stepDepth, if_neg hc1, if_pos hc2]
    have hfail : ∀ e addr, e.present = true → set2MBPage flags e addr = .error .assertion := by
      intro e addr he
      simp [set2MBPage, he]
    rw [if_pos hc2, size2MB_eq, mappable_eq hlt, ← hk]
    rcases hw₂.setPages h (by omega) (by omega) hvlt hk1 hkle (set2MBPage_ok flags) hfail
        hphys hvirt with ⟨herr, hmapped⟩ | ⟨mem, hok, hblock⟩
    · exact .inr (.inl ⟨by rw [herr], hmapped⟩)
    · exact .inr (.inr ⟨_, by rw [hok, pages_eq], hblock⟩)
  · -- Pages of 4 KB, in the page table.
    obtain rfl : d = 3 := by rw [hd, stepDepth, if_neg hc1, if_neg hc2]
    have hcount : min (tableSize - tree.idx 3 v) remaining = k := by
      rw [hk, stepCount]
      simp [span]
    have hsize : pageSize = span 3 * pageSize := by simp [span]
    have hfail : ∀ e addr, e.present = true → set4KBPage flags e addr = .error .assertion := by
      intro e addr he
      simp [set4KBPage, he]
    rw [if_neg hc2]
    rcases hw₂.next h hun (by omega) with hpanic | ⟨pt, s₃, heq₃, hw₃⟩
    · left
      rw [hpanic]
    simp only [heq₃, hcount]
    rcases hw₃.setPages h (by omega) (by omega) hvlt hk1 hkle (set4KBPage_ok flags) hfail
        hphys hvirt with ⟨herr, hmapped⟩ | ⟨mem, hok, hblock⟩
    · rw [← hsize] at herr
      exact .inr (.inl ⟨by rw [herr], hmapped⟩)
    · rw [← hsize] at hok
      refine .inr (.inr ⟨_, ?_, hblock⟩)
      rw [hok, ← hsize, span, Nat.sub_self, Nat.pow_zero, Nat.mul_one]

/-! ### The arithmetic of the loop -/

/-- The translation that a call of `Paging_map` requests for a page. -/
def requested (flags frame : ℕ) : Translation where
  frame := frame
  writable := flags &&& pageWrite != 0
  user := flags &&& pageUser != 0
  executeDisabled := flags &&& pageExec == 0
  writeThrough := flags &&& pageCacheWriteThrough != 0
  cacheDisabled := flags &&& pageCacheDisabled != 0

/-- An entry of depth `d` translates the pages of its block as requested. -/
theorem pageEntry_leaf (flags : ℕ) {d a : ℕ} (hd1 : 1 ≤ d) (hd : d ≤ 3) (ha : a % span d = 0)
    (hlt : a < 2 ^ 36) (w : ℕ) :
    (pageEntry flags d (a * pageSize)).leaf (3 - d) w = requested flags (a + w % span d) := by
  interval_cases d
  · simp only [pageEntry, get1GBEntryAddress, and_shiftRight _ 0x0000ffffc0000000 30 18 (by decide),
      Nat.shiftLeft_eq, Descriptor.leaf, pageDescriptor, requested, BitVec.toNat_ofNat, span,
      pageSize, Translation.mk.injEq, and_self, and_true] at *
    norm_num at *
    omega
  · simp only [pageEntry, get2MBEntryAddress, and_shiftRight _ 0x0000ffffffe00000 21 27 (by decide),
      Nat.shiftLeft_eq, Descriptor.leaf, pageDescriptor, requested, BitVec.toNat_ofNat, span,
      pageSize, Translation.mk.injEq, and_self, and_true] at *
    norm_num at *
    omega
  · simp only [pageEntry, get4KBEntryAddress, and_shiftRight _ 0x0000fffffffff000 12 36 (by decide),
      Descriptor.leaf, pageDescriptor, requested, BitVec.toNat_ofNat, span,
      pageSize, Translation.mk.injEq, and_self, and_true] at *
    norm_num at *
    omega

/-- The number of pages up to the next boundary of 2 MB. -/
def toBoundary (v : ℕ) : ℕ := (512 - v % 512) % 512

/-- Some iteration of a call of `Paging_map`, from frame `p` and page `v` on, sets pages that
are larger than its virtual address is aligned to: the first, with pages of 2 MB, or the one
at the first boundary of 2 MB, with pages of 1 GB. -/
def Misaligned (has1GBPages : Bool) (p v n : ℕ) : Prop :=
  512 ≤ n ∧ p % 512 = 0 ∧ v % 512 ≠ 0 ∨
  has1GBPages = true ∧ 262144 + toBoundary v ≤ n ∧ (p + toBoundary v) % 262144 = 0 ∧
    (v + toBoundary v) % 262144 ≠ 0

/-- The conditions on the size of the pages, in page numbers. -/
theorem stepDepth_cases (b : Bool) (p r : ℕ) :
    stepDepth b (p * pageSize) r = 1 ∧ b = true ∧ p % 262144 = 0 ∧ 262144 ≤ r ∨
    stepDepth b (p * pageSize) r = 2 ∧ (b = true → p % 262144 = 0 → r < 262144) ∧
      p % 512 = 0 ∧ 512 ≤ r ∨
    stepDepth b (p * pageSize) r = 3 ∧ (b = true → p % 262144 = 0 → r < 262144) ∧
      (p % 512 = 0 → r < 512) := by
  unfold stepDepth
  simp only [size1GB, size2MB, pageSize, Bool.and_eq_true, beq_iff_eq, decide_eq_true_eq]
  split_ifs with h1 h2
  · exact .inl ⟨rfl, h1.1.1, by omega, by omega⟩
  · refine .inr (.inl ⟨rfl, ?_, by omega, by omega⟩)
    intro hb hp
    by_contra hr
    exact h1 ⟨⟨hb, by omega⟩, by omega⟩
  · refine .inr (.inr ⟨rfl, ?_, ?_⟩)
    · intro hb hp
      by_contra hr
      exact h1 ⟨⟨hb, by omega⟩, by omega⟩
    · intro hp
      by_contra hr
      exact h2 ⟨by omega, by omega⟩

section Step

variable {b : Bool} {p v r d k : ℕ} (hd : d = stepDepth b (p * pageSize) r)
  (hk : k = stepCount d v r)

omit hd in
include hk in
/-- The block of pages that a step sets does not reach past what remains. -/
theorem stepCount_le : k * span d ≤ r := by
  calc k * span d ≤ r / span d * span d := by
        apply Nat.mul_le_mul_right
        rw [hk, stepCount]
        exact Nat.min_le_right _ _
    _ ≤ r := Nat.div_mul_le_self _ _

include hd in
/-- An iteration of an aligned call starts at a virtual address that is aligned as well. -/
theorem aligned_of_not_misaligned (hm : ¬ Misaligned b p v r) :
    v % span d = 0 ∧ p % span d = 0 := by
  unfold Misaligned toBoundary at hm
  rcases stepDepth_cases b p r with ⟨h, hb, h1, h2⟩ | ⟨h, h1, h2, h3⟩ | ⟨h, -, -⟩ <;>
    rw [hd, h] <;> simp only [span] <;> norm_num
  · refine ⟨?_, h1⟩
    by_contra hv
    apply hm
    by_cases hv2 : v % 512 = 0
    · exact .inr ⟨hb, by omega, by omega, by omega⟩
    · exact .inl ⟨by omega, by omega, hv2⟩
  · refine ⟨?_, h2⟩
    by_contra hv
    exact hm (.inl ⟨h3, h2, hv⟩)
  · omega

include hk in
/-- An iteration goes on to the end of its table, or what remains is smaller than one of its
pages. -/
theorem stepCount_ends (hs : 0 < span d) :
    k = tableSize - tree.idx d v ∨ r - k * span d < span d := by
  rw [hk, stepCount]
  rcases min_choice (tableSize - tree.idx d v) (r / span d) with hmin | hmin
  · exact .inl hmin
  · right
    rw [hmin, mul_comm, ← Nat.mod_eq_sub_mul_div]
    exact Nat.mod_lt _ hs

include hd hk in
/-- The iterations after the first of an aligned call are aligned. -/
theorem not_misaligned_step (hm : ¬ Misaligned b p v r) :
    ¬ Misaligned b (p + k * span d) (v + k * span d) (r - k * span d) := by
  obtain ⟨hv, hp⟩ := aligned_of_not_misaligned hd hm
  have hends := stepCount_ends hk (by unfold span; positivity)
  unfold Misaligned toBoundary at *
  rcases stepDepth_cases b p r with ⟨h, -⟩ | ⟨h, -⟩ | ⟨h, -, hsmall⟩
  · -- pages of 1 GB end at boundaries of 1 GB
    obtain rfl : d = 1 := hd.trans h
    rw [show span 1 = 262144 from rfl] at *
    rintro (⟨-, -, hne⟩ | ⟨-, -, -, hne⟩)
    · omega
    · omega
  · -- pages of 2 MB stop at a boundary of 1 GB, or where less than one of them remains
    obtain rfl : d = 2 := hd.trans h
    rw [show span 2 = 512 from rfl] at *
    rintro (⟨-, -, hne⟩ | ⟨-, hroom, -, hne⟩)
    · omega
    · rcases hends with hend | hend
      · simp only [tableSize, tree] at hend
        omega
      · omega
  · -- pages of 4 KB stop at a boundary of 2 MB, or at the end of the range
    obtain rfl : d = 3 := hd.trans h
    rw [show span 3 = 1 from rfl, Nat.mul_one] at *
    have hboundary : 512 ≤ r - k → k = 512 - v % 512 := by
      intro hroom
      rcases hends with hend | hend
      · simpa [tableSize, tree] using hend
      · omega
    rintro (⟨hroom, -, hne⟩ | ⟨hb, hroom, hp', hne⟩)
    · have := hboundary hroom
      omega
    · have hk' := hboundary (by omega)
      have hzero : (512 - (v + k) % 512) % 512 = 0 := by omega
      rw [hzero, Nat.add_zero] at hroom hp' hne
      by_cases hv512 : v % 512 = 0
      · exact absurd (hsmall (by omega)) (by omega)
      · have hto : (512 - v % 512) % 512 = k := by omega
        rw [hto] at hm
        exact hm (.inr ⟨hb, by omega, hp', hne⟩)

/-- The aligned unit that holds a page of a run of aligned units lies in the run. -/
theorem block_fits {m v w k r : ℕ} (hm : 0 < m) (hv : v % m = 0) (hlt : w < v + k * m)
    (hle : k * m ≤ r) : w / m * m + m ≤ v + r := by
  have hv' : v / m * m = v := Nat.div_mul_cancel (Nat.dvd_of_mod_eq_zero hv)
  have hq : w / m < v / m + k := by
    rw [Nat.div_lt_iff_lt_mul hm, add_mul, hv']
    exact hlt
  calc w / m * m + m = (w / m + 1) * m := by ring
    _ ≤ (v / m + k) * m := Nat.mul_le_mul_right _ hq
    _ = v + k * m := by rw [add_mul, hv']
    _ ≤ v + r := by omega

/-- The page of 1 GB that holds page `w` fits into the range. -/
def Fits1GB (b : Bool) (v n w : ℕ) : Prop :=
  b = true ∧ v ≤ w / 262144 * 262144 ∧ w / 262144 * 262144 + 262144 ≤ v + n

/-- The page of 2 MB that holds page `w` fits into the range. -/
def Fits2MB (v n w : ℕ) : Prop := v ≤ w / 512 * 512 ∧ w / 512 * 512 + 512 ≤ v + n

instance (b : Bool) (v n w : ℕ) : Decidable (Fits1GB b v n w) :=
  inferInstanceAs (Decidable (_ ∧ _ ∧ _))

instance (v n w : ℕ) : Decidable (Fits2MB v n w) := inferInstanceAs (Decidable (_ ∧ _))

/-- The depth at which a page of the range `[v, v + n)` is mapped when physical and virtual
addresses are congruent: that of the largest page that holds it and fits into the range. -/
def pageDepth (b : Bool) (v n w : ℕ) : ℕ :=
  if Fits1GB b v n w then 1 else if Fits2MB v n w then 2 else 3

include hd hk in
/-- Each page of the block that an iteration sets has the depth of this iteration. -/
theorem pageDepth_block (hc : p % 262144 = v % 262144) {w : ℕ} (hv : v % span d = 0)
    (hw : v ≤ w) (hlt : w < v + k * span d) : pageDepth b v r w = d := by
  have hle := stepCount_le hk
  simp only [stepCount, tableSize, tree] at hk
  unfold pageDepth
  rcases stepDepth_cases b p r with ⟨h, hb, h1, h2⟩ | ⟨h, h1, h2, h3⟩ | ⟨h, h1, h2⟩ <;>
    rw [h] at hd <;> subst hd <;> simp only [span] at hk hv hlt hle <;>
    norm_num at hk hv hlt hle
  · have hfit : Fits1GB b v r w := by
      refine ⟨hb, ?_, block_fits (by norm_num) hv hlt hle⟩
      omega
    rw [if_pos hfit]
  · have hnot : ¬ Fits1GB b v r w := by
      rintro ⟨hb, h4, h5⟩
      have := h1 hb
      omega
    have hfit : Fits2MB v r w := by
      refine ⟨?_, block_fits (by norm_num) hv hlt hle⟩
      omega
    rw [if_neg hnot, if_pos hfit]
  · have hnot : ¬ Fits1GB b v r w := by
      rintro ⟨hb, h4, h5⟩
      have := h1 hb
      omega
    have hnot' : ¬ Fits2MB v r w := by
      rintro ⟨h4, h5⟩
      omega
    rw [if_neg hnot, if_neg hnot']

include hd hk in
/-- The pages after the block are mapped as those of the range that is left. -/
theorem pageDepth_rest (hc : p % 262144 = v % 262144) {w : ℕ} (hv : v % span d = 0)
    (hw : v + k * span d ≤ w) :
    pageDepth b v r w = pageDepth b (v + k * span d) (r - k * span d) w := by
  have hle := stepCount_le hk
  simp only [stepCount, tableSize, tree] at hk
  have h1iff : Fits1GB b v r w ↔ Fits1GB b (v + k * span d) (r - k * span d) w := by
    unfold Fits1GB
    rcases stepDepth_cases b p r with ⟨h, hb, h1, h2⟩ | ⟨h, h1, h2, h3⟩ | ⟨h, h1, h2⟩ <;>
      rw [h] at hd <;> subst hd <;> simp only [span] at hk hv hw hle ⊢ <;>
      norm_num at hk hv hw hle ⊢ <;> cases b <;> simp at * <;> omega
  have h2iff : Fits2MB v r w ↔ Fits2MB (v + k * span d) (r - k * span d) w := by
    unfold Fits2MB
    rcases stepDepth_cases b p r with ⟨h, hb, h1, h2⟩ | ⟨h, h1, h2, h3⟩ | ⟨h, h1, h2⟩ <;>
      rw [h] at hd <;> subst hd <;> simp only [span] at hk hv hw hle ⊢ <;>
      norm_num at hk hv hw hle ⊢ <;> omega
  unfold pageDepth
  simp only [h1iff, h2iff]

end Step

/-! ### The loop -/

/-- The call maps exactly the pages `[v, v + n)`, to the frames from `p` on: what is mapped,
what is kept, and at which depth the entries are. -/
structure Maps (s s' : State) (v n p flags : ℕ) : Prop where
  inv : TreeInv s' none
  along : Along (fun u => v ≤ u ∧ u < v + n) s s'
  mapped : ∀ i < n, s'.page (v + i) = some (requested flags (p + i))
  outside : ∀ w < pageCount, ¬ (v ≤ w ∧ w < v + n) → ∀ d e, Leaf s' d w e ↔ Leaf s d w e
  depth : p % 262144 = v % 262144 →
    ∀ i < n, ∃ e, Leaf s' (pageDepth s.has1GBPages v n (v + i)) (v + i) e
  small : n < 512 → NoNewLarge 3 s s'

/-- The pages of a block that starts at a whole entry are those of the entries from its start
on. -/
theorem inBlock_of_aligned {d v k w : ℕ} (hv : v % span d = 0) :
    InBlock d v k w ↔ v ≤ w ∧ w < v + k * span d := by
  have hs : 0 < span d := by unfold span; positivity
  have hv' : v / span d * span d = v := Nat.div_mul_cancel (Nat.dvd_of_mod_eq_zero hv)
  rw [InBlock, Nat.le_div_iff_mul_le hs, Nat.div_lt_iff_lt_mul hs, add_mul, hv']

/-- With no page remaining the loop has nothing to do, and nothing changes. -/
theorem Maps.nil {s : State} (h : TreeInv s none) (v p flags : ℕ) : Maps s s v 0 p flags where
  inv := h
  along := .refl _ _
  mapped := fun i hi => absurd hi (Nat.not_lt_zero i)
  outside := fun _ _ _ _ _ => Iff.rfl
  depth := fun _ i hi => absurd hi (Nat.not_lt_zero i)
  small := fun _ _ _ _ _ _ hf hsize => ⟨hf, hsize⟩

/-- An iteration that sets its block, followed by the rest of the loop, maps the whole
range. -/
theorem Maps.cons {s s₁ s' : State} {v r p flags d k : ℕ} (hr : 0 < r) (hvr : v + r ≤ pageCount)
    (hpr : p + r ≤ 2 ^ 36) (hd : d = stepDepth s.has1GBPages (p * pageSize) r)
    (hk : k = stepCount d v r) (hm : ¬ Misaligned s.has1GBPages p v r)
    (hblock : BlockSet s s₁ d v k
      (fun j => pageEntry flags d ((p * pageSize + j * (span d * pageSize)) % 2 ^ 64)))
    (hrest : Maps s₁ s' (v + k * span d) (r - k * span d) (p + k * span d) flags) :
    Maps s s' v r p flags := by
  obtain ⟨hd1, hd3⟩ := stepDepth_bounds s.has1GBPages (p * pageSize) r
  rw [← hd] at hd1 hd3
  obtain ⟨hv, hp⟩ := aligned_of_not_misaligned hd hm
  have hle := stepCount_le hk
  have hs : 0 < span d := by unfold span; positivity
  -- A page of the block is mapped by the block, and the rest of the loop does not touch it.
  have hleaf : ∀ i < k * span d, Leaf s' d (v + i)
      (pageEntry flags d ((p + i / span d * span d) * pageSize)) := by
    intro i hi
    have hlt : v + i < pageCount := by omega
    rw [hrest.outside _ hlt (by omega)]
    have := hblock.leaf_new (v + i) hlt ((inBlock_of_aligned hv).mpr ⟨by omega, by omega⟩)
    have hdiv : (v + i) / span d - v / span d = i / span d := by
      obtain ⟨q, rfl⟩ := Nat.dvd_of_mod_eq_zero hv
      rw [Nat.mul_add_div hs, Nat.mul_div_cancel_left _ hs, Nat.add_sub_cancel_left]
    have hsmall : i / span d * span d ≤ i := Nat.div_mul_le_self _ _
    have haddr : (p * pageSize + i / span d * (span d * pageSize)) % 2 ^ 64 =
        (p + i / span d * span d) * pageSize := by
      rw [← mul_assoc, ← add_mul]
      apply Nat.mod_eq_of_lt
      simp only [pageSize]
      omega
    simpa only [hdiv, haddr] using this
  refine ⟨hrest.inv, ?_, ?_, ?_, ?_, ?_⟩
  · refine (hblock.along.mono ?_).trans (hrest.along.mono ?_)
    · rintro u rfl
      exact ⟨le_rfl, by omega⟩
    · rintro u ⟨h1, h2⟩
      omega
  · intro i hi
    by_cases hik : i < k * span d
    · rw [page_eq_some hrest.inv]
      refine ⟨d, _, hleaf i hik, ?_⟩
      have hsmall : i / span d * span d ≤ i := Nat.div_mul_le_self _ _
      rw [pageEntry_leaf flags hd1 hd3 ?_ (by omega)]
      · congr 1
        obtain ⟨q, hq⟩ := Nat.dvd_of_mod_eq_zero hv
        rw [hq, Nat.mul_add_mod]
        have := Nat.div_add_mod' i (span d)
        omega
      · rw [Nat.add_mod, hp, Nat.mul_mod_left]
        simp
    · have := hrest.mapped (i - k * span d) (by omega)
      rwa [show v + k * span d + (i - k * span d) = v + i by omega,
        show p + k * span d + (i - k * span d) = p + i by omega] at this
  · intro w hw hout d' e
    rw [hrest.outside w hw (by omega) d' e]
    apply hblock.leaf_old w hw
    rw [inBlock_of_aligned hv]
    omega
  · intro hc i hi
    by_cases hik : i < k * span d
    · rw [pageDepth_block hd hk hc hv (by omega) (by omega)]
      exact ⟨_, hleaf i hik⟩
    · rw [pageDepth_rest hd hk hc hv (by omega), ← hblock.along.has1GB_eq]
      have hcong : (p + k * span d) % 262144 = (v + k * span d) % 262144 := by
        rw [Nat.add_mod, hc, ← Nat.add_mod]
      have := hrest.depth hcong (i - k * span d) (by omega)
      rwa [show v + k * span d + (i - k * span d) = v + i by omega] at this
  · intro hr
    have hd' : d = 3 := by
      rcases stepDepth_cases s.has1GBPages p r with ⟨h, -, -, h2⟩ | ⟨h, -, -, h3⟩ | ⟨h, -⟩
      · omega
      · omega
      · exact hd.trans h
    subst hd'
    exact hblock.size_old.trans (hrest.small (by omega))

/-- The page number of an address `c` pages further up is `c` larger, as long as it stays in
the address space. -/
theorem pageNumber_add {virt c : ℕ} (hal : virt % pageSize = 0)
    (hlt : pageNumber virt + c < pageCount) :
    pageNumber ((virt + c * pageSize) % 2 ^ 64) = pageNumber virt + c := by
  simp only [pageNumber, pageSize, pageCount] at *
  omega

/-- The variables of an iteration: physical and virtual address are those of frame `p` and of
page `v`, and `r` pages remain, all of them in the address spaces. -/
structure LoopVars (phys virt p v r : ℕ) : Prop where
  phys_eq : phys = p * pageSize
  virt_lt : virt < 2 ^ 64
  virt_aligned : virt % pageSize = 0
  page_eq : 0 < r → v = pageNumber virt
  frames : p + r ≤ 2 ^ 36
  pages : v + r ≤ pageCount

/-- After an iteration the variables of the loop are those of the first page that remains. -/
theorem LoopVars.next {phys virt p v r c : ℕ} (h : LoopVars phys virt p v r) (hr : 0 < r)
    (hc : c ≤ r) :
    LoopVars ((phys + c * pageSize) % 2 ^ 64) ((virt + c * pageSize) % 2 ^ 64) (p + c) (v + c)
      (r - c) where
  phys_eq := by
    have := h.frames
    rw [h.phys_eq, ← add_mul]
    apply Nat.mod_eq_of_lt
    simp only [pageSize]
    omega
  virt_lt := Nat.mod_lt _ (by decide)
  virt_aligned := by
    have := h.virt_aligned
    simp only [pageSize] at *
    omega
  page_eq := by
    intro hrc
    have := h.pages
    have hv := h.page_eq hr
    rw [pageNumber_add h.virt_aligned (by omega), hv]
  frames := by
    have := h.frames
    omega
  pages := by
    have := h.pages
    omega

section Loop

variable {phys virt p v r : ℕ} {s : State} (h : TreeInv s none)
  (hvars : LoopVars phys virt p v r) (hr : 0 < r) (hun : ∀ i < r, s.page (v + i) = none)

include h hvars hr hun in
/-- One iteration, in page numbers: it panics, or finds a page of its block mapped, or sets the
block. -/
theorem mapStep_pages (flags : ℕ) {d k : ℕ} (hd : d = stepDepth s.has1GBPages (p * pageSize) r)
    (hk : k = stepCount d v r) :
    mapStep flags s phys virt r = .error .panic ∨
    (mapStep flags s phys virt r = .error .assertion ∧
      ∃ w < pageCount, InBlock d v k w ∧ s.page w ≠ none) ∨
    ∃ s', mapStep flags s phys virt r =
        .ok (s', (phys + k * span d * pageSize) % 2 ^ 64,
          (virt + k * span d * pageSize) % 2 ^ 64, r - k * span d) ∧
      BlockSet s s' d v k
        (fun j => pageEntry flags d ((p * pageSize + j * (span d * pageSize)) % 2 ^ 64)) := by
  have hv := hvars.page_eq hr
  have hfr := hvars.frames
  have hpg := hvars.pages
  have hphys := hvars.phys_eq
  have h0 := hun 0 hr
  rw [Nat.add_zero, hv] at h0
  have hplt : phys < 2 ^ 64 := by
    simp only [pageSize] at *
    omega
  have hrlt : r * pageSize < 2 ^ 64 := by
    simp only [pageSize] at *
    omega
  have hpal : phys % pageSize = 0 := by
    rw [hphys]
    exact Nat.mul_mod_left _ _
  have hcases := mapStep_cases h flags hplt hvars.virt_lt hr hrlt hpal h0 hv
    (by rw [hphys]; exact hd) hk
  simpa only [hphys, mul_assoc] using hcases

end Loop

/-- The pages after the first iteration are still unmapped. -/
theorem BlockSet.unmapped_rest {s s₁ : State} {d v k r : ℕ} {desc : ℕ → Descriptor}
    (h : TreeInv s none) (hblock : BlockSet s s₁ d v k desc) (hpg : v + r ≤ pageCount)
    (hun : ∀ i < r, s.page (v + i) = none) {i : ℕ} (hi : i < r - k * span d) :
    s₁.page (v + k * span d + i) = none := by
  have hs : 0 < span d := by unfold span; positivity
  have hnot : ¬ InBlock d v k (v + k * span d + i) := by
    rintro ⟨-, hlt⟩
    have : v / span d + k ≤ (v + k * span d + i) / span d := by
      rw [← Nat.add_mul_div_right _ _ hs]
      exact Nat.div_le_div_right (by omega)
    omega
  rw [page_congr h hblock.inv (hblock.leaf_old _ (by omega) hnot)]
  have := hun (k * span d + i) (by omega)
  rwa [← add_assoc] at this

/-- **The loop of `Paging_map`, aligned**: the only failure is that no page is left for a
table, and otherwise exactly the requested pages are mapped. -/
theorem mapLoop_exact (flags : ℕ) (fuel : ℕ) {s : State} {phys virt p v r : ℕ} (hfuel : r ≤ fuel)
    (h : TreeInv s none) (hvars : LoopVars phys virt p v r)
    (hun : ∀ i < r, s.page (v + i) = none) (hm : ¬ Misaligned s.has1GBPages p v r) :
    mapLoop flags fuel s phys virt r = .error .panic ∨
    ∃ s', mapLoop flags fuel s phys virt r = .ok s' ∧ Maps s s' v r p flags := by
  induction fuel generalizing s phys virt p v r with
  | zero =>
      obtain rfl : r = 0 := by omega
      exact .inr ⟨s, by rw [mapLoop]; simp, .nil h v p flags⟩
  | succ fuel ih =>
      by_cases hr : r = 0
      · subst hr
        exact .inr ⟨s, by rw [mapLoop]; simp, .nil h v p flags⟩
      have hpos : 0 < r := by omega
      set d := stepDepth s.has1GBPages (p * pageSize) r with hd
      set k := stepCount d v r with hk
      obtain ⟨hv, -⟩ := aligned_of_not_misaligned hd hm
      have hle := stepCount_le hk
      have hs : 0 < span d := by unfold span; positivity
      have hk1 : 1 ≤ k := stepCount_pos (stepDepth_fits hpos (Nat.mul_mod_left _ _)).1
      have hc1 : 1 ≤ k * span d := Nat.mul_pos hk1 hs
      have hpg := hvars.pages
      rcases mapStep_pages h hvars hpos hun flags hd hk with
        hstep | ⟨-, w, hw, hin, hpage⟩ | ⟨s₁, hstep, hblock⟩
      · left
        rw [mapLoop, if_neg hr]
        simp only [hstep]
        rfl
      · rw [inBlock_of_aligned hv] at hin
        have := hun (w - v) (by omega)
        rw [show v + (w - v) = w by omega] at this
        exact absurd this hpage
      · have hun₁ : ∀ i < r - k * span d, s₁.page (v + k * span d + i) = none :=
          fun i hi => hblock.unmapped_rest h hvars.pages hun hi
        have hm₁ := not_misaligned_step hd hk hm
        rw [← hblock.along.has1GB_eq] at hm₁
        rcases ih (by omega) hblock.inv (hvars.next hpos hle) hun₁ hm₁ with
          hpanic | ⟨s', hok, hmaps⟩
        · left
          rw [mapLoop, if_neg hr]
          simp only [hstep, bind, Except.bind]
          exact hpanic
        · right
          refine ⟨s', ?_, .cons hpos hvars.pages hvars.frames hd hk hm hblock hmaps⟩
          rw [mapLoop, if_neg hr]
          simp only [hstep, bind, Except.bind]
          exact hok

/-- The loop of `Paging_map` over unmapped pages keeps every page mapped that was mapped
before. -/
theorem mapLoop_mono {flags : ℕ} (fuel : ℕ) {s : State} {phys virt p v r : ℕ}
    (h : TreeInv s none) (hvars : LoopVars phys virt p v r)
    (hun : ∀ i < r, s.page (v + i) = none) {s' : State}
    (hok : mapLoop flags fuel s phys virt r = .ok s') {w : ℕ} (hw : w < pageCount)
    (hpage : s.page w ≠ none) : s'.page w ≠ none := by
  induction fuel generalizing s phys virt p v r with
  | zero =>
      rw [mapLoop] at hok
      split at hok
      · exact Except.ok.inj hok ▸ hpage
      · exact absurd hok (by simp)
  | succ fuel ih =>
      rw [mapLoop] at hok
      split at hok
      · exact Except.ok.inj hok ▸ hpage
      · rename_i hr
        have hpos : 0 < r := by omega
        rcases mapStep_pages h hvars hpos hun flags rfl rfl with
          hstep | ⟨hstep, -⟩ | ⟨s₁, hstep, hblock⟩
        · simp [hstep, bind, Except.bind] at hok
        · simp [hstep, bind, Except.bind] at hok
        · simp only [hstep, bind, Except.bind] at hok
          refine ih hblock.inv (hvars.next hpos (stepCount_le rfl))
            (fun i hi => hblock.unmapped_rest h hvars.pages hun hi) hok ?_
          have hnot : ¬ InBlock _ v _ w := fun hin => hpage (hblock.fresh w hw hin)
          rwa [page_congr h hblock.inv (hblock.leaf_old w hw hnot)]

/-- While the iterations of a misaligned call are aligned, the misaligned one is to come. -/
theorem misaligned_step {b : Bool} {p v r d k : ℕ} (hd : d = stepDepth b (p * pageSize) r)
    (hk : k = stepCount d v r) (hm : Misaligned b p v r) (hv : v % span d = 0) :
    Misaligned b (p + k * span d) (v + k * span d) (r - k * span d) := by
  unfold Misaligned toBoundary at *
  simp only [stepCount, tableSize, tree] at hk
  rcases stepDepth_cases b p r with ⟨h, hb, h1, h2⟩ | ⟨h, h1, h2, h3⟩ | ⟨h, h1, h2⟩ <;>
    rw [h] at hd <;> subst hd <;> simp only [span] at hk hv ⊢ <;> norm_num at hk hv ⊢
  · omega
  · rcases hm with hm | ⟨hb, hm⟩
    · omega
    · have := h1 hb
      omega
  · rcases hm with hm | ⟨hb, hm⟩
    · omega
    · have := h1 hb
      exact .inr ⟨hb, by omega, by omega, by omega⟩

/-- **The loop of `Paging_map`, misaligned**: if it ends, a page outside of the range that was
not mapped is mapped. -/
theorem mapLoop_misaligned {flags : ℕ} (fuel : ℕ) {s : State} {phys virt p v r : ℕ}
    (h : TreeInv s none) (hvars : LoopVars phys virt p v r)
    (hun : ∀ i < r, s.page (v + i) = none) (hm : Misaligned s.has1GBPages p v r) {s' : State}
    (hok : mapLoop flags fuel s phys virt r = .ok s') :
    ∃ w < pageCount, ¬ (v ≤ w ∧ w < v + r) ∧ s.page w = none ∧ s'.page w ≠ none := by
  have hr : r ≠ 0 := by
    rintro rfl
    unfold Misaligned at hm
    omega
  have hpos : 0 < r := by omega
  have hpg := hvars.pages
  induction fuel generalizing s phys virt p v r with
  | zero => simp [mapLoop, hr] at hok
  | succ fuel ih =>
      rw [mapLoop, if_neg hr] at hok
      set d := stepDepth s.has1GBPages (p * pageSize) r with hd
      set k := stepCount d v r with hk
      have hs : 0 < span d := by unfold span; positivity
      have hle := stepCount_le hk
      have hk1 : 1 ≤ k := stepCount_pos (stepDepth_fits hpos (Nat.mul_mod_left _ _)).1
      rcases mapStep_pages h hvars hpos hun flags hd hk with
        hstep | ⟨hstep, -⟩ | ⟨s₁, hstep, hblock⟩
      · simp [hstep, bind, Except.bind] at hok
      · simp [hstep, bind, Except.bind] at hok
      · simp only [hstep, bind, Except.bind] at hok
        have hun₁ : ∀ i < r - k * span d, s₁.page (v + k * span d + i) = none :=
          fun i hi => hblock.unmapped_rest h hvars.pages hun hi
        by_cases hv : v % span d = 0
        · have hm₁ := misaligned_step hd hk hm hv
          rw [← hblock.along.has1GB_eq] at hm₁
          have hr₁ : r - k * span d ≠ 0 := by
            intro h0
            rw [h0] at hm₁
            unfold Misaligned at hm₁
            omega
          obtain ⟨w, hw, hout, hnone, hmapped⟩ := ih hblock.inv (hvars.next hpos hle) hun₁ hm₁ hok
            hr₁ (by omega) (by omega)
          have hnot : ¬ InBlock d v k w := by
            intro hin
            exact (page_ne_none hblock.inv).mpr ⟨d, _, hblock.leaf_new w hw hin⟩ hnone
          rw [page_congr h hblock.inv (hblock.leaf_old w hw hnot)] at hnone
          rw [inBlock_of_aligned hv] at hnot
          exact ⟨w, hw, by omega, hnone, hmapped⟩
        · -- The block starts below `v`.
          have hlow : v / span d * span d < v := by
            have := Nat.div_add_mod' v (span d)
            omega
          have hin : InBlock d v k (v / span d * span d) := by
            rw [InBlock, Nat.mul_div_cancel _ hs]
            omega
          have hw : v / span d * span d < pageCount := by omega
          refine ⟨v / span d * span d, hw, by omega, hblock.fresh _ hw hin, ?_⟩
          exact mapLoop_mono fuel hblock.inv (hvars.next hpos hle) hun₁ hok hw
            ((page_ne_none hblock.inv).mpr ⟨d, _, hblock.leaf_new _ hw hin⟩)

end MugOS.Paging
