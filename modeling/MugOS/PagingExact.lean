import MugOS.PagingMap

/-!
# When Paging_map Establishes the Requested Translation

## Main results

* `map_exact_iff`: `Paging_map` establishes exactly the requested translation if and only if
  the range lies in the address spaces and no iteration sets pages that are larger than its
  virtual address is aligned to.
-/

namespace MugOS.Paging

open PMM RadixTree

/-! ### The requested translation -/

/-- The states in which `Paging_map` is called: the tables are a tree, and paging is enabled
only once the dynamic windows, the last three pages, are mapped. -/
structure State.WellFormed (s : State) : Prop where
  tree : TreeInv s none
  windows : s.enabled = true → ∀ w, pageCount - 3 ≤ w → w < pageCount → s.page w ≠ none

/-- `Paging_map(phys, virt, n_pages, flags)` returns and establishes exactly the requested
translation. The dynamic windows, once in use, are not looked at: every access to a table
redirects them. -/
def MapExact (s : State) (phys virt n flags : ℕ) : Prop :=
  ∃ s', map s phys virt n flags = .ok s' ∧
    (∀ i < n, translatePage s' (virt + i * pageSize) =
      some (requested flags (phys / pageSize + i))) ∧
    ∀ addr, ¬ (virt ≤ addr ∧ addr < virt + n * pageSize) →
      ¬ (s.enabled = true ∧ windowDepth addr ≠ none) →
      translatePage s' addr = translatePage s addr

/-- The pages of the range are pages of the two address spaces. -/
structure InSpace (phys virt n : ℕ) : Prop where
  frames : phys + n * pageSize ≤ 2 ^ 48
  canonical : ∀ i < n, Canonical (virt + i * pageSize)

/-- The frames that a walk leads to have 36 bits, so that their addresses do not wrap. -/
theorem walk_frame_lt {mem : ℕ → ℕ → Descriptor} {l table page : ℕ} (hl : l ≤ 3)
    {t : Translation} (h : walk mem l table page = some t) : t.frame < 2 ^ 36 := by
  have hleaf : ∀ (e : Descriptor) (k : ℕ), k ≤ 3 → (e.leaf k page).frame < 2 ^ 36 := by
    intro e k hk
    have := e.address.isLt
    simp only [Descriptor.leaf]
    interval_cases k <;> norm_num <;> omega
  induction l generalizing table t with
  | zero =>
      simp only [walk] at h
      split at h
      · rw [← Option.some.inj h]
        exact hleaf _ 0 (by omega)
      · exact absurd h (by simp)
  | succ l ih =>
      simp only [walk] at h
      split at h
      · exact absurd h (by simp)
      · split at h
        · rw [← Option.some.inj h]
          exact hleaf _ _ hl
        · obtain ⟨t', ht', rfl⟩ := Option.map_eq_some_iff.mp h
          have hlt := ih (by omega) ht'
          exact hlt

/-- Getting a table does not change whether paging is enabled. -/
theorem getTable_enabled {d f i g : ℕ} {b : Bool} {s s' : State}
    (h : getTable d s f i b = .ok (g, s')) : s'.enabled = s.enabled := by
  unfold getTable at h
  simp only [allocatePageOrPanic, bind, Except.bind] at h
  split at h
  · rw [← (Prod.mk.inj (Except.ok.inj h)).2]
    simp
  · split at h
    · exact absurd h (by simp)
    · split at h
      · exact absurd h (by simp)
      · rename_i heq
        split at heq
        · exact absurd heq (by simp)
        · rw [← (Prod.mk.inj (Except.ok.inj h)).2, ← Except.ok.inj heq]
          simp

/-- An iteration of `Paging_map` does not change whether paging is enabled. -/
theorem mapStep_enabled {flags phys virt r phys' virt' r' : ℕ} {s s' : State}
    (h : mapStep flags s phys virt r = .ok (s', phys', virt', r')) : s'.enabled = s.enabled := by
  simp only [mapStep, bind, Except.bind, getPDP, getPD, getPT] at h
  split at h
  · exact absurd h (by simp)
  rename_i h₁
  have he₁ := getTable_enabled h₁
  split at h
  · split at h
    · exact absurd h (by simp)
    · rw [← (Prod.mk.inj (Except.ok.inj h)).1]
      exact he₁
  · split at h
    · exact absurd h (by simp)
    rename_i h₂
    have he₂ := getTable_enabled h₂
    split at h
    · split at h
      · exact absurd h (by simp)
      · rw [← (Prod.mk.inj (Except.ok.inj h)).1]
        exact he₂.trans he₁
    · split at h
      · exact absurd h (by simp)
      rename_i h₃
      have he₃ := getTable_enabled h₃
      split at h
      · exact absurd h (by simp)
      · rw [← (Prod.mk.inj (Except.ok.inj h)).1]
        exact he₃.trans (he₂.trans he₁)

/-- `Paging_map` does not change whether paging is enabled. -/
theorem mapLoop_enabled {flags : ℕ} (fuel : ℕ) {phys virt r : ℕ} {s s' : State}
    (h : mapLoop flags fuel s phys virt r = .ok s') : s'.enabled = s.enabled := by
  induction fuel generalizing s phys virt r with
  | zero =>
      rw [mapLoop] at h
      split at h
      · rw [Except.ok.inj h]
      · exact absurd h (by simp)
  | succ fuel ih =>
      rw [mapLoop] at h
      split at h
      · rw [Except.ok.inj h]
      · simp only [bind, Except.bind] at h
        split at h
        · exact absurd h (by simp)
        · rename_i hstep
          exact (ih h).trans (mapStep_enabled hstep)

/-- The address of a virtual page, which is canonical: the upper half has its leading bits
set. -/
def pageAddr (w : ℕ) : ℕ :=
  if w < 2 ^ 35 then w * pageSize else 2 ^ 64 - 2 ^ 48 + w * pageSize

/-- The address of a page is canonical, and its page number is that of the page. -/
theorem pageAddr_spec {w : ℕ} (hw : w < pageCount) :
    Canonical (pageAddr w) ∧ pageNumber (pageAddr w) = w := by
  unfold pageAddr Canonical pageNumber
  simp only [pageSize, pageCount] at *
  split_ifs <;> omega

section Range

variable {phys virt n : ℕ} (hphys : phys % pageSize = 0) (hvirt : virt % pageSize = 0)
  (hcan : ∀ i < n, Canonical (virt + i * pageSize))

include hvirt hcan in
/-- A range of canonical pages lies in one half of the address space. -/
theorem canonical_half {i : ℕ} (hi : i < n) :
    virt + i * pageSize < 2 ^ 47 ∨
      2 ^ 64 - 2 ^ 47 ≤ virt ∧ virt + i * pageSize < 2 ^ 64 := by
  obtain ⟨a, rfl⟩ := Nat.dvd_of_mod_eq_zero hvirt
  have h0 : Canonical (pageSize * a) := by simpa using hcan 0 (by omega)
  rcases h0 with h0 | ⟨h0, -⟩ <;> rcases hcan i hi with h1 | ⟨h1, h2⟩
  · exact .inl h1
  · -- The first page past the lower half is in the range, and it is not canonical.
    simp only [pageSize] at h0 h1
    have hmid := hcan (2 ^ 35 - a) (by omega)
    have heq : pageSize * a + (2 ^ 35 - a) * pageSize = 2 ^ 47 := by
      simp only [pageSize]
      omega
    rw [heq] at hmid
    exact absurd hmid (by decide)
  · simp only [pageSize] at h0 h1
    omega
  · exact .inr ⟨h0, h2⟩

include hvirt hcan in
/-- The pages of a canonical range have successive page numbers. -/
theorem pageNumber_range {i : ℕ} (hi : i < n) :
    pageNumber (virt + i * pageSize) = pageNumber virt + i := by
  have h := canonical_half hvirt hcan hi
  unfold pageNumber
  simp only [pageSize] at *
  omega

include hvirt hcan in
/-- A range of canonical pages lies in the virtual pages. -/
theorem pageNumber_range_le (hn : 1 ≤ n) : pageNumber virt + n ≤ pageCount := by
  have h2 := pageNumber_range hvirt hcan (show n - 1 < n by omega)
  have h3 := pageNumber_lt (virt + (n - 1) * pageSize)
  omega

include hvirt hcan in
/-- A canonical address lies in the range exactly when its page does. -/
theorem mem_range_iff (hn : 1 ≤ n) {addr : ℕ} (ha : Canonical addr) :
    virt ≤ addr ∧ addr < virt + n * pageSize ↔
      pageNumber virt ≤ pageNumber addr ∧ pageNumber addr < pageNumber virt + n := by
  have h1 := canonical_half hvirt hcan (show n - 1 < n by omega)
  have h2 := pageNumber_range_le hvirt hcan hn
  unfold Canonical pageNumber at *
  simp only [pageSize, pageCount] at *
  omega

end Range

/-- The translation of a canonical address outside of the windows. -/
theorem translatePage_of_canonical {s : State} {addr : ℕ} (hc : Canonical addr)
    (hw : ¬ (s.enabled = true ∧ windowDepth addr ≠ none)) :
    translatePage s addr = s.page (pageNumber addr) := by
  rw [translatePage, if_pos hc, State.page]
  cases walk s.mem 3 s.pml4 (pageNumber addr) with
  | none => rfl
  | some t =>
      cases hd : windowDepth addr with
      | none => rfl
      | some d =>
          have hen : s.enabled = false := by
            by_contra hen
            exact hw ⟨by simpa using hen, by simp [hd]⟩
          simp [hen]

/-- An address is translated exactly when it is canonical and its page is mapped. -/
theorem translatePage_eq_none {s : State} {addr : ℕ} :
    translatePage s addr = none ↔ (Canonical addr → s.page (pageNumber addr) = none) := by
  unfold translatePage State.page
  split
  · simp [*]
  · simp [*]

/-- The windows of the dynamic tables are the last three pages of the address space. -/
theorem windowDepth_page {addr : ℕ} (hc : Canonical addr) (hw : windowDepth addr ≠ none) :
    pageCount - 3 ≤ pageNumber addr ∧ pageNumber addr < pageCount := by
  refine ⟨?_, pageNumber_lt addr⟩
  unfold windowDepth at hw
  split at hw
  · exact absurd rfl hw
  · unfold Canonical at hc
    simp only [pageNumber, pageSize, pageCount]
    omega

/-- A canonical page that is not mapped is not one of the windows while they are in use. -/
theorem State.WellFormed.not_window {s : State} (h : s.WellFormed) {addr : ℕ}
    (hc : Canonical addr) (hun : s.page (pageNumber addr) = none) :
    ¬ (s.enabled = true ∧ windowDepth addr ≠ none) := by
  rintro ⟨hen, hw⟩
  obtain ⟨h1, h2⟩ := windowDepth_page hc hw
  exact h.windows hen _ h1 h2 hun

/-- Misalignment is the same for the page number of an address and for the address itself. -/
theorem misaligned_virt {b : Bool} {p virt n : ℕ} (hc : Canonical virt) :
    Misaligned b p (virt / pageSize) n ↔ Misaligned b p (pageNumber virt) n := by
  obtain ⟨q, hq⟩ : ∃ q, virt / pageSize = pageNumber virt + q * 262144 := by
    rcases hc with hc | hc
    · refine ⟨0, ?_⟩
      simp only [pageNumber, pageSize]
      omega
    · refine ⟨(2 ^ 52 - 2 ^ 36) / 262144, ?_⟩
      simp only [pageNumber, pageSize]
      norm_num
      omega
  have h512 : (pageNumber virt + q * 262144) % 512 = pageNumber virt % 512 := by omega
  have hb : toBoundary (pageNumber virt + q * 262144) = toBoundary (pageNumber virt) := by
    unfold toBoundary
    rw [h512]
  have h1GB : (pageNumber virt + q * 262144 + toBoundary (pageNumber virt)) % 262144 =
      (pageNumber virt + toBoundary (pageNumber virt)) % 262144 := by
    omega
  unfold Misaligned
  rw [hq, hb, h512, h1GB]

section Call

variable {s : State} {phys virt n : ℕ} (hs : s.WellFormed) (hphys : phys % pageSize = 0)
  (hvirt : virt % pageSize = 0) (hn : 1 ≤ n) (hin : InSpace phys virt n)

include hphys hvirt hn hin in
/-- At the start of a call for a range in the address space, the variables of the loop are
those of its first page. -/
theorem loopVars_of_inSpace :
    LoopVars phys virt (phys / pageSize) (pageNumber virt) n where
  phys_eq := by
    simp only [pageSize] at *
    omega
  virt_lt := by
    have h0 : Canonical virt := by simpa using hin.canonical 0 (by omega)
    unfold Canonical at h0
    omega
  virt_aligned := hvirt
  page_eq := fun _ => rfl
  frames := by
    have := hin.frames
    simp only [pageSize] at *
    omega
  pages := pageNumber_range_le hvirt hin.canonical hn

include hvirt hin in
/-- The pages of an untranslated range are not mapped. -/
theorem unmapped_of_untranslated
    (hun : ∀ i < n, translatePage s (virt + i * pageSize) = none) {i : ℕ} (hi : i < n) :
    s.page (pageNumber virt + i) = none := by
  have h := translatePage_eq_none.mp (hun i hi) (hin.canonical i hi)
  rwa [pageNumber_range hvirt hin.canonical hi] at h

include hs hvirt hn hin in
/-- The translation after a call that maps exactly the range. -/
theorem mapExact_of_maps {flags : ℕ} {s' : State}
    (hun : ∀ i < n, translatePage s (virt + i * pageSize) = none)
    (hok : map s phys virt n flags = .ok s')
    (hmaps : Maps s s' (pageNumber virt) n (phys / pageSize) flags) :
    MapExact s phys virt n flags := by
  have hen := hmaps.along.enabled_eq
  refine ⟨s', hok, ?_, ?_⟩
  · intro i hi
    have hc := hin.canonical i hi
    have hpage := pageNumber_range hvirt hin.canonical hi
    have hnone := unmapped_of_untranslated hvirt hin hun hi
    rw [← hpage] at hnone
    have hw := hs.not_window hc hnone
    rw [← hen] at hw
    rw [translatePage_of_canonical hc hw, hpage]
    exact hmaps.mapped i hi
  · intro addr hout hw
    by_cases hc : Canonical addr
    · rw [mem_range_iff hvirt hin.canonical hn hc] at hout
      rw [translatePage_of_canonical hc (by rw [hen]; exact hw),
        translatePage_of_canonical hc hw]
      exact page_congr hs.tree hmaps.inv (hmaps.outside _ (pageNumber_lt addr) hout)
    · rw [translatePage, translatePage, if_neg hc, if_neg hc]

omit hvirt in
include hs hphys hn in
/-- A call that establishes the requested translation is one on pages of the address
spaces. -/
theorem inSpace_of_mapExact {flags : ℕ}
    (hun : ∀ i < n, translatePage s (virt + i * pageSize) = none)
    (h : MapExact s phys virt n flags) : InSpace phys virt n := by
  obtain ⟨s', hok, hmapped, -⟩ := h
  have hcan : ∀ i < n, Canonical (virt + i * pageSize) := by
    intro i hi
    by_contra hc
    have := hmapped i hi
    rw [translatePage, if_neg hc] at this
    exact absurd this (by simp)
  refine ⟨?_, hcan⟩
  have hlast : n - 1 < n := by omega
  have hc := hcan (n - 1) hlast
  have hnone := translatePage_eq_none.mp (hun (n - 1) hlast) hc
  have hw := hs.not_window hc hnone
  have hen : s'.enabled = s.enabled := mapLoop_enabled _ hok
  rw [← hen] at hw
  have ht := hmapped (n - 1) hlast
  rw [translatePage_of_canonical hc hw] at ht
  have hlt := walk_frame_lt le_rfl ht
  simp only [requested, pageSize] at *
  omega

end Call

/-- A call that maps exactly its range keeps the state well-formed. -/
theorem State.WellFormed.maps {s s' : State} (h : s.WellFormed) {v n p flags : ℕ}
    (hmaps : Maps s s' v n p flags) : s'.WellFormed where
  tree := hmaps.inv
  windows := by
    intro hen w h1 h2
    rw [hmaps.along.enabled_eq] at hen
    by_cases hin : v ≤ w ∧ w < v + n
    · have := hmaps.mapped (w - v) (by omega)
      rw [show v + (w - v) = w by omega] at this
      rw [this]
      simp
    · rw [page_congr h.tree hmaps.inv (hmaps.outside w h2 hin)]
      exact h.windows hen w h1 h2

/-- The state after `Paging_initTables` has cleared the PML4, with a PML4 outside of the
memory that the memory manager hands out. -/
theorem State.WellFormed.cleared {s : State} (hpmm : s.pmm.WellFormed)
    (hfits : firstFrame s.pmm + s.pmm.nBlocks ≤ 2 ^ 36) (hroot : ¬ Avail s.pmm s.pml4)
    (hzero : ∀ i, (s.mem s.pml4 i).present = false) (hoff : s.enabled = false) :
    s.WellFormed := by
  have hnone : ∀ d page, s.node (d + 1) page = none := by
    intro d page
    exact node_none_of_le (d := 1)
      ((node_succ (d := 0) rfl).trans (child_of_not_present (hzero _))) (by omega)
  have habs : ∀ d page f, s.node (d + 1) page ≠ some f := by
    intro d page f h
    exact absurd ((hnone d page).symm.trans h) (by simp)
  refine ⟨⟨hpmm, hfits, ?_, ?_, hroot, ?_, ?_⟩, ?_⟩
  · rintro (_ | d) v (_ | d') v' a ha ha'
    · exact ⟨rfl, fun k hk => absurd hk (by omega)⟩
    · exact absurd ha' (habs d' v' a)
    · exact absurd ha (habs d v a)
    · exact absurd ha (habs d v a)
  · intro d page f h
    exact absurd h (habs d page f)
  · rintro (_ | d) page e he hc
    · obtain ⟨a, ha, rfl⟩ := entry_eq_some.mp he
      obtain rfl : s.pml4 = a := Option.some.inj ha
      exact absurd (child_of_not_present (hzero _)) hc
    · obtain ⟨a, ha, -⟩ := entry_eq_some.mp he
      exact absurd ha (habs d page a)
  · intro d page f h
    exact absurd h (habs d page f)
  · intro hen
    rw [hoff] at hen
    exact absurd hen (by simp)

/-- **When `Paging_map` establishes exactly the requested translation**: for every state, and
every page-aligned physical address and canonical virtual address of a range of unmapped
pages, provided that the memory manager does not run out of pages for tables, exactly when
the range lies in the address spaces and no iteration sets pages that are larger than its
virtual address is aligned to. -/
theorem map_exact_iff {s : State} (hs : s.WellFormed) {phys virt n flags : ℕ}
    (hphys : phys % pageSize = 0) (hvirt : virt % pageSize = 0) (hcan : Canonical virt)
    (hn : 1 ≤ n) (hun : ∀ i < n, translatePage s (virt + i * pageSize) = none)
    (hleft : map s phys virt n flags ≠ .error .panic) :
    MapExact s phys virt n flags ↔
      InSpace phys virt n ∧
        ¬ Misaligned s.has1GBPages (phys / pageSize) (virt / pageSize) n := by
  rw [misaligned_virt hcan]
  constructor
  · intro h
    have hin := inSpace_of_mapExact hs hphys hn hun h
    refine ⟨hin, ?_⟩
    intro hm
    obtain ⟨s', hok, -, hsame⟩ := h
    obtain ⟨w, hw, hout, hnone, hsome⟩ := mapLoop_misaligned n hs.tree
      (loopVars_of_inSpace hphys hvirt hn hin)
      (fun i hi => unmapped_of_untranslated hvirt hin hun hi) hm hok
    -- The page `w` is neither in the range nor in a window, and its translation changes.
    obtain ⟨hc, hpage⟩ := pageAddr_spec hw
    have hnw := hs.not_window hc (by rw [hpage]; exact hnone)
    have hsame' := hsame (pageAddr w)
      (by rw [mem_range_iff hvirt hin.canonical hn hc, hpage]; exact hout) hnw
    have hen : s'.enabled = s.enabled := mapLoop_enabled _ hok
    rw [translatePage_of_canonical hc hnw, translatePage_of_canonical hc (by rw [hen]; exact hnw),
      hpage] at hsame'
    exact hsome (hsame'.trans hnone)
  · rintro ⟨hin, hm⟩
    rcases mapLoop_exact _ n le_rfl hs.tree (loopVars_of_inSpace hphys hvirt hn hin)
      (fun i hi => unmapped_of_untranslated hvirt hin hun hi) hm with hpanic | ⟨s', hok, hmaps⟩
    · exact absurd hpanic hleft
    · exact mapExact_of_maps hs hvirt hn hin hun hok hmaps

/-- A memory manager with 40 free page frames, the frames 16 to 55. -/
def freeFrames : BitmapAllocator :=
  { nBlocks := 40, start := 0x10000, allocatableBlocks := 40, allocatedBlocks := 0,
    bitmap := [0#64], bitmapLength := 1 }

/-- Cleared tables, with the PML4 in frame 8 and free frames for others. -/
def clearedTables (has1GBPages : Bool) : State where
  mem := fun _ _ => Descriptor.zero
  pml4 := 8
  pmm := freeFrames
  has1GBPages := has1GBPages
  enabled := false
  window := fun _ => 0

/-- Tables without any entry are well-formed, with the windows in use or not. -/
theorem clearedTables_wellFormed (b : Bool) : (clearedTables b).WellFormed := by
  apply State.WellFormed.cleared
  · refine ⟨⟨?_, ?_, ?_, ?_⟩, ?_, ?_, ?_, ?_⟩ <;> simp only [clearedTables] <;> decide
  · simp only [clearedTables]
    decide
  · rintro ⟨⟨h, -⟩, -⟩
    revert h
    simp only [clearedTables]
    decide
  · intro i
    rfl
  · rfl

/-- In tables without any entry no page is mapped. -/
theorem clearedTables_page (b : Bool) (w : ℕ) : (clearedTables b).page w = none :=
  page_none_of_not_present (clearedTables_wellFormed b).tree (d := 0) rfl rfl

/-- A call that returns a value does not end in a panic. -/
theorem ne_panic_of_isOk {α : Type} {x : Except Fault α} (h : x.isOk = true) :
    x ≠ .error .panic := by
  rintro rfl
  simp [Except.isOk, Except.toBool] at h

/-- The condition and the translation at a concrete call: two pages, writable, in cleared
tables. -/
theorem map_exact_iff_twoPages :
    MapExact (clearedTables false) 0x5000 0xffffd00000005000 2 pageWrite := by
  refine (map_exact_iff (clearedTables_wellFormed false) (by decide) (by decide) (by decide)
    (by decide) ?_ (ne_panic_of_isOk (by decide +kernel))).mpr ⟨⟨by decide, by decide⟩, ?_⟩
  · intro i _
    exact translatePage_eq_none.mpr fun _ => clearedTables_page false _
  · unfold Misaligned
    decide

/-- **A call that maps other pages than requested**: the physical address is aligned to 2 MB
and 512 pages are asked for, so the whole range is mapped by one page of 2 MB; the virtual
address is not aligned, so that page begins one page below the range and ends one page
before its end. -/
theorem map_misaligned_2MB :
    (clearedTables false).WellFormed ∧
    (∀ i < 512, translatePage (clearedTables false) (0x1000 + i * pageSize) = none) ∧
    (map (clearedTables false) 0x200000 0x1000 512 pageWrite).isOk = true ∧
    ((map (clearedTables false) 0x200000 0x1000 512 pageWrite).toOption.map fun s =>
      (translatePage s 0, translatePage s 0x1000, translatePage s 0x200000)) =
      some (some (requested pageWrite 0x200), some (requested pageWrite 0x201), none) ∧
    ¬ MapExact (clearedTables false) 0x200000 0x1000 512 pageWrite := by
  have heval : ((map (clearedTables false) 0x200000 0x1000 512 pageWrite).toOption.map fun s =>
      (translatePage s 0, translatePage s 0x1000, translatePage s 0x200000)) =
      some (some (requested pageWrite 0x200), some (requested pageWrite 0x201), none) := by
    decide +kernel
  refine ⟨clearedTables_wellFormed false, ?_, by decide +kernel, heval, ?_⟩
  · intro i _
    exact translatePage_eq_none.mpr fun _ => clearedTables_page false _
  · rintro ⟨s', hok, hmapped, -⟩
    have hlast := hmapped 511 (by decide)
    rw [hok] at heval
    simp only [Except.toOption, Option.map_some, Option.some.injEq, Prod.mk.injEq] at heval
    rw [show 0x1000 + 511 * pageSize = 0x200000 by decide, heval.2.2] at hlast
    exact absurd hlast (by simp)

end MugOS.Paging
