import MugOS.PagingUnmap

/-!
# Unmapping What Was Mapped

Runs of `Paging_map` on disjoint ranges whose physical and virtual addresses are congruent
modulo 1 GB, and `Paging_unmap` on one of these ranges afterwards.

`Paging_unmap` reads the page size from entry 0 of a table instead of the entry of the page
it is at. It undoes `Paging_map` when the two agree on the tables of the range.

## Main results

* `unmap_run_exact`: after every run, unmapping a mapped range for which the first entries
  of its tables show the page sizes of the range ends, fails no assertion, unmaps exactly
  the range, and uses only tables as tables.
* `unmap_1GB_panics`: a page of 1 GB in a table whose first entry is not present.
-/

namespace MugOS.Paging

open PMM RadixTree

/-! ### Runs of Paging_map -/

/-- A call of `Paging_map`, with its arguments. -/
structure MapCall where
  phys : ℕ
  virt : ℕ
  n : ℕ
  flags : ℕ

/-- The state, and the ranges mapped so far: virtual address and number of pages. -/
structure Mapper where
  state : State
  ranges : List (ℕ × ℕ)

/-- A call that may be made: page-aligned addresses that are congruent modulo 1 GB, and a
range of the address spaces none of whose pages is mapped. -/
structure MapCall.Admissible (c : MapCall) (s : State) : Prop where
  phys_aligned : c.phys % pageSize = 0
  virt_aligned : c.virt % pageSize = 0
  congruent : c.phys % size1GB = c.virt % size1GB
  inSpace : InSpace c.phys c.virt c.n
  unmapped : ∀ i < c.n, translatePage s (c.virt + i * pageSize) = none

/-- A call that may be made and that returns, with its range recorded. -/
structure MapStep (m : Mapper) (c : MapCall) (m' : Mapper) : Prop where
  admissible : c.Admissible m.state
  map_eq : map m.state c.phys c.virt c.n c.flags = .ok m'.state
  ranges_eq : m'.ranges = m.ranges ++ [(c.virt, c.n)]

/-- `Paging_unmap(virt, n_pages)` undoes `Paging_map`: it returns, exactly the pages of the
range are unmapped, and every frame that it uses as a table is one. The dynamic windows,
once in use, are not looked at. -/
def UnmapExact (s : State) (virt n : ℕ) : Prop :=
  ∃ s' tables, unmap s virt n = .ok (s', tables) ∧
    (∀ i < n, translatePage s' (virt + i * pageSize) = none) ∧
    (∀ addr, ¬ (virt ≤ addr ∧ addr < virt + n * pageSize) →
      ¬ (s.enabled = true ∧ windowDepth addr ≠ none) →
      translatePage s' addr = translatePage s addr) ∧
    ∀ f ∈ tables, IsTable s f

/-- A range of canonical pages that is mapped by the largest pages that fit. -/
structure RangeMapped (s : State) (virt n : ℕ) : Prop where
  aligned : virt % pageSize = 0
  canonical : ∀ i < n, Canonical (virt + i * pageSize)
  mapped : MappedGreedily s (pageNumber virt) n

/-- The invariant of a run: the state is well-formed, and the ranges recorded are mapped. -/
structure RunInv (m : Mapper) : Prop where
  wf : m.state.WellFormed
  ranges : ∀ r ∈ m.ranges, RangeMapped m.state r.1 r.2

/-- Congruent addresses are aligned to the same sizes. -/
theorem not_misaligned_of_congruent {b : Bool} {p v n : ℕ} (h : p % 262144 = v % 262144) :
    ¬ Misaligned b p v n := by
  unfold Misaligned toBoundary
  omega

/-- Addresses that are congruent modulo 1 GB have frame and page numbers that are congruent
modulo its pages. -/
theorem congruent_pages {phys virt : ℕ} (h : phys % size1GB = virt % size1GB) :
    phys / pageSize % 262144 = pageNumber virt % 262144 := by
  simp only [pageNumber, pageSize, size1GB] at *
  omega

/-- A call of no page succeeds and changes nothing. -/
theorem map_zero (s : State) (phys virt flags : ℕ) : map s phys virt 0 flags = .ok s := by
  rw [map, mapLoop]
  simp

/-- An admissible call that returns has mapped the pages of its range to its frames, with its
flags. -/
theorem MapCall.Admissible.maps {c : MapCall} {s s' : State} (hs : s.WellFormed)
    (h : c.Admissible s) (hn : 1 ≤ c.n) (hok : map s c.phys c.virt c.n c.flags = .ok s') :
    Maps s s' (pageNumber c.virt) c.n (c.phys / pageSize) c.flags := by
  rcases mapLoop_exact _ c.n le_rfl hs.tree
    (loopVars_of_inSpace h.phys_aligned h.virt_aligned hn h.inSpace)
    (fun i hi => unmapped_of_untranslated h.virt_aligned h.inSpace h.unmapped hi)
    (not_misaligned_of_congruent (congruent_pages h.congruent)) with hpanic | ⟨t, ht, hmaps⟩
  · exact absurd (hok.symm.trans hpanic) (by simp)
  · exact Except.ok.inj (hok.symm.trans ht) ▸ hmaps

/-- A range that is mapped stays so when pages outside of it are mapped. -/
theorem RangeMapped.maps {s s' : State} {virt n v k p flags : ℕ} (h : RangeMapped s virt n)
    (hs : TreeInv s none) (hmaps : Maps s s' v k p flags)
    (hun : ∀ i < k, s.page (v + i) = none) : RangeMapped s' virt n := by
  refine ⟨h.aligned, h.canonical, ?_⟩
  intro i hi
  obtain ⟨e, hleaf⟩ := h.mapped i hi
  rw [hmaps.along.has1GB_eq]
  have hlt := pageNumber_range_le h.aligned h.canonical (by omega)
  refine ⟨e, (hmaps.outside _ (by omega) ?_ _ _).mpr hleaf⟩
  rintro ⟨h1, h2⟩
  have := hun (pageNumber virt + i - v) (by omega)
  rw [show v + (pageNumber virt + i - v) = pageNumber virt + i by omega] at this
  exact not_leaf_of_unmapped hs this _ _ hleaf

/-- **One step** of a run, an admissible call that returns, keeps the invariant. -/
theorem RunInv.step {m m' : Mapper} {c : MapCall} (h : RunInv m) (hstep : MapStep m c m') :
    RunInv m' := by
  have ha := hstep.admissible
  by_cases hn : 1 ≤ c.n
  · have hmaps := ha.maps h.wf hn hstep.map_eq
    refine ⟨h.wf.maps hmaps, ?_⟩
    intro r hr
    rw [hstep.ranges_eq, List.mem_append, List.mem_singleton] at hr
    rcases hr with hr | rfl
    · exact (h.ranges r hr).maps h.wf.tree hmaps
        (fun i hi => unmapped_of_untranslated ha.virt_aligned ha.inSpace ha.unmapped hi)
    · refine ⟨ha.virt_aligned, ha.inSpace.canonical, ?_⟩
      intro i hi
      rw [hmaps.along.has1GB_eq]
      exact hmaps.depth (congruent_pages ha.congruent) i hi
  · have h0 : c.n = 0 := by omega
    have hsame : m'.state = m.state := by
      have := hstep.map_eq
      rw [h0, map_zero] at this
      exact (Except.ok.inj this).symm
    refine ⟨hsame ▸ h.wf, ?_⟩
    intro r hr
    rw [hstep.ranges_eq, List.mem_append, List.mem_singleton] at hr
    rw [hsame]
    rcases hr with hr | rfl
    · exact h.ranges r hr
    · refine ⟨ha.virt_aligned, ha.inSpace.canonical, ?_⟩
      intro i hi
      simp only [h0] at hi
      omega

/-! ### Unmapping a range -/

/-- Unmapping a mapped range whose tables show the right page sizes. -/
theorem RangeMapped.unmapExact {s : State} {virt n : ℕ} (h : RangeMapped s virt n)
    (hs : s.WellFormed) (hu : ∀ i < n, Uniform s (pageNumber virt + i)) :
    UnmapExact s virt n := by
  by_cases hn : 1 ≤ n
  · have hc0 : Canonical virt := by simpa using h.canonical 0 (by omega)
    have hlt : virt < 2 ^ 64 := by
      unfold Canonical at hc0
      omega
    obtain ⟨s', tables, hok, hused, hun⟩ := unmapLoop_exact (n + 1) [] (by omega) hs.tree hlt
      h.aligned (fun _ => rfl) (pageNumber_range_le h.aligned h.canonical hn) h.mapped hu
    have hen := hun.along.enabled_eq
    refine ⟨s', tables, hok, ?_, ?_, hused⟩
    · intro i hi
      refine translatePage_eq_none.mpr fun _ => ?_
      rw [pageNumber_range h.aligned h.canonical hi]
      exact hun.unmapped i hi
    · intro addr hout hw
      by_cases hc : Canonical addr
      · rw [mem_range_iff h.aligned h.canonical hn hc] at hout
        rw [translatePage_of_canonical hc (by rw [hen]; exact hw),
          translatePage_of_canonical hc hw]
        exact page_congr hs.tree hun.inv (hun.outside _ (pageNumber_lt addr) hout)
      · rw [translatePage, translatePage, if_neg hc, if_neg hc]
  · obtain rfl : n = 0 := by omega
    refine ⟨s, [], ?_, ?_, fun _ _ _ => rfl, by simp⟩
    · rw [unmap, unmapLoop]
      simp
    · intro i hi
      exact absurd hi (Nat.not_lt_zero i)

/-- **Unmapping what was mapped.** After every run of `Paging_map` from a well-formed state,
on unmapped ranges whose addresses are congruent modulo 1 GB: `Paging_unmap` on any of these
ranges undoes the mapping, if in every page directory (pointer) table on the paths of the
range the first entry has the page size bit of the entries that the range selects. -/
theorem unmap_run_exact {s₀ : State} (hs : s₀.WellFormed) {cs : List MapCall} {m : Mapper}
    (h : Runs MapStep ⟨s₀, []⟩ cs m) {virt n : ℕ} (hr : (virt, n) ∈ m.ranges)
    (hu : ∀ i < n, Uniform m.state (pageNumber virt + i)) : UnmapExact m.state virt n := by
  have hinv : RunInv m := h.invariant ⟨hs, by simp⟩ fun _ _ _ hi hstep => hi.step hstep
  exact (hinv.ranges _ hr).unmapExact hinv.wf hu

/-- The state after one call in cleared tables, or the cleared ones if it does not return. -/
def afterCall (has1GBPages : Bool) (c : MapCall) : State :=
  (map (clearedTables has1GBPages) c.phys c.virt c.n c.flags).toOption.getD
    (clearedTables has1GBPages)

/-- One call in cleared tables that returns is a run, with this call as the only one
recorded. -/
theorem runs_afterCall (b : Bool) (c : MapCall) (hphys : c.phys % pageSize = 0)
    (hvirt : c.virt % pageSize = 0) (hcong : c.phys % size1GB = c.virt % size1GB)
    (hin : InSpace c.phys c.virt c.n)
    (hok : (map (clearedTables b) c.phys c.virt c.n c.flags).isOk = true) :
    Runs MapStep ⟨clearedTables b, []⟩ [c] ⟨afterCall b c, [(c.virt, c.n)]⟩ := by
  refine .snoc .nil ⟨⟨hphys, hvirt, hcong, hin, ?_⟩, ?_, rfl⟩
  · intro i _
    exact translatePage_eq_none.mpr fun _ => clearedTables_page b _
  · unfold afterCall
    cases hm : map (clearedTables b) c.phys c.virt c.n c.flags with
    | error f => simp [hm, Except.isOk, Except.toBool] at hok
    | ok s => rfl

/-- The page sizes are uniform on the path of a page if they are on that of another page with the
same tables and entries above the page tables. -/
theorem Uniform.congr {s : State} {v w : ℕ} (h : tree.Agree 3 v w) (hv : Uniform s v) :
    Uniform s w := by
  intro d g hd1 hd2 hg
  rw [← h d (by omega)]
  exact hv d g hd1 hd2 ((node_congr (h.mono (by omega))).trans hg)

/-- An entry of a walk that is present and marked as one of a page is a leaf. -/
theorem exists_leaf {s : State} {d v : ℕ}
    (h : (s.entry d v).any (fun e => e.present && isPage d e) = true) : ∃ e, Leaf s d v e := by
  obtain ⟨e, he, hpage⟩ := (Option.any_eq_true _ _).mp h
  obtain ⟨hpresent, hleaf⟩ := Bool.and_eq_true_iff.mp hpage
  exact ⟨e, he, hpresent, hleaf⟩

/-- The last page below an address of 1 GB, and the 512 pages from that address on. -/
def acrossBoundary : MapCall := ⟨0x3ffff000, 0x3ffff000, 513, pageWrite⟩

/-- The guarantee at a concrete run: a page of 4 KB, in a page table, and a page of 2 MB, in the
first entry of the next page directory, are mapped by one call and unmapped by one call. -/
theorem unmap_run_exact_mixed :
    (∃ e, Leaf (afterCall false acrossBoundary) 3 0x3ffff e) ∧
    (∃ e, Leaf (afterCall false acrossBoundary) 2 0x40000 e) ∧
    UnmapExact (afterCall false acrossBoundary) acrossBoundary.virt acrossBoundary.n := by
  have hrun := runs_afterCall false acrossBoundary (by decide) (by decide) (by decide)
    ⟨by decide, fun i hi => .inl (by simp only [acrossBoundary, pageSize] at hi ⊢; omega)⟩
    (by decide +kernel)
  have hsmall : Uniform (afterCall false acrossBoundary) 0x3ffff :=
    uniform_of_node (show _ = some 16 by decide +kernel)
      (show _ = some 17 by decide +kernel) (by decide +kernel) (by decide +kernel)
  have hlarge : Uniform (afterCall false acrossBoundary) 0x40000 :=
    uniform_of_node (show _ = some 16 by decide +kernel)
      (show _ = some 19 by decide +kernel) (by decide +kernel) (by decide +kernel)
  have hpage : ((afterCall false acrossBoundary).entry 3 0x3ffff).any
      (fun e => e.present && isPage 3 e) = true := by decide +kernel
  have hpage' : ((afterCall false acrossBoundary).entry 2 0x40000).any
      (fun e => e.present && isPage 2 e) = true := by decide +kernel
  generalize afterCall false acrossBoundary = s at hrun hsmall hlarge hpage hpage' ⊢
  refine ⟨exists_leaf hpage, exists_leaf hpage',
    unmap_run_exact (clearedTables_wellFormed false) hrun (List.mem_singleton.mpr rfl) ?_⟩
  intro i hi
  rw [show pageNumber acrossBoundary.virt = 0x3ffff by decide]
  obtain rfl | hpos : i = 0 ∨ 0 < i := by omega
  · exact hsmall
  · -- The pages of the second directory's first entry share the path of its first page.
    refine hlarge.congr fun d hd => ?_
    simp only [acrossBoundary] at hi
    interval_cases d <;> simp only [tree] <;> omega

/-- One page of 1 GB, in the second entry of a page directory pointer table. -/
def oneLargePage : MapCall := ⟨0x40000000, 0x40000000, 0x40000, pageWrite⟩

/-- **A page of 1 GB that cannot be unmapped**: the first entry of its table is not present
and has no page size bit, so the page is taken for a page directory, and the call panics
because the page table that it looks for in there does not exist. -/
theorem unmap_1GB_panics :
    (clearedTables true).WellFormed ∧
    Runs MapStep ⟨clearedTables true, []⟩ [oneLargePage]
      ⟨afterCall true oneLargePage, [(0x40000000, 0x40000)]⟩ ∧
    (afterCall true oneLargePage).page 0x40000 = some (requested pageWrite 0x40000) ∧
    (unmap (afterCall true oneLargePage) 0x40000000 0x40000).isOk = false ∧
    ¬ UnmapExact (afterCall true oneLargePage) 0x40000000 0x40000 := by
  have hpanic : (unmap (afterCall true oneLargePage) 0x40000000 0x40000).isOk = false := by
    decide +kernel
  refine ⟨clearedTables_wellFormed true,
    runs_afterCall true oneLargePage (by decide) (by decide) (by decide) ⟨by decide, ?_⟩
      (by decide +kernel), by decide +kernel, hpanic, ?_⟩
  · intro i hi
    simp only [oneLargePage] at hi ⊢
    left
    simp only [pageSize]
    omega
  · rintro ⟨s', tables, hok, -⟩
    rw [hok] at hpanic
    simp [Except.isOk, Except.toBool] at hpanic

end MugOS.Paging
