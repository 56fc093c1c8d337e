import MugOS.PagingUnmap
import MugOS.PMMFirstFit

/-!
# Single Pages of 4 KB

Calls of `Paging_map` and of `Paging_unmap` for one page, at addresses that need not be aligned:
what the code does with an address depends on the page that it lies in only.

## Main results

* `map_one`, `map_one_present`: a page that is not mapped is mapped, unless there is no memory
  left for a table; for one that is mapped an assertion fails.
* `unmap_one`: a page that was mapped is unmapped, unless the first entry of a table is one of a
  large page.
* `TreeInv.tables_le`: there are at most three tables for every page that is mapped.
-/

namespace MugOS.Paging

open PMM RadixTree

/-! ### Mapping -/

/-- The frame that a descriptor of a 4 KB page gets is that of the address, whose leading bits
are cut off. -/
theorem get4KBEntryAddress_eq (addr : ℕ) : get4KBEntryAddress addr = addr % 2 ^ 48 / pageSize := by
  rw [get4KBEntryAddress, and_shiftRight addr _ 12 36 (by decide)]
  simp only [pageSize]
  omega

/-- **A call for one page** gets the three tables on the path of the page, and sets one entry. -/
theorem map_one_eq (s : State) (phys virt flags : ℕ) :
    map s phys virt 1 flags = (do
      let (pdp, s) ← getPDP s s.pml4 (tree.idx 0 (pageNumber virt)) true
      let (pd, s) ← getPD s pdp (tree.idx 1 (pageNumber virt)) true
      let (pt, s) ← getPT s pd (tree.idx 2 (pageNumber virt)) true
      let e ← set4KBPage flags (s.mem pt (tree.idx 3 (pageNumber virt))) phys
      .ok { s with mem := store s.mem pt (tree.idx 3 (pageNumber virt)) e }) := by
  have hidx := idx_lt 3 (pageNumber virt)
  have hcount : min (tableSize - tree.idx 3 (pageNumber virt)) 1 = 1 := by omega
  simp only [map, mapLoop, mapStep, getIndexPML4_eq, getIndexPageDirectoryPointerTable_eq,
    getIndexPageDirectory_eq, getIndexPageTable_eq, hcount, setPages]
  norm_num [bind, Except.bind, size1GB, size2MB]
  cases getPDP s s.pml4 (tree.idx 0 (pageNumber virt)) true with
  | error e => rfl
  | ok r =>
      obtain ⟨pdp, s₁⟩ := r
      simp only
      cases getPD s₁ pdp (tree.idx 1 (pageNumber virt)) true with
      | error e => rfl
      | ok r =>
          obtain ⟨pd, s₂⟩ := r
          simp only
          cases getPT s₂ pd (tree.idx 2 (pageNumber virt)) true with
          | error e => rfl
          | ok r =>
              obtain ⟨pt, s₃⟩ := r
              simp only
              cases set4KBPage flags (s₃.mem pt (tree.idx 3 (pageNumber virt))) phys with
              | error e => rfl
              | ok e => rfl

/-- The call depends on the page of the virtual address, and on the frame of the physical one. -/
theorem map_one_aligned (s : State) (phys virt flags : ℕ) :
    map s phys virt 1 flags =
      map s (phys % 2 ^ 48 / pageSize * pageSize) (pageAddr (pageNumber virt)) 1 flags := by
  have hframe : get4KBEntryAddress (phys % 2 ^ 48 / pageSize * pageSize) =
      get4KBEntryAddress phys := by
    rw [get4KBEntryAddress_eq, get4KBEntryAddress_eq]
    simp only [pageSize]
    omega
  simp only [map_one_eq, set4KBPage, hframe, (pageAddr_spec (pageNumber_lt virt)).2]

/-- **Mapping a page that is not mapped**: the only failure is that no page is left for a
table. -/
theorem map_one {s : State} (h : TreeInv s none) (phys virt flags : ℕ)
    (hun : s.page (pageNumber virt) = none) :
    map s phys virt 1 flags = .error .panic ∨
    ∃ s', map s phys virt 1 flags = .ok s' ∧
      Maps s s' (pageNumber virt) 1 (phys % 2 ^ 48 / pageSize) flags := by
  have hlt := pageNumber_lt virt
  have hpage := (pageAddr_spec hlt).2
  have hvars : LoopVars (phys % 2 ^ 48 / pageSize * pageSize) (pageAddr (pageNumber virt))
      (phys % 2 ^ 48 / pageSize) (pageNumber virt) 1 := by
    refine ⟨rfl, ?_, ?_, fun _ => hpage.symm, ?_, by omega⟩
    · unfold pageAddr
      simp only [pageSize, pageCount] at *
      split <;> omega
    · unfold pageAddr
      simp only [pageSize]
      split <;> omega
    · simp only [pageSize]
      omega
  rw [map_one_aligned]
  refine mapLoop_exact flags 1 le_rfl h hvars ?_ ?_
  · intro i hi
    obtain rfl : i = 0 := by omega
    exact hun
  · unfold Misaligned
    omega

/-- **Mapping a page that is mapped** by an entry of a page table fails an assertion. -/
theorem map_one_present {s : State} (phys virt flags : ℕ) {e : Descriptor}
    (hleaf : Leaf s 3 (pageNumber virt) e) :
    map s phys virt 1 flags = .error .assertion := by
  obtain ⟨pt, h3, he⟩ := entry_eq_some.mp hleaf.entry_eq
  obtain ⟨pdp, h1⟩ := node_some_of_le h3 (show 1 ≤ 3 by omega)
  obtain ⟨pd, h2⟩ := node_some_of_le h3 (show 2 ≤ 3 by omega)
  have hpresent : (s.mem pt (tree.idx 3 (pageNumber virt))).present = true := he ▸ hleaf.present
  have hn₁ : ∀ d w, (s.mapDynamic (0 + 1) pdp).node d w = s.node d w := mapDynamic_node _ _
  have hn₂ : ∀ d w, ((s.mapDynamic (0 + 1) pdp).mapDynamic (1 + 1) pd).node d w = s.node d w :=
    fun d w => (mapDynamic_node _ _ d w).trans (hn₁ d w)
  rw [map_one_eq]
  simp only [getPDP, getPD, getPT, getTable_present (d := 0) rfl h1, bind, Except.bind,
    getTable_present ((hn₁ _ _).trans h1) ((hn₁ _ _).trans h2),
    getTable_present ((hn₂ _ _).trans h2) ((hn₂ _ _).trans h3), mapDynamic_mem, set4KBPage,
    hpresent, if_true]

/-! ### Unmapping -/

/-- An iteration of `Paging_unmap` for one page does nothing if a first entry on the path is one of
a large page. -/
theorem unmapStep_stuck {s : State} {virt pdp pd pt : ℕ}
    (h1 : s.node 1 (pageNumber virt) = some pdp) (h2 : s.node 2 (pageNumber virt) = some pd)
    (h3 : s.node 3 (pageNumber virt) = some pt)
    (hlarge : (s.mem pdp 0).pageSize = true ∨ (s.mem pd 0).pageSize = true) :
    ∃ s' tables, unmapStep s virt 1 = .ok (s', virt, 1, tables) ∧ s'.mem = s.mem ∧
      s'.pml4 = s.pml4 := by
  have hfull : ∀ {d g g'}, s.node d (pageNumber virt) = some g →
      s.node (d + 1) (pageNumber virt) = some g' → tableIsEmpty s.mem g = false := by
    intro d g g' hg hg'
    have hpresent := (child_eq_some.mp ((node_succ hg).symm.trans hg')).1
    by_contra hempty
    have := tableIsEmpty_iff.mp (by simpa using hempty) _ (idx_lt d (pageNumber virt))
    rw [hpresent] at this
    exact absurd this (by simp)
  have hn₁ : ∀ d w, (s.mapDynamic (0 + 1) pdp).node d w = s.node d w := mapDynamic_node _ _
  have h0 : min (tableSize - tree.idx 1 (pageNumber virt)) (wmul 1 pageSize / size1GB) = 0 := by
    simp [wmul, pageSize, size1GB]
  have h0' : min (tableSize - tree.idx 2 (pageNumber virt)) (wmul 1 pageSize / size2MB) = 0 := by
    simp [wmul, pageSize, size2MB]
  simp only [unmapStep, getIndexPML4_eq, getIndexPageDirectoryPointerTable_eq,
    getIndexPageDirectory_eq, getIndexPageTable_eq, getPDP, getPD, getPT,
    getTable_present (d := 0) rfl h1, bind, Except.bind, mapDynamic_mem, h0, h0', clearPages]
  by_cases hpdp : (s.mem pdp 0).pageSize = true
  · simp only [hpdp, if_true, hfull h1 h2, Bool.false_eq_true, if_false]
    exact ⟨_, _, rfl, by simp, by simp⟩
  · simp only [hpdp, Bool.false_eq_true, if_false,
      getTable_present ((hn₁ _ _).trans h1) ((hn₁ _ _).trans h2), mapDynamic_mem,
      hlarge.resolve_left hpdp, if_true, hfull h2 h3]
    exact ⟨_, _, rfl, by simp, by simp⟩

/-- **Unmapping a page** that is mapped by an entry of a page table: if no first entry on its path
is one of a large page then exactly that page is unmapped, and otherwise the call does not
return. -/
theorem unmap_one {s : State} (h : TreeInv s none) {virt : ℕ} (hvirt : virt < 2 ^ 64)
    {e : Descriptor} (hleaf : Leaf s 3 (pageNumber virt) e) :
    (Uniform s (pageNumber virt) →
      ∃ s' tables, unmap s virt 1 = .ok (s', tables) ∧ Unmaps s s' (pageNumber virt) 1) ∧
    (¬ Uniform s (pageNumber virt) → unmap s virt 1 = .error .diverges) := by
  have hlt := pageNumber_lt virt
  refine ⟨?_, ?_⟩
  · intro hu
    have hcount : 1 = stepCount 3 (pageNumber virt) 1 := by
      have hidx : tree.idx 3 (pageNumber virt) < 512 := idx_lt 3 (pageNumber virt)
      simp only [stepCount, span, tableSize]
      norm_num
      omega
    have hblock : ∀ w, InBlock 3 (pageNumber virt) 1 w ↔ w = pageNumber virt := by
      intro w
      simp only [InBlock, span]
      norm_num
      omega
    obtain ⟨s', tables, hstep, -, hcleared⟩ := unmapStep_spec h (r := 1) (d := 3) (k := 1) hvirt
      rfl (by decide) (by omega) hcount le_rfl hu
      (by
        intro w _ hw
        rw [(hblock w).mp hw]
        exact ⟨e, hleaf⟩)
    refine ⟨s', tables, ?_, hcleared.inv, hcleared.along.mono ?_, ?_, ?_, hcleared.sub,
      hcleared.size⟩
    · simp [unmap, unmapLoop, hstep, bind, Except.bind, span]
    · rintro u rfl
      exact ⟨le_rfl, by omega⟩
    · intro i hi
      obtain rfl : i = 0 := by omega
      exact hcleared.page_new _ hlt ((hblock _).mpr rfl)
    · intro w hw hout
      exact hcleared.leaf_old w hw (fun hin => hout (by rw [(hblock w).mp hin]; omega))
  · intro hu
    obtain ⟨pt, h3, -⟩ := entry_eq_some.mp hleaf.entry_eq
    obtain ⟨pdp, h1⟩ := node_some_of_le h3 (show 1 ≤ 3 by omega)
    obtain ⟨pd, h2⟩ := node_some_of_le h3 (show 2 ≤ 3 by omega)
    have hsmall : ∀ {d g g'}, d ≤ 2 → 1 ≤ d → s.node d (pageNumber virt) = some g →
        s.node (d + 1) (pageNumber virt) = some g' →
        (s.mem g (tree.idx d (pageNumber virt))).pageSize = false := by
      intro d g g' hd hd1 hg hg'
      have := (child_eq_some.mp ((node_succ hg).symm.trans hg')).2.1
      simp only [isPage, Bool.or_eq_false_iff, Bool.and_eq_false_iff] at this
      simpa [hd1] using this.2
    have hlarge : (s.mem pdp 0).pageSize = true ∨ (s.mem pd 0).pageSize = true := by
      by_contra hnot
      refine hu (uniform_of_node h1 h2 ?_ ?_)
      · rw [hsmall (by omega) le_rfl h1 h2]
        simpa using fun h => hnot (.inl h)
      · rw [hsmall le_rfl (by omega) h2 h3]
        simpa using fun h => hnot (.inr h)
    obtain ⟨s₁, t₁, hstep₁, hmem₁, hroot₁⟩ := unmapStep_stuck h1 h2 h3 hlarge
    have hnode : ∀ d w, s₁.node d w = s.node d w := by
      intro d w
      simp only [State.node, hmem₁, hroot₁]
    obtain ⟨s₂, t₂, hstep₂, -, -⟩ := unmapStep_stuck ((hnode _ _).trans h1) ((hnode _ _).trans h2)
      ((hnode _ _).trans h3) (by rw [hmem₁]; exact hlarge)
    simp [unmap, unmapLoop, hstep₁, hstep₂, bind, Except.bind]

/-! ### Memory for tables -/

/-- The tables on the path of a page are those of a page of the address space. -/
theorem node_mod {s : State} (d page : ℕ) : s.node d (page % pageCount) = s.node d page := by
  refine node_congr fun k _ => ?_
  simp only [tree, pageCount]
  obtain hk | hk | hk | hk : 3 - k = 0 ∨ 3 - k = 1 ∨ 3 - k = 2 ∨ 3 - k = 3 := by omega
  all_goals
    rw [hk]
    omega

/-- **Every table is on the path of a page that is mapped**, or on that of the page whose tables
are under construction. -/
theorem TreeInv.table_on_path {t : State} {hole : Option ℕ} (h : TreeInv t hole) {v : ℕ}
    (hv : v < pageCount) (hhole : ∀ f, hole = some f → ∃ k, t.node k v = some f) {d page f : ℕ}
    (hpage : page < pageCount) (hf : t.node (d + 1) page = some f) :
    ∃ w < pageCount, (w = v ∨ t.page w ≠ none) ∧ t.node (d + 1) w = some f := by
  have hd := node_of_four_le hf
  induction hk : 2 - d generalizing d page f with
  | zero =>
      by_cases hne : some f = hole
      · obtain ⟨k, hnode⟩ := hhole f hne.symm
        obtain ⟨rfl, -⟩ := h.separated _ _ _ _ f hnode hf
        exact ⟨v, hv, .inl rfl, hnode⟩
      · obtain ⟨i, hi, hpresent⟩ := h.nonempty d page f hf hne
        obtain ⟨w, hw, hagree, hidx⟩ := exists_page_at (show d ≤ 2 by omega) hpage hi
        have hnode := (node_congr hagree).trans hf
        refine ⟨w, hw, .inr ((page_ne_none h).mpr ⟨d + 1, _, entry_of_node hnode, ?_, ?_⟩), hnode⟩
        · rw [hidx]
          exact hpresent
        · simp only [isPage, Bool.or_eq_true, decide_eq_true_eq]
          omega
  | succ k ih =>
      by_cases hne : some f = hole
      · obtain ⟨k, hnode⟩ := hhole f hne.symm
        obtain ⟨rfl, -⟩ := h.separated _ _ _ _ f hnode hf
        exact ⟨v, hv, .inl rfl, hnode⟩
      · obtain ⟨i, hi, hpresent⟩ := h.nonempty d page f hf hne
        obtain ⟨w, hw, hagree, hidx⟩ := exists_page_at (show d ≤ 2 by omega) hpage hi
        have hnode := (node_congr hagree).trans hf
        rw [← hidx] at hpresent
        by_cases hleaf : isPage (d + 1) (t.mem f (tree.idx (d + 1) w)) = true
        · exact ⟨w, hw, .inr ((page_ne_none h).mpr
            ⟨d + 1, _, entry_of_node hnode, hpresent, hleaf⟩), hnode⟩
        · -- The entry refers to a table, which is on the path of such a page.
          have hchild : t.node (d + 1 + 1) w =
              some (t.mem f (tree.idx (d + 1) w)).address.toNat :=
            (node_succ hnode).trans (child_eq_some.mpr ⟨hpresent, by simpa using hleaf, rfl⟩)
          obtain ⟨u, hu, hmapped, hnode'⟩ := ih hw hchild (node_of_four_le hchild) (by omega)
          obtain ⟨-, hagree'⟩ := h.separated _ _ _ _ _ hnode' hchild
          exact ⟨u, hu, hmapped, (node_congr (hagree'.mono (by omega))).trans hnode⟩

/-- **There are at most three tables for every page** that is mapped or under construction. -/
theorem TreeInv.tables_le {t : State} {hole : Option ℕ} (h : TreeInv t hole) {v : ℕ}
    (hv : v < pageCount) (hhole : ∀ f, hole = some f → ∃ k, t.node k v = some f) {W : List ℕ}
    (hW : ∀ w < pageCount, w = v ∨ t.page w ≠ none → w ∈ W) {F : Finset ℕ}
    (hF : ∀ f ∈ F, IsTable t f) : F.card ≤ 3 * W.length := by
  have hsub : F ⊆ (W.toFinset ×ˢ Finset.range 3).image fun p => (t.node (p.2 + 1) p.1).getD 0 := by
    intro f hf
    obtain ⟨d, page, hnode⟩ := hF f hf
    rw [← node_mod] at hnode
    obtain ⟨w, hw, hmapped, hnode'⟩ := h.table_on_path hv hhole (Nat.mod_lt _ (by decide)) hnode
    have hd := node_of_four_le hnode'
    refine Finset.mem_image.mpr ⟨(w, d), ?_, by simp [hnode']⟩
    simp only [Finset.mem_product, List.mem_toFinset, Finset.mem_range]
    exact ⟨hW w hw hmapped, by omega⟩
  calc F.card ≤ _ := Finset.card_le_card hsub
    _ ≤ _ := Finset.card_image_le
    _ = W.toFinset.card * 3 := by rw [Finset.card_product, Finset.card_range]
    _ ≤ 3 * W.length := by have := List.toFinset_card_le W; omega

/-- A table is not allocated only if there is no page left. -/
theorem getTable_panic {d : ℕ} {s : State} {f i : ℕ}
    (h : getTable d s f i true = .error .panic) : (allocatePages s.pmm 1).1 = 0 := by
  by_contra hne
  unfold getTable allocatePageOrPanic at h
  by_cases hpresent : (s.mem f i).present = true <;>
    simp [hpresent, hne, bind, Except.bind] at h

/-- A call for one page panics only if, with the tables that it has made so far, there is no page
left. -/
theorem map_one_panic {s : State} (h : TreeInv s none) {phys virt flags : ℕ}
    (hun : s.page (pageNumber virt) = none)
    (hpanic : map s phys virt 1 flags = .error .panic) :
    ∃ t hole, TreeInv t hole ∧ (∀ f, hole = some f → ∃ k, t.node k (pageNumber virt) = some f) ∧
      Along (· = pageNumber virt) s t ∧ (∀ d w e, Leaf t d w e ↔ Leaf s d w e) ∧
      (allocatePages t.pmm 1).1 = 0 := by
  rw [map_one_eq] at hpanic
  simp only [getPDP, getPD, getPT] at hpanic
  rcases getTable_alloc h (v := pageNumber virt) rfl (by omega) (.inl rfl)
    (not_leaf_of_unmapped h hun 0) with hfail | ⟨pdp, s₁, heq₁, hn₁, h₁, ha₁, -, hleaf₁⟩
  · exact ⟨s, none, h, by simp, .refl _ _, fun _ _ _ => Iff.rfl, getTable_panic hfail⟩
  have hun₁ : s₁.page (pageNumber virt) = none :=
    (page_congr h h₁ fun d' e => hleaf₁ d' _ e).trans hun
  simp only [heq₁, bind, Except.bind] at hpanic
  rcases getTable_alloc h₁ hn₁ (by omega) (.inr rfl) (not_leaf_of_unmapped h₁ hun₁ 1) with
    hfail | ⟨pd, s₂, heq₂, hn₂, h₂, ha₂, -, hleaf₂⟩
  · refine ⟨s₁, some pdp, h₁, ?_, ha₁, hleaf₁, getTable_panic hfail⟩
    intro f hf
    exact ⟨1, hn₁.trans hf⟩
  have hun₂ : s₂.page (pageNumber virt) = none :=
    (page_congr h₁ h₂ fun d' e => hleaf₂ d' _ e).trans hun₁
  have hleaf₁₂ : ∀ d w e, Leaf s₂ d w e ↔ Leaf s d w e :=
    fun d w e => (hleaf₂ d w e).trans (hleaf₁ d w e)
  simp only [heq₂] at hpanic
  rcases getTable_alloc h₂ hn₂ (by omega) (.inr rfl) (not_leaf_of_unmapped h₂ hun₂ 2) with
    hfail | ⟨pt, s₃, heq₃, -⟩
  · refine ⟨s₂, some pd, h₂, ?_, ha₁.trans ha₂, hleaf₁₂, getTable_panic hfail⟩
    intro f hf
    exact ⟨2, hn₂.trans hf⟩
  · simp only [heq₃, set4KBPage] at hpanic
    split at hpanic
    · rename_i herr
      split at herr
      · exact absurd ((Except.error.inj herr).trans (Except.error.inj hpanic)) (by decide)
      · exact absurd herr (by simp)
    · exact absurd hpanic (by simp)

/-- If no page can be allocated then every frame is held. -/
theorem held_of_exhausted {a : BitmapAllocator} (ha : a.WellFormed)
    (hfits : firstFrame a + a.nBlocks ≤ 2 ^ 36) (hlast : a.nBlocks % 64 ≠ 0)
    (hnone : (allocatePages a 1).1 = 0) {f : ℕ} (hf : Managed a f) : Held a f := by
  have halign := ha.start_aligned
  have hfirst : firstFrame a * pageSize = a.start := by
    simp only [firstFrame, pageSize] at *
    omega
  have hplaced : a.Placed := ⟨ha.toShaped, ha.nBlocks_pos, ha.start_ne_zero, by
    simp only [pageSize] at hfirst
    omega⟩
  have hscan : scannedBlocks a = a.nBlocks := by
    rw [hplaced.scannedBlocks_eq, if_neg hlast]
  refine ⟨hf, ?_⟩
  by_contra hbit
  obtain ⟨hlo, hhi⟩ := hf
  have hfit : Fits a 1 (f - firstFrame a) := by
    refine ⟨by omega, ?_⟩
    intro b h1 h2
    obtain rfl : b = f - firstFrame a := by omega
    simpa using hbit
  rcases allocateFirstFit_eq hplaced (le_refl 1) with ⟨-, hno⟩ | ⟨b, -, -, heq⟩
  · have := hno _ hfit
    omega
  · have hstart := ha.start_ne_zero
    rw [allocatePages, heq] at hnone
    omega

/-- **There is memory for the tables of one more page** if the memory manager serves the tables
only, and has more than three frames for every page that is mapped, and for the new one. -/
theorem map_one_room {s : State} (h : TreeInv s none) {phys virt flags : ℕ}
    (hun : s.page (pageNumber virt) = none) (htables : ∀ f, Held s.pmm f → IsTable s f)
    {W : List ℕ} (hW : ∀ w < pageCount, s.page w ≠ none → w ∈ W)
    (hroom : 3 * (W.length + 1) < s.pmm.nBlocks) (hlast : s.pmm.nBlocks % 64 ≠ 0) :
    map s phys virt 1 flags ≠ .error .panic := by
  intro hpanic
  obtain ⟨t, hole, ht, hhole, halong, hleaf, hnone⟩ := map_one_panic h hun hpanic
  have hblocks : t.pmm.nBlocks = s.pmm.nBlocks := halong.pool.nBlocks_eq
  have hheld : ∀ f, Held t.pmm f → IsTable t f := by
    intro f hf
    by_contra hnot
    obtain ⟨hf', hnot'⟩ := (halong.residual f).mp ⟨hf, hnot⟩
    exact hnot' (htables f hf')
  have hcard := ht.tables_le (pageNumber_lt virt) hhole (W := pageNumber virt :: W)
    (F := (Finset.range t.pmm.nBlocks).image (firstFrame t.pmm + ·)) (by
      rintro w hw (rfl | hmapped)
      · exact List.mem_cons_self
      · refine List.mem_cons_of_mem _ (hW w hw ?_)
        rwa [← page_congr h ht fun d e => hleaf d w e])
    (by
      intro f hf
      obtain ⟨b, hb, rfl⟩ := Finset.mem_image.mp hf
      have hb' := Finset.mem_range.mp hb
      exact hheld _ (held_of_exhausted ht.pmm_wf ht.pmm_fits (by rwa [hblocks]) hnone
        ⟨by omega, by omega⟩))
  rw [Finset.card_image_of_injective _ (add_right_injective _), Finset.card_range,
    List.length_cons] at hcard
  omega

end MugOS.Paging
