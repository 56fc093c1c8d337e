import MugOS.Paging
import MugOS.PMMFrames
import MugOS.Lib.RadixTree

/-!
# The Page Tables as a Radix Tree

The tables seen as a radix tree (`MugOS.Lib.RadixTree`) whose keys are virtual page
numbers: depth 0 is the PML4, depth 3 the page tables, and an entry of depth `d` stands for
`span d` pages.

## Main results

* `page_eq_some`: the walk of the processor, in terms of the entries of the tree.
* `TreeInv`: the tables are a tree of held, non-empty page frames.
* `getTable_alloc`: getting a table, allocating it if there is none, changes no translation.
* `setPages_spec`: setting entries of one table maps exactly their pages.
-/

namespace MugOS.Paging

open PMM RadixTree

/-! ### The tree -/

/-- An entry of depth `d` that refers to a page rather than to a table. -/
def isPage (d : ℕ) (e : Descriptor) : Bool := decide (3 ≤ d) || (decide (1 ≤ d) && e.pageSize)

/-- The tables as a radix tree over virtual page numbers. -/
def tree : RadixTree ℕ ℕ ℕ Descriptor where
  idx d page := page / 512 ^ (3 - d) % 512
  child d e := if e.present && !isPage d e then some e.address.toNat else none

/-- The number of pages that an entry of depth `d` stands for. -/
def span (d : ℕ) : ℕ := 512 ^ (3 - d)

/-- The number of virtual pages. -/
abbrev pageCount : ℕ := 2 ^ 36

/-- The table at a depth on the path of a page. -/
abbrev State.node (s : State) (d page : ℕ) : Option ℕ := tree.node s.mem s.pml4 d page

/-- The entry at a depth on the path of a page. -/
abbrev State.entry (s : State) (d page : ℕ) : Option Descriptor :=
  tree.entry s.mem s.pml4 d page

/-- The translation of a page, by the walk from the PML4 on. -/
def State.page (s : State) (page : ℕ) : Option Translation := walk s.mem 3 s.pml4 page

/-- An entry that is not present refers to no table. -/
theorem child_of_not_present {d : ℕ} {e : Descriptor} (h : e.present = false) :
    tree.child d e = none := by
  simp [tree, h]

/-- An entry that refers to a page refers to no table. -/
theorem child_of_isPage {d : ℕ} {e : Descriptor} (h : isPage d e = true) :
    tree.child d e = none := by
  simp [tree, h]

/-- An entry refers to a table if and only if it is present and not one of a page, and then to
the frame of its address. -/
theorem child_eq_some {d : ℕ} {e : Descriptor} {f : ℕ} :
    tree.child d e = some f ↔ e.present = true ∧ isPage d e = false ∧ e.address.toNat = f := by
  simp only [tree]
  split <;> simp_all

/-- The index that a page has in a table is below the size of a table. -/
theorem idx_lt (d page : ℕ) : tree.idx d page < tableSize := Nat.mod_lt _ (by decide)

/-- No path goes through more than four tables. -/
theorem node_of_four_le {s : State} {d page f : ℕ} (h : s.node d page = some f) : d ≤ 3 := by
  by_contra hlt
  obtain ⟨g, hg⟩ := node_some_of_le (d := 4) h (by omega)
  obtain ⟨a, -, hc⟩ := node_succ_inv hg
  rw [child_of_isPage (by simp [isPage])] at hc
  exact absurd hc (by simp)

/-- Masking a field of an address and shifting it down. -/
theorem and_shiftRight (addr mask s k : ℕ) (h : mask >>> s = 2 ^ k - 1) :
    (addr &&& mask) >>> s = addr / 2 ^ s % 2 ^ k := by
  rw [Nat.shiftRight_and_distrib, h, Nat.and_two_pow_sub_one_eq_mod, Nat.shiftRight_eq_div_pow]

/-- The index in the PML4 is the first index of the page. -/
theorem getIndexPML4_eq (addr : ℕ) : getIndexPML4 addr = tree.idx 0 (pageNumber addr) := by
  rw [getIndexPML4, and_shiftRight _ _ _ 9 (by decide)]
  simp only [tree, pageNumber, pageSize]
  omega

/-- The index in the page directory pointer table is the second one. -/
theorem getIndexPageDirectoryPointerTable_eq (addr : ℕ) :
    getIndexPageDirectoryPointerTable addr = tree.idx 1 (pageNumber addr) := by
  rw [getIndexPageDirectoryPointerTable, and_shiftRight _ _ _ 9 (by decide)]
  simp only [tree, pageNumber, pageSize]
  omega

/-- The index that the source takes for the page directory is that of the path at depth 2. -/
theorem getIndexPageDirectory_eq (addr : ℕ) :
    getIndexPageDirectory addr = tree.idx 2 (pageNumber addr) := by
  rw [getIndexPageDirectory, and_shiftRight _ _ _ 9 (by decide)]
  simp only [tree, pageNumber, pageSize]
  omega

/-- The index that the source takes for the page table is that of the path at depth 3. -/
theorem getIndexPageTable_eq (addr : ℕ) :
    getIndexPageTable addr = tree.idx 3 (pageNumber addr) := by
  rw [getIndexPageTable, and_shiftRight _ _ _ 9 (by decide)]
  simp only [tree, pageNumber, pageSize]
  omega

/-- Two pages share their entry of depth `d` if and only if they lie in the same span of this
depth. -/
theorem agree_iff {d v w : ℕ} (hd : d ≤ 3) (hv : v < pageCount) (hw : w < pageCount) :
    tree.Agree (d + 1) v w ↔ v / span d = w / span d := by
  have hiff : tree.Agree (d + 1) v w ↔
      ∀ k ≤ d, v / 512 ^ (3 - k) % 512 = w / 512 ^ (3 - k) % 512 := by
    constructor
    · intro h k hk
      exact h k (by omega)
    · intro h k hk
      exact h k (by omega)
  rw [hiff]
  simp only [pageCount, span] at *
  constructor
  · intro h
    have h0 := h 0
    have h1 := h 1
    have h2 := h 2
    have h3 := h 3
    interval_cases d <;> norm_num at * <;> omega
  · intro h k hk
    interval_cases d <;> interval_cases k <;> norm_num at * <;> omega

/-! ### The walk -/

/-- The entry of depth `d` on the path of a page is the one that maps it. -/
structure Leaf (s : State) (d page : ℕ) (e : Descriptor) : Prop where
  entry_eq : s.entry d page = some e
  present : e.present = true
  isPage : isPage d e = true

/-- The rights that `Paging.c` gives to every table. -/
structure Descriptor.Permissive (e : Descriptor) : Prop where
  writable : e.writable = true
  privilege : e.privilege = true
  executeDisabled : e.executeDisabled = false

/-- A table entry that permits everything takes no right away from a translation. -/
theorem Translation.restrict_of_permissive {e : Descriptor} (h : e.Permissive)
    (t : Translation) : t.restrict e = t := by
  cases t
  simp [restrict, h.writable, h.privilege, h.executeDisabled]

/-- Permissive tables leave every translation below them as it is. -/
theorem Translation.map_restrict_of_permissive {e : Descriptor} (h : e.Permissive)
    (o : Option Translation) : o.map (·.restrict e) = o := by
  cases o with
  | none => rfl
  | some t => simp [restrict_of_permissive h]

/-- Where the entry of depth `d` on a path refers to no table, it is the only one from this depth
on that can map the page. -/
theorem Leaf.eq_of_child_eq_none {s : State} {d d' page : ℕ} {e e' : Descriptor}
    (hleaf : Leaf s d' page e') (hent : s.entry d page = some e) (hnone : tree.child d e = none)
    (hd : d ≤ d') : d' = d ∧ e' = e := by
  obtain rfl | hlt := hd.eq_or_lt
  · exact ⟨rfl, Option.some.inj (hleaf.entry_eq.symm.trans hent)⟩
  · have hnone' := entry_none_of_lt hent hnone hlt
    exact absurd (hleaf.entry_eq.symm.trans hnone') (by simp)

/-- Where the entry of depth `d` on a path refers to a table, the page is mapped further down. -/
theorem Leaf.lt_of_child_eq_some {s : State} {d d' page f : ℕ} {e e' : Descriptor}
    (hleaf : Leaf s d' page e') (hent : s.entry d page = some e) (hc : tree.child d e = some f)
    (hd : d ≤ d') : d < d' := by
  refine lt_of_le_of_ne hd ?_
  rintro rfl
  obtain rfl := Option.some.inj (hleaf.entry_eq.symm.trans hent)
  exact absurd hleaf.isPage (by simp [(child_eq_some.mp hc).2.1])

/-- The test of the walk at a level above the page tables is that of the depth of this level. -/
theorem isPage_of_level {l : ℕ} (hl : l + 1 ≤ 3) (e : Descriptor) :
    isPage (3 - (l + 1)) e = (e.pageSize && decide (l < 2)) := by
  have h3 : decide (3 ≤ 3 - (l + 1)) = false := by
    rw [decide_eq_false_iff_not]
    omega
  have h1 : decide (1 ≤ 3 - (l + 1)) = decide (l < 2) := by
    rw [decide_eq_decide]
    omega
  rw [isPage, Bool.and_comm e.pageSize, h3, h1, Bool.false_or]

/-- The walk from a page table: its entry maps the page, or nothing does. -/
theorem walk_zero_eq_some {s : State} {page table : ℕ} (hn : s.node 3 page = some table)
    {t : Translation} :
    walk s.mem 0 table page = some t ↔
      ∃ d e, 3 ≤ d ∧ Leaf s d page e ∧ t = e.leaf (3 - d) page := by
  have hent : s.entry 3 page = some (s.mem table (page % 512)) := by
    have hidx : tree.idx 3 page = page % 512 := by simp [tree]
    rw [← hidx]
    exact entry_of_node hn
  simp only [walk]
  constructor
  · intro h
    split at h
    · rename_i hpres
      simp only [Option.some.injEq] at h
      exact ⟨3, _, le_rfl, ⟨hent, hpres, by simp [isPage]⟩, h.symm⟩
    · exact absurd h (by simp)
  · rintro ⟨d, e, hd, hleaf, rfl⟩
    obtain ⟨rfl, rfl⟩ := hleaf.eq_of_child_eq_none hent (child_of_isPage (by simp [isPage])) hd
    rw [if_pos hleaf.present]

/-- The walk from a table on the path, when the tables below are permissive. -/
theorem walk_eq_some {s : State} {page : ℕ}
    (hperm : ∀ d e, s.entry d page = some e → tree.child d e ≠ none → e.Permissive)
    {l table : ℕ} (hl : l ≤ 3) (hn : s.node (3 - l) page = some table) {t : Translation} :
    walk s.mem l table page = some t ↔
      ∃ d e, 3 - l ≤ d ∧ Leaf s d page e ∧ t = e.leaf (3 - d) page := by
  induction l generalizing table with
  | zero => exact walk_zero_eq_some hn
  | succ l ih =>
      set e := s.mem table (tree.idx (3 - (l + 1)) page) with he
      have hent : s.entry (3 - (l + 1)) page = some e := entry_of_node hn
      have hidx : s.mem table (page / 512 ^ (l + 1) % 512) = e := by
        rw [he]
        simp only [tree]
        congr 4
        omega
      -- The entry of this table is the one that maps the page, or the search goes on below.
      simp only [walk, hidx, ← isPage_of_level hl e]
      by_cases hpres : e.present = true
      · simp only [hpres, Bool.not_true, Bool.false_eq_true, if_false]
        by_cases hp : isPage (3 - (l + 1)) e = true
        · rw [if_pos hp]
          constructor
          · intro h
            refine ⟨3 - (l + 1), e, le_rfl, ⟨hent, hpres, hp⟩, ?_⟩
            rw [← Option.some.inj h]
            congr 1
            omega
          · rintro ⟨d, e', hd, hleaf, rfl⟩
            obtain ⟨rfl, rfl⟩ := hleaf.eq_of_child_eq_none hent (child_of_isPage hp) hd
            congr 2
            omega
        · rw [if_neg hp]
          have hc : tree.child (3 - (l + 1)) e = some e.address.toNat :=
            child_eq_some.mpr ⟨hpres, by simpa using hp, rfl⟩
          have hpm := hperm _ e hent (by rw [hc]; simp)
          have hnext : s.node (3 - l) page = some e.address.toNat := by
            rw [show 3 - l = 3 - (l + 1) + 1 by omega]
            exact (node_succ hn).trans hc
          rw [Translation.map_restrict_of_permissive hpm, ih (by omega) hnext]
          constructor
          · rintro ⟨d, e', hd, hleaf, ht⟩
            exact ⟨d, e', by omega, hleaf, ht⟩
          · rintro ⟨d, e', hd, hleaf, ht⟩
            have hlt := hleaf.lt_of_child_eq_some hent hc hd
            exact ⟨d, e', by omega, hleaf, ht⟩
      · have hpres' : e.present = false := by simpa using hpres
        simp only [hpres', Bool.not_false, if_true]
        constructor
        · intro h
          exact absurd h (by simp)
        · rintro ⟨d, e', hd, hleaf, -⟩
          obtain ⟨rfl, rfl⟩ := hleaf.eq_of_child_eq_none hent (child_of_not_present hpres') hd
          rw [hleaf.present] at hpres'
          exact absurd hpres' (by simp)

/-! ### The invariant -/

/-- A frame that is a table of the tree, the PML4 apart. -/
def IsTable (s : State) (f : ℕ) : Prop := ∃ d page, s.node (d + 1) page = some f

/-- **The tables are a tree of held page frames**: no two entries refer to one table, every
table is a frame that the memory manager has handed out, tables are permissive, and none is
empty, one table that is under construction apart. -/
structure TreeInv (s : State) (hole : Option ℕ) : Prop where
  pmm_wf : s.pmm.WellFormed
  pmm_fits : firstFrame s.pmm + s.pmm.nBlocks ≤ 2 ^ 36
  separated : tree.Separated s.mem s.pml4
  held : ∀ d page f, s.node (d + 1) page = some f → Held s.pmm f
  root : ¬ Avail s.pmm s.pml4
  permissive : ∀ d page e, s.entry d page = some e → tree.child d e ≠ none → e.Permissive
  nonempty : ∀ d page f, s.node (d + 1) page = some f → some f ≠ hole →
    ∃ i < tableSize, (s.mem f i).present = true

/-- **The walk of the processor** finds the entry that maps the page. -/
theorem page_eq_some {s : State} {hole : Option ℕ} (h : TreeInv s hole) {page : ℕ}
    {t : Translation} :
    s.page page = some t ↔ ∃ d e, Leaf s d page e ∧ t = e.leaf (3 - d) page := by
  rw [State.page, walk_eq_some (fun d e => h.permissive d page e) le_rfl rfl]
  constructor
  · rintro ⟨d, e, -, hleaf, ht⟩
    exact ⟨d, e, hleaf, ht⟩
  · rintro ⟨d, e, hleaf, ht⟩
    exact ⟨d, e, by omega, hleaf, ht⟩

/-- States in which the same entries map a page translate it in the same way. -/
theorem page_congr {s s' : State} {hole hole' : Option ℕ} (h : TreeInv s hole)
    (h' : TreeInv s' hole') {page : ℕ} (hleaf : ∀ d e, Leaf s' d page e ↔ Leaf s d page e) :
    s'.page page = s.page page := by
  apply Option.ext
  intro t
  rw [page_eq_some h, page_eq_some h']
  simp only [hleaf]

/-- A page is mapped if and only if some entry on its path is a leaf. -/
theorem page_ne_none {s : State} {hole : Option ℕ} (h : TreeInv s hole) {page : ℕ} :
    s.page page ≠ none ↔ ∃ d e, Leaf s d page e := by
  rw [Option.ne_none_iff_exists']
  simp only [page_eq_some h]
  constructor
  · rintro ⟨t, d, e, hleaf, -⟩
    exact ⟨d, e, hleaf⟩
  · rintro ⟨d, e, hleaf⟩
    exact ⟨_, d, e, hleaf, rfl⟩

/-- A page is not mapped if its path comes to a table whose entry for it is not present. -/
theorem page_none_of_not_present {s : State} {hole : Option ℕ} (h : TreeInv s hole)
    {d w g : ℕ} (hg : s.node d w = some g) (hnot : (s.mem g (tree.idx d w)).present = false) :
    s.page w = none := by
  by_contra hne
  obtain ⟨d', e, hleaf⟩ := (page_ne_none h).mp hne
  obtain ⟨a, ha, he⟩ := entry_eq_some.mp hleaf.entry_eq
  rcases lt_trichotomy d' d with hlt | rfl | hlt
  · obtain ⟨b, hb⟩ := node_some_of_le hg (show d' + 1 ≤ d by omega)
    have hnone := (node_succ ha).trans (he ▸ child_of_isPage hleaf.isPage)
    exact absurd (hb.symm.trans hnone) (by simp)
  · obtain rfl := Option.some.inj (ha.symm.trans hg)
    have := hleaf.present
    rw [← he, hnot] at this
    exact absurd this (by simp)
  · have hnone := entry_none_of_lt (entry_of_node hg) (child_of_not_present hnot) hlt
    exact absurd (hleaf.entry_eq.symm.trans hnone) (by simp)

/-- A frame that is a table of the tree is not available to the memory manager. -/
theorem TreeInv.not_avail {s : State} {hole : Option ℕ} (h : TreeInv s hole) {d page f : ℕ}
    (hf : s.node d page = some f) : ¬ Avail s.pmm f := by
  cases d with
  | zero =>
      obtain rfl : s.pml4 = f := Option.some.inj hf
      exact h.root
  | succ d => exact (h.held d page f hf).not_avail

/-- A page that selects a given index below a given page's entry. -/
theorem exists_page_at {d v i : ℕ} (hd : d ≤ 2) (hv : v < pageCount) (hi : i < tableSize) :
    ∃ w < pageCount, tree.Agree (d + 1) w v ∧ tree.idx (d + 1) w = i := by
  have hw : v / span d * span d + i * span (d + 1) < pageCount ∧
      (v / span d * span d + i * span (d + 1)) / span d = v / span d ∧
      (v / span d * span d + i * span (d + 1)) / span (d + 1) % 512 = i := by
    simp only [span, pageCount, tableSize] at *
    interval_cases d <;> norm_num <;> omega
  exact ⟨_, hw.1, (agree_iff (by omega) hw.1 hv).mpr hw.2.1, hw.2.2⟩

/-- **Where an entry is present, a page is mapped**: below a table there is always one. -/
theorem exists_mapped {s : State} {hole : Option ℕ} (h : TreeInv s hole) {d v : ℕ}
    {e : Descriptor} (hd : d ≤ 3) (hv : v < pageCount) (he : s.entry d v = some e)
    (hpres : e.present = true)
    (hhole : ∀ d' w f, d < d' → s.node d' w = some f → some f ≠ hole) :
    ∃ w < pageCount, tree.Agree (d + 1) w v ∧ s.page w ≠ none := by
  induction hk : 3 - d generalizing d v e with
  | zero =>
      have hp : isPage d e = true := by
        simp only [isPage, Bool.or_eq_true, decide_eq_true_eq]
        omega
      exact ⟨v, hv, .refl _ _, (page_ne_none h).mpr ⟨d, e, he, hpres, hp⟩⟩
  | succ k ih =>
      by_cases hp : isPage d e = true
      · exact ⟨v, hv, .refl _ _, (page_ne_none h).mpr ⟨d, e, he, hpres, hp⟩⟩
      · obtain ⟨a, ha, rfl⟩ := entry_eq_some.mp he
        have hc : tree.child d (s.mem a (tree.idx d v)) =
            some (s.mem a (tree.idx d v)).address.toNat :=
          child_eq_some.mpr ⟨hpres, by simpa using hp, rfl⟩
        have hn : s.node (d + 1) v = some (s.mem a (tree.idx d v)).address.toNat :=
          (node_succ ha).trans hc
        obtain ⟨i, hi, hpi⟩ := h.nonempty d v _ hn (hhole _ _ _ (by omega) hn)
        obtain ⟨w, hw, hagree, hidx⟩ := exists_page_at (show d ≤ 2 by omega) hv hi
        have hnw := (node_congr hagree).trans hn
        obtain ⟨x, hx, hxa, hxp⟩ := ih (by omega) hw (entry_of_node hnw)
          (by rw [hidx]; exact hpi) (fun d' u f hlt => hhole d' u f (by omega)) (by omega)
        exact ⟨x, hx, (hxa.mono (by omega)).trans hagree, hxp⟩

/-! ### Steps along a path -/

/-- What every operation on the tables along the paths of some pages keeps: the geometry,
the frames that are held and are not tables, and the tables of every other PML4 entry. -/
structure Along (V : ℕ → Prop) (s s' : State) : Prop where
  pml4_eq : s'.pml4 = s.pml4
  has1GB_eq : s'.has1GBPages = s.has1GBPages
  enabled_eq : s'.enabled = s.enabled
  pool : SamePool s.pmm s'.pmm
  residual : ∀ f, Held s'.pmm f ∧ ¬ IsTable s' f ↔ Held s.pmm f ∧ ¬ IsTable s f
  other : ∀ d w, (∀ v, V v → ¬ tree.Agree 1 w v) → s'.node d w = s.node d w

/-- A state differs from itself along no path. -/
theorem Along.refl (V : ℕ → Prop) (s : State) : Along V s s :=
  ⟨rfl, rfl, rfl, .refl _, fun _ => Iff.rfl, fun _ _ _ => rfl⟩

/-- Two operations that each change tables along the paths of some pages only do so
together. -/
theorem Along.trans {V : ℕ → Prop} {s t u : State} (h : Along V s t) (h' : Along V t u) :
    Along V s u where
  pml4_eq := h'.pml4_eq.trans h.pml4_eq
  has1GB_eq := h'.has1GB_eq.trans h.has1GB_eq
  enabled_eq := h'.enabled_eq.trans h.enabled_eq
  pool := h.pool.trans h'.pool
  residual := fun f => (h'.residual f).trans (h.residual f)
  other := fun d w hw => (h'.other d w hw).trans (h.other d w hw)

/-- Operations along fewer paths are operations along more. -/
theorem Along.mono {V W : ℕ → Prop} {s s' : State} (h : Along V s s')
    (hVW : ∀ v, V v → W v) : Along W s s' :=
  { h with other := fun d w hw => h.other d w fun v hv => hw v (hVW v hv) }

/-- Every page size bit that is set was set before, in the tables of depths other than `d`. -/
def NoNewLarge (d : ℕ) (s s' : State) : Prop :=
  ∀ d' w f i, d' ≠ d → s'.node d' w = some f → (s'.mem f i).pageSize = true →
    s.node d' w = some f ∧ (s.mem f i).pageSize = true

/-- Two operations that each set no page size bit in the tables of depths other than `d` set
none together. -/
theorem NoNewLarge.trans {d : ℕ} {s t u : State} (h : NoNewLarge d s t)
    (h' : NoNewLarge d t u) : NoNewLarge d s u := by
  intro d' w f i hd hf hsize
  obtain ⟨hf', hsize'⟩ := h' d' w f i hd hf hsize
  exact h d' w f i hd hf' hsize'

@[simp] theorem mapDynamic_mem (s : State) (d f : ℕ) : (s.mapDynamic d f).mem = s.mem := by
  unfold State.mapDynamic; split <;> rfl

@[simp] theorem mapDynamic_pml4 (s : State) (d f : ℕ) : (s.mapDynamic d f).pml4 = s.pml4 := by
  unfold State.mapDynamic; split <;> rfl

@[simp] theorem mapDynamic_pmm (s : State) (d f : ℕ) : (s.mapDynamic d f).pmm = s.pmm := by
  unfold State.mapDynamic; split <;> rfl

@[simp] theorem mapDynamic_has1GBPages (s : State) (d f : ℕ) :
    (s.mapDynamic d f).has1GBPages = s.has1GBPages := by
  unfold State.mapDynamic; split <;> rfl

@[simp] theorem mapDynamic_enabled (s : State) (d f : ℕ) :
    (s.mapDynamic d f).enabled = s.enabled := by
  unfold State.mapDynamic; split <;> rfl

/-- What a window shows is no part of the tree, so the tree can stay while a window changes. -/
theorem TreeInv.mapDynamic {s : State} {hole : Option ℕ} (h : TreeInv s hole) (d f : ℕ) :
    TreeInv (s.mapDynamic d f) hole := by
  refine ⟨?_, ?_, ?_, ?_, ?_, ?_, ?_⟩ <;>
    simp only [State.node, State.entry, mapDynamic_mem, mapDynamic_pml4, mapDynamic_pmm]
  · exact h.pmm_wf
  · exact h.pmm_fits
  · exact h.separated
  · exact h.held
  · exact h.root
  · exact h.permissive
  · exact h.nonempty

/-! ### Linking a new table -/

/-- A store changes one descriptor of the memory, and every other one is as before. -/
theorem store_apply (mem : ℕ → ℕ → Descriptor) (f i : ℕ) (e : Descriptor) (g j : ℕ) :
    store mem f i e g j = if g = f ∧ j = i then e else mem g j := by
  unfold store
  by_cases hg : g = f
  · subst hg
    by_cases hj : j = i
    · subst hj
      simp
    · simp [hj]
  · simp [hg]

/-- The descriptor made for a table refers to the frame of this table. -/
theorem tableDescriptor_child {d f : ℕ} (hd : d ≤ 2) (hf : f < 2 ^ 36) :
    tree.child d (tableDescriptor (get4KBEntryAddress (f * pageSize))) = some f := by
  rw [child_eq_some]
  refine ⟨rfl, ?_, ?_⟩
  · simp only [isPage, tableDescriptor, Bool.and_false, Bool.or_false, decide_eq_false_iff_not]
    omega
  · rw [get4KBEntryAddress, and_shiftRight _ _ _ 36 (by decide)]
    simp only [tableDescriptor, BitVec.toNat_ofNat, pageSize]
    omega

section Link

variable {s s' : State} {hole : Option ℕ} {d v f g : ℕ} (h : TreeInv s hole)
  (hf : s.node d v = some f) (hd : d ≤ 2)
  (hold : (s.mem f (tree.idx d v)).present = false) (hg : Avail s.pmm g)
  (hroot : s'.pml4 = s.pml4)
  (hmem : s'.mem = store (Function.update s.mem g fun _ => Descriptor.zero) f (tree.idx d v)
    (tableDescriptor (get4KBEntryAddress (g * pageSize))))

include h hf hg in
/-- The new table is not the table that refers to it. -/
theorem link_ne : g ≠ f := by
  rintro rfl
  exact h.not_avail hf hg

include h hf hg hmem in
/-- Every entry of the new table is blank. -/
theorem link_blank (i : ℕ) : s'.mem g i = Descriptor.zero := by
  rw [hmem, store_apply, if_neg (fun hc => link_ne h hf hg hc.1)]
  simp

include hmem in
/-- The entry of the path, where it stopped, is now the descriptor of the new table. -/
theorem link_written : s'.mem f (tree.idx d v) =
    tableDescriptor (get4KBEntryAddress (g * pageSize)) := by
  rw [hmem, store_apply, if_pos ⟨rfl, rfl⟩]

include hmem in
/-- Every entry that is not of the new table or the one that refers to it is as before. -/
theorem link_frame {a i : ℕ} (ha : a ≠ g) (hai : ¬ (a = f ∧ i = tree.idx d v)) :
    s'.mem a i = s.mem a i := by
  rw [hmem, store_apply, if_neg hai, Function.update_of_ne ha]

include h hg in
/-- The new table was no node of the tree before it was linked in. -/
theorem link_fresh (d' w : ℕ) : s.node d' w ≠ some g := fun hn => h.not_avail hn hg

include h hg in
/-- The frame of the new table has 36 bits, so that its address does not wrap. -/
theorem link_lt : g < 2 ^ 36 := by
  have := h.pmm_fits
  have := hg.1.2
  omega

include h hg hmem in
/-- The entries of the tree other than the one that refers to the new table. -/
theorem link_tree_frame (d' w a : ℕ) (ha : s.node d' w = some a)
    (hai : ¬ (a = f ∧ tree.idx d' w = tree.idx d v)) :
    s'.mem a (tree.idx d' w) = s.mem a (tree.idx d' w) :=
  link_frame hmem (fun hag => link_fresh h hg d' w (hag ▸ ha)) hai

include h hd hg hmem in
/-- The entry that was written refers to the new table. -/
theorem link_child : tree.child d (s'.mem f (tree.idx d v)) = some g := by
  rw [link_written hmem]
  exact tableDescriptor_child hd (link_lt h hg)

include h hf hd hold hg hmem in
/-- Every node of the tree other than the new one is as before. -/
theorem link_node_other {d' w : ℕ} (hne : ¬ (d' = d + 1 ∧ tree.Agree (d + 1) w v)) :
    tree.node s'.mem s.pml4 d' w = s.node d' w := by
  refine node_link h.separated hf (link_tree_frame h hg hmem) (child_of_not_present hold)
    (link_child h hd hg hmem) ?_ hne
  intro i
  rw [link_blank h hf hg hmem]
  rfl

include h hf hd hg hmem in
/-- The new table is the next node for all pages that share the entry which refers to it. -/
theorem link_node_new {w : ℕ} (hagree : tree.Agree (d + 1) w v) :
    tree.node s'.mem s.pml4 (d + 1) w = some g := by
  rw [node_written h.separated hf (link_tree_frame h hg hmem) hagree, link_child h hd hg hmem]

include h hf hd hold hg hmem in
/-- Linking in a blank table leaves the entries that refer to pages as they were. -/
theorem link_leaf (hroot : s'.pml4 = s.pml4) (d' w : ℕ) (e : Descriptor) :
    Leaf s' d' w e ↔ Leaf s d' w e := by
  have hentry : s'.entry d' w = tree.entry s'.mem s.pml4 d' w := by
    rw [State.entry, hroot]
  by_cases hnew : d' = d + 1 ∧ tree.Agree (d + 1) w v
  · obtain ⟨rfl, hagree⟩ := hnew
    constructor
    · intro hleaf
      have he := hleaf.entry_eq
      rw [hentry, entry_of_node (link_node_new h hf hd hg hmem hagree),
        link_blank h hf hg hmem] at he
      have := hleaf.present
      rw [← Option.some.inj he] at this
      exact absurd this (by decide)
    · intro hleaf
      obtain ⟨a, ha, -⟩ := entry_eq_some.mp hleaf.entry_eq
      rw [node_congr hagree, node_succ hf, child_of_not_present hold] at ha
      exact absurd ha (by simp)
  · by_cases hat : d' = d ∧ tree.Agree (d + 1) w v
    · obtain ⟨rfl, hagree⟩ := hat
      have hn : s.node d' w = some f := (node_congr (hagree.mono (by omega))).trans hf
      have hi : tree.idx d' w = tree.idx d' v := hagree d' (by omega)
      constructor
      · intro hleaf
        have he := hleaf.entry_eq
        rw [hentry, entry_of_node ((link_node_other h hf hd hold hg hmem hnew).trans hn), hi,
          link_written hmem] at he
        have hp := hleaf.isPage
        rw [← Option.some.inj he] at hp
        simp only [isPage, tableDescriptor, Bool.and_false, Bool.or_false,
          decide_eq_true_eq] at hp
        omega
      · intro hleaf
        have he := hleaf.entry_eq.symm.trans (entry_of_node hn)
        have hp := hleaf.present
        rw [Option.some.inj he, hi, hold] at hp
        exact absurd hp (by simp)
    · have hsame : s'.entry d' w = s.entry d' w := by
        rw [hentry]
        apply entry_eq_of_node (link_node_other h hf hd hold hg hmem hnew)
        intro a ha
        apply link_frame hmem (fun hag => link_fresh h hg d' w (hag ▸ ha))
        rintro ⟨rfl, hi⟩
        obtain ⟨hdd, hagree⟩ := agree_of_selects h.separated hf ha hi
        exact hat ⟨hdd, hagree⟩
      constructor
      · intro hleaf
        exact ⟨hsame.symm.trans hleaf.entry_eq, hleaf.present, hleaf.isPage⟩
      · intro hleaf
        exact ⟨hsame.trans hleaf.entry_eq, hleaf.present, hleaf.isPage⟩

include h hf hd hold hg hmem in
/-- **Linking keeps the tree**, the new table being the one under construction. -/
theorem TreeInv.link (hhole : hole = none ∨ hole = some f) (hroot : s'.pml4 = s.pml4)
    (hwf : s'.pmm.WellFormed) (hpool : SamePool s.pmm s'.pmm)
    (hheld : ∀ x, Held s'.pmm x ↔ Held s.pmm x ∨ x = g) : TreeInv s' (some g) := by
  have hnode : ∀ d' w, s'.node d' w = tree.node s'.mem s.pml4 d' w := by
    intro d' w
    rw [State.node, hroot]
  have hcases : ∀ d' w a, s'.node d' w = some a →
      a = g ∧ d' = d + 1 ∧ tree.Agree (d + 1) w v ∨ a ≠ g ∧ s.node d' w = some a := by
    intro d' w a ha
    rw [hnode] at ha
    by_cases hnew : d' = d + 1 ∧ tree.Agree (d + 1) w v
    · obtain ⟨rfl, hagree⟩ := hnew
      rw [link_node_new h hf hd hg hmem hagree] at ha
      exact .inl ⟨(Option.some.inj ha).symm, rfl, hagree⟩
    · rw [link_node_other h hf hd hold hg hmem hnew] at ha
      exact .inr ⟨fun hag => link_fresh h hg d' w (hag ▸ ha), ha⟩
  refine ⟨hwf, ?_, ?_, ?_, ?_, ?_, ?_⟩
  · rw [firstFrame, hpool.start_eq, hpool.nBlocks_eq]
    exact h.pmm_fits
  · rw [hroot]
    refine h.separated.link hf (link_tree_frame h hg hmem) (child_of_not_present hold)
      (link_child h hd hg hmem) ?_ (link_fresh h hg)
    intro i
    rw [link_blank h hf hg hmem]
    rfl
  · intro d' w a ha
    rw [hheld]
    rcases hcases _ _ _ ha with ⟨rfl, -⟩ | ⟨-, hold'⟩
    · exact .inr rfl
    · exact .inl (h.held d' w a hold')
  · rintro ⟨hm, hbit⟩
    rw [hroot] at hm hbit
    have hnot : ¬ Held s'.pmm s.pml4 := fun hh => hh.not_avail ⟨hm, hbit⟩
    rw [hheld, not_or] at hnot
    rw [hpool.managed_iff] at hm
    refine h.root ⟨hm, ?_⟩
    by_contra hne
    exact hnot.1 ⟨hm, by simpa using hne⟩
  · intro d' w e he hc
    obtain ⟨a, ha, rfl⟩ := entry_eq_some.mp he
    rcases hcases _ _ _ ha with ⟨rfl, -⟩ | ⟨-, hold'⟩
    · rw [link_blank h hf hg hmem] at hc
      exact absurd rfl hc
    · by_cases hai : a = f ∧ tree.idx d' w = tree.idx d v
      · obtain ⟨rfl, hi⟩ := hai
        rw [hi, link_written hmem]
        exact ⟨rfl, rfl, rfl⟩
      · rw [link_tree_frame h hg hmem d' w a hold' hai] at hc ⊢
        exact h.permissive d' w _ (entry_of_node hold') hc
  · intro d' w a ha hne
    rcases hcases _ _ _ ha with ⟨rfl, -⟩ | ⟨hag, hold'⟩
    · exact absurd rfl hne
    · by_cases haf : a = f
      · subst haf
        refine ⟨tree.idx d v, idx_lt d v, ?_⟩
        rw [link_written hmem]
        rfl
      · obtain ⟨i, hi, hp⟩ := h.nonempty d' w a hold' (by
          rcases hhole with hn | hn
          · rw [hn]; simp
          · rw [hn]
            simpa using haf)
        exact ⟨i, hi, by rw [link_frame hmem hag (fun hc => haf hc.1)]; exact hp⟩

include h hf hd hold hg hmem in
/-- Linking in a table changes the tables along the path of the page only. -/
theorem Along.link (hroot : s'.pml4 = s.pml4) (h1GB : s'.has1GBPages = s.has1GBPages)
    (hen : s'.enabled = s.enabled) (hpool : SamePool s.pmm s'.pmm)
    (hheld : ∀ x, Held s'.pmm x ↔ Held s.pmm x ∨ x = g) : Along (· = v) s s' := by
  have hnode : ∀ d' w, s'.node d' w = tree.node s'.mem s.pml4 d' w := by
    intro d' w
    rw [State.node, hroot]
  have htable : ∀ x, IsTable s' x ↔ IsTable s x ∨ x = g := by
    intro x
    constructor
    · rintro ⟨d', w, hx⟩
      rw [hnode] at hx
      by_cases hnew : d' + 1 = d + 1 ∧ tree.Agree (d + 1) w v
      · obtain ⟨hdd, hagree⟩ := hnew
        rw [hdd, link_node_new h hf hd hg hmem hagree] at hx
        exact .inr (Option.some.inj hx).symm
      · rw [link_node_other h hf hd hold hg hmem hnew] at hx
        exact .inl ⟨d', w, hx⟩
    · rintro (⟨d', w, hx⟩ | rfl)
      · refine ⟨d', w, ?_⟩
        rw [hnode, link_node_other h hf hd hold hg hmem, hx]
        rintro ⟨hdd, hagree⟩
        have hnone : s.node (d + 1) w = none :=
          (node_congr hagree).trans ((node_succ hf).trans (child_of_not_present hold))
        rw [hdd, hnone] at hx
        exact absurd hx (by simp)
      · exact ⟨d, v, by rw [hnode, link_node_new h hf hd hg hmem (.refl _ _)]⟩
  refine ⟨hroot, h1GB, hen, hpool, ?_, ?_⟩
  · intro x
    rw [hheld, htable]
    constructor
    · rintro ⟨hx | hx, hnot⟩
      · exact ⟨hx, fun ht => hnot (.inl ht)⟩
      · exact absurd (.inr hx) hnot
    · rintro ⟨hx, hnot⟩
      refine ⟨.inl hx, ?_⟩
      rintro (ht | rfl)
      · exact hnot ht
      · exact hx.not_avail hg
  · intro d' w hw
    rw [hnode, link_node_other h hf hd hold hg hmem]
    rintro ⟨-, hagree⟩
    exact hw v rfl (hagree.mono (by omega))

include h hf hd hold hg hmem in
/-- Linking in a table sets no page size bit, whichever depth is left out. -/
theorem NoNewLarge.link (hroot : s'.pml4 = s.pml4) (k : ℕ) : NoNewLarge k s s' := by
  intro d' w a i _ ha hsize
  rw [State.node, hroot] at ha
  by_cases hnew : d' = d + 1 ∧ tree.Agree (d + 1) w v
  · obtain ⟨rfl, hagree⟩ := hnew
    rw [link_node_new h hf hd hg hmem hagree] at ha
    rw [← Option.some.inj ha, link_blank h hf hg hmem] at hsize
    exact absurd hsize (by decide)
  · rw [link_node_other h hf hd hold hg hmem hnew] at ha
    refine ⟨ha, ?_⟩
    by_cases hai : a = f ∧ i = tree.idx d v
    · obtain ⟨rfl, rfl⟩ := hai
      rw [link_written hmem] at hsize
      exact absurd hsize (by simp [tableDescriptor])
    · rwa [link_frame hmem (fun hag => link_fresh h hg d' w (hag ▸ ha)) hai] at hsize

end Link

/-- **Getting a table, allocating it if there is none**: the only failure is that the memory
manager has no page left; no translation changes. -/
theorem getTable_alloc {s : State} {hole : Option ℕ} {d v f : ℕ} (h : TreeInv s hole)
    (hf : s.node d v = some f) (hd : d ≤ 2) (hhole : hole = none ∨ hole = some f)
    (hpage : ∀ e, ¬ Leaf s d v e) :
    getTable (d + 1) s f (tree.idx d v) true = .error .panic ∨
    ∃ g s', getTable (d + 1) s f (tree.idx d v) true = .ok (g, s') ∧
      s'.node (d + 1) v = some g ∧ TreeInv s' (some g) ∧ Along (· = v) s s' ∧
      (∀ k, NoNewLarge k s s') ∧ ∀ d' w e, Leaf s' d' w e ↔ Leaf s d' w e := by
  unfold getTable
  by_cases hp : (s.mem f (tree.idx d v)).present = true
  · have hc : tree.child d (s.mem f (tree.idx d v)) =
        some (s.mem f (tree.idx d v)).address.toNat := by
      refine child_eq_some.mpr ⟨hp, ?_, rfl⟩
      by_contra hpg
      exact hpage _ ⟨entry_of_node hf, hp, by simpa using hpg⟩
    simp only [hp, if_true]
    refine .inr ⟨_, _, rfl, ?_, ?_, ?_, ?_, ?_⟩
    · simp only [State.node, mapDynamic_mem, mapDynamic_pml4]
      exact (node_succ hf).trans hc
    · have hm := h.mapDynamic (d + 1) (s.mem f (tree.idx d v)).address.toNat
      refine { hm with nonempty := ?_ }
      intro d' w a ha hne
      by_cases haf : some a = hole
      · -- The table under construction has an entry now: the one that is present.
        obtain rfl : a = f := by
          rcases hhole with hn | hn
          · rw [hn] at haf
            exact absurd haf (by simp)
          · rw [hn] at haf
            exact Option.some.inj haf
        exact ⟨tree.idx d v, idx_lt d v, by rw [mapDynamic_mem]; exact hp⟩
      · exact hm.nonempty d' w a ha haf
    · refine ⟨by simp, by simp, by simp, by simp only [mapDynamic_pmm]; exact .refl _, ?_, ?_⟩
      · intro x
        simp only [IsTable, State.node, mapDynamic_mem, mapDynamic_pml4, mapDynamic_pmm]
      · intro d' w _
        simp only [State.node, mapDynamic_mem, mapDynamic_pml4]
    · intro k d' w a i _ ha hsize
      simp only [State.node, mapDynamic_mem, mapDynamic_pml4] at ha hsize
      exact ⟨ha, hsize⟩
    · intro d' w e
      constructor <;> rintro ⟨h1, h2, h3⟩ <;> refine ⟨?_, h2, h3⟩ <;>
        simpa only [State.entry, mapDynamic_mem, mapDynamic_pml4] using h1
  · have hold : (s.mem f (tree.idx d v)).present = false := by simpa using hp
    simp only [hold, Bool.false_eq_true, if_false, Bool.not_true, allocatePageOrPanic]
    rcases allocatePages_frames h.pmm_wf 1 with heq | ⟨g, pmm', -, hg0, heq, hwf, hpool, hav, hheld⟩
    · left
      simp only [heq, if_true]
      rfl
    · right
      have hg : Avail s.pmm g := by simpa using hav 0 (by omega)
      have hheld' : ∀ x, Held pmm' x ↔ Held s.pmm x ∨ x = g := by
        intro x
        rw [hheld x]
        constructor <;> rintro (hx | hx) <;> [left; right; left; right] <;> first | exact hx | omega
      have hne0 : g * pageSize ≠ 0 := by
        simp only [pageSize]
        omega
      have hdiv : g * pageSize / pageSize = g := Nat.mul_div_cancel _ (by decide)
      set s' : State := { ({ s with pmm := pmm' } : State).mapDynamic (d + 1) g with
        mem := store (Function.update s.mem g fun _ => Descriptor.zero) f (tree.idx d v)
          (tableDescriptor (get4KBEntryAddress (g * pageSize))) } with hs'
      have hmem : s'.mem = store (Function.update s.mem g fun _ => Descriptor.zero) f
          (tree.idx d v) (tableDescriptor (get4KBEntryAddress (g * pageSize))) := rfl
      have hroot : s'.pml4 = s.pml4 := by simp [hs']
      have hpmm : s'.pmm = pmm' := by simp [hs']
      refine ⟨g, s', ?_, ?_, ?_, ?_, ?_, ?_⟩
      · simp only [heq, if_neg hne0, hdiv, bind, Except.bind, mapDynamic_mem, hs']
      · rw [State.node, hroot]
        exact link_node_new h hf hd hg hmem (.refl _ _)
      · exact h.link hf hd hold hg hmem hhole hroot (by rw [hpmm]; exact hwf)
          (by rw [hpmm]; exact hpool) (by rw [hpmm]; exact hheld')
      · exact .link h hf hd hold hg hmem hroot (by simp [hs']) (by simp [hs'])
          (by rw [hpmm]; exact hpool) (by rw [hpmm]; exact hheld')
      · exact .link h hf hd hold hg hmem hroot
      · exact link_leaf h hf hd hold hg hmem hroot

/-! ### Rewriting entries of one table -/

/-- The states `s` and `s'` differ in entries `I` of the table `g` only, and these refer to no
table before nor after. -/
structure Rewrites (s s' : State) (d g : ℕ) (I : ℕ → Prop) : Prop where
  pml4_eq : s'.pml4 = s.pml4
  has1GB_eq : s'.has1GBPages = s.has1GBPages
  enabled_eq : s'.enabled = s.enabled
  pmm_eq : s'.pmm = s.pmm
  frame : ∀ a i, ¬ (a = g ∧ I i) → s'.mem a i = s.mem a i
  before : ∀ i, I i → tree.child d (s.mem g i) = none
  after : ∀ i, I i → tree.child d (s'.mem g i) = none

section Rewrite

variable {s s' : State} {hole : Option ℕ} {d v g : ℕ} {I : ℕ → Prop} (h : TreeInv s hole)
  (hg : s.node d v = some g) (hr : Rewrites s s' d g I)

include h hg hr

/-- Rewriting entries that refer to no table leaves all nodes of the tree as they were. -/
theorem Rewrites.node_eq (d' w : ℕ) : s'.node d' w = s.node d' w := by
  rw [State.node, hr.pml4_eq]
  apply node_eq_of_child
  intro d'' w' a ha
  by_cases hai : a = g ∧ I (tree.idx d'' w')
  · obtain ⟨rfl, hi⟩ := hai
    obtain ⟨rfl, -⟩ := h.separated d'' w' d v a ha hg
    rw [hr.before _ hi, hr.after _ hi]
  · rw [hr.frame a _ hai]

/-- A page that shares the rewritten table has the new entry at its own index there. -/
theorem Rewrites.entry_new {w : ℕ} (hw : tree.Agree d w v) :
    s'.entry d w = some (s'.mem g (tree.idx d w)) :=
  entry_of_node (((hr.node_eq h hg d w).trans (node_congr hw)).trans hg)

/-- The entries of all other pages and depths are the same. -/
theorem Rewrites.entry_old {d' w : ℕ} (hw : ¬ (d' = d ∧ tree.Agree d w v ∧ I (tree.idx d w))) :
    s'.entry d' w = s.entry d' w := by
  have hn := hr.node_eq h hg d' w
  rw [State.entry, State.node, hr.pml4_eq] at *
  apply entry_eq_of_node hn
  intro a ha
  apply hr.frame
  rintro ⟨rfl, hi⟩
  obtain ⟨rfl, hagree⟩ := h.separated d' w d v a ha hg
  exact hw ⟨rfl, hagree, hi⟩

/-- The entries that map a page whose entry is not rewritten. -/
theorem Rewrites.leaf_old {d' w : ℕ} {e : Descriptor}
    (hw : ¬ (d' = d ∧ tree.Agree d w v ∧ I (tree.idx d w))) :
    Leaf s' d' w e ↔ Leaf s d' w e := by
  have he := hr.entry_old h hg hw
  constructor
  · rintro ⟨h1, h2, h3⟩
    exact ⟨he.symm.trans h1, h2, h3⟩
  · rintro ⟨h1, h2, h3⟩
    exact ⟨he.trans h1, h2, h3⟩

/-- Rewriting entries changes the tables along the path of the page only. -/
theorem Rewrites.along : Along (· = v) s s' := by
  refine ⟨hr.pml4_eq, hr.has1GB_eq, hr.enabled_eq, by rw [hr.pmm_eq]; exact .refl _, ?_,
    fun d' w _ => hr.node_eq h hg d' w⟩
  intro x
  simp only [IsTable, hr.node_eq h hg, hr.pmm_eq]

/-- Rewriting keeps the tree, but for the table itself, which may be empty now. -/
theorem Rewrites.treeInv {hole' : Option ℕ}
    (hne : ∀ d' w a, s.node (d' + 1) w = some a → some a ≠ hole' → some a = hole ∨ a = g →
      ∃ i < tableSize, (s'.mem a i).present = true) : TreeInv s' hole' := by
  refine ⟨by rw [hr.pmm_eq]; exact h.pmm_wf, by rw [hr.pmm_eq]; exact h.pmm_fits, ?_, ?_, ?_, ?_,
    ?_⟩
  · intro d' w d'' w' a ha ha'
    exact h.separated d' w d'' w' a ((hr.node_eq h hg d' w).symm.trans ha)
      ((hr.node_eq h hg d'' w').symm.trans ha')
  · intro d' w a ha
    rw [hr.pmm_eq]
    exact h.held d' w a ((hr.node_eq h hg _ w).symm.trans ha)
  · rw [hr.pmm_eq, hr.pml4_eq]
    exact h.root
  · intro d' w e he hc
    by_cases hw : d' = d ∧ tree.Agree d w v ∧ I (tree.idx d w)
    · obtain ⟨rfl, hagree, hi⟩ := hw
      rw [← Option.some.inj ((hr.entry_new h hg hagree).symm.trans he), hr.after _ hi] at hc
      exact absurd rfl hc
    · exact h.permissive d' w e ((hr.entry_old h hg hw).symm.trans he) hc
  · intro d' w a ha hhole
    have ha' := (hr.node_eq h hg _ w).symm.trans ha
    by_cases hag : some a = hole ∨ a = g
    · exact hne d' w a ha' hhole hag
    · rw [not_or] at hag
      obtain ⟨i, hi, hp⟩ := h.nonempty d' w a ha' hag.1
      exact ⟨i, hi, by rw [hr.frame a i (fun hc => hag.2 hc.1)]; exact hp⟩

end Rewrite

/-! ### Setting pages -/

/-- Physical memory after the entries `[index, index + n)` of a table have been set. -/
def filled (mem : ℕ → ℕ → Descriptor) (g index n : ℕ) (desc : ℕ → Descriptor) :
    ℕ → ℕ → Descriptor :=
  fun a i => if a = g ∧ index ≤ i ∧ i < index + n then desc (i - index) else mem a i

/-- **The loops of `Paging_map` over one table** set every entry, or fail an assertion because
one of them is present. -/
theorem setPages_eq {set : Descriptor → ℕ → Except Fault Descriptor} {desc : ℕ → Descriptor}
    (hset : ∀ e addr, e.present = false → set e addr = .ok (desc addr))
    (hfail : ∀ e addr, e.present = true → set e addr = .error .assertion)
    (size g index n phys virt : ℕ) (mem : ℕ → ℕ → Descriptor)
    (hphys : phys < 2 ^ 64) (hvirt : virt < 2 ^ 64) :
    ((∀ j < n, (mem g (index + j)).present = false) →
      setPages set size g index n phys virt mem =
        .ok (filled mem g index n (fun j => desc ((phys + j * size) % 2 ^ 64)),
          (phys + n * size) % 2 ^ 64, (virt + n * size) % 2 ^ 64)) ∧
    (¬ (∀ j < n, (mem g (index + j)).present = false) →
      setPages set size g index n phys virt mem = .error .assertion) := by
  induction n generalizing index phys virt mem with
  | zero =>
      refine ⟨fun _ => ?_, fun hn => absurd (fun j hj => absurd hj (by omega)) hn⟩
      have hfill : filled mem g index 0 (fun j => desc ((phys + j * size) % 2 ^ 64)) = mem := by
        funext a i
        rw [filled, if_neg (by omega)]
      rw [setPages, hfill, Nat.zero_mul, Nat.add_zero, Nat.add_zero, Nat.mod_eq_of_lt hphys,
        Nat.mod_eq_of_lt hvirt]
  | succ n ih =>
      cases hp : (mem g index).present with
      | true =>
          refine ⟨fun hall => ?_, fun _ => ?_⟩
          · have := hall 0 (by omega)
            rw [Nat.add_zero, hp] at this
            exact absurd this (by simp)
          · rw [setPages, hfail _ _ hp]
            rfl
      | false =>
          have hstep : setPages set size g index (n + 1) phys virt mem =
              setPages set size g (index + 1) n (wadd phys size) (wadd virt size)
                (store mem g index (desc phys)) := by
            rw [setPages, hset _ _ hp]
            rfl
          have hrest : (∀ j < n + 1, (mem g (index + j)).present = false) ↔
              ∀ j < n, (store mem g index (desc phys) g (index + 1 + j)).present = false := by
            constructor
            · intro hall j hj
              rw [store_apply, if_neg (by omega)]
              have := hall (j + 1) (by omega)
              rwa [show index + (j + 1) = index + 1 + j by omega] at this
            · intro hall j hj
              rcases j with _ | j
              · exact hp
              · have := hall j (by omega)
                rwa [store_apply, if_neg (by omega),
                  show index + 1 + j = index + (j + 1) by omega] at this
          obtain ⟨hok, herr⟩ := ih (index + 1) (wadd phys size) (wadd virt size)
            (store mem g index (desc phys)) (Nat.mod_lt _ (by decide)) (Nat.mod_lt _ (by decide))
          rw [hstep, hrest]
          refine ⟨fun hall => ?_, herr⟩
          rw [hok hall]
          have hiter : ∀ x j, (wadd x size + j * size) % 2 ^ 64 =
              (x + (j + 1) * size) % 2 ^ 64 := by
            intro x j
            rw [wadd, Nat.mod_add_mod]
            congr 1
            ring
          simp only [hiter]
          congr 2
          funext a i
          simp only [filled]
          by_cases hai : a = g ∧ index + 1 ≤ i ∧ i < index + 1 + n
          · rw [if_pos hai, if_pos ⟨hai.1, by omega, by omega⟩]
            congr 4
            omega
          · rw [if_neg hai, store_apply]
            by_cases hi : a = g ∧ i = index
            · rw [if_pos hi, if_pos ⟨hi.1, by omega, by omega⟩, hi.2, Nat.sub_self, Nat.zero_mul,
                Nat.add_zero, Nat.mod_eq_of_lt hphys]
            · rw [if_neg hi, if_neg (by omega)]

/-- The page belongs to one of the `k` entries of depth `d` from that of page `v` on. -/
def InBlock (d v k w : ℕ) : Prop := v / span d ≤ w / span d ∧ w / span d < v / span d + k

/-- The pages of a block are those of the same table whose index is among the entries of the
block. -/
theorem inBlock_iff {d v k w : ℕ} (hd1 : 1 ≤ d) (hd : d ≤ 3) (hv : v < pageCount)
    (hw : w < pageCount) (hk : tree.idx d v + k ≤ tableSize) :
    InBlock d v k w ↔
      tree.Agree d w v ∧ tree.idx d v ≤ tree.idx d w ∧ tree.idx d w < tree.idx d v + k := by
  obtain ⟨c, rfl⟩ : ∃ c, d = c + 1 := ⟨d - 1, by omega⟩
  rw [agree_iff (by omega) hw hv, InBlock]
  simp only [tree, span, tableSize, pageCount] at *
  have hc : c ≤ 2 := by omega
  interval_cases c <;> norm_num at * <;> omega

/-- Where an entry of a table is present, a page below it is mapped. -/
theorem exists_mapped_at {s : State} {hole : Option ℕ} (h : TreeInv s hole) {d v g i : ℕ}
    (hd1 : 1 ≤ d) (hv : v < pageCount) (hg : s.node d v = some g) (hi : i < tableSize)
    (hp : (s.mem g i).present = true) (hhole : hole = none ∨ hole = some g) :
    ∃ w < pageCount, tree.Agree d w v ∧ tree.idx d w = i ∧ s.page w ≠ none := by
  have hd := node_of_four_le hg
  obtain ⟨c, rfl⟩ : ∃ c, d = c + 1 := ⟨d - 1, by omega⟩
  obtain ⟨w, hw, hagree, hidx⟩ := exists_page_at (show c ≤ 2 by omega) hv hi
  have hent := entry_of_node ((node_congr hagree).trans hg)
  rw [hidx] at hent
  obtain ⟨x, hx, hxw, hxp⟩ := exists_mapped h hd hw hent hp (by
    intro d' u f hlt hf
    rcases hhole with rfl | rfl
    · simp
    · rintro heq
      obtain rfl := Option.some.inj heq
      have := (h.separated d' u (c + 1) v f hf hg).1
      omega)
  rw [agree_succ] at hxw
  exact ⟨x, hx, hxw.1.trans hagree, hxw.2.trans hidx, hxp⟩

/-- The entries after a block has been set: those of the block are new, all others as
before. -/
structure BlockSet (s s' : State) (d v k : ℕ) (desc : ℕ → Descriptor) : Prop where
  inv : TreeInv s' none
  along : Along (· = v) s s'
  leaf_new : ∀ w < pageCount, InBlock d v k w → Leaf s' d w (desc (w / span d - v / span d))
  leaf_old : ∀ w < pageCount, ¬ InBlock d v k w → ∀ d' e, Leaf s' d' w e ↔ Leaf s d' w e
  size_old : NoNewLarge d s s'
  fresh : ∀ w < pageCount, InBlock d v k w → s.page w = none

/-- A block set after steps that changed no entry of a page. -/
theorem BlockSet.of_along {s t u : State} {d v k : ℕ} {desc : ℕ → Descriptor}
    {hole hole' : Option ℕ} (hs : TreeInv s hole) (ht : TreeInv t hole')
    (hst : Along (· = v) s t) (hsize : NoNewLarge d s t)
    (hleaf : ∀ d' w e, Leaf t d' w e ↔ Leaf s d' w e) (h : BlockSet t u d v k desc) :
    BlockSet s u d v k desc where
  inv := h.inv
  along := hst.trans h.along
  leaf_new := h.leaf_new
  leaf_old := fun w hw hout d' e => (h.leaf_old w hw hout d' e).trans (hleaf d' w e)
  size_old := hsize.trans h.size_old
  fresh := fun w hw hin =>
    (page_congr hs ht fun d' e => hleaf d' w e).symm.trans (h.fresh w hw hin)

/-- Within a block, the entry of a page is as far from that of the first page as its span is. -/
theorem InBlock.idx_sub {d v k w : ℕ} (h : InBlock d v k w) (hd1 : 1 ≤ d) (hd : d ≤ 3)
    (hv : v < pageCount) (hw : w < pageCount) (hk : tree.idx d v + k ≤ tableSize) :
    tree.idx d w - tree.idx d v = w / span d - v / span d := by
  have hagree := ((inBlock_iff hd1 hd hv hw hk).mp h).1
  obtain ⟨c, rfl⟩ : ∃ c, d = c + 1 := ⟨d - 1, by omega⟩
  rw [agree_iff (by omega) hw hv] at hagree
  simp only [tree, span, tableSize, pageCount] at *
  have hc : c ≤ 2 := by omega
  interval_cases c <;> norm_num at * <;> omega

/-- Entries of pages are stored into a block of entries that are not present, in a table that is on
a path: exactly the pages of the block are mapped, by these entries. -/
theorem blockSet_filled {s : State} {hole : Option ℕ} (h : TreeInv s hole) {d v g k : ℕ}
    (hd1 : 1 ≤ d) (hv : v < pageCount) (hg : s.node d v = some g)
    (hhole : hole = none ∨ hole = some g) (hk1 : 1 ≤ k) (hk : tree.idx d v + k ≤ tableSize)
    {D : ℕ → Descriptor} (hD : ∀ j, (D j).present = true ∧ isPage d (D j) = true)
    (hall : ∀ j < k, (s.mem g (tree.idx d v + j)).present = false) :
    BlockSet s { s with mem := filled s.mem g (tree.idx d v) k D } d v k D := by
  have hd := node_of_four_le hg
  set s' : State := { s with mem := filled s.mem g (tree.idx d v) k D } with hs'
  set I : ℕ → Prop := fun i => tree.idx d v ≤ i ∧ i < tree.idx d v + k with hI
  have hin : ∀ i, I i → s'.mem g i = D (i - tree.idx d v) := by
    intro i hi
    change filled s.mem g (tree.idx d v) k D g i = _
    rw [filled, if_pos ⟨rfl, hi⟩]
  have hr : Rewrites s s' d g I := by
    refine ⟨rfl, rfl, rfl, rfl, ?_, ?_, ?_⟩
    · intro a i hai
      change filled s.mem g (tree.idx d v) k D a i = _
      rw [filled, if_neg hai]
    · intro i hi
      have := hall (i - tree.idx d v) (by omega)
      rw [show tree.idx d v + (i - tree.idx d v) = i by omega] at this
      exact child_of_not_present this
    · intro i hi
      rw [hin i hi]
      exact child_of_isPage (hD _).2
  have hpres : ∃ i < tableSize, (s'.mem g i).present = true :=
    ⟨tree.idx d v, idx_lt d v, by
      rw [hin _ ⟨le_rfl, by omega⟩]
      exact (hD _).1⟩
  refine ⟨?_, hr.along h hg, ?_, ?_, ?_, ?_⟩
  · apply hr.treeInv h hg
    intro d' w a ha _ hag
    obtain rfl : a = g := by
      rcases hag with hag | hag
      · rcases hhole with hn | hn
        · rw [hn] at hag
          exact absurd hag (by simp)
        · rw [hn] at hag
          exact Option.some.inj hag
      · exact hag
    exact hpres
  · intro w hw hin'
    have hb := (inBlock_iff hd1 hd hv hw hk).mp hin'
    have he := hr.entry_new h hg hb.1
    rw [hin _ hb.2, hin'.idx_sub hd1 hd hv hw hk] at he
    exact ⟨he, (hD _).1, (hD _).2⟩
  · intro w hw hout d' e
    apply hr.leaf_old h hg
    rintro ⟨-, hagree, hi⟩
    exact hout ((inBlock_iff hd1 hd hv hw hk).mpr ⟨hagree, hi⟩)
  · intro d' w a i hd' ha hsize
    have ha' := (hr.node_eq h hg d' w).symm.trans ha
    refine ⟨ha', ?_⟩
    rwa [hr.frame a i] at hsize
    rintro ⟨rfl, -⟩
    exact hd' (h.separated d' w d v a ha' hg).1
  · intro w hw hin'
    have hb := (inBlock_iff hd1 hd hv hw hk).mp hin'
    have hn : s.node d w = some g := (node_congr hb.1).trans hg
    have hnot := hall (tree.idx d w - tree.idx d v) (by omega)
    rw [show tree.idx d v + (tree.idx d w - tree.idx d v) = tree.idx d w by omega] at hnot
    exact page_none_of_not_present h hn hnot

/-- **Setting a block of entries of one table**: an assertion fails because a page of the
block is mapped already, or exactly the pages of the block are mapped. -/
theorem setPages_spec {s : State} {hole : Option ℕ} (h : TreeInv s hole) {d v g k : ℕ}
    (hd1 : 1 ≤ d) (hv : v < pageCount) (hg : s.node d v = some g)
    (hhole : hole = none ∨ hole = some g) (hk1 : 1 ≤ k) (hk : tree.idx d v + k ≤ tableSize)
    {set : Descriptor → ℕ → Except Fault Descriptor} {desc : ℕ → Descriptor}
    (hset : ∀ e addr, e.present = false → set e addr = .ok (desc addr))
    (hfail : ∀ e addr, e.present = true → set e addr = .error .assertion)
    (hdesc : ∀ addr, (desc addr).present = true ∧ isPage d (desc addr) = true)
    (size : ℕ) {phys virt : ℕ} (hphys : phys < 2 ^ 64) (hvirt : virt < 2 ^ 64) :
    (setPages set size g (tree.idx d v) k phys virt s.mem = .error .assertion ∧
      ∃ w < pageCount, InBlock d v k w ∧ s.page w ≠ none) ∨
    ∃ mem, setPages set size g (tree.idx d v) k phys virt s.mem =
        .ok (mem, (phys + k * size) % 2 ^ 64, (virt + k * size) % 2 ^ 64) ∧
      BlockSet s { s with mem := mem } d v k (fun j => desc ((phys + j * size) % 2 ^ 64)) := by
  have hd := node_of_four_le hg
  obtain ⟨hok, herr⟩ := setPages_eq hset hfail size g (tree.idx d v) k phys virt s.mem hphys hvirt
  by_cases hall : ∀ j < k, (s.mem g (tree.idx d v + j)).present = false
  · exact .inr ⟨_, hok hall, blockSet_filled h hd1 hv hg hhole hk1 hk (fun _ => hdesc _) hall⟩
  · left
    refine ⟨herr hall, ?_⟩
    push Not at hall
    obtain ⟨j, hj, hp⟩ := hall
    obtain ⟨w, hw, hagree, hidx, hpage⟩ := exists_mapped_at h hd1 hv hg
      (show tree.idx d v + j < tableSize by omega) (by simpa using hp) hhole
    exact ⟨w, hw, (inBlock_iff hd1 hd hv hw hk).mpr ⟨hagree, by omega, by omega⟩, hpage⟩

end MugOS.Paging
