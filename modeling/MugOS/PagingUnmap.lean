import MugOS.PagingExact
import MugOS.Lib.Run

/-!
# What Paging_unmap Does

One iteration of `Paging_unmap` clears a block of entries of one table, and takes the
tables that are empty then out of the tree. It reads the size of the pages from the first
entry of a table, whichever entry it is about to clear.

## Main results

* `freeTable_spec`: taking an empty table out changes no translation.
* `unmapStep_spec`: an iteration that reads the right size clears exactly its block.
* `unmapLoop_exact`: so does the loop for the range.
-/

namespace MugOS.Paging

open PMM RadixTree

/-! ### Taking an empty table out -/

/-- Tables are taken out of the tree along the path of a page, and nothing else changes. -/
structure Pruned (v : ℕ) (s s' : State) (hole : Option ℕ) : Prop where
  inv : TreeInv s' hole
  along : Along (· = v) s s'
  leaf : ∀ d w e, Leaf s' d w e ↔ Leaf s d w e
  sub : ∀ d w a, s'.node d w = some a → s.node d w = some a
  size : ∀ a i, (s'.mem a i).pageSize = (s.mem a i).pageSize

/-- When nothing is taken out of the tree, nothing is changed. -/
theorem Pruned.refl {s : State} {hole : Option ℕ} (h : TreeInv s hole) (v : ℕ) :
    Pruned v s s hole :=
  ⟨h, .refl _ _, fun _ _ _ => Iff.rfl, fun _ _ _ h => h, fun _ _ => rfl⟩

/-- Taking out two tables one after the other along a path prunes this path. -/
theorem Pruned.trans {v : ℕ} {s t u : State} {hole hole' : Option ℕ} (h : Pruned v s t hole)
    (h' : Pruned v t u hole') : Pruned v s u hole' where
  inv := h'.inv
  along := h.along.trans h'.along
  leaf := fun d w e => (h'.leaf d w e).trans (h.leaf d w e)
  sub := fun d w a ha => h.sub d w a (h'.sub d w a ha)
  size := fun a i => (h'.size a i).trans (h.size a i)

/-- `tableIsEmpty` returns true if and only if no entry of the table is present. -/
theorem tableIsEmpty_iff {mem : ℕ → ℕ → Descriptor} {g : ℕ} :
    tableIsEmpty mem g = true ↔ ∀ i < tableSize, (mem g i).present = false := by
  simp [tableIsEmpty, List.all_eq_true]

/-- A tree in which the table under construction is not empty is complete. -/
theorem TreeInv.close {s : State} {g : ℕ} (h : TreeInv s (some g))
    (hne : tableIsEmpty s.mem g = false) : TreeInv s none := by
  refine { h with nonempty := ?_ }
  intro d page a ha _
  by_cases hag : a = g
  · subst hag
    by_contra hall
    push Not at hall
    have : tableIsEmpty s.mem a = true :=
      tableIsEmpty_iff.mpr fun i hi => by simpa using hall i hi
    rw [hne] at this
    exact absurd this (by simp)
  · exact h.nonempty d page a ha (by simpa using hag)

/-- The PML4 may be empty, so a tree whose only empty table is its root is one without any. -/
theorem TreeInv.close_root {s : State} (h : TreeInv s (some s.pml4)) : TreeInv s none := by
  refine { h with nonempty := ?_ }
  intro d page a ha _
  refine h.nonempty d page a ha ?_
  intro hroot
  have := (h.separated (d + 1) page 0 page a ha (by rw [← Option.some.inj hroot]; rfl)).1
  omega

section Unlink

variable {s : State} {d v f g : ℕ} (h : TreeInv s (some g)) (hf : s.node d v = some f)
  (hc : tree.child d (s.mem f (tree.idx d v)) = some g)
  (hempty : tableIsEmpty s.mem g = true)

/-- The entry that `freeTable` clears refers to no table any more. -/
theorem freeTable_written :
    tree.child d ((freeTable s f (tree.idx d v)).mem f (tree.idx d v)) = none := by
  apply child_of_not_present
  simp [freeTable, store_apply]

/-- Every entry but the one that `freeTable` clears is as before. -/
theorem freeTable_frame {i a j : ℕ} (haj : ¬ (a = f ∧ j = i)) :
    (freeTable s f i).mem a j = s.mem a j := by
  simp only [freeTable, store_apply, if_neg haj]

/-- `freeTable` leaves the page size bits of all entries as they were. -/
theorem freeTable_size (i a j : ℕ) :
    ((freeTable s f i).mem a j).pageSize = (s.mem a j).pageSize := by
  simp only [freeTable, store_apply]
  split
  · rename_i haj
    rw [haj.1, haj.2]
  · rfl

include h hf hc hempty in
/-- Every node of the tree other than the table that is taken out is as before. -/
theorem freeTable_node_other {d' w : ℕ} (hne : ¬ (d' = d + 1 ∧ tree.Agree (d + 1) w v)) :
    (freeTable s f (tree.idx d v)).node d' w = s.node d' w := by
  refine node_unlink h.separated hf (fun d'' w' a _ hai => freeTable_frame hai) hc ?_
    freeTable_written hne
  intro w'
  exact child_of_not_present (tableIsEmpty_iff.mp hempty _ (idx_lt _ _))

include h hf in
/-- After `freeTable` the path of each page below the entry ends where the table was taken
out. -/
theorem freeTable_node_gone {w : ℕ} (hagree : tree.Agree (d + 1) w v) :
    (freeTable s f (tree.idx d v)).node (d + 1) w = none :=
  (node_written h.separated hf (fun _ _ _ _ hai => freeTable_frame hai) hagree).trans
    freeTable_written

include h hf hc hempty in
/-- `freeTable` adds no table to the tree, and takes the freed one out of it. -/
theorem freeTable_sub (d' w a : ℕ) (ha : (freeTable s f (tree.idx d v)).node d' w = some a) :
    s.node d' w = some a ∧ a ≠ g := by
  by_cases hne : d' = d + 1 ∧ tree.Agree (d + 1) w v
  · obtain ⟨rfl, hagree⟩ := hne
    rw [freeTable_node_gone h hf hagree] at ha
    exact absurd ha (by simp)
  · have ha' := (freeTable_node_other h hf hc hempty hne).symm.trans ha
    refine ⟨ha', ?_⟩
    rintro rfl
    have hn : s.node (d + 1) v = some a := (node_succ hf).trans hc
    exact hne (h.separated d' w (d + 1) v a ha' hn |> fun ⟨h1, h2⟩ => ⟨h1, h1 ▸ h2⟩)

include h hf hc hempty in
/-- `freeTable` leaves the entries that refer to pages as they were, as the freed table has
none. -/
theorem freeTable_leaf (d' w : ℕ) (e : Descriptor) :
    Leaf (freeTable s f (tree.idx d v)) d' w e ↔ Leaf s d' w e := by
  by_cases hgone : d' = d + 1 ∧ tree.Agree (d + 1) w v
  · obtain ⟨rfl, hagree⟩ := hgone
    constructor
    · intro hleaf
      obtain ⟨a, ha, -⟩ := entry_eq_some.mp hleaf.entry_eq
      exact absurd ((freeTable_node_gone h hf hagree).symm.trans ha) (by simp)
    · intro hleaf
      have hn : s.node (d + 1) w = some g := (node_congr hagree).trans ((node_succ hf).trans hc)
      have he := hleaf.entry_eq.symm.trans (entry_of_node hn)
      have hp := hleaf.present
      rw [Option.some.inj he, tableIsEmpty_iff.mp hempty _ (idx_lt _ _)] at hp
      exact absurd hp (by simp)
  · by_cases hat : d' = d ∧ tree.Agree (d + 1) w v
    · obtain ⟨rfl, hagree⟩ := hat
      have hn : s.node d' w = some f := (node_congr (hagree.mono (by omega))).trans hf
      have hi : tree.idx d' w = tree.idx d' v := hagree d' (by omega)
      have hn' := (freeTable_node_other h hf hc hempty hgone).trans hn
      constructor
      · intro hleaf
        have he := hleaf.entry_eq.symm.trans (entry_of_node hn')
        have hp := hleaf.present
        rw [Option.some.inj he, hi] at hp
        simp [freeTable, store_apply] at hp
      · intro hleaf
        have he := hleaf.entry_eq.symm.trans (entry_of_node hn)
        have hp := hleaf.isPage
        rw [Option.some.inj he, hi, (child_eq_some.mp hc).2.1] at hp
        exact absurd hp (by simp)
    · have hsame : (freeTable s f (tree.idx d v)).entry d' w = s.entry d' w := by
        apply entry_eq_of_node (freeTable_node_other h hf hc hempty hgone)
        intro a ha
        apply freeTable_frame
        rintro ⟨rfl, hi⟩
        exact hat (agree_of_selects h.separated hf ha hi)
      constructor
      · intro hleaf
        exact ⟨hsame.symm.trans hleaf.entry_eq, hleaf.present, hleaf.isPage⟩
      · intro hleaf
        exact ⟨hsame.trans hleaf.entry_eq, hleaf.present, hleaf.isPage⟩

include h hf hc hempty in
/-- **Taking an empty table out** of the tree, and giving its frame back, changes no
translation; the table that referred to it may be empty now. -/
theorem freeTable_spec : Pruned v s (freeTable s f (tree.idx d v)) (some f) := by
  have hn : s.node (d + 1) v = some g := (node_succ hf).trans hc
  have hheld := h.held d v g hn
  have haddr : (s.mem f (tree.idx d v)).address.toNat = g := (child_eq_some.mp hc).2.2
  set s' := freeTable s f (tree.idx d v) with hs'
  have hpmm : s'.pmm = freePages s.pmm (g * pageSize) 1 := by
    rw [hs', freeTable, ← haddr]
  have hroot : s'.pml4 = s.pml4 := rfl
  obtain ⟨hwf, hpool, hheld'⟩ := freePages_frames h.pmm_wf le_rfl (f := g) (by
    intro k hk
    obtain rfl : k = 0 := by omega
    exact hheld)
  rw [← hpmm] at hwf hpool hheld'
  have hheld'' : ∀ x, Held s'.pmm x ↔ Held s.pmm x ∧ x ≠ g := by
    intro x
    rw [hheld']
    constructor <;> rintro ⟨h1, h2⟩ <;> exact ⟨h1, by omega⟩
  have hsub := freeTable_sub h hf hc hempty
  have htable : ∀ x, IsTable s' x ↔ IsTable s x ∧ x ≠ g := by
    intro x
    constructor
    · rintro ⟨d', w, hx⟩
      obtain ⟨h1, h2⟩ := hsub _ _ _ hx
      exact ⟨⟨d', w, h1⟩, h2⟩
    · rintro ⟨⟨d', w, hx⟩, hxg⟩
      refine ⟨d', w, (freeTable_node_other h hf hc hempty ?_).trans hx⟩
      rintro ⟨hdd, hagree⟩
      obtain rfl : d' = d := by omega
      exact hxg (Option.some.inj (hx.symm.trans ((node_congr hagree).trans hn)))
  refine ⟨⟨hwf, ?_, ?_, ?_, ?_, ?_, ?_⟩, ⟨hroot, rfl, rfl, hpool, ?_, ?_⟩,
    freeTable_leaf h hf hc hempty, fun d' w a ha => (hsub d' w a ha).1, freeTable_size _⟩
  · rw [firstFrame, hpool.start_eq, hpool.nBlocks_eq]
    exact h.pmm_fits
  · exact h.separated.mono fun d' w a ha => (hsub d' w a ha).1
  · intro d' w a ha
    obtain ⟨h1, h2⟩ := hsub _ _ _ ha
    exact (hheld'' a).mpr ⟨h.held d' w a h1, h2⟩
  · -- The PML4 is not the frame that is given back.
    rw [hroot]
    rintro ⟨hm, hbit⟩
    rw [hpool.managed_iff] at hm
    have hne : s.pml4 ≠ g := by
      rintro heq
      have := (h.separated (d + 1) v 0 v _ hn (heq ▸ rfl)).1
      omega
    refine h.root ⟨hm, ?_⟩
    by_contra hset
    have hroot' : Held s'.pmm s.pml4 :=
      (hheld'' _).mpr ⟨⟨hm, by simpa using hset⟩, hne⟩
    exact hroot'.not_avail ⟨hroot'.1, hbit⟩
  · intro d' w e he hce
    obtain ⟨a, ha, rfl⟩ := entry_eq_some.mp he
    by_cases haj : a = f ∧ tree.idx d' w = tree.idx d v
    · obtain ⟨rfl, hi⟩ := haj
      rw [hi] at hce
      refine absurd (child_of_not_present ?_) hce
      simp [hs', freeTable, store_apply]
    · rw [hs', freeTable_frame haj] at hce ⊢
      exact h.permissive d' w _ (entry_of_node (hsub _ _ _ ha).1) hce
  · intro d' w a ha hhole
    obtain ⟨h1, h2⟩ := hsub _ _ _ ha
    obtain ⟨i, hi, hp⟩ := h.nonempty d' w a h1 (by simpa using h2)
    refine ⟨i, hi, ?_⟩
    rw [hs', freeTable_frame]
    · exact hp
    · rintro ⟨rfl, -⟩
      exact hhole rfl
  · intro x
    rw [hheld'', htable]
    constructor
    · rintro ⟨⟨h1, h2⟩, h3⟩
      exact ⟨h1, fun ht => h3 ⟨ht, h2⟩⟩
    · rintro ⟨h1, h2⟩
      have hxg : x ≠ g := by
        rintro rfl
        exact h2 ⟨d, v, hn⟩
      exact ⟨⟨h1, hxg⟩, fun ht => h2 ht.1⟩
  · intro d' w hw
    apply freeTable_node_other h hf hc hempty
    rintro ⟨-, hagree⟩
    exact hw v rfl (hagree.mono (by omega))

end Unlink

/-- The frees of one iteration, from a page directory pointer table on. -/
def prunePDP (s : State) (pdp pml4Index : ℕ) : State :=
  if tableIsEmpty s.mem pdp then freeTable s s.pml4 pml4Index else s

/-- The frees of one iteration, from a page directory on. -/
def prunePD (s : State) (pd pdp pml4Index pdpIndex : ℕ) : State :=
  if tableIsEmpty s.mem pd then prunePDP (freeTable s pdp pdpIndex) pdp pml4Index else s

/-- The frees of one iteration, from a page table on. -/
def prunePT (s : State) (pt pd pdp pml4Index pdpIndex pdIndex : ℕ) : State :=
  if tableIsEmpty s.mem pt then prunePD (freeTable s pd pdIndex) pd pdp pml4Index pdpIndex else s

section Prune

variable {s : State} {v pdp pd pt : ℕ}

/-- The page directory pointer table is taken out if it is empty. -/
theorem prunePDP_spec (h : TreeInv s (some pdp)) (h1 : s.node 1 v = some pdp) :
    Pruned v s (prunePDP s pdp (tree.idx 0 v)) none := by
  unfold prunePDP
  split
  · rename_i hempty
    have hf : s.node 0 v = some s.pml4 := rfl
    have hspec := freeTable_spec h hf ((node_succ hf).symm.trans h1) hempty
    exact { hspec with inv := hspec.inv.close_root }
  · rename_i hne
    exact .refl (h.close (by simpa using hne)) v

/-- The page directory is taken out if it is empty, and so on upwards. -/
theorem prunePD_spec (h : TreeInv s (some pd)) (h1 : s.node 1 v = some pdp)
    (h2 : s.node 2 v = some pd) :
    Pruned v s (prunePD s pd pdp (tree.idx 0 v) (tree.idx 1 v)) none := by
  unfold prunePD
  split
  · rename_i hempty
    have hc := (node_succ h1).symm.trans h2
    have hspec := freeTable_spec h h1 hc hempty
    refine hspec.trans (prunePDP_spec hspec.inv ?_)
    exact (freeTable_node_other h h1 hc hempty (by omega)).trans h1
  · rename_i hne
    exact .refl (h.close (by simpa using hne)) v

/-- The page table is taken out if it is empty, and so on upwards. -/
theorem prunePT_spec (h : TreeInv s (some pt)) (h1 : s.node 1 v = some pdp)
    (h2 : s.node 2 v = some pd) (h3 : s.node 3 v = some pt) :
    Pruned v s (prunePT s pt pd pdp (tree.idx 0 v) (tree.idx 1 v) (tree.idx 2 v)) none := by
  unfold prunePT
  split
  · rename_i hempty
    have hc := (node_succ h2).symm.trans h3
    have hspec := freeTable_spec h h2 hc hempty
    refine hspec.trans (prunePD_spec hspec.inv ?_ ?_)
    · exact (freeTable_node_other h h2 hc hempty (by omega)).trans h1
    · exact (freeTable_node_other h h2 hc hempty (by omega)).trans h2
  · rename_i hne
    exact .refl (h.close (by simpa using hne)) v

end Prune

/-! ### Clearing pages -/

/-- Physical memory after the entries `[index, index + n)` of a table have been cleared. -/
def cleared (mem : ℕ → ℕ → Descriptor) (g index n : ℕ) : ℕ → ℕ → Descriptor :=
  fun a i => if a = g ∧ index ≤ i ∧ i < index + n then { mem a i with present := false }
    else mem a i

/-- **The loops of `Paging_unmap` over one table** clear every entry, if all are present. -/
theorem clearPages_eq (size g index n virt : ℕ) (mem : ℕ → ℕ → Descriptor)
    (hvirt : virt < 2 ^ 64) (hall : ∀ j < n, (mem g (index + j)).present = true) :
    clearPages size g index n virt mem =
      .ok (cleared mem g index n, (virt + n * size) % 2 ^ 64) := by
  induction n generalizing index virt mem with
  | zero =>
      have hclear : cleared mem g index 0 = mem := by
        funext a i
        rw [cleared, if_neg (by omega)]
      rw [clearPages, hclear, Nat.zero_mul, Nat.add_zero, Nat.mod_eq_of_lt hvirt]
  | succ n ih =>
      have hp : (mem g index).present = true := hall 0 (by omega)
      simp only [clearPages, hp, Bool.not_true, Bool.false_eq_true, if_false]
      rw [ih (index + 1) (wadd virt size) _ (Nat.mod_lt _ (by decide))]
      · have hiter : (wadd virt size + n * size) % 2 ^ 64 = (virt + (n + 1) * size) % 2 ^ 64 := by
          rw [wadd, Nat.mod_add_mod]
          congr 1
          ring
        rw [hiter]
        congr 2
        funext a i
        simp only [cleared, store_apply]
        by_cases hi : a = g ∧ i = index
        · obtain ⟨rfl, rfl⟩ := hi
          rw [if_neg (by omega), if_pos ⟨rfl, rfl⟩, if_pos ⟨rfl, by omega, by omega⟩]
        · rw [if_neg hi]
          by_cases hai : a = g ∧ index + 1 ≤ i ∧ i < index + 1 + n
          · rw [if_pos hai, if_pos ⟨hai.1, by omega, by omega⟩]
          · rw [if_neg hai, if_neg (by omega)]
      · intro j hj
        rw [store_apply, if_neg (by omega)]
        have := hall (j + 1) (by omega)
        rwa [show index + (j + 1) = index + 1 + j by omega] at this

/-- A block of entries is cleared, and the tables that are empty then are taken out. -/
structure BlockCleared (s s' : State) (d v k : ℕ) (hole : Option ℕ) : Prop where
  inv : TreeInv s' hole
  along : Along (· = v) s s'
  page_new : ∀ w < pageCount, InBlock d v k w → s'.page w = none
  leaf_old : ∀ w < pageCount, ¬ InBlock d v k w → ∀ d' e, Leaf s' d' w e ↔ Leaf s d' w e
  sub : ∀ d' w a, s'.node d' w = some a → s.node d' w = some a
  size : ∀ a i, (s'.mem a i).pageSize = (s.mem a i).pageSize

/-- A block that is cleared before tables are taken out of its path is cleared afterwards. -/
theorem BlockCleared.prune {s t u : State} {d v k : ℕ} {hole hole' : Option ℕ}
    (h : BlockCleared s t d v k hole) (hp : Pruned v t u hole') :
    BlockCleared s u d v k hole' where
  inv := hp.inv
  along := h.along.trans hp.along
  page_new := fun w hw hin =>
    (page_congr h.inv hp.inv fun d' e => hp.leaf d' w e).trans (h.page_new w hw hin)
  leaf_old := fun w hw hout d' e => (hp.leaf d' w e).trans (h.leaf_old w hw hout d' e)
  sub := fun d' w a ha => h.sub d' w a (hp.sub d' w a ha)
  size := fun a i => (hp.size a i).trans (h.size a i)

/-- **Clearing a block of entries of one table**, all of them entries of pages. -/
theorem clearPages_spec {s : State} (h : TreeInv s none) {d v g k : ℕ} (hd1 : 1 ≤ d)
    (hv : v < pageCount) (hg : s.node d v = some g) (hk : tree.idx d v + k ≤ tableSize)
    (hall : ∀ w < pageCount, InBlock d v k w → ∃ e, Leaf s d w e) (size : ℕ) {virt : ℕ}
    (hvirt : virt < 2 ^ 64) :
    ∃ mem, clearPages size g (tree.idx d v) k virt s.mem =
        .ok (mem, (virt + k * size) % 2 ^ 64) ∧
      (∀ d' w, ({ s with mem := mem } : State).node d' w = s.node d' w) ∧
      BlockCleared s { s with mem := mem } d v k (some g) := by
  have hd := node_of_four_le hg
  -- The entries of the block are those of pages, whose entry is in this table.
  have hentry : ∀ j < k, (s.mem g (tree.idx d v + j)).present = true ∧
      isPage d (s.mem g (tree.idx d v + j)) = true := by
    intro j hj
    obtain ⟨c, rfl⟩ : ∃ c, d = c + 1 := ⟨d - 1, by omega⟩
    obtain ⟨w, hw, hagree, hidx⟩ := exists_page_at (show c ≤ 2 by omega) hv
      (show tree.idx (c + 1) v + j < tableSize by omega)
    obtain ⟨e, hleaf⟩ := hall w hw
      ((inBlock_iff hd1 hd hv hw hk).mpr ⟨hagree, by omega, by omega⟩)
    have he := hleaf.entry_eq.symm.trans (entry_of_node ((node_congr hagree).trans hg))
    rw [hidx] at he
    rw [← Option.some.inj he]
    exact ⟨hleaf.present, hleaf.isPage⟩
  set s' : State := { s with mem := cleared s.mem g (tree.idx d v) k } with hs'
  set I : ℕ → Prop := fun i => tree.idx d v ≤ i ∧ i < tree.idx d v + k with hI
  have hnew : ∀ i, I i → (s'.mem g i).present = false := by
    intro i hi
    change (cleared s.mem g (tree.idx d v) k g i).present = false
    rw [cleared, if_pos ⟨rfl, hi⟩]
  have hr : Rewrites s s' d g I := by
    refine ⟨rfl, rfl, rfl, rfl, ?_, ?_, ?_⟩
    · intro a i hai
      change cleared s.mem g (tree.idx d v) k a i = _
      rw [cleared, if_neg hai]
    · intro i hi
      have := (hentry (i - tree.idx d v) (by omega)).2
      rw [show tree.idx d v + (i - tree.idx d v) = i by omega] at this
      exact child_of_isPage this
    · intro i hi
      exact child_of_not_present (hnew i hi)
  have hinv : TreeInv s' (some g) := by
    apply hr.treeInv h hg
    intro d' w a _ hhole hag
    rcases hag with hag | rfl
    · exact absurd hag (by simp)
    · exact absurd rfl hhole
  refine ⟨_, clearPages_eq size g _ k virt s.mem hvirt (fun j hj => (hentry j hj).1),
    hr.node_eq h hg, hinv, hr.along h hg, ?_, ?_, ?_, ?_⟩
  · intro w hw hin
    have hb := (inBlock_iff hd1 hd hv hw hk).mp hin
    have hn : s'.node d w = some g := ((hr.node_eq h hg d w).trans (node_congr hb.1)).trans hg
    exact page_none_of_not_present hinv hn (hnew _ hb.2)
  · intro w hw hout d' e
    apply hr.leaf_old h hg
    rintro ⟨-, hagree, hi⟩
    exact hout ((inBlock_iff hd1 hd hv hw hk).mpr ⟨hagree, hi⟩)
  · intro d' w a ha
    exact (hr.node_eq h hg d' w).symm.trans ha
  · intro a i
    change (cleared s.mem g (tree.idx d v) k a i).pageSize = _
    rw [cleared]
    split <;> rfl

/-! ### One iteration -/

/-- The first entry of every page directory (pointer) table on the path of a page has the
page size bit of the entry that the page selects. -/
def Uniform (s : State) (v : ℕ) : Prop :=
  ∀ d g, 1 ≤ d → d ≤ 2 → s.node d v = some g →
    (s.mem g 0).pageSize = (s.mem g (tree.idx d v)).pageSize

/-- The tables of a page, and the page sizes of their first entries and of the entries that
the page selects. -/
theorem uniform_of_node {s : State} {v g₁ g₂ : ℕ} (h₁ : s.node 1 v = some g₁)
    (h₂ : s.node 2 v = some g₂)
    (hs₁ : (s.mem g₁ 0).pageSize = (s.mem g₁ (tree.idx 1 v)).pageSize)
    (hs₂ : (s.mem g₂ 0).pageSize = (s.mem g₂ (tree.idx 2 v)).pageSize) : Uniform s v := by
  intro d g hd1 hd2 hg
  obtain rfl | rfl : d = 1 ∨ d = 2 := by omega
  · obtain rfl := Option.some.inj (h₁.symm.trans hg)
    exact hs₁
  · obtain rfl := Option.some.inj (h₂.symm.trans hg)
    exact hs₂

/-- Getting a table that is there returns its frame, and only shows it in the window of its
depth. -/
theorem getTable_present {s : State} {d v f g : ℕ} (hf : s.node d v = some f)
    (hg : s.node (d + 1) v = some g) (alloc : Bool) :
    getTable (d + 1) s f (tree.idx d v) alloc = .ok (g, s.mapDynamic (d + 1) g) := by
  obtain ⟨hp, -, haddr⟩ := child_eq_some.mp ((node_succ hf).symm.trans hg)
  simp only [getTable, hp, if_true, haddr]

/-- What a window shows is no part of the tree, so showing a table takes nothing out of it. -/
theorem Pruned.mapDynamic {s : State} {hole : Option ℕ} (h : TreeInv s hole) (v d f : ℕ) :
    Pruned v s (s.mapDynamic d f) hole := by
  refine ⟨h.mapDynamic d f, ⟨by simp, by simp, by simp, ?_, ?_, ?_⟩, ?_, ?_, by simp⟩
  · rw [mapDynamic_pmm]
    exact .refl _
  · intro x
    simp only [IsTable, State.node, mapDynamic_mem, mapDynamic_pml4, mapDynamic_pmm]
  · intro d' w _
    simp only [State.node, mapDynamic_mem, mapDynamic_pml4]
  · intro d' w e
    constructor <;> rintro ⟨h1, h2, h3⟩ <;> refine ⟨?_, h2, h3⟩ <;>
      simpa only [State.entry, mapDynamic_mem, mapDynamic_pml4] using h1
  · intro d' w a ha
    simpa only [State.node, mapDynamic_mem, mapDynamic_pml4] using ha

/-- The nodes of the tree do not depend on what the windows show. -/
theorem mapDynamic_node {s : State} (d f d' w : ℕ) :
    (s.mapDynamic d f).node d' w = s.node d' w := by
  simp only [State.node, mapDynamic_mem, mapDynamic_pml4]

/-- Tables may be taken out of a path before a block of it is cleared. -/
theorem BlockCleared.of_pruned {s t u : State} {d v k : ℕ} {hole : Option ℕ}
    (hp : Pruned v s t none) (h : BlockCleared t u d v k hole) : BlockCleared s u d v k hole where
  inv := h.inv
  along := hp.along.trans h.along
  page_new := h.page_new
  leaf_old := fun w hw hout d' e => (h.leaf_old w hw hout d' e).trans (hp.leaf d' w e)
  sub := fun d' w a ha => hp.sub d' w a (h.sub d' w a ha)
  size := fun a i => (h.size a i).trans (hp.size a i)

/-- Only windows have been set between two states: the tables are the same. -/
structure SameTables (s t : State) (v : ℕ) : Prop where
  pruned : Pruned v s t none
  node : ∀ d w, t.node d w = s.node d w
  mem : t.mem = s.mem

/-- Showing a table of the path in its window leaves the tables the same. -/
theorem SameTables.mapDynamic {s t : State} {v : ℕ} (ht : SameTables s t v) (d f : ℕ) :
    SameTables s (t.mapDynamic d f) v where
  pruned := ht.pruned.trans (.mapDynamic ht.pruned.inv v d f)
  node := fun d' w => (mapDynamic_node d f d' w).trans (ht.node d' w)
  mem := (mapDynamic_mem t d f).trans ht.mem

/-- The first entry of the table that maps a page has the page size bit of a page. -/
theorem Uniform.pageSize_eq_true {s : State} {v d g : ℕ} {e : Descriptor} (hu : Uniform s v)
    (hd1 : 1 ≤ d) (hd : d ≤ 2) (hleaf : Leaf s d v e) (hg : s.node d v = some g) :
    (s.mem g 0).pageSize = true := by
  have he : s.mem g (tree.idx d v) = e :=
    Option.some.inj ((entry_of_node hg).symm.trans hleaf.entry_eq)
  have hpage := hleaf.isPage
  rw [hu d g hd1 hd hg, he]
  obtain rfl | rfl : d = 1 ∨ d = 2 := by omega
  all_goals simpa [isPage] using hpage

/-- The first entry of a table above the one that maps a page has the page size bit of a
table. -/
theorem Uniform.pageSize_eq_false {s : State} {v d f g : ℕ} (hu : Uniform s v) (hd1 : 1 ≤ d)
    (hd : d ≤ 2) (hf : s.node d v = some f) (hg : s.node (d + 1) v = some g) :
    (s.mem f 0).pageSize = false := by
  have hchild := (child_eq_some.mp ((node_succ hf).symm.trans hg)).2.1
  rw [hu d f hd1 hd hf]
  obtain rfl | rfl : d = 1 ∨ d = 2 := by omega
  all_goals simpa [isPage] using hchild

/-- **Clearing a block of entries once the windows of its path are set**, all of them entries
of pages before. -/
theorem SameTables.clearPages {s t : State} {v d g k : ℕ} (ht : SameTables s t v)
    (hd1 : 1 ≤ d) (hv : v < pageCount) (hg : s.node d v = some g)
    (hk : tree.idx d v + k ≤ tableSize)
    (hall : ∀ w < pageCount, InBlock d v k w → ∃ e, Leaf s d w e) {virt : ℕ}
    (hvirt : virt < 2 ^ 64) :
    ∃ mem, clearPages (span d * pageSize) g (tree.idx d v) k virt s.mem =
        .ok (mem, (virt + k * (span d * pageSize)) % 2 ^ 64) ∧
      (∀ d' w, ({ t with mem := mem } : State).node d' w = s.node d' w) ∧
      BlockCleared s { t with mem := mem } d v k (some g) := by
  have hallt : ∀ w < pageCount, InBlock d v k w → ∃ e, Leaf t d w e := by
    intro w hw hin
    obtain ⟨e, hl⟩ := hall w hw hin
    exact ⟨e, (ht.pruned.leaf _ _ _).mpr hl⟩
  obtain ⟨mem, hclear, hnode, hblock⟩ := clearPages_spec ht.pruned.inv hd1 hv
    ((ht.node d v).trans hg) hk hallt (span d * pageSize) hvirt
  rw [ht.mem] at hclear
  exact ⟨mem, hclear, fun d' w => (hnode d' w).trans (ht.node d' w), .of_pruned ht.pruned hblock⟩

/-- **One iteration of `Paging_unmap`** at a page that is mapped by an entry of depth `d`, as
the whole block is: if the first entries of the tables show the right page sizes, exactly
the block is cleared, and only tables are used as tables. -/
theorem unmapStep_spec {s : State} (h : TreeInv s none) {virt r v d k : ℕ}
    (hvirt : virt < 2 ^ 64) (hv : v = pageNumber virt) (hlt : r * pageSize < 2 ^ 64)
    (hd1 : 1 ≤ d) (hk : k = stepCount d v r) (hk1 : 1 ≤ k) (hu : Uniform s v)
    (hall : ∀ w < pageCount, InBlock d v k w → ∃ e, Leaf s d w e) :
    ∃ s' tables, unmapStep s virt r =
        .ok (s', (virt + k * (span d * pageSize)) % 2 ^ 64, r - k * span d, tables) ∧
      (∀ f ∈ tables, IsTable s f) ∧ BlockCleared s s' d v k none := by
  have hvlt : v < pageCount := hv ▸ pageNumber_lt virt
  have hkle : tree.idx d v + k ≤ tableSize := by
    have := idx_lt d v
    rw [hk, stepCount]
    omega
  obtain ⟨e, hleaf⟩ := hall v hvlt ⟨le_rfl, by omega⟩
  obtain ⟨g, hg, -⟩ := entry_eq_some.mp hleaf.entry_eq
  have hd := node_of_four_le hg
  obtain ⟨pdp, h1⟩ := node_some_of_le hg hd1
  have ht1 : IsTable s pdp := ⟨0, v, h1⟩
  simp only [unmapStep, getIndexPML4_eq, getIndexPageDirectoryPointerTable_eq,
    getIndexPageDirectory_eq, getIndexPageTable_eq, ← hv, getPDP, getPD, getPT,
    getTable_present (d := 0) rfl h1, bind, Except.bind, mapDynamic_mem]
  have hs₁ : SameTables s (s.mapDynamic (0 + 1) pdp) v :=
    ⟨.mapDynamic h v _ _, mapDynamic_node _ _, mapDynamic_mem _ _ _⟩
  have hs₁n := hs₁.node
  obtain rfl | hd2 : d = 1 ∨ 2 ≤ d := by omega
  · -- A block of pages of 1 GB.
    have hps := hu.pageSize_eq_true le_rfl (by omega) hleaf h1
    obtain ⟨mem, hclear, hnode, hblock⟩ := hs₁.clearPages hd1 hvlt h1 hkle hall hvirt
    have hprune := prunePDP_spec (v := v) hblock.inv ((hnode 1 v).trans h1)
    refine ⟨_, [pdp], ?_, by simpa using ht1, hblock.prune hprune⟩
    simp only [hps, if_true, size1GB_eq, mappable_eq hlt, ← hk, hclear, pages_eq, prunePDP]
  obtain ⟨pd, h2⟩ := node_some_of_le hg hd2
  have ht2 : IsTable s pd := ⟨1, v, h2⟩
  simp only [hu.pageSize_eq_false le_rfl (by omega) h1 h2, Bool.false_eq_true, if_false,
    getTable_present ((hs₁n _ _).trans h1) ((hs₁n _ _).trans h2), mapDynamic_mem]
  have hs₂ := hs₁.mapDynamic (1 + 1) pd
  have hs₂n := hs₂.node
  obtain rfl | rfl : d = 2 ∨ d = 3 := by omega
  · -- A block of pages of 2 MB.
    have hps := hu.pageSize_eq_true (by omega) le_rfl hleaf h2
    obtain ⟨mem, hclear, hnode, hblock⟩ := hs₂.clearPages hd1 hvlt h2 hkle hall hvirt
    have hprune := prunePD_spec (v := v) hblock.inv ((hnode 1 v).trans h1)
      ((hnode 2 v).trans h2)
    refine ⟨_, [pdp, pd], ?_, by simpa using ⟨ht1, ht2⟩, hblock.prune hprune⟩
    simp only [hps, if_true, size2MB_eq, mappable_eq hlt, ← hk, hclear, pages_eq, prunePD,
      prunePDP]
  · -- A block of pages of 4 KB.
    have ht3 : IsTable s g := ⟨2, v, hg⟩
    have hcount : min (tableSize - tree.idx 3 v) r = k := by
      rw [hk, stepCount]
      simp [span]
    have hsize : span 3 * pageSize = pageSize := by simp [span]
    have hs₃ := hs₂.mapDynamic (2 + 1) g
    obtain ⟨mem, hclear, hnode, hblock⟩ := hs₃.clearPages hd1 hvlt hg hkle hall hvirt
    rw [hsize] at hclear
    have hprune := prunePT_spec (v := v) hblock.inv ((hnode 1 v).trans h1)
      ((hnode 2 v).trans h2) ((hnode 3 v).trans hg)
    refine ⟨_, [pdp, pd, g], ?_, by simpa using ⟨ht1, ht2, ht3⟩, hblock.prune hprune⟩
    simp only [hu.pageSize_eq_false (by omega) le_rfl h2 hg, Bool.false_eq_true, if_false,
      hcount, getTable_present ((hs₂n _ _).trans h2) ((hs₂n _ _).trans hg), mapDynamic_mem,
      hclear, prunePT, prunePD, prunePDP, hsize]
    rw [span, Nat.sub_self, Nat.pow_zero, Nat.mul_one]

/-! ### The loop -/

/-- The call unmaps exactly the pages `[v, v + n)`, and uses only tables as tables. -/
structure Unmaps (s s' : State) (v n : ℕ) : Prop where
  inv : TreeInv s' none
  along : Along (fun u => v ≤ u ∧ u < v + n) s s'
  unmapped : ∀ i < n, s'.page (v + i) = none
  outside : ∀ w < pageCount, ¬ (v ≤ w ∧ w < v + n) → ∀ d e, Leaf s' d w e ↔ Leaf s d w e
  sub : ∀ d w a, s'.node d w = some a → s.node d w = some a
  size : ∀ a i, (s'.mem a i).pageSize = (s.mem a i).pageSize

/-- A range is mapped by the largest pages that fit. -/
def MappedGreedily (s : State) (v n : ℕ) : Prop :=
  ∀ i < n, ∃ e, Leaf s (pageDepth s.has1GBPages v n (v + i)) (v + i) e

/-- Page sizes that are read correctly stay so for the pages that are still mapped. -/
theorem Uniform.of_cleared {s s' : State} {d v k w : ℕ} (h : BlockCleared s s' d v k none)
    (hu : Uniform s w) : Uniform s' w := by
  intro d' g hd1 hd2 hg
  rw [h.size, h.size]
  exact hu d' g hd1 hd2 (h.sub d' w g hg)

/-- No page of an empty range is unmapped. -/
theorem Unmaps.nil {s : State} (h : TreeInv s none) (v : ℕ) : Unmaps s s v 0 where
  inv := h
  along := .refl _ _
  unmapped := fun i hi => absurd hi (Nat.not_lt_zero i)
  outside := fun _ _ _ _ _ => Iff.rfl
  sub := fun _ _ _ ha => ha
  size := fun _ _ => rfl

/-- A block that is cleared in front of a range that is unmapped afterwards makes one range
with it. -/
theorem Unmaps.cons {s t u : State} {d v k r : ℕ}
    (hun : Unmaps t u (v + k * span d) (r - k * span d)) (h : BlockCleared s t d v k none)
    (hv0 : v % span d = 0)
    (hpos : 1 ≤ k * span d) (hle : k * span d ≤ r) (hpg : v + r ≤ pageCount) :
    Unmaps s u v r := by
  refine ⟨hun.inv, ?_, ?_, ?_, ?_, ?_⟩
  · refine (h.along.mono ?_).trans (hun.along.mono ?_)
    · rintro w rfl
      exact ⟨le_rfl, by omega⟩
    · rintro w ⟨h1, h2⟩
      omega
  · intro i hi
    by_cases hik : i < k * span d
    · rw [page_congr h.inv hun.inv (hun.outside _ (by omega) (by omega))]
      exact h.page_new _ (by omega) ((inBlock_of_aligned hv0).mpr ⟨by omega, by omega⟩)
    · have := hun.unmapped (i - k * span d) (by omega)
      rwa [show v + k * span d + (i - k * span d) = v + i by omega] at this
  · intro w hw hout d' e
    rw [hun.outside w hw (by omega) d' e]
    apply h.leaf_old w hw
    rw [inBlock_of_aligned hv0]
    omega
  · intro d' w a ha
    exact h.sub d' w a (hun.sub d' w a ha)
  · intro a i
    rw [hun.size, h.size]

/-- The first block of a range that is mapped by the largest pages that fit consists of entries
of pages. -/
theorem MappedGreedily.block {s : State} {v r d k : ℕ} (hmap : MappedGreedily s v r)
    (hd : d = stepDepth s.has1GBPages (v * pageSize) r) (hk : k = stepCount d v r)
    (hv0 : v % span d = 0) :
    ∀ w < pageCount, InBlock d v k w → ∃ e, Leaf s d w e := by
  intro w _ hin
  rw [inBlock_of_aligned hv0] at hin
  have hle := stepCount_le hk
  have := hmap (w - v) (by omega)
  rwa [show v + (w - v) = w by omega, pageDepth_block hd hk rfl hv0 hin.1 hin.2] at this

/-- Behind its first block, once this is cleared, such a range is mapped by the largest pages
that fit as well. -/
theorem MappedGreedily.rest {s t : State} {v r d k : ℕ} (hmap : MappedGreedily s v r)
    (h : BlockCleared s t d v k none) (hd : d = stepDepth s.has1GBPages (v * pageSize) r)
    (hk : k = stepCount d v r) (hv0 : v % span d = 0) (hpg : v + r ≤ pageCount) :
    MappedGreedily t (v + k * span d) (r - k * span d) := by
  intro i hi
  have hle := stepCount_le hk
  obtain ⟨e, hl⟩ := hmap (k * span d + i) (by omega)
  rw [← add_assoc, pageDepth_rest hd hk rfl hv0 (by omega)] at hl
  rw [h.along.has1GB_eq]
  exact ⟨e, (h.leaf_old _ (by omega) (by rw [inBlock_of_aligned hv0]; omega) _ _).mpr hl⟩

/-- **The loop of `Paging_unmap`** on a range that is mapped by the largest pages that fit,
when the first entries of the tables show the right page sizes: it ends, and exactly the
pages of the range are unmapped. -/
theorem unmapLoop_exact (fuel : ℕ) {s : State} {virt v r : ℕ} (used : List ℕ) (hfuel : r ≤ fuel)
    (h : TreeInv s none) (hvirt : virt < 2 ^ 64) (hal : virt % pageSize = 0)
    (hv : 0 < r → v = pageNumber virt) (hpg : v + r ≤ pageCount) (hmap : MappedGreedily s v r)
    (hu : ∀ i < r, Uniform s (v + i)) :
    ∃ s' tables, unmapLoop fuel s virt r used = .ok (s', used ++ tables) ∧
      (∀ f ∈ tables, IsTable s f) ∧ Unmaps s s' v r := by
  induction fuel generalizing s virt v r used with
  | zero =>
      obtain rfl : r = 0 := by omega
      exact ⟨s, [], by rw [unmapLoop]; simp, by simp, .nil h v⟩
  | succ fuel ih =>
      by_cases hr : r = 0
      · subst hr
        exact ⟨s, [], by rw [unmapLoop]; simp, by simp, .nil h v⟩
      have hpos : 0 < r := by omega
      -- The depth that `Paging_map` chose at this page, as if it were mapped to itself.
      set d := stepDepth s.has1GBPages (v * pageSize) r with hd
      set k := stepCount d v r with hk
      obtain ⟨hd1, hd3⟩ := stepDepth_bounds s.has1GBPages (v * pageSize) r
      rw [← hd] at hd1 hd3
      obtain ⟨hfit, hvd⟩ := stepDepth_fits (b := s.has1GBPages) hpos (Nat.mul_mod_left v pageSize)
      rw [← hd, Nat.mul_mod_mul_right] at hvd
      have hv0 : v % span d = 0 := by
        simp only [pageSize] at hvd
        omega
      have hk1 : 1 ≤ k := stepCount_pos hfit
      have hle := stepCount_le hk
      have hc1 : 1 ≤ k * span d := Nat.mul_pos hk1 (by unfold span; positivity)
      have hrlt : r * pageSize < 2 ^ 64 := by
        simp only [pageSize, pageCount] at *
        omega
      obtain ⟨s₁, t₁, hstep, hused₁, hblock⟩ := unmapStep_spec h hvirt (hv hpos) hrlt hd1 hk hk1
        (by simpa using hu 0 hpos) (hmap.block hd hk hv0)
      have hu₁ : ∀ i < r - k * span d, Uniform s₁ (v + k * span d + i) := by
        intro i hi
        have := hu (k * span d + i) (by omega)
        rw [← add_assoc] at this
        exact this.of_cleared hblock
      have hal₁ : (virt + k * (span d * pageSize)) % 2 ^ 64 % pageSize = 0 := by
        rw [← mul_assoc]
        simp only [pageSize] at *
        omega
      have hv₁ : 0 < r - k * span d →
          v + k * span d = pageNumber ((virt + k * (span d * pageSize)) % 2 ^ 64) := by
        intro hrc
        have := hv hpos
        rw [← mul_assoc, pageNumber_add hal (by omega), this]
      obtain ⟨s', t', hok, hused', hun⟩ := ih (used ++ t₁) (by omega) hblock.inv
        (Nat.mod_lt _ (by decide)) hal₁ hv₁ (by omega) (hmap.rest hblock hd hk hv0 hpg) hu₁
      refine ⟨s', t₁ ++ t', ?_, ?_, hun.cons hblock hv0 hc1 hle hpg⟩
      · rw [unmapLoop, if_neg hr]
        simp only [hstep, bind, Except.bind]
        rw [hok, List.append_assoc]
      · intro f hf
        rcases List.mem_append.mp hf with hf | hf
        · exact hused₁ f hf
        · obtain ⟨d', w, hw⟩ := hused' f hf
          exact ⟨d', w, hblock.sub _ _ _ hw⟩

end MugOS.Paging
