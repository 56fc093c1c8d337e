import MugOS.PMMBits
import Mathlib.Order.Bounds.Basic

/-!
# The First-Fit Search of the Physical Memory Manager

`allocate_firstFit` reads the last word of the bitmap up to bit `nBlocks % 64`. That is the
number of its blocks unless `nBlocks` is a multiple of 64: then the last word is full of blocks,
and none of them is read. `countFreeBlocks` has a case for this, the search does not.

## Main results

* `allocateFirstFit_eq`: the search is exact for the blocks that it looks at.
* `first_fit_iff`: it is exact for all blocks if and only if it need not look at the last word
  when that is full of blocks.
* `first_fit_skips_last`: an allocator whose 64 blocks are all free, and that has none to give.
-/

namespace MugOS.PMM

/-- The blocks `s ≤ b < s + nPages` are there, and they are free. -/
def Fits (a : BitmapAllocator) (nPages s : ℕ) : Prop :=
  s + nPages ≤ a.nBlocks ∧ ∀ b, s ≤ b → b < s + nPages → a.bit b = false

/-- The answer `r` to a request for `nPages` pages is that of first fit: the address of the first
run of free blocks that is long enough, or `NULL` if there is no such run. -/
def IsFirstFit (a : BitmapAllocator) (nPages r : ℕ) : Prop :=
  (r = 0 ∧ ∀ s, ¬ Fits a nPages s) ∨
    ∃ s, IsLeast {s | Fits a nPages s} s ∧ r = a.start + 4096 * s

/-- If there is a run of free blocks that is long enough, then there is one that does not reach
into a last word that is full of blocks. -/
def FitsEarly (a : BitmapAllocator) (nPages : ℕ) : Prop :=
  a.nBlocks % 64 = 0 → (∃ s, Fits a nPages s) → ∃ s, Fits a nPages s ∧ s + nPages ≤ a.nBlocks - 64

/-- An allocator whose blocks are pages of the address space, with any bitmap. -/
structure BitmapAllocator.Placed (a : BitmapAllocator) : Prop extends a.Shaped where
  nBlocks_pos : 1 ≤ a.nBlocks
  start_ne_zero : a.start ≠ 0
  fits : a.start + 4096 * a.nBlocks < 2 ^ 64

/-- The search looks at all blocks, but for the last word if their number is a multiple of
64. -/
theorem BitmapAllocator.Placed.scannedBlocks_eq {a : BitmapAllocator} (ha : a.Placed) :
    scannedBlocks a = if a.nBlocks % 64 = 0 then a.nBlocks - 64 else a.nBlocks := by
  have hlen := ha.bitmapLength_eq
  have hpos := ha.nBlocks_pos
  unfold scannedBlocks
  split <;> omega

/-- **The search is exact for the blocks that it looks at.** -/
theorem allocateFirstFit_eq {a : BitmapAllocator} (ha : a.Placed) {nPages : ℕ} (hn : 1 ≤ nPages) :
    ((allocateFirstFit a nPages).1 = 0 ∧
      ∀ s, Fits a nPages s → scannedBlocks a < s + nPages) ∨
    ∃ s, IsLeast {s | Fits a nPages s} s ∧ s + nPages ≤ scannedBlocks a ∧
      (allocateFirstFit a nPages).1 = a.start + 4096 * s := by
  have hn0 : nPages ≠ 0 := by omega
  have hle := ha.toShaped.scannedBlocks_le ha.nBlocks_pos
  obtain ⟨hfound, hnone⟩ := searchFirstFit_spec (a := a) hn0
  rw [allocateFirstFit, if_neg hn0]
  cases hsearch : searchFirstFit a nPages with
  | inl e =>
      obtain ⟨hrun, he⟩ := hfound e hsearch
      have hne := hrun.le
      refine .inr ⟨e - nPages, ⟨⟨by omega, ?_⟩, ?_⟩, by omega, ?_⟩
      · intro b h1 h2
        exact hrun.clear b h1 (by omega)
      · -- An earlier run would have a block in use.
        rintro t ⟨-, hclear⟩
        by_contra hlt
        obtain ⟨b, h1, h2, hbusy⟩ := hrun.first t (by omega)
        rw [hclear b h1 h2] at hbusy
        exact absurd hbusy (by simp)
      · have hfits := ha.fits
        simp only
        rw [wadd_of_lt (by simp only [pageSize]; omega)]
        simp only [pageSize]
        omega
  | inr n =>
      refine .inl ⟨rfl, ?_⟩
      rintro s ⟨-, hclear⟩
      by_contra hle'
      obtain ⟨b, h1, h2, hbusy⟩ := (hnone n hsearch).none_yet s (by omega)
      rw [hclear b h1 h2] at hbusy
      exact absurd hbusy (by simp)

/-- **When the search is exact** for a number of pages. -/
theorem isFirstFit_iff {a : BitmapAllocator} (ha : a.Placed) {nPages : ℕ} (hn : 1 ≤ nPages) :
    IsFirstFit a nPages (allocatePages a nPages).1 ↔ FitsEarly a nPages := by
  have hscan := ha.scannedBlocks_eq
  have hpos := ha.nBlocks_pos
  have hstart := ha.start_ne_zero
  rw [allocatePages]
  rcases allocateFirstFit_eq ha hn with ⟨hnull, hlate⟩ | ⟨s, hleast, hs, hres⟩
  · rw [hnull]
    constructor
    · rintro (⟨-, hno⟩ | ⟨s, -, hzero⟩)
      · rintro - ⟨s, hfits⟩
        exact absurd hfits (hno s)
      · omega
    · intro hearly
      refine .inl ⟨rfl, ?_⟩
      intro s hfits
      by_cases hmod : a.nBlocks % 64 = 0
      · obtain ⟨t, hfits', ht⟩ := hearly hmod ⟨s, hfits⟩
        have := hlate t hfits'
        rw [hscan, if_pos hmod] at this
        omega
      · have := hlate s hfits
        have := hfits.1
        rw [hscan, if_neg hmod] at *
        omega
  · refine iff_of_true (.inr ⟨s, hleast, hres⟩) ?_
    intro hmod _
    rw [hscan, if_pos hmod] at hs
    exact ⟨s, hleast.1, hs⟩

/-- A single page fits at a block if and only if this block is free. -/
theorem fits_one_iff {a : BitmapAllocator} {s : ℕ} :
    Fits a 1 s ↔ s < a.nBlocks ∧ a.bit s = false := by
  constructor
  · rintro ⟨hlt, hclear⟩
    exact ⟨by omega, hclear s (le_refl s) (by omega)⟩
  · rintro ⟨hlt, hclear⟩
    refine ⟨by omega, ?_⟩
    intro b h1 h2
    obtain rfl : b = s := by omega
    exact hclear

/-- `countFreeBlocks` counts a block exactly when one is free. -/
theorem countFreeBlocks_pos_iff {a : BitmapAllocator} (ha : a.Placed) :
    0 < countFreeBlocks a ↔ ∃ s, Fits a 1 s := by
  rw [ha.toShaped.countFreeBlocks_eq ha.nBlocks_pos, Nat.pos_iff_ne_zero,
    Nat.count_ne_iff_exists]
  simp only [fits_one_iff]

/-- **One page is found whenever one is counted**, if the last word need not be read. -/
theorem one_page_iff {a : BitmapAllocator} (ha : a.Placed) :
    (0 < countFreeBlocks a → (allocatePages a 1).1 ≠ 0) ↔ FitsEarly a 1 := by
  have hstart := ha.start_ne_zero
  rw [countFreeBlocks_pos_iff ha, ← isFirstFit_iff ha (le_refl 1)]
  constructor
  · intro hfound
    by_cases hex : ∃ s, Fits a 1 s
    · rcases allocateFirstFit_eq ha (le_refl 1) with ⟨hnull, -⟩ | ⟨s, hleast, -, hres⟩
      · exact absurd hnull (hfound hex)
      · exact .inr ⟨s, hleast, hres⟩
    · rcases allocateFirstFit_eq ha (le_refl 1) with ⟨hnull, -⟩ | ⟨s, hleast, -, -⟩
      · exact .inl ⟨hnull, fun s hs => hex ⟨s, hs⟩⟩
      · exact absurd ⟨s, hleast.1⟩ hex
  · rintro (⟨-, hno⟩ | ⟨s, -, hres⟩) ⟨t, hfits⟩
    · exact absurd hfits (hno t)
    · omega

/-- **The first-fit search is exact if and only if it need not look at a full last word.** For
every allocator, with any bitmap: a request for at least one page is answered with the first run
of free blocks that is long enough, and with `NULL` only if there is none, if and only if some
such run lies before the last word or the number of blocks is no multiple of 64; and under that
condition, for one page, a request succeeds whenever `countFreeBlocks` counts a block. -/
theorem first_fit_iff {a : BitmapAllocator} (ha : a.Placed) :
    (∀ nPages, 1 ≤ nPages →
      (IsFirstFit a nPages (allocatePages a nPages).1 ↔ FitsEarly a nPages)) ∧
    ((0 < countFreeBlocks a → (allocatePages a 1).1 ≠ 0) ↔ FitsEarly a 1) :=
  ⟨fun _ hn => isFirstFit_iff ha hn, one_page_iff ha⟩

/-- An allocator with the blocks of one word, all of them free. -/
def oneWord : BitmapAllocator := ⟨64, 0x1000, 64, 0, [0#64], 1⟩

/-- An allocator with the blocks of one word and one more, all of them free. -/
def oneWordMore : BitmapAllocator := ⟨65, 0x1000, 65, 0, [0#64, 0#64], 2⟩

/-- The equivalence at an allocator with one block more than a word has. -/
theorem first_fit_iff_oneWordMore :
    oneWordMore.Placed ∧ IsFirstFit oneWordMore 65 (allocatePages oneWordMore 65).1 := by
  have hplaced : oneWordMore.Placed :=
    { bitmapLength_eq := by decide, length_bitmap := by decide, nBlocks_lt := by decide,
      allocated_lt := by decide, nBlocks_pos := by decide, start_ne_zero := by decide,
      fits := by decide }
  refine ⟨hplaced, ((first_fit_iff hplaced).1 65 (by decide)).mpr ?_⟩
  intro hmod
  exact absurd hmod (by decide)

/-- **No page is found although 64 are free**: the blocks of a last word that is full of them are
not looked at. -/
theorem first_fit_skips_last :
    oneWord.Placed ∧ countFreeBlocks oneWord = 64 ∧ (allocatePages oneWord 1).1 = 0 ∧
      ¬ IsFirstFit oneWord 1 (allocatePages oneWord 1).1 := by
  have hplaced : oneWord.Placed :=
    { bitmapLength_eq := by decide, length_bitmap := by decide, nBlocks_lt := by decide,
      allocated_lt := by decide, nBlocks_pos := by decide, start_ne_zero := by decide,
      fits := by decide }
  have hnull : (allocatePages oneWord 1).1 = 0 := by decide
  refine ⟨hplaced, by decide +kernel, hnull, ?_⟩
  rw [hnull]
  rintro (⟨-, hno⟩ | ⟨s, -, hzero⟩)
  · exact hno 0 (fits_one_iff.mpr ⟨by decide, by decide⟩)
  · simp only [oneWord] at hzero
    omega

end MugOS.PMM
