import MugOS.PMMRun

/-!
# Page Frames of the Physical Memory Manager

The memory manager seen by its clients: which page frames, by number, it manages, which of
them are held and which are available, and how an allocation and a free change that.

## Main results

* `allocatePages_frames`: an allocation turns available frames into held ones.
* `freePages_frames`: a free of held frames makes them available.
-/

namespace MugOS.PMM

/-- The number of the first frame of the region that the manager has. -/
def firstFrame (a : BitmapAllocator) : ℕ := a.start / pageSize

/-- A frame that the memory manager manages, from the first one on. -/
def Managed (a : BitmapAllocator) (f : ℕ) : Prop :=
  firstFrame a ≤ f ∧ f < firstFrame a + a.nBlocks

/-- A frame that is reserved or handed out: it is managed and its bit is set. -/
def Held (a : BitmapAllocator) (f : ℕ) : Prop :=
  Managed a f ∧ a.bit (f - firstFrame a) = true

/-- A frame that can be handed out: it is managed and its bit is clear. -/
def Avail (a : BitmapAllocator) (f : ℕ) : Prop :=
  Managed a f ∧ a.bit (f - firstFrame a) = false

/-- A frame that is reserved or handed out is not available. -/
theorem Held.not_avail {a : BitmapAllocator} {f : ℕ} (h : Held a f) : ¬ Avail a f := by
  rintro ⟨-, hf⟩
  rw [h.2] at hf
  exact absurd hf (by decide)

/-- The available frames are the managed ones that are not held. -/
theorem avail_iff {a : BitmapAllocator} {f : ℕ} : Avail a f ↔ Managed a f ∧ ¬ Held a f := by
  simp only [Avail, Held, not_and, Bool.not_eq_true]
  exact and_congr_right fun hm => ⟨fun hf _ => hf, fun hf => hf hm⟩

/-- The address of a managed frame is that of its block. -/
theorem Managed.addr {a : BitmapAllocator} (ha : a.WellFormed) {f : ℕ} (h : Managed a f) :
    f * pageSize = blockAddr a (f - firstFrame a) := by
  have hal := ha.start_aligned
  obtain ⟨h1, h2⟩ := h
  simp only [blockAddr, firstFrame, pageSize] at *
  omega

/-- The address of a block is that of its frame, counted from the first frame of the region. -/
theorem blockAddr_frame {a : BitmapAllocator} (ha : a.WellFormed) (b : ℕ) :
    blockAddr a b = (firstFrame a + b) * pageSize := by
  have hal := ha.start_aligned
  simp only [blockAddr, firstFrame, pageSize] at *
  omega

/-- The allocator `a'` has the geometry of `a`, and its bitmap differs on managed blocks
only. -/
structure SamePool (a a' : BitmapAllocator) : Prop where
  start_eq : a'.start = a.start
  nBlocks_eq : a'.nBlocks = a.nBlocks
  rest : ∀ b, a.nBlocks ≤ b → a'.bit b = a.bit b

/-- Allocators over the same pool manage the same frames. -/
theorem SamePool.managed_iff {a a' : BitmapAllocator} (h : SamePool a a') (f : ℕ) :
    Managed a' f ↔ Managed a f := by
  simp only [Managed, firstFrame, h.start_eq, h.nBlocks_eq]

/-- An allocator is over the same pool as itself. -/
theorem SamePool.refl (a : BitmapAllocator) : SamePool a a := ⟨rfl, rfl, fun _ _ => rfl⟩

/-- Changes one after the other that each keep the pool keep it together. -/
theorem SamePool.trans {a b c : BitmapAllocator} (h : SamePool a b) (h' : SamePool b c) :
    SamePool a c where
  start_eq := h'.start_eq.trans h.start_eq
  nBlocks_eq := h'.nBlocks_eq.trans h.nBlocks_eq
  rest := by
    intro i hi
    rw [h'.rest i (by rw [h.nBlocks_eq]; exact hi), h.rest i hi]

/-- Allocators with one geometry and the same held frames have the same bitmap. -/
theorem SamePool.bit_eq {a a' : BitmapAllocator} (h : SamePool a a')
    (hheld : ∀ f, Held a' f ↔ Held a f) (b : ℕ) : a'.bit b = a.bit b := by
  by_cases hb : a.nBlocks ≤ b
  · exact h.rest b hb
  · have hm : Managed a (firstFrame a + b) := ⟨by omega, by omega⟩
    have hfirst : firstFrame a' = firstFrame a := by rw [firstFrame, h.start_eq, firstFrame]
    have := hheld (firstFrame a + b)
    simp only [Held, h.managed_iff, hm, true_and, hfirst, Nat.add_sub_cancel_left] at this
    exact Bool.eq_iff_iff.mpr this

/-- **What an allocation does to the frames**: nothing, or a run of available frames is
held. -/
theorem allocatePages_frames {a : BitmapAllocator} (ha : a.WellFormed) (n : ℕ) :
    allocatePages a n = (0, a) ∨
    ∃ f a', 1 ≤ n ∧ f ≠ 0 ∧ allocatePages a n = (f * pageSize, a') ∧ a'.WellFormed ∧
      SamePool a a' ∧ (∀ k < n, Avail a (f + k)) ∧
      ∀ g, Held a' g ↔ Held a g ∨ f ≤ g ∧ g < f + n := by
  rcases allocatePages_cases ha n with heq | ⟨s, hn, hle, hfree, heq⟩
  · exact .inl heq
  · have hse : s < s + n := by omega
    have hset := setBits_eq hse hle
    have hne := blockAddr_ne_zero ha s
    have hfirst : firstFrame (setBits a s (s + n)) = firstFrame a := by
      rw [firstFrame, hset, firstFrame]
    have hsame : SamePool a (setBits a s (s + n)) := by
      refine ⟨by rw [hset], by rw [hset], ?_⟩
      intro b hb
      rw [bit_setBits ha.toShaped hse hle, if_neg (by omega)]
    rw [blockAddr_frame ha] at hne heq
    refine .inr ⟨firstFrame a + s, setBits a s (s + n), hn, ?_, heq, ha.setBits hse hle, hsame,
      ?_, ?_⟩
    · intro h0
      rw [h0, Nat.zero_mul] at hne
      exact hne rfl
    · intro k hk
      refine ⟨⟨by omega, by omega⟩, ?_⟩
      rw [show firstFrame a + s + k - firstFrame a = s + k by omega]
      exact hfree _ (by omega) (by omega)
    · intro g
      simp only [Held, hsame.managed_iff, hfirst, bit_setBits ha.toShaped hse hle]
      constructor
      · rintro ⟨hm, hbit⟩
        split at hbit
        · have := hm.1
          exact .inr (by omega)
        · exact .inl ⟨hm, hbit⟩
      · rintro (⟨hm, hbit⟩ | ⟨h1, h2⟩)
        · refine ⟨hm, ?_⟩
          split
          · rfl
          · exact hbit
        · exact ⟨⟨by omega, by omega⟩, by rw [if_pos (by omega)]⟩

/-- **What a free of held frames does**: they become available, and nothing else changes. -/
theorem freePages_frames {a : BitmapAllocator} (ha : a.WellFormed) {f n : ℕ} (hn : 1 ≤ n)
    (hheld : ∀ k < n, Held a (f + k)) :
    (freePages a (f * pageSize) n).WellFormed ∧ SamePool a (freePages a (f * pageSize) n) ∧
      ∀ g, Held (freePages a (f * pageSize) n) g ↔ Held a g ∧ ¬ (f ≤ g ∧ g < f + n) := by
  have hlast := (hheld (n - 1) (by omega)).1
  have hf : Managed a f := by simpa using (hheld 0 (by omega)).1
  set s := f - firstFrame a with hs
  have hle : s + n ≤ a.nBlocks := by
    have := hlast.2
    have := hf.1
    omega
  have hse : s < s + n := by omega
  have heq : freePages a (f * pageSize) n = clearBits a s (s + n) := by
    rw [hf.addr ha]
    apply freePages_of_set ha hn hle
    intro b h1 h2
    have hb := (hheld (b - s) (by omega)).2
    have := hf.1
    rwa [show f + (b - s) - firstFrame a = b by omega] at hb
  have hclear := clearBits_eq hse hle
  have hsame : SamePool a (clearBits a s (s + n)) := by
    refine ⟨by rw [hclear], by rw [hclear], ?_⟩
    intro b hb
    rw [bit_clearBits ha.toShaped hse hle, if_neg (by omega)]
  have hfirst : firstFrame (clearBits a s (s + n)) = firstFrame a := by
    rw [firstFrame, hclear, firstFrame]
  rw [heq]
  refine ⟨ha.clearBits hse hle, hsame, ?_⟩
  intro g
  have := hf.1
  simp only [Held, hsame.managed_iff, hfirst, bit_clearBits ha.toShaped hse hle]
  constructor
  · rintro ⟨hm, hbit⟩
    have := hm.1
    split at hbit
    · exact absurd hbit (by decide)
    · exact ⟨⟨hm, hbit⟩, by omega⟩
  · rintro ⟨⟨hm, hbit⟩, hout⟩
    have := hm.1
    exact ⟨hm, by rw [if_neg (by omega)]; exact hbit⟩

end MugOS.PMM
