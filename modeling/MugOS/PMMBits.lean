import MugOS.PMM

/-!
# The Bitmap Updates, Bit by Bit

The range updates, the free count and the allocation check of the physical memory
manager work on whole words through masks and shifts. This module says what each of
them does to single bits, once; nothing later unfolds a mask again.

## Main results

* `bit_setBits`, `bit_clearBits`: the updates change exactly the bits of their range.
* `countFreeBlocks_eq`: the free count is the number of clear bits below `nBlocks`.
* `isFullyAllocated_iff`: the check reads every bit of its range except those of the
  last whole word.
* `searchFirstFit_found`: a run that the search finds is free and ends in range.
-/

namespace MugOS.PMM

open WordBitmap

/-! ### `setBits` and `clearBits` -/

/-- Every block of a shaped allocator has its bit in the bitmap. -/
theorem BitmapAllocator.Shaped.nBlocks_le {a : BitmapAllocator} (ha : a.Shaped) :
    a.nBlocks ≤ a.bitmap.length * 64 := by
  rw [ha.length_bitmap, ha.bitmapLength_eq]
  omega

/-- `setBits` on a non-empty range below `nBlocks` sets the words and counts the bits that were
clear. -/
theorem setBits_eq {a : BitmapAllocator} {s e : ℕ} (hse : s < e) (he : e ≤ a.nBlocks) :
    setBits a s e = { a with
      allocatedBlocks := wadd a.allocatedBlocks (e - s)
      bitmap := setWords a.bitmap s e } := by
  have hclamp : (if e > a.nBlocks then a.nBlocks else e) = e := if_neg (by omega)
  unfold setBits
  rw [if_neg (by omega), if_neg (by omega), hclamp]

/-- `clearBits` on a non-empty range below `nBlocks` clears the words and counts the bits that
were set. -/
theorem clearBits_eq {a : BitmapAllocator} {s e : ℕ} (hse : s < e) (he : e ≤ a.nBlocks) :
    clearBits a s e = { a with
      allocatedBlocks := wsub a.allocatedBlocks (e - s)
      bitmap := clearWords a.bitmap s e } := by
  have hclamp : (if e > a.nBlocks then a.nBlocks else e) = e := if_neg (by omega)
  unfold clearBits
  rw [if_neg (by omega), if_neg (by omega), hclamp]

/-- Setting the bits of a range keeps the length of the bitmap. -/
@[simp] theorem length_setWords (ws : List (BitVec 64)) (s e : ℕ) :
    (setWords ws s e).length = ws.length := by
  simp only [setWords]
  split
  · simp
  · split <;> simp

/-- Clearing the bits of a range keeps the length of the bitmap. -/
@[simp] theorem length_clearWords (ws : List (BitVec 64)) (s e : ℕ) :
    (clearWords ws s e).length = ws.length := by
  simp only [clearWords]
  split
  · simp
  · split <;> simp

/-- The positions that the start mask of `setBits` adds. -/
theorem getMsbD_setStartMask {f : ℕ} (hf : f < 64) :
    ∀ j < 64, (setStartMask f).getMsbD j = decide (f ≤ j) := by
  intro j hj
  unfold setStartMask
  split
  · rw [getMsbD_ones j hj]
    exact (decide_eq_true (by omega)).symm
  · rw [getMsbD_tailMask f j (by assumption) hf]
    exact decide_eq_decide.mpr (by omega)

/-- The positions that the end mask of `setBits` adds. -/
theorem getMsbD_setEndMask {l : ℕ} (hl : l < 64) :
    ∀ j < 64, (setEndMask l).getMsbD j = decide (j < l) := by
  intro j hj
  unfold setEndMask
  split
  · rw [getMsbD_zeros j hj]
    exact (decide_eq_false (by omega)).symm
  · rw [getMsbD_headMask l j hl]

/-- The positions that the start mask of `clearBits` keeps. -/
theorem getMsbD_clearStartMask {f : ℕ} (hf : f < 64) :
    ∀ j < 64, (clearStartMask f).getMsbD j = decide (j < f) := by
  intro j hj
  unfold clearStartMask
  split
  · rw [getMsbD_zeros j hj]
    exact (decide_eq_false (by omega)).symm
  · rw [BitVec.getMsbD_not, getMsbD_tailMask f j (by assumption) hf]
    simp only [hj, decide_true, Bool.true_and, and_true]
    rw [← decide_not]
    exact decide_eq_decide.mpr (by omega)

/-- The positions that the end mask of `clearBits` keeps. -/
theorem getMsbD_clearEndMask {l : ℕ} (hl : l < 64) :
    ∀ j < 64, (clearEndMask l).getMsbD j = decide (l ≤ j) := by
  intro j hj
  unfold clearEndMask
  split
  · rw [getMsbD_ones j hj]
    exact (decide_eq_true (by omega)).symm
  · rw [BitVec.getMsbD_not, getMsbD_headMask l j hl]
    simp only [hj, decide_true, Bool.true_and]
    rw [← decide_not]
    exact decide_eq_decide.mpr (by omega)

/-- **Setting a range of bits through masks sets exactly the bits of the range.** -/
theorem bit_setWords {ws : List (BitVec 64)} {s e : ℕ} (hse : s < e)
    (he : e ≤ ws.length * 64) (b : ℕ) :
    bit (setWords ws s e) b = if s ≤ b ∧ b < e then true else bit ws b := by
  have hs : s / 64 < ws.length := by omega
  have hstart := getMsbD_setStartMask (f := s % 64) (Nat.mod_lt _ (by decide))
  have hend := getMsbD_setEndMask (l := e % 64) (Nat.mod_lt _ (by decide))
  simp only [setWords]
  split
  case isTrue hsame =>
    rw [bit_setMasked true _ _ (s % 64) (e % 64) b _ hs (by omega)]
    · exact if_congr (by omega) rfl rfl
    · intro j hj
      rw [BitVec.getMsbD_or, BitVec.getMsbD_and, hstart j hj, hend j hj]
      by_cases hin : s % 64 ≤ j ∧ j < e % 64
      · simp [hin]
      · rw [if_neg hin]
        rcases not_and_or.mp hin with h | h <;> simp [h]
  case isFalse hdiff =>
    have hidx : s / 64 < e / 64 := by omega
    have hfirst : bit (fill 0xffffffffffffffff#64 (s / 64 + 1) (e / 64 - (s / 64 + 1))
        (ws.set (s / 64) (word ws (s / 64) ||| setStartMask (s % 64)))) b =
        if s ≤ b ∧ b < e / 64 * 64 then true else bit ws b := by
      rw [bit_fill true _ _ _ _ _ (by rw [List.length_set]; omega) getMsbD_ones,
        bit_setMasked true _ _ (s % 64) 64 b _ hs le_rfl]
      · by_cases hin : s ≤ b ∧ b < e / 64 * 64
        · rw [if_pos hin]
          split
          · rfl
          · rw [if_pos (by omega)]
        · rw [if_neg hin, if_neg (by omega), if_neg (by omega)]
      · intro j hj
        rw [BitVec.getMsbD_or, hstart j hj]
        by_cases hin : s % 64 ≤ j <;> simp [hin, hj]
    split
    case isTrue hlast =>
      rw [bit_setMasked true _ _ 0 (e % 64) b _ (by simp; omega) (by omega), hfirst]
      · by_cases hin : s ≤ b ∧ b < e
        · rw [if_pos hin]
          split
          · rfl
          · rw [if_pos (by omega)]
        · rw [if_neg hin, if_neg (by omega), if_neg (by omega)]
      · intro j hj
        rw [BitVec.getMsbD_or, hend j hj]
        by_cases hin : j < e % 64 <;> simp [hin]
    case isFalse hlast =>
      rw [hfirst]
      exact if_congr (by omega) rfl rfl

/-- **Clearing a range of bits through masks clears exactly the bits of the range.** -/
theorem bit_clearWords {ws : List (BitVec 64)} {s e : ℕ} (hse : s < e)
    (he : e ≤ ws.length * 64) (b : ℕ) :
    bit (clearWords ws s e) b = if s ≤ b ∧ b < e then false else bit ws b := by
  have hs : s / 64 < ws.length := by omega
  have hstart := getMsbD_clearStartMask (f := s % 64) (Nat.mod_lt _ (by decide))
  have hend := getMsbD_clearEndMask (l := e % 64) (Nat.mod_lt _ (by decide))
  simp only [clearWords]
  split
  case isTrue hsame =>
    rw [bit_setMasked false _ _ (s % 64) (e % 64) b _ hs (by omega)]
    · exact if_congr (by omega) rfl rfl
    · intro j hj
      rw [BitVec.getMsbD_and, BitVec.getMsbD_or, hstart j hj, hend j hj]
      by_cases hin : s % 64 ≤ j ∧ j < e % 64
      · rw [if_pos hin, decide_eq_false (by omega), decide_eq_false (by omega)]
        simp
      · rw [if_neg hin]
        rcases not_and_or.mp hin with h | h
        · simp [Nat.lt_of_not_le h]
        · simp [Nat.le_of_not_lt h]
  case isFalse hdiff =>
    have hidx : s / 64 < e / 64 := by omega
    have hfirst : bit (fill 0x0000000000000000#64 (s / 64 + 1) (e / 64 - (s / 64 + 1))
        (ws.set (s / 64) (word ws (s / 64) &&& clearStartMask (s % 64)))) b =
        if s ≤ b ∧ b < e / 64 * 64 then false else bit ws b := by
      rw [bit_fill false _ _ _ _ _ (by rw [List.length_set]; omega) getMsbD_zeros,
        bit_setMasked false _ _ (s % 64) 64 b _ hs le_rfl]
      · by_cases hin : s ≤ b ∧ b < e / 64 * 64
        · rw [if_pos hin]
          split
          · rfl
          · rw [if_pos (by omega)]
        · rw [if_neg hin, if_neg (by omega), if_neg (by omega)]
      · intro j hj
        rw [BitVec.getMsbD_and, hstart j hj]
        by_cases hin : s % 64 ≤ j
        · simp [hin, hj]
        · simp [hin, Nat.lt_of_not_le hin]
    split
    case isTrue hlast =>
      rw [bit_setMasked false _ _ 0 (e % 64) b _ (by simp; omega) (by omega), hfirst]
      · by_cases hin : s ≤ b ∧ b < e
        · rw [if_pos hin]
          split
          · rfl
          · rw [if_pos (by omega)]
        · rw [if_neg hin, if_neg (by omega), if_neg (by omega)]
      · intro j hj
        rw [BitVec.getMsbD_and, hend j hj]
        by_cases hin : j < e % 64
        · simp [hin]
        · simp [hin, Nat.le_of_not_lt hin]
    case isFalse hlast =>
      rw [hfirst]
      exact if_congr (by omega) rfl rfl

/-! ### Counting the free blocks -/

/-- Counting depends only on the values below the bound. -/
theorem count_congr {p q : ℕ → Prop} [DecidablePred p] [DecidablePred q] {n : ℕ}
    (h : ∀ k < n, (p k ↔ q k)) : Nat.count p n = Nat.count q n :=
  le_antisymm (Nat.count_mono_left fun k hk => (h k hk).mp)
    (Nat.count_mono_left fun k hk => (h k hk).mpr)

/-- Among the first bits of a word, those that are set and those that are clear add up to all
of them. -/
theorem count_clear_eq (w : BitVec 64) (n : ℕ) :
    Nat.count (fun j => w.getMsbD j = false) n =
      n - Nat.count (fun j => w.getMsbD j = true) n := by
  induction n with
  | zero => rfl
  | succ n ih =>
      have hle : Nat.count (fun j => w.getMsbD j = true) n ≤ n := Nat.count_le _
      rw [Nat.count_succ, Nat.count_succ, ih]
      cases w.getMsbD n
      · simp
        omega
      · simp

/-- The last word's loop counts the clear bits among its `n` leftmost. -/
theorem countLastWord_eq (n : ℕ) (cur : BitVec 64) (acc : ℕ) :
    countLastWord n cur acc = acc + Nat.count (fun j => cur.getMsbD j = false) n := by
  induction n generalizing cur acc with
  | zero => rfl
  | succ n ih =>
      rw [countLastWord, ih, Nat.count_succ']
      simp only [BitVec.getMsbD_shiftLeft, and_msb_eq_zero]
      split <;> omega

/-- The word loop adds the clear bits of its words to the count that it starts with. -/
theorem countWords_eq (ws : List (BitVec 64)) (i n acc : ℕ) :
    countWords ws i n acc = acc + Nat.count (fun j => bit ws (i * 64 + j) = false) (n * 64) := by
  induction n generalizing i acc with
  | zero => simp [countWords]
  | succ n ih =>
      have hsplit : (n + 1) * 64 = 64 + n * 64 := by ring
      have hword : Nat.count (fun j => bit ws (i * 64 + j) = false) 64 =
          64 - popcount (word ws i) := by
        rw [popcount, ← count_clear_eq]
        apply count_congr
        intro j hj
        simp only [bit, show (i * 64 + j) / 64 = i by omega,
          show (i * 64 + j) % 64 = j by omega]
      have hrest : (fun k => bit ws (i * 64 + (64 + k)) = false) =
          fun k => bit ws ((i + 1) * 64 + k) = false := by
        funext k
        rw [show i * 64 + (64 + k) = (i + 1) * 64 + k by ring]
      rw [countWords, ih, hsplit, Nat.count_add, hword]
      simp only [hrest]
      omega

/-- `countFreeBlocks` is the number of clear bits below `nBlocks`, wherever the blocks are. -/
theorem BitmapAllocator.Shaped.countFreeBlocks_eq {a : BitmapAllocator} (ha : a.Shaped)
    (hpos : 1 ≤ a.nBlocks) :
    countFreeBlocks a = Nat.count (fun b => a.bit b = false) a.nBlocks := by
  have hlen := ha.bitmapLength_eq
  set last := if a.nBlocks % 64 = 0 then 64 else a.nBlocks % 64 with hlast
  have hsplit : a.nBlocks = (a.bitmapLength - 1) * 64 + last := by
    rw [hlast]
    split <;> omega
  have hle : last ≤ 64 := by
    rw [hlast]
    split <;> omega
  rw [countFreeBlocks, countLastWord_eq, countWords_eq, ← hlast]
  conv_rhs => rw [hsplit, Nat.count_add]
  simp only [zero_mul, zero_add, BitmapAllocator.bit]
  congr 1
  apply count_congr
  intro j hj
  simp only [WordBitmap.bit,
    show ((a.bitmapLength - 1) * 64 + j) / 64 = a.bitmapLength - 1 by omega,
    show ((a.bitmapLength - 1) * 64 + j) % 64 = j by omega]

/-- **`countFreeBlocks` is the number of clear bits below `nBlocks`.** -/
theorem countFreeBlocks_eq {a : BitmapAllocator} (ha : a.WellFormed) :
    countFreeBlocks a = Nat.count (fun b => a.bit b = false) a.nBlocks :=
  ha.toShaped.countFreeBlocks_eq ha.nBlocks_pos

/-! ### The allocation check -/

/-- The right-to-left test loop reads the `n` rightmost bits. -/
theorem allSetRight_iff (n : ℕ) (cur : BitVec 64) (hn : n ≤ 64) :
    allSetRight n cur = true ↔ ∀ j < 64, 64 - n ≤ j → cur.getMsbD j = true := by
  induction n generalizing cur with
  | zero =>
      simp only [allSetRight, true_iff]
      intro j hj hle
      omega
  | succ n ih =>
      rw [allSetRight]
      simp only [and_one_eq_zero]
      by_cases h : cur.getMsbD 63 = false
      · simp only [h, if_true, Bool.false_eq_true, false_iff, not_forall]
        exact ⟨63, by omega, by omega, by simp [h]⟩
      · rw [if_neg h, ih _ (by omega)]
        constructor
        · intro hall j hj hle
          by_cases hj63 : j = 63
          · subst hj63
            simpa using h
          · have := hall (j + 1) (by omega) (by omega)
            rw [BitVec.getMsbD_ushiftRight] at this
            simp only [Bool.and_eq_true, Nat.add_sub_cancel] at this
            exact this.2.2
        · intro hall j hj hle
          rw [BitVec.getMsbD_ushiftRight]
          have := hall (j - 1) (by omega) (by omega)
          simp [hj, this]
          omega

/-- The left-to-right test loop reads the `n` leftmost bits. -/
theorem allSetLeft_iff (n : ℕ) (cur : BitVec 64) :
    allSetLeft n cur = true ↔ ∀ j < n, cur.getMsbD j = true := by
  induction n generalizing cur with
  | zero => simp [allSetLeft]
  | succ n ih =>
      rw [allSetLeft]
      simp only [and_msb_eq_zero]
      by_cases h : cur.getMsbD 0 = false
      · simp only [h, if_true, Bool.false_eq_true, false_iff, not_forall]
        exact ⟨0, by omega, by simp [h]⟩
      · rw [if_neg h, ih]
        simp only [BitVec.getMsbD_shiftLeft]
        constructor
        · intro hall j hj
          cases j with
          | zero => simpa using h
          | succ j => exact hall j (by omega)
        · intro hall j hj
          exact hall (j + 1) (by omega)

/-- The middle loop finds all its words set if and only if every bit of them is set. -/
theorem allWordsSet_iff (ws : List (BitVec 64)) (i n : ℕ) :
    allWordsSet ws i n = true ↔ ∀ b, i * 64 ≤ b → b < (i + n) * 64 → bit ws b = true := by
  induction n generalizing i with
  | zero =>
      simp only [allWordsSet, true_iff]
      intro b h1 h2
      omega
  | succ n ih =>
      rw [allWordsSet]
      by_cases h : word ws i = 0xffffffffffffffff#64
      · rw [if_neg (by simpa using h), ih]
        constructor
        · intro hall b h1 h2
          by_cases hb : b / 64 = i
          · rw [bit, hb]
            exact (eq_ones_iff _).mp h _ (Nat.mod_lt _ (by decide))
          · exact hall b (by omega) (by omega)
        · intro hall b h1 h2
          exact hall b (by omega) (by omega)
      · rw [if_pos (by simpa using h)]
        simp only [Bool.false_eq_true, false_iff]
        intro hall
        apply h
        rw [eq_ones_iff]
        intro j hj
        have := hall (i * 64 + j) (by omega) (by omega)
        rwa [bit, show (i * 64 + j) / 64 = i by omega,
          show (i * 64 + j) % 64 = j by omega] at this

/-- Block `b` lies in the last word that the range `[s, e)` covers entirely. -/
def InLastWholeWord (s e b : ℕ) : Prop :=
  s + 64 ≤ e / 64 * 64 ∧ e / 64 * 64 ≤ b + 64 ∧ b < e / 64 * 64

instance (s e b : ℕ) : Decidable (InLastWholeWord s e b) :=
  inferInstanceAs (Decidable (_ ∧ _ ∧ _))

/-- The first word of a range is tested from the index of its first bit on. -/
theorem allSetRight_word_iff (ws : List (BitVec 64)) (s : ℕ) :
    allSetRight (64 - s % 64) (word ws (s / 64)) = true ↔
      ∀ b, s ≤ b → b < (s / 64 + 1) * 64 → bit ws b = true := by
  rw [allSetRight_iff _ _ (by omega)]
  constructor
  · intro hall b h1 h2
    rw [bit, show b / 64 = s / 64 by omega]
    exact hall _ (by omega) (by omega)
  · intro hall j hj hle
    have := hall (s / 64 * 64 + j) (by omega) (by omega)
    rwa [bit, show (s / 64 * 64 + j) / 64 = s / 64 by omega,
      show (s / 64 * 64 + j) % 64 = j by omega] at this

/-- The last word of a range is tested up to the index of the end of the range. -/
theorem allSetLeft_word_iff (ws : List (BitVec 64)) (e : ℕ) :
    allSetLeft (e % 64) (word ws (e / 64)) = true ↔
      ∀ b, e / 64 * 64 ≤ b → b < e → bit ws b = true := by
  rw [allSetLeft_iff]
  constructor
  · intro hall b h1 h2
    rw [bit, show b / 64 = e / 64 by omega]
    exact hall _ (by omega)
  · intro hall j hj
    have := hall (e / 64 * 64 + j) (by omega) (by omega)
    rwa [bit, show (e / 64 * 64 + j) / 64 = e / 64 by omega,
      show (e / 64 * 64 + j) % 64 = j by omega] at this

/-- A range within one word is tested behind a shift of the word by what the range leaves out on
its right. -/
theorem allSetRight_shift_iff (ws : List (BitVec 64)) {s e : ℕ} (hse : s < e)
    (hsame : s / 64 = e / 64) :
    allSetRight (e - s) (word ws (s / 64) >>> (64 - e % 64)) = true ↔
      ∀ b, s ≤ b → b < e → bit ws b = true := by
  rw [allSetRight_iff _ _ (by omega)]
  constructor
  · intro hall b h1 h2
    have := hall (b % 64 + (64 - e % 64)) (by omega) (by omega)
    rw [BitVec.getMsbD_ushiftRight] at this
    simp only [Nat.add_sub_cancel, Bool.and_eq_true] at this
    rw [bit, show b / 64 = s / 64 by omega]
    exact this.2.2
  · intro hall j hj hle
    have := hall (s / 64 * 64 + (j - (64 - e % 64))) (by omega) (by omega)
    rw [bit, show (s / 64 * 64 + (j - (64 - e % 64))) / 64 = s / 64 by omega,
      show (s / 64 * 64 + (j - (64 - e % 64))) % 64 = j - (64 - e % 64) by omega] at this
    rw [BitVec.getMsbD_ushiftRight, this]
    simp only [hj, decide_true, Bool.and_true, Bool.true_and, Bool.not_eq_true',
      decide_eq_false_iff_not]
    omega

/-- A test that ends the check succeeds together with the rest of the check. -/
theorem guard_eq_true_iff (test rest : Bool) :
    (if !test then false else rest) = true ↔ test = true ∧ rest = true := by
  cases test <;> simp

/-- **What `isFullyAllocated` checks**: every bit of the range outside its last whole
word. The middle loop stops at `end_index - 1`, so that word is never read. -/
theorem isFullyAllocated_iff {a : BitmapAllocator} {s e : ℕ} (hse : s < e)
    (he : e ≤ a.nBlocks) :
    isFullyAllocated a s e = true ↔
      ∀ b, s ≤ b → b < e → ¬ InLastWholeWord s e b → a.bit b = true := by
  unfold isFullyAllocated
  rw [if_neg (by omega), if_neg (by omega), if_neg (by omega)]
  simp only [InLastWholeWord, BitmapAllocator.bit]
  by_cases hsame : s / 64 = e / 64
  · rw [if_pos hsame, allSetRight_shift_iff _ hse hsame]
    constructor
    · exact fun hall b h1 h2 _ => hall b h1 h2
    · exact fun hall b h1 h2 => hall b h1 h2 (by omega)
  · have hidx : s / 64 < e / 64 := by omega
    rw [if_neg hsame]
    by_cases hzero : s % 64 = 0
    · -- the range starts with whole words
      simp only [hzero, ne_eq, not_true_eq_false, decide_false, Bool.false_and,
        Bool.false_eq_true, if_false]
      rw [guard_eq_true_iff, allWordsSet_iff, allSetLeft_word_iff]
      constructor
      · rintro ⟨hmid, hlast⟩ b h1 h2 h3
        by_cases hb : b < (s / 64 + (e / 64 - 1 - s / 64)) * 64
        · exact hmid b (by omega) hb
        · exact hlast b (by omega) h2
      · intro hall
        refine ⟨fun b h1 h2 => hall b (by omega) (by omega) (by omega), fun b h1 h2 => ?_⟩
        exact hall b (by omega) h2 (by omega)
    · -- the first word is tested in part
      simp only [hzero, ne_eq, not_false_eq_true, decide_true, Bool.true_and, if_true]
      rw [guard_eq_true_iff, guard_eq_true_iff, allSetRight_word_iff, allWordsSet_iff,
        allSetLeft_word_iff]
      constructor
      · rintro ⟨hfirst, hmid, hlast⟩ b h1 h2 h3
        by_cases hb : b < (s / 64 + 1) * 64
        · exact hfirst b h1 hb
        · by_cases hb' : b < (s / 64 + 1 + (e / 64 - 1 - (s / 64 + 1))) * 64
          · exact hmid b (by omega) hb'
          · exact hlast b (by omega) h2
      · intro hall
        refine ⟨fun b h1 h2 => hall b h1 (by omega) (by omega), fun b h1 h2 => ?_,
          fun b h1 h2 => ?_⟩
        · exact hall b (by omega) (by omega) (by omega)
        · exact hall b (by omega) h2 (by omega)

/-! ### The first-fit search -/

/-- The state of the search in front of block `pos`: the last `nBits` blocks are free,
the run cannot be extended to the left, and no run of `nPages` free blocks has ended. -/
structure ScanInv (busy : ℕ → Bool) (nPages pos nBits : ℕ) : Prop where
  le : nBits ≤ pos
  lt : nBits < nPages
  clear : ∀ b, pos - nBits ≤ b → b < pos → busy b = false
  maximal : nBits < pos → busy (pos - nBits - 1) = true
  none_yet : ∀ t, t + nPages ≤ pos → ∃ b, t ≤ b ∧ b < t + nPages ∧ busy b = true

/-- The search has found the run of `nPages` free blocks that ends at `endIdx`, and no
run ends before it. -/
structure RunFound (busy : ℕ → Bool) (nPages endIdx : ℕ) : Prop where
  le : nPages ≤ endIdx
  clear : ∀ b, endIdx - nPages ≤ b → b < endIdx → busy b = false
  first : ∀ t, t + nPages < endIdx → ∃ b, t ≤ b ∧ b < t + nPages ∧ busy b = true

/-- A free block extends the current run by one, if it does not complete it. -/
theorem ScanInv.free {busy : ℕ → Bool} {nPages pos nBits : ℕ}
    (h : ScanInv busy nPages pos nBits) (hfree : busy pos = false)
    (hne : nBits + 1 ≠ nPages) : ScanInv busy nPages (pos + 1) (nBits + 1) where
  le := by have := h.le; omega
  lt := by have := h.lt; omega
  clear := by
    intro b h1 h2
    by_cases hb : b = pos
    · rw [hb, hfree]
    · exact h.clear b (by omega) (by omega)
  maximal := by
    intro hlt
    have := h.maximal (by omega)
    rwa [show pos + 1 - (nBits + 1) - 1 = pos - nBits - 1 by omega]
  none_yet := by
    intro t ht
    by_cases hpos : t + nPages ≤ pos
    · exact h.none_yet t hpos
    · have hlt := h.lt
      exact ⟨pos - nBits - 1, by omega, by omega, h.maximal (by omega)⟩

/-- A busy block ends the current run and starts an empty one behind it. -/
theorem ScanInv.busy {busy : ℕ → Bool} {nPages pos nBits : ℕ}
    (h : ScanInv busy nPages pos nBits) (hbusy : busy pos = true) :
    ScanInv busy nPages (pos + 1) 0 where
  le := by omega
  lt := by have := h.lt; omega
  clear := by
    intro b h1 h2
    omega
  maximal := by
    intro _
    exact hbusy
  none_yet := by
    intro t ht
    by_cases hpos : t + nPages ≤ pos
    · exact h.none_yet t hpos
    · have := h.lt
      exact ⟨pos, by omega, by omega, hbusy⟩

/-- A free block that completes the run is the last one of a run of free pages of the length
asked for. -/
theorem ScanInv.found {busy : ℕ → Bool} {nPages pos nBits : ℕ}
    (h : ScanInv busy nPages pos nBits) (hfree : busy pos = false)
    (heq : nBits + 1 = nPages) : RunFound busy nPages (pos + 1) where
  le := by have := h.le; omega
  clear := by
    intro b h1 h2
    by_cases hb : b = pos
    · rw [hb, hfree]
    · exact h.clear b (by omega) (by omega)
  first := by
    intro t ht
    exact h.none_yet t (by omega)

/-- The bit loop carries the search state over its word. -/
theorem scanWord_spec {busy : ℕ → Bool} {nPages : ℕ} (k pos : ℕ) (cur : BitVec 64)
    (nBits : ℕ) (hcur : ∀ j < k, cur.getMsbD j = busy (pos + j))
    (h : ScanInv busy nPages pos nBits) :
    (∀ e, scanWord nPages pos k cur nBits = .inl e →
      RunFound busy nPages e ∧ e ≤ pos + k) ∧
    (∀ n, scanWord nPages pos k cur nBits = .inr n → ScanInv busy nPages (pos + k) n) := by
  induction k generalizing pos cur nBits with
  | zero =>
      constructor
      · intro e he
        simp [scanWord] at he
      · intro n hn
        simp only [scanWord, Sum.inr.injEq] at hn
        rwa [← hn, Nat.add_zero]
  | succ k ih =>
      have hhead : cur.getMsbD 0 = busy pos := hcur 0 (by omega)
      have htail : ∀ j < k, (cur <<< 1).getMsbD j = busy (pos + 1 + j) := by
        intro j hj
        rw [BitVec.getMsbD_shiftLeft, hcur (j + 1) (by omega)]
        congr 1
        omega
      have hpos : pos + 1 + k = pos + (k + 1) := by omega
      simp only [scanWord, and_msb_eq_zero, hhead]
      cases hb : busy pos with
      | false =>
          simp only [if_true]
          by_cases heq : nBits + 1 = nPages
          · simp only [heq, if_true, Sum.inl.injEq, reduceCtorEq, false_implies,
              implies_true, and_true]
            rintro e rfl
            exact ⟨h.found hb heq, by omega⟩
          · rw [if_neg heq]
            have := ih (pos + 1) _ (nBits + 1) htail (h.free hb heq)
            rwa [hpos] at this
      | true =>
          have hne : (0 : ℕ) ≠ nPages := by have := h.lt; omega
          simp only [Bool.true_eq_false, if_false, if_neg hne]
          have := ih (pos + 1) _ 0 htail (h.busy hb)
          rwa [hpos] at this

/-- The word loop carries the search state over its words. -/
theorem scanWords_spec {ws : List (BitVec 64)} {nPages : ℕ} (m i nBits : ℕ)
    (h : ScanInv (bit ws) nPages (i * 64) nBits) :
    (∀ e, scanWords ws nPages i m nBits = .inl e →
      RunFound (bit ws) nPages e ∧ e ≤ (i + m) * 64) ∧
    (∀ n, scanWords ws nPages i m nBits = .inr n →
      ScanInv (bit ws) nPages ((i + m) * 64) n) := by
  induction m generalizing i nBits with
  | zero =>
      constructor
      · intro e he
        simp [scanWords] at he
      · intro n hn
        simp only [scanWords, Sum.inr.injEq] at hn
        rwa [← hn, Nat.add_zero]
  | succ m ih =>
      have hcur : ∀ j < 64, (word ws i).getMsbD j = bit ws (i * 64 + j) := by
        intro j hj
        rw [bit, show (i * 64 + j) / 64 = i by omega, show (i * 64 + j) % 64 = j by omega]
      obtain ⟨hfound, hnext⟩ := scanWord_spec 64 (i * 64) (word ws i) nBits hcur h
      rw [scanWords]
      cases hscan : scanWord nPages (i * 64) 64 (word ws i) nBits with
      | inl e =>
          obtain ⟨hrun, hle⟩ := hfound e hscan
          simp only [Sum.inl.injEq, reduceCtorEq, false_implies, implies_true, and_true]
          rintro e' rfl
          exact ⟨hrun, by omega⟩
      | inr n =>
          have hinv := hnext n hscan
          rw [show i * 64 + 64 = (i + 1) * 64 by ring] at hinv
          have := ih (i + 1) n hinv
          rwa [show i + 1 + m = i + (m + 1) by omega] at this

/-- The number of blocks that the search of `allocate_firstFit` looks at: those of all words but
the last, and `nBlocks % 64` of the last one. -/
def scannedBlocks (a : BitmapAllocator) : ℕ := (a.bitmapLength - 1) * 64 + a.nBlocks % 64

/-- **The search of `allocate_firstFit`** over the blocks that it looks at: a run that is found is
free and no earlier one exists; if none is found then there is none. -/
theorem searchFirstFit_spec {a : BitmapAllocator} {nPages : ℕ} (hn : nPages ≠ 0) :
    (∀ e, searchFirstFit a nPages = .inl e → RunFound a.bit nPages e ∧ e ≤ scannedBlocks a) ∧
    (∀ n, searchFirstFit a nPages = .inr n → ScanInv a.bit nPages (scannedBlocks a) n) := by
  have hinit : ScanInv (bit a.bitmap) nPages (0 * 64) 0 := by
    refine ⟨by omega, by omega, ?_, ?_, ?_⟩
    · intro b h1 h2
      omega
    · intro hlt
      omega
    · intro t ht
      omega
  obtain ⟨hfound, hnext⟩ := scanWords_spec (a.bitmapLength - 1) 0 0 hinit
  rw [zero_add] at hfound hnext
  rw [searchFirstFit]
  cases hscan : scanWords a.bitmap nPages 0 (a.bitmapLength - 1) 0 with
  | inl e' =>
      obtain ⟨hrun, hle⟩ := hfound e' hscan
      refine ⟨?_, fun n h => absurd h (by simp)⟩
      intro e h
      obtain rfl : e' = e := Sum.inl.inj h
      exact ⟨hrun, hle.trans (Nat.le_add_right _ _)⟩
  | inr n =>
      have hcur : ∀ j < a.nBlocks % 64, (word a.bitmap (a.bitmapLength - 1)).getMsbD j =
          bit a.bitmap ((a.bitmapLength - 1) * 64 + j) := by
        intro j hj
        rw [bit, show ((a.bitmapLength - 1) * 64 + j) / 64 = a.bitmapLength - 1 by omega,
          show ((a.bitmapLength - 1) * 64 + j) % 64 = j by omega]
      exact scanWord_spec _ _ _ n hcur (hnext n hscan)

/-- The search for free blocks looks at no block past the last one. -/
theorem BitmapAllocator.Shaped.scannedBlocks_le {a : BitmapAllocator} (ha : a.Shaped)
    (hpos : 1 ≤ a.nBlocks) : scannedBlocks a ≤ a.nBlocks := by
  have hlen := ha.bitmapLength_eq
  unfold scannedBlocks
  omega

/-- A run that the search finds ends at or below `nBlocks`. -/
theorem searchFirstFit_found {a : BitmapAllocator} (ha : a.WellFormed) {nPages e : ℕ}
    (hn : nPages ≠ 0) (h : searchFirstFit a nPages = .inl e) :
    RunFound a.bit nPages e ∧ e ≤ a.nBlocks := by
  obtain ⟨hrun, hle⟩ := (searchFirstFit_spec hn).1 e h
  exact ⟨hrun, hle.trans (ha.toShaped.scannedBlocks_le ha.nBlocks_pos)⟩

end MugOS.PMM
