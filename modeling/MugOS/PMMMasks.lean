import MugOS.PMMBits

/-!
# Every Store of the Bitmap Updates Stays in the Bitmap

`setBits` and `clearBits` once more, this time with every access to the bitmap checked against
`bitmapLength`: an access to another word is the outcome `Fault.wild`. The checked updates never
end so, they compute what the unchecked ones compute, and that is what a loop over single bits
would.

## Main results

* `checkedRange_eq`: a checked update of a range of words returns.
* `masked_updates_exact`: `setBits` and `clearBits` against the bit-by-bit definition, for any
  two bit numbers.
-/

namespace MugOS.PMM

open WordBitmap

/-! ### Checked accesses -/

/-- `allocator->bitmap[i] = f(allocator->bitmap[i])`. -/
def updateWord (a : BitmapAllocator) (i : ℕ) (f : BitVec 64 → BitVec 64) :
    Except Fault BitmapAllocator :=
  if i < a.bitmapLength then .ok { a with bitmap := a.bitmap.set i (f (word a.bitmap i)) }
  else .error .wild

/-- The loop `for (i = lo ; i < lo + n ; i++) bitmap[i] = w`. -/
def fillChecked (w : BitVec 64) : ℕ → ℕ → BitmapAllocator → Except Fault BitmapAllocator
  | _, 0, a => .ok a
  | lo, n + 1, a => do
      let a ← updateWord a lo fun _ => w
      fillChecked w (lo + 1) n a

/-- The part of `setBits` and `clearBits` that applies the masks: `both` is the update of a word
that has the start and the end of the range, `first` and `last` are those of the words at its two
ends, and `w` is what is stored between them. -/
def checkedRange (both first last : BitVec 64 → BitVec 64) (w : BitVec 64) (a : BitmapAllocator)
    (startBit endBit : ℕ) : Except Fault BitmapAllocator :=
  let startIndex := startBit / 64
  let endIndex := endBit / 64
  if startIndex = endIndex then updateWord a startIndex both
  else do
    let a ← updateWord a startIndex first
    let a ← fillChecked w (startIndex + 1) (endIndex - (startIndex + 1)) a
    if endBit % 64 ≠ 0 then updateWord a endIndex last else .ok a

/-- `clearBits(allocator, start_bit, end_bit)`, with checked accesses. -/
def clearBitsChecked (a : BitmapAllocator) (startBit endBit : ℕ) : Except Fault BitmapAllocator :=
  if startBit ≥ endBit then .ok a
  else if startBit ≥ a.nBlocks then .ok a
  else
    let endBit := if endBit > a.nBlocks then a.nBlocks else endBit
    let startMask := clearStartMask (startBit % 64)
    let endMask := clearEndMask (endBit % 64)
    checkedRange (· &&& (startMask ||| endMask)) (· &&& startMask) (· &&& endMask)
      0x0000000000000000#64
      { a with allocatedBlocks := wsub a.allocatedBlocks (endBit - startBit) } startBit endBit

/-- `setBits(allocator, start_bit, end_bit)`, with checked accesses. -/
def setBitsChecked (a : BitmapAllocator) (startBit endBit : ℕ) : Except Fault BitmapAllocator :=
  if startBit ≥ endBit then .ok a
  else if startBit ≥ a.nBlocks then .ok a
  else
    let endBit := if endBit > a.nBlocks then a.nBlocks else endBit
    let startMask := setStartMask (startBit % 64)
    let endMask := setEndMask (endBit % 64)
    checkedRange (· ||| (startMask &&& endMask)) (· ||| startMask) (· ||| endMask)
      0xffffffffffffffff#64
      { a with allocatedBlocks := wadd a.allocatedBlocks (endBit - startBit) } startBit endBit

/-! ### They never fail -/

/-- An access to a word of the bitmap below its length succeeds and changes this word. -/
theorem updateWord_eq {a : BitmapAllocator} {i : ℕ} (hi : i < a.bitmapLength)
    (f : BitVec 64 → BitVec 64) :
    updateWord a i f = .ok { a with bitmap := a.bitmap.set i (f (word a.bitmap i)) } := by
  rw [updateWord, if_pos hi]

/-- A loop over words of the bitmap below its length succeeds and stores the word into each of
them. -/
theorem fillChecked_eq (w : BitVec 64) (lo n : ℕ) {a : BitmapAllocator}
    (h : lo + n ≤ a.bitmapLength) :
    fillChecked w lo n a = .ok { a with bitmap := fill w lo n a.bitmap } := by
  induction n generalizing lo a with
  | zero => rfl
  | succ n ih =>
      rw [fillChecked, updateWord_eq (by omega)]
      exact ih (lo + 1) (by simp only; omega)

/-- **A checked update of a range of words returns**, if the range ends in the bitmap. -/
theorem checkedRange_eq (both first last : BitVec 64 → BitVec 64) (w : BitVec 64)
    {a : BitmapAllocator} {s e : ℕ} (hse : s < e) (he : e ≤ a.bitmapLength * 64) :
    checkedRange both first last w a s e = .ok { a with
      bitmap :=
        if s / 64 = e / 64 then a.bitmap.set (s / 64) (both (word a.bitmap (s / 64)))
        else
          let bitmap := fill w (s / 64 + 1) (e / 64 - (s / 64 + 1))
            (a.bitmap.set (s / 64) (first (word a.bitmap (s / 64))))
          if e % 64 ≠ 0 then bitmap.set (e / 64) (last (word bitmap (e / 64))) else bitmap } := by
  have hs : s / 64 < a.bitmapLength := by omega
  unfold checkedRange
  simp only
  by_cases hsame : s / 64 = e / 64
  · rw [if_pos hsame, if_pos hsame, updateWord_eq hs]
  · rw [if_neg hsame, if_neg hsame, updateWord_eq hs]
    have hfill := fillChecked_eq w (s / 64 + 1) (e / 64 - (s / 64 + 1))
      (a := { a with bitmap := a.bitmap.set (s / 64) (first (word a.bitmap (s / 64))) })
      (by simp only; omega)
    simp only [bind, Except.bind, hfill]
    -- The last word is touched only if the range reaches into it.
    by_cases hlast : e % 64 ≠ 0
    · rw [if_pos hlast, if_pos hlast, updateWord_eq (by simp only; omega)]
    · rw [if_neg hlast, if_neg hlast]

/-- The end of a range, clamped to the number of blocks. -/
theorem clamp_eq (e n : ℕ) : (if e > n then n else e) = min e n := by
  rw [min_def]
  split_ifs <;> omega

/-- **`setBits` accesses only words of the bitmap**: the checked version returns what the plain
one does. -/
theorem setBitsChecked_eq {a : BitmapAllocator} (ha : a.Shaped) (s e : ℕ) :
    setBitsChecked a s e = .ok (setBits a s e) := by
  have hle := ha.bitmapLength_eq
  unfold setBitsChecked setBits
  by_cases hse : s ≥ e
  · rw [if_pos hse, if_pos hse]
  by_cases hs : s ≥ a.nBlocks
  · rw [if_neg hse, if_neg hse, if_pos hs, if_pos hs]
  rw [if_neg hse, if_neg hse, if_neg hs, if_neg hs]
  simp only [clamp_eq]
  rw [checkedRange_eq _ _ _ _ (by omega) (by simp only; omega)]
  rfl

/-- **`clearBits` accesses only words of the bitmap.** -/
theorem clearBitsChecked_eq {a : BitmapAllocator} (ha : a.Shaped) (s e : ℕ) :
    clearBitsChecked a s e = .ok (clearBits a s e) := by
  have hle := ha.bitmapLength_eq
  unfold clearBitsChecked clearBits
  by_cases hse : s ≥ e
  · rw [if_pos hse, if_pos hse]
  by_cases hs : s ≥ a.nBlocks
  · rw [if_neg hse, if_neg hse, if_pos hs, if_pos hs]
  rw [if_neg hse, if_neg hse, if_neg hs, if_neg hs]
  simp only [clamp_eq]
  rw [checkedRange_eq _ _ _ _ (by omega) (by simp only; omega)]
  rfl

/-! ### The bit-by-bit definition -/

/-- The bits `s ≤ b < e` of the allocator are made `v`, and its counter becomes `count`; all else
stays. -/
structure Assigned (v : Bool) (a : BitmapAllocator) (s e count : ℕ) (a' : BitmapAllocator) :
    Prop where
  bits : ∀ b, a'.bit b = if s ≤ b ∧ b < e then v else a.bit b
  length_eq : a'.bitmap.length = a.bitmap.length
  allocated : a'.allocatedBlocks = count
  rest : { a' with bitmap := a.bitmap, allocatedBlocks := a.allocatedBlocks } = a

/-- An allocator that is left alone, for a range without bits. -/
theorem Assigned.refl (v : Bool) (a : BitmapAllocator) {s e : ℕ} (h : ¬ s < e) :
    Assigned v a s e a.allocatedBlocks a where
  bits := by
    intro b
    rw [if_neg (by omega)]
  length_eq := rfl
  allocated := rfl
  rest := rfl

/-- The counter after the blocks of a range were added; a range can have none. -/
def countUp (count s e : ℕ) : ℕ := if s < e then wadd count (e - s) else count

/-- The counter after the blocks of a range were taken away; a range can have none. -/
def countDown (count s e : ℕ) : ℕ := if s < e then wsub count (e - s) else count

/-- `setBits` sets the bits of its range, up to the last block, counts them, and changes no
others. -/
theorem setBits_assigned {a : BitmapAllocator} (ha : a.Shaped) (s e : ℕ) :
    Assigned true a s (min e a.nBlocks) (countUp a.allocatedBlocks s (min e a.nBlocks))
      (setBits a s e) := by
  by_cases hlt : s < min e a.nBlocks
  · have hbound := ha.nBlocks_le
    have heq : setBits a s e = { a with
        allocatedBlocks := wadd a.allocatedBlocks (min e a.nBlocks - s)
        bitmap := setWords a.bitmap s (min e a.nBlocks) } := by
      rw [setBits, if_neg (by omega), if_neg (by omega), clamp_eq]
    rw [heq, countUp, if_pos hlt]
    exact ⟨bit_setWords hlt (by omega), length_setWords _ _ _, rfl, rfl⟩
  · have heq : setBits a s e = a := by
      unfold setBits
      split_ifs
      · rfl
      · rfl
      · omega
      · omega
    rw [heq, countUp, if_neg hlt]
    exact Assigned.refl true a hlt

/-- `clearBits` clears the bits of its range, up to the last block, counts them, and changes no
others. -/
theorem clearBits_assigned {a : BitmapAllocator} (ha : a.Shaped) (s e : ℕ) :
    Assigned false a s (min e a.nBlocks) (countDown a.allocatedBlocks s (min e a.nBlocks))
      (clearBits a s e) := by
  by_cases hlt : s < min e a.nBlocks
  · have hbound := ha.nBlocks_le
    have heq : clearBits a s e = { a with
        allocatedBlocks := wsub a.allocatedBlocks (min e a.nBlocks - s)
        bitmap := clearWords a.bitmap s (min e a.nBlocks) } := by
      rw [clearBits, if_neg (by omega), if_neg (by omega), clamp_eq]
    rw [heq, countDown, if_pos hlt]
    exact ⟨bit_clearWords hlt (by omega), length_clearWords _ _ _, rfl, rfl⟩
  · have heq : clearBits a s e = a := by
      unfold clearBits
      split_ifs
      · rfl
      · rfl
      · omega
      · omega
    rw [heq, countDown, if_neg hlt]
    exact Assigned.refl false a hlt

/-- **The masked updates are the bit-by-bit ones.** For every allocator whose bitmap has the
words that its blocks need, and any two bit numbers, `setBits` and `clearBits` access only words
of the bitmap; they set and clear exactly the bits from the first number on that lie below the
second one and are blocks, and count these modulo `2 ^ 64`; all else stays. -/
theorem masked_updates_exact {a : BitmapAllocator} (ha : a.Shaped) (startBit endBit : ℕ) :
    (∃ a', setBitsChecked a startBit endBit = .ok a' ∧
      Assigned true a startBit (min endBit a.nBlocks)
        (countUp a.allocatedBlocks startBit (min endBit a.nBlocks)) a') ∧
    ∃ a', clearBitsChecked a startBit endBit = .ok a' ∧
      Assigned false a startBit (min endBit a.nBlocks)
        (countDown a.allocatedBlocks startBit (min endBit a.nBlocks)) a' :=
  ⟨⟨_, setBitsChecked_eq ha startBit endBit, setBits_assigned ha startBit endBit⟩,
    _, clearBitsChecked_eq ha startBit endBit, clearBits_assigned ha startBit endBit⟩

/-- Seventy blocks, none of them in use. -/
def seventyBlocks : BitmapAllocator := ⟨70, 0x1000, 70, 0, [0#64, 0#64], 2⟩

/-- The masked updates on a range that reaches over the last block. -/
theorem masked_updates_exact_seventy :
    seventyBlocks.Shaped ∧ ∃ a', setBitsChecked seventyBlocks 60 100 = .ok a' ∧
      a'.allocatedBlocks = 10 := by
  have hshaped : seventyBlocks.Shaped := ⟨by decide, by decide, by decide, by decide⟩
  obtain ⟨⟨a', heq, hassigned⟩, -⟩ := masked_updates_exact hshaped 60 100
  exact ⟨hshaped, a', heq, hassigned.allocated.trans (by decide)⟩

end MugOS.PMM
