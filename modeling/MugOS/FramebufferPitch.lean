import MugOS.FramebufferPixels

/-!
# The Pitch of the Framebuffer

For which framebuffers every primitive writes the pixels it means. The comment at `getLineOffset`
promises this for every pitch that is a multiple of four bytes; the quotient that is computed is
right for multiples of 32 bytes only. For any other pitch the second line is already misplaced.

## Main results

* `drawChar_paints`: a character at the smallest zoom.
* `honoursPitch_iff`: when all primitives paint their images.
-/

namespace MugOS.Framebuffer

/-! ### Characters -/

/-- At zoom one a bit of a bitmap is one write, to the pixel of its line and column. -/
theorem drawBit_one {offset x y j i : ℕ} (hlt : offset * (y + j) + (x + i) < 2 ^ 62)
    (hoffset : offset < 2 ^ 62) (color : UInt32) :
    drawBit offset 1 x y color j i = [write32 ((offset * (y + j) + (x + i) : ℕ) : ℤ) color] := by
  have hbase : offset * (j + y) = offset * (y + j) := by rw [add_comm]
  have hsum : 1 * i + 1 * x = x + i := by omega
  rw [drawBit]
  simp only [List.range_one, List.flatMap_singleton, List.map_singleton, Nat.zero_mul, add_zero,
    mul_one, Nat.mod_eq_of_lt (show offset < 2 ^ 64 by omega), hbase,
    Nat.mod_eq_of_lt (show offset * (y + j) < 2 ^ 64 by omega), one_mul,
    Nat.mod_eq_of_lt (show x < 2 ^ 64 by omega), add_comm i x,
    Nat.mod_eq_of_lt (show x + i < 2 ^ 64 by omega)]

section Screen

variable {s : Display} (hs : Screen s) (hlines : LinesExact s)

include hs hlines

/-- **`Framebuffer_drawChar` paints the glyph of its character** at the smallest zoom. -/
theorem drawChar_paints (hzoom : s.zoom = 1) (hwidth : s.charWidth = 8)
    (hheight : s.charHeight = 16)
    {x y : ℕ} (hp : OnScreen s (x + 8, y + 16)) (c : UInt8) (color : UInt32) :
    Paints s (block x y 8 16 (colorToDraw s c color)) (drawCharWrites s c color x y) := by
  have hindex := index_lt hs hlines hp
  obtain ⟨hsmall_x, hsmall_y, hline⟩ := final_lt hs hlines hp
  have hx := hp.1
  have hy := hp.2
  simp only at hx hy
  have hon : ∀ i j, i < 8 → j < 16 → OnScreen s (x + i, y + j) := fun i j hi hj =>
    ⟨show x + i < _ by omega, show y + j < _ by omega⟩
  constructor
  · intro p hp
    obtain ⟨i, j, hi, hj, rfl⟩ := mem_block.mp hp
    exact hon i j hi hj
  · rw [drawCharWrites, hwidth, hheight, if_neg (not_not.mpr ⟨by omega, by omega⟩),
      if_neg (not_not.mpr ⟨by omega, by omega⟩), if_neg (by simp only [bitmapCharHeight]; omega),
      getLineOffset_eq hs.bpp, ok_bind, hzoom]
    refine congrArg Except.ok ?_
    rw [block, List.map_flatMap]
    apply List.flatMap_congr
    intro j hj
    rw [List.map_map, List.map_eq_flatMap]
    apply List.flatMap_congr
    intro i hi
    have hpixel := hon i j (List.mem_range.mp hi) (List.mem_range.mp hj)
    have hlt := index_lt hs hlines hpixel
    rw [Int.toNat_natCast, Int.toNat_natCast, drawBit_one (by omega) (by omega),
      write32_index hs hlines hpixel]
    rfl

end Screen

/-! ### All primitives -/

/-- The assertions of `Framebuffer_drawChar` pass. -/
def CharFits (s : Display) (x y : ℤ) : Prop :=
  (0 ≤ x ∧ (x + s.charWidth) % 2 ^ 32 < s.width.toNat) ∧
    (0 ≤ y ∧ (y + s.charHeight) % 2 ^ 32 < s.height.toNat)

/-- **Every primitive writes the pixels it means**, whenever its assertions pass: the whole
screen, a pixel, the glyph of a character at the smallest zoom, and the border and the inside
of a rectangle without empty sides. The coordinates are of type `int`. -/
structure HonoursPitch (s : Display) : Prop where
  clearScreen : Paints s (block 0 0 s.width.toNat s.height.toNat fun _ _ => s.clearColor)
    (clearScreenWrites s)
  putPixel : ∀ x y : ℕ, OnScreen s (x, y) → ∀ c, Paints s [((x, y), c)] (putPixel s x y c)
  drawChar : s.zoom = 1 → s.charWidth = 8 → s.charHeight = 16 →
    ∀ (c : UInt8) (color : UInt32) (x y : ℤ), x < 2 ^ 31 → y < 2 ^ 31 → CharFits s x y →
      Paints s (block x.toNat y.toNat 8 16 (colorToDraw s c color)) (drawCharWrites s c color x y)
  drawRectangle : ∀ (x y width height : ℤ) (c : UInt32), x < 2 ^ 31 → y < 2 ^ 31 →
    width < 2 ^ 31 → height < 2 ^ 31 → width ≠ 0 → height ≠ 0 → RectangleFits s x y width height →
      Paints s (border x.toNat y.toNat width.toNat height.toNat c)
        (drawRectangle s x y width height c)
  fillRectangle : ∀ (x y width height : ℤ) (c : UInt32), x < 2 ^ 31 → y < 2 ^ 31 →
    width < 2 ^ 31 → height < 2 ^ 31 → width ≠ 0 → height ≠ 0 → RectangleFits s x y width height →
      Paints s (block x.toNat y.toNat width.toNat height.toNat fun _ _ => c)
        (fillRectangle s x y width height c)

/-- With exact lines every primitive writes the pixels it means. -/
theorem HonoursPitch.of_lines {s : Display} (hs : Screen s) (hlines : LinesExact s) :
    HonoursPitch s where
  clearScreen := clearScreen_paints hs hlines
  putPixel _ _ hp c := putPixel_paints hs hlines hp c
  drawChar := by
    intro hzoom hwidth hheight c color x y hx hy hfit
    obtain ⟨⟨hx0, hxw⟩, ⟨hy0, hyh⟩⟩ := hfit
    rw [hwidth] at hxw
    rw [hheight] at hyh
    lift x to ℕ using hx0
    lift y to ℕ using hy0
    have hp : OnScreen s (x + 8, y + 16) := ⟨by simp only; omega, by simp only; omega⟩
    exact drawChar_paints hs hlines hzoom hwidth hheight hp c color
  drawRectangle := by
    intro x y width height c hx hy hwidth hheight hwidth0 hheight0 hfit
    obtain ⟨x, y, width, height, rfl, rfl, rfl, rfl, hp⟩ := hfit.naturals hx hy hwidth hheight
    exact drawRectangle_paints hs hlines hp (by omega) (by omega) c
  fillRectangle := by
    intro x y width height c hx hy hwidth hheight _ _ hfit
    obtain ⟨x, y, width, height, rfl, rfl, rfl, rfl, hp⟩ := hfit.naturals hx hy hwidth hheight
    exact fillRectangle_paints hs hlines hp c

/-- On a screen without columns nothing is drawn, so that the pitch is honoured. -/
theorem HonoursPitch.of_width {s : Display} (hbpp : s.bpp = 32) (hzero : s.width.toNat = 0) :
    HonoursPitch s where
  clearScreen := by
    rw [clearScreenWrites, getLineOffset_eq hbpp, ok_bind, hzero]
    have hempty : block 0 0 0 s.height.toNat (fun _ _ => s.clearColor) = [] := by simp [block]
    rw [hempty]
    refine ⟨by simp, congrArg Except.ok ?_⟩
    simp
  putPixel x y hp := by
    have hx := hp.1
    simp only [hzero] at hx
    omega
  drawChar _ _ _ c color x y _ _ hfit := by
    have hx := hfit.1.2
    rw [hzero] at hx
    omega
  drawRectangle x y width height c _ _ _ _ _ _ hfit := by
    have hx := hfit.2.2.1
    omega
  fillRectangle x y width height c _ _ _ _ _ _ hfit := by
    have hx := hfit.2.2.1
    omega

/-- A pixel of the second line is at its place only if the lines are exact. -/
theorem HonoursPitch.dvd {s : Display} (hs : Screen s) (h : HonoursPitch s)
    (hwidth : 1 ≤ s.width.toNat) (hheight : 2 ≤ s.height.toNat) : 32 ∣ s.pitch.toNat := by
  have hp : OnScreen s (0, 1) := ⟨by simp only; omega, by simp only; omega⟩
  obtain ⟨-, hwrite⟩ := h.putPixel 0 1 hp 0
  have hsize := hs.size_lt
  have hpitch := Nat.mul_le_mul_left s.pitch.toNat (show 1 ≤ s.height.toNat by omega)
  have hline : line s = 8 * (s.pitch.toNat / 32) := rfl
  have hx : 0 ≤ ((0 : ℕ) : ℤ) ∧ ((0 : ℕ) : ℤ) < s.width.toNat := ⟨by omega, by omega⟩
  have hy : 0 ≤ ((1 : ℕ) : ℤ) ∧ ((1 : ℕ) : ℤ) < s.height.toNat := ⟨by omega, by omega⟩
  rw [Framebuffer.putPixel, if_neg (not_not.mpr hx), if_neg (not_not.mpr hy),
    getLineOffset_eq hs.bpp, ok_bind, toInt_of_lt (by omega), Nat.cast_one, mul_one,
    toInt_of_lt (by omega), Nat.cast_zero, add_zero,
    write32_of_lt (by omega)] at hwrite
  have hplace := congrArg Prod.fst (List.cons.inj (Except.ok.inj hwrite)).1
  simp only [pixelOffset] at hplace
  omega

/-- **When the primitives honour the pitch.** On a framebuffer of 32 bits per pixel whose pitch is a
multiple of four bytes, with room for a line, every primitive writes the pixels it means if and
only if the pitch is a multiple of 32 bytes, or there is no second line, or there are no columns.
The places of distinct pixels are then distinct and inside the framebuffer. -/
theorem honoursPitch_iff {s : Display} (hs : Screen s) :
    (HonoursPitch s ↔ 32 ∣ s.pitch.toNat ∨ s.height.toNat ≤ 1 ∨ s.width.toNat = 0) ∧
    (∀ p q, OnScreen s p → OnScreen s q → pixelOffset s p = pixelOffset s q → p = q) ∧
    ∀ image writes, Paints s image (.ok writes) →
      ∀ write ∈ writes, write.1 + 4 ≤ s.pitch.toNat * s.height.toNat := by
  refine ⟨⟨?_, ?_⟩, fun p q => pixelOffset_injective hs, fun _ _ hpaints => hpaints.in_bounds hs⟩
  · intro h
    by_cases hheight : s.height.toNat ≤ 1
    · exact .inr (.inl hheight)
    · by_cases hwidth : s.width.toNat = 0
      · exact .inr (.inr hwidth)
      · exact .inl (h.dvd hs (by omega) (by omega))
  · rintro (hdvd | hheight | hwidth)
    · exact .of_lines hs (.of_dvd hdvd)
    · exact .of_lines hs (.of_le_one hheight)
    · exact .of_width hs.bpp hwidth

/-- A framebuffer with a resolution of 1366 × 768 pixels, without padding, at the smallest zoom. -/
def laptop : Display where
  address := 0xd0000000
  width := 1366
  height := 768
  pitch := 5464
  bpp := 32
  clearColor := 0
  fontColor := 0xffffff
  drawOffsetX := 4
  drawOffsetY := 4
  zoom := 1
  charWidth := 8
  charHeight := 16
  textWidth := 169
  textHeight := 47

/-- The framebuffer of the laptop is a screen: its sizes are in the ranges that the driver
expects. -/
theorem screen_laptop : Screen laptop := ⟨by decide, by decide, by decide, by decide⟩

/-- The statement for a framebuffer with 1366 columns, and for one with lines of 1376. -/
theorem honoursPitch_padded : HonoursPitch { laptop with pitch := 5504 } :=
  (@honoursPitch_iff { laptop with pitch := 5504 }
    ⟨by decide, by decide, by decide, by decide⟩).1.mpr
    (.inl (by decide))

/-- **A pixel at the wrong place**: with 1366 columns and no padding, the first pixel of the second
line is written over the pixel six columns before the end of the first. -/
theorem laptop_misplaced :
    Screen laptop ∧ putPixel laptop (0 : ℕ) (1 : ℕ) 0 = .ok [(5440, 0)] ∧
      pixelOffset laptop (0, 1) = 5464 ∧ pixelOffset laptop (1360, 0) = 5440 ∧
      ¬ HonoursPitch laptop := by
  refine ⟨screen_laptop, by decide +kernel, by decide +kernel, by decide +kernel, ?_⟩
  intro h
  exact absurd (h.dvd screen_laptop (by decide) (by decide)) (by decide)

end MugOS.Framebuffer
