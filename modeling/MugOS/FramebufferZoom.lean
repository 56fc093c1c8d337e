import MugOS.FramebufferPitch

/-!
# Zoomed Text

Where `Framebuffer_putchar` draws a character when the text is zoomed. The cell of a cursor position
is given in pixels, and so are the coordinates that are passed to `Framebuffer_drawChar`; but this
function multiplies them by the zoom once more. Its assertions check the coordinates as they are
passed.

The pixels of a rectangle of the screen, line by line, determine the rectangle, even if indices are
taken modulo the size of the address space. So a character is in its cell only if the index of its
first pixel is that of the cell.

## Main results

* `rectangle_unique`: a rectangle inside another that is not larger is the same.
* `drawsCell_iff`: when a character is drawn exactly in its cell.
* `zoomed_cells_iff`: the zooms for which all characters are.
-/

namespace MugOS.Framebuffer

/-! ### Rectangles of a screen -/

/-- The indices of the pixels of a rectangle, on a screen with `W` columns. -/
def InRectangle (W X Y w h n : ℕ) : Prop := ∃ i j, i < w ∧ j < h ∧ n = W * (Y + j) + (X + i)

/-- The column and the row of a pixel of a rectangle are between the rectangle's sides, if
these fit the line. -/
theorem InRectangle.column_row {W X Y w h n : ℕ} (hn : InRectangle W X Y w h n) (hfit : X + w ≤ W) :
    (X ≤ n % W ∧ n % W < X + w) ∧ Y ≤ n / W ∧ n / W < Y + h := by
  obtain ⟨i, j, hi, hj, rfl⟩ := hn
  have hlt : X + i < W := by omega
  rw [Nat.mul_add_mod, Nat.mod_eq_of_lt hlt, Nat.mul_add_div (by omega), Nat.div_eq_of_lt hlt]
  omega

/-- **A rectangle is determined by its pixels.** If the indices of the pixels of a rectangle,
modulo a number that is larger than the screen, are in a rectangle of the screen that is not
larger, and not as wide as the screen, the two have the same size and the same first pixel. -/
theorem rectangle_unique {W H X Y w h a b B M : ℕ} (hfit : X + w ≤ W) (hw : w < W) (hpos : 0 < w)
    (hfit' : Y + h ≤ H) (hpos' : 0 < h) (hsize : W * H < M) (ha : w ≤ a) (hb : h ≤ b)
    (hall : ∀ r c, r < b → c < a → InRectangle W X Y w h ((B + r * W + c) % M)) :
    a = w ∧ b = h ∧ B % M = W * Y + X := by
  obtain ⟨k, l, hk, hl, hfirst⟩ := hall 0 0 (by omega) (by omega)
  rw [Nat.zero_mul, add_zero, add_zero] at hfirst
  have hshift : ∀ r c, (B + r * W + c) % M = (W * (Y + l) + (X + k) + r * W + c) % M := by
    intro r c
    rw [← hfirst, add_assoc, add_assoc, Nat.mod_add_mod]
  have hrow : W * (Y + l) + W ≤ W * H := by
    have := Nat.mul_le_mul_left W (show Y + l + 1 ≤ H by omega)
    rwa [mul_add, mul_one] at this
  have hrows : W * (Y + h) ≤ W * H := Nat.mul_le_mul_left W hfit'
  -- The pixel after the first line is not in the rectangle.
  have hcolumns : a ≤ w - k := by
    by_contra hlt
    have hin := (hall 0 (w - k) (by omega) (by omega)).column_row hfit
    have hindex : W * (Y + l) + (X + k) + 0 * W + (w - k) = W * (Y + l) + (X + w) := by omega
    rw [hshift, hindex, Nat.mod_eq_of_lt (show W * (Y + l) + (X + w) < M by omega),
      Nat.mul_add_mod] at hin
    rcases Nat.lt_or_ge (X + w) W with hlt | hge
    · rw [Nat.mod_eq_of_lt hlt] at hin
      omega
    · rw [show X + w = W by omega, Nat.mod_self] at hin
      omega
  obtain ⟨rfl, hk0⟩ : a = w ∧ k = 0 := by omega
  subst hk0
  -- Neither is the pixel below the last line.
  have hlines : b ≤ h - l := by
    by_contra hlt
    have hin := (hall (h - l) 0 (by omega) (by omega)).column_row hfit
    have hindex : W * (Y + l) + (X + 0) + (h - l) * W + 0 = W * (Y + h) + X := by
      obtain ⟨m, rfl⟩ : ∃ m, h = l + m := ⟨h - l, by omega⟩
      rw [Nat.add_sub_cancel_left]
      ring
    rw [hshift, hindex] at hin
    rcases Nat.lt_or_ge (W * (Y + h) + X) M with hlt | hge
    · have hbelow := hin.2.2
      rw [Nat.mod_eq_of_lt hlt, Nat.mul_add_div (by omega),
        Nat.div_eq_of_lt (show X < W by omega)] at hbelow
      omega
    · have hwrap : (W * (Y + h) + X) % M = W * (Y + h) + X - M := by
        rw [Nat.mod_eq_sub_mod hge]
        exact Nat.mod_eq_of_lt (by omega)
      rw [hwrap, Nat.mod_eq_of_lt (show W * (Y + h) + X - M < W by omega)] at hin
      omega
  obtain ⟨rfl, hl0⟩ : b = h ∧ l = 0 := by omega
  subst hl0
  exact ⟨rfl, rfl, by rw [hfirst, add_zero, add_zero]⟩

/-! ### The writes of a character -/

/-- A write at any index goes to four times the index modulo `2 ^ 62`, as the product
overflows. -/
theorem write32_mod (n : ℕ) (c : UInt32) : write32 n c = (4 * (n % 2 ^ 62), c) := by
  unfold write32
  simp only [Prod.mk.injEq, and_true]
  omega

/-- The index of a pixel of a character: the rows and columns are zoomed, and so is the place of the
character. -/
theorem mem_drawBit {offset zoom x y j i : ℕ} {color : UInt32} {write : PixelWrite} :
    write ∈ drawBit offset zoom x y color j i ↔
      ∃ jj ii, jj < zoom ∧ ii < zoom ∧
        write = (4 * ((zoom * (offset * y + x) + (zoom * j + jj) * offset + (zoom * i + ii)) %
          2 ^ 62), color) := by
  have hindex : ∀ jj ii,
      ((offset * zoom % 2 ^ 64 * (j + y) % 2 ^ 64 + jj * offset) % 2 ^ 64 +
          (zoom * i + zoom * x % 2 ^ 64) % 2 ^ 64 + ii) % 2 ^ 62 =
        (zoom * (offset * y + x) + (zoom * j + jj) * offset + (zoom * i + ii)) % 2 ^ 62 := by
    intro jj ii
    have hline : (offset * zoom % 2 ^ 64 * (j + y) % 2 ^ 64 + jj * offset) % 2 ^ 64 ≡
        offset * zoom * (j + y) + jj * offset [MOD 2 ^ 64] := by
      refine (Nat.mod_modEq _ _).trans (Nat.ModEq.add_right _ ?_)
      exact (Nat.mod_modEq _ _).trans ((Nat.mod_modEq _ _).mul_right _)
    have hcolumn : (zoom * i + zoom * x % 2 ^ 64) % 2 ^ 64 ≡ zoom * i + zoom * x [MOD 2 ^ 64] :=
      (Nat.mod_modEq _ _).trans ((Nat.mod_modEq _ _).add_left _)
    have hsum := ((hline.add hcolumn).add_right ii).of_dvd (pow_dvd_pow 2 (by decide : 62 ≤ 64))
    refine hsum.trans ?_
    rw [show offset * zoom * (j + y) + jj * offset + (zoom * i + zoom * x) + ii =
      zoom * (offset * y + x) + (zoom * j + jj) * offset + (zoom * i + ii) by ring]
  rw [drawBit]
  simp only [List.mem_flatMap, List.mem_range, List.mem_map, write32_mod, hindex]
  constructor
  · rintro ⟨jj, hjj, ii, hii, rfl⟩
    exact ⟨jj, ii, hjj, hii, rfl⟩
  · rintro ⟨jj, ii, hjj, hii, rfl⟩
    exact ⟨jj, hjj, ii, hii, rfl⟩

/-- A number below a multiple of the zoom, as a number of zoomed units and a rest. -/
theorem exists_zoomed {zoom n m : ℕ} :
    m < n * zoom ↔ ∃ j jj, j < n ∧ jj < zoom ∧ m = zoom * j + jj := by
  constructor
  · intro hm
    have hpos : 0 < zoom := Nat.pos_of_ne_zero fun hzero => by simp [hzero] at hm
    exact ⟨m / zoom, m % zoom, (Nat.div_lt_iff_lt_mul hpos).mpr hm, Nat.mod_lt _ hpos,
      (Nat.div_add_mod m zoom).symm⟩
  · rintro ⟨j, jj, hj, hjj, rfl⟩
    have := Nat.mul_le_mul_right zoom (show j + 1 ≤ n by omega)
    rw [add_mul, one_mul, mul_comm j] at this
    omega

/-- **The offsets that `Framebuffer_drawChar` writes**, when its assertions pass. -/
theorem drawCharWrites_eq {s : Display} (hbpp : s.bpp = 32) {x y : ℤ} (hfit : CharFits s x y)
    (hy : y + 15 < 2 ^ 31) (c : UInt8) (color : UInt32) :
    ∃ writes, drawCharWrites s c color x y = .ok writes ∧
      ∀ offset, (∃ color, (offset, color) ∈ writes) ↔
        ∃ r k, r < 16 * s.zoom ∧ k < 8 * s.zoom ∧
          offset = 4 * ((s.zoom * (line s * y.toNat + x.toNat) + r * line s + k) % 2 ^ 62) := by
  refine ⟨(List.range 16).flatMap fun j => (List.range 8).flatMap fun i =>
    drawBit (line s) s.zoom x.toNat y.toNat (colorToDraw s c color j i) j i, ?_, ?_⟩
  · rw [drawCharWrites, if_neg (not_not.mpr hfit.1), if_neg (not_not.mpr hfit.2),
      if_neg (by simp only [bitmapCharHeight]; omega), getLineOffset_eq hbpp, ok_bind]
    rfl
  · intro offset
    simp only [List.mem_flatMap, List.mem_range, mem_drawBit, Prod.mk.injEq, exists_zoomed]
    constructor
    · rintro ⟨color, j, hj, i, hi, jj, ii, hjj, hii, rfl, -⟩
      exact ⟨_, _, ⟨j, jj, hj, hjj, rfl⟩, ⟨i, ii, hi, hii, rfl⟩, rfl⟩
    · rintro ⟨r, k, ⟨j, jj, hj, hjj, rfl⟩, ⟨i, ii, hi, hii, rfl⟩, rfl⟩
      exact ⟨_, j, hj, i, hi, jj, ii, hjj, hii, rfl, rfl⟩

/-- The assertions pass, and no row overflows, if anything is written. -/
theorem charFits_of_ok {s : Display} {c : UInt8} {color : UInt32} {x y : ℤ}
    {writes : List PixelWrite}
    (h : drawCharWrites s c color x y = .ok writes) :
    CharFits s x y ∧ y + 15 < 2 ^ 31 := by
  rw [drawCharWrites] at h
  by_cases hx : 0 ≤ x ∧ (x + s.charWidth) % 2 ^ 32 < s.width.toNat
  · rw [if_neg (not_not.mpr hx)] at h
    by_cases hy : 0 ≤ y ∧ (y + s.charHeight) % 2 ^ 32 < s.height.toNat
    · rw [if_neg (not_not.mpr hy)] at h
      by_cases hrows : 2 ^ 31 ≤ y + (bitmapCharHeight - 1)
      · rw [if_pos hrows] at h
        simp at h
      · simp only [bitmapCharHeight] at hrows
        exact ⟨⟨hx, hy⟩, by omega⟩
    · rw [if_pos hy] at h
      simp at h
  · rw [if_pos hx] at h
    simp at h

/-! ### Cells -/

/-- A framebuffer of 32 bits per pixel without padding, whose lines are a multiple of 32 bytes. It
lies in the address space. -/
structure Unpadded (s : Display) : Prop where
  bpp : s.bpp = 32
  pitch_eq : s.pitch.toNat = 4 * s.width.toNat
  pitch_dvd : 32 ∣ s.pitch.toNat
  size_lt : s.pitch.toNat * s.height.toNat < 2 ^ 64

/-- The pixels of the cell at a cursor position, whose size is that of a zoomed character. -/
def InCell (s : State) (cursorX cursorY : ℕ) (p : Pixel) : Prop :=
  (cursorX * s.charWidth + s.drawOffsetX ≤ p.1 ∧
      p.1 < cursorX * s.charWidth + s.drawOffsetX + s.charWidth) ∧
    (cursorY * s.charHeight + s.drawOffsetY ≤ p.2 ∧
      p.2 < cursorY * s.charHeight + s.drawOffsetY + s.charHeight)

/-- The call of `Framebuffer_drawChar` that `Framebuffer_putchar` makes at a cursor position writes
exactly the pixels of its cell, and these are on the screen. -/
def DrawsCell (s : State) (c : UInt8) (cursorX cursorY : ℕ) : Prop :=
  ∃ writes,
    drawCharWrites s.toDisplay c s.fontColor (cellX s cursorX) (cellY s cursorY) = .ok writes ∧
      (∀ p, InCell s cursorX cursorY p → OnScreen s.toDisplay p) ∧
      ∀ offset, (∃ color, (offset, color) ∈ writes) ↔
        ∃ p, InCell s cursorX cursorY p ∧ offset = pixelOffset s.toDisplay p

/-- What it takes to draw a character in its cell: the assertions pass, and no coordinate of a row
overflows; the cell ends on the screen, and its size is that of the zoomed bitmap; and the index of
the pixel with the zoomed coordinates is that of the first pixel of the cell. -/
structure CellFits (s : State) (cursorX cursorY : ℕ) : Prop where
  asserts : CharFits s.toDisplay (cellX s cursorX) (cellY s cursorY)
  rows_lt : cellY s cursorY + 15 < 2 ^ 31
  right_le : cursorX * s.charWidth + s.drawOffsetX + s.charWidth ≤ s.width.toNat
  bottom_le : cursorY * s.charHeight + s.drawOffsetY + s.charHeight ≤ s.height.toNat
  width_eq : s.charWidth = 8 * s.zoom
  height_eq : s.charHeight = 16 * s.zoom
  index_eq : s.zoom * (s.width.toNat * (cellY s cursorY).toNat + (cellX s cursorX).toNat) ≡
    s.width.toNat * (cursorY * s.charHeight + s.drawOffsetY) +
      (cursorX * s.charWidth + s.drawOffsetX) [MOD 2 ^ 62]

/-- The column of pixels of a cell is as computed without overflow if it is below `2 ^ 31`. -/
theorem cellX_of_lt {s : State} {cursorX : ℕ} (h : cursorX * s.charWidth + s.drawOffsetX < 2 ^ 31) :
    cellX s cursorX = (cursorX * s.charWidth + s.drawOffsetX : ℕ) := toInt_of_lt h

/-- The line of pixels of a cell is as computed without overflow if it is below `2 ^ 31`. -/
theorem cellY_of_lt {s : State} {cursorY : ℕ}
    (h : cursorY * s.charHeight + s.drawOffsetY < 2 ^ 31) :
    cellY s cursorY = (cursorY * s.charHeight + s.drawOffsetY : ℕ) := toInt_of_lt h

/-- The distance of two lines is the width of the screen. -/
theorem Unpadded.line_eq {s : Display} (hs : Unpadded s) : line s = s.width.toNat := by
  have hpitch := hs.pitch_eq
  obtain ⟨k, hk⟩ := hs.pitch_dvd
  rw [line, hk, Nat.mul_div_cancel_left _ (by decide)]
  omega

/-- Without padding a pixel of the screen has its place at four times its number, line by
line. -/
theorem Unpadded.pixelOffset_eq {s : Display} (hs : Unpadded s) (p : Pixel) :
    pixelOffset s p = 4 * (s.width.toNat * p.2 + p.1) := by
  rw [pixelOffset, hs.pitch_eq]
  ring

/-- The numbers of the pixels of a cell are those of a rectangle with the cell's corner and the
size of a character. -/
theorem inCell_iff {s : State} {cursorX cursorY n : ℕ} :
    (∃ p, InCell s cursorX cursorY p ∧ n = s.width.toNat * p.2 + p.1) ↔
      InRectangle s.width.toNat (cursorX * s.charWidth + s.drawOffsetX)
        (cursorY * s.charHeight + s.drawOffsetY) s.charWidth s.charHeight n := by
  constructor
  · rintro ⟨p, ⟨⟨hx, hx'⟩, hy, hy'⟩, rfl⟩
    refine ⟨p.1 - (cursorX * s.charWidth + s.drawOffsetX),
      p.2 - (cursorY * s.charHeight + s.drawOffsetY), by omega, by omega, ?_⟩
    rw [Nat.add_sub_cancel' hx, Nat.add_sub_cancel' hy]
  · rintro ⟨i, j, hi, hj, rfl⟩
    exact ⟨(_, _), ⟨⟨Nat.le_add_right _ i, by simp only; omega⟩, Nat.le_add_right _ j,
      by simp only; omega⟩, rfl⟩

section Cells

variable {s : State} (hs : Unpadded s.toDisplay) {c : UInt8} {cursorX cursorY : ℕ}

include hs

/-- The pixels of the screen have indices below `2 ^ 62`. -/
theorem Unpadded.size_lt' : s.width.toNat * s.height.toNat < 2 ^ 62 := by
  have hsize := hs.size_lt
  rw [hs.pitch_eq, mul_assoc] at hsize
  omega

/-- A character that fits is drawn exactly in its cell. -/
theorem CellFits.drawsCell (hfit : CellFits s cursorX cursorY) : DrawsCell s c cursorX cursorY := by
  obtain ⟨writes, hwrites, hmem⟩ :=
    drawCharWrites_eq hs.bpp hfit.asserts hfit.rows_lt c s.fontColor
  have hright := hfit.right_le
  have hbottom := hfit.bottom_le
  have hsize := Unpadded.size_lt' hs
  refine ⟨writes, hwrites, ?_, ?_⟩
  · rintro p ⟨⟨-, hx⟩, -, hy⟩
    exact ⟨by omega, by omega⟩
  · have hindex : ∀ r k, r < s.charHeight → k < s.charWidth →
        (s.zoom * (s.width.toNat * (cellY s cursorY).toNat + (cellX s cursorX).toNat) +
            r * s.width.toNat + k) % 2 ^ 62 =
          s.width.toNat * (cursorY * s.charHeight + s.drawOffsetY + r) +
            (cursorX * s.charWidth + s.drawOffsetX + k) := by
      intro r k hr hk
      have hrow := Nat.mul_le_mul_left s.width.toNat
        (show cursorY * s.charHeight + s.drawOffsetY + r + 1 ≤ s.height.toNat by omega)
      rw [mul_add, mul_one] at hrow
      have hmod := (hfit.index_eq.add_right (r * s.width.toNat)).add_right k
      refine Eq.trans hmod ?_
      rw [show s.width.toNat * (cursorY * s.charHeight + s.drawOffsetY) +
          (cursorX * s.charWidth + s.drawOffsetX) + r * s.width.toNat + k =
        s.width.toNat * (cursorY * s.charHeight + s.drawOffsetY + r) +
          (cursorX * s.charWidth + s.drawOffsetX + k) by ring]
      exact Nat.mod_eq_of_lt (by omega)
    intro offset
    rw [hmem, hs.line_eq, ← hfit.width_eq, ← hfit.height_eq]
    simp only [hs.pixelOffset_eq]
    constructor
    · rintro ⟨r, k, hr, hk, rfl⟩
      obtain ⟨p, hp, heq⟩ := inCell_iff.mpr ⟨k, r, hk, hr, rfl⟩
      exact ⟨p, hp, by rw [hindex r k hr hk, heq]⟩
    · rintro ⟨p, hp, rfl⟩
      obtain ⟨k, r, hk, hr, heq⟩ := inCell_iff.mp ⟨p, hp, rfl⟩
      exact ⟨r, k, hr, hk, by rw [hindex r k hr hk, heq]⟩

/-- **When a character is drawn exactly in its cell.** The size of a character is that of the zoomed
bitmap, modulo `2 ^ 32`, and is not zero. -/
theorem drawsCell_iff (hwidth : s.charWidth = s.zoom * 8 % 2 ^ 32) (hwidth0 : 0 < s.charWidth)
    (hheight : s.charHeight = s.zoom * 16 % 2 ^ 32) (hheight0 : 0 < s.charHeight) :
    DrawsCell s c cursorX cursorY ↔ CellFits s cursorX cursorY := by
  refine ⟨?_, CellFits.drawsCell hs⟩
  rintro ⟨writes, hwrites, hon, hcell⟩
  obtain ⟨hasserts, hrows⟩ := charFits_of_ok hwrites
  obtain ⟨writes', hwrites', hmem⟩ := drawCharWrites_eq hs.bpp hasserts hrows c s.fontColor
  obtain rfl := Except.ok.inj (hwrites.symm.trans hwrites')
  -- The last pixel of the cell is on the screen.
  obtain ⟨hright, hbottom⟩ := hon (cursorX * s.charWidth + s.drawOffsetX + s.charWidth - 1,
    cursorY * s.charHeight + s.drawOffsetY + s.charHeight - 1)
    ⟨⟨by simp only; omega, by simp only; omega⟩, by simp only; omega, by simp only; omega⟩
  simp only at hright hbottom
  have hnarrow : s.charWidth < s.width.toNat := by
    by_contra hwide
    have hzero : cursorX * s.charWidth + s.drawOffsetX = 0 := by omega
    have horigin := @cellX_of_lt s cursorX (by omega)
    rw [hzero, Nat.cast_zero] at horigin
    have hx := hasserts.1.2
    rw [horigin, zero_add] at hx
    have hmod : (s.charWidth : ℤ) % 2 ^ 32 = s.charWidth := Int.emod_eq_of_lt (by omega) (by omega)
    rw [hmod] at hx
    omega
  obtain ⟨hw, hh, hindex⟩ := @rectangle_unique s.width.toNat s.height.toNat
    (cursorX * s.charWidth + s.drawOffsetX) (cursorY * s.charHeight + s.drawOffsetY)
    s.charWidth s.charHeight (8 * s.zoom) (16 * s.zoom)
    (s.zoom * (s.width.toNat * (cellY s cursorY).toNat + (cellX s cursorX).toNat)) (2 ^ 62)
    (by omega) hnarrow hwidth0 (by omega) hheight0 (Unpadded.size_lt' hs) (by omega) (by omega) (by
      intro r k hr hk
      obtain ⟨p, hp, heq⟩ := (hcell _).mp ((hmem _).mpr ⟨r, k, hr, hk, rfl⟩)
      rw [hs.pixelOffset_eq, hs.line_eq] at heq
      exact inCell_iff.mp ⟨p, hp, Nat.eq_of_mul_eq_mul_left (by decide) heq⟩)
  have hlast := Nat.mul_le_mul_left s.width.toNat
    (show cursorY * s.charHeight + s.drawOffsetY + 1 ≤ s.height.toNat by omega)
  have hsize := Unpadded.size_lt' hs
  rw [mul_add, mul_one] at hlast
  exact ⟨hasserts, hrows, by omega, by omega, hw.symm, hh.symm,
    hindex.trans (Nat.mod_eq_of_lt (by omega)).symm⟩

end Cells

/-- Of two cells in which there is a common coordinate the first one is not behind the second
one. -/
theorem position_le {a b n m q : ℕ} (ha : a * n + m ≤ q) (hb : q < b * n + m + n) : a ≤ b := by
  by_contra hlt
  have := Nat.mul_le_mul_right n (show b + 1 ≤ a by omega)
  rw [add_mul, one_mul] at this
  omega

/-- Distinct cursor positions have distinct cells: a pixel is in one of them at most. -/
theorem inCell_unique {s : State} {cursorX cursorY cursorX' cursorY' : ℕ} {p : Pixel}
    (h : InCell s cursorX cursorY p) (h' : InCell s cursorX' cursorY' p) :
    cursorX = cursorX' ∧ cursorY = cursorY' := by
  obtain ⟨⟨hx, hx'⟩, hy, hy'⟩ := h
  obtain ⟨⟨hu, hu'⟩, hv, hv'⟩ := h'
  exact ⟨le_antisymm (position_le hx hu') (position_le hu hx'),
    le_antisymm (position_le hy hv') (position_le hv hy')⟩

/-! ### The zoom -/

/-- A number of characters has been computed without a division by zero. -/
theorem divisor_pos {size : UInt64} {offset bitmap zoom limit n : ℕ}
    (h : maxChar size offset bitmap zoom limit = .ok n) : 0 < bitmap * zoom % 2 ^ 32 := by
  by_contra hzero
  rw [maxChar] at h
  simp only [show bitmap * zoom % 2 ^ 32 = 0 by omega, if_true] at h
  simp at h

/-- At the smallest zoom the characters fit the screen, with a border, if the border does. -/
theorem maxChar_one {size : UInt64} {bitmap limit n : ℕ} (hbitmap : 8 ≤ bitmap)
    (hbitmap' : bitmap ≤ 16) (hlimit : limit ≤ 512) (hsize : 8 ≤ size.toNat)
    (h : maxChar size 4 bitmap 1 limit = .ok n) : n * bitmap + 8 ≤ size.toNat ∧ n ≤ limit := by
  have hsize' := size.toNat_lt
  rw [maxChar_eq size hbitmap hbitmap' hlimit, Except.ok.injEq,
    show (size.toNat + 2 ^ 64 - 8) % 2 ^ 64 = size.toNat - 8 by omega] at h
  subst h
  have hle := Nat.mul_le_mul_right bitmap (min_le_left ((size.toNat - 8) / bitmap) limit)
  have hdiv := Nat.div_mul_le_self (size.toNat - 8) bitmap
  exact ⟨by omega, min_le_right _ _⟩

/-- **What `Framebuffer_setZoom` sets**: the zoom, the sizes of a character, and how many of
them fit. -/
theorem setZoom_spec {s s' : State} {zoom : ℕ} (hzoom : 1 ≤ zoom) (h : setZoom s zoom = .ok s') :
    maxChar s.width s.drawOffsetX 8 zoom maxTerminalWidth = .ok s'.textWidth ∧
      maxChar s.height s.drawOffsetY 16 zoom maxTerminalHeight = .ok s'.textHeight ∧
      s'.zoom = zoom ∧ s'.charWidth = zoom * 8 % 2 ^ 32 ∧ s'.charHeight = zoom * 16 % 2 ^ 32 ∧
      s'.bpp = s.bpp ∧ s'.pitch = s.pitch ∧ s'.width = s.width ∧ s'.height = s.height ∧
      s'.drawOffsetX = s.drawOffsetX ∧ s'.drawOffsetY = s.drawOffsetY := by
  rw [setZoom, if_neg (by omega)] at h
  obtain ⟨textWidth, hwidth, h⟩ := bind_eq_ok.mp h
  obtain ⟨textHeight, hheight, h⟩ := bind_eq_ok.mp h
  obtain rfl := Except.ok.inj h
  exact ⟨hwidth, hheight, rfl, rfl, rfl, rfl, rfl, rfl, rfl, rfl, rfl⟩

/-- The index of the first pixel of a zoomed character that is four pixels from both borders is that
of its cell only at the smallest zoom. -/
theorem zoom_eq_one {W zoom : ℕ} (hW : 2 ∣ W) (hpos : 1 ≤ zoom) (hlt : zoom < 2 ^ 32)
    (h : zoom * (W * 4 + 4) ≡ W * 4 + 4 [MOD 2 ^ 62]) : zoom = 1 := by
  obtain ⟨k, rfl⟩ : ∃ k, zoom = k + 1 := ⟨zoom - 1, by omega⟩
  have hdvd : 2 ^ 62 ∣ k * (W * 4 + 4) := by
    have hzero : k * (W * 4 + 4) + (W * 4 + 4) ≡ 0 + (W * 4 + 4) [MOD 2 ^ 62] := by
      rw [zero_add]
      rwa [add_mul, one_mul] at h
    exact (Nat.modEq_zero_iff_dvd).mp (hzero.add_right_cancel' _)
  have hsplit : k * (W * 4 + 4) = 4 * (k * (W + 1)) := by ring
  rw [hsplit, show 2 ^ 62 = 4 * 2 ^ 60 by norm_num] at hdvd
  have hodd : Nat.Coprime (2 ^ 60) (W + 1) := by
    apply Nat.Coprime.pow_left
    rw [Nat.coprime_two_left]
    exact (even_iff_two_dvd.mpr hW).add_one
  have hk : 2 ^ 60 ∣ k := hodd.dvd_of_dvd_mul_right (Nat.dvd_of_mul_dvd_mul_left (by decide) hdvd)
  rcases Nat.eq_zero_or_pos k with rfl | hkpos
  · rfl
  · have := Nat.le_of_dvd hkpos hk
    omega

/-- At the smallest zoom every character fits, with the borders that are set at the start, if these
are on the screen. -/
theorem cellFits_one {s s' : State} {zoom : ℕ} (hset : setZoom s zoom = .ok s') (hone : zoom = 1)
    (hoffset : s.drawOffsetX = 4) (hoffset' : s.drawOffsetY = 4)
    (hwidth : 8 ≤ s.width.toNat) (hheight : 8 ≤ s.height.toNat) {cursorX cursorY : ℕ}
    (hx : cursorX < s'.textWidth) (hy : cursorY < s'.textHeight) : CellFits s' cursorX cursorY := by
  subst hone
  obtain ⟨htw, hth, hz, hcw, hch, -, -, hw, hh, hox, hoy⟩ := setZoom_spec (le_refl 1) hset
  rw [hoffset] at htw hox
  rw [hoffset'] at hth hoy
  obtain ⟨hfits, hlimit⟩ := maxChar_one (by decide) (by decide) (by decide) hwidth htw
  obtain ⟨hfits', hlimit'⟩ := maxChar_one (by decide) (by decide) (by decide) hheight hth
  have hcw8 : s'.charWidth = 8 := hcw
  have hch16 : s'.charHeight = 16 := hch
  simp only [maxTerminalWidth, maxTerminalHeight] at hlimit hlimit'
  have hcellX := @cellX_of_lt s' cursorX (by rw [hcw8, hox]; omega)
  have hcellY := @cellY_of_lt s' cursorY (by rw [hch16, hoy]; omega)
  have hasserts : CharFits s'.toDisplay (cellX s' cursorX) (cellY s' cursorY) := by
    rw [CharFits, hcellX, hcellY, hcw8, hch16, hox, hoy, hw, hh]
    omega
  refine ⟨hasserts, ?_, ?_, ?_, by rw [hcw8, hz], by rw [hch16, hz], ?_⟩
  · rw [hcellY, hch16, hoy]
    omega
  · rw [hcw8, hox, hw]
    omega
  · rw [hch16, hoy, hh]
    omega
  · rw [hz, one_mul, hcellX, hcellY, Int.toNat_natCast, Int.toNat_natCast]

section Zoomed

variable {s s' : State} {zoom : ℕ} (hs : Unpadded s.toDisplay) (hzoom : 1 ≤ zoom)
  (hset : setZoom s zoom = .ok s')

include hs hzoom hset

/-- The framebuffer is the same after its zoom has been set. -/
theorem unpadded_setZoom : Unpadded s'.toDisplay := by
  obtain ⟨-, -, -, -, -, hbpp, hpitch, hwidth, hheight, -⟩ := setZoom_spec hzoom hset
  constructor
  · rw [hbpp, hs.bpp]
  · rw [hpitch, hwidth, hs.pitch_eq]
  · rw [hpitch]
    exact hs.pitch_dvd
  · rw [hpitch, hheight]
    exact hs.size_lt

/-- When a character is drawn exactly in its cell, after the zoom has been set. -/
theorem setZoom_drawsCell_iff (c : UInt8) (cursorX cursorY : ℕ) :
    DrawsCell s' c cursorX cursorY ↔ CellFits s' cursorX cursorY := by
  obtain ⟨htw, hth, hz, hcw, hch, -⟩ := setZoom_spec hzoom hset
  have hwidth := divisor_pos htw
  have hheight := divisor_pos hth
  rw [mul_comm] at hwidth hheight
  exact drawsCell_iff (unpadded_setZoom hs hzoom hset) (hz ▸ hcw) (hcw ▸ hwidth) (hz ▸ hch)
    (hch ▸ hheight)

/-- With the borders that are set at the start, the first character fits only at the smallest
zoom. -/
theorem CellFits.zoom_eq_one (hlt : zoom < 2 ^ 32) (hoffset : s.drawOffsetX = 4)
    (hoffset' : s.drawOffsetY = 4) (h : CellFits s' 0 0) :
    zoom = 1 ∧ 8 ≤ s.width.toNat ∧ 8 ≤ s.height.toNat := by
  obtain ⟨-, -, hz, hcw, hch, -, -, hw, hh, hox, hoy⟩ := setZoom_spec hzoom hset
  rw [hoffset] at hox
  rw [hoffset'] at hoy
  have hcellX := @cellX_of_lt s' 0 (by omega)
  have hcellY := @cellY_of_lt s' 0 (by omega)
  have hindex := h.index_eq
  have hright := h.right_le
  have hbottom := h.bottom_le
  have heven : 2 ∣ s.width.toNat := by
    have hpitch := hs.pitch_eq
    obtain ⟨k, hk⟩ := hs.pitch_dvd
    exact ⟨4 * k, by omega⟩
  simp only [hcellX, hcellY, Int.toNat_natCast, zero_mul, zero_add, hz, hw, hox, hoy] at hindex
  have hone := Framebuffer.zoom_eq_one heven hzoom hlt hindex
  subst hone
  have hcw8 : s'.charWidth = 8 := hcw
  have hch16 : s'.charHeight = 16 := hch
  rw [hw, hcw8] at hright
  rw [hh, hch16] at hbottom
  exact ⟨rfl, by omega, by omega⟩

/-- **When zoomed text stays in its cells.** For every framebuffer without padding, every zoom
that is set, and every cursor position of a text window with columns and lines: the call of
`Framebuffer_drawChar` writes exactly the pixels of the cell, and these are on the screen, if
and only if the cell fits, in the sense of `CellFits`. Cells of distinct positions have no
common pixel. With the borders that are set at the start this holds for all positions if and
only if the zoom is one and the screen is not smaller than the borders. -/
theorem zoomed_cells_iff (hlt : zoom < 2 ^ 32) (hwidth : 1 ≤ s'.textWidth)
    (hheight : 1 ≤ s'.textHeight) :
    (∀ c cursorX cursorY, cursorX < s'.textWidth → cursorY < s'.textHeight →
      (DrawsCell s' c cursorX cursorY ↔ CellFits s' cursorX cursorY)) ∧
    (∀ cursorX cursorY cursorX' cursorY' p, InCell s' cursorX cursorY p →
      InCell s' cursorX' cursorY' p → cursorX = cursorX' ∧ cursorY = cursorY') ∧
    (s.drawOffsetX = 4 → s.drawOffsetY = 4 →
      ((∀ c cursorX cursorY, cursorX < s'.textWidth → cursorY < s'.textHeight →
          DrawsCell s' c cursorX cursorY) ↔
        zoom = 1 ∧ 8 ≤ s.width.toNat ∧ 8 ≤ s.height.toNat)) := by
  refine ⟨fun c x y _ _ => setZoom_drawsCell_iff hs hzoom hset c x y,
    fun _ _ _ _ _ => inCell_unique, ?_⟩
  intro hoffset hoffset'
  constructor
  · intro hall
    have hfirst := (setZoom_drawsCell_iff hs hzoom hset 0 0 0).mp (hall 0 0 0 hwidth hheight)
    exact CellFits.zoom_eq_one hs hzoom hset hlt hoffset hoffset' hfirst
  · rintro ⟨hone, hwidth8, hheight8⟩ c cursorX cursorY hx hy
    exact (setZoom_drawsCell_iff hs hzoom hset c cursorX cursorY).mpr
      (cellFits_one hset hone hoffset hoffset' hwidth8 hheight8 hx hy)

end Zoomed

/-- A framebuffer with a resolution of 640 × 480 pixels, before its zoom has been set. -/
def vgaState : State where
  address := 0xe0000000
  width := 640
  height := 480
  pitch := 2560
  bpp := 32
  clearColor := 0
  fontColor := 0xffffff
  drawOffsetX := 4
  drawOffsetY := 4
  zoom := 0
  charWidth := 0
  charHeight := 0
  textWidth := 0
  textHeight := 0
  cursorX := 0
  cursorY := 0
  text := fun _ => 0
  endlinePos := 0
  accesses := []
  draws := []

/-- The lines of the framebuffer of 640 by 480 pixels follow each other without padding. -/
theorem unpadded_vgaState : Unpadded vgaState.toDisplay :=
  ⟨by decide, by decide, by decide, by decide⟩

/-- The framebuffer after its zoom has been set, with the sizes that were computed from it. -/
def vgaZoomed (zoom textWidth textHeight : ℕ) : State :=
  { vgaState with
    zoom := zoom
    charWidth := zoom * 8 % 2 ^ 32
    charHeight := zoom * 16 % 2 ^ 32
    textWidth := textWidth
    textHeight := textHeight }

/-- Setting a zoom on this framebuffer gives the number of characters that fit with it. -/
theorem setZoom_vga {zoom textWidth textHeight : ℕ} (hzoom : zoom ≠ 0)
    (hwidth : maxChar 640 4 8 zoom maxTerminalWidth = .ok textWidth)
    (hheight : maxChar 480 4 16 zoom maxTerminalHeight = .ok textHeight) :
    setZoom vgaState zoom = .ok (vgaZoomed zoom textWidth textHeight) := by
  have hwidth' : maxChar vgaState.width vgaState.drawOffsetX bitmapCharWidth zoom maxTerminalWidth =
      .ok textWidth := hwidth
  have hheight' : maxChar vgaState.height vgaState.drawOffsetY bitmapCharHeight zoom
      maxTerminalHeight = .ok textHeight := hheight
  rw [setZoom, if_neg hzoom, hwidth', ok_bind, hheight', ok_bind]
  rfl

/-- The statement for the smallest zoom and the last cell. -/
theorem zoomed_cells_vga : DrawsCell (vgaZoomed 1 79 29) 65 78 28 := by
  have hset := @setZoom_vga 1 79 29 (by decide) (by decide +kernel) (by decide +kernel)
  exact ((zoomed_cells_iff unpadded_vgaState (by decide) hset (by decide) (by decide)
    (by decide)).2.2 rfl rfl).mpr ⟨rfl, by decide, by decide⟩ 65 78 28 (by decide) (by decide)

/-- **Text outside of its cell**: at zoom two, the first character is not drawn in its cell, and the
first character of the last line is written behind the end of the framebuffer. -/
theorem vga_zoom_two :
    setZoom vgaState 2 = .ok (vgaZoomed 2 39 14) ∧
      ¬ DrawsCell (vgaZoomed 2 39 14) 65 0 0 ∧
      ∃ writes color,
        drawCharWrites (vgaZoomed 2 39 14).toDisplay 65 0xffffff (cellX (vgaZoomed 2 39 14) 0)
          (cellY (vgaZoomed 2 39 14) 13) = .ok writes ∧
        (2150432, color) ∈ writes ∧ vgaState.pitch.toNat * vgaState.height.toNat = 1228800 := by
  have hset := @setZoom_vga 2 39 14 (by decide) (by decide +kernel) (by decide +kernel)
  have hs := unpadded_setZoom unpadded_vgaState (by decide) hset
  refine ⟨hset, ?_, ?_⟩
  · intro hcell
    have hfits := (setZoom_drawsCell_iff unpadded_vgaState (by decide) hset 65 0 0).mp hcell
    have hone := (CellFits.zoom_eq_one unpadded_vgaState (by decide) hset (by decide) rfl rfl
      hfits).1
    omega
  · obtain ⟨writes, hwrites, hmem⟩ :=
      @drawCharWrites_eq (vgaZoomed 2 39 14).toDisplay hs.bpp (cellX (vgaZoomed 2 39 14) 0)
        (cellY (vgaZoomed 2 39 14) 13) ⟨by decide +kernel, by decide +kernel⟩ (by decide +kernel)
        65 0xffffff
    obtain ⟨color, hcolor⟩ :=
      (hmem 2150432).mpr ⟨0, 0, by decide +kernel, by decide +kernel, by decide +kernel⟩
    exact ⟨writes, color, hwrites, hcolor, by decide +kernel⟩

end MugOS.Framebuffer
