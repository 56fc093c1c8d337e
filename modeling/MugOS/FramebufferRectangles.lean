import MugOS.FramebufferPixels

/-!
# Rectangles of the Framebuffer

Which pixels the functions that draw rectangles write, for all sides that their assertions accept.
`Framebuffer_fillRectangle` writes the pixels of its rectangle, also if it is empty.
`Framebuffer_drawRectangle` draws its four sides without regard to the others: with an empty side
there is no border, but the sides that are not empty are drawn, and the right side begins one pixel
to the left.

## Main results

* `fillRectangle_exact`: a rectangle is filled exactly.
* `rectangles_exact_iff`: when a border is drawn exactly.
-/

namespace MugOS.Framebuffer

/-- The pixels of a rectangle with its corner at `(x, y)`, a width and a height. -/
def Inside (x y width height : ℕ) (p : Pixel) : Prop :=
  (x ≤ p.1 ∧ p.1 < x + width) ∧ (y ≤ p.2 ∧ p.2 < y + height)

/-- The pixels of a rectangle that are in its first or last column, or in its first or last row. -/
def OnBorder (x y width height : ℕ) (p : Pixel) : Prop :=
  Inside x y width height p ∧
    (p.1 = x ∨ p.1 + 1 = x + width ∨ p.2 = y ∨ p.2 + 1 = y + height)

/-- Exactly the given pixels are written, each with the given colour, and all writes are inside the
framebuffer. -/
def WritesExactly (s : Display) (pixels : Pixel → Prop) (c : UInt32)
    (result : Except Fault (List PixelWrite)) : Prop :=
  ∃ writes, result = .ok writes ∧
    (∀ write, write ∈ writes ↔ ∃ p, pixels p ∧ write = (pixelOffset s p, c)) ∧
    ∀ write ∈ writes, write.1 + 4 ≤ s.pitch.toNat * s.height.toNat

/-- An image of one colour that is painted is written exactly. -/
theorem Paints.writesExactly {s : Display} (hs : Screen s) {image : List (Pixel × UInt32)}
    {result : Except Fault (List PixelWrite)} (h : Paints s image result) {pixels : Pixel → Prop}
    {c : UInt32} (himage : ∀ p, p ∈ image ↔ pixels p.1 ∧ p.2 = c) :
    WritesExactly s pixels c result := by
  obtain ⟨hon, rfl⟩ := h
  refine ⟨_, rfl, ?_, Paints.in_bounds hs ⟨hon, rfl⟩⟩
  intro write
  rw [List.mem_map]
  constructor
  · rintro ⟨p, hp, rfl⟩
    obtain ⟨hpixel, hcolor⟩ := (himage p).mp hp
    exact ⟨p.1, hpixel, by rw [hcolor]⟩
  · rintro ⟨p, hpixel, rfl⟩
    exact ⟨(p, c), (himage (p, c)).mpr ⟨hpixel, rfl⟩, rfl⟩

/-- The pixels of a block of one colour are those inside of the rectangle, in this colour. -/
theorem mem_block_iff {x y width height : ℕ} {c : UInt32} {p : Pixel × UInt32} :
    p ∈ block x y width height (fun _ _ => c) ↔ Inside x y width height p.1 ∧ p.2 = c := by
  rw [mem_block]
  constructor
  · rintro ⟨i, j, hi, hj, rfl⟩
    exact ⟨⟨by simp only; omega, by simp only; omega⟩, rfl⟩
  · rintro ⟨⟨⟨hx, hx'⟩, hy, hy'⟩, hc⟩
    refine ⟨p.1.1 - x, p.1.2 - y, by omega, by omega, ?_⟩
    rw [Nat.add_sub_cancel' hx, Nat.add_sub_cancel' hy, ← hc]

/-- The pixels of a border with no empty side are those on the border, in its colour. -/
theorem mem_border_iff {x y width height : ℕ} (hwidth : 1 ≤ width) (hheight : 1 ≤ height)
    {c : UInt32} {p : Pixel × UInt32} :
    p ∈ border x y width height c ↔ OnBorder x y width height p.1 ∧ p.2 = c := by
  obtain ⟨⟨i, j⟩, color⟩ := p
  simp only [border, List.mem_append, mem_block_iff, OnBorder, Inside]
  constructor
  · rintro (((⟨h, hc⟩ | ⟨h, hc⟩) | ⟨h, hc⟩) | ⟨h, hc⟩)
    all_goals exact ⟨⟨⟨by omega, by omega⟩, by omega⟩, hc⟩
  · rintro ⟨⟨hin, hside⟩, hc⟩
    rcases hside with h | h | h | h
    · exact .inl (.inl (.inr ⟨by omega, hc⟩))
    · exact .inl (.inr ⟨by omega, hc⟩)
    · exact .inl (.inl (.inl ⟨by omega, hc⟩))
    · exact .inr ⟨by omega, hc⟩

/-- A rectangle with an empty side has no pixels on its border. -/
theorem not_onBorder {x y width height : ℕ} (h : width = 0 ∨ height = 0) (p : Pixel) :
    ¬ OnBorder x y width height p := by
  rintro ⟨⟨hx, hy⟩, -⟩
  omega

/-- A result that writes exactly no pixel writes nothing at all. -/
theorem WritesExactly.eq_nil {s : Display} {pixels : Pixel → Prop} {c : UInt32}
    {result : Except Fault (List PixelWrite)} (h : WritesExactly s pixels c result)
    (hnone : ∀ p, ¬ pixels p) : result = .ok [] := by
  obtain ⟨writes, hresult, hwrites, -⟩ := h
  cases writes with
  | nil => exact hresult
  | cons write writes =>
      obtain ⟨p, hp, -⟩ := (hwrites write).mp (by simp)
      exact absurd hp (hnone p)

/-- To write nothing is to write exactly the pixels of an empty set. -/
theorem writesExactly_nil {s : Display} {pixels : Pixel → Prop} {c : UInt32}
    (hnone : ∀ p, ¬ pixels p) : WritesExactly s pixels c (.ok []) :=
  ⟨[], rfl, fun _ => ⟨fun hwrite => by simp at hwrite, fun ⟨p, hp, _⟩ => absurd hp (hnone p)⟩,
    by simp⟩

/-! ### Loops without rounds -/

/-- A loop whose variable is not below its bound ends at once. -/
theorem unsignedLoop_done {bound step j : ℕ} (h : bound ≤ j) :
    unsignedLoop bound step maxRounds j = .ok [] := by
  rw [maxRounds, unsignedLoop, if_neg (by omega)]

/-- A loop whose variable is below its bound has a round. -/
theorem unsignedLoop_ne_nil {bound step j : ℕ} (h : j < bound) :
    unsignedLoop bound step maxRounds j ≠ .ok [] := by
  rw [maxRounds, unsignedLoop, if_pos h]
  intro hnil
  obtain ⟨rest, -, hcons⟩ := bind_eq_ok.mp hnil
  simp [pure, Except.pure] at hcons

section Rectangles

variable {s : Display} (hs : Screen s) (hlines : LinesExact s) {x y width height : ℕ}
  (hfit : OnScreen s (x + width, y + height))

include hs hlines hfit

/-- **A rectangle is filled exactly**, with empty sides as well. -/
theorem fillRectangle_exact (c : UInt32) :
    WritesExactly s (Inside x y width height) c (fillRectangle s x y width height c) :=
  (fillRectangle_paints hs hlines hfit c).writesExactly hs fun _ => mem_block_iff

/-- If nothing is drawn, none of the first three loops has a round. -/
theorem drawRectangle_nil {c : UInt32} (h : drawRectangle s x y width height c = .ok []) :
    width = 0 ∧ height = 0 ∧
      line s * (y + height) ≤ toUnsigned ((line s * y + (x + width) : ℕ) - 1) := by
  rw [drawRectangle_eq hs hlines hfit] at h
  obtain ⟨top, htop, h⟩ := bind_eq_ok.mp h
  obtain ⟨left, hleft, h⟩ := bind_eq_ok.mp h
  obtain ⟨right, hright, h⟩ := bind_eq_ok.mp h
  obtain ⟨bottom, hbottom, h⟩ := bind_eq_ok.mp h
  have hnil := Except.ok.inj h
  simp only [List.map_eq_nil_iff, List.append_eq_nil_iff] at hnil
  obtain ⟨⟨⟨rfl, rfl⟩, rfl⟩, -⟩ := hnil
  have hfx := hfit.1
  have hfy := hfit.2
  simp only at hfx hfy
  refine ⟨?_, ?_, ?_⟩
  · by_contra hwidth
    exact unsignedLoop_ne_nil (by omega) htop
  · by_contra hheight
    have hline := width_le_line hs hlines hfit (by omega)
    have hmul := Nat.mul_le_mul_left (line s) (show y + 1 ≤ y + height by omega)
    rw [mul_add, mul_one] at hmul
    exact unsignedLoop_ne_nil (by omega) hleft
  · by_contra hlt
    exact unsignedLoop_ne_nil (by omega) hright

/-- With two empty sides the right side has no round if the rectangle is not in the first column, or
is in the first row. -/
theorem drawRectangle_empty (hwidth : width = 0) (hheight : height = 0) (hcorner : 0 < x ∨ y = 0)
    (c : UInt32) : drawRectangle s x y width height c = .ok [] := by
  obtain ⟨hx, hy, hline⟩ := final_lt hs hlines hfit
  have hindex := index_lt hs hlines hfit
  subst hwidth
  subst hheight
  have heq := drawRectangle_eq hs hlines hfit c
  simp only [add_zero] at heq hindex
  have hright : line s * y ≤ toUnsigned ((line s * y + x : ℕ) - 1) := by
    rcases hcorner with hx | rfl
    · unfold toUnsigned
      omega
    · simp
  rw [heq, unsignedLoop_done (le_refl _), ok_bind, unsignedLoop_done (Nat.le_add_right _ _),
    ok_bind, unsignedLoop_done hright, ok_bind, unsignedLoop_done (le_refl _), ok_bind]
  rfl

/-- **When a border is drawn exactly**: if both sides are not empty, or if both are and the
writes, which go to the left and above, stay off the screen. -/
theorem drawRectangle_exact_iff (c : UInt32) :
    WritesExactly s (OnBorder x y width height) c (drawRectangle s x y width height c) ↔
      (0 < width ∧ 0 < height) ∨ (width = 0 ∧ height = 0 ∧ (0 < x ∨ y = 0)) := by
  by_cases hempty : width = 0 ∨ height = 0
  · have hnone := @not_onBorder x y width height hempty
    constructor
    · intro h
      obtain ⟨rfl, rfl, hright⟩ := drawRectangle_nil hs hlines hfit (h.eq_nil hnone)
      refine .inr ⟨rfl, rfl, ?_⟩
      by_contra hcorner
      obtain ⟨rfl, hy⟩ : x = 0 ∧ 0 < y := by omega
      have hindex := index_lt hs hlines hfit
      have hline := width_le_line hs hlines hfit hy
      have hfx := hfit.1
      simp only at hfx
      have hpos : 0 < line s * y := Nat.mul_pos (by omega) hy
      simp only [add_zero] at hindex hright
      rw [toUnsigned] at hright
      omega
    · intro h
      obtain ⟨hwidth, hheight, hcorner⟩ : width = 0 ∧ height = 0 ∧ (0 < x ∨ y = 0) := by omega
      rw [drawRectangle_empty hs hlines hfit hwidth hheight hcorner]
      exact writesExactly_nil hnone
  · obtain ⟨hwidth, hheight⟩ : 1 ≤ width ∧ 1 ≤ height := by omega
    refine iff_of_true ?_ (.inl ⟨hwidth, hheight⟩)
    exact (drawRectangle_paints hs hlines hfit hwidth hheight c).writesExactly hs
      fun _ => mem_border_iff hwidth hheight

end Rectangles

/-- **When rectangles touch exactly their own pixels.** On a framebuffer of 32 bits per pixel whose
pitch is a multiple of 32 bytes, for all arguments of type `int` that pass the assertions:
`Framebuffer_fillRectangle` writes exactly the pixels of its rectangle.
`Framebuffer_drawRectangle` writes exactly those on the border if and only if no side is empty, or
both are and the rectangle is in the first row or not in the first column. -/
theorem rectangles_exact_iff {s : Display} (hs : Screen s) (hdvd : 32 ∣ s.pitch.toNat)
    {x y width height : ℤ} (hx : x < 2 ^ 31) (hy : y < 2 ^ 31) (hwidth : width < 2 ^ 31)
    (hheight : height < 2 ^ 31) (hfit : RectangleFits s x y width height) (c : UInt32) :
    WritesExactly s (Inside x.toNat y.toNat width.toNat height.toNat) c
      (fillRectangle s x y width height c) ∧
    (WritesExactly s (OnBorder x.toNat y.toNat width.toNat height.toNat) c
        (drawRectangle s x y width height c) ↔
      (0 < width ∧ 0 < height) ∨ (width = 0 ∧ height = 0 ∧ (0 < x ∨ y = 0))) := by
  obtain ⟨x, y, width, height, rfl, rfl, rfl, rfl, hp⟩ := hfit.naturals hx hy hwidth hheight
  have hlines := LinesExact.of_dvd hdvd
  refine ⟨fillRectangle_exact hs hlines hp c, ?_⟩
  have hiff := drawRectangle_exact_iff hs hlines hp c
  simp only [Int.toNat_natCast]
  rw [hiff]
  omega

/-- A framebuffer with a resolution of 640 × 480 pixels. -/
def vgaDisplay : Display where
  address := 0xe0000000
  width := 640
  height := 480
  pitch := 2560
  bpp := 32
  clearColor := 0
  fontColor := 0xffffff
  drawOffsetX := 4
  drawOffsetY := 4
  zoom := 1
  charWidth := 8
  charHeight := 16
  textWidth := 79
  textHeight := 29

/-- The framebuffer of 640 by 480 pixels is a screen: its sizes are in the ranges that the
driver expects. -/
theorem screen_vga : Screen vgaDisplay := ⟨by decide, by decide, by decide, by decide⟩

/-- The equivalence for a border of 100 by 50 pixels: exactly its pixels are written. -/
theorem rectangles_exact_vga :
    WritesExactly vgaDisplay (OnBorder 10 20 100 50) 0 (drawRectangle vgaDisplay 10 20 100 50 0) :=
  (@rectangles_exact_iff vgaDisplay screen_vga (by decide) 10 20 100 50
    (by decide) (by decide) (by decide)
    (by decide) ⟨by decide, by decide, by decide, by decide⟩ 0).2.mpr (.inl ⟨by decide, by decide⟩)

/-- **A rectangle without columns that is drawn**: with a width of zero and a height of one, the
pixel at its corner and that to the left are written. -/
theorem empty_rectangle_drawn :
    RectangleFits vgaDisplay 10 5 0 1 ∧
      drawRectangle vgaDisplay 10 5 0 1 0 =
        .ok [(pixelOffset vgaDisplay (10, 5), 0), (pixelOffset vgaDisplay (9, 5), 0)] ∧
      ¬ WritesExactly vgaDisplay (OnBorder 10 5 0 1) 0 (drawRectangle vgaDisplay 10 5 0 1 0) := by
  have hdrawn : drawRectangle vgaDisplay 10 5 0 1 0 =
      .ok [(pixelOffset vgaDisplay (10, 5), 0), (pixelOffset vgaDisplay (9, 5), 0)] := by
    decide +kernel
  refine ⟨⟨by decide, by decide, by decide, by decide⟩, hdrawn, ?_⟩
  intro h
  have hnil := h.eq_nil (not_onBorder (.inl rfl))
  rw [hdrawn] at hnil
  simp at hnil

end MugOS.Framebuffer
