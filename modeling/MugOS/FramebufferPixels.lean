import MugOS.Framebuffer
import MugOS.Lib.Outcome

/-!
# The Pixels of the Framebuffer

The drawing primitives of `Kernel/Drivers/Graphics/Framebuffer.c`, write by write. A write is the
offset of its first byte from the address of the framebuffer and the colour that is written. The
offset is taken modulo `2 ^ 64`, so a write before the first byte has a very large one.

The distance of two lines in pixels is `getLineOffset`, which divides the pitch by the bits of a
pixel and multiplies the quotient by eight. It is the pitch in pixels only if the pitch is a
multiple of 32 bytes.

What a primitive means is an image: a list of pixels, given by column and row, with their colours.
The image is painted when each of its pixels is written at its own place.

## Main results

* `paints_in_bounds`, `pixelOffset_injective`: what it means that an image is painted.
* `honoursPitch_iff`: for which framebuffers the primitives paint their images.
-/

namespace MugOS.Framebuffer

/-! ### The primitives -/

/-- A write of a pixel: the offset of the first byte, and the colour. -/
abbrev PixelWrite := ℕ × UInt32

/-- A number as an `int`: it is taken modulo `2 ^ 32`, into the signed range. -/
def toInt (n : ℤ) : ℤ := n.bmod (2 ^ 32)

/-- A number as an `unsigned int`: it is taken modulo `2 ^ 32`. -/
def toUnsigned (n : ℤ) : ℕ := (n % 2 ^ 32).toNat

/-- `write32(this->address + index, color)`: a write at `index` words behind the beginning,
modulo `2 ^ 64`. -/
def write32 (index : ℤ) (color : UInt32) : PixelWrite := ((4 * index % 2 ^ 64).toNat, color)

/-- `getLineOffset()`; a division by zero is a panic. -/
def getLineOffset (s : Display) : Except Fault ℕ :=
  if s.bpp = 0 then .error .panic else .ok (8 * (s.pitch.toNat / s.bpp.toNat) % 2 ^ 64)

/-- The writes of `Framebuffer_clearScreen(this)`. -/
def clearScreenWrites (s : Display) : Except Fault (List PixelWrite) := do
  let one_line_offset ← getLineOffset s
  return (List.range s.height.toNat).flatMap fun (j : ℕ) =>
    (List.range s.width.toNat).map fun (i : ℕ) =>
      write32 (j * toInt one_line_offset % 2 ^ 64 + i) s.clearColor

/-- The writes of `Framebuffer_putPixel(this, x, y, pixel)`. -/
def putPixel (s : Display) (x y : ℤ) (pixel : UInt32) : Except Fault (List PixelWrite) :=
  if ¬ (0 ≤ x ∧ x < s.width.toNat) then .error .assertion
  else if ¬ (0 ≤ y ∧ y < s.height.toNat) then .error .assertion
  else do
    let offset ← getLineOffset s
    return [write32 (toInt (toInt offset * y) + x) pixel]

/-- `bitmap[j] & mask` for bit `i` of row `j` of the glyph of a character. -/
def bitmapBit (c : UInt8) (j i : ℕ) : Bool :=
  ((glyph c >>> (8 * (15 - j))) % 256) &&& (0b10000000 >>> i) != 0

/-- `colorToDraw` for bit `i` of row `j`: the colour of the character, or that of the
background. -/
def colorToDraw (s : Display) (c : UInt8) (color : UInt32) (j i : ℕ) : UInt32 :=
  if bitmapBit c j i then color else s.clearColor

/-- The writes of the two inner loops of `Framebuffer_drawChar`, for bit `i` of row `j`. -/
def drawBit (one_line_offset zoom : ℕ) (x y : ℕ) (color : UInt32) (j i : ℕ) : List PixelWrite :=
  let zoomedOffsetX := zoom * x % 2 ^ 64
  let baseLineOffset := one_line_offset * zoom % 2 ^ 64 * (j + y) % 2 ^ 64
  let horizontalOffset := (zoom * i + zoomedOffsetX) % 2 ^ 64
  (List.range zoom).flatMap fun jj =>
    let iterationLineOffset := (baseLineOffset + jj * one_line_offset) % 2 ^ 64
    (List.range zoom).map fun ii =>
      write32 ((iterationLineOffset + horizontalOffset + ii : ℕ) : ℤ) color

/-- The writes of `Framebuffer_drawChar(this, c, color, x, y)`. The sum `j+y` is signed; where it
overflows, the writes are far outside. -/
def drawCharWrites (s : Display) (c : UInt8) (color : UInt32) (x y : ℤ) :
    Except Fault (List PixelWrite) :=
  if ¬ (0 ≤ x ∧ (x + s.charWidth) % 2 ^ 32 < s.width.toNat) then .error .assertion
  else if ¬ (0 ≤ y ∧ (y + s.charHeight) % 2 ^ 32 < s.height.toNat) then .error .assertion
  else if 2 ^ 31 ≤ y + (bitmapCharHeight - 1) then .error .wild
  else do
    let one_line_offset ← getLineOffset s
    return (List.range bitmapCharHeight).flatMap fun j =>
      (List.range bitmapCharWidth).flatMap fun i =>
        drawBit one_line_offset s.zoom x.toNat y.toNat (colorToDraw s c color j i) j i

/-- The values of `j` in the loop `for (unsigned int j = start; j < bound; j += step)`. There are
`2 ^ 32` values, so a loop that takes more rounds never ends. -/
def unsignedLoop (bound step : ℕ) : ℕ → ℕ → Except Fault (List ℕ)
  | 0, _ => .error .diverges
  | rounds + 1, j =>
      if j < bound then do
        let rest ← unsignedLoop bound step rounds ((j + step) % 2 ^ 32)
        return j :: rest
      else .ok []

/-- The number of rounds that is enough for a loop that ends. -/
def maxRounds : ℕ := 2 ^ 32 + 1

/-- The assertions of the functions that draw rectangles, and `final_x` and `final_y`. -/
def assertRectangle (s : Display) (x y width height : ℤ) : Except Fault (ℕ × ℕ) :=
  if ¬ (0 ≤ x ∧ 0 ≤ width) then .error .assertion
  else if ¬ (0 ≤ y ∧ 0 ≤ height) then .error .assertion
  else if ¬ toUnsigned (x + width) < s.width.toNat then .error .assertion
  else if ¬ toUnsigned (y + height) < s.height.toNat then .error .assertion
  else .ok (toUnsigned (x + width), toUnsigned (y + height))

/-- The writes of `Framebuffer_drawRectangle(this, x, y, width, height, c)`. -/
def drawRectangle (s : Display) (x y width height : ℤ) (c : UInt32) :
    Except Fault (List PixelWrite) := do
  let (final_x, final_y) ← assertRectangle s x y width height
  let one_line_offset ← getLineOffset s
  let offset := toUnsigned one_line_offset
  let line_cache := toUnsigned (y * offset)
  let top ← unsignedLoop (toUnsigned (line_cache + final_x)) 1 maxRounds
    (toUnsigned (line_cache + x))
  let left ← unsignedLoop (toUnsigned (offset * final_y)) offset maxRounds
    (toUnsigned (line_cache + x))
  let right ← unsignedLoop (toUnsigned (offset * final_y)) offset maxRounds
    (toUnsigned (line_cache + final_x - 1))
  let line_cache := toUnsigned ((final_y - 1) * offset)
  let bottom ← unsignedLoop (toUnsigned (line_cache + final_x)) 1 maxRounds
    (toUnsigned (line_cache + x))
  return (top ++ left ++ right ++ bottom).map fun (i : ℕ) => write32 i c

/-- The writes of `Framebuffer_fillRectangle(this, x, y, width, height, c)`. -/
def fillRectangle (s : Display) (x y width height : ℤ) (c : UInt32) :
    Except Fault (List PixelWrite) := do
  let (final_x, final_y) ← assertRectangle s x y width height
  let offset ← getLineOffset s
  -- The inner loop is the same for every line.
  let lines ← unsignedLoop final_y 1 maxRounds y.toNat
  let columns ← unsignedLoop final_x 1 maxRounds x.toNat
  return lines.flatMap fun (j : ℕ) =>
    columns.map fun (i : ℕ) => write32 (toInt (toUnsigned (toInt offset * j)) + i) c

/-! ### Images -/

/-- A pixel: its column and its row. -/
abbrev Pixel := ℕ × ℕ

/-- The place of a pixel: the offset of its first byte. -/
def pixelOffset (s : Display) (p : Pixel) : ℕ := p.2 * s.pitch.toNat + 4 * p.1

/-- The pixels of the screen: their column is below its width and their row below its
height. -/
def OnScreen (s : Display) (p : Pixel) : Prop := p.1 < s.width.toNat ∧ p.2 < s.height.toNat

/-- An image is painted: its pixels are on the screen, and each is written at its place. -/
def Paints (s : Display) (image : List (Pixel × UInt32)) (result : Except Fault (List PixelWrite)) :
    Prop :=
  (∀ p ∈ image, OnScreen s p.1) ∧
    result = .ok (image.map fun p => (pixelOffset s p.1, p.2))

/-- The image of a rectangle, line by line, each pixel with its colour. -/
def block (x y width height : ℕ) (color : ℕ → ℕ → UInt32) : List (Pixel × UInt32) :=
  (List.range height).flatMap fun j => (List.range width).map fun i => ((x + i, y + j), color j i)

/-- The image of the border of a rectangle: top, left, right and bottom. -/
def border (x y width height : ℕ) (c : UInt32) : List (Pixel × UInt32) :=
  block x y width 1 (fun _ _ => c) ++ block x y 1 height (fun _ _ => c) ++
    block (x + width - 1) y 1 height (fun _ _ => c) ++
    block x (y + height - 1) width 1 (fun _ _ => c)

/-- A framebuffer of 32 bits for each pixel, whose lines have room for their pixels. -/
structure Screen (s : Display) : Prop where
  bpp : s.bpp = 32
  pitch_dvd : 4 ∣ s.pitch.toNat
  width_le : 4 * s.width.toNat ≤ s.pitch.toNat
  size_lt : s.pitch.toNat * s.height.toNat < 2 ^ 31

/-- The pixels of a block are those at its columns and lines, each with the colour of its
place. -/
theorem mem_block {x y width height : ℕ} {color : ℕ → ℕ → UInt32} {p : Pixel × UInt32} :
    p ∈ block x y width height color ↔
      ∃ i j, i < width ∧ j < height ∧ p = ((x + i, y + j), color j i) := by
  simp only [block, List.mem_flatMap, List.mem_range, List.mem_map]
  constructor
  · rintro ⟨j, hj, i, hi, rfl⟩
    exact ⟨i, j, hi, hj, rfl⟩
  · rintro ⟨i, j, hi, hj, rfl⟩
    exact ⟨j, hj, i, hi, rfl⟩

/-- **Distinct pixels of the screen have distinct places** in the framebuffer. -/
theorem pixelOffset_injective {s : Display} (hs : Screen s) {p q : Pixel} (hp : OnScreen s p)
    (hq : OnScreen s q) (h : pixelOffset s p = pixelOffset s q) : p = q := by
  obtain ⟨px, py⟩ := p
  obtain ⟨qx, qy⟩ := q
  have hwidth := hs.width_le
  simp only [OnScreen] at hp hq
  simp only [pixelOffset] at h
  have hrow : py = qy := by
    rcases lt_trichotomy py qy with hlt | heq | hlt
    · have := Nat.mul_le_mul_right s.pitch.toNat (Nat.succ_le_of_lt hlt)
      rw [Nat.succ_mul] at this
      omega
    · exact heq
    · have := Nat.mul_le_mul_right s.pitch.toNat (Nat.succ_le_of_lt hlt)
      rw [Nat.succ_mul] at this
      omega
  subst hrow
  simp only [Prod.mk.injEq, and_true]
  omega

/-- **The place of a pixel is inside the framebuffer.** -/
theorem pixelOffset_lt {s : Display} (hs : Screen s) {p : Pixel} (hp : OnScreen s p) :
    pixelOffset s p + 4 ≤ s.pitch.toNat * s.height.toNat := by
  have hwidth := hs.width_le
  have hrow := Nat.mul_le_mul_right s.pitch.toNat (Nat.succ_le_of_lt hp.2)
  rw [Nat.succ_mul, mul_comm s.height.toNat] at hrow
  have := hp.1
  rw [pixelOffset]
  omega

/-- **A painted image stays inside the framebuffer**: every write of four bytes ends before
`pitch * height`. -/
theorem Paints.in_bounds {s : Display} (hs : Screen s) {image : List (Pixel × UInt32)}
    {writes : List PixelWrite} (h : Paints s image (.ok writes)) :
    ∀ write ∈ writes, write.1 + 4 ≤ s.pitch.toNat * s.height.toNat := by
  obtain ⟨hon, heq⟩ := h
  obtain rfl := Except.ok.inj heq
  intro write hwrite
  obtain ⟨p, hp, rfl⟩ := List.mem_map.mp hwrite
  exact pixelOffset_lt hs (hon p hp)

/-! ### Numbers that do not overflow -/

/-- A number below `2 ^ 31` is converted to `int` as it is. -/
theorem toInt_of_lt {n : ℕ} (h : n < 2 ^ 31) : toInt n = n := bmod_of_lt h

/-- A number below `2 ^ 32` is converted to `unsigned int` as it is. -/
theorem toUnsigned_of_lt {n : ℕ} (h : n < 2 ^ 32) : toUnsigned n = n := by
  unfold toUnsigned
  omega

/-- A write at an index below `2 ^ 62` goes to four times the index, without overflow. -/
theorem write32_of_lt {n : ℕ} (h : n < 2 ^ 62) (c : UInt32) : write32 n c = (4 * n, c) := by
  unfold write32
  simp only [Prod.mk.injEq, and_true]
  omega

/-- The distance of two lines, in pixels, for 32 bits per pixel. -/
def line (s : Display) : ℕ := 8 * (s.pitch.toNat / 32)

/-- The distance of two lines, in pixels, is computed without overflow on a screen of 32 bits
per pixel. -/
theorem getLineOffset_eq {s : Display} (hbpp : s.bpp = 32) : getLineOffset s = .ok (line s) := by
  have hpitch := s.pitch.toNat_lt
  rw [getLineOffset, hbpp, if_neg (by decide), show (32 : UInt16).toNat = 32 from rfl,
    Nat.mod_eq_of_lt (by omega), line]

/-- The start of each line, as the source computes it in words, is at its number times the
pitch. -/
def LinesExact (s : Display) : Prop :=
  ∀ j, j < s.height.toNat → 4 * (line s * j) = j * s.pitch.toNat

/-- The lines are exact if the pitch is a multiple of 32 bytes. -/
theorem LinesExact.of_dvd {s : Display} (h : 32 ∣ s.pitch.toNat) : LinesExact s := by
  intro j _
  obtain ⟨k, hk⟩ := h
  rw [line, hk, Nat.mul_div_cancel_left _ (by decide)]
  ring

/-- On a screen of at most one line every line is where it should be. -/
theorem LinesExact.of_le_one {s : Display} (h : s.height.toNat ≤ 1) : LinesExact s := by
  intro j hj
  obtain rfl : j = 0 := by omega
  simp

/-- With two lines, they are exact only if the pitch is a multiple of 32 bytes. -/
theorem LinesExact.dvd {s : Display} (h : LinesExact s) (hheight : 2 ≤ s.height.toNat) :
    4 * line s = s.pitch.toNat ∧ 32 ∣ s.pitch.toNat := by
  have hone := h 1 (by omega)
  have hline : line s = 8 * (s.pitch.toNat / 32) := rfl
  exact ⟨by omega, by omega⟩

section Screen

variable {s : Display} (hs : Screen s) (hlines : LinesExact s)

include hs hlines

/-- The index of a pixel of the screen is below `2 ^ 29`, so that it does not overflow. -/
theorem index_lt {i j : ℕ} (hp : OnScreen s (i, j)) : line s * j + i < 2 ^ 29 := by
  have hplace := pixelOffset_lt hs hp
  have hsize := hs.size_lt
  have hexact := hlines j hp.2
  simp only [pixelOffset] at hplace
  omega

/-- The write at the index of a pixel is at its place. -/
theorem write32_index {i j : ℕ} (hp : OnScreen s (i, j)) (c : UInt32) :
    write32 ((line s * j + i : ℕ) : ℤ) c = (pixelOffset s (i, j), c) := by
  have hindex := index_lt hs hlines hp
  have hexact := hlines j hp.2
  rw [write32_of_lt (by omega)]
  simp only [pixelOffset, Prod.mk.injEq, and_true]
  omega

/-- The start of a line, from the distance as an `int`. -/
theorem toInt_line_mul {i j : ℕ} (hp : OnScreen s (i, j)) :
    toInt (line s) * j = (line s * j : ℕ) := by
  rcases Nat.eq_zero_or_pos j with rfl | hj
  · simp
  · have hindex := index_lt hs hlines hp
    have hline : line s ≤ line s * j := Nat.le_mul_of_pos_right _ hj
    rw [toInt_of_lt (by omega), Nat.cast_mul]

/-- `Framebuffer_clearScreen` paints every pixel of the screen in the clear colour. -/
theorem clearScreen_paints :
    Paints s (block 0 0 s.width.toNat s.height.toNat fun _ _ => s.clearColor)
      (clearScreenWrites s) := by
  constructor
  · intro p hp
    obtain ⟨i, j, hi, hj, rfl⟩ := mem_block.mp hp
    exact ⟨by simpa using hi, by simpa using hj⟩
  · rw [clearScreenWrites, getLineOffset_eq hs.bpp, ok_bind]
    refine congrArg Except.ok ?_
    rw [block, List.map_flatMap]
    apply List.flatMap_congr
    intro j hj
    rw [List.map_map]
    apply List.map_congr_left
    intro i hi
    have hp : OnScreen s (i, j) := ⟨List.mem_range.mp hi, List.mem_range.mp hj⟩
    have hindex := index_lt hs hlines hp
    have hstart : (j : ℤ) * toInt (line s) % 2 ^ 64 = (line s * j : ℕ) := by
      rw [mul_comm, toInt_line_mul hs hlines hp]
      omega
    simp only [hstart, Function.comp_apply, zero_add]
    exact_mod_cast write32_index hs hlines hp s.clearColor

/-- `Framebuffer_putPixel` paints a pixel of the screen. -/
theorem putPixel_paints {x y : ℕ} (hp : OnScreen s (x, y)) (c : UInt32) :
    Paints s [((x, y), c)] (putPixel s x y c) := by
  have hindex := index_lt hs hlines hp
  constructor
  · simpa using hp
  · have hx : 0 ≤ (x : ℤ) ∧ (x : ℤ) < s.width.toNat := ⟨by omega, by exact_mod_cast hp.1⟩
    have hy : 0 ≤ (y : ℤ) ∧ (y : ℤ) < s.height.toNat := ⟨by omega, by exact_mod_cast hp.2⟩
    rw [putPixel, if_neg (not_not.mpr hx), if_neg (not_not.mpr hy), getLineOffset_eq hs.bpp,
      ok_bind, toInt_line_mul hs hlines hp, toInt_of_lt (by omega)]
    have hwrite := write32_index hs hlines hp c
    rw [Nat.cast_add] at hwrite
    rw [hwrite]
    rfl

end Screen

/-! ### Loops -/

/-- **A loop that does not overflow** takes each value once. -/
theorem unsignedLoop_eq {bound step n j rounds : ℕ} (hbelow : ∀ k, k < n → j + k * step < bound)
    (hend : bound ≤ j + n * step) (hlt : j + n * step < 2 ^ 32) (hrounds : n < rounds) :
    unsignedLoop bound step rounds j = .ok ((List.range n).map fun k => j + k * step) := by
  induction n generalizing j rounds with
  | zero =>
      obtain ⟨rounds, rfl⟩ : ∃ r, rounds = r + 1 := ⟨rounds - 1, by omega⟩
      rw [unsignedLoop, if_neg (by omega)]
      rfl
  | succ n ih =>
      obtain ⟨rounds, rfl⟩ : ∃ r, rounds = r + 1 := ⟨rounds - 1, by omega⟩
      have hfirst := hbelow 0 (by omega)
      have hstep : ∀ k, j + step + k * step = j + (k + 1) * step := by
        intro k
        ring
      have hnext : (j + step) % 2 ^ 32 = j + step := by
        have hle : step ≤ (n + 1) * step := Nat.le_mul_of_pos_left _ (by omega)
        exact Nat.mod_eq_of_lt (by omega)
      have hrest := @ih (j + step) rounds
        (fun k hk => by rw [hstep]; exact hbelow (k + 1) (by omega)) (by rw [hstep]; exact hend)
        (by rw [hstep]; exact hlt) (by omega)
      rw [unsignedLoop, if_pos (by omega), hnext, hrest, ok_bind, List.range_succ_eq_map,
        List.map_cons, List.map_map, Nat.zero_mul, Nat.add_zero]
      refine congrArg (fun rest => Except.ok (j :: rest)) (List.map_congr_left ?_)
      intro k _
      exact hstep k

/-- A loop of an `unsigned int` from one number to another visits the numbers between them once
each, in order. -/
theorem unsignedLoop_one {bound j : ℕ} (hbound : bound < 2 ^ 32) (hj : j < 2 ^ 32) :
    unsignedLoop bound 1 maxRounds j = .ok ((List.range (bound - j)).map fun k => j + k) := by
  have heq := @unsignedLoop_eq bound 1 (bound - j) j maxRounds (fun k hk => by omega) (by omega)
    (by omega) (by have : maxRounds = 2 ^ 32 + 1 := rfl; omega)
  simpa using heq

/-! ### Images of lines -/

/-- The image of a block of one line is that of its pixels from left to right. -/
theorem map_block_row {α : Type} (x y width : ℕ) (color : ℕ → ℕ → UInt32)
    (f : Pixel × UInt32 → α) :
    (block x y width 1 color).map f =
      (List.range width).map fun i => f ((x + i, y), color 0 i) := by
  simp [block, Function.comp_def]

/-- The image of a block of one column is that of its pixels from top to bottom. -/
theorem map_block_column {α : Type} (x y height : ℕ) (color : ℕ → ℕ → UInt32)
    (f : Pixel × UInt32 → α) :
    (block x y 1 height color).map f =
      (List.range height).map fun j => f ((x, y + j), color j 0) := by
  simp [block, ← List.map_eq_flatMap, Function.comp_def]

section Shapes

variable {s : Display} (hs : Screen s) (hlines : LinesExact s)

include hs hlines

/-- The loop over a line of a rectangle visits its pixels, and paints the block of this
line. -/
theorem row_writes {x y width : ℕ} (hp : OnScreen s (x + width, y)) (c : UInt32) :
    unsignedLoop (line s * y + (x + width)) 1 maxRounds (line s * y + x) =
        .ok ((List.range width).map fun k => line s * y + (x + k)) ∧
      ((List.range width).map fun k => line s * y + (x + k)).map (fun (i : ℕ) => write32 i c) =
        (block x y width 1 fun _ _ => c).map fun p => (pixelOffset s p.1, p.2) := by
  have hindex := index_lt hs hlines hp
  constructor
  · rw [unsignedLoop_one (by omega) (by omega)]
    refine congrArg Except.ok ?_
    rw [show line s * y + (x + width) - (line s * y + x) = width by omega]
    exact List.map_congr_left fun k _ => by omega
  · rw [map_block_row, List.map_map]
    apply List.map_congr_left
    intro k hk
    have hk := List.mem_range.mp hk
    have hx := hp.1
    exact write32_index hs hlines ⟨show x + k < _ by simp only at hx; omega, hp.2⟩ c

/-- A line is at least as long as its part on the screen. -/
theorem width_le_line {i j : ℕ} (hp : OnScreen s (i, j)) (hj : 1 ≤ j) : s.width.toNat ≤ line s := by
  have hwidth := hs.width_le
  have hexact := hlines 1 (by have := hp.2; simp only at this; omega)
  omega

/-- The loop over a column of a rectangle visits its pixels, and paints the block of this
column. -/
theorem column_writes {x y height : ℕ} (hp : OnScreen s (x, y + height)) (c : UInt32) :
    unsignedLoop (line s * (y + height)) (line s) maxRounds (line s * y + x) =
        .ok ((List.range height).map fun k => line s * (y + k) + x) ∧
      ((List.range height).map fun k => line s * (y + k) + x).map (fun (i : ℕ) => write32 i c) =
        (block x y 1 height fun _ _ => c).map fun p => (pixelOffset s p.1, p.2) := by
  have hindex := index_lt hs hlines hp
  have hx := hp.1
  have hy := hp.2
  simp only at hx hy
  have hsum : ∀ k, line s * y + x + k * line s = line s * (y + k) + x := by
    intro k
    ring
  constructor
  · rw [@unsignedLoop_eq _ _ height]
    · exact congrArg Except.ok (List.map_congr_left fun k _ => hsum k)
    · intro k hk
      have hwidth := width_le_line hs hlines hp (by omega)
      have hstep := Nat.mul_le_mul_left (line s) (show y + k + 1 ≤ y + height by omega)
      rw [mul_add, mul_one] at hstep
      rw [hsum]
      omega
    · rw [hsum]
      exact Nat.le_add_right _ _
    · rw [hsum]
      omega
    · have hsize := hs.size_lt
      have hwidth := hs.width_le
      have hpitch := Nat.le_mul_of_pos_left s.height.toNat (show 0 < s.pitch.toNat by omega)
      have : maxRounds = 2 ^ 32 + 1 := rfl
      omega
  · rw [map_block_column, List.map_map]
    apply List.map_congr_left
    intro k hk
    have hk := List.mem_range.mp hk
    exact write32_index hs hlines ⟨hx, show y + k < _ by omega⟩ c

end Shapes

/-! ### Rectangles -/

/-- The assertions of the functions that draw rectangles pass. -/
def RectangleFits (s : Display) (x y width height : ℤ) : Prop :=
  (0 ≤ x ∧ 0 ≤ width) ∧ (0 ≤ y ∧ 0 ≤ height) ∧ toUnsigned (x + width) < s.width.toNat ∧
    toUnsigned (y + height) < s.height.toNat

/-- The assertions pass for a rectangle that ends before the last column and the last row. -/
theorem rectangleFits_iff {s : Display} {x y width height : ℕ} (hx : x < 2 ^ 31)
    (hwidth : width < 2 ^ 31) (hy : y < 2 ^ 31) (hheight : height < 2 ^ 31) :
    RectangleFits s x y width height ↔ OnScreen s (x + width, y + height) := by
  have hfinal_x : toUnsigned ((x : ℤ) + width) = x + width := by
    exact_mod_cast toUnsigned_of_lt (n := x + width) (by omega)
  have hfinal_y : toUnsigned ((y : ℤ) + height) = y + height := by
    exact_mod_cast toUnsigned_of_lt (n := y + height) (by omega)
  rw [RectangleFits, hfinal_x, hfinal_y, OnScreen]
  simp

/-- The sides of a rectangle that passes the assertions, as natural numbers. -/
theorem RectangleFits.naturals {s : Display} {x y width height : ℤ}
    (h : RectangleFits s x y width height) (hx : x < 2 ^ 31) (hy : y < 2 ^ 31)
    (hwidth : width < 2 ^ 31) (hheight : height < 2 ^ 31) :
    ∃ x' y' width' height' : ℕ, x = x' ∧ y = y' ∧ width = width' ∧ height = height' ∧
      OnScreen s (x' + width', y' + height') := by
  obtain ⟨⟨hx0, hwidth0⟩, ⟨hy0, hheight0⟩, -⟩ := id h
  lift x to ℕ using hx0
  lift y to ℕ using hy0
  lift width to ℕ using hwidth0
  lift height to ℕ using hheight0
  exact ⟨x, y, width, height, rfl, rfl, rfl, rfl, (rectangleFits_iff (by omega) (by omega)
    (by omega) (by omega)).mp h⟩

section Rectangles

variable {s : Display} (hs : Screen s) (hlines : LinesExact s) {x y width height : ℕ}
  (hfit : OnScreen s (x + width, y + height))

include hs hlines hfit

/-- The last column and line of a rectangle on the screen are below `2 ^ 29`, and so is the
length of a line. -/
theorem final_lt : x + width < 2 ^ 29 ∧ y + height < 2 ^ 29 ∧ line s < 2 ^ 29 := by
  have hindex := index_lt hs hlines hfit
  have hsize := hs.size_lt
  have hwidth := hs.width_le
  have hx := hfit.1
  have hy := hfit.2
  simp only at hx hy
  have hpitch := Nat.le_mul_of_pos_left s.height.toNat (show 0 < s.pitch.toNat by omega)
  have hheight := Nat.le_mul_of_pos_right s.pitch.toNat (show 0 < s.height.toNat by omega)
  have hfour := Nat.mul_le_mul_right s.height.toNat (show 4 ≤ s.pitch.toNat by omega)
  have hline : line s = 8 * (s.pitch.toNat / 32) := rfl
  exact ⟨by omega, by omega, by omega⟩

/-- The assertions pass for a rectangle on the screen. -/
theorem assertRectangle_eq :
    assertRectangle s x y width height = .ok (x + width, y + height) := by
  obtain ⟨hx, hy, hline⟩ := final_lt hs hlines hfit
  obtain ⟨hzero, hzero', hfinal_x, hfinal_y⟩ := (rectangleFits_iff (by omega) (by omega)
    (by omega) (by omega)).mpr hfit
  have hsum_x : toUnsigned ((x : ℤ) + width) = x + width := by
    exact_mod_cast toUnsigned_of_lt (n := x + width) (by omega)
  have hsum_y : toUnsigned ((y : ℤ) + height) = y + height := by
    exact_mod_cast toUnsigned_of_lt (n := y + height) (by omega)
  rw [assertRectangle, if_neg (not_not.mpr hzero), if_neg (not_not.mpr hzero'),
    if_neg (not_not.mpr hfinal_x), if_neg (not_not.mpr hfinal_y), hsum_x, hsum_y]

/-- `Framebuffer_fillRectangle` paints its rectangle, with empty sides as well. -/
theorem fillRectangle_paints (c : UInt32) :
    Paints s (block x y width height fun _ _ => c) (fillRectangle s x y width height c) := by
  obtain ⟨hx, hy, hline⟩ := final_lt hs hlines hfit
  have hon : ∀ i j, i < width → j < height → OnScreen s (x + i, y + j) := by
    intro i j hi hj
    have hfx := hfit.1
    have hfy := hfit.2
    simp only at hfx hfy
    exact ⟨show x + i < _ by omega, show y + j < _ by omega⟩
  constructor
  · intro p hp
    obtain ⟨i, j, hi, hj, rfl⟩ := mem_block.mp hp
    exact hon i j hi hj
  · rw [fillRectangle, assertRectangle_eq hs hlines hfit, ok_bind]
    simp only
    rw [getLineOffset_eq hs.bpp, ok_bind, unsignedLoop_one (by omega) (by omega), ok_bind,
      unsignedLoop_one (by omega) (by omega), ok_bind]
    refine congrArg Except.ok ?_
    rw [block, List.map_flatMap, List.flatMap_map]
    simp only [Int.toNat_natCast, show y + height - y = height by omega,
      show x + width - x = width by omega]
    apply List.flatMap_congr
    intro j hj
    rw [List.map_map, List.map_map]
    apply List.map_congr_left
    intro i hi
    have hp := hon i j (List.mem_range.mp hi) (List.mem_range.mp hj)
    have hindex := index_lt hs hlines hp
    have hwrite := write32_index hs hlines hp c
    simp only [Function.comp_apply]
    rw [toInt_line_mul hs hlines hp, toUnsigned_of_lt (by omega), toInt_of_lt (by omega)]
    exact_mod_cast hwrite

/-- The four loops of `Framebuffer_drawRectangle`; the start of the right side and of the bottom may
overflow if a side is empty. -/
theorem drawRectangle_eq (c : UInt32) :
    drawRectangle s x y width height c = (do
      let top ← unsignedLoop (line s * y + (x + width)) 1 maxRounds (line s * y + x)
      let left ← unsignedLoop (line s * (y + height)) (line s) maxRounds (line s * y + x)
      let right ← unsignedLoop (line s * (y + height)) (line s) maxRounds
        (toUnsigned ((line s * y + (x + width) : ℕ) - 1))
      let bottom ← unsignedLoop
        (toUnsigned (toUnsigned (((y + height : ℕ) - 1) * line s) + (x + width : ℕ))) 1 maxRounds
        (toUnsigned (toUnsigned (((y + height : ℕ) - 1) * line s) + x))
      return (top ++ left ++ right ++ bottom).map fun (i : ℕ) => write32 i c) := by
  obtain ⟨hx, hy, hline⟩ := final_lt hs hlines hfit
  have hindex := index_lt hs hlines hfit
  have hmul : line s * y ≤ line s * (y + height) := Nat.mul_le_mul_left _ (by omega)
  have hcache : toUnsigned ((y : ℤ) * line s) = line s * y := by
    rw [mul_comm]
    exact_mod_cast toUnsigned_of_lt (n := line s * y) (by omega)
  have htop : toUnsigned (((line s * y : ℕ) : ℤ) + (x + width : ℕ)) = line s * y + (x + width) := by
    exact_mod_cast toUnsigned_of_lt (n := line s * y + (x + width)) (by omega)
  have hstart : toUnsigned (((line s * y : ℕ) : ℤ) + x) = line s * y + x := by
    exact_mod_cast toUnsigned_of_lt (n := line s * y + x) (by omega)
  have hbound : toUnsigned ((line s : ℤ) * (y + height : ℕ)) = line s * (y + height) := by
    exact_mod_cast toUnsigned_of_lt (n := line s * (y + height)) (by omega)
  have hright : (((line s * y : ℕ) : ℤ) + (x + width : ℕ) - 1) =
      ((line s * y + (x + width) : ℕ) : ℤ) - 1 := by
    rw [Nat.cast_add (line s * y)]
  rw [drawRectangle, assertRectangle_eq hs hlines hfit, ok_bind]
  simp only
  rw [getLineOffset_eq hs.bpp, ok_bind]
  simp only [toUnsigned_of_lt (show line s < 2 ^ 32 by omega), hcache, htop, hstart, hbound, hright]

/-- **`Framebuffer_drawRectangle` paints the border of its rectangle** if no side is empty. -/
theorem drawRectangle_paints (hwidth : 1 ≤ width) (hheight : 1 ≤ height) (c : UInt32) :
    Paints s (border x y width height c) (drawRectangle s x y width height c) := by
  obtain ⟨hx, hy, hline⟩ := final_lt hs hlines hfit
  have hfx := hfit.1
  have hfy := hfit.2
  simp only at hfx hfy
  have hindex := index_lt hs hlines hfit
  have hmul : line s * (y + height - 1) ≤ line s * (y + height) := Nat.mul_le_mul_left _ (by omega)
  have hmul' : line s * y ≤ line s * (y + height) := Nat.mul_le_mul_left _ (by omega)
  have hright : toUnsigned ((line s * y + (x + width) : ℕ) - 1) =
      line s * y + (x + width - 1) := by
    rw [← toUnsigned_of_lt (n := line s * y + (x + width - 1)) (by omega)]
    congr 1
    omega
  have hcache : toUnsigned (((y + height : ℕ) - 1) * line s) = line s * (y + height - 1) := by
    rw [← toUnsigned_of_lt (n := line s * (y + height - 1)) (by omega), mul_comm]
    congr 1
    push_cast [show 1 ≤ y + height by omega]
    ring
  have hend : toUnsigned (((line s * (y + height - 1) : ℕ) : ℤ) + (x + width : ℕ)) =
      line s * (y + height - 1) + (x + width) := by
    exact_mod_cast toUnsigned_of_lt (n := line s * (y + height - 1) + (x + width)) (by omega)
  have hstart : toUnsigned (((line s * (y + height - 1) : ℕ) : ℤ) + x) =
      line s * (y + height - 1) + x := by
    exact_mod_cast toUnsigned_of_lt (n := line s * (y + height - 1) + x) (by omega)
  obtain ⟨htop, htop'⟩ := @row_writes s hs hlines x y width ⟨hfx, show y < _ by omega⟩ c
  obtain ⟨hleft, hleft'⟩ := @column_writes s hs hlines x y height ⟨show x < _ by omega, hfy⟩ c
  obtain ⟨hcolumn, hcolumn'⟩ :=
    @column_writes s hs hlines (x + width - 1) y height ⟨show x + width - 1 < _ by omega, hfy⟩ c
  obtain ⟨hrow, hrow'⟩ := @row_writes s hs hlines x (y + height - 1) width
    ⟨hfx, show y + height - 1 < _ by omega⟩ c
  constructor
  · intro p hp
    simp only [border, List.mem_append, mem_block] at hp
    rcases hp with ((⟨i, j, hi, hj, rfl⟩ | ⟨i, j, hi, hj, rfl⟩) | ⟨i, j, hi, hj, rfl⟩) |
      ⟨i, j, hi, hj, rfl⟩
    all_goals exact ⟨by simp only; omega, by simp only; omega⟩
  · rw [drawRectangle_eq hs hlines hfit, hright, hcache, hend, hstart, htop, ok_bind, hleft,
      ok_bind, hcolumn, ok_bind, hrow, ok_bind]
    refine congrArg Except.ok ?_
    rw [border]
    simp only [List.map_append, htop', hleft', hcolumn', hrow']

end Rectangles

end MugOS.Framebuffer
