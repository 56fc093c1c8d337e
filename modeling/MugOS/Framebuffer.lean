import MugOS.Font
import MugOS.Memory

/-!
# The Framebuffer Terminal

`Kernel/Drivers/Graphics/Framebuffer.c`, the part that shows text: a grid of characters with a
cursor, the characters being drawn as they are written, and redrawn where they change when the
text is scrolled.

There is one framebuffer, so that the static variable `endline_pos` of `Framebuffer_putchar` is
part of it. The state also records the accesses to the array `text`, and what has been drawn: the
pixels of a glyph are not modelled, only which glyph was drawn where.
-/

namespace MugOS.Framebuffer

/-- `MAX_TERMINAL_WIDTH`. -/
abbrev maxTerminalWidth : ℕ := 256

/-- `MAX_TERMINAL_HEIGHT`. -/
abbrev maxTerminalHeight : ℕ := 512

/-- `TERMINAL_SIZE`. -/
abbrev terminalSize : ℕ := maxTerminalWidth * maxTerminalHeight

/-- `TAB_SIZE`. -/
abbrev tabSize : ℕ := 4

/-- `'\t'`. -/
abbrev tab : UInt8 := 9

/-- `'\n'`. -/
abbrev newline : UInt8 := 10

/-- `'\r'`. -/
abbrev carriageReturn : UInt8 := 13

/-- `' '`. -/
abbrev space : UInt8 := 32

/-- An access to the array `text` of a framebuffer, of which the accesses are recorded. -/
inductive Access
  /-- `text[k]`, read or written -/
  | index (k : ℕ)
  /-- `memset` of the first `n` characters -/
  | memset (n : ℕ)

/-- A position of the text that an access covers. -/
def Access.Covers : Access → ℕ → Prop
  | .index k', k => k = k'
  | .memset n, k => k < n

/-- Something drawn on the screen: it is cleared, or the glyph of a character is drawn. -/
inductive Draw
  /-- the whole screen, in one colour -/
  | clear (color : UInt32)
  /-- the glyph of a character, with its colour and that of the background, at a pixel -/
  | char (c : UInt8) (color clearColor : UInt32) (x y : ℤ)

/-- The part of `Framebuffer` that writing and scrolling text do not change. -/
structure Display where
  address : ℕ
  width : UInt64
  height : UInt64
  pitch : UInt64
  bpp : UInt16
  clearColor : UInt32
  fontColor : UInt32
  drawOffsetX : ℕ
  drawOffsetY : ℕ
  zoom : ℕ
  charWidth : ℕ
  charHeight : ℕ
  textWidth : ℕ
  textHeight : ℕ

/-- `Framebuffer`, and the records of accesses and of drawing, the last first. -/
structure State extends Display where
  cursorX : ℕ
  cursorY : ℕ
  text : ℕ → UInt8
  /-- the static variable of `Framebuffer_putchar` -/
  endlinePos : ℕ
  accesses : List Access
  draws : List Draw

/-! ### Initialisation -/

/-- `Framebuffer_clearTerminal(this)`: clears the whole array `text` and takes the cursor back
to the origin. -/
def clearTerminal (s : State) : State :=
  { s with
    text := fun k => if k < terminalSize then 0 else s.text k
    accesses := .memset terminalSize :: s.accesses
    cursorX := 0
    cursorY := 0 }

/-- `COLOR_32BPP(r, g, b)`: a colour of 32 bits, blue in its lowest byte. -/
def color32Bpp (r g b : UInt32) : UInt32 := r <<< 16 ||| g <<< 8 ||| b

/-- `Framebuffer_setClearColor(this, color)`: sets the colour of the background. -/
def setClearColor (s : State) (color : UInt32) : State := { s with clearColor := color }

/-- `Framebuffer_setFontColor(this, color)`: sets the colour of the characters. -/
def setFontColor (s : State) (color : UInt32) : State := { s with fontColor := color }

/-- How many characters fit, as `Framebuffer_setZoom` computes it: `size` is the number of pixels,
`offset` that of the border, and `bitmap` the size of a bitmap. A division by zero is a panic. -/
def maxChar (size : UInt64) (offset bitmap zoom limit : ℕ) : Except Fault ℕ :=
  let padding := 2 * offset * zoom % 2 ^ 32
  let divisor := bitmap * zoom % 2 ^ 32
  if divisor = 0 then .error .panic
  else
    let maxChars : ℤ := (((size.toNat + 2 ^ 64 - padding) % 2 ^ 64 / divisor : ℕ) : ℤ).bmod (2 ^ 64)
    .ok (min maxChars limit % 2 ^ 32).toNat

/-- `Framebuffer_setZoom(this, zoom)`: sets the zoom, at least 1, and the sizes that follow
from it. -/
def setZoom (s : State) (zoom : ℕ) : Except Fault State := do
  let zoom := if zoom = 0 then 1 else zoom
  let textWidth ← maxChar s.width s.drawOffsetX bitmapCharWidth zoom maxTerminalWidth
  let textHeight ← maxChar s.height s.drawOffsetY bitmapCharHeight zoom maxTerminalHeight
  return { s with
    zoom := zoom
    charWidth := zoom * bitmapCharWidth % 2 ^ 32
    charHeight := zoom * bitmapCharHeight % 2 ^ 32
    textWidth := textWidth
    textHeight := textHeight }

/-- `Framebuffer_clearScreen(this)`: draws the whole screen in the colour of the background. -/
def clearScreen (s : State) : State := { s with draws := .clear s.clearColor :: s.draws }

/-- `Framebuffer_init(this)`: refuses a framebuffer that it cannot draw to, and sets colours,
zoom and cursor. -/
def init (s : State) : Except Fault (Bool × State) :=
  if s.address = 0 then .ok (false, s)
  else if s.width = 0 ∨ s.height = 0 ∨ s.pitch = 0 ∨ s.bpp = 0 then .ok (false, s)
  else if s.bpp ≠ 32 then .ok (false, s)
  else do
    let s := setClearColor { s with drawOffsetX := 4, drawOffsetY := 4 } (color32Bpp 31 31 31)
    let s ← setZoom (setFontColor s (color32Bpp 255 255 255)) 1
    return (true, { clearScreen (clearTerminal s) with cursorX := 0, cursorY := 0 })

/-! ### Characters -/

/-- An access to `text[k]`, which is recorded and has to lie inside of the array. -/
def touch (s : State) (k : ℕ) : Except Fault State :=
  if k < terminalSize then .ok { s with accesses := .index k :: s.accesses } else .error .wild

/-- `this->text[k]`: the character in a cell of the array, whose read is recorded. -/
def readText (s : State) (k : ℕ) : Except Fault (UInt8 × State) := do
  let s ← touch s k
  return (s.text k, s)

/-- `this->text[k] = c`: stores a character in a cell of the array, and the write is
recorded. -/
def writeText (s : State) (k : ℕ) (c : UInt8) : Except Fault State := do
  let s ← touch s k
  return { s with text := Function.update s.text k c }

/-- `Framebuffer_drawChar(this, c, color, x, y)`. -/
@[irreducible] def drawChar (s : State) (c : UInt8) (color : UInt32) (x y : ℤ) :
    Except Fault State :=
  if ¬ (0 ≤ x ∧ (x + s.charWidth) % 2 ^ 32 < s.width.toNat) then .error .assertion
  else if ¬ (0 ≤ y ∧ (y + s.charHeight) % 2 ^ 32 < s.height.toNat) then .error .assertion
  else .ok { s with draws := .char c color s.clearColor x y :: s.draws }

/-- `(int) (i*this->charWidth + this->drawOffsetX)`. -/
def cellX (s : State) (i : ℕ) : ℤ := ((i * s.charWidth + s.drawOffsetX : ℕ) : ℤ).bmod (2 ^ 32)

/-- `(int) (j*this->charHeight + this->drawOffsetY)`. -/
def cellY (s : State) (j : ℕ) : ℤ := ((j * s.charHeight + s.drawOffsetY : ℕ) : ℤ).bmod (2 ^ 32)

/-- The cursor moves on by one character; a division by zero is a panic. -/
def advance (s : State) : Except Fault State :=
  if s.textWidth = 0 then .error .panic
  else
    let x := (s.cursorX + 1) % s.textWidth
    .ok { s with cursorX := x, cursorY := if x = 0 then s.cursorY + 1 else s.cursorY }

/-! ### Scrolling -/

/-- The switch of `Framebuffer_scrollDown`: the new character of a cell is drawn if it changed. -/
def redraw (s : State) (prev next : UInt8) : Except Fault State :=
  if next = tab then .error .assertion
  else if next = carriageReturn then .error .assertion
  else
    let next := if next = newline then space else next
    if prev = next then .ok s
    else if (prev = 0 ∧ next = space) ∨ (prev = space ∧ next = 0) then .ok s
    else drawChar s next s.fontColor (cellX s s.cursorX) (cellY s s.cursorY)

/-- The loop body of `Framebuffer_scrollDown` for column `i` of line `j`. -/
def scrollCell (j : ℕ) (s : State) (i : ℕ) : Except Fault State := do
  let (prev, s) ← readText s (j * maxTerminalWidth + i)
  let (next, s) ← readText s ((j + 1) * maxTerminalWidth + i)
  let (moved, s) ← readText s ((j + 1) * maxTerminalWidth + i)
  let s ← writeText s (j * maxTerminalWidth + i) moved
  let s ← redraw s prev next
  advance s

/-- Line `j` gets the characters of the next one. -/
def scrollLine (s : State) (j : ℕ) : Except Fault State :=
  (List.range s.textWidth).foldlM (scrollCell j) s

/-- A character of the last line is cleared, and a blank is drawn over it unless it was blank
already. -/
def clearCell (s : State) (i : ℕ) : Except Fault State := do
  let j := s.textHeight - 1
  let (c, s) ← readText s (j * maxTerminalWidth + i)
  let s ← writeText s (j * maxTerminalWidth + i) 0
  if c = 0 ∨ c = space then .ok s
  else drawChar s space s.fontColor (cellX s i) (cellY s j)

/-- Every line but the last one gets the characters of the next one. -/
@[irreducible] def scrollLines (s : State) : Except Fault State :=
  (List.range ((s.textHeight + 2 ^ 32 - 1) % 2 ^ 32)).foldlM scrollLine s

/-- The last line of the terminal is cleared, character by character. -/
@[irreducible] def clearLine (s : State) : Except Fault State :=
  (List.range s.textWidth).foldlM clearCell s

/-- `Framebuffer_scrollDown(this)`: moves the lines up by one and clears the last one. -/
def scrollDown (s : State) : Except Fault State := do
  let s ← scrollLines { s with cursorX := 0, cursorY := 0 }
  clearLine s

/-! ### Writing -/

/-- The switch of `Framebuffer_putchar` for a newline. -/
def putNewline (s : State) : Except Fault State := do
  let s ← writeText s (s.cursorY * maxTerminalWidth + s.endlinePos) newline
  return { s with cursorX := 0, cursorY := s.cursorY + 1, endlinePos := 0 }

/-- The switch of `Framebuffer_putchar` for a character that is drawn. -/
def putGlyph (s : State) (c : UInt8) : Except Fault State := do
  let s ← writeText s (s.cursorY * maxTerminalWidth + s.cursorX) c
  let s ← drawChar s c s.fontColor (cellX s s.cursorX) (cellY s s.cursorY)
  let s ← advance s
  return { s with endlinePos := if s.cursorX = 0 then 0 else max s.endlinePos s.cursorX }

/-- The end of `Framebuffer_putchar`: the terminal scrolls if the cursor is below its last
line. -/
def scrollIfBelow (s : State) : Except Fault State :=
  if s.textHeight ≤ s.cursorY then scrollDown s else .ok s

/-- `Framebuffer_putchar(this, c)` for a character other than a tab. -/
def putcharNoTab (s : State) (c : UInt8) : Except Fault State :=
  if c = 0 then .ok s
  else if c = newline then putNewline s >>= scrollIfBelow
  else if c = carriageReturn then scrollIfBelow { s with cursorX := 0 }
  else putGlyph s c >>= scrollIfBelow

/-- The loop of `Framebuffer_putchar` for a tab, which writes spaces; it is a fault if there
are more than `n` of them. -/
def tabLoop : ℕ → State → Except Fault State
  | 0, _ => .error .diverges
  | n + 1, s => do
      let s ← putcharNoTab s space
      if s.cursorX % tabSize ≠ 0 then tabLoop n s else return s

/-- `Framebuffer_putchar(this, c)`: puts a character at the cursor, a tab as spaces up to a
multiple of four. -/
def putchar (s : State) (c : UInt8) : Except Fault State :=
  if c = tab then tabLoop tabSize s >>= scrollIfBelow else putcharNoTab s c

/-! ### Runs -/

/-- A call of the terminal, by the console or by the graphics driver. -/
inductive Call
  | putchar (c : UInt8)
  | scrollDown
  | clearTerminal
  /-- `Framebuffer_clearTerminal` and `Framebuffer_clearScreen`, as the graphics driver calls
  them -/
  | clear
  deriving DecidableEq

/-- `Framebuffer_clearTerminal(this)` and `Framebuffer_clearScreen(this)`. -/
def clear (s : State) : State := clearScreen (clearTerminal s)

/-- A call is made, which returns the new state or fails on an access outside of the array. -/
def call (s : State) : Call → Except Fault State
  | .putchar c => putchar s c
  | .scrollDown => scrollDown s
  | .clearTerminal => .ok (clearTerminal s)
  | .clear => .ok (clear s)

/-- Calls are made one after the other, up to the first one that fails. -/
def run (s : State) (cs : List Call) : Except Fault State := cs.foldlM call s

/-- The glyph that was drawn last at a pixel; the screen that has been cleared shows empty ones. -/
def lastDrawn (x y : ℤ) : List Draw → Option ℕ
  | [] => none
  | .clear _ :: _ => some 0
  | .char c _ _ x' y' :: draws => if x' = x ∧ y' = y then some (glyph c) else lastDrawn x y draws

/-- The glyph of a character of the text: a newline counts as blank. -/
def glyphOf (c : UInt8) : ℕ := if c = newline then 0 else glyph c

/-! ### Numbers that do not overflow -/

/-- A number that fits an `int` is converted to itself. -/
theorem bmod_of_lt {n : ℕ} (h : n < 2 ^ 31) : (n : ℤ).bmod (2 ^ 32) = n := by
  apply Int.bmod_eq_of_le
  · norm_num
  · norm_num
    omega

/-- A number of characters that is limited to at most 512 is converted to `unsigned int` as it
is. -/
theorem toNat_min_mod {n limit : ℕ} (hlimit : limit ≤ 512) :
    (min (n : ℤ) limit % 2 ^ 32).toNat = min n limit := by
  rw [← Nat.cast_min]
  have hle : min n limit ≤ limit := min_le_right n limit
  omega

/-- How many characters fit without zoom: the pixels without a border of four on both sides,
divided by the size of the bitmap. -/
theorem maxChar_eq (size : UInt64) {bitmap limit : ℕ} (hbitmap : 8 ≤ bitmap)
    (hbitmap' : bitmap ≤ 16) (hlimit : limit ≤ 512) :
    maxChar size 4 bitmap 1 limit =
      .ok (min ((size.toNat + 2 ^ 64 - 8) % 2 ^ 64 / bitmap) limit) := by
  have hsize := size.toNat_lt
  have hdivisor : bitmap * 1 % 2 ^ 32 = bitmap := by omega
  have hpadding : 2 * 4 * 1 % 2 ^ 32 = 8 := by norm_num
  rw [maxChar]
  simp only [hdivisor, hpadding]
  rw [if_neg (by omega)]
  set n := (size.toNat + 2 ^ 64 - 8) % 2 ^ 64 / bitmap with hn
  have hlt : n < 2 ^ 61 := by
    rw [hn, Nat.div_lt_iff_lt_mul (by omega)]
    calc (size.toNat + 2 ^ 64 - 8) % 2 ^ 64 < 2 ^ 64 := Nat.mod_lt _ (by norm_num)
      _ = 2 ^ 61 * 8 := by norm_num
      _ ≤ 2 ^ 61 * bitmap := Nat.mul_le_mul_left _ hbitmap
  have hlong : (n : ℤ).bmod (2 ^ 64) = n := by
    apply Int.bmod_eq_of_le
    · norm_num
    · norm_num
      omega
  rw [hlong, toNat_min_mod hlimit]

end MugOS.Framebuffer
