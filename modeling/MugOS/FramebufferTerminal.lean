import MugOS.Framebuffer
import MugOS.Lib.Outcome

/-!
# The Terminal over Whole Runs

Any sequence of calls that write characters, scroll and clear. The cursor stays in the text
window, accesses to the text do, and no assertion fails if the window fits the screen. The screen
shows the text: what is drawn last in a cell is the glyph of its character, since the cells right
of the end of the cursor's line and below it are blank, where newlines are put without being
drawn.

The two results share one induction: `Inv dims shown s` promises that the screen shows the text only
under the proposition `shown`, which is false where the text is cleared without the screen.

## Main results

* `Inv.scrollDown`, `Rest.putchar`: the operations.
* `terminal_run`: the cursor, the accesses and the text.
* `screen_shows_text`: the screen.
-/

namespace MugOS.Framebuffer

/-! ### The text window -/

/-- The size of the screen and of the text window. -/
structure Dims where
  width : UInt64
  height : UInt64
  columns : ℕ
  rows : ℕ
  columns_pos : 0 < columns
  columns_le : columns ≤ maxTerminalWidth
  rows_pos : 0 < rows
  rows_le : rows ≤ maxTerminalHeight

/-- The position in the array of column `i` of line `j`. -/
abbrev cell (i j : ℕ) : ℕ := j * maxTerminalWidth + i

/-- A position in the array is in the text window. -/
def Dims.InWindow (dims : Dims) (k : ℕ) : Prop :=
  k % maxTerminalWidth < dims.columns ∧ k / maxTerminalWidth < dims.rows

/-- The accesses to the text that are made: single characters in the window, and the whole array. -/
def Dims.Allows (dims : Dims) : Access → Prop
  | .index k => dims.InWindow k
  | .memset n => n = terminalSize

/-- The text window fits the screen, with a border. -/
def Dims.Fits (dims : Dims) : Prop :=
  dims.columns * 8 + 4 < dims.width.toNat ∧ dims.rows * 16 + 4 < dims.height.toNat

section Dims

variable (dims : Dims) {i j : ℕ} (hi : i < dims.columns) (hj : j < dims.rows)

include hi hj

/-- The position of a cell of the window is inside the array `text`. -/
theorem cell_lt : cell i j < terminalSize := by
  have := dims.columns_le
  have := dims.rows_le
  simp only [cell, terminalSize, maxTerminalWidth, maxTerminalHeight] at *
  omega

/-- The position of a cell of the window is one that characters may be accessed at. -/
theorem inWindow_cell : dims.InWindow (cell i j) := by
  have := dims.columns_le
  simp only [Dims.InWindow, cell, maxTerminalWidth] at *
  omega

end Dims

/-- Different cells of a window have different positions in the array. -/
theorem cell_injective (dims : Dims) {i j i' j' : ℕ} (hi : i < dims.columns)
    (hi' : i' < dims.columns) (h : cell i j = cell i' j') : i = i' ∧ j = j' := by
  have := dims.columns_le
  simp only [cell, maxTerminalWidth] at *
  omega

/-! ### Invariants -/

/-- The framebuffer has these sizes, in pixels and in characters, at a zoom of 1. -/
structure Sized (dims : Dims) (s : Display) : Prop where
  width : s.width = dims.width
  height : s.height = dims.height
  textWidth : s.textWidth = dims.columns
  textHeight : s.textHeight = dims.rows
  charWidth : s.charWidth = 8
  charHeight : s.charHeight = 16
  drawOffsetX : s.drawOffsetX = 4
  drawOffsetY : s.drawOffsetY = 4

/-- The column of pixels at which a cell is drawn: eight for each character, behind a border of
four. -/
theorem Sized.cellX_eq {dims : Dims} {s : State} (h : Sized dims s.toDisplay) {i : ℕ}
    (hi : i < dims.columns) :
    cellX s i = 8 * i + 4 := by
  have hle := dims.columns_le
  have hlt : i * 8 + 4 < 2 ^ 31 := by
    simp only [maxTerminalWidth] at hle
    omega
  unfold cellX
  rw [h.charWidth, h.drawOffsetX, bmod_of_lt hlt]
  push_cast
  ring

/-- The line of pixels at which a cell is drawn: sixteen for each character, below a border of
four. -/
theorem Sized.cellY_eq {dims : Dims} {s : State} (h : Sized dims s.toDisplay) {j : ℕ}
    (hj : j < dims.rows) :
    cellY s j = 16 * j + 4 := by
  have hle := dims.rows_le
  have hlt : j * 16 + 4 < 2 ^ 31 := by
    simp only [maxTerminalHeight] at hle
    omega
  unfold cellY
  rw [h.charHeight, h.drawOffsetY, bmod_of_lt hlt]
  push_cast
  ring

/-- The number of lines that get the characters of the next one. -/
theorem Sized.scrolledLines_eq {dims : Dims} {s : State} (h : Sized dims s.toDisplay) :
    (s.textHeight + 2 ^ 32 - 1) % 2 ^ 32 = dims.rows - 1 := by
  have hheight := h.textHeight
  have hpos := dims.rows_pos
  have hle := dims.rows_le
  simp only [maxTerminalHeight] at hle
  omega

/-- **The screen shows the text**: the glyph drawn last in a cell is that of its character. -/
def Shows (dims : Dims) (s : State) : Prop :=
  ∀ i < dims.columns, ∀ j < dims.rows,
    lastDrawn (8 * i + 4) (16 * j + 4) s.draws = some (glyphOf (s.text (cell i j)))

/-- What holds all the time, the screen showing the text if that is promised. -/
structure Inv (dims : Dims) (shown : Prop) (s : State) : Prop where
  sized : Sized dims s.toDisplay
  text : ∀ k < terminalSize, s.text k ≠ tab ∧ s.text k ≠ carriageReturn
  accesses : ∀ a ∈ s.accesses, dims.Allows a
  shows : shown → Shows dims s

/-- The cells right of the end of the cursor's line, and those below it, are blank. -/
def BlankAhead (dims : Dims) (s : State) : Prop :=
  ∀ i < dims.columns, ∀ j < dims.rows, s.cursorY < j ∨ s.cursorY = j ∧ s.endlinePos ≤ i →
    glyphOf (s.text (cell i j)) = 0

/-- What holds when the cursor may have left the window at the bottom. -/
structure Moved (dims : Dims) (shown : Prop) (s : State) : Prop extends Inv dims shown s where
  cursorX_lt : s.cursorX < dims.columns
  cursorY_le : s.cursorY ≤ dims.rows
  endlinePos_lt : s.endlinePos < dims.columns
  blank : BlankAhead dims s

/-- What holds between two calls: the cursor is on a line of the terminal. -/
structure Rest (dims : Dims) (shown : Prop) (s : State) : Prop extends Moved dims shown s where
  cursorY_lt : s.cursorY < dims.rows

/-- Errors are admitted if the window does not fit the screen. -/
abbrev Dims.Misfit (dims : Dims) (_ : Fault) : Prop := ¬ dims.Fits

section Inv

variable {dims : Dims} {shown : Prop} {s : State} (h : Inv dims shown s)

include h

/-- The invariant does not depend on the cursor, nor on where the last line ended. -/
theorem Inv.place (x y e : ℕ) :
    Inv dims shown { s with cursorX := x, cursorY := y, endlinePos := e } :=
  ⟨h.sized, h.text, h.accesses, h.shows⟩

/-- An access to a cell of the window succeeds, and is recorded as one that is allowed. -/
theorem Inv.touch {i j : ℕ} (hi : i < dims.columns) (hj : j < dims.rows) :
    ∃ a, touch s (cell i j) = .ok { s with accesses := a } ∧
      Inv dims shown { s with accesses := a } := by
  refine ⟨.index (cell i j) :: s.accesses, if_pos (cell_lt dims hi hj), ?_⟩
  refine ⟨h.sized, h.text, ?_, h.shows⟩
  intro a ha
  rcases List.mem_cons.mp ha with rfl | ha
  · exact inWindow_cell dims hi hj
  · exact h.accesses a ha

/-- A character of the window is read without a fault, and the invariant is kept. -/
theorem Inv.readText {i j : ℕ} (hi : i < dims.columns) (hj : j < dims.rows) :
    ∃ a, readText s (cell i j) = .ok (s.text (cell i j), { s with accesses := a }) ∧
      Inv dims shown { s with accesses := a } := by
  obtain ⟨a, htouch, hinv⟩ := h.touch hi hj
  refine ⟨a, ?_, hinv⟩
  rw [Framebuffer.readText, htouch]
  rfl

/-- A character is written: nothing is promised of the screen. -/
theorem Inv.writeText {i j : ℕ} (hi : i < dims.columns) (hj : j < dims.rows) {c : UInt8}
    (hc : c ≠ tab ∧ c ≠ carriageReturn) :
    ∃ a, writeText s (cell i j) c =
        .ok { s with accesses := a, text := Function.update s.text (cell i j) c } ∧
      Inv dims False { s with accesses := a, text := Function.update s.text (cell i j) c } := by
  obtain ⟨a, htouch, hinv⟩ := h.touch hi hj
  refine ⟨a, ?_, ?_⟩
  · rw [Framebuffer.writeText, htouch]
    rfl
  · refine ⟨h.sized, ?_, hinv.accesses, False.elim⟩
    intro k hk
    by_cases heq : k = cell i j
    · simpa [heq] using hc
    · simpa [heq] using h.text k hk

/-- The invariant can promise that the screen shows the text where this is the case. -/
theorem Inv.show {shown' : Prop} (hshows : shown' → Shows dims s) : Inv dims shown' s :=
  ⟨h.sized, h.text, h.accesses, hshows⟩

/-- Something is drawn: nothing is promised of the screen. -/
theorem Inv.draw (ds : List Draw) : Inv dims False { s with draws := ds } :=
  ⟨h.sized, h.text, h.accesses, False.elim⟩

/-- **A character is drawn** in a cell of the window, if that fits the screen. -/
theorem Inv.drawChar {i j : ℕ} (hi : i < dims.columns) (hj : j < dims.rows) (c : UInt8)
    (color : UInt32) :
    Ends dims.Misfit (drawChar s c color (cellX s i) (cellY s j)) fun t =>
      t = { s with draws := .char c color s.clearColor (8 * i + 4) (16 * j + 4) :: s.draws } := by
  have hcolumns := dims.columns_le
  have hrows := dims.rows_le
  simp only [maxTerminalWidth, maxTerminalHeight] at hcolumns hrows
  rw [h.sized.cellX_eq hi, h.sized.cellY_eq hj, Framebuffer.drawChar, h.sized.charWidth,
    h.sized.charHeight, h.sized.width,
    h.sized.height]
  by_cases hfits : dims.Fits
  · obtain ⟨hfitsx, hfitsy⟩ := hfits
    rw [if_neg (by push Not; omega), if_neg (by push Not; omega)]
    rfl
  · split
    · exact hfits
    · split
      · exact hfits
      · rfl

/-- The cursor moves to the next column, or from the last column to the beginning of the next
line. -/
theorem Inv.advance : Framebuffer.advance s = .ok { s with
      cursorX := (s.cursorX + 1) % dims.columns
      cursorY := if (s.cursorX + 1) % dims.columns = 0 then s.cursorY + 1 else s.cursorY } := by
  have hpos := dims.columns_pos
  rw [Framebuffer.advance, h.sized.textWidth, if_neg (by omega)]

end Inv

/-! ### The screen -/

/-- A cell shows a character, and the others show what they did. -/
structure Redrawn (i j : ℕ) (c : UInt8) (ds ds' : List Draw) : Prop where
  here : lastDrawn (8 * i + 4) (16 * j + 4) ds' = some (glyphOf c)
  others : ∀ i' j' : ℕ, ¬ (i' = i ∧ j' = j) →
    lastDrawn (8 * i' + 4) (16 * j' + 4) ds' = lastDrawn (8 * i' + 4) (16 * j' + 4) ds

/-- A cell in which a glyph was just drawn shows the character of this glyph, and the others
show what they did. -/
theorem redrawn_char {i j : ℕ} {c c' : UInt8} (hglyph : glyph c' = glyphOf c)
    (color color' : UInt32) (ds : List Draw) :
    Redrawn i j c ds (.char c' color color' (8 * i + 4) (16 * j + 4) :: ds) := by
  constructor
  · rw [lastDrawn, if_pos ⟨rfl, rfl⟩, hglyph]
  · intro i' j' hne
    rw [lastDrawn, if_neg (by omega)]

/-- A cell that shows a character already is as if it had been drawn, without a drawing. -/
theorem Redrawn.unchanged {i j : ℕ} {c : UInt8} {ds : List Draw}
    (h : lastDrawn (8 * i + 4) (16 * j + 4) ds = some (glyphOf c)) : Redrawn i j c ds ds :=
  ⟨h, fun _ _ _ => rfl⟩

/-- **A character is written and shown**: the screen shows the text as before. -/
theorem Shows.update {dims : Dims} {s t : State} (h : Shows dims s) {i j : ℕ}
    (hi : i < dims.columns)
    {c : UInt8} (htext : t.text = Function.update s.text (cell i j) c)
    (hdraws : Redrawn i j c s.draws t.draws) : Shows dims t := by
  intro i' hi' j' hj'
  rw [htext]
  by_cases heq : i' = i ∧ j' = j
  · obtain ⟨rfl, rfl⟩ := heq
    rw [Function.update_self]
    exact hdraws.here
  · have hne : cell i' j' ≠ cell i j := fun hcell => heq (cell_injective dims hi' hi hcell)
    rw [Function.update_of_ne hne, hdraws.others i' j' heq]
    exact h i' hi' j' hj'

/-- A character that is not a newline is shown by its own glyph. -/
theorem glyphOf_of_ne {c : UInt8} (hc : c ≠ newline) : glyphOf c = glyph c := if_neg hc

@[simp] theorem glyphOf_newline : glyphOf newline = 0 := if_pos rfl

@[simp] theorem glyphOf_nul : glyphOf 0 = 0 := (glyphOf_of_ne (by decide)).trans glyph_nul

@[simp] theorem glyphOf_space : glyphOf space = 0 := (glyphOf_of_ne (by decide)).trans glyph_space

/-! ### Scrolling -/

section Scroll

variable {dims : Dims} {shown : Prop} {s : State}

/-- **A cell is redrawn** unless its character has not changed, blanks being the same: it shows its
new character. -/
theorem Inv.redraw (h : Inv dims shown s) (hx : s.cursorX < dims.columns)
    (hy : s.cursorY < dims.rows)
    (prev : UInt8) {next : UInt8} (hnext : next ≠ tab ∧ next ≠ carriageReturn) :
    Ends dims.Misfit (redraw s prev next) fun t => ∃ ds, t = { s with draws := ds } ∧
      (lastDrawn (8 * s.cursorX + 4) (16 * s.cursorY + 4) s.draws = some (glyphOf prev) →
        Redrawn s.cursorX s.cursorY next s.draws ds) := by
  rw [Framebuffer.redraw, if_neg hnext.1, if_neg hnext.2]
  -- a newline is drawn as a space
  have hglyph : glyph (if next = newline then space else next) = glyphOf next := by
    by_cases hnewline : next = newline
    · rw [if_pos hnewline, hnewline, glyph_space, glyphOf_newline]
    · rw [if_neg hnewline, glyphOf_of_ne hnewline]
  have hne : (if next = newline then space else next) ≠ newline := by
    split
    · decide
    · assumption
  generalize (if next = newline then space else next) = next' at hglyph hne ⊢
  simp only
  split
  · rename_i hsame
    refine ⟨s.draws, rfl, fun hshown => .unchanged ?_⟩
    rw [hshown, ← hglyph, ← hsame, glyphOf_of_ne (hsame ▸ hne)]
  · split
    · rename_i hblank
      refine ⟨s.draws, rfl, fun hshown => .unchanged ?_⟩
      rw [hshown, ← hglyph]
      rcases hblank with ⟨rfl, rfl⟩ | ⟨rfl, rfl⟩
      · rw [glyphOf_nul, glyph_space]
      · rw [glyphOf_space, glyph_nul]
    · refine (h.drawChar hx hy next' s.fontColor).mono ?_
      rintro t rfl
      exact ⟨_, rfl, fun _ => redrawn_char hglyph _ _ _⟩

/-- **The loop body** of `scrollDown`: a cell gets the character below it, and shows it. -/
theorem Inv.scrollCell (h : Inv dims shown s) {j : ℕ} (hj : j + 1 < dims.rows)
    (hx : s.cursorX < dims.columns) (hy : s.cursorY = j) :
    Ends dims.Misfit (scrollCell j s s.cursorX) fun t => Inv dims shown t ∧
      t.cursorX = (s.cursorX + 1) % dims.columns ∧
      t.cursorY = (if (s.cursorX + 1) % dims.columns = 0 then j + 1 else j) ∧
      t.endlinePos = s.endlinePos := by
  have hj' : j < dims.rows := by omega
  have hnext := h.text _ (cell_lt dims hx hj)
  obtain ⟨a₁, hprev, h₁⟩ := h.readText hx hj'
  obtain ⟨a₂, hread, h₂⟩ := h₁.readText hx hj
  obtain ⟨a₃, hread', h₃⟩ := h₂.readText hx hj
  obtain ⟨a₄, hwrite, h₄⟩ := h₃.writeText hx hj' hnext
  simp only [cell] at hprev hread hread' hwrite
  simp only [Framebuffer.scrollCell, hprev, hread, hread', hwrite, ok_bind]
  have hredraw := h₄.redraw (s := { s with
      accesses := a₄
      text := Function.update s.text (cell s.cursorX j) (s.text (cell s.cursorX (j + 1))) })
    hx (hy ▸ hj') (s.text (cell s.cursorX j)) hnext
  refine hredraw.bind fun t ht => ?_
  obtain ⟨ds, rfl, hds⟩ := ht
  have hinv : Inv dims shown { s with
      accesses := a₄
      text := Function.update s.text (cell s.cursorX j) (s.text (cell s.cursorX (j + 1)))
      draws := ds } := by
    refine (h₄.draw ds).show fun hshown => ?_
    refine (h.shows hshown).update hx rfl ?_
    have hcell := h.shows hshown s.cursorX hx j hj'
    subst hy
    exact hds hcell
  rw [hinv.advance]
  subst hy
  exact ⟨hinv.place _ _ _, rfl, rfl, rfl⟩

/-- The state in a loop of `scrollDown`: the invariant holds, and `endline_pos` has not changed. -/
def Scrolling (dims : Dims) (shown : Prop) (e : ℕ) (t : State) : Prop :=
  Inv dims shown t ∧ t.endlinePos = e

/-- **A line** gets the characters of the next one, and shows them; the cursor is at the next
line then. -/
theorem Inv.scrollLine {e j : ℕ} (h : Scrolling dims shown e s) (hj : j + 1 < dims.rows)
    (hx : s.cursorX = 0) (hy : s.cursorY = j) :
    Ends dims.Misfit (scrollLine s j) fun t =>
      Scrolling dims shown e t ∧ t.cursorX = 0 ∧ t.cursorY = j + 1 := by
  have hpos := dims.columns_pos
  rw [Framebuffer.scrollLine, h.1.sized.textWidth]
  -- the cursor is at the cell, and at the next line in the end
  refine Ends.mono (Ends.range
    (I := fun i t => Scrolling dims shown e t ∧ t.cursorX = i % dims.columns ∧
      t.cursorY = if i = dims.columns then j + 1 else j)
    dims.columns ⟨h, by rw [hx, Nat.zero_mod], by rw [hy, if_neg (by omega)]⟩ ?_) ?_
  · rintro i hi t ⟨⟨hinv, he⟩, htx, hty⟩
    rw [Nat.mod_eq_of_lt hi] at htx
    rw [if_neg (by omega)] at hty
    subst htx
    refine (hinv.scrollCell hj hi hty).mono ?_
    rintro u ⟨huinv, hux, huy, hue⟩
    refine ⟨⟨huinv, hue.trans he⟩, hux, ?_⟩
    rw [huy]
    by_cases hlast : t.cursorX + 1 = dims.columns
    · rw [if_pos hlast, hlast, Nat.mod_self, if_pos rfl]
    · rw [if_neg hlast, Nat.mod_eq_of_lt (by omega), if_neg (by omega)]
  · rintro t ⟨ht, htx, hty⟩
    rw [Nat.mod_self] at htx
    rw [if_pos rfl] at hty
    exact ⟨ht, htx, hty⟩

/-- **A character of the last line** is cleared, and its cell shows a blank. -/
theorem Inv.clearCell {i : ℕ} (h : Inv dims shown s) (hi : i < dims.columns) :
    Ends dims.Misfit (clearCell s i) fun t => Inv dims shown t ∧ t.cursorX = s.cursorX ∧
      t.cursorY = s.cursorY ∧ t.endlinePos = s.endlinePos ∧
      t.text = Function.update s.text (cell i (dims.rows - 1)) 0 := by
  have hpos := dims.rows_pos
  have hj : dims.rows - 1 < dims.rows := by omega
  obtain ⟨a₁, hread, h₁⟩ := h.readText hi hj
  obtain ⟨a₂, hwrite, h₂⟩ := h₁.writeText hi hj (c := 0) ⟨by decide, by decide⟩
  simp only [cell] at hread hwrite
  simp only [Framebuffer.clearCell, h.sized.textHeight, hread, hwrite, ok_bind]
  split
  · rename_i hblank
    refine ⟨(h₂.draw s.draws).show fun hshown => ?_, rfl, rfl, rfl, rfl⟩
    refine (h.shows hshown).update hi rfl (.unchanged ?_)
    rw [h.shows hshown i hi _ hj]
    rcases hblank with hblank | hblank
    · rw [cell, hblank]
    · rw [cell, hblank, glyphOf_space, glyphOf_nul]
  · refine (h₂.drawChar hi hj space _).mono ?_
    rintro t rfl
    refine ⟨(h₂.draw _).show fun hshown => ?_, rfl, rfl, rfl, rfl⟩
    refine (h.shows hshown).update hi rfl (redrawn_char ?_ _ _ _)
    rw [glyph_space, glyphOf_nul]

/-- Every line but the last one gets the characters of the next one. -/
theorem Inv.scrollLines (h : Inv dims shown s) (hx : s.cursorX = 0) (hy : s.cursorY = 0) :
    Ends dims.Misfit (scrollLines s) fun t => Inv dims shown t ∧ t.endlinePos = s.endlinePos ∧
      t.cursorX = 0 ∧ t.cursorY = dims.rows - 1 := by
  unfold Framebuffer.scrollLines
  rw [h.sized.scrolledLines_eq]
  refine Ends.mono (Ends.range
    (I := fun j t => Scrolling dims shown s.endlinePos t ∧ t.cursorX = 0 ∧ t.cursorY = j)
    (dims.rows - 1) ⟨⟨h, rfl⟩, hx, hy⟩ ?_) ?_
  · rintro j hj t ⟨ht, htx, hty⟩
    exact Inv.scrollLine ht (by omega) htx hty
  · rintro t ⟨⟨hinv, he⟩, htx, hty⟩
    exact ⟨hinv, he, htx, hty⟩

/-- The characters of the last line are cleared, the cursor stays, and the cells of the line
show blanks. -/
theorem Inv.clearLine (h : Inv dims shown s) :
    Ends dims.Misfit (clearLine s) fun t => Inv dims shown t ∧ t.cursorX = s.cursorX ∧
      t.cursorY = s.cursorY ∧ t.endlinePos = s.endlinePos ∧
      ∀ i < dims.columns, t.text (cell i (dims.rows - 1)) = 0 := by
  rw [Framebuffer.clearLine, h.sized.textWidth]
  refine Ends.mono (Ends.range
    (I := fun i u => (Inv dims shown u ∧ u.cursorX = s.cursorX ∧ u.cursorY = s.cursorY ∧
      u.endlinePos = s.endlinePos) ∧ ∀ i' < i, u.text (cell i' (dims.rows - 1)) = 0)
    dims.columns ⟨⟨h, rfl, rfl, rfl⟩, fun _ hi' => absurd hi' (Nat.not_lt_zero _)⟩ ?_) ?_
  · rintro i hi u ⟨⟨hu, hux, huy, hue⟩, hblank⟩
    refine (hu.clearCell hi).mono ?_
    rintro v ⟨hv, hvx, hvy, hve, htext⟩
    refine ⟨⟨hv, hvx.trans hux, hvy.trans huy, hve.trans hue⟩, ?_⟩
    intro i' hi'
    rw [htext]
    by_cases heq : i' = i
    · rw [heq, Function.update_self]
    · rw [Function.update_of_ne (by simp only [cell]; omega)]
      exact hblank i' (by omega)
  · rintro u ⟨⟨hu, hux, huy, hue⟩, hblank⟩
    exact ⟨hu, hux, huy, hue, hblank⟩

/-- **`scrollDown`**: the cursor is at the beginning of the last line, which is blank. -/
theorem Inv.scrollDown (h : Inv dims shown s) :
    Ends dims.Misfit (scrollDown s) fun t => Inv dims shown t ∧ t.cursorX = 0 ∧
      t.cursorY = dims.rows - 1 ∧ t.endlinePos = s.endlinePos ∧
      ∀ i < dims.columns, t.text (cell i (dims.rows - 1)) = 0 := by
  refine ((h.place 0 0 s.endlinePos).scrollLines rfl rfl).bind ?_
  rintro t ⟨ht, he, hx, hy⟩
  refine ht.clearLine.mono ?_
  rintro u ⟨hu, hux, huy, hue, hblank⟩
  exact ⟨hu, hux.trans hx, huy.trans hy, hue.trans he, hblank⟩

/-- Scrolling brings a cursor that may be below the window back into it, to the first
column. -/
theorem Moved.scrollDown (h : Moved dims shown s) :
    Ends dims.Misfit (scrollDown s) fun t => Rest dims shown t ∧ t.cursorX = 0 := by
  have hpos := dims.rows_pos
  have hcolumns := dims.columns_pos
  refine h.toInv.scrollDown.mono ?_
  rintro t ⟨hinv, hx, hy, he, hblank⟩
  refine ⟨⟨⟨hinv, by omega, by omega, he ▸ h.endlinePos_lt, ?_⟩, by omega⟩, hx⟩
  intro i hi j hj hahead
  obtain rfl : j = dims.rows - 1 := by omega
  rw [hblank i hi, glyphOf_nul]

/-- At the end of `putchar` the text is scrolled if the cursor is below the window, and the
cursor is in the window then. -/
theorem Moved.scrollIfBelow (h : Moved dims shown s) :
    Ends dims.Misfit (scrollIfBelow s) fun t => Rest dims shown t ∧
      (t.cursorX = s.cursorX ∨ t.cursorX = 0) := by
  rw [Framebuffer.scrollIfBelow, h.sized.textHeight]
  split
  · exact h.scrollDown.mono fun t ht => ⟨ht.1, .inr ht.2⟩
  · rename_i hlt
    exact ⟨⟨h, Nat.lt_of_not_le hlt⟩, .inl rfl⟩

end Scroll

/-! ### Writing -/

section Rest

variable {dims : Dims} {shown : Prop} {s : State} (h : Rest dims shown s)

include h

/-- **A newline** is put at the end of the line, where a blank is shown. -/
theorem Rest.putNewline : Ends dims.Misfit (putNewline s) (Moved dims shown) := by
  have hpos := dims.columns_pos
  obtain ⟨a, hwrite, hinv⟩ :=
    h.toInv.writeText h.endlinePos_lt h.cursorY_lt (c := newline) ⟨by decide, by decide⟩
  have hend := h.blank _ h.endlinePos_lt _ h.cursorY_lt (.inr ⟨rfl, le_rfl⟩)
  simp only [cell] at hwrite
  simp only [Framebuffer.putNewline, hwrite, ok_bind]
  refine ⟨(hinv.place 0 (s.cursorY + 1) 0).show fun hshown => ?_, hpos, h.cursorY_lt, hpos, ?_⟩
  · refine (h.shows hshown).update h.endlinePos_lt rfl (.unchanged ?_)
    rw [h.shows hshown _ h.endlinePos_lt _ h.cursorY_lt, hend, glyphOf_newline]
  · intro i hi j hj hahead
    simp only at hahead
    have hne : cell i j ≠ cell s.endlinePos s.cursorY := by
      intro hcell
      have := (cell_injective dims hi h.endlinePos_lt hcell).2
      omega
    simp only [Function.update_of_ne hne]
    exact h.blank i hi j hj (.inl (by omega))

/-- A character is drawn at the cursor, where it has been written. -/
theorem Rest.drawGlyph {c : UInt8} (hnewline : c ≠ newline) {a : List Access}
    (hinv : Inv dims False { s with
      accesses := a, text := Function.update s.text (cell s.cursorX s.cursorY) c }) :
    Ends dims.Misfit
      (drawChar { s with
          accesses := a, text := Function.update s.text (cell s.cursorX s.cursorY) c }
        c s.fontColor (cellX s s.cursorX) (cellY s s.cursorY))
      fun t => Inv dims shown t ∧ t.cursorX = s.cursorX ∧ t.cursorY = s.cursorY ∧
        t.endlinePos = s.endlinePos ∧
        t.text = Function.update s.text (cell s.cursorX s.cursorY) c := by
  refine (hinv.drawChar h.cursorX_lt h.cursorY_lt c s.fontColor).mono ?_
  rintro t rfl
  refine ⟨(hinv.draw _).show fun hshown => ?_, rfl, rfl, rfl, rfl⟩
  exact (h.shows hshown).update h.cursorX_lt rfl (redrawn_char (glyphOf_of_ne hnewline).symm _ _ _)

/-- **A character** is put at the cursor and drawn, and the cursor moves on by one column. -/
theorem Rest.putGlyph {c : UInt8} (hc : c ≠ tab ∧ c ≠ carriageReturn) (hnewline : c ≠ newline) :
    Ends dims.Misfit (putGlyph s c) fun t => Moved dims shown t ∧
      t.cursorX = (s.cursorX + 1) % dims.columns := by
  have hpos := dims.columns_pos
  have hmod := Nat.mod_lt (s.cursorX + 1) hpos
  have hx := h.cursorX_lt
  obtain ⟨a, hwrite, hinv⟩ := h.toInv.writeText h.cursorX_lt h.cursorY_lt hc
  rw [Framebuffer.putGlyph, hwrite, ok_bind]
  refine (h.drawGlyph hnewline hinv).bind ?_
  rintro t ⟨ht, htx, hty, hte, htext⟩
  have hy :
      (if (s.cursorX + 1) % dims.columns = 0 then s.cursorY + 1 else s.cursorY) ≤ dims.rows := by
    have := h.cursorY_lt
    split <;> omega
  have he : (if (s.cursorX + 1) % dims.columns = 0 then 0
      else max s.endlinePos ((s.cursorX + 1) % dims.columns)) < dims.columns := by
    split
    · exact hpos
    · exact max_lt h.endlinePos_lt hmod
  rw [ht.advance, ok_bind, htx, hty, hte]
  refine ⟨⟨ht.place _ _ _, hmod, hy, he, ?_⟩, rfl⟩
  intro i hi j hj hahead
  simp only at hahead
  -- the cell ahead is not that of the cursor, and was ahead before
  have hbefore : ¬ (i = s.cursorX ∧ j = s.cursorY) ∧
      (s.cursorY < j ∨ s.cursorY = j ∧ s.endlinePos ≤ i) := by
    by_cases hlast : s.cursorX + 1 = dims.columns
    · rw [hlast, Nat.mod_self, if_pos rfl, if_pos rfl] at hahead
      omega
    · rw [Nat.mod_eq_of_lt (by omega), if_neg (by omega), if_neg (by omega)] at hahead
      omega
  have hne : cell i j ≠ cell s.cursorX s.cursorY :=
    fun hcell => hbefore.1 (cell_injective dims hi hx hcell)
  simp only [htext, Function.update_of_ne hne]
  exact h.blank i hi j hj hbefore.2

/-- **`putchar`** of a character other than a tab keeps the invariant. -/
theorem Rest.putcharNoTab {c : UInt8} (hc : c ≠ tab) :
    Ends dims.Misfit (putcharNoTab s c) (Rest dims shown) := by
  unfold Framebuffer.putcharNoTab
  split
  · exact h
  · split
    · exact h.putNewline.bind fun t ht => ht.scrollIfBelow.mono fun u hu => hu.1
    · split
      · have hmoved : Moved dims shown { s with cursorX := 0 } :=
          ⟨h.toInv.place 0 s.cursorY s.endlinePos, dims.columns_pos, h.cursorY_le, h.endlinePos_lt,
            h.blank⟩
        exact hmoved.scrollIfBelow.mono fun u hu => hu.1
      · rename_i hnewline hreturn
        exact (h.putGlyph ⟨hc, hreturn⟩ hnewline).bind fun t ht =>
          ht.1.scrollIfBelow.mono fun u hu => hu.1

/-- `putchar` of a space moves the cursor on, or to the beginning of a line. -/
theorem Rest.putSpace : Ends dims.Misfit (Framebuffer.putcharNoTab s space) fun t =>
    Rest dims shown t ∧ (t.cursorX = s.cursorX + 1 ∨ t.cursorX = 0) := by
  have hx := h.cursorX_lt
  unfold Framebuffer.putcharNoTab
  rw [if_neg (by decide), if_neg (by decide), if_neg (by decide)]
  refine (h.putGlyph (c := space) ⟨by decide, by decide⟩ (by decide)).bind ?_
  rintro t ⟨ht, htx⟩
  refine ht.scrollIfBelow.mono ?_
  rintro u ⟨hu, hux⟩
  refine ⟨hu, ?_⟩
  by_cases hlast : s.cursorX + 1 = dims.columns
  · rw [hlast, Nat.mod_self] at htx
    omega
  · rw [Nat.mod_eq_of_lt (by omega)] at htx
    omega

end Rest

/-- **The spaces of a tab** come to an end: the cursor gets to the next multiple of `TAB_SIZE`,
or to the beginning of a line before that. -/
theorem Rest.tabLoop {dims : Dims} {shown : Prop} {s : State} (h : Rest dims shown s) (n : ℕ)
    (hn : tabSize - s.cursorX % tabSize ≤ n) :
    Ends dims.Misfit (tabLoop n s) (Rest dims shown) := by
  induction n generalizing s with
  | zero =>
      simp only [tabSize] at hn
      omega
  | succ n ih =>
      refine h.putSpace.bind ?_
      rintro t ⟨ht, htx⟩
      simp only [tabSize] at hn ih ⊢
      split
      · rename_i hnext
        exact ih ht (by omega)
      · exact ht

/-- **`putchar`** of any character keeps the invariant, a tab with its spaces included. -/
theorem Rest.putchar {dims : Dims} {shown : Prop} {s : State} (h : Rest dims shown s) (c : UInt8) :
    Ends dims.Misfit (putchar s c) (Rest dims shown) := by
  unfold Framebuffer.putchar
  split
  · refine (h.tabLoop tabSize (Nat.sub_le _ _)).bind fun t ht => ?_
    exact ht.toMoved.scrollIfBelow.mono fun u hu => hu.1
  · rename_i hc
    exact h.putcharNoTab hc

/-! ### Runs -/

/-- The text is cleared: nothing is promised of the screen. -/
theorem Rest.clearTerminal {dims : Dims} {shown : Prop} {s : State} (h : Rest dims shown s) :
    Rest dims False (clearTerminal s) := by
  have htext : ∀ k < terminalSize, (Framebuffer.clearTerminal s).text k = 0 := fun k hk => if_pos hk
  refine ⟨⟨⟨h.sized, ?_, ?_, False.elim⟩, dims.columns_pos, Nat.zero_le _, h.endlinePos_lt, ?_⟩,
    dims.rows_pos⟩
  · intro k hk
    rw [htext k hk]
    decide
  · intro a ha
    rcases List.mem_cons.mp ha with rfl | ha
    · rfl
    · exact h.accesses a ha
  · intro i hi j hj _
    rw [htext _ (cell_lt dims hi hj), glyphOf_nul]

/-- **Clearing the text and the screen** together brings a state in which the screen shows the
text. -/
theorem Rest.clear {dims : Dims} {shown : Prop} {s : State} (h : Rest dims shown s) :
    Rest dims True (clear s) := by
  have hcleared := h.clearTerminal
  refine ⟨⟨⟨h.sized, hcleared.text, hcleared.accesses, ?_⟩, hcleared.cursorX_lt,
    hcleared.cursorY_le, h.endlinePos_lt, hcleared.blank⟩, hcleared.cursorY_lt⟩
  intro _ i hi j hj
  have hblank : glyphOf ((Framebuffer.clear s).text (cell i j)) = 0 := by
    rw [show (Framebuffer.clear s).text (cell i j) = 0 from if_pos (cell_lt dims hi hj),
      glyphOf_nul]
  rw [hblank]
  rfl

/-- **Every call** keeps the invariant; what the screen shows is promised unless the text alone
is cleared. -/
theorem Rest.call {dims : Dims} {shown : Prop} {s : State} (h : Rest dims shown s) {c : Call}
    (hc : shown → c ≠ .clearTerminal) : Ends dims.Misfit (call s c) (Rest dims shown) := by
  cases c with
  | putchar c => exact h.putchar c
  | scrollDown => exact h.toMoved.scrollDown.mono fun t ht => ht.1
  | clearTerminal =>
      have hcleared := h.clearTerminal
      exact { hcleared with shows := fun hshown => absurd rfl (hc hshown) }
  | clear =>
      have hcleared := h.clear
      exact { hcleared with shows := fun _ => hcleared.shows trivial }

/-- **Every run** keeps the invariant; what the screen shows is promised unless the text alone
is cleared. -/
theorem Rest.run {dims : Dims} {shown : Prop} {s : State} (h : Rest dims shown s) {cs : List Call}
    (hcs : shown → .clearTerminal ∉ cs) : Ends dims.Misfit (run s cs) (Rest dims shown) := by
  apply Ends.foldlM cs h
  intro c hc t ht
  apply ht.call
  rintro hshown rfl
  exact hcs hshown hc

/-- Every run returns if the text window fits the screen. -/
theorem Rest.returns {dims : Dims} {shown : Prop} {s : State} (h : Rest dims shown s)
    (hfits : dims.Fits) {cs : List Call} (hcs : shown → .clearTerminal ∉ cs) :
    ∃ t, Framebuffer.run s cs = .ok t ∧ Rest dims shown t := by
  have hends : Ends (fun _ => False) (Framebuffer.run s cs) (Rest dims shown) :=
    (h.run hcs).mono_errors fun _ hmisfit => hmisfit hfits
  exact hends.returns

/-! ### The start -/

/-- How many characters fit on a line or in a column. -/
def fitting (size : UInt64) (bitmap limit : ℕ) : ℕ :=
  min ((size.toNat + 2 ^ 64 - 8) % 2 ^ 64 / bitmap) limit

/-- **A framebuffer that is accepted**: its sizes, and the state at the start. -/
theorem init_spec {s s₀ : State} (hinit : init s = .ok (true, s₀)) :
    (s₀.width = s.width ∧ s₀.height = s.height ∧
      s₀.textWidth = fitting s.width 8 maxTerminalWidth ∧
      s₀.textHeight = fitting s.height 16 maxTerminalHeight ∧ s₀.charWidth = 8 ∧
      s₀.charHeight = 16 ∧ s₀.drawOffsetX = 4 ∧ s₀.drawOffsetY = 4) ∧
    s₀.cursorX = 0 ∧ s₀.cursorY = 0 ∧ s₀.endlinePos = s.endlinePos ∧
    (∀ k < terminalSize, s₀.text k = 0) ∧ s₀.accesses = .memset terminalSize :: s.accesses := by
  unfold init at hinit
  split at hinit
  · cases hinit
  · split at hinit
    · cases hinit
    · split at hinit
      · cases hinit
      · simp only [setZoom, setFontColor, setClearColor, bitmapCharWidth, bitmapCharHeight,
          one_ne_zero, if_false, ok_bind,
          maxChar_eq s.width (show 8 ≤ 8 by decide) (by decide)
          (show maxTerminalWidth ≤ 512 by decide),
          maxChar_eq s.height (show 8 ≤ 16 by decide) (by decide)
            (show maxTerminalHeight ≤ 512 by decide)] at hinit
        obtain ⟨-, rfl⟩ := Prod.mk.inj (Except.ok.inj hinit)
        refine ⟨⟨rfl, rfl, rfl, rfl, rfl, rfl, rfl, rfl⟩, rfl, rfl, rfl, ?_, rfl⟩
        intro k hk
        exact if_pos hk

/-- A framebuffer with an address and 32 bits per pixel, none of whose sizes is zero, is
accepted. -/
theorem init_accepts {s : State} (haddress : s.address ≠ 0)
    (hfields : ¬ (s.width = 0 ∨ s.height = 0 ∨ s.pitch = 0 ∨ s.bpp = 0)) (hbpp : s.bpp = 32) :
    ∃ s₀, init s = .ok (true, s₀) := by
  rw [init, if_neg haddress, if_neg hfields, if_neg (not_not.mpr hbpp)]
  simp only [setZoom, setFontColor, setClearColor, bitmapCharWidth, bitmapCharHeight,
    one_ne_zero, if_false, ok_bind,
    maxChar_eq s.width (show 8 ≤ 8 by decide) (by decide) (show maxTerminalWidth ≤ 512 by decide),
    maxChar_eq s.height (show 8 ≤ 16 by decide) (by decide)
    (show maxTerminalHeight ≤ 512 by decide)]
  exact ⟨_, rfl⟩

/-- The invariant holds at the start, whatever the colours and wherever the last line ended. -/
theorem start_rest {s s₀ : State} (hinit : init s = .ok (true, s₀)) (hrecord : s.accesses = [])
    (hrows : 0 < s₀.textHeight) (fontColor clearColor : UInt32) {e : ℕ} (he : e < s₀.textWidth) :
    ∃ dims : Dims, Sized dims s₀.toDisplay ∧
      Rest dims False
        { setFontColor (setClearColor s₀ clearColor) fontColor with endlinePos := e } := by
  obtain ⟨⟨-, -, htw, hth, hcw, hch, hox, hoy⟩, hx, hy, -, htext, haccesses⟩ := init_spec hinit
  have hcolumns_le : s₀.textWidth ≤ maxTerminalWidth := htw ▸ min_le_right _ _
  have hrows_le : s₀.textHeight ≤ maxTerminalHeight := hth ▸ min_le_right _ _
  let dims : Dims := ⟨s₀.width, s₀.height, s₀.textWidth, s₀.textHeight, Nat.zero_lt_of_lt he,
    hcolumns_le, hrows, hrows_le⟩
  have hsized : Sized dims s₀.toDisplay := ⟨rfl, rfl, rfl, rfl, hcw, hch, hox, hoy⟩
  refine ⟨dims, hsized, ⟨⟨⟨rfl, rfl, rfl, rfl, hcw, hch, hox, hoy⟩, ?_, ?_, False.elim⟩, ?_, ?_,
    he, ?_⟩, ?_⟩
  · intro k hk
    show s₀.text k ≠ tab ∧ s₀.text k ≠ carriageReturn
    rw [htext k hk]
    decide
  · intro a ha
    obtain rfl : a = .memset terminalSize := by
      have hmem : a ∈ s₀.accesses := ha
      rwa [haccesses, hrecord, List.mem_singleton] at hmem
    rfl
  · show s₀.cursorX < s₀.textWidth
    omega
  · show s₀.cursorY ≤ s₀.textHeight
    omega
  · intro i hi j hj _
    show glyphOf (s₀.text (cell i j)) = 0
    rw [htext _ (cell_lt dims hi hj), glyphOf_nul]
  · show s₀.cursorY < s₀.textHeight
    omega

/-- The window that fits is not empty and leaves a border. -/
theorem fitting_spec (size : UInt64) {bitmap limit : ℕ} (hbitmap : 8 ≤ bitmap) (hlimit : 0 < limit)
    (hsize : bitmap + 8 ≤ size.toNat) :
    0 < fitting size bitmap limit ∧ fitting size bitmap limit * bitmap + 4 < size.toNat := by
  have hlt := size.toNat_lt
  have hpixels : (size.toNat + 2 ^ 64 - 8) % 2 ^ 64 = size.toNat - 8 := by omega
  have hchars := Nat.div_mul_le_self (size.toNat - 8) bitmap
  have hpos : 0 < (size.toNat - 8) / bitmap := Nat.div_pos (by omega) (by omega)
  rw [fitting, hpixels]
  constructor
  · exact lt_min hpos hlimit
  · have hle := Nat.mul_le_mul_right bitmap (min_le_left ((size.toNat - 8) / bitmap) limit)
    omega

/-- **The terminal over whole runs.** For every framebuffer that is accepted with at least 16
by 24 pixels, every sequence of calls returns: tabs come to an end and no assertion fails. The
cursor is in the text window; characters of the text are accessed in the window only, but for
the whole array that is cleared; no character of the text is a tab or a carriage return. -/
theorem terminal_run {s s₀ : State} (hinit : init s = .ok (true, s₀)) (hstatic : s.endlinePos = 0)
    (hrecord : s.accesses = []) (hwidth : 16 ≤ s.width.toNat) (hheight : 24 ≤ s.height.toNat)
    (cs : List Call) :
    ∃ t, run s₀ cs = .ok t ∧ t.cursorX < t.textWidth ∧ t.cursorY < t.textHeight ∧
      (∀ k, .index k ∈ t.accesses →
        k % maxTerminalWidth < t.textWidth ∧ k / maxTerminalWidth < t.textHeight) ∧
      (∀ n, .memset n ∈ t.accesses → n = terminalSize) ∧
      ∀ k < terminalSize, t.text k ≠ tab ∧ t.text k ≠ carriageReturn := by
  obtain ⟨⟨hw, hh, htw, hth, -⟩, -, -, hend, -⟩ := init_spec hinit
  have hcolumns := fitting_spec s.width (show 8 ≤ 8 by decide) (show 0 < maxTerminalWidth by decide)
    hwidth
  have hrows := fitting_spec s.height (show 8 ≤ 16 by decide) (show 0 < maxTerminalHeight by decide)
    hheight
  rw [← htw] at hcolumns
  rw [← hth] at hrows
  obtain ⟨dims, hsized, hrest⟩ := start_rest hinit hrecord hrows.1 s₀.fontColor s₀.clearColor
    (show s₀.endlinePos < s₀.textWidth by rw [hend, hstatic]; exact hcolumns.1)
  have hfits : dims.Fits := by
    constructor
    · rw [← hsized.textWidth, ← hsized.width, hw]
      exact hcolumns.2
    · rw [← hsized.textHeight, ← hsized.height, hh]
      exact hrows.2
  obtain ⟨t, ht, hinv⟩ : ∃ t, run s₀ cs = .ok t ∧ Rest dims False t :=
    hrest.returns hfits False.elim
  refine ⟨t, ht, ?_, ?_, ?_, fun n hn => hinv.accesses _ hn, hinv.text⟩
  · rw [hinv.sized.textWidth]
    exact hinv.cursorX_lt
  · rw [hinv.sized.textHeight]
    exact hinv.cursorY_lt
  · intro k hk
    rw [hinv.sized.textWidth, hinv.sized.textHeight]
    exact hinv.accesses _ hk

/-- A framebuffer of 640 by 480 pixels. -/
def vga : State :=
  { address := 0xe0000000, width := 640, height := 480, pitch := 2560, bpp := 32, clearColor := 0
    fontColor := 0, drawOffsetX := 0, drawOffsetY := 0, zoom := 0, charWidth := 0, charHeight := 0
    textWidth := 0, textHeight := 0, cursorX := 0, cursorY := 0, text := fun _ => 0, endlinePos := 0
    accesses := [], draws := [] }

/-- It is accepted, and has 79 characters in 29 lines. -/
theorem init_vga : ∃ s₀, init vga = .ok (true, s₀) ∧ s₀.textWidth = 79 ∧ s₀.textHeight = 29 := by
  obtain ⟨s₀, hinit⟩ := init_accepts (s := vga) (by decide) (by decide) rfl
  obtain ⟨⟨-, -, htw, hth, -⟩, -⟩ := init_spec hinit
  refine ⟨s₀, hinit, htw.trans ?_, hth.trans ?_⟩
  · decide
  · decide

/-- The statement for a tab and a newline on that framebuffer. -/
theorem terminal_run_vga : ∃ s₀ t, init vga = .ok (true, s₀) ∧
    run s₀ [.putchar 9, .putchar 10] = .ok t ∧
      t.cursorX < t.textWidth ∧ t.cursorY < t.textHeight := by
  obtain ⟨s₀, hinit, -⟩ := init_vga
  obtain ⟨t, hrun, hx, hy, -⟩ :=
    terminal_run hinit rfl rfl (by decide) (by decide) [.putchar 9, .putchar 10]
  exact ⟨s₀, t, hinit, hrun, hx, hy⟩

/-- **`clearTerminal` clears the whole array**, not only the text window. -/
theorem clearTerminal_outside_window : ∃ s₀ t, init vga = .ok (true, s₀) ∧
    run s₀ [.clearTerminal] = .ok t ∧ ∃ a ∈ t.accesses, ∃ k, a.Covers k ∧
      ¬ (k % maxTerminalWidth < t.textWidth ∧ k / maxTerminalWidth < t.textHeight) := by
  obtain ⟨s₀, hinit, hcolumns, -⟩ := init_vga
  refine ⟨s₀, clearTerminal s₀, hinit, rfl, .memset terminalSize, List.mem_cons_self, 255, ?_, ?_⟩
  · show 255 < terminalSize
    decide
  · rintro ⟨hlt, -⟩
    have hlt' : 255 % maxTerminalWidth < s₀.textWidth := hlt
    rw [hcolumns] at hlt'
    revert hlt'
    decide

/-- **The screen shows the text.** For every framebuffer that is accepted, with any colours,
from the cleared text and screen, after every sequence of calls that clear the text only
together with the screen: the glyph drawn last in each cell of the text window is that of its
character. -/
theorem screen_shows_text {s s₀ t : State} (hinit : init s = .ok (true, s₀))
    (hrecord : s.accesses = [])
    (fontColor clearColor : UInt32) {e : ℕ} (he : e < s₀.textWidth) {cs : List Call}
    (hcs : .clearTerminal ∉ cs)
    (hrun : run
      (clear { setFontColor (setClearColor s₀ clearColor) fontColor with endlinePos := e }) cs =
      .ok t) {i j : ℕ} (hi : i < s₀.textWidth) (hj : j < s₀.textHeight) :
    lastDrawn (cellX s₀ i) (cellY s₀ j) t.draws =
      some (glyphOf (t.text (j * maxTerminalWidth + i))) := by
  obtain ⟨dims, hsized, hrest⟩ :=
    start_rest hinit hrecord (Nat.zero_lt_of_lt hj) fontColor clearColor he
  have hfinal := (Rest.run hrest.clear fun _ => hcs).value hrun
  rw [hsized.textWidth] at hi
  rw [hsized.textHeight] at hj
  rw [hsized.cellX_eq hi, hsized.cellY_eq hj]
  exact hfinal.shows trivial i hi j hj

/-- A framebuffer of 24 by 40 pixels. -/
def twoLines : State := { vga with width := 24, height := 40, pitch := 96 }

/-- It is accepted, and has two characters in two lines. -/
theorem init_twoLines :
    ∃ s₀, init twoLines = .ok (true, s₀) ∧ s₀.textWidth = 2 ∧ s₀.textHeight = 2 := by
  obtain ⟨s₀, hinit⟩ := init_accepts (s := twoLines) (by decide) (by decide) rfl
  obtain ⟨⟨-, -, htw, hth, -⟩, -⟩ := init_spec hinit
  refine ⟨s₀, hinit, htw.trans ?_, hth.trans ?_⟩
  · decide
  · decide

/-- The three lines A, B and C on it: the text has been scrolled, and the screen shows B above C. -/
theorem screen_shows_text_scrolled : ∃ s₀ t, init twoLines = .ok (true, s₀) ∧
    run (clear { setFontColor (setClearColor s₀ 0) 0xffffff with endlinePos := 0 })
      ([65, newline, 66, newline, 67].map .putchar) = .ok t ∧
    lastDrawn (cellX s₀ 0) (cellY s₀ 0) t.draws = some (glyph 66) ∧
    lastDrawn (cellX s₀ 0) (cellY s₀ 1) t.draws = some (glyph 67) := by
  have hends : (do
      let r ← init twoLines
      let t ← run (clear { setFontColor (setClearColor r.2 0) 0xffffff with endlinePos := 0 })
        ([65, newline, 66, newline, 67].map .putchar)
      return (t.text 0, t.text 256) : Except Fault (UInt8 × UInt8)) = .ok (66, 67) := by
    decide +kernel
  obtain ⟨s₀, hinit, hcolumns, hrows⟩ := init_twoLines
  rw [hinit, ok_bind] at hends
  cases hrun : run (clear { setFontColor (setClearColor s₀ 0) 0xffffff with endlinePos := 0 })
      ([65, newline, 66, newline, 67].map .putchar) with
  | error e =>
      rw [hrun] at hends
      exact nomatch hends
  | ok t =>
      rw [hrun] at hends
      obtain ⟨hB, hC⟩ := Prod.mk.inj (Except.ok.inj hends)
      have hshows := fun j hj => screen_shows_text (i := 0) (j := j) hinit rfl 0xffffff 0
        (show 0 < s₀.textWidth by omega) (by decide) hrun (by omega) hj
      refine ⟨s₀, t, hinit, hrun, (hshows 0 (by omega)).trans ?_, (hshows 1 (by omega)).trans ?_⟩
      · exact congrArg some ((congrArg glyphOf hB).trans (glyphOf_of_ne (by decide)))
      · exact congrArg some ((congrArg glyphOf hC).trans (glyphOf_of_ne (by decide)))

end MugOS.Framebuffer
