import MugOS.VGA

/-!
# The Terminal as a Window on a Sheet, and its Twin

What the screen shows: the text is written on a sheet of paper that never scrolls, and the screen is
the window of 25 lines of the sheet that ends with the lowest line reached.

`putc` of `Bootloader/Legacy/SecondStage/stdio.c` is `VGA_putchar` with the coordinates taken modulo
the size of the screen. It writes what the kernel writes wherever the kernel does not panic, and
always returns.

## Main results

* `screen_shows_sheet`: the screen, the cursor and the rest of the memory after a text.
* `putsNoLF_agrees`: the two terminals.
-/

namespace MugOS.VGA

/-! ### The sheet -/

/-- A sheet of paper without an end, and the place of the cursor on it. -/
structure Sheet where
  glyph : ℕ → ℕ → UInt8
  color : ℕ → ℕ → UInt8
  line : ℕ
  col : ℕ

/-- The lines of the screen are the first lines of the sheet, the others are blank. -/
def Sheet.of (s : Screen) : Sheet where
  glyph l x := if l < screenHeight then s.video (cell x l) else 0
  color l x := if l < screenHeight then s.video (cell x l + 1) else defaultColor
  line := s.screenY
  col := s.screenX

/-- A character that is written on the sheet, at its line and column. -/
def Sheet.putchar (sheet : Sheet) (c : UInt8) : Sheet where
  glyph l x :=
    if Prints c ∧ c = tab ∧ l = sheet.line ∧ sheet.col ≤ x ∧ x < tabStop sheet.col then space
    else if Prints c ∧ c ≠ tab ∧ l = sheet.line ∧ x = sheet.col then c
    else sheet.glyph l x
  color := sheet.color
  line := sheet.line + feed c sheet.col
  col := column c sheet.col

/-- The first line of the sheet that is on the screen. -/
def Sheet.top (sheet : Sheet) : ℕ := sheet.line - (screenHeight - 1)

/-- The screen shows the window of the sheet from its top line on, and its cursor. -/
structure Shows (sheet : Sheet) (s : Screen) : Prop where
  glyph : ∀ x y, x < screenWidth → y < screenHeight →
    s.video (cell x y) = sheet.glyph (sheet.top + y) x
  color : ∀ x y, x < screenWidth → y < screenHeight →
    s.video (cell x y + 1) = sheet.color (sheet.top + y) x
  below : ∀ l x, sheet.top + screenHeight ≤ l → x < screenWidth →
    sheet.glyph l x = 0 ∧ sheet.color l x = defaultColor
  line : sheet.line = sheet.top + s.screenY
  col : sheet.col = s.screenX

/-- The CRT controller was told the place of the cursor. -/
def CursorTold (s : Screen) : Prop :=
  (s.crtc 0x0e).toNat * 2 ^ 8 + (s.crtc 0x0f).toNat = s.screenY * screenWidth + s.screenX

/-! ### One character -/

section Video

variable (v : ℕ → UInt8) {x y : ℕ} (hx : x < screenWidth) (hy : y < screenHeight)

include hx hy

/-- The characters of the screen after scrolling by one line. -/
theorem scrolledUp_glyph :
    scrolledUp 1 v (cell x y) = if y + 1 < screenHeight then v (cell x (y + 1)) else 0 := by
  simp only [screenWidth, screenHeight] at hx hy
  simp only [scrolledUp, filled, scrolled, cell, screenWidth, screenHeight]
  split_ifs <;> first | rfl | omega | (congr 1; omega)

/-- The colours of the screen after scrolling by one line. -/
theorem scrolledUp_color : scrolledUp 1 v (cell x y + 1) =
    if y + 1 < screenHeight then v (cell x (y + 1) + 1) else defaultColor := by
  simp only [screenWidth, screenHeight] at hx hy
  simp only [scrolledUp, filled, scrolled, cell, screenWidth, screenHeight]
  split_ifs <;> first | rfl | omega | (congr 1; omega)

omit hy in
/-- The characters of the screen after one at column `i` of line `j`. -/
theorem placed_glyph (c : UInt8) {i : ℕ} (hi : Prints c → i < screenWidth) (j : ℕ) :
    placed v c i j (cell x y) =
      if Prints c ∧ c = tab ∧ y = j ∧ i ≤ x ∧ x < tabStop i then space
      else if Prints c ∧ c ≠ tab ∧ y = j ∧ x = i then c
      else v (cell x y) := by
  by_cases hprints : Prints c
  · have hi := hi hprints
    simp only [placed, hprints, if_true, true_and]
    by_cases htab : c = tab
    · have hstop : tabStop i ≤ 80 := by
        simp only [tabStop, tabSize, screenWidth] at hi ⊢
        omega
      simp only [screenWidth] at hx hi
      simp only [htab, if_true, true_and, ne_eq, not_true_eq_false, false_and, if_false, spaced,
        cell, screenWidth]
      refine if_congr ⟨fun h => ?_, fun h => ?_⟩ rfl rfl
      · omega
      · obtain ⟨rfl, hle, hlt⟩ := h
        omega
    · simp only [htab, if_false, false_and, ne_eq, not_false_eq_true, true_and,
        Function.update_apply, cell]
      simp only [screenWidth] at hx hi ⊢
      exact if_congr (by omega) rfl rfl
  · simp [placed, hprints]

omit hx hy in
/-- A character that is put into a cell changes its character byte only, not its colour. -/
theorem placed_color (c : UInt8) (i j : ℕ) : placed v c i j (cell x y + 1) = v (cell x y + 1) := by
  rw [placed]
  split_ifs
  · rw [spaced, if_neg (by simp only [cell]; omega)]
  · exact Function.update_of_ne (by simp only [cell]; omega) _ _
  · rfl

omit hx hy in
/-- A character leaves the memory behind the screen as it is. -/
theorem placed_outside (c : UInt8) {i j a : ℕ} (hi : Prints c → i < screenWidth)
    (hj : j < screenHeight) (ha : cell 0 screenHeight ≤ a) : placed v c i j a = v a := by
  simp only [cell, screenWidth, screenHeight] at ha hi hj
  by_cases hprints : Prints c
  · have hi := hi hprints
    have hstop : tabStop i ≤ 80 := by
      simp only [tabStop, tabSize]
      omega
    rw [placed, if_pos hprints]
    split_ifs
    · rw [spaced, if_neg (by simp only [cell, screenWidth]; omega)]
    · exact Function.update_of_ne (by simp only [cell, screenWidth]; omega) _ _
  · rw [placed, if_neg hprints]

end Video

/-- The video memory after a character that can be put at the cursor. -/
theorem after_video {c : UInt8} {s : Screen} : (after c s).video =
    if s.screenY + feed c s.screenX = screenHeight then
      scrolledUp 1 (placed s.video c s.screenX s.screenY)
    else placed s.video c s.screenX s.screenY := by
  simp only [after]
  split <;> rfl

/-- The line of the cursor after a character that can be put at the cursor. -/
theorem after_screenY {c : UInt8} {s : Screen} : (after c s).screenY =
    if s.screenY + feed c s.screenX = screenHeight then screenHeight - 1
    else s.screenY + feed c s.screenX := by
  simp only [after]
  split <;> rfl

/-- **One character** on the screen is one character on the sheet. -/
theorem Shows.putchar {sheet : Sheet} {s : Screen} (h : Shows sheet s) {c : UInt8}
    (hy : s.screenY < screenHeight) (hfits : Prints c → s.screenX < screenWidth) :
    Shows (sheet.putchar c) (after c s) := by
  have hfeed := feed_le c s.screenX
  have hline := h.line
  have hcol := h.col
  have hnext : (sheet.putchar c).line = sheet.line + feed c s.screenX := by rw [← hcol]; rfl
  simp only [screenHeight] at hy
  -- The glyphs of the new sheet at the lines that were on the screen.
  have hglyph : ∀ x y, x < screenWidth → y < screenHeight →
      placed s.video c s.screenX s.screenY (cell x y) =
        (sheet.putchar c).glyph (sheet.top + y) x := by
    intro x y hx hy
    rw [placed_glyph s.video hx c hfits, h.glyph x y hx hy]
    simp only [Sheet.putchar, hcol, hline, Nat.add_left_cancel_iff]
  have hbelow : ∀ l x, sheet.top + screenHeight ≤ l → x < screenWidth →
      (sheet.putchar c).glyph l x = 0 := by
    intro l x hl hx
    have hother : l ≠ sheet.line := by
      simp only [screenHeight] at hl
      omega
    simp only [Sheet.putchar, hother, false_and, and_false, if_false]
    exact (h.below l x hl hx).1
  by_cases hend : s.screenY + feed c s.screenX = screenHeight
  · have htop : (sheet.putchar c).top = sheet.top + 1 := by
      simp only [Sheet.top, screenHeight] at hnext hend hline ⊢
      omega
    refine ⟨fun x y hx hy => ?_, fun x y hx hy => ?_, fun l x hl hx => ?_, ?_, ?_⟩
    · rw [after_video, if_pos hend, scrolledUp_glyph _ hx hy, htop, Nat.add_right_comm,
        Nat.add_assoc]
      split_ifs with hlast
      · exact hglyph x (y + 1) hx hlast
      · exact (hbelow _ x (by simp only [screenHeight] at hlast hy ⊢; omega) hx).symm
    · rw [after_video, if_pos hend, scrolledUp_color _ hx hy, htop, Nat.add_right_comm,
        Nat.add_assoc]
      split_ifs with hlast
      · rw [placed_color, h.color x (y + 1) hx hlast]
        rfl
      · exact (h.below _ x (by simp only [screenHeight] at hlast hy ⊢; omega) hx).2.symm
    · rw [htop] at hl
      exact ⟨hbelow l x (by omega) hx, (h.below l x (by omega) hx).2⟩
    · rw [after_screenY, if_pos hend, hnext, htop]
      simp only [screenHeight] at hend ⊢
      omega
    · rw [after_screenX, ← hcol]
      rfl
  · have htop : (sheet.putchar c).top = sheet.top := by
      simp only [Sheet.top, screenHeight] at hnext hend hline ⊢
      omega
    refine ⟨fun x y hx hy => ?_, fun x y hx hy => ?_, fun l x hl hx => ?_, ?_, ?_⟩
    · rw [after_video, if_neg hend, htop, hglyph x y hx hy]
    · rw [after_video, if_neg hend, htop, placed_color, h.color x y hx hy]
      rfl
    · rw [htop] at hl
      exact ⟨hbelow l x hl hx, (h.below l x hl hx).2⟩
    · rw [after_screenY, if_neg hend, hnext, htop]
      omega
    · rw [after_screenX, ← hcol]
      rfl

/-! ### Texts on the sheet -/

/-- The CRT controller holds the place that it was told last. -/
theorem setCursorPosition_told {x y : ℕ} (hpos : y * screenWidth + x < 2 ^ 16) (s : Screen) :
    let u := setCursorPosition x y s
    (u.crtc 0x0e).toNat * 2 ^ 8 + (u.crtc 0x0f).toNat = y * screenWidth + x := by
  have hlow : (0x0f : UInt8) ≠ 0x0e := by decide
  simp only [setCursorPosition, Screen.setRegister, Function.update_self,
    Function.update_of_ne hlow, UInt8.toNat_ofNat']
  omega

/-- A character that can be put leaves the cursor in a column of the screen, or right behind it. -/
theorem column_le {c : UInt8} {x : ℕ} (hfits : Prints c → x < screenWidth) :
    column c x ≤ screenWidth := by
  rw [column]
  split_ifs with hprints htab
  · have hx := hfits hprints
    simp only [tabStop, tabSize, screenWidth] at hx ⊢
    omega
  · exact (Nat.mod_lt _ (by decide)).le
  · exact Nat.zero_le _

/-- The CRT controller is told the place after every character. -/
theorem after_told {c : UInt8} {s : Screen} (hy : s.screenY < screenHeight)
    (hfits : Prints c → s.screenX < screenWidth) : CursorTold (after c s) := by
  have hfeed := feed_le c s.screenX
  have hcolumn : column c s.screenX ≤ 80 := column_le hfits
  simp only [screenHeight] at hy
  rw [CursorTold, after_screenX, after_screenY]
  by_cases hend : s.screenY + feed c s.screenX = screenHeight
  · rw [after, if_pos hend, if_pos hend]
    exact setCursorPosition_told (by simp only [screenHeight, screenWidth]; omega) _
  · rw [after, if_neg hend, if_neg hend]
    exact setCursorPosition_told (by simp only [screenWidth]; omega) _

/-- A character leaves the memory behind the screen as it is. -/
theorem after_outside {c : UInt8} {s : Screen} (hy : s.screenY < screenHeight)
    (hfits : Prints c → s.screenX < screenWidth) {a : ℕ} (ha : cell 0 screenHeight ≤ a) :
    (after c s).video a = s.video a := by
  have hplaced := placed_outside s.video c hfits hy ha
  simp only [cell, screenWidth, screenHeight] at ha
  rw [after_video]
  split_ifs
  · simp only [scrolledUp, filled, scrolled, screenWidth, screenHeight]
    rw [if_neg (by omega), if_neg (by omega), hplaced]
  · exact hplaced

/-- A character that returns was one that can be put at the cursor. -/
theorem putchar_ok {c : UInt8} {s t : Screen} (hy : s.screenY < screenHeight)
    (h : putchar c s = .ok t) : (Prints c → s.screenX < screenWidth) ∧ t = after c s := by
  have hfits : Prints c → s.screenX < screenWidth := by
    by_contra hnot
    obtain ⟨hprints, hx⟩ := Classical.not_imp.mp hnot
    simp [putchar, putAtCursor_fails hprints hx, bind, Except.bind] at h
  rw [putchar_spec hy hfits, Except.ok.injEq] at h
  exact ⟨hfits, h.symm⟩

/-- A screen shows the sheet that is read from it, if its cursor is on one of its lines. -/
theorem shows_of {s : Screen} (hy : s.screenY < screenHeight) : Shows (Sheet.of s) s := by
  have htop : (Sheet.of s).top = 0 := by
    simp only [Sheet.top, Sheet.of, screenHeight] at hy ⊢
    omega
  refine ⟨fun x y _ hline => ?_, fun x y _ hline => ?_, fun l x hl _ => ?_, ?_, rfl⟩
  · rw [htop, Nat.zero_add]
    simp [Sheet.of, hline]
  · rw [htop, Nat.zero_add]
    simp [Sheet.of, hline]
  · have hout : ¬ l < screenHeight := by omega
    exact ⟨by simp [Sheet.of, hout], by simp [Sheet.of, hout]⟩
  · rw [htop, Nat.zero_add]
    rfl

/-- A text that is written without a failed assertion shows the text on the sheet, and touches
no other memory. -/
theorem Shows.putchars {text : List UInt8} {sheet : Sheet} {s t : Screen} (h : Shows sheet s)
    (hy : s.screenY < screenHeight) (hrun : putchars text s = .ok t) :
    Shows (text.foldl Sheet.putchar sheet) t ∧ t.screenY < screenHeight ∧
      (CursorTold s ∨ text ≠ [] → CursorTold t) ∧
      ∀ a, cell 0 screenHeight ≤ a → t.video a = s.video a := by
  induction text generalizing sheet s with
  | nil =>
      obtain rfl := Except.ok.inj hrun
      exact ⟨h, hy, fun hor => hor.resolve_right (by simp), fun _ _ => rfl⟩
  | cons c text ih =>
      obtain ⟨u, hu, hrest⟩ := bind_eq_ok.mp hrun
      obtain ⟨hfits, rfl⟩ := putchar_ok hy hu
      obtain ⟨hshows, hline, htold, houtside⟩ := ih (h.putchar hy hfits) (after_screenY_lt hy) hrest
      exact ⟨hshows, hline, fun _ => htold (Or.inl (after_told hy hfits)),
        fun a ha => (houtside a ha).trans (after_outside hy hfits ha)⟩

/-- **The screen is a window on the sheet.** After every text that is written, from any contents of
the screen, each cell shows the character and the colour that the sheet has there, the cursor is at
its place on the sheet, and the CRT controller was told the place; the memory behind the screen is
as before. -/
theorem screen_shows_sheet {s t : Screen} (hy : s.screenY < screenHeight) {text : List UInt8}
    (htext : text ≠ []) (hrun : putchars text s = .ok t) :
    Shows (text.foldl Sheet.putchar (Sheet.of s)) t ∧ CursorTold t ∧
      ∀ a, cell 0 screenHeight ≤ a → t.video a = s.video a := by
  obtain ⟨hshows, -, htold, houtside⟩ := (shows_of hy).putchars hy hrun
  exact ⟨hshows, htold (Or.inr htext), houtside⟩

/-- 24 newlines, then the lines A and B: the text is scrolled by one line, and the screen shows A in
the last line but one and B in the last line. -/
theorem screen_shows_scrolled :
    ∃ t, putchars (List.replicate 24 newline ++ [65, newline, 66]) (dark 0) = .ok t ∧
      t.video (cell 0 23) = 65 ∧ t.video (cell 0 24) = 66 ∧ CursorTold t := by
  have hfits : ∀ before c rest,
      List.replicate 24 newline ++ [65, newline, 66] = before ++ tab :: c :: rest →
      screenWidth - tabSize ≤ columnAfter before (dark 0).screenX →
      c = newline ∨ c = carriageReturn := by
    intro before c rest htext
    have htab : tab ∈ List.replicate 24 newline ++ [65, newline, 66] := by
      rw [htext]
      simp
    exact absurd htab (by decide)
  obtain ⟨t, hrun⟩ := (putchars_returns_iff (s := dark 0) (by decide) (by decide) _).1.mpr hfits
  obtain ⟨hshows, htold, -⟩ := screen_shows_sheet (by decide) (by decide) hrun
  have htop : ((List.replicate 24 newline ++ [65, newline, 66]).foldl Sheet.putchar
      (Sheet.of (dark 0))).top = 1 := by decide +kernel
  have hglyph := fun y hy => hshows.glyph 0 y (by decide) hy
  simp only [htop] at hglyph
  refine ⟨t, hrun, (hglyph 23 (by decide)).trans ?_, (hglyph 24 (by decide)).trans ?_, htold⟩
  · decide +kernel
  · decide +kernel

end MugOS.VGA

namespace MugOS.SecondStage

open VGA

/-! ### The terminal of the second stage -/

/-- `putc_xy(x, y, c)`: writes the character of a cell, whose place is taken modulo the
screen. -/
def putcXY (x y : ℕ) (c : UInt8) (s : Screen) : Screen :=
  s.write (cell (x % screenWidth) (y % screenHeight)) c

@[simp]
theorem putcXY_screenX (x y : ℕ) (c : UInt8) (s : Screen) :
    (putcXY x y c s).screenX = s.screenX := rfl

@[simp]
theorem putcXY_screenY (x y : ℕ) (c : UInt8) (s : Screen) :
    (putcXY x y c s).screenY = s.screenY := rfl

/-- `put_color_xy(x, y, color)`: writes the colour of a cell, whose place is taken modulo the
screen. -/
def putColorXY (x y : ℕ) (color : UInt8) (s : Screen) : Screen :=
  s.write (cell (x % screenWidth) (y % screenHeight) + 1) color

/-- `getc_xy(x, y)`: the character of a cell, whose place is taken modulo the screen. -/
def getcXY (x y : ℕ) (s : Screen) : UInt8 := s.video (cell (x % screenWidth) (y % screenHeight))

/-- `get_color_xy(x, y)`: the colour of a cell, whose place is taken modulo the screen. -/
def getColorXY (x y : ℕ) (s : Screen) : UInt8 :=
  s.video (cell (x % screenWidth) (y % screenHeight) + 1)

/-- The loop body that moves a cell up by `n` lines. -/
def scrollCell (n x y : ℕ) (s : Screen) : Except Fault Screen :=
  let c := getcXY x y s
  let color := getColorXY x y s
  .ok (putColorXY x (y - n) color (putcXY x (y - n) c s))

/-- The loop body that puts a character in the default colour. -/
def fillCell (c : UInt8) (x y : ℕ) (s : Screen) : Except Fault Screen :=
  .ok (putColorXY x y defaultColor (putcXY x y c s))

/-- `scroll_down(n)`, for at most as many lines as there are. -/
def scrollDown (n : ℕ) (s : Screen) : Except Fault Screen := do
  let s ← forCells (scrollCell n) n (screenHeight - n) s
  let s ← forCells (fillCell 0) (screenHeight - n) n s
  let s := { s with screenY := s.screenY - n }
  .ok (setCursorPosition s.screenX s.screenY s)

/-- The `do ... while` loop of a tab, for at most as many rounds as `fuel` says. -/
def tabLoop : ℕ → Screen → Except Fault Screen
  | 0, _ => .error .diverges
  | fuel + 1, s =>
      let s := putcXY s.screenX s.screenY space s
      let s := { s with screenX := s.screenX + 1 }
      if s.screenX % tabSize ≠ 0 ∧ s.screenX < screenWidth then tabLoop fuel s else .ok s

/-- What `putc(c)` does up to `end_putc`: the character is put at the cursor, which moves
on. -/
def putAtCursor (c : UInt8) (s : Screen) : Except Fault Screen :=
  if c = newline then .ok { s with screenX := 0, screenY := s.screenY + 1 }
  else if c = carriageReturn then .ok { s with screenX := 0 }
  else if c = tab then tabLoop tabSize s
  else
    let s := putcXY s.screenX s.screenY c s
    let s := { s with screenX := (s.screenX + 1) % screenWidth }
    .ok (if s.screenX = 0 then { s with screenY := s.screenY + 1 } else s)

/-- `putc(c)`: puts a character at the cursor, scrolls below the last line, and tells the
cursor. -/
def putc (c : UInt8) (s : Screen) : Except Fault Screen := do
  let s ← putAtCursor c s
  let s ← if s.screenY ≥ screenHeight then scrollDown 1 s else .ok s
  .ok (setCursorPosition s.screenX s.screenY s)

/-- `puts_no_lf(str)`, with the characters of the string. -/
def putsNoLF : List UInt8 → Screen → Except Fault Screen
  | [], s => .ok s
  | c :: text, s => do
      let s ← putc c s
      putsNoLF text s

/-- Loops whose bodies do the same to the cells of the screen. -/
theorem forCells_congr {body body' : ℕ → ℕ → Screen → Except Fault Screen} :
    ∀ n y s, y + n ≤ screenHeight →
      (∀ x z u, x < screenWidth → y ≤ z → z < screenHeight → body x z u = body' x z u) →
      forCells body y n s = forCells body' y n s := by
  have hcolumns : ∀ {y}, (∀ x u, x < screenWidth → body x y u = body' x y u) →
      ∀ n x s, x + n ≤ screenWidth → forColumns body y x n s = forColumns body' y x n s := by
    intro y hbody n
    induction n with
    | zero => exact fun _ _ _ => rfl
    | succ n ih =>
        intro x s hx
        simp only [forColumns, hbody x s (by omega)]
        exact bind_congr fun u => ih (x + 1) u (by omega)
  intro n
  induction n with
  | zero => exact fun _ _ _ _ => rfl
  | succ n ih =>
      intro y s hy hbody
      simp only [forCells,
        hcolumns (fun x u hx => hbody x y u hx le_rfl (by omega)) screenWidth 0 s (by omega)]
      exact bind_congr fun u =>
        ih (y + 1) u (by omega) fun x z v hx hz hz' => hbody x z v hx (by omega) hz'

/-- Scrolling in the second stage does what scrolling in the kernel does. -/
theorem scrollDown_eq {n : ℕ} (hn : n ≤ screenHeight) (s : Screen) :
    scrollDown n s = VGA.scrollDown n s := by
  have hscroll : ∀ x z u, x < screenWidth → n ≤ z → z < screenHeight →
      scrollCell n x z u = VGA.scrollCell n x z u := by
    intro x z u hx _ hz
    have hto : z - n < screenHeight := by omega
    simp [scrollCell, VGA.scrollCell, VGA.getcXY, VGA.getColorXY, VGA.putcharXY, VGA.putColorXY,
      getcXY, getColorXY, putcXY, putColorXY, hx, hz, hto, Nat.mod_eq_of_lt, bind, Except.bind]
  have hfill : ∀ x z u, x < screenWidth → screenHeight - n ≤ z → z < screenHeight →
      fillCell 0 x z u = VGA.fillCell 0 x z u := by
    intro x z u hx _ hz
    simp [fillCell, VGA.fillCell, VGA.putcharXY, VGA.putColorXY, putcXY, putColorXY, hx, hz,
      Nat.mod_eq_of_lt, bind, Except.bind]
  simp only [scrollDown, VGA.scrollDown, forCells_congr _ _ _ (Nat.add_sub_cancel' hn).le hscroll,
    fun u => forCells_congr n (screenHeight - n) u (Nat.sub_add_cancel hn).le hfill]

/-! ### The two terminals -/

/-- A tab from a column of the screen does what a tab in the kernel does. -/
theorem tabLoop_eq : ∀ fuel (s : Screen), s.screenX < screenWidth → s.screenY < screenHeight →
    tabLoop fuel s = VGA.tabLoop fuel s := by
  intro fuel
  induction fuel with
  | zero => exact fun _ _ _ => rfl
  | succ fuel ih =>
      intro s hx hy
      have hput : VGA.putcharXY s.screenX s.screenY space s =
          .ok (putcXY s.screenX s.screenY space s) := by
        rw [VGA.putcharXY, if_pos ⟨hx, hy⟩, putcXY, Nat.mod_eq_of_lt hx, Nat.mod_eq_of_lt hy]
      simp only [tabLoop, VGA.tabLoop, hput, bind, Except.bind]
      split_ifs with hmore
      · exact ih _ hmore.2 hy
      · rfl

/-- Up to the scrolling, a character that the kernel can put is put as the kernel does. -/
theorem putAtCursor_eq {c : UInt8} {s : Screen} (hy : s.screenY < screenHeight)
    (hfits : Prints c → s.screenX < screenWidth) : putAtCursor c s = VGA.putAtCursor c s := by
  by_cases hprints : Prints c
  · have hx := hfits hprints
    have hput : VGA.putcharXY s.screenX s.screenY c s = .ok (putcXY s.screenX s.screenY c s) := by
      rw [VGA.putcharXY, if_pos ⟨hx, hy⟩, putcXY, Nat.mod_eq_of_lt hx, Nat.mod_eq_of_lt hy]
    simp only [putAtCursor, VGA.putAtCursor, hput, tabLoop_eq tabSize s hx hy, bind, Except.bind]
  · have hor : c = newline ∨ c = carriageReturn := by
      rw [Prints, not_and_or, not_not, not_not] at hprints
      exact hprints
    rcases hor with rfl | rfl
    · simp [putAtCursor, VGA.putAtCursor]
    · simp [putAtCursor, VGA.putAtCursor]

/-- **One character** that the kernel can put is put as the kernel does. -/
theorem putc_eq {c : UInt8} {s : Screen} (hy : s.screenY < screenHeight)
    (hfits : Prints c → s.screenX < screenWidth) : putc c s = VGA.putchar c s := by
  simp only [putc, VGA.putchar, putAtCursor_eq hy hfits,
    fun u => scrollDown_eq (n := 1) (by decide) u]

/-- A write to a cell, whatever its coordinates are, is one to the screen. -/
theorem putcXY_outside (x y : ℕ) (c : UInt8) (s : Screen) {a : ℕ} (ha : cell 0 screenHeight ≤ a) :
    (putcXY x y c s).video a = s.video a := by
  have hx := Nat.mod_lt x (show 0 < 80 by decide)
  have hy := Nat.mod_lt y (show 0 < 25 by decide)
  simp only [cell, screenWidth, screenHeight] at ha
  exact Function.update_of_ne (by simp only [cell, screenWidth, screenHeight]; omega) _ _

/-- A character for which the kernel panics is put in the line of the cursor, from the first column
on, and moves the cursor on by one column at most. -/
theorem putAtCursor_beyond {c : UInt8} {s : Screen} (hprints : Prints c)
    (hx : ¬ s.screenX < screenWidth) : ∃ d x y, x ≤ s.screenX + 1 ∧ y ≤ s.screenY + 1 ∧
      putAtCursor c s =
        .ok { putcXY s.screenX s.screenY d s with screenX := x, screenY := y } := by
  by_cases htab : c = tab
  · refine ⟨space, s.screenX + 1, s.screenY, le_rfl, Nat.le_succ _, ?_⟩
    have hend : ¬ ((s.screenX + 1) % tabSize ≠ 0 ∧ s.screenX + 1 < screenWidth) := by
      simp only [screenWidth] at hx ⊢
      omega
    rw [putAtCursor, if_neg hprints.1, if_neg hprints.2, if_pos htab, tabLoop]
    simp only [putcXY_screenX, putcXY_screenY]
    exact if_neg hend
  · refine ⟨c, (s.screenX + 1) % screenWidth,
      if (s.screenX + 1) % screenWidth = 0 then s.screenY + 1 else s.screenY,
      Nat.mod_le _ _, by split_ifs <;> omega, ?_⟩
    rw [putAtCursor, if_neg hprints.1, if_neg hprints.2, if_neg htab]
    by_cases hwrap : (s.screenX + 1) % screenWidth = 0
    · simp only [putcXY_screenX, putcXY_screenY, hwrap, if_true]
    · simp only [putcXY_screenX, putcXY_screenY, hwrap, if_false]

/-- **Every character returns**, with the cursor on a line of the screen and at most one column
further behind it, and the memory behind the screen as it was. -/
theorem putc_returns (c : UInt8) {s : Screen} (hy : s.screenY < screenHeight) :
    ∃ t, putc c s = .ok t ∧ t.screenY < screenHeight ∧
      t.screenX ≤ max s.screenX screenWidth + 1 ∧
      ∀ a, cell 0 screenHeight ≤ a → t.video a = s.video a := by
  by_cases hfits : Prints c → s.screenX < screenWidth
  · refine ⟨after c s, by rw [putc_eq hy hfits, VGA.putchar_spec hy hfits], after_screenY_lt hy, ?_,
      fun a ha => after_outside hy hfits ha⟩
    have hcolumn := column_le hfits
    rw [after_screenX]
    omega
  · obtain ⟨hprints, hx⟩ := Classical.not_imp.mp hfits
    obtain ⟨d, x, y, hxle, hyle, hput⟩ := putAtCursor_beyond hprints hx
    have hcolumn : x ≤ max s.screenX screenWidth + 1 := by omega
    simp only [putc, hput, bind, Except.bind]
    by_cases hend : y ≥ screenHeight
    · have hline : y = screenHeight := le_antisymm (by omega) hend
      rw [if_pos hend, scrollDown_eq (by decide), VGA.scrollDown_spec (by decide)]
      refine ⟨_, rfl, ?_, hcolumn, fun a ha => ?_⟩
      · exact Nat.lt_of_le_of_lt (show y - 1 ≤ 24 by simp only [screenHeight] at hline; omega)
          (by decide)
      · simp only [cell, screenWidth, screenHeight] at ha
        refine Eq.trans ?_ (putcXY_outside s.screenX s.screenY d s (a := a) (by
          simp only [cell, screenWidth, screenHeight]; omega))
        simp only [setCursorPosition, Screen.setRegister, scrolledUp, filled, scrolled, screenWidth,
          screenHeight]
        rw [if_neg (by omega), if_neg (by omega)]
    · rw [if_neg hend]
      exact ⟨_, rfl, Nat.lt_of_not_le hend, hcolumn, fun a ha => putcXY_outside _ _ _ _ ha⟩

/-- **The two terminals agree.** The second stage writes every text, with the cursor on a line
of the screen at the end and the memory behind the screen as before; and where the kernel
writes the text too, the two leave the same screen. The column of the cursor, an `int` that
tabs move on behind the screen, is moved by at most one column with each character. -/
theorem putsNoLF_agrees {s : Screen} (hy : s.screenY < screenHeight) (text : List UInt8) :
    ∃ t, putsNoLF text s = .ok t ∧ t.screenY < screenHeight ∧
      t.screenX ≤ max s.screenX screenWidth + text.length ∧
      (∀ a, cell 0 screenHeight ≤ a → t.video a = s.video a) ∧
      ∀ u, putchars text s = .ok u → u = t := by
  induction text generalizing s with
  | nil =>
      exact ⟨s, rfl, hy, le_max_left _ _, fun _ _ => rfl, fun u hu => (Except.ok.inj hu).symm⟩
  | cons c text ih =>
      obtain ⟨t, ht, hline, hcolumn, houtside⟩ := putc_returns c hy
      obtain ⟨u, hu, hlast, hend, hrest, hagree⟩ := ih hline
      refine ⟨u, bind_eq_ok.mpr ⟨t, ht, hu⟩, hlast, ?_,
        fun a ha => (hrest a ha).trans (houtside a ha), fun v hv => ?_⟩
      · rw [List.length_cons]
        omega
      · obtain ⟨w, hw, hv⟩ := bind_eq_ok.mp hv
        obtain ⟨hfits, rfl⟩ := putchar_ok hy hw
        rw [putc_eq hy hfits, hw] at ht
        obtain rfl := Except.ok.inj ht
        exact hagree v hv

/-- A tab in the last columns, and a letter, for which the kernel panics. -/
theorem putsNoLF_dark : ∃ t, putsNoLF [tab, 66] (dark 76) = .ok t ∧ t.screenY < screenHeight ∧
    t.screenX ≤ max 76 screenWidth + 2 ∧
    (∀ a, cell 0 screenHeight ≤ a → t.video a = (dark 76).video a) ∧
    ∀ u, putchars [tab, 66] (dark 76) = .ok u → u = t :=
  putsNoLF_agrees (s := dark 76) (by decide) _

end MugOS.SecondStage
