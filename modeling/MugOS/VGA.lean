import MugOS.Memory

/-!
# The Text Terminal of the VGA Driver

`Kernel/Arch/x86_64/Drivers/Graphics/VGA.c`: the video memory holds for each of the 80 × 25 cells of
the screen the byte of its character and that of its colour. `VGA_putchar` writes at the cursor,
scrolls when the cursor leaves the last line, and tells the cursor's place to the CRT controller.
Every access to a cell asserts that the cell is on the screen.

`Bootloader/Legacy/SecondStage/stdio.c` has the same terminal, with the coordinates taken modulo the
size of the screen in place of the assertions.

The detection of the video mode, which chooses the address of the video memory, is left out:
addresses are offsets from it.

## Main results

* `forCells_spec`: the rule for the loops over the cells of some lines.
* `scrollDown_spec`, `clearScreen_spec`: scrolling and clearing.
* `putchar_spec`: one character.
* `putchars_returns_iff`: texts that do not fail an assertion.
-/

namespace MugOS.VGA

/-! ### The driver -/

/-- `SCREEN_WIDTH`. -/
abbrev screenWidth : ℕ := 80

/-- `SCREEN_HEIGHT`. -/
abbrev screenHeight : ℕ := 25

/-- `TAB_SIZE`. -/
abbrev tabSize : ℕ := 4

/-- `DEFAULT_COLOR`. -/
abbrev defaultColor : UInt8 := 7

/-- `'\n'`. -/
abbrev newline : UInt8 := 10

/-- `'\r'`. -/
abbrev carriageReturn : UInt8 := 13

/-- `'\t'`. -/
abbrev tab : UInt8 := 9

/-- `' '`. -/
abbrev space : UInt8 := 32

/-- The video memory from `m_videoMemory` on, `m_screenX`, `m_screenY`, and the registers of the CRT
controller with the one that is selected. -/
structure Screen where
  video : ℕ → UInt8
  screenX : ℕ
  screenY : ℕ
  selected : UInt8
  crtc : UInt8 → UInt8

/-- `outb(VGA_PORT_CRTC_ADDRESS_REGISTER, register)`, `outb(VGA_PORT_CRTC_DATA_REGISTER, value)`. -/
def Screen.setRegister (s : Screen) (register value : UInt8) : Screen :=
  { s with selected := register, crtc := Function.update s.crtc register value }

/-- `setCursorPosition(x, y)`: tells the hardware the place of the cursor, in two bytes. -/
def setCursorPosition (x y : ℕ) (s : Screen) : Screen :=
  let newPos := y * screenWidth + x
  (s.setRegister 0x0f (UInt8.ofNat newPos)).setRegister 0x0e (UInt8.ofNat (newPos / 2 ^ 8))

/-- The offset of the character of a cell; that of its colour is one more. -/
abbrev cell (x y : ℕ) : ℕ := 2 * (y * screenWidth + x)

/-- `write8(m_videoMemory + offset, value)`: a byte of the video memory is written. -/
def Screen.write (s : Screen) (offset : ℕ) (value : UInt8) : Screen :=
  { s with video := Function.update s.video offset value }

/-- `putchar_xy(x, y, c)`: writes the character of a cell, which has to be on the screen. -/
def putcharXY (x y : ℕ) (c : UInt8) (s : Screen) : Except Fault Screen :=
  if x < screenWidth ∧ y < screenHeight then .ok (s.write (cell x y) c) else .error .assertion

/-- `putColor_xy(x, y, color)`: writes the colour of a cell, which has to be on the screen. -/
def putColorXY (x y : ℕ) (color : UInt8) (s : Screen) : Except Fault Screen :=
  if x < screenWidth ∧ y < screenHeight then .ok (s.write (cell x y + 1) color)
  else .error .assertion

/-- `getc_xy(x, y)`: the character of a cell, which has to be on the screen. -/
def getcXY (x y : ℕ) (s : Screen) : Except Fault UInt8 :=
  if x < screenWidth ∧ y < screenHeight then .ok (s.video (cell x y)) else .error .assertion

/-- `getColor_xy(x, y)`: the colour of a cell, which has to be on the screen. -/
def getColorXY (x y : ℕ) (s : Screen) : Except Fault UInt8 :=
  if x < screenWidth ∧ y < screenHeight then .ok (s.video (cell x y + 1)) else .error .assertion

/-- The columns `x, ..., x + n - 1` of line `y`, one after the other. -/
def forColumns (body : ℕ → ℕ → Screen → Except Fault Screen) (y : ℕ) :
    ℕ → ℕ → Screen → Except Fault Screen
  | _, 0, s => .ok s
  | x, n + 1, s => do
      let s ← body x y s
      forColumns body y (x + 1) n s

/-- `for (int y=first ; y<first+n ; y++) for (int x=0 ; x<SCREEN_WIDTH ; x++)`. -/
def forCells (body : ℕ → ℕ → Screen → Except Fault Screen) : ℕ → ℕ → Screen → Except Fault Screen
  | _, 0, s => .ok s
  | y, n + 1, s => do
      let s ← forColumns body y 0 screenWidth s
      forCells body (y + 1) n s

/-- The loop body that moves a cell up by `n` lines. -/
def scrollCell (n x y : ℕ) (s : Screen) : Except Fault Screen := do
  let c ← getcXY x y s
  let color ← getColorXY x y s
  let s ← putcharXY x (y - n) c s
  putColorXY x (y - n) color s

/-- The loop body that puts a character in the default colour. -/
def fillCell (c : UInt8) (x y : ℕ) (s : Screen) : Except Fault Screen := do
  let s ← putcharXY x y c s
  putColorXY x y defaultColor s

/-- `scrollDown(n)`, for at most as many lines as there are. -/
def scrollDown (n : ℕ) (s : Screen) : Except Fault Screen := do
  let s ← forCells (scrollCell n) n (screenHeight - n) s
  let s ← forCells (fillCell 0) (screenHeight - n) n s
  let s := { s with screenY := s.screenY - n }
  .ok (setCursorPosition s.screenX s.screenY s)

/-- The `do ... while` loop of a tab, for at most as many rounds as `fuel` says. -/
def tabLoop : ℕ → Screen → Except Fault Screen
  | 0, _ => .error .diverges
  | fuel + 1, s => do
      let s ← putcharXY s.screenX s.screenY space s
      let s := { s with screenX := s.screenX + 1 }
      if s.screenX % tabSize ≠ 0 ∧ s.screenX < screenWidth then tabLoop fuel s else .ok s

/-- What `VGA_putchar(c)` does up to `end_putc`: the character is put at the cursor, which
moves on. -/
def putAtCursor (c : UInt8) (s : Screen) : Except Fault Screen :=
  if c = newline then .ok { s with screenX := 0, screenY := s.screenY + 1 }
  else if c = carriageReturn then .ok { s with screenX := 0 }
  else if c = tab then tabLoop tabSize s
  else do
    let s ← putcharXY s.screenX s.screenY c s
    let s := { s with screenX := (s.screenX + 1) % screenWidth }
    .ok (if s.screenX = 0 then { s with screenY := s.screenY + 1 } else s)

/-- `VGA_putchar(c)`: puts a character at the cursor, scrolls below the last line, and tells
the cursor. -/
def putchar (c : UInt8) (s : Screen) : Except Fault Screen := do
  let s ← putAtCursor c s
  let s ← if s.screenY ≥ screenHeight then scrollDown 1 s else .ok s
  .ok (setCursorPosition s.screenX s.screenY s)

/-- The characters of a text, one after the other. -/
def putchars : List UInt8 → Screen → Except Fault Screen
  | [], s => .ok s
  | c :: text, s => do
      let s ← putchar c s
      putchars text s

/-- `VGA_clearScreen()`: fills the screen with spaces and takes the cursor back to the
origin. -/
def clearScreen (s : Screen) : Except Fault Screen := do
  let s ← forCells (fillCell space) 0 screenHeight s
  let s := { s with screenX := 0, screenY := 0 }
  .ok (setCursorPosition s.screenX s.screenY s)

/-- The end of `VGA_init()`, where a text mode was found. -/
def init (s : Screen) : Screen :=
  setCursorPosition 0 0 { s with screenX := 0, screenY := 0 }

/-! ### Loops over cells -/

/-- **The loop over the columns of a line**, by an invariant that counts the cells in reading
order. -/
theorem forColumns_spec {body : ℕ → ℕ → Screen → Except Fault Screen} {I : ℕ → Screen → Prop}
    {y : ℕ}
    (hbody : ∀ x s, x < screenWidth → I (y * screenWidth + x) s →
      ∃ t, body x y s = .ok t ∧ I (y * screenWidth + (x + 1)) t) :
    ∀ n x s, x + n = screenWidth → I (y * screenWidth + x) s →
      ∃ t, forColumns body y x n s = .ok t ∧ I ((y + 1) * screenWidth) t := by
  intro n
  induction n with
  | zero =>
      intro x s hx hI
      have hend : (y + 1) * screenWidth = y * screenWidth + x := by rw [Nat.succ_mul]; omega
      exact ⟨s, rfl, by rwa [hend]⟩
  | succ n ih =>
      intro x s hx hI
      obtain ⟨t, ht, hIt⟩ := hbody x s (by omega) hI
      obtain ⟨u, hu, hIu⟩ := ih (x + 1) t (by omega) hIt
      exact ⟨u, bind_eq_ok.mpr ⟨t, ht, hu⟩, hIu⟩

/-- **The loop over the cells of some lines**, by an invariant that counts the cells in reading
order. -/
theorem forCells_spec {body : ℕ → ℕ → Screen → Except Fault Screen} {I : ℕ → Screen → Prop} :
    ∀ n y s, (∀ x z u, x < screenWidth → y ≤ z → z < y + n → I (z * screenWidth + x) u →
        ∃ t, body x z u = .ok t ∧ I (z * screenWidth + (x + 1)) t) →
      I (y * screenWidth) s →
      ∃ t, forCells body y n s = .ok t ∧ I ((y + n) * screenWidth) t := by
  intro n
  induction n with
  | zero => exact fun y s _ hI => ⟨s, rfl, hI⟩
  | succ n ih =>
      intro y s hbody hI
      obtain ⟨t, ht, hIt⟩ := forColumns_spec (I := I)
        (fun x u hx hIu => hbody x y u hx le_rfl (by omega) hIu) screenWidth 0 s (Nat.zero_add _) hI
      obtain ⟨u, hu, hIu⟩ := ih (y + 1) t
        (fun x z v hx hy hz hIv => hbody x z v hx (by omega) (by omega) hIv) hIt
      exact ⟨u, bind_eq_ok.mpr ⟨t, ht, hu⟩, by rwa [show y + (n + 1) = y + 1 + n by omega]⟩

/-! ### Scrolling and clearing -/

/-- The video memory with the first `k` cells taken from `n` lines below. -/
def scrolled (v : ℕ → UInt8) (n k : ℕ) : ℕ → UInt8 :=
  fun a => if a < 2 * k then v (a + 2 * (n * screenWidth)) else v a

/-- The video memory with the cells from number `first` to number `last` filled with a character in
the default colour. -/
def filled (c : UInt8) (v : ℕ → UInt8) (first last : ℕ) : ℕ → UInt8 :=
  fun a => if 2 * first ≤ a ∧ a < 2 * last then (if a % 2 = 0 then c else defaultColor) else v a

/-- What moving one cell does, where all cells before it were moved. -/
theorem scrollCell_spec {n x y : ℕ} (hx : x < screenWidth) (hn : n ≤ y) (hy : y < screenHeight)
    (s : Screen) (v : ℕ → UInt8)
    (hs : s.video = scrolled v n (y * screenWidth + x - n * screenWidth)) :
    scrollCell n x y s =
      .ok { s with video := scrolled v n (y * screenWidth + (x + 1) - n * screenWidth) } := by
  have hrow : (y - n) * screenWidth = y * screenWidth - n * screenWidth := Nat.sub_mul _ _ _
  have hle : n * screenWidth ≤ y * screenWidth := Nat.mul_le_mul_right _ hn
  have hto : y - n < screenHeight := by omega
  simp only [scrollCell, getcXY, getColorXY, putcharXY, putColorXY, hx, hy, hto, and_self, if_true,
    bind, Except.bind, Screen.write, hs, Except.ok.injEq, Screen.mk.injEq, and_true]
  funext a
  simp only [Function.update_apply, scrolled, cell, hrow]
  split_ifs <;> first | rfl | (congr 1; omega)

/-- What filling one cell does, where the cells before it were filled. -/
theorem fillCell_spec {c : UInt8} {x y first : ℕ} (hx : x < screenWidth) (hy : y < screenHeight)
    (hfirst : first ≤ y * screenWidth + x) (s : Screen) (v : ℕ → UInt8)
    (hs : s.video = filled c v first (y * screenWidth + x)) :
    fillCell c x y s = .ok { s with video := filled c v first (y * screenWidth + (x + 1)) } := by
  simp only [fillCell, putcharXY, putColorXY, hx, hy, and_self, if_true, bind, Except.bind,
    Screen.write, hs, Except.ok.injEq, Screen.mk.injEq, and_true]
  funext a
  simp only [Function.update_apply, filled, cell]
  split_ifs <;> first | rfl | omega

/-- The loop that scrolls moves every line from `n` on up by `n`, and fails no assertion. -/
theorem scrollLoop_spec {n : ℕ} (hn : n ≤ screenHeight) (s : Screen) :
    forCells (scrollCell n) n (screenHeight - n) s =
      .ok { s with video := scrolled s.video n ((screenHeight - n) * screenWidth) } := by
  have hnone : scrolled s.video n (n * screenWidth - n * screenWidth) = s.video := by
    funext a
    simp [scrolled]
  have hstart : s = { s with video := scrolled s.video n (n * screenWidth - n * screenWidth) } := by
    rw [hnone]
  obtain ⟨t, ht, rfl⟩ := forCells_spec
    (I := fun p u => u = { s with video := scrolled s.video n (p - n * screenWidth) })
    (screenHeight - n) n s
    (fun x y u hx hy hend hu =>
      ⟨_, scrollCell_spec hx hy (by omega) u s.video (by rw [hu]), by rw [hu]⟩)
    hstart
  rw [ht, Nat.add_sub_cancel' hn, Nat.sub_mul]

/-- The loop that fills `n` lines writes the character to each of their cells, and fails no
assertion. -/
theorem fillLoop_spec {c : UInt8} {n y : ℕ} (hn : y + n ≤ screenHeight) (s : Screen) :
    forCells (fillCell c) y n s =
      .ok { s with video := filled c s.video (y * screenWidth) ((y + n) * screenWidth) } := by
  have hnone : filled c s.video (y * screenWidth) (y * screenWidth) = s.video := by
    funext a
    rw [filled, if_neg (by omega)]
  have hstart : s = { s with video := filled c s.video (y * screenWidth) (y * screenWidth) } := by
    rw [hnone]
  obtain ⟨t, ht, rfl⟩ := forCells_spec
    (I := fun p u => u = { s with video := filled c s.video (y * screenWidth) p }) n y s
    (fun x z u hx hy hend hu => by
      have hfirst : y * screenWidth ≤ z * screenWidth + x :=
        Nat.le_add_right_of_le (Nat.mul_le_mul_right _ hy)
      exact ⟨_, fillCell_spec hx (hend.trans_le hn) hfirst u s.video (by rw [hu]), by rw [hu]⟩)
    hstart
  exact ht

/-- The video memory after scrolling by `n` lines. -/
def scrolledUp (n : ℕ) (v : ℕ → UInt8) : ℕ → UInt8 :=
  filled 0 (scrolled v n ((screenHeight - n) * screenWidth)) ((screenHeight - n) * screenWidth)
    (screenHeight * screenWidth)

/-- **Scrolling** by up to the height of the screen fails no assertion, and moves the cursor
with the lines. -/
theorem scrollDown_spec {n : ℕ} (hn : n ≤ screenHeight) (s : Screen) :
    scrollDown n s = .ok (setCursorPosition s.screenX (s.screenY - n)
      { s with video := scrolledUp n s.video, screenY := s.screenY - n }) := by
  simp only [scrollDown, scrollLoop_spec hn, bind, Except.bind,
    fillLoop_spec (Nat.sub_add_cancel hn).le, Nat.sub_add_cancel hn, scrolledUp]

/-- **Clearing the screen** fills every cell and puts the cursor at the origin; it fails no
assertion. -/
theorem clearScreen_spec (s : Screen) :
    clearScreen s = .ok (setCursorPosition 0 0
      { s with
        video := filled space s.video 0 (screenHeight * screenWidth),
        screenX := 0, screenY := 0 }) := by
  simp only [clearScreen, fillLoop_spec (Nat.zero_add _).le, Nat.zero_add, Nat.zero_mul, bind,
    Except.bind]

/-! ### One character -/

/-- The column after the tab stop that follows, a multiple of the distance of tab stops. -/
def tabStop (x : ℕ) : ℕ := (x / tabSize + 1) * tabSize

/-- The video memory with spaces in the columns `x, ..., stop - 1` of line `y`. -/
def spaced (v : ℕ → UInt8) (y x stop : ℕ) : ℕ → UInt8 :=
  fun a => if cell x y ≤ a ∧ a < cell stop y ∧ a % 2 = 0 then space else v a

/-- A character that is put on the screen: neither a newline nor a carriage return. -/
def Prints (c : UInt8) : Prop := c ≠ newline ∧ c ≠ carriageReturn

instance (c : UInt8) : Decidable (Prints c) := inferInstanceAs (Decidable (_ ∧ _))

/-- The column after a character that is put at a given column. -/
def column (c : UInt8) (x : ℕ) : ℕ :=
  if Prints c then (if c = tab then tabStop x else (x + 1) % screenWidth) else 0

/-- The number of lines by which a character moves the cursor down. -/
def feed (c : UInt8) (x : ℕ) : ℕ :=
  if c = newline ∨ Prints c ∧ c ≠ tab ∧ (x + 1) % screenWidth = 0 then 1 else 0

/-- The video memory after a character at column `x` of line `y`, before scrolling. -/
def placed (v : ℕ → UInt8) (c : UInt8) (x y : ℕ) : ℕ → UInt8 :=
  if Prints c then (if c = tab then spaced v y x (tabStop x) else Function.update v (cell x y) c)
  else v

/-- **A tab** that starts on the screen puts spaces up to the next tab stop. -/
theorem tabLoop_spec : ∀ fuel (s : Screen), s.screenX < screenWidth → s.screenY < screenHeight →
    tabSize - s.screenX % tabSize ≤ fuel →
    tabLoop fuel s = .ok { s with
      video := spaced s.video s.screenY s.screenX (tabStop s.screenX)
      screenX := tabStop s.screenX } := by
  intro fuel
  induction fuel with
  | zero =>
      intro s _ _ hfuel
      simp only [tabSize] at hfuel
      omega
  | succ fuel ih =>
      rintro ⟨video, x, y, selected, crtc⟩ hx hy hfuel
      simp only [screenWidth, screenHeight, tabSize] at hx hy hfuel
      have hput : putcharXY x y space ⟨video, x, y, selected, crtc⟩ =
          .ok ⟨Function.update video (cell x y) space, x, y, selected, crtc⟩ := by
        rw [putcharXY, if_pos ⟨hx, hy⟩, Screen.write]
      -- The spaces are those of the cell at the cursor and of the cells after it.
      have hspaced : ∀ stop, x + 1 ≤ stop →
          spaced (Function.update video (cell x y) space) y (x + 1) stop =
            spaced video y x stop := by
        intro stop hstop
        funext a
        simp only [Function.update_apply, spaced, cell]
        split_ifs <;> first | rfl | omega
      simp only [tabLoop, hput, bind, Except.bind]
      by_cases hstop : (x + 1) % 4 = 0
      · have hnext : tabStop x = x + 1 := by
          simp only [tabStop, tabSize]
          omega
        rw [if_neg (by simp only [tabSize, screenWidth]; omega), hnext, ← hspaced _ le_rfl]
        congr 2
        funext a
        rw [spaced, if_neg (by omega)]
      · have hnext : tabStop (x + 1) = tabStop x := by
          simp only [tabStop, tabSize]
          omega
        have hpast : x + 1 ≤ tabStop x := by
          simp only [tabStop, tabSize]
          omega
        rw [if_pos (by simp only [tabSize, screenWidth]; omega),
          ih _ (by simp only [screenWidth]; omega)
          hy (by simp only [tabSize]; omega)]
        simp only [hnext, hspaced _ hpast]

/-- What a character does before the screen is scrolled, at a cursor where it can be put. -/
theorem putAtCursor_spec {c : UInt8} {s : Screen} (hy : s.screenY < screenHeight)
    (hfits : Prints c → s.screenX < screenWidth) :
    putAtCursor c s = .ok { s with
      video := placed s.video c s.screenX s.screenY
      screenX := column c s.screenX
      screenY := s.screenY + feed c s.screenX } := by
  by_cases hnewline : c = newline
  · simp [putAtCursor, hnewline, placed, column, feed, Prints]
  by_cases hreturn : c = carriageReturn
  · subst hreturn
    simp [putAtCursor, hnewline, placed, column, feed, Prints]
  have hprints : Prints c := ⟨hnewline, hreturn⟩
  by_cases htab : c = tab
  · subst htab
    rw [putAtCursor, if_neg hnewline, if_neg hreturn, if_pos rfl,
      tabLoop_spec tabSize s (hfits hprints) hy (Nat.sub_le _ _)]
    simp [placed, column, feed, hprints, hnewline]
  · have hput : putcharXY s.screenX s.screenY c s = .ok (s.write (cell s.screenX s.screenY) c) := by
      rw [putcharXY, if_pos ⟨hfits hprints, hy⟩]
    by_cases hwrap : (s.screenX + 1) % screenWidth = 0
    · simp [putAtCursor, hnewline, hreturn, htab, hput, bind, Except.bind, Screen.write, placed,
        column, feed, hprints, hwrap]
    · simp [putAtCursor, hnewline, hreturn, htab, hput, bind, Except.bind, Screen.write, placed,
        column, feed, hprints, hwrap]

/-- A character that would be put right of the screen fails the assertion. -/
theorem putAtCursor_fails {c : UInt8} {s : Screen} (hprints : Prints c)
    (hx : ¬ s.screenX < screenWidth) : putAtCursor c s = .error .assertion := by
  have hput : ∀ d, putcharXY s.screenX s.screenY d s = .error .assertion := fun d => by
    rw [putcharXY, if_neg fun h => hx h.1]
  rw [putAtCursor, if_neg hprints.1, if_neg hprints.2]
  by_cases htab : c = tab
  · simp [htab, tabLoop, hput, bind, Except.bind]
  · simp [htab, hput, bind, Except.bind]

/-- Telling the place of the cursor to the hardware a second time changes nothing. -/
theorem setCursorPosition_twice (x y : ℕ) (s : Screen) :
    setCursorPosition x y (setCursorPosition x y s) = setCursorPosition x y s := by
  simp only [setCursorPosition, Screen.setRegister, Screen.mk.injEq, true_and]
  funext r
  simp only [Function.update_apply]
  split_ifs <;> rfl

/-- The screen after a character that can be put at the cursor. -/
def after (c : UInt8) (s : Screen) : Screen :=
  let v := placed s.video c s.screenX s.screenY
  let x := column c s.screenX
  let y := s.screenY + feed c s.screenX
  if y = screenHeight then
    setCursorPosition x (screenHeight - 1)
      { s with video := scrolledUp 1 v, screenX := x, screenY := screenHeight - 1 }
  else setCursorPosition x y { s with video := v, screenX := x, screenY := y }

/-- A character moves the cursor down by a line at most. -/
theorem feed_le (c : UInt8) (x : ℕ) : feed c x ≤ 1 := by
  rw [feed]
  split <;> omega

/-- **One character** that can be put at the cursor fails no assertion, and leaves the screen
that `after` says. -/
theorem putchar_spec {c : UInt8} {s : Screen} (hy : s.screenY < screenHeight)
    (hfits : Prints c → s.screenX < screenWidth) : putchar c s = .ok (after c s) := by
  have hfeed := feed_le c s.screenX
  simp only [putchar, putAtCursor_spec hy hfits, bind, Except.bind, after]
  simp only [screenHeight] at hy ⊢
  by_cases hend : s.screenY + feed c s.screenX = 25
  · rw [if_pos hend, if_pos hend.ge, scrollDown_spec (by simp only [screenHeight]; omega)]
    simp only [hend, Nat.add_one_sub_one]
    rw [show (setCursorPosition _ _ _).screenX = column c s.screenX from rfl,
      show (setCursorPosition _ _ _).screenY = 24 from rfl, setCursorPosition_twice]
  · rw [if_neg hend, if_neg (by omega)]

/-! ### Texts -/

/-- The column after a text that is put from a given column on. -/
def columnAfter (text : List UInt8) (x : ℕ) : ℕ := text.foldl (fun x c => column c x) x

@[simp]
theorem after_screenX (c : UInt8) (s : Screen) : (after c s).screenX = column c s.screenX := by
  simp only [after]
  split <;> rfl

/-- After a character the cursor is still on a line of the screen. -/
theorem after_screenY_lt {c : UInt8} {s : Screen} (hy : s.screenY < screenHeight) :
    (after c s).screenY < screenHeight := by
  have hfeed := feed_le c s.screenX
  simp only [screenHeight] at hy ⊢
  by_cases hend : s.screenY + feed c s.screenX = screenHeight
  · rw [after, if_pos hend]
    exact Nat.lt_of_lt_of_eq (Nat.lt_succ_self 24) rfl
  · rw [after, if_neg hend]
    simp only [screenHeight] at hend
    exact Nat.lt_of_le_of_lt le_rfl (show s.screenY + feed c s.screenX < 25 by omega)

/-- Each character of a text that prints finds the cursor left of the right edge. -/
def Fits (text : List UInt8) (x : ℕ) : Prop :=
  ∀ before c rest, text = before ++ c :: rest → Prints c → columnAfter before x < screenWidth

/-- A text fits from a column on if its first character does there, and the others behind
it. -/
theorem fits_cons {c : UInt8} {text : List UInt8} {x : ℕ} :
    Fits (c :: text) x ↔ (Prints c → x < screenWidth) ∧ Fits text (column c x) := by
  constructor
  · exact fun h => ⟨h [] c text rfl, fun before d rest htext =>
      h (c :: before) d rest (by rw [htext, List.cons_append])⟩
  · rintro ⟨hhead, htail⟩ before d rest htext hd
    cases before with
    | nil =>
        obtain ⟨rfl, -⟩ := List.cons.inj htext
        exact hhead hd
    | cons b before =>
        rw [List.cons_append] at htext
        obtain ⟨rfl, hrest⟩ := List.cons.inj htext
        exact htail before d rest hrest hd

/-- A text that fits is written character by character, without a failed assertion. -/
theorem putchars_of_fits {s : Screen} (hy : s.screenY < screenHeight) {text : List UInt8}
    (h : Fits text s.screenX) : putchars text s = .ok (text.foldl (fun s c => after c s) s) := by
  induction text generalizing s with
  | nil => rfl
  | cons c text ih =>
      obtain ⟨hhead, htail⟩ := fits_cons.mp h
      simp only [putchars, putchar_spec hy hhead, bind, Except.bind, List.foldl_cons]
      exact ih (after_screenY_lt hy) (by rwa [after_screenX])

/-- A text that does not fit fails an assertion at its first character that goes past the last
column. -/
theorem putchars_of_not_fits {s : Screen} (hy : s.screenY < screenHeight) {text : List UInt8}
    (h : ¬ Fits text s.screenX) : putchars text s = .error .assertion := by
  induction text generalizing s with
  | nil => exact absurd (fun before c rest htext => by simp at htext) h
  | cons c text ih =>
      by_cases hhead : Prints c → s.screenX < screenWidth
      · have htail : ¬ Fits text (after c s).screenX := by
          rw [after_screenX]
          exact fun htail => h (fits_cons.mpr ⟨hhead, htail⟩)
        simp only [putchars, putchar_spec hy hhead, bind, Except.bind]
        exact ih (after_screenY_lt hy) htail
      · obtain ⟨hprints, hx⟩ := Classical.not_imp.mp hhead
        simp only [putchars, putchar, putAtCursor_fails hprints hx, bind, Except.bind]

/-- The column is left of the right edge, unless a tab was the last character. -/
theorem column_lt {c : UInt8} (htab : c ≠ tab) (x : ℕ) : column c x < screenWidth := by
  simp only [column, htab, if_false, screenWidth]
  split <;> omega

/-- The column after a text with one more character is the one that this character leads to. -/
theorem columnAfter_concat (text : List UInt8) (c : UInt8) (x : ℕ) :
    columnAfter (text ++ [c]) x = column c (columnAfter text x) := by
  simp [columnAfter]

/-- **When the terminal panics.** A text that is written from a cursor on the screen fails an
assertion exactly when some tab in one of the last four columns is followed by a character other
than a newline or a carriage return; every other text is written. -/
theorem putchars_returns_iff {s : Screen} (hx : s.screenX < screenWidth)
    (hy : s.screenY < screenHeight) (text : List UInt8) :
    ((∃ t, putchars text s = .ok t) ↔ ∀ before c rest, text = before ++ tab :: c :: rest →
      screenWidth - tabSize ≤ columnAfter before s.screenX → c = newline ∨ c = carriageReturn) ∧
    ((∃ t, putchars text s = .ok t) ∨ putchars text s = .error .assertion) := by
  have hprints_tab : Prints tab := by decide
  by_cases hfits : Fits text s.screenX
  · have hruns := putchars_of_fits hy hfits
    refine ⟨⟨fun _ before c rest htext hcolumn => ?_, fun _ => ⟨_, hruns⟩⟩, Or.inl ⟨_, hruns⟩⟩
    have hbefore := hfits before tab (c :: rest) htext hprints_tab
    by_contra hne
    obtain ⟨hnewline, hreturn⟩ := not_or.mp hne
    have hnext := hfits (before ++ [tab]) c rest (by simpa using htext) ⟨hnewline, hreturn⟩
    rw [columnAfter_concat, column, if_pos hprints_tab, if_pos rfl] at hnext
    simp only [tabStop, tabSize, screenWidth] at hnext hcolumn hbefore
    omega
  · have hfails := putchars_of_not_fits hy hfits
    have hnever : ¬ ∃ t, putchars text s = .ok t := by
      rintro ⟨t, ht⟩
      rw [hfails] at ht
      cases ht
    refine ⟨⟨fun hruns => absurd hruns hnever, fun h => ?_⟩, Or.inr hfails⟩
    refine absurd (fun before c rest htext hc => ?_) hfits
    induction before using List.reverseRecOn with
    | nil => exact hx
    | append_singleton before d =>
        rw [columnAfter_concat]
        by_cases hd : d = tab
        · subst hd
          have hleft : ¬ screenWidth - tabSize ≤ columnAfter before s.screenX := fun hcolumn =>
            (h before c rest (by simpa using htext) hcolumn).elim hc.1 hc.2
          rw [column, if_pos hprints_tab, if_pos rfl]
          simp only [tabStop, tabSize, screenWidth] at hleft ⊢
          omega
        · exact column_lt hd _

/-- A screen that is all zero, with the cursor in the given column. -/
def dark (x : ℕ) : Screen := ⟨fun _ => 0, x, 0, 0, fun _ => 0⟩

/-- A letter behind a tab from one of the last columns fails the assertion. -/
theorem putchars_panics : putchars [tab, 66] (dark 76) = .error .assertion := by
  obtain ⟨hiff, hor⟩ := putchars_returns_iff (s := dark 76) (by decide) (by decide) [tab, 66]
  refine hor.resolve_left fun hreturns => ?_
  exact absurd (hiff.mp hreturns [] 66 [] rfl (by decide)) (by decide)

end MugOS.VGA
