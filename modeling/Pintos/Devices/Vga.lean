import Mathlib.Data.Nat.Bitwise
import Mathlib.Logic.Function.Basic

/-!
# The text screen

`devices/vga.c`. The screen is a window on an endless sheet of paper: what `vga_putc` types stays where
it was typed, and when the cursor leaves the last row the window moves down by one (`vga_shows`). It
writes to no memory but that of the 25 rows of 80 cells, and the hardware has the cursor where the next
character goes.
-/

namespace Pintos.Devices.Vga

/-- `COL_CNT`. -/
def colCnt : Nat := 80

/-- `ROW_CNT`. -/
def rowCnt : Nat := 25

theorem colCnt_pos : 0 < colCnt := by decide

theorem rowCnt_pos : 0 < rowCnt := by decide

/-- `GRAY_ON_BLACK`. -/
def grayOnBlack : UInt8 := 0x07

/-- A character on the screen, with its attribute. -/
structure Cell where
  char : UInt8
  attr : UInt8
  deriving DecidableEq, Repr

/-- A space. -/
def blank : Cell := { char := 32, attr := grayOnBlack }

/-- `fb[y][x]` is `fb y x`, and it is there for any `y` and `x`, on the screen or not. `crtc` are the
registers behind port 0x3d4. -/
structure Screen where
  fb : Nat → Nat → Cell
  cx : Nat
  cy : Nat
  inited : Bool
  crtc : Nat → Nat

namespace Screen

variable (s : Screen)

/-! ## The hardware cursor -/

/-- `outw (0x3d4, data)`: the low byte selects a register, the high byte is for it. -/
def outw (data : Nat) : Screen :=
  { s with crtc := Function.update s.crtc (data % 2 ^ 8) (data / 2 ^ 8 % 2 ^ 8) }

/-- `move_cursor`. -/
def moveCursor : Screen :=
  let cp := (s.cx + colCnt * s.cy) % 2 ^ 16
  (s.outw (0x0e ||| (cp &&& 0xff00))).outw ((0x0f ||| (cp <<< 8)) % 2 ^ 16)

/-- What `find_cursor` makes of the registers. -/
def cursor : Nat := s.crtc 0x0e <<< 8 ||| s.crtc 0x0f

/-- `init`, with `find_cursor`. -/
def init : Screen :=
  if s.inited then s
  else { s with cx := s.cursor % colCnt, cy := s.cursor / colCnt, inited := true }

/-! ## The frame buffer -/

/-- `clear_row`. -/
def clearRow (y : Nat) : Screen :=
  { s with fb := fun y' x => if y' = y ∧ x < colCnt then blank else s.fb y' x }

/-- `cls`; the loop clears the rows below `y`. -/
def clearRows (s : Screen) : Nat → Screen
  | 0 => s
  | y + 1 => (s.clearRows y).clearRow y

/-- `cls`. -/
def cls : Screen := ({ s.clearRows rowCnt with cx := 0, cy := 0 } : Screen).moveCursor

/-- `memmove (&fb[0], &fb[1], sizeof fb[0] * (ROW_CNT - 1))`. -/
def scroll : Screen :=
  { s with fb := fun y x => if y < rowCnt - 1 ∧ x < colCnt then s.fb (y + 1) x else s.fb y x }

/-- `newline`. -/
def newline : Screen :=
  if rowCnt ≤ s.cy + 1 then
    ({ s with cx := 0, cy := rowCnt - 1 } : Screen).scroll.clearRow (rowCnt - 1)
  else { s with cx := 0, cy := s.cy + 1 }

/-- The character goes where the cursor is. -/
def write (c : Cell) : Screen :=
  { s with fb := fun y x => if y = s.cy ∧ x = s.cx then c else s.fb y x }

/-- The cursor goes to a column, or to the next row. -/
def goTo (x : Nat) : Screen :=
  if colCnt ≤ x then ({ s with cx := x } : Screen).newline else { s with cx := x }

/-- The `switch` of `vga_putc`. The bell is not on the screen. -/
def interpret (c : UInt8) : Screen :=
  if c = 10 then s.newline
  else if c = 12 then s.cls
  else if c = 8 then { s with cx := s.cx - 1 }
  else if c = 13 then { s with cx := 0 }
  else if c = 9 then s.goTo ((s.cx + 1 + 7) / 8 * 8)
  else if c = 7 then s
  else (s.write { char := c, attr := grayOnBlack }).goTo (s.cx + 1)

/-- `vga_putc`, of a character. -/
def putc (c : UInt8) : Screen := (s.init.interpret c).moveCursor

end Screen

/-! ## Paper -/

/-- An endless sheet, with rows numbered from the top, and a cursor. `page` is the row that was at the
top when the screen was last cleared. -/
structure Paper where
  text : Nat → Nat → Cell
  x : Nat
  y : Nat
  page : Nat

namespace Paper

variable (p : Paper)

/-- The first row in the window. -/
def top : Nat := max p.page (p.y + 1 - rowCnt)

def newline : Paper := { p with x := 0, y := p.y + 1 }

/-- The cursor goes to the first row that the window has not reached. -/
def formFeed : Paper := { p with x := 0, y := p.top + rowCnt, page := p.top + rowCnt }

def write (c : Cell) : Paper :=
  { p with text := fun y x => if y = p.y ∧ x = p.x then c else p.text y x }

def goTo (x : Nat) : Paper := if colCnt ≤ x then p.newline else { p with x := x }

/-- A character is typed. -/
def type (c : UInt8) : Paper :=
  if c = 10 then p.newline
  else if c = 12 then p.formFeed
  else if c = 8 then { p with x := p.x - 1 }
  else if c = 13 then { p with x := 0 }
  else if c = 9 then p.goTo ((p.x + 1 + 7) / 8 * 8)
  else if c = 7 then p
  else (p.write { char := c, attr := grayOnBlack }).goTo (p.x + 1)

end Paper

/-- The sheet for what is on the screen: blank behind it. -/
def Screen.paper (s : Screen) : Paper where
  text y x := if y < rowCnt then s.fb y x else blank
  x := s.cx
  y := s.cy
  page := 0

/-! ## The window -/

variable {s s' s₀ : Screen} {p p' : Paper} {c : UInt8}

/-- The screen shows the window of the paper, and the paper is blank below it. -/
structure Shows (s₀ s : Screen) (p : Paper) : Prop where
  cx : s.cx = p.x
  cy : p.y = p.top + s.cy
  col : s.cx < colCnt
  row : s.cy < rowCnt
  text : ∀ y < rowCnt, ∀ x < colCnt, s.fb y x = p.text (p.top + y) x
  below : ∀ y ≥ p.top + rowCnt, ∀ x < colCnt, p.text y x = blank
  /-- Nothing but the screen has been written. -/
  outside : ∀ y x, ¬ (y < rowCnt ∧ x < colCnt) → s.fb y x = s₀.fb y x
  inited : s.inited = true

/-- The cursor moves in its row. -/
theorem Shows.of_column (h : Shows s₀ s p) {x : Nat} (hx : x < colCnt) :
    Shows s₀ { s with cx := x } { p with x := x } :=
  ⟨rfl, h.cy, hx, h.row, h.text, h.below, h.outside, h.inited⟩

/-- The window stays or moves down by one. -/
theorem Shows.of_newline (h : Shows s₀ s p) : Shows s₀ s.newline p.newline := by
  have hrow := h.row
  have hcy := h.cy
  unfold Screen.newline
  split
  next hlast =>
    have hbottom : s.cy = rowCnt - 1 := by
      unfold rowCnt at hrow hlast ⊢
      omega
    have htop : p.newline.top = p.top + 1 := by
      unfold Paper.top at hcy ⊢
      unfold Paper.newline
      dsimp only
      rw [hbottom] at hcy
      unfold rowCnt at hcy ⊢
      omega
    have hfb : ∀ y x, (({ s with cx := 0, cy := rowCnt - 1 } : Screen).scroll.clearRow
        (rowCnt - 1)).fb y x =
        if y = rowCnt - 1 ∧ x < colCnt then blank
        else if y < rowCnt - 1 ∧ x < colCnt then s.fb (y + 1) x else s.fb y x := fun _ _ => rfl
    refine ⟨rfl, ?_, colCnt_pos, Nat.pred_lt (Nat.ne_of_gt rowCnt_pos), fun y hy x hx => ?_,
      fun y hy x hx => ?_, fun y x hout => ?_, h.inited⟩
    · rw [htop]
      show p.y + 1 = p.top + 1 + (rowCnt - 1)
      rw [hcy, hbottom, Nat.add_right_comm]
    · rw [hfb, htop]
      show _ = p.text (p.top + 1 + y) x
      by_cases heq : y = rowCnt - 1
      · rw [if_pos ⟨heq, hx⟩, h.below _ (by unfold rowCnt at heq ⊢; omega) x hx]
      · have hlt : y < rowCnt - 1 := by
          unfold rowCnt at hy heq ⊢
          omega
        rw [if_neg fun hh => heq hh.1, if_pos ⟨hlt, hx⟩, h.text (y + 1) (by omega) x hx,
          Nat.add_right_comm p.top 1 y, Nat.add_assoc]
    · rw [htop] at hy
      exact h.below y (by omega) x hx
    · have hlast' : ¬ (y = rowCnt - 1 ∧ x < colCnt) := by
        rintro ⟨rfl, hx⟩
        exact hout ⟨by decide, hx⟩
      have hrest : ¬ (y < rowCnt - 1 ∧ x < colCnt) := by
        rintro ⟨hy, hx⟩
        exact hout ⟨by omega, hx⟩
      rw [hfb, if_neg hlast', if_neg hrest, h.outside y x hout]
  next hlast =>
    have htop : p.newline.top = p.top := by
      unfold Paper.top at hcy ⊢
      unfold Paper.newline
      dsimp only
      unfold rowCnt at hcy hlast ⊢
      omega
    refine ⟨rfl, ?_, colCnt_pos, Nat.lt_of_not_le hlast, ?_, ?_, h.outside, h.inited⟩
    · rw [htop]
      show p.y + 1 = p.top + (s.cy + 1)
      rw [hcy, Nat.add_assoc]
    · rw [htop]
      exact h.text
    · rw [htop]
      exact h.below

/-- The cursor moves on the screen as on the paper. -/
theorem Shows.of_goTo (h : Shows s₀ s p) (x : Nat) : Shows s₀ (s.goTo x) (p.goTo x) := by
  unfold Screen.goTo Paper.goTo
  by_cases hx : colCnt ≤ x
  · rw [if_pos hx, if_pos hx]
    exact h.of_newline
  · rw [if_neg hx, if_neg hx]
    exact h.of_column (Nat.lt_of_not_le hx)

/-- A cell is written on both. -/
theorem Shows.of_write (h : Shows s₀ s p) (c : Cell) : Shows s₀ (s.write c) (p.write c) := by
  have hcy := h.cy
  refine ⟨h.cx, h.cy, h.col, h.row, fun y hy x hx => ?_, fun y hy x hx => ?_, fun y x hout => ?_,
    h.inited⟩
  · show (if y = s.cy ∧ x = s.cx then c else s.fb y x) =
      if p.top + y = p.y ∧ x = p.x then c else p.text (p.top + y) x
    have hiff : (p.top + y = p.y ∧ x = p.x) ↔ (y = s.cy ∧ x = s.cx) := by
      rw [h.cx, hcy]
      exact and_congr_left fun _ => Nat.add_left_cancel_iff
    rw [if_congr hiff rfl (h.text y hy x hx).symm]
  · show (if y = p.y ∧ x = p.x then c else p.text y x) = blank
    have hrow := h.row
    have hy' : p.top + rowCnt ≤ y := hy
    rw [if_neg (by omega), h.below y hy x hx]
  · show (if y = s.cy ∧ x = s.cx then c else s.fb y x) = s₀.fb y x
    rw [if_neg, h.outside y x hout]
    rintro ⟨rfl, rfl⟩
    exact hout ⟨h.row, h.col⟩

/-- Moving the hardware cursor leaves the screen alone. -/
theorem Shows.of_moveCursor (h : Shows s₀ s p) : Shows s₀ s.moveCursor p :=
  ⟨h.cx, h.cy, h.col, h.row, h.text, h.below, h.outside, h.inited⟩

/-- Clearing blanks the first rows, and leaves the others. -/
theorem clearRows_fb (s : Screen) (n y x : Nat) :
    (s.clearRows n).fb y x = if y < n ∧ x < colCnt then blank else s.fb y x := by
  induction n with
  | zero => exact (if_neg fun h => Nat.not_lt_zero _ h.1).symm
  | succ n ih =>
    show (if y = n ∧ x < colCnt then blank else (s.clearRows n).fb y x) = _
    rw [ih]
    by_cases heq : y = n ∧ x < colCnt
    · rw [if_pos heq, if_pos ⟨by omega, heq.2⟩]
    · rw [if_neg heq]
      refine if_congr ?_ rfl rfl
      omega

theorem clearRows_inited (s : Screen) (n : Nat) : (s.clearRows n).inited = s.inited := by
  induction n with
  | zero => rfl
  | succ n ih => exact ih

/-- The window moves to where the paper is blank. -/
theorem Shows.of_cls (h : Shows s₀ s p) : Shows s₀ s.cls p.formFeed := by
  have htop : p.formFeed.top = p.top + rowCnt := by
    unfold Paper.formFeed
    show max (p.top + rowCnt) (p.top + rowCnt + 1 - rowCnt) = _
    unfold rowCnt
    omega
  refine Shows.of_moveCursor ⟨rfl, ?_, colCnt_pos, rowCnt_pos, fun y hy x hx => ?_,
    fun y hy x hx => ?_, fun y x hout => ?_, (clearRows_inited s rowCnt).trans h.inited⟩
  · rw [htop]
    rfl
  · show (s.clearRows rowCnt).fb y x = p.text (p.formFeed.top + y) x
    rw [clearRows_fb, if_pos ⟨hy, hx⟩, htop, h.below _ (by omega) x hx]
  · rw [htop] at hy
    exact h.below y (by omega) x hx
  · show (s.clearRows rowCnt).fb y x = s₀.fb y x
    rw [clearRows_fb, if_neg hout, h.outside y x hout]

/-- One character, on the screen and on the paper. -/
theorem Shows.of_interpret (h : Shows s₀ s p) (c : UInt8) : Shows s₀ (s.interpret c) (p.type c) := by
  unfold Screen.interpret Paper.type
  split
  · exact h.of_newline
  split
  · exact h.of_cls
  split
  · rw [← h.cx]
    exact h.of_column (Nat.lt_of_le_of_lt (Nat.sub_le _ _) h.col)
  split
  · exact h.of_column (by decide)
  split
  · rw [← h.cx]
    exact h.of_goTo _
  split
  · exact h
  · rw [← h.cx]
    exact (h.of_write _).of_goTo _

/-! ## The hardware cursor -/

/-- The two words for a position on the screen: its high byte for register 14, its low byte for
register 15. -/
theorem cursor_words : ∀ cp < colCnt * rowCnt,
    (0x0e ||| (cp &&& 0xff00)) % 2 ^ 8 = 0x0e ∧ (0x0e ||| (cp &&& 0xff00)) / 2 ^ 8 % 2 ^ 8 = cp / 2 ^ 8 ∧
    (0x0f ||| (cp <<< 8)) % 2 ^ 16 % 2 ^ 8 = 0x0f ∧
    (0x0f ||| (cp <<< 8)) % 2 ^ 16 / 2 ^ 8 % 2 ^ 8 = cp % 2 ^ 8 := by
  decide +kernel

/-- The cursor's position is its two bytes. -/
theorem cursor_bytes : ∀ cp < colCnt * rowCnt, (cp / 2 ^ 8) <<< 8 ||| cp % 2 ^ 8 = cp := by
  decide +kernel

/-- The hardware has the cursor where the next character goes. -/
theorem cursor_moveCursor (hx : s.cx < colCnt) (hy : s.cy < rowCnt) :
    s.moveCursor.cursor = s.cx + colCnt * s.cy := by
  have hlt : s.cx + colCnt * s.cy < colCnt * rowCnt := by
    unfold colCnt rowCnt at *
    omega
  have hcp : (s.cx + colCnt * s.cy) % 2 ^ 16 = s.cx + colCnt * s.cy := by
    refine Nat.mod_eq_of_lt ?_
    unfold colCnt rowCnt at *
    omega
  obtain ⟨hhigh, hhighByte, hlow, hlowByte⟩ := cursor_words _ hlt
  unfold Screen.moveCursor Screen.cursor Screen.outw
  dsimp only
  rw [hcp, hhigh, hhighByte, hlow, hlowByte, Function.update_self, Function.update_of_ne (by decide),
    Function.update_self, cursor_bytes _ hlt]

/-! ## The first character -/

theorem init_of_inited (h : s.inited = true) : s.init = s := if_pos h

/-- The first time it finds the cursor. -/
theorem init_of_new (h : s.inited = false) :
    s.init = { s with cx := s.cursor % colCnt, cy := s.cursor / colCnt, inited := true } :=
  if_neg (by rw [h]; exact Bool.false_ne_true)

theorem init_inited (s : Screen) : s.init.inited = true := by
  cases h : s.inited with
  | true => rw [init_of_inited h, h]
  | false => rw [init_of_new h]

/-- `vga_putc` may be called without `init`. -/
theorem putc_init (s : Screen) (c : UInt8) : s.init.putc c = s.putc c := by
  unfold Screen.putc
  rw [init_of_inited (init_inited s)]

/-- The screen as the BIOS leaves it, with the cursor on it. -/
theorem shows_init (hnew : s.inited = false) (hon : s.cursor < colCnt * rowCnt) :
    Shows s s.init s.init.paper := by
  have hinit := init_of_new hnew
  have hrow : s.init.cy < rowCnt := by
    rw [hinit]
    exact Nat.div_lt_of_lt_mul hon
  have htop : s.init.paper.top = 0 := by
    show max 0 (s.init.cy + 1 - rowCnt) = 0
    omega
  refine ⟨rfl, ?_, ?_, hrow, fun y hy x hx => ?_, fun y hy x hx => ?_, fun y x _ => ?_, ?_⟩
  · rw [htop, Nat.zero_add]
    rfl
  · rw [hinit]
    exact Nat.mod_lt _ colCnt_pos
  · rw [htop, Nat.zero_add]
    exact (if_pos hy).symm
  · rw [htop, Nat.zero_add] at hy
    exact if_neg (Nat.not_lt.mpr hy)
  · rw [hinit]
  · rw [hinit]

/-- A character is typed on both, and the cursor follows. -/
theorem Shows.of_putc (h : Shows s₀ s p) (c : UInt8) :
    Shows s₀ (s.putc c) (p.type c) ∧
      (s.putc c).cursor = (s.putc c).cx + colCnt * (s.putc c).cy := by
  have hstep := h.of_interpret c
  unfold Screen.putc
  rw [init_of_inited h.inited]
  exact ⟨hstep.of_moveCursor, cursor_moveCursor hstep.col hstep.row⟩

/-- A text is typed on both, character by character. -/
theorem Shows.of_typed (h : Shows s₀ s p) (hcursor : s.cursor = s.cx + colCnt * s.cy)
    (text : List UInt8) : Shows s₀ (text.foldl Screen.putc s) (text.foldl Paper.type p) ∧
      (text.foldl Screen.putc s).cursor =
        (text.foldl Screen.putc s).cx + colCnt * (text.foldl Screen.putc s).cy := by
  induction text generalizing s p with
  | nil => exact ⟨h, hcursor⟩
  | cons c text ih =>
    obtain ⟨hc, hcur⟩ := h.of_putc c
    exact ih hc hcur

/-- Whatever is typed, the screen shows the window of the paper that ends with the row of the cursor, or
the rows since the screen was last cleared. The cursor is on the screen, the hardware has it there, and
nothing is written but the screen. Before anything is typed `init` brings in the cursor. -/
theorem vga_shows (hnew : s.inited = false) (hon : s.cursor < colCnt * rowCnt) (text : List UInt8)
    (hs' : s' = (text.foldl Screen.putc s).init) (hp' : p' = text.foldl Paper.type s.init.paper) :
    (s'.cx < colCnt ∧ s'.cy < rowCnt ∧ s'.cx = p'.x ∧ p'.y = p'.top + s'.cy) ∧
    s'.cursor = s'.cx + colCnt * s'.cy ∧
    (∀ y < rowCnt, ∀ x < colCnt, s'.fb y x = p'.text (p'.top + y) x) ∧
    ∀ y x, ¬ (y < rowCnt ∧ x < colCnt) → s'.fb y x = s.fb y x := by
  have hcursor : s.init.cursor = s.init.cx + colCnt * s.init.cy := by
    rw [init_of_new hnew]
    exact (Nat.mod_add_div _ _).symm
  obtain ⟨h, hcur⟩ := (shows_init hnew hon).of_typed hcursor text
  have hfirst : (text.foldl Screen.putc s).init = text.foldl Screen.putc s.init := by
    cases text with
    | nil => rfl
    | cons c text =>
      rw [List.foldl_cons, List.foldl_cons, putc_init] at *
      exact init_of_inited h.inited
  rw [hs', hp', hfirst]
  exact ⟨⟨h.col, h.row, h.cx, h.cy⟩, hcur, h.text, h.outside⟩

/-- Spaces, with the cursor at the end of the first row. -/
def sampleScreen : Screen where
  fb _ _ := blank
  cx := 0
  cy := 0
  inited := false
  crtc r := if r = 0x0f then 79 else 0

/-- Sixty lines scroll the screen. -/
theorem vga_shows_sixty : ∃ s', s' = ((List.replicate 60 10).foldl Screen.putc sampleScreen).init ∧
    s'.cx < colCnt ∧ s'.cy < rowCnt ∧ s'.cursor = s'.cx + colCnt * s'.cy ∧ s'.cy = 24 := by
  obtain ⟨⟨hcx, hcy, -, -⟩, hcur, -, -⟩ :=
    vga_shows (s := sampleScreen) rfl (by decide) (List.replicate 60 10) rfl rfl
  exact ⟨_, rfl, hcx, hcy, hcur, by decide +kernel⟩

end Pintos.Devices.Vga
