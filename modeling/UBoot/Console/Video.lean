import UBoot.Lib.Memory
import UBoot.Lib.Terminal
import Mathlib.Data.Int.Bitwise
import Mathlib.Data.Nat.Bitwise

/-!
# The video console

`video_putc` of `board/ACube/common/vesa_video.c` draws characters at places of the screen.  What is
at a place is the character that was drawn there last.

The console is a terminal with two habits: its cursor is a blank cell, and a carriage return waits
for the next printable character.  In two places it is not: a tab in a column whose bit 3 is set
does not go to the right, and a backspace in the first cell of the screen does not stay there.
-/

namespace Video

open Terminal

/-! ### The console -/

/-- The size of the screen in pixels; there is space for one character. -/
structure Fbi where
  xSize : ℕ
  ySize : ℕ
  le_xSize : 6 ≤ xSize
  le_ySize : 10 ≤ ySize

/-- `CONSOLE_COLS` and `CONSOLE_ROWS`: a character is 6 pixels wide and 10 pixels high. -/
def Fbi.console (fbi : Fbi) : TermSize where
  cols := fbi.xSize / 6
  rows := fbi.ySize / 10
  cols_pos := Nat.div_pos fbi.le_xSize (by decide)
  rows_pos := Nat.div_pos fbi.le_ySize (by decide)

/-- What is drawn at a place: a character, perhaps in swapped colours. -/
structure Cell where
  glyph : Byte
  swapped : Bool

/-- The cursor, the last character, and what is drawn on the screen, by row and column.  The columns
from `CONSOLE_COLS` on are the margin. -/
structure State where
  consoleCol : ℤ
  consoleRow : ℤ
  oldc : Byte
  grid : ℤ → ℤ → Cell

/-- The character `' '`. -/
def space : Byte := 32

/-- `video_putchar`, at a place that is given in characters. -/
def videoPutchar (col row : ℤ) (c : Cell) (s : State) : State :=
  { s with grid := fun r k => if r = row ∧ k = col then c else s.grid r k }

/-- `CURSOR_OFF`. -/
def cursorOff (s : State) : State := videoPutchar s.consoleCol s.consoleRow ⟨space, false⟩ s

/-- `video_set_cursor`. -/
def videoSetCursor (s : State) : State := videoPutchar s.consoleCol s.consoleRow ⟨space, true⟩ s

/-- `console_scrollup`. -/
def consoleScrollup (d : TermSize) (s : State) : State :=
  { s with grid := fun r k =>
      if 0 ≤ r ∧ r + 1 < d.rows then s.grid (r + 1) k
      else if r + 1 = d.rows then ⟨space, false⟩
      else s.grid r k }

/-- `console_newline`. -/
def consoleNewline (d : TermSize) (s : State) : State :=
  let s := cursorOff s
  let s := { s with consoleRow := s.consoleRow + 1, consoleCol := 0 }
  if (d.rows : ℤ) ≤ s.consoleRow then
    let s := consoleScrollup d s
    { s with consoleRow := s.consoleRow - 1 }
  else s

/-- The end of a line. -/
def wrap (d : TermSize) (s : State) : State :=
  if (d.cols : ℤ) ≤ s.consoleCol then consoleNewline d s else s

/-- `console_back`. -/
def consoleBack (d : TermSize) (s : State) : State :=
  let s := cursorOff s
  let s := { s with consoleCol := s.consoleCol - 1 }
  let s :=
    if s.consoleCol < 0 then
      let s := { s with consoleCol := d.cols - 1, consoleRow := s.consoleRow - 1 }
      if s.consoleRow < 0 then { s with consoleRow := 0 } else s
    else s
  videoPutchar s.consoleCol s.consoleRow ⟨space, false⟩ s

/-- `console_col |= 0x0008; console_col &= ~0x0007`. -/
def tabCol (col : ℤ) : ℤ := Int.land (Int.lor col 0x0008) (Int.lnot 0x0007)

/-- What `video_putc` draws for a character. -/
def drawn (d : TermSize) (s : State) (c : Byte) : State :=
  if c = 13 then s
  else if c = 10 then consoleNewline d s
  else if c = 9 then wrap d { cursorOff s with consoleCol := tabCol s.consoleCol }
  else if c = 8 then consoleBack d s
  else
    let s := if s.oldc = 13 then { cursorOff s with consoleCol := 0 } else s
    let s := videoPutchar s.consoleCol s.consoleRow ⟨c, false⟩ s
    wrap d { s with consoleCol := s.consoleCol + 1 }

/-- `video_putc`. -/
def videoPutc (d : TermSize) (s : State) (c : Byte) : State :=
  { videoSetCursor (drawn d s c) with oldc := c }

/-- A sequence of characters. -/
def videoPuts (d : TermSize) (s : State) (cs : List Byte) : State := cs.foldl (videoPutc d) s

/-- The console after `video_init`, which clears the screen. -/
def videoInit : State := ⟨0, 0, 0, fun _ _ => ⟨space, false⟩⟩

/-! ### What it is for -/

/-- The habits of a terminal: a carriage return may wait for the next printable character, and the
cursor may be a blank cell. -/
structure Habits where
  waits : Bool
  blanks : Bool

/-- A terminal and the last character. -/
structure Reference where
  terminal : Terminal Byte
  last : Byte

/-- What a terminal makes of a character. -/
def Reference.obey (habits : Habits) (d : TermSize) (r : Reference) (c : Byte) : Terminal Byte :=
  if c = 13 then if habits.waits then r.terminal else home d r.terminal
  else if c = 10 then newline d space r.terminal
  else if c = 9 then tab d space r.terminal 8
  else if c = 8 then back space r.terminal
  else put d space (if habits.waits ∧ r.last = 13 then home d r.terminal else r.terminal) c

/-- A character for a terminal. -/
def Reference.putc (habits : Habits) (d : TermSize) (r : Reference) (c : Byte) : Reference :=
  ⟨if habits.blanks then erase space (r.obey habits d c) else r.obey habits d c, c⟩

/-- A sequence of characters for a terminal. -/
def Reference.puts (habits : Habits) (d : TermSize) (r : Reference) (cs : List Byte) : Reference :=
  cs.foldl (putc habits d) r

/-- The cells of the screen are those of a terminal. -/
def Cells (d : TermSize) (s : State) (cell : ℕ → Byte) : Prop :=
  ∀ row col, row < d.rows → col < d.cols → (s.grid row col).glyph = cell (d.place row col)

/-- The cursor is on the screen. -/
structure InRange (d : TermSize) (s : State) : Prop where
  col_nonneg : 0 ≤ s.consoleCol
  col_lt : s.consoleCol < d.cols
  row_nonneg : 0 ≤ s.consoleRow
  row_lt : s.consoleRow < d.rows

/-- The console and a terminal have the cursor at the same place, and the same cells. -/
structure Placed (d : TermSize) (s : State) (t : Terminal Byte) : Prop where
  cursor : ∃ row col : ℕ, row < d.rows ∧ col < d.cols ∧ s.consoleRow = row ∧ s.consoleCol = col
    ∧ t.pos = d.place row col
  cells : Cells d s t.cell

/-- The console shows what a terminal shows, and its cursor is a blank cell. -/
structure Shows (d : TermSize) (s : State) (r : Reference) : Prop where
  placed : Placed d s r.terminal
  blank : r.terminal.cell r.terminal.pos = space
  last : s.oldc = r.last

/-- Neither a tab in a column whose bit 3 is set nor a backspace in the first cell. -/
def Regular (s : State) (c : Byte) : Prop :=
  ¬ (c = 9 ∧ s.consoleCol / 8 % 2 = 1) ∧ ¬ (c = 8 ∧ s.consoleCol = 0 ∧ s.consoleRow = 0)

/-- A sequence of regular characters. -/
def RegularRun (d : TermSize) : State → List Byte → Prop
  | _, [] => True
  | s, c :: cs => Regular s c ∧ RegularRun d (videoPutc d s c) cs

/-! ### The columns of tabs -/

theorem or_one (m : ℕ) :
  m ||| 1 = m / 2 * 2 + 1
  := by
  have hdiv : (m ||| 1) / 2 = m / 2 := by
    rw [Nat.or_div_two]
    exact Nat.or_zero _
  have hmod : (m ||| 1) % 2 = 1 := Nat.or_mod_two_eq_one.mpr (.inr rfl)
  omega

theorem tabCol_eq (n : ℕ) :
  tabCol n = ((n / 8 ||| 1) * 8 : ℕ)
  := by
  have hbits : (n ||| 8).ldiff 7 = (n / 8 ||| 1) * 8 := by
    apply Nat.eq_of_testBit_eq
    intro i
    have hone : Nat.testBit 1 (i - 3) = decide (0 = i - 3) := by
      rw [← Nat.testBit_two_pow, Nat.pow_zero]
    rw [show (8 : ℕ) = 2 ^ 3 from rfl, show (7 : ℕ) = 2 ^ 3 - 1 from rfl, Nat.testBit_ldiff,
      Nat.testBit_two_pow_sub_one, Nat.testBit_mul_two_pow, Nat.testBit_or, Nat.testBit_or,
      Nat.testBit_div_two_pow, Nat.testBit_two_pow, hone]
    by_cases hi : 3 ≤ i
    · have hiff : 3 = i ↔ 0 = i - 3 := by omega
      simp [hi, Nat.not_lt.mpr hi, hiff]
    · simp [hi, Nat.not_le.mp hi]
  exact congrArg Int.ofNat hbits

/-- In a column whose bit 3 is not set, the tab goes to the next multiple of 8. -/
theorem tabCol_of_even {n : ℕ} (h : n / 8 % 2 = 0) :
  tabCol n = ((n / 8 + 1) * 8 : ℕ)
  := by
  rw [tabCol_eq, or_one]
  congr 2
  omega

/-- In any other one, it does not go to the right. -/
theorem tabCol_of_odd {n : ℕ} (h : n / 8 % 2 = 1) :
  tabCol n = (n / 8 * 8 : ℕ)
  := by
  rw [tabCol_eq, or_one]
  congr 2
  omega

/-! ### The cells -/

section Cells

variable {d : TermSize} {s : State} {cell : ℕ → Byte} {row col : ℕ}

theorem Cells.putchar (h : Cells d s cell) (row : ℕ) (hcol : col < d.cols) (c : Cell) :
  Cells d (videoPutchar col row c s) (Function.update cell (d.place row col) c.glyph)
  := by
  intro r k hr hk
  rw [Function.update_apply, if_congr (place_inj hk hcol) rfl rfl, ← h r k hr hk]
  dsimp only [videoPutchar]
  norm_cast
  split <;> rfl

/-- What is drawn in the margin is not on the screen. -/
theorem Cells.margin (h : Cells d s cell) (hcol : d.cols ≤ col) (c : Cell) :
  Cells d (videoPutchar col row c s) cell
  := by
  intro r k hr hk
  rw [← h r k hr hk]
  dsimp only [videoPutchar]
  norm_cast
  rw [if_neg (by omega)]

/-- A blank cell may be blanked. -/
theorem Cells.keep (h : Cells d s cell) (hcol : col < d.cols) {c : Cell}
    (hc : cell (d.place row col) = c.glyph) :
  Cells d (videoPutchar col row c s) cell
  := by
  rw [← Function.update_eq_self (d.place row col) cell, hc]
  exact h.putchar row hcol c

theorem Cells.scrollup (h : Cells d s cell) :
  Cells d (consoleScrollup d s) (scrolled d space cell)
  := by
  intro row col hrow hcol
  have hplace : d.place row col + d.cols = d.place (row + 1) col := (place_succ row col).symm
  rw [scrolled, hplace, if_congr (place_lt_iff hcol) rfl rfl]
  dsimp only [consoleScrollup]
  norm_cast
  by_cases hlast : row + 1 < d.rows
  · rw [if_pos ⟨Nat.zero_le row, hlast⟩, if_pos hlast]
    exact h (row + 1) col hlast hcol
  · rw [if_neg (fun hn => hlast hn.2), if_pos (by omega), if_neg hlast]

end Cells

/-! ### The cursor -/

section Cursor

variable {d : TermSize} {s : State} {cell : ℕ → Byte} {row col : ℕ}

theorem placed_newline (hcells : Cells d (cursorOff s) cell) (hrow : s.consoleRow = row)
    (hlt : row < d.rows) :
  Placed d (consoleNewline d s) (settle d space ⟨cell, d.place (row + 1) 0⟩)
  := by
  have hcursor : (cursorOff s).consoleRow = row := hrow
  rw [settle, if_congr (place_lt_iff d.cols_pos) rfl rfl, consoleNewline]
  dsimp only
  rw [hcursor]
  by_cases hlast : row + 1 < d.rows
  · rw [if_pos hlast, if_neg (by omega)]
    constructor
    case cursor => exact ⟨row + 1, 0, hlast, d.cols_pos, by norm_cast, rfl, rfl⟩
    case cells => exact hcells
  · rw [if_neg hlast, if_pos (by omega)]
    constructor
    case cursor =>
      refine ⟨row, 0, hlt, d.cols_pos, ?_, rfl, ?_⟩
      · exact Int.add_sub_cancel (row : ℤ) 1
      · exact Nat.sub_eq_of_eq_add (place_succ row 0)
    case cells =>
      apply Cells.scrollup
      exact hcells

/-- A cursor in the line stays there. -/
theorem placed_wrap (hcells : Cells d s cell) (hrow : s.consoleRow = row) (hlt : row < d.rows)
    (hcol : s.consoleCol = col) :
  Placed d (wrap d s) (if col < d.cols then ⟨cell, d.place row col⟩
    else settle d space ⟨cell, d.place (row + 1) 0⟩)
  := by
  rw [wrap, hcol]
  by_cases h : col < d.cols
  · rw [if_pos h, if_neg (by omega)]
    constructor
    case cursor => exact ⟨row, col, hlt, h, hrow, hcol, rfl⟩
    case cells => exact hcells
  · rw [if_neg h, if_pos (by omega)]
    apply placed_newline _ hrow hlt
    rw [cursorOff, hrow, hcol]
    exact hcells.margin (by omega) _

/-- The cursor leaves a blank cell. -/
theorem cells_cursorOff (hcells : Cells d s cell) (hrow : s.consoleRow = row)
    (hcol : s.consoleCol = col) (hlt : col < d.cols) (hblank : cell (d.place row col) = space) :
  Cells d (cursorOff s) cell
  := by
  rw [cursorOff, hrow, hcol]
  exact hcells.keep hlt hblank

theorem placed_tab (hcells : Cells d (cursorOff s) cell) (hrow : s.consoleRow = row)
    (hcol : s.consoleCol = col) (hltrow : row < d.rows) (hlt : col < d.cols)
    (hreg : col / 8 % 2 = 0) :
  Placed d (wrap d { cursorOff s with consoleCol := tabCol s.consoleCol })
    (tab d space ⟨cell, d.place row col⟩ 8)
  := by
  rw [hcol, tabCol_of_even hreg, tab_place space cell 8 hlt]
  exact placed_wrap (s := { cursorOff s with consoleCol := ((col / 8 + 1) * 8 : ℕ) }) hcells hrow
    hltrow rfl

/-- The cursor goes to a place, which is blanked. -/
theorem placed_erase (hcells : Cells d s cell) (hrow : row < d.rows)
    (hcol : col < d.cols) :
  Placed d (videoPutchar col row ⟨space, false⟩ { s with consoleCol := col, consoleRow := row })
    (erase space ⟨cell, d.place row col⟩)
  := by
  constructor
  case cursor => exact ⟨row, col, hrow, hcol, rfl, rfl, rfl⟩
  case cells =>
    exact Cells.putchar (s := { s with consoleCol := col, consoleRow := row }) hcells row hcol _

theorem placed_back (hcells : Cells d (cursorOff s) cell) (hrow : s.consoleRow = row)
    (hcol : s.consoleCol = col) (hltrow : row < d.rows) (hlt : col < d.cols)
    (hreg : ¬ (col = 0 ∧ row = 0)) :
  Placed d (consoleBack d s) (back space ⟨cell, d.place row col⟩)
  := by
  have hrow' : (cursorOff s).consoleRow = row := hrow
  have hcol' : (cursorOff s).consoleCol = col := hcol
  rw [consoleBack]
  dsimp only
  rw [hcol']
  cases col with
  | succ col =>
    have hback : ((col + 1 : ℕ) : ℤ) - 1 = col := by omega
    rw [hback, if_neg (by omega), hrow', back_place_succ]
    exact placed_erase hcells hltrow (by omega)
  | zero =>
    cases row with
    | zero => exact absurd ⟨rfl, rfl⟩ hreg
    | succ row =>
      have hcols := d.cols_pos
      have hlast : (d.cols : ℤ) - 1 = (d.cols - 1 : ℕ) := by omega
      have hback : ((row + 1 : ℕ) : ℤ) - 1 = row := by omega
      rw [if_pos (by omega), hrow', hlast, hback, if_neg (by omega), back_place_zero]
      exact placed_erase hcells (by omega) (by omega)

theorem placed_put (hcells : Cells d s cell) (hrow : s.consoleRow = row)
    (hcol : s.consoleCol = col) (hltrow : row < d.rows) (hlt : col < d.cols) (c : Byte) :
  Placed d (wrap d { videoPutchar s.consoleCol s.consoleRow ⟨c, false⟩ s with
      consoleCol := s.consoleCol + 1 })
    (put d space ⟨cell, d.place row col⟩ c)
  := by
  rw [put_place space cell c hltrow hlt, hrow, hcol]
  have hdrawn := hcells.putchar row hlt ⟨c, false⟩
  exact placed_wrap (s := { videoPutchar col row ⟨c, false⟩ s with consoleCol := (col : ℤ) + 1 })
    hdrawn hrow hltrow rfl

end Cursor

/-! ### Runs -/

section Run

variable {d : TermSize} {s : State} {r : Reference}

/-- The habits of the console. -/
def habits : Habits := ⟨true, true⟩

theorem placed_drawn (h : Shows d s r) {c : Byte} (hreg : Regular s c) :
  Placed d (drawn d s c) (r.obey habits d c)
  := by
  obtain ⟨row, col, hltrow, hlt, hrow, hcol, hpos⟩ := h.placed.cursor
  have hterminal : r.terminal = ⟨r.terminal.cell, d.place row col⟩ := by
    rw [← hpos]
  have hoff : Cells d (cursorOff s) r.terminal.cell :=
    cells_cursorOff h.placed.cells hrow hcol hlt (by rw [← hpos]; exact h.blank)
  rw [drawn, Reference.obey]
  split
  · exact h.placed
  split
  · rw [hterminal, newline_place space _ hlt]
    exact placed_newline hoff hrow hltrow
  split
  case isTrue htab =>
    have hbit : col / 8 % 2 = 0 := by
      have hodd : ¬ s.consoleCol / 8 % 2 = 1 := fun hodd => hreg.1 ⟨htab, hodd⟩
      rw [hcol] at hodd
      omega
    rw [hterminal]
    exact placed_tab hoff hrow hcol hltrow hlt hbit
  split
  case isTrue hback =>
    have hfirst : ¬ (col = 0 ∧ row = 0) := by
      rintro ⟨rfl, rfl⟩
      exact hreg.2 ⟨hback, hcol, hrow⟩
    rw [hterminal]
    exact placed_back hoff hrow hcol hltrow hlt hfirst
  -- a printable character
  have hwaits : (habits.waits = true ∧ s.oldc = 13) ↔ s.oldc = 13 :=
    ⟨And.right, fun hcr => ⟨rfl, hcr⟩⟩
  rw [← h.last, if_congr hwaits rfl rfl]
  dsimp only
  split
  · rw [hterminal, home_place _ hlt]
    exact placed_put (s := { cursorOff s with consoleCol := 0 }) hoff hrow rfl hltrow d.cols_pos c
  · rw [hterminal]
    exact placed_put h.placed.cells hrow hcol hltrow hlt c

/-- One character. -/
theorem shows_videoPutc (h : Shows d s r) {c : Byte} (hreg : Regular s c) :
  Shows d (videoPutc d s c) (r.putc habits d c)
  := by
  have hdrawn := placed_drawn h hreg
  obtain ⟨row, col, hltrow, hlt, hrow, hcol, hpos⟩ := hdrawn.cursor
  constructor
  case placed =>
    constructor
    case cursor => exact ⟨row, col, hltrow, hlt, hrow, hcol, hpos⟩
    case cells =>
      have hcells := hdrawn.cells.putchar row hlt ⟨space, true⟩
      rw [← hrow, ← hcol, ← hpos] at hcells
      exact hcells
  case blank => exact Function.update_self _ _ _
  case last => rfl

/-- Any sequence of regular characters. -/
theorem shows_videoPuts (h : Shows d s r) {cs : List Byte} (hreg : RegularRun d s cs) :
  Shows d (videoPuts d s cs) (r.puts habits d cs)
  := by
  induction cs generalizing s r with
  | nil => exact h
  | cons c cs ih => exact ih (shows_videoPutc h hreg.1) hreg.2

/-! ### The range of the cursor -/

theorem inRange_consoleNewline (h0 : 0 ≤ s.consoleRow) (hlt : s.consoleRow < d.rows) :
  InRange d (consoleNewline d s)
  := by
  have hrow : (cursorOff s).consoleRow = s.consoleRow := rfl
  have hcols := d.cols_pos
  rw [consoleNewline]
  dsimp only
  split
  case isTrue hlast =>
    constructor <;> dsimp only [consoleScrollup] <;> omega
  case isFalse hnext =>
    constructor <;> dsimp only <;> omega

theorem inRange_wrap (hcol : 0 ≤ s.consoleCol) (h0 : 0 ≤ s.consoleRow)
    (hlt : s.consoleRow < d.rows) :
  InRange d (wrap d s)
  := by
  rw [wrap]
  split
  case isTrue => exact inRange_consoleNewline h0 hlt
  case isFalse hmore => exact ⟨hcol, not_le.mp hmore, h0, hlt⟩

theorem inRange_consoleBack (h : InRange d s) :
  InRange d (consoleBack d s)
  := by
  obtain ⟨hcol, hltcol, hrow, hltrow⟩ := h
  have hcols := d.cols_pos
  have hrows := d.rows_pos
  have hoffcol : (cursorOff s).consoleCol = s.consoleCol := rfl
  have hoffrow : (cursorOff s).consoleRow = s.consoleRow := rfl
  rw [consoleBack]
  dsimp only
  split
  · split
    · constructor <;> dsimp only [videoPutchar] <;> omega
    · constructor <;> dsimp only [videoPutchar] <;> omega
  · constructor <;> dsimp only [videoPutchar] <;> omega

/-- One character. -/
theorem inRange_videoPutc (h : InRange d s) (c : Byte) :
  InRange d (videoPutc d s c)
  := by
  have hdrawn : InRange d (drawn d s c) := by
    rw [drawn]
    split
    · exact h
    split
    · exact inRange_consoleNewline h.row_nonneg h.row_lt
    split
    · have htab : 0 ≤ tabCol s.consoleCol := by
        obtain ⟨col, hcol⟩ := Int.eq_ofNat_of_zero_le h.col_nonneg
        rw [hcol, tabCol_eq]
        apply Int.natCast_nonneg
      exact inRange_wrap htab h.row_nonneg h.row_lt
    split
    · exact inRange_consoleBack h
    dsimp only
    split
    · exact inRange_wrap (show (0 : ℤ) ≤ 0 + 1 by decide) h.row_nonneg h.row_lt
    · exact inRange_wrap (Int.add_nonneg h.col_nonneg (by decide)) h.row_nonneg h.row_lt
  exact ⟨hdrawn.col_nonneg, hdrawn.col_lt, hdrawn.row_nonneg, hdrawn.row_lt⟩

theorem inRange_videoPuts (h : InRange d s) (cs : List Byte) :
  InRange d (videoPuts d s cs)
  := by
  induction cs generalizing s with
  | nil => exact h
  | cons c cs ih => exact ih (inRange_videoPutc h c)

theorem Placed.inRange {t : Terminal Byte} (h : Placed d s t) :
  InRange d s
  := by
  obtain ⟨row, col, hltrow, hlt, hrow, hcol, -⟩ := h.cursor
  constructor <;> omega

end Run

/-- The cursor is on the screen after every sequence of characters, and while the characters are
regular, the console shows what a terminal with its habits shows. -/
theorem videoPuts_spec (fbi : Fbi) (s : State) (r : Reference) (h : Shows fbi.console s r)
    (cs : List Byte) :
  InRange fbi.console (videoPuts fbi.console s cs)
    ∧ (RegularRun fbi.console s cs →
      Shows fbi.console (videoPuts fbi.console s cs) (r.puts habits fbi.console cs))
  := ⟨inRange_videoPuts h.placed.inRange cs, shows_videoPuts h⟩

/-- The screen has 640 columns and 480 rows of pixels. -/
def vga : Fbi := ⟨640, 480, by decide, by decide⟩

/-- A terminal without text. -/
def blankTerminal : Reference := ⟨⟨fun _ => space, 0⟩, 0⟩

theorem shows_videoInit :
  Shows vga.console videoInit blankTerminal
  := by
  constructor
  case placed =>
    constructor
    case cursor => exact ⟨0, 0, by decide, by decide, rfl, rfl, rfl⟩
    case cells =>
      intro _ _ _ _
      rfl
  case blank => rfl
  case last => rfl

/-- `A`, a carriage return and `B`. -/
theorem videoPuts_spec_carriageReturn :
  Shows vga.console (videoPuts vga.console videoInit [65, 13, 66])
    (blankTerminal.puts habits vga.console [65, 13, 66])
  := by
  have hregular : RegularRun vga.console videoInit [65, 13, 66] := by
    refine ⟨⟨by decide, by decide⟩, ⟨by decide, by decide⟩, ⟨by decide, by decide⟩, trivial⟩
  exact (videoPuts_spec vga videoInit blankTerminal shows_videoInit [65, 13, 66]).2 hregular

/-- After `A` and a carriage return, a terminal without these habits has its cursor in column 0. -/
theorem not_placed_carriageReturn :
  ¬ Placed vga.console (videoPuts vga.console videoInit [65, 13])
    (blankTerminal.puts ⟨false, false⟩ vga.console [65, 13]).terminal
  := by
  rintro ⟨⟨row, col, hltrow, hlt, hrow, hcol, hpos⟩, -⟩
  have hcode : (videoPuts vga.console videoInit [65, 13]).consoleCol = 1 := by decide
  have hterminal : (blankTerminal.puts ⟨false, false⟩ vga.console [65, 13]).terminal.pos = 0 := by
    decide
  rw [hcode] at hcol
  rw [hterminal, TermSize.place] at hpos
  omega

end Video
