import Mathlib.Tactic

/-!
# Text terminals

A terminal shows `rows` lines of `cols` cells.  The cells are one text, and the cursor is a place in
it: a character that is printed advances the cursor by one, which wraps at the end of a line by
itself, and a cursor behind the last cell scrolls the text.
-/

/-- The size of a terminal. -/
structure TermSize where
  cols : ℕ
  rows : ℕ
  cols_pos : 0 < cols
  rows_pos : 0 < rows

/-- A terminal with cells of type `α`. -/
@[ext]
structure Terminal (α : Type) where
  cell : ℕ → α
  pos : ℕ

/-- The place of a line and a column in the text. -/
def TermSize.place (d : TermSize) (row col : ℕ) : ℕ := row * d.cols + col

namespace Terminal

variable {α : Type} (d : TermSize) (blank : α) (t : Terminal α)

/-- The cells, scrolled by a line. -/
def scrolled (cell : ℕ → α) (i : ℕ) : α :=
  if i + d.cols < d.rows * d.cols then cell (i + d.cols) else blank

/-- The text is scrolled if the cursor is behind it. -/
def settle : Terminal α :=
  if t.pos < d.rows * d.cols then t else ⟨scrolled d blank t.cell, t.pos - d.cols⟩

/-- The cursor goes to the start of the next line. -/
def newline : Terminal α := settle d blank ⟨t.cell, (t.pos / d.cols + 1) * d.cols⟩

/-- The cursor goes to the start of its line. -/
def home : Terminal α := ⟨t.cell, t.pos / d.cols * d.cols⟩

/-- A character is printed. -/
def put (c : α) : Terminal α := settle d blank ⟨Function.update t.cell t.pos c, t.pos + 1⟩

/-- The cursor goes to the next multiple of `tabs` in its line, or to the next line if there is
none. -/
def tab (tabs : ℕ) : Terminal α :=
  if (t.pos % d.cols / tabs + 1) * tabs < d.cols then
    ⟨t.cell, t.pos / d.cols * d.cols + (t.pos % d.cols / tabs + 1) * tabs⟩
  else newline d blank t

/-- The cell at the cursor is blanked. -/
def erase : Terminal α := ⟨Function.update t.cell t.pos blank, t.pos⟩

/-- The cursor goes back one cell, which is blanked. -/
def back : Terminal α := erase blank ⟨t.cell, t.pos - 1⟩

/-! ### Lines and columns -/

variable {d} {row col : ℕ}

theorem place_div (row : ℕ) (h : col < d.cols) :
  d.place row col / d.cols = row
  := by
  rw [TermSize.place, Nat.add_comm, Nat.add_mul_div_right _ _ d.cols_pos, Nat.div_eq_of_lt h,
    Nat.zero_add]

theorem place_mod (row : ℕ) (h : col < d.cols) :
  d.place row col % d.cols = col
  := by
  rw [TermSize.place, Nat.add_comm, Nat.add_mul_mod_self_right, Nat.mod_eq_of_lt h]

theorem place_succ (row col : ℕ) :
  d.place (row + 1) col = d.place row col + d.cols
  := by
  rw [TermSize.place, TermSize.place, Nat.add_mul, Nat.one_mul, Nat.add_right_comm]

theorem place_lt_iff (h : col < d.cols) :
  d.place row col < d.rows * d.cols ↔ row < d.rows
  := by
  rw [← Nat.div_lt_iff_lt_mul d.cols_pos, place_div _ h]

theorem place_inj {row' col' : ℕ} (h : col < d.cols) (h' : col' < d.cols) :
  d.place row col = d.place row' col' ↔ row = row' ∧ col = col'
  := by
  constructor
  · intro heq
    constructor
    · rw [← place_div row h, heq, place_div _ h']
    · rw [← place_mod row h, heq, place_mod _ h']
  · rintro ⟨rfl, rfl⟩
    rfl

theorem newline_place (cell : ℕ → α) (h : col < d.cols) :
  newline d blank ⟨cell, d.place row col⟩ = settle d blank ⟨cell, d.place (row + 1) 0⟩
  := by
  rw [newline, place_div _ h]
  rfl

theorem home_place (cell : ℕ → α) (h : col < d.cols) :
  home d ⟨cell, d.place row col⟩ = ⟨cell, d.place row 0⟩
  := by
  rw [home, place_div _ h]
  rfl

theorem tab_place (cell : ℕ → α) (tabs : ℕ) (h : col < d.cols) :
  tab d blank ⟨cell, d.place row col⟩ tabs
    = if (col / tabs + 1) * tabs < d.cols then ⟨cell, d.place row ((col / tabs + 1) * tabs)⟩
      else settle d blank ⟨cell, d.place (row + 1) 0⟩
  := by
  rw [tab, place_mod _ h, place_div _ h, newline_place blank cell h]
  rfl

theorem put_place (cell : ℕ → α) (c : α) (hrow : row < d.rows) (h : col < d.cols) :
  put d blank ⟨cell, d.place row col⟩ c
    = if col + 1 < d.cols then ⟨Function.update cell (d.place row col) c, d.place row (col + 1)⟩
      else settle d blank ⟨Function.update cell (d.place row col) c, d.place (row + 1) 0⟩
  := by
  rw [put]
  split
  case isTrue hlt =>
    exact if_pos ((place_lt_iff hlt).mpr hrow)
  case isFalse hlast =>
    have hplace : d.place row col + 1 = d.place (row + 1) 0 := by
      rw [place_succ, TermSize.place, TermSize.place]
      omega
    rw [hplace]

theorem back_place_succ (cell : ℕ → α) :
  back blank ⟨cell, d.place row (col + 1)⟩ = erase blank ⟨cell, d.place row col⟩
  := rfl

/-- At the start of a line, the cursor goes back to the end of the line before. -/
theorem back_place_zero (cell : ℕ → α) :
  back blank ⟨cell, d.place (row + 1) 0⟩ = erase blank ⟨cell, d.place row (d.cols - 1)⟩
  := by
  have hcols := d.cols_pos
  have hplace : d.place (row + 1) 0 - 1 = d.place row (d.cols - 1) := by
    rw [place_succ, TermSize.place, TermSize.place]
    omega
  rw [back, hplace]

end Terminal
