import Mathlib.Algebra.BigOperators.Group.List.Basic
import Mathlib.Tactic

/-!
# Pieces of a transfer

A transfer is cut into pieces of given sizes, one behind the other; `offset sizes i` is where the
piece `i` begins.  `fitting n sizes` is the number of the pieces that fit in a space of `n`, up to
the first one that does not fit any more.
-/

namespace Pieces

/-- What the pieces before `i` have together. -/
def offset (sizes : List ℕ) (i : ℕ) : ℕ := (sizes.take i).sum

@[simp]
theorem offset_zero (sizes : List ℕ) :
  offset sizes 0 = 0
  := rfl

@[simp]
theorem offset_cons_succ (size : ℕ) (sizes : List ℕ) (i : ℕ) :
  offset (size :: sizes) (i + 1) = size + offset sizes i
  := by
  rw [offset, List.take_succ_cons, List.sum_cons, offset]

/-- How many pieces fit in a space of `n`? -/
def fitting : ℕ → List ℕ → ℕ
  | _, [] => 0
  | n, size :: sizes => if size > n then 0 else fitting (n - size) sizes + 1

theorem offset_fitting_le (n : ℕ) (sizes : List ℕ) :
  offset sizes (fitting n sizes) ≤ n
  := by
  induction sizes generalizing n with
  | nil => exact Nat.zero_le n
  | cons size sizes ih =>
    rw [fitting]
    split
    case isTrue h => exact Nat.zero_le n
    case isFalse h =>
      have hle := ih (n - size)
      rw [offset_cons_succ]
      omega

/-- No offset in the space lies behind the pieces that fit. -/
theorem offset_le_offset_fitting {n i : ℕ} {sizes : List ℕ} (h : offset sizes i ≤ n) :
  offset sizes i ≤ offset sizes (fitting n sizes)
  := by
  induction sizes generalizing n i with
  | nil =>
    rw [offset, List.take_nil]
    exact Nat.zero_le _
  | cons size sizes ih =>
    cases i with
    | zero => exact Nat.zero_le _
    | succ i =>
      rw [offset_cons_succ] at h
      rw [fitting, if_neg (by omega), offset_cons_succ, offset_cons_succ]
      exact Nat.add_le_add_left (ih (by omega)) size

end Pieces
