import Mathlib.Tactic

/-!
# Spans

Spans of the widths `w 0`, `w 1`, … follow each other.  A number lies in one span, at some distance
from its beginning, and of two numbers the one in the earlier span is the smaller one.
-/

namespace Spans

variable {w v : ℕ → ℕ} {i j r s : ℕ}

/-- Where the span `i` begins. -/
def start (w : ℕ → ℕ) (i : ℕ) : ℕ := ∑ k ∈ Finset.range i, w k

@[simp]
theorem start_zero (w : ℕ → ℕ) :
  start w 0 = 0
  := rfl

theorem start_succ (w : ℕ → ℕ) (i : ℕ) :
  start w (i + 1) = start w i + w i
  := Finset.sum_range_succ w i

theorem start_congr (h : ∀ k < i, w k = v k) :
  start w i = start v i
  := Finset.sum_congr rfl fun k hk => h k (Finset.mem_range.mp hk)

theorem start_mono (h : i ≤ j) :
  start w i ≤ start w j
  := Finset.sum_le_sum_of_subset (Finset.range_mono h)

/-- What lies in a span is below all later spans. -/
theorem lt_start (h : i < j) (hr : r < w i) :
  start w i + r < start w j
  := by
  have hnext := start_mono (w := w) (Nat.succ_le_of_lt h)
  rw [Nat.succ_eq_add_one, start_succ] at hnext
  omega

/-- A number lies in one span only. -/
theorem unique (hr : r < w i) (hs : s < w j) (h : start w i + r = start w j + s) :
  i = j ∧ r = s
  := by
  rcases Nat.lt_trichotomy i j with hlt | rfl | hlt
  · have := lt_start hlt hr
    omega
  · exact ⟨rfl, Nat.add_left_cancel h⟩
  · have := lt_start hlt hs
    omega

end Spans
