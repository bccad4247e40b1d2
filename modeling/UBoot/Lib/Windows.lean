import Mathlib.Tactic

/-!
# Windows

The numbers are cut into windows of `b` numbers each, those with the same quotient by `b`.  A range
of `k` numbers from `a` on is done window by window; the first window of it has the numbers up to
the next multiple of `b`.
-/

namespace Windows

variable {b a k : ℕ}

/-- How many of the `k` numbers from `a` on are in the window of `a`. -/
def first (b a k : ℕ) : ℕ := min (b - a % b) k

theorem first_pos (hb : 0 < b) (hk : 0 < k) :
  0 < first b a k
  := by
  have hmod := Nat.mod_lt a hb
  rw [first]
  omega

theorem first_le :
  first b a k ≤ k
  := Nat.min_le_right _ _

theorem add_div_of_lt_first {j : ℕ} (hj : j < first b a k) :
  (a + j) / b = a / b
  := by
  have hdiv := Nat.div_add_mod a b
  rw [first] at hj
  apply Nat.div_eq_of_lt_le
  · rw [Nat.mul_comm]
    omega
  · rw [Nat.mul_comm, Nat.mul_add, Nat.mul_one]
    omega

theorem lt_div_of_first_le {j : ℕ} (hb : 0 < b) (hj : first b a k ≤ j) (hk : j < k) :
  a / b < (a + j) / b
  := by
  have hdiv := Nat.div_add_mod a b
  have hmod := Nat.mod_lt a hb
  rw [first] at hj
  apply (Nat.le_div_iff_mul_le hb).mpr
  rw [Nat.mul_comm, Nat.mul_succ]
  omega

/-- In one of the windows of the range every number is bad. -/
def AllBad (b a k : ℕ) (good : ℕ → Prop) : Prop :=
  ∃ j < k, ∀ i < k, (a + i) / b = (a + j) / b → ¬ good i

instance AllBad.decidable (b a k : ℕ) (good : ℕ → Prop) [DecidablePred good] :
    Decidable (AllBad b a k good) :=
  inferInstanceAs (Decidable (∃ j < k, ∀ i < k, (a + i) / b = (a + j) / b → ¬ good i))

/-- The first window, and those behind it. -/
theorem allBad_iff (a : ℕ) (good : ℕ → Prop) (hb : 0 < b) (hk : 0 < k) :
  AllBad b a k good ↔ (∀ i < first b a k, ¬ good i)
    ∨ AllBad b (a + first b a k) (k - first b a k) fun i => good (first b a k + i)
  := by
  have hpos := first_pos (a := a) hb hk
  have hle := first_le (b := b) (a := a) (k := k)
  constructor
  · rintro ⟨j, hj, h⟩
    by_cases hfirst : j < first b a k
    · left
      intro i hi
      apply h i (hi.trans_le hle)
      rw [add_div_of_lt_first hi, add_div_of_lt_first hfirst]
    · right
      use j - first b a k, by omega
      intro i hi heq
      apply h (first b a k + i) (by omega)
      rw [← Nat.add_assoc, heq, Nat.add_assoc, Nat.add_sub_of_le (not_lt.mp hfirst)]
  · rintro (h | ⟨j, hj, h⟩)
    · use 0, hk
      intro i hi heq
      apply h
      by_contra hfirst
      have hlt := lt_div_of_first_le hb (not_lt.mp hfirst) hi
      rw [Nat.add_zero] at heq
      omega
    · use first b a k + j, by omega
      intro i hi heq
      have hlt := lt_div_of_first_le hb (Nat.le_add_right (first b a k) j) (by omega)
      have hfirst : ¬ i < first b a k := by
        intro hi
        rw [add_div_of_lt_first hi] at heq
        omega
      obtain ⟨i, rfl⟩ := Nat.exists_eq_add_of_le (not_lt.mp hfirst)
      apply h i (by omega)
      rw [Nat.add_assoc, heq, Nat.add_assoc]

/-- There is no such window if no number is bad. -/
theorem not_allBad {good : ℕ → Prop} (h : ∀ i < k, good i) :
  ¬ AllBad b a k good
  := by
  rintro ⟨j, hj, hbad⟩
  exact hbad j hj rfl (h j hj)

end Windows
