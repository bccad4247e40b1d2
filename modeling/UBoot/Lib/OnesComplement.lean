import Mathlib.Data.Nat.ModEq
import Mathlib.Tactic

/-!
# One's complement sums

The numbers up to `m`, which stands for the word of all ones, are added with the carry brought
back to the lowest place, so that `m` is another zero.  A sum in a wider register is brought down
to a word by `fold`, the low word plus what is above it; two times are enough for the square of
the number of words.
-/

namespace OnesComplement

variable {m : ℕ}

/-- The sum of two words, with its carry brought back. -/
def add (m a b : ℕ) : ℕ := if a + b ≤ m then a + b else a + b - m

/-- The sum of some words. -/
def sum (m : ℕ) (ws : List ℕ) : ℕ := ws.foldr (add m) 0

/-- The low word of a number, plus what is above it. -/
def fold (m x : ℕ) : ℕ := x % (m + 1) + x / (m + 1)

/-- A word is known from its residue, and from whether it is the zero of no ones. -/
theorem eq_of_modEq {r s : ℕ} (hr : r ≤ m) (hs : s ≤ m) (hmod : r ≡ s [MOD m])
    (hzero : r = 0 ↔ s = 0) :
  r = s
  := by
  have hdvd := (Nat.modEq_iff_dvd).mp hmod
  obtain ⟨k, hk⟩ := hdvd
  have hpos : r = 0 ∨ 0 < r := Nat.eq_zero_or_pos r
  rcases hpos with h | h
  · rw [h, hzero.mp h]
  · have hs' : 0 < s := Nat.pos_of_ne_zero fun h' => h.ne' (hzero.mpr h')
    have hk0 : k = 0 := by
      have hlow : -1 < k := by nlinarith
      have hhigh : k < 1 := by nlinarith
      omega
    rw [hk0, mul_zero, sub_eq_zero] at hk
    exact_mod_cast hk.symm

/-! ### Adding -/

theorem add_le {a b : ℕ} (ha : a ≤ m) (hb : b ≤ m) :
  add m a b ≤ m
  := by
  unfold add
  split <;> omega

theorem add_modEq (m a b : ℕ) :
  add m a b ≡ a + b [MOD m]
  := by
  unfold add
  split
  · rfl
  · apply (Nat.modEq_iff_dvd' (Nat.sub_le _ _)).mpr
    rw [Nat.sub_sub_self (by omega)]

theorem add_eq_zero {a b : ℕ} (hb : b ≤ m) :
  add m a b = 0 ↔ a + b = 0
  := by
  unfold add
  split
  · exact Iff.rfl
  · omega

variable {ws vs : List ℕ}

theorem sum_le (hws : ∀ w ∈ ws, w ≤ m) :
  sum m ws ≤ m
  := by
  induction ws with
  | nil => exact Nat.zero_le m
  | cons w ws ih =>
    apply add_le
    · apply hws
      exact List.mem_cons_self
    · apply ih
      intro v hv
      exact hws v (List.mem_cons_of_mem w hv)

theorem sum_modEq (m : ℕ) (ws : List ℕ) :
  sum m ws ≡ ws.sum [MOD m]
  := by
  induction ws with
  | nil => rfl
  | cons w ws ih =>
    rw [List.sum_cons]
    apply (add_modEq m w _).trans
    apply ih.add_left

theorem sum_eq_zero (hws : ∀ w ∈ ws, w ≤ m) :
  sum m ws = 0 ↔ ws.sum = 0
  := by
  induction ws with
  | nil => exact Iff.rfl
  | cons w ws ih =>
    have hws' : ∀ v ∈ ws, v ≤ m := fun v hv => hws v (List.mem_cons_of_mem w hv)
    rw [List.sum_cons, Nat.add_eq_zero_iff, ← ih hws', ← Nat.add_eq_zero_iff]
    apply add_eq_zero
    apply sum_le hws'

/-- A sum is all ones when it is a multiple of that, and not all its words are zero. -/
theorem sum_eq_all_ones (hws : ∀ w ∈ ws, w ≤ m) (hm : 0 < m) :
  sum m ws = m ↔ m ∣ ws.sum ∧ ws.sum ≠ 0
  := by
  constructor
  · intro h
    refine ⟨?_, ?_⟩
    · apply (Nat.modEq_zero_iff_dvd).mp
      apply (sum_modEq m ws).symm.trans
      rw [h]
      apply (Nat.modEq_zero_iff_dvd).mpr
      exact dvd_rfl
    · rw [Ne, ← sum_eq_zero hws, h]
      exact hm.ne'
  · rintro ⟨hdvd, hne⟩
    apply eq_of_modEq (sum_le hws) le_rfl
    · apply (sum_modEq m ws).trans
      apply Nat.ModEq.trans ((Nat.modEq_zero_iff_dvd).mpr hdvd)
      apply ((Nat.modEq_zero_iff_dvd).mpr dvd_rfl).symm
    · rw [sum_eq_zero hws]
      exact ⟨fun h => absurd h hne, fun h => absurd h hm.ne'⟩

/-! ### Folding -/

theorem fold_modEq (m x : ℕ) :
  fold m x ≡ x [MOD m]
  := by
  have hx := Nat.mod_add_div x (m + 1)
  apply Nat.ModEq.symm
  apply (Nat.modEq_iff_dvd).mpr
  refine ⟨-(x / (m + 1) : ℕ), ?_⟩
  unfold fold
  push_cast
  have hx' : ((x % (m + 1) : ℕ) : ℤ) + (m + 1) * (x / (m + 1) : ℕ) = x := by exact_mod_cast hx
  push_cast at hx'
  linarith

theorem fold_eq_zero (m x : ℕ) :
  fold m x = 0 ↔ x = 0
  := by
  have hx := Nat.mod_add_div x (m + 1)
  unfold fold
  constructor
  · intro h
    obtain ⟨hmod, hdiv⟩ := Nat.add_eq_zero_iff.mp h
    rw [← hx, hmod, hdiv, Nat.mul_zero]
  · rintro rfl
    simp

/-- Two times are enough. -/
theorem fold_fold_le {x : ℕ} (hx : x < (m + 1) * (m + 1)) :
  fold m (fold m x) ≤ m
  := by
  have hdiv : x / (m + 1) < m + 1 := Nat.div_lt_of_lt_mul hx
  have hmod : x % (m + 1) < m + 1 := Nat.mod_lt x (Nat.succ_pos m)
  have hfold : fold m x ≤ 2 * m := by
    unfold fold
    omega
  generalize fold m x = y at hfold
  unfold fold
  rcases Nat.lt_or_ge y (m + 1) with hy | hy
  · rw [Nat.mod_eq_of_lt hy, Nat.div_eq_of_lt hy]
    omega
  · have hdiv : y / (m + 1) = 1 := Nat.div_eq_of_lt_le (by omega) (by omega)
    have hmod := Nat.mod_add_div y (m + 1)
    rw [hdiv] at hmod ⊢
    omega

/-- **Folding a sum is adding with the carry brought back.** -/
theorem fold_fold_sum (hws : ∀ w ∈ ws, w ≤ m) (hsum : ws.sum < (m + 1) * (m + 1)) :
  fold m (fold m ws.sum) = sum m ws
  := by
  apply eq_of_modEq (fold_fold_le hsum) (sum_le hws)
  · calc fold m (fold m ws.sum)
      _ ≡ fold m ws.sum [MOD m] := fold_modEq m _
      _ ≡ ws.sum [MOD m] := fold_modEq m _
      _ ≡ sum m ws [MOD m] := (sum_modEq m ws).symm
  · rw [fold_eq_zero, fold_eq_zero, sum_eq_zero hws]

/-! ### Checksums -/

/-- **A checksum verifies.**  The complement of a sum with no checksum yet makes the whole sum all
ones. -/
theorem sum_complement (hm : 0 < m) (hws : ∀ w ∈ ws, w ≤ m) (hvs : ∀ v ∈ vs, v ≤ m) :
  sum m (ws ++ (m - sum m (ws ++ 0 :: vs)) :: vs) = m
  := by
  have hall : ∀ c ≤ m, ∀ w ∈ ws ++ c :: vs, w ≤ m := by
    intro c hc w hw
    rcases List.mem_append.mp hw with hw | hw
    · apply hws w hw
    rcases List.mem_cons.mp hw with rfl | hw
    · apply hc
    · apply hvs w hw
  have hle := sum_le (hall 0 (Nat.zero_le m))
  have hmod := sum_modEq m (ws ++ 0 :: vs)
  have hzero := sum_eq_zero (hall 0 (Nat.zero_le m))
  generalize sum m (ws ++ 0 :: vs) = s at hle hmod hzero
  rw [sum_eq_all_ones (hall _ (Nat.sub_le m s)) hm, List.sum_append, List.sum_cons]
  rw [List.sum_append, List.sum_cons, Nat.zero_add] at hmod hzero
  constructor
  · apply (Nat.modEq_zero_iff_dvd).mp
    calc ws.sum + (m - s + vs.sum)
      _ = (ws.sum + vs.sum) + (m - s) := by omega
      _ ≡ s + (m - s) [MOD m] := hmod.symm.add_right _
      _ = m := by omega
      _ ≡ 0 [MOD m] := (Nat.modEq_zero_iff_dvd).mpr dvd_rfl
  · omega

end OnesComplement
