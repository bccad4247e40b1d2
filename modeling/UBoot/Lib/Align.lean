import UBoot.Lib.Memory

/-!
# Aligned words

Words are rounded to a multiple of a power of two with a mask.
-/

namespace Align

variable {k : ℕ}

theorem toNat_two_pow_sub_one (hk : k < 32) :
  (BitVec.ofNat 32 (2 ^ k) - 1 : Word).toNat = 2 ^ k - 1
  := by
  have hlt : 2 ^ k < 2 ^ 32 := Nat.pow_lt_pow_right (by decide) hk
  have hpos : 0 < 2 ^ k := Nat.two_pow_pos k
  have hle : (1 : Word) ≤ BitVec.ofNat 32 (2 ^ k) := by
    rw [BitVec.le_def, BitVec.toNat_ofNat, Nat.mod_eq_of_lt hlt]
    apply hpos
  rw [BitVec.toNat_sub_of_le hle, BitVec.toNat_ofNat, Nat.mod_eq_of_lt hlt]
  rfl

/-- Masking with a power of two clears the low bits. -/
theorem and_not_two_pow_sub_one (hk : k < 32) (a : Word) :
  a &&& ~~~(BitVec.ofNat 32 (2 ^ k) - 1) = (a >>> k) <<< k
  := by
  ext i hi
  rw [BitVec.getElem_and, BitVec.getElem_not, BitVec.getElem_shiftLeft,
    BitVec.getElem_eq_testBit_toNat (BitVec.ofNat 32 (2 ^ k) - 1), toNat_two_pow_sub_one hk,
    Nat.testBit_two_pow_sub_one]
  by_cases hik : i < k
  · simp [hik]
  · simp [hik, show k + (i - k) = i by omega, BitVec.getLsbD_eq_getElem hi]

/-- Masking rounds down. -/
theorem toNat_and_not (hk : k < 32) (a : Word) :
  (a &&& ~~~(BitVec.ofNat 32 (2 ^ k) - 1)).toNat = a.toNat / 2 ^ k * 2 ^ k
  := by
  have hle : a.toNat / 2 ^ k * 2 ^ k ≤ a.toNat := Nat.div_mul_le_self _ _
  rw [and_not_two_pow_sub_one hk, BitVec.toNat_shiftLeft, BitVec.toNat_ushiftRight,
    Nat.shiftRight_eq_div_pow, Nat.shiftLeft_eq]
  apply Nat.mod_eq_of_lt (lt_of_le_of_lt hle a.isLt)

/-- Adding the low bits first rounds up. -/
theorem toNat_add_and_not (hk : k < 32) {a : Word} (h : a.toNat + (2 ^ k - 1) < 2 ^ 32) :
  ((a + (BitVec.ofNat 32 (2 ^ k) - 1)) &&& ~~~(BitVec.ofNat 32 (2 ^ k) - 1)).toNat
    = (a.toNat + (2 ^ k - 1)) / 2 ^ k * 2 ^ k
  := by
  rw [toNat_and_not hk, BitVec.toNat_add, toNat_two_pow_sub_one hk, Nat.mod_eq_of_lt h]

/-- Setting the low bits goes to the end of the block. -/
theorem or_two_pow_sub_one (n k : ℕ) :
  n ||| (2 ^ k - 1) = 2 ^ k * (n / 2 ^ k) + (2 ^ k - 1)
  := by
  have hlt : 2 ^ k - 1 < 2 ^ k := Nat.sub_one_lt (Nat.two_pow_pos k).ne'
  rw [Nat.two_pow_add_eq_or_of_lt hlt]
  apply Nat.eq_of_testBit_eq
  intro i
  rw [Nat.testBit_or, Nat.testBit_or, Nat.testBit_two_pow_sub_one, Nat.testBit_two_pow_mul]
  by_cases hi : i < k
  · simp [hi]
  · have hk : k ≤ i := Nat.le_of_not_lt hi
    simp [hi, hk, Nat.testBit_div_two_pow]

/-- The block that a positive number ends in or before, and the one after it. -/
theorem sub_one_or_two_pow_sub_one {n : ℕ} (hn : 0 < n) (k : ℕ) :
  ((n - 1) ||| (2 ^ k - 1)) + 1 = (n + (2 ^ k - 1)) / 2 ^ k * 2 ^ k
  := by
  have hpos : 0 < 2 ^ k := Nat.two_pow_pos k
  have hsplit : n + (2 ^ k - 1) = n - 1 + 2 ^ k := by omega
  rw [or_two_pow_sub_one, hsplit, Nat.add_div_right _ hpos, Nat.succ_mul, Nat.mul_comm]
  omega

/-- Masking picks a block of bits out. -/
theorem and_block (n b c : ℕ) :
  n &&& (2 ^ b * (2 ^ c - 1)) = 2 ^ b * (n / 2 ^ b % 2 ^ c)
  := by
  apply Nat.eq_of_testBit_eq
  intro i
  rw [Nat.testBit_and, Nat.testBit_two_pow_mul, Nat.testBit_two_pow_mul,
    Nat.testBit_two_pow_sub_one, Nat.testBit_mod_two_pow, Nat.testBit_div_two_pow]
  by_cases hi : b ≤ i
  · have hib : i - b + b = i := Nat.sub_add_cancel hi
    simp [hi, hib, Bool.and_comm]
  · simp [hi]

end Align
