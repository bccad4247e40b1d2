import UBoot.Lib.Memory
import UBoot.Lib.Tables

/-!
# The ECC of a NAND flash

`nand_calculate_ecc` computes three bytes of parities of a step of 256 bytes, and
`nand_correct_data` compares the bytes of the data that are read with those that were stored.
Whatever bits are flipped, in the data or in the stored bytes, the comparison sees the sum of
what the single flips contribute (`syndrome_of_flips`).  A flip is corrected and two
flips are detected.
-/

namespace NandEcc

/-! ### The source -/

/-- `nand_ecc_precalc_table`. -/
def nandEccPrecalcTable : List Byte := [
  0x00, 0x55, 0x56, 0x03, 0x59, 0x0c, 0x0f, 0x5a, 0x5a, 0x0f, 0x0c, 0x59, 0x03, 0x56, 0x55, 0x00,
  0x65, 0x30, 0x33, 0x66, 0x3c, 0x69, 0x6a, 0x3f, 0x3f, 0x6a, 0x69, 0x3c, 0x66, 0x33, 0x30, 0x65,
  0x66, 0x33, 0x30, 0x65, 0x3f, 0x6a, 0x69, 0x3c, 0x3c, 0x69, 0x6a, 0x3f, 0x65, 0x30, 0x33, 0x66,
  0x03, 0x56, 0x55, 0x00, 0x5a, 0x0f, 0x0c, 0x59, 0x59, 0x0c, 0x0f, 0x5a, 0x00, 0x55, 0x56, 0x03,
  0x69, 0x3c, 0x3f, 0x6a, 0x30, 0x65, 0x66, 0x33, 0x33, 0x66, 0x65, 0x30, 0x6a, 0x3f, 0x3c, 0x69,
  0x0c, 0x59, 0x5a, 0x0f, 0x55, 0x00, 0x03, 0x56, 0x56, 0x03, 0x00, 0x55, 0x0f, 0x5a, 0x59, 0x0c,
  0x0f, 0x5a, 0x59, 0x0c, 0x56, 0x03, 0x00, 0x55, 0x55, 0x00, 0x03, 0x56, 0x0c, 0x59, 0x5a, 0x0f,
  0x6a, 0x3f, 0x3c, 0x69, 0x33, 0x66, 0x65, 0x30, 0x30, 0x65, 0x66, 0x33, 0x69, 0x3c, 0x3f, 0x6a,
  0x6a, 0x3f, 0x3c, 0x69, 0x33, 0x66, 0x65, 0x30, 0x30, 0x65, 0x66, 0x33, 0x69, 0x3c, 0x3f, 0x6a,
  0x0f, 0x5a, 0x59, 0x0c, 0x56, 0x03, 0x00, 0x55, 0x55, 0x00, 0x03, 0x56, 0x0c, 0x59, 0x5a, 0x0f,
  0x0c, 0x59, 0x5a, 0x0f, 0x55, 0x00, 0x03, 0x56, 0x56, 0x03, 0x00, 0x55, 0x0f, 0x5a, 0x59, 0x0c,
  0x69, 0x3c, 0x3f, 0x6a, 0x30, 0x65, 0x66, 0x33, 0x33, 0x66, 0x65, 0x30, 0x6a, 0x3f, 0x3c, 0x69,
  0x03, 0x56, 0x55, 0x00, 0x5a, 0x0f, 0x0c, 0x59, 0x59, 0x0c, 0x0f, 0x5a, 0x00, 0x55, 0x56, 0x03,
  0x66, 0x33, 0x30, 0x65, 0x3f, 0x6a, 0x69, 0x3c, 0x3c, 0x69, 0x6a, 0x3f, 0x65, 0x30, 0x33, 0x66,
  0x65, 0x30, 0x33, 0x66, 0x3c, 0x69, 0x6a, 0x3f, 0x3f, 0x6a, 0x69, 0x3c, 0x66, 0x33, 0x30, 0x65,
  0x00, 0x55, 0x56, 0x03, 0x59, 0x0c, 0x0f, 0x5a, 0x5a, 0x0f, 0x0c, 0x59, 0x03, 0x56, 0x55, 0x00]

/-- The variables of the loop. -/
structure Registers where
  /-- `reg1`, the column parities. -/
  reg1 : Byte
  /-- `reg2`, the line parities of the zeros of the line numbers. -/
  reg2 : Byte
  /-- `reg3`, the line parities of their ones. -/
  reg3 : Byte

/-- A turn of the loop, for the byte `b` at `i`. -/
def Registers.turn (r : Registers) (i : ℕ) (b : Byte) : Registers :=
  let idx := nandEccPrecalcTable.getD b.toNat 0
  if idx &&& 0x40 ≠ 0 then
    ⟨r.reg1 ^^^ (idx &&& 0x3f), r.reg2 ^^^ ~~~(UInt8.ofNat i), r.reg3 ^^^ UInt8.ofNat i⟩
  else ⟨r.reg1 ^^^ (idx &&& 0x3f), r.reg2, r.reg3⟩

/-- The first turns of the loop of `nand_calculate_ecc`, on the data at `dat`. -/
def buildUp (m : ℕ → Byte) (dat : ℕ) : ℕ → Registers
  | 0 => ⟨0, 0, 0⟩
  | i + 1 => (buildUp m dat i).turn i (m (dat + i))

/-- `tmp1`, the high line parities. -/
def tmp1 (reg2 reg3 : Byte) : Byte :=
  ((reg3 &&& 0x80) >>> 0) ||| ((reg2 &&& 0x80) >>> 1) ||| ((reg3 &&& 0x40) >>> 1)
    ||| ((reg2 &&& 0x40) >>> 2) ||| ((reg3 &&& 0x20) >>> 2) ||| ((reg2 &&& 0x20) >>> 3)
    ||| ((reg3 &&& 0x10) >>> 3) ||| ((reg2 &&& 0x10) >>> 4)

/-- `tmp2`, the low line parities. -/
def tmp2 (reg2 reg3 : Byte) : Byte :=
  ((reg3 &&& 0x08) <<< 4) ||| ((reg2 &&& 0x08) <<< 3) ||| ((reg3 &&& 0x04) <<< 3)
    ||| ((reg2 &&& 0x04) <<< 2) ||| ((reg3 &&& 0x02) <<< 2) ||| ((reg2 &&& 0x02) <<< 1)
    ||| ((reg3 &&& 0x01) <<< 1) ||| ((reg2 &&& 0x01) <<< 0)

/-- The bytes of `ecc_code`.  `CONFIG_MTD_NAND_ECC_SMC` is `smc`. -/
def Registers.eccCode (smc : Bool) (r : Registers) : List Byte :=
  [if smc then ~~~(tmp2 r.reg2 r.reg3) else ~~~(tmp1 r.reg2 r.reg3),
    if smc then ~~~(tmp1 r.reg2 r.reg3) else ~~~(tmp2 r.reg2 r.reg3),
    ((~~~r.reg1) <<< 2) ||| 0x03]

/-- `nand_calculate_ecc`, and what it writes to `ecc_code`. -/
def nandCalculateEcc (smc : Bool) (m : ℕ → Byte) (dat : ℕ) : List Byte :=
  (buildUp m dat 256).eccCode smc

/-- `countbits`. -/
def countbits (byte : ℕ) : ℕ :=
  if byte = 0 then 0 else byte % 2 + countbits (byte / 2)
  decreasing_by omega

/-- The differences `s0`, `s1` and `s2` of `nand_correct_data`. -/
structure Syndrome where
  s0 : Byte
  s1 : Byte
  s2 : Byte
  deriving DecidableEq

/-- The comparison of the stored bytes with those that were computed. -/
def Syndrome.compare (smc : Bool) (readEcc calcEcc : ℕ → Byte) : Syndrome where
  s0 := if smc then calcEcc 0 ^^^ readEcc 0 else calcEcc 1 ^^^ readEcc 1
  s1 := if smc then calcEcc 1 ^^^ readEcc 1 else calcEcc 0 ^^^ readEcc 0
  s2 := calcEcc 2 ^^^ readEcc 2

/-- The check for a single bit error. -/
def Syndrome.Single (s : Syndrome) : Prop :=
  (s.s0 ^^^ (s.s0 >>> 1)) &&& 0x55 = 0x55 ∧ (s.s1 ^^^ (s.s1 >>> 1)) &&& 0x55 = 0x55
    ∧ (s.s2 ^^^ (s.s2 >>> 1)) &&& 0x54 = 0x54

instance : DecidablePred Syndrome.Single :=
  fun _ => inferInstanceAs (Decidable (_ ∧ _ ∧ _))

/-- `byteoffs`. -/
def Syndrome.byteoffs (s : Syndrome) : ℕ :=
  (s.s1.toNat <<< 0 &&& 0x80) ||| (s.s1.toNat <<< 1 &&& 0x40) ||| (s.s1.toNat <<< 2 &&& 0x20)
    ||| (s.s1.toNat <<< 3 &&& 0x10) ||| (s.s0.toNat >>> 4 &&& 0x08)
    ||| (s.s0.toNat >>> 3 &&& 0x04) ||| (s.s0.toNat >>> 2 &&& 0x02)
    ||| (s.s0.toNat >>> 1 &&& 0x01)

/-- `bitnum`. -/
def Syndrome.bitnum (s : Syndrome) : ℕ :=
  (s.s2.toNat >>> 5 &&& 0x04) ||| (s.s2.toNat >>> 4 &&& 0x02) ||| (s.s2.toNat >>> 3 &&& 0x01)

/-- `EBADMSG`. -/
def ebadmsg : ℤ := 74

/-- The bit `k` of the byte at `p` is flipped. -/
def flipBit (m : ℕ → Byte) (p k : ℕ) : ℕ → Byte :=
  Function.update m p (m p ^^^ UInt8.ofNat (1 <<< k))

/-- `nand_correct_data` with the differences, on the data at `dat`: the data, and what is
returned. -/
def Syndrome.correct (s : Syndrome) (m : ℕ → Byte) (dat : ℕ) : (ℕ → Byte) × ℤ :=
  if s.s0 ||| s.s1 ||| s.s2 = 0 then (m, 0)
  else if s.Single then (flipBit m (dat + s.byteoffs) s.bitnum, 1)
  else if countbits (s.s0.toNat ||| s.s1.toNat <<< 8 ||| s.s2.toNat <<< 16) = 1 then (m, 1)
  else (m, -ebadmsg)

/-- `nand_correct_data`. -/
def nandCorrectData (smc : Bool) (m : ℕ → Byte) (dat : ℕ) (readEcc calcEcc : ℕ → Byte) :
    (ℕ → Byte) × ℤ :=
  (Syndrome.compare smc readEcc calcEcc).correct m dat

/-! ### Bytes -/

section Bytes

/-- What holds of the numbers up to 255 holds of the bytes. -/
theorem forall_byte {p : Byte → Prop} (h : ∀ i < 256, p (UInt8.ofNat i)) (b : Byte) :
  p b
  := by
  rw [← UInt8.ofNat_toNat (x := b)]
  exact h _ b.toNat_lt

theorem byte_ext {a b : Byte} (h : ∀ i < 8, a.toBitVec.getLsbD i = b.toBitVec.getLsbD i) :
  a = b
  := UInt8.toBitVec_inj.mp (BitVec.eq_of_getLsbD_eq h)

theorem xor_and (a b c : Byte) :
  (a ^^^ b) &&& c = (a &&& c) ^^^ (b &&& c)
  := by
  apply byte_ext
  intro i hi
  simp only [UInt8.toBitVec_and, UInt8.toBitVec_xor, BitVec.getLsbD_and, BitVec.getLsbD_xor,
    Bool.and_xor_distrib_right]

theorem countbits_eq (n : ℕ) :
  countbits n = n % 2 + countbits (n / 2)
  := by
  obtain rfl | hn := eq_or_ne n 0
  · rw [countbits, if_pos rfl]
  · rw [countbits, if_neg hn]

/-- The bits of two numbers that are side by side. -/
theorem countbits_add {n x : ℕ} (h : x < 2 ^ n) (y : ℕ) :
  countbits (y * 2 ^ n + x) = countbits x + countbits y
  := by
  induction n generalizing x with
  | zero =>
    obtain rfl : x = 0 := by omega
    rw [pow_zero, mul_one, add_zero, show countbits 0 = 0 by rw [countbits, if_pos rfl], zero_add]
  | succ n ih =>
    have hhalf : (y * 2 ^ (n + 1) + x) / 2 = y * 2 ^ n + x / 2 := by
      rw [pow_succ, ← mul_assoc]
      omega
    have hlow : (y * 2 ^ (n + 1) + x) % 2 = x % 2 := by
      rw [pow_succ, ← mul_assoc]
      omega
    rw [countbits_eq, hhalf, hlow, ih (by rw [pow_succ] at h; omega), countbits_eq x, add_assoc]

/-- The bits of the differences. -/
theorem countbits_syndrome (s : Syndrome) :
  countbits (s.s0.toNat ||| s.s1.toNat <<< 8 ||| s.s2.toNat <<< 16)
    = countbits s.s0.toNat + countbits s.s1.toNat + countbits s.s2.toNat
  := by
  have h0 := s.s0.toNat_lt
  have h1 := s.s1.toNat_lt
  have hlow : s.s0.toNat ||| s.s1.toNat <<< 8 = s.s1.toNat * 2 ^ 8 + s.s0.toNat := by
    rw [Nat.or_comm, ← Nat.shiftLeft_add_eq_or_of_lt h0, Nat.shiftLeft_eq]
  rw [hlow, Nat.or_comm, ← Nat.shiftLeft_add_eq_or_of_lt (by omega), Nat.shiftLeft_eq,
    countbits_add (by omega), countbits_add (by omega)]

end Bytes

/-! ### Sums -/

section Sums

/-- The sum of the weights of the bits of a byte, from the bit `k` on. -/
def bitSum (b : Byte) : List Byte → ℕ → Byte
  | [], _ => 0
  | w :: ws, k => (if b.toBitVec.getLsbD k then w else 0) ^^^ bitSum b ws (k + 1)

theorem bitSum_xor (a b : Byte) (ws : List Byte) (k : ℕ) :
  bitSum (a ^^^ b) ws k = bitSum a ws k ^^^ bitSum b ws k
  := by
  induction ws generalizing k with
  | nil => exact UInt8.xor_zero.symm
  | cons w ws ih =>
    have hhead : (if (a ^^^ b).toBitVec.getLsbD k then w else 0)
        = (if a.toBitVec.getLsbD k then w else 0) ^^^ if b.toBitVec.getLsbD k then w else 0 := by
      rw [UInt8.toBitVec_xor, BitVec.getLsbD_xor]
      cases a.toBitVec.getLsbD k <;> cases b.toBitVec.getLsbD k <;> simp
    rw [bitSum, bitSum, bitSum, hhead, ih]
    ac_rfl

/-- The parities of a byte: those of the columns, and in the bit 6 that of the byte. -/
def column (b : Byte) : Byte := bitSum b [0x55, 0x56, 0x59, 0x5a, 0x65, 0x66, 0x69, 0x6a] 0

theorem column_xor (a b : Byte) :
  column (a ^^^ b) = column a ^^^ column b
  := bitSum_xor a b _ 0

theorem nandEccPrecalcTable_eq :
  nandEccPrecalcTable.map id = (List.range 256).map fun i => column (UInt8.ofNat i)
  := by decide +kernel

theorem getD_nandEccPrecalcTable (b : Byte) :
  nandEccPrecalcTable.getD b.toNat 0 = column b
  := by
  have hentry := Tables.apply_getD nandEccPrecalcTable_eq b.toNat_lt 0
  rwa [UInt8.ofNat_toNat] at hentry

/-- The sum of the registers. -/
def Registers.sum (r d : Registers) : Registers :=
  ⟨r.reg1 ^^^ d.reg1, r.reg2 ^^^ d.reg2, r.reg3 ^^^ d.reg3⟩

theorem Registers.sum_assoc (r d e : Registers) :
  (r.sum d).sum e = r.sum (d.sum e)
  := by simp only [sum, UInt8.xor_assoc]

theorem Registers.sum_comm (r d : Registers) :
  r.sum d = d.sum r
  := by simp only [sum, UInt8.xor_comm]

/-- What the byte `b` at `i` adds to the registers. -/
def contribution (i : ℕ) (b : Byte) : Registers :=
  if column b &&& 0x40 ≠ 0 then ⟨column b &&& 0x3f, ~~~(UInt8.ofNat i), UInt8.ofNat i⟩
  else ⟨column b &&& 0x3f, 0, 0⟩

theorem Registers.turn_eq (r : Registers) (i : ℕ) (b : Byte) :
  r.turn i b = r.sum (contribution i b)
  := by
  rw [turn, getD_nandEccPrecalcTable, contribution]
  by_cases hparity : column b &&& 0x40 ≠ 0
  · rw [if_pos hparity, if_pos hparity, sum]
  · rw [if_neg hparity, if_neg hparity, sum, UInt8.xor_zero, UInt8.xor_zero]

theorem and_bit :
  ∀ x : Byte, x &&& 0x40 = 0 ∨ x &&& 0x40 = 0x40
  := forall_byte (by decide +kernel)

theorem contribution_xor (i : ℕ) (b e : Byte) :
  contribution i (b ^^^ e) = (contribution i b).sum (contribution i e)
  := by
  simp only [contribution, column_xor, xor_and]
  obtain hb | hb := and_bit (column b)
  all_goals
    obtain he | he := and_bit (column e)
    all_goals simp [hb, he, Registers.sum]

end Sums

/-! ### Flips -/

section Flips

variable {m : ℕ → Byte} {smc : Bool} {dat i k : ℕ}

theorem buildUp_congr {m' : ℕ → Byte} {n : ℕ} (h : ∀ i < n, m' (dat + i) = m (dat + i)) :
  buildUp m' dat n = buildUp m dat n
  := by
  induction n with
  | zero => rfl
  | succ n ih =>
    rw [buildUp, buildUp, ih fun i hi => h i (Nat.lt_succ_of_lt hi), h n (Nat.lt_succ_self n)]

/-- The loop on data with a flipped bit. -/
theorem buildUp_flipBit {n : ℕ} (hi : i < n) :
  buildUp (flipBit m (dat + i) k) dat n
    = (buildUp m dat n).sum (contribution i (UInt8.ofNat (1 <<< k)))
  := by
  induction n with
  | zero => cases hi
  | succ n ih =>
    rw [buildUp, buildUp, Registers.turn_eq, Registers.turn_eq]
    obtain rfl | hne := eq_or_ne i n
    · have hbefore : buildUp (flipBit m (dat + i) k) dat i = buildUp m dat i := by
        apply buildUp_congr
        intro j hj
        exact Function.update_of_ne (by omega) _ _
      rw [hbefore, flipBit, Function.update_self, contribution_xor, Registers.sum_assoc]
    · rw [ih (by omega), flipBit, Function.update_of_ne (by omega), Registers.sum_assoc,
        Registers.sum_comm (contribution i _), Registers.sum_assoc]

/-- The high line parities take turns. -/
theorem getLsbD_tmp1 (reg2 reg3 : Byte) {i : ℕ} (h : i < 8) :
  (tmp1 reg2 reg3).toBitVec.getLsbD i
    = (if i % 2 = 0 then reg2 else reg3).toBitVec.getLsbD (4 + i / 2)
  := by
  simp only [tmp1, UInt8.toBitVec_or, BitVec.getLsbD_or]
  interval_cases i <;> simp

/-- The low line parities take turns. -/
theorem getLsbD_tmp2 (reg2 reg3 : Byte) {i : ℕ} (h : i < 8) :
  (tmp2 reg2 reg3).toBitVec.getLsbD i
    = (if i % 2 = 0 then reg2 else reg3).toBitVec.getLsbD (i / 2)
  := by
  simp only [tmp2, UInt8.toBitVec_or, BitVec.getLsbD_or]
  interval_cases i <;> simp

theorem tmp1_xor (a b c d : Byte) :
  tmp1 (a ^^^ c) (b ^^^ d) = tmp1 a b ^^^ tmp1 c d
  := by
  apply byte_ext
  intro i hi
  rw [UInt8.toBitVec_xor, BitVec.getLsbD_xor, getLsbD_tmp1 _ _ hi, getLsbD_tmp1 _ _ hi,
    getLsbD_tmp1 _ _ hi]
  split_ifs <;> rw [UInt8.toBitVec_xor, BitVec.getLsbD_xor]

theorem tmp2_xor (a b c d : Byte) :
  tmp2 (a ^^^ c) (b ^^^ d) = tmp2 a b ^^^ tmp2 c d
  := by
  apply byte_ext
  intro i hi
  rw [UInt8.toBitVec_xor, BitVec.getLsbD_xor, getLsbD_tmp2 _ _ hi, getLsbD_tmp2 _ _ hi,
    getLsbD_tmp2 _ _ hi]
  split_ifs <;> rw [UInt8.toBitVec_xor, BitVec.getLsbD_xor]

theorem not_xor_not (a b : Byte) :
  ~~~(a ^^^ b) ^^^ ~~~a = b
  := by
  apply byte_ext
  intro i hi
  simp only [UInt8.toBitVec_xor, UInt8.toBitVec_not, BitVec.getLsbD_xor, BitVec.getLsbD_not, hi,
    decide_true, Bool.true_and]
  cases a.toBitVec.getLsbD i <;> cases b.toBitVec.getLsbD i <;> rfl

theorem xor_not (a b : Byte) :
  ~~~a ^^^ ~~~b = a ^^^ b
  := by
  have hsum := not_xor_not b (a ^^^ b)
  rwa [UInt8.xor_comm a, ← UInt8.xor_assoc, UInt8.xor_self, UInt8.zero_xor, UInt8.xor_comm b]
    at hsum

theorem or_three :
  ∀ x : Byte, (x <<< (2 : Byte)) ||| (3 : Byte) = (x <<< (2 : Byte)) ^^^ (3 : Byte)
  := forall_byte (by decide +kernel)

/-- The third byte of the code. -/
theorem third_xor (a b : Byte) :
  ((~~~(a ^^^ b)) <<< (2 : Byte) ||| (3 : Byte)) ^^^ ((~~~a) <<< (2 : Byte) ||| (3 : Byte))
    = b <<< (2 : Byte)
  := by
  have hswap : ∀ p q c : Byte, (p ^^^ c) ^^^ (q ^^^ c) = (p ^^^ q) ^^^ (c ^^^ c) := by
    intros
    ac_rfl
  rw [or_three, or_three, hswap, UInt8.xor_self, UInt8.xor_zero, ← UInt8.shiftLeft_xor,
    not_xor_not]

/-! ### Differences -/

/-- The sum of the differences. -/
def Syndrome.sum (s t : Syndrome) : Syndrome := ⟨s.s0 ^^^ t.s0, s.s1 ^^^ t.s1, s.s2 ^^^ t.s2⟩

/-- The stored bytes of the code. -/
def code (smc : Bool) (m : ℕ → Byte) (dat : ℕ) : ℕ → Byte :=
  fun j => (nandCalculateEcc smc m dat).getD j 0

/-- The differences that come from differences of the registers. -/
def Registers.syndrome (d : Registers) : Syndrome :=
  ⟨tmp2 d.reg2 d.reg3, tmp1 d.reg2 d.reg3, d.reg1 <<< 2⟩

theorem compare_code {m' : ℕ → Byte} {d : Registers}
    (h : buildUp m' dat 256 = (buildUp m dat 256).sum d) :
  Syndrome.compare smc (code smc m dat) (code smc m' dat) = d.syndrome
  := by
  simp only [Syndrome.compare, code, nandCalculateEcc, h, Registers.eccCode, Registers.sum,
    Registers.syndrome, tmp1_xor, tmp2_xor, List.getD_cons_zero, List.getD_cons_succ, third_xor,
    Syndrome.mk.injEq]
  split_ifs <;> simp only [not_xor_not, and_self]

/-- The stored bytes are summed up too. -/
theorem compare_xor (readEcc err calcEcc : ℕ → Byte) :
  Syndrome.compare smc (fun j => readEcc j ^^^ err j) calcEcc
    = (Syndrome.compare smc readEcc calcEcc).sum (Syndrome.compare smc err fun _ => 0)
  := by
  simp only [Syndrome.compare, Syndrome.sum, UInt8.zero_xor, Syndrome.mk.injEq]
  split_ifs <;> simp only [UInt8.xor_assoc, and_self]

end Flips

/-! ### What a flip contributes -/

section Contributions

variable {smc : Bool} {dat : ℕ}

/-- A bit of a step: of the data, or of the stored bytes of the code. -/
inductive Flip where
  | data (i : Fin 256) (k : Fin 8)
  | code (j : Fin 3) (k : Fin 8)
  deriving DecidableEq

/-- The flip in the data at `dat`. -/
def Flip.onData (dat : ℕ) : Flip → (ℕ → Byte) → ℕ → Byte
  | .data i k, m => flipBit m (dat + i) k
  | .code _ _, m => m

/-- The flip in the stored bytes. -/
def Flip.onCode : Flip → (ℕ → Byte) → ℕ → Byte
  | .data _ _, ecc => ecc
  | .code j k, ecc => flipBit ecc j k

/-- What a flip adds to the differences. -/
def Flip.syndrome (smc : Bool) : Flip → Syndrome
  | .data i k => (contribution i (UInt8.ofNat (1 <<< k.val))).syndrome
  | .code j k => .compare smc (fun q => if q = j then UInt8.ofNat (1 <<< k.val) else 0) fun _ => 0

theorem compare_trans (readEcc calcEcc calcEcc' : ℕ → Byte) :
  Syndrome.compare smc readEcc calcEcc'
    = (Syndrome.compare smc readEcc calcEcc).sum (Syndrome.compare smc calcEcc calcEcc')
  := by
  have hmiddle : ∀ a b c : Byte, c ^^^ a = b ^^^ a ^^^ (c ^^^ b) := by
    intro a b c
    rw [UInt8.xor_comm b a, UInt8.xor_comm c b, UInt8.xor_assoc, ← UInt8.xor_assoc b,
      UInt8.xor_self, UInt8.zero_xor, UInt8.xor_comm]
  simp only [Syndrome.compare, Syndrome.sum, Syndrome.mk.injEq]
  split_ifs <;> exact ⟨hmiddle _ _ _, hmiddle _ _ _, hmiddle _ _ _⟩

theorem flipBit_eq (m : ℕ → Byte) (p k : ℕ) :
  flipBit m p k = fun q => m q ^^^ if q = p then UInt8.ofNat (1 <<< k) else 0
  := by
  funext q
  obtain rfl | hne := eq_or_ne q p
  · rw [flipBit, Function.update_self, if_pos rfl]
  · rw [flipBit, Function.update_of_ne hne, if_neg hne, UInt8.xor_zero]

/-- A flip, whatever was flipped before. -/
theorem compare_flip (m ecc : ℕ → Byte) (f : Flip) :
  Syndrome.compare smc (f.onCode ecc) (code smc (f.onData dat m) dat)
    = (Syndrome.compare smc ecc (code smc m dat)).sum (f.syndrome smc)
  := by
  cases f with
  | data i k =>
    refine (compare_trans ecc (code smc m dat) _).trans ?_
    exact congrArg _ (compare_code (buildUp_flipBit i.isLt))
  | code j k =>
    rw [Flip.onCode, flipBit_eq]
    exact compare_xor _ _ _

/-- What the flips add up to. -/
def syndrome (smc : Bool) (flips : List Flip) : Syndrome :=
  flips.foldl (fun s f => s.sum (f.syndrome smc)) ⟨0, 0, 0⟩

/-- The data, and the bytes of the code, with flips. -/
def onData (dat : ℕ) (flips : List Flip) (m : ℕ → Byte) : ℕ → Byte :=
  flips.foldl (fun m f => f.onData dat m) m

def onCode (flips : List Flip) (ecc : ℕ → Byte) : ℕ → Byte :=
  flips.foldl (fun ecc f => f.onCode ecc) ecc

/-- **The comparison sees the sum of the flips**, and nothing of the data. -/
theorem syndrome_of_flips (flips : List Flip) (m : ℕ → Byte) :
  Syndrome.compare smc (onCode flips (code smc m dat)) (code smc (onData dat flips m) dat)
    = syndrome smc flips
  := by
  have hrun : ∀ (flips : List Flip) (m ecc : ℕ → Byte),
      Syndrome.compare smc (onCode flips ecc) (code smc (onData dat flips m) dat)
        = flips.foldl (fun s f => s.sum (f.syndrome smc))
            (Syndrome.compare smc ecc (code smc m dat)) := by
    intro flips
    induction flips with
    | nil => exact fun _ _ => rfl
    | cons f flips ih =>
      intro m ecc
      rw [List.foldl_cons, ← compare_flip]
      apply ih
  rw [hrun, syndrome]
  congr 1
  simp only [Syndrome.compare, UInt8.xor_self, ite_self]

end Contributions

/-! ### The verdict -/

section Verdict

variable {m : ℕ → Byte} {dat : ℕ} {s : Syndrome}

/-- The bits of the differences that are set. -/
def Syndrome.weight (s : Syndrome) : ℕ :=
  countbits s.s0.toNat + countbits s.s1.toNat + countbits s.s2.toNat

theorem countbits_zero :
  countbits 0 = 0
  := by rw [countbits, if_pos rfl]

theorem weight_of_or (h : s.s0 ||| s.s1 ||| s.s2 = 0) :
  s.weight = 0
  := by
  rw [UInt8.or_eq_zero_iff, UInt8.or_eq_zero_iff] at h
  rw [Syndrome.weight, h.1.1, h.1.2, h.2]
  exact congrArg₂ _ (congrArg₂ _ countbits_zero countbits_zero) countbits_zero

theorem correct_single (h : s.Single) :
  s.correct m dat = (flipBit m (dat + s.byteoffs) s.bitnum, 1)
  := by
  have hsome : ¬ s.s0 ||| s.s1 ||| s.s2 = 0 := by
    intro hzero
    rw [UInt8.or_eq_zero_iff, UInt8.or_eq_zero_iff] at hzero
    have hpair := h.1
    rw [hzero.1.1] at hpair
    cases hpair
  rw [Syndrome.correct, if_neg hsome, if_pos h]

theorem correct_code (h : ¬ s.Single) (hweight : s.weight = 1) :
  s.correct m dat = (m, 1)
  := by
  have hsome : ¬ s.s0 ||| s.s1 ||| s.s2 = 0 := by
    intro hzero
    rw [weight_of_or hzero] at hweight
    cases hweight
  rw [Syndrome.correct, if_neg hsome, if_neg h, countbits_syndrome]
  exact if_pos hweight

theorem correct_bad (h : ¬ s.Single) (hweight : 2 ≤ s.weight) :
  s.correct m dat = (m, -ebadmsg)
  := by
  have hsome : ¬ s.s0 ||| s.s1 ||| s.s2 = 0 := by
    intro hzero
    rw [weight_of_or hzero] at hweight
    omega
  rw [Syndrome.correct, if_neg hsome, if_neg h, countbits_syndrome]
  exact if_neg (by rw [Syndrome.weight] at hweight; omega)

theorem flipBit_flipBit (m : ℕ → Byte) (p k : ℕ) :
  flipBit (flipBit m p k) p k = m
  := by
  simp only [flipBit_eq]
  funext q
  rw [UInt8.xor_assoc, UInt8.xor_self, UInt8.xor_zero]

end Verdict

/-! ### A flip is corrected, and two are detected -/

section Lines

/-- The bits of a pair differ, in each of the four pairs. -/
abbrev Pairs (x : Byte) : Prop := (x ^^^ (x >>> 1)) &&& 0x55 = 0x55

/-- In each of the three upper pairs. -/
abbrev UpperPairs (x : Byte) : Prop := (x ^^^ (x >>> 1)) &&& 0x54 = 0x54

/-- The line parities of a flip in the line `i`. -/
def low (i : ℕ) : Byte := tmp2 (~~~(UInt8.ofNat i)) (UInt8.ofNat i)

def high (i : ℕ) : Byte := tmp1 (~~~(UInt8.ofNat i)) (UInt8.ofNat i)

/-- The column parities of a flip in the column `k`. -/
def columns (k : ℕ) : Byte := (column (UInt8.ofNat (1 <<< k)) &&& 0x3f) <<< (2 : Byte)

/-- The bits of a pair agree, in each of the four pairs. -/
abbrev Twins (x : Byte) : Prop := (x ^^^ (x >>> 1)) &&& 0x55 = 0

/-- What is computed for each line, and for each byte of a difference. -/
theorem line_table :
  ∀ i < 256, (Pairs (low i) ∧ Pairs (high i) ∧ (⟨low i, high i, 0⟩ : Syndrome).byteoffs = i)
    ∧ (Pairs (UInt8.ofNat i) → countbits (UInt8.ofNat i).toNat = 4
      ∧ ∀ k < 8, ¬ Pairs (UInt8.ofNat i ^^^ UInt8.ofNat (1 <<< k)))
    ∧ (Twins (tmp2 (UInt8.ofNat i) (UInt8.ofNat i))
      ∧ Twins (tmp1 (UInt8.ofNat i) (UInt8.ofNat i))
      ∧ (tmp2 (UInt8.ofNat i) (UInt8.ofNat i) = 0 →
        tmp1 (UInt8.ofNat i) (UInt8.ofNat i) = 0 → i = 0))
    ∧ (Twins (UInt8.ofNat i) → UInt8.ofNat i ≠ 0 → 2 ≤ countbits (UInt8.ofNat i).toNat)
  := by decide +kernel

/-- What is computed for each column, and for two of them. -/
theorem column_table :
  ∀ k < 8, column (UInt8.ofNat (1 <<< k)) &&& 0x40 ≠ 0
    ∧ (UpperPairs (columns k) ∧ (⟨0, 0, columns k⟩ : Syndrome).bitnum = k)
    ∧ (∀ l < 8, if 2 ≤ l then ¬ UpperPairs (columns k ^^^ UInt8.ofNat (1 <<< l))
      else UpperPairs (columns k ^^^ UInt8.ofNat (1 <<< l))
        ∧ (⟨0, 0, columns k ^^^ UInt8.ofNat (1 <<< l)⟩ : Syndrome).bitnum = k)
    ∧ ∀ l < 8, k ≠ l → 2 ≤ countbits (columns k ^^^ columns l).toNat
  := by decide +kernel

theorem syndrome_data (smc : Bool) (i : Fin 256) (k : Fin 8) :
  (Flip.data i k).syndrome smc = ⟨low i, high i, columns k⟩
  := by
  rw [Flip.syndrome, contribution, if_pos (column_table k k.isLt).1]
  rfl

theorem line_facts :
  ∀ i < 256, Pairs (low i) ∧ Pairs (high i) ∧ (⟨low i, high i, 0⟩ : Syndrome).byteoffs = i
  := fun i hi => (line_table i hi).1

theorem column_facts :
  ∀ k < 8, UpperPairs (columns k) ∧ (⟨0, 0, columns k⟩ : Syndrome).bitnum = k
  := fun k hk => (column_table k hk).2.1

theorem countbits_of_pairs :
  ∀ i < 256, Pairs (UInt8.ofNat i) → countbits (UInt8.ofNat i).toNat = 4
    ∧ ∀ k < 8, ¬ Pairs (UInt8.ofNat i ^^^ UInt8.ofNat (1 <<< k))
  := fun i hi => (line_table i hi).2.1

theorem columns_flip :
  ∀ k < 8, ∀ l < 8, if 2 ≤ l then ¬ UpperPairs (columns k ^^^ UInt8.ofNat (1 <<< l))
    else UpperPairs (columns k ^^^ UInt8.ofNat (1 <<< l))
      ∧ (⟨0, 0, columns k ^^^ UInt8.ofNat (1 <<< l)⟩ : Syndrome).bitnum = k
  := fun k hk => (column_table k hk).2.2.1

theorem two_lines :
  ∀ i < 256, Twins (tmp2 (UInt8.ofNat i) (UInt8.ofNat i))
    ∧ Twins (tmp1 (UInt8.ofNat i) (UInt8.ofNat i))
    ∧ (tmp2 (UInt8.ofNat i) (UInt8.ofNat i) = 0 → tmp1 (UInt8.ofNat i) (UInt8.ofNat i) = 0 → i = 0)
  := fun i hi => (line_table i hi).2.2.1

theorem countbits_of_twins :
  ∀ i < 256, Twins (UInt8.ofNat i) → UInt8.ofNat i ≠ 0 → 2 ≤ countbits (UInt8.ofNat i).toNat
  := fun i hi => (line_table i hi).2.2.2

/-- Two flips in the same line. -/
theorem two_columns :
  ∀ k < 8, ∀ l < 8, k ≠ l → 2 ≤ countbits (columns k ^^^ columns l).toNat
  := fun k hk => (column_table k hk).2.2.2

/-- A difference in one of the three bytes. -/
def unit : Fin 3 → Byte → Syndrome
  | 0, b => ⟨b, 0, 0⟩
  | 1, b => ⟨0, b, 0⟩
  | 2, b => ⟨0, 0, b⟩

/-- The byte in which a byte of the code is compared. -/
def slot (smc : Bool) (j : Fin 3) : Fin 3 := if smc then j else ![1, 0, 2] j

/-- What is computed for each bit of the code, and for two of them. -/
theorem unit_table :
  (∀ (smc : Bool) (j : Fin 3) (k : Fin 8),
    (Flip.code j k).syndrome smc = unit (slot smc j) (UInt8.ofNat (1 <<< k.val)))
    ∧ (∀ u : Fin 3, ∀ k : Fin 8, ¬ (unit u (UInt8.ofNat (1 <<< k.val))).Single
      ∧ (unit u (UInt8.ofNat (1 <<< k.val))).weight = 1)
    ∧ ∀ u u' : Fin 3, ∀ k k' : Fin 8, u ≠ u' ∨ k ≠ k' →
      ¬ ((unit u (UInt8.ofNat (1 <<< k.val))).sum (unit u' (UInt8.ofNat (1 <<< k'.val)))).Single
        ∧ 2 ≤ ((unit u (UInt8.ofNat (1 <<< k.val))).sum
          (unit u' (UInt8.ofNat (1 <<< k'.val)))).weight
  := by decide +kernel

theorem syndrome_code :
  ∀ (smc : Bool) (j : Fin 3) (k : Fin 8),
    (Flip.code j k).syndrome smc = unit (slot smc j) (UInt8.ofNat (1 <<< k.val))
  := unit_table.1

theorem slot_injective (smc : Bool) :
  Function.Injective (slot smc)
  := by
  cases smc <;> decide

theorem one_unit :
  ∀ u : Fin 3, ∀ k : Fin 8, ¬ (unit u (UInt8.ofNat (1 <<< k.val))).Single
    ∧ (unit u (UInt8.ofNat (1 <<< k.val))).weight = 1
  := unit_table.2.1

theorem two_units :
  ∀ u u' : Fin 3, ∀ k k' : Fin 8, u ≠ u' ∨ k ≠ k' →
    ¬ ((unit u (UInt8.ofNat (1 <<< k.val))).sum (unit u' (UInt8.ofNat (1 <<< k'.val)))).Single
      ∧ 2 ≤ ((unit u (UInt8.ofNat (1 <<< k.val))).sum (unit u' (UInt8.ofNat (1 <<< k'.val)))).weight
  := unit_table.2.2

end Lines

section Flips

variable {smc : Bool} {m : ℕ → Byte} {dat : ℕ}

/-- What `nand_correct_data` makes of a step with flips, whose code was computed before. -/
def readBack (smc : Bool) (m : ℕ → Byte) (dat : ℕ) (flips : List Flip) : (ℕ → Byte) × ℤ :=
  nandCorrectData smc (onData dat flips m) dat (onCode flips (code smc m dat))
    (code smc (onData dat flips m) dat)

theorem readBack_eq (flips : List Flip) :
  readBack smc m dat flips = (syndrome smc flips).correct (onData dat flips m) dat
  := by rw [readBack, nandCorrectData, syndrome_of_flips]

theorem sum_comm (s t : Syndrome) :
  s.sum t = t.sum s
  := by simp only [Syndrome.sum, UInt8.xor_comm]

theorem zero_sum (s : Syndrome) :
  (⟨0, 0, 0⟩ : Syndrome).sum s = s
  := by simp only [Syndrome.sum, UInt8.zero_xor]

theorem syndrome_one (f : Flip) :
  syndrome smc [f] = f.syndrome smc
  := zero_sum _

theorem syndrome_two (f g : Flip) :
  syndrome smc [f, g] = (f.syndrome smc).sum (g.syndrome smc)
  := congrArg (fun s => Syndrome.sum s (g.syndrome smc)) (zero_sum _)

/-- The two bits of the third byte that are always set. -/
def Flip.Spare : Flip → Prop
  | .data _ _ => False
  | .code j k => j = 2 ∧ k.val < 2

theorem byteoffs_eq (a b c : Byte) :
  (⟨a, b, c⟩ : Syndrome).byteoffs = (⟨a, b, 0⟩ : Syndrome).byteoffs
  := rfl

theorem bitnum_eq (a b c : Byte) :
  (⟨a, b, c⟩ : Syndrome).bitnum = (⟨0, 0, c⟩ : Syndrome).bitnum
  := rfl

/-- The differences of a flip in the line `i`. -/
theorem correct_line {i : Fin 256} {s2 : Byte} {k : ℕ} (hupper : UpperPairs s2)
    (hk : (⟨0, 0, s2⟩ : Syndrome).bitnum = k) :
  (⟨low i, high i, s2⟩ : Syndrome).correct m dat = (flipBit m (dat + i) k, 1)
  := by
  obtain ⟨hlow, hhigh, hoffs⟩ := line_facts i i.isLt
  have hsingle : (⟨low i, high i, s2⟩ : Syndrome).Single := ⟨hlow, hhigh, hupper⟩
  have hbyte := (byteoffs_eq (low i) (high i) s2).trans hoffs
  have hbit := (bitnum_eq (low i) (high i) s2).trans hk
  rw [correct_single hsingle, hbyte, hbit]

theorem pairs_facts {x : Byte} (h : Pairs x) :
  countbits x.toNat = 4 ∧ ∀ k < 8, ¬ Pairs (x ^^^ UInt8.ofNat (1 <<< k))
  := by
  have hx := countbits_of_pairs x.toNat x.toNat_lt
  rw [UInt8.ofNat_toNat] at hx
  exact hx h

/-- A flip in the data and one in the code. -/
theorem data_unit (i : Fin 256) (k l : Fin 8) (u : Fin 3) (hspare : ¬ (u = 2 ∧ l.val < 2)) :
  ¬ ((⟨low i, high i, columns k⟩ : Syndrome).sum (unit u (UInt8.ofNat (1 <<< l.val)))).Single
    ∧ 2 ≤ ((⟨low i, high i, columns k⟩ : Syndrome).sum (unit u (UInt8.ofNat (1 <<< l.val)))).weight
  := by
  obtain ⟨hlow, hhigh, -⟩ := line_facts i i.isLt
  obtain ⟨hcountlow, hfliplow⟩ := pairs_facts hlow
  obtain ⟨hcounthigh, hfliphigh⟩ := pairs_facts hhigh
  match u with
  | 0 =>
    refine ⟨fun h => hfliplow l l.isLt h.1, ?_⟩
    have hsame : high i ^^^ 0 = high i := UInt8.xor_zero
    rw [Syndrome.weight, Syndrome.sum, unit]
    dsimp only
    rw [hsame]
    omega
  | 1 =>
    refine ⟨fun h => hfliphigh l l.isLt h.2.1, ?_⟩
    have hsame : low i ^^^ 0 = low i := UInt8.xor_zero
    rw [Syndrome.weight, Syndrome.sum, unit]
    dsimp only
    rw [hsame]
    omega
  | 2 =>
    have hcolumn := columns_flip k k.isLt l l.isLt
    rw [if_pos (by omega)] at hcolumn
    refine ⟨fun h => hcolumn h.2.2, ?_⟩
    have hsame : low i ^^^ 0 = low i := UInt8.xor_zero
    rw [Syndrome.weight, Syndrome.sum, unit]
    dsimp only
    rw [hsame]
    omega

theorem twins_facts {x : Byte} (h : Twins x) :
  ¬ Pairs x ∧ (x ≠ 0 → 2 ≤ countbits x.toNat)
  := by
  have hx := countbits_of_twins x.toNat x.toNat_lt
  rw [UInt8.ofNat_toNat] at hx
  refine ⟨fun hpairs => ?_, hx h⟩
  rw [Pairs, h] at hpairs
  exact absurd hpairs (by decide)

/-- Two flips in the data. -/
theorem data_data {i j : Fin 256} {k l : Fin 8} (hne : (i, k) ≠ (j, l)) :
  ¬ ((⟨low i, high i, columns k⟩ : Syndrome).sum ⟨low j, high j, columns l⟩).Single
    ∧ 2 ≤ ((⟨low i, high i, columns k⟩ : Syndrome).sum ⟨low j, high j, columns l⟩).weight
  := by
  obtain ⟨d, hd⟩ : ∃ d, d = UInt8.ofNat i.val ^^^ UInt8.ofNat j.val := ⟨_, rfl⟩
  have hlow : low i ^^^ low j = tmp2 d d := by rw [low, low, ← tmp2_xor, xor_not, hd]
  have hhigh : high i ^^^ high j = tmp1 d d := by rw [high, high, ← tmp1_xor, xor_not, hd]
  have htwins := two_lines d.toNat d.toNat_lt
  rw [UInt8.ofNat_toNat, ← hlow, ← hhigh] at htwins
  obtain ⟨htwinlow, htwinhigh, hzero⟩ := htwins
  refine ⟨fun h => (twins_facts htwinlow).1 h.1, ?_⟩
  rw [Syndrome.weight, Syndrome.sum]
  dsimp only
  by_cases hij : i = j
  · have hkl : k.val ≠ l.val := by
      intro hkl
      exact hne (Prod.ext hij (Fin.ext hkl))
    have hcolumns := two_columns k k.isLt l l.isLt hkl
    omega
  · have hnezero : ¬ (low i ^^^ low j = 0 ∧ high i ^^^ high j = 0) := by
      rintro ⟨hlowzero, hhighzero⟩
      have hdzero := hzero hlowzero hhighzero
      rw [show d.toNat = 0 ↔ d = 0 from UInt8.toNat_inj (b := 0), hd,
        UInt8.xor_eq_zero_iff] at hdzero
      have hval := congrArg UInt8.toNat hdzero
      rw [UInt8.toNat_ofNat_of_lt' i.isLt, UInt8.toNat_ofNat_of_lt' j.isLt] at hval
      exact hij (Fin.ext hval)
    have hcountlow := (twins_facts htwinlow).2
    have hcounthigh := (twins_facts htwinhigh).2
    by_cases hlowzero : low i ^^^ low j = 0
    · have := hcounthigh fun hhighzero => hnezero ⟨hlowzero, hhighzero⟩
      omega
    · have := hcountlow hlowzero
      omega

/-- Two flips that are not in the spare bits. -/
theorem two_flips {f g : Flip} (hne : f ≠ g) (hf : ¬ f.Spare) (hg : ¬ g.Spare) :
  ¬ (syndrome smc [f, g]).Single ∧ 2 ≤ (syndrome smc [f, g]).weight
  := by
  rw [syndrome_two]
  have hslot : ∀ {j : Fin 3} {l : Fin 8},
      ¬ (Flip.code j l).Spare → ¬ (slot smc j = 2 ∧ l.val < 2) := by
    rintro j l hspare ⟨hj, hl⟩
    apply hspare ⟨slot_injective smc (hj.trans ?_), hl⟩
    cases smc <;> rfl
  cases f with
  | data i k =>
    cases g with
    | data j l =>
      rw [syndrome_data, syndrome_data]
      apply data_data
      rintro heq
      obtain ⟨rfl, rfl⟩ := Prod.mk.inj heq
      exact hne rfl
    | code j l =>
      rw [syndrome_data, syndrome_code]
      exact data_unit i k l _ (hslot hg)
  | code j l =>
    cases g with
    | data i k =>
      rw [sum_comm, syndrome_data, syndrome_code]
      exact data_unit i k l _ (hslot hf)
    | code j' l' =>
      rw [syndrome_code, syndrome_code]
      apply two_units
      by_contra hsame
      rw [not_or, not_not, not_not] at hsame
      obtain rfl := slot_injective smc hsame.1
      obtain rfl := hsame.2
      exact hne rfl

theorem correct_nil :
  (syndrome smc []).correct m dat = (m, 0)
  := if_pos (show (0 : Byte) ||| 0 ||| 0 = 0 by decide)

/-- A flip is taken back. -/
theorem correct_one (f : Flip) :
  (syndrome smc [f]).correct m dat = (f.onData dat m, 1)
  := by
  rw [syndrome_one]
  cases f with
  | data i k =>
    obtain ⟨hupper, hk⟩ := column_facts k k.isLt
    rw [syndrome_data]
    exact correct_line hupper hk
  | code j k =>
    obtain ⟨hsingle, hweight⟩ := one_unit (slot smc j) k
    rw [← syndrome_code] at hsingle hweight
    exact correct_code hsingle hweight

theorem correct_two {f g : Flip} (hne : f ≠ g) (hf : ¬ f.Spare) (hg : ¬ g.Spare) :
  (syndrome smc [f, g]).correct m dat = (m, -ebadmsg)
  := by
  obtain ⟨hsingle, hweight⟩ : ¬ (syndrome smc [f, g]).Single ∧ 2 ≤ (syndrome smc [f, g]).weight :=
    two_flips hne hf hg
  exact correct_bad hsingle hweight

theorem correct_spare (i : Fin 256) (k : Fin 8) {g : Flip} (hg : g.Spare) :
  (syndrome smc [.data i k, g]).correct m dat = (flipBit m (dat + i) k, 1)
  := by
  cases g with
  | data _ _ => cases hg
  | code j l =>
    obtain ⟨rfl, hl⟩ := hg
    have hcolumn := columns_flip k k.isLt l l.isLt
    rw [if_neg (by omega)] at hcolumn
    obtain ⟨hupper, hk⟩ := hcolumn
    have hthird : (⟨low i, high i, columns k⟩ : Syndrome).sum (unit 2 (UInt8.ofNat (1 <<< l.val)))
        = ⟨low i, high i, columns k ^^^ UInt8.ofNat (1 <<< l.val)⟩ := by
      rw [Syndrome.sum, unit]
      simp only [UInt8.xor_zero]
    have hslot : slot smc 2 = 2 := by cases smc <;> rfl
    rw [syndrome_two, syndrome_data, syndrome_code, hslot, hthird]
    exact correct_line hupper hk

theorem onData_onData (f : Flip) :
  f.onData dat (f.onData dat m) = m
  := by
  cases f with
  | data i k => exact flipBit_flipBit _ _ _
  | code j k => rfl

/-- **The code corrects a flip, and detects two.**  A flip of one of the two bits that are always
set does not matter beside a flip in the data. -/
theorem readBack_flips (smc : Bool) (m : ℕ → Byte) (dat : ℕ) :
  readBack smc m dat [] = (m, 0) ∧ (∀ f, readBack smc m dat [f] = (m, 1))
    ∧ (∀ f g : Flip, f ≠ g → ¬ f.Spare → ¬ g.Spare →
      readBack smc m dat [f, g] = (onData dat [f, g] m, -ebadmsg))
    ∧ ∀ i k, ∀ g : Flip, g.Spare → readBack smc m dat [.data i k, g] = (m, 1)
  := by
  refine ⟨?_, ?_, ?_, ?_⟩
  · rw [readBack_eq]
    exact correct_nil
  · intro f
    rw [readBack_eq, correct_one]
    exact congrArg (fun m => (m, (1 : ℤ))) (onData_onData f)
  · intro f g hne hf hg
    rw [readBack_eq, correct_two hne hf hg]
  · intro i k g hg
    rw [readBack_eq, correct_spare i k hg]
    cases g with
    | data _ _ => cases hg
    | code _ _ => exact congrArg (fun m => (m, (1 : ℤ))) (flipBit_flipBit _ _ _)

end Flips

end NandEcc
