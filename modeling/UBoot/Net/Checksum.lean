import UBoot.Lib.OnesComplement
import UBoot.Net.Net

/-!
# The checksum of headers

`NetCksum` adds the half words of a header in a wider register and folds the sum twice, which is
the one's complement sum.  The header that `NetSetIP` writes passes the test of `NetCksumOk`.  The
test takes both zeros of one's complement for a right sum; only the header of zeros has the other
one.
-/

namespace Net

/-- The one's complement sum of the half words of some bytes. -/
def onesSum (bytes : List Byte) : ℕ := OnesComplement.sum 0xffff (halves bytes)

/-! ### Half words -/

theorem halves_le (bytes : List Byte) :
  ∀ w ∈ halves bytes, w ≤ 0xffff
  := by
  induction bytes using halves.induct with
  | case1 hi lo bytes ih =>
    intro w hw
    rw [halves] at hw
    rcases List.mem_cons.mp hw with rfl | hw
    · have hhi := hi.toNat_lt
      have hlo := lo.toNat_lt
      omega
    · apply ih w hw
  | case2 bytes h =>
    rw [halves.eq_2 bytes h]
    intro w hw
    cases hw

theorem length_halves (bytes : List Byte) :
  (halves bytes).length = bytes.length / 2
  := by
  induction bytes using halves.induct with
  | case1 hi lo bytes ih =>
    rw [halves, List.length_cons, ih, List.length_cons, List.length_cons]
    omega
  | case2 bytes h =>
    rw [halves.eq_2 bytes h]
    match bytes with
    | [] => rfl
    | [_] => simp
    | hi :: lo :: bytes => exact absurd rfl (h hi lo bytes)

theorem halves_append {as : List Byte} (h : as.length % 2 = 0) (bs : List Byte) :
  halves (as ++ bs) = halves as ++ halves bs
  := by
  induction as using halves.induct with
  | case1 hi lo as ih =>
    rw [List.length_cons, List.length_cons] at h
    rw [List.cons_append, List.cons_append, halves, ih (by omega), halves, List.cons_append]
  | case2 as hne =>
    match as with
    | [] => rfl
    | [_] => cases h
    | hi :: lo :: as => exact absurd rfl (hne hi lo as)

theorem halves_halfBytes {n : ℕ} (h : n < 2 ^ 16) (bytes : List Byte) :
  halves (halfBytes n ++ bytes) = n :: halves bytes
  := by
  have hn := bytesHalf_halfBytes h bytes
  rw [halfBytes, List.cons_append, List.cons_append, List.nil_append] at hn ⊢
  rw [halves]
  apply congrArg (· :: halves bytes) hn

/-- The sum of no more half words than there are values of one fits into the register. -/
theorem sum_halves_lt {bytes : List Byte} (h : bytes.length < 2 ^ 17) :
  (halves bytes).sum < (0xffff + 1) * (0xffff + 1)
  := by
  have hsum : ∀ ws : List ℕ, (∀ w ∈ ws, w ≤ 0xffff) → ws.sum ≤ ws.length * 0xffff := by
    intro ws hws
    have hle := List.sum_le_card_nsmul ws 0xffff hws
    rwa [smul_eq_mul] at hle
  have hle := hsum (halves bytes) (halves_le bytes)
  rw [length_halves] at hle
  omega

/-! ### `NetCksum` -/

theorem fold_eq (x : ℕ) :
  (x &&& 0xffff) + (x >>> 16) = OnesComplement.fold 0xffff x
  := by
  rw [show (0xffff : ℕ) = 2 ^ 16 - 1 from rfl, Nat.and_two_pow_sub_one_eq_mod,
    Nat.shiftRight_eq_div_pow]
  rfl

/-- **The helper adds with the carry brought back.** -/
theorem netCksum_eq {bytes : List Byte} (h : bytes.length < 2 ^ 17) :
  netCksum bytes = onesSum bytes
  := by
  have hle : onesSum bytes ≤ 0xffff := OnesComplement.sum_le (halves_le bytes)
  have hfold : OnesComplement.fold 0xffff (OnesComplement.fold 0xffff (halves bytes).sum)
      = onesSum bytes := OnesComplement.fold_fold_sum (halves_le bytes) (sum_halves_lt h)
  rw [netCksum]
  simp only [fold_eq, hfold]
  rw [show (0xffff : ℕ) = 2 ^ 16 - 1 from rfl, Nat.and_two_pow_sub_one_eq_mod]
  omega

/-- A checksum in a header, made while there was none, is right. -/
theorem onesSum_complement {pre post : List Byte} (hpre : pre.length % 2 = 0)
    (h : (pre ++ halfBytes 0 ++ post).length < 2 ^ 17) :
  onesSum (pre ++ halfBytes (0xffff - netCksum (pre ++ halfBytes 0 ++ post)) ++ post) = 0xffff
  := by
  have hhalves : ∀ n < 2 ^ 16, halves (pre ++ halfBytes n ++ post)
      = halves pre ++ n :: halves post := by
    intro n hn
    rw [List.append_assoc, halves_append hpre, halves_halfBytes hn]
  rw [netCksum_eq h, onesSum, onesSum, hhalves 0 (by omega), hhalves _ (by omega)]
  apply OnesComplement.sum_complement (by omega) (halves_le pre) (halves_le post)

/-! ### `NetCksumOk` -/

theorem and_two_mul (a b : ℕ) :
  a &&& (2 * b) = 2 * (a / 2 &&& b)
  := by
  apply Nat.eq_of_testBit_eq
  intro i
  cases i with
  | zero => simp [Nat.testBit_zero]
  | succ i =>
    rw [Nat.testBit_and, Nat.testBit_succ, Nat.testBit_succ, Nat.testBit_succ,
      Nat.mul_div_right _ Nat.two_pos, Nat.mul_div_right _ Nat.two_pos, Nat.testBit_and]

/-- The mask leaves out the lowest bit of the sum that was counted up. -/
theorem succ_and_mask {c : ℕ} (hc : c ≤ 0xffff) :
  (c + 1) &&& 0xfffe = 0 ↔ c = 0xffff ∨ c = 0
  := by
  rw [show (0xfffe : ℕ) = 2 * (2 ^ 15 - 1) from rfl, and_two_mul, Nat.and_two_pow_sub_one_eq_mod]
  omega

theorem netCksumOk_eq {bytes : List Byte} (h : bytes.length < 2 ^ 17) :
  netCksumOk bytes = true ↔ onesSum bytes = 0xffff ∨ onesSum bytes = 0
  := by
  rw [netCksumOk, netCksum_eq h, decide_eq_true_iff]
  apply succ_and_mask
  apply OnesComplement.sum_le (halves_le bytes)

/-- The other zero is the sum of nothing but zeros. -/
theorem onesSum_eq_zero (bytes : List Byte) :
  onesSum bytes = 0 ↔ ∀ w ∈ halves bytes, w = 0
  := by
  rw [onesSum, OnesComplement.sum_eq_zero (halves_le bytes)]
  apply List.sum_eq_zero_iff

theorem halves_eq_zero {bytes : List Byte} (h : bytes.length % 2 = 0) :
  (∀ w ∈ halves bytes, w = 0) ↔ ∀ b ∈ bytes, b = 0
  := by
  induction bytes using halves.induct with
  | case1 hi lo bytes ih =>
    rw [List.length_cons, List.length_cons] at h
    rw [halves, List.forall_mem_cons, List.forall_mem_cons, List.forall_mem_cons, ih (by omega),
      ← and_assoc]
    apply and_congr_left'
    rw [← UInt8.toNat_inj, ← UInt8.toNat_inj]
    simp
  | case2 bytes hne =>
    match bytes with
    | [] => simp [halves]
    | [_] => cases h
    | hi :: lo :: bytes => exact absurd rfl (hne hi lo bytes)

variable {α : Type}

/-- **The checksum written and the checksum checked agree.**  The header of a packet passes the
test, and the test passes for the headers whose sum is all ones, and for the header of zeros. -/
theorem netCksumOk_iff :
  (∀ (g : Globals α) (dest : Word) (dport sport len : ℕ),
      netCksumOk ((netSetIP g dest dport sport len).take ipHdrSizeNoUdp) = true)
    ∧ ∀ hdr : Fin ipHdrSizeNoUdp → Byte,
      netCksumOk (List.ofFn hdr) = true ↔ onesSum (List.ofFn hdr) = 0xffff ∨ hdr = fun _ => 0
  := by
  constructor
  · intro g dest dport sport len
    have hlength : ∀ sum, (ipHeader g dest len sum).length = ipHdrSizeNoUdp := by
      intro sum
      simp [ipHeader, halfBytes, wordBytes, ipHdrSizeNoUdp]
    have hsplit : ∀ sum, ipHeader g dest len sum = ([0x45, 0] ++ halfBytes (ipHdrSize + len)
        ++ halfBytes g.netIPID ++ halfBytes 0x4000 ++ [255, ipprotoUdp]) ++ halfBytes sum
        ++ (wordBytes g.netOurIP ++ wordBytes dest) := by
      intro sum
      simp only [ipHeader, List.append_assoc]
    have htake : (netSetIP g dest dport sport len).take ipHdrSizeNoUdp
        = ipHeader g dest len (0xffff - netCksum (ipHeader g dest len 0)) := by
      rw [netSetIP, List.append_assoc, List.append_assoc, List.append_assoc,
        List.take_left' (hlength _)]
    rw [htake, netCksumOk_eq (by rw [hlength]; decide)]
    left
    rw [hsplit, hsplit]
    apply onesSum_complement
    · simp [halfBytes]
    · simp [halfBytes, wordBytes]
  · intro hdr
    have hlength : (List.ofFn hdr).length = 20 := List.length_ofFn
    rw [netCksumOk_eq (by omega), onesSum_eq_zero, halves_eq_zero (by omega), List.forall_mem_ofFn_iff,
      funext_iff]

/-- The header of zeros passes, and its sum is not all ones. -/
theorem netCksumOk_zero :
  ¬ ((∀ (g : Globals ℕ) (dest : Word) (dport sport len : ℕ),
      netCksumOk ((netSetIP g dest dport sport len).take ipHdrSizeNoUdp) = true)
    ∧ ∀ hdr : Fin ipHdrSizeNoUdp → Byte,
      netCksumOk (List.ofFn hdr) = true ↔ onesSum (List.ofFn hdr) = 0xffff)
  := by
  rintro ⟨-, h⟩
  have hzero := h 0
  revert hzero
  decide

end Net
