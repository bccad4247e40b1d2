import Mathlib.Tactic

/-!
# Byte orders

`swab32` turns the bytes of a 32-bit word around.  It is described bit by bit once
(`getLsbD_swab32`); that it is an involution, that it is linear, and that it turns a shift to the
right into one to the left follow from the indices.

A word of any width is a list of bytes in memory: `value` is what it is as a number.  Bytes that are
shifted in one after the other make up a word (`foldl_shiftIn`).
-/

/-- The order of the bytes of a word in memory, by the byte that comes first. -/
inductive ByteOrder
  | littleEndian
  | bigEndian
  deriving DecidableEq

namespace ByteOrder

/-- `___swab32`. -/
def swab32 (x : BitVec 32) : BitVec 32 :=
  (x &&& 0x000000ff) <<< 24 ||| (x &&& 0x0000ff00) <<< 8
    ||| (x &&& 0x00ff0000) >>> 8 ||| (x &&& 0xff000000) >>> 24

/-- `cpu_to_le32`, which is `le32_to_cpu` too. -/
def cpuToLe32 : ByteOrder → BitVec 32 → BitVec 32
  | littleEndian, x => x
  | bigEndian, x => swab32 x

/-- The bit of a word that its byte swap has at `i`. -/
def mirror (i : ℕ) : ℕ := 24 - 8 * (i / 8) + i % 8

theorem mirror_lt {i : ℕ} (h : i < 32) :
  mirror i < 32
  := by
  rw [mirror]
  omega

theorem mirror_mirror {i : ℕ} (h : i < 32) :
  mirror (mirror i) = i
  := by
  simp only [mirror]
  omega

theorem getLsbD_swab32 (x : BitVec 32) {i : ℕ} (h : i < 32) :
  (swab32 x).getLsbD i = x.getLsbD (mirror i)
  := by
  simp only [swab32, BitVec.getLsbD_or, BitVec.getLsbD_shiftLeft, BitVec.getLsbD_ushiftRight,
    BitVec.getLsbD_and]
  interval_cases i <;> simp [mirror]

theorem swab32_swab32 (x : BitVec 32) :
  swab32 (swab32 x) = x
  := by
  apply BitVec.eq_of_getLsbD_eq
  intro i hi
  rw [getLsbD_swab32 _ hi, getLsbD_swab32 _ (mirror_lt hi), mirror_mirror hi]

theorem swab32_xor (x y : BitVec 32) :
  swab32 (x ^^^ y) = swab32 x ^^^ swab32 y
  := by
  apply BitVec.eq_of_getLsbD_eq
  intro i hi
  rw [getLsbD_swab32 _ hi, BitVec.getLsbD_xor, BitVec.getLsbD_xor, getLsbD_swab32 _ hi,
    getLsbD_swab32 _ hi]

theorem swab32_ushiftRight (x : BitVec 32) :
  swab32 (x >>> 8) = swab32 x <<< 8
  := by
  apply BitVec.eq_of_getLsbD_eq
  intro i hi
  rw [getLsbD_swab32 _ hi, BitVec.getLsbD_ushiftRight, BitVec.getLsbD_shiftLeft]
  by_cases hlow : i < 8
  · have hout : 32 ≤ 8 + mirror i := by
      rw [mirror]
      omega
    simp [hlow, BitVec.getLsbD_of_ge _ _ hout]
  · have hin : 8 + mirror i = mirror (i - 8) := by
      simp only [mirror]
      omega
    rw [getLsbD_swab32 _ (by omega), hin]
    simp [hi, hlow]

/-- The first byte is the last one of the byte swap. -/
theorem swab32_ushiftRight_24 (x : BitVec 32) :
  swab32 x >>> 24 = x &&& 255
  := by
  apply BitVec.eq_of_getLsbD_eq
  intro i hi
  rw [BitVec.getLsbD_ushiftRight, BitVec.getLsbD_and]
  by_cases hlow : i < 8
  · have hin : mirror (24 + i) = i := by
      rw [mirror]
      omega
    rw [getLsbD_swab32 _ (by omega), hin]
    interval_cases i <;> simp
  · rw [BitVec.getLsbD_of_ge _ _ (by omega)]
    interval_cases i <;> simp_all

@[simp]
theorem cpuToLe32_cpuToLe32 (o : ByteOrder) (x : BitVec 32) :
  cpuToLe32 o (cpuToLe32 o x) = x
  := by
  cases o with
  | littleEndian => rfl
  | bigEndian => apply swab32_swab32

theorem cpuToLe32_xor (o : ByteOrder) (x y : BitVec 32) :
  cpuToLe32 o (x ^^^ y) = cpuToLe32 o x ^^^ cpuToLe32 o y
  := by
  cases o with
  | littleEndian => rfl
  | bigEndian => apply swab32_xor

/-! ### Words of any width -/

/-- The number whose least significant byte comes first. -/
def leValue : List UInt8 → ℕ
  | [] => 0
  | b :: bs => b.toNat + 256 * leValue bs

/-- The word that bytes in memory are. -/
def value : ByteOrder → List UInt8 → ℕ
  | littleEndian, bs => leValue bs
  | bigEndian, bs => leValue bs.reverse

/-- The `n` bytes of a number, its least significant byte first. -/
def leBytes : ℕ → ℕ → List UInt8
  | 0, _ => []
  | n + 1, v => UInt8.ofNat v :: leBytes n (v / 256)

/-- The `n` bytes of a word in memory. -/
def bytes : ByteOrder → ℕ → ℕ → List UInt8
  | littleEndian, n, v => leBytes n v
  | bigEndian, n, v => (leBytes n v).reverse

/-- A byte is shifted into a word of `n` bytes, at the end that is last in memory. -/
def shiftIn : ByteOrder → ℕ → ℕ → UInt8 → ℕ
  | littleEndian, n, v, c => v >>> 8 ||| c.toNat <<< (8 * (n - 1))
  | bigEndian, n, v, c => (v <<< 8 ||| c.toNat) % 2 ^ (8 * n)

theorem leValue_lt (bs : List UInt8) :
  leValue bs < 2 ^ (8 * bs.length)
  := by
  induction bs with
  | nil => decide
  | cons b bs ih =>
    have hb := b.toNat_lt
    rw [leValue, List.length_cons, Nat.mul_add, Nat.pow_add]
    omega

theorem leValue_append (bs bs' : List UInt8) :
  leValue (bs ++ bs') = leValue bs + 2 ^ (8 * bs.length) * leValue bs'
  := by
  induction bs with
  | nil => simp [leValue]
  | cons b bs ih =>
    rw [List.cons_append, leValue, leValue, ih, List.length_cons, Nat.mul_add 8, Nat.pow_add]
    ring

theorem leBytes_leValue (bs : List UInt8) :
  leBytes bs.length (leValue bs) = bs
  := by
  induction bs with
  | nil => rfl
  | cons b bs ih =>
    have hb := b.toNat_lt
    have hlow : UInt8.ofNat (b.toNat + 256 * leValue bs) = b := by
      rw [← UInt8.toNat_inj, UInt8.toNat_ofNat']
      omega
    have hhigh : (b.toNat + 256 * leValue bs) / 256 = leValue bs := by
      omega
    rw [leValue, List.length_cons, leBytes, hlow, hhigh, ih]

theorem leValue_land (bs bs' : List UInt8) (h : bs.length = bs'.length) :
  leValue bs &&& leValue bs' = leValue (List.zipWith (· &&& ·) bs bs')
  := by
  induction bs generalizing bs' with
  | nil => simp [leValue]
  | cons b bs ih =>
    cases bs' with
    | nil => cases h
    | cons b' bs' =>
      have hb := b.toNat_lt
      have hb' := b'.toNat_lt
      have hhigh := Nat.and_div_two_pow (a := b.toNat + 256 * leValue bs)
        (b := b'.toNat + 256 * leValue bs') (n := 8)
      have hlow := Nat.and_mod_two_pow (a := b.toNat + 256 * leValue bs)
        (b := b'.toNat + 256 * leValue bs') (n := 8)
      rw [show (b.toNat + 256 * leValue bs) / 2 ^ 8 = leValue bs by omega,
        show (b'.toNat + 256 * leValue bs') / 2 ^ 8 = leValue bs' by omega] at hhigh
      rw [show (b.toNat + 256 * leValue bs) % 2 ^ 8 = b.toNat by omega,
        show (b'.toNat + 256 * leValue bs') % 2 ^ 8 = b'.toNat by omega] at hlow
      rw [List.zipWith_cons_cons, leValue, leValue, leValue, ← ih bs' (Nat.succ_inj.mp h),
        UInt8.toNat_and, ← hhigh, ← hlow]
      omega

theorem bytes_value (o : ByteOrder) (bs : List UInt8) :
  o.bytes bs.length (o.value bs) = bs
  := by
  cases o with
  | littleEndian => exact leBytes_leValue bs
  | bigEndian =>
    have hrev := leBytes_leValue bs.reverse
    rw [List.length_reverse] at hrev
    rw [bytes, value, hrev, List.reverse_reverse]

theorem value_inj (o : ByteOrder) {bs bs' : List UInt8} (h : bs.length = bs'.length) :
  o.value bs = o.value bs' ↔ bs = bs'
  := by
  constructor
  · intro heq
    rw [← bytes_value o bs, heq, h, bytes_value]
  · rintro rfl
    rfl

theorem value_land (o : ByteOrder) {bs bs' : List UInt8} (h : bs.length = bs'.length) :
  o.value bs &&& o.value bs' = o.value (List.zipWith (· &&& ·) bs bs')
  := by
  cases o with
  | littleEndian => exact leValue_land bs bs' h
  | bigEndian =>
    rw [value, value, value, leValue_land _ _ (by simp [h]), List.reverse_zipWith h]

theorem shiftIn_value (o : ByteOrder) (b c : UInt8) (bs : List UInt8) :
  o.shiftIn (bs.length + 1) (o.value (b :: bs)) c = o.value (bs ++ [c])
  := by
  have hb := b.toNat_lt
  have hc := c.toNat_lt
  cases o with
  | littleEndian =>
    have hlt := leValue_lt bs
    have hshift : (b.toNat + 256 * leValue bs) >>> 8 = leValue bs := by
      rw [Nat.shiftRight_eq_div_pow]
      omega
    rw [shiftIn, value, value, leValue, hshift, Nat.add_sub_cancel, Nat.or_comm,
      ← Nat.shiftLeft_add_eq_or_of_lt hlt, leValue_append, Nat.shiftLeft_eq, leValue, leValue]
    ring
  | bigEndian =>
    have hlt := leValue_lt bs.reverse
    rw [List.length_reverse] at hlt
    have hreverse : leValue (b :: bs).reverse
        = leValue bs.reverse + 2 ^ (8 * bs.length) * b.toNat := by
      rw [List.reverse_cons, leValue_append, List.length_reverse, leValue, leValue]
      ring
    have hword : (leValue bs.reverse + 2 ^ (8 * bs.length) * b.toNat) * 2 ^ 8 + c.toNat
        = c.toNat + 256 * leValue bs.reverse + 2 ^ (8 * (bs.length + 1)) * b.toNat := by
      rw [Nat.mul_add 8, Nat.pow_add]
      ring
    have hsmall : c.toNat + 256 * leValue bs.reverse < 2 ^ (8 * (bs.length + 1)) := by
      rw [Nat.mul_add 8, Nat.pow_add]
      omega
    rw [shiftIn, value, value, hreverse, ← Nat.shiftLeft_add_eq_or_of_lt hc, Nat.shiftLeft_eq,
      hword, Nat.add_mul_mod_self_left, Nat.mod_eq_of_lt hsmall, List.reverse_append,
      List.reverse_singleton, List.singleton_append, leValue]

/-- The last bytes that are shifted in make up the word. -/
theorem foldl_shiftIn (o : ByteOrder) (bs cs : List UInt8) (h : 0 < bs.length) :
  cs.foldl (o.shiftIn bs.length) (o.value bs) = o.value ((bs ++ cs).drop cs.length)
  := by
  induction cs generalizing bs with
  | nil => simp
  | cons c cs ih =>
    cases bs with
    | nil => cases h
    | cons b bs =>
      have hlen : bs.length + 1 = (bs ++ [c]).length := by simp
      have hlist : b :: bs ++ c :: cs = b :: (bs ++ [c] ++ cs) := by simp
      rw [List.foldl_cons, List.length_cons, shiftIn_value, hlen, ih _ (by simp), hlist,
        List.length_cons, List.drop_succ_cons]

end ByteOrder
