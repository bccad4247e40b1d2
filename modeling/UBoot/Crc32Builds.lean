import UBoot.Lib.ByteOrder
import UBoot.Lib.Walk
import UBoot.Env.Eeprom

/-!
# The CRC in every build

`lib/crc32.c` can be built for both byte orders, with a table made at the first call, and with a
watchdog that is to be triggered while a long buffer is summed up.  On a big-endian machine the
register and the table are byte-swapped.

`crc32NoComp_eq_bitwise` says that all of them compute the reflected CRC-32 bit by bit, whatever
the alignment of the buffer.  The loop that triggers the watchdog compares pointers: it never ends
for the chunk size 0, and it does nothing for a buffer up to the top of the address space.
-/

namespace Crc32

open Memory StateTransition

/-! ### The checksum bit by bit -/

/-- One bit of the reflected CRC-32. -/
def bitStep (c : Word) : Word := if c.getLsbD 0 then 0xedb88320 ^^^ c >>> 1 else c >>> 1

/-- One byte: it is added to the low bits of the register, which are then shifted out. -/
def bitwiseByte (c : Word) (x : Byte) : Word := bitStep^[8] (c ^^^ x.toBitVec.setWidth 32)

/-- The CRC-32 of a list of bytes, a bit at a time. -/
def bitwise (c : Word) (buf : List Byte) : Word := buf.foldl bitwiseByte c

theorem bitStep_xor (c d : Word) :
  bitStep (c ^^^ d) = bitStep c ^^^ bitStep d
  := by
  simp only [bitStep, BitVec.getLsbD_xor, BitVec.ushiftRight_xor_distrib]
  cases c.getLsbD 0 <;> cases d.getLsbD 0
  all_goals simp only [Bool.xor_false, Bool.false_xor, Bool.xor_self, if_true, if_false,
    Bool.false_eq_true]
  case false.true => ac_rfl
  case true.false => ac_rfl
  case true.true =>
    have hpair : 0xedb88320 ^^^ c >>> 1 ^^^ (0xedb88320 ^^^ d >>> 1)
        = 0xedb88320 ^^^ 0xedb88320 ^^^ (c >>> 1 ^^^ d >>> 1) := by
      ac_rfl
    rw [hpair, BitVec.xor_self, BitVec.zero_xor]

theorem iterate_bitStep_xor (n : ℕ) (c d : Word) :
  bitStep^[n] (c ^^^ d) = bitStep^[n] c ^^^ bitStep^[n] d
  := by
  induction n generalizing c d with
  | zero => rfl
  | succ n ih => rw [Function.iterate_succ_apply, bitStep_xor, ih, ← Function.iterate_succ_apply,
      ← Function.iterate_succ_apply]

/-- A register is only shifted as long as its low bits are clear. -/
theorem iterate_bitStep_of_low {n : ℕ} {c : Word} (h : ∀ i < n, c.getLsbD i = false) :
  bitStep^[n] c = c >>> n
  := by
  induction n with
  | zero => rw [Function.iterate_zero_apply, BitVec.ushiftRight_zero]
  | succ n ih =>
    have hlow : (c >>> n).getLsbD 0 = false := by
      rw [BitVec.getLsbD_ushiftRight]
      apply h n (Nat.lt_succ_self n)
    rw [Function.iterate_succ_apply', ih fun i hi => h i (Nat.lt_succ_of_lt hi), bitStep, hlow,
      if_neg Bool.false_ne_true, BitVec.shiftRight_add]

theorem getLsbD_255 (i : ℕ) :
  (255 : Word).getLsbD i = decide (i < 8)
  := by
  rw [show (255 : Word) = BitVec.ofNat 32 (2 ^ 8 - 1) by rfl, BitVec.getLsbD_ofNat,
    Nat.testBit_two_pow_sub_one]
  by_cases h : i < 8
  · simp [h, show i < 32 by omega]
  · simp [h]

/-- Eight bits of a register: those of its low byte, and the rest of it shifted down. -/
theorem iterate_bitStep_eight (c : Word) :
  bitStep^[8] c = bitStep^[8] (c &&& 255) ^^^ c >>> 8
  := by
  have hsplit : c = (c &&& 255) ^^^ (c &&& ~~~255) := by
    apply BitVec.eq_of_getLsbD_eq
    intro i hi
    simp only [BitVec.getLsbD_xor, BitVec.getLsbD_and, BitVec.getLsbD_not, hi]
    cases c.getLsbD i <;> cases (255 : Word).getLsbD i <;> rfl
  have hlow : ∀ i < 8, (c &&& ~~~255).getLsbD i = false := by
    intro i hi
    rw [BitVec.getLsbD_and, BitVec.getLsbD_not, getLsbD_255, decide_eq_true hi, Bool.not_true,
      Bool.and_false, Bool.and_false]
  have hshift : (c &&& ~~~255) >>> 8 = c >>> 8 := by
    apply BitVec.eq_of_getLsbD_eq
    intro i _
    simp only [BitVec.getLsbD_ushiftRight, BitVec.getLsbD_and, BitVec.getLsbD_not, getLsbD_255]
    by_cases h : 8 + i < 32
    · simp [h]
    · simp [BitVec.getLsbD_of_ge c (8 + i) (by omega)]
  conv_lhs => rw [hsplit]
  rw [iterate_bitStep_xor, iterate_bitStep_of_low hlow, hshift]

theorem crcTable_eq_bitwise :
  ∀ i < 256, crcTable.getD i 0 = bitStep^[8] (BitVec.ofNat 32 i)
  := by
  have htable : crcTable.toList.map id =
      (List.range 256).map fun i => bitStep^[8] (BitVec.ofNat 32 i) := by decide +kernel
  intro i hi
  have hentry := Tables.apply_array_getD htable hi 0
  rwa [id_eq] at hentry

/-- The table turns a byte step into the eight bit steps. -/
theorem doCrc_eq_bitwiseByte (c : Word) (x : Byte) :
  doCrc c x = bitwiseByte c x
  := by
  have hx : x.toBitVec.setWidth 32 >>> 8 = 0#32 := by
    have hlt := x.toNat_lt
    apply BitVec.eq_of_toNat_eq
    rw [BitVec.toNat_ushiftRight, Nat.shiftRight_eq_div_pow, BitVec.toNat_setWidth,
      UInt8.toNat_toBitVec, BitVec.toNat_ofNat]
    omega
  have hi : ((c ^^^ x.toBitVec.setWidth 32) &&& 255).toNat < 256 := by
    rw [toNat_and_255]
    apply BitVec.isLt
  rw [doCrc, crcTable_eq_bitwise _ hi, BitVec.ofNat_toNat, BitVec.setWidth_eq, bitwiseByte,
    iterate_bitStep_eight (c ^^^ x.toBitVec.setWidth 32), BitVec.ushiftRight_xor_distrib, hx,
    BitVec.xor_zero]

theorem foldl_doCrc_eq_bitwise (c : Word) (buf : List Byte) :
  buf.foldl doCrc c = bitwise c buf
  := by
  rw [bitwise, show doCrc = bitwiseByte by
    funext c x
    apply doCrc_eq_bitwiseByte]

/-! ### The builds -/

/-- What the build decides: the byte order, `DYNAMIC_CRC_TABLE`, and whether there is a
watchdog. -/
structure Build where
  order : ByteOrder
  dynamicCrcTable : Bool
  watchdog : Bool

/-- The terms `p` of the polynomial. -/
def terms : List ℕ := [0, 1, 2, 4, 5, 7, 8, 10, 11, 12, 16, 22, 23, 26]

/-- `poly`. -/
def poly : Word := terms.foldl (fun poly p => poly ||| 1 <<< (31 - p)) 0

/-- The entry that `make_crc_table` computes for `n`, before its byte swap. -/
def makeCrcTable (n : ℕ) : Word :=
  (fun c : Word => if c &&& 1 ≠ 0 then poly ^^^ c >>> 1 else c >>> 1)^[8] (BitVec.ofNat 32 n)

namespace Build

/-- `crc_table`. -/
def tab (b : Build) (i : ℕ) : Word :=
  b.order.cpuToLe32 (if b.dynamicCrcTable then makeCrcTable i else crcTable.getD i 0)

/-- `DO_CRC`. -/
def doCrc (b : Build) (crc : Word) (x : Byte) : Word :=
  match b.order with
  | .littleEndian => b.tab ((crc ^^^ x.toBitVec.setWidth 32) &&& 255).toNat ^^^ crc >>> 8
  | .bigEndian => b.tab ((crc >>> 24 ^^^ x.toBitVec.setWidth 32) &&& 255).toNat ^^^ crc <<< 8

/-- The word that is loaded from four bytes. -/
def load (b : Build) (b₀ b₁ b₂ b₃ : Byte) : Word :=
  match b.order with
  | .littleEndian => word b₀ b₁ b₂ b₃
  | .bigEndian => word b₃ b₂ b₁ b₀

/-- "Align it": the bytes before the first whole word. -/
def alignIt (b : Build) : ℕ → Word → List Byte → Word × List Byte
  | _, crc, [] => (crc, [])
  | addr, crc, x :: buf =>
    if addr % 4 ≠ 0 then alignIt b (addr + 1) (b.doCrc crc x) buf else (crc, x :: buf)

/-- The words, and the last few bytes. -/
def crcWords (b : Build) : Word → List Byte → Word
  | crc, b₀ :: b₁ :: b₂ :: b₃ :: buf =>
    let crc := crc ^^^ b.load b₀ b₁ b₂ b₃
    crcWords b (b.doCrc (b.doCrc (b.doCrc (b.doCrc crc 0) 0) 0) 0) buf
  | crc, buf => buf.foldl b.doCrc crc

/-- `crc32_no_comp` of a buffer at the address `addr`. -/
def crc32NoComp (b : Build) (addr : ℕ) (crc : Word) (buf : List Byte) : Word :=
  let aligned := b.alignIt addr (b.order.cpuToLe32 crc) buf
  b.order.cpuToLe32 (b.crcWords aligned.1 aligned.2)

/-- `crc32`. -/
def crc32 (b : Build) (addr : ℕ) (crc : Word) (buf : List Byte) : Word :=
  b.crc32NoComp addr (crc ^^^ 0xffffffff) buf ^^^ 0xffffffff

theorem makeCrcTable_eq :
  ∀ i < 256, makeCrcTable i = crcTable.getD i 0
  := by
  have htable : crcTable.toList.map id = (List.range 256).map makeCrcTable := by decide +kernel
  intro i hi
  have hentry := Tables.apply_array_getD htable hi 0
  rw [id_eq] at hentry
  exact hentry.symm

theorem tab_eq (b : Build) {i : ℕ} (h : i < 256) :
  b.tab i = b.order.cpuToLe32 (crcTable.getD i 0)
  := by
  rw [tab]
  split
  case isTrue => rw [makeCrcTable_eq i h]
  case isFalse => rfl

/-- A byte step on a register in little-endian form. -/
theorem doCrc_cpuToLe32 (b : Build) (c : Word) (x : Byte) :
  b.doCrc (b.order.cpuToLe32 c) x = b.order.cpuToLe32 (Crc32.doCrc c x)
  := by
  have hlt (d : Word) : (d &&& 255).toNat < 256 := by
    rw [toNat_and_255]
    apply BitVec.isLt
  rw [Crc32.doCrc, ByteOrder.cpuToLe32_xor, ← tab_eq b (hlt _), doCrc]
  cases b.order with
  | littleEndian => rfl
  | bigEndian =>
    have hidx : (c &&& 255 ^^^ x.toBitVec.setWidth 32) &&& 255
        = (c ^^^ x.toBitVec.setWidth 32) &&& 255 := by
      apply BitVec.eq_of_getLsbD_eq
      intro i hi
      simp only [BitVec.getLsbD_and, BitVec.getLsbD_xor]
      cases (255 : Word).getLsbD i <;> simp
    simp only [ByteOrder.cpuToLe32, ByteOrder.swab32_ushiftRight_24, ByteOrder.swab32_ushiftRight,
      hidx]

theorem foldl_doCrc_cpuToLe32 (b : Build) (c : Word) (buf : List Byte) :
  buf.foldl b.doCrc (b.order.cpuToLe32 c) = b.order.cpuToLe32 (buf.foldl Crc32.doCrc c)
  := by
  induction buf generalizing c with
  | nil => rfl
  | cons x buf ih => rw [List.foldl_cons, List.foldl_cons, doCrc_cpuToLe32, ih]

theorem getLsbD_word (b₀ b₁ b₂ b₃ : Byte) {i : ℕ} (h : i < 32) :
  (word b₀ b₁ b₂ b₃).getLsbD i
    = if i < 8 then b₀.toNat.testBit i
      else if i < 16 then b₁.toNat.testBit (i - 8)
      else if i < 24 then b₂.toNat.testBit (i - 16)
      else b₃.toNat.testBit (i - 24)
  := by
  have hsum : b₀.toNat + 2 ^ 8 * b₁.toNat + 2 ^ 16 * b₂.toNat + 2 ^ 24 * b₃.toNat
      = 2 ^ 8 * (2 ^ 8 * (2 ^ 8 * b₃.toNat + b₂.toNat) + b₁.toNat) + b₀.toNat := by
    omega
  rw [word, BitVec.getLsbD_ofNat, hsum, Nat.testBit_two_pow_mul_add _ b₀.toNat_lt,
    Nat.testBit_two_pow_mul_add _ b₁.toNat_lt, Nat.testBit_two_pow_mul_add _ b₂.toNat_lt]
  simp only [h, decide_true, Bool.true_and, Nat.sub_sub, Nat.reduceAdd]
  split_ifs <;> first | rfl | omega

/-- The word that is loaded is the little-endian one in the order of the machine. -/
theorem load_eq (b : Build) (b₀ b₁ b₂ b₃ : Byte) :
  b.load b₀ b₁ b₂ b₃ = b.order.cpuToLe32 (word b₀ b₁ b₂ b₃)
  := by
  rw [load]
  cases b.order with
  | littleEndian => rfl
  | bigEndian =>
    apply BitVec.eq_of_getLsbD_eq
    intro i hi
    rw [ByteOrder.cpuToLe32, ByteOrder.getLsbD_swab32 _ hi, getLsbD_word _ _ _ _ hi,
      getLsbD_word _ _ _ _ (ByteOrder.mirror_lt hi), ByteOrder.mirror]
    split_ifs <;> first | omega | (congr 1; omega)

theorem alignIt_eq (b : Build) (addr : ℕ) (c : Word) (buf : List Byte) :
  ∃ n, b.alignIt addr (b.order.cpuToLe32 c) buf
    = (b.order.cpuToLe32 ((buf.take n).foldl Crc32.doCrc c), buf.drop n)
  := by
  induction buf generalizing addr c with
  | nil => exact ⟨0, rfl⟩
  | cons x buf ih =>
    rw [alignIt]
    split
    case isTrue =>
      obtain ⟨n, hn⟩ := ih (addr + 1) (Crc32.doCrc c x)
      use n + 1
      rw [doCrc_cpuToLe32, hn, List.take_succ_cons, List.drop_succ_cons, List.foldl_cons]
    case isFalse => exact ⟨0, rfl⟩

theorem crcWords_cpuToLe32 (b : Build) (c : Word) (buf : List Byte) :
  b.crcWords (b.order.cpuToLe32 c) buf = b.order.cpuToLe32 (buf.foldl Crc32.doCrc c)
  := by
  induction c, buf using Crc32.crcWords.induct with
  | case1 c b₀ b₁ b₂ b₃ buf ih =>
    simp only [crcWords, load_eq, ← ByteOrder.cpuToLe32_xor, doCrc_cpuToLe32, doCrc_word]
    rw [← doCrc_word, ih, doCrc_word]
    iterate 4 rw [List.foldl_cons]
  | case2 c buf h =>
    rw [crcWords, foldl_doCrc_cpuToLe32]
    apply h

/-- Every build computes the CRC-32 bit by bit, whatever the alignment of the buffer. -/
theorem crc32NoComp_eq_bitwise (b : Build) (addr : ℕ) (crc : Word) (buf : List Byte) :
  b.crc32NoComp addr crc buf = bitwise crc buf
  := by
  obtain ⟨n, hn⟩ := b.alignIt_eq addr crc buf
  rw [crc32NoComp, hn, crcWords_cpuToLe32, ByteOrder.cpuToLe32_cpuToLe32, ← List.foldl_append,
    List.take_append_drop, foldl_doCrc_eq_bitwise]

theorem crc32_eq (b : Build) (addr : ℕ) (crc : Word) (buf : List Byte) :
  b.crc32 addr crc buf = Crc32.crc32 crc buf
  := by
  rw [crc32, crc32NoComp_eq_bitwise, Crc32.crc32, foldl_doCrc_eq_bitwise]

/-- The checksum can be computed in pieces, wherever they lie. -/
theorem crc32_append (b : Build) (addr addr' addr'' : ℕ) (crc : Word) (buf buf' : List Byte) :
  b.crc32 addr' (b.crc32 addr crc buf) buf' = b.crc32 addr'' crc (buf ++ buf')
  := by
  rw [crc32_eq, crc32_eq, crc32_eq, Crc32.crc32_append]

/-! ### With a watchdog -/

/-- The variables of the loop of `crc32_wd`. -/
structure WdState where
  curr : ℕ
  crc : Word
  deriving DecidableEq

/-- One round of the loop of `crc32_wd` up to the pointer `stop`. -/
def wdNext (b : Build) (mem : ℕ → Byte) (stop chunkSz : ℕ) (s : WdState) : Option WdState :=
  if s.curr < stop then
    let chunk := if chunkSz < stop - s.curr then chunkSz else stop - s.curr
    some ⟨(s.curr + chunk) % 2 ^ 32, b.crc32 s.curr s.crc (read mem s.curr chunk)⟩
  else none

/-- `crc32_wd` of the `len` bytes at `buf`, in less than `n` rounds.  A pointer has 32 bits. -/
def crc32Wd (b : Build) (n : ℕ) (mem : ℕ → Byte) (crc : Word) (buf len chunkSz : ℕ) :
    Option Word :=
  if b.watchdog then
    (Walk.run (b.wdNext mem ((buf + len) % 2 ^ 32) chunkSz) n ⟨buf, crc⟩).map WdState.crc
  else some (b.crc32 buf crc (read mem buf len))

section Watchdog

variable (b : Build) (mem : ℕ → Byte) (crc : Word) {buf len chunkSz : ℕ}

/-- Every chunk brings the pointer nearer to the end, and the checksum that is to come stays the
same. -/
theorem wdNext_step {stop : ℕ} (hstop : stop < 2 ^ 32) (hchunk : 0 < chunkSz) {s t : WdState}
    (h : b.wdNext mem stop chunkSz s = some t) :
  t.curr ≤ stop ∧ stop - t.curr < stop - s.curr
    ∧ Crc32.crc32 t.crc (read mem t.curr (stop - t.curr))
      = Crc32.crc32 s.crc (read mem s.curr (stop - s.curr))
  := by
  rw [wdNext] at h
  split at h
  case isFalse => cases h
  case isTrue hlt =>
    obtain rfl := Option.some.inj h
    generalize hk : (if chunkSz < stop - s.curr then chunkSz else stop - s.curr) = k
    have hbound : 0 < k ∧ k ≤ stop - s.curr := by
      rw [← hk]
      split <;> omega
    have hcurr : (s.curr + k) % 2 ^ 32 = s.curr + k := by
      apply Nat.mod_eq_of_lt
      omega
    simp only [hcurr]
    refine ⟨by omega, by omega, ?_⟩
    rw [crc32_eq, ← Crc32.crc32_append, ← read_add]
    congr 2
    omega

theorem exists_crc32Wd (hchunk : 0 < chunkSz) (hbuf : buf + len < 2 ^ 32) :
  ∃ s n, Walk.run (b.wdNext mem (buf + len) chunkSz) n ⟨buf, crc⟩ = some s
    ∧ s.crc = Crc32.crc32 crc (read mem buf len)
  := by
  let I (s : WdState) : Prop := s.curr ≤ buf + len
    ∧ Crc32.crc32 s.crc (read mem s.curr (buf + len - s.curr))
      = Crc32.crc32 crc (read mem buf len)
  have hI : I ⟨buf, crc⟩ := by
    simp only [I, Nat.add_sub_cancel_left]
    exact ⟨Nat.le_add_right _ _, trivial⟩
  have hstep : ∀ t u, I t → b.wdNext mem (buf + len) chunkSz t = some u →
      I u ∧ buf + len - u.curr < buf + len - t.curr := by
    rintro t u ⟨_, hcrc⟩ hu
    obtain ⟨hcurr', hlt, hcrc'⟩ := b.wdNext_step mem hbuf hchunk hu
    exact ⟨⟨hcurr', hcrc'.trans hcrc⟩, hlt⟩
  obtain ⟨n, hn⟩ := Walk.ends_of_measure _ hstep hI
  obtain ⟨s, hs⟩ := Option.isSome_iff_exists.mp hn
  obtain ⟨hreaches, hnone⟩ := Walk.reaches_of_run hs
  obtain ⟨hcurr, hcrc⟩ := Walk.reaches_invariant (fun t u ht hu => (hstep t u ht hu).1) hI hreaches
  use s, n, hs
  -- the loop has ended at the end of the buffer
  have hend : buf + len - s.curr = 0 := by
    rw [wdNext] at hnone
    split at hnone
    case isTrue => cases hnone
    case isFalse => omega
  rw [hend, Memory.read, crc32_nil] at hcrc
  exact hcrc

/-- The chunks do not matter, if there are any and the buffer ends below the top of the address
space. -/
theorem crc32Wd_eq (h : b.watchdog → 0 < len → 0 < chunkSz ∧ buf + len < 2 ^ 32)
    (hbuf : buf < 2 ^ 32) :
  ∃ n, ∀ m ≥ n, b.crc32Wd m mem crc buf len chunkSz = some (b.crc32 buf crc (read mem buf len))
  := by
  cases hwd : b.watchdog with
  | false =>
    use 0
    intro m _
    rw [crc32Wd, hwd, if_neg Bool.false_ne_true]
  | true =>
    simp only [crc32Wd, hwd, if_true]
    obtain rfl | hlen := Nat.eq_zero_or_pos len
    · use 1
      intro m hm
      obtain ⟨m, rfl⟩ := Nat.exists_eq_add_of_le' hm
      rw [Nat.add_zero, Nat.mod_eq_of_lt hbuf, Memory.read, crc32_eq, crc32_nil, Walk.run, wdNext,
        if_neg (Nat.lt_irrefl _), Option.map_some]
    · obtain ⟨hchunk, hend⟩ := h hwd hlen
      obtain ⟨s, n, hn, hs⟩ := b.exists_crc32Wd mem crc hchunk hend
      use n
      intro m hm
      rw [Nat.mod_eq_of_lt hend, Walk.run_mono hm hn, Option.map_some, hs, crc32_eq]

/-- With the chunk size 0 the loop makes no progress. -/
theorem crc32Wd_zero (hwd : b.watchdog) (n : ℕ) (hlen : 0 < len) (hbuf : buf + len < 2 ^ 32) :
  b.crc32Wd n mem crc buf len 0 = none
  := by
  have hfixed : b.wdNext mem (buf + len) 0 ⟨buf, crc⟩ = some ⟨buf, crc⟩ := by
    rw [wdNext, if_pos (Nat.lt_add_of_pos_right hlen)]
    simp only [Nat.add_sub_cancel_left, if_pos hlen, Nat.add_zero, Memory.read, crc32_eq,
      crc32_nil, Nat.mod_eq_of_lt (Nat.lt_of_le_of_lt (Nat.le_add_right buf len) hbuf)]
  rw [crc32Wd, if_pos hwd, Nat.mod_eq_of_lt hbuf, Option.map_eq_none_iff,
    ← Option.not_isSome_iff_eq_none]
  intro hn
  apply Walk.not_ends_of_fixed hfixed ⟨n, hn⟩

/-- The loop does nothing for a buffer up to the top of the address space. -/
theorem crc32Wd_top (hwd : b.watchdog) (n : ℕ) (hbuf : buf + len = 2 ^ 32) :
  b.crc32Wd (n + 1) mem crc buf len chunkSz = some crc
  := by
  rw [crc32Wd, if_pos hwd, hbuf, Nat.mod_self, Walk.run, wdNext, if_neg (Nat.not_lt_zero _),
    Option.map_some]

end Watchdog

/-! ### The check of an EEPROM -/

/-- The loop of `env_init` over the data, through a buffer of 64 bytes at the address `addr`. -/
def crcLoop (b : Build) (addr : ℕ) (dev : ℕ → Byte) (new : Word) (len off : ℕ) : Word :=
  if len = 0 then new
  else
    let n := if len > 64 then 64 else len
    crcLoop b addr dev (b.crc32 addr new (read dev off n)) (len - n) (off + n)
  termination_by len
  decreasing_by split <;> omega

/-- `env_init`, with the data area 4 bytes behind the checksum. -/
def envInit (b : Build) (envSize addr off : ℕ) (dev : ℕ → Byte) : Env.Eeprom.GlobalData :=
  let crc := b.load (dev off) (dev (off + 1)) (dev (off + 2)) (dev (off + 3))
  let new := b.crcLoop addr dev 0 envSize (off + 4)
  if crc = new then ⟨4, 1⟩ else ⟨0, 0⟩

theorem crcLoop_eq_crcLoop (b : Build) (addr : ℕ) (dev : ℕ → Byte) (new : Word) (len off : ℕ) :
  b.crcLoop addr dev new len off = Env.Eeprom.crcLoop dev new len off
  := by
  induction len using Nat.strong_induction_on generalizing new off with
  | _ len ih =>
    rw [crcLoop, Env.Eeprom.crcLoop]
    split
    case isTrue => rfl
    case isFalse hlen =>
      simp only [crc32_eq]
      apply ih
      split <;> omega

/-- The check in chunks of 64 bytes is the one in one go. -/
theorem envInit_eq (b : Build) (envSize addr addr' off : ℕ) (dev : ℕ → Byte) :
  b.envInit envSize addr off dev
    = if b.load (dev off) (dev (off + 1)) (dev (off + 2)) (dev (off + 3))
        = b.crc32 addr' 0 (read dev (off + 4) envSize) then ⟨4, 1⟩ else ⟨0, 0⟩
  := by
  simp only [envInit, crcLoop_eq_crcLoop, Env.Eeprom.crcLoop_eq, crc32_eq]

/-! ### All builds -/

/-- **The checksum.**  Every build computes the reflected CRC-32 with the polynomial `0xedb88320`
of every buffer at every address; it can be computed in pieces, also for the watchdog and in the
check of an EEPROM. -/
theorem builds_agree (b : Build) :
  (∀ addr crc buf, b.crc32NoComp addr crc buf = bitwise crc buf)
    ∧ (∀ addr addr' addr'' crc buf buf',
      b.crc32 addr' (b.crc32 addr crc buf) buf' = b.crc32 addr'' crc (buf ++ buf'))
    ∧ (∀ mem crc buf len chunkSz, buf < 2 ^ 32 →
      (b.watchdog → 0 < len → 0 < chunkSz ∧ buf + len < 2 ^ 32) →
      ∃ n, ∀ m ≥ n,
        b.crc32Wd m mem crc buf len chunkSz = some (b.crc32 buf crc (read mem buf len)))
    ∧ ∀ envSize addr addr' off dev, b.envInit envSize addr off dev
      = if b.load (dev off) (dev (off + 1)) (dev (off + 2)) (dev (off + 3))
          = b.crc32 addr' 0 (read dev (off + 4) envSize) then ⟨4, 1⟩ else ⟨0, 0⟩
  := ⟨b.crc32NoComp_eq_bitwise, b.crc32_append,
    fun mem crc _ _ _ hbuf h => b.crc32Wd_eq mem crc h hbuf, b.envInit_eq⟩

/-- The check value of the CRC-32, on a big-endian machine, in chunks of 4 bytes. -/
theorem builds_agree_digits :
  ∃ n, ∀ m ≥ n, (Build.mk .bigEndian false true).crc32Wd m (fun a => UInt8.ofNat (47 + a)) 0 2 9 4
    = some ((Build.mk .bigEndian false true).crc32 2 0
      (read (fun a => UInt8.ofNat (47 + a)) 2 9))
  := (builds_agree ⟨.bigEndian, false, true⟩).2.2.1 _ _ _ _ _ (by decide) fun _ _ => by decide

/-- With a watchdog, the chunk size 0 gives no checksum, and a buffer at the top of the address
space gives the wrong one. -/
theorem not_any_chunk :
  (∀ n, (Build.mk .bigEndian false true).crc32Wd n (fun _ => 0) 0 0 1 0 = none)
    ∧ (∀ n, (Build.mk .bigEndian false true).crc32Wd (n + 1) (fun _ => 0) 0 (2 ^ 32 - 1) 1 1
      = some 0)
    ∧ (Build.mk .bigEndian false true).crc32 (2 ^ 32 - 1) 0 (read (fun _ => 0) (2 ^ 32 - 1) 1) ≠ 0
  := by
  refine ⟨?_, ?_, by decide +kernel⟩
  · intro n
    apply crc32Wd_zero _ _ _ rfl n (by decide) (by decide)
  · intro n
    apply crc32Wd_top _ _ _ rfl n (by decide)

end Build

end Crc32
