import Mathlib.Data.List.GetD
import UBoot.Lib.Fallible
import UBoot.Lib.Align
import UBoot.Lib.Cells
import UBoot.Env.FwEnv

/-!
# The flash behind the Linux tool

`flash_read_buf` and `flash_write_buf` of `tools/env/fw_env.c`.  On a NAND device both go from one
good block to the next.  On a NOR device everything up to the end of the area should be erased and
written at once, but the loop counts one sector, and only the sectors with the environment have
been read before: the call does what it should if the environment is in the last sector of its
area.  The request to erase has the address of the block in 32 bits.
-/

namespace Env

namespace Fw

open Memory Fallible Cells

/-- `struct envdev_s`: the fields for the area of the environment. -/
structure Envdev where
  devoff : ℕ
  eraseSize : ℕ
  envSectors : ℕ

/-- An MTD device: its type and its bad blocks. -/
structure Mtd where
  mtdType : MtdType
  isBad : ℕ → Bool

/-- What is in the device, and how many operations there were. -/
structure Flash where
  cells : ℕ → Byte
  calls : ℕ

/-- Which operations fail, and what they leave in the device. -/
abbrev Faults := ℕ → Option (ℕ → Byte)

abbrev FlashM := ProgM Flash

/-! ### The operations -/

/-- An operation of the device. -/
def call {α : Type} (faults : Faults) (f : (ℕ → Byte) → α × (ℕ → Byte)) : FlashM α :=
  attempt fun s =>
    (faults s.calls).elim (.ok ((f s.cells).1, ⟨(f s.cells).2, s.calls + 1⟩))
      fun cells => .error ⟨cells, s.calls + 1⟩

/-- `read`, at an offset. -/
def mtdRead (faults : Faults) (p n : ℕ) : FlashM (List Byte) :=
  call faults fun cells => (read cells p n, cells)

/-- `MEMERASE`.  The fields of `struct erase_info_user` have 32 bits. -/
def mtdErase (faults : Faults) (p n : ℕ) : FlashM Unit :=
  call faults fun cells => ((), erased cells (p % 2 ^ 32) (n % 2 ^ 32))

/-- `lseek`. -/
def mtdSeek (faults : Faults) : FlashM Unit := call faults fun cells => ((), cells)

/-- `write`, at an offset. -/
def mtdWrite (faults : Faults) (p : ℕ) (data : List Byte) : FlashM Unit :=
  call faults fun cells => ((), programmed cells p data)

/-- `flash_bad_block`. -/
def flashBadBlock (M : Mtd) (faults : Faults) (blockstart : ℕ) : FlashM Bool :=
  if M.mtdType = .nandFlash then call faults fun cells => (M.isBad blockstart, cells)
  else pure false

/-! ### The two functions -/

/-- `x & ~(blocklen - 1)`. -/
def alignDown (blocklen x : ℕ) : ℕ := x - (x &&& (blocklen - 1))

/-- `top_of_range`, the end of the area. -/
def Envdev.topOfRange (dev : Envdev) : ℕ :=
  alignDown dev.eraseSize dev.devoff + dev.envSectors * dev.eraseSize

/-- The loop of `flash_read_buf`; the results are `processed` and the memory from `buf` on. -/
def readLoop (M : Mtd) (faults : Faults) (blocklen topOfRange count : ℕ) :
    ℕ → ℕ → ℕ → ℕ → ℕ → (ℕ → Byte) → FlashM (ℕ × (ℕ → Byte))
  | 0, _, _, _, _, _ => outOfRounds
  | rounds + 1, processed, readlen, blockSeek, blockstart, buf =>
    if processed < count then do
      let rc ← flashBadBlock M faults blockstart
      if blockstart + blockSeek + readlen > topOfRange then fail
      else if rc then
        readLoop M faults blocklen topOfRange count rounds processed readlen blockSeek
          (blockstart + blocklen) buf
      else do
        let bytes ← mtdRead faults (blockstart + blockSeek) readlen
        let processed' := processed + readlen
        readLoop M faults blocklen topOfRange count rounds processed'
          (min blocklen (count - processed')) 0 (blockstart + blocklen) (store buf processed bytes)
    else pure (processed, buf)

/-- `flash_read_buf`. -/
def flashReadBuf (M : Mtd) (faults : Faults) (dev : Envdev) (rounds : ℕ) (buf : ℕ → Byte)
    (count offset : ℕ) : FlashM (ℕ × (ℕ → Byte)) :=
  let blockstart := alignDown dev.eraseSize offset
  let blockSeek := offset - blockstart
  match M.mtdType with
  | .nandFlash =>
    let blocklen := dev.eraseSize
    let readlen := if count > blocklen - blockSeek then blocklen - blockSeek else count
    readLoop M faults blocklen dev.topOfRange count rounds 0 readlen blockSeek blockstart buf
  | .norFlash => readLoop M faults 0 (offset + count) count rounds 0 count blockSeek blockstart buf

/-- The loop of `flash_write_buf`; `data` is the memory from there on. -/
def writeLoop (M : Mtd) (faults : Faults) (blocklen erasesize topOfRange writeTotal : ℕ)
    (data : ℕ → Byte) : ℕ → ℕ → ℕ → FlashM ℕ
  | 0, _, _ => outOfRounds
  | rounds + 1, processed, blockstart =>
    if processed < writeTotal then do
      let rc ← flashBadBlock M faults blockstart
      if blockstart + erasesize > topOfRange then fail
      else if rc then
        writeLoop M faults blocklen erasesize topOfRange writeTotal data rounds processed
          (blockstart + blocklen)
      else do
        mtdErase faults blockstart erasesize
        mtdSeek faults
        mtdWrite faults blockstart (read data processed erasesize)
        writeLoop M faults blocklen erasesize topOfRange writeTotal data rounds
          (processed + blocklen) (blockstart + blocklen)
    else pure processed

/-- `erase_offset`. -/
def Envdev.eraseOffset (dev : Envdev) (offset : ℕ) : ℕ := alignDown dev.eraseSize offset

/-- `block_seek`. -/
def Envdev.blockSeek (dev : Envdev) (offset : ℕ) : ℕ := offset - dev.eraseOffset offset

/-- `erase_len`. -/
def Envdev.eraseLen (dev : Envdev) (offset : ℕ) : ℕ := dev.topOfRange - dev.eraseOffset offset

/-- `write_total`. -/
def Envdev.writeTotal (dev : Envdev) (count offset : ℕ) : ℕ :=
  alignDown dev.eraseSize (dev.blockSeek offset + count + dev.eraseSize - 1)

/-- The data that `flash_write_buf` writes; `heap` is what is in the memory that it allocates. -/
def collect (M : Mtd) (faults : Faults) (dev : Envdev) (rounds : ℕ) (heap buf : ℕ → Byte)
    (count offset : ℕ) : FlashM (ℕ → Byte) :=
  if dev.writeTotal count offset > count then do
    let r ← flashReadBuf M faults dev rounds heap (dev.writeTotal count offset)
      (dev.eraseOffset offset)
    if dev.writeTotal count offset ≠ r.1 then fail
    else pure (store r.2 (dev.blockSeek offset) (read buf 0 count))
  else pure buf

/-- `flash_write_buf`. -/
def flashWriteBuf (M : Mtd) (faults : Faults) (dev : Envdev) (rounds : ℕ) (heap buf : ℕ → Byte)
    (count offset : ℕ) : FlashM ℕ := do
  let data ← collect M faults dev rounds heap buf count offset
  let erasesize := if M.mtdType = .nandFlash then dev.eraseSize else dev.eraseLen offset
  writeLoop M faults dev.eraseSize erasesize dev.topOfRange (dev.writeTotal count offset) data
    rounds 0 (dev.eraseOffset offset)

/-! ### The area of the environment -/

/-- A block that `flash_bad_block` reports. -/
def Mtd.bad (M : Mtd) (block : ℕ) : Bool := decide (M.mtdType = .nandFlash) && M.isBad block

/-- The good ones of the `n` blocks from `start` on. -/
def Mtd.goodBlocks (M : Mtd) (blocklen start n : ℕ) : List ℕ :=
  ((List.range n).map fun k => start + k * blocklen).filter fun block => !M.bad block

/-- The blocks that hold what is written from an offset on. -/
def Mtd.blocks (M : Mtd) (dev : Envdev) (offset : ℕ) : List ℕ :=
  M.goodBlocks dev.eraseSize (dev.eraseOffset offset) (dev.eraseLen offset / dev.eraseSize)

/-- Where a byte of the area is: some blocks hold it, one after the other. -/
def place (blocklen : ℕ) (blocks : List ℕ) (p : ℕ) : ℕ :=
  blocks.getD (p / blocklen) 0 + p % blocklen

/-- Where the byte with the number `i` from an offset on is. -/
def Mtd.address (M : Mtd) (dev : Envdev) (offset i : ℕ) : ℕ :=
  place dev.eraseSize (M.blocks dev offset) (dev.blockSeek offset + i)

/-- The bytes are in the area.  The size of a sector has 32 bits. -/
structure Envdev.Holds (dev : Envdev) (count offset : ℕ) : Prop where
  power : ∃ k < 32, dev.eraseSize = 2 ^ k
  first : alignDown dev.eraseSize dev.devoff ≤ offset
  last : offset + count ≤ dev.topOfRange

/-- No operation fails. -/
def Faultless (faults : Faults) : Prop := ∀ n, faults n = none

/-- There are good blocks for the bytes. -/
def Mtd.Enough (M : Mtd) (dev : Envdev) (count offset : ℕ) : Prop :=
  dev.blockSeek offset + count ≤ (M.blocks dev offset).length * dev.eraseSize

/-- The bytes of `buf` are in the device, and nothing else has changed. -/
structure Mtd.Written (M : Mtd) (dev : Envdev) (buf : ℕ → Byte) (count offset : ℕ)
    (cells cells' : ℕ → Byte) : Prop where
  data : ∀ i < count, cells' (M.address dev offset i) = buf i
  frame : ∀ q, (∀ i < count, q ≠ M.address dev offset i) → cells' q = cells q

/-- A call writes the bytes, and nothing else, and reports success if no operation fails and there
are good blocks; then they can be read back. -/
def Mtd.WritesRight (M : Mtd) (dev : Envdev) (count offset : ℕ) : Prop :=
  ∀ faults rounds heap buf s, dev.envSectors + 2 ≤ rounds →
    Meets (flashWriteBuf M faults dev rounds heap buf count offset) s
      (Faultless faults ∧ M.Enough dev count offset)
      fun _ t => M.Written dev buf count offset s.cells t.cells
        ∧ ∀ faults' buf' calls, Meets (flashReadBuf M faults' dev rounds buf' count offset)
          ⟨t.cells, calls⟩ (Faultless faults') fun r t' =>
            r = (count, store buf' 0 (read buf 0 count)) ∧ t'.cells = t.cells

/-- If there are good blocks for the bytes, the blocks are at addresses of 32 bits. -/
def Mtd.Addressable (M : Mtd) (dev : Envdev) (count offset : ℕ) : Prop :=
  M.Enough dev count offset → ∀ p < dev.blockSeek offset + count,
    place dev.eraseSize (M.blocks dev offset) p < 2 ^ 32

/-- There is no sector of the area behind the one in which the data begin. -/
def Envdev.LastSector (dev : Envdev) (offset : ℕ) : Prop :=
  dev.topOfRange ≤ offset + dev.eraseSize

variable {M : Mtd} {faults : Faults} {dev : Envdev} {rounds count offset n processed readlen seek
  start writeTotal B : ℕ} {buf data cells : ℕ → Byte} {s : Flash} {blocks : List ℕ}

/-! ### Numbers -/

theorem alignDown_eq {k : ℕ} (x : ℕ) :
  alignDown (2 ^ k) x = x / 2 ^ k * 2 ^ k
  := by
  have hsplit := Nat.div_add_mod' x (2 ^ k)
  rw [alignDown, Nat.and_two_pow_sub_one_eq_mod]
  omega

/-- The numbers of a call. -/
structure Envdev.Numbers (dev : Envdev) (count offset n m : ℕ) : Prop where
  pos : 0 < dev.eraseSize
  small : dev.eraseSize < 2 ^ 32
  divides : dev.eraseSize ∣ 2 ^ 32
  start : dev.eraseOffset offset + dev.blockSeek offset = offset
  seek : dev.blockSeek offset < dev.eraseSize
  top : dev.eraseOffset offset + n * dev.eraseSize = dev.topOfRange
  few : n ≤ dev.envSectors
  len : dev.eraseLen offset = n * dev.eraseSize
  total : dev.writeTotal count offset = m * dev.eraseSize
  covers : dev.blockSeek offset + count ≤ m * dev.eraseSize
  least : m * dev.eraseSize < dev.blockSeek offset + count + dev.eraseSize
  fits : m ≤ n
  again : alignDown dev.eraseSize (dev.eraseOffset offset) = dev.eraseOffset offset
  dvd : dev.eraseSize ∣ dev.eraseOffset offset

/-- A call is about some whole sectors of the area. -/
theorem Envdev.Holds.numbers (h : dev.Holds count offset) :
  ∃ n m, dev.Numbers count offset n m
  := by
  obtain ⟨k, hlt, hk⟩ := h.power
  have hsmall : dev.eraseSize < 2 ^ 32 := by
    rw [hk]
    exact Nat.pow_lt_pow_right Nat.one_lt_two hlt
  have hdivides : dev.eraseSize ∣ 2 ^ 32 := by
    rw [hk]
    exact Nat.pow_dvd_pow 2 (Nat.le_of_lt hlt)
  have hpos : 0 < dev.eraseSize := by
    rw [hk]
    exact Nat.two_pow_pos k
  have halign : ∀ x, alignDown dev.eraseSize x = x / dev.eraseSize * dev.eraseSize := by
    intro x
    rw [hk]
    exact alignDown_eq x
  have hfirst := h.first
  have hlast := h.last
  rw [halign] at hfirst
  have htop : dev.topOfRange = (dev.devoff / dev.eraseSize + dev.envSectors) * dev.eraseSize := by
    rw [Envdev.topOfRange, halign, Nat.add_mul]
  have hblock := Nat.div_add_mod' offset dev.eraseSize
  have hmod := Nat.mod_lt offset hpos
  have hfew : dev.devoff / dev.eraseSize ≤ offset / dev.eraseSize :=
    (Nat.le_div_iff_mul_le hpos).mpr hfirst
  have hbound : offset / dev.eraseSize ≤ dev.devoff / dev.eraseSize + dev.envSectors := by
    apply Nat.div_le_of_le_mul
    rw [htop] at hlast
    rw [Nat.mul_comm]
    omega
  have hstart : dev.eraseOffset offset = offset / dev.eraseSize * dev.eraseSize := halign offset
  have hseek : dev.blockSeek offset = offset % dev.eraseSize := by
    rw [Envdev.blockSeek, hstart]
    omega
  use dev.devoff / dev.eraseSize + dev.envSectors - offset / dev.eraseSize
  use (dev.blockSeek offset + count + dev.eraseSize - 1) / dev.eraseSize
  have hround := Nat.div_add_mod' (dev.blockSeek offset + count + dev.eraseSize - 1) dev.eraseSize
  have hrest := Nat.mod_lt (dev.blockSeek offset + count + dev.eraseSize - 1) hpos
  have hsum : dev.eraseOffset offset
      + (dev.devoff / dev.eraseSize + dev.envSectors - offset / dev.eraseSize) * dev.eraseSize
      = dev.topOfRange := by
    rw [hstart, htop, ← Nat.add_mul, Nat.add_sub_cancel' hbound]
  have hcovers : dev.blockSeek offset + count
      ≤ (dev.blockSeek offset + count + dev.eraseSize - 1) / dev.eraseSize * dev.eraseSize := by
    omega
  constructor
  · exact hpos
  · exact hsmall
  · exact hdivides
  · omega
  · omega
  · exact hsum
  · omega
  · rw [Envdev.eraseLen]
    omega
  · exact halign _
  · exact hcovers
  · omega
  · apply Nat.le_of_lt_succ
    apply Nat.div_lt_of_lt_mul
    rw [Nat.mul_succ, Nat.mul_comm]
    omega
  · rw [halign, hstart, Nat.mul_div_cancel _ hpos]
  · rw [hstart]
    exact Nat.dvd_mul_left _ _

/-! ### The good blocks -/

/-- A NOR device has no bad blocks. -/
theorem bad_of_nor (hnor : M.mtdType = .norFlash) (block : ℕ) :
  M.bad block = false
  := by
  rw [Mtd.bad, hnor]
  rfl

theorem comp_succ (start B : ℕ) :
  (fun k => start + k * B) ∘ Nat.succ = fun k => start + B + k * B
  := by
  funext k
  rw [Function.comp_apply, Nat.succ_mul]
  omega

theorem goodBlocks_of_bad (hbad : M.bad start = true) :
  M.goodBlocks B start (n + 1) = M.goodBlocks B (start + B) n
  := by
  rw [Mtd.goodBlocks, List.range_succ_eq_map, List.map_cons, List.map_map, comp_succ, Nat.zero_mul,
    Nat.add_zero, List.filter_cons_of_neg]
  · rfl
  · rw [hbad]
    exact Bool.false_ne_true

theorem goodBlocks_of_good (hbad : M.bad start = false) :
  M.goodBlocks B start (n + 1) = start :: M.goodBlocks B (start + B) n
  := by
  rw [Mtd.goodBlocks, List.range_succ_eq_map, List.map_cons, List.map_map, comp_succ, Nat.zero_mul,
    Nat.add_zero, List.filter_cons_of_pos]
  · rfl
  · rw [hbad]
    rfl

/-- The good blocks are apart. -/
theorem pairwise_goodBlocks (M : Mtd) (B start n : ℕ) :
  (M.goodBlocks B start n).Pairwise fun b b' => b + B ≤ b'
  := by
  apply List.Pairwise.filter
  apply List.Pairwise.map (R := fun i j => i < j)
  · intro i j hij
    have hle := Nat.mul_le_mul_right B (Nat.succ_le_of_lt hij)
    rw [Nat.succ_mul] at hle
    omega
  · exact List.pairwise_lt_range

/-! ### What the operations do -/

theorem meets_call {α : Type} {f : (ℕ → Byte) → α × (ℕ → Byte)} {Q : α → Flash → Prop}
    (h : Q (f s.cells).1 ⟨(f s.cells).2, s.calls + 1⟩) :
  Meets (call faults f) s (Faultless faults) Q
  := by
  apply meets_attempt
  · intro r hr
    cases hfault : faults s.calls with
    | none =>
      rw [hfault] at hr
      obtain rfl := Except.ok.inj hr
      exact h
    | some cells =>
      rw [hfault] at hr
      cases hr
  · intro t ht hfaultless
    rw [hfaultless] at ht
    cases ht

theorem meets_flashBadBlock (M : Mtd) (faults : Faults) (start : ℕ) (s : Flash) :
  Meets (flashBadBlock M faults start) s (Faultless faults)
    fun rc t => rc = M.bad start ∧ t.cells = s.cells
  := by
  rw [flashBadBlock]
  by_cases hnand : M.mtdType = .nandFlash
  · rw [if_pos hnand]
    apply meets_call
    rw [Mtd.bad, decide_eq_true hnand, Bool.true_and]
    exact ⟨rfl, rfl⟩
  · rw [if_neg hnand]
    apply meets_pure
    rw [Mtd.bad, decide_eq_false hnand, Bool.false_and]
    exact ⟨rfl, rfl⟩

theorem meets_mtdRead (faults : Faults) (p n : ℕ) (s : Flash) :
  Meets (mtdRead faults p n) s (Faultless faults)
    fun bytes t => bytes = read s.cells p n ∧ t.cells = s.cells
  := meets_call ⟨rfl, rfl⟩

/-- A range erased and written. -/
def eraseWritten (cells : ℕ → Byte) (p : ℕ) (data : List Byte) : ℕ → Byte :=
  programmed (erased cells (p % 2 ^ 32) (data.length % 2 ^ 32)) p data

/-- An address of 32 bits is the one that is erased. -/
theorem eraseWritten_eq {p : ℕ} {data : List Byte} (hp : p < 2 ^ 32) (hlen : data.length < 2 ^ 32) :
  eraseWritten cells p data = store cells p data
  := by rw [eraseWritten, Nat.mod_eq_of_lt hp, Nat.mod_eq_of_lt hlen, programmed_erased]

/-- Another address is not, and stays erased. -/
theorem eraseWritten_wrong {p : ℕ} {data : List Byte} (hp : 2 ^ 32 ≤ p) {q : ℕ} (hq : q < 2 ^ 32)
    (h : cells q = 0xff ∨ p % 2 ^ 32 ≤ q ∧ q < p % 2 ^ 32 + data.length % 2 ^ 32) :
  eraseWritten cells p data q = 0xff
  := by
  rw [eraseWritten, programmed, store_of_lt _ (by omega), erased]
  split_ifs with hin
  · rfl
  · exact h.resolve_right hin

theorem meets_eraseWrite (faults : Faults) (p n : ℕ) (data : List Byte) (hlen : data.length = n)
    (s : Flash) {β : Type} {f : FlashM β} {R : β → Flash → Prop} {good : Prop}
    (hgood : good → Faultless faults)
    (hf : ∀ t : Flash, t.cells = eraseWritten s.cells p data → Meets f t good R) :
  Meets (do
    mtdErase faults p n
    mtdSeek faults
    mtdWrite faults p data
    f) s good R
  := by
  apply Meets.bind
  · exact (meets_call
      (Q := fun _ t => t.cells = erased s.cells (p % 2 ^ 32) (n % 2 ^ 32)) rfl).mono hgood
      fun _ _ h => h
  intro _ t ht
  apply Meets.bind
  · exact (meets_call (Q := fun _ t' => t'.cells = t.cells) rfl).mono hgood fun _ _ h => h
  intro _ t' ht'
  apply Meets.bind
  · exact (meets_call (Q := fun _ u => u.cells = programmed t'.cells p data) rfl).mono hgood
      fun _ _ h => h
  intro _ u hu
  apply hf
  rw [hu, ht', ht, ← hlen, eraseWritten]

/-! ### Reading -/

/-- The bytes of some blocks, one after the other. -/
def area (cells : ℕ → Byte) (B : ℕ) (blocks : List ℕ) : List Byte :=
  blocks.flatMap fun block => read cells block B

theorem length_area (cells : ℕ → Byte) (B : ℕ) (blocks : List ℕ) :
  (area cells B blocks).length = blocks.length * B
  := by
  induction blocks with
  | nil => exact (Nat.zero_mul B).symm
  | cons block blocks ih =>
    rw [area, List.flatMap_cons, List.length_append, length_read, ← area, ih, List.length_cons,
      Nat.succ_mul, Nat.add_comm]

/-- A part of the first block, and what comes from the next ones. -/
theorem take_drop_area (cells : ℕ → Byte) {block want : ℕ} (hseek : seek < B) :
  ((area cells B (block :: blocks)).drop seek).take want
    = read cells (block + seek) (min (B - seek) want)
      ++ ((area cells B blocks).drop 0).take (want - min (B - seek) want)
  := by
  have hsplit : B = seek + (B - seek) := (Nat.add_sub_cancel' (Nat.le_of_lt hseek)).symm
  have hfirst : (read cells block B).drop seek = read cells (block + seek) (B - seek) := by
    conv_lhs => rw [hsplit, read_add]
    exact List.drop_left' (length_read ..)
  rw [area, List.flatMap_cons, ← area, List.drop_append_of_le_length, hfirst, List.drop_zero,
    List.take_append, length_read]
  · obtain hle | hle := Nat.le_total want (B - seek)
    · have hpart : B - seek = want + (B - seek - want) := (Nat.add_sub_cancel' hle).symm
      rw [Nat.min_eq_right hle, Nat.sub_eq_zero_of_le hle, Nat.sub_self, hpart, read_add,
        List.take_left' (length_read ..)]
    · rw [Nat.min_eq_left hle, List.take_of_length_le]
      rwa [length_read]
  · rw [length_read]
    exact Nat.le_of_lt hseek

/-- The bytes that are left, from the good blocks that are left. -/
theorem meets_readLoop (M : Mtd) (faults : Faults) {topOfRange : ℕ} (hB : 0 < B) (hseek : seek < B)
    (hle : processed ≤ count) (hrounds : n < rounds)
    (hreadlen : readlen = min (B - seek) (count - processed))
    (htop : start + n * B = topOfRange) (s : Flash) :
  Meets (readLoop M faults B topOfRange count rounds processed readlen seek start buf) s
    (Faultless faults ∧ count - processed ≤ (M.goodBlocks B start n).length * B - seek)
    fun r t => t.cells = s.cells
      ∧ count - processed ≤ (M.goodBlocks B start n).length * B - seek
      ∧ r = (count, store buf processed
        (((area s.cells B (M.goodBlocks B start n)).drop seek).take (count - processed)))
  := by
  induction rounds generalizing n processed readlen seek start buf s with
  | zero => exact absurd hrounds (Nat.not_lt_zero n)
  | succ rounds ih =>
    rw [readLoop]
    by_cases hlt : processed < count
    · rw [if_pos hlt]
      apply Meets.bind ((meets_flashBadBlock M faults start s).mono And.left fun _ _ h => h)
      rintro rc t ⟨rfl, ht⟩
      cases n with
      | zero =>
        rw [Nat.zero_mul, Nat.add_zero] at htop
        rw [if_pos (by omega)]
        apply meets_fail
        rintro ⟨_, henough⟩
        have hnone : M.goodBlocks B start 0 = [] := rfl
        rw [hnone, List.length_nil, Nat.zero_mul] at henough
        omega
      | succ n =>
        rw [Nat.succ_mul] at htop
        rw [if_neg (by omega)]
        cases hbad : M.bad start with
        | true =>
          rw [if_pos rfl, goodBlocks_of_bad hbad, ← ht]
          exact ih hseek hle (by omega) hreadlen (by omega) t
        | false =>
          rw [if_neg Bool.false_ne_true, goodBlocks_of_good hbad, List.length_cons, Nat.succ_mul,
            take_drop_area s.cells hseek, ← hreadlen]
          apply Meets.bind ((meets_mtdRead faults (start + seek) readlen t).mono And.left
            fun _ _ h => h)
          rintro bytes t' ⟨rfl, ht'⟩
          rw [ht] at ht'
          have hrest : count - (processed + readlen) = count - processed - readlen :=
            (Nat.sub_sub ..).symm
          apply (ih (n := n) hB (by omega) (by omega) rfl (by omega) t').mono
          · rintro ⟨hfaultless, henough⟩
            refine ⟨hfaultless, ?_⟩
            omega
          · rintro r u ⟨hu, henough, rfl⟩
            rw [hu, ht', ht, hrest, store_append, length_read]
            refine ⟨rfl, ?_, rfl⟩
            omega
    · rw [if_neg hlt]
      apply meets_pure
      have hzero : count - processed = 0 := by omega
      have heq : processed = count := by omega
      rw [hzero, List.take_zero, heq]
      exact ⟨rfl, Nat.zero_le _, rfl⟩

/-- On a NOR device the area is in one piece. -/
theorem area_of_nor (hnor : M.mtdType = .norFlash) (cells : ℕ → Byte) (B start n : ℕ) :
  area cells B (M.goodBlocks B start n) = read cells start (n * B)
  := by
  have hgood := bad_of_nor hnor
  induction n generalizing start with
  | zero =>
    rw [Nat.zero_mul]
    rfl
  | succ n ih =>
    rw [goodBlocks_of_good (hgood start), area, List.flatMap_cons, ← area, ih, Nat.succ_mul,
      Nat.add_comm (n * B) B, read_add]

/-- On a NOR device everything is read at once. -/
theorem meets_readLoop_nor (hnor : M.mtdType = .norFlash) (faults : Faults)
    (hstart : start + seek = offset) (hrounds : 1 < rounds) (s : Flash) :
  Meets (readLoop M faults 0 (offset + count) count rounds 0 count seek start buf) s
    (Faultless faults) fun r t => t.cells = s.cells
      ∧ r = (count, store buf 0 (read s.cells offset count))
  := by
  obtain ⟨rounds, rfl⟩ := Nat.exists_eq_add_of_lt hrounds
  have hsucc : 1 + rounds + 1 = rounds + 1 + 1 := by omega
  rw [hsucc, readLoop]
  by_cases hpos : 0 < count
  · rw [if_pos hpos]
    apply Meets.bind (meets_flashBadBlock M faults start s)
    rintro rc t ⟨rfl, ht⟩
    rw [if_neg (by omega), bad_of_nor hnor, if_neg Bool.false_ne_true, hstart]
    apply Meets.bind (meets_mtdRead faults offset count t)
    rintro bytes t' ⟨rfl, ht'⟩
    rw [readLoop, if_neg (by omega)]
    apply meets_pure
    rw [ht', ht, Nat.zero_add]
    exact ⟨rfl, rfl⟩
  · have hzero : count = 0 := Nat.eq_zero_of_not_pos hpos
    rw [if_neg hpos]
    apply meets_pure
    rw [hzero]
    exact ⟨rfl, rfl⟩

/-- What `flash_read_buf` reads, from the good blocks of the area. -/
theorem meets_flashReadBuf (M : Mtd) (faults : Faults) (hB : 0 < dev.eraseSize)
    (hstart : alignDown dev.eraseSize offset = start) (hoffset : start + seek = offset)
    (hseek : seek < dev.eraseSize) (htop : start + n * dev.eraseSize = dev.topOfRange)
    (hlast : offset + count ≤ dev.topOfRange) (hrounds : n + 1 < rounds) (s : Flash) :
  Meets (flashReadBuf M faults dev rounds buf count offset) s
    (Faultless faults ∧ count ≤ (M.goodBlocks dev.eraseSize start n).length * dev.eraseSize - seek)
    fun r t => t.cells = s.cells
      ∧ count ≤ (M.goodBlocks dev.eraseSize start n).length * dev.eraseSize - seek
      ∧ r = (count, store buf 0 (((area s.cells dev.eraseSize
        (M.goodBlocks dev.eraseSize start n)).drop seek).take count))
  := by
  have hrest : offset - start = seek := by omega
  rw [flashReadBuf, hstart]
  dsimp only
  rw [hrest]
  cases htype : M.mtdType with
  | nandFlash =>
    dsimp only
    apply meets_readLoop M faults hB hseek (Nat.zero_le _) (by omega) _ htop
    split_ifs <;> omega
  | norFlash =>
    have harea := congrArg List.length (area_of_nor htype s.cells dev.eraseSize start n)
    rw [length_area, length_read] at harea
    apply (meets_readLoop_nor htype faults hoffset (by omega) s).mono And.left
    rintro r t ⟨ht, rfl⟩
    rw [area_of_nor htype, take_drop_read _ (by omega), hoffset, harea]
    refine ⟨ht, ?_, rfl⟩
    omega

/-! ### Writing -/

/-- Some blocks erased and written. -/
def eraseBlocks (data : ℕ → Byte) (B : ℕ) : ℕ → List ℕ → (ℕ → Byte) → ℕ → Byte
  | _, [], cells => cells
  | processed, block :: blocks, cells =>
    eraseBlocks data B (processed + B) blocks (eraseWritten cells block (read data processed B))

/-- Some blocks with the data in them. -/
def rewrite (data : ℕ → Byte) (B : ℕ) : ℕ → List ℕ → (ℕ → Byte) → ℕ → Byte
  | _, [], cells => cells
  | processed, block :: blocks, cells =>
    rewrite data B (processed + B) blocks (store cells block (read data processed B))

/-- One block after the other is written. -/
theorem meets_writeLoop (M : Mtd) (faults : Faults) (data : ℕ → Byte) {topOfRange m : ℕ}
    (hB : 0 < B) (hleft : processed + m * B = writeTotal) (hrounds : n < rounds)
    (htop : start + n * B = topOfRange) (s : Flash) :
  Meets (writeLoop M faults B B topOfRange writeTotal data rounds processed start) s
    (Faultless faults ∧ m ≤ (M.goodBlocks B start n).length)
    fun _ t => m ≤ (M.goodBlocks B start n).length
      ∧ t.cells = eraseBlocks data B processed ((M.goodBlocks B start n).take m) s.cells
  := by
  induction rounds generalizing n m processed start s with
  | zero => exact absurd hrounds (Nat.not_lt_zero n)
  | succ rounds ih =>
    rw [writeLoop]
    cases m with
    | zero =>
      rw [Nat.zero_mul, Nat.add_zero] at hleft
      rw [if_neg (by omega)]
      apply meets_pure
      exact ⟨Nat.zero_le _, rfl⟩
    | succ m =>
      rw [Nat.succ_mul] at hleft
      rw [if_pos (by omega)]
      apply Meets.bind ((meets_flashBadBlock M faults start s).mono And.left fun _ _ h => h)
      rintro rc t ⟨rfl, ht⟩
      cases n with
      | zero =>
        rw [Nat.zero_mul, Nat.add_zero] at htop
        rw [if_pos (by omega)]
        apply meets_fail
        rintro ⟨_, henough⟩
        exact Nat.not_succ_le_zero m henough
      | succ n =>
        rw [Nat.succ_mul] at htop
        rw [if_neg (by omega)]
        cases hbad : M.bad start with
        | true =>
          rw [if_pos rfl, goodBlocks_of_bad hbad, ← ht]
          apply ih (m := m + 1) _ (by omega) (by omega)
          rw [Nat.succ_mul]
          exact hleft
        | false =>
          rw [if_neg Bool.false_ne_true, goodBlocks_of_good hbad, List.length_cons]
          apply meets_eraseWrite faults start B _ (length_read ..) t And.left
          intro t' ht'
          apply (ih (n := n) (m := m) (by omega) (by omega) (by omega) t').mono
          · rintro ⟨hfaultless, henough⟩
            exact ⟨hfaultless, Nat.le_of_succ_le_succ henough⟩
          · rintro _ u ⟨henough, hu⟩
            rw [hu, ht', ht]
            exact ⟨Nat.succ_le_succ henough, rfl⟩

/-- Blocks at addresses of 32 bits hold the data then. -/
theorem eraseBlocks_eq (data : ℕ → Byte) (hB : B < 2 ^ 32) (h : ∀ block ∈ blocks, block < 2 ^ 32)
    (processed : ℕ) (cells : ℕ → Byte) :
  eraseBlocks data B processed blocks cells = rewrite data B processed blocks cells
  := by
  induction blocks generalizing processed cells with
  | nil => rfl
  | cons block blocks ih =>
    rw [List.forall_mem_cons] at h
    rw [eraseBlocks, rewrite, eraseWritten_eq h.1 (by rwa [length_read]), ih h.2]

/-- Behind the addresses of 32 bits, an erased byte before them stays. -/
theorem eraseBlocks_of_le (data : ℕ → Byte) {q : ℕ} (hq : q < 2 ^ 32)
    (h : ∀ block ∈ blocks, 2 ^ 32 ≤ block) (processed : ℕ) (hcells : cells q = 0xff) :
  eraseBlocks data B processed blocks cells q = 0xff
  := by
  induction blocks generalizing processed cells with
  | nil => exact hcells
  | cons block blocks ih =>
    rw [List.forall_mem_cons] at h
    rw [eraseBlocks]
    exact ih h.2 _ (eraseWritten_wrong h.1 hq (.inl hcells))

/-- If a block is there, some other byte is erased. -/
theorem exists_erased (data : ℕ → Byte) (hpos : 0 < B) (hB : B < 2 ^ 32)
    (hapart : blocks.Pairwise fun b b' => b + B ≤ b') {block : ℕ} (hblock : block ∈ blocks)
    (hle : 2 ^ 32 ≤ block) (processed : ℕ) (cells : ℕ → Byte) :
  ∃ q, eraseBlocks data B processed blocks cells q = 0xff
  := by
  induction blocks generalizing processed cells with
  | nil => cases hblock
  | cons b blocks ih =>
    rw [List.pairwise_cons] at hapart
    rw [eraseBlocks]
    obtain hlt | hge := Nat.lt_or_ge b (2 ^ 32)
    · obtain rfl | hblock := List.mem_cons.mp hblock
      · omega
      · exact ih hapart.2 hblock _ _
    · have hq : b % 2 ^ 32 < 2 ^ 32 := Nat.mod_lt _ (by decide)
      refine ⟨b % 2 ^ 32, eraseBlocks_of_le data hq ?_ _ (eraseWritten_wrong hge hq ?_)⟩
      · intro b' hb'
        have hnext := hapart.1 b' hb'
        omega
      · rw [length_read, Nat.mod_eq_of_lt hB]
        exact .inr ⟨le_rfl, by omega⟩

/-- A byte of the first block, and those behind it. -/
theorem place_cons {block p : ℕ} (hB : 0 < B) :
  place B (block :: blocks) p = if p < B then block + p else place B blocks (p - B)
  := by
  rw [place, place]
  by_cases hp : p < B
  · rw [if_pos hp, Nat.div_eq_of_lt hp, Nat.mod_eq_of_lt hp]
    rfl
  · have hsplit : p = p - B + B := (Nat.sub_add_cancel (Nat.le_of_not_lt hp)).symm
    have hdiv : p / B = (p - B) / B + 1 := by
      conv_lhs => rw [hsplit]
      exact Nat.add_div_right _ hB
    have hmod : p % B = (p - B) % B := by
      conv_lhs => rw [hsplit]
      exact Nat.add_mod_right _ _
    rw [if_neg hp, hdiv, hmod, List.getD_cons_succ]

/-- What is in a block has a place. -/
theorem exists_place (hB : 0 < B) {block q : ℕ} (hblock : block ∈ blocks) (hle : block ≤ q)
    (hlt : q < block + B) :
  ∃ p < blocks.length * B, place B blocks p = q
  := by
  obtain ⟨i, hi, rfl⟩ := List.mem_iff_getElem.mp hblock
  have hrest : q - blocks[i] < B := by omega
  have hdiv : (i * B + (q - blocks[i])) / B = i := by
    rw [Nat.mul_comm, Nat.mul_add_div hB, Nat.div_eq_of_lt hrest, Nat.add_zero]
  have hmod : (i * B + (q - blocks[i])) % B = q - blocks[i] := by
    rw [Nat.mul_comm, Nat.mul_add_mod, Nat.mod_eq_of_lt hrest]
  have hmul := Nat.mul_le_mul_right B (Nat.succ_le_of_lt hi)
  rw [Nat.succ_mul] at hmul
  refine ⟨i * B + (q - blocks[i]), by omega, ?_⟩
  rw [place, hdiv, hmod, List.getD_eq_getElem?_getD, List.getElem?_eq_getElem hi, Option.getD_some]
  omega

/-- Bytes outside the blocks stay. -/
theorem rewrite_of_notMem (data : ℕ → Byte) {q : ℕ}
    (hq : ∀ block ∈ blocks, q < block ∨ block + B ≤ q) (processed : ℕ) (cells : ℕ → Byte) :
  rewrite data B processed blocks cells q = cells q
  := by
  induction blocks generalizing processed cells with
  | nil => rfl
  | cons block blocks ih =>
    rw [List.forall_mem_cons] at hq
    rw [rewrite, ih hq.2]
    obtain hlt | hle := hq.1
    · exact store_of_lt _ hlt
    · apply store_of_le
      rwa [length_read]

/-- The data are in the blocks. -/
theorem rewrite_place (data : ℕ → Byte) (hB : 0 < B)
    (hapart : blocks.Pairwise fun b b' => b + B ≤ b') {p : ℕ} (hp : p < blocks.length * B)
    (processed : ℕ) (cells : ℕ → Byte) :
  rewrite data B processed blocks cells (place B blocks p) = data (processed + p)
  := by
  induction blocks generalizing processed cells p with
  | nil =>
    rw [List.length_nil, Nat.zero_mul] at hp
    exact absurd hp (Nat.not_lt_zero p)
  | cons block blocks ih =>
    rw [List.pairwise_cons] at hapart
    rw [List.length_cons, Nat.succ_mul] at hp
    rw [rewrite, place_cons hB]
    by_cases hlt : p < B
    · rw [if_pos hlt, rewrite_of_notMem]
      · have hlen : p < (read data processed B).length := by rwa [length_read]
        rw [store_add cells block hlen, getElem_read]
      · intro block' hblock'
        have hle := hapart.1 block' hblock'
        omega
    · rw [if_neg hlt, ih hapart.2 (by omega)]
      apply congrArg data
      omega

/-- The first blocks have the first places. -/
theorem place_take {m p : ℕ} (hB : 0 < B) (hp : p < m * B) :
  place B (blocks.take m) p = place B blocks p
  := by
  have hdiv : p / B < m := (Nat.div_lt_iff_lt_mul hB).mpr hp
  rw [place, place, List.getD_eq_getElem?_getD, List.getD_eq_getElem?_getD,
    List.getElem?_take_of_lt hdiv]

/-- A byte of the area is at its place. -/
theorem getElem_area (cells : ℕ → Byte) (hB : 0 < B) {p : ℕ}
    (hp : p < (area cells B blocks).length) :
  (area cells B blocks)[p] = cells (place B blocks p)
  := by
  induction blocks generalizing p with
  | nil => exact absurd hp (Nat.not_lt_zero p)
  | cons block blocks ih =>
    have hcons : area cells B (block :: blocks) = read cells block B ++ area cells B blocks := rfl
    rw [place_cons hB]
    by_cases hlt : p < B
    · rw [if_pos hlt, List.getElem_of_eq hcons, List.getElem_append_left (by rwa [length_read]),
        getElem_read]
    · have hge : (read cells block B).length ≤ p := by
        rw [length_read]
        exact Nat.le_of_not_lt hlt
      rw [if_neg hlt, List.getElem_of_eq hcons, List.getElem_append_right hge, ih]
      apply congrArg cells
      rw [length_read]

/-! ### The call -/

theorem blocks_eq {m : ℕ} (h : dev.Numbers count offset n m) (M : Mtd) :
  M.blocks dev offset = M.goodBlocks dev.eraseSize (dev.eraseOffset offset) n
  := by
  rw [Mtd.blocks, h.len, Nat.mul_div_cancel _ h.pos]

/-- What should be in a byte of the sectors. -/
def wanted (M : Mtd) (dev : Envdev) (buf cells : ℕ → Byte) (count offset p : ℕ) : Byte :=
  if dev.blockSeek offset ≤ p ∧ p < dev.blockSeek offset + count then
    buf (p - dev.blockSeek offset)
  else cells (place dev.eraseSize (M.blocks dev offset) p)

/-- The environment is put over what was there. -/
theorem store_eq_wanted (heap buf : ℕ → Byte) {total p : ℕ}
    (henough : total ≤ (M.blocks dev offset).length * dev.eraseSize - 0) (hp : p < total) :
  store (store heap 0 (((area cells dev.eraseSize (M.blocks dev offset)).drop 0).take total))
      (dev.blockSeek offset) (read buf 0 count) p
    = wanted M dev buf cells count offset p
  := by
  rw [wanted]
  by_cases hin : dev.blockSeek offset ≤ p ∧ p < dev.blockSeek offset + count
  · obtain ⟨i, rfl⟩ := Nat.exists_eq_add_of_le hin.1
    have hi : i < (read buf 0 count).length := by
      rw [length_read]
      omega
    rw [if_pos hin, store_add _ _ hi, getElem_read, Nat.zero_add, Nat.add_sub_cancel_left]
  · have hpos : 0 < dev.eraseSize := by
      by_contra hzero
      rw [Nat.eq_zero_of_not_pos hzero, Nat.mul_zero] at henough
      omega
    have hout : store (store heap 0
          (((area cells dev.eraseSize (M.blocks dev offset)).drop 0).take total))
        (dev.blockSeek offset) (read buf 0 count) p
        = store heap 0
          (((area cells dev.eraseSize (M.blocks dev offset)).drop 0).take total) p := by
      obtain hlt | hge := Nat.lt_or_ge p (dev.blockSeek offset)
      · exact store_of_lt _ hlt
      · apply store_of_le
        rw [length_read]
        omega
    have hlen :
        p < (((area cells dev.eraseSize (M.blocks dev offset)).drop 0).take total).length := by
      rw [List.length_take, List.drop_zero, length_area]
      omega
    rw [if_neg hin, hout, store_zero_of_lt heap hlen, List.getElem_take, List.getElem_drop,
      getElem_area _ hpos, Nat.zero_add]

/-- The data for whole sectors: those of the environment, and what was there before. -/
theorem meets_collect {m : ℕ} (h : dev.Numbers count offset n m) (M : Mtd) (faults : Faults)
    (hrounds : dev.envSectors + 2 ≤ rounds) (heap buf : ℕ → Byte) (s : Flash) :
  Meets (collect M faults dev rounds heap buf count offset) s
    (Faultless faults ∧ m ≤ (M.blocks dev offset).length)
    fun data t => t.cells = s.cells
      ∧ (∀ p < m * dev.eraseSize, data p = wanted M dev buf s.cells count offset p)
      ∧ ∀ p, m * dev.eraseSize ≤ p → data p = heap p ∨ data p = buf p
  := by
  have hfew := h.few
  have htop := h.top
  have hcovers := h.covers
  have hpos := h.pos
  rw [collect, h.total]
  by_cases hmore : m * dev.eraseSize > count
  · rw [if_pos hmore]
    have hfits := Nat.mul_le_mul_right dev.eraseSize h.fits
    have hread : Meets (flashReadBuf M faults dev rounds heap (m * dev.eraseSize)
        (dev.eraseOffset offset)) s _ _ :=
      meets_flashReadBuf M faults hpos h.again (Nat.add_zero _) hpos htop (by omega) (by omega) s
    rw [← blocks_eq h] at hread
    apply Meets.bind (hread.mono _ fun _ _ hr => hr)
    · rintro r t ⟨ht, henough, rfl⟩
      rw [if_neg (not_not_intro rfl)]
      apply meets_pure
      refine ⟨ht, fun p hp => store_eq_wanted heap buf henough hp, ?_⟩
      intro p hp
      left
      apply (store_of_le _ _).trans (store_of_le _ _)
      · rw [length_read]
        omega
      · rw [List.length_take]
        omega
    · rintro ⟨hfaultless, henough⟩
      have hmul := Nat.mul_le_mul_right dev.eraseSize henough
      exact ⟨hfaultless, hmul⟩
  · rw [if_neg hmore]
    apply meets_pure
    refine ⟨rfl, ?_, fun p _ => .inr rfl⟩
    intro p hp
    rw [wanted, if_pos (by omega)]
    apply congrArg buf
    omega

/-- The sectors that were written hold the data, and nothing else has changed. -/
theorem written_of_rewrite {m : ℕ} (h : dev.Numbers count offset n m)
    (hdata : ∀ p < m * dev.eraseSize, data p = wanted M dev buf cells count offset p)
    (henough : m ≤ (M.blocks dev offset).length) :
  M.Written dev buf count offset cells
    (rewrite data dev.eraseSize 0 ((M.blocks dev offset).take m) cells)
  := by
  have hcovers := h.covers
  have hlen : ((M.blocks dev offset).take m).length = m := by
    rw [List.length_take, Nat.min_eq_left henough]
  have hapart : ((M.blocks dev offset).take m).Pairwise fun b b' => b + dev.eraseSize ≤ b' := by
    rw [blocks_eq h]
    exact (pairwise_goodBlocks ..).sublist (List.take_sublist ..)
  have hplace : ∀ p < m * dev.eraseSize,
      rewrite data dev.eraseSize 0 ((M.blocks dev offset).take m) cells
        (place dev.eraseSize (M.blocks dev offset) p) = wanted M dev buf cells count offset p := by
    intro p hp
    rw [← place_take h.pos hp, rewrite_place data h.pos hapart (by rwa [hlen]), Nat.zero_add,
      hdata p hp]
  constructor
  · intro i hi
    rw [Mtd.address, hplace _ (by omega), wanted, if_pos (by omega), Nat.add_sub_cancel_left]
  · intro q hq
    by_cases hin : ∃ block ∈ (M.blocks dev offset).take m, block ≤ q ∧ q < block + dev.eraseSize
    · obtain ⟨block, hblock, hle, hlt⟩ := hin
      obtain ⟨p, hp, rfl⟩ := exists_place h.pos hblock hle hlt
      rw [hlen] at hp
      rw [place_take h.pos hp] at hq ⊢
      rw [hplace p hp, wanted, if_neg]
      rintro ⟨hge, hlt⟩
      apply hq (p - dev.blockSeek offset) (by omega)
      rw [Mtd.address, Nat.add_sub_cancel' hge]
    · apply rewrite_of_notMem
      intro block hblock
      by_contra hnot
      exact hin ⟨block, hblock, by omega, by omega⟩

/-- What was written is read back. -/
theorem meets_readBack {m : ℕ} (h : dev.Numbers count offset n m)
    (hlast : offset + count ≤ dev.topOfRange) (hrounds : dev.envSectors + 2 ≤ rounds)
    (henough : m ≤ (M.blocks dev offset).length) {cells' : ℕ → Byte}
    (hwritten : M.Written dev buf count offset cells cells') (buf' : ℕ → Byte) (calls : ℕ) :
  Meets (flashReadBuf M faults dev rounds buf' count offset) ⟨cells', calls⟩ (Faultless faults)
    fun r t => r = (count, store buf' 0 (read buf 0 count)) ∧ t.cells = cells'
  := by
  have hfew := h.few
  have hcovers := h.covers
  have hmul := Nat.mul_le_mul_right dev.eraseSize henough
  have hread : Meets (flashReadBuf M faults dev rounds buf' count offset) ⟨cells', calls⟩ _ _ :=
    meets_flashReadBuf M faults h.pos rfl h.start h.seek h.top hlast (by omega) ⟨cells', calls⟩
  have hblocks := blocks_eq h M
  rw [Envdev.eraseOffset] at hblocks
  rw [← hblocks] at hread
  apply hread.mono
  · exact fun hfaultless => ⟨hfaultless, by omega⟩
  · rintro r t ⟨ht, hcount, rfl⟩
    refine ⟨?_, ht⟩
    apply congrArg (Prod.mk count)
    apply congrArg (store buf' 0)
    apply List.ext_getElem
    · rw [List.length_take, List.length_drop, length_area, length_read]
      exact Nat.min_eq_left hcount
    · intro i _ hi
      rw [length_read] at hi
      rw [List.getElem_take, List.getElem_drop, getElem_area _ h.pos, getElem_read, Nat.zero_add]
      exact hwritten.data i hi

/-- There are as many good blocks as the bytes need. -/
theorem le_of_enough {m : ℕ} (h : dev.Numbers count offset n m)
    (henough : M.Enough dev count offset) :
  m ≤ (M.blocks dev offset).length
  := by
  have hleast := h.least
  rw [Mtd.Enough] at henough
  apply Nat.le_of_lt_succ
  apply Nat.lt_of_mul_lt_mul_right (a := dev.eraseSize)
  rw [Nat.succ_mul]
  omega

/-- A call that writes one sector at a time, or nothing. -/
theorem meets_flashWriteBuf {m : ℕ} (h : dev.Numbers count offset n m)
    (hone : m = 0 ∨ (if M.mtdType = .nandFlash then dev.eraseSize else dev.eraseLen offset)
      = dev.eraseSize)
    (faults : Faults) (hrounds : dev.envSectors + 2 ≤ rounds) (heap buf : ℕ → Byte) (s : Flash) :
  Meets (flashWriteBuf M faults dev rounds heap buf count offset) s
    (Faultless faults ∧ M.Enough dev count offset)
    fun _ t => m ≤ (M.blocks dev offset).length ∧ ∃ data : ℕ → Byte,
      (∀ p < m * dev.eraseSize, data p = wanted M dev buf s.cells count offset p)
        ∧ t.cells = eraseBlocks data dev.eraseSize 0 ((M.blocks dev offset).take m) s.cells
  := by
  have hfew := h.few
  have hgood : Faultless faults ∧ M.Enough dev count offset →
      Faultless faults ∧ m ≤ (M.blocks dev offset).length :=
    And.imp_right (le_of_enough h)
  rw [flashWriteBuf]
  apply Meets.bind ((meets_collect h M faults hrounds heap buf s).mono hgood fun _ _ hd => hd)
  rintro data t ⟨ht, hdata, -⟩
  have hloop : Meets (writeLoop M faults dev.eraseSize
      (if M.mtdType = .nandFlash then dev.eraseSize else dev.eraseLen offset) dev.topOfRange
      (dev.writeTotal count offset) data rounds 0 (dev.eraseOffset offset)) t
      (Faultless faults ∧ m ≤ (M.blocks dev offset).length) fun _ u =>
        m ≤ (M.blocks dev offset).length
          ∧ u.cells = eraseBlocks data dev.eraseSize 0 ((M.blocks dev offset).take m) t.cells := by
    obtain rfl | hsize := hone
    · obtain ⟨rounds, rfl⟩ := Nat.exists_eq_add_of_lt (Nat.lt_of_lt_of_le (Nat.succ_pos _) hrounds)
      rw [writeLoop, h.total, Nat.zero_mul, if_neg (Nat.lt_irrefl 0)]
      apply meets_pure
      exact ⟨Nat.zero_le _, rfl⟩
    · rw [hsize, h.total, blocks_eq h]
      exact meets_writeLoop M faults data h.pos (Nat.zero_add _) (by omega) h.top t
  apply hloop.mono hgood
  rintro _ u ⟨henough, hu⟩
  rw [ht] at hu
  exact ⟨henough, data, hdata, hu⟩

/-- The blocks begin at multiples of their size. -/
theorem dvd_of_mem_blocks {m block : ℕ} (h : dev.Numbers count offset n m)
    (hblock : block ∈ M.blocks dev offset) :
  dev.eraseSize ∣ block
  := by
  rw [blocks_eq h] at hblock
  obtain ⟨k, -, rfl⟩ := List.mem_map.mp (List.mem_filter.mp hblock).1
  exact Nat.dvd_add h.dvd (Nat.dvd_mul_left _ _)

/-- The blocks that are written are at addresses of 32 bits. -/
theorem addressable_iff {m : ℕ} (h : dev.Numbers count offset n m) :
  M.Addressable dev count offset
    ↔ (M.Enough dev count offset → ∀ block ∈ (M.blocks dev offset).take m, block < 2 ^ 32)
  := by
  have hpos := h.pos
  have hcovers := h.covers
  have hleast := h.least
  refine forall_congr' fun henough => ?_
  have hlen := le_of_enough h henough
  constructor
  · intro hall block hblock
    obtain ⟨i, hi, rfl⟩ := List.mem_iff_getElem.mp hblock
    rw [List.length_take, Nat.min_eq_left hlen] at hi
    have hmul := Nat.mul_le_mul_right dev.eraseSize (Nat.succ_le_of_lt hi)
    rw [Nat.succ_mul] at hmul
    have hplace := hall (i * dev.eraseSize) (by omega)
    rwa [place, Nat.mul_div_cancel _ hpos, Nat.mul_mod_left, Nat.add_zero,
      List.getD_eq_getElem _ _ (by omega), ← List.getElem_take] at hplace
  · intro hall p hp
    have hdiv : p / dev.eraseSize < m := (Nat.div_lt_iff_lt_mul hpos).mpr (by omega)
    have hlt : p / dev.eraseSize < (M.blocks dev offset).length := by omega
    have hmem : (M.blocks dev offset)[p / dev.eraseSize] ∈ (M.blocks dev offset).take m := by
      rw [List.mem_take_iff_getElem]
      exact ⟨p / dev.eraseSize, by omega, rfl⟩
    have hblock := hall _ hmem
    obtain ⟨a, ha⟩ := dvd_of_mem_blocks h (List.mem_of_mem_take hmem)
    obtain ⟨b, hb⟩ := h.divides
    have hmod := Nat.mod_lt p hpos
    rw [place, List.getD_eq_getElem _ _ hlt, ha]
    rw [ha, hb] at hblock
    have hab : a + 1 ≤ b := Nat.lt_of_mul_lt_mul_left hblock
    have hmul := Nat.mul_le_mul_left dev.eraseSize hab
    rw [Nat.mul_succ] at hmul
    omega

/-- A call that writes one sector at a time, or nothing, below 4 GiB. -/
theorem writesRight_of {m : ℕ} (h : dev.Numbers count offset n m)
    (hlast : offset + count ≤ dev.topOfRange)
    (hone : m = 0 ∨ (if M.mtdType = .nandFlash then dev.eraseSize else dev.eraseLen offset)
      = dev.eraseSize)
    (hlow : m ≤ (M.blocks dev offset).length → ∀ block ∈ (M.blocks dev offset).take m,
      block < 2 ^ 32) :
  M.WritesRight dev count offset
  := by
  intro faults rounds heap buf s hrounds
  apply (meets_flashWriteBuf h hone faults hrounds heap buf s).mono id
  rintro _ u ⟨henough, data, hdata, hu⟩
  rw [eraseBlocks_eq data h.small (hlow henough)] at hu
  have hwritten : M.Written dev buf count offset s.cells u.cells := by
    rw [hu]
    exact written_of_rewrite h hdata henough
  refine ⟨hwritten, ?_⟩
  intro faults' buf' calls
  exact meets_readBack h hlast hrounds henough hwritten buf' calls

/-- Above, another block is erased. -/
theorem not_writesRight_high {m : ℕ} (h : dev.Numbers count offset n m)
    (hone : (if M.mtdType = .nandFlash then dev.eraseSize else dev.eraseLen offset)
      = dev.eraseSize)
    (henough : M.Enough dev count offset) {block : ℕ}
    (hblock : block ∈ (M.blocks dev offset).take m) (hle : 2 ^ 32 ≤ block) :
  ¬ M.WritesRight dev count offset
  := by
  intro hright
  -- zeros in the device, and zeros to write
  have hcall := hright (fun _ => none) (dev.envSectors + 2) (fun _ => 0) (fun _ => 0)
    ⟨fun _ => 0, 0⟩ le_rfl
  have hdone := meets_flashWriteBuf h (.inr hone) (fun _ => none) le_rfl (fun _ => 0) (fun _ => 0)
    ⟨fun _ => 0, 0⟩
  obtain ⟨a, t, hok, hwritten, -⟩ := hcall.exists_ok ⟨fun _ => rfl, henough⟩
  obtain ⟨-, data, -, ht⟩ := hdone.of_ok hok
  have hapart : ((M.blocks dev offset).take m).Pairwise fun b b' => b + dev.eraseSize ≤ b' := by
    rw [blocks_eq h]
    exact (pairwise_goodBlocks ..).sublist (List.take_sublist ..)
  obtain ⟨q, hq⟩ := exists_erased data h.pos h.small hapart hblock hle 0 fun _ => 0
  rw [← ht] at hq
  have hne : (0 : Byte) ≠ 0xff := by decide
  by_cases hin : ∃ i < count, q = M.address dev offset i
  · obtain ⟨i, hi, rfl⟩ := hin
    exact hne ((hwritten.data i hi).symm.trans hq)
  · have hframe := hwritten.frame q fun i hi heq => hin ⟨i, hi, heq⟩
    exact hne (hframe.symm.trans hq)

/-- On a NOR device with more sectors, the loop ends after a sector, and everything is written. -/
theorem meets_writeLoop_nor {m : ℕ} (h : dev.Numbers count offset n m)
    (hnor : M.mtdType = .norFlash) (hm : m ≠ 0) (hrounds : 1 < rounds)
    (faults : Faults) (data : ℕ → Byte) (s : Flash) :
  Meets (writeLoop M faults dev.eraseSize (dev.eraseLen offset) dev.topOfRange
      (dev.writeTotal count offset) data rounds 0 (dev.eraseOffset offset)) s False
    fun _ t => m = 1
      ∧ t.cells = eraseWritten s.cells (dev.eraseOffset offset)
        (read data 0 (dev.eraseLen offset))
  := by
  have hpos := h.pos
  have htop := h.top
  have hlen := h.len
  have hbad := bad_of_nor hnor
  obtain ⟨rounds, rfl⟩ := Nat.exists_eq_add_of_lt hrounds
  have hsucc : 1 + rounds + 1 = rounds + 1 + 1 := by omega
  have htotal : 0 < m * dev.eraseSize := Nat.mul_pos (Nat.pos_of_ne_zero hm) hpos
  rw [hsucc, h.total, writeLoop, if_pos htotal]
  apply Meets.bind ((meets_flashBadBlock ..).mono False.elim fun _ _ hr => hr)
  rintro rc t ⟨rfl, ht⟩
  rw [if_neg (by omega), hbad, if_neg Bool.false_ne_true]
  apply meets_eraseWrite faults _ _ _ (length_read ..) t False.elim
  intro u hu
  rw [writeLoop, Nat.zero_add]
  by_cases hmore : dev.eraseSize < m * dev.eraseSize
  · rw [if_pos hmore]
    apply Meets.bind ((meets_flashBadBlock ..).mono False.elim fun _ _ hr => hr)
    rintro rc v ⟨rfl, hv⟩
    rw [if_pos (by omega)]
    exact meets_fail not_false
  · rw [if_neg hmore]
    apply meets_pure
    have hone : m ≤ 1 := by
      by_contra htwo
      have hmul := Nat.mul_le_mul_right dev.eraseSize (Nat.lt_of_not_le htwo)
      rw [Nat.succ_mul, Nat.one_mul] at hmul
      omega
    rw [hu, ht]
    exact ⟨Nat.le_antisymm hone (Nat.one_le_iff_ne_zero.mpr hm), rfl⟩

/-- The sector behind the first one gets what is in memory. -/
theorem not_writesRight {m : ℕ} (h : dev.Numbers count offset n m) (hnor : M.mtdType = .norFlash)
    (hm : m ≠ 0) (hn : 1 < n) :
  ¬ M.WritesRight dev count offset
  := by
  intro hright
  have hpos := h.pos
  have hcovers := h.covers
  have hfits := Nat.mul_le_mul_right dev.eraseSize h.fits
  have hlength := congrArg List.length
    (area_of_nor hnor (fun _ => 0) dev.eraseSize (dev.eraseOffset offset) n)
  rw [length_area, length_read, ← blocks_eq h] at hlength
  have henough : M.Enough dev count offset := by
    rw [Mtd.Enough, hlength]
    omega
  -- an erased chip, and other bytes in memory
  have hcall := hright (fun _ => none) (dev.envSectors + 2) (fun _ => 1) (fun _ => 1)
    ⟨fun _ => 0xff, 0⟩ le_rfl
  have hdone : Meets (flashWriteBuf M (fun _ => none) dev (dev.envSectors + 2) (fun _ => 1)
      (fun _ => 1) count offset) ⟨fun _ => 0xff, 0⟩ False
      fun _ t => m = 1 ∧ t.cells (dev.eraseOffset offset + dev.eraseSize) = 1 := by
    rw [flashWriteBuf]
    apply Meets.bind ((meets_collect h M _ le_rfl _ _ _).mono False.elim fun _ _ hd => hd)
    rintro data t ⟨ht, -, hbehind⟩
    have htype : M.mtdType ≠ .nandFlash := by
      rw [hnor]
      decide
    rw [if_neg htype]
    apply (meets_writeLoop_nor h hnor hm (by omega) _ data t).mono id
    rintro _ u ⟨rfl, hu⟩
    have htwo := Nat.mul_le_mul_right dev.eraseSize hn
    rw [Nat.succ_mul, Nat.one_mul] at htwo
    have hi : dev.eraseSize < (read data 0 (dev.eraseLen offset)).length := by
      rw [length_read, h.len]
      omega
    have herased : ∀ a b q, erased t.cells a b q = 0xff := by
      intro a b q
      rw [erased, ht]
      exact ite_self _
    refine ⟨rfl, ?_⟩
    rw [hu, eraseWritten, programmed_of_blank fun q _ _ => herased _ _ q, store_add _ _ hi, getElem_read,
      Nat.zero_add]
    obtain hdata | hdata := hbehind dev.eraseSize (Nat.le_of_eq (Nat.one_mul _))
    · exact hdata
    · exact hdata
  obtain ⟨a, t, hok, hwritten, -⟩ := hcall.exists_ok ⟨fun _ => rfl, henough⟩
  obtain ⟨rfl, hone⟩ := hdone.of_ok hok
  have hframe := hwritten.frame (dev.eraseOffset offset + dev.eraseSize) <| by
    intro i hi
    obtain ⟨n, rfl⟩ := Nat.exists_eq_add_of_lt hn
    rw [Mtd.address, blocks_eq h, goodBlocks_of_good (bad_of_nor hnor _), place_cons hpos,
      if_pos (by omega)]
    omega
  have hne : (1 : Byte) ≠ 0xff := by decide
  rw [hone] at hframe
  exact hne hframe

/-- **The environment is written, and nothing else**, if and only if there is nothing to write, or
the device is a NAND or the data begin in the last sector of the area, and the sectors are at
addresses of 32 bits. -/
theorem writesRight_iff (M : Mtd) (h : dev.Holds count offset) :
  M.WritesRight dev count offset
    ↔ (count = 0 ∧ dev.eraseSize ∣ offset)
      ∨ (M.mtdType = .nandFlash ∨ dev.LastSector offset) ∧ M.Addressable dev count offset
  := by
  obtain ⟨n, m, hn⟩ := h.numbers
  have hpos := hn.pos
  have hstart := hn.start
  have hseek := hn.seek
  have htop := hn.top
  have hcovers := hn.covers
  have hleast := hn.least
  have hfits := hn.fits
  have hnothing : m = 0 ↔ count = 0 ∧ dev.eraseSize ∣ offset := by
    constructor
    · rintro rfl
      have hzero : dev.blockSeek offset = 0 ∧ count = 0 := by omega
      rw [← hstart, hzero.1, Nat.add_zero]
      exact ⟨hzero.2, hn.dvd⟩
    · rintro ⟨rfl, hdvd⟩
      rw [← hstart, Nat.dvd_add_right hn.dvd] at hdvd
      rw [Nat.eq_zero_of_dvd_of_lt hdvd hseek, Nat.add_zero, Nat.zero_add] at hleast
      by_contra hm
      have hmul := Nat.mul_le_mul_right dev.eraseSize (Nat.one_le_iff_ne_zero.mpr hm)
      omega
  have hsector : n ≤ 1 ↔ dev.LastSector offset := by
    rw [Envdev.LastSector]
    constructor
    · intro hone
      have hmul := Nat.mul_le_mul_right dev.eraseSize hone
      omega
    · intro hlast
      by_contra htwo
      have hmul := Nat.mul_le_mul_right dev.eraseSize (Nat.lt_of_not_le htwo)
      rw [Nat.succ_mul] at hmul
      omega
  have hone : m ≠ 0 → M.mtdType = .nandFlash ∨ n ≤ 1 →
      (if M.mtdType = .nandFlash then dev.eraseSize else dev.eraseLen offset)
        = dev.eraseSize := by
    rintro hm (htype | hle)
    · exact if_pos htype
    · obtain rfl : n = 1 := by omega
      rw [hn.len, Nat.one_mul, ite_self]
  rw [← hnothing, ← hsector, addressable_iff hn]
  constructor
  · intro hright
    by_cases hm : m = 0
    · exact .inl hm
    right
    have htype : M.mtdType = .nandFlash ∨ n ≤ 1 := by
      by_contra hnone
      rw [not_or] at hnone
      have hnor : M.mtdType = .norFlash := by
        cases hmtd : M.mtdType with
        | norFlash => rfl
        | nandFlash => exact absurd hmtd hnone.1
      exact not_writesRight hn hnor hm (Nat.lt_of_not_le hnone.2) hright
    refine ⟨htype, fun henough block hblock => ?_⟩
    by_contra hle
    exact not_writesRight_high hn (hone hm htype) henough hblock (Nat.le_of_not_lt hle) hright
  · rintro (hm | ⟨htype, hlow⟩)
    · apply writesRight_of hn h.last (.inl hm)
      rw [hm]
      exact fun _ _ hblock => absurd hblock List.not_mem_nil
    · by_cases hm : m = 0
      · apply writesRight_of hn h.last (.inl hm)
        rw [hm]
        exact fun _ _ hblock => absurd hblock List.not_mem_nil
      · apply writesRight_of hn h.last (.inr (hone hm htype))
        intro hlen
        apply hlow
        have hmul := Nat.mul_le_mul_right dev.eraseSize hlen
        rw [Mtd.Enough]
        omega

/-- Four sectors of 16 KB. -/
def fourSectors : Envdev := ⟨0, 0x4000, 4⟩

theorem holds_fourSectors :
  fourSectors.Holds 0x8000 0
  := by
  constructor
  · exact ⟨14, by decide, rfl⟩
  · decide
  · decide

/-- A NAND device with a bad block in the middle of the environment. -/
theorem writesRight_iff_nand :
  Mtd.WritesRight ⟨.nandFlash, fun block => block == 0x4000⟩ fourSectors 0x8000 0
  := by
  apply (writesRight_iff _ holds_fourSectors).mpr
  right
  refine ⟨.inl rfl, fun _ p hp => ?_⟩
  have hblocks : Mtd.blocks ⟨.nandFlash, fun block => block == 0x4000⟩ fourSectors 0
      = [0, 0x8000, 0xc000] := by decide
  have hseek : fourSectors.blockSeek 0 = 0 := by decide
  rw [hseek] at hp
  rw [hblocks, place, fourSectors]
  dsimp only
  have hblock : [0, 0x8000, 0xc000].getD (p / 0x4000) 0 ≤ 0xc000 := by
    obtain hlt | hge := Nat.lt_or_ge (p / 0x4000) 3
    · interval_cases p / 0x4000 <;> decide
    · rw [List.getD_eq_default _ _ hge]
      decide
  omega

/-- A NOR device with the same area. -/
theorem not_writesRight_nor :
  ¬ ∀ (M : Mtd) (dev : Envdev) (count offset : ℕ), dev.Holds count offset →
    M.WritesRight dev count offset
  := by
  intro hall
  have hright := hall ⟨.norFlash, fun _ => false⟩ fourSectors 0x8000 0 holds_fourSectors
  obtain ⟨n, m, h⟩ := holds_fourSectors.numbers
  have hstart : fourSectors.eraseOffset 0 = 0 := by decide
  have hseek : fourSectors.blockSeek 0 = 0 := by decide
  have htop : fourSectors.topOfRange = 0x10000 := by decide
  have hsize : fourSectors.eraseSize = 0x4000 := rfl
  have hn := h.top
  have hm := h.covers
  rw [hstart, htop, hsize] at hn
  rw [hseek, hsize] at hm
  exact not_writesRight h rfl (by omega) (by omega) hright

end Fw

end Env
