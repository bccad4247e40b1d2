import UBoot.Lib.Logged
import UBoot.Lib.Memory

/-!
# Transfers to an EEPROM

`eeprom_read` and `eeprom_write` of `common/cmd_eeprom.c` with the driver of the bus,
`drivers/i2c/ppc4xx_i2c.c`, for the EEPROM of 1 KB that the Sam460ex has: addresses of one byte,
of which the upper bits are a part of the address of the chip, and pages of eight bytes to write.
-/

namespace Env

namespace Chip

open Logged Memory

/-- `I2C_RXTX_LEN`. -/
def i2cRxtxLen : ℕ := 128

/-- `EEPROM_PAGE_SIZE`, with `CONFIG_SYS_EEPROM_PAGE_WRITE_BITS`. -/
def eepromPageSize : ℕ := 1 <<< 3

/-! ### The bus -/

/-- A call of `i2c_transfer`: the byte for the chip, those of the address, the data, and what is
returned. -/
inductive Event where
  | write (chip : Byte) (addr data : List Byte) (status : ℤ)
  | read (chip : Byte) (addr : List Byte) (len : ℕ) (result : ℤ × List Byte)

/-- What is on the bus.  Its answers may depend on everything before. -/
structure Bus where
  write : Byte → List Byte → List Byte → List Event → ℤ
  read : Byte → List Byte → ℕ → List Event → ℤ × List Byte

/-- `i2c_write`, that is `ppc4xx_i2c_transfer`. -/
def i2cWrite (bus : Bus) (chip : Byte) (addr : Word) (alen : ℕ) (data : List Byte) :
    LogM Event ℕ :=
  if alen > 4 then pure 1
  else do
    let xaddr := (wordBytes addr).drop (4 - alen)
    let ret ← ask (bus.write (chip <<< 1) xaddr data) (.write (chip <<< 1) xaddr data)
    pure (if ret ≠ 0 then 1 else 0)

/-- `i2c_read`, and the bytes that it leaves in the buffer. -/
def i2cRead (bus : Bus) (chip : Byte) (addr : Word) (alen len : ℕ) : LogM Event (ℕ × List Byte) :=
  if alen > 4 then pure (1, [])
  else do
    let xaddr := (wordBytes addr).drop (4 - alen)
    let r ← ask (bus.read (chip <<< 1) xaddr len) (.read (chip <<< 1) xaddr len)
    pure (if r.1 ≠ 0 then 1 else 0, r.2)

/-! ### The two functions -/

/-- The bytes of one transfer: what is left, but no more than `maxlen` and a buffer. -/
def transferLen (maxlen left : ℕ) : ℕ :=
  let maxlen := if maxlen > i2cRxtxLen then i2cRxtxLen else maxlen
  if left > maxlen then maxlen else left

theorem transferLen_eq (maxlen left : ℕ) :
  transferLen maxlen left = min (min maxlen i2cRxtxLen) left
  := by
  dsimp only [transferLen]
  split_ifs <;> omega

theorem transferLen_le (maxlen left : ℕ) :
  transferLen maxlen left ≤ maxlen ∧ transferLen maxlen left ≤ left
    ∧ transferLen maxlen left ≤ i2cRxtxLen
  := by
  rw [transferLen_eq]
  omega

theorem transferLen_pos {maxlen left : ℕ} (hmax : 0 < maxlen) (hleft : 0 < left) :
  0 < transferLen maxlen left
  := by
  have hbuffer : 0 < i2cRxtxLen := by decide
  rw [transferLen_eq]
  omega

/-- The rest of a block, for `blk_off`. -/
def blockRest (offset : ℕ) : ℕ := 0x100 - (offset &&& 0xff)

/-- The rest of a page to write. -/
def pageRest (offset : ℕ) : ℕ :=
  eepromPageSize - ((offset &&& 0xff) &&& (eepromPageSize - 1))

theorem blockRest_eq (offset : ℕ) :
  blockRest offset = 256 - offset % 256
  := by
  rw [blockRest, Nat.and_two_pow_sub_one_eq_mod offset 8]

theorem pageRest_eq (offset : ℕ) :
  pageRest offset = 8 - offset % 8
  := by
  have hpage : eepromPageSize = 2 ^ 3 := rfl
  rw [pageRest, Nat.and_two_pow_sub_one_eq_mod offset 8, hpage, Nat.and_two_pow_sub_one_eq_mod]
  omega

theorem blockRest_pos (offset : ℕ) :
  0 < blockRest offset
  := by
  rw [blockRest_eq]
  omega

theorem pageRest_pos (offset : ℕ) :
  0 < pageRest offset
  := by
  rw [pageRest_eq]
  omega

/-- `addr[0]`. -/
def chipAddr (devAddr offset : ℕ) : Byte := UInt8.ofNat (offset >>> 8) ||| UInt8.ofNat devAddr

/-- The loop of `eeprom_read`, with what is in the memory from the buffer on. -/
def eepromReadLoop (bus : Bus) (devAddr stop offset : ℕ) (buffer : ℕ → Byte) (pos rcode : ℕ) :
    LogM Event (ℕ × (ℕ → Byte)) :=
  if offset < stop then do
    let len := transferLen (blockRest offset) (stop - offset)
    let r ← i2cRead bus (chipAddr devAddr offset) (BitVec.ofNat 32 offset) 1 len
    eepromReadLoop bus devAddr stop (offset + len) (store buffer pos r.2) (pos + len)
      (if r.1 ≠ 0 then 1 else rcode)
  else pure (rcode, buffer)
  termination_by stop - offset
  decreasing_by
    have hpos := transferLen_pos (blockRest_pos offset) (Nat.sub_pos_of_lt (by assumption))
    omega

/-- `eeprom_read`. -/
def eepromRead (bus : Bus) (devAddr offset : ℕ) (buffer : ℕ → Byte) (cnt : ℕ) :
    LogM Event (ℕ × (ℕ → Byte)) :=
  eepromReadLoop bus devAddr ((offset + cnt) % 2 ^ 32) offset buffer 0 0

/-- The loop of `eeprom_write`. -/
def eepromWriteLoop (bus : Bus) (devAddr stop offset : ℕ) (buffer : ℕ → Byte) (pos rcode : ℕ) :
    LogM Event ℕ :=
  if offset < stop then do
    let len := transferLen (pageRest offset) (stop - offset)
    let ret ← i2cWrite bus (chipAddr devAddr offset) (BitVec.ofNat 32 offset) 1
      (read buffer pos len)
    eepromWriteLoop bus devAddr stop (offset + len) buffer (pos + len)
      (if ret ≠ 0 then 1 else rcode)
  else pure rcode
  termination_by stop - offset
  decreasing_by
    have hpos := transferLen_pos (pageRest_pos offset) (Nat.sub_pos_of_lt (by assumption))
    omega

/-- `eeprom_write`. -/
def eepromWrite (bus : Bus) (devAddr offset : ℕ) (buffer : ℕ → Byte) (cnt : ℕ) :
    LogM Event ℕ :=
  eepromWriteLoop bus devAddr ((offset + cnt) % 2 ^ 32) offset buffer 0 0

/-! ### What the transfers should be -/

/-- Where a byte of the device is: the byte for the chip, and the address. -/
def place (devAddr o : ℕ) : ℕ × ℕ := (2 * (devAddr + o / 256), o % 256)

/-- The address that its bytes make up. -/
def addrNat (addr : List Byte) : ℕ := addr.foldl (fun n x => 256 * n + x.toNat) 0

/-- Bytes at consecutive addresses of a chip. -/
def consecutive (chip : ℕ) : ℕ → List Byte → List ((ℕ × ℕ) × Byte)
  | _, [] => []
  | addr, x :: data => ((chip, addr), x) :: consecutive chip (addr + 1) data

/-- What an event writes. -/
def Event.stores : Event → List ((ℕ × ℕ) × Byte)
  | .write chip addr data _ => consecutive chip.toNat (addrNat addr) data
  | .read .. => []

/-- What an event reads. -/
def Event.loads : Event → List (ℕ × ℕ)
  | .write .. => []
  | .read chip addr len _ => (List.range len).map fun k => (chip.toNat, addrNat addr + k)

/-- A write of some bytes in one page. -/
def Event.PageWrite : Event → Prop
  | .write _ addr data _ =>
    0 < data.length ∧ addrNat addr % 8 + data.length ≤ 8 ∧ data.length ≤ i2cRxtxLen
  | .read .. => False

/-- A read of some bytes in one block. -/
def Event.BlockRead : Event → Prop
  | .write .. => False
  | .read _ addr len _ => 0 < len ∧ addrNat addr + len ≤ 256 ∧ len ≤ i2cRxtxLen

/-- A transfer fails. -/
def Event.Failed : Event → Prop
  | .write _ _ _ status => status ≠ 0
  | .read _ _ _ result => result.1 ≠ 0

/-- The writes that put bytes to their places, each once, and the result. -/
structure Writes (devAddr offset cnt : ℕ) (buffer : ℕ → Byte) (ret : ℕ) (new : List Event) :
    Prop where
  stores : new.flatMap Event.stores
    = (List.range cnt).map fun i => (place devAddr (offset + i), buffer i)
  pages : ∀ e ∈ new, e.PageWrite
  status : ret ≠ 0 ↔ ∃ e ∈ new, e.Failed

/-- The reads of the bytes at their places, and the result. -/
structure Reads (devAddr offset cnt ret : ℕ) (new : List Event) : Prop where
  loads : new.flatMap Event.loads = (List.range cnt).map fun i => place devAddr (offset + i)
  blocks : ∀ e ∈ new, e.BlockRead
  status : ret ≠ 0 ↔ ∃ e ∈ new, e.Failed

variable {bus : Bus} {devAddr stop offset cnt pos rcode addr : ℕ} {buffer : ℕ → Byte}
  {data : List Byte} {n : ℕ}

/-! ### Where a transfer goes -/

theorem toNat_chipAddr (hdev : devAddr % 4 = 0) (hseven : devAddr < 128) (ho : offset < 1024) :
  (chipAddr devAddr offset <<< 1).toNat = 2 * (devAddr + offset / 256)
  := by
  have hblock : offset / 2 ^ 8 < 2 ^ 2 := by omega
  have hor : offset / 2 ^ 8 ||| devAddr = devAddr + offset / 2 ^ 8 := by
    have hsplit := Nat.two_pow_add_eq_or_of_lt hblock (devAddr / 4)
    have hdiv : 2 ^ 2 * (devAddr / 4) = devAddr := by omega
    rw [hdiv] at hsplit
    rw [Nat.or_comm, hsplit]
  have hblock' : offset / 2 ^ 8 % 2 ^ 8 = offset / 2 ^ 8 := Nat.mod_eq_of_lt (by omega)
  have hdev' : devAddr % 2 ^ 8 = devAddr := Nat.mod_eq_of_lt (by omega)
  have hchip : (chipAddr devAddr offset).toNat = devAddr + offset / 2 ^ 8 := by
    rw [chipAddr, Nat.shiftRight_eq_div_pow, UInt8.toNat_or, UInt8.toNat_ofNat', UInt8.toNat_ofNat',
      hblock', hdev', hor]
  have hone : (1 : Byte).toNat % 8 = 1 := rfl
  rw [UInt8.toNat_shiftLeft, hchip, hone, Nat.shiftLeft_eq]
  omega

theorem addrNat_xaddr (hlt : offset < 2 ^ 32) :
  addrNat ((wordBytes (BitVec.ofNat 32 offset)).drop (4 - 1)) = offset % 256
  := by
  have hbytes : (wordBytes (BitVec.ofNat 32 offset)).drop (4 - 1)
      = [UInt8.ofNat (BitVec.ofNat 32 offset).toNat] := rfl
  rw [hbytes, BitVec.toNat_ofNat, Nat.mod_eq_of_lt hlt]
  simp only [addrNat, List.foldl_cons, List.foldl_nil, UInt8.toNat_ofNat']
  omega

/-- Bytes in a block have consecutive places. -/
theorem place_add {k : ℕ} (h : offset % 256 + k < 256) :
  place devAddr (offset + k) = (2 * (devAddr + offset / 256), offset % 256 + k)
  := by
  have hdiv : (offset + k) / 256 = offset / 256 := by omega
  have hmod : (offset + k) % 256 = offset % 256 + k := by omega
  rw [place, hdiv, hmod]

theorem consecutive_read (chip addr : ℕ) (buffer : ℕ → Byte) (pos n : ℕ) :
  consecutive chip addr (read buffer pos n)
    = (List.range n).map fun k => ((chip, addr + k), buffer (pos + k))
  := by
  induction n generalizing addr pos with
  | zero => rfl
  | succ n ih =>
    rw [Memory.read, consecutive, ih, List.range_succ_eq_map, List.map_cons, List.map_map]
    apply congrArg₂ List.cons rfl
    apply List.map_congr_left
    intro k _
    have haddr : addr + 1 + k = addr + (k + 1) := by omega
    have hpos : pos + 1 + k = pos + (k + 1) := by omega
    rw [haddr, hpos]
    rfl

/-- The first bytes, and the rest of them. -/
theorem map_range_split {β : Type} (f : ℕ → β) (hle : n ≤ cnt) :
  (List.range cnt).map f
    = (List.range n).map f ++ (List.range (cnt - n)).map fun i => f (n + i)
  := by
  have hsum : cnt = n + (cnt - n) := (Nat.add_sub_cancel' hle).symm
  conv_lhs => rw [hsum, List.range_add, List.map_append, List.map_map]
  rfl

/-! ### The loops -/

theorem logs_i2cWrite (bus : Bus) (chip : Byte) (addr : Word) (data : List Byte) :
  Logs (i2cWrite bus chip addr 1 data) fun ret new => ∃ status,
    new = [.write (chip <<< 1) ((wordBytes addr).drop (4 - 1)) data status]
      ∧ (ret ≠ 0 ↔ status ≠ 0)
  := by
  rw [i2cWrite, if_neg (by decide)]
  apply Logs.bind (logs_ask fun status => rfl)
  rintro status _ rfl
  apply logs_pure
  refine ⟨status, List.append_nil _, ?_⟩
  split_ifs with hstatus
  · exact iff_of_true Nat.one_ne_zero hstatus
  · exact iff_of_false (not_not_intro rfl) hstatus

theorem logs_i2cRead (bus : Bus) (chip : Byte) (addr : Word) (len : ℕ) :
  Logs (i2cRead bus chip addr 1 len) fun r new => ∃ result,
    new = [.read (chip <<< 1) ((wordBytes addr).drop (4 - 1)) len result]
      ∧ (r.1 ≠ 0 ↔ result.1 ≠ 0)
  := by
  rw [i2cRead, if_neg (by decide)]
  apply Logs.bind (logs_ask fun result => rfl)
  rintro result _ rfl
  apply logs_pure
  refine ⟨result, List.append_nil _, ?_⟩
  split_ifs with hstatus
  · exact iff_of_true Nat.one_ne_zero hstatus
  · exact iff_of_false (not_not_intro rfl) hstatus

/-- The result remembers a failure. -/
theorem status_cons {e : Event} {new : List Event} {ret this : ℕ} (hthis : this ≠ 0 ↔ e.Failed)
    (hrest : ret ≠ 0 ↔ (if this ≠ 0 then 1 else rcode) ≠ 0 ∨ ∃ e ∈ new, e.Failed) :
  ret ≠ 0 ↔ rcode ≠ 0 ∨ ∃ e' ∈ e :: new, e'.Failed
  := by
  rw [hrest, List.exists_mem_cons_iff, ← hthis]
  by_cases h : this = 0
  · rw [if_neg (not_not_intro h)]
    exact or_congr_right (or_iff_right (not_not_intro h)).symm
  · rw [if_pos h]
    exact iff_of_true (.inl Nat.one_ne_zero) (.inr (.inl h))

section Transfers

variable {len : ℕ} (hdev : devAddr % 4 = 0) (hseven : devAddr < 128) (hlt : offset < 1024)

include hdev hseven hlt

theorem stores_write (hpage : len ≤ 8 - offset % 8) (buffer : ℕ → Byte) (pos : ℕ) (status : ℤ) :
  (Event.write (chipAddr devAddr offset <<< 1) ((wordBytes (BitVec.ofNat 32 offset)).drop (4 - 1))
      (read buffer pos len) status).stores
    = (List.range len).map fun i => (place devAddr (offset + i), buffer (pos + i))
  := by
  rw [Event.stores, toNat_chipAddr hdev hseven hlt, addrNat_xaddr (by omega), consecutive_read]
  apply List.map_congr_left
  intro k hk
  rw [List.mem_range] at hk
  rw [place_add (by omega)]

theorem loads_read (hblock : len ≤ 256 - offset % 256) (result : ℤ × List Byte) :
  (Event.read (chipAddr devAddr offset <<< 1) ((wordBytes (BitVec.ofNat 32 offset)).drop (4 - 1))
      len result).loads
    = (List.range len).map fun i => place devAddr (offset + i)
  := by
  rw [Event.loads, toNat_chipAddr hdev hseven hlt, addrNat_xaddr (by omega)]
  apply List.map_congr_left
  intro k hk
  rw [List.mem_range] at hk
  rw [place_add (by omega)]

end Transfers

/-- The writes of the loop, from an offset on. -/
theorem logs_eepromWriteLoop (bus : Bus) (buffer : ℕ → Byte) (hdev : devAddr % 4 = 0)
    (hseven : devAddr < 128) (hstop : stop ≤ 1024) :
  Logs (eepromWriteLoop bus devAddr stop offset buffer pos rcode) fun ret new =>
    new.flatMap Event.stores = (List.range (stop - offset)).map
        (fun i => (place devAddr (offset + i), buffer (pos + i)))
      ∧ (∀ e ∈ new, e.PageWrite) ∧ (ret ≠ 0 ↔ rcode ≠ 0 ∨ ∃ e ∈ new, e.Failed)
  := by
  induction hn : stop - offset using Nat.strong_induction_on generalizing offset pos rcode with
  | h n ih =>
    rw [eepromWriteLoop]
    by_cases hlt : offset < stop
    · rw [if_pos hlt]
      have hpos := transferLen_pos (pageRest_pos offset) (Nat.sub_pos_of_lt hlt)
      obtain ⟨hpage, hleft, hmax⟩ := transferLen_le (pageRest offset) (stop - offset)
      generalize transferLen (pageRest offset) (stop - offset) = len at *
      rw [pageRest_eq] at hpage
      apply Logs.bind (logs_i2cWrite ..)
      rintro ret _ ⟨status, rfl, hret⟩
      apply (ih (stop - (offset + len)) (by omega) rfl).mono
      rintro ret' new ⟨hstores, hpages, hstatus⟩
      have haddr : addrNat ((wordBytes (BitVec.ofNat 32 offset)).drop (4 - 1)) = offset % 256 :=
        addrNat_xaddr (by omega)
      refine ⟨?_, ?_, status_cons hret hstatus⟩
      · rw [List.singleton_append, List.flatMap_cons, hstores, ← hn, map_range_split _ hleft,
          stores_write hdev hseven (by omega) hpage, Nat.sub_sub]
        apply congrArg₂ _ rfl
        apply List.map_congr_left
        intro i _
        rw [Nat.add_assoc, Nat.add_assoc]
      · rw [List.singleton_append, List.forall_mem_cons]
        refine ⟨⟨?_, ?_, ?_⟩, hpages⟩
        · rwa [length_read]
        · rw [length_read, haddr]
          omega
        · rwa [length_read]
    · rw [if_neg hlt]
      apply logs_pure
      have hzero : n = 0 := by omega
      rw [hzero]
      refine ⟨rfl, fun e he => absurd he List.not_mem_nil, ?_⟩
      rw [or_iff_left]
      rintro ⟨e, he, _⟩
      exact List.not_mem_nil he

/-- The reads of the loop, from an offset on. -/
theorem logs_eepromReadLoop (bus : Bus) (buffer : ℕ → Byte) (hdev : devAddr % 4 = 0)
    (hseven : devAddr < 128) (hstop : stop ≤ 1024) :
  Logs (eepromReadLoop bus devAddr stop offset buffer pos rcode) fun r new =>
    new.flatMap Event.loads = (List.range (stop - offset)).map (fun i => place devAddr (offset + i))
      ∧ (∀ e ∈ new, e.BlockRead) ∧ (r.1 ≠ 0 ↔ rcode ≠ 0 ∨ ∃ e ∈ new, e.Failed)
  := by
  induction hn : stop - offset using Nat.strong_induction_on generalizing offset buffer pos rcode
    with
  | h n ih =>
    rw [eepromReadLoop]
    by_cases hlt : offset < stop
    · rw [if_pos hlt]
      have hpos := transferLen_pos (blockRest_pos offset) (Nat.sub_pos_of_lt hlt)
      obtain ⟨hblock, hleft, hmax⟩ := transferLen_le (blockRest offset) (stop - offset)
      generalize transferLen (blockRest offset) (stop - offset) = len at *
      rw [blockRest_eq] at hblock
      apply Logs.bind (logs_i2cRead ..)
      rintro r _ ⟨result, rfl, hret⟩
      apply (ih (stop - (offset + len)) (by omega) _ rfl).mono
      rintro r' new ⟨hloads, hblocks, hstatus⟩
      have haddr : addrNat ((wordBytes (BitVec.ofNat 32 offset)).drop (4 - 1)) = offset % 256 :=
        addrNat_xaddr (by omega)
      refine ⟨?_, ?_, status_cons hret hstatus⟩
      · rw [List.singleton_append, List.flatMap_cons, hloads, ← hn, map_range_split _ hleft,
          loads_read hdev hseven (by omega) hblock, Nat.sub_sub]
        apply congrArg₂ _ rfl
        apply List.map_congr_left
        intro i _
        rw [Nat.add_assoc]
      · rw [List.singleton_append, List.forall_mem_cons]
        refine ⟨⟨hpos, ?_, hmax⟩, hblocks⟩
        rw [haddr]
        omega
    · rw [if_neg hlt]
      apply logs_pure
      have hzero : n = 0 := by omega
      rw [hzero]
      refine ⟨rfl, fun e he => absurd he List.not_mem_nil, ?_⟩
      rw [or_iff_left]
      rintro ⟨e, he, _⟩
      exact List.not_mem_nil he

theorem logs_eepromWrite (bus : Bus) (buffer : ℕ → Byte) (hdev : devAddr % 4 = 0)
    (hseven : devAddr < 128) (hsize : offset + cnt ≤ 1024) :
  Logs (eepromWrite bus devAddr offset buffer cnt) (Writes devAddr offset cnt buffer)
  := by
  have hstop : (offset + cnt) % 2 ^ 32 = offset + cnt := Nat.mod_eq_of_lt (by omega)
  rw [eepromWrite, hstop]
  apply (logs_eepromWriteLoop bus buffer hdev hseven hsize).mono
  rintro ret new ⟨hstores, hpages, hstatus⟩
  rw [Nat.add_sub_cancel_left] at hstores
  constructor
  · rw [hstores]
    apply List.map_congr_left
    intro i _
    rw [Nat.zero_add]
  · exact hpages
  · rw [hstatus]
    exact or_iff_right (not_not_intro rfl)

theorem logs_eepromRead (bus : Bus) (buffer : ℕ → Byte) (hdev : devAddr % 4 = 0)
    (hseven : devAddr < 128) (hsize : offset + cnt ≤ 1024) :
  Logs (eepromRead bus devAddr offset buffer cnt) fun r new => Reads devAddr offset cnt r.1 new
  := by
  have hstop : (offset + cnt) % 2 ^ 32 = offset + cnt := Nat.mod_eq_of_lt (by omega)
  rw [eepromRead, hstop]
  apply (logs_eepromReadLoop bus buffer hdev hseven hsize).mono
  rintro r new ⟨hloads, hblocks, hstatus⟩
  rw [Nat.add_sub_cancel_left] at hloads
  constructor
  · exact hloads
  · exact hblocks
  · rw [hstatus]
    exact or_iff_right (not_not_intro rfl)

/-! ### The device -/

/-- What is in the device: the bytes of a chip at its addresses. -/
abbrev Cells := ℕ × ℕ → Byte

/-- Bytes that arrive: the address counter stays in the page. -/
def program (chip addr : ℕ) : ℕ → List Byte → Cells → Cells
  | _, [], cells => cells
  | k, x :: data, cells =>
    program chip addr (k + 1) data
      (Function.update cells (chip, addr / 8 * 8 + (addr % 8 + k) % 8) x)

/-- What a transfer does to the device, if it succeeds. -/
def Event.apply (cells : Cells) : Event → Cells
  | .write chip addr data status =>
    if status = 0 then program chip.toNat (addrNat addr) 0 data cells else cells
  | .read .. => cells

/-- The device after some events. -/
def contents (cells : Cells) (log : List Event) : Cells := log.foldl Event.apply cells

/-- The bytes that are sent for a read: the address counter stays in the block. -/
def sent (cells : Cells) (chip addr len : ℕ) : List Byte :=
  (List.range len).map fun k => cells (chip, (addr + k) % 256)

/-- The bus with the device.  Transfers succeed or fail in any way; one that fails may leave
anything in the buffer. -/
def chipBus (cells : Cells) (status : List Event → ℤ) (garbage : List Event → List Byte) : Bus where
  write _ _ _ log := status log
  read chip addr len log :=
    (status log, if status log = 0 then sent (contents cells log) chip.toNat (addrNat addr) len
      else garbage log)

variable {cells : Cells} {status : List Event → ℤ} {garbage : List Event → List Byte}
  {log new : List Event}

/-- Bytes are put to their places. -/
def put (cells : Cells) (bytes : List ((ℕ × ℕ) × Byte)) : Cells :=
  bytes.foldl (fun cells b => Function.update cells b.1 b.2) cells

/-- In a page, the counter does not go back to the beginning. -/
theorem program_eq {k : ℕ} (h : addr % 8 + k + data.length ≤ 8) (chip : ℕ) (cells : Cells) :
  program chip addr k data cells = put cells (consecutive chip (addr + k) data)
  := by
  induction data generalizing k cells with
  | nil => rfl
  | cons x data ih =>
    rw [List.length_cons] at h
    have hcounter : addr / 8 * 8 + (addr % 8 + k) % 8 = addr + k := by omega
    rw [program, hcounter, ih (by omega)]
    rfl

theorem contents_append (cells : Cells) (log new : List Event) :
  contents cells (log ++ new) = contents (contents cells log) new
  := List.foldl_append

/-- Writes that succeed, each in a page, put their bytes to their places. -/
theorem contents_of_pageWrites (hpages : ∀ e ∈ new, e.PageWrite) (hok : ∀ e ∈ new, ¬ e.Failed)
    (cells : Cells) :
  contents cells new = put cells (new.flatMap Event.stores)
  := by
  induction new generalizing cells with
  | nil => rfl
  | cons e new ih =>
    rw [List.forall_mem_cons] at hpages hok
    have happly : Event.apply cells e = put cells e.stores := by
      cases e with
      | write chip addr data status =>
        have hstatus : status = 0 := not_not.mp hok.1
        rw [Event.apply, if_pos hstatus, program_eq hpages.1.2.1]
        rfl
      | read => exact hpages.1.elim
    have hcons : contents cells (e :: new) = contents (Event.apply cells e) new := rfl
    rw [hcons, ih hpages.2 hok.2, happly, List.flatMap_cons, put, put, put, List.foldl_append]

theorem place_injective (devAddr : ℕ) :
  Function.Injective (place devAddr)
  := by
  intro o o' h
  have hchip : 2 * (devAddr + o / 256) = 2 * (devAddr + o' / 256) := congrArg Prod.fst h
  have haddr : o % 256 = o' % 256 := congrArg Prod.snd h
  omega

/-- What was put to different places is there. -/
theorem put_map_range {f : ℕ → ℕ × ℕ} (hf : Function.Injective f) (g : ℕ → Byte) (cells : Cells)
    {i : ℕ} (hi : i < n) :
  put cells ((List.range n).map fun i => (f i, g i)) (f i) = g i
  := by
  induction n with
  | zero => exact absurd hi (Nat.not_lt_zero i)
  | succ n ih =>
    rw [List.range_succ, List.map_append, put, List.foldl_append]
    by_cases hlast : i = n
    · rw [hlast]
      exact Function.update_self ..
    · have hne : f i ≠ f n := fun heq => hlast (hf heq)
      exact (Function.update_of_ne hne _ _).trans (ih (by omega))

/-- The device after a write that returns 0. -/
theorem contents_eepromWrite (hdev : devAddr % 4 = 0) (hseven : devAddr < 128)
    (hsize : offset + cnt ≤ 1024)
    (hok : (eepromWrite (chipBus cells status garbage) devAddr offset buffer cnt log).1 = 0) :
  ∀ i < cnt, contents cells
      (eepromWrite (chipBus cells status garbage) devAddr offset buffer cnt log).2
      (place devAddr (offset + i))
    = buffer i
  := by
  intro i hi
  obtain ⟨new, hnew, hwrites⟩ := (logs_eepromWrite (chipBus cells status garbage) buffer hdev hseven
    hsize).run log
  have hgood : ∀ e ∈ new, ¬ e.Failed := by
    intro e he hfailed
    exact hwrites.status.mpr ⟨e, he, hfailed⟩ hok
  rw [hnew, contents_append, contents_of_pageWrites hwrites.pages hgood, hwrites.stores]
  have hinjective : Function.Injective fun i => place devAddr (offset + i) :=
    (place_injective devAddr).comp (add_right_injective offset)
  exact put_map_range hinjective buffer _ hi

theorem i2cRead_apply (bus : Bus) (chip : Byte) (addr : Word) (len : ℕ) (log : List Event) :
  i2cRead bus chip addr 1 len log
    = let r := bus.read (chip <<< 1) ((wordBytes addr).drop (4 - 1)) len log
      ((if r.1 ≠ 0 then 1 else 0, r.2),
        log ++ [.read (chip <<< 1) ((wordBytes addr).drop (4 - 1)) len r])
  := by
  rw [i2cRead, if_neg (by decide)]
  rfl

/-- One round on a bus. -/
theorem eepromReadLoop_round (bus : Bus) (devAddr : ℕ) (hlt : offset < stop) (buffer : ℕ → Byte)
    (pos rcode : ℕ) (log : List Event) :
  ∃ len result, len = transferLen (blockRest offset) (stop - offset)
    ∧ result = bus.read (chipAddr devAddr offset <<< 1)
      ((wordBytes (BitVec.ofNat 32 offset)).drop (4 - 1)) len log
    ∧ eepromReadLoop bus devAddr stop offset buffer pos rcode log
      = eepromReadLoop bus devAddr stop (offset + len) (store buffer pos result.2) (pos + len)
        (if (if result.1 ≠ 0 then 1 else 0) ≠ 0 then 1 else rcode)
        (log ++ [.read (chipAddr devAddr offset <<< 1)
          ((wordBytes (BitVec.ofNat 32 offset)).drop (4 - 1)) len result])
  := by
  refine ⟨_, _, rfl, rfl, ?_⟩
  have hbind : ∀ (x : LogM Event (ℕ × List Byte)) (f : ℕ × List Byte → LogM Event (ℕ × (ℕ → Byte))),
      (x >>= f) log = f (x log).1 (x log).2 := fun _ _ => rfl
  conv_lhs => rw [eepromReadLoop, if_pos hlt]
  rw [hbind, i2cRead_apply]

/-- What is sent for a read in a block. -/
theorem sent_eq {len : ℕ} (hdev : devAddr % 4 = 0) (hseven : devAddr < 128)
    (hlt : offset < 1024) (hblock : len ≤ 256 - offset % 256) {cells : Cells} {d : ℕ → Byte}
    (hcells : ∀ i < len, cells (place devAddr (offset + i)) = d (pos + i)) :
  sent cells (chipAddr devAddr offset <<< 1).toNat
      (addrNat ((wordBytes (BitVec.ofNat 32 offset)).drop (4 - 1))) len
    = read d pos len
  := by
  rw [sent, toNat_chipAddr hdev hseven hlt, addrNat_xaddr (by omega)]
  apply List.ext_getElem
  · rw [List.length_map, List.length_range, length_read]
  · intro i hi _
    rw [List.length_map, List.length_range] at hi
    rw [List.getElem_map, List.getElem_range, getElem_read, ← hcells i hi,
      Nat.mod_eq_of_lt (by omega), place_add (by omega)]

/-- A loop of reads that returns 0 leaves what is in the device in the buffer. -/
theorem eepromReadLoop_chipBus (hdev : devAddr % 4 = 0) (hseven : devAddr < 128)
    (hstop : stop ≤ 1024) (d : ℕ → Byte)
    (hcells : ∀ i < stop - offset, contents cells log (place devAddr (offset + i)) = d (pos + i))
    (hok : (eepromReadLoop (chipBus cells status garbage) devAddr stop offset buffer pos rcode
      log).1.1 = 0) :
  (eepromReadLoop (chipBus cells status garbage) devAddr stop offset buffer pos rcode log).1.2
    = store buffer pos (read d pos (stop - offset))
  := by
  induction hn : stop - offset using Nat.strong_induction_on
    generalizing offset buffer pos rcode log with
  | h n ih =>
    by_cases hlt : offset < stop
    · have hpos := transferLen_pos (blockRest_pos offset) (Nat.sub_pos_of_lt hlt)
      obtain ⟨hblock, hleft, -⟩ := transferLen_le (blockRest offset) (stop - offset)
      obtain ⟨len, result, hlen, hresult, hround⟩ := eepromReadLoop_round
        (chipBus cells status garbage) devAddr hlt buffer pos rcode log
      rw [← hlen] at hpos hblock hleft
      rw [blockRest_eq] at hblock
      rw [hround] at hok ⊢
      have hstatus : status log = 0 := by
        by_contra hfailed
        have hresult' : result.1 ≠ 0 := by
          rw [hresult]
          exact hfailed
        rw [if_pos hresult'] at hok
        obtain ⟨new, -, -, -, hrcode⟩ := (logs_eepromReadLoop (chipBus cells status garbage)
          (store buffer pos result.2) hdev hseven hstop).run _
        exact hrcode.mpr (.inl Nat.one_ne_zero) hok
      have hdata : result.2 = read d pos len := by
        rw [hresult]
        dsimp only [chipBus]
        rw [if_pos hstatus]
        exact sent_eq hdev hseven (by omega) hblock fun i hi => hcells i (by omega)
      rw [ih (stop - (offset + len)) (by omega) _ hok rfl, hdata]
      · have hsplit : n = len + (stop - (offset + len)) := by omega
        rw [hsplit, read_add, store_append, length_read]
      · intro i hi
        rw [contents_append, Nat.add_assoc, Nat.add_assoc]
        exact hcells (len + i) (by omega)
    · rw [eepromReadLoop, if_neg hlt]
      have hzero : n = 0 := by omega
      rw [hzero]
      rfl

/-- If no transfer fails, the result is 0. -/
theorem eepromWriteLoop_ok (cells : Cells) (garbage : List Event → List Byte)
    (devAddr stop offset : ℕ) (buffer : ℕ → Byte) (pos : ℕ) :
  Gives (eepromWriteLoop (chipBus cells (fun _ => 0) garbage) devAddr stop offset buffer pos 0) 0
  := by
  induction hn : stop - offset using Nat.strong_induction_on generalizing offset pos with
  | h n ih =>
    rw [eepromWriteLoop]
    by_cases hlt : offset < stop
    · have hpos := transferLen_pos (pageRest_pos offset) (Nat.sub_pos_of_lt hlt)
      rw [if_pos hlt]
      apply Gives.bind
      · rw [i2cWrite, if_neg (by decide)]
        exact (gives_ask 0 _).bind (gives_pure 0)
      · exact ih _ (by omega) _ _ rfl
    · rw [if_neg hlt]
      exact gives_pure 0

theorem eepromReadLoop_ok (cells : Cells) (garbage : List Event → List Byte)
    (devAddr stop offset : ℕ) (buffer : ℕ → Byte) (pos : ℕ) (log : List Event) :
  (eepromReadLoop (chipBus cells (fun _ => 0) garbage) devAddr stop offset buffer pos 0 log).1.1 = 0
  := by
  induction hn : stop - offset using Nat.strong_induction_on generalizing offset buffer pos log with
  | h n ih =>
    by_cases hlt : offset < stop
    · have hpos := transferLen_pos (blockRest_pos offset) (Nat.sub_pos_of_lt hlt)
      obtain ⟨len, result, hlen, hresult, hround⟩ := eepromReadLoop_round
        (chipBus cells (fun _ => 0) garbage) devAddr hlt buffer pos 0 log
      have hstatus : result.1 = 0 := by rw [hresult, chipBus]
      rw [hround, if_neg (not_not_intro hstatus), if_neg (not_not_intro rfl)]
      exact ih (stop - (offset + len)) (by omega) _ _ _ _ rfl
    · rw [eepromReadLoop, if_neg hlt]
      rfl

/-- **Accesses to the EEPROM.**  The transfers of a write put every byte to its place, each in one
page, those of a read are each in one block, and the result says if one of them has failed; what
was written is read back. -/
theorem eeprom_access (hdev : devAddr % 4 = 0) (hseven : devAddr < 128)
    (hsize : offset + cnt ≤ 1024) :
  (∀ bus buffer, Logs (eepromWrite bus devAddr offset buffer cnt)
      (Writes devAddr offset cnt buffer))
    ∧ (∀ bus buffer, Logs (eepromRead bus devAddr offset buffer cnt)
      fun r new => Reads devAddr offset cnt r.1 new)
    ∧ ∀ cells status garbage log buffer buffer',
      let bus := chipBus cells status garbage
      let w := eepromWrite bus devAddr offset buffer cnt log
      let r := eepromRead bus devAddr offset buffer' cnt w.2
      w.1 = 0 → r.1.1 = 0 → r.1.2 = store buffer' 0 (read buffer 0 cnt)
  := by
  refine ⟨fun bus buffer => logs_eepromWrite bus buffer hdev hseven hsize,
    fun bus buffer => logs_eepromRead bus buffer hdev hseven hsize, ?_⟩
  intro cells status garbage log buffer buffer'
  dsimp only
  intro hw hr
  have hstop : (offset + cnt) % 2 ^ 32 = offset + cnt := Nat.mod_eq_of_lt (by omega)
  have hcells := contents_eepromWrite hdev hseven hsize hw
  rw [eepromRead, hstop] at hr ⊢
  rw [eepromReadLoop_chipBus hdev hseven hsize buffer _ hr, Nat.add_sub_cancel_left]
  intro i hi
  rw [Nat.add_sub_cancel_left] at hi
  rw [hcells i hi, Nat.zero_add]

/-- The end of the EEPROM of the Sam460ex is written and read, with transfers that succeed. -/
theorem eeprom_access_sam460ex :
  let bus := chipBus (fun _ => 0xff) (fun _ => 0) fun _ => []
  let w := eepromWrite bus 0x54 0x3f5 (fun i => UInt8.ofNat i) 11 []
  (eepromRead bus 0x54 0x3f5 (fun _ => 0) 11 w.2).1.2
    = store (fun _ => 0) 0 [0, 1, 2, 3, 4, 5, 6, 7, 8, 9, 10]
  := by
  dsimp only
  have haccess := (@eeprom_access 0x54 0x3f5 11 (by decide) (by decide) (by decide)).2.2
    (fun _ => 0xff) (fun _ => 0) (fun _ => []) [] (fun i => UInt8.ofNat i) (fun _ => 0)
  apply haccess
  · exact (eepromWriteLoop_ok _ _ _ _ _ _ _).run _
  · exact eepromReadLoop_ok _ _ _ _ _ _ _ _

end Chip

end Env
