import UBoot.Lib.Memory

/-!
# Reading from an IDE drive

`local_ide_read` of `board/ACube/common/sam_ide.c`, with `CONFIG_LBA48` and `CONFIG_SYS_64BIT_LBA`,
and the drive that it talks to by its registers.

The address of a block has 28 or 48 bits; which of them is chosen by the first block only.
`readsEvery_iff` says that blocks that follow in the range of 48 bits are then read from elsewhere, and
that nothing else goes wrong.
-/

namespace SamIde

open Memory

/-- The words that the data port is read in, `ushort`. -/
abbrev Half := BitVec 16

/-! ### The drive -/

/-- `ATA_SECTORWORDS`. -/
def sectorWords : ℕ := 128

/-- The contents of a drive. -/
structure Disk where
  sector : ℕ → List Half
  length_sector : ∀ i, (sector i).length = 2 * sectorWords

/-- What a drive reports: `status w i` is the status when it is read for the time `i` in the wait
`w`, and `power` the answer to `ATA_CMD_CHK_PWR`. -/
structure Reports where
  status : ℕ → ℕ → Byte
  power : Byte

/-- The registers `ATA_SECT_CNT`, `ATA_LBA_LOW`, `ATA_LBA_MID`, `ATA_LBA_HIGH`, `ATA_DEV_HD` and
`ATA_COMMAND`. -/
inductive Port where
  | sectCnt
  | lbaLow
  | lbaMid
  | lbaHigh
  | devHd
  | command
  deriving DecidableEq

/-- The registers with what was written to them last and before that, the data that is to be read,
and the number of the waits. -/
structure State where
  cur : Port → Byte
  hob : Port → Byte
  data : List Half
  waits : ℕ

/-- `ATA_CMD_READ`. -/
def cmdRead : Byte := 0x20

/-- `ATA_CMD_READ_EXT`. -/
def cmdReadExt : Byte := 0x24

/-- `ATA_CMD_CHK_PWR`. -/
def cmdChkPwr : Byte := 0xe5

namespace State

/-- The address of `ATA_CMD_READ`. -/
def lba28 (s : State) : ℕ :=
  (s.cur .lbaLow).toNat + 2 ^ 8 * (s.cur .lbaMid).toNat + 2 ^ 16 * (s.cur .lbaHigh).toNat
    + 2 ^ 24 * (s.cur .devHd &&& 0xf).toNat

/-- The address of `ATA_CMD_READ_EXT`. -/
def lba48 (s : State) : ℕ :=
  (s.cur .lbaLow).toNat + 2 ^ 8 * (s.cur .lbaMid).toNat + 2 ^ 16 * (s.cur .lbaHigh).toNat
    + 2 ^ 24 * (s.hob .lbaLow).toNat + 2 ^ 32 * (s.hob .lbaMid).toNat
    + 2 ^ 40 * (s.hob .lbaHigh).toNat

/-- The sectors of `ATA_CMD_READ`: zero stands for the largest number. -/
def count28 (s : State) : ℕ :=
  if s.cur .sectCnt = 0 then 2 ^ 8 else (s.cur .sectCnt).toNat

/-- The sectors of `ATA_CMD_READ_EXT`. -/
def count48 (s : State) : ℕ :=
  let n := (s.cur .sectCnt).toNat + 2 ^ 8 * (s.hob .sectCnt).toNat
  if n = 0 then 2 ^ 16 else n

end State

section Source

variable (rep : Reports) (disk : Disk)

/-- What the drive makes of a command. -/
def execute (c : Byte) (s : State) : State :=
  if c = cmdRead then { s with data := (List.range' s.lba28 s.count28).flatMap disk.sector }
  else if c = cmdReadExt then
    { s with data := (List.range' s.lba48 s.count48).flatMap disk.sector }
  else if c = cmdChkPwr then { s with cur := Function.update s.cur .sectCnt rep.power }
  else s

/-- `local_ide_outb`. -/
def outb (p : Port) (val : Byte) (s : State) : State :=
  let s := { s with cur := Function.update s.cur p val, hob := Function.update s.hob p (s.cur p) }
  if p = .command then execute rep disk val s else s

/-! ### The functions -/

/-- `ATA_STAT_BUSY`. -/
def statBusy : Byte := 0x80

/-- `ATA_STAT_DRQ`. -/
def statDrq : Byte := 0x08

/-- `ATA_STAT_ERR`. -/
def statErr : Byte := 0x01

/-- `IDE_TIME_OUT`. -/
def timeOut : ℕ := 2000

/-- `IDE_SPIN_UP_TIME_OUT`. -/
def spinUpTimeOut : ℕ := 5000

/-- The loop of `local_ide_wait`. -/
def waitLoop (status : ℕ → Byte) : ℕ → ℕ → Byte
  | 0, i => status i
  | delay + 1, i => if status i &&& statBusy ≠ 0 then waitLoop status delay (i + 1) else status i

/-- The status at the end of the wait `w`. -/
def waited (w t : ℕ) : Byte := waitLoop (rep.status w) (10 * t) 0

/-- `local_ide_wait`. -/
def ideWait (t : ℕ) (s : State) : Byte × State :=
  (waited rep s.waits t, { s with waits := s.waits + 1 })

/-- `ATA_DEVICE_ADV`. -/
def deviceAdv (sii0680 : Bool) (dev : ℕ) : Byte :=
  if sii0680 then UInt8.ofNat ((dev &&& 1) <<< 4) else 0

/-- `ATA_LBA`. -/
def ataLba : Byte := 0xe0

/-- The byte of a number at a place. -/
def byteAt (n k : ℕ) : Byte := UInt8.ofNat (n >>> k &&& 0xff)

/-- The registers are written, and the command. -/
def issueRead (lba48 : Bool) (adv : Byte) (blknr : ℕ) (s : State) : State :=
  let out := outb rep disk
  let s :=
    if lba48 then
      s |> out .sectCnt 0 |> out .lbaLow (byteAt blknr 24) |> out .lbaMid (byteAt blknr 32)
        |> out .lbaHigh (byteAt blknr 40)
    else s
  let s := s |> out .sectCnt 1 |> out .lbaLow (byteAt blknr 0) |> out .lbaMid (byteAt blknr 8)
    |> out .lbaHigh (byteAt blknr 16)
  if lba48 then s |> out .devHd (ataLba ||| adv) |> out .command cmdReadExt
  else
    s |> out .devHd (ataLba ||| adv ||| UInt8.ofNat (blknr >>> 24 &&& 0xf))
      |> out .command cmdRead

/-- A word is read from the data port. -/
def inHalf (s : State) : Half × State := (s.data.headD 0, { s with data := s.data.tail })

/-- `local_input_data`. -/
def inputData : ℕ → ℕ → State → (ℕ → Half) → State × (ℕ → Half)
  | 0, _, s, buf => (s, buf)
  | words + 1, dbuf, s, buf =>
    let (x, s) := inHalf s
    let (y, s) := inHalf s
    inputData words (dbuf + 2) s (Function.update (Function.update buf dbuf x) (dbuf + 1) y)

/-- The body of the loop of `local_ide_read`; it may end the loop. -/
def readBlock (lba48 : Bool) (adv : Byte) (blknr : ℕ) (pwrsave : Bool) (buffer : ℕ) (s : State)
    (buf : ℕ → Half) : Option (State × (ℕ → Half)) :=
  let (c, s) := ideWait rep timeOut s
  if c &&& statBusy ≠ 0 then none
  else
    let s := issueRead rep disk lba48 adv blknr s
    let (c, s) := ideWait rep (if pwrsave then spinUpTimeOut else timeOut) s
    if c &&& (statDrq ||| statBusy ||| statErr) ≠ statDrq then none
    else some (inputData sectorWords buffer s buf)

/-- The loop of `local_ide_read`: the number of the blocks, and the buffer. -/
def readLoop (lba48 : Bool) (adv : Byte) :
    ℕ → ℕ → Bool → ℕ → ℕ → State → (ℕ → Half) → ℕ × (ℕ → Half)
  | 0, _, _, n, _, _, buf => (n, buf)
  | blkcnt + 1, blknr, pwrsave, n, buffer, s, buf =>
    match readBlock rep disk lba48 adv blknr pwrsave buffer s buf with
    | none => (n, buf)
    | some (s, buf) =>
      readLoop lba48 adv blkcnt (blknr + 1) false (n + 1) (buffer + 2 * sectorWords) s buf

/-- `local_ide_read`. -/
def ideRead (sii0680 : Bool) (device blknr blkcnt buffer : ℕ) (s : State) (buf : ℕ → Half) :
    ℕ × (ℕ → Half) :=
  let lba48 := decide (blknr &&& 0x0000fffff0000000 ≠ 0)
  let s := outb rep disk .devHd (ataLba ||| deviceAdv sii0680 device) s
  let (c, s) := ideWait rep timeOut s
  if c &&& statBusy ≠ 0 then (0, buf)
  else
    let s := outb rep disk .command cmdChkPwr s
    let (c, s) := ideWait rep timeOut s
    if c &&& statBusy ≠ 0 then (0, buf)
    else
      let pwrsave := if c &&& statErr = statErr then false else decide (s.cur .sectCnt = 0)
      readLoop rep disk lba48 (deviceAdv sii0680 device) blkcnt blknr pwrsave 0 buffer s buf

end Source

/-! ### The address -/

theorem toNat_byteAt (n k : ℕ) :
  (byteAt n k).toNat = n / 2 ^ k % 2 ^ 8
  := by
  have hand : n >>> k &&& 0xff = n / 2 ^ k % 2 ^ 8 := by
    rw [Nat.shiftRight_eq_div_pow]
    exact Nat.and_two_pow_sub_one_eq_mod _ 8
  rw [byteAt, hand, UInt8.toNat_ofNat']
  omega

/-- The address has more than 28 bits. -/
theorem land_ne_zero_iff {n : ℕ} (h : n < 2 ^ 48) :
  n &&& 0x0000fffff0000000 ≠ 0 ↔ 2 ^ 28 ≤ n
  := by
  have hmask : n &&& 0x0000fffff0000000 = (n >>> 28 &&& (2 ^ 20 - 1)) <<< 28 := by
    apply Nat.eq_of_testBit_eq
    intro i
    have hone : (0x0000fffff0000000 : ℕ) = (2 ^ 20 - 1) <<< 28 := by decide
    rw [hone, Nat.testBit_and, Nat.testBit_shiftLeft, Nat.testBit_shiftLeft, Nat.testBit_and,
      Nat.testBit_shiftRight]
    by_cases hi : 28 ≤ i
    · simp [hi, Nat.add_sub_of_le hi]
    · simp [hi]
  rw [hmask, Nat.and_two_pow_sub_one_eq_mod, Nat.shiftRight_eq_div_pow, Nat.shiftLeft_eq]
  omega

/-- The device and the mode do not reach the address. -/
theorem devHd_land (sii0680 : Bool) (dev n : ℕ) :
  (ataLba ||| deviceAdv sii0680 dev ||| UInt8.ofNat (n >>> 24 &&& 0xf)) &&& 0xf
    = UInt8.ofNat (n / 2 ^ 24 % 2 ^ 4)
  := by
  have hand : n >>> 24 &&& 0xf = n / 2 ^ 24 % 2 ^ 4 := by
    rw [Nat.shiftRight_eq_div_pow]
    exact Nat.and_two_pow_sub_one_eq_mod _ 4
  have hlt : n / 2 ^ 24 % 2 ^ 4 < 2 ^ 4 := Nat.mod_lt _ (by decide)
  have hadv : deviceAdv sii0680 dev = 0 ∨ deviceAdv sii0680 dev = 0x10 := by
    have hdev : dev &&& 1 = dev % 2 := Nat.and_one_is_mod dev
    rw [deviceAdv, hdev]
    obtain h | h := Nat.mod_two_eq_zero_or_one dev <;> rw [h] <;> cases sii0680 <;> decide
  have hbits : ∀ x < 2 ^ 4, (ataLba ||| 0 ||| UInt8.ofNat x) &&& 0xf = UInt8.ofNat x
      ∧ (ataLba ||| 0x10 ||| UInt8.ofNat x) &&& 0xf = UInt8.ofNat x := by
    decide
  rw [hand]
  obtain h | h := hadv <;> rw [h]
  · exact (hbits _ hlt).1
  · exact (hbits _ hlt).2

/-- The sector that is read for a block. -/
def address (lba48 : Bool) (blknr : ℕ) : ℕ := if lba48 then blknr else blknr % 2 ^ 28

theorem lba48_eq {s : State} {n : ℕ} (h : n < 2 ^ 48) (h0 : s.cur .lbaLow = byteAt n 0)
    (h8 : s.cur .lbaMid = byteAt n 8) (h16 : s.cur .lbaHigh = byteAt n 16)
    (h24 : s.hob .lbaLow = byteAt n 24) (h32 : s.hob .lbaMid = byteAt n 32)
    (h40 : s.hob .lbaHigh = byteAt n 40) :
  s.lba48 = n
  := by
  simp only [State.lba48, h0, h8, h16, h24, h32, h40, toNat_byteAt]
  omega

theorem lba28_eq {s : State} {n : ℕ} (h0 : s.cur .lbaLow = byteAt n 0)
    (h8 : s.cur .lbaMid = byteAt n 8) (h16 : s.cur .lbaHigh = byteAt n 16)
    (h24 : s.cur .devHd &&& 0xf = UInt8.ofNat (n / 2 ^ 24 % 2 ^ 4)) :
  s.lba28 = n % 2 ^ 28
  := by
  simp only [State.lba28, h0, h8, h16, h24, toNat_byteAt, UInt8.toNat_ofNat']
  omega

section Issue

variable (rep : Reports) (disk : Disk) (s : State)

theorem waits_outb (p : Port) (val : Byte) :
  (outb rep disk p val s).waits = s.waits
  := by
  rw [outb]
  simp only [execute]
  split_ifs <;> rfl

theorem waits_issueRead (lba48 : Bool) (adv : Byte) (blknr : ℕ) :
  (issueRead rep disk lba48 adv blknr s).waits = s.waits
  := by
  cases lba48 <;> simp only [issueRead, waits_outb, if_true, Bool.false_eq_true, if_false]

theorem cur_outb {p : Port} (hp : p ≠ .command) (val : Byte) (q : Port) :
  (outb rep disk p val s).cur q = if q = p then val else s.cur q
  := by
  simp only [outb, if_neg hp, Function.update_apply]

theorem hob_outb {p : Port} (hp : p ≠ .command) (val : Byte) (q : Port) :
  (outb rep disk p val s).hob q = if q = p then s.cur p else s.hob q
  := by
  simp only [outb, if_neg hp, Function.update_apply]

theorem data_outb_read :
  (outb rep disk .command cmdRead s).data = (List.range' s.lba28 s.count28).flatMap disk.sector
  := rfl

theorem data_outb_readExt :
  (outb rep disk .command cmdReadExt s).data
    = (List.range' s.lba48 s.count48).flatMap disk.sector
  := rfl

/-- The drive has the sector of the block. -/
theorem data_issueRead (lba48 sii0680 : Bool) (dev : ℕ) {blknr : ℕ} (h : blknr < 2 ^ 48) :
  (issueRead rep disk lba48 (deviceAdv sii0680 dev) blknr s).data
    = disk.sector (address lba48 blknr)
  := by
  cases lba48 with
  | true =>
    simp only [issueRead, if_true]
    rw [data_outb_readExt, lba48_eq (n := blknr) h, State.count48]
    · simp [cur_outb, hob_outb, address]
    all_goals simp [cur_outb, hob_outb]
  | false =>
    simp only [issueRead, Bool.false_eq_true, if_false]
    rw [data_outb_read, lba28_eq (n := blknr), State.count28]
    · simp [cur_outb, address]
    · simp [cur_outb]
    · simp [cur_outb]
    · simp [cur_outb]
    · rw [cur_outb _ _ _ (by decide), if_pos rfl]
      apply devHd_land

/-- All the data is stored. -/
theorem inputData_eq {words : ℕ} (dbuf : ℕ) {s : State} (buf : ℕ → Half)
    (h : s.data.length = 2 * words) :
  inputData words dbuf s buf = ({ s with data := [] }, store buf dbuf s.data)
  := by
  induction words generalizing dbuf s buf with
  | zero =>
    have hnil := List.length_eq_zero_iff.mp h
    rw [inputData, hnil, store, ← hnil]
  | succ words ih =>
    obtain ⟨x, rest, hx⟩ := List.exists_cons_of_length_eq_add_one h
    rw [hx, List.length_cons] at h
    obtain ⟨y, rest, rfl⟩ := List.exists_cons_of_length_eq_add_one (Nat.succ_injective h)
    rw [List.length_cons] at h
    rw [inputData]
    simp only [inHalf, hx, List.headD_cons, List.tail_cons]
    rw [ih _ _ (by simp only; omega), store, store]

end Issue

/-! ### One block -/

/-- The drive is ready for the block `j`, and then it has the data. -/
structure Answers (rep : Reports) (pwrsave : Bool) (w j : ℕ) : Prop where
  ready : waited rep (w + 2 * j) timeOut &&& statBusy = 0
  data : waited rep (w + 2 * j + 1) (if pwrsave ∧ j = 0 then spinUpTimeOut else timeOut)
    &&& (statDrq ||| statBusy ||| statErr) = statDrq

theorem answers_succ (rep : Reports) (pwrsave : Bool) (w j : ℕ) :
  Answers rep pwrsave w (j + 1) ↔ Answers rep false (w + 2) j
  := by
  have hw : w + 2 * (j + 1) = w + 2 + 2 * j := by omega
  constructor
  · rintro ⟨hready, hdata⟩
    rw [hw] at hready hdata
    exact ⟨hready, by simpa using hdata⟩
  · rintro ⟨hready, hdata⟩
    rw [← hw] at hready hdata
    exact ⟨hready, by simpa using hdata⟩

section Loop

variable (rep : Reports) (disk : Disk) (lba48 sii0680 : Bool) (dev blknr : ℕ)
  (pwrsave : Bool) (buffer : ℕ) (s : State) (buf : ℕ → Half)

theorem answers_zero :
  Answers rep pwrsave s.waits 0 ↔ waited rep s.waits timeOut &&& statBusy = 0
    ∧ waited rep (s.waits + 1) (if pwrsave then spinUpTimeOut else timeOut)
      &&& (statDrq ||| statBusy ||| statErr) = statDrq
  := by
  constructor
  · rintro ⟨hready, hdata⟩
    exact ⟨hready, by simpa using hdata⟩
  · rintro ⟨hready, hdata⟩
    exact ⟨hready, by simpa using hdata⟩

/-- A block is read if the drive answers. -/
theorem readBlock_of_answers (h : blknr < 2 ^ 48) (hans : Answers rep pwrsave s.waits 0) :
  ∃ t : State, t.waits = s.waits + 2
    ∧ readBlock rep disk lba48 (deviceAdv sii0680 dev) blknr pwrsave buffer s buf
      = some (t, store buf buffer (disk.sector (address lba48 blknr)))
  := by
  obtain ⟨hready, hdata⟩ := (answers_zero rep pwrsave s).mp hans
  rw [readBlock]
  simp only [ideWait, waits_issueRead]
  rw [if_neg (not_ne_iff.mpr hready), if_neg (not_ne_iff.mpr hdata), inputData_eq]
  · rw [data_issueRead _ _ _ _ _ _ h]
    exact ⟨_, rfl, rfl⟩
  · rw [data_issueRead _ _ _ _ _ _ h, disk.length_sector]

theorem readBlock_of_not (hans : ¬ Answers rep pwrsave s.waits 0) :
  readBlock rep disk lba48 (deviceAdv sii0680 dev) blknr pwrsave buffer s buf = none
  := by
  rw [answers_zero, not_and_or] at hans
  rw [readBlock]
  simp only [ideWait, waits_issueRead]
  obtain hready | hdata := hans
  · exact if_pos hready
  · rw [if_pos hdata, ite_self]

/-- The sectors that are read for `m` blocks. -/
def sectors (disk : Disk) (lba48 : Bool) (blknr m : ℕ) : List Half :=
  (List.range' blknr m).flatMap fun i => disk.sector (address lba48 i)

/-- The blocks are read up to the first error. -/
theorem readLoop_run (blkcnt n : ℕ) (h : blknr + blkcnt ≤ 2 ^ 48) :
  ∃ m ≤ blkcnt, (∀ j < m, Answers rep pwrsave s.waits j)
    ∧ (m < blkcnt → ¬ Answers rep pwrsave s.waits m)
    ∧ readLoop rep disk lba48 (deviceAdv sii0680 dev) blkcnt blknr pwrsave n buffer s buf
      = (n + m, store buf buffer (sectors disk lba48 blknr m))
  := by
  induction blkcnt generalizing blknr pwrsave n buffer s buf with
  | zero =>
    use 0, le_rfl, fun j hj => absurd hj (Nat.not_lt_zero j), fun hlt => absurd hlt (lt_irrefl 0)
    rfl
  | succ blkcnt ih =>
    by_cases hans : Answers rep pwrsave s.waits 0
    · obtain ⟨t, ht, hblock⟩ := readBlock_of_answers rep disk lba48 sii0680 dev blknr pwrsave
        buffer s buf (by omega) hans
      obtain ⟨m, hm, hall, hend, hrun⟩ := ih (blknr + 1) false
        (buffer + 2 * sectorWords) t (store buf buffer (disk.sector (address lba48 blknr))) (n + 1)
        (by omega)
      rw [ht] at hall hend
      use m + 1, Nat.succ_le_succ hm
      refine ⟨?_, ?_, ?_⟩
      · intro j hj
        cases j with
        | zero => exact hans
        | succ j => exact (answers_succ ..).mpr (hall j (Nat.lt_of_succ_lt_succ hj))
      · intro hlt
        rw [answers_succ]
        exact hend (Nat.lt_of_succ_lt_succ hlt)
      · rw [readLoop, hblock]
        simp only [hrun]
        rw [sectors, sectors, List.range'_succ, List.flatMap_cons, store_append,
          disk.length_sector, Nat.add_assoc, Nat.add_comm 1 m]
    · use 0, Nat.zero_le _, fun j hj => absurd hj (Nat.not_lt_zero j), fun _ => hans
      rw [readLoop, readBlock_of_not rep disk lba48 sii0680 dev blknr pwrsave buffer s buf hans]
      rfl

end Loop

/-! ### The whole read -/

section Read

variable (rep : Reports) (disk : Disk) (sii0680 : Bool) (device blknr blkcnt buffer : ℕ) (s : State)
  (buf : ℕ → Half)

/-- The drive is in power saving mode. -/
def Saves (rep : Reports) (w : ℕ) : Prop :=
  waited rep (w + 1) timeOut &&& statErr ≠ statErr ∧ rep.power = 0

instance Saves.decidable (rep : Reports) (w : ℕ) : Decidable (Saves rep w) := instDecidableAnd

/-- The drive reports no error before it has transferred the block `j`, if it has transferred those
before it. -/
structure Transfers (rep : Reports) (w j : ℕ) : Prop where
  selected : waited rep w timeOut &&& statBusy = 0
  power : waited rep (w + 1) timeOut &&& statBusy = 0
  answers : Answers rep (Saves rep w) (w + 2) j

theorem cur_outb_chkPwr (t : State) :
  (outb rep disk .command cmdChkPwr t).cur .sectCnt = rep.power
  := rfl

theorem ite_saves (w : ℕ) :
  (if waited rep (w + 1) timeOut &&& statErr = statErr then false else decide (rep.power = 0))
    = decide (Saves rep w)
  := by
  split
  case isTrue h => exact (decide_eq_false fun hsaves => hsaves.1 h).symm
  case isFalse h =>
    apply decide_eq_decide.mpr
    exact (and_iff_right h).symm

/-- Nothing is read if the drive is not ready. -/
theorem run_of_not {r : ℕ × (ℕ → Half)} {lba48 : Bool} (hr : r = (0, buf))
    (h : ¬ Transfers rep s.waits 0) :
  ∃ m ≤ blkcnt, (∀ j < m, Transfers rep s.waits j) ∧ (m < blkcnt → ¬ Transfers rep s.waits m)
    ∧ r = (m, store buf buffer (sectors disk lba48 blknr m))
  := by
  use 0, Nat.zero_le _, fun j hj => absurd hj (Nat.not_lt_zero j), fun _ => h
  exact hr

/-- The blocks are read up to the first error. -/
theorem ideRead_run (h : blknr + blkcnt ≤ 2 ^ 48) :
  ∃ m ≤ blkcnt, (∀ j < m, Transfers rep s.waits j) ∧ (m < blkcnt → ¬ Transfers rep s.waits m)
    ∧ ideRead rep disk sii0680 device blknr blkcnt buffer s buf
      = (m, store buf buffer
        (sectors disk (decide (blknr &&& 0x0000fffff0000000 ≠ 0)) blknr m))
  := by
  by_cases hselected : waited rep s.waits timeOut &&& statBusy = 0
  · by_cases hpower : waited rep (s.waits + 1) timeOut &&& statBusy = 0
    · obtain ⟨t, ht, hloop⟩ : ∃ t : State, t.waits = s.waits + 2
          ∧ ideRead rep disk sii0680 device blknr blkcnt buffer s buf
            = readLoop rep disk (decide (blknr &&& 0x0000fffff0000000 ≠ 0))
              (deviceAdv sii0680 device) blkcnt blknr (Saves rep s.waits) 0 buffer t buf := by
        rw [ideRead]
        simp only [ideWait, waits_outb, cur_outb_chkPwr]
        rw [if_neg (not_ne_iff.mpr hselected), if_neg (not_ne_iff.mpr hpower), ite_saves]
        exact ⟨_, rfl, rfl⟩
      obtain ⟨m, hm, hall, hend, hrun⟩ := readLoop_run rep disk
        (decide (blknr &&& 0x0000fffff0000000 ≠ 0)) sii0680 device blknr (Saves rep s.waits) buffer
        t buf blkcnt 0 h
      rw [ht] at hall hend
      use m, hm
      refine ⟨?_, ?_, ?_⟩
      · intro j hj
        exact ⟨hselected, hpower, hall j hj⟩
      · intro hlt htransfers
        exact hend hlt htransfers.answers
      · rw [hloop, hrun, Nat.zero_add]
    · apply run_of_not _ _ _ _ _ _ _ _ fun h => hpower h.power
      rw [ideRead]
      simp only [ideWait, waits_outb]
      rw [if_pos hpower, ite_self]
  · apply run_of_not _ _ _ _ _ _ _ _ fun h => hselected h.selected
    rw [ideRead]
    simp only [ideWait, waits_outb]
    exact if_pos hselected

theorem length_sectors (disk : Disk) (lba48 : Bool) (blknr m : ℕ) :
  (sectors disk lba48 blknr m).length = m * (2 * sectorWords)
  := by
  induction m generalizing blknr with
  | zero => rw [Nat.zero_mul]; rfl
  | succ m ih =>
    have hrest := ih (blknr + 1)
    rw [sectors] at hrest
    rw [sectors, List.range'_succ, List.flatMap_cons, List.length_append, disk.length_sector,
      hrest, Nat.succ_mul m, Nat.add_comm]

/-- The sectors that are stored are found one by one. -/
theorem read_store_sectors (disk : Disk) (lba48 : Bool) (blknr buffer : ℕ) (buf : ℕ → Half)
    {m i : ℕ} (hi : i < m) :
  read (store buf buffer (sectors disk lba48 blknr m)) (buffer + i * (2 * sectorWords))
      (2 * sectorWords)
    = disk.sector (address lba48 (blknr + i))
  := by
  obtain ⟨k, rfl⟩ := Nat.exists_eq_add_of_lt hi
  have hsplit : sectors disk lba48 blknr (i + k + 1) = sectors disk lba48 blknr i
      ++ (disk.sector (address lba48 (blknr + i)) ++ sectors disk lba48 (blknr + i + 1) k) := by
    rw [sectors, sectors, sectors, Nat.add_assoc, ← List.range'_append_1, List.flatMap_append,
      List.range'_succ, List.flatMap_cons]
  have hholds := holds_store buf buffer (sectors disk lba48 blknr (i + k + 1))
  have hlen := disk.length_sector (address lba48 (blknr + i))
  generalize store buf buffer (sectors disk lba48 blknr (i + k + 1)) = mem at hholds ⊢
  rw [hsplit, holds_append, holds_append, length_sectors] at hholds
  have hread := hholds.2.1.read_eq
  rwa [hlen] at hread

/-! ### What is read -/

/-- The blocks before the first error are read; these are all blocks if there is none. -/
structure Reads (rep : Reports) (disk : Disk) (w blknr blkcnt buffer : ℕ) (r : ℕ × (ℕ → Half)) :
    Prop where
  le : r.1 ≤ blkcnt
  transfers : ∀ i < r.1, Transfers rep w i
  error : r.1 < blkcnt → ¬ Transfers rep w r.1
  sector : ∀ i < r.1,
    read r.2 (buffer + i * (2 * sectorWords)) (2 * sectorWords) = disk.sector (blknr + i)
  all : (∀ i < blkcnt, Transfers rep w i) → r.1 = blkcnt

/-- So it is for every content of the disk. -/
def ReadsEvery : Prop :=
  ∀ disk, Reads rep disk s.waits blknr blkcnt buffer
    (ideRead rep disk sii0680 device blknr blkcnt buffer s buf)

/-- The block 2 ^ 28 is not reached from below: the range does not cross it, or there is an error
before it. -/
def Stays (rep : Reports) (w blknr blkcnt : ℕ) : Prop :=
  2 ^ 28 ≤ blknr ∨ blknr + blkcnt ≤ 2 ^ 28 ∨ ∃ j, blknr + j ≤ 2 ^ 28 ∧ ¬ Transfers rep w j

theorem address_of_le {n i : ℕ} (h : n + i < 2 ^ 48) (hi : 2 ^ 28 ≤ n ∨ n + i < 2 ^ 28) :
  address (decide (n &&& 0x0000fffff0000000 ≠ 0)) (n + i) = n + i
  := by
  have hiff := land_ne_zero_iff (n := n) (by omega)
  rw [address]
  split
  case isTrue => rfl
  case isFalse hnot =>
    rw [decide_eq_true_eq, hiff] at hnot
    exact Nat.mod_eq_of_lt (hi.resolve_left hnot)

theorem reads_of_stays (h : blknr + blkcnt ≤ 2 ^ 48) (hstays : Stays rep s.waits blknr blkcnt) :
  ReadsEvery rep sii0680 device blknr blkcnt buffer s buf
  := by
  intro disk
  obtain ⟨m, hm, hall, hend, hrun⟩ :=
    ideRead_run rep disk sii0680 device blknr blkcnt buffer s buf h
  rw [hrun]
  refine ⟨hm, hall, hend, ?_, ?_⟩
  · intro i hi
    rw [read_store_sectors _ _ _ _ _ hi, address_of_le (by omega)]
    obtain hhigh | hlow | ⟨j, hj, hnot⟩ := hstays
    · exact Or.inl hhigh
    · right
      omega
    · right
      have hle : m ≤ j := by
        by_contra hlt
        exact hnot (hall j (not_le.mp hlt))
      omega
  · intro htransfers
    by_contra hne
    have hlt : m < blkcnt := by omega
    exact hend hlt (htransfers m hlt)

/-- All halfwords of the sector 0 are 0, and all others are 1. -/
def marked : Disk where
  sector i := List.replicate (2 * sectorWords) (if i = 0 then 0 else 1)
  length_sector _ := List.length_replicate

/-- The block 2 ^ 28 is read from the sector 0. -/
theorem not_reads_of_not_stays (h : blknr + blkcnt ≤ 2 ^ 48)
    (hstays : ¬ Stays rep s.waits blknr blkcnt) :
  ¬ Reads rep marked s.waits blknr blkcnt buffer
    (ideRead rep marked sii0680 device blknr blkcnt buffer s buf)
  := by
  rw [Stays, not_or, not_or] at hstays
  obtain ⟨hlow, hcross, htransfers⟩ := hstays
  obtain ⟨m, hm, hall, hend, hrun⟩ :=
    ideRead_run rep marked sii0680 device blknr blkcnt buffer s buf h
  rw [hrun]
  intro hreads
  have hlt : 2 ^ 28 - blknr < m := by
    by_contra hle
    exact hend (by omega) (by
      by_contra hnot
      exact htransfers ⟨m, by omega, hnot⟩)
  have hsector := hreads.sector _ hlt
  have hmode : ¬ blknr &&& 0x0000fffff0000000 ≠ 0 := (land_ne_zero_iff (by omega)).not.mpr hlow
  have hblock : blknr + (2 ^ 28 - blknr) = 2 ^ 28 := by omega
  rw [read_store_sectors _ _ _ _ _ hlt, hblock, decide_eq_false hmode] at hsector
  exact absurd hsector (by decide)

/-- The blocks before the first error are read, whatever the disk has, exactly if the block 2 ^ 28
is not reached from below. -/
theorem readsEvery_iff (h : blknr + blkcnt ≤ 2 ^ 48) :
  ReadsEvery rep sii0680 device blknr blkcnt buffer s buf ↔ Stays rep s.waits blknr blkcnt
  := by
  constructor
  · intro hreads
    by_contra hstays
    exact not_reads_of_not_stays rep sii0680 device blknr blkcnt buffer s buf h hstays
      (hreads marked)
  · exact reads_of_stays rep sii0680 device blknr blkcnt buffer s buf h

end Read

/-- A drive that is ready whenever it is asked, and always has data. -/
def working : Reports where
  status _ _ := 0x58
  power := 0xff

/-- Nothing was written to the registers. -/
def fresh : State := ⟨fun _ => 0, fun _ => 0, [], 0⟩

/-- One block behind the range of 28 bits is read from the last sector of it on. -/
theorem readsEvery_iff_one :
  2 ^ 28 + 1 ≤ 2 ^ 48 ∧ (ReadsEvery working false 0 (2 ^ 28) 1 0 fresh (fun _ => 0)
    ↔ Stays working 0 (2 ^ 28) 1)
  := ⟨by decide, readsEvery_iff working false 0 (2 ^ 28) 1 0 fresh (fun _ => 0) (by decide)⟩

theorem waitLoop_of_not_busy {status : ℕ → Byte} {i : ℕ} (h : status i &&& statBusy = 0)
    (delay : ℕ) :
  waitLoop status delay i = status i
  := by
  cases delay with
  | zero => rfl
  | succ delay => exact if_neg (not_ne_iff.mpr h)

theorem transfers_working (j : ℕ) :
  Transfers working 0 j
  := by
  have hwaited : ∀ w t, waited working w t = 0x58 := by
    intro w t
    have hready : working.status w 0 &&& statBusy = 0 :=
      show (0x58 : Byte) &&& statBusy = 0 by decide
    exact waitLoop_of_not_busy hready _
  constructor
  · rw [hwaited]
    decide
  · rw [hwaited]
    decide
  · constructor
    · rw [hwaited]
      decide
    · rw [hwaited]
      decide

/-- Two blocks are read from the last sector of 28 bits on. -/
theorem not_readsEvery_crossing :
  ¬ ReadsEvery working false 0 (2 ^ 28 - 1) 2 0 fresh (fun _ => 0)
  := by
  intro hreads
  have hstays : ¬ Stays working 0 (2 ^ 28 - 1) 2 := by
    rintro (h | h | ⟨j, -, h⟩)
    · exact absurd h (by decide)
    · exact absurd h (by decide)
    · exact h (transfers_working j)
  exact not_reads_of_not_stays working false 0 (2 ^ 28 - 1) 2 0 fresh (fun _ => 0) (by decide)
    hstays (hreads marked)

end SamIde
