import UBoot.Lib.Logged
import UBoot.Lib.Memory

/-!
# SATA block transfers

`sata_read` and `sata_write` of `drivers/block/sata_dwc.c` cut a transfer into commands of at most
`SATA_MAX_READ_BLK` sectors.

The count of the blocks that are left is reduced before a command is given, so the blocks of a
command that fails count as transferred; and a transfer of no blocks gives one command with a sector
count of zero, which stands for the largest count.  `sata_iff` says that these, and blocks that do
not fit in the address of a command, are all that goes wrong.
-/

namespace SataDwc

open Logged

/-! ### The commands -/

/-- `enum sata_dev_state`. -/
inductive DevState where
  | init
  | ready
  | nodevice
  | error
  deriving DecidableEq

inductive Direction where
  | read
  | write
  deriving DecidableEq

/-- `struct ata_taskfile`: the registers that a command is given in. -/
structure Taskfile where
  command : ℕ
  hobFeature : ℕ := 0
  feature : ℕ
  hobNsect : ℕ := 0
  nsect : ℕ
  hobLbal : ℕ := 0
  hobLbam : ℕ := 0
  hobLbah : ℕ := 0
  lbal : ℕ
  lbam : ℕ
  lbah : ℕ
  device : ℕ
  deriving DecidableEq

/-- What `ata_exec_internal` returns, and the feature register that it leaves in the task file. -/
structure Answer where
  errMask : ℕ
  feature : ℕ
  deriving DecidableEq

/-- A command, the data it is for, and the answer. -/
structure Event where
  tf : Taskfile
  pdata : Word
  nBlock : ℕ
  answer : Answer
  deriving DecidableEq

/-- `AC_ERR_DEV`. -/
def errDev : ℕ := 1 <<< 0

/-- `AC_ERR_OTHER`. -/
def errOther : ℕ := 1 <<< 8

/-- `AC_ERR_NODEV_HINT`. -/
def errNodevHint : ℕ := 1 <<< 9

/-- `ATA_ABORTED`. -/
def aborted : ℕ := 1 <<< 2

/-- `sata_dev_desc[device].blksz`, which is `ATA_SECT_SIZE` for every device. -/
def blksz : ℕ := 512

/-- `SATA_MAX_READ_BLK` and `SATA_MAX_WRITE_BLK`, with `CONFIG_LBA48` and without it. -/
def maxBlk (lba48 : Bool) : ℕ := if lba48 then 0xffff else 0xff

/-- The command `tf.command`. -/
def command (lba48 : Bool) : Direction → ℕ
  | .read => if lba48 then 0x24 else 0x20
  | .write => if lba48 then 0x34 else 0x30

/-- The task file for `nBlock` sectors from `block` on. -/
def taskfile (lba48 : Bool) (dir : Direction) (block : Word) (nBlock : ℕ) : Taskfile :=
  let block := block.toNat
  if lba48 then
    { command := command lba48 dir
      hobFeature := 31
      feature := 31
      hobNsect := nBlock >>> 8 &&& 0xff
      nsect := nBlock &&& 0xff
      hobLbah := 0x0
      hobLbam := 0x0
      hobLbal := block >>> 24 &&& 0xff
      lbah := block >>> 16 &&& 0xff
      lbam := block >>> 8 &&& 0xff
      lbal := block &&& 0xff
      device := 1 <<< 6 }
  else
    { command := command lba48 dir
      feature := 31
      nsect := nBlock &&& 0xff
      lbah := block >>> 16 &&& 0xff
      lbam := block >>> 8 &&& 0xff
      lbal := block &&& 0xff
      device := (block >>> 24 &&& 0xf) ||| 1 <<< 6 }

/-- `err_mask == AC_ERR_DEV && tf.feature & ATA_ABORTED`: the command is given once more. -/
def Answer.Again (a : Answer) : Prop := a.errMask = errDev ∧ a.feature &&& aborted ≠ 0

instance Answer.decidableAgain (a : Answer) : Decidable a.Again := instDecidableAnd

/-- What is returned for an answer. -/
def judge (a : Answer) (retry : LogM Event ℤ) : LogM Event ℤ :=
  if a.errMask ≠ 0 then
    if a.errMask &&& errNodevHint ≠ 0 then return -2
    else if a.Again then retry
    else return 0
  else return 1

/-- `ata_exec_internal`; `dev i` is the answer to the command `i` of a transfer. -/
def exec (dev : ℕ → Answer) (tf : Taskfile) (pdata : Word) (nBlock : ℕ) : LogM Event Answer :=
  ask (fun log => dev log.length) (Event.mk tf pdata nBlock)

/-- `ata_dev_read_sectors` and `ata_dev_write_sectors` from `retry` on. -/
def retry (lba48 : Bool) (dir : Direction) (dev : ℕ → Answer) (pdata block : Word) (nBlock : ℕ) :
    ℕ → LogM Event ℤ
  | 0 => do
    let a ← exec dev (taskfile lba48 dir block nBlock) pdata nBlock
    judge a (return -2)
  | mayFallback + 1 => do
    let a ← exec dev (taskfile lba48 dir block nBlock) pdata nBlock
    judge a (retry lba48 dir dev pdata block nBlock mayFallback)

/-- `ata_dev_read_sectors` and `ata_dev_write_sectors`. -/
def ataDevSectors (lba48 : Bool) (dir : Direction) (state : DevState) (dev : ℕ → Answer)
    (pdata block : Word) (nBlock : ℕ) : LogM Event ℤ :=
  if state = .error then return 0 else retry lba48 dir dev pdata block nBlock 1

theorem maxBlk_pos (lba48 : Bool) :
  0 < maxBlk lba48
  := by
  cases lba48 <;> decide

/-- `smallblks`, the blocks of the next command. -/
def smallblks (lba48 : Bool) (blks : ℕ) : ℕ :=
  if blks > maxBlk lba48 then maxBlk lba48 else blks

theorem smallblks_eq_min (lba48 : Bool) (blks : ℕ) :
  smallblks lba48 blks = min blks (maxBlk lba48)
  := by
  rw [smallblks]
  split <;> omega

/-- The loop over the chunks: the blocks that are left at its end. -/
def loop (lba48 : Bool) (dir : Direction) (state : DevState) (dev : ℕ → Answer) (blks : ℕ)
    (start bufAddr : Word) : LogM Event ℕ := do
  let n := smallblks lba48 blks
  let rc ← ataDevSectors lba48 dir state dev bufAddr start n
  if rc ≠ 1 then return blks - n
  else if blks - n ≠ 0 then
    loop lba48 dir state dev (blks - n) (start + BitVec.ofNat 32 n)
      (bufAddr + BitVec.ofNat 32 (blksz * n))
  else return 0
  termination_by blks
  decreasing_by
    have hpos := maxBlk_pos lba48
    simp only [n, smallblks_eq_min] at *
    omega

/-- A transfer. -/
def transfer (lba48 : Bool) (dir : Direction) (state : DevState) (dev : ℕ → Answer) (blknr : Word)
    (blkcnt : ℕ) (buffer : Word) : LogM Event ℕ :=
  if state ≠ .ready then return 0
  else do
    let left ← loop lba48 dir state dev blkcnt blknr buffer
    return blkcnt - left

/-- `sata_read`. -/
def sataRead (lba48 : Bool) := transfer lba48 .read

/-- `sata_write`. -/
def sataWrite (lba48 : Bool) := transfer lba48 .write

/-! ### What the drive makes of them -/

/-- The first sector of a command. -/
def Event.lba (lba48 : Bool) (e : Event) : ℕ :=
  if lba48 then
    e.tf.lbal + 2 ^ 8 * e.tf.lbam + 2 ^ 16 * e.tf.lbah + 2 ^ 24 * e.tf.hobLbal
      + 2 ^ 32 * e.tf.hobLbam + 2 ^ 40 * e.tf.hobLbah
  else e.tf.lbal + 2 ^ 8 * e.tf.lbam + 2 ^ 16 * e.tf.lbah + 2 ^ 24 * (e.tf.device % 2 ^ 4)

/-- The number of sectors of a command: zero stands for the largest one. -/
def Event.sectors (lba48 : Bool) (e : Event) : ℕ :=
  if lba48 then
    let n := e.tf.nsect + 2 ^ 8 * e.tf.hobNsect
    if n = 0 then 65536 else n
  else if e.tf.nsect = 0 then 256 else e.tf.nsect

/-- No error is reported for the command.  (That is also so when `ata_exec_internal` gives up before
it issues the command, as the drive stays busy or the tag is taken.) -/
def Answer.Good (a : Answer) : Prop := a.errMask = 0

instance Answer.decidableGood (a : Answer) : Decidable a.Good := instDecidableEqNat _ _

/-- The number of sectors whose blocks fit in the address of a command. -/
def addressable (lba48 : Bool) : ℕ := if lba48 then 2 ^ 32 else 2 ^ 28

theorem lba_taskfile (lba48 : Bool) (dir : Direction) (block pdata : Word) (nBlock : ℕ)
    (a : Answer) :
  (Event.mk (taskfile lba48 dir block nBlock) pdata nBlock a).lba lba48
    = block.toNat % addressable lba48
  := by
  have hlt := block.isLt
  have hbyte (n : ℕ) : n &&& 0xff = n % 2 ^ 8 := Nat.and_two_pow_sub_one_eq_mod n 8
  have hnibble (n : ℕ) : n &&& 0xf = n % 2 ^ 4 := Nat.and_two_pow_sub_one_eq_mod n 4
  have hdevice (n : ℕ) : (n % 2 ^ 4 ||| 1 <<< 6) % 2 ^ 4 = n % 2 ^ 4 := by
    rw [Nat.or_mod_two_pow, Nat.mod_mod]
    exact Nat.or_zero _
  cases lba48 with
  | true =>
    simp only [Event.lba, taskfile, addressable, if_true, hbyte, Nat.shiftRight_eq_div_pow]
    omega
  | false =>
    simp only [Event.lba, taskfile, addressable, Bool.false_eq_true, if_false, hbyte, hnibble,
      hdevice, Nat.shiftRight_eq_div_pow]
    omega

theorem sectors_taskfile (lba48 : Bool) (dir : Direction) (block pdata : Word) {nBlock : ℕ}
    (hpos : 0 < nBlock) (hle : nBlock ≤ maxBlk lba48) (a : Answer) :
  (Event.mk (taskfile lba48 dir block nBlock) pdata nBlock a).sectors lba48 = nBlock
  := by
  have hbyte (n : ℕ) : n &&& 0xff = n % 2 ^ 8 := Nat.and_two_pow_sub_one_eq_mod n 8
  cases lba48 with
  | true =>
    simp only [maxBlk, if_true] at hle
    simp only [Event.sectors, taskfile, if_true, hbyte, Nat.shiftRight_eq_div_pow]
    split <;> omega
  | false =>
    simp only [maxBlk, Bool.false_eq_true, if_false] at hle
    simp only [Event.sectors, taskfile, Bool.false_eq_true, if_false, hbyte]
    split <;> omega

/-- A command for the `n` sectors that lie `k` sectors after the start of the transfer. -/
def chunkEvent (lba48 : Bool) (dir : Direction) (blknr buffer : Word) (k n : ℕ) (a : Answer) :
    Event :=
  ⟨taskfile lba48 dir (blknr + BitVec.ofNat 32 k) n, buffer + BitVec.ofNat 32 (blksz * k), n, a⟩

/-- The number of sectors of the commands for which no error is reported. -/
def goodSectors (lba48 : Bool) (events : List Event) : ℕ :=
  ((events.filter fun e => e.answer.Good).map (Event.sectors lba48)).sum

@[simp] theorem goodSectors_append (lba48 : Bool) (events new : List Event) :
  goodSectors lba48 (events ++ new) = goodSectors lba48 events + goodSectors lba48 new
  := by
  simp [goodSectors]

/-- What a transfer is for. -/
structure Moves (lba48 : Bool) (blknr : Word) (blkcnt : ℕ) (buffer : Word) (events : List Event)
    (returned : ℕ) : Prop where
  /-- The sectors of a command belong to the transfer. -/
  inside : ∀ e ∈ events,
    blknr.toNat ≤ e.lba lba48 ∧ e.lba lba48 + e.sectors lba48 ≤ blknr.toNat + blkcnt
  /-- Every sector has its place in the buffer. -/
  placed : ∀ e ∈ events,
    e.pdata.toNat = buffer.toNat + blksz * (e.lba lba48 - blknr.toNat)
  returned : returned = goodSectors lba48 events

/-- The commands `i` and, if the drive wants it, `i + 1` are for one chunk; if it is carried out,
what is the number of the next command? -/
def carriesOut (dev : ℕ → Answer) (i : ℕ) : Option ℕ :=
  if (dev i).Good then some (i + 1)
  else if (dev i).Again ∧ (dev (i + 1)).Good then some (i + 2)
  else none

/-- The drive carries out the next chunks, from the command `i` on. -/
def CarriesOutAll (dev : ℕ → Answer) : ℕ → ℕ → Prop
  | 0, _ => True
  | chunks + 1, i => ∃ j, carriesOut dev i = some j ∧ CarriesOutAll dev chunks j

/-- The offset of the last chunk of a transfer. -/
def lastChunk (lba48 : Bool) (blkcnt : ℕ) : ℕ := maxBlk lba48 * ((blkcnt - 1) / maxBlk lba48)

/-- The number of chunks of a transfer, where a transfer of no blocks has one too. -/
def chunks (lba48 : Bool) (blkcnt : ℕ) : ℕ := (blkcnt - 1) / maxBlk lba48 + 1

/-! ### A chunk -/

theorem judge_of_good {a : Answer} (h : a.Good) (retry : LogM Event ℤ) :
  judge a retry = pure 1
  := by
  rw [Answer.Good] at h
  simp [judge, h]

theorem judge_of_again {a : Answer} (h : a.Again) (retry : LogM Event ℤ) :
  judge a retry = retry
  := by
  have herr := h.1
  have hhint : errDev &&& errNodevHint = 0 := by decide
  have hdev : errDev ≠ 0 := by decide
  rw [judge, herr, if_pos hdev, hhint, if_neg (not_not.mpr rfl), if_pos h]

/-- Any other answer ends the attempts. -/
theorem exists_judge_of_bad {a : Answer} (hgood : ¬ a.Good) (hagain : ¬ a.Again) :
  ∃ rc, rc ≠ 1 ∧ ∀ retry, judge a retry = pure rc
  := by
  have hmask : a.errMask ≠ 0 := hgood
  by_cases hhint : a.errMask &&& errNodevHint ≠ 0
  · refine ⟨-2, by decide, ?_⟩
    intro retry
    rw [judge, if_pos hmask, if_pos hhint]
  · refine ⟨0, by decide, ?_⟩
    intro retry
    rw [judge, if_pos hmask, if_neg hhint, if_neg hagain]

/-- The commands for a chunk are all alike, and there is one or there are two of them. -/
theorem exists_ataDevSectors (lba48 : Bool) (dir : Direction) (dev : ℕ → Answer)
    (pdata block : Word) (nBlock : ℕ) (log : List Event) :
  ∃ (rc : ℤ) (answers : List Answer),
    ataDevSectors lba48 dir .ready dev pdata block nBlock log
        = (rc, log ++ answers.map (Event.mk (taskfile lba48 dir block nBlock) pdata nBlock))
      ∧ answers.head? = some (dev log.length)
      ∧ (rc = 1 ∧ carriesOut dev log.length = some (log.length + answers.length)
          ∧ (answers.filter fun a => a.Good).length = 1
        ∨ rc ≠ 1 ∧ carriesOut dev log.length = none
          ∧ (answers.filter fun a => a.Good).length = 0)
  := by
  let e := Event.mk (taskfile lba48 dir block nBlock) pdata nBlock
  have hfirst : ataDevSectors lba48 dir .ready dev pdata block nBlock log
      = judge (dev log.length) (retry lba48 dir dev pdata block nBlock 0)
          (log ++ [e (dev log.length)]) := rfl
  rw [hfirst]
  by_cases hgood : (dev log.length).Good
  · refine ⟨1, [dev log.length], ?_, rfl, .inl ⟨rfl, ?_, ?_⟩⟩
    · rw [judge_of_good hgood]
      rfl
    · rw [carriesOut, if_pos hgood]
      rfl
    · simp [hgood]
  by_cases hagain : (dev log.length).Again
  · have hsecond : retry lba48 dir dev pdata block nBlock 0 (log ++ [e (dev log.length)])
        = judge (dev (log.length + 1)) (pure (-2))
            (log ++ [e (dev log.length), e (dev (log.length + 1))]) := by
      have hlen : (log ++ [e (dev log.length)]).length = log.length + 1 := List.length_append
      have hrun : retry lba48 dir dev pdata block nBlock 0 (log ++ [e (dev log.length)])
        = judge (dev (log ++ [e (dev log.length)]).length) (pure (-2))
            (log ++ [e (dev log.length)] ++ [e (dev (log ++ [e (dev log.length)]).length)]) := rfl
      rw [hrun, hlen, List.append_assoc]
      rfl
    rw [judge_of_again hagain, hsecond]
    by_cases hgood' : (dev (log.length + 1)).Good
    · refine ⟨1, [dev log.length, dev (log.length + 1)], ?_, rfl, .inl ⟨rfl, ?_, ?_⟩⟩
      · rw [judge_of_good hgood']
        rfl
      · rw [carriesOut, if_neg hgood, if_pos ⟨hagain, hgood'⟩]
        rfl
      · simp [hgood, hgood']
    · have hnone : carriesOut dev log.length = none := by
        rw [carriesOut, if_neg hgood, if_neg (fun h => hgood' h.2)]
      have hcount : ([dev log.length, dev (log.length + 1)].filter fun a => a.Good).length = 0 := by
        simp [hgood, hgood']
      by_cases hagain' : (dev (log.length + 1)).Again
      · refine ⟨-2, [dev log.length, dev (log.length + 1)], ?_, rfl,
          .inr ⟨by decide, hnone, hcount⟩⟩
        rw [judge_of_again hagain']
        rfl
      · obtain ⟨rc, hrc, hjudge⟩ := exists_judge_of_bad hgood' hagain'
        refine ⟨rc, [dev log.length, dev (log.length + 1)], ?_, rfl, .inr ⟨hrc, hnone, hcount⟩⟩
        rw [hjudge]
        rfl
  · obtain ⟨rc, hrc, hjudge⟩ := exists_judge_of_bad hgood hagain
    refine ⟨rc, [dev log.length], ?_, rfl, .inr ⟨hrc, ?_, ?_⟩⟩
    · rw [hjudge]
      rfl
    · rw [carriesOut, if_neg hgood, if_neg (fun h => hagain h.1)]
    · simp [hgood]

/-! ### The loop -/

section Loop

variable {lba48 : Bool} {dir : Direction} {dev : ℕ → Answer} {state : DevState}

/-- What the loop does for `blks` blocks, from the command `i` on: it logs `events`, and `left` is
its result. -/
structure Ran (lba48 : Bool) (dir : Direction) (dev : ℕ → Answer) (blks : ℕ) (start bufAddr : Word)
    (i left : ℕ) (events : List Event) : Prop where
  event : ∀ e ∈ events, ∃ k n a, e = chunkEvent lba48 dir start bufAddr k n a
    ∧ k ≤ lastChunk lba48 blks ∧ k + n ≤ blks ∧ 0 < n ∧ n ≤ maxBlk lba48
  served : CarriesOutAll dev (chunks lba48 blks) i → left = 0 ∧ goodSectors lba48 events = blks
    ∧ ∃ n a, 0 < n ∧ n ≤ maxBlk lba48
      ∧ chunkEvent lba48 dir start bufAddr (lastChunk lba48 blks) n a ∈ events
  failed : ¬ CarriesOutAll dev (chunks lba48 blks) i → goodSectors lba48 events + left < blks

theorem goodSectors_map {tf : Taskfile} {pdata : Word} {nBlock n : ℕ}
    (h : ∀ a, (Event.mk tf pdata nBlock a).sectors lba48 = n) (answers : List Answer) :
  goodSectors lba48 (answers.map (Event.mk tf pdata nBlock))
    = (answers.filter fun a => a.Good).length * n
  := by
  induction answers with
  | nil => simp [goodSectors]
  | cons a answers ih =>
    rw [List.map_cons, ← List.singleton_append, goodSectors_append, ih]
    by_cases ha : a.Good
    · simp [goodSectors, ha, h, Nat.add_mul, Nat.add_comm]
    · simp [goodSectors, ha]

/-- The last chunk. -/
theorem lastChunk_of_le {blks : ℕ} (hpos : 0 < blks) (h : blks ≤ maxBlk lba48) :
  lastChunk lba48 blks = 0 ∧ chunks lba48 blks = 1 ∧ smallblks lba48 blks = blks
  := by
  have hdiv : (blks - 1) / maxBlk lba48 = 0 := Nat.div_eq_of_lt (by omega)
  rw [lastChunk, chunks, hdiv, smallblks, if_neg (by omega)]
  exact ⟨rfl, rfl, rfl⟩

/-- A chunk that is not the last one. -/
theorem lastChunk_of_lt {blks : ℕ} (h : maxBlk lba48 < blks) :
  lastChunk lba48 blks = maxBlk lba48 + lastChunk lba48 (blks - maxBlk lba48)
    ∧ chunks lba48 blks = chunks lba48 (blks - maxBlk lba48) + 1
    ∧ smallblks lba48 blks = maxBlk lba48
  := by
  have hdiv : (blks - 1) / maxBlk lba48 = (blks - maxBlk lba48 - 1) / maxBlk lba48 + 1 := by
    rw [Nat.div_eq_sub_div (maxBlk_pos lba48) (by omega), Nat.sub_right_comm]
  rw [lastChunk, lastChunk, chunks, chunks, hdiv, smallblks, if_pos h, Nat.mul_add, Nat.mul_one,
    Nat.add_comm]
  exact ⟨rfl, rfl, rfl⟩

/-- The chunks of the rest of a transfer are chunks of the transfer. -/
theorem chunkEvent_add (start bufAddr : Word) (k m n : ℕ) (a : Answer) :
  chunkEvent lba48 dir (start + BitVec.ofNat 32 m) (bufAddr + BitVec.ofNat 32 (blksz * m)) k n a
    = chunkEvent lba48 dir start bufAddr (m + k) n a
  := by
  rw [chunkEvent, chunkEvent, Nat.mul_add, BitVec.ofNat_add, BitVec.ofNat_add, BitVec.add_assoc,
    BitVec.add_assoc]

theorem chunkEvent_zero (start bufAddr : Word) (n : ℕ) :
  Event.mk (taskfile lba48 dir start n) bufAddr n = chunkEvent lba48 dir start bufAddr 0 n
  := by
  funext a
  rw [chunkEvent, Nat.mul_zero, BitVec.add_zero, BitVec.add_zero]

theorem sectors_chunkEvent (start bufAddr : Word) (k : ℕ) {n : ℕ} (hpos : 0 < n)
    (hle : n ≤ maxBlk lba48) (a : Answer) :
  (chunkEvent lba48 dir start bufAddr k n a).sectors lba48 = n
  := sectors_taskfile lba48 dir _ _ hpos hle a

/-- One turn of the loop. -/
theorem loop_run {blks : ℕ} {start bufAddr : Word} {log new : List Event} {rc : ℤ}
    (h : ataDevSectors lba48 dir state dev bufAddr start (smallblks lba48 blks) log
      = (rc, log ++ new)) :
  loop lba48 dir state dev blks start bufAddr log
    = if rc ≠ 1 then (blks - smallblks lba48 blks, log ++ new)
      else if blks - smallblks lba48 blks ≠ 0 then
        loop lba48 dir state dev (blks - smallblks lba48 blks)
          (start + BitVec.ofNat 32 (smallblks lba48 blks))
          (bufAddr + BitVec.ofNat 32 (blksz * smallblks lba48 blks)) (log ++ new)
      else (0, log ++ new)
  := by
  rw [loop]
  have hbind {α β : Type} (x : LogM Event α) (f : α → LogM Event β) :
    (x >>= f) log = f (x log).1 (x log).2 := rfl
  rw [hbind, h]
  dsimp only
  split
  · rfl
  split
  · rfl
  · rfl

section Step

variable {blks left : ℕ} {start bufAddr : Word} {i : ℕ} {answers : List Answer}

/-- The commands for the first chunk. -/
theorem exists_event_map {n : ℕ} {e : Event}
    (he : e ∈ answers.map (Event.mk (taskfile lba48 dir start n) bufAddr n)) :
  ∃ a, e = chunkEvent lba48 dir start bufAddr 0 n a
  := by
  rw [chunkEvent_zero] at he
  obtain ⟨a, -, rfl⟩ := List.mem_map.mp he
  exact ⟨a, rfl⟩

theorem smallblks_bounds (lba48 : Bool) (hpos : 0 < blks) :
  0 < smallblks lba48 blks ∧ smallblks lba48 blks ≤ maxBlk lba48 ∧ smallblks lba48 blks ≤ blks
  := by
  have hmax := maxBlk_pos lba48
  rw [smallblks_eq_min]
  omega

theorem goodSectors_chunk (hpos : 0 < blks) :
  goodSectors lba48 (answers.map
      (Event.mk (taskfile lba48 dir start (smallblks lba48 blks)) bufAddr (smallblks lba48 blks)))
    = (answers.filter fun a => a.Good).length * smallblks lba48 blks
  := by
  obtain ⟨hsmall, hmax, -⟩ := smallblks_bounds lba48 hpos
  apply goodSectors_map
  intro a
  exact sectors_taskfile lba48 dir start bufAddr hsmall hmax a

/-- The first chunk is not carried out. -/
theorem ran_of_bad (hpos : 0 < blks) (hnone : carriesOut dev i = none)
    (hcount : (answers.filter fun a => a.Good).length = 0) :
  Ran lba48 dir dev blks start bufAddr i (blks - smallblks lba48 blks)
    (answers.map
      (Event.mk (taskfile lba48 dir start (smallblks lba48 blks)) bufAddr (smallblks lba48 blks)))
  := by
  obtain ⟨hsmall, hmax, hle⟩ := smallblks_bounds lba48 hpos
  constructor
  case event =>
    intro e he
    obtain ⟨a, rfl⟩ := exists_event_map he
    exact ⟨0, _, a, rfl, Nat.zero_le _, by omega, hsmall, hmax⟩
  case served =>
    rintro ⟨j, hj, -⟩
    rw [hnone] at hj
    cases hj
  case failed =>
    intro _
    rw [goodSectors_chunk hpos, hcount]
    omega

/-- The last chunk is carried out. -/
theorem ran_of_last (hpos : 0 < blks) (hle : blks ≤ maxBlk lba48) {j : ℕ}
    (hsome : carriesOut dev i = some j) (hcount : (answers.filter fun a => a.Good).length = 1) :
  Ran lba48 dir dev blks start bufAddr i 0
    (answers.map
      (Event.mk (taskfile lba48 dir start (smallblks lba48 blks)) bufAddr (smallblks lba48 blks)))
  := by
  obtain ⟨hlast, hchunks, hsmall⟩ := lastChunk_of_le hpos hle
  have hne : answers ≠ [] := by
    rintro rfl
    cases hcount
  constructor
  case event =>
    intro e he
    obtain ⟨a, rfl⟩ := exists_event_map he
    exact ⟨0, _, a, rfl, Nat.zero_le _, by omega, by omega, by omega⟩
  case served =>
    intro _
    refine ⟨rfl, ?_, ?_⟩
    · rw [goodSectors_chunk hpos, hcount, hsmall, Nat.one_mul]
    · obtain ⟨a, ha⟩ := List.exists_mem_of_ne_nil _ hne
      rw [hlast, hsmall, chunkEvent_zero]
      exact ⟨blks, a, hpos, hle, List.mem_map_of_mem ha⟩
  case failed =>
    intro hall
    rw [hchunks] at hall
    exact absurd ⟨j, hsome, trivial⟩ hall

/-- A chunk that is not the last one is carried out. -/
theorem ran_of_more (hlt : maxBlk lba48 < blks) {j : ℕ}
    (hsome : carriesOut dev i = some j) (hcount : (answers.filter fun a => a.Good).length = 1)
    {rest : List Event}
    (hrest : Ran lba48 dir dev (blks - maxBlk lba48) (start + BitVec.ofNat 32 (maxBlk lba48))
      (bufAddr + BitVec.ofNat 32 (blksz * maxBlk lba48)) j left rest) :
  Ran lba48 dir dev blks start bufAddr i left
    (answers.map
      (Event.mk (taskfile lba48 dir start (smallblks lba48 blks)) bufAddr (smallblks lba48 blks))
      ++ rest)
  := by
  obtain ⟨hlast, hchunks, hsmall⟩ := lastChunk_of_lt hlt
  have hmax := maxBlk_pos lba48
  have hiff : CarriesOutAll dev (chunks lba48 blks) i
      ↔ CarriesOutAll dev (chunks lba48 (blks - maxBlk lba48)) j := by
    rw [hchunks]
    constructor
    · rintro ⟨j', hj', hall⟩
      rw [hsome] at hj'
      cases hj'
      exact hall
    · intro hall
      exact ⟨j, hsome, hall⟩
  have hgood : goodSectors lba48 (answers.map (Event.mk
      (taskfile lba48 dir start (smallblks lba48 blks)) bufAddr (smallblks lba48 blks)))
        = smallblks lba48 blks := by
    rw [goodSectors_chunk (by omega), hcount, Nat.one_mul]
  constructor
  case event =>
    intro e he
    obtain he | he := List.mem_append.mp he
    · obtain ⟨a, rfl⟩ := exists_event_map he
      exact ⟨0, _, a, rfl, Nat.zero_le _, by omega, by omega, by omega⟩
    · obtain ⟨k, n, a, rfl, hk, hn, hpos, hle⟩ := hrest.event e he
      rw [chunkEvent_add]
      exact ⟨_, n, a, rfl, by omega, by omega, hpos, hle⟩
  case served =>
    intro hall
    obtain ⟨hleft, hrestgood, n, a, hpos, hle, hmem⟩ := hrest.served (hiff.mp hall)
    refine ⟨hleft, ?_, n, a, hpos, hle, ?_⟩
    · rw [goodSectors_append, hgood, hrestgood]
      omega
    · rw [chunkEvent_add] at hmem
      rw [hlast]
      exact List.mem_append_right _ hmem
  case failed =>
    intro hall
    have hrestgood := hrest.failed fun h => hall (hiff.mpr h)
    rw [goodSectors_append, hgood]
    omega

end Step

theorem ran_loop {blks : ℕ} (hpos : 0 < blks) (start bufAddr : Word) (log : List Event) :
  ∃ left events, loop lba48 dir .ready dev blks start bufAddr log = (left, log ++ events)
    ∧ Ran lba48 dir dev blks start bufAddr log.length left events
  := by
  induction blks using Nat.strong_induction_on generalizing start bufAddr log with
  | _ blks ih =>
    obtain ⟨rc, answers, hrun, -, hanswers⟩ :=
      exists_ataDevSectors lba48 dir dev bufAddr start (smallblks lba48 blks) log
    have hmax := maxBlk_pos lba48
    have hsmall := smallblks_eq_min lba48 blks
    rw [loop_run hrun]
    obtain ⟨rfl, hsome, hcount⟩ | ⟨hrc, hnone, hcount⟩ := hanswers
    · by_cases hle : blks ≤ maxBlk lba48
      · rw [if_neg (not_not.mpr rfl), if_neg (by omega)]
        exact ⟨0, _, rfl, ran_of_last hpos hle hsome hcount⟩
      · have hlt : maxBlk lba48 < blks := not_le.mp hle
        rw [if_neg (not_not.mpr rfl), if_pos (by omega)]
        obtain ⟨left, rest, hloop, hrest⟩ := ih (blks - smallblks lba48 blks) (by omega) (by omega)
          (start + BitVec.ofNat 32 (smallblks lba48 blks))
          (bufAddr + BitVec.ofNat 32 (blksz * smallblks lba48 blks))
          (log ++ answers.map (Event.mk (taskfile lba48 dir start (smallblks lba48 blks)) bufAddr
            (smallblks lba48 blks)))
        rw [List.length_append, List.length_map, (lastChunk_of_lt hlt).2.2] at hrest
        rw [hloop, List.append_assoc]
        exact ⟨left, _, rfl, ran_of_more hlt hsome hcount hrest⟩
    · rw [if_pos hrc]
      exact ⟨_, _, rfl, ran_of_bad hpos hnone hcount⟩

/-- A transfer of no blocks gives a command too. -/
theorem exists_mem_loop_zero (start bufAddr : Word) :
  ∃ a, chunkEvent lba48 dir start bufAddr 0 0 a
    ∈ events (loop lba48 dir .ready dev 0 start bufAddr)
  := by
  have hsmall : smallblks lba48 0 = 0 := by
    rw [smallblks_eq_min, Nat.zero_min]
  obtain ⟨rc, answers, hrun, hhead, -⟩ :=
    exists_ataDevSectors lba48 dir dev bufAddr start (smallblks lba48 0) []
  rw [events, loop_run hrun, hsmall, if_neg (not_not.mpr rfl), ite_self, chunkEvent_zero]
  exact ⟨_, List.mem_map_of_mem (List.mem_of_mem_head? hhead)⟩

end Loop

/-! ### The transfers -/

section Transfer

variable {lba48 : Bool} {dir : Direction} {dev : ℕ → Answer}

/-- Where a command lies. -/
theorem lba_chunkEvent (blknr buffer : Word) (k n : ℕ) (a : Answer) :
  (chunkEvent lba48 dir blknr buffer k n a).lba lba48 = (blknr.toNat + k) % addressable lba48
  := by
  have hdvd : addressable lba48 ∣ 2 ^ 32 := by
    cases lba48 <;> decide
  rw [chunkEvent, lba_taskfile, BitVec.toNat_add, BitVec.toNat_ofNat, Nat.add_mod_mod,
    Nat.mod_mod_of_dvd _ hdvd]

theorem pdata_chunkEvent {blknr buffer : Word} {k n : ℕ} (a : Answer)
    (h : buffer.toNat + blksz * k < 2 ^ 32) :
  (chunkEvent lba48 dir blknr buffer k n a).pdata.toNat = buffer.toNat + blksz * k
  := by
  rw [chunkEvent, BitVec.toNat_add, BitVec.toNat_ofNat, Nat.add_mod_mod, Nat.mod_eq_of_lt h]

/-- When does a transfer move what it is asked to move, and return how much that is? -/
def Served (lba48 : Bool) (dev : ℕ → Answer) (blknr : Word) (blkcnt : ℕ) : Prop :=
  0 < blkcnt ∧ CarriesOutAll dev (chunks lba48 blkcnt) 0
    ∧ blknr.toNat + lastChunk lba48 blkcnt < addressable lba48

theorem moves_of_served {blknr buffer : Word} {blkcnt left : ℕ} {events : List Event}
    (hbuf : buffer.toNat + blksz * blkcnt ≤ 2 ^ 32) (h : Served lba48 dev blknr blkcnt)
    (hran : Ran lba48 dir dev blkcnt blknr buffer 0 left events) :
  Moves lba48 blknr blkcnt buffer events (blkcnt - left)
  := by
  obtain ⟨hpos, hall, hlast⟩ := h
  obtain ⟨rfl, hgood, -⟩ := hran.served hall
  have hblksz : blksz = 512 := rfl
  constructor
  case inside =>
    intro e he
    obtain ⟨k, n, a, rfl, hk, hle, hn, hmax⟩ := hran.event e he
    rw [lba_chunkEvent, sectors_chunkEvent _ _ _ hn hmax, Nat.mod_eq_of_lt (by omega)]
    omega
  case placed =>
    intro e he
    obtain ⟨k, n, a, rfl, hk, hle, hn, hmax⟩ := hran.event e he
    have hoffset : blksz * k < blksz * blkcnt := Nat.mul_lt_mul_of_pos_left (by omega) (by decide)
    rw [lba_chunkEvent, pdata_chunkEvent a (by omega), Nat.mod_eq_of_lt (by omega),
      Nat.add_sub_cancel_left]
  case returned =>
    rw [hgood, Nat.sub_zero]

theorem served_of_moves {blknr buffer : Word} {blkcnt left : ℕ} {events : List Event}
    (hbuf : buffer.toNat + blksz * blkcnt ≤ 2 ^ 32) (hpos : 0 < blkcnt)
    (hran : Ran lba48 dir dev blkcnt blknr buffer 0 left events)
    (h : Moves lba48 blknr blkcnt buffer events (blkcnt - left)) :
  Served lba48 dev blknr blkcnt
  := by
  have hall : CarriesOutAll dev (chunks lba48 blkcnt) 0 := by
    by_contra hall
    have hfailed := hran.failed hall
    have hreturned := h.returned
    omega
  refine ⟨hpos, hall, ?_⟩
  obtain ⟨-, -, n, a, hn, hmax, hmem⟩ := hran.served hall
  by_contra hbig
  have hinside := (h.inside _ hmem).1
  rw [lba_chunkEvent] at hinside
  have hsize : 2 ^ 28 ≤ addressable lba48 := by
    cases lba48 <;> decide
  have hsmall : lastChunk lba48 blkcnt < 2 ^ 28 := by
    have hle : lastChunk lba48 blkcnt ≤ blkcnt - 1 := Nat.mul_div_le _ _
    rw [blksz] at hbuf
    omega
  -- the address of the last chunk starts again at zero
  by_cases hblknr : addressable lba48 ≤ blknr.toNat
  · have hlt := Nat.mod_lt (blknr.toNat + lastChunk lba48 blkcnt)
      (show addressable lba48 > 0 by omega)
    omega
  · rw [Nat.mod_eq_sub_mod (by omega), Nat.mod_eq_of_lt (by omega)] at hinside
    omega

/-- A sector count of zero stands for the largest one. -/
theorem sectors_chunkEvent_zero (start bufAddr : Word) (k : ℕ) (a : Answer) :
  0 < (chunkEvent lba48 dir start bufAddr k 0 a).sectors lba48
  := by
  cases lba48 <;> exact Nat.zero_lt_succ _

theorem transfer_ready {blknr buffer : Word} {blkcnt left : ℕ} {new : List Event}
    (h : loop lba48 dir .ready dev blkcnt blknr buffer [] = (left, new)) :
  transfer lba48 dir .ready dev blknr blkcnt buffer [] = (blkcnt - left, new)
  := by
  have hrun : transfer lba48 dir .ready dev blknr blkcnt buffer []
      = (blkcnt - (loop lba48 dir .ready dev blkcnt blknr buffer []).1,
          (loop lba48 dir .ready dev blkcnt blknr buffer []).2) := rfl
  rw [hrun, h]

theorem moves_transfer_iff (state : DevState) {blknr buffer : Word} {blkcnt : ℕ}
    (hbuf : buffer.toNat + blksz * blkcnt ≤ 2 ^ 32) :
  Moves lba48 blknr blkcnt buffer (events (transfer lba48 dir state dev blknr blkcnt buffer))
      (transfer lba48 dir state dev blknr blkcnt buffer []).1
    ↔ (state = .ready → Served lba48 dev blknr blkcnt)
  := by
  by_cases hstate : state = .ready
  case pos =>
    subst hstate
    obtain rfl | hpos := Nat.eq_zero_or_pos blkcnt
    · constructor
      · intro h
        obtain ⟨a, hmem⟩ : ∃ a, chunkEvent lba48 dir blknr buffer 0 0 a
            ∈ events (transfer lba48 dir .ready dev blknr 0 buffer) :=
          exists_mem_loop_zero blknr buffer
        have hinside := h.inside _ hmem
        have hsectors : 0 < (chunkEvent lba48 dir blknr buffer 0 0 a).sectors lba48 :=
          sectors_chunkEvent_zero blknr buffer 0 a
        omega
      · intro h
        exact absurd (h rfl).1 (Nat.lt_irrefl 0)
    · obtain ⟨left, new, hloop, hran⟩ := ran_loop hpos blknr buffer []
      rw [events, transfer_ready hloop]
      constructor
      · intro h _
        exact served_of_moves hbuf hpos hran h
      · intro h
        exact moves_of_served hbuf (h rfl) hran
  case neg =>
    have hrun : transfer lba48 dir state dev blknr blkcnt buffer = pure 0 := by
      rw [transfer, if_pos hstate]
    rw [hrun]
    constructor
    · intro _ h
      exact absurd h hstate
    · intro _
      constructor
      case inside =>
        intro e hmem
        cases hmem
      case placed =>
        intro e hmem
        cases hmem
      case returned => rfl

end Transfer

/-- Reads and writes move what they are asked to move, and return how much that is, exactly when
there is something to move, no command fails and the last one starts at a sector that has an
address. -/
theorem sata_iff (lba48 : Bool) (state : DevState) (dev : ℕ → Answer) (blknr buffer : Word)
    (blkcnt : ℕ) (hbuf : buffer.toNat + blksz * blkcnt ≤ 2 ^ 32) :
  (Moves lba48 blknr blkcnt buffer (events (sataRead lba48 state dev blknr blkcnt buffer))
      (sataRead lba48 state dev blknr blkcnt buffer []).1
    ↔ (state = .ready → Served lba48 dev blknr blkcnt))
  ∧ (Moves lba48 blknr blkcnt buffer (events (sataWrite lba48 state dev blknr blkcnt buffer))
      (sataWrite lba48 state dev blknr blkcnt buffer []).1
    ↔ (state = .ready → Served lba48 dev blknr blkcnt))
  := ⟨moves_transfer_iff state hbuf, moves_transfer_iff state hbuf⟩

/-- Four blocks of a drive that carries everything out. -/
theorem sata_iff_four :
  Moves true 16 4 0x1000 (events (sataRead true .ready (fun _ => ⟨0, 0⟩) 16 4 0x1000))
    (sataRead true .ready (fun _ => ⟨0, 0⟩) 16 4 0x1000 []).1
  := by
  have hserved : Served true (fun _ => ⟨0, 0⟩) 16 4 := by
    refine ⟨by decide, ⟨1, rfl, trivial⟩, by decide⟩
  exact (sata_iff true .ready (fun _ => ⟨0, 0⟩) 16 0x1000 4 (by decide)).1.mpr fun _ => hserved

/-- The only command fails, and four blocks are returned. -/
theorem not_moves_failed :
  ¬ Moves true 16 4 0x1000 (events (sataRead true .ready (fun _ => ⟨errOther, 0⟩) 16 4 0x1000))
    (sataRead true .ready (fun _ => ⟨errOther, 0⟩) 16 4 0x1000 []).1
  := by
  let e := chunkEvent true .read 16 0x1000 0 4 ⟨errOther, 0⟩
  have hchunk : ataDevSectors true .read .ready (fun _ => ⟨errOther, 0⟩) 0x1000 16
      (smallblks true 4) [] = (0, [] ++ [e]) := rfl
  have hloop : loop true .read .ready (fun _ => ⟨errOther, 0⟩) 4 16 0x1000 [] = (0, [e]) :=
    loop_run hchunk
  have hrun : sataRead true .ready (fun _ => ⟨errOther, 0⟩) 16 4 0x1000 [] = (4, [e]) :=
    transfer_ready hloop
  rw [events, hrun]
  intro h
  exact absurd h.returned (by decide)

end SataDwc
