import UBoot.Disk.PartDos
import UBoot.Lib.AddressSpace

/-!
# Booting from a CD

`disk/part_iso.c` looks for an entry of the boot catalog of a CD, and
`board/ACube/common/cmd_boota.c` loads the blocks that the entry names.  There are three units: the
catalog counts sectors of 512 bytes, the buffer is allocated by the sector size of the volume, and
the device has blocks.
-/

namespace PartIso

open PartDos (IfType DiskPartition nameStem le32ToInt)

/-! ### The catalog -/

/-- A device, with the blocks of it that can be read. -/
structure CdDevice where
  ifType : IfType
  dev : ℕ
  blksz : ℕ
  block : Word → Option (List Byte)
  length_block : ∀ n bytes, block n = some bytes → bytes.length = blksz

/-- The next `n` blocks are read, up to one that cannot be: the bytes, and how many blocks. -/
def CdDevice.readBlocks (d : CdDevice) : ℕ → Word → List Byte × ℕ
  | 0, _ => ([], 0)
  | n + 1, start =>
    match d.block start with
    | none => ([], 0)
    | some bytes => (bytes ++ (d.readBlocks n (start + 1)).1, (d.readBlocks n (start + 1)).2 + 1)

/-- `block_read`: what is written to the buffer, also when it fails, and the result. -/
def CdDevice.blockRead (d : CdDevice) (start blkcnt : Word) : List Byte × Word :=
  ((d.readBlocks blkcnt.toNat start).1, BitVec.ofNat 32 (d.readBlocks blkcnt.toNat start).2)

/-- A block is read to `tmpbuf`. -/
def readBlock (d : CdDevice) (n : Word) (tmpbuf : ℕ → Byte) : Option (ℕ → Byte) :=
  if (d.blockRead n 1).2 = 1 then some (Memory.store tmpbuf 0 (d.blockRead n 1).1) else none

/-- `PVD_OFFSET`. -/
def pvdOffset : ℕ := 0x10

/-- `secsize_BE` of a volume descriptor. -/
def secsizeBE (tmpbuf : ℕ → Byte) : ℕ := bytesHalf (Memory.read tmpbuf 130 2)

/-- `lastsect`, by `firstsek_LEpathtab1_LE`. -/
def lastsect (tmpbuf : ℕ → Byte) : Word := le32ToInt tmpbuf 140

/-- The primary volume descriptor. -/
def readPrimary (d : CdDevice) (tmpbuf : ℕ → Byte) : Option (ℕ → Byte) :=
  (readBlock d (BitVec.ofNat 32 pvdOffset) tmpbuf).filter fun tmpbuf =>
    tmpbuf 0 = 0x01 ∧ Memory.read tmpbuf 1 5 = ascii "CD001"

/-- The loop over the descriptors: the next `n` blocks are read until one is a boot record. -/
def findBootRecord (d : CdDevice) : ℕ → Word → (ℕ → Byte) → Option (ℕ → Byte)
  | 0, _, tmpbuf => some tmpbuf
  | n + 1, i, tmpbuf =>
    match readBlock d i tmpbuf with
    | none => none
    | some tmpbuf =>
      if tmpbuf 0 = 0x00 then some tmpbuf
      else if tmpbuf 0 = 0xff then none
      else findBootRecord d n (i + 1) tmpbuf

/-- `chksum` of the validation entry, of type `unsigned short`. -/
def chksum (tmpbuf : ℕ → Byte) : BitVec 16 :=
  (List.range 16).foldl
    (fun sum i => sum + BitVec.ofNat 16 (bytesHalf (Memory.read tmpbuf (2 * i) 2).reverse)) 0

/-- The boot catalog, from what is behind the primary volume descriptor. -/
def readCatalog (d : CdDevice) (tmpbuf : ℕ → Byte) : Option (ℕ → Byte) := do
  let tmpbuf ← findBootRecord d ((lastsect tmpbuf).toNat - pvdOffset) (BitVec.ofNat 32 pvdOffset)
    tmpbuf
  if Memory.read tmpbuf 7 23 ≠ ascii "EL TORITO SPECIFICATION" then none
  else
    (readBlock d (le32ToInt tmpbuf 71) tmpbuf).filter fun tmpbuf =>
      chksum tmpbuf = 0 ∧ tmpbuf 30 = 0x55 ∧ tmpbuf 31 = 0xaa

/-- The search for an entry: where it is in the catalog, of which `n` entries are left. -/
def findEntry (catalog : ℕ → Byte) (partNum : ℤ) : ℕ → ℕ → ℕ → Option ℕ
  | 0, _, _ => none
  | n + 1, offset, entryNum =>
    if catalog offset = 0x88 ∨ catalog offset = 0x00 then
      if entryNum = partNum then some offset
      else findEntry catalog partNum n (offset + 0x20) (entryNum + 1)
    else if catalog offset = 0x90 ∨ catalog offset = 0x91 ∨ catalog offset = 0x44 then
      findEntry catalog partNum n (offset + 0x20) entryNum
    else none

/-- `boot_media`. -/
def bootMedia (catalog : ℕ → Byte) (offset : ℕ) : Byte := catalog (offset + 1)

/-- `sec_cnt`. -/
def secCnt (catalog : ℕ → Byte) (offset : ℕ) : ℕ :=
  bytesHalf (Memory.read catalog (offset + 6) 2).reverse

/-- `rel_block_addr`. -/
def relBlockAddr (catalog : ℕ → Byte) (offset : ℕ) : Word := le32ToInt catalog (offset + 8)

/-- What is taken for the size. -/
def mediaSize (media : Byte) (secCnt : ℕ) : ℕ :=
  if media = 0x00 then secCnt >>> 2
  else if media = 0x01 then 2400 >>> 2
  else if media = 0x02 then 2880 >>> 2
  else if media = 0x03 then 5760 >>> 2
  else if media = 0x04 then 2880 >>> 2
  else 0

/-- `get_partition_info_iso`: if there is such an entry, and what is in `*info` then. -/
def getPartitionInfoIso (d : CdDevice) (partNum : ℤ) (tmpbuf : ℕ → Byte) (info : DiskPartition) :
    Bool × DiskPartition :=
  match readPrimary d tmpbuf with
  | none => (false, info)
  | some primary =>
    let info := { info with blksz := BitVec.ofNat 32 (secsizeBE primary) }
    match readCatalog d primary with
    | none => (false, info)
    | some catalog =>
      let info := { info with
        type := "U-Boot"
        name := nameStem d.ifType ++ String.singleton (Char.ofNat (97 + d.dev))
          ++ toString partNum }
      match findEntry catalog partNum 63 0x20 0 with
      | none => (false, info)
      | some offset =>
        if catalog offset ≠ 0x88 then (false, info)
        else (true, { info with
          size := BitVec.ofNat 32 (mediaSize (bootMedia catalog offset) (secCnt catalog offset))
          start := relBlockAddr catalog offset })

/-! ### The boot image -/

/-- The values of `part_type`. -/
inductive PartType where
  | unknown
  | dos
  | iso
  | amiga
  deriving DecidableEq

/-- A CD in the case `DEV_TYPE_CDROM` of `do_boota`, with what is in `tmpbuf` and in `p_info`. -/
structure Cd where
  device : CdDevice
  partType : PartType
  tmpbuf : ℕ → Byte
  pInfo : DiskPartition

/-- `get_partition_info` for partition 0.  The other types count partitions from 1: none is found,
and `*info` is left as it is. -/
def Cd.getPartitionInfo (cd : Cd) : Bool × DiskPartition :=
  if cd.partType = .iso then getPartitionInfoIso cd.device 0 cd.tmpbuf cd.pInfo
  else (false, cd.pInfo)

/-- What `do_boota` does: the size of the buffer, the blocks that are asked for, what is written to
the buffer, and if it is kept. -/
structure Load where
  allocated : Word
  start : Word
  blkcnt : Word
  written : List Byte
  kept : Bool

/-- The case `DEV_TYPE_CDROM` of `do_boota`; the result of `get_partition_info` is ignored. -/
def Cd.load (cd : Cd) : Load :=
  let info := cd.getPartitionInfo.2
  let r := cd.device.blockRead info.start info.size
  ⟨info.size * info.blksz, info.start, info.size, r.1, r.2 = info.size⟩

/-- The entry that a CD is booted by. -/
structure Cd.BootEntry (cd : Cd) (primary catalog : ℕ → Byte) (offset : ℕ) : Prop where
  isIso : cd.partType = .iso
  readsPrimary : readPrimary cd.device cd.tmpbuf = some primary
  readsCatalog : readCatalog cd.device primary = some catalog
  entry : findEntry catalog 0 63 0x20 0 = some offset
  bootable : catalog offset = 0x88

/-- The length of a boot image: of a floppy, or as many sectors of 512 bytes as the entry says. -/
def imageLength (media : Byte) (secCnt : ℕ) : ℕ :=
  (if media = 0x01 then 2400 else if media = 0x02 then 2880 else if media = 0x03 then 5760
    else secCnt) * 512

/-- Nothing is loaded without an entry; with one, there is room for what is written, and all bytes
of the image are in the blocks that are asked for. -/
structure Cd.Safe (cd : Cd) : Prop where
  fails : cd.getPartitionInfo.1 = false → cd.load.written = []
  room : cd.getPartitionInfo.1 = true → cd.load.written.length ≤ cd.load.allocated.toNat
  covers : ∀ primary catalog offset, cd.BootEntry primary catalog offset →
    cd.load.start = relBlockAddr catalog offset
      ∧ imageLength (bootMedia catalog offset) (secCnt catalog offset)
        ≤ cd.load.blkcnt.toNat * cd.device.blksz

/-- The condition for an image to be in the blocks that are asked for. -/
def CoversWhen (media : Byte) (secCnt blksz : ℕ) : Prop :=
  if media = 0x00 then 512 * secCnt ≤ secCnt / 4 * blksz
  else if media = 0x01 ∨ media = 0x02 ∨ media = 0x03 then 2048 ≤ blksz
  else if media = 0x04 then 512 * secCnt ≤ 720 * blksz
  else secCnt = 0

/-- So many blocks can be read from a block on. -/
def CdDevice.Readable (d : CdDevice) (start : Word) (k : ℕ) : Prop :=
  ∀ i < k, (d.block (start + BitVec.ofNat 32 i)).isSome

/-- The buffer for `size` sectors has room for as many blocks: the blocks are not longer, or there
are none, or the first of them that has no room comes behind one that cannot be read. -/
def RoomWhen (d : CdDevice) (start : Word) (size secsize : ℕ) : Prop :=
  d.blksz ≤ secsize ∨ size = 0 ∨ ¬ d.Readable start (size * secsize / d.blksz + 1)

/-- The condition, on `p_info` where there is no entry, and on the sizes where there is one. -/
structure Cd.Fine (cd : Cd) : Prop where
  none : (∀ primary catalog offset, ¬ cd.BootEntry primary catalog offset) →
    cd.pInfo.size = 0 ∨ cd.device.block cd.pInfo.start = none ∨ cd.device.blksz = 0
  room : ∀ primary catalog offset, cd.BootEntry primary catalog offset →
    RoomWhen cd.device (relBlockAddr catalog offset)
      (mediaSize (bootMedia catalog offset) (secCnt catalog offset)) (secsizeBE primary)
  covers : ∀ primary catalog offset, cd.BootEntry primary catalog offset →
    CoversWhen (bootMedia catalog offset) (secCnt catalog offset) cd.device.blksz

/-! ### The three units -/

section Units

variable {media : Byte} {secCnt blksz : ℕ}

theorem mediaSize_lt (h : secCnt < 2 ^ 16) :
  mediaSize media secCnt < 2 ^ 14
  := by
  rw [mediaSize]
  split_ifs
  all_goals omega

/-- Blocks of 2048 bytes cover an image without emulation if it has no part of a block. -/
theorem coversWhen_iff_dvd :
  CoversWhen 0x00 secCnt 2048 ↔ 4 ∣ secCnt
  := by
  rw [CoversWhen, if_pos rfl]
  omega

end Units

/-! ### The blocks that are read -/

section Blocks

variable {d : CdDevice} {start : Word} {n k size secsize : ℕ}

theorem readable_succ_iff :
  d.Readable start (k + 1) ↔ (d.block start).isSome ∧ d.Readable (start + 1) k
  := by
  have hnext (i : ℕ) :
      start + BitVec.ofNat 32 (i + 1) = start + 1 + BitVec.ofNat 32 i := by
    rw [BitVec.ofNat_add, BitVec.add_assoc, BitVec.add_comm (BitVec.ofNat 32 i)]
    rfl
  constructor
  · intro h
    constructor
    · have hfirst := h 0 (Nat.succ_pos k)
      rwa [BitVec.add_zero] at hfirst
    · intro i hi
      rw [← hnext]
      exact h (i + 1) (Nat.succ_lt_succ hi)
  · rintro ⟨hfirst, hrest⟩ i hi
    cases i with
    | zero => rwa [BitVec.add_zero]
    | succ i =>
      rw [hnext]
      exact hrest i (Nat.lt_of_succ_lt_succ hi)

theorem length_readBlocks (d : CdDevice) (n : ℕ) (start : Word) :
  (d.readBlocks n start).1.length = (d.readBlocks n start).2 * d.blksz
  := by
  induction n generalizing start with
  | zero => exact (Nat.zero_mul d.blksz).symm
  | succ n ih =>
    rw [CdDevice.readBlocks]
    cases hblock : d.block start with
    | none => exact (Nat.zero_mul d.blksz).symm
    | some bytes =>
      dsimp only
      rw [List.length_append, d.length_block start bytes hblock, ih, Nat.add_mul, Nat.one_mul,
        Nat.add_comm]

/-- Blocks are read as long as they are asked for and can be read. -/
theorem le_readBlocks_iff :
  k ≤ (d.readBlocks n start).2 ↔ k ≤ n ∧ d.Readable start k
  := by
  induction n generalizing start k with
  | zero =>
    rw [CdDevice.readBlocks]
    constructor
    · intro h
      obtain rfl := Nat.le_zero.mp h
      exact ⟨h, fun i hi => absurd hi (Nat.not_lt_zero i)⟩
    · exact And.left
  | succ n ih =>
    cases k with
    | zero =>
      apply iff_of_true (Nat.zero_le _)
      exact ⟨Nat.zero_le _, fun i hi => absurd hi (Nat.not_lt_zero i)⟩
    | succ k =>
      rw [CdDevice.readBlocks, readable_succ_iff]
      cases hblock : d.block start with
      | none => exact iff_of_false (Nat.not_succ_le_zero k) fun h => nomatch h.2.1
      | some bytes =>
        dsimp only
        rw [Nat.succ_le_succ_iff, Nat.succ_le_succ_iff, ih]
        exact ⟨fun h => ⟨h.1, rfl, h.2⟩, fun h => ⟨h.1, h.2.2⟩⟩

/-- **The room in the buffer**, which has been allocated by the sectors of the volume. -/
theorem length_readBlocks_le_iff :
  (d.readBlocks size start).1.length ≤ size * secsize ↔ RoomWhen d start size secsize
  := by
  rw [length_readBlocks, RoomWhen]
  have hcount : (d.readBlocks size start).2 ≤ size := (le_readBlocks_iff.mp le_rfl).1
  by_cases hle : d.blksz ≤ secsize
  · exact iff_of_true (Nat.mul_le_mul hcount hle) (.inl hle)
  by_cases hzero : size = 0
  · refine iff_of_true ?_ (.inr (.inl hzero))
    rw [hzero] at hcount ⊢
    rw [Nat.le_zero.mp hcount, Nat.zero_mul]
    exact Nat.zero_le _
  have hpos : 0 < d.blksz := Nat.zero_lt_of_lt (Nat.not_le.mp hle)
  have hfit : size * secsize / d.blksz + 1 ≤ size := by
    rw [Nat.succ_le_iff, Nat.div_lt_iff_lt_mul hpos]
    exact Nat.mul_lt_mul_of_pos_left (Nat.not_le.mp hle) (Nat.pos_of_ne_zero hzero)
  rw [← Nat.le_div_iff_mul_le hpos, ← Nat.not_lt, ← Nat.succ_le_iff, le_readBlocks_iff]
  constructor
  · exact fun h => .inr (.inr fun hread => h ⟨hfit, hread⟩)
  · rintro (h | h | h)
    · exact absurd h hle
    · exact absurd h hzero
    · exact fun hread => h hread.2

/-- Where all blocks can be read, the sizes alone decide. -/
theorem roomWhen_iff_of_readable (hread : d.Readable start size) :
  RoomWhen d start size secsize ↔ d.blksz ≤ secsize ∨ size = 0
  := by
  rw [← length_readBlocks_le_iff, length_readBlocks]
  have hcount : (d.readBlocks size start).2 = size :=
    Nat.le_antisymm (le_readBlocks_iff.mp le_rfl).1 (le_readBlocks_iff.mpr ⟨le_rfl, hread⟩)
  rw [hcount]
  constructor
  · intro h
    by_cases hzero : size = 0
    · exact .inr hzero
    · exact .inl (Nat.le_of_mul_le_mul_left h (Nat.pos_of_ne_zero hzero))
  · rintro (h | h)
    · exact Nat.mul_le_mul_left size h
    · rw [h, Nat.zero_mul]
      exact Nat.zero_le _

end Blocks

/-! ### The CD -/

section Cd

variable {cd : Cd} {primary catalog : ℕ → Byte} {offset : ℕ}

theorem secCnt_lt (catalog : ℕ → Byte) (offset : ℕ) :
  secCnt catalog offset < 2 ^ 16
  := bytesHalf_lt _

theorem secsizeBE_lt (tmpbuf : ℕ → Byte) :
  secsizeBE tmpbuf < 2 ^ 16
  := bytesHalf_lt _

/-- With an entry its blocks are asked for. -/
theorem Cd.BootEntry.getPartitionInfo (h : cd.BootEntry primary catalog offset) :
  cd.getPartitionInfo.1 = true
    ∧ cd.getPartitionInfo.2.start = relBlockAddr catalog offset
    ∧ cd.getPartitionInfo.2.size
      = BitVec.ofNat 32 (mediaSize (bootMedia catalog offset) (secCnt catalog offset))
    ∧ cd.getPartitionInfo.2.blksz = BitVec.ofNat 32 (secsizeBE primary)
  := by
  rw [Cd.getPartitionInfo, if_pos h.isIso, getPartitionInfoIso, h.readsPrimary]
  dsimp only
  rw [h.readsCatalog]
  dsimp only
  rw [h.entry]
  dsimp only
  rw [if_neg (not_not.mpr h.bootable)]
  exact ⟨rfl, rfl, rfl, rfl⟩

/-- The buffer and the blocks of an entry. -/
theorem Cd.BootEntry.load (h : cd.BootEntry primary catalog offset) :
  cd.load.allocated.toNat
      = mediaSize (bootMedia catalog offset) (secCnt catalog offset) * secsizeBE primary
    ∧ cd.load.start = relBlockAddr catalog offset
    ∧ cd.load.blkcnt.toNat = mediaSize (bootMedia catalog offset) (secCnt catalog offset)
    ∧ cd.load.written
      = (cd.device.readBlocks (mediaSize (bootMedia catalog offset) (secCnt catalog offset))
        (relBlockAddr catalog offset)).1
  := by
  obtain ⟨_, hstart, hsize, hblksz⟩ := h.getPartitionInfo
  have hmedia := @mediaSize_lt (bootMedia catalog offset) _ (secCnt_lt catalog offset)
  have hsector := secsizeBE_lt primary
  have hblkcnt : cd.getPartitionInfo.2.size.toNat
      = mediaSize (bootMedia catalog offset) (secCnt catalog offset) := by
    rw [hsize, BitVec.toNat_ofNat, Nat.mod_eq_of_lt (hmedia.trans (by decide))]
  refine ⟨?_, hstart, hblkcnt, ?_⟩
  · change (cd.getPartitionInfo.2.size * cd.getPartitionInfo.2.blksz).toNat = _
    rw [hsize, hblksz, ← BitVec.ofNat_mul, BitVec.toNat_ofNat, Nat.mod_eq_of_lt]
    calc mediaSize (bootMedia catalog offset) (secCnt catalog offset) * secsizeBE primary
        < 2 ^ 14 * 2 ^ 16 := Nat.mul_lt_mul'' hmedia hsector
      _ < 2 ^ 32 := by decide
  · change (cd.device.readBlocks cd.getPartitionInfo.2.size.toNat
      cd.getPartitionInfo.2.start).1 = _
    rw [hblkcnt, hstart]

theorem Cd.BootEntry.room_iff (h : cd.BootEntry primary catalog offset) :
  cd.load.written.length ≤ cd.load.allocated.toNat
    ↔ RoomWhen cd.device (relBlockAddr catalog offset)
      (mediaSize (bootMedia catalog offset) (secCnt catalog offset)) (secsizeBE primary)
  := by
  obtain ⟨hallocated, _, _, hwritten⟩ := h.load
  rw [hallocated, hwritten, length_readBlocks_le_iff]

end Cd

/-! ### A CD without a catalog -/

end PartIso
