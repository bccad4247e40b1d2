import UBoot.Boot.Bootchain

/-!
# Amiga partitions

`disk/part_amiga.c`: one of the first blocks of a disk is the rigid disk block, which says where a
list of partition blocks begins.  All these blocks have a checksum, over as many long words as they
say themselves.
-/

namespace PartAmiga

open Boota

/-- `DEFAULT_SECTOR_SIZE`, the size of `block_buffer`. -/
def defaultSectorSize : ℕ := 2048

/-- `AMIGA_BLOCK_LIMIT`. -/
def amigaBlockLimit : ℕ := 16

/-- `AMIGA_ID_RDISK`. -/
def amigaIdRdisk : Word := 0x5244534b

/-- `AMIGA_ID_PART`. -/
def amigaIdPart : Word := 0x50415254

/-- `AMIGA_ID_BOOT`. -/
def amigaIdBoot : Word := 0x424f4f54

/-- The end of a list. -/
def noBlock : Word := 0xffffffff

/-! ### Blocks -/

/-- A word is read that is not in the buffer. -/
inductive Fault where
  | outside
  deriving DecidableEq

/-- `id` of a block in the buffer. -/
def blockId (buffer : ℕ → Byte) : Word := long buffer 0

/-- `summed_longs`. -/
def summedLongs (buffer : ℕ → Byte) : Word := long buffer 1

/-- The sum of the long words. -/
def checksum (buffer : ℕ → Byte) : Word :=
  (List.range (summedLongs buffer).toNat).foldl (fun sum i => sum + long buffer i) 0

/-- The long words that are summed are in the buffer. -/
def Fits (buffer : ℕ → Byte) : Prop := 4 * (summedLongs buffer).toNat ≤ defaultSectorSize

instance (buffer : ℕ → Byte) : Decidable (Fits buffer) := inferInstanceAs (Decidable (_ ≤ _))

/-- `sum_block`. -/
def sumBlock (buffer : ℕ → Byte) : Except Fault Word :=
  if Fits buffer then .ok (checksum buffer) else .error .outside

/-- `partition_list` of the rigid disk block. -/
def partitionList (rdb : ℕ → Byte) : Word := long rdb 7

/-- `block_bytes`. -/
def blockBytes (rdb : ℕ → Byte) : Word := long rdb 4

/-- `bootcode_block`. -/
def bootcodeBlock (rdb : ℕ → Byte) : Word := long rdb 10

/-- `next` of a partition block. -/
def nextBlock (p : ℕ → Byte) : Word := long p 4

/-- `drive_name`: a length, and the characters. -/
def driveName (p : ℕ → Byte) : List Byte := Memory.read p 37 (p 36).toNat

/-- The fields of `struct amiga_part_geometry` that are used. -/
structure Geometry where
  surfaces : Word
  blockPerTrack : Word
  lowCyl : Word
  highCyl : Word
  bootPriority : Word
  dosType : Word

/-- `environment`, which is at long word 32. -/
def geometry (p : ℕ → Byte) : Geometry where
  surfaces := long p 35
  blockPerTrack := long p 37
  lowCyl := long p 41
  highCyl := long p 42
  bootPriority := long p 47
  dosType := long p 48

/-- The first block of a partition. -/
def Geometry.start (g : Geometry) : Word := g.lowCyl * g.blockPerTrack * g.surfaces

/-- What is taken for the size of a partition. -/
def Geometry.size (g : Geometry) : Word :=
  (g.highCyl - g.lowCyl + 1) * g.blockPerTrack * g.surfaces - 1

/-- The characters of a type: three letters, a backslash and a digit. -/
def diskType (t : Word) : List Byte :=
  match wordBytes t with
  | [a, b, c, d] => [a, b, c, 0x5c, d + 0x30]
  | _ => []

/-! ### The scan -/

/-- The loop of `get_rdisk` and of `get_bootcode`: of the next `n` blocks, the first good one with
the `id`, and what is in the buffer. -/
def scan (d : Disk) (id : Word) : ℕ → ℕ → (ℕ → Byte) →
    Except Fault (Option (ℕ → Byte) × (ℕ → Byte))
  | 0, _, buffer => .ok (none, buffer)
  | n + 1, i, buffer =>
    match d.read (BitVec.ofNat 32 i) with
    | none => scan d id n (i + 1) buffer
    | some block =>
      let buffer := Memory.store buffer 0 block
      if blockId buffer = id then do
        let sum ← sumBlock buffer
        if sum = 0 then .ok (some buffer, buffer) else scan d id n (i + 1) buffer
      else scan d id n (i + 1) buffer

/-- `get_rdisk`. -/
def getRdisk (d : Disk) (limit : ℕ) (buffer : ℕ → Byte) :
    Except Fault (Option (ℕ → Byte) × (ℕ → Byte)) :=
  scan d amigaIdRdisk limit 0 buffer

/-- `get_bootcode`. -/
def getBootcode (d : Disk) (limit : ℕ) (buffer : ℕ → Byte) :
    Except Fault (Option (ℕ → Byte) × (ℕ → Byte)) :=
  scan d amigaIdBoot limit 0 buffer

/-! ### The list of partitions -/

/-- What is found at a block: the list does not go on there, a partition block whose checksum is
wrong, or a good one. -/
inductive Visit where
  | ends (buffer : ℕ → Byte)
  | bad (buffer : ℕ → Byte)
  | good (buffer : ℕ → Byte)

/-- A block of the list is read. -/
def visit (d : Disk) (block : Word) (buffer : ℕ → Byte) : Except Fault Visit :=
  match d.read block with
  | none => .ok (.ends buffer)
  | some bytes =>
    let buffer := Memory.store buffer 0 bytes
    if blockId buffer = amigaIdPart then do
      let sum ← sumBlock buffer
      if sum = 0 then .ok (.good buffer) else .ok (.bad buffer)
    else .ok (.ends buffer)

/-- The loop of `find_partition` and of `print_part_amiga`, for at most `fuel` rounds: what they do
with a good block, which stops the loop or changes the variables.  After a wrong checksum it goes on
with the same block. -/
def follow {σ ρ : Type} (d : Disk) (onGood : σ → (ℕ → Byte) → σ ⊕ ρ) :
    ℕ → Word → (ℕ → Byte) → σ → Option (Except Fault ((σ ⊕ ρ) × (ℕ → Byte)))
  | 0, _, _, _ => none
  | fuel + 1, block, buffer, s =>
    if block = noBlock then some (.ok (.inl s, buffer))
    else
      match visit d block buffer with
      | .error e => some (.error e)
      | .ok (.ends buffer) => follow d onGood fuel noBlock buffer s
      | .ok (.bad buffer) => follow d onGood fuel block buffer s
      | .ok (.good buffer) =>
        match onGood s buffer with
        | .inl s => follow d onGood fuel (nextBlock buffer) buffer s
        | .inr r => some (.ok (.inr r, buffer))

/-- What `find_partition` does with a good block. -/
def countdown (partnum : ℤ) (p : ℕ → Byte) : ℤ ⊕ (ℕ → Byte) :=
  if partnum = 0 then .inr p else .inl (partnum - 1)

/-- `find_partition`: the rigid disk block and the partition block. -/
def findPartition (d : Disk) (limit : ℕ) (buffer : ℕ → Byte) (partnum : ℤ) (fuel : ℕ) :
    Option (Except Fault (Option ((ℕ → Byte) × (ℕ → Byte)))) :=
  match getRdisk d limit buffer with
  | .error e => some (.error e)
  | .ok (none, _) => some (.ok none)
  | .ok (some rdb, buffer) =>
    (follow d countdown fuel (partitionList rdb) buffer partnum).map fun r => r.map fun p =>
      p.1.getRight?.map fun p => (rdb, p)

/-- `disk_partition_t`. -/
structure PartitionInfo where
  start : Word
  size : Word
  blksz : Word
  name : List Byte
  type : List Byte

/-- What is assigned to `*info`. -/
def partitionInfo (rdb p : ℕ → Byte) : PartitionInfo where
  start := (geometry p).start
  size := (geometry p).size
  blksz := blockBytes rdb
  name := driveName p
  type := diskType (geometry p).dosType

/-- `get_partition_info_amiga`. -/
def getPartitionInfoAmiga (d : Disk) (limit : ℕ) (buffer : ℕ → Byte) (part : ℤ) (fuel : ℕ) :
    Option (Except Fault (Option PartitionInfo)) :=
  (findPartition d limit buffer (part - 1) fuel).map fun r => r.map fun p =>
    p.map fun p => partitionInfo p.1 p.2

/-! ### The listing -/

/-- A line for a partition. -/
structure Line where
  num : ℕ
  name : List Byte
  first : Word
  size : Word
  type : List Byte
  bootPriority : Word

/-- `print_part_info`. -/
def printPartInfo (i : ℕ) (p : ℕ → Byte) : Line where
  num := i
  name := driveName p
  first := (geometry p).start
  size := (geometry p).size
  type := diskType (geometry p).dosType
  bootPriority := (geometry p).bootPriority

/-- What `print_part_amiga` does with a good block, after the lines before it. -/
def printPartition (lines : List Line) (p : ℕ → Byte) : List Line ⊕ Empty :=
  .inl (lines ++ [printPartInfo (lines.length + 1) p])

/-- `print_part_amiga`: the lines, and if it says that the disk is bootable. -/
def printPartAmiga (d : Disk) (limit : ℕ) (buffer : ℕ → Byte) (fuel : ℕ) :
    Option (Except Fault (List Line × Bool)) :=
  match getRdisk d limit buffer with
  | .error e => some (.error e)
  | .ok (none, _) => some (.ok ([], false))
  | .ok (some rdb, buffer) =>
    (follow d printPartition fuel (partitionList rdb) buffer []).map fun r => do
      let s ← r
      let boot ← getBootcode d limit s.2
      .ok (s.1.getLeft?.getD [], boot.1.isSome)

end PartAmiga
