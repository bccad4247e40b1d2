import UBoot.Lib.Memory

/-!
# DOS partitions

`disk/part_dos.c`: the first sector of a disk has a table of four partitions, one of which may be
an extended one that has a table of its own, and so on.  `print_part_dos` lists the partitions of
all the tables, and `get_partition_info_dos` looks one of them up by its number.
-/

namespace PartDos

/-- `DOS_PART_TBL_OFFSET`. -/
def dosPartTblOffset : ℕ := 0x1be

/-- `DOS_PART_MAGIC_OFFSET`. -/
def dosPartMagicOffset : ℕ := 0x1fe

/-- `DOS_PBR_FSTYPE_OFFSET`. -/
def dosPbrFstypeOffset : ℕ := 0x36

/-- `DOS_PBR_MEDIA_TYPE_OFFSET`. -/
def dosPbrMediaTypeOffset : ℕ := 0x15

/-- The values of `if_type`. -/
inductive IfType where
  | unknown
  | ide
  | scsi
  | atapi
  | usb
  | doc
  | mmc
  | sd
  | sata
deriving DecidableEq

/-- A device: a sector is read into a buffer, or the read fails. -/
structure BlockDev where
  ifType : IfType
  dev : ℕ
  lba : Word
  blockRead : Word → Option (ℕ → Byte)

/-! ### Tables -/

/-- The fields of `struct dos_partition` that are used. -/
structure DosPartition where
  bootInd : Byte
  sysInd : Byte
  start4 : Word
  size4 : Word
deriving DecidableEq

/-- `le32_to_int`. -/
def le32ToInt (buffer : ℕ → Byte) (offset : ℕ) : Word :=
  bytesWord (Memory.read buffer offset 4).reverse

/-- A partition of the table in a sector. -/
def partition (buffer : ℕ → Byte) (i : ℕ) : DosPartition where
  bootInd := buffer (dosPartTblOffset + 16 * i)
  sysInd := buffer (dosPartTblOffset + 16 * i + 4)
  start4 := le32ToInt buffer (dosPartTblOffset + 16 * i + 8)
  size4 := le32ToInt buffer (dosPartTblOffset + 16 * i + 12)

/-- The table in a sector. -/
def table (buffer : ℕ → Byte) : List DosPartition := (List.range 4).map (partition buffer)

/-- `is_extended`. -/
def isExtended (partType : Byte) : Bool := partType = 0x5 ∨ partType = 0xf ∨ partType = 0x85

/-- There is a table in the sector. -/
def hasMagic (buffer : ℕ → Byte) : Bool :=
  buffer dosPartMagicOffset = 0x55 ∧ buffer (dosPartMagicOffset + 1) = 0xaa

/-- The sector is the boot record of a FAT file system. -/
def isPbr (buffer : ℕ → Byte) : Bool := Memory.read buffer dosPbrFstypeOffset 3 = ascii "FAT"

/-- The number of a partition counts: in the first sector every one does, elsewhere the ones that
are used and not extended. -/
def counts (extPartSector : Word) (pt : DosPartition) : Bool :=
  extPartSector = 0 ∨ (pt.sysInd ≠ 0 ∧ ¬ isExtended pt.sysInd)

/-- The number behind a partition. -/
def nextNum (extPartSector : Word) (partNum : ℤ) (pt : DosPartition) : ℤ :=
  if counts extPartSector pt then partNum + 1 else partNum

/-- The number behind a table. -/
def numAfter (extPartSector : Word) (partNum : ℤ) (pts : List DosPartition) : ℤ :=
  pts.foldl (nextNum extPartSector) partNum

/-! ### The listing -/

/-- What is printed: a partition, or a message instead of a table. -/
inductive Line where
  | part (partNum lbaStart lbaSize : ℤ) (sysInd : Byte)
  | pbr (lba : Word) (mediaType : Byte)
  | badSignature (first second : Byte)
  | cantRead (sector : ℤ)
deriving DecidableEq

/-- `print_one_part`; the numbers are of type `int`. -/
def printOnePart (pt : DosPartition) (extPartSector : Word) (partNum : ℤ) : Line :=
  .part partNum (extPartSector + pt.start4).toInt pt.size4.toInt pt.sysInd

/-- A partition is listed: it is used, and extended ones are only listed in the first sector. -/
def isListed (extPartSector : Word) (pt : DosPartition) : Bool :=
  pt.sysInd ≠ 0 ∧ (extPartSector = 0 ∨ ¬ isExtended pt.sysInd)

/-- The first loop of `print_partition_extended`. -/
def printTable (extPartSector : Word) : ℤ → List DosPartition → List Line
  | _, [] => []
  | partNum, pt :: pts =>
    (if isListed extPartSector pt then [printOnePart pt extPartSector partNum] else [])
      ++ printTable extPartSector (nextNum extPartSector partNum pt) pts

/-- Where the table of an extended partition is. -/
def tableSector (pt : DosPartition) (relative : Word) : Word := pt.start4 + relative

/-- What the sectors in that table are relative to. -/
def nextRelative (extPartSector : Word) (pt : DosPartition) (relative : Word) : Word :=
  if extPartSector = 0 then tableSector pt relative else relative

/-- `print_partition_extended`, where `fuel` bounds the depth. -/
def printPartitionExtended (d : BlockDev) : ℕ → Word → Word → ℤ → Option (List Line)
  | 0, _, _, _ => none
  | fuel + 1, extPartSector, relative, partNum =>
    match d.blockRead extPartSector with
    | none => some [.cantRead extPartSector.toInt]
    | some buffer =>
      if ¬ hasMagic buffer then
        some [.badSignature (buffer dosPartMagicOffset) (buffer (dosPartMagicOffset + 1))]
      else if isPbr buffer then some [.pbr d.lba (buffer dosPbrMediaTypeOffset)]
      else do
        let pts := table buffer
        let lines ← (pts.filter (isExtended ·.sysInd)).mapM fun pt =>
          printPartitionExtended d fuel (tableSector pt relative)
            (nextRelative extPartSector pt relative) (numAfter extPartSector partNum pts)
        return printTable extPartSector partNum pts ++ lines.flatten

/-- `print_part_dos`, without the line of titles. -/
def printPartDos (d : BlockDev) (fuel : ℕ) : Option (List Line) :=
  printPartitionExtended d fuel 0 0 1

/-! ### The lookup -/

/-- `disk_partition_t`. -/
structure DiskPartition where
  blksz : Word
  start : Word
  size : Word
  name : String
  type : String
deriving DecidableEq

/-- What the name of a partition starts with. -/
def nameStem : IfType → String
  | .ide => "hd"
  | .sata => "hd"
  | .atapi => "hd"
  | .scsi => "sd"
  | .usb => "usbd"
  | .doc => "docd"
  | _ => "xx"

/-- What is assigned to `*info`. -/
def partitionInfo (d : BlockDev) (pt : DosPartition) (extPartSector : Word) (partNum : ℤ) :
    DiskPartition where
  blksz := 512
  start := extPartSector + pt.start4
  size := pt.size4
  name := nameStem d.ifType ++ String.singleton (Char.ofNat (97 + d.dev)) ++ toString partNum
  type := "U-Boot"

/-- A partition can be looked up: its flag is good, it is used, and it is not extended. -/
def isUsable (pt : DosPartition) : Bool :=
  pt.bootInd &&& ~~~ 0x80 = 0 ∧ pt.sysInd ≠ 0 ∧ ¬ isExtended pt.sysInd

/-- The first loop of `get_partition_info_extended`. -/
def findPartition (d : BlockDev) (extPartSector : Word) (whichPart : ℤ) :
    ℤ → List DosPartition → Option DiskPartition
  | _, [] => none
  | partNum, pt :: pts =>
    if isUsable pt ∧ partNum = whichPart then some (partitionInfo d pt extPartSector partNum)
    else findPartition d extPartSector whichPart (nextNum extPartSector partNum pt) pts

/-- `get_partition_info_extended`: `none` inside is the failure of the lookup. -/
def getPartitionInfoExtended (d : BlockDev) (whichPart : ℤ) :
    ℕ → Word → Word → ℤ → Option (Option DiskPartition)
  | 0, _, _, _ => none
  | fuel + 1, extPartSector, relative, partNum =>
    match d.blockRead extPartSector with
    | none => some none
    | some buffer =>
      if ¬ hasMagic buffer then some none
      else
        let pts := table buffer
        match findPartition d extPartSector whichPart partNum pts with
        | some info => some (some info)
        | none =>
          match pts.find? (isExtended ·.sysInd) with
          | none => some none
          | some pt =>
            getPartitionInfoExtended d whichPart fuel (tableSector pt relative)
              (nextRelative extPartSector pt relative) (numAfter extPartSector partNum pts)

/-- `get_partition_info_dos`. -/
def getPartitionInfoDos (d : BlockDev) (part : ℤ) (fuel : ℕ) : Option (Option DiskPartition) :=
  getPartitionInfoExtended d part fuel 0 0 1

end PartDos
