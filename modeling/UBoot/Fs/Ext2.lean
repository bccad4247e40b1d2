import UBoot.Lib.Memory

/-!
# The ext2 file system

`fs/ext2`: a device is read in sectors, `ext2fs_mount` reads the superblock of a file system, and
`ext2fs_read_block` finds out where a block of a file is.  It keeps the last block of pointers that
it read, and for a doubly indirect block one more, until `ext2fs_close`.
-/

namespace Ext2

/-- `SECTOR_SIZE`. -/
def sectorSize : ℕ := 512

/-- `INDIRECT_BLOCKS`. -/
def indirectBlocks : ℕ := 12

/-- `EXT2_MAGIC`. -/
def ext2Magic : ℕ := 0xef53

/-! ### The device -/

/-- A partition of a device.  Reading some sectors gives the bytes that were transferred. -/
structure Device where
  start : Word
  size : Word
  blockRead : Word → ℕ → List Byte

/-- The rest of `ext2fs_devread`, from the beginning of a sector on. -/
def devreadAligned (d : Device) (sector : Word) (byteLen : ℕ) : List Byte × Bool :=
  let blockLen := byteLen / sectorSize * sectorSize
  if byteLen = 0 then ([], true)
  else if blockLen = 0 then
    -- nobody looks at how much was read
    ((d.blockRead (d.start + sector) 1).take byteLen, true)
  else
    let buf := d.blockRead (d.start + sector) (blockLen / sectorSize)
    if buf.length ≠ blockLen then (buf, false)
    else if byteLen - blockLen = 0 then (buf, true)
    else
      let secBuf := d.blockRead (d.start + (sector + BitVec.ofNat 32 (blockLen / sectorSize))) 1
      if secBuf.length ≠ sectorSize then (buf, false)
      else (buf ++ secBuf.take (byteLen - blockLen), true)

/-- `ext2fs_devread`: what was written to the buffer, and the status. -/
def devread (d : Device) (sector : Word) (byteOffset byteLen : ℕ) : List Byte × Bool :=
  let last := sector + BitVec.ofInt 32 (((byteOffset + byteLen : ℕ) - 1 : ℤ) / sectorSize)
  if sector.msb ∨ d.size ≤ last then ([], false)
  else
    let sector := sector + BitVec.ofNat 32 (byteOffset / sectorSize)
    let byteOffset := byteOffset % sectorSize
    if byteOffset = 0 then devreadAligned d sector byteLen
    else
      let secBuf := d.blockRead (d.start + sector) 1
      if secBuf.length ≠ sectorSize then ([], false)
      else
        let n := min (sectorSize - byteOffset) byteLen
        let rest := devreadAligned d (sector + 1) (byteLen - n)
        ((secBuf.drop byteOffset).take n ++ rest.1, rest.2)

/-! ### What is on the device -/

/-- `__le32_to_cpu` of the bytes at an offset. -/
def le32 (bytes : List Byte) (offset : ℕ) : Word := bytesWord ((bytes.drop offset).take 4).reverse

/-- `__le16_to_cpu` of the bytes at an offset. -/
def le16 (bytes : List Byte) (offset : ℕ) : ℕ :=
  (bytesWord ((bytes.drop offset).take 2).reverse).toNat

/-- The fields of `struct ext2_sblock` that are used. -/
structure Sblock where
  firstDataBlock : Word
  log2BlockSize : Word
  inodesPerGroup : Word
  magic : ℕ
  revisionLevel : Word
  inodeSize : ℕ

/-- The fields of the superblock. -/
def Sblock.parse (bytes : List Byte) : Sblock where
  firstDataBlock := le32 bytes 20
  log2BlockSize := le32 bytes 24
  inodesPerGroup := le32 bytes 40
  magic := le16 bytes 56
  revisionLevel := le32 bytes 76
  inodeSize := le16 bytes 88

/-- The size of `struct ext2_sblock`. -/
def sizeofSblock : ℕ := 204

/-- The size of `struct ext2_block_group`. -/
def sizeofBlockGroup : ℕ := 32

/-- The size of `struct ext2_inode`. -/
def sizeofInode : ℕ := 128

/-- `EXT2_BLOCK_SIZE`. -/
def Sblock.blockSize (sb : Sblock) : ℕ := 2 ^ (sb.log2BlockSize.toNat + 10)

/-- `LOG2_EXT2_BLOCK_SIZE`. -/
def Sblock.log2Blksz (sb : Sblock) : ℕ := sb.log2BlockSize.toNat + 1

/-- The first sector of a block. -/
def Sblock.sector (sb : Sblock) (blkno : Word) : Word := blkno <<< sb.log2Blksz

/-- The pointers of `struct ext2_inode`. -/
structure Inode where
  dirBlocks : ℕ → Word
  indirBlock : Word
  doubleIndirBlock : Word

/-- The pointers of an inode. -/
def Inode.parse (bytes : List Byte) : Inode where
  dirBlocks i := le32 bytes (40 + 4 * i)
  indirBlock := le32 bytes 88
  doubleIndirBlock := le32 bytes 92

/-- `struct ext2fs_node`: an inode of a file system. -/
structure Node where
  sblock : Sblock
  inode : Inode

/-- A buffer after something was read to it. -/
def overwrite (buf bytes : List Byte) : List Byte := bytes ++ buf.drop bytes.length

/-! ### The caches -/

/-- `indir1_block`, `indir1_size` and `indir1_blkno`, or those for the second level. -/
structure Cache where
  block : Option (List Byte)
  size : ℕ
  blkno : Word

/-- The cache after it was freed. -/
def Cache.freed : Cache := ⟨none, 0, -1⟩

/-- The variables. -/
structure State where
  dev : Device
  ext2fsRoot : Option Node
  inodeSize : ℕ
  indir1 : Cache
  indir2 : Cache

/-- The cache gets a block of the right size, when `malloc` gives one. -/
def Cache.allocate (c : Cache) (blksz : ℕ) (malloc : Option (ℕ → Byte)) : Cache × Bool :=
  if c.block.isNone then
    match malloc with
    | none => (c, false)
    | some heap => (⟨some (Memory.read heap 0 blksz), blksz, -1⟩, true)
  else if blksz ≠ c.size then
    match malloc with
    | none => (Cache.freed, false)
    | some heap => (⟨some (Memory.read heap 0 blksz), blksz, -1⟩, true)
  else (c, true)

/-- A block of pointers is read, unless `tag` says that it is there already. -/
def Cache.load (c : Cache) (d : Device) (sector tag : Word) (blksz : ℕ) : Cache × Bool :=
  if sector ≠ tag then
    let r := devread d sector 0 blksz
    let block := c.block.map (overwrite · r.1)
    if r.2 then (⟨block, c.size, sector⟩, true) else (⟨block, c.size, c.blkno⟩, false)
  else (c, true)

/-- A pointer of the block. -/
def Cache.get (c : Cache) (i : ℕ) : Word := le32 (c.block.getD []) (4 * i)

/-- The limits are of type `int`. -/
def intLimit (n : ℕ) : ℤ := (BitVec.ofNat 32 n).toInt

/-- `ext2fs_read_block` for a block that is indirect. -/
def readIndirect (s : State) (node : Node) (fileblock : ℕ) (malloc : Option (ℕ → Byte)) :
    State × Word :=
  let blksz := node.sblock.blockSize
  let sector := node.sblock.sector node.inode.indirBlock
  let a := s.indir1.allocate blksz malloc
  if a.2 = false then ({ s with indir1 := a.1 }, -1)
  else
    let r := a.1.load s.dev sector a.1.blkno blksz
    if r.2 = false then ({ s with indir1 := r.1 }, 0)
    else ({ s with indir1 := r.1 }, r.1.get (fileblock - indirectBlocks))

/-- `ext2fs_read_block` for a block that is doubly indirect.  The tag of the second level is
compared with the one of the first. -/
def readDoubleIndirect (s : State) (node : Node) (fileblock : ℕ)
    (malloc₁ malloc₂ : Option (ℕ → Byte)) : State × Word :=
  let blksz := node.sblock.blockSize
  let perblock := blksz / 4
  let rblock := fileblock - (indirectBlocks + blksz / 4)
  let sector := node.sblock.sector node.inode.doubleIndirBlock
  let a := s.indir1.allocate blksz malloc₁
  if a.2 = false then ({ s with indir1 := a.1 }, -1)
  else
    let r := a.1.load s.dev sector a.1.blkno blksz
    if r.2 = false then ({ s with indir1 := r.1 }, -1)
    else
      let b := s.indir2.allocate blksz malloc₂
      if b.2 = false then ({ s with indir1 := r.1, indir2 := b.1 }, -1)
      else
        let sector := node.sblock.sector (r.1.get (rblock / perblock))
        let t := b.1.load s.dev sector r.1.blkno blksz
        if t.2 = false then ({ s with indir1 := r.1, indir2 := t.1 }, -1)
        else ({ s with indir1 := r.1, indir2 := t.1 }, t.1.get (rblock % perblock))

/-- `ext2fs_read_block`. -/
def readBlock (s : State) (node : Node) (fileblock : ℕ) (malloc₁ malloc₂ : Option (ℕ → Byte)) :
    State × Word :=
  let blksz := node.sblock.blockSize
  if fileblock < indirectBlocks then (s, node.inode.dirBlocks fileblock)
  else if (fileblock : ℤ) < intLimit (indirectBlocks + blksz / 4) then
    readIndirect s node fileblock malloc₁
  else if (fileblock : ℤ) < intLimit (indirectBlocks + blksz / 4 * (blksz / 4 + 1)) then
    readDoubleIndirect s node fileblock malloc₁ malloc₂
  else (s, -1)

/-! ### Mounting -/

/-- `ext2fs_blockgroup`: the inode table of a group. -/
def blockgroup (d : Device) (sb : Sblock) (group : Word) : Option Word :=
  let descPerBlk := BitVec.ofNat 32 (sb.blockSize / sizeofBlockGroup)
  let blkno := sb.firstDataBlock + 1 + group / descPerBlk
  let blkoff := group % descPerBlk * BitVec.ofNat 32 sizeofBlockGroup
  let r := devread d (sb.sector blkno) blkoff.toNat sizeofBlockGroup
  if r.2 then some (le32 r.1 8) else none

/-- `ext2fs_read_inode`. -/
def readInode (d : Device) (sb : Sblock) (inodeSize : ℕ) (ino : Word) : Option Inode :=
  let ino := ino - 1
  match blockgroup d sb (ino / sb.inodesPerGroup) with
  | none => none
  | some inodeTableId =>
    let inodesPerBlock := BitVec.ofNat 32 (sb.blockSize / inodeSize)
    let blkno := inodeTableId + ino % sb.inodesPerGroup / inodesPerBlock
    let blkoff := ino % inodesPerBlock * BitVec.ofNat 32 inodeSize
    let r := devread d (sb.sector blkno) blkoff.toNat sizeofInode
    if r.2 then some (Inode.parse r.1) else none

/-- `ext2fs_mount`, when `malloc` does not fail.  The caches stay. -/
def mount (s : State) : State :=
  let r := devread s.dev 2 0 sizeofSblock
  let sb := Sblock.parse r.1
  if r.2 = false ∨ sb.magic ≠ ext2Magic then { s with ext2fsRoot := none }
  else
    let inodeSize := if sb.revisionLevel = 0 then 128 else sb.inodeSize
    match readInode s.dev sb inodeSize 2 with
    | none => { s with ext2fsRoot := none, inodeSize := inodeSize }
    | some inode => { s with ext2fsRoot := some ⟨sb, inode⟩, inodeSize := inodeSize }

/-- `ext2fs_close`. -/
def close (s : State) : State :=
  { s with
    ext2fsRoot := none
    indir1 := if s.indir1.block.isSome then Cache.freed else s.indir1
    indir2 := if s.indir2.block.isSome then Cache.freed else s.indir2 }

/-- `ext2fs_set_blk_dev`, for the partition that it finds. -/
def setBlkDev (s : State) (d : Device) : State := { s with dev := d }

end Ext2
