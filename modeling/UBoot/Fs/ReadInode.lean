import UBoot.Fs.BlockMap
import UBoot.Fs.Devread

/-!
# Where an inode is read from

`ext2fs_read_inode` finds the block of an inode by its number in its group, and the place in the
block by its number in the file system.  Both belong together if and only if the geometry of the
file system is a good one, which `ext2fs_mount` does not check.
-/

namespace Ext2

/-! ### The functions -/

/-- A division by zero, or a shift by 32 bits and more. -/
inductive Undefined where
  | division
  | shift
  deriving DecidableEq

/-- `a / b` of type `unsigned int`. -/
def udiv (a b : Word) : Except Undefined Word := if b = 0 then .error .division else .ok (a / b)

/-- `a % b` of type `unsigned int`. -/
def umod (a b : Word) : Except Undefined Word := if b = 0 then .error .division else .ok (a % b)

/-- `a % b` of type `int`. -/
def smod (a b : Word) : Except Undefined Word :=
  if b = 0 then .error .division else .ok (a.srem b)

/-- `LOG2_EXT2_BLOCK_SIZE`. -/
def log2Ext2BlockSize (sb : Sblock) : ℕ := (sb.log2BlockSize + 1).toNat

/-- `LOG2_BLOCK_SIZE`. -/
def log2BlockSize (sb : Sblock) : ℕ := (sb.log2BlockSize + 10).toNat

/-- `EXT2_BLOCK_SIZE`. -/
def ext2BlockSize (sb : Sblock) : Except Undefined Word :=
  if 32 ≤ log2BlockSize sb then .error .shift else .ok (BitVec.ofNat 32 (2 ^ log2BlockSize sb))

/-- `blkno << LOG2_EXT2_BLOCK_SIZE (data)`. -/
def sectorOf (sb : Sblock) (blkno : Word) : Except Undefined Word :=
  if 32 ≤ log2Ext2BlockSize sb then .error .shift else .ok (blkno <<< log2Ext2BlockSize sb)

/-- Where the descriptor of a group is, a sector and an offset. -/
def groupDescriptor (sb : Sblock) (group : Word) : Except Undefined (Word × Word) := do
  let blksz ← ext2BlockSize sb
  let descPerBlk := blksz / BitVec.ofNat 32 sizeofBlockGroup
  let block ← udiv group descPerBlk
  let i ← umod group descPerBlk
  let sector ← sectorOf sb (sb.firstDataBlock + 1 + block)
  .ok (sector, i * BitVec.ofNat 32 sizeofBlockGroup)

/-- Where an inode is, a sector and an offset; `ino` is one less than its number. -/
def inodeInTable (sb : Sblock) (inodeSize table ino : Word) : Except Undefined (Word × Word) := do
  let blksz ← ext2BlockSize sb
  let inodesPerBlock ← udiv blksz inodeSize
  let i ← umod ino sb.inodesPerGroup
  let block ← udiv i inodesPerBlock
  let rest ← smod ino inodesPerBlock
  let sector ← sectorOf sb (table + block)
  .ok (sector, rest * inodeSize)

/-- `ext2fs_devread` at a sector and an offset of type `int`. -/
def devreadAt (d : Device) (pos : Word × Word) (byteLen : ℕ) : Option (List Byte) :=
  let last := pos.1 + BitVec.ofInt 32 ((pos.2.toInt + byteLen - 1) / sectorSize)
  if pos.1.msb ∨ d.size ≤ last then none
  else
    let sector := pos.1 + BitVec.ofInt 32 (pos.2.toInt / sectorSize)
    let r := devreadFrom d sector (pos.2.toInt % sectorSize).toNat byteLen
    if r.2 then some r.1 else none

/-- `inode_table_id` of a group. -/
def inodeTableId (d : Device) (desc : Word × Word) : Option Word :=
  (devreadAt d desc sizeofBlockGroup).map fun blkgrp => le32 blkgrp 8

/-- `ext2fs_read_inode`. -/
def ext2fsReadInode (d : Device) (sb : Sblock) (inodeSize ino : Word) :
    Except Undefined (Option (List Byte)) := do
  let ino := ino - 1
  let group ← udiv ino sb.inodesPerGroup
  let desc ← groupDescriptor sb group
  match inodeTableId d desc with
  | none => .ok none
  | some table => do
    let pos ← inodeInTable sb inodeSize table ino
    .ok (devreadAt d pos sizeofInode)

/-- `total_inodes`, the first field of the superblock. -/
def totalInodes (bytes : List Byte) : Word := le32 bytes 0

/-- `inode_size`, as `ext2fs_mount` sets it. -/
def mountInodeSize (sb : Sblock) : Word :=
  if sb.revisionLevel = 0 then 128 else BitVec.ofNat 32 sb.inodeSize

/-- `ext2fs_mount`: the superblock, if it is accepted. -/
def ext2fsMount (d : Device) : Except Undefined (Option (List Byte)) :=
  match devreadAt d (2, 0) sizeofSblock with
  | none => .ok none
  | some bytes =>
    let sb := Sblock.parse bytes
    if sb.magic ≠ ext2Magic then .ok none
    else do
      let root ← ext2fsReadInode d sb (mountInodeSize sb) 2
      .ok (root.map fun _ => bytes)

/-! ### What they should do -/

/-- The byte of the partition that a sector and an offset mean. -/
def bytePosition (pos : Word × Word) : ℤ := pos.1.toInt * sectorSize + pos.2.toInt

/-- The group of an inode. -/
def inodeGroup (sb : Sblock) (ino : Word) : ℕ := (ino.toNat - 1) / sb.inodesPerGroup.toNat

/-- Its number in the group. -/
def inodeIndex (sb : Sblock) (ino : Word) : ℕ := (ino.toNat - 1) % sb.inodesPerGroup.toNat

/-- The size of a block. -/
def blockBytes (sb : Sblock) : ℕ := 2 ^ log2Ext2BlockSize sb * sectorSize

/-- The number of inodes that a block has room for. -/
def inodesPerBlock (sb : Sblock) (inodeSize : Word) : ℕ := blockBytes sb / inodeSize.toNat

/-- The inode is read from its place in the table. -/
def InPlace (sb : Sblock) (inodeSize table ino : Word) : Prop :=
  ∃ pos, inodeInTable sb inodeSize table (ino - 1) = .ok pos
    ∧ bytePosition pos = table.toNat * blockBytes sb + inodeIndex sb ino * inodeSize.toNat

/-- All divisions are defined, the descriptor of the group is read from its place, and the inode
from its place in the table that the descriptor says. -/
def Located (d : Device) (sb : Sblock) (inodeSize ino : Word) : Prop :=
  ∃ group desc, udiv (ino - 1) sb.inodesPerGroup = .ok group
    ∧ groupDescriptor sb group = .ok desc
    ∧ bytePosition desc = (sb.firstDataBlock.toNat + 1) * blockBytes sb
      + inodeGroup sb ino * sizeofBlockGroup
    ∧ ∀ table ∈ inodeTableId d desc, InPlace sb inodeSize table ino

/-- A block begins at a sector that is an `int`. -/
def BlockFits (sb : Sblock) (n : ℕ) : Prop := n * 2 ^ log2Ext2BlockSize sb < 2 ^ 31

/-- The remainder by the number in the file system is the remainder by the number in the group.  The
former is negative, or zero, if the number is. -/
def SameRest (sb : Sblock) (inodesPerBlock : ℕ) (ino : Word) : Prop :=
  if ino.toNat - 1 < 2 ^ 31 then inodesPerBlock ∣ inodeGroup sb ino * sb.inodesPerGroup.toNat
  else inodesPerBlock ∣ 2 ^ 32 - (ino.toNat - 1) ∧ inodesPerBlock ∣ inodeIndex sb ino

/-- The condition for the place in the table: there is room for an inode in a block; as far as the
inodes are away from the beginning of the table, blocks are full of them; both remainders are the
same. -/
structure TableFine (sb : Sblock) (inodeSize table ino : Word) : Prop where
  pos : 0 < inodeSize.toNat
  le : inodeSize.toNat ≤ blockBytes sb
  full : inodeSize.toNat ∣ blockBytes sb ∨ inodeIndex sb ino < inodesPerBlock sb inodeSize
  rest : SameRest sb (inodesPerBlock sb inodeSize) ino
  fits : BlockFits sb (table.toNat + inodeIndex sb ino / inodesPerBlock sb inodeSize)

/-- The condition for an inode. -/
structure GeometryFine (d : Device) (sb : Sblock) (inodeSize ino : Word) : Prop where
  log2BlockSize : log2Ext2BlockSize sb ≤ 22
  inodesPerGroup : sb.inodesPerGroup ≠ 0
  fits : BlockFits sb
    (sb.firstDataBlock.toNat + 1 + inodeGroup sb ino / (blockBytes sb / sizeofBlockGroup))
  table : ∀ desc, groupDescriptor sb ((ino - 1) / sb.inodesPerGroup) = .ok desc →
    ∀ table ∈ inodeTableId d desc, TableFine sb inodeSize table ino

/-! ### Words -/

theorem ok_of_bind {α β : Type} {x : Except Undefined α} {f : α → Except Undefined β} {b : β}
    (h : (x >>= f) = .ok b) :
  ∃ a, x = .ok a ∧ f a = .ok b
  := by
  cases x with
  | error e => cases h
  | ok a => exact ⟨a, rfl, h⟩

theorem ne_of_udiv {a b c : Word} (h : udiv a b = .ok c) :
  b ≠ 0
  := by
  rintro rfl
  cases h

theorem toInt_ofNat_sub (x : ℕ) :
  ∃ j : ℕ, (BitVec.ofNat 32 x).toInt = x - 2 ^ 32 * j ∧ (j = 0 ↔ x < 2 ^ 31)
  := by
  rw [BitVec.toInt_eq_toNat_cond, BitVec.toNat_ofNat]
  split
  · use x / 2 ^ 32
    omega
  · use x / 2 ^ 32 + 1
    omega

theorem toInt_ofNat_of_lt {x : ℕ} (h : x < 2 ^ 31) :
  (BitVec.ofNat 32 x).toInt = x
  := by
  obtain ⟨j, hj, hzero⟩ := toInt_ofNat_sub x
  rw [hj, hzero.mpr h]
  omega

/-- A product with a small value, of type `int`. -/
theorem toInt_mul_of_lt {a b : Word} (hlow : -2 ^ 31 ≤ a.toInt * b.toNat)
    (hhigh : a.toInt * b.toNat < 2 ^ 31) :
  (a * b).toInt = a.toInt * b.toNat
  := by
  have hmul : a * b = BitVec.ofInt 32 (a.toInt * b.toNat) := by
    rw [BitVec.ofInt_mul, BitVec.ofInt_toInt, BitVec.ofInt_natCast, BitVec.ofNat_toNat,
      BitVec.setWidth_eq]
  rw [hmul, BitVec.toInt_ofInt, Int.bmod_eq_of_le (by omega) (by omega)]

theorem natAbs_srem_lt {a : Word} {k : ℕ} (hpos : 0 < k) (hle : k ≤ 2 ^ 31) :
  (a.srem (BitVec.ofNat 32 k)).toInt.natAbs < k
  := by
  have hk : (BitVec.ofNat 32 k).toInt.natAbs = k := by
    rw [BitVec.toInt_eq_toNat_cond, BitVec.toNat_ofNat, Nat.mod_eq_of_lt (by omega)]
    split
    all_goals omega
  rw [BitVec.toInt_srem, Int.natAbs_tmod, hk]
  apply Nat.mod_lt _ hpos

section Blocks

variable {sb : Sblock}

theorem blockBytes_eq (sb : Sblock) :
  blockBytes sb = 2 ^ (log2Ext2BlockSize sb + 9)
  := by rw [Nat.pow_add, blockBytes, sectorSize]

theorem blockBytes_pos (sb : Sblock) :
  0 < blockBytes sb
  := by
  rw [blockBytes_eq]
  exact Nat.two_pow_pos _

theorem blockBytes_le (hlog : log2Ext2BlockSize sb ≤ 22) :
  blockBytes sb ≤ 2 ^ 31
  := by
  rw [blockBytes_eq]
  apply Nat.pow_le_pow_right (by decide)
  omega

theorem log2BlockSize_eq (hlog : log2Ext2BlockSize sb ≤ 22) :
  log2BlockSize sb = log2Ext2BlockSize sb + 9
  := by
  have hadd : sb.log2BlockSize + 10 = sb.log2BlockSize + 1 + 9 := by
    rw [BitVec.add_assoc]
    rfl
  have hlt : (sb.log2BlockSize + 1).toNat ≤ 22 := hlog
  rw [log2BlockSize, log2Ext2BlockSize, hadd, BitVec.toNat_add_of_not_uaddOverflow]
  · rfl
  · rw [BitVec.uaddOverflow, decide_eq_true_eq]
    have hnine : (9 : Word).toNat = 9 := rfl
    omega

/-- Both logarithms are in range together, unless one of them wraps around. -/
theorem log2_le_of_ok {blksz sector blkno : Word} (hsize : ext2BlockSize sb = .ok blksz)
    (hsector : sectorOf sb blkno = .ok sector) :
  log2Ext2BlockSize sb ≤ 22
  := by
  have hsmall : log2BlockSize sb < 32 := by
    by_contra hge
    rw [ext2BlockSize, if_pos (Nat.not_lt.mp hge)] at hsize
    cases hsize
  have hshift : log2Ext2BlockSize sb < 32 := by
    by_contra hge
    rw [sectorOf, if_pos (Nat.not_lt.mp hge)] at hsector
    cases hsector
  rw [log2BlockSize, BitVec.toNat_add] at hsmall
  rw [log2Ext2BlockSize, BitVec.toNat_add] at hshift ⊢
  have hten : (10 : Word).toNat = 10 := rfl
  have hone : (1 : Word).toNat = 1 := rfl
  omega

theorem sectorOf_of_le (hlog : log2Ext2BlockSize sb ≤ 22) (blkno : Word) :
  sectorOf sb blkno = .ok (blkno <<< log2Ext2BlockSize sb)
  := if_neg (Nat.not_le.mpr (Nat.lt_of_le_of_lt hlog (by decide)))

/-- The first sector of a block, and what is missing in its position. -/
theorem bytePosition_sector (hlog : log2Ext2BlockSize sb ≤ 22) (n : ℕ) (offset : Word) :
  ∃ e : ℕ, bytePosition (BitVec.ofNat 32 n <<< log2Ext2BlockSize sb, offset)
      = (n - e) * blockBytes sb + offset.toInt
    ∧ (e = 0 ∨ 2 ≤ e) ∧ (e = 0 ↔ BlockFits sb n)
  := by
  have hsector : BitVec.ofNat 32 n <<< log2Ext2BlockSize sb
      = BitVec.ofNat 32 (n * 2 ^ log2Ext2BlockSize sb) := by
    apply BitVec.eq_of_toNat_eq
    rw [BitVec.toNat_shiftLeft, BitVec.toNat_ofNat, BitVec.toNat_ofNat,
      Nat.shiftLeft_eq, Nat.mod_mul_mod]
  obtain ⟨j, hj, hzero⟩ := toInt_ofNat_sub (n * 2 ^ log2Ext2BlockSize sb)
  have hsplit : (2 : ℤ) ^ 32 = 2 ^ (32 - log2Ext2BlockSize sb) * 2 ^ log2Ext2BlockSize sb := by
    rw [← pow_add, Nat.sub_add_cancel (hlog.trans (by decide))]
  have htwo : 2 ≤ 2 ^ (32 - log2Ext2BlockSize sb) := Nat.le_self_pow (by omega) 2
  use 2 ^ (32 - log2Ext2BlockSize sb) * j
  refine ⟨?_, ?_, ?_⟩
  · rw [bytePosition, hsector, hj, hsplit, blockBytes]
    push_cast
    ring
  · obtain rfl | hpos := Nat.eq_zero_or_pos j
    · exact .inl rfl
    · exact .inr (htwo.trans (Nat.le_mul_of_pos_right _ hpos))
  · rw [Nat.mul_eq_zero, or_iff_right (Nat.two_pow_pos _).ne', hzero]
    rfl

theorem ext2BlockSize_of_le (hlog : log2Ext2BlockSize sb ≤ 22) :
  ext2BlockSize sb = .ok (BitVec.ofNat 32 (blockBytes sb))
  := by
  rw [ext2BlockSize, log2BlockSize_eq hlog, if_neg (by omega), blockBytes_eq]

theorem toNat_blockBytes (hlog : log2Ext2BlockSize sb ≤ 22) :
  (BitVec.ofNat 32 (blockBytes sb)).toNat = blockBytes sb
  := Nat.mod_eq_of_lt ((blockBytes_le hlog).trans_lt (by decide))

theorem udiv_of_ne {a b : Word} (h : b ≠ 0) : udiv a b = .ok (a / b) := if_neg h

theorem umod_of_ne {a b : Word} (h : b ≠ 0) : umod a b = .ok (a % b) := if_neg h

theorem smod_of_ne {a b : Word} (h : b ≠ 0) : smod a b = .ok (a.srem b) := if_neg h

/-- The descriptors fill a block. -/
theorem descPerBlk_mul (sb : Sblock) :
  16 ≤ blockBytes sb / sizeofBlockGroup
    ∧ blockBytes sb / sizeofBlockGroup * sizeofBlockGroup = blockBytes sb
  := by
  have hsize : blockBytes sb = 2 ^ log2Ext2BlockSize sb * 16 * sizeofBlockGroup := by
    rw [blockBytes, Nat.mul_assoc]
    rfl
  have hpos := Nat.two_pow_pos (log2Ext2BlockSize sb)
  rw [hsize, Nat.mul_div_cancel _ (by decide)]
  exact ⟨Nat.le_mul_of_pos_left 16 hpos, rfl⟩

theorem groupDescriptor_eq (hlog : log2Ext2BlockSize sb ≤ 22) (group : Word) :
  groupDescriptor sb group = .ok
    (BitVec.ofNat 32
        (sb.firstDataBlock.toNat + 1 + group.toNat / (blockBytes sb / sizeofBlockGroup))
      <<< log2Ext2BlockSize sb,
    BitVec.ofNat 32 (group.toNat % (blockBytes sb / sizeofBlockGroup) * sizeofBlockGroup))
  := by
  obtain ⟨hfull, _⟩ := descPerBlk_mul sb
  have hword : (BitVec.ofNat 32 (blockBytes sb) / BitVec.ofNat 32 sizeofBlockGroup).toNat
      = blockBytes sb / sizeofBlockGroup := by
    rw [BitVec.toNat_udiv, toNat_blockBytes hlog]
    rfl
  have hne : BitVec.ofNat 32 (blockBytes sb) / BitVec.ofNat 32 sizeofBlockGroup ≠ 0 := by
    intro hzero
    rw [hzero] at hword
    rw [← hword] at hfull
    exact absurd hfull (by decide)
  rw [groupDescriptor, ext2BlockSize_of_le hlog]
  change (udiv group _ >>= fun block => umod group _ >>= fun i => _) = _
  rw [udiv_of_ne hne, umod_of_ne hne]
  change (sectorOf sb _ >>= fun sector => _) = _
  rw [sectorOf_of_le hlog]
  apply congrArg Except.ok
  apply Prod.ext
  · dsimp only
    apply congrArg (fun blkno : Word => blkno <<< log2Ext2BlockSize sb)
    apply BitVec.eq_of_toNat_eq
    rw [BitVec.toNat_add, BitVec.toNat_add, BitVec.toNat_udiv, hword, BitVec.toNat_ofNat,
      Nat.mod_add_mod]
    rfl
  · apply BitVec.eq_of_toNat_eq
    change (_ * BitVec.ofNat 32 sizeofBlockGroup : Word).toNat = _
    rw [BitVec.toNat_mul, BitVec.toNat_umod, hword, BitVec.toNat_ofNat]
    rfl

/-- **The descriptor of a group** is in its place, if the block is in range. -/
theorem groupDescriptor_spec (hlog : log2Ext2BlockSize sb ≤ 22) (group : Word) :
  ∃ desc, groupDescriptor sb group = .ok desc
    ∧ (bytePosition desc
        = (sb.firstDataBlock.toNat + 1) * blockBytes sb + group.toNat * sizeofBlockGroup
      ↔ BlockFits sb
        (sb.firstDataBlock.toNat + 1 + group.toNat / (blockBytes sb / sizeofBlockGroup)))
  := by
  refine ⟨_, groupDescriptor_eq hlog group, ?_⟩
  obtain ⟨hfull, hmul⟩ := descPerBlk_mul sb
  have hle := blockBytes_le hlog
  have hpos := blockBytes_pos sb
  generalize blockBytes sb / sizeofBlockGroup = descPerBlk at hfull hmul
  have hrest : group.toNat % descPerBlk + 1 ≤ descPerBlk :=
    Nat.mod_lt _ (Nat.lt_of_lt_of_le (by decide) hfull)
  have hbound := Nat.mul_le_mul_right sizeofBlockGroup hrest
  obtain ⟨e, hposition, -, hzero⟩ := bytePosition_sector hlog
    (sb.firstDataBlock.toNat + 1 + group.toNat / descPerBlk)
    (BitVec.ofNat 32 (group.toNat % descPerBlk * sizeofBlockGroup))
  rw [hposition, ← hzero, toInt_ofNat_of_lt]
  · have hgroup : (group.toNat : ℤ) * sizeofBlockGroup
        = group.toNat / descPerBlk * blockBytes sb
          + group.toNat % descPerBlk * sizeofBlockGroup := by
      have hdiv := Nat.div_add_mod group.toNat descPerBlk
      rw [← hmul]
      nth_rewrite 1 [← hdiv]
      push_cast
      ring
    rw [hgroup]
    push_cast
    constructor
    · intro h
      have hprod : (e : ℤ) * blockBytes sb = 0 := by linear_combination -h
      obtain he | hb := mul_eq_zero.mp hprod
      · exact Int.natCast_eq_zero.mp he
      · exact absurd (Int.natCast_eq_zero.mp hb) hpos.ne'
    · rintro rfl
      push_cast
      ring
  · rw [sizeofBlockGroup] at hbound hmul ⊢
    omega

theorem inodeInTable_eq (hlog : log2Ext2BlockSize sb ≤ 22) (hgroup : sb.inodesPerGroup ≠ 0)
    {inodeSize : Word} (hpos : 0 < inodeSize.toNat) (hle : inodeSize.toNat ≤ blockBytes sb)
    (table ino : Word) :
  inodeInTable sb inodeSize table ino = .ok
    (BitVec.ofNat 32
        (table.toNat + ino.toNat % sb.inodesPerGroup.toNat / inodesPerBlock sb inodeSize)
      <<< log2Ext2BlockSize sb,
    ino.srem (BitVec.ofNat 32 (inodesPerBlock sb inodeSize)) * inodeSize)
  := by
  have hsize : inodeSize ≠ 0 := by
    rintro rfl
    exact absurd hpos (by decide)
  have hlt : inodesPerBlock sb inodeSize < 2 ^ 32 :=
    (Nat.div_le_self _ _).trans_lt ((blockBytes_le hlog).trans_lt (by decide))
  have hword : BitVec.ofNat 32 (blockBytes sb) / inodeSize
      = BitVec.ofNat 32 (inodesPerBlock sb inodeSize) := by
    apply BitVec.eq_of_toNat_eq
    rw [BitVec.toNat_udiv, toNat_blockBytes hlog, BitVec.toNat_ofNat, Nat.mod_eq_of_lt hlt]
    rfl
  have hne : BitVec.ofNat 32 (inodesPerBlock sb inodeSize) ≠ 0 := by
    intro hzero
    have htoNat := congrArg BitVec.toNat hzero
    rw [BitVec.toNat_ofNat, Nat.mod_eq_of_lt hlt] at htoNat
    exact absurd htoNat (Nat.div_pos hle hpos).ne'
  rw [inodeInTable, ext2BlockSize_of_le hlog]
  change (udiv _ inodeSize >>= fun inodesPerBlock => umod ino _ >>= fun i =>
    udiv i inodesPerBlock >>= fun block => smod ino inodesPerBlock >>= fun rest => _) = _
  rw [udiv_of_ne hsize, hword, umod_of_ne hgroup]
  change (udiv _ _ >>= fun block => smod ino _ >>= fun rest => _) = _
  rw [udiv_of_ne hne, smod_of_ne hne]
  change (sectorOf sb _ >>= fun sector => _) = _
  rw [sectorOf_of_le hlog]
  apply congrArg Except.ok
  apply Prod.ext
  · dsimp only
    apply congrArg (fun blkno : Word => blkno <<< log2Ext2BlockSize sb)
    apply BitVec.eq_of_toNat_eq
    rw [BitVec.toNat_add, BitVec.toNat_udiv, BitVec.toNat_umod, BitVec.toNat_ofNat,
      BitVec.toNat_ofNat, Nat.mod_eq_of_lt hlt]
  · rfl

end Blocks

/-! ### Places in a table -/

/-- Two remainders are the same if their bytes are, up to whole blocks. -/
theorem eq_of_mul_add {a x k size blksz : ℤ} {e : ℕ} (hsize : 0 < size) (hblksz : 0 < blksz)
    (hk : k * size ≤ blksz) (ha : a < k) (hx : 0 ≤ x) (he : e = 0 ∨ 2 ≤ e)
    (h : a * size = x * size + e * blksz) :
  e = 0 ∧ a = x
  := by
  have hlt : a * size < blksz := lt_of_lt_of_le (mul_lt_mul_of_pos_right ha hsize) hk
  have hnonneg : 0 ≤ x * size := mul_nonneg hx hsize.le
  obtain rfl | htwo := he
  · refine ⟨rfl, ?_⟩
    apply mul_right_cancel₀ hsize.ne'
    linear_combination h
  · have hprod : 2 * blksz ≤ e * blksz :=
      mul_le_mul_of_nonneg_right (by exact_mod_cast htwo) hblksz.le
    linarith

/-- Blocks are full if the first inode of the second one is in its place. -/
theorem full_of_mul_add {a k size blksz : ℤ} {e : ℕ} (hsize : 0 < size) (hblksz : 0 < blksz)
    (hk : k * size ≤ blksz) (hfull : blksz < k * size + size) (hpos : 0 ≤ k) (ha : a < k)
    (he : e = 0 ∨ 2 ≤ e) (h : blksz + a * size = k * size + e * blksz) :
  blksz = k * size
  := by
  have hlt : a * size < blksz := lt_of_lt_of_le (mul_lt_mul_of_pos_right ha hsize) hk
  have hnonneg : 0 ≤ k * size := mul_nonneg hpos hsize.le
  obtain rfl | htwo := he
  · have hgt : -1 < a := by
      apply lt_of_mul_lt_mul_right _ hsize.le
      push_cast at h
      linarith
    have hmul : 0 ≤ a * size := mul_nonneg (Int.add_one_le_iff.mpr hgt) hsize.le
    push_cast at h
    linarith
  · have hprod : 2 * blksz ≤ e * blksz :=
      mul_le_mul_of_nonneg_right (by exact_mod_cast htwo) hblksz.le
    linarith

section Table

variable {sb : Sblock} {inodeSize table ino : Word}

theorem toNat_sub_one (h : 1 ≤ ino) :
  (ino - 1).toNat = ino.toNat - 1
  := BitVec.toNat_sub_of_le h

/-- The remainder of type `int`. -/
theorem toInt_srem_ofNat (n : Word) {k : ℕ} (hle : k ≤ 2 ^ 31) :
  (n.srem (BitVec.ofNat 32 k)).toInt
    = if n.toNat < 2 ^ 31 then ((n.toNat % k : ℕ) : ℤ) else -((2 ^ 32 - n.toNat) % k : ℕ)
  := by
  have hk : (BitVec.ofNat 32 k).toInt = k ∨ (BitVec.ofNat 32 k).toInt = - k := by
    rw [BitVec.toInt_eq_toNat_cond, BitVec.toNat_ofNat, Nat.mod_eq_of_lt (by omega)]
    split
    all_goals omega
  have htmod : (n.srem (BitVec.ofNat 32 k)).toInt = n.toInt.tmod k := by
    rw [BitVec.toInt_srem]
    obtain h | h := hk
    · rw [h]
    · rw [h, Int.tmod_neg]
  rw [htmod]
  split
  · rename_i hlt
    rw [BitVec.toInt_eq_toNat_of_lt (by omega), Int.ofNat_tmod]
  · rename_i hge
    have hlt := n.isLt
    have hneg : n.toInt = - (2 ^ 32 - n.toNat : ℕ) := by
      rw [BitVec.toInt_eq_toNat_cond]
      omega
    rw [hneg, Int.neg_tmod, Int.ofNat_tmod]

theorem sameRest_iff (hino : 1 ≤ ino) {k : ℕ} (hle : k ≤ 2 ^ 31) :
  ((ino - 1).srem (BitVec.ofNat 32 k)).toInt = inodeIndex sb ino % k ↔ SameRest sb k ino
  := by
  rw [toInt_srem_ofNat _ hle, toNat_sub_one hino, SameRest, ← Int.natCast_emod]
  split
  · rw [Nat.cast_inj, eq_comm]
    change inodeIndex sb ino ≡ ino.toNat - 1 [MOD k] ↔ _
    have hle : inodeIndex sb ino ≤ ino.toNat - 1 := Nat.mod_le _ _
    rw [Nat.modEq_iff_dvd' hle]
    have hsplit := Nat.div_add_mod' (ino.toNat - 1) sb.inodesPerGroup.toNat
    have hgroup : ino.toNat - 1 - inodeIndex sb ino
        = inodeGroup sb ino * sb.inodesPerGroup.toNat := by
      rw [inodeIndex, inodeGroup]
      omega
    rw [hgroup]
  · rw [Nat.dvd_iff_mod_eq_zero, Nat.dvd_iff_mod_eq_zero]
    omega

/-- **The position of an inode**, up to what does not fit into an `int`. -/
theorem inodeInTable_spec (hlog : log2Ext2BlockSize sb ≤ 22) (hgroup : sb.inodesPerGroup ≠ 0)
    (hpos : 0 < inodeSize.toNat) (hle : inodeSize.toNat ≤ blockBytes sb) (table ino : Word) :
  ∃ pos, inodeInTable sb inodeSize table ino = .ok pos ∧ ∃ e : ℕ,
    bytePosition pos
        = ((table.toNat + ino.toNat % sb.inodesPerGroup.toNat / inodesPerBlock sb inodeSize : ℕ)
            - e) * blockBytes sb
          + (ino.srem (BitVec.ofNat 32 (inodesPerBlock sb inodeSize))).toInt * inodeSize.toNat
      ∧ (e = 0 ∨ 2 ≤ e)
      ∧ (e = 0 ↔ BlockFits sb
        (table.toNat + ino.toNat % sb.inodesPerGroup.toNat / inodesPerBlock sb inodeSize))
      ∧ (ino.srem (BitVec.ofNat 32 (inodesPerBlock sb inodeSize))).toInt
        < inodesPerBlock sb inodeSize
  := by
  refine ⟨_, inodeInTable_eq hlog hgroup hpos hle table ino, ?_⟩
  have hblksz := blockBytes_le hlog
  have hk : 0 < inodesPerBlock sb inodeSize := Nat.div_pos hle hpos
  have hmul : inodesPerBlock sb inodeSize * inodeSize.toNat ≤ blockBytes sb :=
    Nat.div_mul_le_self _ _
  have hkle : inodesPerBlock sb inodeSize ≤ 2 ^ 31 := (Nat.div_le_self _ _).trans hblksz
  have habs := @natAbs_srem_lt ino _ hk hkle
  generalize inodesPerBlock sb inodeSize = k at hk hmul hkle habs
  generalize hrest : ino.srem (BitVec.ofNat 32 k) = rest at habs
  have hbound : rest.toInt.natAbs * inodeSize.toNat < 2 ^ 31 := by
    calc rest.toInt.natAbs * inodeSize.toNat < k * inodeSize.toNat :=
          Nat.mul_lt_mul_of_pos_right habs hpos
      _ ≤ 2 ^ 31 := hmul.trans hblksz
  have hprod : (rest * inodeSize).toInt = rest.toInt * inodeSize.toNat := by
    have hnat : (rest.toInt * inodeSize.toNat).natAbs < 2 ^ 31 := by
      rwa [Int.natAbs_mul, Int.natAbs_natCast]
    apply toInt_mul_of_lt
    all_goals omega
  obtain ⟨e, hposition, he, hzero⟩ := bytePosition_sector hlog
    (table.toNat + ino.toNat % sb.inodesPerGroup.toNat / k) (rest * inodeSize)
  use e
  rw [hposition, hprod]
  exact ⟨rfl, he, hzero, by omega⟩

/-- What is divided by is not zero. -/
theorem bounds_of_inPlace (hlog : log2Ext2BlockSize sb ≤ 22)
    (h : InPlace sb inodeSize table ino) :
  0 < inodeSize.toNat ∧ inodeSize.toNat ≤ blockBytes sb
  := by
  obtain ⟨pos, hread, _⟩ := h
  obtain ⟨blksz, hblksz, hread⟩ := ok_of_bind hread
  rw [ext2BlockSize_of_le hlog] at hblksz
  obtain rfl := Except.ok.inj hblksz
  obtain ⟨inodesPerBlock, hdiv, hread⟩ := ok_of_bind hread
  obtain ⟨i, _, hread⟩ := ok_of_bind hread
  obtain ⟨block, hblock, _⟩ := ok_of_bind hread
  have hsize := ne_of_udiv hdiv
  have hne := ne_of_udiv hblock
  refine ⟨Nat.pos_of_ne_zero fun hzero => hsize (BitVec.eq_of_toNat_eq hzero), ?_⟩
  by_contra hlt
  rw [udiv_of_ne hsize] at hdiv
  obtain rfl := Except.ok.inj hdiv
  apply hne
  apply BitVec.eq_of_toNat_eq
  rw [BitVec.toNat_udiv, toNat_blockBytes hlog]
  exact Nat.div_eq_of_lt (Nat.not_le.mp hlt)

/-- In full blocks, or in the first one, the remainders decide. -/
theorem inPlace_iff (hino : 1 ≤ ino) (hlog : log2Ext2BlockSize sb ≤ 22)
    (hgroup : sb.inodesPerGroup ≠ 0) (hpos : 0 < inodeSize.toNat)
    (hle : inodeSize.toNat ≤ blockBytes sb)
    (hfull : inodeSize.toNat ∣ blockBytes sb ∨ inodeIndex sb ino < inodesPerBlock sb inodeSize) :
  InPlace sb inodeSize table ino
    ↔ SameRest sb (inodesPerBlock sb inodeSize) ino
      ∧ BlockFits sb (table.toNat + inodeIndex sb ino / inodesPerBlock sb inodeSize)
  := by
  obtain ⟨pos, hread, e, hposition, he, hzero, hlt⟩ :=
    inodeInTable_spec hlog hgroup hpos hle table (ino - 1)
  rw [toNat_sub_one hino] at hposition hzero
  change bytePosition pos = ((table.toNat + inodeIndex sb ino / inodesPerBlock sb inodeSize : ℕ)
    - e) * blockBytes sb + _ at hposition
  change e = 0 ↔ BlockFits sb (table.toNat + inodeIndex sb ino / _) at hzero
  have hmul : inodesPerBlock sb inodeSize * inodeSize.toNat ≤ blockBytes sb :=
    Nat.div_mul_le_self _ _
  have hwhole : inodeIndex sb ino / inodesPerBlock sb inodeSize * blockBytes sb
      = inodeIndex sb ino / inodesPerBlock sb inodeSize
        * (inodesPerBlock sb inodeSize * inodeSize.toNat) := by
    obtain hdvd | hfirst := hfull
    · rw [inodesPerBlock, Nat.div_mul_cancel hdvd]
    · rw [Nat.div_eq_of_lt hfirst, Nat.zero_mul, Nat.zero_mul]
  have hsplit := Nat.div_add_mod (inodeIndex sb ino) (inodesPerBlock sb inodeSize)
  have hplace : InPlace sb inodeSize table ino
      ↔ bytePosition pos = table.toNat * blockBytes sb + inodeIndex sb ino * inodeSize.toNat := by
    constructor
    · rintro ⟨pos', hread', h⟩
      rwa [Except.ok.inj (hread.symm.trans hread')]
    · exact fun h => ⟨pos, hread, h⟩
  have hk : inodesPerBlock sb inodeSize ≤ 2 ^ 31 :=
    (Nat.div_le_self _ _).trans (blockBytes_le hlog)
  rw [hplace, hposition, ← hzero, ← sameRest_iff hino hk, ← Int.natCast_emod]
  generalize ((ino - 1).srem (BitVec.ofNat 32 (inodesPerBlock sb inodeSize))).toInt = rest at hlt ⊢
  generalize inodeIndex sb ino / inodesPerBlock sb inodeSize = block at hwhole hsplit ⊢
  generalize inodeIndex sb ino % inodesPerBlock sb inodeSize = i at hsplit ⊢
  have hwhole' : (block : ℤ) * blockBytes sb
      = block * (inodesPerBlock sb inodeSize * inodeSize.toNat) := by exact_mod_cast hwhole
  have hsplit' : (inodesPerBlock sb inodeSize : ℤ) * block + i = inodeIndex sb ino := by
    exact_mod_cast hsplit
  push_cast
  constructor
  · intro h
    have hbytes : rest * inodeSize.toNat = i * inodeSize.toNat + e * blockBytes sb := by
      linear_combination h - hwhole' - inodeSize.toNat * hsplit'
    exact (eq_of_mul_add (by exact_mod_cast hpos) (by exact_mod_cast blockBytes_pos sb)
      (by exact_mod_cast hmul) hlt (Int.natCast_nonneg i) he hbytes).symm
  · rintro ⟨rfl, rfl⟩
    push_cast
    linear_combination hwhole' + inodeSize.toNat * hsplit'

/-- If the first inode of the second block is in its place, then blocks are full. -/
theorem dvd_of_inPlace (hino : 1 ≤ ino) (hlog : log2Ext2BlockSize sb ≤ 22)
    (hgroup : sb.inodesPerGroup ≠ 0) (hindex : inodeIndex sb ino = inodesPerBlock sb inodeSize)
    (h : InPlace sb inodeSize table ino) :
  inodeSize.toNat ∣ blockBytes sb
  := by
  obtain ⟨hpos, hle⟩ := bounds_of_inPlace hlog h
  obtain ⟨pos, hread, hplace⟩ := h
  obtain ⟨pos', hread', e, hposition, he, _, hlt⟩ :=
    inodeInTable_spec hlog hgroup hpos hle table (ino - 1)
  obtain rfl := Except.ok.inj (hread.symm.trans hread')
  rw [toNat_sub_one hino] at hposition
  change bytePosition pos = ((table.toNat + inodeIndex sb ino / inodesPerBlock sb inodeSize : ℕ)
    - e) * blockBytes sb + _ at hposition
  have hk : 0 < inodesPerBlock sb inodeSize := Nat.div_pos hle hpos
  have hmul : inodesPerBlock sb inodeSize * inodeSize.toNat ≤ blockBytes sb :=
    Nat.div_mul_le_self _ _
  have hnext : blockBytes sb < inodesPerBlock sb inodeSize * inodeSize.toNat + inodeSize.toNat :=
    Nat.lt_div_mul_add hpos
  rw [hposition, hindex, Nat.div_self hk] at hplace
  generalize ((ino - 1).srem (BitVec.ofNat 32 (inodesPerBlock sb inodeSize))).toInt = rest
    at hlt hplace
  push_cast at hplace
  have hbytes : (blockBytes sb : ℤ) + rest * inodeSize.toNat
      = inodesPerBlock sb inodeSize * inodeSize.toNat + e * blockBytes sb := by
    linear_combination hplace
  have hfull := full_of_mul_add (by exact_mod_cast hpos) (by exact_mod_cast blockBytes_pos sb)
    (by exact_mod_cast hmul) (by exact_mod_cast hnext) (Int.natCast_nonneg _) hlt he hbytes
  exact Dvd.intro_left (inodesPerBlock sb inodeSize) (by exact_mod_cast hfull.symm)

theorem tableFine_of_inPlace (hino : 1 ≤ ino) (hlog : log2Ext2BlockSize sb ≤ 22)
    (hgroup : sb.inodesPerGroup ≠ 0)
    (hdvd : inodesPerBlock sb inodeSize ≤ inodeIndex sb ino → inodeSize.toNat ∣ blockBytes sb)
    (h : InPlace sb inodeSize table ino) :
  TableFine sb inodeSize table ino
  := by
  obtain ⟨hpos, hle⟩ := bounds_of_inPlace hlog h
  have hfull : inodeSize.toNat ∣ blockBytes sb
      ∨ inodeIndex sb ino < inodesPerBlock sb inodeSize := by
    rw [or_iff_not_imp_right, Nat.not_lt]
    exact hdvd
  obtain ⟨hrest, hfits⟩ := (inPlace_iff hino hlog hgroup hpos hle hfull).mp h
  exact ⟨hpos, hle, hfull, hrest, hfits⟩

theorem inPlace_of_tableFine (hino : 1 ≤ ino) (hlog : log2Ext2BlockSize sb ≤ 22)
    (hgroup : sb.inodesPerGroup ≠ 0) (h : TableFine sb inodeSize table ino) :
  InPlace sb inodeSize table ino
  := (inPlace_iff hino hlog hgroup h.pos h.le h.full).mpr ⟨h.rest, h.fits⟩

/-- The inode of another index in the same group. -/
theorem exists_inodeIndex (hino : 1 ≤ ino) (hgroup : sb.inodesPerGroup ≠ 0) {k : ℕ}
    (hk : k ≤ inodeIndex sb ino) :
  ∃ ino' : Word, 1 ≤ ino' ∧ ino' ≤ ino ∧ inodeIndex sb ino' = k
    ∧ (ino' - 1) / sb.inodesPerGroup = (ino - 1) / sb.inodesPerGroup
  := by
  have hipg : 0 < sb.inodesPerGroup.toNat := by
    apply Nat.pos_of_ne_zero
    exact fun hzero => hgroup (BitVec.eq_of_toNat_eq hzero)
  have hlt : inodeIndex sb ino < sb.inodesPerGroup.toNat := Nat.mod_lt _ hipg
  have hsplit : sb.inodesPerGroup.toNat * inodeGroup sb ino + inodeIndex sb ino = ino.toNat - 1 :=
    Nat.div_add_mod _ _
  have hone : 1 ≤ ino.toNat := hino
  have hmax := ino.isLt
  have hword : (BitVec.ofNat 32 (sb.inodesPerGroup.toNat * inodeGroup sb ino + k + 1)).toNat
      = sb.inodesPerGroup.toNat * inodeGroup sb ino + k + 1 := by
    rw [BitVec.toNat_ofNat, Nat.mod_eq_of_lt]
    omega
  have hfirst : (1 : Word) ≤ BitVec.ofNat 32 (sb.inodesPerGroup.toNat * inodeGroup sb ino + k + 1)
    := by
    rw [BitVec.le_def, hword]
    exact Nat.le_add_left 1 _
  refine ⟨_, hfirst, ?_, ?_, ?_⟩
  · rw [BitVec.le_def, hword]
    omega
  · rw [inodeIndex, hword, Nat.add_sub_cancel, Nat.mul_add_mod, Nat.mod_eq_of_lt]
    exact Nat.lt_of_le_of_lt hk hlt
  · apply BitVec.eq_of_toNat_eq
    rw [BitVec.toNat_udiv, BitVec.toNat_udiv, toNat_sub_one hfirst, toNat_sub_one hino, hword,
      Nat.add_sub_cancel, Nat.mul_add_div hipg, Nat.div_eq_of_lt (Nat.lt_of_le_of_lt hk hlt)]
    rfl

end Table

/-! ### The inode -/

section Inode

variable {d : Device} {sb : Sblock} {inodeSize ino : Word}

theorem log2_le_of_groupDescriptor {group : Word} {desc : Word × Word}
    (h : groupDescriptor sb group = .ok desc) :
  log2Ext2BlockSize sb ≤ 22
  := by
  obtain ⟨blksz, hsize, h⟩ := ok_of_bind h
  obtain ⟨block, _, h⟩ := ok_of_bind h
  obtain ⟨i, _, h⟩ := ok_of_bind h
  obtain ⟨sector, hsector, _⟩ := ok_of_bind h
  exact log2_le_of_ok hsize hsector

/-- An inode in its place is read without a division by zero. -/
theorem Located.read (h : Located d sb inodeSize ino) :
  ∃ node, ext2fsReadInode d sb inodeSize ino = .ok node
  := by
  obtain ⟨group, desc, hdiv, hdesc, -, htable⟩ := h
  rw [ext2fsReadInode, hdiv]
  change ∃ node, (groupDescriptor sb group >>= fun desc => _) = _
  rw [hdesc]
  dsimp only [bind, Except.bind]
  cases htab : inodeTableId d desc with
  | none => exact ⟨none, rfl⟩
  | some table =>
    obtain ⟨pos, hread, _⟩ := htable table htab
    dsimp only
    rw [hread]
    exact ⟨_, rfl⟩

theorem inodeGroup_eq (hino : 1 ≤ ino) :
  ((ino - 1) / sb.inodesPerGroup).toNat = inodeGroup sb ino
  := by
  rw [BitVec.toNat_udiv, toNat_sub_one hino]
  rfl

/-- In the condition all places are right. -/
theorem located_of_geometryFine (hino : 1 ≤ ino) (h : GeometryFine d sb inodeSize ino) :
  Located d sb inodeSize ino
  := by
  obtain ⟨desc, hdesc, hplace⟩ :=
    groupDescriptor_spec h.log2BlockSize ((ino - 1) / sb.inodesPerGroup)
  rw [inodeGroup_eq hino] at hplace
  refine ⟨_, desc, udiv_of_ne h.inodesPerGroup, hdesc, hplace.mpr h.fits, ?_⟩
  intro table htable
  exact inPlace_of_tableFine hino h.log2BlockSize h.inodesPerGroup (h.table desc hdesc table htable)

/-- If blocks are not full, the first inode of the second block is in a wrong place. -/
theorem dvd_of_located {total : Word}
    (hall : ∀ ino : Word, 1 ≤ ino → ino ≤ total → Located d sb inodeSize ino)
    (hino : 1 ≤ ino) (hle : ino ≤ total) {desc : Word × Word}
    (hdesc : groupDescriptor sb ((ino - 1) / sb.inodesPerGroup) = .ok desc) {table : Word}
    (htable : table ∈ inodeTableId d desc)
    (hk : inodesPerBlock sb inodeSize ≤ inodeIndex sb ino) :
  inodeSize.toNat ∣ blockBytes sb
  := by
  obtain ⟨_, _, hdiv, _⟩ := hall ino hino hle
  obtain ⟨ino', hino', hle', hindex, hgroup⟩ := exists_inodeIndex hino (ne_of_udiv hdiv) hk
  obtain ⟨group', desc', hdiv', hdesc', -, htable'⟩ := hall ino' hino' (BitVec.le_trans hle' hle)
  rw [udiv_of_ne (ne_of_udiv hdiv), hgroup] at hdiv'
  obtain rfl := Except.ok.inj hdiv'
  obtain rfl := Except.ok.inj (hdesc.symm.trans hdesc')
  exact dvd_of_inPlace hino' (log2_le_of_groupDescriptor hdesc) (ne_of_udiv hdiv) hindex
    (htable' table htable)

/-- **The inodes of a file system** are read from their places, without a division by zero, if and
only if its geometry is fine. -/
theorem locates_iff_geometryFine (d : Device) (sb : Sblock) (inodeSize total : Word) :
  (∀ ino : Word, 1 ≤ ino → ino ≤ total → Located d sb inodeSize ino)
    ↔ ∀ ino : Word, 1 ≤ ino → ino ≤ total → GeometryFine d sb inodeSize ino
  := by
  constructor
  · intro hall ino hino hle
    obtain ⟨group, desc, hdiv, hdesc, hplace, htable⟩ := hall ino hino hle
    have hgroup := ne_of_udiv hdiv
    have hlog := log2_le_of_groupDescriptor hdesc
    rw [udiv_of_ne hgroup] at hdiv
    obtain rfl := Except.ok.inj hdiv
    obtain ⟨desc', hdesc', hfits⟩ := groupDescriptor_spec hlog ((ino - 1) / sb.inodesPerGroup)
    obtain rfl := Except.ok.inj (hdesc.symm.trans hdesc')
    rw [inodeGroup_eq hino] at hfits
    refine ⟨hlog, hgroup, hfits.mp hplace, ?_⟩
    intro desc' hdesc' table hmem
    obtain rfl := Except.ok.inj (hdesc.symm.trans hdesc')
    apply tableFine_of_inPlace hino hlog hgroup _ (htable table hmem)
    exact dvd_of_located hall hino hle hdesc hmem
  · exact fun h ino hino hle => located_of_geometryFine hino (h ino hino hle)

/-- With at most `2 ^ 31` inodes, the remainders are the same if and only if there is one group, or
the groups fill their blocks. -/
theorem sameRest_forall {total : Word} (htotal : total.toNat ≤ 2 ^ 31)
    (hgroup : sb.inodesPerGroup ≠ 0) (k : ℕ) :
  (∀ ino : Word, 1 ≤ ino → ino ≤ total → SameRest sb k ino)
    ↔ total.toNat ≤ sb.inodesPerGroup.toNat ∨ k ∣ sb.inodesPerGroup.toNat
  := by
  have hipg : 0 < sb.inodesPerGroup.toNat := by
    apply Nat.pos_of_ne_zero
    exact fun hzero => hgroup (BitVec.eq_of_toNat_eq hzero)
  constructor
  · intro h
    rw [or_iff_not_imp_left, Nat.not_le]
    intro hlt
    have hword : (sb.inodesPerGroup + 1).toNat = sb.inodesPerGroup.toNat + 1 := by
      rw [BitVec.toNat_add, Nat.mod_eq_of_lt]
      · rfl
      · exact Nat.lt_of_le_of_lt hlt total.isLt
    have hsame := h (sb.inodesPerGroup + 1)
      (by rw [BitVec.le_def, hword]; exact Nat.le_add_left 1 _) (by rwa [BitVec.le_def, hword])
    rw [SameRest, hword, Nat.add_sub_cancel, if_pos (hlt.trans_le htotal), inodeGroup, hword,
      Nat.add_sub_cancel, Nat.div_self hipg, Nat.one_mul] at hsame
    exact hsame
  · intro h ino hino hle
    have hone : 1 ≤ ino.toNat := hino
    have hcount : ino.toNat ≤ total.toNat := hle
    rw [SameRest, if_pos (by omega)]
    obtain hfew | hdvd := h
    · rw [inodeGroup, Nat.div_eq_of_lt (by omega), Nat.zero_mul]
      exact Nat.dvd_zero k
    · exact Nat.dvd_mul_left_of_dvd hdvd _

end Inode

/-! ### Groups of four inodes -/

/-- The superblock of eight inodes, four of them in a group. -/
def smallSector : List Byte :=
  [8] ++ List.replicate 19 0 ++ [1] ++ List.replicate 19 0 ++ [4] ++ List.replicate 15 0
    ++ [0x53, 0xEF] ++ List.replicate 454 0

/-- A file system whose tables are at block 0. -/
def smallDevice : Device where
  start := 0
  size := 64
  blockRead a n := (List.range n).flatMap fun i =>
    if a + BitVec.ofNat 32 i = 2 then smallSector else List.replicate sectorSize 0

/-- The first inode of the second group is read from the place of the fifth one of the table. -/
theorem not_locates_smallDevice :
  ¬ ∀ (d : Device) (bytes : List Byte), ext2fsMount d = .ok (some bytes) →
    ∀ ino : Word, 1 ≤ ino → ino ≤ totalInodes bytes →
      Located d (Sblock.parse bytes) (mountInodeSize (Sblock.parse bytes)) ino
  := by
  intro h
  have hmount : ext2fsMount smallDevice = .ok (some (smallSector.take sizeofSblock)) := by
    decide +kernel
  obtain ⟨group, desc, hgroup, hdesc, -, htable⟩ := h _ _ hmount 5 (by decide) (by decide +kernel)
  have hone : udiv (5 - 1) (Sblock.parse (smallSector.take sizeofSblock)).inodesPerGroup
      = .ok 1 := by
    decide +kernel
  obtain rfl := Except.ok.inj (hone.symm.trans hgroup)
  have hblock : groupDescriptor (Sblock.parse (smallSector.take sizeofSblock)) 1 = .ok (4, 32) := by
    decide +kernel
  obtain rfl := Except.ok.inj (hblock.symm.trans hdesc)
  obtain ⟨pos, hpos, hplace⟩ := htable 0 (by decide +kernel)
  have hoffset : inodeInTable (Sblock.parse (smallSector.take sizeofSblock))
      (mountInodeSize (Sblock.parse (smallSector.take sizeofSblock))) 0 (5 - 1) = .ok (0, 512) := by
    decide +kernel
  obtain rfl := Except.ok.inj (hoffset.symm.trans hpos)
  revert hplace
  decide +kernel

end Ext2
