import UBoot.Lib.AddressSpace

/-!
# Booting from a hard disk

`board/ACube/common/cmd_boota.c`: the second level bootloader is a chain of blocks on the disk.
The chain is walked twice, first for the length of the bootloader, and then to copy it.
-/

namespace Boota

/-- `MAX_BLOCKSIZE`, the size of the block buffer. -/
def maxBlocksize : ℕ := 32768

/-- `HEADER_INFO_SIZE`. -/
def headerInfoSize : ℕ := 20

/-- `LOAD_OK`. -/
def loadOk : Word := 0

/-- `READ_ERROR`. -/
def readError : Word := 1 <<< 16

/-- `READ_SYNTAX_ERR`. -/
def readSyntaxErr : Word := 2 <<< 16

/-- `UNUSED_BLOCK_ADDRESS`. -/
def unusedBlockAddress : Word := 0xffffffff

/-- `SBL_HIGHEST`. -/
def sblHighest : ℕ := 256

/-- `IDNAME_BOOTSTRAPCODE`. -/
def idnameBootstrapcode : Word := 0x424f4f54

/-- A disk: a block is read as a whole, or the read fails. -/
structure Disk where
  blksz : ℕ
  read : Word → Option (List Byte)
  length_read : ∀ n block, read n = some block → block.length = blksz

/-- `loadsector` for one sector. -/
def loadsector (disk : Disk) (sectn : Word) (sectSize : ℕ) : Option (List Byte) :=
  if sectSize ≠ 0 ∧ disk.blksz ≠ sectSize then none else disk.read sectn

/-! ### Blocks -/

/-- A long word of the block buffer. -/
def long (blockbuffer : ℕ → Byte) (i : ℕ) : Word := bytesWord (Memory.read blockbuffer (4 * i) 4)

/-- The long words of a buffer that begins with given words. -/
theorem long_store_words (m : ℕ → Byte) (words : List Word) (rest : List Byte) {i : ℕ}
    (h : i < words.length) :
  long (Memory.store m 0 (words.flatMap wordBytes ++ rest)) i = words.getD i 0
  := by
  have hword : words.getD i 0 = words[i] := by
    rw [List.getD_eq_getElem?_getD, List.getElem?_eq_getElem h, Option.getD_some]
  have hlength : ((words.take i).flatMap wordBytes).length = 4 * i := by
    simp [wordBytes, List.length_flatMap, Nat.min_eq_left h.le, Nat.mul_comm]
  have hsplit : words.flatMap wordBytes ++ rest = (words.take i).flatMap wordBytes
      ++ (wordBytes words[i] ++ ((words.drop (i + 1)).flatMap wordBytes ++ rest)) := by
    conv_lhs => rw [← List.take_append_drop i words, List.drop_eq_getElem_cons h]
    rw [List.flatMap_append, List.flatMap_cons, List.append_assoc, List.append_assoc]
  have hholds := Memory.holds_store m 0 (words.flatMap wordBytes ++ rest)
  conv at hholds => rw [hsplit]
  rw [Memory.holds_append, Memory.holds_append, hlength, Nat.zero_add, ← hsplit] at hholds
  have hread := hholds.2.1.read_eq
  rw [hword, long]
  change bytesWord (Memory.read _ _ (wordBytes words[i]).length) = _
  rw [hread, bytesWord_wordBytes]

/-- `bcb_ID`. -/
def bcbID (blockbuffer : ℕ → Byte) : Word := long blockbuffer 0

/-- `bcb_SummedLongs`. -/
def bcbSummedLongs (blockbuffer : ℕ → Byte) : Word := long blockbuffer 1

/-- `bcb_Next`. -/
def bcbNext (blockbuffer : ℕ → Byte) : Word := long blockbuffer 4

/-- `good_checksum`; the length is of type `UWORD`. -/
def goodChecksum (blockbuffer : ℕ → Byte) (len : Word) : Bool :=
  (List.range (len.toNat % 2 ^ 16)).foldl (fun sum i => sum + long blockbuffer i) 0 = 0

/-- `is_good_bootsector`. -/
def isGoodBootsector (blockbuffer : ℕ → Byte) (blocksize : ℕ) : Bool :=
  bcbID blockbuffer = idnameBootstrapcode
    ∧ (bcbSummedLongs blockbuffer).toNat ≤ blocksize / 4
    ∧ goodChecksum blockbuffer (bcbSummedLongs blockbuffer)

/-! ### The chain -/

/-- The loop of `find_secondary_bootloader_start_HD`. -/
def findStartLoop (disk : Disk) (blocksize : ℕ) (blockbuffer : ℕ → Byte) (currsec : ℕ) :
    ℕ → Option (Word × (ℕ → Byte))
  | 0 => none
  | fuel + 1 =>
    match loadsector disk (BitVec.ofNat 32 currsec) blocksize with
    | none => none
    | some block =>
      let blockbuffer := Memory.store blockbuffer 0 block
      if isGoodBootsector blockbuffer blocksize then some (BitVec.ofNat 32 currsec, blockbuffer)
      else findStartLoop disk blocksize blockbuffer (currsec + 1) fuel

/-- `find_secondary_bootloader_start_HD`. -/
def findSecondaryBootloaderStartHD (disk : Disk) (blocksize : ℕ) (blockbuffer : ℕ → Byte) :
    Option (Word × (ℕ → Byte)) :=
  if blocksize = 0 then none
  else findStartLoop disk blocksize blockbuffer 0 (sblHighest + 1)

/-- What `secondary_bootloader_length` returns, what it assigns to `*dest_len`, and what is in
the block buffer then. -/
structure Length where
  status : Word
  destLen : Option Word
  blockbuffer : ℕ → Byte

/-- The length for a chain whose last block is in the buffer, when `res` blocks are before it. -/
def totalLength (blocksize : BitVec 16) (res : Word) (blockbuffer : ℕ → Byte) : Word :=
  res * BitVec.ofInt 32 ((blocksize.toNat : ℤ) - headerInfoSize)
    + (bcbSummedLongs blockbuffer <<< 2 - BitVec.ofNat 32 headerInfoSize)

/-- `secondary_bootloader_length`, where `fuel` bounds the number of blocks. -/
def secondaryBootloaderLength (disk : Disk) (blocksize : BitVec 16) :
    ℕ → (ℕ → Byte) → Word → Word → Option Length
  | 0, _, _, _ => none
  | fuel + 1, blockbuffer, next, res =>
    match loadsector disk next blocksize.toNat with
    | none => some ⟨readError ||| (next &&& 0xffff), some res, blockbuffer⟩
    | some block =>
      let blockbuffer := Memory.store blockbuffer 0 block
      if ¬ isGoodBootsector blockbuffer blocksize.toNat then
        some ⟨readSyntaxErr ||| next, none, blockbuffer⟩
      else if bcbNext blockbuffer ≠ unusedBlockAddress then
        secondaryBootloaderLength disk blocksize fuel blockbuffer (bcbNext blockbuffer) (res + 1)
      else some ⟨loadOk, some (totalLength blocksize res blockbuffer), blockbuffer⟩

/-- `load_secondary_bootloader`: what is written to the buffer for the bootloader, and where. -/
def loadSecondaryBootloader (disk : Disk) (blocksize : BitVec 16) :
    ℕ → (ℕ → Byte) → Word → Word → Option (List (Word × List Byte))
  | 0, _, _, _ => none
  | fuel + 1, blockbuffer, nextsec, current =>
    -- nobody looks at whether the read failed
    let blockbuffer := Memory.store blockbuffer 0
      ((loadsector disk nextsec blocksize.toNat).getD [])
    let chunklen := bcbSummedLongs blockbuffer - BitVec.ofNat 32 (headerInfoSize / 4)
    let write := (current, Memory.read blockbuffer headerInfoSize (chunklen <<< 2).toNat)
    if bcbNext blockbuffer ≠ unusedBlockAddress then
      (loadSecondaryBootloader disk blocksize fuel blockbuffer (bcbNext blockbuffer)
        (current + chunklen <<< 2)).map (write :: ·)
    else some [write]

/-- The case of a hard disk in `do_boota`: the size of the buffer that is allocated, and what is
written to it. -/
def doBootaHarddisk (disk : Disk) (sectorSize fuel : ℕ) (blockbuffer : ℕ → Byte) :
    Option (Word × List (Word × List Byte)) := do
  let (pLoc, blockbuffer) ← findSecondaryBootloaderStartHD disk sectorSize blockbuffer
  let r ← secondaryBootloaderLength disk (BitVec.ofNat 16 sectorSize) fuel blockbuffer pLoc 0
  let len ← r.destLen
  if r.status = loadOk then
    let writes ← loadSecondaryBootloader disk (BitVec.ofNat 16 sectorSize) fuel r.blockbuffer pLoc 0
    return (len, writes)
  else none

/-! ### What the chain is -/

/-- The block buffer after each block of the chain from a sector on was read. -/
inductive Chain (disk : Disk) (blocksize : BitVec 16) :
    (ℕ → Byte) → Word → List (ℕ → Byte) → Prop where
  | last {blockbuffer : ℕ → Byte} {n : Word} {block : List Byte}
      (hread : loadsector disk n blocksize.toNat = some block)
      (hnext : bcbNext (Memory.store blockbuffer 0 block) = unusedBlockAddress) :
      Chain disk blocksize blockbuffer n [Memory.store blockbuffer 0 block]
  | next {blockbuffer : ℕ → Byte} {n : Word} {block : List Byte} {images : List (ℕ → Byte)}
      (hread : loadsector disk n blocksize.toNat = some block)
      (hnext : bcbNext (Memory.store blockbuffer 0 block) ≠ unusedBlockAddress)
      (hchain : Chain disk blocksize (Memory.store blockbuffer 0 block)
        (bcbNext (Memory.store blockbuffer 0 block)) images) :
      Chain disk blocksize blockbuffer n (Memory.store blockbuffer 0 block :: images)

/-- The payload of a block: what is behind its header. -/
def payload (image : ℕ → Byte) : List Byte :=
  Memory.read image headerInfoSize ((bcbSummedLongs image).toNat * 4 - headerInfoSize)

/-- The length of a chain when all blocks but the last one are full. -/
def fullLength (blocksize : BitVec 16) (images : List (ℕ → Byte)) : ℕ :=
  (images.length - 1) * (blocksize.toNat - headerInfoSize)
    + ((images.getLast?.map fun image => (bcbSummedLongs image).toNat).getD 0 * 4 - headerInfoSize)

/-- The number of bytes behind the headers, by what the headers say. -/
def summedLength (images : List (ℕ → Byte)) : ℕ :=
  (images.map fun image => (bcbSummedLongs image).toNat * 4 - headerInfoSize).sum

/-- The condition: there is a header in every block, the blocks are not longer than the buffer,
and the full length of the chain is below 4 GB, or what is left of it modulo 4 GB is not less than
what the headers say. -/
def Meets (blocksize : BitVec 16) (images : List (ℕ → Byte)) : Prop :=
  (∀ image ∈ images, 5 ≤ (bcbSummedLongs image).toNat
      ∧ (bcbSummedLongs image).toNat * 4 ≤ maxBlocksize)
    ∧ (fullLength blocksize images < 2 ^ 32
      ∨ summedLength images ≤ fullLength blocksize images % 2 ^ 32)

/-! ### The first walk -/

variable {disk : Disk} {blocksize : BitVec 16} {blockbuffer : ℕ → Byte} {images : List (ℕ → Byte)}

theorem readError_or_ne (n : Word) :
  readError ||| n ≠ loadOk
  := by
  intro h
  have hbit := congrArg (fun w : Word => w.getLsbD 16) h
  simp [readError, loadOk] at hbit

theorem readSyntaxErr_or_ne (n : Word) :
  readSyntaxErr ||| n ≠ loadOk
  := by
  intro h
  have hbit := congrArg (fun w : Word => w.getLsbD 17) h
  simp [readSyntaxErr, loadOk] at hbit

/-- A good block is not longer than the block size. -/
theorem summedLongs_le_of_good {image : ℕ → Byte} {n : ℕ} (h : isGoodBootsector image n) :
  (bcbSummedLongs image).toNat ≤ n / 4
  := (of_decide_eq_true h).2.1

/-- What was in the buffer before does not matter where a block was read to. -/
theorem read_store_congr (m m' : ℕ → Byte) {block : List Byte} {p n : ℕ}
    (h : p + n ≤ block.length) :
  Memory.read (Memory.store m 0 block) p n = Memory.read (Memory.store m' 0 block) p n
  := by
  apply Memory.read_congr
  intro q _ hq
  have hlt : q < block.length := by omega
  rw [Memory.store_zero_of_lt m hlt, Memory.store_zero_of_lt m' hlt]

theorem length_payload (image : ℕ → Byte) :
  (payload image).length = (bcbSummedLongs image).toNat * 4 - headerInfoSize
  := Memory.length_read _ _ _

/-- A disk on which every block is the same. -/
def sameBlock (block : List Byte) : Disk where
  blksz := block.length
  read _ := some block
  length_read := by
    rintro n _ ⟨⟩
    rfl

end Boota
