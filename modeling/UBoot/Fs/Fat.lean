import UBoot.Lib.Memory
import UBoot.Lib.Walk

/-!
# The FAT file system

`fs/fat/fat.c`: a volume has a table with an entry for each cluster, which says which cluster
follows it.  `get_fatent` keeps some sectors of the table, `get_cluster` reads the sectors of
clusters, and `get_contents` reads a file; clusters that follow one another on the disk are read
with one call.
-/

namespace Fat

/-- `SECTOR_SIZE` and `FS_BLOCK_SIZE`. -/
def sectorSize : ℕ := 512

/-- `FATBUFBLOCKS`. -/
def fatbufblocks : ℕ := 6

/-- `FATBUFSIZE`. -/
def fatbufsize : ℕ := sectorSize * fatbufblocks

/-- `FAT12BUFSIZE`, `FAT16BUFSIZE` and `FAT32BUFSIZE`, by the size of the entries. -/
def entriesPerBuf : ℕ → Option ℕ
  | 32 => some (fatbufsize / 4)
  | 16 => some (fatbufsize / 2)
  | 12 => some (fatbufsize * 2 / 3)
  | _ => none

/-! ### The disk -/

/-- What a read does: the bytes that it puts into the buffer, and what it returns. -/
structure ReadResult where
  data : List Byte
  ret : ℤ

/-- `cur_dev` and `part_offset`; `stack` is what the sector buffer on the stack contains. -/
structure Disk where
  blockRead : Option (Word → ℕ → ReadResult)
  partOffset : Word
  stack : ℕ → Byte

/-- `disk_read`. -/
def diskRead (d : Disk) (startblock : Word) (getsize : ℕ) : ReadResult :=
  match d.blockRead with
  | none => ⟨[], -1⟩
  | some blockRead => blockRead (startblock + d.partOffset) getsize

/-- `fsdata`. -/
structure Fsdata where
  fatbuf : ℕ → Byte
  fatsize : ℕ
  fatlength : BitVec 16
  fatSect : BitVec 16
  rootdirSect : BitVec 16
  clustSize : BitVec 16
  dataBegin : BitVec 16
  fatbufnum : Word

/-! ### The table -/

/-- The number at index `i` of a buffer of numbers with 16 bits, after `FAT2CPU16`. -/
def le16 (buf : ℕ → Byte) (i : ℕ) : ℕ := (buf (2 * i)).toNat + 256 * (buf (2 * i + 1)).toNat

/-- The number at index `i` of a buffer of numbers with 32 bits, after `FAT2CPU32`. -/
def le32 (buf : ℕ → Byte) (i : ℕ) : ℕ := le16 buf (2 * i) + 65536 * le16 buf (2 * i + 1)

/-- An entry with 12 bits. -/
def entry12 (buf : ℕ → Byte) (offset : ℕ) : ℕ :=
  let off16 := offset * 3 / 4
  match offset % 4 with
  | 0 => le16 buf off16 &&& 0xfff
  | 1 => (le16 buf (off16 + 1) &&& 0x00ff) <<< 4 ||| (le16 buf off16 &&& 0xf000) >>> 12
  | 2 => (le16 buf (off16 + 1) &&& 0x000f) <<< 8 ||| (le16 buf off16 &&& 0xff00) >>> 8
  | _ => (le16 buf off16 &&& 0xfff0) >>> 4

/-- An entry of the part of the table in a buffer. -/
def entryAt (fatsize : ℕ) (buf : ℕ → Byte) (offset : ℕ) : Word :=
  match fatsize with
  | 32 => BitVec.ofNat 32 (le32 buf offset)
  | 16 => BitVec.ofNat 32 (le16 buf offset)
  | 12 => BitVec.ofNat 32 (entry12 buf offset)
  | _ => 0

/-- `getsize`: the length of the table is taken in bytes. -/
def Fsdata.getsize (fs : Fsdata) : ℕ :=
  min (fatbufsize / sectorSize) (fs.fatlength.toNat * sectorSize)

/-- `startblock`, for a part of the table. -/
def Fsdata.startblock (fs : Fsdata) (bufnum : Word) : Word :=
  bufnum * BitVec.ofNat 32 fatbufblocks + fs.fatSect.setWidth 32

/-- `get_fatent`: what it leaves, and the entry. -/
def getFatent (d : Disk) (fs : Fsdata) (entry : Word) : Fsdata × Word :=
  match entriesPerBuf fs.fatsize with
  | none => (fs, 0)
  | some n =>
    let bufnum := BitVec.ofNat 32 (entry.toNat / n)
    let offset := entry.toNat - entry.toNat / n * n
    if bufnum ≠ fs.fatbufnum then
      let r := diskRead d (fs.startblock bufnum) fs.getsize
      let fatbuf := Memory.store fs.fatbuf 0 r.data
      if r.ret < 0 then ({ fs with fatbuf := fatbuf }, 0)
      else ({ fs with fatbuf := fatbuf, fatbufnum := bufnum }, entryAt fs.fatsize fatbuf offset)
    else (fs, entryAt fs.fatsize fs.fatbuf offset)

/-- `CHECK_CLUST`. -/
def checkClust (x : Word) (fatsize : ℕ) : Prop :=
  x ≤ 1 ∨ (if fatsize ≠ 32 then 0xfff0 else 0xffffff0) ≤ x

instance (x : Word) (fatsize : ℕ) : Decidable (checkClust x fatsize) :=
  inferInstanceAs (Decidable (_ ∨ _))

/-! ### Clusters -/

/-- The first sector of a cluster, or of the root directory. -/
def Fsdata.startsect (fs : Fsdata) (clustnum : Word) : Word :=
  if 0 < clustnum then fs.dataBegin.signExtend 32 + clustnum * fs.clustSize.setWidth 32
  else fs.rootdirSect.setWidth 32

/-- `get_cluster`, for a buffer in the memory: what it leaves there, and if it succeeds. -/
def getCluster (d : Disk) (fs : Fsdata) (clustnum : Word) (mem : ℕ → Byte) (buffer size : ℕ) :
    (ℕ → Byte) × Bool :=
  let startsect := fs.startsect clustnum
  let idx := size / sectorSize
  let r := diskRead d startsect idx
  let mem := Memory.store mem buffer r.data
  if r.ret < 0 then (mem, false)
  else if size % sectorSize ≠ 0 then
    let t := diskRead d (startsect + BitVec.ofNat 32 idx) 1
    if t.ret < 0 then (mem, false)
    else
      let tmpbuf := Memory.store d.stack 0 t.data
      (Memory.store mem (buffer + idx * sectorSize) (Memory.read tmpbuf 0 (size % sectorSize)),
        true)
  else (mem, true)

/-! ### Files -/

/-- `bytesperclust`. -/
def Fsdata.bytesperclust (fs : Fsdata) : Word :=
  fs.clustSize.setWidth 32 * BitVec.ofNat 32 sectorSize

/-- The variables of `get_contents`, whose `buffer` has moved by `gotsize`. -/
structure Reading where
  fs : Fsdata
  mem : ℕ → Byte
  curclust : Word
  endclust : Word
  actsize : Word
  filesize : Word
  gotsize : Word

/-- What `get_contents` leaves and returns. -/
structure Contents where
  fs : Fsdata
  mem : ℕ → Byte
  ret : Word

/-- The label `getit`. -/
def getit (d : Disk) (r : Reading) : Reading ⊕ Contents :=
  let c := getCluster d r.fs r.curclust r.mem r.gotsize.toNat r.actsize.toNat
  if c.2 = false then .inr ⟨r.fs, c.1, -1⟩
  else
    let gotsize := r.gotsize + r.actsize
    let g := getFatent d r.fs r.endclust
    if checkClust g.2 g.1.fatsize then .inr ⟨g.1, c.1, gotsize⟩
    else .inl ⟨g.1, c.1, g.2, g.2, g.1.bytesperclust, r.filesize - r.actsize, gotsize⟩

/-- The end of `get_contents`: what is left goes up to the last cluster and into it. -/
def finish (d : Disk) (r : Reading) : Contents :=
  let actsize := r.actsize - r.fs.bytesperclust
  let c := getCluster d r.fs r.curclust r.mem r.gotsize.toNat actsize.toNat
  if c.2 = false then ⟨r.fs, c.1, -1⟩
  else
    let gotsize := r.gotsize + actsize
    let rest := r.filesize - actsize
    let e := getCluster d r.fs r.endclust c.1 gotsize.toNat rest.toNat
    if e.2 = false then ⟨r.fs, e.1, -1⟩
    else ⟨r.fs, e.1, gotsize + rest⟩

/-- A round of the inner loop of `get_contents` and what comes after it, up to the next round. -/
def round (d : Disk) (r : Reading) : Reading ⊕ Contents :=
  if r.actsize < r.filesize then
    let g := getFatent d r.fs r.endclust
    let r := { r with fs := g.1 }
    if g.2 - 1 ≠ r.endclust then getit d r
    else if checkClust g.2 g.1.fatsize then .inr ⟨g.1, r.mem, r.gotsize⟩
    else .inl { r with endclust := g.2, actsize := r.actsize + r.fs.bytesperclust }
  else .inr (finish d r)

/-- The loops go on until there is a result. -/
def next (d : Disk) : Reading ⊕ Contents → Option (Reading ⊕ Contents)
  | .inl r => some (round d r)
  | .inr _ => none

/-- `filesize`: the whole file, or at most `maxsize` if that is not 0. -/
def limit (size maxsize : Word) : Word := if 0 < maxsize ∧ maxsize < size then maxsize else size

/-- `get_contents`, for the first cluster and the size of a directory entry, as far as the loops
come in `fuel` rounds. -/
def getContents (d : Disk) (fs : Fsdata) (mem : ℕ → Byte) (start size maxsize : Word)
    (fuel : ℕ) : Option Contents :=
  (Walk.run (next d) fuel
    (.inl ⟨fs, mem, start, start, fs.bytesperclust, limit size maxsize, 0⟩)).bind Sum.getRight?

end Fat
