import UBoot.Fs.ReadFile

/-!
# Walking through a directory

`ext2fs_iterate_dir` reads the records of a directory one after the other.  The length of a record
says where the next one is, and it is not checked.  The record and its name are read to the stack,
where `ext2fs_read_file` writes more than it is asked for when the part ends in a hole.
-/

namespace Ext2

/-! ### Inodes and records -/

/-- `FILETYPE_UNKNOWN`, `FILETYPE_REG`, `FILETYPE_DIRECTORY` and `FILETYPE_SYMLINK`. -/
inductive FileType where
  | unknown
  | reg
  | directory
  | symlink
  deriving DecidableEq

/-- The type in a record. -/
def fileType (filetype : Byte) : FileType :=
  if filetype = 2 then .directory
  else if filetype = 7 then .symlink
  else if filetype = 1 then .reg
  else .unknown

/-- The type by `mode` of an inode. -/
def inodeType (inode : List Byte) : FileType :=
  let format := le16 inode 0 &&& 0o170000
  if format = 0o040000 then .directory
  else if format = 0o120000 then .symlink
  else if format = 0o100000 then .reg
  else .unknown

/-- `ext2fs_read_inode`, all bytes of the inode. -/
def readInodeBytes (d : Device) (sb : Sblock) (inodeSize : ℕ) (ino : Word) : Option (List Byte) :=
  let ino := ino - 1
  match blockgroup d sb (ino / sb.inodesPerGroup) with
  | none => none
  | some inodeTableId =>
    let inodesPerBlock := BitVec.ofNat 32 (sb.blockSize / inodeSize)
    let blkno := inodeTableId + ino % sb.inodesPerGroup / inodesPerBlock
    let blkoff := ino % inodesPerBlock * BitVec.ofNat 32 inodeSize
    let r := devread d (sb.sector blkno) blkoff.toNat sizeofInode
    if r.2 then some r.1 else none

theorem readInode_eq (d : Device) (sb : Sblock) (inodeSize : ℕ) (ino : Word) :
  readInode d sb inodeSize ino = (readInodeBytes d sb inodeSize ino).map Inode.parse
  := by
  rw [readInode, readInodeBytes]
  dsimp only
  cases blockgroup d sb ((ino - 1) / sb.inodesPerGroup) with
  | none => rfl
  | some inodeTableId =>
    dsimp only
    split <;> rfl

/-- The file of an inode. -/
def fileOf (sb : Sblock) (inode : List Byte) : File where
  sblock := sb
  inode := Inode.parse inode
  size := le32 inode 4

/-- The size of `struct ext2_dirent`. -/
def sizeofDirent : ℕ := 8

/-- `struct ext2_dirent`. -/
structure Dirent where
  inode : Word
  direntlen : ℕ
  namelen : ℕ
  filetype : Byte

/-- A record in memory. -/
def Dirent.parse (mem : ℕ → Byte) : Dirent where
  inode := le32 (Memory.read mem 0 4) 0
  direntlen := le16 (Memory.read mem 4 2) 0
  namelen := (mem 6).toNat
  filetype := mem 7

/-- `struct ext2fs_node` of an entry; without an inode, that was not read. -/
structure Entry where
  ino : Word
  type : FileType
  inode : Option (List Byte)

/-- A line of a listing. -/
structure Line where
  type : FileType
  size : Word
  filename : List Byte

/-- What is outside of a round: the memory for the caches in both reads, if there is memory for the
node, and what was in the buffer of the name. -/
structure RoundEnv where
  direntMallocs : Mallocs
  nameMallocs : Mallocs
  node : Bool
  garbage : ℕ → Byte

/-- The variables of the loop, and the lines that were printed. -/
structure Iter where
  s : State
  dirent : ℕ → Byte
  fpos : Word
  lines : List Line

/-- A file is read at a position that is no `int`, or more of a buffer is written than there is. -/
inductive Fault where
  | position
  | overrun
  deriving DecidableEq

/-- What a round comes to: the loop goes on, or the function returns. -/
inductive Round where
  | more (it : Iter)
  | stop (r : Except Fault (Option Entry))

/-- The characters up to a NUL. -/
def cstring (bytes : List Byte) : List Byte := bytes.takeWhile (· ≠ 0)

/-- `fpos += direntlen`. -/
def Iter.advance (it : Iter) : Iter :=
  { it with fpos := it.fpos + BitVec.ofNat 32 (Dirent.parse it.dirent).direntlen }

/-- The type of an entry, and its inode if that was read for the type. -/
def entryType (f : File) (it : Iter) : Option (FileType × Option (List Byte)) :=
  let dirent := Dirent.parse it.dirent
  if dirent.filetype ≠ 0 then some (fileType dirent.filetype, none)
  else (readInodeBytes it.s.dev f.sblock it.s.inodeSize dirent.inode).map fun inode =>
    (inodeType inode, some inode)

/-- An entry with a name: it is the one that is looked for, or it is printed. -/
def visitEntry (f : File) (name : Option (List Byte)) (it : Iter) (filename : List Byte) : Round :=
  let dirent := Dirent.parse it.dirent
  match entryType f it with
  | none => .stop (.ok none)
  | some (type, inode) =>
    match name with
    | some name =>
      if filename = name then .stop (.ok (some ⟨dirent.inode, type, inode⟩)) else .more it.advance
    | none =>
      match inode.or (readInodeBytes it.s.dev f.sblock it.s.inodeSize dirent.inode) with
      | none => .stop (.ok none)
      | some inode =>
        let line := Line.mk type (le32 inode 4) filename
        .more { it with lines := it.lines ++ [line] }.advance

/-- The record at the position is read: the variables, up to where `dirent` is written, and the
status. -/
def readDirent (f : File) (env : RoundEnv) (it : Iter) : Iter × ℕ × Word :=
  let r := readFile it.s f it.fpos.toNat sizeofDirent env.direntMallocs it.dirent
  ({ it with s := r.1, dirent := r.2.1.mem }, r.2.1.written, r.2.2)

/-- The name of the record is read to `filename[namelen + 1]`. -/
def readFilename (f : File) (env : RoundEnv) (it : Iter) : State × Buffer × Word :=
  readFile it.s f (it.fpos.toNat + sizeofDirent) (Dirent.parse it.dirent).namelen env.nameMallocs
    env.garbage

/-- A record with a name. -/
def readName (f : File) (name : Option (List Byte)) (env : RoundEnv) (it : Iter) : Round :=
  let namelen := (Dirent.parse it.dirent).namelen
  if 2 ^ 31 ≤ it.fpos.toNat + sizeofDirent then .stop (.error .position)
  else
    let r := readFilename f env it
    if namelen + 1 < r.2.1.written then .stop (.error .overrun)
    else if r.2.2.toInt < 1 ∨ ¬ env.node then .stop (.ok none)
    else visitEntry f name { it with s := r.1 } (cstring (Memory.read r.2.1.mem 0 namelen))

/-- A round of the loop of `ext2fs_iterate_dir`. -/
def iterateRound (f : File) (name : Option (List Byte)) (env : RoundEnv) (it : Iter) : Round :=
  if f.size ≤ it.fpos then .stop (.ok none)
  else if 2 ^ 31 ≤ it.fpos.toNat then .stop (.error .position)
  else
    let r := readDirent f env it
    if sizeofDirent < r.2.1 then .stop (.error .overrun)
    else if r.2.2.toInt < 1 then .stop (.ok none)
    else if (Dirent.parse r.1.dirent).namelen = 0 then .more r.1.advance
    else readName f name env r.1

/-- At most `fuel` rounds, the `k`-th one next. -/
def iterateLoop (f : File) (name : Option (List Byte)) (env : ℕ → RoundEnv) :
    ℕ → ℕ → Iter → Option (Except Fault (Option Entry))
  | 0, _, _ => none
  | fuel + 1, k, it =>
    match iterateRound f name (env k) it with
    | .more it => iterateLoop f name env fuel (k + 1) it
    | .stop r => some r

/-- `ext2fs_iterate_dir` for the inode `ino`, which may have been read before; without a `name` the
directory is listed.  `dirent` is what was on the stack. -/
def iterateDir (s : State) (sb : Sblock) (ino : Word) (inode : Option (List Byte))
    (name : Option (List Byte)) (dirent : ℕ → Byte) (env : ℕ → RoundEnv) (fuel : ℕ) :
    Option (Except Fault (Option Entry)) :=
  match inode.or (readInodeBytes s.dev sb s.inodeSize ino) with
  | none => some (.ok none)
  | some inode => iterateLoop (fileOf sb inode) name env fuel 0 ⟨s, dirent, 0, []⟩

/-! ### The condition -/

/-- The variables after a round, if the loop goes on. -/
def Round.next : Round → Option Iter
  | .more it => some it
  | .stop _ => none

/-- The variables after `k` rounds, if the loop has not ended. -/
def reached (f : File) (name : Option (List Byte)) (env : ℕ → RoundEnv) (it : Iter) :
    ℕ → Option Iter
  | 0 => some it
  | k + 1 => (reached f name env it k).bind fun it => (iterateRound f name (env k) it).next

/-- The record at a position, in memory. -/
def recordAt (f : File) (env : RoundEnv) (it : Iter) : Dirent :=
  Dirent.parse (readDirent f env it).1.dirent

/-- The record at a position is read, and has a name. -/
def Named (f : File) (env : RoundEnv) (it : Iter) : Prop :=
  1 ≤ (readDirent f env it).2.2.toInt ∧ (recordAt f env it).namelen ≠ 0

/-- The positions that are read at are of type `int`, and no more is written than the record, and
than its name and one byte. -/
structure Fits (f : File) (env : RoundEnv) (it : Iter) : Prop where
  fpos : it.fpos.toNat < 2 ^ 31
  dirent : (readDirent f env it).2.1 ≤ sizeofDirent
  namePos : Named f env it → it.fpos.toNat + sizeofDirent < 2 ^ 31
  filename : Named f env it →
    (readFilename f env (readDirent f env it).1).2.1.written ≤ (recordAt f env it).namelen + 1

/-- From some round on the loop finds nothing but records without a length. -/
def Stays (f : File) (name : Option (List Byte)) (env : ℕ → RoundEnv) (it : Iter) : Prop :=
  ∃ n, ∀ k ≥ n, ∃ it' ∈ reached f name env it k,
    it'.fpos < f.size ∧ (recordAt f (env k) it').direntlen = 0

/-- The condition: what is read fits, and the loop does not stay at a record without a length. -/
structure Orderly (f : File) (name : Option (List Byte)) (env : ℕ → RoundEnv) (it : Iter) :
    Prop where
  fits : ∀ k, ∀ it' ∈ reached f name env it k, it'.fpos < f.size → Fits f (env k) it'
  leaves : ¬ Stays f name env it

section Round

variable {f : File} {name : Option (List Byte)} {env : RoundEnv} {it it' : Iter}
  {filename : List Byte} {r : Except Fault (Option Entry)}

/-- All fits when no block of the directory is found to be a hole. -/
theorem fits_of_blocks (hlog : f.sblock.log2BlockSize ≤ 20) (hd : it.s.dev.Reads)
    (hpos : it.fpos.toNat + sizeofDirent < 2 ^ 31)
    (hblocks : ∀ t, t.dev = it.s.dev → ∀ i malloc₁ malloc₂,
      f.sblock.sector (readBlock t f.toNode i malloc₁ malloc₂).2 ≠ 0) :
  Fits f env it
  := by
  have hsize := (blockSize_le hlog).2
  have hdev : (readDirent f env it).1.s.dev = it.s.dev := dev_readFileLoop ..
  have hname : (recordAt f env it).namelen < 2 ^ 8 := UInt8.toNat_lt _
  constructor
  case fpos => omega
  case dirent =>
    apply (written_readFile_le hlog hd ?_ (fun t ht i _ => hblocks t ht i _ _) it.dirent).trans
    · apply Nat.min_le_left
    · omega
  case namePos => exact fun _ => hpos
  case filename =>
    intro _
    have hroom : it.fpos.toNat + sizeofDirent + min (recordAt f env it).namelen f.size.toNat
        + f.sblock.blockSize ≤ 2 ^ 32 := by omega
    apply (written_readFile_le hlog (hdev ▸ hd) hroom
      (fun t ht i _ => hblocks t (ht.trans hdev) i _ _) env.garbage).trans
    omega

end Round

/-! ### The loop -/

section Loop

variable {f : File} {name : Option (List Byte)} {env : ℕ → RoundEnv} {it it' : Iter} {k fuel : ℕ}

/-- The loop does not stay when every record that it goes on behind has a length. -/
theorem not_stays_of_advances
    (h : ∀ k, ∀ t ∈ reached f name env it k, ∀ u, iterateRound f name (env k) t = .more u →
      0 < (recordAt f (env k) t).direntlen) :
  ¬ Stays f name env it
  := by
  rintro ⟨n, hstays⟩
  obtain ⟨t, ht, -, hzero⟩ := hstays n le_rfl
  obtain ⟨u, hu, -⟩ := hstays (n + 1) (Nat.le_succ n)
  rw [Option.mem_def, reached, Option.mem_def.mp ht, Option.bind_some] at hu
  cases hround : iterateRound f name (env n) t with
  | more v =>
    have hpos := h n t ht v hround
    omega
  | stop r =>
    rw [hround] at hu
    cases hu

end Loop

/-- The function ends. -/
def Ends (s : State) (sb : Sblock) (ino : Word) (inode name : Option (List Byte))
    (dirent : ℕ → Byte) (env : ℕ → RoundEnv) : Prop :=
  ∃ fuel r, iterateDir s sb ino inode name dirent env fuel = some (.ok r)

end Ext2
