import UBoot.Lib.Run
import UBoot.Fs.Ext2

/-!
# Where the blocks of a file are

The blocks of a file can be found without any cache, by a walk from the inode.  The theorem says
that `ext2fs_read_block` finds the same blocks in every run, as long as the device is changed only
when nothing is cached, and as long as the walk meets no pointer that is zero: the code takes such
a pointer for one to the first block of the device.
-/

namespace Ext2

/-! ### The walk -/

/-- A pointer in a block of pointers; there is nothing but holes behind a pointer that is zero. -/
def pointer (d : Device) (sb : Sblock) (blkno : Word) (i : ℕ) : Option Word :=
  if blkno = 0 then some 0
  else
    let r := devread d (sb.sector blkno) 0 sb.blockSize
    if r.2 then some (le32 r.1 (4 * i)) else none

/-- The number of pointers in a block. -/
def Sblock.perBlock (sb : Sblock) : ℕ := sb.blockSize / 4

/-- The blocks before this one are direct or indirect. -/
def Sblock.limit₁ (sb : Sblock) : ℕ := indirectBlocks + sb.perBlock

/-- The blocks before this one are at most doubly indirect. -/
def Sblock.limit₂ (sb : Sblock) : ℕ := sb.limit₁ + sb.perBlock * sb.perBlock

/-- The block of pointers to a block that is doubly indirect. -/
def middle (d : Device) (node : Node) (fileblock : ℕ) : Option Word :=
  pointer d node.sblock node.inode.doubleIndirBlock
    ((fileblock - node.sblock.limit₁) / node.sblock.perBlock)

/-- A block of a file, when the device can be read. -/
def walk (d : Device) (node : Node) (fileblock : ℕ) : Option Word :=
  if fileblock < indirectBlocks then some (node.inode.dirBlocks fileblock)
  else if fileblock < node.sblock.limit₁ then
    pointer d node.sblock node.inode.indirBlock (fileblock - indirectBlocks)
  else if fileblock < node.sblock.limit₂ then
    (middle d node fileblock).bind fun blkno =>
      pointer d node.sblock blkno ((fileblock - node.sblock.limit₁) % node.sblock.perBlock)
  else some (-1)

/-! ### Runs -/

/-- What happens to the file system. -/
inductive Event where
  | setBlkDev (d : Device)
  | mount
  | close
  | readBlock (node : Node) (fileblock : ℕ) (malloc₁ malloc₂ : Option (ℕ → Byte))

/-- One event. -/
def step (s : State) : Event → Option State
  | .setBlkDev d => some (setBlkDev s d)
  | .mount => some (mount s)
  | .close => some (close s)
  | .readBlock node fileblock malloc₁ malloc₂ =>
    some (readBlock s node fileblock malloc₁ malloc₂).1

/-- The state before anything is mounted. -/
def init (d : Device) : State := ⟨d, none, 0, Cache.freed, Cache.freed⟩

/-- Every read of the device succeeds. -/
def Device.Reads (d : Device) : Prop := ∀ a n, (d.blockRead a n).length = sectorSize * n

/-- The reads of a device that is used from now on succeed. -/
def Reads (_ : State) : Event → Prop
  | .setBlkDev d => d.Reads
  | _ => True

/-- The condition: a device is used only when nothing is cached, and for a block that is not direct
the limits are of type `int`, there is memory for a cache, and the walk meets no pointer that is
zero, nor one back to the block that it is in. -/
def Meets (s : State) : Event → Prop
  | .setBlkDev d => d = s.dev ∨ s.indir1.block = none
  | .readBlock node fileblock malloc₁ malloc₂ =>
    (indirectBlocks ≤ fileblock → node.sblock.log2BlockSize ≤ 20 ∧ malloc₁.isSome)
      ∧ (indirectBlocks ≤ fileblock → fileblock < node.sblock.limit₁ → node.inode.indirBlock ≠ 0)
      ∧ (node.sblock.limit₁ ≤ fileblock → node.sblock.log2BlockSize ≤ 7)
      ∧ (node.sblock.limit₁ ≤ fileblock → fileblock < node.sblock.limit₂ →
        malloc₂.isSome ∧ node.inode.doubleIndirBlock ≠ 0
          ∧ ∀ blkno ∈ middle s.dev node fileblock, blkno ≠ 0
            ∧ node.sblock.sector blkno ≠ node.sblock.sector node.inode.doubleIndirBlock)
  | _ => True

/-- A block that is asked for is the one that the walk finds. -/
def Sound (s : State) (e : Event) : Prop :=
  ∀ node fileblock malloc₁ malloc₂, e = .readBlock node fileblock malloc₁ malloc₂ →
    ∀ blkno ∈ walk s.dev node fileblock,
      (readBlock s node fileblock malloc₁ malloc₂).2 = blkno

/-! ### The device -/

variable {d : Device} {sb : Sblock} {c : Cache} {s : State}

theorem blockSize_eq (sb : Sblock) :
  sb.blockSize = 2 ^ (sb.log2BlockSize.toNat + 1) * sectorSize
  := by
  rw [Sblock.blockSize, sectorSize, show 512 = 2 ^ 9 from rfl, ← Nat.pow_add]

theorem blockSize_pos (sb : Sblock) :
  0 < sb.blockSize
  := Nat.two_pow_pos _

/-- A block is read as a whole, or the buffer stays as it is. -/
theorem devread_block (hd : d.Reads) (sb : Sblock) (sector : Word) :
  (∃ bytes, devread d sector 0 sb.blockSize = (bytes, true) ∧ bytes.length = sb.blockSize)
    ∨ devread d sector 0 sb.blockSize = ([], false)
  := by
  unfold devread
  simp only [Nat.zero_mod, ↓reduceIte]
  split_ifs with hbounds
  · right
    rfl
  · left
    have hmul : sb.blockSize / sectorSize * sectorSize = sb.blockSize := by
      rw [blockSize_eq, Nat.mul_div_cancel _ (by decide)]
    have hpos := blockSize_pos sb
    unfold devreadAligned
    simp only
    rw [hmul, if_neg (by omega), if_neg (by omega), if_neg, if_pos (Nat.sub_self _)]
    · refine ⟨_, rfl, ?_⟩
      rw [hd, Nat.mul_comm, hmul]
    · rw [not_not, hd, Nat.mul_comm, hmul]

/-- A sector of a block is even, so no tag of a cache that is empty. -/
theorem sector_ne (sb : Sblock) (blkno : Word) :
  sb.sector blkno ≠ -1
  := by
  intro h
  have hbit := congrArg (fun w : Word => w.getLsbD 0) h
  simp [Sblock.sector, Sblock.log2Blksz] at hbit

/-! ### The caches -/

/-- The block has its size. -/
def Cache.Sized (c : Cache) : Prop := ∀ block ∈ c.block, block.length = c.size

/-- What is cached is on the device. -/
def Cache.Valid (d : Device) (c : Cache) : Prop :=
  ∀ block ∈ c.block, c.blkno ≠ -1 → devread d c.blkno 0 c.size = (block, true)

theorem sized_freed :
  Cache.freed.Sized
  := nofun

theorem valid_freed (d : Device) :
  Cache.freed.Valid d
  := nofun

/-- Memory for a block. -/
theorem sized_fresh (heap : ℕ → Byte) (blksz : ℕ) :
  Cache.Sized ⟨some (Memory.read heap 0 blksz), blksz, -1⟩
  := by
  intro block hblock
  obtain rfl := Option.some.inj hblock
  apply Memory.length_read

theorem valid_fresh (d : Device) (heap : ℕ → Byte) (blksz : ℕ) :
  Cache.Valid d ⟨some (Memory.read heap 0 blksz), blksz, -1⟩
  := by
  intro block _ hne
  apply absurd rfl hne

/-- What `malloc` does to a cache. -/
theorem allocate_cases (c : Cache) (blksz : ℕ) (malloc : Option (ℕ → Byte)) :
  ((c.allocate blksz malloc).2 = false ∧ malloc = none
      ∧ ((c.allocate blksz malloc).1 = c ∨ (c.allocate blksz malloc).1 = Cache.freed))
    ∨ ((∃ heap, c.allocate blksz malloc = (⟨some (Memory.read heap 0 blksz), blksz, -1⟩, true))
    ∨ (c.allocate blksz malloc = (c, true) ∧ c.size = blksz ∧ c.block.isSome))
  := by
  unfold Cache.allocate
  split_ifs with hnone hsize
  · cases malloc with
    | none => exact .inl ⟨rfl, rfl, .inl rfl⟩
    | some heap => exact .inr (.inl ⟨heap, rfl⟩)
  · cases malloc with
    | none => exact .inl ⟨rfl, rfl, .inr rfl⟩
    | some heap => exact .inr (.inl ⟨heap, rfl⟩)
  · rw [Option.isNone_iff_eq_none, ← ne_eq, ← Option.isSome_iff_ne_none] at hnone
    exact .inr (.inr ⟨rfl, (not_not.mp hsize).symm, hnone⟩)

theorem Cache.Sized.allocate (h : c.Sized) (blksz : ℕ) (malloc : Option (ℕ → Byte)) :
  (c.allocate blksz malloc).1.Sized
  := by
  rcases allocate_cases c blksz malloc with ⟨-, -, hsame | hfreed⟩ | ⟨heap, hheap⟩ | ⟨hsame, -⟩
  · rwa [hsame]
  · rw [hfreed]
    apply sized_freed
  · rw [hheap]
    apply sized_fresh
  · rwa [hsame]

theorem Cache.Valid.allocate (h : c.Valid d) (blksz : ℕ) (malloc : Option (ℕ → Byte)) :
  (c.allocate blksz malloc).1.Valid d
  := by
  rcases allocate_cases c blksz malloc with ⟨-, -, hsame | hfreed⟩ | ⟨heap, hheap⟩ | ⟨hsame, -⟩
  · rwa [hsame]
  · rw [hfreed]
    apply valid_freed
  · rw [hheap]
    apply valid_fresh
  · rwa [hsame]

/-- A cache that is used has a block of the right size. -/
theorem size_allocate {blksz : ℕ} {malloc : Option (ℕ → Byte)}
    (h : (c.allocate blksz malloc).2 = true) :
  (c.allocate blksz malloc).1.size = blksz ∧ (c.allocate blksz malloc).1.block.isSome
  := by
  rcases allocate_cases c blksz malloc with ⟨hfalse, -⟩ | ⟨heap, hheap⟩ | ⟨hsame, hsize, hsome⟩
  · rw [h] at hfalse
    cases hfalse
  · rw [hheap]
    exact ⟨rfl, rfl⟩
  · rw [hsame]
    exact ⟨hsize, hsome⟩

theorem allocate_of_isSome (c : Cache) (blksz : ℕ) {malloc : Option (ℕ → Byte)}
    (h : malloc.isSome) :
  (c.allocate blksz malloc).2 = true
  := by
  rcases allocate_cases c blksz malloc with ⟨-, rfl, -⟩ | ⟨heap, hheap⟩ | ⟨hsame, -⟩
  · cases h
  · rw [hheap]
  · rw [hsame]

theorem overwrite_of_length_eq {buf bytes : List Byte} (h : buf.length = bytes.length) :
  overwrite buf bytes = bytes
  := by
  rw [overwrite, ← h, List.drop_length, List.append_nil]

/-- What is loaded: the block of the device, or nothing. -/
theorem load_cases (hd : d.Reads) (h : c.Sized) (hsize : c.size = sb.blockSize)
    (hsome : c.block.isSome) (sector tag : Word) :
  (∃ bytes, devread d sector 0 sb.blockSize = (bytes, true) ∧ bytes.length = sb.blockSize
      ∧ sector ≠ tag
      ∧ c.load d sector tag sb.blockSize = (⟨some bytes, sb.blockSize, sector⟩, true))
    ∨ (devread d sector 0 sb.blockSize = ([], false) ∧ sector ≠ tag
      ∧ c.load d sector tag sb.blockSize = (c, false))
    ∨ (sector = tag ∧ c.load d sector tag sb.blockSize = (c, true))
  := by
  obtain ⟨buf, hbuf⟩ := Option.isSome_iff_exists.mp hsome
  unfold Cache.load
  split_ifs with hne
  · rcases devread_block hd sb sector with ⟨bytes, hread, hlength⟩ | hread
    · left
      refine ⟨bytes, hread, hlength, hne, ?_⟩
      rw [hread]
      simp only [↓reduceIte]
      rw [hbuf, Option.map_some, hsize,
        overwrite_of_length_eq ((h buf hbuf).trans (hsize.trans hlength.symm))]
    · right
      left
      refine ⟨hread, hne, ?_⟩
      rw [hread]
      simp only [Bool.false_eq_true, ↓reduceIte, Prod.mk.injEq, and_true]
      rw [hbuf, Option.map_some]
      cases c
      cases hbuf
      rfl
  · exact .inr (.inr ⟨not_not.mp hne, rfl⟩)

theorem Cache.Sized.load (hd : d.Reads) (h : c.Sized) (hsize : c.size = sb.blockSize)
    (hsome : c.block.isSome) (sector tag : Word) :
  (c.load d sector tag sb.blockSize).1.Sized
  := by
  rcases load_cases hd h hsize hsome sector tag with ⟨bytes, -, hlength, -, hload⟩ | ⟨-, -, hload⟩
      | ⟨-, hload⟩
  · rw [hload]
    intro block hblock
    obtain rfl := Option.some.inj hblock
    apply hlength
  · rwa [hload]
  · rwa [hload]

theorem Cache.Valid.load (hd : d.Reads) (hvalid : c.Valid d) (h : c.Sized)
    (hsize : c.size = sb.blockSize) (hsome : c.block.isSome) (sector tag : Word) :
  (c.load d sector tag sb.blockSize).1.Valid d
  := by
  rcases load_cases hd h hsize hsome sector tag with ⟨bytes, hread, -, -, hload⟩ | ⟨-, -, hload⟩
      | ⟨-, hload⟩
  · rw [hload]
    intro block hblock _
    obtain rfl := Option.some.inj hblock
    apply hread
  · rwa [hload]
  · rwa [hload]

/-- A block of the device that is loaded under its own tag is in the cache. -/
theorem Cache.Valid.load_eq (hd : d.Reads) (hvalid : c.Valid d) (h : c.Sized)
    (hsize : c.size = sb.blockSize) (hsome : c.block.isSome) {sector : Word} {bytes : List Byte}
    (hsector : sector ≠ -1) (hread : devread d sector 0 sb.blockSize = (bytes, true)) :
  c.load d sector c.blkno sb.blockSize = (⟨some bytes, sb.blockSize, sector⟩, true)
  := by
  rcases load_cases hd h hsize hsome sector c.blkno with ⟨bytes', hread', -, -, hload⟩
      | ⟨hread', -⟩ | ⟨htag, hload⟩
  · obtain rfl : bytes' = bytes := congrArg Prod.fst (hread'.symm.trans hread)
    apply hload
  · cases hread'.symm.trans hread
  · obtain ⟨buf, hbuf⟩ := Option.isSome_iff_exists.mp hsome
    have hbytes := hvalid buf hbuf (htag ▸ hsector)
    rw [← htag, hsize, hread] at hbytes
    obtain rfl : bytes = buf := congrArg Prod.fst hbytes
    rw [hload, ← hbuf, ← hsize, htag]

/-- A block that is loaded under another tag is read. -/
theorem Cache.Sized.load_of_ne (hd : d.Reads) (h : c.Sized) (hsize : c.size = sb.blockSize)
    (hsome : c.block.isSome) {sector tag : Word} {bytes : List Byte} (hne : sector ≠ tag)
    (hread : devread d sector 0 sb.blockSize = (bytes, true)) :
  c.load d sector tag sb.blockSize = (⟨some bytes, sb.blockSize, sector⟩, true)
  := by
  rcases load_cases hd h hsize hsome sector tag with ⟨bytes', hread', -, -, hload⟩ | ⟨hread', -⟩
      | ⟨hsame, -⟩
  · obtain rfl : bytes' = bytes := congrArg Prod.fst (hread'.symm.trans hread)
    apply hload
  · cases hread'.symm.trans hread
  · apply absurd hsame hne

/-! ### One event -/

/-- What is known between two events. -/
structure Inv (s : State) : Prop where
  reads : s.dev.Reads
  sized₁ : s.indir1.Sized
  valid₁ : s.indir1.Valid s.dev
  sized₂ : s.indir2.Sized

theorem inv_init (hd : d.Reads) :
  Inv (init d)
  := ⟨hd, sized_freed, valid_freed d, sized_freed⟩

theorem inv_setBlkDev (h : Inv s) (hd : d.Reads) (hmeets : d = s.dev ∨ s.indir1.block = none) :
  Inv (setBlkDev s d)
  := by
  refine ⟨hd, h.sized₁, ?_, h.sized₂⟩
  rcases hmeets with rfl | hnone
  · apply h.valid₁
  · intro block hblock
    cases hnone.symm.trans hblock

theorem inv_mount (h : Inv s) :
  Inv (mount s)
  := by
  unfold mount
  simp only
  split
  · exact ⟨h.reads, h.sized₁, h.valid₁, h.sized₂⟩
  · split
    · exact ⟨h.reads, h.sized₁, h.valid₁, h.sized₂⟩
    · exact ⟨h.reads, h.sized₁, h.valid₁, h.sized₂⟩

theorem inv_close (h : Inv s) :
  Inv (close s)
  := by
  unfold close
  constructor
  case reads => apply h.reads
  case sized₁ =>
    simp only
    split_ifs
    · apply sized_freed
    · apply h.sized₁
  case valid₁ =>
    simp only
    split_ifs
    · apply valid_freed
    · apply h.valid₁
  case sized₂ =>
    simp only
    split_ifs
    · apply sized_freed
    · apply h.sized₂

/-- The first level of pointers. -/
theorem inv_level₁ (h : Inv s) (sector tag : Word) {malloc : Option (ℕ → Byte)}
    (ha : (s.indir1.allocate sb.blockSize malloc).2 = true) :
  Inv { s with
    indir1 := ((s.indir1.allocate sb.blockSize malloc).1.load s.dev sector tag sb.blockSize).1 }
  := by
  have hsized := h.sized₁.allocate sb.blockSize malloc
  have hvalid := h.valid₁.allocate sb.blockSize malloc
  obtain ⟨hsize, hsome⟩ := size_allocate ha
  refine ⟨h.reads, ?_, ?_, h.sized₂⟩
  · apply hsized.load h.reads hsize hsome
  · apply hvalid.load h.reads hsized hsize hsome

theorem inv_readIndirect (h : Inv s) (node : Node) (fileblock : ℕ)
    (malloc : Option (ℕ → Byte)) :
  Inv (readIndirect s node fileblock malloc).1
  := by
  unfold readIndirect
  simp only
  split_ifs with ha
  · exact ⟨h.reads, h.sized₁.allocate _ _, h.valid₁.allocate _ _, h.sized₂⟩
  · apply inv_level₁ h
    rwa [Bool.not_eq_false] at ha
  · apply inv_level₁ h
    rwa [Bool.not_eq_false] at ha

theorem inv_readDoubleIndirect (h : Inv s) (node : Node) (fileblock : ℕ)
    (malloc₁ malloc₂ : Option (ℕ → Byte)) :
  Inv (readDoubleIndirect s node fileblock malloc₁ malloc₂).1
  := by
  unfold readDoubleIndirect
  simp only
  by_cases ha : (s.indir1.allocate node.sblock.blockSize malloc₁).2 = false
  · rw [if_pos ha]
    exact ⟨h.reads, h.sized₁.allocate _ _, h.valid₁.allocate _ _, h.sized₂⟩
  rw [if_neg ha]
  rw [Bool.not_eq_false] at ha
  have hlevel := inv_level₁ h (node.sblock.sector node.inode.doubleIndirBlock)
    (s.indir1.allocate node.sblock.blockSize malloc₁).1.blkno ha
  have hsized := h.sized₂.allocate node.sblock.blockSize malloc₂
  split_ifs with hr hb ht
  · apply hlevel
  · exact ⟨h.reads, hlevel.sized₁, hlevel.valid₁, hsized⟩
  · rw [Bool.not_eq_false] at hb
    obtain ⟨hsize, hsome⟩ := size_allocate hb
    exact ⟨h.reads, hlevel.sized₁, hlevel.valid₁, hsized.load h.reads hsize hsome _ _⟩
  · rw [Bool.not_eq_false] at hb
    obtain ⟨hsize, hsome⟩ := size_allocate hb
    exact ⟨h.reads, hlevel.sized₁, hlevel.valid₁, hsized.load h.reads hsize hsome _ _⟩

/-- One event. -/
theorem inv_step {e : Event} (h : Inv s) (hmeets : Reads s e ∧ Meets s e) :
  ∃ s', step s e = some s' ∧ Inv s'
  := by
  cases e with
  | setBlkDev d => exact ⟨_, rfl, inv_setBlkDev h hmeets.1 hmeets.2⟩
  | mount => exact ⟨_, rfl, inv_mount h⟩
  | close => exact ⟨_, rfl, inv_close h⟩
  | readBlock node fileblock malloc₁ malloc₂ =>
    refine ⟨_, rfl, ?_⟩
    unfold readBlock
    simp only
    split_ifs
    · apply h
    · apply inv_readIndirect h
    · apply inv_readDoubleIndirect h
    · apply h

/-! ### Blocks -/

/-- What is read from a pointer that is not zero. -/
theorem pointer_eq_some {blkno w : Word} {i : ℕ} (hne : blkno ≠ 0)
    (h : pointer d sb blkno i = some w) :
  ∃ bytes, devread d (sb.sector blkno) 0 sb.blockSize = (bytes, true) ∧ w = le32 bytes (4 * i)
  := by
  unfold pointer at h
  rw [if_neg hne] at h
  simp only at h
  split_ifs at h with hr
  refine ⟨_, ?_, (Option.some.inj h).symm⟩
  rw [← hr]

/-- What the first level of pointers has. -/
theorem load_level₁ (h : Inv s) {blkno : Word} {malloc : Option (ℕ → Byte)} {bytes : List Byte}
    (hmalloc : malloc.isSome)
    (hread : devread s.dev (sb.sector blkno) 0 sb.blockSize = (bytes, true)) :
  (s.indir1.allocate sb.blockSize malloc).1.load s.dev (sb.sector blkno)
      (s.indir1.allocate sb.blockSize malloc).1.blkno sb.blockSize
    = (⟨some bytes, sb.blockSize, sb.sector blkno⟩, true)
  := by
  obtain ⟨hsize, hsome⟩ := size_allocate (allocate_of_isSome s.indir1 sb.blockSize hmalloc)
  have hvalid := h.valid₁.allocate sb.blockSize malloc
  apply hvalid.load_eq h.reads (h.sized₁.allocate _ _) hsize hsome (sector_ne sb blkno) hread

theorem readIndirect_eq (h : Inv s) {node : Node} {fileblock : ℕ} {malloc : Option (ℕ → Byte)}
    {w : Word} (hmalloc : malloc.isSome) (hne : node.inode.indirBlock ≠ 0)
    (hw : pointer s.dev node.sblock node.inode.indirBlock (fileblock - indirectBlocks) = some w) :
  (readIndirect s node fileblock malloc).2 = w
  := by
  obtain ⟨bytes, hread, rfl⟩ := pointer_eq_some hne hw
  have hload := load_level₁ h hmalloc hread
  unfold readIndirect
  simp only
  rw [allocate_of_isSome _ _ hmalloc, hload]
  rfl

theorem readDoubleIndirect_eq (h : Inv s) {node : Node} {fileblock : ℕ}
    {malloc₁ malloc₂ : Option (ℕ → Byte)} {blkno w : Word}
    (hmalloc₁ : malloc₁.isSome) (hmalloc₂ : malloc₂.isSome)
    (hne : node.inode.doubleIndirBlock ≠ 0) (hne' : blkno ≠ 0)
    (htag : node.sblock.sector blkno ≠ node.sblock.sector node.inode.doubleIndirBlock)
    (hblkno : middle s.dev node fileblock = some blkno)
    (hw : pointer s.dev node.sblock blkno
      ((fileblock - node.sblock.limit₁) % node.sblock.perBlock) = some w) :
  (readDoubleIndirect s node fileblock malloc₁ malloc₂).2 = w
  := by
  obtain ⟨bytes, hread, hget⟩ := pointer_eq_some hne hblkno
  obtain ⟨bytes', hread', rfl⟩ := pointer_eq_some hne' hw
  have hload := load_level₁ h hmalloc₁ hread
  obtain ⟨hsize, hsome⟩ := size_allocate
    (allocate_of_isSome s.indir2 node.sblock.blockSize hmalloc₂)
  have hsized := h.sized₂.allocate node.sblock.blockSize malloc₂
  have hload' := hsized.load_of_ne h.reads hsize hsome htag hread'
  have hblkno' : Cache.get
      ⟨some bytes, node.sblock.blockSize, node.sblock.sector node.inode.doubleIndirBlock⟩
      ((fileblock - (indirectBlocks + node.sblock.blockSize / 4)) / (node.sblock.blockSize / 4))
      = blkno := hget.symm
  unfold readDoubleIndirect
  simp only
  rw [allocate_of_isSome _ _ hmalloc₁, hload, allocate_of_isSome _ _ hmalloc₂]
  simp only [Bool.true_eq_false, ↓reduceIte]
  rw [hblkno', hload']
  rfl

theorem intLimit_eq {n : ℕ} (h : n < 2 ^ 31) :
  intLimit n = n
  := by
  rw [intLimit, BitVec.toInt_eq_toNat_of_lt, BitVec.toNat_ofNat, Nat.mod_eq_of_lt (by omega)]
  rw [BitVec.toNat_ofNat, Nat.mod_eq_of_lt (by omega)]
  omega

/-- The number of pointers in a block that is not too large. -/
theorem perBlock_le {k : ℕ} (h : sb.log2BlockSize.toNat ≤ k) :
  sb.perBlock ≤ 2 ^ (k + 8)
  := by
  have hpow : 2 ^ (sb.log2BlockSize.toNat + 10) ≤ 2 ^ (k + 8) * 4 := by
    rw [show 2 ^ (k + 8) * 4 = 2 ^ (k + 10) by rw [Nat.pow_add 2 k 8, Nat.pow_add 2 k 10]; omega]
    apply Nat.pow_le_pow_right (by decide)
    omega
  unfold Sblock.perBlock Sblock.blockSize
  omega

/-- The first limit is the one of the walk. -/
theorem lt_limit₁_iff (h : sb.log2BlockSize ≤ 20) (fileblock : ℕ) :
  (fileblock : ℤ) < intLimit (indirectBlocks + sb.blockSize / 4) ↔ fileblock < sb.limit₁
  := by
  have hle : sb.perBlock ≤ 2 ^ 28 := perBlock_le h
  change _ < intLimit (indirectBlocks + sb.perBlock) ↔ _
  rw [Sblock.limit₁, indirectBlocks, intLimit_eq (by omega)]
  omega

/-- So is the second one. -/
theorem lt_limit₂_iff (h : sb.log2BlockSize ≤ 7) (fileblock : ℕ) :
  (fileblock : ℤ) < intLimit (indirectBlocks + sb.blockSize / 4 * (sb.blockSize / 4 + 1))
    ↔ fileblock < sb.limit₂
  := by
  have hle : sb.perBlock ≤ 2 ^ 15 := perBlock_le h
  have hsquare : sb.perBlock * sb.perBlock ≤ 2 ^ 15 * 2 ^ 15 := Nat.mul_le_mul hle hle
  change _ < intLimit (indirectBlocks + sb.perBlock * (sb.perBlock + 1)) ↔ _
  rw [Sblock.limit₂, Sblock.limit₁, indirectBlocks, Nat.mul_add, Nat.mul_one,
    intLimit_eq (by omega)]
  omega

/-- One call. -/
theorem sound_of_inv {e : Event} (h : Inv s) (hmeets : Meets s e) :
  Sound s e
  := by
  rintro node fileblock malloc₁ malloc₂ rfl w hw
  obtain ⟨hmalloc, hindirect, hlog, hdouble⟩ := hmeets
  rw [Option.mem_def] at hw
  unfold walk at hw
  unfold readBlock
  simp only at hw ⊢
  by_cases hdirect : fileblock < indirectBlocks
  · rw [if_pos hdirect] at hw ⊢
    apply Option.some.inj hw
  rw [if_neg hdirect] at hw ⊢
  obtain ⟨hsize, hmalloc₁⟩ := hmalloc (Nat.le_of_not_lt hdirect)
  have hlimit₁ := lt_limit₁_iff hsize fileblock
  by_cases hone : fileblock < node.sblock.limit₁
  · rw [if_pos hone] at hw
    rw [if_pos (hlimit₁.mpr hone)]
    apply readIndirect_eq h hmalloc₁ (hindirect (Nat.le_of_not_lt hdirect) hone) hw
  rw [if_neg hone] at hw
  rw [if_neg (hlimit₁.not.mpr hone)]
  have hlimit₂ := lt_limit₂_iff (hlog (Nat.le_of_not_lt hone)) fileblock
  by_cases htwo : fileblock < node.sblock.limit₂
  · rw [if_pos htwo] at hw
    rw [if_pos (hlimit₂.mpr htwo)]
    obtain ⟨blkno, hblkno, hw⟩ := Option.bind_eq_some_iff.mp hw
    obtain ⟨hmalloc₂, hne, hpointers⟩ := hdouble (Nat.le_of_not_lt hone) htwo
    obtain ⟨hne', htag⟩ := hpointers blkno hblkno
    apply readDoubleIndirect_eq h hmalloc₁ hmalloc₂ hne hne' htag hblkno hw
  · rw [if_neg htwo] at hw
    rw [if_neg (hlimit₂.not.mpr htwo)]
    apply Option.some.inj hw

/-- **The block map.**  In every run in which the reads of the devices succeed and the condition is
met, the block that is found is the one that the walk finds. -/
theorem readBlock_sound (d : Device) (hd : d.Reads) (es : List Event) (e : Event)
    (hmeets : Run.Along step (fun s e => Reads s e ∧ Meets s e) (init d) (es ++ [e])) :
  ∃ s, Run.exec step (init d) es = some s ∧ Sound s e
  := by
  obtain ⟨s, hs, hinv⟩ := Run.exec_invariant (fun _ _ => inv_step) (inv_init hd) hmeets.of_append
  refine ⟨s, hs, ?_⟩
  apply sound_of_inv hinv (hmeets.last hs).2

/-! ### A file with a hole -/

/-- A device with the same byte everywhere. -/
def sameByte (b : Byte) : Device where
  start := 0
  size := 64
  blockRead _ n := List.replicate (sectorSize * n) b

theorem reads_sameByte (b : Byte) :
  (sameByte b).Reads
  := fun _ _ => List.length_replicate

/-- A file whose pointers are all the same. -/
def samePointers (p : Word) : Node where
  sblock := ⟨1, 0, 8, ext2Magic, 0, 128⟩
  inode := ⟨fun _ => p, p, p⟩

/-- The first block behind the direct ones. -/
theorem readBlock_sound_indirect :
  ∃ s, Run.exec step (init (sameByte 1)) [.mount, .close, .setBlkDev (sameByte 2)] = some s
    ∧ Sound s (.readBlock (samePointers 5) 12 (some fun _ => 0) (some fun _ => 0))
  := by
  apply readBlock_sound (sameByte 1) (reads_sameByte 1) [.mount, .close, .setBlkDev (sameByte 2)]
  refine ⟨⟨trivial, trivial⟩, ?_⟩
  rintro s ⟨⟩
  refine ⟨⟨trivial, trivial⟩, ?_⟩
  rintro s ⟨⟩
  refine ⟨⟨reads_sameByte 2, .inr ?_⟩, ?_⟩
  · decide +kernel
  rintro s ⟨⟩
  refine ⟨⟨trivial, ?_⟩, fun _ _ => trivial⟩
  refine ⟨fun _ => ⟨by decide, rfl⟩, fun _ _ => by decide, ?_, ?_⟩
  all_goals
    intro hle
    revert hle
    decide

/-- The block behind a pointer that is zero is taken from the first block of the device. -/
theorem readBlock_of_hole :
  ¬ ∀ (d : Device), d.Reads → ∀ (es : List Event) (e : Event),
    Run.Along step Reads (init d) (es ++ [e]) →
    ∃ s, Run.exec step (init d) es = some s ∧ Sound s e
  := by
  intro h
  obtain ⟨s, hs, hsound⟩ := h (sameByte 1) (reads_sameByte 1) []
    (.readBlock (samePointers 0) 12 (some fun _ => 0) (some fun _ => 0))
    ⟨trivial, fun _ _ => trivial⟩
  obtain rfl := Option.some.inj hs
  have hzero := hsound _ _ _ _ rfl 0 rfl
  revert hzero
  decide +kernel

end Ext2
