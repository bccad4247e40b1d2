import UBoot.Fs.BlockMap
import UBoot.Fs.Devread

/-!
# Reading a part of a file

`ext2fs_read_file` reads the blocks of a file one after the other, from the one with the position
on.  It writes the bytes from there on if no more than the rest of the file is asked for, and if
the part does not end in a hole: of a hole the zeros are written up to the end of the block.
-/

namespace Ext2

/-! ### The function -/

/-- A file: the node and the size in its inode. -/
structure File extends Node where
  size : Word

/-- What `malloc` gives for each block, when it is called once or twice. -/
abbrev Mallocs := ℕ → Option (ℕ → Byte) × Option (ℕ → Byte)

/-- The blocks of a file that are read, and where. -/
structure Part where
  pos : ℕ
  len : ℕ

/-- `len + pos`, of type `unsigned int`. -/
def Part.stop (p : Part) : ℕ := (p.len + p.pos) % 2 ^ 32

/-- `blockcnt`. -/
def Part.blockcnt (p : Part) (blocksize : ℕ) : ℕ :=
  (p.len + p.pos + blocksize - 1) % 2 ^ 32 / blocksize

/-- `skipfirst`. -/
def Part.skipfirst (p : Part) (blocksize i : ℕ) : ℕ :=
  if i = p.pos / blocksize then p.pos % blocksize else 0

/-- `blockend`, before `skipfirst` is subtracted. -/
def Part.blockstop (p : Part) (blocksize i : ℕ) : ℕ :=
  if i + 1 = p.blockcnt blocksize then
    if p.stop % blocksize = 0 then blocksize else p.stop % blocksize
  else blocksize

/-- `blockend`, of type `int`: it is negative when the part wraps to a position that is before its
first one, in the same block. -/
def Part.blockend (p : Part) (blocksize i : ℕ) : ℤ :=
  p.blockstop blocksize i - p.skipfirst blocksize i

/-- A buffer, and up to where it was written. -/
structure Buffer where
  mem : ℕ → Byte
  written : ℕ

/-- Some bytes are written. -/
def Buffer.store (b : Buffer) (p : ℕ) (bytes : List Byte) : Buffer where
  mem := Memory.store b.mem p bytes
  written := if bytes = [] then b.written else max b.written (p + bytes.length)

/-- The next `n` rounds of the loop of `ext2fs_read_file`, from the block `i` on; `buf` is where the
pointer to the buffer has moved to.  The result says if the loop comes to its end.  Of a negative
length nothing is taken to be read. -/
def readFileLoop (f : File) (p : Part) (malloc : Mallocs) :
    ℕ → ℕ → State → Buffer → ℕ → State × Buffer × Bool
  | 0, _, s, mem, _ => (s, mem, true)
  | n + 1, i, s, mem, buf =>
    let blocksize := f.sblock.blockSize
    let b := readBlock s f.toNode i (malloc i).1 (malloc i).2
    let skipfirst := p.skipfirst blocksize i
    if b.2.msb then (b.1, mem, false)
    else
      let blknr := f.sblock.sector b.2
      if blknr ≠ 0 then
        let r := devread b.1.dev blknr skipfirst (p.blockend blocksize i).toNat
        let mem := mem.store buf r.1
        if r.2 = false then (b.1, mem, false)
        else readFileLoop f p malloc n (i + 1) b.1 mem (buf + (blocksize - skipfirst))
      else
        let mem := mem.store buf (List.replicate (blocksize - skipfirst) 0)
        readFileLoop f p malloc n (i + 1) b.1 mem (buf + (blocksize - skipfirst))

/-- `ext2fs_read_file`: the memory from `buf` on, and what is returned. -/
def readFile (s : State) (f : File) (pos len : ℕ) (malloc : Mallocs) (mem : ℕ → Byte) :
    State × Buffer × Word :=
  let p : Part := ⟨pos, min len f.size.toNat⟩
  let first := pos / f.sblock.blockSize
  let r := readFileLoop f p malloc (p.blockcnt f.sblock.blockSize - first) first s ⟨mem, 0⟩ 0
  (r.1, r.2.1, if r.2.2 then BitVec.ofNat 32 p.len else -1)

/-! ### The bytes of a file -/

/-- The byte of a file at a position; a block that is nowhere has zeros. -/
def File.byte (d : Device) (content : ℕ → Byte) (f : File) (pos : ℕ) : Byte :=
  match walk d f.toNode (pos / f.sblock.blockSize) with
  | none => 0
  | some w =>
    if w = 0 then 0 else content (w.toNat * f.sblock.blockSize + pos % f.sblock.blockSize)

/-- How many of the bytes that are asked for there are. -/
def File.count (f : File) (pos len : ℕ) : ℕ := min len (f.size.toNat - pos)

/-- `ext2fs_read_file` writes the bytes from a position on, and returns their number. -/
def ReadsPart (s : State) (content : ℕ → Byte) (f : File) (pos len : ℕ) (malloc : Mallocs) :
    Prop :=
  ∀ mem,
    (readFile s f pos len malloc mem).2.1.mem
        = Memory.store mem 0 (Memory.read (f.byte s.dev content) pos (f.count pos len))
      ∧ (readFile s f pos len malloc mem).2.2 = BitVec.ofNat 32 (f.count pos len)

/-- A block can be found, and what a part of the file up to `stop` has of it is in the partition. -/
structure Readable (s : State) (f : File) (malloc : Mallocs) (stop i : ℕ) : Prop where
  meets : Meets s (.readBlock f.toNode i (malloc i).1 (malloc i).2)
  inside : ∃ w ∈ walk s.dev f.toNode i, w ≠ 0 →
    w.toNat * f.sblock.blockSize + min f.sblock.blockSize (stop - i * f.sblock.blockSize)
        ≤ s.dev.size.toNat * sectorSize
      ∧ w.toNat * f.sblock.blockSize < 2 ^ 31 * sectorSize

/-- The blocks with a part of a file are readable.  The size of a block is of type `int`. -/
structure Sane (s : State) (content : ℕ → Byte) (f : File) (pos n : ℕ) (malloc : Mallocs) :
    Prop where
  inv : Inv s
  serves : s.dev.Serves content
  log2BlockSize : f.sblock.log2BlockSize ≤ 20
  blocks : ∀ i, pos / f.sblock.blockSize ≤ i → i * f.sblock.blockSize < pos + n →
    Readable s f malloc (pos + n) i

/-- The block in which a part of a file ends is a hole, and goes on behind it. -/
def EndsInHole (s : State) (f : File) (stop : ℕ) : Prop :=
  stop % f.sblock.blockSize ≠ 0 ∧ walk s.dev f.toNode (stop / f.sblock.blockSize) = some 0

/-! ### One block -/

section Block

variable {s : State} {content : ℕ → Byte} {f : File} {malloc : Mallocs} {stop i : ℕ}

theorem blockSize_sectors (sb : Sblock) :
  sb.blockSize = 2 ^ sb.log2Blksz * sectorSize
  := blockSize_eq sb

/-- Blocks have between 1 KiB and 1 GiB. -/
theorem blockSize_le (hlog : f.sblock.log2BlockSize ≤ 20) :
  1024 ≤ f.sblock.blockSize ∧ f.sblock.blockSize ≤ 2 ^ 30
  := by
  have hle : f.sblock.log2BlockSize.toNat ≤ 20 := hlog
  constructor
  · exact Nat.pow_le_pow_right (n := 2) (by decide) (Nat.le_add_left 10 _)
  · apply Nat.pow_le_pow_right (by decide)
    omega

/-- The first sector of a block below 2 ^ 40. -/
theorem toNat_sector {sb : Sblock} {w : Word}
    (h : w.toNat * sb.blockSize < 2 ^ 31 * sectorSize) :
  (sb.sector w).toNat * sectorSize = w.toNat * sb.blockSize ∧ (sb.sector w).msb = false
  := by
  rw [blockSize_sectors, ← Nat.mul_assoc] at h ⊢
  have hlt := Nat.lt_of_mul_lt_mul_right h
  have hsector : (sb.sector w).toNat = w.toNat * 2 ^ sb.log2Blksz := by
    rw [Sblock.sector, BitVec.toNat_shiftLeft, Nat.shiftLeft_eq, Nat.mod_eq_of_lt (by omega)]
  constructor
  · rw [hsector]
  · rw [BitVec.msb_eq_false_iff_two_mul_lt, hsector]
    omega

/-- A hole is recognised. -/
theorem sector_zero (sb : Sblock) :
  sb.sector 0 = 0
  := by
  rw [Sblock.sector]
  exact BitVec.zero_shiftLeft _

/-- Another block is read after this one. -/
theorem inv_readBlock (h : Inv s) (node : Node) (i : ℕ) (malloc₁ malloc₂ : Option (ℕ → Byte)) :
  Inv (readBlock s node i malloc₁ malloc₂).1
  := by
  rw [readBlock]
  split_ifs
  · exact h
  · exact inv_readIndirect h node i malloc₁
  · exact inv_readDoubleIndirect h node i malloc₁ malloc₂
  · exact h

theorem dev_readBlock (s : State) (node : Node) (i : ℕ) (malloc₁ malloc₂ : Option (ℕ → Byte)) :
  (readBlock s node i malloc₁ malloc₂).1.dev = s.dev
  := by
  rw [readBlock]
  split_ifs
  · rfl
  · rw [readIndirect]
    dsimp only
    split_ifs
    all_goals rfl
  · rw [readDoubleIndirect]
    dsimp only
    split_ifs
    all_goals rfl
  · rfl

/-- What is readable in a state is so in every state with the same device. -/
theorem Readable.congr (h : Readable s f malloc stop i) {s' : State} (hdev : s'.dev = s.dev) :
  Readable s' f malloc stop i
  := by
  obtain ⟨hmeets, hinside⟩ := h
  constructor
  · rw [Meets] at hmeets ⊢
    rwa [hdev]
  · rwa [hdev]

/-- The bytes of a block. -/
theorem byte_eq {d : Device} {w : Word} {p : ℕ} (hw : walk d f.toNode i = some w)
    (hi : p / f.sblock.blockSize = i) :
  f.byte d content p
    = if w = 0 then 0 else content (w.toNat * f.sblock.blockSize + p % f.sblock.blockSize)
  := by rw [File.byte, hi, hw]

/-- A hole has zeros. -/
theorem read_hole {d : Device} {q n : ℕ} (hw : walk d f.toNode i = some 0)
    (hi : q / f.sblock.blockSize = i) (hn : q % f.sblock.blockSize + n ≤ f.sblock.blockSize) :
  Memory.read (f.byte d content) q n = List.replicate n 0
  := by
  apply List.ext_getElem
  · rw [Memory.length_read, List.length_replicate]
  · intro j hj _
    rw [Memory.length_read] at hj
    rw [Memory.getElem_read, List.getElem_replicate, byte_eq hw, if_pos rfl]
    rw [← hi]
    apply Nat.div_eq_of_lt_le
    · have := Nat.div_mul_le_self q f.sblock.blockSize
      omega
    · have := Nat.div_add_mod' q f.sblock.blockSize
      rw [Nat.succ_mul]
      omega

/-- A block that is not a hole has the bytes of the partition. -/
theorem read_block {d : Device} {w : Word} {q n : ℕ} (hw : walk d f.toNode i = some w)
    (hne : w ≠ 0) (hi : q / f.sblock.blockSize = i)
    (hn : q % f.sblock.blockSize + n ≤ f.sblock.blockSize) :
  Memory.read (f.byte d content) q n
    = Memory.read content (w.toNat * f.sblock.blockSize + q % f.sblock.blockSize) n
  := by
  have hsplit := Nat.div_add_mod' q f.sblock.blockSize
  apply List.ext_getElem
  · rw [Memory.length_read, Memory.length_read]
  · intro j hj _
    rw [Memory.length_read] at hj
    have hdiv : (q + j) / f.sblock.blockSize = i := by
      rw [← hi]
      apply Nat.div_eq_of_lt_le
      · omega
      · rw [Nat.succ_mul]
        omega
    have hmod : (q + j) % f.sblock.blockSize = q % f.sblock.blockSize + j := by
      have hsplit' := Nat.div_add_mod' (q + j) f.sblock.blockSize
      rw [hdiv, ← hi] at hsplit'
      omega
    rw [Memory.getElem_read, Memory.getElem_read, byte_eq hw hdiv, if_neg hne, hmod, Nat.add_assoc]

end Block

/-! ### The loop -/

section Loop

variable {s : State} {content : ℕ → Byte} {f : File} {malloc : Mallocs} {pos n : ℕ}

/-- Where the bytes end that are written. -/
def writtenEnd (s : State) (f : File) (stop : ℕ) [Decidable (EndsInHole s f stop)] : ℕ :=
  if EndsInHole s f stop then (stop / f.sblock.blockSize + 1) * f.sblock.blockSize else stop

instance (s : State) (f : File) (stop : ℕ) : Decidable (EndsInHole s f stop) :=
  inferInstanceAs (Decidable (_ ∧ _))

/-- The part that the loop is about, without wrapping. -/
structure Plain (f : File) (p : Part) (pos n : ℕ) : Prop where
  pos_eq : p.pos = pos
  len_eq : p.len = n
  room : pos + n + f.sblock.blockSize ≤ 2 ^ 32

theorem Plain.stop_eq {p : Part} (h : Plain f p pos n) (hlog : f.sblock.log2BlockSize ≤ 20) :
  p.stop = pos + n
  := by
  have hroom := h.room
  have hsize := blockSize_le hlog
  rw [Part.stop, h.pos_eq, h.len_eq, Nat.add_comm n, Nat.mod_eq_of_lt (by omega)]

theorem Plain.blockcnt_eq {p : Part} (h : Plain f p pos n) (hlog : f.sblock.log2BlockSize ≤ 20) :
  p.blockcnt f.sblock.blockSize = (pos + n + f.sblock.blockSize - 1) / f.sblock.blockSize
  := by
  have hroom := h.room
  have hsize := blockSize_le hlog
  rw [Part.blockcnt, h.pos_eq, h.len_eq, Nat.add_comm n, Nat.mod_eq_of_lt (by omega)]

/-- There is another block to read exactly if it starts before the end. -/
theorem Plain.lt_blockcnt {p : Part} (h : Plain f p pos n) (hlog : f.sblock.log2BlockSize ≤ 20)
    (i : ℕ) :
  i < p.blockcnt f.sblock.blockSize ↔ i * f.sblock.blockSize < pos + n
  := by
  have hsize := blockSize_le hlog
  rw [h.blockcnt_eq hlog, ← Nat.succ_le_iff, Nat.le_div_iff_mul_le (by omega), Nat.succ_mul]
  omega

/-- No byte of the part is left out. -/
theorem stop_le_writtenEnd (s : State) (f : File) (stop : ℕ) :
  stop ≤ writtenEnd s f stop
  := by
  rw [writtenEnd]
  split
  · apply Nat.le_of_lt
    rw [← Nat.div_lt_iff_lt_mul (blockSize_pos f.sblock)]
    apply Nat.lt_succ_self
  · rfl

/-- The rest of a block that is a hole is written. -/
theorem le_writtenEnd {stop i : ℕ} (hw : walk s.dev f.toNode i = some 0)
    (hlt : i * f.sblock.blockSize < stop) :
  (i + 1) * f.sblock.blockSize ≤ writtenEnd s f stop
  := by
  have hpos := blockSize_pos f.sblock
  have hle : i ≤ stop / f.sblock.blockSize := (Nat.le_div_iff_mul_le hpos).mpr hlt.le
  have hsplit := Nat.div_add_mod' stop f.sblock.blockSize
  rw [writtenEnd]
  split
  case isTrue => exact Nat.mul_le_mul_right _ (Nat.succ_le_succ hle)
  case isFalse hnot =>
    obtain hless | rfl := Nat.lt_or_eq_of_le hle
    · have hmul := Nat.mul_le_mul_right f.sblock.blockSize (Nat.succ_le_of_lt hless)
      rw [Nat.succ_eq_add_one] at hmul
      omega
    · have hmod : stop % f.sblock.blockSize = 0 := by
        by_contra hne
        exact hnot ⟨hne, hw⟩
      omega

/-- When the part does not end in a hole its end is where the bytes end that are written. -/
theorem writtenEnd_eq {stop i : ℕ} {w : Word} (hw : walk s.dev f.toNode i = some w) (hne : w ≠ 0)
    (hi : stop / f.sblock.blockSize = i) :
  writtenEnd s f stop = stop
  := by
  apply if_neg
  rintro ⟨_, hhole⟩
  rw [hi, hw] at hhole
  exact hne (Option.some.inj hhole)

/-- Of another block the bytes before the end are written. -/
theorem Plain.blockend_eq {p : Part} (h : Plain f p pos n) (hlog : f.sblock.log2BlockSize ≤ 20)
    {i q : ℕ} {w : Word} (hw : walk s.dev f.toNode i = some w) (hne : w ≠ 0)
    (hlt : i * f.sblock.blockSize < pos + n) (hi : q / f.sblock.blockSize = i)
    (hskip : p.skipfirst f.sblock.blockSize i = q % f.sblock.blockSize) :
  (p.blockend f.sblock.blockSize i).toNat
    = min (f.sblock.blockSize - q % f.sblock.blockSize) (writtenEnd s f (pos + n) - q)
  := by
  have hpos := blockSize_pos f.sblock
  have hcount := h.lt_blockcnt hlog i
  have hcount' := h.lt_blockcnt hlog (i + 1)
  have hle : i ≤ (pos + n) / f.sblock.blockSize := (Nat.le_div_iff_mul_le hpos).mpr hlt.le
  have hsplit := Nat.div_add_mod' (pos + n) f.sblock.blockSize
  have hmod := Nat.mod_lt (pos + n) hpos
  have hq := Nat.div_add_mod' q f.sblock.blockSize
  have hqmod := Nat.mod_lt q hpos
  rw [hi] at hq
  rw [Nat.succ_mul] at hcount'
  rw [Part.blockend, Int.toNat_sub, Part.blockstop, hskip, h.stop_eq hlog]
  obtain hless | heq := Nat.lt_or_eq_of_le hle
  · have hmul := Nat.mul_le_mul_right f.sblock.blockSize (Nat.succ_le_of_lt hless)
    rw [Nat.succ_eq_add_one, Nat.succ_mul] at hmul
    have hend := stop_le_writtenEnd s f (pos + n)
    rw [Nat.min_eq_left (by omega)]
    split
    case isTrue hlast =>
      rw [if_pos]
      have hmul' := Nat.mul_le_mul_right f.sblock.blockSize (Nat.succ_le_of_lt hless)
      omega
    case isFalse => rfl
  · have hend := writtenEnd_eq hw hne heq.symm
    rw [← heq] at hsplit
    have hlast : i + 1 = p.blockcnt f.sblock.blockSize := by
      apply Nat.le_antisymm (hcount.mpr hlt)
      rw [← Nat.not_lt, hcount']
      omega
    rw [hend, if_pos hlast, if_neg (by omega)]
    omega

/-- What is read of a block that is not a hole belongs to the part. -/
theorem min_writtenEnd_le {stop i q : ℕ} {w : Word} (hw : walk s.dev f.toNode i = some w)
    (hne : w ≠ 0) (hi : q / f.sblock.blockSize = i) (hq : q ≤ stop) :
  q % f.sblock.blockSize
      + min (f.sblock.blockSize - q % f.sblock.blockSize) (writtenEnd s f stop - q)
    ≤ min f.sblock.blockSize (stop - i * f.sblock.blockSize)
  := by
  have hpos := blockSize_pos f.sblock
  have hsplit := Nat.div_add_mod' q f.sblock.blockSize
  have hmod := Nat.mod_lt q hpos
  rw [hi] at hsplit
  by_cases hlast : stop < (i + 1) * f.sblock.blockSize
  · -- the part ends in the block
    rw [writtenEnd_eq hw hne (Nat.div_eq_of_lt_le (by omega) hlast)]
    omega
  · rw [Nat.succ_mul] at hlast
    omega

/-- The bytes of one block are written. -/
theorem readFileLoop_succ {p : Part} (hp : Plain f p pos n) (hsane : Sane s content f pos n malloc)
    (k buf : ℕ) {i q : ℕ} {t : State} (ht : Inv t) (hdev : t.dev = s.dev)
    (hi : q / f.sblock.blockSize = i)
    (hskip : p.skipfirst f.sblock.blockSize i = q % f.sblock.blockSize)
    (hfirst : pos / f.sblock.blockSize ≤ i) (hlt : i * f.sblock.blockSize < pos + n)
    (hq : q ≤ pos + n) (mem : Buffer) :
  ∃ t', Inv t' ∧ t'.dev = s.dev
    ∧ readFileLoop f p malloc (k + 1) i t mem buf
      = readFileLoop f p malloc k (i + 1) t'
          (mem.store buf (Memory.read (f.byte s.dev content) q
            (min (f.sblock.blockSize - q % f.sblock.blockSize)
              (writtenEnd s f (pos + n) - q))))
          (buf + (f.sblock.blockSize - q % f.sblock.blockSize))
  := by
  have hlog := hsane.log2BlockSize
  have hsize := blockSize_le hlog
  have hsplit := Nat.div_add_mod' q f.sblock.blockSize
  have hmodlt := Nat.mod_lt q (show 0 < f.sblock.blockSize by omega)
  have hreadable := (hsane.blocks i hfirst hlt).congr hdev
  obtain ⟨w, hw, hinside⟩ := hreadable.inside
  have hread := sound_of_inv ht hreadable.meets _ _ _ _ rfl w hw
  rw [Option.mem_def, hdev] at hw
  rw [hdev] at hinside
  use (readBlock t f.toNode i (malloc i).1 (malloc i).2).1, inv_readBlock ht _ _ _ _,
    (dev_readBlock ..).trans hdev
  rw [readFileLoop]
  dsimp only
  rw [hread, dev_readBlock, hdev, hskip]
  rw [hi] at hsplit
  by_cases hzero : w = 0
  · -- a hole, of which the zeros go up to the end of the block
    subst hzero
    have hend := le_writtenEnd hw hlt
    rw [Nat.succ_mul] at hend
    rw [if_neg (by decide), sector_zero, if_neg (not_not.mpr rfl), Nat.min_eq_left (by omega),
      read_hole hw hi (by omega)]
  · obtain ⟨hin, hint⟩ := hinside hzero
    obtain ⟨hsector, hmsb⟩ := toNat_sector hint
    have hwpos : 0 < w.toNat := Nat.pos_of_ne_zero fun h => hzero (BitVec.eq_of_toNat_eq h)
    have hmul : f.sblock.blockSize ≤ w.toNat * f.sblock.blockSize := Nat.le_mul_of_pos_left _ hwpos
    have hwmsb : w.msb = false := by
      rw [BitVec.msb_eq_false_iff_two_mul_lt]
      have hbig := Nat.mul_le_mul_left w.toNat hsize.1
      rw [sectorSize] at hint
      omega
    have hne : f.sblock.sector w ≠ 0 := by
      intro h
      rw [h] at hsector
      change 0 * sectorSize = _ at hsector
      omega
    have hlen := hp.blockend_eq hlog hw hzero hlt hi hskip
    have hend := stop_le_writtenEnd s f (pos + n)
    have hpart := min_writtenEnd_le hw hzero hi hq
    rw [← hlen] at hpart
    have hmin : q % f.sblock.blockSize + (p.blockend f.sblock.blockSize i).toNat
        ≤ f.sblock.blockSize := hpart.trans (Nat.min_le_left ..)
    have hsectors : s.dev.Inside (f.sblock.sector w) (q % f.sblock.blockSize)
        (p.blockend f.sblock.blockSize i).toNat := ⟨hmsb, by omega⟩
    have hdevread := devread_of_inside hsane.serves hsectors (by omega) (by omega)
    rw [if_neg (by rw [hwmsb]; decide), if_pos hne, hdevread, hsector,
      ← read_block hw hzero hi hmin, hlen]
    dsimp only
    rw [if_neg (by decide)]

/-- Nothing is written behind the block in which the part ends. -/
theorem writtenEnd_le {stop i : ℕ} (h : stop ≤ i * f.sblock.blockSize) :
  writtenEnd s f stop ≤ i * f.sblock.blockSize
  := by
  rw [writtenEnd]
  split
  case isTrue hhole =>
    apply Nat.mul_le_mul_right
    rw [Nat.succ_le_iff, Nat.div_lt_iff_lt_mul (blockSize_pos _)]
    apply Nat.lt_of_le_of_ne h
    rintro rfl
    exact hhole.1 (Nat.mul_mod_left ..)
  case isFalse => exact h

/-- Bytes that are written one behind the other. -/
theorem Buffer.store_append (b : Buffer) (p : ℕ) (ℓ₁ ℓ₂ : List Byte) :
  (b.store p ℓ₁).store (p + ℓ₁.length) ℓ₂ = b.store p (ℓ₁ ++ ℓ₂)
  := by
  rw [Buffer.store, Buffer.store, Buffer.store, Memory.store_append]
  congr 1
  obtain rfl | h₁ := eq_or_ne ℓ₁ []
  · rfl
  obtain rfl | h₂ := eq_or_ne ℓ₂ []
  · rw [List.append_nil]
    rfl
  · rw [if_neg h₁, if_neg h₂, if_neg (by simp [h₁]), List.length_append]
    dsimp only
    omega

/-- The first bytes are written, and then the others. -/
theorem Buffer.store_read_min (mem : Buffer) (m : ℕ → Byte) (buf q a b : ℕ) :
  (mem.store buf (Memory.read m q (min a b))).store (buf + a) (Memory.read m (q + a) (b - a))
    = mem.store buf (Memory.read m q b)
  := by
  obtain hle | hle := Nat.le_total a b
  · obtain ⟨c, rfl⟩ := Nat.exists_eq_add_of_le hle
    have happend := mem.store_append buf (Memory.read m q a) (Memory.read m (q + a) c)
    rw [Memory.length_read] at happend
    rw [Nat.min_eq_left hle, Nat.add_sub_cancel_left, Memory.read_add, happend]
  · rw [Nat.min_eq_right hle, Nat.sub_eq_zero_of_le hle]
    rfl

/-- Where the loop is in a block: at the position in the first one, at the beginning of another. -/
def At (f : File) (pos i q : ℕ) : Prop :=
  i = pos / f.sblock.blockSize ∧ q = pos
    ∨ pos / f.sblock.blockSize < i ∧ q = i * f.sblock.blockSize

theorem At.first_le {i q : ℕ} (h : At f pos i q) :
  pos / f.sblock.blockSize ≤ i
  := by
  obtain ⟨rfl, _⟩ | ⟨hlt, _⟩ := h
  · rfl
  · exact hlt.le

theorem At.le {i q : ℕ} (h : At f pos i q) (hlt : i * f.sblock.blockSize < pos + n) :
  q ≤ pos + n
  := by
  obtain ⟨_, rfl⟩ | ⟨_, rfl⟩ := h
  · apply Nat.le_add_right
  · exact hlt.le

theorem At.div_eq {i q : ℕ} (h : At f pos i q) :
  q / f.sblock.blockSize = i
  := by
  obtain ⟨rfl, rfl⟩ | ⟨_, rfl⟩ := h
  · rfl
  · exact Nat.mul_div_cancel _ (blockSize_pos _)

theorem At.skipfirst_eq {p : Part} (hp : p.pos = pos) {i q : ℕ} (h : At f pos i q) :
  p.skipfirst f.sblock.blockSize i = q % f.sblock.blockSize
  := by
  rw [Part.skipfirst, hp]
  obtain ⟨rfl, rfl⟩ | ⟨hlt, rfl⟩ := h
  · rw [if_pos rfl]
  · rw [if_neg hlt.ne', Nat.mul_mod_left]

theorem At.succ {i q : ℕ} (h : At f pos i q) :
  At f pos (i + 1) (q + (f.sblock.blockSize - q % f.sblock.blockSize))
  := by
  have hsplit := Nat.div_add_mod' q f.sblock.blockSize
  have hmod := Nat.mod_lt q (blockSize_pos f.sblock)
  right
  constructor
  · exact Nat.lt_succ_of_le h.first_le
  · rw [h.div_eq] at hsplit
    rw [Nat.succ_mul]
    omega

/-- **The loop** writes the bytes up to the end, from any of its rounds on. -/
theorem readFileLoop_eq {p : Part} (hp : Plain f p pos n) (hsane : Sane s content f pos n malloc)
    (k i q buf : ℕ) (t : State) (mem : Buffer) (hk : k = p.blockcnt f.sblock.blockSize - i)
    (hat : At f pos i q) (ht : Inv t) (hdev : t.dev = s.dev) :
  (readFileLoop f p malloc k i t mem buf).2
    = (mem.store buf
        (Memory.read (f.byte s.dev content) q (writtenEnd s f (pos + n) - q)), true)
  := by
  have hcount := hp.lt_blockcnt hsane.log2BlockSize i
  have hsplit := Nat.div_add_mod' q f.sblock.blockSize
  rw [hat.div_eq] at hsplit
  induction k generalizing i q buf t mem with
  | zero =>
    have hend : writtenEnd s f (pos + n) ≤ i * f.sblock.blockSize := by
      apply writtenEnd_le
      omega
    rw [Nat.sub_eq_zero_of_le (by omega)]
    rfl
  | succ k ih =>
    have hlt : i * f.sblock.blockSize < pos + n := by omega
    obtain ⟨t', ht', hdev', hloop⟩ := readFileLoop_succ hp hsane k buf ht hdev hat.div_eq
      (hat.skipfirst_eq hp.pos_eq) hat.first_le hlt (hat.le hlt) mem
    rw [hloop, ih _ _ _ _ _ (by omega) hat.succ ht' hdev' (hp.lt_blockcnt hsane.log2BlockSize _),
      ← Nat.sub_sub, Buffer.store_read_min]
    have hnext := Nat.div_add_mod' (q + (f.sblock.blockSize - q % f.sblock.blockSize))
      f.sblock.blockSize
    rwa [hat.succ.div_eq] at hnext

/-! ### How much is written -/

theorem length_devreadAligned_le {d : Device} (hd : d.Reads) (sector : Word) (byteLen : ℕ) :
  (devreadAligned d sector byteLen).1.length ≤ byteLen
  := by
  have hwhole : sectorSize * (byteLen / sectorSize * sectorSize / sectorSize)
      = byteLen / sectorSize * sectorSize := by
    rw [Nat.mul_div_cancel _ (by decide), Nat.mul_comm]
  have hle := Nat.div_mul_le_self byteLen sectorSize
  rw [devreadAligned]
  dsimp only
  split_ifs
  · apply Nat.zero_le
  · rw [List.length_take]
    apply Nat.min_le_left
  · rwa [hd, hwhole]
  · rwa [hd, hwhole]
  · rwa [hd, hwhole]
  · rw [List.length_append, List.length_take, hd, hwhole]
    omega

/-- No more is read than is asked for. -/
theorem length_devread_le {d : Device} (hd : d.Reads) (sector : Word) (byteOffset byteLen : ℕ) :
  (devread d sector byteOffset byteLen).1.length ≤ byteLen
  := by
  rw [devread]
  dsimp only
  split_ifs
  · apply Nat.zero_le
  · apply length_devreadAligned_le hd
  · apply Nat.zero_le
  · have hrest := length_devreadAligned_le hd
      (sector + BitVec.ofNat 32 (byteOffset / sectorSize) + 1)
      (byteLen - min (sectorSize - byteOffset % sectorSize) byteLen)
    rw [List.length_append, List.length_take]
    omega

theorem Buffer.written_store_le {b : Buffer} {q bound : ℕ} {bytes : List Byte}
    (hb : b.written ≤ bound) (h : q + bytes.length ≤ bound) :
  (b.store q bytes).written ≤ bound
  := by
  rw [Buffer.store]
  dsimp only
  split
  · exact hb
  · exact Nat.max_le.mpr ⟨hb, h⟩

/-- The bytes of a block belong to the part. -/
theorem Plain.blockstop_le {p : Part} (h : Plain f p pos n) (hlog : f.sblock.log2BlockSize ≤ 20)
    {i : ℕ} (hlt : i * f.sblock.blockSize < pos + n) :
  i * f.sblock.blockSize + p.blockstop f.sblock.blockSize i ≤ pos + n
  := by
  have hpos := blockSize_pos f.sblock
  have hcount := h.lt_blockcnt hlog i
  have hcount' := h.lt_blockcnt hlog (i + 1)
  have hsplit := Nat.div_add_mod' (pos + n) f.sblock.blockSize
  have hle : i ≤ (pos + n) / f.sblock.blockSize := (Nat.le_div_iff_mul_le hpos).mpr hlt.le
  have hmul := Nat.mul_le_mul_right f.sblock.blockSize hle
  rw [Nat.succ_mul] at hcount'
  rw [Part.blockstop, h.stop_eq hlog]
  split_ifs with hlast hzero
  · -- a whole number of blocks
    have hless : i < (pos + n) / f.sblock.blockSize := by
      rw [hzero, Nat.add_zero] at hsplit
      rw [← hsplit] at hlt
      exact Nat.lt_of_mul_lt_mul_right hlt
    have hmul' := Nat.mul_le_mul_right f.sblock.blockSize (Nat.succ_le_of_lt hless)
    rw [Nat.succ_eq_add_one, Nat.succ_mul] at hmul'
    omega
  · omega
  · omega

/-- **No more is written than is asked for**, when the block in which the part ends is not found to
be a hole. -/
theorem written_readFileLoop_le {p : Part} (hp : Plain f p pos n)
    (hlog : f.sblock.log2BlockSize ≤ 20) (hd : s.dev.Reads)
    (hlast : ∀ t, t.dev = s.dev → ∀ i, i = (pos + n) / f.sblock.blockSize →
      f.sblock.sector (readBlock t f.toNode i (malloc i).1 (malloc i).2).2 ≠ 0)
    (k i q buf : ℕ) (t : State) (mem : Buffer) (hk : k = p.blockcnt f.sblock.blockSize - i)
    (hat : At f pos i q) (hbuf : pos + buf = q) (hmem : mem.written ≤ n) (hdev : t.dev = s.dev) :
  (readFileLoop f p malloc k i t mem buf).2.1.written ≤ n
  := by
  have hcount := hp.lt_blockcnt hlog i
  have hsplit := Nat.div_add_mod' q f.sblock.blockSize
  have hmod := Nat.mod_lt q (blockSize_pos f.sblock)
  rw [hat.div_eq] at hsplit
  induction k generalizing i q buf t mem with
  | zero => exact hmem
  | succ k ih =>
    have hlt : i * f.sblock.blockSize < pos + n := by omega
    have hstop := hp.blockstop_le hlog hlt
    have hq := hat.le hlt
    have hblock := hlast t hdev i
    have hnext := Nat.div_add_mod' (q + (f.sblock.blockSize - q % f.sblock.blockSize))
      f.sblock.blockSize
    rw [hat.succ.div_eq] at hnext
    have hdev' := (dev_readBlock t f.toNode i (malloc i).1 (malloc i).2).trans hdev
    have hgo : ∀ m : Buffer, m.written ≤ n →
        (readFileLoop f p malloc k (i + 1) (readBlock t f.toNode i (malloc i).1 (malloc i).2).1 m
          (buf + (f.sblock.blockSize - q % f.sblock.blockSize))).2.1.written ≤ n := by
      intro m hm
      exact ih _ _ _ _ _ (by omega) hat.succ (by omega) hm hdev' (hp.lt_blockcnt hlog _) hnext
        (Nat.mod_lt _ (blockSize_pos _))
    rw [readFileLoop]
    dsimp only
    rw [hat.skipfirst_eq hp.pos_eq, hdev']
    split
    · exact hmem
    split
    · have hlen := length_devread_le hd
        (f.sblock.sector (readBlock t f.toNode i (malloc i).1 (malloc i).2).2)
        (q % f.sblock.blockSize) (p.blockend f.sblock.blockSize i).toNat
      rw [Part.blockend, Int.toNat_sub, hat.skipfirst_eq hp.pos_eq] at hlen ⊢
      have hstore := Buffer.written_store_le (q := buf) hmem (Nat.le_trans
        (Nat.add_le_add_left hlen buf) (by omega))
      split
      · exact hstore
      · exact hgo _ hstore
    case isFalse hhole =>
      -- a hole is not the block in which the part ends
      have hne : i ≠ (pos + n) / f.sblock.blockSize := fun heq => hhole (hblock heq)
      have hless : i < (pos + n) / f.sblock.blockSize := Nat.lt_of_le_of_ne
        ((Nat.le_div_iff_mul_le (blockSize_pos _)).mpr hlt.le) hne
      have hmul := (Nat.le_div_iff_mul_le (blockSize_pos f.sblock)).mp hless
      rw [Nat.succ_mul] at hmul
      apply hgo
      apply Buffer.written_store_le hmem
      rw [List.length_replicate]
      omega

end Loop

/-! ### The function -/

section Function

variable {s : State} {content : ℕ → Byte} {f : File} {malloc : Mallocs} {pos len : ℕ}

/-- No more is asked for than the rest of the file, or it is asked for from the beginning. -/
theorem min_eq_count (h : pos = 0 ∨ len ≤ f.size.toNat - pos) :
  min len f.size.toNat = f.count pos len
  := by
  rw [File.count]
  omega

/-- What is read when the number of blocks does not wrap. -/
theorem readFile_eq (hsane : Sane s content f pos (f.count pos len) malloc)
    (hlen : pos = 0 ∨ len ≤ f.size.toNat - pos)
    (hroom : pos + f.count pos len + f.sblock.blockSize ≤ 2 ^ 32) (mem : ℕ → Byte) :
  (readFile s f pos len malloc mem).2
    = (Buffer.store ⟨mem, 0⟩ 0 (Memory.read (f.byte s.dev content) pos
        (writtenEnd s f (pos + f.count pos len) - pos)), BitVec.ofNat 32 (f.count pos len))
  := by
  have hp : Plain f ⟨pos, f.count pos len⟩ pos (f.count pos len) := ⟨rfl, rfl, hroom⟩
  have hloop := readFileLoop_eq hp hsane _ _ pos 0 s ⟨mem, 0⟩ rfl (.inl ⟨rfl, rfl⟩) hsane.inv rfl
  rw [readFile]
  dsimp only
  rw [min_eq_count hlen, hloop]
  rfl

/-- No more of the buffer is written than is asked for, when the block in which the part ends is not
found to be a hole. -/
theorem written_readFile_le (hlog : f.sblock.log2BlockSize ≤ 20) (hd : s.dev.Reads)
    (hroom : pos + min len f.size.toNat + f.sblock.blockSize ≤ 2 ^ 32)
    (hlast : ∀ t, t.dev = s.dev → ∀ i, i = (pos + min len f.size.toNat) / f.sblock.blockSize →
      f.sblock.sector (readBlock t f.toNode i (malloc i).1 (malloc i).2).2 ≠ 0)
    (mem : ℕ → Byte) :
  (readFile s f pos len malloc mem).2.1.written ≤ min len f.size.toNat
  := written_readFileLoop_le ⟨rfl, rfl, hroom⟩ hlog hd hlast _ _ pos 0 s ⟨mem, 0⟩ rfl
    (.inl ⟨rfl, rfl⟩) rfl (Nat.zero_le _) rfl

theorem dev_readFileLoop (f : File) (p : Part) (malloc : Mallocs) (k i : ℕ) (s : State)
    (mem : Buffer) (buf : ℕ) :
  (readFileLoop f p malloc k i s mem buf).1.dev = s.dev
  := by
  induction k generalizing i s mem buf with
  | zero => rfl
  | succ k ih =>
    rw [readFileLoop]
    dsimp only
    split_ifs
    · apply dev_readBlock
    · apply dev_readBlock
    · rw [ih, dev_readBlock]
    · rw [ih, dev_readBlock]

/-- Nothing is read when the number of blocks wraps. -/
theorem readFile_of_wrap (hlen : pos = 0 ∨ len ≤ f.size.toNat - pos)
    (hwrap : 2 ^ 32 < pos + f.count pos len + f.sblock.blockSize) (hpos : pos ≤ f.size.toNat)
    (hsize : f.sblock.blockSize ≤ 2 ^ 30) (mem : ℕ → Byte) :
  (readFile s f pos len malloc mem).2 = (⟨mem, 0⟩, BitVec.ofNat 32 (f.count pos len))
  := by
  have hcount : f.count pos len ≤ f.size.toNat - pos := Nat.min_le_right ..
  have hlt := f.size.isLt
  have hblockcnt : Part.blockcnt ⟨pos, f.count pos len⟩ f.sblock.blockSize = 0 := by
    rw [Part.blockcnt]
    apply Nat.div_eq_of_lt
    dsimp only
    omega
  rw [readFile]
  dsimp only
  rw [min_eq_count hlen, hblockcnt, Nat.zero_sub]
  rfl

/-- The number that is returned is wrong when more is asked for than the rest. -/
theorem not_readsPart_of_lt (hpos : pos ≤ f.size.toNat) (hzero : pos ≠ 0)
    (hlen : f.size.toNat - pos < len) :
  ¬ ReadsPart s content f pos len malloc
  := by
  intro h
  have hret := (h fun _ => 0).2
  have hsize := f.size.isLt
  have hcount : f.count pos len = f.size.toNat - pos := Nat.min_eq_right hlen.le
  rw [readFile, hcount] at hret
  dsimp only at hret
  replace hret := congrArg BitVec.toNat hret
  rw [BitVec.toNat_ofNat, Nat.mod_eq_of_lt (by omega)] at hret
  split at hret
  · rw [BitVec.toNat_ofNat, Nat.mod_eq_of_lt (by omega)] at hret
    omega
  · rw [show (-1 : Word).toNat = 2 ^ 32 - 1 from rfl] at hret
    omega

/-- Of the memory as many bytes are kept as not written. -/
theorem length_eq_of_store {ℓ₁ ℓ₂ : List Byte}
    (h : ∀ mem : ℕ → Byte, Memory.store mem 0 ℓ₁ = Memory.store mem 0 ℓ₂) :
  ℓ₁.length = ℓ₂.length
  := by
  have hle : ∀ ℓ₁ ℓ₂ : List Byte,
      (∀ mem : ℕ → Byte, Memory.store mem 0 ℓ₁ = Memory.store mem 0 ℓ₂) →
      ℓ₂.length ≤ ℓ₁.length := by
    intro ℓ₁ ℓ₂ h
    by_contra hlt
    rw [Nat.not_le] at hlt
    have hbyte := congrFun (h fun _ => ℓ₂[ℓ₁.length] + 1) ℓ₁.length
    rw [Memory.store_of_le _ (Nat.zero_add _).le, Memory.store_zero_of_lt _ hlt] at hbyte
    replace hbyte := congrArg UInt8.toNat hbyte
    rw [UInt8.toNat_add, UInt8.toNat_one] at hbyte
    omega
  apply Nat.le_antisymm
  · apply hle ℓ₂ ℓ₁
    intro mem
    exact (h mem).symm
  · apply hle ℓ₁ ℓ₂ h

/-- **`ext2fs_read_file` writes the bytes of a part of a file**, and returns their number, if and
only if it is not asked for more than the rest of the file, the number of blocks does not wrap and
the part does not end in a hole. -/
theorem readsPart_iff (hsane : Sane s content f pos (f.count pos len) malloc)
    (hpos : pos ≤ f.size.toNat) (hint : pos < 2 ^ 31) :
  ReadsPart s content f pos len malloc
    ↔ (pos = 0 ∨ len ≤ f.size.toNat - pos)
      ∧ pos + f.count pos len + f.sblock.blockSize ≤ 2 ^ 32
      ∧ ¬ EndsInHole s f (pos + f.count pos len)
  := by
  have hsize := blockSize_le hsane.log2BlockSize
  constructor
  · intro h
    have hlen : pos = 0 ∨ len ≤ f.size.toNat - pos := by
      by_contra hnot
      rw [not_or, Nat.not_le] at hnot
      exact not_readsPart_of_lt hpos hnot.1 hnot.2 h
    have hroom : pos + f.count pos len + f.sblock.blockSize ≤ 2 ^ 32 := by
      by_contra hover
      have hnone : ∀ mem : ℕ → Byte, Memory.store mem 0 []
          = Memory.store mem 0 (Memory.read (f.byte s.dev content) pos (f.count pos len)) := by
        intro mem
        rw [← (h mem).1, readFile_of_wrap hlen (by omega) hpos hsize.2 mem]
        rfl
      replace hnone := length_eq_of_store hnone
      rw [Memory.length_read, List.length_nil] at hnone
      omega
    refine ⟨hlen, hroom, ?_⟩
    intro hhole
    have hwritten : ∀ mem : ℕ → Byte,
        Memory.store mem 0 (Memory.read (f.byte s.dev content) pos
            (writtenEnd s f (pos + f.count pos len) - pos))
          = Memory.store mem 0 (Memory.read (f.byte s.dev content) pos (f.count pos len)) := by
      intro mem
      rw [← (h mem).1, readFile_eq hsane hlen hroom mem]
      rfl
    replace hwritten := length_eq_of_store hwritten
    have hlt := Nat.lt_div_mul_add (a := pos + f.count pos len) (blockSize_pos f.sblock)
    rw [Memory.length_read, Memory.length_read, writtenEnd, if_pos hhole, Nat.succ_mul] at hwritten
    omega
  · rintro ⟨hlen, hroom, hhole⟩ mem
    rw [readFile_eq hsane hlen hroom, writtenEnd, if_neg hhole, Nat.add_sub_cancel_left]
    exact ⟨rfl, rfl⟩

end Function

/-! ### A file with two blocks -/

/-- A partition with some bytes. -/
def diskOf (content : ℕ → Byte) (size : Word) : Device where
  start := 0
  size := size
  blockRead a n := Memory.read content (a.toNat * sectorSize) (sectorSize * n)

theorem diskOf_serves (content : ℕ → Byte) (size : Word) :
  (diskOf content size).Serves content
  := by
  constructor
  · intro a n
    apply Memory.length_read
  · intro i n h
    have hlt := size.isLt
    change i + n ≤ size.toNat at h
    rw [diskOf]
    dsimp only
    rw [show (0 : Word) + BitVec.ofNat 32 i = BitVec.ofNat 32 i from BitVec.zero_add _,
      BitVec.toNat_ofNat, Nat.mod_eq_of_lt (by omega), Nat.mul_comm sectorSize]

/-- A partition in which the bytes are numbered. -/
def numbered : Device := diskOf UInt8.ofNat 64

/-- A file of 1500 bytes. -/
def shortFile : File := ⟨samePointers 5, 1500⟩

theorem readable_shortFile {stop i : ℕ} (hi : i < indirectBlocks) :
  Readable (init numbered) shortFile (fun _ => (none, none)) stop i
  := by
  have hlimit : indirectBlocks ≤ shortFile.sblock.limit₁ := Nat.le_add_right ..
  constructor
  · refine ⟨?_, ?_, ?_, ?_⟩
    · intro hle
      exact absurd hi (Nat.not_lt_of_le hle)
    · intro hle
      exact absurd hi (Nat.not_lt_of_le hle)
    · intro hle
      exact absurd hi (Nat.not_lt_of_le (hlimit.trans hle))
    · intro hle
      exact absurd hi (Nat.not_lt_of_le (hlimit.trans hle))
  · use 5
    constructor
    · rw [walk, if_pos hi]
      rfl
    · intro _
      constructor
      · have hmin := Nat.min_le_left shortFile.sblock.blockSize
          (stop - i * shortFile.sblock.blockSize)
        apply (Nat.add_le_add_left hmin _).trans
        decide
      · decide

theorem sane_shortFile (pos n : ℕ) (h : pos + n ≤ 1500) :
  Sane (init numbered) UInt8.ofNat shortFile pos n fun _ => (none, none)
  := by
  constructor
  · apply inv_init
    exact (diskOf_serves _ _).reads
  · apply diskOf_serves
  · decide
  · intro i _ hlt
    apply readable_shortFile
    change i * 1024 < pos + n at hlt
    rw [indirectBlocks]
    omega

/-- The last byte of the first block and the first one of the second block. -/
theorem readsPart_iff_two :
  ReadsPart (init numbered) UInt8.ofNat shortFile 1023 2 (fun _ => (none, none))
    ↔ (1023 = 0 ∨ 2 ≤ shortFile.size.toNat - 1023)
      ∧ 1023 + shortFile.count 1023 2 + shortFile.sblock.blockSize ≤ 2 ^ 32
      ∧ ¬ EndsInHole (init numbered) shortFile (1023 + shortFile.count 1023 2)
  := readsPart_iff (sane_shortFile 1023 _ (by decide)) (by decide) (by decide)

/-- From the byte 1000 on there are not 1500 bytes. -/
theorem not_readsPart_rest :
  ¬ ∀ (s : State) (content : ℕ → Byte) (f : File) (pos len : ℕ) (malloc : Mallocs),
    Sane s content f pos (f.count pos len) malloc → pos ≤ f.size.toNat → pos < 2 ^ 31 →
    ReadsPart s content f pos len malloc
  := by
  intro h
  have hparts := h (init numbered) UInt8.ofNat shortFile 1000 1500 (fun _ => (none, none))
    (sane_shortFile 1000 _ (by decide)) (by decide) (by decide)
  revert hparts
  apply not_readsPart_of_lt
  all_goals decide

end Ext2
