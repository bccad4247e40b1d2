import UBoot.Lib.Logged
import UBoot.Fs.ReadFile

/-!
# Reads that fail

`ext2fs_read_file` returns -1 when a read of the device fails, with two exceptions: nobody looks at
a read of less than a sector from the beginning of one, and when the pointers of the indirect block
cannot be read the block is taken for a hole.  A device here may answer the same read differently
every time.
-/

namespace Ext2

open Logged

namespace Watched

/-! ### What is logged -/

/-- What a read is for: the bytes of a file, the pointers to its indirect blocks, or the pointers
to doubly indirect ones. -/
inductive Purpose where
  | data
  | indirect
  | double
  deriving DecidableEq

/-- The part of a range: up to the end of the first sector, whole sectors, the rest in the last
one, or everything if it is less than one sector. -/
inductive Piece where
  | first
  | whole
  | last
  | small
  deriving DecidableEq

/-- What happens in a call: a read that gives some bytes, a range that is not in the partition, or
a block for which there is no number. -/
inductive Event where
  | read (purpose : Purpose) (piece : Piece) (count : ℕ) (bytes : List Byte)
  | outside (purpose : Purpose)
  | nowhere

/-- The bytes that the device gives, after some events. -/
abbrev Answers := List Event → Word → ℕ → List Byte

/-- `block_read`. -/
def blockRead (io : Answers) (purpose : Purpose) (piece : Piece) (a : Word) (n : ℕ) :
    LogM Event (List Byte) :=
  ask (fun log => io log a n) (.read purpose piece n)

/-! ### The functions -/

/-- The rest of `ext2fs_devread`, from the beginning of a sector on. -/
def devreadAligned (io : Answers) (purpose : Purpose) (d : Device) (sector : Word)
    (byteLen : ℕ) : LogM Event (List Byte × Bool) :=
  let blockLen := byteLen / sectorSize * sectorSize
  if byteLen = 0 then pure ([], true)
  else if blockLen = 0 then do
    let p ← blockRead io purpose .small (d.start + sector) 1
    pure (p.take byteLen, true)
  else do
    let buf ← blockRead io purpose .whole (d.start + sector) (blockLen / sectorSize)
    if buf.length ≠ blockLen then pure (buf, false)
    else if byteLen - blockLen = 0 then pure (buf, true)
    else
      let secBuf ← blockRead io purpose .last
        (d.start + (sector + BitVec.ofNat 32 (blockLen / sectorSize))) 1
      if secBuf.length ≠ sectorSize then pure (buf, false)
      else pure (buf ++ secBuf.take (byteLen - blockLen), true)

/-- `ext2fs_devread`. -/
def devread (io : Answers) (purpose : Purpose) (d : Device) (sector : Word)
    (byteOffset byteLen : ℕ) : LogM Event (List Byte × Bool) :=
  let last := sector + BitVec.ofInt 32 (((byteOffset + byteLen : ℕ) - 1 : ℤ) / sectorSize)
  if sector.msb ∨ d.size ≤ last then do
    note (.outside purpose)
    pure ([], false)
  else
    let sector := sector + BitVec.ofNat 32 (byteOffset / sectorSize)
    let byteOffset := byteOffset % sectorSize
    if byteOffset = 0 then devreadAligned io purpose d sector byteLen
    else do
      let secBuf ← blockRead io purpose .first (d.start + sector) 1
      if secBuf.length ≠ sectorSize then pure ([], false)
      else
        let n := min (sectorSize - byteOffset) byteLen
        let rest ← devreadAligned io purpose d (sector + 1) (byteLen - n)
        pure ((secBuf.drop byteOffset).take n ++ rest.1, rest.2)

/-- A block of pointers is read, unless `tag` says that it is there already. -/
def load (io : Answers) (purpose : Purpose) (c : Cache) (d : Device) (sector tag : Word)
    (blksz : ℕ) : LogM Event (Cache × Bool) :=
  if sector ≠ tag then do
    let r ← devread io purpose d sector 0 blksz
    let block := c.block.map (overwrite · r.1)
    if r.2 then pure (⟨block, c.size, sector⟩, true) else pure (⟨block, c.size, c.blkno⟩, false)
  else pure (c, true)

/-- `ext2fs_read_block` for a block that is indirect. -/
def readIndirect (io : Answers) (s : State) (node : Node) (fileblock : ℕ)
    (malloc : Option (ℕ → Byte)) : LogM Event (State × Word) :=
  let blksz := node.sblock.blockSize
  let sector := node.sblock.sector node.inode.indirBlock
  let a := s.indir1.allocate blksz malloc
  if a.2 = false then pure ({ s with indir1 := a.1 }, -1)
  else do
    let r ← load io .indirect a.1 s.dev sector a.1.blkno blksz
    if r.2 = false then pure ({ s with indir1 := r.1 }, 0)
    else pure ({ s with indir1 := r.1 }, r.1.get (fileblock - indirectBlocks))

/-- `ext2fs_read_block` for a block that is doubly indirect. -/
def readDoubleIndirect (io : Answers) (s : State) (node : Node) (fileblock : ℕ)
    (malloc₁ malloc₂ : Option (ℕ → Byte)) : LogM Event (State × Word) :=
  let blksz := node.sblock.blockSize
  let perblock := blksz / 4
  let rblock := fileblock - (indirectBlocks + blksz / 4)
  let sector := node.sblock.sector node.inode.doubleIndirBlock
  let a := s.indir1.allocate blksz malloc₁
  if a.2 = false then pure ({ s with indir1 := a.1 }, -1)
  else do
    let r ← load io .double a.1 s.dev sector a.1.blkno blksz
    if r.2 = false then pure ({ s with indir1 := r.1 }, -1)
    else
      let b := s.indir2.allocate blksz malloc₂
      if b.2 = false then pure ({ s with indir1 := r.1, indir2 := b.1 }, -1)
      else
        let sector := node.sblock.sector (r.1.get (rblock / perblock))
        let t ← load io .double b.1 s.dev sector r.1.blkno blksz
        if t.2 = false then pure ({ s with indir1 := r.1, indir2 := t.1 }, -1)
        else pure ({ s with indir1 := r.1, indir2 := t.1 }, t.1.get (rblock % perblock))

/-- `ext2fs_read_block`. -/
def readBlock (io : Answers) (s : State) (node : Node) (fileblock : ℕ)
    (malloc₁ malloc₂ : Option (ℕ → Byte)) : LogM Event (State × Word) :=
  let blksz := node.sblock.blockSize
  if fileblock < indirectBlocks then pure (s, node.inode.dirBlocks fileblock)
  else if (fileblock : ℤ) < intLimit (indirectBlocks + blksz / 4) then
    readIndirect io s node fileblock malloc₁
  else if (fileblock : ℤ) < intLimit (indirectBlocks + blksz / 4 * (blksz / 4 + 1)) then
    readDoubleIndirect io s node fileblock malloc₁ malloc₂
  else pure (s, -1)

/-- The next `n` rounds of the loop of `ext2fs_read_file`. -/
def readFileLoop (io : Answers) (f : File) (p : Part) (malloc : Mallocs) :
    ℕ → ℕ → State → Buffer → ℕ → LogM Event (State × Buffer × Bool)
  | 0, _, s, mem, _ => pure (s, mem, true)
  | n + 1, i, s, mem, buf => do
    let blocksize := f.sblock.blockSize
    let b ← readBlock io s f.toNode i (malloc i).1 (malloc i).2
    let skipfirst := p.skipfirst blocksize i
    if b.2.msb then do
      note .nowhere
      pure (b.1, mem, false)
    else
      let blknr := f.sblock.sector b.2
      if blknr ≠ 0 then do
        let r ← devread io .data b.1.dev blknr skipfirst (p.blockend blocksize i).toNat
        let mem := mem.store buf r.1
        if r.2 = false then pure (b.1, mem, false)
        else readFileLoop io f p malloc n (i + 1) b.1 mem (buf + (blocksize - skipfirst))
      else
        let mem := mem.store buf (List.replicate (blocksize - skipfirst) 0)
        readFileLoop io f p malloc n (i + 1) b.1 mem (buf + (blocksize - skipfirst))

/-- `ext2fs_read_file`. -/
def readFile (io : Answers) (s : State) (f : File) (pos len : ℕ) (malloc : Mallocs)
    (mem : ℕ → Byte) : LogM Event (State × Buffer × Word) := do
  let p : Part := ⟨pos, min len f.size.toNat⟩
  let first := pos / f.sblock.blockSize
  let r ← readFileLoop io f p malloc (p.blockcnt f.sblock.blockSize - first) first s ⟨mem, 0⟩ 0
  pure (r.1, r.2.1, if r.2.2 then BitVec.ofNat 32 p.len else -1)

/-! ### A device that does not change -/

section Unchanging

variable (purpose : Purpose) (d : Device) (s : State)

theorem gives_blockRead (piece : Piece) (a : Word) (n : ℕ) :
  Gives (blockRead (fun _ => d.blockRead) purpose piece a n) (d.blockRead a n)
  := gives_ask _ _

theorem gives_devreadAligned (sector : Word) (byteLen : ℕ) :
  Gives (devreadAligned (fun _ => d.blockRead) purpose d sector byteLen)
    (Ext2.devreadAligned d sector byteLen)
  := by
  rw [devreadAligned, Ext2.devreadAligned]
  dsimp only
  split
  · apply gives_pure
  split
  · apply Gives.bind
    · apply gives_blockRead
    apply gives_pure
  · apply Gives.bind
    · apply gives_blockRead
    split
    · apply gives_pure
    split
    · apply gives_pure
    · apply Gives.bind
      · apply gives_blockRead
      split
      all_goals apply gives_pure

theorem gives_devread (sector : Word) (byteOffset byteLen : ℕ) :
  Gives (devread (fun _ => d.blockRead) purpose d sector byteOffset byteLen)
    (Ext2.devread d sector byteOffset byteLen)
  := by
  rw [devread, Ext2.devread]
  dsimp only
  split
  · apply Gives.bind
    · apply gives_note
    apply gives_pure
  split
  · apply gives_devreadAligned
  · apply Gives.bind
    · apply gives_blockRead
    split
    · apply gives_pure
    · apply Gives.bind
      · apply gives_devreadAligned
      apply gives_pure

theorem gives_load (c : Cache) (sector tag : Word) (blksz : ℕ) :
  Gives (load (fun _ => d.blockRead) purpose c d sector tag blksz)
    (c.load d sector tag blksz)
  := by
  rw [load, Cache.load]
  split
  · apply Gives.bind
    · apply gives_devread
    dsimp only
    split
    all_goals apply gives_pure
  · apply gives_pure

theorem gives_readIndirect (node : Node) (fileblock : ℕ) (malloc : Option (ℕ → Byte)) :
  Gives (readIndirect (fun _ => s.dev.blockRead) s node fileblock malloc)
    (Ext2.readIndirect s node fileblock malloc)
  := by
  rw [readIndirect, Ext2.readIndirect]
  dsimp only
  split
  · apply gives_pure
  · apply Gives.bind
    · apply gives_load
    split
    all_goals apply gives_pure

theorem gives_readDoubleIndirect (node : Node) (fileblock : ℕ)
    (malloc₁ malloc₂ : Option (ℕ → Byte)) :
  Gives (readDoubleIndirect (fun _ => s.dev.blockRead) s node fileblock malloc₁ malloc₂)
    (Ext2.readDoubleIndirect s node fileblock malloc₁ malloc₂)
  := by
  rw [readDoubleIndirect, Ext2.readDoubleIndirect]
  dsimp only
  split
  · apply gives_pure
  apply Gives.bind
  · apply gives_load
  split
  · apply gives_pure
  split
  · apply gives_pure
  apply Gives.bind
  · apply gives_load
  split
  all_goals apply gives_pure

theorem gives_readBlock (node : Node) (fileblock : ℕ) (malloc₁ malloc₂ : Option (ℕ → Byte)) :
  Gives (readBlock (fun _ => s.dev.blockRead) s node fileblock malloc₁ malloc₂)
    (Ext2.readBlock s node fileblock malloc₁ malloc₂)
  := by
  rw [readBlock, Ext2.readBlock]
  split
  · apply gives_pure
  split
  · apply gives_readIndirect
  split
  · apply gives_readDoubleIndirect
  · apply gives_pure

theorem gives_readFileLoop (f : File) (p : Part) (malloc : Mallocs) (n i : ℕ) (t : State)
    (ht : t.dev = s.dev) (mem : Buffer) (buf : ℕ) :
  Gives (readFileLoop (fun _ => s.dev.blockRead) f p malloc n i t mem buf)
    (Ext2.readFileLoop f p malloc n i t mem buf)
  := by
  induction n generalizing i t mem buf with
  | zero => apply gives_pure
  | succ n ih =>
    have hblock := gives_readBlock t f.toNode i (malloc i).1 (malloc i).2
    have hdev := (dev_readBlock t f.toNode i (malloc i).1 (malloc i).2).trans ht
    rw [ht] at hblock
    rw [readFileLoop, Ext2.readFileLoop]
    apply Gives.bind hblock
    dsimp only
    split
    · apply Gives.bind
      · apply gives_note
      apply gives_pure
    split
    · rw [hdev]
      apply Gives.bind
      · apply gives_devread
      split
      · apply gives_pure
      · apply ih _ _ hdev
    · apply ih _ _ hdev

/-- **A device that does not change** gives what was said about `ext2fs_read_file` before. -/
theorem gives_readFile (f : File) (pos len : ℕ) (malloc : Mallocs) (mem : ℕ → Byte) :
  Gives (readFile (fun _ => s.dev.blockRead) s f pos len malloc mem)
    (Ext2.readFile s f pos len malloc mem)
  := by
  rw [readFile, Ext2.readFile]
  dsimp only
  apply Gives.bind
  · apply gives_readFileLoop
    rfl
  apply gives_pure

end Unchanging

/-! ### What the callers notice -/

/-- What a read is for. -/
def Event.purpose : Event → Option Purpose
  | .read purpose _ _ _ => some purpose
  | .outside purpose => some purpose
  | .nowhere => none

/-- A read that transfers fewer sectors than it is asked for. -/
def Event.Short : Event → Prop
  | .read _ _ count bytes => bytes.length ≠ sectorSize * count
  | _ => False

/-- For this `ext2fs_devread` returns 0. -/
def Event.Noticed : Event → Prop
  | .read _ piece count bytes => piece ≠ .small ∧ bytes.length ≠ sectorSize * count
  | .outside _ => True
  | .nowhere => True

/-- For this `ext2fs_read_file` ends: not for what is read for the pointers of the indirect
block. -/
def Event.Ends (e : Event) : Prop := e.Noticed ∧ e.purpose ≠ some .indirect

section Errors

variable (io : Answers)

/-- The status of a read, and what it is for. -/
def Status (purpose : Purpose) (ok : Bool) (new : List Event) : Prop :=
  (∀ e ∈ new, e.purpose = some purpose) ∧ (ok = false ↔ ∃ e ∈ new, e.Noticed)

variable {io}

theorem status_nil (purpose : Purpose) :
  Status purpose true []
  := by
  constructor
  · rintro e ⟨⟩
  · constructor
    · rintro ⟨⟩
    · rintro ⟨e, ⟨⟩, _⟩

theorem status_singleton {purpose : Purpose} {ok : Bool} {e : Event}
    (hpurpose : e.purpose = some purpose) (h : ok = false ↔ e.Noticed) :
  Status purpose ok [e]
  := by
  constructor
  · intro e' he'
    rwa [List.mem_singleton.mp he']
  · rw [h]
    constructor
    · exact fun he => ⟨e, List.mem_singleton_self e, he⟩
    · rintro ⟨e', he', hnoticed⟩
      rwa [List.mem_singleton.mp he'] at hnoticed

/-- After a read that succeeds the status is that of the rest. -/
theorem Status.append {purpose : Purpose} {ok : Bool} {new new' : List Event}
    (h : Status purpose true new) (h' : Status purpose ok new') :
  Status purpose ok (new ++ new')
  := by
  constructor
  · intro e he
    obtain he | he := List.mem_append.mp he
    · exact h.1 e he
    · exact h'.1 e he
  · rw [h'.2]
    constructor
    · rintro ⟨e, he, hnoticed⟩
      exact ⟨e, List.mem_append_right _ he, hnoticed⟩
    · rintro ⟨e, he, hnoticed⟩
      obtain he | he := List.mem_append.mp he
      · cases h.2.mpr ⟨e, he, hnoticed⟩
      · exact ⟨e, he, hnoticed⟩

theorem Status.after {α : Type} {purpose : Purpose} {new : List Event} {status : α → Bool}
    {x : LogM Event α} (h : Status purpose true new)
    (hx : Logs x fun r new' => Status purpose (status r) new') :
  Logs x fun r new' => Status purpose (status r) (new ++ new')
  := hx.mono fun _ _ => h.append

/-- The number of bytes tells if a read succeeds, except for the small ones. -/
theorem logs_blockRead {purpose : Purpose} {piece : Piece} (hpiece : piece ≠ .small) (a : Word)
    (n : ℕ) :
  Logs (blockRead io purpose piece a n) fun bytes new =>
    Status purpose (decide (bytes.length = sectorSize * n)) new
  := by
  apply logs_ask
  intro bytes
  apply status_singleton rfl
  rw [decide_eq_false_iff_not]
  exact (and_iff_right hpiece).symm

theorem logs_small (purpose : Purpose) (a : Word) (n : ℕ) :
  Logs (blockRead io purpose .small a n) fun _ new => Status purpose true new
  := by
  apply logs_ask
  intro bytes
  apply status_singleton rfl
  constructor
  · rintro ⟨⟩
  · rintro ⟨hpiece, _⟩
    exact absurd rfl hpiece

theorem logs_outside (purpose : Purpose) :
  Logs (note (.outside purpose)) fun _ new => Status purpose false new
  := by
  apply logs_note
  exact status_singleton rfl (iff_of_true rfl trivial)

theorem logs_devreadAligned (purpose : Purpose) (d : Device) (sector : Word) (byteLen : ℕ) :
  Logs (devreadAligned io purpose d sector byteLen) fun r new => Status purpose r.2 new
  := by
  have hmul := Nat.div_mul_cancel (Nat.dvd_mul_left sectorSize (byteLen / sectorSize))
  rw [Nat.mul_comm] at hmul
  rw [devreadAligned]
  split
  · apply logs_pure
    apply status_nil
  split
  · apply (logs_small ..).bind
    intro p new hnew
    apply logs_pure
    rwa [List.append_nil]
  · apply Logs.bind (logs_blockRead (by decide) _ _)
    intro buf new hnew
    rw [hmul] at hnew
    split
    case isTrue hne =>
      apply logs_pure
      rw [List.append_nil]
      rwa [decide_eq_false hne] at hnew
    case isFalse heq =>
      rw [decide_eq_true (not_not.mp heq)] at hnew
      apply hnew.after
      split
      · apply logs_pure
        apply status_nil
      · apply Logs.bind (logs_blockRead (by decide) _ _)
        intro secBuf new' hnew'
        rw [Nat.mul_one] at hnew'
        split
        case isTrue hne' =>
          apply logs_pure
          rw [List.append_nil]
          rwa [decide_eq_false hne'] at hnew'
        case isFalse heq' =>
          apply logs_pure
          rw [List.append_nil]
          rwa [decide_eq_true (not_not.mp heq')] at hnew'

/-- **`ext2fs_devread` notices** every read that fails, except for the small ones. -/
theorem logs_devread (purpose : Purpose) (d : Device) (sector : Word) (byteOffset byteLen : ℕ) :
  Logs (devread io purpose d sector byteOffset byteLen) fun r new => Status purpose r.2 new
  := by
  rw [devread]
  dsimp only
  split
  · apply Logs.bind (logs_outside purpose)
    intro _ new hnew
    apply logs_pure
    rwa [List.append_nil]
  split
  · apply logs_devreadAligned
  · apply Logs.bind (logs_blockRead (by decide) _ _)
    intro secBuf new hnew
    rw [Nat.mul_one] at hnew
    split
    case isTrue hne =>
      apply logs_pure
      rw [List.append_nil]
      rwa [decide_eq_false hne] at hnew
    case isFalse heq =>
      rw [decide_eq_true (not_not.mp heq)] at hnew
      apply hnew.after
      apply Logs.bind (logs_devreadAligned ..)
      intro rest new' hnew'
      apply logs_pure
      rwa [List.append_nil]

/-- The pointers of a block. -/
theorem logs_load (purpose : Purpose) (c : Cache) (d : Device) (sector tag : Word) (blksz : ℕ) :
  Logs (load io purpose c d sector tag blksz) fun r new => Status purpose r.2 new
  := by
  rw [load]
  split
  · apply Logs.bind (logs_devread ..)
    intro r new hnew
    dsimp only
    split
    case isTrue htrue =>
      apply logs_pure
      rw [List.append_nil]
      rwa [htrue] at hnew
    case isFalse hfalse =>
      apply logs_pure
      rw [Bool.not_eq_true] at hfalse
      rw [List.append_nil]
      rwa [hfalse] at hnew
  · apply logs_pure
    apply status_nil

/-! ### What `ext2fs_read_file` notices -/

/-- Something ends the call. -/
def Ended (new : List Event) : Prop := ∃ e ∈ new, e.Ends

theorem not_ended_nil :
  ¬ Ended []
  := by
  rintro ⟨e, ⟨⟩, _⟩

theorem ended_append {new new' : List Event} :
  Ended (new ++ new') ↔ Ended new ∨ Ended new'
  := by
  constructor
  · rintro ⟨e, he, hends⟩
    obtain he | he := List.mem_append.mp he
    · exact .inl ⟨e, he, hends⟩
    · exact .inr ⟨e, he, hends⟩
  · rintro (⟨e, he, hends⟩ | ⟨e, he, hends⟩)
    · exact ⟨e, List.mem_append_left _ he, hends⟩
    · exact ⟨e, List.mem_append_right _ he, hends⟩

/-- What is read for the bytes or for the pointers to doubly indirect blocks. -/
theorem Status.ended_iff {purpose : Purpose} {ok : Bool} {new : List Event}
    (h : Status purpose ok new) (hpurpose : purpose ≠ .indirect) :
  Ended new ↔ ok = false
  := by
  rw [h.2]
  constructor
  · rintro ⟨e, he, hends⟩
    exact ⟨e, he, hends.1⟩
  · rintro ⟨e, he, hnoticed⟩
    refine ⟨e, he, hnoticed, ?_⟩
    rw [h.1 e he]
    intro hsome
    exact hpurpose (Option.some.inj hsome)

/-- Nothing that is read for the pointers of the indirect block ends the call. -/
theorem Status.not_ended {ok : Bool} {new : List Event} (h : Status .indirect ok new) :
  ¬ Ended new
  := by
  rintro ⟨e, he, hends⟩
  exact hends.2 (h.1 e he)

theorem logs_readIndirect (s : State) (node : Node) (fileblock : ℕ)
    (malloc : Option (ℕ → Byte)) :
  Logs (readIndirect io s node fileblock malloc) fun _ new => ¬ Ended new
  := by
  rw [readIndirect]
  split
  · apply logs_pure
    apply not_ended_nil
  · apply Logs.bind (logs_load ..)
    intro r new hnew
    split
    all_goals
      apply logs_pure
      rw [List.append_nil]
      apply hnew.not_ended

theorem logs_readDoubleIndirect (s : State) (node : Node) (fileblock : ℕ)
    (malloc₁ malloc₂ : Option (ℕ → Byte)) :
  Logs (readDoubleIndirect io s node fileblock malloc₁ malloc₂) fun b new =>
    Ended new → b.2 = -1
  := by
  rw [readDoubleIndirect]
  dsimp only
  split
  · apply logs_pure
    exact fun _ => rfl
  apply Logs.bind (logs_load ..)
  intro r new hnew
  have hnew := hnew.ended_iff (by decide)
  split
  · apply logs_pure
    exact fun _ => rfl
  case isFalse htrue =>
  split
  · apply logs_pure
    exact fun _ => rfl
  apply Logs.bind (logs_load ..)
  intro t new' hnew'
  have hnew' := hnew'.ended_iff (by decide)
  split
  · apply logs_pure
    exact fun _ => rfl
  case isFalse htrue' =>
  apply logs_pure
  intro hended
  rw [List.append_nil, ended_append, hnew, hnew'] at hended
  obtain hfalse | hfalse := hended
  · exact absurd hfalse htrue
  · exact absurd hfalse htrue'

/-- There is no block when something ends the call. -/
theorem logs_readBlock (s : State) (node : Node) (fileblock : ℕ)
    (malloc₁ malloc₂ : Option (ℕ → Byte)) :
  Logs (readBlock io s node fileblock malloc₁ malloc₂) fun b new =>
    Ended new → b.2.msb = true
  := by
  rw [readBlock]
  split
  · apply logs_pure
    exact fun hended => absurd hended not_ended_nil
  split
  · apply (logs_readIndirect ..).mono
    exact fun _ _ hnot hended => absurd hended hnot
  split
  · apply (logs_readDoubleIndirect ..).mono
    intro b new h hended
    rw [h hended]
    rfl
  · apply logs_pure
    exact fun hended => absurd hended not_ended_nil

theorem logs_nowhere :
  Logs (note .nowhere) fun _ new => Ended new
  := by
  apply logs_note
  exact ⟨.nowhere, List.mem_singleton_self _, trivial, nofun⟩

/-- The loop comes to its end exactly if nothing ends the call. -/
theorem logs_readFileLoop (f : File) (p : Part) (malloc : Mallocs) (n i : ℕ) (s : State)
    (mem : Buffer) (buf : ℕ) :
  Logs (readFileLoop io f p malloc n i s mem buf) fun r new => r.2.2 = false ↔ Ended new
  := by
  induction n generalizing i s mem buf with
  | zero =>
    apply logs_pure
    exact iff_of_false Bool.true_eq_false.mp not_ended_nil
  | succ n ih =>
    rw [readFileLoop]
    apply Logs.bind (logs_readBlock ..)
    intro b new hnew
    dsimp only
    split
    · apply Logs.bind logs_nowhere
      intro _ new' hnew'
      apply logs_pure
      rw [List.append_nil, ended_append]
      exact iff_of_true rfl (.inr hnew')
    case isFalse hmsb =>
    have hnot : ¬ Ended new := fun hended => hmsb (hnew hended)
    split
    · apply Logs.bind (logs_devread ..)
      intro r new' hnew'
      have hnew' := hnew'.ended_iff (by decide)
      split
      case isTrue hfalse =>
        apply logs_pure
        rw [List.append_nil, ended_append, hnew']
        exact iff_of_true rfl (.inr hfalse)
      case isFalse htrue =>
        apply (ih ..).mono
        intro r' new'' h
        rw [h, ended_append, ended_append, hnew', or_iff_right htrue, or_iff_right hnot]
    · apply (ih ..).mono
      intro r' new' h
      rw [h, ended_append, or_iff_right hnot]

/-! ### The function -/

/-- A read that fails and that nobody notices: of less than a sector from the beginning of one, or
for the pointers of the indirect block. -/
def Event.Unnoticed : Event → Prop
  | .read purpose piece count bytes =>
    bytes.length ≠ sectorSize * count ∧ (piece = .small ∨ purpose = .indirect)
  | _ => False

/-- A read that fails is noticed or not. -/
theorem Event.Short.cases {e : Event} (h : e.Short) :
  e.Unnoticed ∨ e.Ends
  := by
  cases e with
  | read purpose piece count bytes =>
    by_cases hkind : piece = .small ∨ purpose = .indirect
    · exact .inl ⟨h, hkind⟩
    · rw [not_or] at hkind
      refine .inr ⟨⟨hkind.1, h⟩, ?_⟩
      intro hsome
      exact hkind.2 (Option.some.inj hsome)
  | outside purpose => exact h.elim
  | nowhere => exact h.elim

theorem Event.Unnoticed.short {e : Event} (h : e.Unnoticed) :
  e.Short
  := by
  cases e with
  | read purpose piece count bytes => exact h.1
  | outside purpose => exact h.elim
  | nowhere => exact h.elim

/-- What is returned. -/
theorem logs_readFile (s : State) (f : File) (pos len : ℕ) (malloc : Mallocs)
    (mem : ℕ → Byte) :
  Logs (readFile io s f pos len malloc mem) fun r new =>
    r.2.2 = -1 ↔ Ended new ∨ min len f.size.toNat = 2 ^ 32 - 1
  := by
  have hsize := f.size.isLt
  rw [readFile]
  dsimp only
  apply Logs.bind (logs_readFileLoop ..)
  intro r new hnew
  apply logs_pure
  rw [List.append_nil, ← hnew]
  dsimp only
  split
  case isTrue htrue =>
    rw [htrue, or_iff_right Bool.true_eq_false.mp, ← BitVec.toNat_inj, BitVec.toNat_ofNat,
      Nat.mod_eq_of_lt (by omega)]
    rfl
  case isFalse hfalse =>
    rw [Bool.not_eq_true] at hfalse
    exact iff_of_true rfl (.inl hfalse)

variable (io)

/-- When a read fails, -1 is returned. -/
def Reports (s : State) (f : File) (pos len : ℕ) (malloc : Mallocs) (mem : ℕ → Byte) : Prop :=
  (∃ e ∈ events (readFile io s f pos len malloc mem), e.Short) →
    (readFile io s f pos len malloc mem []).1.2.2 = -1

/-- **`ext2fs_read_file` reports reads that fail** if and only if, whenever a read fails that nobody
notices, something else ends the call, or all 2 ^ 32 - 1 bytes of a file are asked for. -/
theorem reports_iff (s : State) (f : File) (pos len : ℕ) (malloc : Mallocs) (mem : ℕ → Byte) :
  Reports io s f pos len malloc mem
    ↔ ∀ e ∈ events (readFile io s f pos len malloc mem), e.Unnoticed →
      Ended (events (readFile io s f pos len malloc mem))
        ∨ min len f.size.toNat = 2 ^ 32 - 1
  := by
  have hret := (@logs_readFile io s f pos len malloc mem).events
  rw [Reports, hret]
  constructor
  · intro h e he hunnoticed
    exact h ⟨e, he, hunnoticed.short⟩
  · rintro h ⟨e, he, hshort⟩
    obtain hunnoticed | hends := hshort.cases
    · exact h e he hunnoticed
    · exact .inl ⟨e, he, hends⟩

end Errors

/-- Ten bytes are returned that were not read. -/
theorem not_reports_small :
  ¬ ∀ (io : Answers) (s : State) (f : File) (pos len : ℕ) (malloc : Mallocs) (mem : ℕ → Byte),
    Reports io s f pos len malloc mem
  := by
  intro h
  have hevents : events (readFile (fun _ _ _ => []) (init numbered) shortFile 0 10
      (fun _ => (none, none)) fun _ => 0) = [.read .data .small 1 []] := rfl
  have hshort : ([] : List Byte).length ≠ sectorSize * 1 := by decide
  have hret := h (fun _ _ _ => []) (init numbered) shortFile 0 10 (fun _ => (none, none))
    (fun _ => 0) (hevents ▸ ⟨_, List.mem_singleton_self _, hshort⟩)
  revert hret
  decide +kernel

end Watched

end Ext2
