import UBoot.Disk.PartAmiga
import UBoot.Boot.Bootblocks

/-!
# Two ways to boot from a hard disk

`board/ACube/common/cmd_bootu.c` loads the second level bootloader too, from the chain of blocks
that the rigid disk block names.  It copies blocks as `cmd_boota.c` does, but does not look at them
before.
-/

namespace Bootu

open Boota

/-! ### The function -/

/-- `BOOTLOADER_MAX_BUFFER`. -/
def bootloaderMaxBuffer : ℕ := 128 * 1024

/-- The block buffer after a block was read; nobody looks at whether the read failed. -/
def image (disk : Disk) (blockbuffer : ℕ → Byte) (next : Word) : ℕ → Byte :=
  Memory.store blockbuffer 0 ((disk.read next).getD [])

/-- `chunklen`, in long words. -/
def chunklen (image : ℕ → Byte) : Word :=
  bcbSummedLongs image - BitVec.ofNat 32 (headerInfoSize / 4)

/-- What is copied of a block. -/
def chunk (image : ℕ → Byte) : List Byte :=
  Memory.read image headerInfoSize (chunklen image <<< 2).toNat

/-- The loop of `do_bootu_amiga_hd`, for at most `fuel` rounds: what is written to the buffer for
the bootloader and where, and if the loop has ended. -/
def copyLoop (disk : Disk) : ℕ → (ℕ → Byte) → Word → Word → List (Word × List Byte) × Bool
  | 0, _, _, _ => ([], false)
  | fuel + 1, blockbuffer, next, current =>
    let blockbuffer := image disk blockbuffer next
    let write := (current, chunk blockbuffer)
    if bcbNext blockbuffer ≠ unusedBlockAddress then
      let rest := copyLoop disk fuel blockbuffer (bcbNext blockbuffer)
        (current + chunklen blockbuffer <<< 2)
      (write :: rest.1, rest.2)
    else ([write], true)

/-- `do_bootu_amiga_hd`, with the buffers of `get_rdisk` and of the loop: nothing if there is no
rigid disk block. -/
def doBootuAmigaHd (disk : Disk) (limit : ℕ) (rdbBuffer blockbuffer : ℕ → Byte) (fuel : ℕ) :
    Except PartAmiga.Fault (Option (List (Word × List Byte) × Bool)) := do
  let rdb ← PartAmiga.getRdisk disk limit rdbBuffer
  .ok (rdb.1.map fun rdb => copyLoop disk fuel blockbuffer (PartAmiga.bootcodeBlock rdb) 0)

/-! ### What it should do -/

/-- The bytes that are written. -/
def bytes (writes : List (Word × List Byte)) : List Byte := writes.flatMap Prod.snd

/-- `boota` rejects the chain from a block on, by an id, a number of long words or a checksum. -/
def Rejects (disk : Disk) (blockbuffer : ℕ → Byte) (start : Word) : Prop :=
  ∃ fuel r n, secondaryBootloaderLength disk (BitVec.ofNat 16 disk.blksz) fuel blockbuffer start 0
    = some r ∧ r.status = readSyntaxErr ||| n

/-- The two commands, on the same disk, with whatever is in the buffers of `get_rdisk` and of
`do_boota`.  A block has room for its header, and in the buffer of `do_boota` there is room for a
block. -/
structure Boot where
  disk : Disk
  limit : ℕ
  rdbBuffer : ℕ → Byte
  bootaBuffer : ℕ → Byte
  header_le : headerInfoSize ≤ disk.blksz
  blksz_le : disk.blksz ≤ maxBlocksize

/-- `do_bootu_amiga_hd` after so many rounds. -/
def Boot.bootu (b : Boot) (blockbuffer : ℕ → Byte) (fuel : ℕ) :
    Except PartAmiga.Fault (Option (List (Word × List Byte) × Bool)) :=
  doBootuAmigaHd b.disk b.limit b.rdbBuffer blockbuffer fuel

/-- The case of a hard disk in `do_boota`. -/
def Boot.boota (b : Boot) (fuel : ℕ) : Option (Word × List (Word × List Byte)) :=
  doBootaHarddisk b.disk b.disk.blksz fuel b.bootaBuffer

/-- The block where `do_bootu_amiga_hd` begins. -/
def Boot.Begins (b : Boot) (start : Word) : Prop :=
  ∃ rdb buffer, PartAmiga.getRdisk b.disk b.limit b.rdbBuffer = .ok (some rdb, buffer)
    ∧ start = PartAmiga.bootcodeBlock rdb

/-- Both commands load the same, in the buffer there is room for what is written, and a chain that
`boota` rejects is not loaded: whatever `malloc` leaves in the block buffer. -/
structure Boot.Agree (b : Boot) : Prop where
  same : ∀ fuel len writes, b.boota fuel = some (len, writes) → ∀ blockbuffer,
    ∃ fuel' writes', b.bootu blockbuffer fuel' = .ok (some (writes', true))
      ∧ bytes writes' = bytes writes
  room : ∀ blockbuffer fuel writes ended,
    b.bootu blockbuffer fuel = .ok (some (writes, ended)) →
    ∀ w ∈ writes, w.1.toNat + w.2.length ≤ bootloaderMaxBuffer
  rejects : ∀ start, b.Begins start → Rejects b.disk b.bootaBuffer start →
    ∀ blockbuffer fuel, b.bootu blockbuffer fuel = .ok none

/-! ### The condition -/

/-- A good block has room for its header, and in the buffer there is room for the payloads up to
it. -/
structure Fits (images : List (ℕ → Byte)) (image : ℕ → Byte) : Prop where
  longs : 5 ≤ (bcbSummedLongs image).toNat
  room : ((images ++ [image]).flatMap payload).length ≤ bootloaderMaxBuffer

/-- A block that cannot be read comes behind a block without a payload, which is then copied for
ever. -/
structure Stuck (disk : Disk) (images : List (ℕ → Byte)) (n : Word) : Prop where
  unread : disk.read n = none
  empty : ∃ last, images.getLast? = some last ∧ (bcbSummedLongs last).toNat = 5

/-- The condition.  From `bootcode_block` on, good blocks lead to good blocks only, whose payloads
there is room for.  If the chain from the first good block on is one of good blocks, then none of
them is too short for its header, and `bootcode_block` is that block, or one whose chain has the
same payload. -/
structure Boot.Fine (b : Boot) : Prop where
  good : ∀ start, b.Begins start → ∀ images n, Walk b.disk start images n →
    (∃ image, GoodBlock b.disk n image ∧ Fits images image) ∨ Stuck b.disk images n
  first : ∀ first buffer images,
    findSecondaryBootloaderStartHD b.disk b.disk.blksz b.bootaBuffer = some (first, buffer) →
    BootChain b.disk first images →
    (∀ image ∈ images, 5 ≤ (bcbSummedLongs image).toNat)
      ∧ ∃ start, b.Begins start ∧ (start = first ∨ ∃ images', BootChain b.disk start images'
        ∧ images'.flatMap payload = images.flatMap payload)

/-! ### What is copied -/

theorem length_chunk (image : ℕ → Byte) :
  (chunk image).length = (chunklen image <<< 2).toNat
  := Memory.length_read _ _ _

theorem chunk_eq_payload {image : ℕ → Byte} (hlongs : 5 ≤ (bcbSummedLongs image).toNat)
    (hmax : (bcbSummedLongs image).toNat < 2 ^ 14) :
  chunk image = payload image
  := by
  have hlength : (chunklen image <<< 2).toNat = (bcbSummedLongs image).toNat * 4 - headerInfoSize
    := by
    rw [chunklen, headerInfoSize, BitVec.toNat_shiftLeft, BitVec.toNat_sub, BitVec.toNat_ofNat,
      Nat.shiftLeft_eq]
    omega
  rw [chunk, payload, hlength]

/-- What is copied of a block that has room for its header, with any buffer. -/
theorem chunk_store (buf : ℕ → Byte) {block : List Byte} (hheader : headerInfoSize ≤ block.length)
    (hmax : block.length ≤ maxBlocksize)
    (hle : (bcbSummedLongs (blockOf block)).toNat ≤ block.length / 4)
    (hlongs : 5 ≤ (bcbSummedLongs (blockOf block)).toNat) :
  chunk (Memory.store buf 0 block) = payload (blockOf block)
  := by
  have hsummed := bcbSummedLongs_store buf hheader
  have hshort : (bcbSummedLongs (Memory.store buf 0 block)).toNat < 2 ^ 14 := by
    rw [hsummed]
    rw [maxBlocksize] at hmax
    omega
  rw [chunk_eq_payload (by rwa [hsummed]) hshort, payload, payload, hsummed]
  apply read_store_congr
  rw [headerInfoSize]
  omega

/-- A block that is too short for its header is copied nearly as often as there are bytes. -/
theorem longs_of_length_chunk {image : ℕ → Byte} (h : (chunk image).length ≤ bootloaderMaxBuffer) :
  5 ≤ (bcbSummedLongs image).toNat
  := by
  rw [length_chunk, chunklen, headerInfoSize, bootloaderMaxBuffer, BitVec.toNat_shiftLeft,
    BitVec.toNat_sub, BitVec.toNat_ofNat, Nat.shiftLeft_eq] at h
  omega

/-- The next chunk is written behind a chunk in the buffer. -/
theorem toNat_add_chunklen {current : Word} {image : ℕ → Byte}
    (h : current.toNat + (chunk image).length ≤ bootloaderMaxBuffer) :
  (current + chunklen image <<< 2).toNat = current.toNat + (chunk image).length
  := by
  rw [BitVec.toNat_add, ← length_chunk, Nat.mod_eq_of_lt]
  exact Nat.lt_of_le_of_lt h (by decide)

section Loop

variable {disk : Disk} {blockbuffer : ℕ → Byte} {next current : Word}

/-- One round of the loop. -/
theorem copyLoop_succ (fuel : ℕ) :
  copyLoop disk (fuel + 1) blockbuffer next current
    = if bcbNext (image disk blockbuffer next) ≠ unusedBlockAddress then
        ((current, chunk (image disk blockbuffer next))
          :: (copyLoop disk fuel (image disk blockbuffer next)
            (bcbNext (image disk blockbuffer next))
            (current + chunklen (image disk blockbuffer next) <<< 2)).1,
        (copyLoop disk fuel (image disk blockbuffer next)
          (bcbNext (image disk blockbuffer next))
          (current + chunklen (image disk blockbuffer next) <<< 2)).2)
      else ([(current, chunk (image disk blockbuffer next))], true)
  := rfl

/-- The first chunk is written to where the loop begins. -/
theorem head_mem_copyLoop (fuel : ℕ) :
  (current, chunk (image disk blockbuffer next))
    ∈ (copyLoop disk (fuel + 1) blockbuffer next current).1
  := by
  rw [copyLoop_succ]
  split
  · exact List.mem_cons_self
  · exact List.mem_singleton_self _

/-- In the buffer there is room for every chunk, as far as the loop goes. -/
def Room (disk : Disk) (blockbuffer : ℕ → Byte) (next current : Word) : Prop :=
  ∀ fuel, ∀ w ∈ (copyLoop disk fuel blockbuffer next current).1,
    w.1.toNat + w.2.length ≤ bootloaderMaxBuffer

/-- There is room for this chunk and for the next ones. -/
theorem room_iff :
  Room disk blockbuffer next current
    ↔ current.toNat + (chunk (image disk blockbuffer next)).length ≤ bootloaderMaxBuffer
      ∧ (bcbNext (image disk blockbuffer next) ≠ unusedBlockAddress →
        Room disk (image disk blockbuffer next) (bcbNext (image disk blockbuffer next))
          (current + chunklen (image disk blockbuffer next) <<< 2))
  := by
  constructor
  · intro h
    refine ⟨h 1 _ (head_mem_copyLoop 0), fun hnext fuel w hw => h (fuel + 1) w ?_⟩
    rw [copyLoop_succ, if_pos hnext]
    exact List.mem_cons_of_mem _ hw
  · rintro ⟨hhead, hrest⟩ fuel w hw
    cases fuel with
    | zero => exact absurd hw List.not_mem_nil
    | succ fuel =>
      rw [copyLoop_succ] at hw
      split at hw
      case isTrue hnext =>
        obtain rfl | hw := List.mem_cons.mp hw
        · exact hhead
        · exact hrest hnext fuel w hw
      case isFalse =>
        rwa [List.mem_singleton.mp hw]

/-- A block that cannot be read leaves the one before it in the buffer. -/
theorem image_of_unread (hread : disk.read next = none) :
  image disk blockbuffer next = blockbuffer
  := by
  rw [image, hread]
  rfl

/-- The same block is copied again and again: there is room only if it is empty. -/
theorem room_stuck_iff (hread : disk.read next = none) (hnext : bcbNext blockbuffer = next)
    (hused : next ≠ unusedBlockAddress) :
  Room disk blockbuffer next current
    ↔ current.toNat ≤ bootloaderMaxBuffer ∧ (chunk blockbuffer).length = 0
  := by
  constructor
  · intro h
    have hrounds : ∀ k, ∃ current', Room disk blockbuffer next current'
        ∧ current'.toNat = current.toNat + k * (chunk blockbuffer).length := by
      intro k
      induction k with
      | zero => exact ⟨current, h, by rw [Nat.zero_mul, Nat.add_zero]⟩
      | succ k ih =>
        obtain ⟨current', hroom, hcurrent⟩ := ih
        rw [room_iff, image_of_unread hread, hnext] at hroom
        refine ⟨_, hroom.2 hused, ?_⟩
        rw [toNat_add_chunklen hroom.1, hcurrent, Nat.succ_mul, Nat.add_assoc]
    refine ⟨?_, ?_⟩
    · exact le_trans (Nat.le_add_right _ _) (room_iff.mp h).1
    · by_contra hne
      obtain ⟨current', hroom, hcurrent⟩ := hrounds (bootloaderMaxBuffer + 1)
      have hle := le_trans (Nat.le_add_right _ _) (room_iff.mp hroom).1
      rw [hcurrent] at hle
      have hpos := Nat.le_mul_of_pos_right (bootloaderMaxBuffer + 1) (Nat.pos_of_ne_zero hne)
      omega
  · rintro ⟨hcurrent, hempty⟩ fuel
    have hstay : current + chunklen blockbuffer <<< 2 = current := by
      apply BitVec.eq_of_toNat_eq
      rw [toNat_add_chunklen (by rwa [hempty]), hempty, Nat.add_zero]
    induction fuel with
    | zero => exact fun w hw => absurd hw List.not_mem_nil
    | succ fuel ih =>
      intro w hw
      rw [copyLoop_succ, image_of_unread hread, hnext, if_pos hused, hstay] at hw
      obtain rfl | hw := List.mem_cons.mp hw
      · rwa [hempty]
      · exact ih w hw

/-- There the loop does not end. -/
theorem copyLoop_stuck (hread : disk.read next = none) (hnext : bcbNext blockbuffer = next)
    (hused : next ≠ unusedBlockAddress) (fuel : ℕ) :
  (copyLoop disk fuel blockbuffer next current).2 = false
  := by
  induction fuel generalizing current with
  | zero => rfl
  | succ fuel ih =>
    rw [copyLoop_succ, image_of_unread hread, hnext, if_pos hused]
    exact ih

end Loop

/-! ### Along a walk -/

section Along

variable {disk : Disk} {start n current : Word} {images : List (ℕ → Byte)}
  {blockbuffer block : ℕ → Byte}

/-- What is found in the buffer of a good block. -/
theorem image_of_good (hheader : headerInfoSize ≤ disk.blksz) (hmax : disk.blksz ≤ maxBlocksize)
    (h : GoodBlock disk n block) (blockbuffer : ℕ → Byte) :
  bcbNext (image disk blockbuffer n) = bcbNext block
    ∧ bcbSummedLongs (image disk blockbuffer n) = bcbSummedLongs block
    ∧ (5 ≤ (bcbSummedLongs block).toNat → chunk (image disk blockbuffer n) = payload block)
  := by
  have hle := h.summedLongs_le
  obtain ⟨bytes, hread, rfl, _⟩ := h
  have himage : image disk blockbuffer n = Memory.store blockbuffer 0 bytes := by
    rw [image, hread, Option.getD_some]
  rw [← disk.length_read n bytes hread] at hheader hmax hle
  rw [himage]
  exact ⟨bcbNext_store blockbuffer hheader, bcbSummedLongs_store blockbuffer hheader,
    chunk_store blockbuffer hheader hmax hle⟩

/-- The loop comes to a block along a walk: the payloads are before `current`, and the last block
is still in the buffer. -/
structure Along (disk : Disk) (start : Word) (images : List (ℕ → Byte)) (blockbuffer : ℕ → Byte)
    (n current : Word) : Prop where
  walk : Walk disk start images n
  current_eq : current.toNat = (images.flatMap payload).length
  buffer : ∀ last, images.getLast? = some last → n ≠ unusedBlockAddress ∧ bcbNext blockbuffer = n
    ∧ 5 ≤ (bcbSummedLongs last).toNat ∧ chunk blockbuffer = payload last

theorem along_start (blockbuffer : ℕ → Byte) :
  Along disk start [] blockbuffer start 0
  := ⟨.here, rfl, fun _ h => nomatch h⟩

/-- One good block further. -/
theorem Along.next (hheader : headerInfoSize ≤ disk.blksz) (hmax : disk.blksz ≤ maxBlocksize)
    (h : Along disk start images blockbuffer n current) (hgood : GoodBlock disk n block)
    (hnext : bcbNext block ≠ unusedBlockAddress) (hlongs : 5 ≤ (bcbSummedLongs block).toNat)
    (hroom : current.toNat + (payload block).length ≤ bootloaderMaxBuffer) :
  Along disk start (images ++ [block]) (image disk blockbuffer n) (bcbNext block)
    (current + chunklen (image disk blockbuffer n) <<< 2)
  := by
  obtain ⟨himageNext, _, hchunk⟩ := image_of_good hheader hmax hgood blockbuffer
  refine ⟨h.walk.next hgood hnext, ?_, ?_⟩
  · rw [toNat_add_chunklen (by rwa [hchunk hlongs]), hchunk hlongs, h.current_eq,
      List.flatMap_append, List.length_append, List.flatMap_singleton]
  · intro last hlast
    rw [List.getLast?_concat] at hlast
    obtain rfl := Option.some.inj hlast
    exact ⟨hnext, himageNext, hlongs, hchunk hlongs⟩

/-- The payload of a block that fits is written into the buffer. -/
theorem Along.fits (h : Along disk start images blockbuffer n current) (hfits : Fits images block) :
  current.toNat + (payload block).length ≤ bootloaderMaxBuffer
  := by
  rw [h.current_eq, ← List.length_append]
  have hroom := hfits.room
  rwa [List.flatMap_append, List.flatMap_singleton] at hroom

/-- Where there is room for what the loop writes, good blocks fit. -/
theorem fits_of_room (hheader : headerInfoSize ≤ disk.blksz) (hmax : disk.blksz ≤ maxBlocksize)
    (h : Along disk start images blockbuffer n current) (hroom : Room disk blockbuffer n current)
    (hgood : GoodBlock disk n block) :
  Fits images block
  := by
  obtain ⟨_, hsummed, hchunk⟩ := image_of_good hheader hmax hgood blockbuffer
  have hhead := (room_iff.mp hroom).1
  have hlongs := longs_of_length_chunk (le_trans (Nat.le_add_left _ _) hhead)
  rw [hsummed] at hlongs
  rw [hchunk hlongs, h.current_eq] at hhead
  refine ⟨hlongs, ?_⟩
  rwa [List.flatMap_append, List.length_append, List.flatMap_singleton]

/-- The loop goes along the walks if there is room for what it writes. -/
theorem along_of_walk (hheader : headerInfoSize ≤ disk.blksz) (hmax : disk.blksz ≤ maxBlocksize)
    (h : Walk disk start images n) (hroom : Room disk blockbuffer start 0) :
  ∃ blockbuffer' current, Along disk start images blockbuffer' n current
    ∧ Room disk blockbuffer' n current ∧ (images = [] → blockbuffer' = blockbuffer)
  := by
  induction h with
  | here => exact ⟨blockbuffer, 0, along_start blockbuffer, hroom, fun _ => rfl⟩
  | @next images n block _ hgood hnext ih =>
    obtain ⟨blockbuffer', current, halong, hroom, _⟩ := ih
    have hfits := fits_of_room hheader hmax halong hroom hgood
    have himageNext := (image_of_good hheader hmax hgood blockbuffer').1
    have hrest := (room_iff.mp hroom).2
    rw [himageNext] at hrest
    refine ⟨_, _, halong.next hheader hmax hgood hnext hfits.longs (halong.fits hfits),
      hrest hnext, fun hnil => ?_⟩
    exact absurd hnil (List.append_ne_nil_of_right_ne_nil _ (List.cons_ne_nil _ _))

/-- What the condition says of the blocks from a block on. -/
def GoodFrom (disk : Disk) (start : Word) : Prop :=
  ∀ images n, Walk disk start images n →
    (∃ block, GoodBlock disk n block ∧ Fits images block) ∨ Stuck disk images n

theorem GoodFrom.fits (h : GoodFrom disk start) (hwalk : Walk disk start images n)
    (hgood : GoodBlock disk n block) :
  Fits images block
  := by
  obtain ⟨bytes, hread, rfl, _⟩ := hgood
  obtain ⟨_, ⟨bytes', hread', rfl, _⟩, hfits⟩ | hstuck := h images n hwalk
  · rwa [Option.some.inj (hread.symm.trans hread')]
  · exact absurd (hread.symm.trans hstuck.unread) (Option.some_ne_none bytes)

/-- A block that cannot be read, along a walk. -/
theorem Along.stuck (h : Along disk start images blockbuffer n current)
    (hstuck : Stuck disk images n) :
  n ≠ unusedBlockAddress ∧ bcbNext blockbuffer = n ∧ (chunk blockbuffer).length = 0
  := by
  obtain ⟨last, hlast, hempty⟩ := hstuck.empty
  obtain ⟨hused, hnext, _, hchunk⟩ := h.buffer last hlast
  refine ⟨hused, hnext, ?_⟩
  rw [hchunk, length_payload, hempty, headerInfoSize]

/-- **There is room** for what is written along the walks. -/
theorem Along.room (hheader : headerInfoSize ≤ disk.blksz) (hmax : disk.blksz ≤ maxBlocksize)
    (hfine : GoodFrom disk start) (h : Along disk start images blockbuffer n current)
    (hcurrent : current.toNat ≤ bootloaderMaxBuffer) :
  Room disk blockbuffer n current
  := by
  intro fuel
  induction fuel generalizing images blockbuffer n current with
  | zero => exact fun w hw => absurd hw List.not_mem_nil
  | succ fuel ih =>
    obtain ⟨block, hgood, hfits⟩ | hstuck := hfine images n h.walk
    · obtain ⟨himageNext, _, hchunk⟩ := image_of_good hheader hmax hgood blockbuffer
      have hroom := h.fits hfits
      intro w hw
      rw [copyLoop_succ] at hw
      split at hw
      case isTrue hnext =>
        obtain rfl | hw := List.mem_cons.mp hw
        · rwa [hchunk hfits.longs]
        · rw [himageNext] at hnext hw
          have hrest := h.next hheader hmax hgood hnext hfits.longs hroom
          apply ih hrest _ w hw
          rw [hrest.current_eq, List.flatMap_append, List.length_append, ← h.current_eq,
            List.flatMap_singleton]
          exact hroom
      case isFalse =>
        rw [List.mem_singleton.mp hw]
        rwa [hchunk hfits.longs]
    · obtain ⟨hused, hnext, hempty⟩ := h.stuck hstuck
      exact (room_stuck_iff hstuck.unread hnext hused).mpr ⟨hcurrent, hempty⟩ (fuel + 1)

/-- A loop that ends has copied a chain of good blocks. -/
theorem Along.bootChain (hheader : headerInfoSize ≤ disk.blksz) (hmax : disk.blksz ≤ maxBlocksize)
    (hfine : GoodFrom disk start) (h : Along disk start images blockbuffer n current) {fuel : ℕ}
    (hended : (copyLoop disk fuel blockbuffer n current).2 = true) :
  ∃ rest, BootChain disk start (images ++ rest)
    ∧ bytes (copyLoop disk fuel blockbuffer n current).1 = rest.flatMap payload
  := by
  induction fuel generalizing images blockbuffer n current with
  | zero => cases hended
  | succ fuel ih =>
    obtain ⟨block, hgood, hfits⟩ | hstuck := hfine images n h.walk
    · obtain ⟨himageNext, _, hchunk⟩ := image_of_good hheader hmax hgood blockbuffer
      rw [copyLoop_succ] at hended ⊢
      rw [himageNext] at hended ⊢
      by_cases hnext : bcbNext block = unusedBlockAddress
      · rw [if_neg (not_not.mpr hnext)]
        refine ⟨[block], ⟨images, n, block, h.walk, hgood, hnext, rfl⟩, ?_⟩
        rw [bytes, List.flatMap_singleton, List.flatMap_singleton, hchunk hfits.longs]
      · rw [if_pos hnext] at hended ⊢
        obtain ⟨rest, hchain, hbytes⟩ :=
          ih (h.next hheader hmax hgood hnext hfits.longs (h.fits hfits)) hended
        rw [List.append_assoc] at hchain
        refine ⟨block :: rest, hchain, ?_⟩
        rw [bytes, List.flatMap_cons, List.flatMap_cons, hchunk hfits.longs, ← hbytes]
        rfl
    · obtain ⟨hused, hnext, _⟩ := h.stuck hstuck
      rw [copyLoop_stuck hstuck.unread hnext hused] at hended
      cases hended

end Along

/-! ### What `boota` does -/

section Boota

variable {disk : Disk} {blocksize : BitVec 16} {blockbuffer buf : ℕ → Byte} {start : Word}

/-- What `load_secondary_bootloader` writes. -/
theorem bytes_load_of_chain {images : List (ℕ → Byte)} {fuel : ℕ} {current : Word}
    {writes : List (Word × List Byte)} (h : Chain disk blocksize blockbuffer start images)
    (halike : Alike disk buf blockbuffer)
    (hload : loadSecondaryBootloader disk blocksize fuel buf start current = some writes) :
  bytes writes = images.flatMap chunk
  := by
  induction h generalizing fuel buf current writes with
  | @last blockbuffer n block hread hnext =>
    cases fuel with
    | zero => cases hload
    | succ fuel =>
      rw [loadSecondaryBootloader, hread, Option.getD_some,
        halike.store_eq (length_of_block hread)] at hload
      rw [if_neg (not_not.mpr hnext)] at hload
      obtain rfl := Option.some.inj hload
      rfl
  | @next blockbuffer n block images hread hnext _ ih =>
    cases fuel with
    | zero => cases hload
    | succ fuel =>
      rw [loadSecondaryBootloader, hread, Option.getD_some,
        halike.store_eq (length_of_block hread)] at hload
      rw [if_pos hnext] at hload
      obtain ⟨rest, hrest, rfl⟩ := Option.map_eq_some_iff.mp hload
      rw [List.flatMap_cons, ← ih (fun _ _ => rfl) hrest]
      rfl

/-- The length of a chain of good blocks is found. -/
theorem length_of_chain {images : List (ℕ → Byte)} {res : Word}
    (h : Chain disk blocksize blockbuffer start images)
    (hgood : ∀ image ∈ images, isGoodBootsector image blocksize.toNat) :
  ∃ fuel r len, secondaryBootloaderLength disk blocksize fuel blockbuffer start res = some r
    ∧ r.status = loadOk ∧ r.destLen = some len
  := by
  induction h generalizing res with
  | @last blockbuffer n block hread hnext =>
    use 1
    rw [secondaryBootloaderLength, hread]
    dsimp only
    rw [if_neg (not_not.mpr (hgood _ List.mem_cons_self)), if_neg (not_not.mpr hnext)]
    exact ⟨_, _, rfl, rfl, rfl⟩
  | @next blockbuffer n block images hread hnext _ ih =>
    obtain ⟨fuel, hfuel⟩ := @ih (res + 1) fun image himage =>
      hgood image (List.mem_cons_of_mem _ himage)
    use fuel + 1
    rw [secondaryBootloaderLength, hread]
    dsimp only
    rw [if_neg (not_not.mpr (hgood _ List.mem_cons_self)), if_pos hnext]
    exact hfuel

theorem readError_ne_readSyntaxErr (n m : Word) :
  readError ||| (n &&& 0xffff) ≠ readSyntaxErr ||| m
  := by
  intro h
  have hbit := congrArg (fun w : Word => w.getLsbD 17) h
  simp [readError, readSyntaxErr] at hbit

/-- The blocks that good blocks lead to are good, where the first walk does not stop. -/
theorem exists_bad_of_length {fuel : ℕ} {res n : Word} {r : Length}
    (halike : Alike disk buf blockbuffer)
    (h : secondaryBootloaderLength disk blocksize fuel buf start res = some r)
    (hstatus : r.status = readSyntaxErr ||| n) :
  ∃ m block, Relation.ReflTransGen (BlockLink disk blocksize blockbuffer) start m
    ∧ loadsector disk m blocksize.toNat = some block
    ∧ ¬ isGoodBootsector (Memory.store blockbuffer 0 block) blocksize.toNat
  := by
  induction fuel generalizing buf start res with
  | zero => cases h
  | succ fuel ih =>
    rw [secondaryBootloaderLength] at h
    cases hread : loadsector disk start blocksize.toNat with
    | none =>
      rw [hread] at h
      obtain rfl := Option.some.inj h
      exact absurd hstatus (readError_ne_readSyntaxErr _ _)
    | some block =>
      rw [hread] at h
      dsimp only at h
      rw [halike.store_eq (length_of_block hread)] at h
      by_cases hgood : isGoodBootsector (Memory.store blockbuffer 0 block) blocksize.toNat
      case neg => exact ⟨start, block, .refl, hread, hgood⟩
      rw [if_neg (not_not.mpr hgood)] at h
      by_cases hnext : bcbNext (Memory.store blockbuffer 0 block) = unusedBlockAddress
      · rw [if_neg (not_not.mpr hnext)] at h
        obtain rfl := Option.some.inj h
        exact absurd hstatus.symm (readSyntaxErr_or_ne n)
      · rw [if_pos hnext] at h
        obtain ⟨m, bad, hlink, hbad⟩ := ih (alike_image hread) h
        exact ⟨m, bad, .head ⟨block, hread, hgood, hnext, rfl⟩ hlink, hbad⟩

/-- A block that is not good stops the first walk. -/
theorem length_of_bad {m : Word} {block : List Byte}
    (hlink : Relation.ReflTransGen (BlockLink disk blocksize blockbuffer) start m)
    (hread : loadsector disk m blocksize.toNat = some block)
    (hbad : ¬ isGoodBootsector (Memory.store blockbuffer 0 block) blocksize.toNat)
    (halike : Alike disk buf blockbuffer) (res : Word) :
  ∃ fuel r n, secondaryBootloaderLength disk blocksize fuel buf start res = some r
    ∧ r.status = readSyntaxErr ||| n
  := by
  induction hlink using Relation.ReflTransGen.head_induction_on generalizing buf res with
  | refl =>
    use 1
    rw [secondaryBootloaderLength, hread]
    dsimp only
    rw [halike.store_eq (length_of_block hread), if_pos hbad]
    exact ⟨_, _, rfl, rfl⟩
  | @head n _ hlink _ ih =>
    obtain ⟨first, hfirst, hgood, hnext, rfl⟩ := hlink
    obtain ⟨fuel, hfuel⟩ := ih (alike_image hfirst) (res + 1)
    use fuel + 1
    rw [secondaryBootloaderLength, hfirst]
    dsimp only
    rw [halike.store_eq (length_of_block hfirst), if_neg (not_not.mpr hgood), if_pos hnext]
    exact hfuel

end Boota

theorem rejects_iff (disk : Disk) (blockbuffer : ℕ → Byte) (start : Word) :
  Rejects disk blockbuffer start
    ↔ ∃ n block,
      Relation.ReflTransGen (BlockLink disk (BitVec.ofNat 16 disk.blksz) blockbuffer) start n
      ∧ loadsector disk n (BitVec.ofNat 16 disk.blksz).toNat = some block
      ∧ ¬ isGoodBootsector (Memory.store blockbuffer 0 block) (BitVec.ofNat 16 disk.blksz).toNat
  := by
  constructor
  · rintro ⟨fuel, r, n, h, hstatus⟩
    exact exists_bad_of_length (fun _ _ => rfl) h hstatus
  · rintro ⟨n, block, hlink, hread, hbad⟩
    exact length_of_bad hlink hread hbad (fun _ _ => rfl) 0

/-! ### Both commands -/

section Both

variable {b : Boot}

theorem Boot.toNat_blksz (b : Boot) :
  (BitVec.ofNat 16 b.disk.blksz).toNat = b.disk.blksz
  := by
  rw [BitVec.toNat_ofNat]
  exact Nat.mod_eq_of_lt (lt_of_le_of_lt b.blksz_le (by decide))

/-- A good chain is loaded by `boota`. -/
theorem boota_of_chain {first : Word} {buffer : ℕ → Byte} {images : List (ℕ → Byte)}
    (hfind : findSecondaryBootloaderStartHD b.disk b.disk.blksz b.bootaBuffer
      = some (first, buffer))
    (h : Accepted b.disk (BitVec.ofNat 16 b.disk.blksz) buffer first images) :
  ∃ fuel len writes, b.boota fuel = some (len, writes) ∧ bytes writes = images.flatMap chunk
  := by
  obtain ⟨fuel, r, len, hlength, hok, hlen⟩ := @length_of_chain _ _ _ _ _ 0 h.1 h.2
  have halike : Alike b.disk r.blockbuffer buffer := alike_of_length (fun _ _ => rfl) hlength
  obtain ⟨writes, hload⟩ := Option.isSome_iff_exists.mp
    (@isSome_load_of_length _ _ _ _ _ _ _ _ 0 _ (fun _ _ => rfl) halike hlength hok)
  use fuel, len, writes
  refine ⟨?_, bytes_load_of_chain h.1 halike hload⟩
  rw [Boot.boota, doBootaHarddisk, hfind]
  change (secondaryBootloaderLength _ _ _ _ _ _ >>= fun r => _) = _
  rw [hlength]
  change (r.destLen >>= fun len => _) = _
  rw [hlen]
  change (if r.status = loadOk then _ else _) = _
  rw [if_pos hok, hload]
  rfl

theorem bootu_of_begins {start : Word} (h : b.Begins start) (blockbuffer : ℕ → Byte) (fuel : ℕ) :
  b.bootu blockbuffer fuel = .ok (some (copyLoop b.disk fuel blockbuffer start 0))
  := by
  obtain ⟨rdb, buffer, hrdb, rfl⟩ := h
  rw [Boot.bootu, doBootuAmigaHd, hrdb]
  rfl

theorem begins_of_bootu {blockbuffer : ℕ → Byte} {fuel : ℕ} {r : List (Word × List Byte) × Bool}
    (h : b.bootu blockbuffer fuel = .ok (some r)) :
  ∃ start, b.Begins start ∧ copyLoop b.disk fuel blockbuffer start 0 = r
  := by
  rw [Boot.bootu, doBootuAmigaHd] at h
  cases hrdb : PartAmiga.getRdisk b.disk b.limit b.rdbBuffer with
  | error e =>
    rw [hrdb] at h
    cases h
  | ok found =>
    rw [hrdb] at h
    obtain ⟨rdb, hfound, hloop⟩ := Option.map_eq_some_iff.mp (Except.ok.inj h)
    exact ⟨_, ⟨rdb, found.2, by rw [hrdb, ← hfound], rfl⟩, hloop⟩

/-- What `boota` and `do_bootu_amiga_hd` copy of a block that has room for its header. -/
theorem chunk_of_same {image image' : ℕ → Byte} (h : Same b.disk image image')
    (hlongs : 5 ≤ (bcbSummedLongs image').toNat) :
  chunk image = payload image'
  := by
  obtain ⟨buf, block, rfl, rfl, hlength, hgood⟩ := h
  have hle := summedLongs_le_of_good hgood
  rw [← hlength] at hle
  exact chunk_store buf (hlength ▸ b.header_le) (hlength ▸ b.blksz_le) hle hlongs

theorem flatMap_chunk_of_same {images images' : List (ℕ → Byte)}
    (h : List.Forall₂ (Same b.disk) images images')
    (hlongs : ∀ image ∈ images', 5 ≤ (bcbSummedLongs image).toNat) :
  images.flatMap chunk = images'.flatMap payload
  := by
  induction h with
  | nil => rfl
  | cons hsame _ ih =>
    rw [List.flatMap_cons, List.flatMap_cons, chunk_of_same hsame (hlongs _ List.mem_cons_self),
      ih fun image himage => hlongs image (List.mem_cons_of_mem _ himage)]

/-- A short copy is one of blocks that have room for their headers. -/
theorem longs_of_same {images images' : List (ℕ → Byte)}
    (h : List.Forall₂ (Same b.disk) images images')
    (hle : (images.flatMap chunk).length ≤ bootloaderMaxBuffer) :
  ∀ image ∈ images', 5 ≤ (bcbSummedLongs image).toNat
  := by
  induction h with
  | nil => exact fun _ himage => absurd himage List.not_mem_nil
  | cons hsame _ ih =>
    rw [List.flatMap_cons, List.length_append] at hle
    intro image himage
    obtain rfl | himage := List.mem_cons.mp himage
    · obtain ⟨buf, block, rfl, rfl, hlength, _⟩ := hsame
      rw [← bcbSummedLongs_store buf (hlength ▸ b.header_le)]
      exact longs_of_length_chunk (le_trans (Nat.le_add_right _ _) hle)
    · exact ih (le_trans (Nat.le_add_left _ _) hle) image himage

/-! ### Both commands do the same -/

/-- Only good blocks are loaded if chains with others are not. -/
theorem Boot.Agree.good (h : b.Agree) {start n : Word} (hbegins : b.Begins start)
    (hlink : Relation.ReflTransGen
      (BlockLink b.disk (BitVec.ofNat 16 b.disk.blksz) b.bootaBuffer) start n) {block : List Byte}
    (hread : loadsector b.disk n (BitVec.ofNat 16 b.disk.blksz).toNat = some block) :
  isGoodBootsector (Memory.store b.bootaBuffer 0 block) (BitVec.ofNat 16 b.disk.blksz).toNat
  := by
  by_contra hbad
  have hreject := (rejects_iff b.disk b.bootaBuffer start).mpr ⟨n, block, hlink, hread, hbad⟩
  have hnone := h.rejects start hbegins hreject (fun _ => 0) 0
  rw [bootu_of_begins hbegins] at hnone
  cases hnone

theorem Boot.Agree.hasRoom (h : b.Agree) {start : Word} (hbegins : b.Begins start)
    (blockbuffer : ℕ → Byte) :
  Room b.disk blockbuffer start 0
  := fun fuel w hw => h.room blockbuffer fuel _ _ (bootu_of_begins hbegins blockbuffer fuel) w hw

/-- If both do the same, good blocks lead to good blocks that fit. -/
theorem Boot.Agree.goodFrom (h : b.Agree) {start : Word} (hbegins : b.Begins start) :
  GoodFrom b.disk start
  := by
  intro images n hwalk
  obtain ⟨blockbuffer, current, halong, hroom, hnil⟩ :=
    along_of_walk b.header_le b.blksz_le hwalk (h.hasRoom hbegins fun _ => 0)
  cases hread : b.disk.read n with
  | some block =>
    rw [← loadsector_eq b.toNat_blksz] at hread
    have hlink := hwalk.link b.toNat_blksz b.header_le b.bootaBuffer
    have hgood := (goodBlock_of_store b.toNat_blksz b.header_le hread).mp
      (h.good hbegins hlink hread)
    exact .inl ⟨_, hgood, fits_of_room b.header_le b.blksz_le halong hroom hgood⟩
  | none =>
    refine .inr ⟨hread, ?_⟩
    cases hlast : images.getLast? with
    | none =>
      -- the header of the first block is what was in the buffer, which may be nothing
      obtain rfl := List.getLast?_eq_none_iff.mp hlast
      rw [room_iff, image_of_unread hread, hnil rfl] at hroom
      have hlongs := longs_of_length_chunk (le_trans (Nat.le_add_left _ _) hroom.1)
      revert hlongs
      decide
    | some last =>
      obtain ⟨hused, hnext, hlongs, hchunk⟩ := halong.buffer last hlast
      have hempty := ((room_stuck_iff hread hnext hused).mp hroom).2
      rw [hchunk, length_payload, headerInfoSize] at hempty
      exact ⟨last, rfl, by omega⟩

/-- If both do the same, `bootcode_block` leads to the payload of the first good block. -/
theorem Boot.Agree.first (h : b.Agree) {first : Word} {buffer : ℕ → Byte}
    {images : List (ℕ → Byte)}
    (hfind : findSecondaryBootloaderStartHD b.disk b.disk.blksz b.bootaBuffer
      = some (first, buffer)) (hchain : BootChain b.disk first images) :
  (∀ image ∈ images, 5 ≤ (bcbSummedLongs image).toNat)
    ∧ ∃ start, b.Begins start ∧ ∃ images', BootChain b.disk start images'
      ∧ images'.flatMap payload = images.flatMap payload
  := by
  obtain ⟨accepted, haccepted, hsame⟩ :=
    accepted_of_bootChain b.toNat_blksz b.header_le hchain buffer
  obtain ⟨fuel, len, writes, hboota, hbytes⟩ := boota_of_chain hfind haccepted
  obtain ⟨fuel', writes', hbootu, hequal⟩ := h.same fuel len writes hboota fun _ => 0
  obtain ⟨start, hbegins, hloop⟩ := begins_of_bootu hbootu
  have hgood := h.goodFrom hbegins
  obtain ⟨images', hcopied, hpayload⟩ := (along_start fun _ => 0).bootChain b.header_le b.blksz_le
    hgood (congrArg Prod.snd hloop)
  rw [List.nil_append] at hcopied
  rw [hloop, hequal, hbytes] at hpayload
  have hle : (images'.flatMap payload).length ≤ bootloaderMaxBuffer := by
    obtain ⟨init, n, last, hwalk, hlast, _, rfl⟩ := hcopied
    exact (hgood.fits hwalk hlast).room
  rw [← hpayload] at hle
  have hlongs := longs_of_same hsame hle
  rw [flatMap_chunk_of_same hsame hlongs] at hpayload
  exact ⟨hlongs, start, hbegins, images', hcopied, hpayload.symm⟩

end Both

/-! ### A wrong checksum -/

/-- A rigid disk block that leads to block 1. -/
def rdbOfOne : List Byte :=
  [PartAmiga.amigaIdRdisk, 11, 0xadbbaca9, 0, 0, 0, 0, 0, 0, 0, 1].flatMap wordBytes
    ++ List.replicate 468 0

/-- A boot block of one word whose checksum is 0. -/
def wrongSum : List Byte :=
  [idnameBootstrapcode, 6, 0, 0, unusedBlockAddress, 0].flatMap wordBytes
    ++ List.replicate 488 0

theorem length_rdbOfOne :
  rdbOfOne.length = 512
  := by
  rw [rdbOfOne, List.length_append, List.length_replicate]
  rfl

theorem length_wrongSum :
  wrongSum.length = 512
  := by
  rw [wrongSum, List.length_append, List.length_replicate]
  rfl

/-- A disk with both blocks. -/
def wrongDisk : Disk where
  blksz := 512
  read n := if n = 0 then some rdbOfOne else some wrongSum
  length_read n block h := by
    split at h
    · rw [← Option.some.inj h, length_rdbOfOne]
    · rw [← Option.some.inj h, length_wrongSum]

end Bootu
