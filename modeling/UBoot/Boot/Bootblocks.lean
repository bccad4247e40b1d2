import UBoot.Boot.Bootchain

/-!
# The boot blocks of a disk

A block that is long enough for its header reads the same whatever was in the buffer before.  So
the good blocks of a disk, and where they lead, are there without a buffer; the walks of
`cmd_boota.c` find these.
-/

namespace Boota

/-- The image of a block, with zeros behind it. -/
def blockOf (block : List Byte) : ℕ → Byte := Memory.store (fun _ => 0) 0 block

/-- The image of a good boot block. -/
def GoodBlock (disk : Disk) (n : Word) (image : ℕ → Byte) : Prop :=
  ∃ block, disk.read n = some block ∧ image = blockOf block ∧ isGoodBootsector image disk.blksz

/-- Good blocks lead from a block to another one. -/
inductive Walk (disk : Disk) (start : Word) : List (ℕ → Byte) → Word → Prop where
  | here : Walk disk start [] start
  | next {images : List (ℕ → Byte)} {n : Word} {image : ℕ → Byte}
      (hwalk : Walk disk start images n) (hgood : GoodBlock disk n image)
      (hnext : bcbNext image ≠ unusedBlockAddress) :
      Walk disk start (images ++ [image]) (bcbNext image)

/-- Good blocks lead from a block to the end of a chain. -/
def BootChain (disk : Disk) (start : Word) (images : List (ℕ → Byte)) : Prop :=
  ∃ init n last, Walk disk start init n ∧ GoodBlock disk n last
    ∧ bcbNext last = unusedBlockAddress ∧ images = init ++ [last]

/-- A chain that `boota` accepts. -/
def Accepted (disk : Disk) (blocksize : BitVec 16) (blockbuffer : ℕ → Byte) (start : Word)
    (images : List (ℕ → Byte)) : Prop :=
  Chain disk blocksize blockbuffer start images
    ∧ ∀ image ∈ images, isGoodBootsector image blocksize.toNat

/-! ### What was in the buffer -/

section Buffer

variable {block : List Byte} {i : ℕ}

theorem long_store (buf : ℕ → Byte) (h : 4 * i + 4 ≤ block.length) :
  long (Memory.store buf 0 block) i = long (blockOf block) i
  := by rw [long, long, blockOf, read_store_congr buf (fun _ => 0) h]

theorem bcbSummedLongs_store (buf : ℕ → Byte) (h : headerInfoSize ≤ block.length) :
  bcbSummedLongs (Memory.store buf 0 block) = bcbSummedLongs (blockOf block)
  := long_store buf (le_trans (by decide) h)

theorem bcbNext_store (buf : ℕ → Byte) (h : headerInfoSize ≤ block.length) :
  bcbNext (Memory.store buf 0 block) = bcbNext (blockOf block)
  := long_store buf h

/-- The checksum is of words of the block. -/
theorem goodChecksum_store (buf : ℕ → Byte) {len : Word} (h : len.toNat ≤ block.length / 4) :
  goodChecksum (Memory.store buf 0 block) len = goodChecksum (blockOf block) len
  := by
  have hword : ∀ sum : Word, ∀ i ∈ List.range (len.toNat % 2 ^ 16),
      sum + long (Memory.store buf 0 block) i = sum + long (blockOf block) i := by
    intro sum i hi
    have hlt : i < len.toNat := (List.mem_range.mp hi).trans_le (Nat.mod_le _ _)
    rw [long_store buf (by omega)]
  rw [goodChecksum, goodChecksum, List.foldl_ext _ _ _ hword]

theorem isGoodBootsector_store (buf : ℕ → Byte) (h : headerInfoSize ≤ block.length) :
  isGoodBootsector (Memory.store buf 0 block) block.length
    = isGoodBootsector (blockOf block) block.length
  := by
  have hid : bcbID (Memory.store buf 0 block) = bcbID (blockOf block) :=
    long_store buf (le_trans (by decide) h)
  rw [isGoodBootsector, isGoodBootsector, hid, bcbSummedLongs_store buf h, decide_eq_decide]
  apply and_congr_right
  rintro -
  apply and_congr_right
  intro hlongs
  rw [goodChecksum_store buf hlongs]

end Buffer

/-! ### Walks -/

section Walks

variable {disk : Disk} {n start : Word} {image : ℕ → Byte} {images : List (ℕ → Byte)}

theorem GoodBlock.summedLongs_le (h : GoodBlock disk n image) :
  (bcbSummedLongs image).toNat ≤ disk.blksz / 4
  := by
  obtain ⟨_, _, _, hgood⟩ := h
  exact summedLongs_le_of_good hgood

/-- A block comes before a walk from the next one. -/
theorem Walk.cons (hgood : GoodBlock disk start image)
    (hnext : bcbNext image ≠ unusedBlockAddress) (h : Walk disk (bcbNext image) images n) :
  Walk disk start (image :: images) n
  := by
  induction h with
  | here => exact .next .here hgood hnext
  | next _ hlast hlastNext ih => exact .next ih hlast hlastNext

theorem BootChain.last (hgood : GoodBlock disk start image)
    (hnext : bcbNext image = unusedBlockAddress) :
  BootChain disk start [image]
  := ⟨[], start, image, .here, hgood, hnext, rfl⟩

theorem BootChain.cons (hgood : GoodBlock disk start image)
    (hnext : bcbNext image ≠ unusedBlockAddress) (h : BootChain disk (bcbNext image) images) :
  BootChain disk start (image :: images)
  := by
  obtain ⟨init, m, last, hwalk, hlast, hend, rfl⟩ := h
  exact ⟨image :: init, m, last, hwalk.cons hgood hnext, hlast, hend, rfl⟩

end Walks

/-! ### What `boota` finds -/

section Finds

variable {disk : Disk} {blocksize : BitVec 16} {blockbuffer : ℕ → Byte} {n start : Word}
  {images : List (ℕ → Byte)}

/-- The same block, in a buffer and by itself. -/
def Same (disk : Disk) (image image' : ℕ → Byte) : Prop :=
  ∃ buf block, image = Memory.store buf 0 block ∧ image' = blockOf block
    ∧ block.length = disk.blksz ∧ isGoodBootsector image' disk.blksz

theorem loadsector_eq (hsize : blocksize.toNat = disk.blksz) :
  loadsector disk n blocksize.toNat = disk.read n
  := if_neg fun h => h.2 hsize.symm

/-- A good block in a buffer. -/
theorem goodBlock_of_store (hsize : blocksize.toNat = disk.blksz)
    (hheader : headerInfoSize ≤ disk.blksz) {block : List Byte}
    (hread : loadsector disk n blocksize.toNat = some block) :
  isGoodBootsector (Memory.store blockbuffer 0 block) blocksize.toNat
    ↔ GoodBlock disk n (blockOf block)
  := by
  have hlength : block.length = disk.blksz := length_of_block hread
  rw [loadsector_eq hsize] at hread
  rw [hsize, ← hlength, isGoodBootsector_store blockbuffer (hlength ▸ hheader), hlength]
  constructor
  · exact fun hgood => ⟨block, hread, rfl, hgood⟩
  · rintro ⟨block', hread', _, hgood⟩
    exact hgood

/-- One block more in front of a chain that is accepted. -/
theorem Accepted.cons (hsize : blocksize.toNat = disk.blksz) (hheader : headerInfoSize ≤ disk.blksz)
    {image : ℕ → Byte} {images' : List (ℕ → Byte)} (hgood : GoodBlock disk n image)
    (hnext : bcbNext image ≠ unusedBlockAddress)
    (h : ∀ buf, ∃ images, Accepted disk blocksize buf (bcbNext image) images
      ∧ List.Forall₂ (Same disk) images images') (buf : ℕ → Byte) :
  ∃ images, Accepted disk blocksize buf n images
    ∧ List.Forall₂ (Same disk) images (image :: images')
  := by
  obtain ⟨block, hread, rfl, hisGood⟩ := id hgood
  obtain ⟨images, ⟨hchain, hall⟩, hsame⟩ := h (Memory.store buf 0 block)
  have hlength := disk.length_read n block hread
  rw [← loadsector_eq hsize] at hread
  rw [← bcbNext_store buf (hlength ▸ hheader)] at hnext hchain
  refine ⟨Memory.store buf 0 block :: images, ⟨.next hread hnext hchain, ?_⟩,
    .cons ⟨buf, block, rfl, rfl, hlength, hisGood⟩ hsame⟩
  rintro other hother
  obtain rfl | hother := List.mem_cons.mp hother
  · exact (goodBlock_of_store hsize hheader hread).mpr hgood
  · exact hall other hother

theorem Accepted.last (hsize : blocksize.toNat = disk.blksz) (hheader : headerInfoSize ≤ disk.blksz)
    {image : ℕ → Byte} (hgood : GoodBlock disk n image)
    (hnext : bcbNext image = unusedBlockAddress) (buf : ℕ → Byte) :
  ∃ images, Accepted disk blocksize buf n images ∧ List.Forall₂ (Same disk) images [image]
  := by
  obtain ⟨block, hread, rfl, hisGood⟩ := id hgood
  have hlength := disk.length_read n block hread
  rw [← loadsector_eq hsize] at hread
  rw [← bcbNext_store buf (hlength ▸ hheader)] at hnext
  refine ⟨[Memory.store buf 0 block], ⟨.last hread hnext, ?_⟩,
    .cons ⟨buf, block, rfl, rfl, hlength, hisGood⟩ .nil⟩
  intro other hother
  obtain rfl := List.mem_singleton.mp hother
  exact (goodBlock_of_store hsize hheader hread).mpr hgood

/-- A chain of good blocks is accepted, with any buffer. -/
theorem accepted_of_bootChain (hsize : blocksize.toNat = disk.blksz)
    (hheader : headerInfoSize ≤ disk.blksz) (h : BootChain disk start images) (buf : ℕ → Byte) :
  ∃ images', Accepted disk blocksize buf start images' ∧ List.Forall₂ (Same disk) images' images
  := by
  obtain ⟨init, n, last, hwalk, hlast, hend, rfl⟩ := h
  have htail := fun buf => Accepted.last hsize hheader hlast hend buf
  -- from the end of the walk back to its start
  generalize [last] = rest at htail
  clear hlast hend
  induction hwalk generalizing rest buf with
  | here => exact htail buf
  | @next init n image _ hgood hnext ih =>
    rw [List.append_assoc]
    apply ih
    exact fun buf => Accepted.cons hsize hheader hgood hnext htail buf

theorem Walk.link (hsize : blocksize.toNat = disk.blksz) (hheader : headerInfoSize ≤ disk.blksz)
    (h : Walk disk start images n) (blockbuffer : ℕ → Byte) :
  Relation.ReflTransGen (BlockLink disk blocksize blockbuffer) start n
  := by
  induction h with
  | here => exact .refl
  | @next images n image _ hgood hnext ih =>
    apply ih.tail
    obtain ⟨block, hread, rfl, _⟩ := id hgood
    have hlength := disk.length_read n block hread
    have hsector := (loadsector_eq hsize).trans hread
    rw [← bcbNext_store blockbuffer (hlength ▸ hheader)] at hnext ⊢
    exact ⟨block, hsector, (goodBlock_of_store hsize hheader hsector).mpr hgood, hnext, rfl⟩

end Finds

end Boota
