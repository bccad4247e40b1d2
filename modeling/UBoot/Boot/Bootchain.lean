import UBoot.Boot.Boota
import UBoot.Lib.Acyclic

/-!
# Chains of boot blocks that do not end

The blocks of the second level bootloader are followed wherever `bcb_Next` leads, as long as they
are good.  Both walks come to an end if and only if that is never back to a block.
-/

namespace Boota

/-! ### Links -/

/-- From a good block to the next one. -/
def BlockLink (disk : Disk) (blocksize : BitVec 16) (blockbuffer : ℕ → Byte) (n m : Word) : Prop :=
  ∃ block, loadsector disk n blocksize.toNat = some block
    ∧ isGoodBootsector (Memory.store blockbuffer 0 block) blocksize.toNat
    ∧ bcbNext (Memory.store blockbuffer 0 block) ≠ unusedBlockAddress
    ∧ m = bcbNext (Memory.store blockbuffer 0 block)

/-- `secondary_bootloader_length` comes to an end, and so does `load_secondary_bootloader` if the
length was found. -/
def Ends (disk : Disk) (blocksize : BitVec 16) (blockbuffer : ℕ → Byte) (start : Word) : Prop :=
  ∃ fuel r, secondaryBootloaderLength disk blocksize fuel blockbuffer start 0 = some r
    ∧ (r.status = loadOk →
      (loadSecondaryBootloader disk blocksize fuel r.blockbuffer start 0).isSome)

/-! ### The block buffer -/

section Buffer

variable {disk : Disk} {blocksize : BitVec 16} {blockbuffer buf : ℕ → Byte} {n next res : Word}
  {fuel : ℕ}

/-- Two buffers have the same bytes behind a block. -/
def Alike (disk : Disk) (buf blockbuffer : ℕ → Byte) : Prop :=
  ∀ i, disk.blksz ≤ i → buf i = blockbuffer i

theorem length_of_block {blocksize : ℕ} {block : List Byte}
    (h : loadsector disk n blocksize = some block) :
  block.length = disk.blksz
  := by
  rw [loadsector] at h
  split at h
  · cases h
  · apply disk.length_read n block h

theorem Alike.store_eq {block : List Byte} (h : Alike disk buf blockbuffer)
    (hlength : block.length = disk.blksz) :
  Memory.store buf 0 block = Memory.store blockbuffer 0 block
  := by
  funext i
  obtain hlt | hge := Nat.lt_or_ge i block.length
  · rw [Memory.store_zero_of_lt buf hlt, Memory.store_zero_of_lt blockbuffer hlt]
  · rw [Memory.store_of_le _ (by rwa [Nat.zero_add]), Memory.store_of_le _ (by rwa [Nat.zero_add])]
    apply h i (by rwa [← hlength])

theorem Alike.store {block : List Byte} (h : Alike disk buf blockbuffer)
    (hlength : block.length = disk.blksz) :
  Alike disk (Memory.store buf 0 block) blockbuffer
  := by
  intro i hi
  rw [Memory.store_of_le _ (by rwa [Nat.zero_add, hlength])]
  apply h i hi

theorem alike_image {blocksize : ℕ} {block : List Byte}
    (hread : loadsector disk n blocksize = some block) :
  Alike disk (Memory.store blockbuffer 0 block) blockbuffer
  := Alike.store (fun _ _ => rfl) (length_of_block hread)

/-! ### The walks -/

/-- The first walk goes as far as the links. -/
theorem isSome_length_iff (h : Alike disk buf blockbuffer) :
  (secondaryBootloaderLength disk blocksize fuel buf next res).isSome
    ↔ Acyclic.Within (BlockLink disk blocksize blockbuffer) fuel next
  := by
  induction fuel generalizing buf next res with
  | zero => exact iff_of_false Bool.false_ne_true id
  | succ fuel ih =>
    rw [secondaryBootloaderLength, Acyclic.Within]
    cases hread : loadsector disk next blocksize.toNat with
    | none =>
      apply iff_of_true rfl
      rintro m ⟨block, hblock, _⟩
      exact absurd (hread.symm.trans hblock) (Option.some_ne_none block).symm
    | some block =>
      dsimp only
      rw [h.store_eq (length_of_block hread)]
      have hlink : ∀ m, BlockLink disk blocksize blockbuffer next m
          ↔ isGoodBootsector (Memory.store blockbuffer 0 block) blocksize.toNat
            ∧ bcbNext (Memory.store blockbuffer 0 block) ≠ unusedBlockAddress
            ∧ m = bcbNext (Memory.store blockbuffer 0 block) := by
        intro m
        constructor
        · rintro ⟨block', hblock, hm⟩
          obtain rfl := Option.some.inj (hread.symm.trans hblock)
          exact hm
        · exact fun hm => ⟨block, hread, hm⟩
      simp only [hlink]
      by_cases hgood : isGoodBootsector (Memory.store blockbuffer 0 block) blocksize.toNat
      case neg =>
        rw [if_pos hgood]
        exact iff_of_true rfl fun m hm => absurd hm.1 hgood
      rw [if_neg (not_not.mpr hgood)]
      by_cases hnext : bcbNext (Memory.store blockbuffer 0 block) = unusedBlockAddress
      · rw [if_neg (not_not.mpr hnext)]
        exact iff_of_true rfl fun m hm => absurd hnext hm.2.1
      · rw [if_pos hnext, ih (alike_image hread)]
        constructor
        · rintro hrest _ ⟨_, _, rfl⟩
          apply hrest
        · exact fun hall => hall _ ⟨hgood, hnext, rfl⟩

/-- The second walk goes no further than the first one, if that has found the length. -/
theorem isSome_load_of_length {buf' : ℕ → Byte} {current : Word} {r : Length}
    (hbuf : Alike disk buf blockbuffer) (hbuf' : Alike disk buf' blockbuffer)
    (h : secondaryBootloaderLength disk blocksize fuel buf next res = some r)
    (hok : r.status = loadOk) :
  (loadSecondaryBootloader disk blocksize fuel buf' next current).isSome
  := by
  induction fuel generalizing buf buf' next res current with
  | zero => cases h
  | succ fuel ih =>
    rw [secondaryBootloaderLength] at h
    rw [loadSecondaryBootloader]
    cases hread : loadsector disk next blocksize.toNat with
    | none =>
      rw [hread] at h
      obtain rfl := Option.some.inj h
      apply absurd hok (readError_or_ne _)
    | some block =>
      rw [hread] at h
      dsimp only at h ⊢
      rw [hbuf.store_eq (length_of_block hread)] at h
      rw [Option.getD_some, hbuf'.store_eq (length_of_block hread)]
      split at h
      · obtain rfl := Option.some.inj h
        apply absurd hok (readSyntaxErr_or_ne _)
      split at h
      case isTrue hnext =>
        rw [if_pos hnext, Option.isSome_map]
        apply ih (alike_image hread) (alike_image hread) h
      case isFalse hnext =>
        rw [if_neg hnext]
        rfl

/-- The first walk leaves what is behind a block. -/
theorem alike_of_length {r : Length} (hbuf : Alike disk buf blockbuffer)
    (h : secondaryBootloaderLength disk blocksize fuel buf next res = some r) :
  Alike disk r.blockbuffer blockbuffer
  := by
  induction fuel generalizing buf next res with
  | zero => cases h
  | succ fuel ih =>
    rw [secondaryBootloaderLength] at h
    cases hread : loadsector disk next blocksize.toNat with
    | none =>
      rw [hread] at h
      obtain rfl := Option.some.inj h
      exact hbuf
    | some block =>
      rw [hread] at h
      dsimp only at h
      rw [hbuf.store_eq (length_of_block hread)] at h
      split at h
      · obtain rfl := Option.some.inj h
        apply alike_image hread
      split at h
      · apply ih (alike_image hread) h
      · obtain rfl := Option.some.inj h
        apply alike_image hread

end Buffer

theorem acyclic_of_ends {disk : Disk} {blocksize : BitVec 16} {blockbuffer : ℕ → Byte}
    {start : Word} (h : Ends disk blocksize blockbuffer start) :
  Acyclic.From (BlockLink disk blocksize blockbuffer) start
  := by
  obtain ⟨fuel, r, hr, _⟩ := h
  rw [← Acyclic.exists_within_iff]
  use fuel
  rw [← isSome_length_iff (fun _ _ => rfl), hr]
  rfl

/-- **The walks end** if and only if good blocks do not lead back to a block. -/
theorem ends_iff_acyclic (disk : Disk) (blocksize : BitVec 16) (blockbuffer : ℕ → Byte)
    (start : Word) :
  Ends disk blocksize blockbuffer start
    ↔ Acyclic.From (BlockLink disk blocksize blockbuffer) start
  := by
  have halike : Alike disk blockbuffer blockbuffer := fun _ _ => rfl
  constructor
  · apply acyclic_of_ends
  · rw [← Acyclic.exists_within_iff]
    rintro ⟨fuel, hfuel⟩
    rw [← isSome_length_iff halike] at hfuel
    obtain ⟨r, hr⟩ := Option.isSome_iff_exists.mp hfuel
    use fuel, r, hr
    intro hok
    apply isSome_load_of_length halike (alike_of_length halike hr) hr hok

/-- A good block that is the next one of itself. -/
def loopBlock : List Byte :=
  [idnameBootstrapcode, 5, 0xbdb0b0a4, 0, 3].flatMap wordBytes

theorem not_ends_loopBlock :
  ¬ ∀ (disk : Disk) (blocksize : BitVec 16) (blockbuffer : ℕ → Byte) (start : Word),
    Ends disk blocksize blockbuffer start
  := by
  intro h
  have hends := acyclic_of_ends (h (sameBlock loopBlock) 20 (fun _ => 0) 3)
  apply hends 3 .refl (.single ⟨loopBlock, rfl, by decide +kernel, by decide +kernel, _⟩)
  decide +kernel

end Boota
