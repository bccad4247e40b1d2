import UBoot.Crc32

/-!
# GUID partition tables

`disk/part_efi.c`: block 1 of a disk is a header with a checksum, which says where the array of the
partitions is, how many entries it has, how large they are, and what the checksum of the array is.
Bytes that were not read from the disk are no bytes of the model: it says when they are used. The
address of the array is stored through a pointer to pointers that no caller sets, so that it is kept
at address 0.
-/

namespace PartEfi

open Crc32

/-- `GPT_BLOCK_SIZE`. -/
def gptBlockSize : ℕ := 512

/-- `GPT_HEADER_SIGNATURE`. -/
def gptHeaderSignature : BitVec 64 := 0x5452415020494645

/-- `GPT_PRIMARY_PARTITION_TABLE_LBA`. -/
def gptPrimaryPartitionTableLba : BitVec 64 := 1

/-- `sizeof(gpt_entry)`. -/
def sizeofGptEntry : ℕ := 128

/-- A device with blocks of 512 bytes: their number, and what is read by `block_read`, if as many
blocks are read as there should be. -/
structure Dev where
  lba : ℕ
  read : Word → ℕ → Option (List Byte)
  length_read : ∀ start n bytes, read start n = some bytes → bytes.length = gptBlockSize * n

/-- The memory: if `malloc` finds as many bytes, and if there is memory at address 0 that can be
written. -/
structure Mem where
  malloc : ℕ → Bool
  atZero : Bool

/-- Bytes are used that were not read from the disk, or an address is stored through `NULL`. -/
inductive Fault where
  | outside
  | null
  deriving DecidableEq

/-! ### Fields -/

/-- The number with the given bytes, the lowest one first. -/
def leToNat (bytes : List Byte) : ℕ := bytes.foldr (fun x v => x.toNat + 256 * v) 0

/-- `le32_to_int` of the bytes at an offset. -/
def le32ToInt (bytes : List Byte) (offset : ℕ) : Word :=
  BitVec.ofNat 32 (leToNat ((bytes.drop offset).take 4))

/-- `le64_to_int`. -/
def le64ToInt (bytes : List Byte) (offset : ℕ) : BitVec 64 :=
  BitVec.ofNat 64 (leToNat ((bytes.drop offset).take 8))

/-- `signature` of a header. -/
def signature (head : List Byte) : BitVec 64 := le64ToInt head 0

/-- `header_size`. -/
def headerSize (head : List Byte) : Word := le32ToInt head 12

/-- `header_crc32`. -/
def headerCrc32 (head : List Byte) : Word := le32ToInt head 16

/-- The header with a zero for its checksum. -/
def withoutCrc (head : List Byte) : List Byte := head.take 16 ++ List.replicate 4 0 ++ head.drop 20

/-- `my_lba`. -/
def myLba (head : List Byte) : BitVec 64 := le64ToInt head 24

/-- `first_usable_lba`. -/
def firstUsableLba (head : List Byte) : BitVec 64 := le64ToInt head 40

/-- `last_usable_lba`. -/
def lastUsableLba (head : List Byte) : BitVec 64 := le64ToInt head 48

/-- `partition_entry_lba`. -/
def partitionEntryLba (head : List Byte) : BitVec 64 := le64ToInt head 72

/-- `num_partition_entries`. -/
def numPartitionEntries (head : List Byte) : Word := le32ToInt head 80

/-- `sizeof_partition_entry`. -/
def sizeofPartitionEntry (head : List Byte) : Word := le32ToInt head 84

/-- `partition_entry_array_crc32`. -/
def partitionEntryArrayCrc32 (head : List Byte) : Word := le32ToInt head 88

/-- The size of the array, as it is computed for the allocation and for the checksum. -/
def arraySize (head : List Byte) : Word := numPartitionEntries head * sizeofPartitionEntry head

/-- `starting_lba` of the entry at an offset. -/
def startingLba (pte : List Byte) (offset : ℕ) : BitVec 64 := le64ToInt pte (offset + 32)

/-- `ending_lba`. -/
def endingLba (pte : List Byte) (offset : ℕ) : BitVec 64 := le64ToInt pte (offset + 40)

/-- `is_pte_valid` for the entry at an offset. -/
def isPteValid (pte : List Byte) (offset : ℕ) : Bool :=
  (pte.drop offset).take 16 ≠ List.replicate 16 0

/-! ### The functions -/

/-- `efi_crc32` of the first bytes of a buffer. -/
def efiCrc32 (buf : List Byte) (len : ℕ) : Except Fault Word :=
  if len ≤ buf.length then .ok (crc32 0 (buf.take len)) else .error .outside

/-- `alloc_read_gpt_entries`. -/
def allocReadGptEntries (dev : Dev) (mem : Mem) (head : List Byte) : Option (List Byte) :=
  let count := (arraySize head).toNat
  if count = 0 ∨ ¬ mem.malloc count then none
  else dev.read ((partitionEntryLba head).setWidth 32) (count / gptBlockSize)

/-- `*pgpt_pte = pte`, where `pgpt_pte` is `NULL`. -/
def storePte (mem : Mem) (pte : Option (List Byte)) : Except Fault (Option (List Byte)) :=
  if mem.atZero then .ok pte else .error .null

/-- The end of `is_gpt_valid`: the array is read and checked. -/
def checkEntries (dev : Dev) (mem : Mem) (head : List Byte) :
    Except Fault (Option (List Byte × List Byte)) := do
  let pgptPte ← storePte mem (allocReadGptEntries dev mem head)
  match pgptPte with
  | none => .ok none
  | some pte => do
    let calcCrc32 ← efiCrc32 pte (arraySize head).toNat
    if calcCrc32 ≠ partitionEntryArrayCrc32 head then .ok none else .ok (some (head, pte))

/-- `is_gpt_valid`: the header and the array. -/
def isGptValid (dev : Dev) (mem : Mem) (lba : BitVec 64) :
    Except Fault (Option (List Byte × List Byte)) :=
  match dev.read (lba.setWidth 32) 1 with
  | none => .ok none
  | some head =>
    if signature head ≠ gptHeaderSignature then .ok none
    else do
      let calcCrc32 ← efiCrc32 (withoutCrc head) (headerSize head).toNat
      if calcCrc32 ≠ headerCrc32 head then .ok none
      else if myLba head ≠ lba then .ok none
      else if dev.lba < (firstUsableLba head).toNat then .ok none
      else if dev.lba < (lastUsableLba head).toNat then .ok none
      else checkEntries dev mem head

/-- `disk_partition_t`. -/
structure PartitionInfo where
  start : Word
  size : Word
  blksz : Word
  name : List Byte
  type : List Byte

/-- The first and the last block of an entry of the array. -/
def entryLbas (pte : List Byte) (i : ℕ) : Except Fault (BitVec 64 × BitVec 64) :=
  if sizeofGptEntry * i + 48 ≤ pte.length then
    .ok (startingLba pte (sizeofGptEntry * i), endingLba pte (sizeofGptEntry * i))
  else .error .outside

/-- `get_partition_info_efi`: what it returns, and `*info`. -/
def getPartitionInfoEfi (dev : Dev) (mem : Mem) (part : ℤ) (info : PartitionInfo) :
    Except Fault (ℤ × PartitionInfo) :=
  if part < 1 then .ok (-1, info)
  else do
    let gpt ← isGptValid dev mem gptPrimaryPartitionTableLba
    match gpt with
    | none => .ok (-1, info)
    | some (_, pte) => do
      let lbas ← entryLbas pte (part - 1).toNat
      let start := lbas.1.setWidth 32
      .ok (0,
        { start := start
          size := lbas.2.setWidth 32 + 1 - start
          blksz := BitVec.ofNat 32 gptBlockSize
          name := ascii "gpt" ++ ascii (toString part)
          type := ascii "U-Boot" })

/-! ### What it should do -/

/-- A header and an array of a disk, both of which were read in whole and have the right
checksums. -/
structure Gpt (dev : Dev) (head pte : List Byte) : Prop where
  read_head : dev.read 1 1 = some head
  headerSize_le : (headerSize head).toNat ≤ gptBlockSize
  crc_head : crc32 0 ((withoutCrc head).take (headerSize head).toNat) = headerCrc32 head
  read_pte : dev.read ((partitionEntryLba head).setWidth 32)
    ((arraySize head).toNat / gptBlockSize) = some pte
  length_pte :
    pte.length = (numPartitionEntries head).toNat * (sizeofPartitionEntry head).toNat
  crc_pte : crc32 0 pte = partitionEntryArrayCrc32 head

/-- Where an entry of the array begins. -/
def entryOffset (head : List Byte) (part : ℕ) : ℕ := (sizeofPartitionEntry head).toNat * (part - 1)

/-- There is an entry with this number, it is in use, and this is its range. -/
structure Describes (head pte : List Byte) (part : ℕ) (info : PartitionInfo) : Prop where
  le_num : part ≤ (numPartitionEntries head).toNat
  fields : 48 ≤ (sizeofPartitionEntry head).toNat
  used : isPteValid pte (entryOffset head part)
  start : info.start = (startingLba pte (entryOffset head part)).setWidth 32
  size : info.size = (endingLba pte (entryOffset head part)
    - startingLba pte (entryOffset head part) + 1).setWidth 32

/-- No byte is used that was not read, success is only for an entry that is in use, and otherwise
nothing is changed. -/
def Meets (dev : Dev) (mem : Mem) (part : ℤ) (info : PartitionInfo) : Prop :=
  ∃ ret info', getPartitionInfoEfi dev mem part info = .ok (ret, info')
    ∧ (ret = 0 → 1 ≤ part ∧ ∃ head pte, Gpt dev head pte ∧ Describes head pte part.toNat info')
    ∧ (ret ≠ 0 → ret = -1 ∧ info' = info)

/-- The header passes the checks that are made before the array is read. -/
structure HeaderChecked (dev : Dev) (head : List Byte) : Prop where
  crc : crc32 0 ((withoutCrc head).take (headerSize head).toNat) = headerCrc32 head
  lba : myLba head = gptPrimaryPartitionTableLba
  first : (firstUsableLba head).toNat ≤ dev.lba
  last : (lastUsableLba head).toNat ≤ dev.lba

/-- What is not checked of an entry. -/
structure EntryFine (head pte : List Byte) (part : ℕ) : Prop where
  lt : (numPartitionEntries head).toNat * (sizeofPartitionEntry head).toNat < 2 ^ 32
  le_num : part ≤ (numPartitionEntries head).toNat
  fields : 48 ≤ (sizeofPartitionEntry head).toNat
  used : isPteValid pte (entryOffset head part)
  read : sizeofGptEntry * (part - 1) + 48 ≤ pte.length
  start : (startingLba pte (sizeofGptEntry * (part - 1))).setWidth 32
    = (startingLba pte (entryOffset head part)).setWidth 32
  ending : (endingLba pte (sizeofGptEntry * (part - 1))).setWidth 32
    = (endingLba pte (entryOffset head part)).setWidth 32

/-- The condition: what the function does not check. -/
def Fine (dev : Dev) (mem : Mem) (part : ℤ) : Prop :=
  1 ≤ part → ∀ head, dev.read 1 1 = some head → signature head = gptHeaderSignature →
    (headerSize head).toNat ≤ gptBlockSize
      ∧ (HeaderChecked dev head → mem.atZero
        ∧ ∀ pte, allocReadGptEntries dev mem head = some pte →
          gptBlockSize ∣ (arraySize head).toNat
            ∧ (crc32 0 pte = partitionEntryArrayCrc32 head → EntryFine head pte part.toNat))

/-! ### The checks -/

section Checks

variable {dev : Dev} {mem : Mem} {head pte : List Byte} {part : ℤ} {info : PartitionInfo}

theorem efiCrc32_of_le {buf : List Byte} {len : ℕ} (h : len ≤ buf.length) :
  efiCrc32 buf len = .ok (crc32 0 (buf.take len))
  := if_pos h

theorem efiCrc32_of_lt {buf : List Byte} {len : ℕ} (h : buf.length < len) :
  efiCrc32 buf len = .error .outside
  := if_neg (Nat.not_le.mpr h)

theorem length_withoutCrc (hread : dev.read 1 1 = some head) :
  (withoutCrc head).length = gptBlockSize
  := by
  have hlength := dev.length_read 1 1 head hread
  simp only [withoutCrc, List.length_append, List.length_take, List.length_replicate,
    List.length_drop, hlength, gptBlockSize]
  rfl

/-- As much is read as fits into whole blocks. -/
theorem length_pte (hpte : allocReadGptEntries dev mem head = some pte) :
  pte.length = gptBlockSize * ((arraySize head).toNat / gptBlockSize)
    ∧ dev.read ((partitionEntryLba head).setWidth 32) ((arraySize head).toNat / gptBlockSize)
      = some pte
  := by
  rw [allocReadGptEntries] at hpte
  split at hpte
  · cases hpte
  · exact ⟨dev.length_read _ _ pte hpte, hpte⟩

theorem isGptValid_of_read (hread : dev.read 1 1 = some head) :
  isGptValid dev mem gptPrimaryPartitionTableLba
    = if signature head ≠ gptHeaderSignature then .ok none
      else efiCrc32 (withoutCrc head) (headerSize head).toNat >>= fun calcCrc32 =>
        if calcCrc32 ≠ headerCrc32 head then .ok none
        else if myLba head ≠ gptPrimaryPartitionTableLba then .ok none
        else if dev.lba < (firstUsableLba head).toNat then .ok none
        else if dev.lba < (lastUsableLba head).toNat then .ok none
        else checkEntries dev mem head
  := by
  have hlba : gptPrimaryPartitionTableLba.setWidth 32 = 1 := by decide
  rw [isGptValid, hlba, hread]

theorem isGptValid_unread (hread : dev.read 1 1 = none) :
  isGptValid dev mem gptPrimaryPartitionTableLba = .ok none
  := by
  have hlba : gptPrimaryPartitionTableLba.setWidth 32 = 1 := by decide
  rw [isGptValid, hlba, hread]

theorem isGptValid_unsigned (hread : dev.read 1 1 = some head)
    (hsig : signature head ≠ gptHeaderSignature) :
  isGptValid dev mem gptPrimaryPartitionTableLba = .ok none
  := by rw [isGptValid_of_read hread, if_pos hsig]

theorem isGptValid_outside (hread : dev.read 1 1 = some head)
    (hsig : signature head = gptHeaderSignature) (hsize : gptBlockSize < (headerSize head).toNat) :
  isGptValid dev mem gptPrimaryPartitionTableLba = .error .outside
  := by
  rw [← length_withoutCrc hread] at hsize
  rw [isGptValid_of_read hread, if_neg (not_not.mpr hsig), efiCrc32_of_lt hsize]
  rfl

theorem isGptValid_unchecked (hread : dev.read 1 1 = some head)
    (hsig : signature head = gptHeaderSignature) (hsize : (headerSize head).toNat ≤ gptBlockSize)
    (hcheck : ¬ HeaderChecked dev head) :
  isGptValid dev mem gptPrimaryPartitionTableLba = .ok none
  := by
  rw [← length_withoutCrc hread] at hsize
  rw [isGptValid_of_read hread, if_neg (not_not.mpr hsig), efiCrc32_of_le hsize]
  refine ite_eq_left_iff.mpr fun hcrc => ite_eq_left_iff.mpr fun hlba =>
    ite_eq_left_iff.mpr fun hfirst => ite_eq_left_iff.mpr fun hlast => ?_
  exact absurd ⟨not_not.mp hcrc, not_not.mp hlba, Nat.not_lt.mp hfirst, Nat.not_lt.mp hlast⟩ hcheck

theorem isGptValid_checked (hread : dev.read 1 1 = some head)
    (hsig : signature head = gptHeaderSignature) (hsize : (headerSize head).toNat ≤ gptBlockSize)
    (hcheck : HeaderChecked dev head) :
  isGptValid dev mem gptPrimaryPartitionTableLba = checkEntries dev mem head
  := by
  rw [← length_withoutCrc hread] at hsize
  rw [isGptValid_of_read hread, if_neg (not_not.mpr hsig), efiCrc32_of_le hsize]
  exact (if_neg (not_not.mpr hcheck.crc)).trans <| (if_neg (not_not.mpr hcheck.lba)).trans <|
    (if_neg (Nat.not_lt.mpr hcheck.first)).trans (if_neg (Nat.not_lt.mpr hcheck.last))

/-- The address of the array is stored whether there is one or not. -/
theorem checkEntries_null (hzero : ¬ mem.atZero) :
  checkEntries dev mem head = .error .null
  := by
  rw [checkEntries, storePte, if_neg hzero]
  rfl

theorem checkEntries_none (hzero : mem.atZero)
    (hpte : allocReadGptEntries dev mem head = none) :
  checkEntries dev mem head = .ok none
  := by
  rw [checkEntries, storePte, if_pos hzero, hpte]
  rfl

theorem checkEntries_some (hzero : mem.atZero)
    (hpte : allocReadGptEntries dev mem head = some pte) :
  checkEntries dev mem head
    = efiCrc32 pte (arraySize head).toNat >>= fun calcCrc32 =>
      if calcCrc32 ≠ partitionEntryArrayCrc32 head then .ok none else .ok (some (head, pte))
  := by
  rw [checkEntries, storePte, if_pos hzero, hpte]
  rfl

theorem checkEntries_outside (hzero : mem.atZero)
    (hpte : allocReadGptEntries dev mem head = some pte)
    (hdvd : ¬ gptBlockSize ∣ (arraySize head).toNat) :
  checkEntries dev mem head = .error .outside
  := by
  have hlt : pte.length < (arraySize head).toNat := by
    rw [(length_pte hpte).1]
    exact lt_of_le_of_ne (Nat.mul_div_le _ _) fun heq => hdvd ⟨_, heq.symm⟩
  rw [checkEntries_some hzero hpte, efiCrc32_of_lt hlt]
  rfl

theorem checkEntries_of_dvd (hzero : mem.atZero)
    (hpte : allocReadGptEntries dev mem head = some pte)
    (hdvd : gptBlockSize ∣ (arraySize head).toNat) :
  checkEntries dev mem head
    = if crc32 0 pte ≠ partitionEntryArrayCrc32 head then .ok none else .ok (some (head, pte))
  := by
  have hlength : pte.length = (arraySize head).toNat := by
    rw [(length_pte hpte).1, Nat.mul_div_cancel' hdvd]
  rw [checkEntries_some hzero hpte, efiCrc32_of_le hlength.ge,
    List.take_of_length_le hlength.le]
  rfl

/-! ### The outcomes -/

theorem meets_of_none (hpart : 1 ≤ part)
    (h : isGptValid dev mem gptPrimaryPartitionTableLba = .ok none) :
  Meets dev mem part info
  := by
  refine ⟨-1, info, ?_, fun hret => absurd hret (by decide), fun _ => ⟨rfl, rfl⟩⟩
  rw [getPartitionInfoEfi, if_neg (Int.not_lt.mpr hpart), h]
  rfl

theorem not_meets_of_error (hpart : 1 ≤ part) {e : Fault}
    (h : isGptValid dev mem gptPrimaryPartitionTableLba = .error e) :
  ¬ Meets dev mem part info
  := by
  rintro ⟨ret, info', hrun, _⟩
  rw [getPartitionInfoEfi, if_neg (Int.not_lt.mpr hpart), h] at hrun
  cases hrun

/-- The first and the last block that are used, and what they should be. -/
theorem size_eq_iff {start ending first last : BitVec 64}
    (hstart : start.setWidth 32 = first.setWidth 32) :
  ending.setWidth 32 + 1 - start.setWidth 32 = (last - first + 1 : BitVec 64).setWidth 32
    ↔ ending.setWidth 32 = (last.setWidth 32 : Word)
  := by
  have hwidth : 32 ≤ 64 := by decide
  have hlast : (last - first + 1 : BitVec 64).setWidth 32
      = last.setWidth 32 - first.setWidth 32 + (1 : Word) := by
    rw [BitVec.sub_eq_add_neg, BitVec.setWidth_add _ _ hwidth, BitVec.setWidth_add _ _ hwidth,
      BitVec.setWidth_neg_of_le hwidth, ← BitVec.sub_eq_add_neg]
    rfl
  rw [hlast, hstart]
  constructor
  · intro h
    bv_omega
  · intro h
    rw [h]
    bv_omega

/-- An array that passes the checks. -/
theorem meets_iff_entryFine (hpart : 1 ≤ part) (hread : dev.read 1 1 = some head)
    (hsize : (headerSize head).toNat ≤ gptBlockSize) (hcheck : HeaderChecked dev head)
    (hpte : allocReadGptEntries dev mem head = some pte)
    (hdvd : gptBlockSize ∣ (arraySize head).toNat)
    (hcrc : crc32 0 pte = partitionEntryArrayCrc32 head)
    (h : isGptValid dev mem gptPrimaryPartitionTableLba = .ok (some (head, pte))) :
  Meets dev mem part info ↔ EntryFine head pte part.toNat
  := by
  have hindex : (part - 1).toNat = part.toNat - 1 := by omega
  have hlength : pte.length = (arraySize head).toNat := by
    rw [(length_pte hpte).1, Nat.mul_div_cancel' hdvd]
  have hrun : getPartitionInfoEfi dev mem part info
      = entryLbas pte (part.toNat - 1) >>= fun lbas => .ok (0,
        { start := lbas.1.setWidth 32
          size := lbas.2.setWidth 32 + 1 - lbas.1.setWidth 32
          blksz := BitVec.ofNat 32 gptBlockSize
          name := ascii "gpt" ++ ascii (toString part)
          type := ascii "U-Boot" }) := by
    rw [getPartitionInfoEfi, if_neg (Int.not_lt.mpr hpart), h, ← hindex]
    rfl
  by_cases hin : sizeofGptEntry * (part.toNat - 1) + 48 ≤ pte.length
  case neg =>
    rw [entryLbas, if_neg hin] at hrun
    apply iff_of_false _ fun hfine => hin hfine.read
    rintro ⟨ret, info', hmeets, _⟩
    rw [hrun] at hmeets
    cases hmeets
  rw [entryLbas, if_pos hin] at hrun
  constructor
  · rintro ⟨ret, info', hmeets, hsuccess, _⟩
    rw [hrun] at hmeets
    obtain ⟨rfl, rfl⟩ := Prod.mk.inj (Except.ok.inj hmeets)
    obtain ⟨_, head', pte', hgpt, hentry⟩ := hsuccess rfl
    obtain rfl := Option.some.inj (hread.symm.trans hgpt.read_head)
    obtain rfl := Option.some.inj ((length_pte hpte).2.symm.trans hgpt.read_pte)
    have hlt : (numPartitionEntries head).toNat * (sizeofPartitionEntry head).toNat < 2 ^ 32 := by
      rw [← hgpt.length_pte, hlength]
      exact (arraySize head).isLt
    exact ⟨hlt, hentry.le_num, hentry.fields, hentry.used, hin, hentry.start,
      (size_eq_iff hentry.start).mp hentry.size⟩
  · intro hfine
    have hwhole : pte.length
        = (numPartitionEntries head).toNat * (sizeofPartitionEntry head).toNat := by
      rw [hlength, arraySize, BitVec.toNat_mul, Nat.mod_eq_of_lt hfine.lt]
    refine ⟨0, _, hrun, fun _ => ⟨hpart, head, pte, ?_, ?_⟩, fun hret => absurd rfl hret⟩
    · exact ⟨hread, hsize, hcheck.crc, (length_pte hpte).2, hwhole, hcrc⟩
    · exact ⟨hfine.le_num, hfine.fields, hfine.used, hfine.start,
        (size_eq_iff hfine.start).mpr hfine.ending⟩

/-- Entries of the usual size are at the places where they are looked for. -/
theorem entryFine_of_usual {i : ℕ} (hi : 1 ≤ i)
    (husual : (sizeofPartitionEntry head).toNat = sizeofGptEntry)
    (hlt : (numPartitionEntries head).toNat * (sizeofPartitionEntry head).toNat < 2 ^ 32)
    (hwhole : pte.length
      = (numPartitionEntries head).toNat * (sizeofPartitionEntry head).toNat)
    (hnum : i ≤ (numPartitionEntries head).toNat) (hused : isPteValid pte (entryOffset head i)) :
  EntryFine head pte i
  := by
  have hoffset : entryOffset head i = sizeofGptEntry * (i - 1) := by rw [entryOffset, husual]
  refine ⟨hlt, hnum, ?_, hused, ?_, ?_, ?_⟩
  · rw [husual]
    decide
  · rw [hwhole, husual, sizeofGptEntry]
    omega
  · rw [hoffset]
  · rw [hoffset]

end Checks

/-- **The function does what it should** if and only if what it does not check is fine. -/
theorem meets_iff_fine (dev : Dev) (mem : Mem) (part : ℤ) (info : PartitionInfo) :
  Meets dev mem part info ↔ Fine dev mem part
  := by
  by_cases hpart : 1 ≤ part
  case neg =>
    apply iff_of_true _ fun h => absurd h hpart
    refine ⟨-1, info, ?_, fun hret => absurd hret (by decide), fun _ => ⟨rfl, rfl⟩⟩
    rw [getPartitionInfoEfi, if_pos (Int.not_le.mp hpart)]
  cases hread : dev.read 1 1 with
  | none =>
    apply iff_of_true (meets_of_none hpart (isGptValid_unread hread))
    intro _ head hhead
    exact absurd (hread.symm.trans hhead) nofun
  | some head =>
    have hfine : Fine dev mem part ↔ (signature head = gptHeaderSignature →
        (headerSize head).toNat ≤ gptBlockSize
          ∧ (HeaderChecked dev head → mem.atZero
            ∧ ∀ pte, allocReadGptEntries dev mem head = some pte →
              gptBlockSize ∣ (arraySize head).toNat
                ∧ (crc32 0 pte = partitionEntryArrayCrc32 head →
                  EntryFine head pte part.toNat))) := by
      constructor
      · exact fun h => h hpart head hread
      · rintro h _ head' hhead'
        rwa [← Option.some.inj (hread.symm.trans hhead')]
    rw [hfine]
    by_cases hsig : signature head = gptHeaderSignature
    case neg =>
      exact iff_of_true (meets_of_none hpart (isGptValid_unsigned hread hsig))
        fun h => absurd h hsig
    by_cases hsize : (headerSize head).toNat ≤ gptBlockSize
    case neg =>
      apply iff_of_false (not_meets_of_error hpart _) fun h => hsize (h hsig).1
      · exact Fault.outside
      · exact isGptValid_outside hread hsig (Nat.not_le.mp hsize)
    by_cases hcheck : HeaderChecked dev head
    case neg =>
      exact iff_of_true (meets_of_none hpart (isGptValid_unchecked hread hsig hsize hcheck))
        fun _ => ⟨hsize, fun h => absurd h hcheck⟩
    have hvalid := @isGptValid_checked dev mem head hread hsig hsize hcheck
    by_cases hzero : mem.atZero
    case neg =>
      rw [checkEntries_null hzero] at hvalid
      exact iff_of_false (not_meets_of_error hpart hvalid) fun h => hzero ((h hsig).2 hcheck).1
    cases hpte : allocReadGptEntries dev mem head with
    | none =>
      rw [checkEntries_none hzero hpte] at hvalid
      exact iff_of_true (meets_of_none hpart hvalid) fun _ => ⟨hsize, fun _ => ⟨hzero, nofun⟩⟩
    | some pte =>
      by_cases hdvd : gptBlockSize ∣ (arraySize head).toNat
      case neg =>
        rw [checkEntries_outside hzero hpte hdvd] at hvalid
        exact iff_of_false (not_meets_of_error hpart hvalid)
          fun h => hdvd (((h hsig).2 hcheck).2 pte rfl).1
      rw [checkEntries_of_dvd hzero hpte hdvd] at hvalid
      by_cases hcrc : crc32 0 pte = partitionEntryArrayCrc32 head
      · rw [if_neg (not_not.mpr hcrc)] at hvalid
        rw [meets_iff_entryFine hpart hread hsize hcheck hpte hdvd hcrc hvalid]
        constructor
        · rintro hentry _
          refine ⟨hsize, fun _ => ⟨hzero, fun pte' hpte' => ?_⟩⟩
          obtain rfl := Option.some.inj hpte'
          exact ⟨hdvd, fun _ => hentry⟩
        · exact fun h => (((h hsig).2 hcheck).2 pte rfl).2 hcrc
      · rw [if_pos hcrc] at hvalid
        apply iff_of_true (meets_of_none hpart hvalid)
        refine fun _ => ⟨hsize, fun _ => ⟨hzero, fun pte' hpte' => ⟨hdvd, fun hcrc' => ?_⟩⟩⟩
        obtain rfl := Option.some.inj hpte'
        exact absurd hcrc' hcrc

/-! ### An entry that is not in use -/

/-- A header for four entries of 128 bytes, which are not in use. -/
def unusedHead : List Byte :=
  [69, 70, 73, 32, 80, 65, 82, 84, 0, 0, 1, 0, 92, 0, 0, 0, 20, 53, 98, 159, 0, 0, 0, 0]
    ++ [1, 0, 0, 0, 0, 0, 0, 0, 100, 0, 0, 0, 0, 0, 0, 0, 34, 0, 0, 0, 0, 0, 0, 0]
    ++ [90, 0, 0, 0, 0, 0, 0, 0, 0, 0, 0, 0, 0, 0, 0, 0, 0, 0, 0, 0, 0, 0, 0, 0]
    ++ [2, 0, 0, 0, 0, 0, 0, 0, 4, 0, 0, 0, 128, 0, 0, 0, 120, 117, 170, 178]
    ++ List.replicate 420 0

theorem length_unusedHead :
  unusedHead.length = gptBlockSize
  := by
  rw [unusedHead, List.length_append, List.length_replicate]
  rfl

/-- A disk with that header. -/
def unusedDev : Dev where
  lba := 100
  read start n :=
    if start = 1 ∧ n = 1 then some unusedHead else some (List.replicate (gptBlockSize * n) 0)
  length_read := by
    intro start n bytes h
    split at h
    case isTrue hhead =>
      obtain rfl := Option.some.inj h
      rw [hhead.2]
      apply length_unusedHead
    case isFalse =>
      obtain rfl := Option.some.inj h
      apply List.length_replicate

/-- The header passes the checks. -/
theorem headerChecked_unusedHead : HeaderChecked unusedDev unusedHead where
  crc := by decide +kernel
  lba := by decide +kernel
  first := by decide +kernel
  last := by decide +kernel

/-- Memory everywhere, the word at address 0 with it. -/
def wholeMem : Mem := ⟨fun _ => true, true⟩

theorem not_meets_unusedDev :
  ¬ ∀ (dev : Dev) (mem : Mem) (part : ℤ) (info : PartitionInfo),
    Meets dev mem part info
  := by
  intro h
  have hpte : allocReadGptEntries unusedDev wholeMem unusedHead
      = some (List.replicate (gptBlockSize * 1) 0) := by decide +kernel
  have hdvd : gptBlockSize ∣ (arraySize unusedHead).toNat := by decide +kernel
  have hcrc : crc32 0 (List.replicate (gptBlockSize * 1) 0)
      = partitionEntryArrayCrc32 unusedHead := by decide +kernel
  have hsize : (headerSize unusedHead).toNat ≤ gptBlockSize := by decide +kernel
  have hsig : signature unusedHead = gptHeaderSignature := by decide +kernel
  have hvalid := @isGptValid_checked unusedDev wholeMem unusedHead rfl hsig hsize
    headerChecked_unusedHead
  rw [checkEntries_of_dvd rfl hpte hdvd, if_neg (not_not.mpr hcrc)] at hvalid
  have hfine := (meets_iff_entryFine (Int.le_refl 1) rfl hsize headerChecked_unusedHead hpte hdvd
    hcrc hvalid).mp (h _ _ _ ⟨0, 0, 0, [], []⟩)
  apply absurd hfine.used
  decide +kernel

end PartEfi
