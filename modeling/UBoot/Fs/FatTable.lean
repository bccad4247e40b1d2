import UBoot.Fs.Fat
import UBoot.Lib.Run

/-!
# Entries of the table

`get_fatent` finds what a direct reading of the table on the disk finds, after any calls, as long
as a read that fails says so and leaves the buffer as it is.  What a call leaves in `fatbuf` is
the part of the table that `fatbufnum` names.
-/

namespace Fat

/-! ### What is on the disk -/

/-- The bytes of the sectors of a partition. -/
abbrev Sectors := Word → ℕ → Byte

/-- The bytes from a sector on. -/
def Sectors.stream (image : Sectors) (start : Word) (i : ℕ) : Byte :=
  image (start + BitVec.ofNat 32 (i / sectorSize)) (i % sectorSize)

/-- The first `n` bytes from a sector on. -/
def Sectors.bytes (image : Sectors) (start : Word) (n : ℕ) : List Byte :=
  Memory.read (image.stream start) 0 n

/-- A device that reads everything. -/
def Sectors.disk (image : Sectors) : Disk :=
  ⟨some fun start n => ⟨image.bytes start (n * sectorSize), n⟩, 0, fun _ => 0⟩

/-- The bytes of the table. -/
def Sectors.table (image : Sectors) (fs : Fsdata) : ℕ → Byte :=
  image.stream (fs.fatSect.setWidth 32)

/-- A read puts at most what was asked for into the buffer, and what is on the disk if it returns
that it has transferred all of it. -/
def Disk.Holds (d : Disk) (image : Sectors) : Prop :=
  ∀ start n, (diskRead d start n).data.length ≤ n * sectorSize
    ∧ ((diskRead d start n).ret = n →
      (diskRead d start n).data = image.bytes start (n * sectorSize))

/-- The number that a table has for a cluster. -/
def rawEntry (fatsize : ℕ) (table : ℕ → Byte) (e : ℕ) : ℕ :=
  match fatsize with
  | 32 =>
    (table (4 * e)).toNat + 256 * (table (4 * e + 1)).toNat + 65536 * (table (4 * e + 2)).toNat
      + 16777216 * (table (4 * e + 3)).toNat
  | 16 => (table (2 * e)).toNat + 256 * (table (2 * e + 1)).toNat
  | _ =>
    let w := (table (e + e / 2)).toNat + 256 * (table (e + e / 2 + 1)).toNat
    if e % 2 = 0 then w % 4096 else w / 16

/-- The entry of a cluster: of 32 bits, the upper 4 are reserved. -/
def decode (fatsize : ℕ) (table : ℕ → Byte) (e : ℕ) : ℕ :=
  if fatsize = 32 then rawEntry 32 table e % 2 ^ 28 else rawEntry fatsize table e

theorem rawEntry_32 (table : ℕ → Byte) (e : ℕ) :
  rawEntry 32 table e
    = (table (4 * e)).toNat + 256 * (table (4 * e + 1)).toNat + 65536 * (table (4 * e + 2)).toNat
      + 16777216 * (table (4 * e + 3)).toNat
  := rfl

theorem rawEntry_16 (table : ℕ → Byte) (e : ℕ) :
  rawEntry 16 table e = (table (2 * e)).toNat + 256 * (table (2 * e + 1)).toNat
  := rfl

theorem rawEntry_12 (table : ℕ → Byte) (e : ℕ) :
  rawEntry 12 table e
    = if e % 2 = 0 then
        ((table (e + e / 2)).toNat + 256 * (table (e + e / 2 + 1)).toNat) % 4096
      else ((table (e + e / 2)).toNat + 256 * (table (e + e / 2 + 1)).toNat) / 16
  := rfl

theorem length_bytes (image : Sectors) (start : Word) (n : ℕ) :
  (image.bytes start n).length = n
  := Memory.length_read ..

theorem diskRead_disk (image : Sectors) (start : Word) (n : ℕ) :
  diskRead image.disk start n = ⟨image.bytes start (n * sectorSize), n⟩
  := by
  rw [diskRead, Sectors.disk]
  dsimp only
  rw [show start + 0 = start from BitVec.add_zero start]

theorem disk_holds (image : Sectors) :
  image.disk.Holds image
  := by
  intro start n
  rw [diskRead_disk]
  exact ⟨le_of_eq (length_bytes ..), fun _ => rfl⟩

theorem stream_add (image : Sectors) (start : Word) (k i : ℕ) :
  image.stream start (k * sectorSize + i) = image.stream (start + BitVec.ofNat 32 k) i
  := by
  rw [Sectors.stream, Sectors.stream, sectorSize, Nat.mul_comm k, Nat.mul_add_div (by decide),
    Nat.mul_add_mod, BitVec.ofNat_add, BitVec.add_assoc]

/-! ### Entries in the buffer -/

theorem le16_lt (buf : ℕ → Byte) (i : ℕ) :
  le16 buf i < 65536
  := by
  have h₀ := (buf (2 * i)).toNat_lt
  have h₁ := (buf (2 * i + 1)).toNat_lt
  rw [le16]
  omega

theorem and_fff (x : ℕ) :
  x &&& 0xfff = x % 4096
  := Nat.and_two_pow_sub_one_eq_mod x 12

/-- The upper 4 bits of a number go below the lower 8 of the next one. -/
theorem join_1 {x y : ℕ} (hx : x < 65536) :
  (y &&& 0x00ff) <<< 4 ||| (x &&& 0xf000) >>> 12 = y % 256 * 16 + x / 4096
  := by
  have hy : y &&& 0x00ff = y % 256 := Nat.and_two_pow_sub_one_eq_mod y 8
  have hx' : (x &&& 0xf000) >>> 12 = x / 4096 := by
    rw [Nat.shiftRight_and_distrib, Nat.shiftRight_eq_div_pow]
    rw [show 0xf000 >>> 12 = 2 ^ 4 - 1 by decide, Nat.and_two_pow_sub_one_eq_mod]
    omega
  rw [hy, hx', ← Nat.shiftLeft_add_eq_or_of_lt (by omega), Nat.shiftLeft_eq]

/-- The upper 8 bits of a number go below the lower 4 of the next one. -/
theorem join_2 {x y : ℕ} (hx : x < 65536) :
  (y &&& 0x000f) <<< 8 ||| (x &&& 0xff00) >>> 8 = y % 16 * 256 + x / 256
  := by
  have hy : y &&& 0x000f = y % 16 := Nat.and_two_pow_sub_one_eq_mod y 4
  have hx' : (x &&& 0xff00) >>> 8 = x / 256 := by
    rw [Nat.shiftRight_and_distrib, Nat.shiftRight_eq_div_pow]
    rw [show 0xff00 >>> 8 = 2 ^ 8 - 1 by decide, Nat.and_two_pow_sub_one_eq_mod]
    omega
  rw [hy, hx', ← Nat.shiftLeft_add_eq_or_of_lt (by omega), Nat.shiftLeft_eq]

theorem upper_12 {x : ℕ} (hx : x < 65536) :
  (x &&& 0xfff0) >>> 4 = x / 16
  := by
  rw [Nat.shiftRight_and_distrib, Nat.shiftRight_eq_div_pow]
  rw [show 0xfff0 >>> 4 = 2 ^ 12 - 1 by decide, Nat.and_two_pow_sub_one_eq_mod]
  omega

/-- An entry of 12 bits starts at one of four places in the numbers of 16 bits. -/
theorem entry12_eq (buf : ℕ → Byte) (offset : ℕ) :
  entry12 buf offset = rawEntry 12 buf offset
  := by
  have hlt := le16_lt buf
  have h₀ := (buf (offset + offset / 2 - 1)).toNat_lt
  have h₁ := (buf (offset + offset / 2)).toNat_lt
  have h₂ := (buf (offset + offset / 2 + 1)).toNat_lt
  rw [rawEntry_12, entry12]
  obtain h | h | h | h : offset % 4 = 0 ∨ offset % 4 = 1 ∨ offset % 4 = 2 ∨ offset % 4 = 3 := by
    omega
  · simp only [h]
    rw [and_fff, le16, if_pos (by omega), show 2 * (offset * 3 / 4) = offset + offset / 2 by omega]
  · simp only [h]
    rw [join_1 (hlt _), le16, le16, if_neg (by omega),
      show 2 * (offset * 3 / 4 + 1) = offset + offset / 2 + 1 by omega,
      show 2 * (offset * 3 / 4) + 1 = offset + offset / 2 by omega,
      show 2 * (offset * 3 / 4) = offset + offset / 2 - 1 by omega]
    omega
  · simp only [h]
    rw [join_2 (hlt _), le16, le16, if_pos (by omega),
      show 2 * (offset * 3 / 4 + 1) = offset + offset / 2 + 1 by omega,
      show 2 * (offset * 3 / 4) + 1 = offset + offset / 2 by omega,
      show 2 * (offset * 3 / 4) = offset + offset / 2 - 1 by omega]
    omega
  · simp only [h]
    rw [upper_12 (hlt _), le16, if_neg (by omega),
      show 2 * (offset * 3 / 4) = offset + offset / 2 by omega]

theorem rawEntry_lt (fatsize : ℕ) (table : ℕ → Byte) (e : ℕ) :
  rawEntry fatsize table e < 2 ^ 32
  := by
  have h := fun i => (table i).toNat_lt
  rw [rawEntry.eq_def]
  split
  · have h₀ := h (4 * e)
    have h₁ := h (4 * e + 1)
    have h₂ := h (4 * e + 2)
    have h₃ := h (4 * e + 3)
    omega
  · have h₀ := h (2 * e)
    have h₁ := h (2 * e + 1)
    omega
  · have h₀ := h (e + e / 2)
    have h₁ := h (e + e / 2 + 1)
    dsimp only
    split
    all_goals omega

theorem entriesPerBuf_cases {fatsize n : ℕ} (h : entriesPerBuf fatsize = some n) :
  fatsize = 32 ∧ n = 768 ∨ fatsize = 16 ∧ n = 1536 ∨ fatsize = 12 ∧ n = 2048
  := by
  rw [entriesPerBuf.eq_def] at h
  split at h
  · exact .inl ⟨rfl, (Option.some.inj h).symm⟩
  · exact .inr (.inl ⟨rfl, (Option.some.inj h).symm⟩)
  · exact .inr (.inr ⟨rfl, (Option.some.inj h).symm⟩)
  · cases h

theorem entryAt_rawEntry {fatsize n : ℕ} (hn : entriesPerBuf fatsize = some n) (buf : ℕ → Byte)
    (offset : ℕ) :
  entryAt fatsize buf offset = BitVec.ofNat 32 (rawEntry fatsize buf offset)
  := by
  obtain ⟨rfl, _⟩ | ⟨rfl, _⟩ | ⟨rfl, _⟩ := entriesPerBuf_cases hn
  · rw [entryAt, le32, le16, le16, rawEntry_32,
      show 2 * (2 * offset) = 4 * offset by omega,
      show 2 * (2 * offset + 1) = 4 * offset + 2 by omega,
      show 4 * offset + 2 + 1 = 4 * offset + 3 by omega]
    congr 1
    omega
  · rfl
  · rw [entryAt, entry12_eq]

/-- The entries in the buffer are those of the table if the buffer has a part of its bytes. -/
theorem rawEntry_part {fatsize n b offset : ℕ} {buf table : ℕ → Byte}
    (hn : entriesPerBuf fatsize = some n) (hoffset : offset < n)
    (hbuf : ∀ i < fatbufsize, buf i = table (b * fatbufsize + i)) :
  rawEntry fatsize buf offset = rawEntry fatsize table (b * n + offset)
  := by
  rw [fatbufsize, sectorSize, fatbufblocks] at hbuf
  obtain ⟨rfl, rfl⟩ | ⟨rfl, rfl⟩ | ⟨rfl, rfl⟩ := entriesPerBuf_cases hn
  · rw [rawEntry_32, rawEntry_32, hbuf _ (by omega), hbuf _ (by omega), hbuf _ (by omega),
      hbuf _ (by omega), show 4 * (b * 768 + offset) = b * (512 * 6) + 4 * offset by omega]
    simp only [Nat.add_assoc]
  · rw [rawEntry_16, rawEntry_16, hbuf _ (by omega), hbuf _ (by omega),
      show 2 * (b * 1536 + offset) = b * (512 * 6) + 2 * offset by omega]
    simp only [Nat.add_assoc]
  · rw [rawEntry_12, rawEntry_12, hbuf _ (by omega), hbuf _ (by omega),
      show b * 2048 + offset + (b * 2048 + offset) / 2
        = b * (512 * 6) + (offset + offset / 2) by omega,
      show (b * 2048 + offset) % 2 = offset % 2 by omega]
    simp only [Nat.add_assoc]

/-! ### Calls -/

/-- The part of the table with an entry. -/
def Fsdata.part (fs : Fsdata) (entry : Word) : Word :=
  BitVec.ofNat 32 (entry.toNat / (entriesPerBuf fs.fatsize).getD 0)

/-- The read of a part of the table. -/
def Fsdata.fetch (d : Disk) (fs : Fsdata) (entry : Word) : ReadResult :=
  diskRead d (fs.startblock (fs.part entry)) fs.getsize

/-- The part of the table with an entry has to be read. -/
def Fsdata.Misses (fs : Fsdata) (entry : Word) : Prop := fs.part entry ≠ fs.fatbufnum

/-- The read that an entry needs fails. -/
def Fsdata.Fails (d : Disk) (fs : Fsdata) (entry : Word) : Prop :=
  fs.Misses entry ∧ (fs.fetch d entry).ret ≠ fs.getsize

instance (fs : Fsdata) (entry : Word) : Decidable (fs.Misses entry) :=
  inferInstanceAs (Decidable (_ ≠ _))

instance (d : Disk) (fs : Fsdata) (entry : Word) : Decidable (fs.Fails d entry) :=
  inferInstanceAs (Decidable (_ ∧ _))

/-- The buffer after a read. -/
def Fsdata.fetched (d : Disk) (fs : Fsdata) (entry : Word) : ℕ → Byte :=
  Memory.store fs.fatbuf 0 (fs.fetch d entry).data

section Calls

variable {d : Disk} {fs : Fsdata} {n : ℕ} {entry : Word}

theorem part_eq (hn : entriesPerBuf fs.fatsize = some n) :
  fs.part entry = BitVec.ofNat 32 (entry.toNat / n)
  := by rw [Fsdata.part, hn, Option.getD_some]

theorem toNat_part (hn : entriesPerBuf fs.fatsize = some n) :
  (fs.part entry).toNat = entry.toNat / n
  := by
  rw [part_eq hn, BitVec.toNat_ofNat]
  apply Nat.mod_eq_of_lt (lt_of_le_of_lt (Nat.div_le_self ..) entry.isLt)

theorem part_ne (hn : entriesPerBuf fs.fatsize = some n) :
  fs.part entry ≠ -1
  := by
  intro h
  have hlt := entry.isLt
  have hpart : (fs.part entry).toNat = entry.toNat / n := toNat_part hn
  rw [h, show (-1 : Word).toNat = 2 ^ 32 - 1 by decide] at hpart
  obtain ⟨_, rfl⟩ | ⟨_, rfl⟩ | ⟨_, rfl⟩ := entriesPerBuf_cases hn
  all_goals omega

theorem getFatent_of_hit (hn : entriesPerBuf fs.fatsize = some n) (h : ¬ fs.Misses entry) :
  getFatent d fs entry = (fs, entryAt fs.fatsize fs.fatbuf (entry.toNat % n))
  := by
  rw [Fsdata.Misses, part_eq hn] at h
  rw [getFatent, hn]
  dsimp only
  rw [if_neg h, Nat.mod_eq_sub_div_mul]

theorem getFatent_of_error (hn : entriesPerBuf fs.fatsize = some n) (h : fs.Misses entry)
    (hret : (fs.fetch d entry).ret < 0) :
  getFatent d fs entry = ({ fs with fatbuf := fs.fetched d entry }, 0)
  := by
  rw [Fsdata.fetch, part_eq hn] at hret
  rw [Fsdata.Misses, part_eq hn] at h
  rw [getFatent, hn]
  dsimp only
  rw [if_pos h, if_pos hret, Fsdata.fetched, Fsdata.fetch, part_eq hn]

theorem getFatent_of_read (hn : entriesPerBuf fs.fatsize = some n) (h : fs.Misses entry)
    (hret : ¬ (fs.fetch d entry).ret < 0) :
  getFatent d fs entry
    = ({ fs with fatbuf := fs.fetched d entry, fatbufnum := fs.part entry },
        entryAt fs.fatsize (fs.fetched d entry) (entry.toNat % n))
  := by
  rw [Fsdata.fetch, part_eq hn] at hret
  rw [Fsdata.Misses, part_eq hn] at h
  rw [getFatent, hn]
  dsimp only
  rw [if_pos h, if_neg hret, Fsdata.fetched, Fsdata.fetch, part_eq hn, Nat.mod_eq_sub_div_mul]

end Calls

/-! ### The buffer -/

section Table

variable {image : Sectors} {fs : Fsdata} {n : ℕ}

/-- `fatbufnum` is the part of the table that the buffer has, if any. -/
def Sectors.Tagged (image : Sectors) (fs : Fsdata) : Prop :=
  fs.fatbufnum = -1
    ∨ ∀ i < fatbufsize, fs.fatbuf i = image.table fs (fs.fatbufnum.toNat * fatbufsize + i)

/-- What an entry is if the buffer has the part of the table with it. -/
theorem entryAt_part {buf : ℕ → Byte} {entry : Word} (hn : entriesPerBuf fs.fatsize = some n)
    (hbuf : ∀ i < fatbufsize,
      buf i = image.table fs ((fs.part entry).toNat * fatbufsize + i)) :
  entryAt fs.fatsize buf (entry.toNat % n)
    = BitVec.ofNat 32 (rawEntry fs.fatsize (image.table fs) entry.toNat)
  := by
  have hpos : 0 < n := by
    obtain ⟨_, rfl⟩ | ⟨_, rfl⟩ | ⟨_, rfl⟩ := entriesPerBuf_cases hn
    all_goals decide
  rw [entryAt_rawEntry hn, rawEntry_part hn (Nat.mod_lt _ hpos) hbuf, toNat_part hn,
    Nat.div_add_mod']

/-- A part of the table starts where its sectors are read. -/
theorem table_part (entry : Word) (i : ℕ) :
  image.table fs ((fs.part entry).toNat * fatbufsize + i)
    = image.stream (fs.startblock (fs.part entry)) i
  := by
  rw [Sectors.table, fatbufsize, Nat.mul_comm sectorSize, ← Nat.mul_assoc, stream_add,
    Fsdata.startblock]
  rw [BitVec.ofNat_mul, BitVec.ofNat_toNat, BitVec.setWidth_eq, BitVec.add_comm]

/-- A read that transfers everything fills the buffer. -/
theorem fetched_eq {d : Disk} {entry : Word} (hd : d.Holds image) (hlength : fs.fatlength ≠ 0)
    (hret : (fs.fetch d entry).ret = fs.getsize) {i : ℕ} (hi : i < fatbufsize) :
  fs.fetched d entry i = image.table fs ((fs.part entry).toNat * fatbufsize + i)
  := by
  have hpos : 0 < fs.fatlength.toNat := by
    apply Nat.pos_of_ne_zero
    intro h
    apply hlength
    apply BitVec.eq_of_toNat_eq
    exact h
  have hsize : fs.getsize = 6 := by
    rw [Fsdata.getsize, fatbufsize, sectorSize, fatbufblocks]
    omega
  have hdata := (hd (fs.startblock (fs.part entry)) fs.getsize).2 hret
  rw [table_part, Fsdata.fetched, Fsdata.fetch, hdata, hsize, Sectors.bytes]
  have hlt : i < (image.bytes (fs.startblock (fs.part entry)) (6 * sectorSize)).length := by
    rw [length_bytes]
    exact hi
  rw [← Sectors.bytes, Memory.store_zero_of_lt fs.fatbuf hlt]
  exact (Memory.getElem_read _ _ _ _ _).trans (by rw [Nat.zero_add])

/-- A call keeps the size of the entries. -/
theorem fatsize_getFatent (d : Disk) (entry : Word) (hn : entriesPerBuf fs.fatsize = some n) :
  (getFatent d fs entry).1.fatsize = fs.fatsize
  := by
  by_cases hmiss : fs.Misses entry
  · by_cases hret : (fs.fetch d entry).ret < 0
    · rw [getFatent_of_error hn hmiss hret]
    · rw [getFatent_of_read hn hmiss hret]
  · rw [getFatent_of_hit hn hmiss]

end Table

/-! ### Histories -/

section Histories

variable {image : Sectors} {fs : Fsdata} {n : ℕ}

/-- A call of `get_fatent`; the disk may do something else each time. -/
structure Call (image : Sectors) where
  disk : Disk
  entry : Word
  holds : disk.Holds image

/-- What a call leaves. -/
def fatentStep (fs : Fsdata) (c : Call image) : Option Fsdata :=
  some (getFatent c.disk fs c.entry).1

/-- A call returns the entry; or if the read fails that it needs, then it returns 0 and
`fatbufnum` is not the part that was to be read. -/
def Decodes (image : Sectors) (fs : Fsdata) (c : Call image) : Prop :=
  (¬ fs.Fails c.disk c.entry →
    (getFatent c.disk fs c.entry).2
      = BitVec.ofNat 32 (decode fs.fatsize (image.table fs) c.entry.toNat))
  ∧ (fs.Fails c.disk c.entry →
    (getFatent c.disk fs c.entry).2 = 0
      ∧ (getFatent c.disk fs c.entry).1.fatbufnum ≠ fs.part c.entry)

/-- A read that fails returns a negative number, and changes nothing in a buffer with a part of the
table.  The table has a length, and the reserved bits of an entry that is returned are 0. -/
def Plain (image : Sectors) (fs : Fsdata) (c : Call image) : Prop :=
  (fs.Fails c.disk c.entry →
    (fs.fetch c.disk c.entry).ret < 0
      ∧ (fs.fatbufnum = -1 ∨ ∀ i < fatbufsize, fs.fetched c.disk c.entry i = fs.fatbuf i))
  ∧ (¬ fs.Fails c.disk c.entry →
    (fs.Misses c.entry → fs.fatlength ≠ 0)
      ∧ (fs.fatsize = 32 → rawEntry 32 (image.table fs) c.entry.toNat < 2 ^ 28))

theorem decode_of_lt {fatsize e : ℕ} {table : ℕ → Byte}
    (h : fatsize = 32 → rawEntry 32 table e < 2 ^ 28) :
  decode fatsize table e = rawEntry fatsize table e
  := by
  rw [decode]
  split
  case isTrue heq =>
    rw [heq, Nat.mod_eq_of_lt (h heq)]
  case isFalse => rfl

/-- One call. -/
theorem Plain.decodes {c : Call image} (h : Plain image fs c) (htag : image.Tagged fs)
    (hn : entriesPerBuf fs.fatsize = some n) :
  Decodes image fs c ∧ image.Tagged (getFatent c.disk fs c.entry).1
  := by
  by_cases hmiss : fs.Misses c.entry
  · by_cases hfails : fs.Fails c.disk c.entry
    · obtain ⟨hret, hkeep⟩ := h.1 hfails
      have hcall := getFatent_of_error hn hmiss hret
      constructor
      · use fun hnot => absurd hfails hnot
        intro _
        rw [hcall]
        exact ⟨rfl, fun heq => hmiss heq.symm⟩
      · rw [hcall]
        obtain hnone | hkeep := hkeep
        · left
          exact hnone
        · apply htag.imp id
          intro hbuf i hi
          exact (hkeep i hi).trans (hbuf i hi)
    · have hret : (fs.fetch c.disk c.entry).ret = fs.getsize := by
        by_contra hne
        exact hfails ⟨hmiss, hne⟩
      obtain ⟨hlength, hbits⟩ := h.2 hfails
      have hcall := getFatent_of_read hn hmiss (d := c.disk) (by rw [hret]; omega)
      have hbuf := fun i hi => fetched_eq c.holds (hlength hmiss) hret (i := i) hi
      constructor
      · use fun _ => ?_, fun hyes => absurd hyes hfails
        rw [hcall, entryAt_part hn hbuf, decode_of_lt hbits]
      · rw [hcall]
        right
        exact hbuf
  · have hfails : ¬ fs.Fails c.disk c.entry := fun hfails => hmiss hfails.1
    have hcall := getFatent_of_hit hn hmiss (d := c.disk)
    have heq : fs.part c.entry = fs.fatbufnum := not_not.mp hmiss
    constructor
    · use fun _ => ?_, fun hyes => absurd hyes hfails
      have hbuf := htag.resolve_left fun hnone => part_ne hn (heq.trans hnone)
      rw [← heq] at hbuf
      rw [hcall, entryAt_part hn hbuf, decode_of_lt (h.2 hfails).2]
    · rw [hcall]
      exact htag

/-- **After any calls that are plain, a plain call finds the entry.** -/
theorem getFatent_decodes (calls : List (Call image)) (c : Call image) {fs' : Fsdata}
    (hn : entriesPerBuf fs.fatsize = some n) (hempty : fs.fatbufnum = -1)
    (h : Run.Along fatentStep (Plain image) fs (calls ++ [c]))
    (hrun : Run.exec fatentStep fs calls = some fs') :
  Decodes image fs' c
  := by
  have hinv : entriesPerBuf fs'.fatsize = some n ∧ image.Tagged fs' := by
    apply Run.exec_invariant_of_some (P := Plain image)
      (I := fun s => entriesPerBuf s.fatsize = some n ∧ image.Tagged s) _ ⟨hn, .inl hempty⟩
      h.of_append hrun
    rintro s a s' ⟨hs, htag⟩ hplain hstep
    obtain rfl := Option.some.inj hstep
    constructor
    · rwa [fatsize_getFatent _ _ hs]
    · exact (hplain.decodes htag hs).2
  exact ((h.last hrun).decodes hinv.2 hinv.1).1

end Histories

/-! ### A table with 16 bits -/

/-- A disk full of ones. -/
def ones : Sectors := fun _ _ => 1

/-- There is no device. -/
def noDisk : Disk := ⟨none, 0, fun _ => 0⟩

/-- A disk that reads no blocks, and returns this number. -/
def badDisk : Disk := ⟨some fun _ _ => ⟨[], 0⟩, 0, fun _ => 0⟩

/-- A table with 16 bits and 32 sectors; the buffer is empty. -/
def fat16 : Fsdata := ⟨fun _ => 0, 16, 32, 1, 65, 1, 95, -1⟩

theorem noDisk_holds : noDisk.Holds ones := by
  intro start n
  constructor
  · apply Nat.zero_le
  · intro hret
    cases hret

theorem badDisk_holds : badDisk.Holds ones := by
  intro start n
  constructor
  · apply Nat.zero_le
  · intro hret
    obtain rfl : 0 = n := Int.ofNat.inj hret
    rfl

/-- An entry is found after a call without a device. -/
theorem getFatent_decodes_fat16 :
  Decodes ones (getFatent noDisk fat16 5).1 ⟨ones.disk, 5, disk_holds ones⟩
  := by
  apply getFatent_decodes [⟨noDisk, 5, noDisk_holds⟩] _ (n := 1536) rfl rfl _
    (rfl : Run.exec fatentStep fat16 _ = _)
  constructor
  · constructor
    · intro _
      exact ⟨by decide, .inl rfl⟩
    · intro hfails
      exact absurd ⟨by decide, by decide⟩ hfails
  rintro s' hs
  obtain rfl := Option.some.inj hs
  refine ⟨⟨?_, ?_⟩, fun _ _ => trivial⟩
  · intro hfails
    exact absurd rfl hfails.2
  · intro _
    exact ⟨fun _ => by decide, fun h => by cases h⟩

/-- A read of no blocks counts as done, and then 0 is found where the table has 257. -/
theorem not_decodes_badDisk :
  ¬ Decodes ones fat16 ⟨badDisk, 5, badDisk_holds⟩
  ∧ ¬ Decodes ones (getFatent badDisk fat16 5).1 ⟨ones.disk, 5, disk_holds ones⟩
  := by
  constructor
  · intro h
    have htag := (h.2 ⟨by decide, by decide⟩).2
    exact htag (by decide)
  · intro h
    have hentry := h.1 fun hfails => hfails.1 (by decide)
    revert hentry
    decide

end Fat
