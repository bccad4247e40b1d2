import UBoot.Fs.Ext2

/-!
# Reading a range of bytes

`ext2fs_devread` reads a part of a sector, then whole sectors, then a part of a sector, and puts
them together to the bytes of the range.  It is an `int` that the range is compared by with the end
of the partition, so a range of more than 2 GiB may be taken for another one.
-/

namespace Ext2

/-- The sector that `ext2fs_devread` takes for the last one; the offsets are of type `int`. -/
def lastSector (sector : Word) (byteOffset byteLen : ℕ) : Word :=
  sector + (BitVec.ofInt 32 (((byteOffset + byteLen : ℕ) : ℤ) - 1)).sshiftRight 9

/-- What `ext2fs_devread` does behind the check of the boundaries. -/
def devreadFrom (d : Device) (sector : Word) (byteOffset byteLen : ℕ) : List Byte × Bool :=
  let sector := sector + BitVec.ofNat 32 (byteOffset / sectorSize)
  let byteOffset := byteOffset % sectorSize
  if byteOffset = 0 then devreadAligned d sector byteLen
  else
    let secBuf := d.blockRead (d.start + sector) 1
    if secBuf.length ≠ sectorSize then ([], false)
    else
      let n := min (sectorSize - byteOffset) byteLen
      let rest := devreadAligned d (sector + 1) (byteLen - n)
      ((secBuf.drop byteOffset).take n ++ rest.1, rest.2)

/-- `ext2fs_devread`, for offsets and lengths of type `int` that are not negative. -/
def ext2fsDevread (d : Device) (sector : Word) (byteOffset byteLen : ℕ) : List Byte × Bool :=
  if sector.msb ∨ d.size ≤ lastSector sector byteOffset byteLen then ([], false)
  else devreadFrom d sector byteOffset byteLen

/-! ### The last sector -/

theorem sshiftRight_ofInt {z : ℤ} (hlow : -2 ^ 31 ≤ z) (hhigh : z < 2 ^ 31) :
  (BitVec.ofInt 32 z).sshiftRight 9 = BitVec.ofInt 32 (z / 512)
  := by
  rw [BitVec.sshiftRight, BitVec.toInt_ofInt, Int.bmod_eq_of_le (by omega) (by omega),
    Int.shiftRight_eq_div_pow]
  rfl

/-- Below 2 GiB the last sector is the one of the last byte. -/
theorem lastSector_eq (sector : Word) {byteOffset byteLen : ℕ}
    (h : byteOffset + byteLen ≤ 2 ^ 31) :
  lastSector sector byteOffset byteLen
    = sector + BitVec.ofInt 32 ((((byteOffset + byteLen : ℕ) : ℤ) - 1) / 512)
  := by
  rw [lastSector, sshiftRight_ofInt]
  all_goals omega

/-- Below 2 GiB it does not matter that the offsets are of type `int`. -/
theorem ext2fsDevread_eq (d : Device) (sector : Word) {byteOffset byteLen : ℕ}
    (h : byteOffset + byteLen ≤ 2 ^ 31) :
  ext2fsDevread d sector byteOffset byteLen = devread d sector byteOffset byteLen
  := by
  rw [ext2fsDevread, lastSector_eq sector h]
  rfl

/-! ### The bytes of a partition -/

/-- The block reads succeed, and those in the partition give its bytes. -/
structure Device.Serves (d : Device) (content : ℕ → Byte) : Prop where
  reads : ∀ a n, (d.blockRead a n).length = sectorSize * n
  bytes : ∀ i n, i + n ≤ d.size.toNat →
    d.blockRead (d.start + BitVec.ofNat 32 i) n
      = Memory.read content (i * sectorSize) (n * sectorSize)

section Serves

variable {d : Device} {content : ℕ → Byte}

/-- From the beginning of a sector on. -/
theorem devreadAligned_eq (h : d.Serves content) {i len : ℕ}
    (hle : i * sectorSize + len ≤ d.size.toNat * sectorSize) :
  devreadAligned d (BitVec.ofNat 32 i) len = (Memory.read content (i * sectorSize) len, true)
  := by
  have hwhole : i + len / sectorSize ≤ d.size.toNat := by
    simp only [sectorSize] at hle ⊢
    omega
  have hnext : len ≠ len / sectorSize * sectorSize →
      i + len / sectorSize + 1 ≤ d.size.toNat := by
    simp only [sectorSize] at hle ⊢
    omega
  have hmod : len - len / sectorSize * sectorSize ≤ 1 * sectorSize := by
    simp only [sectorSize]
    omega
  have hsum := Nat.div_mul_le_self len sectorSize
  rw [devreadAligned]
  dsimp only
  by_cases hzero : len = 0
  · rw [if_pos hzero, hzero]
    rfl
  rw [if_neg hzero]
  by_cases hnone : len / sectorSize * sectorSize = 0
  · have hlast := hnext (by omega)
    have hfirst := (Nat.add_le_add_right (Nat.le_add_right i (len / sectorSize)) 1).trans hlast
    rw [if_pos hnone, h.bytes i 1 hfirst, Memory.take_read _ _ (by omega)]
  rw [if_neg hnone, Nat.mul_div_cancel _ (by decide), h.bytes i _ hwhole,
    if_neg (by rw [Memory.length_read, not_not])]
  by_cases hrest : len - len / sectorSize * sectorSize = 0
  · rw [if_pos hrest, show len / sectorSize * sectorSize = len by omega]
  rw [if_neg hrest, ← BitVec.ofNat_add, h.bytes _ 1 (hnext (by omega)),
    if_neg (by rw [Memory.length_read, not_not, Nat.one_mul]), Memory.take_read _ _ hmod,
    Nat.add_mul, ← Memory.read_add, Nat.add_sub_cancel' hsum]

/-- Of a range in the partition all bytes are read. -/
theorem devreadFrom_eq (h : d.Serves content) {i byteOffset byteLen : ℕ}
    (hle : i * sectorSize + byteOffset + byteLen ≤ d.size.toNat * sectorSize)
    (hpos : 0 < byteLen) :
  devreadFrom d (BitVec.ofNat 32 i) byteOffset byteLen
    = (Memory.read content (i * sectorSize + byteOffset) byteLen, true)
  := by
  have hstart : (i + byteOffset / sectorSize) * sectorSize + byteOffset % sectorSize
      = i * sectorSize + byteOffset := by
    simp only [sectorSize]
    omega
  have hlt := Nat.mod_lt byteOffset (show 0 < sectorSize by decide)
  have hone := Nat.one_mul sectorSize
  rw [devreadFrom]
  dsimp only
  rw [← BitVec.ofNat_add]
  by_cases hzero : byteOffset % sectorSize = 0
  · rw [hzero, Nat.add_zero] at hstart
    rw [if_pos hzero, devreadAligned_eq h (by omega), hstart]
  have hfirst : i + byteOffset / sectorSize + 1 ≤ d.size.toNat := by
    simp only [sectorSize] at hle ⊢
    omega
  rw [if_neg hzero, h.bytes _ 1 hfirst, if_neg (by rw [Memory.length_read, not_not, hone]),
    show (1 : Word) = BitVec.ofNat 32 1 from rfl, ← BitVec.ofNat_add,
    Memory.drop_read _ _ (by omega), Memory.take_read _ _ (by omega), hstart]
  by_cases hall : byteLen ≤ sectorSize - byteOffset % sectorSize
  · rw [Nat.min_eq_right hall, Nat.sub_self, devreadAligned]
    dsimp only
    rw [if_pos rfl, List.append_nil]
  · have hsecond : (i + byteOffset / sectorSize + 1) * sectorSize
        = i * sectorSize + byteOffset + (sectorSize - byteOffset % sectorSize) := by
      rw [Nat.add_mul]
      omega
    rw [Nat.min_eq_left (by omega), devreadAligned_eq h (by omega), hsecond, ← Memory.read_add,
      Nat.add_sub_cancel' (by omega)]

end Serves

/-! ### Ranges -/

/-- The range is in the partition. -/
def Device.Inside (d : Device) (sector : Word) (byteOffset byteLen : ℕ) : Prop :=
  sector.msb = false
    ∧ sector.toNat * sectorSize + byteOffset + byteLen ≤ d.size.toNat * sectorSize

/-- A range in the partition is read, and no other one. -/
def ReadsRange (d : Device) (content : ℕ → Byte) (sector : Word) (byteOffset byteLen : ℕ) :
    Prop :=
  (d.Inside sector byteOffset byteLen →
    (ext2fsDevread d sector byteOffset byteLen).1
        = Memory.read content (sector.toNat * sectorSize + byteOffset) byteLen
      ∧ (0 < byteLen → (ext2fsDevread d sector byteOffset byteLen).2 = true))
  ∧ (¬ d.Inside sector byteOffset byteLen →
    ext2fsDevread d sector byteOffset byteLen = ([], false))

/-- The check of the boundaries gives what it is for. -/
def Checks (d : Device) (sector : Word) (byteOffset byteLen : ℕ) : Prop :=
  d.size ≤ lastSector sector byteOffset byteLen ↔ ¬ d.Inside sector byteOffset byteLen

section Ranges

variable {d : Device} {content : ℕ → Byte} {sector : Word} {byteOffset byteLen : ℕ}

/-- The check is right below 2 GiB. -/
theorem checks_of_le (hsector : sector.msb = false) (hpos : 0 < byteOffset + byteLen)
    (h : byteOffset + byteLen ≤ 2 ^ 31) :
  Checks d sector byteOffset byteLen
  := by
  have hlt : sector.toNat < 2 ^ 31 := BitVec.toNat_lt_of_msb_false hsector
  have hlast : (lastSector sector byteOffset byteLen).toNat
      = sector.toNat + (byteOffset + byteLen - 1) / 512 := by
    rw [lastSector_eq sector h, show (((byteOffset + byteLen : ℕ) : ℤ) - 1) / 512
      = ((byteOffset + byteLen - 1) / 512 : ℕ) by omega, BitVec.ofInt_natCast, BitVec.toNat_add,
      BitVec.toNat_ofNat]
    omega
  rw [Checks, BitVec.le_def, hlast, Device.Inside, sectorSize]
  constructor
  · rintro hle ⟨_, hinside⟩
    omega
  · intro hnot
    by_contra hle
    apply hnot
    use hsector
    omega

/-- The reads succeed, so nothing else fails. -/
theorem devreadAligned_snd (h : d.Serves content) (sector : Word) (byteLen : ℕ) :
  (devreadAligned d sector byteLen).2 = true
  := by
  have hmod := Nat.div_mul_cancel (Nat.dvd_mul_left sectorSize (byteLen / sectorSize))
  rw [devreadAligned]
  dsimp only
  split
  · rfl
  split
  · rfl
  rw [if_neg (by rw [h.reads, Nat.mul_comm, hmod, not_not])]
  split
  · rfl
  rw [if_neg (by rw [h.reads, Nat.mul_one, not_not])]

theorem devreadFrom_snd (h : d.Serves content) (sector : Word) (byteOffset byteLen : ℕ) :
  (devreadFrom d sector byteOffset byteLen).2 = true
  := by
  rw [devreadFrom]
  dsimp only
  split
  · apply devreadAligned_snd h
  · rw [if_neg (by rw [h.reads, Nat.mul_one, not_not])]
    apply devreadAligned_snd h

theorem ext2fsDevread_of_msb (d : Device) (hmsb : sector.msb = true) :
  ext2fsDevread d sector byteOffset byteLen = ([], false)
  := if_pos (.inl hmsb)

theorem ext2fsDevread_of_le (h : d.size ≤ lastSector sector byteOffset byteLen) :
  ext2fsDevread d sector byteOffset byteLen = ([], false)
  := if_pos (.inr h)

theorem ext2fsDevread_of_lt (hsector : sector.msb = false)
    (h : ¬ d.size ≤ lastSector sector byteOffset byteLen) :
  ext2fsDevread d sector byteOffset byteLen = devreadFrom d sector byteOffset byteLen
  := by
  apply if_neg
  rintro (hmsb | hle)
  · rw [hsector] at hmsb
    cases hmsb
  · exact h hle

/-- Nothing is read of an empty range. -/
theorem ext2fsDevread_empty (d : Device) (sector : Word) (byteOffset : ℕ) :
  (ext2fsDevread d sector byteOffset 0).1 = []
  := by
  have haligned : ∀ s, devreadAligned d s 0 = ([], true) := by
    intro s
    rw [devreadAligned]
    dsimp only
    rw [if_pos rfl]
  rw [ext2fsDevread]
  split
  · rfl
  rw [devreadFrom]
  dsimp only
  split
  · rw [haligned]
  split
  · rfl
  · rw [Nat.min_zero, List.take_zero, Nat.sub_zero, haligned]
    rfl

/-- An empty range that is not in the partition is refused. -/
theorem size_le_lastSector (hsector : sector.msb = false) (hoffset : byteOffset < 2 ^ 31)
    (h : ¬ d.Inside sector byteOffset 0) :
  d.size ≤ lastSector sector byteOffset 0
  := by
  have hlt : sector.toNat < 2 ^ 31 := BitVec.toNat_lt_of_msb_false hsector
  have hout : d.size.toNat * 512 < sector.toNat * 512 + byteOffset := by
    by_contra hnot
    exact h ⟨hsector, by rw [sectorSize]; omega⟩
  rw [lastSector_eq sector (by omega), Nat.add_zero, BitVec.le_def]
  obtain rfl | hpos := Nat.eq_zero_or_pos byteOffset
  · have hlast : sector + BitVec.ofInt 32 (((0 : ℕ) - 1 : ℤ) / 512) = sector - 1 := by
      rw [BitVec.sub_eq_add_neg]
      rfl
    rw [hlast]
    bv_omega
  · rw [show ((byteOffset : ℤ) - 1) / 512 = ((byteOffset - 1) / 512 : ℕ) by omega,
      BitVec.ofInt_natCast, BitVec.toNat_add, BitVec.toNat_ofNat]
    omega

/-- **`ext2fs_devread` reads the ranges in the partition** and no other ones if and only if the
check of the boundaries is right, which it is below 2 GiB. -/
theorem readsRange_iff (h : d.Serves content) (sector : Word) (byteLen : ℕ)
    (hoffset : byteOffset < 2 ^ 31) :
  ReadsRange d content sector byteOffset byteLen
    ↔ byteLen = 0 ∨ sector.msb = true ∨ Checks d sector byteOffset byteLen
  := by
  constructor
  · rintro ⟨hin, hout⟩
    by_contra hnot
    rw [not_or, not_or, Bool.not_eq_true] at hnot
    obtain ⟨hpos, hsector, hchecks⟩ := hnot
    apply hchecks
    constructor
    · intro hle hinside
      have htrue := (hin hinside).2 (Nat.pos_of_ne_zero hpos)
      rw [ext2fsDevread_of_le hle] at htrue
      cases htrue
    · intro houtside
      by_contra hle
      have hfalse := congrArg Prod.snd (hout houtside)
      rw [ext2fsDevread_of_lt hsector hle, devreadFrom_snd h] at hfalse
      cases hfalse
  · intro hcond
    by_cases hsector : sector.msb = true
    · have houtside : ¬ d.Inside sector byteOffset byteLen := by
        rintro ⟨hmsb, _⟩
        rw [hsector] at hmsb
        cases hmsb
      exact ⟨fun hinside => absurd hinside houtside, fun _ => ext2fsDevread_of_msb d hsector⟩
    rw [Bool.not_eq_true] at hsector
    obtain rfl | hpos := Nat.eq_zero_or_pos byteLen
    · constructor
      · intro _
        exact ⟨ext2fsDevread_empty d sector byteOffset, fun hlt => absurd hlt (lt_irrefl 0)⟩
      · intro houtside
        exact ext2fsDevread_of_le (size_le_lastSector hsector hoffset houtside)
    have hchecks : Checks d sector byteOffset byteLen := by
      obtain hzero | hmsb | hchecks := hcond
      · exact absurd hzero hpos.ne'
      · rw [hsector] at hmsb
        cases hmsb
      · exact hchecks
    constructor
    · intro hinside
      have hle : ¬ d.size ≤ lastSector sector byteOffset byteLen := fun hle =>
        hchecks.mp hle hinside
      have hread := devreadFrom_eq h hinside.2 hpos
      rw [BitVec.ofNat_toNat, BitVec.setWidth_eq] at hread
      rw [ext2fsDevread_of_lt hsector hle, hread]
      exact ⟨rfl, fun _ => rfl⟩
    · intro houtside
      exact ext2fsDevread_of_le (hchecks.mpr houtside)

/-- Ranges below 2 GiB are read. -/
theorem readsRange_of_le (h : d.Serves content) (hlen : 0 < byteLen)
    (hle : byteOffset + byteLen ≤ 2 ^ 31) :
  ReadsRange d content sector byteOffset byteLen
  := by
  rw [readsRange_iff h _ _ (by omega)]
  right
  cases hsector : sector.msb with
  | true =>
    left
    rfl
  | false =>
    right
    exact checks_of_le hsector (by omega) hle

/-- What is read of a range in the partition. -/
theorem devread_of_inside (h : d.Serves content) (hinside : d.Inside sector byteOffset byteLen)
    (hpos : 0 < byteOffset + byteLen) (hle : byteOffset + byteLen ≤ 2 ^ 31) :
  devread d sector byteOffset byteLen
    = (Memory.read content (sector.toNat * sectorSize + byteOffset) byteLen, true)
  := by
  have hchecks := (checks_of_le (d := d) hinside.1 hpos hle).not.mpr (not_not.mpr hinside)
  have hempty := ext2fsDevread_empty d sector byteOffset
  rw [← ext2fsDevread_eq d sector hle]
  rw [ext2fsDevread_of_lt hinside.1 hchecks]
  obtain rfl | hlen := Nat.eq_zero_or_pos byteLen
  · rw [ext2fsDevread_of_lt hinside.1 hchecks] at hempty
    exact Prod.ext hempty (devreadFrom_snd h _ _ _)
  · have hread := devreadFrom_eq h hinside.2 hlen
    rwa [BitVec.ofNat_toNat, BitVec.setWidth_eq] at hread

end Ranges

/-! ### A partition of 4 GiB -/

/-- A partition with zeros. -/
def zeros (size : Word) : Device :=
  ⟨0, size, fun _ n => Memory.read (fun _ => 0) 0 (sectorSize * n)⟩

theorem zeros_serves (size : Word) :
  (zeros size).Serves fun _ => 0
  := by
  constructor
  · intro a n
    apply Memory.length_read
  · intro i n _
    rw [zeros]
    dsimp only
    rw [Nat.mul_comm sectorSize]
    apply List.ext_getElem
    · rw [Memory.length_read, Memory.length_read]
    · intro j _ _
      rw [Memory.getElem_read, Memory.getElem_read]

/-- Three bytes around the end of a sector. -/
theorem readsRange_iff_zeros :
  ReadsRange (zeros 8) (fun _ => 0) 1 511 3
  := by
  apply (readsRange_iff (zeros_serves 8) 1 3 (by decide)).mpr
  right
  right
  exact checks_of_le (by decide) (by decide) (by decide)

/-- Two bytes at 2 GiB are refused, though they are in the partition. -/
theorem not_readsRange_zeros :
  ¬ ReadsRange (zeros 0x800000) (fun _ => 0) 0 0x7fffffff 2
  := by
  rintro ⟨hin, _⟩
  have htrue := (hin ⟨by decide, by decide⟩).2 (by decide)
  rw [ext2fsDevread_of_le (by decide)] at htrue
  cases htrue

end Ext2
