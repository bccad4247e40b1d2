import UBoot.Fs.FatContents

/-!
# The boot sector

`read_bootsectandvi` and the sectors that `do_fat_read` computes from the boot sector.  They are
kept in 16 bits, the sectors have 512 bytes, and the root directory is read from where the first
cluster is; so they are those of the volume only if it is small and laid out in this way.
-/

namespace Fat

/-! ### What is read -/

/-- `boot_sector`. -/
structure BootSector where
  clusterSize : Byte
  reserved : BitVec 16
  fats : Byte
  dirEntries : Byte × Byte
  fatLength : BitVec 16
  fat32Length : Word
  rootCluster : Word

/-- The boot sector in the bytes of a block. -/
def bootSector (block : ℕ → Byte) : BootSector where
  clusterSize := block 13
  reserved := BitVec.ofNat 16 (le16 block (14 / 2))
  fats := block 16
  dirEntries := (block 17, block 18)
  fatLength := BitVec.ofNat 16 (le16 block (22 / 2))
  fat32Length := BitVec.ofNat 32 (le32 block (36 / 4))
  rootCluster := BitVec.ofNat 32 (le32 block (44 / 4))

/-- `fs_type` of `volume_info`, which is behind the boot sector or in its place for FAT32. -/
def fsType (block : ℕ → Byte) (vistart : ℕ) : List Byte := Memory.read block (vistart + 18) 8

/-- The boot sector and the size of the entries, by the length of the table and `fs_type`. -/
def parseBoot (block : ℕ → Byte) : Option (BootSector × ℕ) :=
  let bs := bootSector block
  if bs.fatLength = 0 then
    if fsType block 64 = ascii "FAT32   " then some (bs, 32) else none
  else if fsType block 36 = ascii "FAT12   " then some (bs, 12)
  else if fsType block 36 = ascii "FAT16   " then some (bs, 16)
  else none

/-- `read_bootsectandvi`. -/
def readBootsectandvi (d : Disk) : Option (BootSector × ℕ) :=
  let r := diskRead d 0 1
  if r.ret < 0 then none else parseBoot (Memory.store d.stack 0 r.data)

/-- `rootdir_size`, but for FAT32. -/
def BootSector.rootdirSize (bs : BootSector) : ℕ :=
  (bs.dirEntries.2.toNat * 256 + bs.dirEntries.1.toNat) * 32 / sectorSize

/-- `datablock` as `do_fat_read` fills it in; the root directory is read from `rootdir_sect` on. -/
def geometry (fatbuf : ℕ → Byte) (bs : BootSector) (fatsize : ℕ) : Fsdata :=
  let fatlength := if fatsize = 32 then bs.fat32Length.setWidth 16 else bs.fatLength
  let rootdirSect := BitVec.ofNat 16 (bs.reserved.toNat + fatlength.toNat * bs.fats.toNat)
  let clustSize := BitVec.ofNat 16 bs.clusterSize.toNat
  { fatbuf := fatbuf
    fatsize := fatsize
    fatlength := fatlength
    fatSect := bs.reserved
    rootdirSect := rootdirSect
    clustSize := clustSize
    dataBegin :=
      if fatsize = 32 then BitVec.ofInt 16 (rootdirSect.toNat - clustSize.toNat * 2)
      else BitVec.ofInt 16 (rootdirSect.toNat + bs.rootdirSize - clustSize.toNat * 2)
    fatbufnum := -1 }

/-! ### What a volume has -/

/-- The parameters of a volume in its boot sector; lengths are in its own sectors. -/
structure Parameters where
  boot : ℕ → Byte

namespace Parameters

variable (p : Parameters)

def sectorBytes : ℕ := (p.boot 11).toNat + 256 * (p.boot 12).toNat

def clusterSectors : ℕ := (p.boot 13).toNat

def reserved : ℕ := le16 p.boot 7

def fats : ℕ := (p.boot 16).toNat

def rootEntries : ℕ := (p.boot 17).toNat + 256 * (p.boot 18).toNat

def total : ℕ :=
  let total16 := (p.boot 19).toNat + 256 * (p.boot 20).toNat
  if total16 = 0 then le32 p.boot 8 else total16

/-- FAT32 has a table whose length is not in the first field. -/
def Is32 : Prop := le16 p.boot 11 = 0

instance : Decidable p.Is32 := inferInstanceAs (Decidable (_ = _))

def fatLength : ℕ := if p.Is32 then le32 p.boot 9 else le16 p.boot 11

def rootCluster : ℕ := le32 p.boot 11

/-- The sectors of the root directory that is not in clusters. -/
def rootSectors : ℕ := (p.rootEntries * 32 + (p.sectorBytes - 1)) / p.sectorBytes

/-- The first sector behind the tables. -/
def tablesEnd : ℕ := p.reserved + p.fats * p.fatLength

/-- The first sector of the cluster 2. -/
def firstData : ℕ := p.tablesEnd + p.rootSectors

def clusters : ℕ := (p.total - p.firstData) / p.clusterSectors

/-- The first sector of a cluster. -/
def clusterSector (c : ℕ) : ℕ := p.firstData + (c - 2) * p.clusterSectors

/-- The first sector of the root directory. -/
def rootSector : ℕ := if p.Is32 then p.clusterSector p.rootCluster else p.tablesEnd

/-- The size of the entries of the table is a matter of the number of clusters. -/
def entryBits : ℕ := if p.clusters < 4085 then 12 else if p.clusters < 65525 then 16 else 32

/-- The blocks with 512 bytes of a sector. -/
def blocks : ℕ := p.sectorBytes / 512

end Parameters

/-- The parameters of a volume are what they may be. -/
structure Volume extends Parameters where
  sectorBytes_legal : ∃ k, k ≤ 3 ∧ toParameters.sectorBytes = 512 * 2 ^ k
  clusterSectors_legal : ∃ k, k ≤ 7 ∧ toParameters.clusterSectors = 2 ^ k
  reserved_pos : 0 < toParameters.reserved
  fats_pos : 0 < toParameters.fats
  rootEntries_legal : toParameters.rootEntries = 0 ↔ toParameters.Is32
  clusters_pos : 0 < toParameters.clusters
  is32_iff : toParameters.Is32 ↔ 65525 ≤ toParameters.clusters
  fat_holds : (toParameters.clusters + 2) * toParameters.entryBits
    ≤ toParameters.fatLength * toParameters.sectorBytes * 8
  rootCluster_legal : toParameters.Is32 →
    2 ≤ toParameters.rootCluster ∧ toParameters.rootCluster < toParameters.clusters + 2

/-- `do_fat_read` finds the blocks of a volume. -/
def FindsBlocks (v : Volume) (d : Disk) (fatbuf : ℕ → Byte) : Prop :=
  ∃ bs fatsize, readBootsectandvi d = some (bs, fatsize)
    ∧ (geometry fatbuf bs fatsize).fatSect.toNat = v.reserved * v.blocks
    ∧ (geometry fatbuf bs fatsize).rootdirSect.toNat = v.rootSector * v.blocks
    ∧ (geometry fatbuf bs fatsize).dataBegin.toInt
        = (v.firstData - 2 * v.clusterSectors : ℤ) * v.blocks
    ∧ ∀ c : Word, 2 ≤ c.toNat → c.toNat < v.clusters + 2 →
        ((geometry fatbuf bs fatsize).startsect c).toNat = v.clusterSector c.toNat * v.blocks

/-- The volume is one of those that `do_fat_read` is for. -/
structure Simple (v : Volume) : Prop where
  sectorBytes : v.sectorBytes = 512
  fsType : if v.Is32 then fsType v.boot 64 = ascii "FAT32   "
    else fsType v.boot 36 = ascii "FAT12   " ∨ fsType v.boot 36 = ascii "FAT16   "
  tablesEnd : v.tablesEnd < 2 ^ 16
  firstData : v.firstData < 2 * v.clusterSectors + 2 ^ 15
  rootEntries : v.rootEntries % 16 = 0
  rootCluster : v.Is32 → v.rootCluster = 2

/-! ### The numbers -/

section Numbers

variable {v : Volume} {d : Disk} {image : Sectors} {fatbuf : ℕ → Byte} {fatsize : ℕ}

theorem le32_lt (buf : ℕ → Byte) (i : ℕ) :
  le32 buf i < 2 ^ 32
  := by
  have h₀ := le16_lt buf (2 * i)
  have h₁ := le16_lt buf (2 * i + 1)
  rw [le32]
  omega

theorem bootSector_congr {block block' : ℕ → Byte} (h : ∀ i < 512, block i = block' i) :
  bootSector block = bootSector block'
  := by
  simp only [bootSector, le32, le16]
  congr 1
  all_goals simp (disch := decide) only [h]

theorem fsType_congr {block block' : ℕ → Byte} {i : ℕ} (h : ∀ i < 512, block i = block' i)
    (hi : i < 400) :
  fsType block i = fsType block' i
  := by
  apply Memory.read_congr
  intro q _ hq
  apply h
  omega

theorem parseBoot_congr {block block' : ℕ → Byte} (h : ∀ i < 512, block i = block' i) :
  parseBoot block = parseBoot block'
  := by
  rw [parseBoot, parseBoot, bootSector_congr h, fsType_congr h (by decide),
    fsType_congr h (by decide)]

/-- The boot sector that is read. -/
theorem readBootsectandvi_eq (hd : d.Serves image) (hboot : ∀ i < 512, image 0 i = v.boot i) :
  readBootsectandvi d = parseBoot v.boot
  := by
  rw [readBootsectandvi, hd]
  dsimp only
  rw [if_neg (by decide)]
  apply parseBoot_congr
  intro i hi
  rw [store_of_bytes _ _ _ (by rw [sectorSize]; omega), Sectors.stream, sectorSize,
    Nat.div_eq_of_lt hi, Nat.mod_eq_of_lt hi, ← hboot i hi]
  rfl

theorem fatLength_eq_zero (boot : ℕ → Byte) :
  (bootSector boot).fatLength = 0 ↔ le16 boot 11 = 0
  := by
  rw [← BitVec.toNat_inj, bootSector, BitVec.toNat_ofNat, Nat.mod_eq_of_lt (le16_lt ..)]
  rfl

/-- The boot sector is taken for one if it has the sign. -/
theorem parseBoot_eq_some (v : Volume) :
  (∃ bs fatsize, parseBoot v.boot = some (bs, fatsize))
    ↔ if v.Is32 then fsType v.boot 64 = ascii "FAT32   "
      else fsType v.boot 36 = ascii "FAT12   " ∨ fsType v.boot 36 = ascii "FAT16   "
  := by
  rw [parseBoot]
  by_cases h : v.Is32
  · rw [if_pos h, if_pos ((fatLength_eq_zero _).mpr h)]
    split
    case isTrue hsign => simp [hsign]
    case isFalse hsign => simp [hsign]
  · rw [if_neg h, if_neg (mt (fatLength_eq_zero _).mp h)]
    split
    case isTrue hsign => simp [hsign]
    case isFalse hsign =>
      split
      case isTrue hsign' => simp [hsign']
      case isFalse hsign' => simp [hsign, hsign']

theorem parseBoot_inv {bs : BootSector} (h : parseBoot v.boot = some (bs, fatsize)) :
  bs = bootSector v.boot ∧ (fatsize = 32 ↔ v.Is32)
  := by
  rw [parseBoot] at h
  by_cases h32 : v.Is32
  · rw [if_pos ((fatLength_eq_zero _).mpr h32)] at h
    split at h
    · obtain ⟨rfl, rfl⟩ := Prod.mk.inj (Option.some.inj h)
      exact ⟨rfl, iff_of_true rfl h32⟩
    · cases h
  · rw [if_neg (mt (fatLength_eq_zero _).mp h32)] at h
    split at h
    · obtain ⟨rfl, rfl⟩ := Prod.mk.inj (Option.some.inj h)
      exact ⟨rfl, iff_of_false (by decide) h32⟩
    · split at h
      · obtain ⟨rfl, rfl⟩ := Prod.mk.inj (Option.some.inj h)
        exact ⟨rfl, iff_of_false (by decide) h32⟩
      · cases h

theorem toNat_fatSect (v : Volume) :
  (geometry fatbuf (bootSector v.boot) fatsize).fatSect.toNat = v.reserved
  := by
  rw [geometry, bootSector]
  dsimp only
  rw [BitVec.toNat_ofNat, Nat.mod_eq_of_lt (le16_lt ..)]
  rfl

theorem toNat_clustSize (fatbuf : ℕ → Byte) (fatsize : ℕ) (v : Volume) :
  (geometry fatbuf (bootSector v.boot) fatsize).clustSize.toNat = v.clusterSectors
  := by
  have h := (v.boot 13).toNat_lt
  rw [geometry, bootSector]
  dsimp only
  rw [BitVec.toNat_ofNat, Nat.mod_eq_of_lt (by omega)]
  rfl

/-- The end of the tables is cut to 16 bits. -/
theorem toNat_rootdirSect (fatbuf : ℕ → Byte) (h32 : fatsize = 32 ↔ v.Is32) :
  (geometry fatbuf (bootSector v.boot) fatsize).rootdirSect.toNat = v.tablesEnd % 2 ^ 16
  := by
  have hlength : (if fatsize = 32 then (bootSector v.boot).fat32Length.setWidth 16
      else (bootSector v.boot).fatLength).toNat = v.fatLength % 2 ^ 16 := by
    rw [Parameters.fatLength, if_congr h32 rfl rfl]
    split
    · rw [BitVec.toNat_setWidth, bootSector, BitVec.toNat_ofNat, Nat.mod_eq_of_lt (le32_lt ..)]
    · rw [bootSector, BitVec.toNat_ofNat]
  rw [geometry]
  dsimp only
  rw [hlength, BitVec.toNat_ofNat, Parameters.tablesEnd, Nat.mul_comm v.fats,
    ← Nat.add_mod_mod v.reserved, ← Nat.mod_mul_mod, Nat.add_mod_mod, bootSector]
  dsimp only
  rw [BitVec.toNat_ofNat, Nat.mod_eq_of_lt (le16_lt ..)]
  rfl

theorem rootdirSize_eq (v : Volume) :
  (bootSector v.boot).rootdirSize = v.rootEntries / 16
  := by
  rw [BootSector.rootdirSize, bootSector, Parameters.rootEntries, sectorSize]
  dsimp only
  omega

/-- Where the data begin is cut to 16 bits, and a part of a sector of the root directory does not
count. -/
theorem dataBegin_eq (h32 : fatsize = 32 ↔ v.Is32) :
  (geometry fatbuf (bootSector v.boot) fatsize).dataBegin
    = BitVec.ofInt 16 ((v.tablesEnd % 2 ^ 16 : ℕ) + (v.rootEntries / 16 : ℕ)
        - (v.clusterSectors : ℤ) * 2)
  := by
  have hroot := toNat_rootdirSect fatbuf h32
  have hclust := toNat_clustSize fatbuf fatsize v
  rw [geometry] at hroot hclust ⊢
  dsimp only at hroot hclust ⊢
  rw [hroot, hclust, rootdirSize_eq]
  split
  case isTrue h =>
    rw [v.rootEntries_legal.mpr (h32.mp h)]
    congr 2
  case isFalse => rfl

theorem clusterSectors_pos (v : Volume) :
  0 < v.clusterSectors
  := by
  obtain ⟨k, _, hk⟩ := v.clusterSectors_legal
  rw [hk]
  exact Nat.two_pow_pos k

theorem clusterSectors_le (v : Volume) :
  v.clusterSectors ≤ 128
  := by
  obtain ⟨k, hle, hk⟩ := v.clusterSectors_legal
  rw [hk]
  exact Nat.pow_le_pow_right (by decide) hle

theorem blocks_eq_one (v : Volume) :
  v.blocks = 1 ↔ v.sectorBytes = 512
  := by
  obtain ⟨k, _, hk⟩ := v.sectorBytes_legal
  rw [Parameters.blocks, hk, Nat.mul_div_cancel_left _ (by decide)]
  omega

theorem rootSectors_eq {p : Parameters} (h : p.sectorBytes = 512) :
  p.rootSectors = (p.rootEntries + 15) / 16
  := by
  rw [Parameters.rootSectors, h]
  omega

theorem total_lt (p : Parameters) :
  p.total < 2 ^ 32
  := by
  have h₁ := (p.boot 19).toNat_lt
  have h₂ := (p.boot 20).toNat_lt
  rw [Parameters.total]
  split
  · apply le32_lt
  · omega

/-- The clusters are in the volume. -/
theorem clusterSector_lt {v : Volume} {c : ℕ} (hc : c < v.clusters + 2) :
  v.clusterSector c < 2 ^ 32
  := by
  have htotal := total_lt v.toParameters
  have hpos := v.clusters_pos
  have hcs := clusterSectors_pos v
  have hmul : v.clusters * v.clusterSectors ≤ v.total - v.firstData := Nat.div_mul_le_self ..
  have hlt : (c - 2) * v.clusterSectors < v.clusters * v.clusterSectors := by
    apply Nat.mul_lt_mul_of_pos_right _ hcs
    omega
  rw [Parameters.clusterSector]
  omega

/-- Where a cluster is follows from where the data begin. -/
theorem startsect_eq {fs : Fsdata} {v : Volume} {c : Word}
    (hdata : fs.dataBegin.toInt = (v.firstData : ℤ) - 2 * v.clusterSectors)
    (hclust : fs.clustSize.toNat = v.clusterSectors) (hc : 2 ≤ c.toNat)
    (hlt : c.toNat < v.clusters + 2) :
  (fs.startsect c).toNat = v.clusterSector c.toNat
  := by
  have hsum : ((v.firstData : ℤ) - 2 * v.clusterSectors) + c.toNat * v.clusterSectors
      = (v.clusterSector c.toNat : ℕ) := by
    rw [Parameters.clusterSector]
    push_cast [hc]
    ring
  have hstart : fs.startsect c = BitVec.ofInt 32 (v.clusterSector c.toNat : ℕ) := by
    rw [← hsum, BitVec.ofInt_add, ← hdata, ← hclust, Fsdata.startsect,
      if_pos (by bv_omega), ← Nat.cast_mul, BitVec.ofInt_natCast, BitVec.ofNat_mul,
      BitVec.ofNat_toNat, BitVec.ofNat_toNat, BitVec.setWidth_eq]
    rfl
  rw [hstart, BitVec.ofInt_natCast, BitVec.toNat_ofNat, Nat.mod_eq_of_lt (clusterSector_lt hlt)]

/-- **`do_fat_read` finds the blocks of a volume if and only if it is a simple one.** -/
theorem findsBlocks_iff (v : Volume) (fatbuf : ℕ → Byte) (hd : d.Serves image)
    (hboot : ∀ i < 512, image 0 i = v.boot i) :
  FindsBlocks v d fatbuf ↔ Simple v
  := by
  have hcs := clusterSectors_pos v
  have hle := clusterSectors_le v
  have hends : v.firstData = v.tablesEnd + v.rootSectors := rfl
  constructor
  · rintro ⟨bs, fatsize, hread, hfat, hroot, hdata, _⟩
    rw [readBootsectandvi_eq hd hboot] at hread
    obtain ⟨rfl, h32⟩ := parseBoot_inv hread
    have hblocks : v.blocks = 1 := by
      rw [toNat_fatSect] at hfat
      exact Nat.eq_of_mul_eq_mul_left v.reserved_pos (hfat.symm.trans (Nat.mul_one _).symm)
    have hbytes := (blocks_eq_one v).mp hblocks
    have hsectors := rootSectors_eq hbytes
    rw [toNat_rootdirSect fatbuf h32, hblocks, Nat.mul_one] at hroot
    rw [dataBegin_eq h32, hblocks, BitVec.toInt_ofInt, Int.bmod] at hdata
    have htables : v.tablesEnd < 2 ^ 16 ∧ v.rootSector = v.tablesEnd := by
      have hge : v.tablesEnd ≤ v.rootSector := by
        rw [Parameters.rootSector, Parameters.clusterSector]
        split
        all_goals omega
      omega
    have hroots : v.rootEntries % 16 = 0 ∧ v.firstData < 2 * v.clusterSectors + 2 ^ 15 := by
      split at hdata
      all_goals omega
    constructor
    · exact hbytes
    · exact (parseBoot_eq_some v).mp ⟨_, _, hread⟩
    · exact htables.1
    · exact hroots.2
    · exact hroots.1
    · intro hIs32
      have hlegal := (v.rootCluster_legal hIs32).1
      have hsame := htables.2
      rw [Parameters.rootSector, if_pos hIs32, Parameters.clusterSector] at hsame
      have hzero : (v.rootCluster - 2) * v.clusterSectors = 0 := by omega
      obtain h | h := Nat.mul_eq_zero.mp hzero
      · omega
      · omega
  · intro h
    obtain ⟨bs, fatsize, hparse⟩ := (parseBoot_eq_some v).mpr h.fsType
    obtain ⟨rfl, h32⟩ := parseBoot_inv hparse
    have hblocks := (blocks_eq_one v).mpr h.sectorBytes
    have hsectors := rootSectors_eq h.sectorBytes
    have htables := h.tablesEnd
    have hfirst := h.firstData
    have hentries := h.rootEntries
    have hdata : (geometry fatbuf (bootSector v.boot) fatsize).dataBegin.toInt
        = (v.firstData : ℤ) - 2 * v.clusterSectors := by
      rw [dataBegin_eq h32, BitVec.toInt_ofInt, Int.bmod]
      split
      all_goals omega
    use bootSector v.boot, fatsize, (readBootsectandvi_eq hd hboot).trans hparse
    rw [hblocks, Nat.mul_one, Nat.mul_one, Nat.cast_one, mul_one]
    use toNat_fatSect v
    constructor
    · rw [toNat_rootdirSect fatbuf h32, Nat.mod_eq_of_lt htables, Parameters.rootSector]
      split
      case isTrue hIs32 =>
        have hnone := v.rootEntries_legal.mpr hIs32
        rw [Parameters.clusterSector, h.rootCluster hIs32, Nat.sub_self, Nat.zero_mul]
        omega
      case isFalse => rfl
    use hdata
    intro c hc hlt
    rw [Nat.mul_one]
    exact startsect_eq hdata (toNat_clustSize fatbuf fatsize v) hc hlt

end Numbers

/-! ### Two volumes -/

/-- A disk that has a boot sector. -/
def Parameters.image (p : Parameters) : Sectors :=
  fun sector i => if sector = 0 then p.boot i else 0

/-- A volume with 40000 sectors, clusters of 4 sectors and two tables of 40 sectors. -/
def volume16 : Volume where
  boot := Memory.store (Memory.store (fun _ => 0) 11
    [0, 2, 4, 1, 0, 2, 0, 2, 0x40, 0x9c, 0xf8, 40, 0]) 54 (ascii "FAT16   ")
  sectorBytes_legal := ⟨0, by decide, by decide⟩
  clusterSectors_legal := ⟨2, by decide, by decide⟩
  reserved_pos := by decide
  fats_pos := by decide
  rootEntries_legal := by decide
  clusters_pos := by decide
  is32_iff := by decide
  fat_holds := by decide
  rootCluster_legal := by decide

theorem findsBlocks_iff_volume16 :
  FindsBlocks volume16 volume16.image.disk fun _ => 0
  := by
  apply (findsBlocks_iff volume16 (fun _ => 0) (disk_serves _) fun i _ => rfl).mpr
  constructor
  all_goals decide

/-- A volume with 33619984 sectors, clusters of 8 sectors and two tables of 32768 sectors. -/
def volume32 : Volume where
  boot := Memory.store (Memory.store (fun _ => 0) 11
    [0, 2, 8, 32, 0, 2, 0, 0, 0, 0, 0xf8, 0, 0, 0, 0, 0, 0, 0, 0, 0, 0,
      0x10, 0, 1, 2, 0, 0x80, 0, 0, 0, 0, 0, 0, 2, 0, 0, 0]) 82 (ascii "FAT32   ")
  sectorBytes_legal := ⟨0, by decide, by decide⟩
  clusterSectors_legal := ⟨3, by decide, by decide⟩
  reserved_pos := by decide
  fats_pos := by decide
  rootEntries_legal := by decide
  clusters_pos := by decide
  is32_iff := by decide
  fat_holds := by decide
  rootCluster_legal := by decide

/-- The tables end in sector 65568, and the root directory is read from sector 32 on. -/
theorem not_findsBlocks_volume32 :
  ¬ FindsBlocks volume32 volume32.image.disk fun _ => 0
  := by
  rintro ⟨bs, fatsize, hread, _, hroot, _⟩
  rw [readBootsectandvi_eq (disk_serves _) fun i _ => rfl] at hread
  obtain ⟨rfl, h32⟩ := parseBoot_inv hread
  rw [toNat_rootdirSect _ h32] at hroot
  revert hroot
  decide

end Fat
