import UBoot.Lmb.Joining
import UBoot.Lmb.Search

/-!
# Where an allocation is placed

`__lmb_alloc_base` on tables that are sorted and disjoint.  Its sums and differences are of 32
bits, so that a range which ends where the addresses end, or a request that is larger than the
ceiling, can lead the search astray.
-/

namespace Lmb

/-- A table that is sorted and disjoint, and no entry of which goes beyond the last address. -/
structure Region.Tidy (rgn : Region) : Prop where
  ordered : rgn.Ordered
  noWrap : ∀ p ∈ rgn.entries, p.NoWrap

/-- What is expected of an address that `__lmb_alloc_base` returns. -/
structure Placed (lmb lmb' : Lmb) (size align maxAddr addr : Word) : Prop where
  aligned : align.toNat ∣ addr.toNat
  inside : ∃ block ∈ lmb.memory.entries, addresses addr size ⊆ addresses block.base block.size
  below : maxAddr ≠ 0 → addr.toNat + size.toNat ≤ maxAddr.toNat
  free : Disjoint (addresses addr size) lmb.reserved.covered
  covered : addresses addr size ⊆ lmb'.reserved.covered

/-- The allocation comes to an end, and an address that it returns is where it should be. -/
def PlacesWell (lmb : Lmb) (size align maxAddr : Word) : Prop :=
  ∃ addr lmb', lmb.allocBase size align maxAddr = some (addr, lmb')
    ∧ (addr ≠ 0 → Placed lmb lmb' size align maxAddr addr)

/-- What must hold at an address that the allocation can take in a block of memory. -/
structure AddressMeets (lmb : Lmb) (size align maxAddr : Word) (block : Property) (b : Word) :
    Prop where
  /-- For a size above the ceiling, and in a block that ends where the addresses end, the search
  does not begin below the ceiling. -/
  below : maxAddr ≠ 0 → maxAddr < size ∨ block.range.2 = 2 ^ 32 →
    b.toNat + size.toNat ≤ maxAddr.toNat
  /-- The test does not see an entry that ends where the addresses end, nor any entry when the
  range ends there. -/
  clear : ∀ p ∈ lmb.reserved.entries, p.range.2 = 2 ^ 32 ∨ b.toNat + size.toNat = 2 ^ 32 →
    Disjoint (addresses b size) (addresses p.base p.size)
  /-- In a table without entries what was there before is read. -/
  stale : lmb.reserved.cnt = 0 → lmb.reserved.regionsAdjacent 0 1 = 0
    ∧ (b < (lmb.reserved.region 0).base
      ∨ b.toNat + size.toNat ≤ (lmb.reserved.region 0).range.2)
  /-- An entry of all the addresses would have the size 0. -/
  whole : ¬ Region.Closes b.toNat (b.toNat + (alignUp size align).toNat) lmb.reserved.entries

/-- What must hold for an allocation. -/
def AllocMeets (lmb : Lmb) (size align maxAddr : Word) : Prop :=
  ∀ block ∈ lmb.memory.entries, ∀ b, VacantIn lmb size align maxAddr block b →
    AddressMeets lmb size align maxAddr block b

/-! ### The tables -/

section Tables

variable {rgn rgn' : Region} {ℓ : List Property} {p new : Property} {i j n : ℕ} {c : ℤ}

theorem Region.Lists.subset_covered (h : rgn.Lists ℓ) (hp : p ∈ ℓ) {lo hi : ℕ}
    (hlo : p.range.1 ≤ lo) (hhi : hi ≤ p.range.2) :
  Set.Ico lo hi ⊆ rgn.covered
  := by
  intro a ha
  rw [mem_covered_iff, h.entries_eq]
  exact ⟨p, hp, le_trans hlo ha.1, lt_of_lt_of_le ha.2 hhi⟩

theorem Region.getElem_entries (h : i < rgn.entries.length) :
  rgn.entries[i] = rgn.region i
  := by
  have hread := Memory.getElem_read rgn.region 0 rgn.cnt i h
  rwa [Nat.zero_add] at hread

theorem Region.region_mem (h : i < rgn.cnt) :
  rgn.region i ∈ rgn.entries
  := by
  have hlen : i < rgn.entries.length := by rwa [← rgn.lists_entries.1]
  rw [← Region.getElem_entries hlen]
  apply List.getElem_mem

theorem Region.exists_region (h : p ∈ rgn.entries) :
  ∃ i < rgn.cnt, rgn.region i = p
  := by
  obtain ⟨i, hi, rfl⟩ := List.getElem_of_mem h
  exact ⟨i, by rwa [rgn.lists_entries.1], (Region.getElem_entries hi).symm⟩

/-- In a tidy table an entry ends before one behind it begins that is not empty. -/
theorem Region.Tidy.end_le (h : rgn.Tidy) (hij : i < j) (hj : j < rgn.cnt)
    (hpos : 0 < (rgn.region j).size.toNat) :
  (rgn.region i).range.2 ≤ (rgn.region j).range.1
  := by
  have hlen : rgn.entries.length = rgn.cnt := rgn.lists_entries.1.symm
  have hsorted := List.pairwise_iff_getElem.mp h.ordered.sorted i j (by omega) (by omega) hij
  have hdisj := List.pairwise_iff_getElem.mp h.ordered.disjoint i j (by omega) (by omega) hij
  simp only [Region.getElem_entries] at hsorted hdisj
  have hdisj := Set.Ico_disjoint_Ico.mp hdisj
  rw [BitVec.lt_def] at hsorted
  simp only [Property.range]
  omega

/-- In a table without entries the new one is put in front of the old entry, or lost behind it. -/
theorem Region.addRegion_of_cnt_zero (h : rgn.cnt = 0) :
  rgn.addRegion new.base new.size
    = if rgn.regionsAdjacent 0 1 = 0 then some (0, rgn.insertRegion new.base new.size) else none
  := by
  have hnot : ¬ (rgn.cnt = 1 ∧ (rgn.region 0).size = 0) := by omega
  have hlt : 0 < (0 + (2 ^ 32 - 1)) % 2 ^ 32 := by decide
  have hcoalesce : rgn.coalesceRegions 0 1 = none := by
    rw [Region.coalesceRegions, Region.removeRegion]
    exact if_pos (.inl h)
  rw [Region.addRegion, if_neg hnot, h, Region.scanLoop, Region.Scan.finish, Region.finishAdd, h]
  by_cases hadj : rgn.regionsAdjacent 0 1 = 0
  · have hno : ¬ (0 < (0 + (2 ^ 32 - 1)) % 2 ^ 32 ∧ rgn.regionsAdjacent 0 (0 + 1) ≠ 0) :=
      fun hyes => hyes.2 hadj
    rw [if_neg hno, if_pos hadj]
    simp [h, maxLmbRegions]
  · rw [if_pos ⟨hlt, hadj⟩, if_neg hadj]
    simp [hcoalesce]

theorem Region.entries_insertRegion (h : rgn.cnt = 0) :
  (rgn.insertRegion new.base new.size).entries
    = [if new.base < (rgn.region 0).base then new else rgn.region 0]
  := by
  rw [Region.entries, Region.insertRegion, h, Region.insertLoop]
  split_ifs
  · rfl
  · rfl

end Tables

/-! ### Where the search of a block begins -/

section Start

variable {size maxAddr start b : Word} {block : Property} {k n : ℕ}

theorem toNat_ofNat_two_pow (hk : k < 32) :
  (BitVec.ofNat 32 (2 ^ k) : Word).toNat = 2 ^ k
  := by
  rw [BitVec.toNat_ofNat, Nat.mod_eq_of_lt (Nat.pow_lt_pow_right (by decide) hk)]

/-- The range with its size rounded up ends where the range rounded up ends. -/
theorem add_alignUp (hk : k < 32) (hne : b ≠ 0) (hdvd : 2 ^ k ∣ b.toNat)
    (hle : b.toNat + size.toNat ≤ 2 ^ 32) :
  size.toNat ≤ (alignUp size (BitVec.ofNat 32 (2 ^ k))).toNat
    ∧ (alignUp size (BitVec.ofNat 32 (2 ^ k))).toNat < size.toNat + b.toNat
    ∧ b.toNat + (alignUp size (BitVec.ofNat 32 (2 ^ k))).toNat
      = (b.toNat + size.toNat + (2 ^ k - 1)) / 2 ^ k * 2 ^ k
  := by
  have hpos : 0 < 2 ^ k := Nat.two_pow_pos k
  obtain ⟨m, hm⟩ := hdvd
  have hkb : 2 ^ k ≤ b.toNat := by
    apply Nat.le_of_dvd _ ⟨m, hm⟩
    rw [Nat.pos_iff_ne_zero]
    exact fun h => hne (BitVec.eq_of_toNat_eq h)
  rw [alignUp, Align.toNat_add_and_not hk (by omega)]
  have hmod := Nat.div_add_mod (size.toNat + (2 ^ k - 1)) (2 ^ k)
  have hlt := Nat.mod_lt (size.toNat + (2 ^ k - 1)) hpos
  rw [Nat.mul_comm] at hmod
  refine ⟨by omega, by omega, ?_⟩
  rw [hm, Nat.add_assoc, Nat.mul_add_div hpos, Nat.add_mul, Nat.mul_comm m]

/-- Rounding up stays below a multiple. -/
theorem roundUp_le {a m : ℕ} (hm : 2 ^ k ∣ m) (ha : a ≤ m) :
  (a + (2 ^ k - 1)) / 2 ^ k * 2 ^ k ≤ m
  := by
  have hpos : 0 < 2 ^ k := Nat.two_pow_pos k
  obtain ⟨d, rfl⟩ := hm
  have hdiv : (a + (2 ^ k - 1)) / 2 ^ k ≤ d := by
    apply Nat.le_of_lt_succ
    rw [Nat.div_lt_iff_lt_mul hpos, Nat.succ_mul, Nat.mul_comm d]
    omega
  rw [Nat.mul_comm]
  exact Nat.mul_le_mul_left _ hdiv

/-- The search of a block begins inside it, unless the size is above the ceiling; it begins below
the ceiling, unless the block ends where the addresses end. -/
theorem startBase_spec (hblock : block.NoWrap) (hsize : 0 < size.toNat) (hfits : Fits size maxAddr)
    (h : startBase block size (BitVec.ofNat 32 (2 ^ k)) maxAddr = some start) :
  start.toNat + size.toNat ≤ block.range.2
    ∧ (maxAddr ≠ 0 → block.range.2 ≠ 2 ^ 32 → start.toNat + size.toNat ≤ maxAddr.toNat)
  := by
  by_cases hend : block.range.2 = 2 ^ 32
  · -- the sum of base and size is 0, and the search begins `size` below the end
    refine ⟨?_, fun _ hne => absurd hend hne⟩
    have hzero : block.base + block.size = 0 := by
      apply BitVec.eq_of_toNat_eq
      rw [BitVec.toNat_add]
      simp only [Property.range] at hend
      rw [hend]
      rfl
    have hstart : start = alignDown (0 - size) (BitVec.ofNat 32 (2 ^ k)) := by
      simp only [startBase, hzero] at h
      split_ifs at h with _ _ hbase htop
      · exact (Option.some.inj h).symm
      · exact (Option.some.inj h).symm
      · rw [BitVec.lt_def] at hbase htop
        exact absurd (Nat.zero_lt_of_lt hbase) htop
    have hdown := toNat_alignDown_le (0 - size) (BitVec.ofNat 32 (2 ^ k))
    rw [← hstart, BitVec.toNat_sub] at hdown
    have hlt := size.isLt
    have h0 : (0 : Word).toNat = 0 := rfl
    omega
  · have hbounded : block.Bounded := lt_of_le_of_ne hblock hend
    have hs := start_of_startBase hbounded hfits h
    exact ⟨hs.high, fun hmax _ => hs.below hmax⟩

theorem startBase_aligned (hk : k < 32)
    (h : startBase block size (BitVec.ofNat 32 (2 ^ k)) maxAddr = some start) :
  2 ^ k ∣ start.toNat
  := by
  simp only [startBase] at h
  split_ifs at h
  all_goals
    rw [← Option.some.inj h]
    apply two_pow_dvd_alignDown hk

/-- What holds of every address that can be taken in a block. -/
structure InBlock (size maxAddr : Word) (k : ℕ) (block : Property) (b : Word) : Prop where
  aligned : 2 ^ k ∣ b.toNat
  ne_zero : b ≠ 0
  low : block.range.1 ≤ b.toNat
  high : b.toNat + size.toNat ≤ block.range.2
  below : maxAddr ≠ 0 → block.range.2 ≠ 2 ^ 32 → b.toNat + size.toNat ≤ maxAddr.toNat
  size_le : size.toNat ≤ block.size.toNat

theorem VacantIn.inBlock {lmb : Lmb} (hk : k < 32) (hblock : block.NoWrap) (hsize : 0 < size.toNat)
    (hfits : Fits size maxAddr)
    (h : VacantIn lmb size (BitVec.ofNat 32 (2 ^ k)) maxAddr block b) :
  InBlock size maxAddr k block b
  := by
  obtain ⟨start, hstart, hv⟩ := h
  obtain ⟨hhigh, hbelow⟩ := startBase_spec hblock hsize hfits hstart
  have hle := hv.le
  constructor
  case aligned =>
    rcases hv.candidate with rfl | ⟨p, -, -, rfl⟩
    · exact startBase_aligned hk hstart
    · apply two_pow_dvd_alignDown hk
  case ne_zero => exact hv.ne_zero
  case low => exact BitVec.le_def.mp hv.low
  case high => omega
  case below =>
    intro hmax hend
    have hle' := hbelow hmax hend
    omega
  case size_le => exact (startBase_some hstart).1

end Start

/-! ### The address that is taken -/

section Taken

variable {lmb lmb' : Lmb} {size maxAddr b b' : Word} {block block' : Property} {k : ℕ}

/-- For an address that can be taken the size is not above the ceiling. -/
theorem AddressMeets.fits {align : Word} (h : AddressMeets lmb size align maxAddr block b) :
  Fits size maxAddr
  := by
  by_cases hmax : maxAddr = 0
  · exact .inl hmax
  · right
    by_contra hlt
    have hbelow := h.below hmax (.inl (BitVec.not_le.mp hlt))
    rw [BitVec.le_def] at hlt
    omega

/-- What can be taken overlaps no reserved entry, but for those that the test does not see. -/
theorem VacantIn.disjoint {align : Word} (hres : lmb.reserved.Tidy)
    (h : VacantIn lmb size align maxAddr block b) (hle : b.toNat + size.toNat ≤ 2 ^ 32)
    (hclear : ∀ p ∈ lmb.reserved.entries, p.range.2 = 2 ^ 32 ∨ b.toNat + size.toNat = 2 ^ 32 →
      Disjoint (addresses b size) (addresses p.base p.size)) :
  ∀ p ∈ lmb.reserved.entries, Disjoint (addresses b size) (addresses p.base p.size)
  := by
  obtain ⟨start, -, hv⟩ := h
  intro p hp
  by_cases hwrap : p.range.2 = 2 ^ 32 ∨ b.toNat + size.toNat = 2 ^ 32
  · exact hclear p hp hwrap
  · rw [not_or] at hwrap
    apply disjoint_of_not_addrsOverlap (lt_of_le_of_ne hle hwrap.2)
      (lt_of_le_of_ne (hres.noWrap p hp) hwrap.1)
    exact not_addrsOverlap_of_clear hv.clear hp

theorem InBlock.room (h : InBlock size maxAddr k block b) (hk : k < 32) (hblock : block.NoWrap)
    (hsize : 0 < size.toNat) (hres : lmb.reserved.Tidy)
    (hfree : ∀ p ∈ lmb.reserved.entries, Disjoint (addresses b size) (addresses p.base p.size)) :
  Region.Room ⟨b, alignUp size (BitVec.ofNat 32 (2 ^ k))⟩ size.toNat lmb.reserved.entries
  := by
  have hle : b.toNat + size.toNat ≤ 2 ^ 32 := le_trans h.high hblock
  obtain ⟨hup, hlt, hend⟩ := add_alignUp hk h.ne_zero h.aligned hle
  constructor
  case base_pos => exact Nat.pos_of_ne_zero fun h0 => h.ne_zero (BitVec.eq_of_toNat_eq h0)
  case pos => exact hsize
  case le => exact hup
  case round => exact hlt
  case high =>
    simp only [Property.range, hend]
    exact roundUp_le (pow_dvd_pow 2 hk.le) hle
  case sorted => exact hres.ordered.sorted
  case disjoint => exact hres.ordered.disjoint
  case noWrap => exact hres.noWrap
  case free => exact hfree

theorem disjoint_covered_iff {rgn : Region} :
  Disjoint (addresses b size) rgn.covered
    ↔ ∀ p ∈ rgn.entries, Disjoint (addresses b size) (addresses p.base p.size)
  := by
  simp only [Set.disjoint_left, mem_covered_iff]
  constructor
  · exact fun h p hp a ha hap => h ha ⟨p, hp, hap⟩
  · exact fun h a ha ⟨p, hp, hap⟩ => h p hp ha hap

/-- **What is taken is covered afterwards** unless it makes up all the addresses with the entries
that it is joined to. -/
theorem covered_iff {rgn : Region} {new : Property} {n : ℕ} {c : ℤ} {rgn' : Region}
    (hroom : Region.Room new n rgn.entries) (hcnt : rgn.cnt ≠ 0) (hle : rgn.cnt ≤ maxLmbRegions)
    (hadd : rgn.addRegion new.base new.size = some (c, rgn')) (hc : 0 ≤ c) :
  Set.Ico new.base.toNat (new.base.toNat + n) ⊆ rgn'.covered
    ↔ ¬ Region.Closes new.base.toNat new.range.2 rgn.entries
  := by
  obtain ⟨c', rgn'', hadd', hcases⟩ := Region.addRegion_joined hcnt hle hroom.sorted new
  rw [hadd, Option.some.injEq, Prod.mk.injEq] at hadd'
  obtain ⟨rfl, rfl⟩ := hadd'
  obtain ⟨-, A, B, hl, hA, hB⟩ := hcases.resolve_left fun h => absurd hc (not_le.mpr h.1)
  obtain ⟨hhas, hnot⟩ := hroom.joined_cases
  constructor
  · intro hsub hcloses
    have hmem : new.base.toNat ∈ Set.Ico new.base.toNat (new.base.toNat + n) :=
      ⟨le_rfl, Nat.lt_add_of_pos_right hroom.pos⟩
    obtain ⟨p, hp, hap⟩ := mem_covered_iff.mp (hsub hmem)
    rw [hl.entries_eq, List.mem_append, List.mem_cons] at hp
    rcases hp with hp | rfl | hp
    · exact Set.disjoint_left.mp (hroom.free p (hA hp)) hmem hap
    · exact hnot hcloses hap
    · exact Set.disjoint_left.mp (hroom.free p (hB hp)) hmem hap
  · intro hcloses
    obtain ⟨hlo, hhi⟩ := hhas hcloses
    exact hl.subset_covered (by simp) hlo hhi

/-- In a table without entries what is taken is covered when it is put in front of the old entry,
or lies in it. -/
theorem covered_stale_iff {rgn : Region} {new : Property} {n : ℕ} (hcnt : rgn.cnt = 0)
    (hn : n ≤ new.size.toNat) (hpos : 0 < n) :
  Set.Ico new.base.toNat (new.base.toNat + n) ⊆ (rgn.insertRegion new.base new.size).covered
    ↔ new.base < (rgn.region 0).base ∨ new.base.toNat + n ≤ (rgn.region 0).range.2
  := by
  have hmem : new.base.toNat ∈ Set.Ico new.base.toNat (new.base.toNat + n) := ⟨le_rfl, by omega⟩
  have hlast : new.base.toNat + n - 1 ∈ Set.Ico new.base.toNat (new.base.toNat + n) :=
    ⟨by omega, by omega⟩
  have hcov (a : ℕ) : a ∈ (rgn.insertRegion new.base new.size).covered
      ↔ a ∈ Set.Ico (if new.base < (rgn.region 0).base then new else rgn.region 0).range.1
        (if new.base < (rgn.region 0).base then new else rgn.region 0).range.2 := by
    rw [mem_covered_iff, Region.entries_insertRegion hcnt]
    simp
  by_cases hlt : new.base < (rgn.region 0).base
  · refine ⟨fun _ => .inl hlt, fun _ a ha => (hcov a).mpr ?_⟩
    rw [if_pos hlt]
    exact ⟨ha.1, lt_of_lt_of_le ha.2 (Nat.add_le_add_left hn _)⟩
  · simp only [if_neg hlt] at hcov
    rw [BitVec.not_lt, BitVec.le_def] at hlt
    constructor
    · intro hsub
      right
      have hhi := ((hcov _).mp (hsub hlast)).2
      omega
    · rintro (hlt' | hhi)
      · rw [BitVec.lt_def] at hlt'
        omega
      · exact fun a ha => (hcov a).mpr ⟨le_trans hlt ha.1, lt_of_lt_of_le ha.2 hhi⟩

theorem take_placed (hmem : lmb.memory.Tidy) (hres : lmb.reserved.Tidy) (hsize : 0 < size.toNat)
    (hk : k < 32) (hblock : block ∈ lmb.memory.entries)
    (hv : VacantIn lmb size (BitVec.ofNat 32 (2 ^ k)) maxAddr block b)
    (hmeets : AddressMeets lmb size (BitVec.ofNat 32 (2 ^ k)) maxAddr block b) :
  ∃ addr lmb', lmb.take size (BitVec.ofNat 32 (2 ^ k)) b = some (addr, lmb')
    ∧ (addr ≠ 0 → Placed lmb lmb' size (BitVec.ofNat 32 (2 ^ k)) maxAddr addr)
  := by
  have hin := hv.inBlock hk (hmem.noWrap _ hblock) hsize hmeets.fits
  have hle : b.toNat + size.toNat ≤ 2 ^ 32 := le_trans hin.high (hmem.noWrap _ hblock)
  have hfree := hv.disjoint hres hle hmeets.clear
  have hroom := hin.room hk (hmem.noWrap _ hblock) hsize hres hfree
  have hadd : ∃ c rgn', lmb.reserved.addRegion b (alignUp size (BitVec.ofNat 32 (2 ^ k)))
        = some (c, rgn')
      ∧ (0 ≤ c → addresses b size ⊆ rgn'.covered) := by
    by_cases hcnt : lmb.reserved.cnt = 0
    · obtain ⟨hadj, hstale⟩ := hmeets.stale hcnt
      have heq := @Region.addRegion_of_cnt_zero lmb.reserved
        ⟨b, alignUp size (BitVec.ofNat 32 (2 ^ k))⟩ hcnt
      rw [if_pos hadj] at heq
      exact ⟨0, _, heq, fun _ => (covered_stale_iff hcnt hroom.le hsize).mpr hstale⟩
    · obtain ⟨c, rgn', heq, -⟩ := Region.addRegion_joined hcnt hres.ordered.cnt_le
        hres.ordered.sorted ⟨b, alignUp size (BitVec.ofNat 32 (2 ^ k))⟩
      refine ⟨c, rgn', heq, fun hc => ?_⟩
      exact (covered_iff hroom hcnt hres.ordered.cnt_le heq hc).mpr hmeets.whole
  obtain ⟨c, rgn', heq, hcovered⟩ := hadd
  refine ⟨_, _, by rw [take, heq]; rfl, ?_⟩
  intro haddr
  by_cases hc : c < 0
  · exact absurd (if_pos hc) haddr
  rw [if_neg hc]
  constructor
  case aligned =>
    rw [toNat_ofNat_two_pow hk]
    exact hin.aligned
  case inside => exact ⟨block, hblock, Set.Ico_subset_Ico hin.low hin.high⟩
  case below =>
    intro hmax
    by_cases hend : block.range.2 = 2 ^ 32
    · exact hmeets.below hmax (.inr hend)
    · exact hin.below hmax hend
  case free => exact disjoint_covered_iff.mpr hfree
  case covered => exact hcovered (not_lt.mp hc)

/-- With room in the table what is taken is returned. -/
theorem take_returns {align addr : Word} (hres : lmb.reserved.Tidy)
    (hroom : lmb.reserved.cnt < maxLmbRegions)
    (h : lmb.take size align b = some (addr, lmb')) :
  addr = b ∧ ∃ c, lmb.reserved.addRegion b (alignUp size align) = some (c, lmb'.reserved) ∧ 0 ≤ c
  := by
  obtain ⟨⟨c, rgn'⟩, hadd, heq⟩ := Option.map_eq_some_iff.mp h
  obtain ⟨rfl, rfl⟩ := Prod.mk.inj heq
  have hc : 0 ≤ c := by
    by_cases hcnt : lmb.reserved.cnt = 0
    · have heq' := @Region.addRegion_of_cnt_zero lmb.reserved ⟨b, alignUp size align⟩ hcnt
      rw [hadd] at heq'
      split_ifs at heq'
      rw [(Prod.mk.inj (Option.some.inj heq')).1]
    · obtain ⟨c', rgn'', hadd', hcases⟩ := Region.addRegion_joined hcnt hres.ordered.cnt_le
        hres.ordered.sorted ⟨b, alignUp size align⟩
      rw [hadd, Option.some.injEq, Prod.mk.injEq] at hadd'
      rcases hcases with ⟨-, hfull⟩ | ⟨hc, -⟩
      · omega
      · omega
  exact ⟨if_neg (not_lt.mpr hc), c, hadd, hc⟩

/-- The address that is taken is the highest of all that can be taken. -/
theorem Takes.le {i j : ℕ} (hmem : lmb.memory.Tidy) (hsize : 0 < size.toNat) (hk : k < 32)
    (hfits : Fits size maxAddr)
    (h : Takes lmb size (BitVec.ofNat 32 (2 ^ k)) maxAddr lmb.memory.cnt i b)
    (hj : j < lmb.memory.cnt)
    (hv : VacantIn lmb size (BitVec.ofNat 32 (2 ^ k)) maxAddr (lmb.memory.region j) b') :
  b'.toNat ≤ b.toNat
  := by
  rcases Nat.lt_trichotomy j i with hji | rfl | hij
  · have hi := h.vacant.inBlock hk (hmem.noWrap _ (Region.region_mem h.lt)) hsize hfits
    have hin := hv.inBlock hk (hmem.noWrap _ (Region.region_mem hj)) hsize hfits
    have hend := hmem.end_le hji h.lt (lt_of_lt_of_le hsize hi.size_le)
    have hhigh := hin.high
    have hlow := hi.low
    omega
  · exact h.highest b' hv
  · exact absurd hv (h.above j hij hj b')

/-- When an address that can be taken closes the addresses, there is none above it. -/
theorem eq_of_closes (hk : k < 32) (hsize : 0 < size.toNat) (hb : InBlock size maxAddr k block b)
    (hb' : InBlock size maxAddr k block' b') (hblock : block.NoWrap) (hblock' : block'.NoWrap)
    (hle : b'.toNat ≤ b.toNat) {ℓ : List Property}
    (hfree : ∀ p ∈ ℓ, Disjoint (addresses b size) (addresses p.base p.size))
    (hcloses : Region.Closes b'.toNat
      (b'.toNat + (alignUp size (BitVec.ofNat 32 (2 ^ k))).toNat) ℓ) :
  b = b'
  := by
  have hhigh : b.toNat + size.toNat ≤ 2 ^ 32 := le_trans hb.high hblock
  have hhigh' : b'.toNat + size.toNat ≤ 2 ^ 32 := le_trans hb'.high hblock'
  obtain ⟨-, -, hend⟩ := add_alignUp hk hb.ne_zero hb.aligned hhigh
  obtain ⟨-, -, hend'⟩ := add_alignUp hk hb'.ne_zero hb'.aligned hhigh'
  have hbelow : b.toNat + size.toNat
      ≤ b'.toNat + (alignUp size (BitVec.ofNat 32 (2 ^ k))).toNat := by
    cases hcloses with
    | below hp hx => exact hx ▸ hhigh
    | twoBelow hp hq hx => exact hx ▸ hhigh
    | @between p q ℓ hp hq hx =>
      have hdisj := Set.Ico_disjoint_Ico.mp (hfree q (by simp))
      have hlt := b.isLt
      simp only [Property.range] at hq hx
      omega
  have hround : b.toNat + (alignUp size (BitVec.ofNat 32 (2 ^ k))).toNat
      ≤ b'.toNat + (alignUp size (BitVec.ofNat 32 (2 ^ k))).toNat := by
    rw [hend]
    exact roundUp_le (hend' ▸ Nat.dvd_mul_left _ _) hbelow
  apply BitVec.eq_of_toNat_eq
  omega

theorem Takes.meets {i j : ℕ} {c : ℤ} (hmem : lmb.memory.Tidy) (hres : lmb.reserved.Tidy)
    (hsize : 0 < size.toNat) (hk : k < 32)
    (h : Takes lmb size (BitVec.ofNat 32 (2 ^ k)) maxAddr lmb.memory.cnt i b)
    (hadd : lmb.reserved.addRegion b (alignUp size (BitVec.ofNat 32 (2 ^ k)))
      = some (c, lmb'.reserved)) (hc : 0 ≤ c)
    (hplaced : Placed lmb lmb' size (BitVec.ofNat 32 (2 ^ k)) maxAddr b)
    (hj : j < lmb.memory.cnt)
    (hv : VacantIn lmb size (BitVec.ofNat 32 (2 ^ k)) maxAddr (lmb.memory.region j) b') :
  AddressMeets lmb size (BitVec.ofNat 32 (2 ^ k)) maxAddr (lmb.memory.region j) b'
  := by
  have hfits : Fits size maxAddr := by
    by_cases hmax : maxAddr = 0
    · exact .inl hmax
    · have hbelow := hplaced.below hmax
      exact .inr (BitVec.le_def.mpr (by omega))
  have hle := h.le hmem hsize hk hfits hj hv
  have hwrap := hmem.noWrap _ (Region.region_mem h.lt)
  have hin := h.vacant.inBlock hk hwrap hsize hfits
  have hin' := hv.inBlock hk (hmem.noWrap _ (Region.region_mem hj)) hsize hfits
  have hhigh : b.toNat + size.toNat ≤ 2 ^ 32 := le_trans hin.high hwrap
  have hfree := disjoint_covered_iff.mp hplaced.free
  have hroom := hin.room hk hwrap hsize hres hfree
  constructor
  case below =>
    intro hmax _
    have hbelow := hplaced.below hmax
    omega
  case clear =>
    intro p hp hend
    rcases hend with hend | hend
    · have hdisj := Set.Ico_disjoint_Ico.mp (hfree p hp)
      have hlt := b.isLt
      simp only [Property.range] at hend
      apply Set.Ico_disjoint_Ico.mpr
      omega
    · obtain rfl : b = b' := BitVec.eq_of_toNat_eq (by omega)
      exact hfree p hp
  case stale =>
    intro hcnt
    have heq := @Region.addRegion_of_cnt_zero lmb.reserved
      ⟨b, alignUp size (BitVec.ofNat 32 (2 ^ k))⟩ hcnt
    rw [hadd] at heq
    split_ifs at heq with hadj
    refine ⟨hadj, ?_⟩
    have hcovered := hplaced.covered
    rw [(Prod.mk.inj (Option.some.inj heq)).2] at hcovered
    refine ((covered_stale_iff hcnt hroom.le hsize).mp hcovered).imp ?_ ?_
    · intro hlt
      rw [BitVec.lt_def] at hlt ⊢
      exact lt_of_le_of_lt hle hlt
    · intro hend
      exact le_trans (Nat.add_le_add_right hle _) hend
  case whole =>
    intro hcloses
    have hcnt : lmb.reserved.cnt ≠ 0 := by
      obtain ⟨p, hp, -⟩ := hcloses.head
      rw [lmb.reserved.lists_entries.1]
      exact (List.length_pos_of_mem hp).ne'
    obtain rfl := eq_of_closes hk hsize hin hin' hwrap (hmem.noWrap _ (Region.region_mem hj)) hle
      hfree hcloses
    exact (covered_iff hroom hcnt hres.ordered.cnt_le hadd hc).mp hplaced.covered hcloses

/-- **Where an allocation is placed.**  An address that is returned is where it should be, when
every address that can be taken meets the condition; and only then, when the table of what is
reserved has room. -/
theorem allocBase_placed (lmb : Lmb) (hmem : lmb.memory.Tidy) (hres : lmb.reserved.Tidy)
    (size align maxAddr : Word) (hsize : 0 < size.toNat)
    (halign : ∃ k < 32, align = BitVec.ofNat 32 (2 ^ k)) :
  (AllocMeets lmb size align maxAddr → PlacesWell lmb size align maxAddr)
    ∧ (lmb.reserved.cnt < maxLmbRegions →
      PlacesWell lmb size align maxAddr → AllocMeets lmb size align maxAddr)
  := by
  obtain ⟨k, hk, rfl⟩ := halign
  constructor
  · intro hmeets
    rcases allocLoop_ends lmb size maxAddr hk lmb.memory.cnt with ⟨-, heq⟩ | ⟨i, b, htakes, heq⟩
    · exact ⟨0, lmb, heq, fun h0 => absurd rfl h0⟩
    · rw [PlacesWell, allocBase, heq]
      have hblock := Region.region_mem htakes.lt
      exact take_placed hmem hres hsize hk hblock htakes.vacant
        (hmeets _ hblock b htakes.vacant)
  · rintro hroom ⟨addr, lmb', halloc, hplaced⟩ block hblock b' hv
    obtain ⟨j, hj, rfl⟩ := Region.exists_region hblock
    rw [allocBase] at halloc
    rcases allocLoop_ends lmb size maxAddr hk lmb.memory.cnt with ⟨hnone, -⟩ | ⟨i, b, htakes, heq⟩
    · exact absurd hv (hnone j hj b')
    · rw [heq] at halloc
      obtain ⟨rfl, c, hadd, hc⟩ := take_returns hres hroom halloc
      have hne : addr ≠ 0 := by
        obtain ⟨start, -, hvacant⟩ := htakes.vacant
        exact hvacant.ne_zero
      exact htakes.meets hmem hres hsize hk hadd hc (hplaced hne) hj hv

end Taken

/-- A table with one entry. -/
def single (base size : Word) : Region := ⟨1, fun _ => ⟨base, size⟩⟩

theorem tidy_single {base size : Word} (h : base.toNat + size.toNat ≤ 2 ^ 32) :
  (single base size).Tidy
  := by
  have hentries : (single base size).entries = [⟨base, size⟩] := rfl
  refine ⟨⟨Nat.one_le_ofNat, ?_, ?_⟩, ?_⟩
  · rw [hentries]
    exact List.pairwise_singleton _ _
  · rw [hentries]
    exact List.pairwise_singleton _ _
  · rw [hentries]
    exact List.forall_mem_singleton.mpr h

/-- A ramdisk is allocated below the device tree. -/
theorem allocBase_placed_ramdisk :
  ∃ lmb', Placed ⟨single 0 0x20000000, single 0x1fff0000 0x4000⟩ lmb' 0x3100 0x1000 0x1fff4000
    0x1ffec000
  := by
  have halloc : ∃ lmb', Lmb.allocBase ⟨single 0 0x20000000, single 0x1fff0000 0x4000⟩ 0x3100 0x1000
      0x1fff4000 = some (0x1ffec000, lmb') := ⟨_, rfl⟩
  have hmeets : AllocMeets ⟨single 0 0x20000000, single 0x1fff0000 0x4000⟩ 0x3100 0x1000
      0x1fff4000 := by
    intro block hblock b ⟨start, hstart, hv⟩
    obtain rfl : block = ⟨0, 0x20000000⟩ := List.mem_singleton.mp hblock
    obtain rfl : start = 0x1fff0000 := (Option.some.inj hstart).symm
    have hle : b.toNat ≤ 0x1fff0000 := hv.le
    constructor
    case below =>
      rintro - (hlt | hend)
      · exact absurd hlt (by decide)
      · exact absurd hend (by decide)
    case clear =>
      rintro p hp (hend | hend)
      · obtain rfl : p = ⟨0x1fff0000, 0x4000⟩ := List.mem_singleton.mp hp
        exact absurd hend (by decide)
      · have hsize : (0x3100 : Word).toNat = 0x3100 := rfl
        omega
    case stale => exact fun hcnt => absurd hcnt (by decide)
    case whole =>
      intro hcloses
      obtain ⟨p, hp, hzero⟩ := hcloses.head
      obtain rfl : p = ⟨0x1fff0000, 0x4000⟩ := List.mem_singleton.mp hp
      exact absurd hzero (by decide)
  obtain ⟨lmb', halloc⟩ := halloc
  obtain ⟨addr, lmb'', heq, hplaced⟩ :=
    (allocBase_placed ⟨single 0 0x20000000, single 0x1fff0000 0x4000⟩ (tidy_single (by decide))
      (tidy_single (by decide)) 0x3100 0x1000 0x1fff4000 (by decide) ⟨12, by decide, by decide⟩).1
      hmeets
  rw [halloc] at heq
  obtain ⟨rfl, rfl⟩ := Prod.mk.inj (Option.some.inj heq)
  exact ⟨_, hplaced (by decide)⟩

/-- The tables are as they should be, and the address is not. -/
def Misplaced (lmb : Lmb) (size align maxAddr : Word) : Prop :=
  lmb.memory.Tidy ∧ lmb.reserved.Tidy
    ∧ ∃ addr lmb', lmb.allocBase size align maxAddr = some (addr, lmb') ∧ addr ≠ 0
      ∧ ¬ Placed lmb lmb' size align maxAddr addr

/--
A request that is larger than its ceiling is placed outside the memory; one at the end of the
addresses is placed on what is reserved there; in a table without entries it is not reserved; and
with its size rounded up to the end of the addresses it is merged with an entry at 0, of which
nothing is left.
-/
theorem allocBase_misplaced :
  Misplaced ⟨single 0x1000 0xf000, single 0 0⟩ 0x2000 0x1000 0x1800
    ∧ Misplaced ⟨single 0xfff00000 0x100000, single 0xfffff000 0x1000⟩ 0x1000 0x1000 0
    ∧ Misplaced ⟨single 0x1000 0xf000, ⟨0, fun _ => ⟨0x1000, 0x800⟩⟩⟩ 0x1000 0x1000 0
    ∧ Misplaced ⟨single 0xfffff000 0x800, single 0 0xfffff000⟩ 0x100 0x1000 0
  := by
  refine ⟨⟨tidy_single (by decide), tidy_single (by decide), 0xfffff000, _, rfl, by decide, ?_⟩,
    ⟨tidy_single (by decide), tidy_single (by decide), 0xfffff000, _, rfl, by decide, ?_⟩,
    ⟨tidy_single (by decide), ?_, 0xf000, _, rfl, by decide, ?_⟩,
    ⟨tidy_single (by decide), tidy_single (by decide), 0xfffff000, _, rfl, by decide, ?_⟩⟩
  · intro h
    exact absurd (h.below (by decide)) (by decide)
  · intro h
    have hmem : 0xfffff000 ∈ addresses 0xfffff000 0x1000 := ⟨le_rfl, by decide⟩
    refine Set.disjoint_left.mp h.free hmem ⟨(0xfffff000, 0x100000000), ?_, ⟨le_rfl, by decide⟩⟩
    decide
  · have hentries : Region.entries ⟨0, fun _ => ⟨0x1000, 0x800⟩⟩ = [] := rfl
    refine ⟨⟨by decide, ?_, ?_⟩, ?_⟩
    · rw [hentries]
      exact List.Pairwise.nil
    · rw [hentries]
      exact List.Pairwise.nil
    · rw [hentries]
      exact List.forall_mem_nil _
  · intro h
    have hmem : 0xf000 ∈ addresses 0xf000 0x1000 := ⟨le_rfl, by decide⟩
    obtain ⟨r, hr, har⟩ := h.covered hmem
    obtain rfl : r = (0x1000, 0x1800) := List.mem_singleton.mp hr
    exact absurd har.2 (by decide)
  · intro h
    have hmem : 0xfffff000 ∈ addresses 0xfffff000 0x100 := ⟨le_rfl, by decide⟩
    obtain ⟨r, hr, har⟩ := h.covered hmem
    obtain rfl : r = (0xfffff000, 0xfffff000) := List.mem_singleton.mp hr
    exact absurd har.2 (by decide)

end Lmb
