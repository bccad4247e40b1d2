import UBoot.Lib.Align
import UBoot.Lmb.AddRegion

/-!
# Freeing and allocating

`lmb_free` gives back a part of one entry, and `__lmb_alloc_base` searches the memory from
the top down for a range that overlaps no reserved one.
-/

namespace Lmb

namespace Region

variable {rgn : Region} {base size : Word} {ℓ ℓ₁ ℓ₂ : List Property} {p q : Property}

/-! ### Freeing a range -/

/-- The loop of `lmb_free` finds an entry that contains the range, or runs to the end. -/
theorem findRegion_spec (base endAddr : Word) {i : ℕ} (h : Memory.Holds rgn.region i ℓ) :
  findRegion rgn base endAddr i ℓ.length = i + ℓ.length
    ∨ ∃ A p B, ℓ = A ++ p :: B ∧ findRegion rgn base endAddr i ℓ.length = i + A.length
      ∧ (p.base ≤ base ∧ endAddr ≤ p.base + p.size)
      ∧ ∀ q ∈ A, ¬ (q.base ≤ base ∧ endAddr ≤ q.base + q.size)
  := by
  induction ℓ generalizing i with
  | nil => exact .inl rfl
  | cons p ℓ ih =>
    rw [List.length_cons, findRegion, h.1]
    by_cases hp : p.base ≤ base ∧ endAddr ≤ p.base + p.size
    · right
      exact ⟨[], p, ℓ, rfl, if_pos hp, hp, List.forall_mem_nil _⟩
    · simp only [if_neg hp]
      rcases ih h.2 with hend | ⟨A, q, B, rfl, hA, hq, hall⟩
      · left
        omega
      · right
        refine ⟨p :: A, q, B, rfl, ?_, hq, List.forall_mem_cons.mpr ⟨hp, hall⟩⟩
        rw [hA, List.length_cons]
        omega

/-- The entry that holds the freed range, and what `lmb_free` makes of it. -/
structure Found (rgn : Region) (base size : Word) (A : List Property) (p : Property)
    (B : List Property) : Prop where
  lists : rgn.Lists (A ++ p :: B)
  inv : rgn.Inv
  index : rgn.findRegion base (base + size) 0 rgn.cnt = A.length
  low : p.range.1 ≤ base.toNat
  high : base.toNat + size.toNat ≤ p.range.2

namespace Found

variable {A B : List Property}

theorem bounded (h : Found rgn base size A p B) :
  p.Bounded
  := by
  apply h.inv.bounded
  rw [h.lists.entries_eq]
  simp

theorem separated (h : Found rgn base size A p B) (hne : p.range.1 < p.range.2) :
  Intervals.Separated (A.map Property.range ++ p.range :: B.map Property.range)
  := by
  rcases h.inv.separated with hdummy | hsep
  · have hlen := h.lists.1
    rw [hdummy.1, List.length_append, List.length_cons] at hlen
    have hA : A = [] := List.length_eq_zero_iff.mp (by omega)
    subst hA
    have hp : rgn.region 0 = p := h.lists.region_length
    have hsize := hdummy.2
    rw [hp] at hsize
    simp [Property.range, hsize] at hne
  · rw [ranges, h.lists.entries_eq] at hsep
    simpa using hsep

/-- The other entries; only the entry that `lmb_init` makes is empty. -/
theorem separated_erase (h : Found rgn base size A p B) :
  Intervals.Separated ((A ++ B).map Property.range)
  := by
  rw [List.map_append]
  rcases h.inv.separated with hdummy | hsep
  · have hlen := h.lists.1
    rw [hdummy.1, List.length_append, List.length_cons] at hlen
    rw [List.length_eq_zero_iff.mp (show A.length = 0 by omega),
      List.length_eq_zero_iff.mp (show B.length = 0 by omega)]
    apply Intervals.separated_nil
  · rw [ranges, h.lists.entries_eq, List.map_append, List.map_cons] at hsep
    apply hsep.erase

/-- The range to free does not wrap. -/
theorem toNat_end (h : Found rgn base size A p B) :
  (base + size).toNat = base.toNat + size.toNat
  := toNat_add_of_lt (lt_of_le_of_lt h.high h.bounded)

theorem toNat_rgnend (h : Found rgn base size A p B) :
  (p.base + p.size).toNat = p.range.2
  := toNat_add_of_lt h.bounded

theorem covered_eq (h : Found rgn base size A p B) :
  rgn.covered = Intervals.cover (A.map Property.range ++ p.range :: B.map Property.range)
  := by
  rw [covered, ranges, h.lists.entries_eq, List.map_append, List.map_cons]

/-- The table with a part of the entry in its place. -/
theorem inv_set (h : Found rgn base size A p B) (hlow : p.range.1 ≤ q.range.1)
    (hne : q.range.1 < q.range.2) (hhigh : q.range.2 ≤ p.range.2) :
  (rgn.set A.length q).Inv
    ∧ (rgn.set A.length q).ranges = A.map Property.range ++ q.range :: B.map Property.range
  := by
  have hset := h.lists.set q
  constructor
  · apply Inv.of_lists hset h.inv.cnt_le
    · have hb := h.inv.bounded
      rw [h.lists.entries_eq] at hb
      intro r hr
      rcases List.mem_append.mp hr with hr | hr
      · apply hb r (by simp [hr])
      · rcases List.mem_cons.mp hr with rfl | hr
        · apply lt_of_le_of_lt hhigh h.bounded
        · apply hb r (by simp [hr])
    · rw [List.map_append, List.map_cons]
      apply (h.separated (by omega)).shrink hne hlow hhigh
  · rw [ranges, hset.entries_eq, List.map_append, List.map_cons]

theorem free_eq (h : Found rgn base size A p B) :
  rgn.free base size
    = if p.base = base ∧ p.base + p.size = base + size then
        (rgn.removeRegion A.length).map fun rgn' => (0, rgn')
      else if p.base = base then some (0, rgn.set A.length ⟨base + size, p.size - size⟩)
      else if p.base + p.size = base + size then
        some (0, rgn.set A.length ⟨p.base, p.size - size⟩)
      else (rgn.set A.length ⟨p.base, base - p.base⟩).addRegion (base + size)
        (p.base + p.size - (base + size))
  := by
  have hne : A.length ≠ rgn.cnt := by
    rw [h.lists.1, List.length_append, List.length_cons]
    omega
  simp only [Region.free, h.index, if_neg hne, h.lists.region_length]

/-- What `lmb_free` leaves: the table without the range, or, when it reports a failure, a
table that keeps the invariant. -/
def Frees (rgn : Region) (base size : Word) : Prop :=
  ∃ c rgn', rgn.free base size = some (c, rgn') ∧ rgn'.Inv
    ∧ (0 ≤ c → rgn'.covered = rgn.covered \ Set.Ico base.toNat (base.toNat + size.toNat))

/-- The whole entry is freed. -/
theorem frees_whole (h : Found rgn base size A p B) (hp : p.base = base ∧ p.base + p.size = base + size) :
  Frees rgn base size
  := by
  obtain ⟨rgn', hremove, hl⟩ := h.lists.removeRegion h.inv.cnt_le
  have hsize : p.size = size := by
    have hend := hp.2
    rwa [hp.1, BitVec.add_right_inj] at hend
  have hrange : p.range = (base.toNat, base.toNat + size.toNat) := by
    rw [Property.range, hp.1, hsize]
  have hb := h.inv.bounded
  have hlen := h.lists.1
  rw [h.lists.entries_eq] at hb
  refine ⟨0, rgn', by rw [h.free_eq, if_pos hp, hremove]; rfl, ?_, fun _ => ?_⟩
  · apply Inv.of_lists hl
    · have := h.inv.cnt_le
      rw [hl.1]
      simp only [List.length_append, List.length_cons] at hlen ⊢
      omega
    · intro q hq
      apply hb q
      rcases List.mem_append.mp hq with hq | hq
      · simp [hq]
      · simp [hq]
    · apply h.separated_erase
  · rw [h.covered_eq, covered, ranges, hl.entries_eq, List.map_append]
    rcases Nat.eq_zero_or_pos size.toNat with h0 | hpos
    · simp [hrange, h0]
    · rw [(h.separated (by rw [hrange]; simpa using hpos)).cover_sdiff (by rw [hrange])
        (by rw [hrange]) (by omega)]
      simp [hrange]

/-- The beginning or the end of the entry is freed. -/
theorem frees_part (h : Found rgn base size A p B) (hlow : p.range.1 ≤ q.range.1)
    (hne : q.range.1 < q.range.2) (hhigh : q.range.2 ≤ p.range.2)
    (hfree : rgn.free base size = some (0, rgn.set A.length q))
    (hq : Set.Ico q.range.1 q.range.2
      = Set.Ico p.range.1 base.toNat ∪ Set.Ico (base.toNat + size.toNat) p.range.2) :
  Frees rgn base size
  := by
  obtain ⟨hinv, hranges⟩ := h.inv_set hlow hne hhigh
  refine ⟨0, _, hfree, hinv, fun _ => ?_⟩
  rw [h.covered_eq, covered, hranges,
    (h.separated (by omega)).cover_sdiff h.low h.high (by omega)]
  simp only [Intervals.cover_append, Intervals.cover_cons, hq, Set.union_assoc]

theorem frees_front (h : Found rgn base size A p B) (hp : p.base = base)
    (hne : p.base + p.size ≠ base + size) :
  Frees rgn base size
  := by
  have hlow := h.low
  have hhigh := h.high
  have hend : p.range.2 ≠ base.toNat + size.toNat := by
    rw [← h.toNat_rgnend, ← h.toNat_end]
    apply BitVec.toNat_ne.mp hne
  have hfront : p.range.1 = base.toNat := by rw [← hp]; rfl
  have hq : (Property.mk (base + size) (p.size - size)).range
      = (base.toNat + size.toNat, p.range.2) := by
    simp only [Property.range, hp] at hhigh ⊢
    rw [h.toNat_end, BitVec.toNat_sub_of_le (BitVec.le_def.mpr (by omega))]
    ext
    · rfl
    · show base.toNat + size.toNat + (p.size.toNat - size.toNat) = _
      omega
  apply h.frees_part (q := ⟨base + size, p.size - size⟩)
  · rw [hq]
    show _ ≤ base.toNat + size.toNat
    omega
  · rw [hq]
    show base.toNat + size.toNat < p.range.2
    omega
  · rw [hq]
  · rw [h.free_eq, if_neg (fun hw => hne hw.2), if_pos hp]
  · rw [hq, hfront, Set.Ico_self, Set.empty_union]

theorem frees_back (h : Found rgn base size A p B) (hp : p.base ≠ base)
    (hend : p.base + p.size = base + size) :
  Frees rgn base size
  := by
  have hlow := h.low
  have hhigh := h.high
  have hback : p.range.2 = base.toNat + size.toNat := by
    rw [← h.toNat_rgnend, ← h.toNat_end, hend]
  have hne : p.range.1 ≠ base.toNat := BitVec.toNat_ne.mp hp
  have hq : (Property.mk p.base (p.size - size)).range = (p.range.1, base.toNat) := by
    simp only [Property.range] at hback hlow ⊢
    rw [BitVec.toNat_sub_of_le (BitVec.le_def.mpr (by omega))]
    ext
    · rfl
    · show p.base.toNat + (p.size.toNat - size.toNat) = _
      omega
  apply h.frees_part (q := ⟨p.base, p.size - size⟩)
  · rw [hq]
  · rw [hq]
    show p.range.1 < base.toNat
    omega
  · rw [hq]
    show base.toNat ≤ _
    omega
  · rw [h.free_eq, if_neg (fun hw => hp hw.1), if_neg hp, if_pos hend]
  · rw [hq, hback, Set.Ico_self, Set.union_empty]

/-- The middle of the entry is freed. -/
theorem frees_middle (h : Found rgn base size A p B) (hlow : p.range.1 < base.toNat)
    (hhigh : base.toNat + size.toNat < p.range.2)
    (hfree : rgn.free base size = (rgn.set A.length ⟨p.base, base - p.base⟩).addRegion (base + size)
        (p.base + p.size - (base + size))) :
  Frees rgn base size
  := by
  have hend := h.toNat_end
  have hrgnend := h.toNat_rgnend
  have hq : (Property.mk p.base (base - p.base)).range = (p.range.1, base.toNat) := by
    simp only [Property.range] at hlow ⊢
    rw [BitVec.toNat_sub_of_le (BitVec.le_def.mpr hlow.le)]
    ext
    · rfl
    · show p.base.toNat + (base.toNat - p.base.toNat) = _
      omega
  have hnew : (Property.mk (base + size) (p.base + p.size - (base + size))).range
      = (base.toNat + size.toNat, p.range.2) := by
    rw [Property.range, BitVec.toNat_sub_of_le (BitVec.le_def.mpr (by omega)), hend, hrgnend]
    ext
    · rfl
    · show base.toNat + size.toNat + (p.range.2 - (base.toNat + size.toNat)) = _
      omega
  obtain ⟨hinv, hranges⟩ : (rgn.set A.length ⟨p.base, base - p.base⟩).Inv ∧ _ :=
    h.inv_set (by rw [hq]) (by rw [hq]; exact hlow) (by rw [hq]; show base.toNat ≤ _; omega)
  rw [hq] at hranges
  have hsep := h.separated (by omega)
  have hcnt : (rgn.set A.length ⟨p.base, base - p.base⟩).cnt ≠ 0 := by
    show rgn.cnt ≠ 0
    rw [h.lists.1]
    simp
  have hbounded : (Property.mk (base + size) (p.base + p.size - (base + size))).Bounded := by
    rw [Property.Bounded, hnew]
    apply h.bounded
  obtain ⟨c, rgn', hadd, hinv', -, hcases⟩ := hinv.addRegion hcnt hbounded
    (by rw [hnew]; exact hhigh)
    (by rw [hnew, covered, hranges]; exact hsep.disjoint_upper hlow.le (Nat.le_add_right _ _))
  refine ⟨c, rgn', by rw [hfree, hadd], hinv', fun hc => ?_⟩
  rcases hcases with ⟨hneg, -⟩ | ⟨-, hcov⟩
  · omega
  · rw [hcov, hnew, covered, hranges, h.covered_eq, hsep.cover_sdiff h.low h.high (by omega)]
    simp only [Intervals.cover_append, Intervals.cover_cons]
    ext a
    simp only [Set.mem_union]
    tauto

end Found

open Found in
/-- **`lmb_free` gives back a range.**  When it reports a failure, the table keeps the
invariant all the same. -/
theorem Inv.frees (h : rgn.Inv) (hlt : base.toNat + size.toNat < 2 ^ 32) :
  Frees rgn base size
  := by
  have hl := rgn.lists_entries
  rcases findRegion_spec base (base + size) hl.2 with
    hnone | ⟨A, p, B, hAB, hi, ⟨hlow, hhigh⟩, -⟩
  · rw [zero_add, ← hl.1] at hnone
    refine ⟨-1, rgn, ?_, h, fun hc => absurd hc (by decide)⟩
    simp only [free, hnone, if_true]
  · rw [zero_add, ← hl.1] at hi
    have hpb : p.Bounded := h.bounded p (by rw [hAB]; simp)
    rw [BitVec.le_def, toNat_add_of_lt hlt, toNat_add_of_lt hpb] at hhigh
    rw [hAB] at hl
    have hfound : Found rgn base size A p B := ⟨hl, h, hi, BitVec.le_def.mp hlow, hhigh⟩
    by_cases hbase : p.base = base
    · by_cases hend : p.base + p.size = base + size
      · apply hfound.frees_whole ⟨hbase, hend⟩
      · apply hfound.frees_front hbase hend
    · by_cases hend : p.base + p.size = base + size
      · apply hfound.frees_back hbase hend
      · apply hfound.frees_middle
        · apply lt_of_le_of_ne hfound.low (BitVec.toNat_ne.mp hbase)
        · apply lt_of_le_of_ne hfound.high
          rw [← hfound.toNat_rgnend, ← hfound.toNat_end]
          apply (BitVec.toNat_ne.mp hend).symm
        · rw [hfound.free_eq, if_neg (fun hw => hbase hw.1), if_neg hbase, if_neg hend]

end Region

/-! ### Allocating -/

/-- `lmb_align_down`. -/
def alignDown (addr size : Word) : Word := addr &&& ~~~(size - 1)

/-- `lmb_align_up`. -/
def alignUp (addr size : Word) : Word := (addr + (size - 1)) &&& ~~~(size - 1)

/-- The `while` loop of `__lmb_alloc_base` from `base` down: the range that overlaps no
reserved one, `some none` when the block has none, and `none` out of fuel. -/
def searchLoop (reserved : Region) (lmbbase size align : Word) : ℕ → Word → Option (Option Word)
  | 0, _ => none
  | fuel + 1, base =>
    if base ≠ 0 ∧ lmbbase ≤ base then
      match reserved.overlapsRegion base size with
      | none => some (some base)
      | some j =>
        let resBase := (reserved.region j).base
        if resBase < size then some none
        else searchLoop reserved lmbbase size align fuel (alignDown (resBase - size) align)
    else some none

/-- Where the search of a block of memory begins, unless the block is passed over;
`LMB_ALLOC_ANYWHERE` is `0`. -/
def startBase (block : Property) (size align maxAddr : Word) : Option Word :=
  if block.size < size then none
  else if maxAddr = 0 then some (alignDown (block.base + block.size - size) align)
  else if block.base < maxAddr then
    let top := if block.base + block.size < maxAddr then block.base + block.size else maxAddr
    some (alignDown (top - size) align)
  else none

end Lmb

/-- `struct lmb`. -/
structure Lmb where
  memory : Lmb.Region
  reserved : Lmb.Region

namespace Lmb

/-- The loop of `__lmb_alloc_base` over the `n` lowest blocks of memory, from the top down:
the address, `0` for a failure, and the tables. -/
def allocLoop (lmb : Lmb) (size align maxAddr : Word) : ℕ → Option (Word × Lmb)
  | 0 => some (0, lmb)
  | n + 1 =>
    let block := lmb.memory.region n
    match startBase block size align maxAddr with
    | none => allocLoop lmb size align maxAddr n
    | some start =>
      match searchLoop lmb.reserved block.base size align (start.toNat + 1) start with
      | none => none
      | some none => allocLoop lmb size align maxAddr n
      | some (some base) =>
        (lmb.reserved.addRegion base (alignUp size align)).map fun (ret, reserved) =>
          (if ret < 0 then 0 else base, { lmb with reserved })

/-- `lmb_alloc_base`. -/
def allocBase (lmb : Lmb) (size align maxAddr : Word) : Option (Word × Lmb) :=
  allocLoop lmb size align maxAddr lmb.memory.cnt

/-! ### The search -/

section Search

variable {reserved : Region} {base size align : Word} {p : Property} {k : ℕ}

theorem toNat_alignDown_le (addr size : Word) :
  (alignDown addr size).toNat ≤ addr.toNat
  := by
  rw [alignDown, BitVec.toNat_and]
  apply Nat.and_le_left

theorem alignUp_eq_self (hk : k < 32) (hsize : 2 ^ k ∣ size.toNat) :
  alignUp size (BitVec.ofNat 32 (2 ^ k)) = size
  := by
  obtain ⟨m, hm⟩ := hsize
  have hlt : 2 ^ k < 2 ^ 32 := Nat.pow_lt_pow_right (by decide) hk
  have hpos : 0 < 2 ^ k := Nat.two_pow_pos k
  -- a multiple of `2 ^ k` leaves room for the low bits below `2 ^ 32`
  have hfit : 2 ^ k * m + 2 ^ k ≤ 2 ^ 32 := by
    have hsize := size.isLt
    have hsplit : 2 ^ 32 = 2 ^ k * 2 ^ (32 - k) := by
      rw [← pow_add]
      congr 1
      omega
    rw [hm, hsplit] at hsize
    rw [hsplit, ← Nat.mul_succ]
    apply Nat.mul_le_mul_left _ (Nat.lt_of_mul_lt_mul_left hsize)
  have hround : (size.toNat + (2 ^ k - 1)) / 2 ^ k = m := by
    rw [hm, Nat.mul_add_div hpos, Nat.div_eq_of_lt (by omega), Nat.add_zero]
  apply BitVec.eq_of_toNat_eq
  rw [alignUp, Align.toNat_add_and_not hk (by omega), hround, hm, mul_comm]

/-- For ranges that do not wrap, the test finds out whether they have an address in common. -/
theorem disjoint_of_not_addrsOverlap (hbase : base.toNat + size.toNat < 2 ^ 32) (hp : p.Bounded)
    (h : ¬ addrsOverlap base size p.base p.size) :
  Disjoint (Set.Ico base.toNat (base.toNat + size.toNat)) (Set.Ico p.range.1 p.range.2)
  := by
  simp only [addrsOverlap, Bool.and_eq_true, decide_eq_true_eq, BitVec.lt_def,
    toNat_add_of_lt hbase, toNat_add_of_lt hp] at h
  rw [Set.disjoint_left]
  intro a ha ha'
  apply h
  simp only [Set.mem_Ico, Property.range] at ha ha'
  omega

theorem overlapsLoop_none {i : ℕ} {ℓ : List Property} (h : Memory.Holds reserved.region i ℓ)
    (hnone : reserved.overlapsLoop base size i ℓ.length = none) :
  ∀ p ∈ ℓ, ¬ addrsOverlap base size p.base p.size
  := by
  induction ℓ generalizing i with
  | nil => simp
  | cons q ℓ ih =>
    rw [List.length_cons, Region.overlapsLoop, h.1] at hnone
    by_cases hq : addrsOverlap base size q.base q.size
    · simp [hq] at hnone
    · simp only [if_neg hq] at hnone
      intro p hp
      rcases List.mem_cons.mp hp with rfl | hp
      · apply hq
      · apply ih h.2 hnone p hp

theorem overlapsLoop_some {i j : ℕ} {ℓ : List Property} (h : Memory.Holds reserved.region i ℓ)
    (hsome : reserved.overlapsLoop base size i ℓ.length = some j) :
  reserved.region j ∈ ℓ
    ∧ addrsOverlap base size (reserved.region j).base (reserved.region j).size
  := by
  induction ℓ generalizing i with
  | nil => simp [Region.overlapsLoop] at hsome
  | cons q ℓ ih =>
    rw [List.length_cons, Region.overlapsLoop, h.1] at hsome
    by_cases hq : addrsOverlap base size q.base q.size
    · simp only [if_pos hq, Option.some.injEq] at hsome
      rw [← hsome, h.1]
      exact ⟨by simp, hq⟩
    · simp only [if_neg hq] at hsome
      obtain ⟨hmem, hover⟩ := ih h.2 hsome
      exact ⟨List.mem_cons_of_mem q hmem, hover⟩

theorem disjoint_of_overlapsRegion_none (h : ∀ p ∈ reserved.entries, p.Bounded)
    (hbase : base.toNat + size.toNat < 2 ^ 32) (hnone : reserved.overlapsRegion base size = none) :
  Disjoint (Set.Ico base.toNat (base.toNat + size.toNat)) reserved.covered
  := by
  have hl := reserved.lists_entries
  rw [Region.overlapsRegion, hl.1] at hnone
  rw [Region.covered, Set.disjoint_left]
  rintro a ha ⟨r, hr, har⟩
  obtain ⟨p, hp, rfl⟩ := List.mem_map.mp hr
  have hdisj := disjoint_of_not_addrsOverlap hbase (h p hp) (overlapsLoop_none hl.2 hnone p hp)
  apply Set.disjoint_left.mp hdisj ha har

theorem two_pow_dvd_alignDown (hk : k < 32) (addr : Word) :
  2 ^ k ∣ (alignDown addr (BitVec.ofNat 32 (2 ^ k))).toNat
  := by
  rw [alignDown, Align.toNat_and_not hk]
  apply Dvd.intro_left _ rfl

/-- A range that the search may end with, when it begins at `base`. -/
structure Free (reserved : Region) (lmbbase base size align : Word) (b : Word) : Prop where
  ne_zero : b ≠ 0
  low : lmbbase ≤ b
  le : b.toNat ≤ base.toNat
  aligned : ∀ k < 32, align = BitVec.ofNat 32 (2 ^ k) → 2 ^ k ∣ base.toNat → 2 ^ k ∣ b.toNat
  disjoint : Disjoint (Set.Ico b.toNat (b.toNat + size.toNat)) reserved.covered

/-- **The search ends.**  It goes down with each reserved range it meets, and a range it
finds is free. -/
theorem exists_searchLoop (h : ∀ p ∈ reserved.entries, p.Bounded) (lmbbase align : Word)
    {fuel : ℕ} (hfuel : base.toNat < fuel) (hbase : base.toNat + size.toNat < 2 ^ 32) :
  ∃ found, searchLoop reserved lmbbase size align fuel base = some found
    ∧ ∀ b ∈ found, Free reserved lmbbase base size align b
  := by
  induction fuel generalizing base with
  | zero => omega
  | succ fuel ih =>
    rw [searchLoop]
    split
    case isFalse => exact ⟨none, rfl, by simp⟩
    case isTrue hcond =>
      cases hover : reserved.overlapsRegion base size with
      | none =>
        refine ⟨some base, rfl, ?_⟩
        intro b hb
        obtain rfl := Option.mem_some_iff.mp hb
        exact ⟨hcond.1, hcond.2, le_rfl, fun _ _ _ hdvd => hdvd,
          disjoint_of_overlapsRegion_none h hbase hover⟩
      | some j =>
        have hl := reserved.lists_entries
        rw [Region.overlapsRegion, hl.1] at hover
        obtain ⟨hmem, htest⟩ := overlapsLoop_some hl.2 hover
        simp only [addrsOverlap, Bool.and_eq_true, decide_eq_true_eq, BitVec.lt_def,
          toNat_add_of_lt hbase] at htest
        by_cases hlt : (reserved.region j).base < size
        · exact ⟨none, if_pos hlt, by simp⟩
        · simp only [if_neg hlt]
          rw [BitVec.lt_def, not_lt] at hlt
          have hdown := toNat_alignDown_le ((reserved.region j).base - size) align
          rw [BitVec.toNat_sub_of_le (BitVec.le_def.mpr hlt)] at hdown
          have hpb := (reserved.region j).base.isLt
          obtain ⟨found, hfound, hfree⟩ := @ih (alignDown ((reserved.region j).base - size) align)
            (by omega) (by omega)
          refine ⟨found, hfound, ?_⟩
          intro b hb
          obtain ⟨hne, hlow, hle, haligned, hdisj⟩ := hfree b hb
          refine ⟨hne, hlow, by omega, ?_, hdisj⟩
          intro k hk halign _
          apply haligned k hk halign
          rw [halign]
          apply two_pow_dvd_alignDown hk

/-- The size fits below the ceiling of the allocation. -/
def Fits (size maxAddr : Word) : Prop := maxAddr = 0 ∨ size ≤ maxAddr

/-- Where the search of a block begins: the range is in the block and below the ceiling. -/
structure Start (block : Property) (size align maxAddr start : Word) : Prop where
  size_le : size.toNat ≤ block.size.toNat
  base_lt : maxAddr = 0 ∨ block.base < maxAddr
  high : start.toNat + size.toNat ≤ block.range.2
  below : maxAddr ≠ 0 → start.toNat + size.toNat ≤ maxAddr.toNat
  aligned : ∀ k < 32, align = BitVec.ofNat 32 (2 ^ k) → 2 ^ k ∣ start.toNat

theorem startBase_some {block : Property} {maxAddr start : Word}
    (h : startBase block size align maxAddr = some start) :
  size.toNat ≤ block.size.toNat ∧ (maxAddr = 0 ∨ block.base < maxAddr)
  := by
  simp only [startBase] at h
  split at h
  · cases h
  · rename_i hsize
    rw [BitVec.lt_def, not_lt] at hsize
    refine ⟨hsize, ?_⟩
    split_ifs at h with hmax hbase
    · exact .inl hmax
    · exact .inr hbase
    · exact .inr hbase

theorem start_of_startBase {block : Property} {maxAddr start : Word} (hb : block.Bounded)
    (hfits : Fits size maxAddr) (h : startBase block size align maxAddr = some start) :
  Start block size align maxAddr start
  := by
  have hsum := toNat_add_of_lt hb
  obtain ⟨hsize, hbase⟩ := startBase_some h
  -- the search begins at a multiple of the alignment below `top - size`
  have hdown {top : Word} (hle : size.toNat ≤ top.toNat)
      (hstart : alignDown (top - size) align = start) :
      start.toNat + size.toNat ≤ top.toNat
        ∧ ∀ k < 32, align = BitVec.ofNat 32 (2 ^ k) → 2 ^ k ∣ start.toNat := by
    have hdown := toNat_alignDown_le (top - size) align
    rw [BitVec.toNat_sub_of_le (BitVec.le_def.mpr hle), hstart] at hdown
    refine ⟨by omega, ?_⟩
    intro k hk halign
    rw [← hstart, halign]
    apply two_pow_dvd_alignDown hk
  have hnot : ¬ block.size < size := by
    rw [BitVec.lt_def]
    omega
  simp only [startBase, if_neg hnot] at h
  by_cases hmax : maxAddr = 0
  · rw [if_pos hmax, Option.some.injEq] at h
    obtain ⟨hhigh, haligned⟩ := hdown (by rw [hsum]; omega) h
    rw [hsum] at hhigh
    exact ⟨hsize, hbase, hhigh, fun hne => absurd hmax hne, haligned⟩
  · rw [if_neg hmax, if_pos (hbase.resolve_left hmax), Option.some.injEq] at h
    have hle := BitVec.le_def.mp (hfits.resolve_left hmax)
    by_cases htop : block.base + block.size < maxAddr
    · rw [if_pos htop] at h
      rw [BitVec.lt_def] at htop
      obtain ⟨hhigh, haligned⟩ := hdown (by rw [hsum]; omega) h
      rw [hsum] at hhigh htop
      exact ⟨hsize, hbase, hhigh, fun _ => by omega, haligned⟩
    · rw [if_neg htop] at h
      rw [BitVec.lt_def, hsum, not_lt] at htop
      obtain ⟨hhigh, haligned⟩ := hdown hle h
      exact ⟨hsize, hbase, le_trans hhigh htop, fun _ => hhigh, haligned⟩

end Search

variable {lmb : Lmb} {size maxAddr : Word} {k n : ℕ}

/-- **`lmb_alloc_base` adds the range it returns**, of a size that is a multiple of the
alignment; it fails with the tables as they were. -/
theorem exists_allocLoop (hmem : lmb.memory.Inv) (hres : lmb.reserved.Inv)
    (hcnt : lmb.reserved.cnt ≠ 0) (hsize : 0 < size.toNat) (hk : k < 32)
    (hdvd : 2 ^ k ∣ size.toNat) (hfits : Fits size maxAddr) (hn : n ≤ lmb.memory.cnt) :
  ∃ addr lmb', lmb.allocLoop size (BitVec.ofNat 32 (2 ^ k)) maxAddr n = some (addr, lmb')
    ∧ lmb'.memory = lmb.memory ∧ lmb'.reserved.Inv
    ∧ (addr = 0 ∧ lmb' = lmb
      ∨ addr ≠ 0 ∧ lmb'.reserved.covered
        = lmb.reserved.covered ∪ Set.Ico addr.toNat (addr.toNat + size.toNat))
  := by
  induction n with
  | zero => exact ⟨0, lmb, rfl, rfl, hres, .inl ⟨rfl, rfl⟩⟩
  | succ n ih =>
    have ih := ih (by omega)
    rw [allocLoop]
    cases hstart : startBase (lmb.memory.region n) size (BitVec.ofNat 32 (2 ^ k)) maxAddr with
    | none => apply ih
    | some start =>
      have hblock : lmb.memory.region n ∈ lmb.memory.entries := by
        have := Memory.getElem_read lmb.memory.region 0 lmb.memory.cnt n (by simpa using hn)
        rw [zero_add] at this
        rw [← this]
        apply List.getElem_mem
      have hbounded : (lmb.memory.region n).range.2 < 2 ^ 32 := hmem.bounded _ hblock
      have hlt := lt_of_le_of_lt (start_of_startBase hbounded hfits hstart).high hbounded
      obtain ⟨found, hsearch, hfound⟩ := exists_searchLoop hres.bounded (lmb.memory.region n).base
        (BitVec.ofNat 32 (2 ^ k)) (Nat.lt_succ_self start.toNat) hlt
      simp only [hsearch]
      cases found with
      | none => apply ih
      | some base =>
        obtain ⟨hne, -, hle, -, hdisj⟩ := hfound base rfl
        have hbase : base.toNat + size.toNat < 2 ^ 32 := by omega
        obtain ⟨c, rgn, hadd, hinv, -, hcases⟩ := hres.addRange hcnt hbase hsize hdisj
        simp only [alignUp_eq_self hk hdvd, hadd, Option.map_some]
        refine ⟨_, _, rfl, rfl, hinv, ?_⟩
        rcases hcases with ⟨hc, rfl⟩ | ⟨hc, hcov⟩
        · exact .inl ⟨if_pos hc, rfl⟩
        · rw [if_neg (by omega)]
          exact .inr ⟨hne, hcov⟩

/-! ### The search on any tables -/

section AnyTables

variable {reserved : Region} {base base' align lmbbase : Word}

/-- The base from which the `while` loop of `__lmb_alloc_base` goes on when it does not return
or break at `base`. -/
def searchNext (reserved : Region) (lmbbase size align base : Word) : Option Word :=
  if base ≠ 0 ∧ lmbbase ≤ base then
    (reserved.overlapsRegion base size).bind fun j =>
      if (reserved.region j).base < size then none
      else some (alignDown ((reserved.region j).base - size) align)
  else none

/-- A reserved range that is met begins below the end of the requested one, also when that end
has wrapped, so that what lies `size` below its base lies below `base`. -/
theorem searchNext_lt (h : searchNext reserved lmbbase size align base = some base') :
  base'.toNat < base.toNat
  := by
  rw [searchNext] at h
  split at h
  case isFalse => cases h
  case isTrue hcond =>
    obtain ⟨j, hover, hnext⟩ := Option.bind_eq_some_iff.mp h
    split at hnext
    case isTrue => cases hnext
    case isFalse hguard =>
      obtain rfl := Option.some.inj hnext
      have hl := reserved.lists_entries
      rw [Region.overlapsRegion, hl.1] at hover
      have htest := (overlapsLoop_some hl.2 hover).2
      simp only [addrsOverlap, Bool.and_eq_true, decide_eq_true_eq, BitVec.lt_def,
        BitVec.toNat_add] at htest
      rw [BitVec.not_lt] at hguard
      have hdown := toNat_alignDown_le ((reserved.region j).base - size) align
      rw [BitVec.toNat_sub_of_le hguard] at hdown
      rw [BitVec.le_def] at hguard
      have hwrap := Nat.mod_le (base.toNat + size.toNat) (2 ^ 32)
      omega

theorem searchLoop_of_next (h : searchNext reserved lmbbase size align base = some base')
    (fuel : ℕ) :
  searchLoop reserved lmbbase size align (fuel + 1) base
    = searchLoop reserved lmbbase size align fuel base'
  := by
  rw [searchNext] at h
  split at h
  case isFalse => cases h
  case isTrue hcond =>
    obtain ⟨j, hover, hnext⟩ := Option.bind_eq_some_iff.mp h
    split at hnext
    case isTrue => cases hnext
    case isFalse hguard =>
      obtain rfl := Option.some.inj hnext
      simp only [searchLoop, if_pos hcond, hover, if_neg hguard]

/-- The iteration returns or breaks. -/
theorem searchLoop_of_next_none (h : searchNext reserved lmbbase size align base = none)
    (fuel : ℕ) :
  ∃ found, searchLoop reserved lmbbase size align (fuel + 1) base = some found
  := by
  rw [searchNext] at h
  rw [searchLoop]
  by_cases hcond : base ≠ 0 ∧ lmbbase ≤ base
  · simp only [if_pos hcond] at h ⊢
    cases hover : reserved.overlapsRegion base size with
    | none => exact ⟨some base, rfl⟩
    | some j =>
      rw [hover, Option.bind_some] at h
      split at h
      case isTrue hguard => exact ⟨none, if_pos hguard⟩
      case isFalse => cases h
  · exact ⟨none, if_neg hcond⟩

/--
**The inner loop terminates** on any tables: what an iteration goes on with is below `base`, and
from every `base`, the one that a block of memory begins with among them, the loop comes to an end.
-/
theorem searchLoop_terminates (lmb : Lmb) (size align lmbbase base : Word) :
  (∀ base' ∈ searchNext lmb.reserved lmbbase size align base, base' < base)
    ∧ ∃ found, searchLoop lmb.reserved lmbbase size align (base.toNat + 1) base = some found
  := by
  constructor
  · intro base' h
    apply searchNext_lt h
  · generalize hfuel : base.toNat + 1 = fuel
    have hlt : base.toNat < fuel := by omega
    clear hfuel
    induction fuel generalizing base with
    | zero => omega
    | succ fuel ih =>
      cases hnext : searchNext lmb.reserved lmbbase size align base with
      | none => apply searchLoop_of_next_none hnext
      | some base' =>
        have hdown := searchNext_lt hnext
        rw [searchLoop_of_next hnext]
        apply ih
        omega

end AnyTables

end Lmb
