import UBoot.Lmb.SingleCalls

/-!
# Where the search of an allocation ends

The `while` loop of `__lmb_alloc_base` looks at the highest aligned address that leaves room for
the size below the end of a block, and below each reserved entry that it meets.  On any tables it
ends with the highest of these addresses at which `lmb_overlaps_region` finds nothing.
-/

namespace Lmb

/-- An address at which the search from `start` down can look. -/
def Candidate (reserved : Region) (size align start b : Word) : Prop :=
  b = start ∨ ∃ p ∈ reserved.entries, size ≤ p.base ∧ b = alignDown (p.base - size) align

/-- An address that the search from `start` down to `lmbbase` can take. -/
structure Vacant (reserved : Region) (lmbbase size align start b : Word) : Prop where
  candidate : Candidate reserved size align start b
  ne_zero : b ≠ 0
  low : lmbbase ≤ b
  le : b.toNat ≤ start.toNat
  clear : reserved.overlapsRegion b size = none

/-- An address that the allocation can take in a block of memory. -/
def VacantIn (lmb : Lmb) (size align maxAddr : Word) (block : Property) (b : Word) : Prop :=
  ∃ start, startBase block size align maxAddr = some start
    ∧ Vacant lmb.reserved block.base size align start b

section Search

variable {reserved : Region} {lmbbase size base base' b : Word} {k : ℕ}

theorem not_addrsOverlap_of_clear {p : Property} (h : reserved.overlapsRegion b size = none)
    (hp : p ∈ reserved.entries) :
  ¬ addrsOverlap b size p.base p.size
  := by
  have hl := reserved.lists_entries
  rw [Region.overlapsRegion, hl.1] at h
  exact overlapsLoop_none hl.2 h p hp

theorem addrsOverlap_of_overlaps {j : ℕ} (h : reserved.overlapsRegion b size = some j) :
  reserved.region j ∈ reserved.entries
    ∧ addrsOverlap b size (reserved.region j).base (reserved.region j).size
  := by
  have hl := reserved.lists_entries
  rw [Region.overlapsRegion, hl.1] at h
  exact overlapsLoop_some hl.2 h

theorem toNat_alignDown (hk : k < 32) (addr : Word) :
  (alignDown addr (BitVec.ofNat 32 (2 ^ k))).toNat = addr.toNat / 2 ^ k * 2 ^ k
  := by
  rw [alignDown, Align.toNat_and_not hk]

/-- Below an address at which an entry is met, only ranges that end below the entry are clear. -/
theorem Vacant.below {j : ℕ} (h : Vacant reserved lmbbase size (BitVec.ofNat 32 (2 ^ k)) base b)
    (hover : reserved.overlapsRegion base size = some j) :
  (∃ p ∈ reserved.entries, size ≤ p.base
      ∧ b = alignDown (p.base - size) (BitVec.ofNat 32 (2 ^ k)))
    ∧ b.toNat + size.toNat ≤ (reserved.region j).base.toNat
  := by
  obtain ⟨hmem, htest⟩ := addrsOverlap_of_overlaps hover
  have hclear := not_addrsOverlap_of_clear h.clear hmem
  have hle := h.le
  rcases h.candidate with rfl | ⟨p, hp, hsize, hb⟩
  · exact absurd htest hclear
  · refine ⟨⟨p, hp, hsize, hb⟩, ?_⟩
    have hdown := toNat_alignDown_le (p.base - size) (BitVec.ofNat 32 (2 ^ k))
    rw [← hb, BitVec.toNat_sub_of_le hsize] at hdown
    rw [BitVec.le_def] at hsize
    have hlt := p.base.isLt
    simp only [addrsOverlap, Bool.and_eq_true, decide_eq_true_eq, BitVec.lt_def] at htest hclear
    have hsum : (b + size).toNat = b.toNat + size.toNat := toNat_add_of_lt (by omega)
    rw [hsum] at hclear
    omega

/-- An iteration that goes on leaves what the search can take. -/
theorem vacant_next_iff (hk : k < 32)
    (h : searchNext reserved lmbbase size (BitVec.ofNat 32 (2 ^ k)) base = some base') :
  Vacant reserved lmbbase size (BitVec.ofNat 32 (2 ^ k)) base b
    ↔ Vacant reserved lmbbase size (BitVec.ofNat 32 (2 ^ k)) base' b
  := by
  have hlt := searchNext_lt h
  rw [searchNext] at h
  split at h
  case isFalse => cases h
  case isTrue hcond =>
    obtain ⟨j, hover, hnext⟩ := Option.bind_eq_some_iff.mp h
    split at hnext
    case isTrue => cases hnext
    case isFalse hguard =>
      obtain rfl := Option.some.inj hnext
      rw [BitVec.not_lt] at hguard
      constructor
      · intro hv
        obtain ⟨⟨p, hp, hsize, hb⟩, hbelow⟩ := hv.below hover
        refine ⟨.inr ⟨p, hp, hsize, hb⟩, hv.ne_zero, hv.low, ?_, hv.clear⟩
        -- an aligned address stays below when the bound is aligned down
        have hdvd : 2 ^ k ∣ b.toNat := by
          rw [hb]
          apply two_pow_dvd_alignDown hk
        rw [toNat_alignDown hk, BitVec.toNat_sub_of_le hguard, ← Nat.div_mul_cancel hdvd]
        apply Nat.mul_le_mul_right
        apply Nat.div_le_div_right
        omega
      · intro hv
        refine ⟨?_, hv.ne_zero, hv.low, le_trans hv.le hlt.le, hv.clear⟩
        rcases hv.candidate with rfl | hp
        · exact .inr ⟨_, (addrsOverlap_of_overlaps hover).1, hguard, rfl⟩
        · exact .inr hp

/-- The last iteration: the loop returns the highest address that it can take, or there is none. -/
theorem searchLoop_of_stop (fuel : ℕ)
    (h : searchNext reserved lmbbase size (BitVec.ofNat 32 (2 ^ k)) base = none) :
  ∃ found, searchLoop reserved lmbbase size (BitVec.ofNat 32 (2 ^ k)) (fuel + 1) base = some found
    ∧ (found = none → ∀ b, ¬ Vacant reserved lmbbase size (BitVec.ofNat 32 (2 ^ k)) base b)
    ∧ ∀ c ∈ found, Vacant reserved lmbbase size (BitVec.ofNat 32 (2 ^ k)) base c
      ∧ ∀ b, Vacant reserved lmbbase size (BitVec.ofNat 32 (2 ^ k)) base b → b.toNat ≤ c.toNat
  := by
  rw [searchNext] at h
  rw [searchLoop]
  by_cases hcond : base ≠ 0 ∧ lmbbase ≤ base
  · simp only [if_pos hcond] at h ⊢
    cases hover : reserved.overlapsRegion base size with
    | none =>
      refine ⟨some base, rfl, fun hnone => (by cases hnone), ?_⟩
      intro c hc
      obtain rfl := Option.mem_some_iff.mp hc
      exact ⟨⟨.inl rfl, hcond.1, hcond.2, le_rfl, hover⟩, fun b hb => hb.le⟩
    | some j =>
      rw [hover, Option.bind_some] at h
      split at h
      case isTrue hguard =>
        refine ⟨none, if_pos hguard, fun _ b hb => ?_, by simp⟩
        have hbelow := (hb.below hover).2
        rw [BitVec.lt_def] at hguard
        omega
      case isFalse => cases h
  · refine ⟨none, if_neg hcond, fun _ b hb => hcond ⟨?_, ?_⟩, by simp⟩
    · rintro rfl
      exact hb.ne_zero (BitVec.eq_of_toNat_eq (Nat.le_zero.mp hb.le))
    · have hlow := hb.low
      have hle := hb.le
      rw [BitVec.le_def] at hlow ⊢
      omega

/-- **The search ends with the highest address that it can take.** -/
theorem searchLoop_highest (hk : k < 32) {fuel : ℕ} (hfuel : base.toNat < fuel) :
  ∃ found, searchLoop reserved lmbbase size (BitVec.ofNat 32 (2 ^ k)) fuel base = some found
    ∧ (found = none → ∀ b, ¬ Vacant reserved lmbbase size (BitVec.ofNat 32 (2 ^ k)) base b)
    ∧ ∀ c ∈ found, Vacant reserved lmbbase size (BitVec.ofNat 32 (2 ^ k)) base c
      ∧ ∀ b, Vacant reserved lmbbase size (BitVec.ofNat 32 (2 ^ k)) base b → b.toNat ≤ c.toNat
  := by
  induction fuel generalizing base with
  | zero => omega
  | succ fuel ih =>
    cases hnext : searchNext reserved lmbbase size (BitVec.ofNat 32 (2 ^ k)) base with
    | none => exact searchLoop_of_stop fuel hnext
    | some base' =>
      have hdown := searchNext_lt hnext
      rw [searchLoop_of_next hnext]
      simp only [vacant_next_iff hk hnext]
      apply ih
      omega

end Search

/-! ### The loop over the memory -/

section Blocks

variable {lmb : Lmb} {size maxAddr b : Word} {k n : ℕ}

/-- The allocation takes the highest address that it can take in the block `i`, and has passed
over all blocks above. -/
structure Takes (lmb : Lmb) (size align maxAddr : Word) (n i : ℕ) (b : Word) : Prop where
  lt : i < n
  vacant : VacantIn lmb size align maxAddr (lmb.memory.region i) b
  highest : ∀ b', VacantIn lmb size align maxAddr (lmb.memory.region i) b' → b'.toNat ≤ b.toNat
  above : ∀ j, i < j → j < n → ∀ b', ¬ VacantIn lmb size align maxAddr (lmb.memory.region j) b'

/-- What `__lmb_alloc_base` does after its search. -/
def take (lmb : Lmb) (size align b : Word) : Option (Word × Lmb) :=
  (lmb.reserved.addRegion b (alignUp size align)).map fun (ret, reserved) =>
    (if ret < 0 then 0 else b, { lmb with reserved })

/-- Where the loop over `n` blocks ends: nothing can be taken, or the highest address is taken. -/
def Ends (lmb : Lmb) (size align maxAddr : Word) (n : ℕ) (result : Option (Word × Lmb)) : Prop :=
  (∀ i < n, ∀ b, ¬ VacantIn lmb size align maxAddr (lmb.memory.region i) b)
      ∧ result = some (0, lmb)
    ∨ ∃ i b, Takes lmb size align maxAddr n i b ∧ result = lmb.take size align b

/-- A block in which nothing can be taken is passed over. -/
theorem Ends.pass {align : Word} {result : Option (Word × Lmb)}
    (h : Ends lmb size align maxAddr n result)
    (hnone : ∀ b, ¬ VacantIn lmb size align maxAddr (lmb.memory.region n) b) :
  Ends lmb size align maxAddr (n + 1) result
  := by
  rcases h with ⟨hall, heq⟩ | ⟨i, b, htakes, heq⟩
  · left
    refine ⟨fun i hi => ?_, heq⟩
    rcases Nat.lt_succ_iff_lt_or_eq.mp hi with hi | rfl
    · exact hall i hi
    · exact hnone
  · right
    refine ⟨i, b, ⟨Nat.lt_succ_of_lt htakes.lt, htakes.vacant, htakes.highest, ?_⟩, heq⟩
    intro j hij hj
    rcases Nat.lt_succ_iff_lt_or_eq.mp hj with hj | rfl
    · exact htakes.above j hij hj
    · exact hnone

/-- **The allocation takes the highest address that it can take**, or there is none. -/
theorem allocLoop_ends (lmb : Lmb) (size maxAddr : Word) (hk : k < 32) (n : ℕ) :
  Ends lmb size (BitVec.ofNat 32 (2 ^ k)) maxAddr n
    (lmb.allocLoop size (BitVec.ofNat 32 (2 ^ k)) maxAddr n)
  := by
  induction n with
  | zero => exact .inl ⟨fun i hi => absurd hi (Nat.not_lt_zero i), rfl⟩
  | succ n ih =>
    rw [allocLoop]
    cases hstart : startBase (lmb.memory.region n) size (BitVec.ofNat 32 (2 ^ k)) maxAddr with
    | none =>
      apply ih.pass
      rintro b ⟨start, heq, -⟩
      rw [hstart] at heq
      cases heq
    | some start =>
      obtain ⟨found, hsearch, hnone, hsome⟩ := @searchLoop_highest lmb.reserved
        (lmb.memory.region n).base size start k hk _ (Nat.lt_succ_self start.toNat)
      have hvacant (b : Word) : VacantIn lmb size (BitVec.ofNat 32 (2 ^ k)) maxAddr
            (lmb.memory.region n) b
          ↔ Vacant lmb.reserved (lmb.memory.region n).base size (BitVec.ofNat 32 (2 ^ k)) start b
          := by
        constructor
        · rintro ⟨start', heq, hv⟩
          rw [hstart, Option.some.injEq] at heq
          rwa [heq]
        · exact fun hv => ⟨start, hstart, hv⟩
      simp only [hsearch]
      cases found with
      | none =>
        apply ih.pass
        intro b hb
        exact hnone rfl b ((hvacant b).mp hb)
      | some b =>
        obtain ⟨hv, hhighest⟩ := hsome b rfl
        refine .inr ⟨n, b, ⟨Nat.lt_succ_self n, (hvacant b).mpr hv, ?_, ?_⟩, rfl⟩
        · exact fun b' hb' => hhighest b' ((hvacant b').mp hb')
        · exact fun j hij hj => absurd hj (by omega)

end Blocks

end Lmb
