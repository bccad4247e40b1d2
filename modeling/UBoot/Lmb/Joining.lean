import UBoot.Lmb.SingleCalls

/-!
# What an added range is joined to

`lmb_add_region` extends the first entry that touches the new range, and joins the entry behind
it when that one touches the result.  Sizes are of 32 bits, so that an entry which would hold
all the addresses has the size 0.
-/

namespace Lmb

namespace Region

variable {rgn : Region} {base size : Word} {ℓ A B : List Property} {p q r new : Property} {n : ℕ}

/-! ### The entry that holds the new range -/

/-- The entry that the new range is merged into. -/
def merged (new p : Property) : Property :=
  if 0 < addrsAdjacent new.base new.size p.base p.size then ⟨p.base - new.size, p.size + new.size⟩
  else ⟨p.base, p.size + new.size⟩

/-- The extended entry, with the one behind it when they touch. -/
def joinNext (m : Property) : List Property → Property
  | [] => m
  | q :: _ => if addrsAdjacent m.base m.size q.base q.size = 0 then m else ⟨m.base, m.size + q.size⟩

/-- The entry that holds the new range in the end. -/
def joined (new : Property) : List Property → Property
  | [] => new
  | p :: ℓ =>
    if p = new then new
    else if addrsAdjacent new.base new.size p.base p.size = 0 then joined new ℓ
    else joinNext (merged new p) ℓ

theorem joined_append (hA : ∀ p ∈ A, Apart new p) :
  joined new (A ++ ℓ) = joined new ℓ
  := by
  induction A with
  | nil => rfl
  | cons p A ih =>
    obtain ⟨⟨hne, hadj⟩, hA⟩ := List.forall_mem_cons.mp hA
    rw [List.cons_append, joined, if_neg hne, if_pos hadj, ih hA]

/-- The entry that `lmb_init` makes gives way to the new one. -/
theorem joined_of_empty (hp : p.size = 0) :
  joined new [p] = new
  := by
  by_cases hup : p.base = new.base + new.size
  · have hone : addrsAdjacent new.base new.size p.base p.size = 1 := if_pos hup
    rw [joined, joined, hone, if_neg one_ne_zero, joinNext, merged, hone, if_pos one_pos, hup, hp,
      BitVec.add_sub_cancel]
    simp
  · by_cases hdown : new.base = p.base + p.size
    · have hneg : addrsAdjacent new.base new.size p.base p.size = -1 := by
        rw [addrsAdjacent, if_neg hup, if_pos hdown]
      have hbase : p.base = new.base := by simp [hdown, hp]
      have hne : ¬ (-1 : ℤ) = 0 := by decide
      have hnot : ¬ (0 : ℤ) < -1 := by decide
      rw [joined, joined, hneg, if_neg hne, joinNext, merged, hneg, if_neg hnot, hbase, hp]
      simp
    · have hzero : addrsAdjacent new.base new.size p.base p.size = 0 := by
        rw [addrsAdjacent, if_neg hup, if_neg hdown]
      rw [joined, joined, hzero, if_pos rfl, ite_self]

/-- The new range has its place in a sorted list. -/
theorem exists_split (h : ℓ.Pairwise fun p q => p.base < q.base) (base : Word) :
  ∃ A B, ℓ = A ++ B ∧ (∀ p ∈ A, p.base ≤ base) ∧ ∀ p ∈ B, base < p.base
  := by
  induction h with
  | nil => exact ⟨[], [], rfl, List.forall_mem_nil _, List.forall_mem_nil _⟩
  | @cons p ℓ hp _ ih =>
    by_cases hle : p.base ≤ base
    · obtain ⟨A, B, rfl, hA, hB⟩ := ih
      exact ⟨p :: A, B, rfl, List.forall_mem_cons.mpr ⟨hle, hA⟩, hB⟩
    · rw [BitVec.not_le] at hle
      refine ⟨[], p :: ℓ, rfl, List.forall_mem_nil _, List.forall_mem_cons.mpr ⟨hle, ?_⟩⟩
      intro q hq
      exact BitVec.lt_trans hle (hp q hq)

/-- What follows when an entry has been extended: it is joined with the next one or not. -/
theorem Lists.finishAdd_one (h : rgn.Lists (A ++ r :: B)) (hcnt : rgn.cnt ≤ maxLmbRegions) :
  ∃ c rgn' B', rgn.finishAdd base size A.length 1 = some (c, rgn') ∧ 0 ≤ c
    ∧ rgn'.Lists (A ++ joinNext r B :: B') ∧ B' ⊆ B
  := by
  by_cases hjoin : A.length < (rgn.cnt + (2 ^ 32 - 1)) % 2 ^ 32
      ∧ rgn.regionsAdjacent A.length (A.length + 1) ≠ 0
  · cases B with
    | nil =>
      have hlen : rgn.cnt = A.length + 1 := by simpa using h.1
      have hlt := hjoin.1
      rw [maxLmbRegions] at hcnt
      omega
    | cons q B =>
      have h' : rgn.Lists ((A ++ [r]) ++ q :: B) := by simpa using h
      have hq : rgn.region (A.length + 1) = q := by simpa using h'.region_length
      have hadj := hjoin.2
      rw [regionsAdjacent, h.region_length, hq] at hadj
      obtain ⟨rgn', hrgn', hℓ⟩ := h.coalesceRegions hcnt
      refine ⟨2, rgn', B, ?_, by decide, ?_, List.subset_cons_self q B⟩
      · simp only [finishAdd, if_pos hjoin, hrgn', Option.map_some, Option.bind_eq_bind,
          Option.bind_some]
        rfl
      · rw [joinNext, if_neg hadj]
        exact hℓ
  · refine ⟨1, rgn, B, ?_, by decide, ?_, List.Subset.refl B⟩
    · simp only [finishAdd, if_neg hjoin, Option.bind_eq_bind, Option.bind_some]
      rfl
    · cases B with
      | nil => exact h
      | cons q B =>
        have hlen : rgn.cnt = A.length + (B.length + 1 + 1) := by simpa using h.1
        have h' : rgn.Lists ((A ++ [r]) ++ q :: B) := by simpa using h
        have hq : rgn.region (A.length + 1) = q := by simpa using h'.region_length
        have hadj : rgn.regionsAdjacent A.length (A.length + 1) = 0 := by
          by_contra hadj
          refine hjoin ⟨?_, hadj⟩
          rw [maxLmbRegions] at hcnt
          omega
        rw [regionsAdjacent, h.region_length, hq] at hadj
        rw [joinNext, if_pos hadj]
        exact h

/-- `lmb_add_region` leaves the table as it was, for want of room, or the joined entry between
entries that were there. -/
theorem addRegion_joined (hcnt : rgn.cnt ≠ 0) (hle : rgn.cnt ≤ maxLmbRegions)
    (hsorted : rgn.entries.Pairwise fun p q => p.base < q.base) (new : Property) :
  ∃ c rgn', rgn.addRegion new.base new.size = some (c, rgn')
    ∧ (c < 0 ∧ rgn.cnt = maxLmbRegions
      ∨ 0 ≤ c ∧ ∃ A B, rgn'.Lists (A ++ joined new rgn.entries :: B)
        ∧ A ⊆ rgn.entries ∧ B ⊆ rgn.entries)
  := by
  have hl := rgn.lists_entries
  rw [addRegion]
  split_ifs with hdummy
  · obtain ⟨p, hp⟩ : ∃ p, rgn.entries = [] ++ p :: [] := by
      rw [entries, hdummy.1]
      exact ⟨_, rfl⟩
    rw [hp] at hl
    have hempty : p.size = 0 := by
      rw [← hdummy.2, ← hl.region_length]
      rfl
    have hjoined : joined new rgn.entries = new := by
      rw [hp, List.nil_append, joined_of_empty hempty]
    refine ⟨0, _, rfl, .inr ⟨le_rfl, [], [], ?_, List.nil_subset _, List.nil_subset _⟩⟩
    rw [hjoined]
    exact hl.set new
  · rw [hl.1]
    rcases @scanLoop_cases rgn rgn.entries new 0 hl.2 with
      ⟨hapart, heq⟩ | ⟨A, p, B, hsplit, hA, hp, heq⟩
    · -- the range is an entry of its own
      have hjoined : joined new rgn.entries = new := by
        rw [← List.append_nil rgn.entries, joined_append hapart]
        rfl
      rw [heq, Scan.finish, zero_add, ← hl.1]
      have hnot : ¬ (rgn.cnt < (rgn.cnt + (2 ^ 32 - 1)) % 2 ^ 32
          ∧ rgn.regionsAdjacent rgn.cnt (rgn.cnt + 1) ≠ 0) := by
        rw [maxLmbRegions] at hle
        omega
      simp only [finishAdd, if_neg hnot, Option.bind_eq_bind, Option.bind_some, ne_eq, not_true,
        if_false]
      split_ifs with hfull
      · exact ⟨-1, rgn, rfl, .inl ⟨by decide, by omega⟩⟩
      · obtain ⟨A, B, hsplit, hA, hB⟩ := exists_split hsorted new.base
        refine ⟨0, _, rfl, .inr ⟨le_rfl, A, B, ?_, by simp [hsplit], by simp [hsplit]⟩⟩
        rw [hjoined]
        rw [hsplit] at hl
        exact hl.insertRegion (Nat.pos_of_ne_zero hcnt) hA hB
    · have hjoined : joined new rgn.entries = joined new (p :: B) := by
        rw [hsplit, joined_append hA]
      rw [heq]
      by_cases hsame : p = new
      · rw [if_pos hsame, Scan.finish]
        refine ⟨0, rgn, rfl, .inr ⟨le_rfl, A, B, ?_, by simp [hsplit], ?_⟩⟩
        · rw [hjoined, joined, if_pos hsame, ← hsame, ← hsplit]
          exact hl
        · rw [hsplit]
          exact List.Subset.trans (List.subset_cons_self p B) (List.subset_append_right A _)
      · have hadj : addrsAdjacent new.base new.size p.base p.size ≠ 0 := fun h => hp ⟨hsame, h⟩
        rw [if_neg hsame, zero_add, Scan.finish]
        rw [hsplit] at hl
        obtain ⟨c, rgn', B', hfinish, hc, hℓ, hsub⟩ := @Lists.finishAdd_one _ new.base new.size A B
          _ (hl.set (merged new p)) hle
        refine ⟨c, rgn', hfinish, .inr ⟨hc, A, B', ?_, by simp [hsplit], ?_⟩⟩
        · rw [hjoined, joined, if_neg hsame, if_neg hadj]
          exact hℓ
        · rw [hsplit]
          apply List.Subset.trans hsub
          exact List.Subset.trans (List.subset_cons_self p B) (List.subset_append_right A _)

/-! ### The addresses of the joined entry -/

/-- `n` addresses that no entry of a sorted table has, with their number rounded up. -/
structure Room (new : Property) (n : ℕ) (ℓ : List Property) : Prop where
  base_pos : 0 < new.base.toNat
  pos : 0 < n
  le : n ≤ new.size.toNat
  round : new.size.toNat < n + new.base.toNat
  high : new.range.2 ≤ 2 ^ 32
  sorted : ℓ.Pairwise fun p q => p.base < q.base
  disjoint : ℓ.Pairwise fun p q => Disjoint (addresses p.base p.size) (addresses q.base q.size)
  noWrap : ∀ p ∈ ℓ, p.NoWrap
  free : ∀ p ∈ ℓ, Disjoint (Set.Ico new.base.toNat (new.base.toNat + n)) (addresses p.base p.size)

/-- The range from `b` to `x`, joined with the first one or two entries, makes up all the
addresses, from 0 to the last one. -/
inductive Closes (b x : ℕ) : List Property → Prop
  | below {p : Property} {ℓ : List Property} (hp : p.range = (0, b)) (hx : x = 2 ^ 32) :
      Closes b x (p :: ℓ)
  | twoBelow {p q : Property} {ℓ : List Property} (hp : p.range.1 = 0)
      (hq : q.range = (p.range.2, b)) (hx : x = 2 ^ 32) : Closes b x (p :: q :: ℓ)
  | between {p q : Property} {ℓ : List Property} (hp : p.range = (0, b))
      (hq : q.range.2 = 2 ^ 32) (hx : q.range.1 ≤ x) : Closes b x (p :: q :: ℓ)

theorem Closes.head {b x : ℕ} (h : Closes b x ℓ) :
  ∃ p ∈ ℓ, p.base.toNat = 0
  := by
  cases h with
  | below hp hx => exact ⟨_, List.mem_cons_self, congrArg Prod.fst hp⟩
  | twoBelow hp hq hx => exact ⟨_, List.mem_cons_self, hp⟩
  | between hp hq hx => exact ⟨_, List.mem_cons_self, congrArg Prod.fst hp⟩

theorem Room.tail (h : Room new n (p :: ℓ)) :
  Room new n ℓ
  := by
  obtain ⟨hbase, hpos, hle, hround, hhigh, hsorted, hdisj, hwrap, hfree⟩ := h
  exact ⟨hbase, hpos, hle, hround, hhigh, (List.pairwise_cons.mp hsorted).2,
    (List.pairwise_cons.mp hdisj).2, (List.forall_mem_cons.mp hwrap).2,
    (List.forall_mem_cons.mp hfree).2⟩

theorem touch_of_ne_zero {base1 size1 base2 size2 : Word}
    (h : addrsAdjacent base1 size1 base2 size2 ≠ 0) :
  base2.toNat = (base1.toNat + size1.toNat) % 2 ^ 32
    ∨ base2.toNat ≠ (base1.toNat + size1.toNat) % 2 ^ 32
      ∧ base1.toNat = (base2.toNat + size2.toNat) % 2 ^ 32
  := by
  simp only [← BitVec.toNat_add, BitVec.toNat_inj, ne_eq]
  rw [addrsAdjacent] at h
  split_ifs at h with h₁ h₂
  · exact .inl h₁
  · exact .inr ⟨h₁, h₂⟩
  · exact absurd rfl h

theorem not_touch_of_zero {base1 size1 base2 size2 : Word}
    (h : addrsAdjacent base1 size1 base2 size2 = 0) :
  base2.toNat ≠ (base1.toNat + size1.toNat) % 2 ^ 32
    ∧ base1.toNat ≠ (base2.toNat + size2.toNat) % 2 ^ 32
  := by
  simp only [← BitVec.toNat_add, ne_eq, BitVec.toNat_inj]
  rw [addrsAdjacent] at h
  split_ifs at h with h₁ h₂
  · exact absurd h one_ne_zero
  · exact ⟨h₁, h₂⟩

/-- The base and the size of the extended entry. -/
theorem merged_of_touch (hadj : addrsAdjacent new.base new.size p.base p.size ≠ 0) :
  (merged new p).size.toNat = (p.size.toNat + new.size.toNat) % 2 ^ 32
    ∧ (p.base.toNat = (new.base.toNat + new.size.toNat) % 2 ^ 32
        ∧ (merged new p).base.toNat = new.base.toNat
      ∨ p.base.toNat ≠ (new.base.toNat + new.size.toNat) % 2 ^ 32
        ∧ new.base.toNat = (p.base.toNat + p.size.toNat) % 2 ^ 32
        ∧ (merged new p).base.toNat = p.base.toNat)
  := by
  by_cases hup : p.base = new.base + new.size
  · have hone : addrsAdjacent new.base new.size p.base p.size = 1 := if_pos hup
    have hmerged : merged new p = ⟨new.base, p.size + new.size⟩ := by
      rw [merged, hone, if_pos one_pos, hup, BitVec.add_sub_cancel]
    rw [hmerged]
    exact ⟨BitVec.toNat_add _ _, .inl ⟨by rw [hup, BitVec.toNat_add], rfl⟩⟩
  · have hnot : ¬ 0 < addrsAdjacent new.base new.size p.base p.size := by
      rw [addrsAdjacent, if_neg hup]
      split_ifs
      all_goals decide
    have hmerged : merged new p = ⟨p.base, p.size + new.size⟩ := if_neg hnot
    rw [hmerged]
    refine ⟨BitVec.toNat_add _ _, .inr ?_⟩
    obtain hup' | ⟨hne, hdown⟩ := touch_of_ne_zero hadj
    · rw [← BitVec.toNat_add, BitVec.toNat_inj] at hup'
      exact absurd hup' hup
    · exact ⟨hne, hdown, rfl⟩

/-- The entry has the `n` addresses from the base of the new one. -/
def Has (m new : Property) (n : ℕ) : Prop :=
  m.range.1 ≤ new.base.toNat ∧ new.base.toNat + n ≤ m.range.2

/-- Unless it makes up all the addresses with an entry at 0, the extended entry is not too large. -/
theorem Room.merged_eq (h : Room new n (p :: ℓ))
    (hadj : addrsAdjacent new.base new.size p.base p.size ≠ 0)
    (hcloses : ¬ Closes new.base.toNat new.range.2 (p :: ℓ)) :
  (merged new p).size.toNat = p.size.toNat + new.size.toNat
    ∧ ((merged new p).base.toNat = new.base.toNat
        ∧ (p.base.toNat = new.range.2 ∨ p.base.toNat = 0 ∧ new.range.2 = 2 ^ 32)
      ∨ (merged new p).base.toNat = p.base.toNat ∧ p.range.2 = new.base.toNat)
  := by
  obtain ⟨hsize, hmb⟩ := merged_of_touch hadj
  have hbase := h.base_pos
  have hpos := h.pos
  have hhigh := h.high
  have hpw : p.range.2 ≤ 2 ^ 32 := h.noWrap p List.mem_cons_self
  have hpf := Set.Ico_disjoint_Ico.mp (h.free p List.mem_cons_self)
  have hbelow : ¬ (p.base.toNat = 0 ∧ p.range.2 = new.base.toNat ∧ new.range.2 = 2 ^ 32) := by
    rintro ⟨h₁, h₂, h₃⟩
    exact hcloses (.below (Prod.ext h₁ h₂) h₃)
  simp only [Property.range] at hhigh hpw hbelow ⊢
  have hpb := p.base.isLt
  rcases hmb with ⟨hup, hmb⟩ | ⟨hup, hdown, hmb⟩
  · omega
  · omega

theorem Room.has_joinNext (h : Room new n (p :: ℓ))
    (hadj : addrsAdjacent new.base new.size p.base p.size ≠ 0)
    (hcloses : ¬ Closes new.base.toNat new.range.2 (p :: ℓ)) :
  Has (joinNext (merged new p) ℓ) new n
  := by
  obtain ⟨hsize, hmb⟩ := h.merged_eq hadj hcloses
  have hbase := h.base_pos
  have hpos := h.pos
  have hle := h.le
  have hhigh := h.high
  have hpw : p.range.2 ≤ 2 ^ 32 := h.noWrap p List.mem_cons_self
  simp only [Property.range] at hhigh hpw hmb
  have halone : Has (merged new p) new n := by
    simp only [Has, Property.range]
    omega
  cases ℓ with
  | nil => exact halone
  | cons q ℓ =>
    rw [joinNext]
    split_ifs with hnext
    · exact halone
    have hq := touch_of_ne_zero hnext
    have hqb := (List.pairwise_cons.mp h.sorted).1 q List.mem_cons_self
    rw [BitVec.lt_def] at hqb
    have hpq := Set.Ico_disjoint_Ico.mp ((List.pairwise_cons.mp h.disjoint).1 q List.mem_cons_self)
    have hqw : q.range.2 ≤ 2 ^ 32 := h.noWrap q (by simp)
    have hqf := Set.Ico_disjoint_Ico.mp (h.free q (by simp))
    have htwo : ¬ (p.base.toNat = 0 ∧ q.base.toNat = p.range.2 ∧ q.range.2 = new.base.toNat
        ∧ new.range.2 = 2 ^ 32) := by
      rintro ⟨h₁, h₂, h₃, h₄⟩
      exact hcloses (.twoBelow h₁ (Prod.ext h₂ h₃) h₄)
    have hbetween : ¬ (p.base.toNat = 0 ∧ p.range.2 = new.base.toNat ∧ q.range.2 = 2 ^ 32
        ∧ q.base.toNat ≤ new.range.2) := by
      rintro ⟨h₁, h₂, h₃, h₄⟩
      exact hcloses (.between (Prod.ext h₁ h₂) h₃ h₄)
    simp only [Property.range] at hqw htwo hbetween
    simp only [Has, Property.range, BitVec.toNat_add]
    rcases hmb with ⟨hmb, hp | ⟨hp, hx⟩⟩ | ⟨hmb, hp⟩
    · omega
    · omega
    · omega

/-- An entry that would hold all the addresses holds none of the new ones. -/
theorem Room.not_mem_joinNext (h : Room new n (p :: ℓ))
    (hcloses : Closes new.base.toNat new.range.2 (p :: ℓ)) :
  addrsAdjacent new.base new.size p.base p.size ≠ 0
    ∧ new.base.toNat ∉ Set.Ico (joinNext (merged new p) ℓ).range.1
      (joinNext (merged new p) ℓ).range.2
  := by
  have hbase := h.base_pos
  have hpos := h.pos
  have hle := h.le
  have hround := h.round
  have hb := new.base.isLt
  have hadj : addrsAdjacent new.base new.size p.base p.size ≠ 0 := by
    intro hzero
    have hnot := not_touch_of_zero hzero
    cases hcloses with
    | below hp hx =>
      simp only [Property.range, Prod.mk.injEq] at hp hx
      omega
    | twoBelow hp hq hx =>
      simp only [Property.range] at hp hx
      omega
    | between hp hq hx =>
      simp only [Property.range, Prod.mk.injEq] at hp hx
      omega
  refine ⟨hadj, ?_⟩
  obtain ⟨hsize, hmb⟩ := merged_of_touch hadj
  cases ℓ with
  | nil =>
    cases hcloses with
    | below hp hx =>
      simp only [Property.range, Prod.mk.injEq] at hp hx
      simp only [joinNext, Property.range, Set.mem_Ico]
      omega
  | cons q ℓ =>
    have hqb := (List.pairwise_cons.mp h.sorted).1 q List.mem_cons_self
    rw [BitVec.lt_def] at hqb
    have hpq := Set.Ico_disjoint_Ico.mp ((List.pairwise_cons.mp h.disjoint).1 q List.mem_cons_self)
    have hqw : q.range.2 ≤ 2 ^ 32 := h.noWrap q (by simp)
    have hqf := Set.Ico_disjoint_Ico.mp (h.free q (by simp))
    simp only [Property.range] at hqw
    rw [joinNext]
    split_ifs with hnext
    · have hnot := not_touch_of_zero hnext
      simp only [Property.range, Set.mem_Ico]
      cases hcloses with
      | below hp hx =>
        simp only [Property.range, Prod.mk.injEq] at hp hx
        omega
      | twoBelow hp hq hx =>
        simp only [Property.range, Prod.mk.injEq] at hp hq hx
        omega
      | between hp hq hx =>
        simp only [Property.range, Prod.mk.injEq] at hp hq hx
        omega
    · have htouch := touch_of_ne_zero hnext
      simp only [Property.range, Set.mem_Ico, BitVec.toNat_add]
      cases hcloses with
      | below hp hx =>
        simp only [Property.range, Prod.mk.injEq] at hp hx
        omega
      | twoBelow hp hq hx =>
        simp only [Property.range, Prod.mk.injEq] at hp hq hx
        omega
      | between hp hq hx =>
        simp only [Property.range, Prod.mk.injEq] at hp hq hx
        omega

/-- **The new addresses are in the joined entry** unless that would hold all the addresses; then
the first of them is not. -/
theorem Room.joined_cases (h : Room new n ℓ) :
  (¬ Closes new.base.toNat new.range.2 ℓ → Has (joined new ℓ) new n)
    ∧ (Closes new.base.toNat new.range.2 ℓ →
      new.base.toNat ∉ Set.Ico (joined new ℓ).range.1 (joined new ℓ).range.2)
  := by
  have hnew : Has new new n := ⟨le_rfl, Nat.add_le_add_left h.le _⟩
  induction ℓ with
  | nil => exact ⟨fun _ => hnew, fun hcloses => nomatch hcloses⟩
  | cons p ℓ ih =>
    have hne : p ≠ new := by
      rintro rfl
      have hfree := Set.Ico_disjoint_Ico.mp (h.free p List.mem_cons_self)
      have hpos := h.pos
      have hle := h.le
      omega
    rw [joined, if_neg hne]
    constructor
    · intro hcloses
      split_ifs with hadj
      · apply (ih h.tail).1
        intro hcloses'
        obtain ⟨q, hq, hzero⟩ := hcloses'.head
        have hlt := BitVec.lt_def.mp ((List.pairwise_cons.mp h.sorted).1 q hq)
        omega
      · exact h.has_joinNext hadj hcloses
    · intro hcloses
      obtain ⟨hadj, hmem⟩ := h.not_mem_joinNext hcloses
      rwa [if_neg hadj]

end Region

end Lmb
