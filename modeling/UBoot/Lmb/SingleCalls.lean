import UBoot.Lmb.Calls

/-!
# Single calls on any table

What `lmb_free`, `lmb_is_reserved` and `__lmb_alloc_base` do on tables that need not come from
a run of well-behaved calls: a call that fails, a table with an empty entry, a range that ends
where the addresses end.
-/

namespace Lmb

/-! ### Adding to a full table -/

/-- The new range neither is an entry nor touches it. -/
def Apart (new p : Property) : Prop :=
  p ≠ new ∧ addrsAdjacent new.base new.size p.base p.size = 0

namespace Region

variable {rgn rgn' : Region} {base size : Word} {ℓ : List Property} {p new : Property} {c : ℤ}

/-- The scan passes all entries, or stops at the first one that is no bystander. -/
theorem scanLoop_cases {i : ℕ} (h : Memory.Holds rgn.region i ℓ) :
  (∀ p ∈ ℓ, Apart new p)
      ∧ scanLoop rgn new.base new.size i ℓ.length = .left rgn (i + ℓ.length) 0
    ∨ ∃ A p B, ℓ = A ++ p :: B ∧ (∀ q ∈ A, Apart new q) ∧ ¬ Apart new p
      ∧ scanLoop rgn new.base new.size i ℓ.length
        = if p = new then .already
          else .left (rgn.set (i + A.length)
            (if 0 < addrsAdjacent new.base new.size p.base p.size
              then ⟨p.base - new.size, p.size + new.size⟩
              else ⟨p.base, p.size + new.size⟩)) (i + A.length) 1
  := by
  induction ℓ generalizing i with
  | nil => exact .inl ⟨List.forall_mem_nil _, rfl⟩
  | cons p ℓ ih =>
    by_cases hp : Apart new p
    · have hskip := @scanLoop_skip rgn new.base new.size [p] i ℓ.length ⟨h.1, trivial⟩
        fun q hq => List.mem_singleton.mp hq ▸ hp
      rw [List.length_singleton, Nat.add_comm] at hskip
      rw [List.length_cons, hskip]
      rcases ih h.2 with ⟨hall, heq⟩ | ⟨A, q, B, rfl, hA, hq, heq⟩
      · left
        refine ⟨List.forall_mem_cons.mpr ⟨hp, hall⟩, ?_⟩
        rw [heq, Nat.add_right_comm, Nat.add_assoc]
      · right
        refine ⟨p :: A, q, B, rfl, List.forall_mem_cons.mpr ⟨hp, hA⟩, hq, ?_⟩
        rw [heq, List.length_cons, Nat.add_right_comm, Nat.add_assoc]
    · right
      refine ⟨[], p, ℓ, rfl, List.forall_mem_nil _, hp, ?_⟩
      by_cases hnew : p = new
      · subst hnew
        rw [if_pos rfl, List.length_cons, scanLoop, h.1]
        simp
      · rw [if_neg hnew]
        exact scanLoop_touch ℓ.length h.1 hnew fun hadj => hp ⟨hnew, hadj⟩

/-- The second half of `lmb_add_region` fails only for want of room. -/
theorem finishAdd_neg {i coalesced : ℕ}
    (h : rgn.finishAdd base size i coalesced = some (c, rgn')) (hc : c < 0) :
  coalesced = 0 ∧ maxLmbRegions ≤ rgn.cnt ∧ rgn' = rgn
  := by
  simp only [finishAdd, Option.bind_eq_bind] at h
  by_cases hjoin : i < (rgn.cnt + (2 ^ 32 - 1)) % 2 ^ 32 ∧ rgn.regionsAdjacent i (i + 1) ≠ 0
  · rw [if_pos hjoin] at h
    cases hrgn : rgn.coalesceRegions i (i + 1) with
    | none => simp [hrgn] at h
    | some rgn₁ =>
      have hret : (coalesced : ℤ) + 1 = c ∧ rgn₁ = rgn' := by simpa [hrgn] using h
      omega
  · rw [if_neg hjoin, Option.bind_some] at h
    split_ifs at h with hsome hfull
    · obtain ⟨rfl, -⟩ := Prod.mk.inj (Option.some.inj h)
      omega
    · obtain ⟨-, rfl⟩ := Prod.mk.inj (Option.some.inj h)
      exact ⟨not_not.mp hsome, hfull, rfl⟩
    · obtain ⟨rfl, -⟩ := Prod.mk.inj (Option.some.inj h)
      omega

/-- `lmb_add_region` fails only for want of room, and leaves the table alone. -/
theorem addRegion_neg (h : rgn.addRegion new.base new.size = some (c, rgn')) (hc : c < 0) :
  rgn' = rgn ∧ maxLmbRegions ≤ rgn.cnt ∧ ∀ p ∈ rgn.entries, Apart new p
  := by
  rw [addRegion] at h
  split_ifs at h
  · obtain ⟨rfl, -⟩ := Prod.mk.inj (Option.some.inj h)
    omega
  · have hl := rgn.lists_entries
    rw [hl.1] at h
    rcases @scanLoop_cases rgn rgn.entries new 0 hl.2 with ⟨hall, heq⟩ | ⟨A, p, B, -, -, -, heq⟩
    · rw [heq, Scan.finish] at h
      obtain ⟨-, hfull, hsame⟩ := finishAdd_neg h hc
      exact ⟨hsame, hfull, hall⟩
    · rw [heq] at h
      by_cases hnew : p = new
      · rw [if_pos hnew, Scan.finish] at h
        obtain ⟨rfl, -⟩ := Prod.mk.inj (Option.some.inj h)
        omega
      · rw [if_neg hnew, Scan.finish] at h
        cases (finishAdd_neg h hc).1

theorem addRegion_full (hfull : maxLmbRegions ≤ rgn.cnt) (hcnt : rgn.cnt ≤ maxLmbRegions + 1)
    (hall : ∀ p ∈ rgn.entries, Apart new p) :
  rgn.addRegion new.base new.size = some (-1, rgn)
  := by
  have hl := rgn.lists_entries
  have hnot : ¬ rgn.cnt < (rgn.cnt + (2 ^ 32 - 1)) % 2 ^ 32 := by
    rw [maxLmbRegions] at hfull hcnt
    omega
  rw [addRegion, if_neg (by rw [maxLmbRegions] at hfull; omega)]
  rcases @scanLoop_cases rgn rgn.entries new 0 hl.2 with ⟨-, heq⟩ | ⟨A, p, B, hsplit, -, hp, -⟩
  · rw [← hl.1, zero_add] at heq
    rw [heq, Scan.finish]
    simp only [finishAdd, if_neg (fun h : _ ∧ _ => hnot h.1), Option.bind_eq_bind,
      Option.bind_some, ne_eq, not_true, if_false, if_pos hfull]
    rfl
  · exact absurd (hall p (by simp [hsplit])) hp

/-! ### Freeing a part of a full table -/

/-- The entry holds the range, as `lmb_free` tests it. -/
def Contains (p : Property) (base size : Word) : Prop :=
  p.base ≤ base ∧ base + size ≤ p.base + p.size

/--
`lmb_free` cuts the entry `p` off at `base` and cannot add what follows the range: the table is
full and the rest is merged with no entry.
-/
structure LosesTail (rgn : Region) (base size : Word) (A : List Property) (p : Property)
    (B : List Property) : Prop where
  entries : rgn.entries = A ++ p :: B
  first : ∀ q ∈ A, ¬ Contains q base size
  contains : Contains p base size
  front : p.base ≠ base
  back : p.base + p.size ≠ base + size
  full : maxLmbRegions ≤ rgn.cnt
  apart : ∀ q ∈ A ++ ⟨p.base, base - p.base⟩ :: B,
    Apart ⟨base + size, p.base + p.size - (base + size)⟩ q
  /-- The other entries do not make up for it. -/
  lost : ¬ Set.Ico (min base.toNat p.range.2) (max base.toNat p.range.2)
    ⊆ Intervals.cover ((A ++ B).map Property.range)

theorem findRegion_eq {A B : List Property} {i : ℕ}
    (h : Memory.Holds rgn.region i (A ++ p :: B)) (hA : ∀ q ∈ A, ¬ Contains q base size)
    (hp : Contains p base size) :
  findRegion rgn base (base + size) i (A ++ p :: B).length = i + A.length
  := by
  induction A generalizing i with
  | nil =>
    rw [List.nil_append, List.length_cons, findRegion, h.1]
    exact if_pos hp
  | cons q A ih =>
    obtain ⟨hq, hA⟩ := List.forall_mem_cons.mp hA
    rw [List.cons_append, List.length_cons, findRegion, h.1]
    simp only [if_neg (show ¬ (q.base ≤ base ∧ base + size ≤ q.base + q.size) from hq)]
    rw [ih h.2 hA, List.length_cons]
    omega

/-- An entry that has been cut off at `base`. -/
theorem range_cut (hle : p.base ≤ base) :
  Property.range ⟨p.base, base - p.base⟩ = (p.base.toNat, base.toNat)
  := by
  rw [Property.range, BitVec.toNat_sub_of_le hle]
  rw [BitVec.le_def] at hle
  rw [Nat.add_sub_cancel' hle]

/-- Two ranges from the same address, among others. -/
theorem cover_cut {A B : List (ℕ × ℕ)} {lo hi hi' : ℕ} (h : lo ≤ hi) (h' : lo ≤ hi') :
  Intervals.cover (A ++ (lo, hi) :: B) = Intervals.cover (A ++ (lo, hi') :: B)
    ↔ Set.Ico (min hi hi') (max hi hi') ⊆ Intervals.cover (A ++ B)
  := by
  simp only [Intervals.cover_append, Intervals.cover_cons, Set.ext_iff, Set.subset_def,
    Set.mem_union, Set.mem_Ico]
  constructor
  · intro heq a ha
    have := heq a
    by_contra hnot
    simp only [not_or] at hnot
    simp only [hnot.1, hnot.2, false_or, or_false] at this
    omega
  · intro hsub a
    have := hsub a
    by_cases hA : a ∈ Intervals.cover A
    · simp [hA]
    · by_cases hB : a ∈ Intervals.cover B
      · simp [hB]
      · simp only [hA, hB, false_or, or_false, imp_false] at this ⊢
        omega

/-- What `lmb_free` does if it has to cut an entry in two. -/
theorem free_split {A B : List Property} (hentries : rgn.entries = A ++ p :: B)
    (hA : ∀ q ∈ A, ¬ Contains q base size) (hp : Contains p base size) (hfront : p.base ≠ base)
    (hback : p.base + p.size ≠ base + size) :
  rgn.free base size
      = (rgn.set A.length ⟨p.base, base - p.base⟩).addRegion (base + size)
        (p.base + p.size - (base + size))
    ∧ (rgn.set A.length ⟨p.base, base - p.base⟩).entries
      = A ++ ⟨p.base, base - p.base⟩ :: B
  := by
  have hl := rgn.lists_entries
  rw [hentries] at hl
  have hfind := findRegion_eq hl.2 hA hp
  rw [← hl.1, zero_add] at hfind
  have hregion := hl.region_length
  have hlt : A.length ≠ rgn.cnt := by
    rw [hl.1]
    simp
  constructor
  · rw [free]
    simp only [hfind, hregion, if_neg hlt, if_neg (fun h : _ ∧ _ => hfront h.1), if_neg hfront,
      if_neg hback]
  · exact (hl.set _).entries_eq

/-- On failure `lmb_free` covers what it did exactly if it does not lose the end of an entry. -/
theorem free_atomic_iff (hcnt : rgn.cnt ≤ maxLmbRegions + 1) :
  (∀ c rgn', rgn.free base size = some (c, rgn') → c < 0 → rgn'.covered = rgn.covered)
    ↔ ¬ ∃ A p B, LosesTail rgn base size A p B
  := by
  have hcut {A B : List Property} {p : Property} (hentries : rgn.entries = A ++ p :: B)
      (hp : Contains p base size)
      (hset : (rgn.set A.length ⟨p.base, base - p.base⟩).entries
        = A ++ ⟨p.base, base - p.base⟩ :: B) :
      (rgn.set A.length ⟨p.base, base - p.base⟩).covered = rgn.covered
        ↔ Set.Ico (min base.toNat p.range.2) (max base.toNat p.range.2)
          ⊆ Intervals.cover ((A ++ B).map Property.range) := by
    have hle : p.base.toNat ≤ base.toNat := BitVec.le_def.mp hp.1
    rw [covered, covered, ranges, ranges, hset, hentries, List.map_append, List.map_append,
      List.map_append, List.map_cons, List.map_cons, range_cut hp.1]
    exact cover_cut hle (Nat.le_add_right _ _)
  constructor
  · rintro hatomic ⟨A, p, B, h⟩
    obtain ⟨hfree, hset⟩ := free_split h.entries h.first h.contains h.front h.back
    have hadd := @addRegion_full (rgn.set A.length ⟨p.base, base - p.base⟩)
      ⟨base + size, p.base + p.size - (base + size)⟩ h.full hcnt (hset ▸ h.apart)
    have hcov := hatomic _ _ (hfree.trans hadd) (by decide)
    exact h.lost ((hcut h.entries h.contains hset).mp hcov)
  · intro hnot c rgn' hfree hc
    have hl := rgn.lists_entries
    rcases findRegion_spec base (base + size) hl.2 with
      hend | ⟨A, p, B, hentries, hfind, hp, hA⟩
    · rw [← hl.1, zero_add] at hend
      simp only [free, hend, if_true] at hfree
      obtain ⟨-, rfl⟩ := Prod.mk.inj (Option.some.inj hfree)
      rfl
    · rw [← hl.1, zero_add] at hfind
      have hregion := (hentries ▸ hl).region_length
      by_cases hsplit : p.base ≠ base ∧ p.base + p.size ≠ base + size
      · obtain ⟨heq, hset⟩ := free_split hentries hA hp hsplit.1 hsplit.2
        rw [heq] at hfree
        obtain ⟨rfl, hfull, hapart⟩ :=
          @addRegion_neg _ _ ⟨base + size, p.base + p.size - (base + size)⟩ c hfree hc
        rw [hset] at hapart
        rw [hcut hentries hp hset]
        by_contra hlost
        exact hnot ⟨A, p, B, hentries, hA, hp, hsplit.1, hsplit.2, hfull, hapart, hlost⟩
      · -- nothing has to be added, and the call succeeds
        have hlt : A.length ≠ rgn.cnt := by
          rw [hl.1, hentries]
          simp
        rw [free] at hfree
        simp only [hfind, hregion, if_neg hlt] at hfree
        split_ifs at hfree with h₁ h₂ h₃
        · obtain ⟨rgn₁, -, heq⟩ := Option.map_eq_some_iff.mp hfree
          obtain ⟨rfl, -⟩ := Prod.mk.inj heq
          omega
        · obtain ⟨rfl, -⟩ := Prod.mk.inj (Option.some.inj hfree)
          omega
        · obtain ⟨rfl, -⟩ := Prod.mk.inj (Option.some.inj hfree)
          omega
        · exact absurd ⟨h₂, h₃⟩ hsplit

end Region

/-! ### Failures -/

section Failure

variable {lmb lmb' : Lmb} {reserved : Region} {lmbbase base size align maxAddr : Word}

/-- A range that the search ends with begins in the block, and not at 0. -/
theorem searchLoop_some {fuel : ℕ} {b : Word}
    (h : searchLoop reserved lmbbase size align fuel base = some (some b)) :
  b ≠ 0 ∧ lmbbase ≤ b ∧ reserved.overlapsRegion b size = none
  := by
  fun_induction searchLoop reserved lmbbase size align fuel base with
  | case1 => cases h
  | case2 fuel base hcond hover =>
    obtain rfl := Option.some.inj (Option.some.inj h)
    exact ⟨hcond.1, hcond.2, hover⟩
  | case3 => cases h
  | case4 fuel base hcond j hover resBase hlt ih => exact ih h
  | case5 => cases h

/-- An allocation that fails changes nothing. -/
theorem allocLoop_zero {n : ℕ} (h : lmb.allocLoop size align maxAddr n = some (0, lmb')) :
  lmb' = lmb
  := by
  fun_induction allocLoop lmb size align maxAddr n with
  | case1 =>
    obtain ⟨-, rfl⟩ := Prod.mk.inj (Option.some.inj h)
    rfl
  | case2 n block hstart ih => exact ih h
  | case3 => cases h
  | case4 n block start hstart hsearch ih => exact ih h
  | case5 n block start hstart base hsearch =>
    obtain ⟨⟨c, rgn⟩, hadd, heq⟩ := Option.map_eq_some_iff.mp h
    obtain ⟨haddr, rfl⟩ := Prod.mk.inj heq
    split_ifs at haddr with hc
    · obtain ⟨rfl, -⟩ := @Region.addRegion_neg _ _ ⟨base, alignUp size align⟩ c hadd hc
      rfl
    · exact absurd haddr (searchLoop_some hsearch).1

/-- A call that fails leaves the addresses that are reserved as they are. -/
structure AtomicOnFailure (lmb : Lmb) (base size : Word) : Prop where
  free : ∀ c lmb', lmb.free base size = some (c, lmb') → c < 0 →
    lmb'.reserved.covered = lmb.reserved.covered
  allocBase : ∀ size align maxAddr lmb', lmb.allocBase size align maxAddr = some (0, lmb') →
    lmb'.reserved.covered = lmb.reserved.covered

theorem atomicOnFailure_iff (lmb : Lmb) (hcnt : lmb.reserved.cnt ≤ maxLmbRegions + 1)
    (base size : Word) :
  AtomicOnFailure lmb base size ↔ ¬ ∃ A p B, Region.LosesTail lmb.reserved base size A p B
  := by
  rw [← Region.free_atomic_iff hcnt]
  constructor
  · intro h c rgn hfree hc
    refine h.free c { lmb with reserved := rgn } ?_ hc
    rw [Lmb.free, hfree]
    rfl
  · intro h
    constructor
    · intro c lmb' hfree hc
      obtain ⟨⟨c, rgn⟩, hfree', heq⟩ := Option.map_eq_some_iff.mp hfree
      obtain ⟨rfl, rfl⟩ := Prod.mk.inj heq
      exact h c rgn hfree' hc
    · intro size align maxAddr lmb' halloc
      rw [allocLoop_zero halloc]

/-- A table with eight entries, of four kilobytes each. -/
def fullTable : Region := ⟨8, fun i => ⟨BitVec.ofNat 32 (0x10000 * (i + 1)), 0x1000⟩⟩

/-- The end of an entry can be freed when the table is full. -/
theorem atomicOnFailure_back :
  AtomicOnFailure ⟨⟨0, fullTable.region⟩, fullTable⟩ 0x10800 0x800
  := by
  apply (atomicOnFailure_iff _ (by decide) 0x10800 0x800).mpr
  rintro ⟨A, p, B, h⟩
  have hp : p ∈ fullTable.entries := by
    rw [h.entries]
    simp
  have hall : ∀ p ∈ fullTable.entries, Region.Contains p 0x10800 0x800 →
      p.base + p.size = 0x10800 + 0x800 := by
    simp only [Region.Contains]
    decide
  exact h.back (hall p hp h.contains)

/-- The middle of an entry cannot, and the end of the entry is lost. -/
theorem not_atomicOnFailure_middle :
  ¬ AtomicOnFailure ⟨⟨0, fullTable.region⟩, fullTable⟩ 0x10400 0x400
  := by
  intro h
  have hfree : fullTable.free 0x10400 0x400 = some (-1, fullTable.set 0 ⟨0x10000, 0x400⟩) := by
    have hentries : fullTable.entries = [] ++ ⟨0x10000, 0x1000⟩ :: fullTable.entries.tail := by
      decide
    have hcontains : Region.Contains ⟨0x10000, 0x1000⟩ 0x10400 0x400 := ⟨by decide, by decide⟩
    obtain ⟨heq, -⟩ := @Region.free_split fullTable 0x10400 0x400 ⟨0x10000, 0x1000⟩ []
      fullTable.entries.tail hentries (List.forall_mem_nil _) hcontains (by decide) (by decide)
    rw [heq]
    apply @Region.addRegion_full _ ⟨0x10800, 0x800⟩ (by decide) (by decide)
    unfold Apart
    decide
  have hcov := h.free (-1) _ (by rw [Lmb.free, hfree]; rfl) (by decide)
  have hmem : 0x10800 ∈ fullTable.covered := by
    refine ⟨(0x10000, 0x11000), by decide, by decide, by decide⟩
  rw [← hcov] at hmem
  obtain ⟨r, hr, har⟩ := hmem
  have hall : ∀ r ∈ (fullTable.set 0 ⟨0x10000, 0x400⟩).ranges, ¬ (r.1 ≤ 0x10800 ∧ 0x10800 < r.2) := by
    decide
  exact hall r hr har

end Failure

/-! ### `lmb_is_reserved` -/

/-- The test of one entry. -/
def Property.tests (p : Property) (addr : Word) : Bool :=
  p.base ≤ addr ∧ addr ≤ p.base + p.size - 1

/-- The loop of `lmb_is_reserved`, with `n` entries to go from `i` on. -/
def isReservedLoop (rgn : Region) (addr : Word) : ℕ → ℕ → Bool
  | _, 0 => false
  | i, n + 1 => if (rgn.region i).tests addr then true else isReservedLoop rgn addr (i + 1) n

/-- `lmb_is_reserved`. -/
def isReserved (lmb : Lmb) (addr : Word) : Bool :=
  isReservedLoop lmb.reserved addr 0 lmb.reserved.cnt

section IsReserved

variable {lmb : Lmb} {rgn : Region} {addr : Word} {p : Property}

theorem isReservedLoop_iff {i : ℕ} {ℓ : List Property} (h : Memory.Holds rgn.region i ℓ) :
  isReservedLoop rgn addr i ℓ.length = true ↔ ∃ p ∈ ℓ, p.tests addr = true
  := by
  induction ℓ generalizing i with
  | nil => simp [isReservedLoop]
  | cons p ℓ ih =>
    rw [List.length_cons, isReservedLoop, h.1, List.exists_mem_cons_iff, ← ih h.2]
    cases p.tests addr <;> simp

theorem isReserved_iff_exists :
  lmb.isReserved addr = true ↔ ∃ p ∈ lmb.reserved.entries, p.tests addr = true
  := by
  have hl := lmb.reserved.lists_entries
  rw [isReserved, hl.1]
  exact isReservedLoop_iff hl.2

/-- The entry does not go beyond the last address. -/
def Property.NoWrap (p : Property) : Prop := p.range.2 ≤ 2 ^ 32

/-- The upper bound of the test. -/
theorem toNat_upper (p : Property) :
  (p.base + p.size - 1).toNat = (p.base.toNat + p.size.toNat + (2 ^ 32 - 1)) % 2 ^ 32
  := by
  rw [BitVec.toNat_sub, BitVec.toNat_add, show (1 : Word).toNat = 1 from rfl]
  omega

/-- The test of an entry that is not empty is right as long as it does not wrap. -/
theorem tests_iff (hp : p.NoWrap) (hne : 0 < p.size.toNat) :
  p.tests addr = true ↔ addr.toNat ∈ Set.Ico p.range.1 p.range.2
  := by
  have hb := p.base.isLt
  have hle : p.base.toNat + p.size.toNat ≤ 2 ^ 32 := hp
  simp only [Property.tests, decide_eq_true_eq, BitVec.le_def, toNat_upper, Set.mem_Ico,
    Property.range]
  omega

/-- An empty entry answers for no address, unless it is at 0. -/
theorem tests_of_empty (hsize : p.size = 0) :
  p.tests addr = true ↔ p.base = 0
  := by
  have hb := p.base.isLt
  have ha := addr.isLt
  have hzero : p.size.toNat = 0 := by
    rw [hsize]
    rfl
  have hbase : p.base = 0 ↔ p.base.toNat = 0 := BitVec.toNat_inj.symm
  simp only [Property.tests, decide_eq_true_eq, BitVec.le_def, toNat_upper, hzero, hbase]
  omega

/-- An entry that wraps answers for no address. -/
theorem tests_of_wrap (hp : ¬ p.NoWrap) :
  p.tests addr = false
  := by
  have hb := p.base.isLt
  have hs := p.size.isLt
  rw [Property.NoWrap, Property.range] at hp
  simp only [Property.tests, decide_eq_false_iff_not, BitVec.le_def, toNat_upper]
  omega

theorem tests_iff_or :
  p.tests addr = true
    ↔ p.NoWrap ∧ addr.toNat ∈ Set.Ico p.range.1 p.range.2 ∨ p = ⟨0, 0⟩
  := by
  by_cases hsize : p.size = 0
  · have hempty : ¬ addr.toNat ∈ Set.Ico p.range.1 p.range.2 := by
      simp [Property.range, hsize]
    rw [tests_of_empty hsize, and_iff_right_of_imp (fun h => absurd h hempty), or_iff_right hempty]
    constructor
    · intro hbase
      cases p
      exact congrArg₂ Property.mk hbase hsize
    · intro hp
      rw [hp]
  · have hne : p ≠ ⟨0, 0⟩ := fun h => hsize (by rw [h])
    have hpos : 0 < p.size.toNat := by
      rw [Nat.pos_iff_ne_zero]
      exact fun h => hsize (BitVec.eq_of_toNat_eq h)
    rw [or_iff_left hne]
    by_cases hp : p.NoWrap
    · rw [tests_iff hp hpos, and_iff_right hp]
    · rw [tests_of_wrap hp]
      simp [hp]

/-- `lmb_is_reserved` answers for the addresses of the set. -/
def Answers (lmb : Lmb) (held : Set ℕ) : Prop :=
  ∀ addr : Word, lmb.isReserved addr = true ↔ addr.toNat ∈ held

/-- The entries that the test gets wrong do no harm. -/
structure Region.Clear (rgn : Region) : Prop where
  /-- An empty entry at 0 answers for all addresses. -/
  empty : ⟨0, 0⟩ ∈ rgn.entries → ∀ addr : Word, addr.toNat ∈ rgn.covered
  /-- An entry that goes beyond the last address answers for none. -/
  wrap : ⟨0, 0⟩ ∉ rgn.entries → ∀ p ∈ rgn.entries, ¬ p.NoWrap → ∀ addr : Word, p.base ≤ addr →
    ∃ q ∈ rgn.entries, q.NoWrap ∧ addr.toNat ∈ Set.Ico q.range.1 q.range.2

theorem mem_covered_iff {a : ℕ} :
  a ∈ rgn.covered ↔ ∃ p ∈ rgn.entries, a ∈ Set.Ico p.range.1 p.range.2
  := by
  simp [Region.covered, Region.ranges, Intervals.cover]

theorem answers_covered_iff (lmb : Lmb) :
  lmb.Answers lmb.reserved.covered ↔ lmb.reserved.Clear
  := by
  simp only [Answers, isReserved_iff_exists, tests_iff_or]
  constructor
  · intro h
    constructor
    · intro hempty addr
      exact (h addr).mp ⟨_, hempty, .inr rfl⟩
    · intro hnone p hp hwrap addr hle
      have hmem : addr.toNat ∈ lmb.reserved.covered := by
        rw [mem_covered_iff]
        rw [Property.NoWrap, not_le] at hwrap
        exact ⟨p, hp, BitVec.le_def.mp hle, lt_trans addr.isLt hwrap⟩
      obtain ⟨q, hq, htest | rfl⟩ := (h addr).mpr hmem
      · exact ⟨q, hq, htest⟩
      · exact absurd hq hnone
  · intro h addr
    constructor
    · rintro ⟨p, hp, ⟨-, hmem⟩ | rfl⟩
      · exact mem_covered_iff.mpr ⟨p, hp, hmem⟩
      · exact h.empty hp addr
    · intro hmem
      by_cases hempty : ⟨0, 0⟩ ∈ lmb.reserved.entries
      · exact ⟨_, hempty, .inr rfl⟩
      · obtain ⟨p, hp, hmem⟩ := mem_covered_iff.mp hmem
        by_cases hwrap : p.NoWrap
        · exact ⟨p, hp, .inl ⟨hwrap, hmem⟩⟩
        · obtain ⟨q, hq, htest⟩ := h.wrap hempty p hp hwrap addr (BitVec.le_def.mpr hmem.1)
          exact ⟨q, hq, .inl htest⟩

/-- Entries with gaps between them are no harm. -/
theorem Region.Inv.clear (h : rgn.Inv) (hdummy : ¬ rgn.Dummy) :
  rgn.Clear
  := by
  have hsep := h.separated.resolve_left hdummy
  constructor
  · intro hempty
    have hne := hsep.nonempty _ (List.mem_map_of_mem hempty)
    simp [Property.range] at hne
  · intro _ p hp hwrap
    exact absurd (le_of_lt (h.bounded p hp)) hwrap

/--
In every state that is reached from `lmb_init` the answer of `lmb_is_reserved` is right exactly
if no entry does harm.  After calls that are made as they should be there is no such entry once
anything has been reserved, and what is reserved is what the calls say.
-/
theorem isReserved_reached (lmb : Lmb) (calls : List Call) (s : State)
    (hrun : Run.exec step (State.start lmb) calls = some s) :
  (s.lmb.Answers s.lmb.reserved.covered ↔ s.lmb.reserved.Clear)
    ∧ (Run.Along step (fun s c => Admissible s c ∧ Regular s c) (State.start lmb) calls →
      s.ok = true → ¬ s.lmb.reserved.Dummy → s.lmb.Answers s.held)
  := by
  refine ⟨answers_covered_iff s.lmb, ?_⟩
  intro halong hok hdummy
  obtain ⟨s', hrun', hinv⟩ := exec_inv lmb calls halong
  obtain rfl := Option.some.inj (hrun.symm.trans hrun')
  rw [← hinv.covered hok, answers_covered_iff]
  exact hinv.reserved.clear hdummy

/-- One range is reserved, and the answer is right. -/
theorem isReserved_reached_reserve :
  ∃ s, Run.exec step (State.start blank) [.reserve 0x1000 0x1000] = some s
    ∧ s.lmb.Answers s.held
  := by
  refine ⟨_, rfl, (isReserved_reached blank [.reserve 0x1000 0x1000] _ rfl).2 ?_ rfl ?_⟩
  · apply Run.Along.cons
      ⟨Fresh.of_ranges (by decide) (by decide) (by decide +kernel), one_ne_zero⟩ rfl
    trivial
  · intro h
    have hsize := h.2
    revert hsize
    decide

/--
Right after `lmb_init` all addresses are said to be reserved; and when the first page and the
last one are reserved they become one entry, and neither is said to be.
-/
theorem not_answers_start :
  ((State.start blank).held = ∅ ∧ ¬ (State.start blank).lmb.Answers (State.start blank).held)
    ∧ ∃ s, Run.exec step (State.start blank) [.reserve 0 0x1000, .reserve 0xfffff000 0x1000]
        = some s ∧ 0 ∈ s.held ∧ s.lmb.isReserved 0 = false
  := by
  refine ⟨⟨rfl, ?_⟩, _, rfl, ?_, ?_⟩
  · intro h
    have hmem := (h 0).mp (by decide)
    exact hmem
  · left
    right
    exact ⟨le_rfl, by decide⟩
  · decide +kernel

end IsReserved

end Lmb
