import UBoot.Lib.Run
import UBoot.Lmb.Alloc

/-!
# Sequences of calls

What holds after any sequence of calls that starts at `lmb_init`.  The state carries, beside
the tables, the addresses that the calls so far promise to have reserved, and whether one of
them reported a failure.
-/

namespace Lmb

/-- `lmb_init`. -/
def init (lmb : Lmb) : Lmb where
  memory := ⟨1, Function.update lmb.memory.region 0 ⟨0, 0⟩⟩
  reserved := ⟨1, Function.update lmb.reserved.region 0 ⟨0, 0⟩⟩

/-- `lmb_add`. -/
def add (lmb : Lmb) (base size : Word) : Option (ℤ × Lmb) :=
  (lmb.memory.addRegion base size).map fun (ret, memory) => (ret, { lmb with memory })

/-- `lmb_reserve`. -/
def reserve (lmb : Lmb) (base size : Word) : Option (ℤ × Lmb) :=
  (lmb.reserved.addRegion base size).map fun (ret, reserved) => (ret, { lmb with reserved })

/-- `lmb_free`. -/
def free (lmb : Lmb) (base size : Word) : Option (ℤ × Lmb) :=
  (lmb.reserved.free base size).map fun (ret, reserved) => (ret, { lmb with reserved })

/-- The calls that change the tables. -/
inductive Call where
  | add (base size : Word)
  | reserve (base size : Word)
  | allocBase (size align maxAddr : Word)
  | free (base size : Word)

/-- The addresses of a range. -/
def addresses (base size : Word) : Set ℕ := Set.Ico base.toNat (base.toNat + size.toNat)

/-- The tables, the addresses that were reserved or allocated and not freed, and whether no
call reported a failure. -/
structure State where
  lmb : Lmb
  held : Set ℕ
  ok : Bool

/-- The state after `lmb_init`. -/
def State.start (lmb : Lmb) : State := ⟨lmb.init, ∅, true⟩

/-- One call. -/
def step (s : State) : Call → Option State
  | .add base size =>
    (s.lmb.add base size).map fun (ret, lmb) => ⟨lmb, s.held, s.ok && 0 ≤ ret⟩
  | .reserve base size =>
    (s.lmb.reserve base size).map fun (ret, lmb) =>
      ⟨lmb, s.held ∪ addresses base size, s.ok && 0 ≤ ret⟩
  | .allocBase size align maxAddr =>
    (s.lmb.allocBase size align maxAddr).map fun (addr, lmb) =>
      ⟨lmb, s.held ∪ addresses addr size, s.ok && addr ≠ 0⟩
  | .free base size =>
    (s.lmb.free base size).map fun (ret, lmb) =>
      ⟨lmb, s.held \ addresses base size, s.ok && 0 ≤ ret⟩

/-- A range that is not empty, does not wrap and is new to the table. -/
structure Fresh (rgn : Region) (base size : Word) : Prop where
  nonempty : 0 < size.toNat
  no_wrap : base.toNat + size.toNat < 2 ^ 32
  disjoint : Disjoint (addresses base size) rgn.covered

/-- The calls that are made. -/
def Admissible (s : State) : Call → Prop
  | .add base size => Fresh s.lmb.memory base size
  | .reserve base size => Fresh s.lmb.reserved base size
  | .allocBase _ align _ => ∃ k < 32, align = BitVec.ofNat 32 (2 ^ k)
  | .free base size => addresses base size ⊆ s.lmb.reserved.covered

/-- The table has an entry to begin with, and the size to allocate is a positive multiple of
the alignment, below the ceiling. -/
def Regular (s : State) : Call → Prop
  | .add _ _ => True
  | .reserve _ _ => s.lmb.reserved.cnt ≠ 0
  | .allocBase size align maxAddr =>
    s.lmb.reserved.cnt ≠ 0 ∧ 0 < size.toNat ∧ align.toNat ∣ size.toNat ∧ Fits size maxAddr
  | .free _ _ => True

/-- At most eight entries, sorted by their base and without a common address. -/
structure Region.Ordered (rgn : Region) : Prop where
  cnt_le : rgn.cnt ≤ maxLmbRegions
  sorted : rgn.entries.Pairwise fun p q => p.base < q.base
  disjoint : rgn.entries.Pairwise fun p q =>
    Disjoint (addresses p.base p.size) (addresses q.base q.size)

/-- What is expected of the tables. -/
structure State.Sound (s : State) : Prop where
  memory : s.lmb.memory.Ordered
  reserved : s.lmb.reserved.Ordered
  covered : s.ok → s.lmb.reserved.covered = s.held

/-! ### The invariant of the calls -/

theorem Region.Inv.ordered {rgn : Region} (h : rgn.Inv) :
  rgn.Ordered
  := by
  rcases h.separated with hdummy | hsep
  · have hentries : rgn.entries = [rgn.region 0] := by
      rw [Region.entries, hdummy.1]
      rfl
    refine ⟨h.cnt_le, ?_, ?_⟩
    · rw [hentries]
      apply List.pairwise_singleton
    · rw [hentries]
      apply List.pairwise_singleton
  · have hpw := List.pairwise_map.mp hsep.pairwise
    refine ⟨h.cnt_le, ?_, ?_⟩
    · apply hpw.imp
      intro p q hpq
      simp only [Property.range] at hpq
      apply BitVec.lt_def.mpr (by omega)
    · apply hpw.imp
      intro p q hpq
      rw [addresses, addresses, Set.disjoint_left]
      intro a ha ha'
      simp only [Property.range, Set.mem_Ico] at hpq ha ha'
      omega

/-- The invariant of the calls. -/
structure State.Inv (s : State) : Prop where
  memory : s.lmb.memory.Inv
  memory_cnt : s.lmb.memory.cnt ≠ 0
  reserved : s.lmb.reserved.Inv
  covered : s.ok → s.lmb.reserved.covered = s.held

variable {s : State}

theorem State.Inv.sound (h : s.Inv) :
  s.Sound
  := ⟨h.memory.ordered, h.reserved.ordered, h.covered⟩

theorem Region.inv_init (region : ℕ → Property) :
  Region.Inv ⟨1, Function.update region 0 ⟨0, 0⟩⟩
  := by
  refine ⟨by simp [maxLmbRegions], ?_, .inl ⟨rfl, by simp⟩⟩
  intro p hp
  obtain rfl : p = ⟨0, 0⟩ := by simpa [Region.entries, Memory.read] using hp
  simp [Property.Bounded, Property.range]

theorem State.inv_start (lmb : Lmb) :
  (State.start lmb).Inv
  := by
  refine ⟨Region.inv_init _, one_ne_zero, Region.inv_init _, fun _ => ?_⟩
  apply Region.Dummy.covered
  exact ⟨rfl, by simp [State.start, init]⟩

theorem State.Inv.add (h : s.Inv) {base size : Word} (hfresh : Fresh s.lmb.memory base size) :
  ∃ s', step s (.add base size) = some s' ∧ s'.Inv
  := by
  obtain ⟨c, rgn, hadd, hinv, hcnt, -⟩ :=
    h.memory.addRange h.memory_cnt hfresh.no_wrap hfresh.nonempty hfresh.disjoint
  refine ⟨⟨⟨rgn, s.lmb.reserved⟩, s.held, s.ok && 0 ≤ c⟩, ?_, hinv, hcnt, h.reserved, ?_⟩
  · rw [step, Lmb.add, hadd]
    rfl
  intro hok
  rw [Bool.and_eq_true] at hok
  apply h.covered hok.1

theorem State.Inv.reserve (h : s.Inv) {base size : Word}
    (hfresh : Fresh s.lmb.reserved base size) (hcnt : s.lmb.reserved.cnt ≠ 0) :
  ∃ s', step s (.reserve base size) = some s' ∧ s'.Inv
  := by
  obtain ⟨c, rgn, hadd, hinv, -, hcases⟩ :=
    h.reserved.addRange hcnt hfresh.no_wrap hfresh.nonempty hfresh.disjoint
  refine ⟨⟨⟨s.lmb.memory, rgn⟩, s.held ∪ addresses base size, s.ok && 0 ≤ c⟩, ?_, h.memory,
    h.memory_cnt, hinv, ?_⟩
  · rw [step, Lmb.reserve, hadd]
    rfl
  intro hok
  simp only [Bool.and_eq_true, decide_eq_true_eq] at hok
  rcases hcases with ⟨hc, -⟩ | ⟨-, hcov⟩
  · omega
  · show rgn.covered = _
    rw [hcov, h.covered hok.1]
    rfl

theorem State.Inv.allocBase (h : s.Inv) {size align maxAddr : Word}
    (halign : ∃ k < 32, align = BitVec.ofNat 32 (2 ^ k)) (hcnt : s.lmb.reserved.cnt ≠ 0)
    (hsize : 0 < size.toNat) (hdvd : align.toNat ∣ size.toNat) (hfits : Fits size maxAddr) :
  ∃ s', step s (.allocBase size align maxAddr) = some s' ∧ s'.Inv
  := by
  obtain ⟨k, hk, rfl⟩ := halign
  rw [BitVec.toNat_ofNat, Nat.mod_eq_of_lt (Nat.pow_lt_pow_right (by decide) hk)] at hdvd
  obtain ⟨addr, lmb, halloc, hmem, hinv, hcases⟩ :=
    exists_allocLoop h.memory h.reserved hcnt hsize hk hdvd hfits (le_refl _)
  refine ⟨⟨lmb, s.held ∪ addresses addr size, s.ok && addr ≠ 0⟩, ?_, ?_, ?_, hinv, ?_⟩
  · rw [step, Lmb.allocBase, halloc]
    rfl
  · show lmb.memory.Inv
    rw [hmem]
    apply h.memory
  · show lmb.memory.cnt ≠ 0
    rw [hmem]
    apply h.memory_cnt
  · intro hok
    simp only [Bool.and_eq_true, decide_eq_true_eq] at hok
    rcases hcases with ⟨haddr, -⟩ | ⟨-, hcov⟩
    · apply absurd haddr hok.2
    · show lmb.reserved.covered = _
      rw [hcov, h.covered hok.1]
      rfl

theorem Region.Inv.lt_of_mem_covered {rgn : Region} {a : ℕ} (h : rgn.Inv) (ha : a ∈ rgn.covered) :
  a + 1 < 2 ^ 32
  := by
  obtain ⟨r, hr, har⟩ := ha
  obtain ⟨p, hp, rfl⟩ := List.mem_map.mp hr
  have hb : p.range.2 < 2 ^ 32 := h.bounded p hp
  have := har.2
  omega

theorem State.Inv.free (h : s.Inv) {base size : Word}
    (hsub : addresses base size ⊆ s.lmb.reserved.covered) :
  ∃ s', step s (.free base size) = some s' ∧ s'.Inv
  := by
  have hlt : base.toNat + size.toNat < 2 ^ 32 := by
    rcases Nat.eq_zero_or_pos size.toNat with h0 | hpos
    · rw [h0]
      apply base.isLt
    · -- the last address of the range is in an entry
      have hlast := h.reserved.lt_of_mem_covered
        (hsub (show base.toNat + size.toNat - 1 ∈ addresses base size from ⟨by omega, by omega⟩))
      omega
  obtain ⟨c, rgn, hfree, hinv, hcov⟩ := h.reserved.frees hlt
  refine ⟨⟨⟨s.lmb.memory, rgn⟩, s.held \ addresses base size, s.ok && 0 ≤ c⟩, ?_, h.memory,
    h.memory_cnt, hinv, ?_⟩
  · rw [step, Lmb.free, hfree]
    rfl
  intro hok
  simp only [Bool.and_eq_true, decide_eq_true_eq] at hok
  show rgn.covered = _
  rw [hcov hok.2, h.covered hok.1]
  rfl

/-- The invariant holds along every run of calls that starts at `lmb_init`. -/
theorem exec_inv (lmb : Lmb) (calls : List Call)
    (h : Run.Along step (fun s c => Admissible s c ∧ Regular s c) (State.start lmb) calls) :
  ∃ s, Run.exec step (State.start lmb) calls = some s ∧ s.Inv
  := by
  have hstep : ∀ (s : State) (c : Call), s.Inv → Admissible s c ∧ Regular s c →
      ∃ s', step s c = some s' ∧ s'.Inv := by
    intro s c hs hc
    cases c with
    | add base size => apply hs.add hc.1
    | reserve base size => apply hs.reserve hc.1 hc.2
    | allocBase size align maxAddr =>
      obtain ⟨halign, hcnt, hsize, hdvd, hfits⟩ := hc
      apply hs.allocBase halign hcnt hsize hdvd hfits
    | free base size => apply hs.free hc.1
  apply Run.exec_invariant hstep (State.inv_start lmb) h

/-- **The tables stay ordered, and the reserved one covers what was reserved.**  In every
run of calls that starts at `lmb_init`. -/
theorem calls_sound (lmb : Lmb) (calls : List Call)
    (h : Run.Along step (fun s c => Admissible s c ∧ Regular s c) (State.start lmb) calls) :
  ∃ s, Run.exec step (State.start lmb) calls = some s ∧ s.Sound
  := by
  obtain ⟨s, hs, hinv⟩ := exec_inv lmb calls h
  exact ⟨s, hs, hinv.sound⟩

theorem Fresh.of_ranges {rgn : Region} {base size : Word} (hpos : 0 < size.toNat)
    (hlt : base.toNat + size.toNat < 2 ^ 32)
    (h : ∀ p ∈ rgn.ranges, p.2 ≤ base.toNat ∨ base.toNat + size.toNat ≤ p.1 ∨ p.2 ≤ p.1) :
  Fresh rgn base size
  := by
  refine ⟨hpos, hlt, ?_⟩
  rw [addresses, Set.disjoint_left]
  rintro a ha ⟨p, hp, hap⟩
  have := h p hp
  simp only [Set.mem_Ico] at ha hap
  omega

theorem addresses_subset_covered {rgn : Region} {base size : Word}
    (h : ∃ p ∈ rgn.ranges, p.1 ≤ base.toNat ∧ base.toNat + size.toNat ≤ p.2) :
  addresses base size ⊆ rgn.covered
  := by
  obtain ⟨p, hp, hlow, hhigh⟩ := h
  apply subset_trans (Set.Ico_subset_Ico hlow hhigh) (Intervals.Ico_subset_cover hp)

/-- Tables without an entry, as they are before `lmb_init`. -/
def blank : Lmb := ⟨⟨0, fun _ => ⟨0, 0⟩⟩, ⟨0, fun _ => ⟨0, 0⟩⟩⟩

/-- The device tree is reserved at a fixed place, the ramdisk is allocated below it, and the
middle of the ramdisk is freed. -/
theorem calls_sound_bootm :
  Run.Along step (fun s c => Admissible s c ∧ Regular s c) (State.start blank)
      [.add 0 0x20000000, .reserve 0x1fff0000 0x4000, .allocBase 0x3000 0x1000 0x1fff4000,
        .free 0x1ffee000 0x1000]
    ∧ ∃ s, Run.exec step (State.start blank)
      [.add 0 0x20000000, .reserve 0x1fff0000 0x4000, .allocBase 0x3000 0x1000 0x1fff4000,
        .free 0x1ffee000 0x1000] = some s ∧ s.Sound
  := by
  have h : Run.Along step (fun s c => Admissible s c ∧ Regular s c) (State.start blank)
      [.add 0 0x20000000, .reserve 0x1fff0000 0x4000, .allocBase 0x3000 0x1000 0x1fff4000,
        .free 0x1ffee000 0x1000] := by
    apply Run.Along.cons ⟨Fresh.of_ranges (by decide) (by decide) (by decide +kernel), trivial⟩ rfl
    apply Run.Along.cons
      ⟨Fresh.of_ranges (by decide) (by decide) (by decide +kernel), one_ne_zero⟩ rfl
    apply Run.Along.cons
      ⟨⟨12, by decide, by decide⟩, one_ne_zero, by decide, by decide, .inr (by decide)⟩ rfl
    apply Run.Along.cons ⟨addresses_subset_covered (by decide +kernel), trivial⟩ rfl
    trivial
  exact ⟨h, calls_sound blank _ h⟩

/-- The calls are made as they should be, and the tables are not what they should be. -/
def Breaks (calls : List Call) : Prop :=
  Run.Along step Admissible (State.start blank) calls
    ∧ ∃ s, Run.exec step (State.start blank) calls = some s ∧ ¬ s.Sound

theorem Region.not_ordered {rgn : Region} {p q : Property} (h : rgn.entries = [p, q])
    (hpq : ¬ p.base < q.base ∨ q.base.toNat < p.base.toNat + p.size.toNat ∧ 0 < q.size.toNat) :
  ¬ rgn.Ordered
  := by
  intro ho
  have hsorted := ho.sorted
  have hdisj := ho.disjoint
  rw [h, List.pairwise_pair] at hsorted hdisj
  rcases hpq with hpq | hpq
  · apply hpq hsorted
  · rw [BitVec.lt_def] at hsorted
    have hp : q.base.toNat ∈ addresses p.base p.size := ⟨hsorted.le, hpq.1⟩
    have hq : q.base.toNat ∈ addresses q.base q.size := ⟨le_refl _, by omega⟩
    apply Set.disjoint_left.mp hdisj hp hq

/-- Each of the four conditions of `Regular` is needed: a range reserved after the table was
emptied is lost and the freed one is back; an allocation of a size that is not a multiple of
the alignment reaches into the range above it; so does one whose size exceeds its ceiling;
and one of size zero leaves an entry that ends up out of order. -/
theorem calls_break :
  Breaks [.reserve 0x2000 0x1000, .free 0x2000 0x1000, .reserve 0x3000 0x1000]
    ∧ Breaks [.add 0 0x10000000, .reserve 0x0ffff100 0x100, .allocBase 0x100 0x1000 0]
    ∧ Breaks [.add 0x1000 0xf000, .reserve 0xfffff800 0x100, .allocBase 0x2000 0x1000 0x1800]
    ∧ Breaks [.add 0x1000 0xf000, .reserve 0x8000 0x1000, .allocBase 0 0x1000 0x4000,
        .reserve 0x3000 0x5000]
  := by
  refine ⟨⟨?_, _, rfl, ?_⟩, ⟨?_, _, rfl, ?_⟩, ⟨?_, _, rfl, ?_⟩, ⟨?_, _, rfl, ?_⟩⟩
  · refine Run.Along.cons (Fresh.of_ranges (by decide) (by decide) (by decide +kernel)) rfl ?_
    refine Run.Along.cons (addresses_subset_covered (by decide +kernel)) rfl ?_
    refine Run.Along.cons (Fresh.of_ranges (by decide) (by decide) (by decide +kernel)) rfl ?_
    trivial
  · intro h
    have hcov := h.covered (by decide +kernel)
    have hmem : 0x2000 ∈ addresses 0x2000 0x1000 := ⟨by decide, by decide⟩
    have hheld := hcov ▸ addresses_subset_covered (by decide +kernel) hmem
    simp [State.start, addresses] at hheld
  · refine Run.Along.cons (Fresh.of_ranges (by decide) (by decide) (by decide +kernel)) rfl ?_
    refine Run.Along.cons (Fresh.of_ranges (by decide) (by decide) (by decide +kernel)) rfl ?_
    refine Run.Along.cons ⟨12, by decide, by decide⟩ rfl ?_
    trivial
  · intro h
    apply Region.not_ordered (p := ⟨0x0ffff000, 0x1000⟩) (q := ⟨0x0ffff100, 0x100⟩)
      (by decide +kernel) (by decide) h.reserved
  · refine Run.Along.cons (Fresh.of_ranges (by decide) (by decide) (by decide +kernel)) rfl ?_
    refine Run.Along.cons (Fresh.of_ranges (by decide) (by decide) (by decide +kernel)) rfl ?_
    refine Run.Along.cons ⟨12, by decide, by decide⟩ rfl ?_
    trivial
  · intro h
    apply Region.not_ordered (p := ⟨0xfffff000, 0x2000⟩) (q := ⟨0xfffff800, 0x100⟩)
      (by decide +kernel) (by decide) h.reserved
  · refine Run.Along.cons (Fresh.of_ranges (by decide) (by decide) (by decide +kernel)) rfl ?_
    refine Run.Along.cons (Fresh.of_ranges (by decide) (by decide) (by decide +kernel)) rfl ?_
    refine Run.Along.cons ⟨12, by decide, by decide⟩ rfl ?_
    refine Run.Along.cons (Fresh.of_ranges (by decide) (by decide) (by decide +kernel)) rfl ?_
    trivial
  · intro h
    apply Region.not_ordered (p := ⟨0x4000, 0⟩) (q := ⟨0x3000, 0x6000⟩)
      (by decide +kernel) (by decide) h.reserved

end Lmb
