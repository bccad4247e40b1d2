import UBoot.Lmb.Region

/-!
# Adding a range to a table

`lmb_add_region` extends the entry that the new range touches, and then joins it with the
next one; a range that touches no entry gets one of its own.  On a table whose entries are
separated this is how an interval is added to a separated list of intervals.
-/

namespace Lmb

/-! ### The ranges of a table -/

/-- The first address of the entry, and the first one behind it. -/
def Property.range (p : Property) : ℕ × ℕ := (p.base.toNat, p.base.toNat + p.size.toNat)

theorem toNat_add_of_lt {a b : Word} (h : a.toNat + b.toNat < 2 ^ 32) :
  (a + b).toNat = a.toNat + b.toNat
  := by
  rw [BitVec.toNat_add, Nat.mod_eq_of_lt h]

theorem eq_add_iff {a b c : Word} (h : b.toNat + c.toNat < 2 ^ 32) :
  a = b + c ↔ a.toNat = b.toNat + c.toNat
  := by
  rw [← BitVec.toNat_inj, toNat_add_of_lt h]

namespace Property

variable {p q : Property}

/-- The entry ends inside the address space, so the sum of its fields does not wrap. -/
def Bounded (p : Property) : Prop := p.range.2 < 2 ^ 32

theorem addrsAdjacent_eq_one (h : q.range.1 = p.range.2) (hp : p.Bounded) :
  addrsAdjacent p.base p.size q.base q.size = 1
  := if_pos ((eq_add_iff hp).mpr h)

theorem addrsAdjacent_eq_neg_one (h : q.range.2 = p.range.1) (hp : p.Bounded) (hq : q.Bounded)
    (hlt : p.range.1 < p.range.2) :
  addrsAdjacent p.base p.size q.base q.size = -1
  := by
  rw [addrsAdjacent, if_neg, if_pos ((eq_add_iff hq).mpr h.symm)]
  rw [eq_add_iff hp]
  simp only [range] at h hlt
  omega

theorem addrsAdjacent_eq_zero (h : p.range.2 < q.range.1 ∨ q.range.2 < p.range.1) (hp : p.Bounded)
    (hq : q.Bounded) :
  addrsAdjacent p.base p.size q.base q.size = 0
  := by
  simp only [range] at h
  rw [addrsAdjacent, if_neg, if_neg]
  · rw [eq_add_iff hq]
    omega
  · rw [eq_add_iff hp]
    omega

end Property

namespace Region

variable {rgn : Region} {base size : Word} {ℓ ℓ₁ ℓ₂ : List Property} {p q : Property}

/-- The ranges of the entries. -/
def ranges (rgn : Region) : List (ℕ × ℕ) := rgn.entries.map Property.range

/-- The addresses that the table covers. -/
def covered (rgn : Region) : Set ℕ := Intervals.cover rgn.ranges

/-- The table has only the entry that `lmb_init` makes. -/
def Dummy (rgn : Region) : Prop := rgn.cnt = 1 ∧ (rgn.region 0).size = 0

/-- **The invariant of the tables.**  No entry wraps, and unless the table is the one
`lmb_init` makes, the entries are not empty and have a gap between any two of them. -/
structure Inv (rgn : Region) : Prop where
  cnt_le : rgn.cnt ≤ maxLmbRegions
  bounded : ∀ p ∈ rgn.entries, p.Bounded
  separated : rgn.Dummy ∨ Intervals.Separated rgn.ranges

/-- The scan passes the entries that do not touch the new one. -/
theorem scanLoop_skip {i : ℕ} (n : ℕ) (h : Memory.Holds rgn.region i ℓ)
    (hapart : ∀ p ∈ ℓ, p ≠ ⟨base, size⟩ ∧ addrsAdjacent base size p.base p.size = 0) :
  scanLoop rgn base size i (ℓ.length + n) = scanLoop rgn base size (i + ℓ.length) n
  := by
  induction ℓ generalizing i with
  | nil => simp
  | cons p ℓ ih =>
    obtain ⟨hp, hadj⟩ := hapart p (by simp)
    have hne : ¬ (p.base = base ∧ p.size = size) := fun h => hp (by rw [← h.1, ← h.2])
    rw [List.length_cons, show ℓ.length + 1 + n = ℓ.length + n + 1 by omega, scanLoop]
    simp only [h.1, hadj, lt_irrefl, if_false, if_neg hne]
    rw [ih h.2 fun q hq => hapart q (by simp [hq]),
      show i + 1 + ℓ.length = i + (ℓ.length + 1) by omega]

/-- The scan stops at the entry that the new one touches. -/
theorem scanLoop_touch {i : ℕ} (n : ℕ) (hi : rgn.region i = p) (hne : p ≠ ⟨base, size⟩)
    (hadj : addrsAdjacent base size p.base p.size ≠ 0) :
  scanLoop rgn base size i (n + 1)
    = .left (rgn.set i (if 0 < addrsAdjacent base size p.base p.size
        then ⟨p.base - size, p.size + size⟩ else ⟨p.base, p.size + size⟩)) i 1
  := by
  have hne' : ¬ (p.base = base ∧ p.size = size) := fun h => hne (by rw [← h.1, ← h.2])
  simp only [scanLoop, hi, if_neg hne']
  split
  · rfl
  · rw [if_pos (by omega)]

/-- A gap behind the extended entry: nothing else is joined. -/
theorem Lists.finishAdd_gap (h : rgn.Lists (ℓ₁ ++ p :: ℓ₂)) (hcnt : rgn.cnt ≤ maxLmbRegions)
    (hp : p.Bounded) (hℓ₂ : ∀ q ∈ ℓ₂, q.Bounded ∧ p.range.2 < q.range.1) :
  rgn.finishAdd base size ℓ₁.length 1 = some (1, rgn)
  := by
  have hlen : rgn.cnt = ℓ₁.length + (ℓ₂.length + 1) := by simpa using h.1
  have hno : ¬ (ℓ₁.length < (rgn.cnt + (2 ^ 32 - 1)) % 2 ^ 32
      ∧ rgn.regionsAdjacent ℓ₁.length (ℓ₁.length + 1) ≠ 0) := by
    cases ℓ₂ with
    | nil =>
      simp only [maxLmbRegions, List.length_nil] at hcnt hlen
      omega
    | cons q ℓ₂ =>
      have h' : rgn.Lists ((ℓ₁ ++ [p]) ++ q :: ℓ₂) := by simpa using h
      have hq : rgn.region (ℓ₁.length + 1) = q := by simpa using h'.region_length
      obtain ⟨hqb, hlt⟩ := hℓ₂ q (by simp)
      rw [regionsAdjacent, h.region_length, hq, Property.addrsAdjacent_eq_zero (.inl hlt) hp hqb]
      simp
  simp only [finishAdd, if_neg hno, Option.bind_eq_bind, Option.bind_some]
  rfl

/-- The extended entry now touches the next one, and the two are joined. -/
theorem Lists.finishAdd_touch (h : rgn.Lists (ℓ₁ ++ p :: q :: ℓ₂)) (hcnt : rgn.cnt ≤ maxLmbRegions)
    (hp : p.Bounded) (hq : q.range.1 = p.range.2) :
  ∃ rgn', rgn.finishAdd base size ℓ₁.length 1 = some (2, rgn')
    ∧ rgn'.Lists (ℓ₁ ++ ⟨p.base, p.size + q.size⟩ :: ℓ₂)
  := by
  have hlen : rgn.cnt = ℓ₁.length + (ℓ₂.length + 1 + 1) := by simpa using h.1
  have h' : rgn.Lists ((ℓ₁ ++ [p]) ++ q :: ℓ₂) := by simpa using h
  have hregion : rgn.region (ℓ₁.length + 1) = q := by simpa using h'.region_length
  have hyes : ℓ₁.length < (rgn.cnt + (2 ^ 32 - 1)) % 2 ^ 32
      ∧ rgn.regionsAdjacent ℓ₁.length (ℓ₁.length + 1) ≠ 0 := by
    rw [regionsAdjacent, h.region_length, hregion, Property.addrsAdjacent_eq_one hq hp]
    simp only [maxLmbRegions] at hcnt
    omega
  obtain ⟨rgn', hrgn', hℓ⟩ := h.coalesceRegions hcnt
  refine ⟨rgn', ?_, hℓ⟩
  simp only [finishAdd, if_pos hyes, hrgn', Option.map_some, Option.bind_eq_bind, Option.bind_some]
  rfl

theorem not_dummy (h : Intervals.Separated rgn.ranges) :
  ¬ rgn.Dummy
  := by
  intro ⟨hcnt, hsize⟩
  have := h.nonempty (rgn.region 0).range (by simp [ranges, entries, hcnt, Memory.read])
  simp [Property.range, hsize] at this

variable {new : Property}

/-- The entries on either side of the new one, and those that it touches. -/
structure Place (rgn : Region) (new : Property) (A L R B : List Property) : Prop where
  lists : rgn.Lists (A ++ L ++ (R ++ B))
  cnt_le : rgn.cnt ≤ maxLmbRegions
  bounded : ∀ p ∈ A ++ L ++ (R ++ B), p.Bounded
  separated : Intervals.Separated ((A ++ L ++ (R ++ B)).map Property.range)
  new_bounded : new.Bounded
  new_nonempty : new.range.1 < new.range.2
  before : ∀ p ∈ A, p.range.2 < new.range.1
  after : ∀ p ∈ B, new.range.2 < p.range.1

namespace Place

variable {A L R B : List Property}

theorem ne_new_of_lt (h : new.range.1 < new.range.2)
    (hp : p.range.2 ≤ new.range.1 ∨ new.range.2 ≤ p.range.1) :
  p ≠ new
  := by
  rintro rfl
  simp only [Property.range] at h hp
  omega

/-- The scan passes the entries in front of the new one. -/
theorem scanLoop_eq (h : Place rgn new A L R B) :
  scanLoop rgn new.base new.size 0 rgn.cnt
    = scanLoop rgn new.base new.size A.length (L ++ (R ++ B)).length
  := by
  have hl := h.lists
  rw [List.append_assoc] at hl
  rw [hl.1, List.length_append, scanLoop_skip _ (Memory.holds_append.mp hl.2).1, zero_add]
  intro p hp
  constructor
  · apply ne_new_of_lt h.new_nonempty (.inl (h.before p hp).le)
  · apply Property.addrsAdjacent_eq_zero (.inr (h.before p hp)) h.new_bounded
      (h.bounded p (by simp [hp]))

theorem addRegion_eq (h : Place rgn new A L R B) :
  rgn.addRegion new.base new.size
    = (scanLoop rgn new.base new.size A.length (L ++ (R ++ B)).length).finish
        rgn new.base new.size
  := by
  have hnot : ¬ (rgn.cnt = 1 ∧ (rgn.region 0).size = 0) := by
    apply not_dummy
    rw [ranges, h.lists.entries_eq]
    apply h.separated
  rw [addRegion, if_neg hnot, h.scanLoop_eq]

/-- The entry in front of the new one, extended by it. -/
theorem range_extend_up (hp : p.range.2 = new.range.1) (hnew : new.Bounded) :
  (Property.mk p.base (p.size + new.size)).range = (p.range.1, new.range.2)
  := by
  simp only [Property.Bounded, Property.range] at hp hnew ⊢
  rw [toNat_add_of_lt (by omega)]
  ext
  · rfl
  · show p.base.toNat + (p.size.toNat + new.size.toNat) = _
    omega

/-- The entry behind the new one, extended by it. -/
theorem range_extend_down (hq : q.range.1 = new.range.2) (hb : q.Bounded) :
  (Property.mk (q.base - new.size) (q.size + new.size)).range = (new.range.1, q.range.2)
  := by
  simp only [Property.Bounded, Property.range] at hq hb ⊢
  rw [toNat_add_of_lt (by omega), BitVec.toNat_sub_of_le (BitVec.le_def.mpr (by omega))]
  ext
  · show q.base.toNat - new.size.toNat = _
    omega
  · show q.base.toNat - new.size.toNat + (q.size.toNat + new.size.toNat) = _
    omega

/-- The entry in front of the new one takes it in. -/
theorem addRegion_up (h : Place rgn new A [p] R B) (hp : p.range.2 = new.range.1) :
  rgn.addRegion new.base new.size
    = (rgn.set A.length ⟨p.base, p.size + new.size⟩).finishAdd new.base new.size A.length 1
  := by
  have hl : rgn.Lists (A ++ p :: (R ++ B)) := by simpa using h.lists
  have hb : p.Bounded := h.bounded p (by simp)
  have hadj : addrsAdjacent new.base new.size p.base p.size = -1 :=
    Property.addrsAdjacent_eq_neg_one hp h.new_bounded hb h.new_nonempty
  rw [h.addRegion_eq]
  simp only [List.cons_append, List.length_cons]
  rw [scanLoop_touch _ hl.region_length (ne_new_of_lt h.new_nonempty (.inl hp.le))
    (by rw [hadj]; decide)]
  rw [hadj]
  rfl

/-- The entry behind the new one takes it in. -/
theorem addRegion_down (h : Place rgn new A [] [q] B) (hq : q.range.1 = new.range.2) :
  rgn.addRegion new.base new.size
    = (rgn.set A.length ⟨q.base - new.size, q.size + new.size⟩).finishAdd new.base new.size A.length 1
  := by
  have hl : rgn.Lists (A ++ q :: B) := by simpa using h.lists
  have hadj : addrsAdjacent new.base new.size q.base q.size = 1 :=
    Property.addrsAdjacent_eq_one hq h.new_bounded
  rw [h.addRegion_eq]
  simp only [List.nil_append, List.cons_append, List.length_cons]
  rw [scanLoop_touch _ hl.region_length (ne_new_of_lt h.new_nonempty (.inr hq.ge))
    (by rw [hadj]; decide)]
  rw [hadj]
  rfl

/-- The new entry touches none, and is inserted, unless the table is full. -/
theorem addRegion_between (h : Place rgn new A [] [] B) (hcnt : rgn.cnt ≠ 0) :
  rgn.addRegion new.base new.size
    = if maxLmbRegions ≤ rgn.cnt then some (-1, rgn)
      else some (0, rgn.insertRegion new.base new.size)
  := by
  have hl : rgn.Lists (A ++ B) := by simpa using h.lists
  have hB := (Memory.holds_append.mp hl.2).2
  have hlen := hl.1
  have hle := h.cnt_le
  rw [List.length_append] at hlen
  have hskip : scanLoop rgn new.base new.size A.length B.length = .left rgn rgn.cnt 0 := by
    rw [zero_add] at hB
    rw [← Nat.add_zero B.length, scanLoop_skip 0 hB, ← hlen]
    · rfl
    · intro p hp
      constructor
      · apply ne_new_of_lt h.new_nonempty (.inr (h.after p hp).le)
      · apply Property.addrsAdjacent_eq_zero (.inl (h.after p hp)) h.new_bounded
          (h.bounded p (by simp [hp]))
  have hno : ¬ (rgn.cnt < (rgn.cnt + (2 ^ 32 - 1)) % 2 ^ 32
      ∧ rgn.regionsAdjacent rgn.cnt (rgn.cnt + 1) ≠ 0) := by
    simp only [maxLmbRegions] at hle
    omega
  rw [h.addRegion_eq]
  simp only [List.nil_append, hskip, Scan.finish, finishAdd, if_neg hno, Option.bind_eq_bind, Option.bind_some]
  rw [if_neg (by simp)]
  split <;> rfl

/-- The new entry ends up in the entry `p` between `A` and `B`. -/
def Adds (rgn : Region) (new : Property) (A B : List Property) (range : ℕ × ℕ) : Prop :=
  ∃ c rgn' p, rgn.addRegion new.base new.size = some (c, rgn') ∧ 0 ≤ c
    ∧ rgn'.Lists (A ++ p :: B) ∧ rgn'.cnt ≤ maxLmbRegions ∧ p.range = range

theorem adds_up {r : Option ℕ} (h : Place rgn new A [p] R B) (hp : p.range.2 = new.range.1)
    (hR : R.map Property.range = Intervals.startsAt new.range.2 r) :
  Adds rgn new A B (p.range.1, r.getD new.range.2)
  := by
  have hl : rgn.Lists (A ++ p :: (R ++ B)) := by simpa using h.lists
  have hset := hl.set ⟨p.base, p.size + new.size⟩
  have hrange := range_extend_up hp h.new_bounded
  have hb : (Property.mk p.base (p.size + new.size)).Bounded := by
    rw [Property.Bounded, hrange]
    apply h.new_bounded
  rw [Adds, h.addRegion_up hp]
  cases r with
  | some b =>
    obtain ⟨q, rfl, hq⟩ := List.map_eq_singleton_iff.mp hR
    have hq1 : q.range.1 = new.range.2 := by rw [hq]
    obtain ⟨rgn', hrgn', hl'⟩ := hset.finishAdd_touch h.cnt_le hb (by rw [hrange, hq1])
    refine ⟨2, rgn', _, hrgn', by decide, hl', ?_, ?_⟩
    · have hlen : rgn.cnt = A.length + (B.length + 1 + 1) := by simpa using hl.1
      have hlen' : rgn'.cnt = A.length + (B.length + 1) := by simpa using hl'.1
      have := h.cnt_le
      omega
    · have hjoin : (Property.mk p.base (p.size + new.size + q.size)).range
          = ((Property.mk p.base (p.size + new.size)).range.1, q.range.2) :=
        range_extend_up (by rw [hrange, hq1]) (h.bounded q (by simp))
      rw [hjoin, hrange, hq]
      rfl
  | none =>
    obtain rfl := List.map_eq_nil_iff.mp hR
    refine ⟨1, _, _, hset.finishAdd_gap h.cnt_le hb ?_, by decide, hset, h.cnt_le, hrange⟩
    intro q hq
    rw [hrange]
    exact ⟨h.bounded q (by simpa using .inr (.inr hq)), h.after q hq⟩

theorem adds_down (h : Place rgn new A [] [q] B) (hq : q.range.1 = new.range.2) :
  Adds rgn new A B (new.range.1, q.range.2)
  := by
  have hl : rgn.Lists (A ++ q :: B) := by simpa using h.lists
  have hset := hl.set ⟨q.base - new.size, q.size + new.size⟩
  have hqb : q.Bounded := h.bounded q (by simp)
  have hrange := range_extend_down hq hqb
  have hsep : Intervals.Separated (A.map Property.range ++ q.range :: B.map Property.range) := by
    simpa using h.separated
  rw [Intervals.separated_append, Intervals.separated_cons] at hsep
  rw [Adds, h.addRegion_down hq]
  refine ⟨1, _, _, hset.finishAdd_gap h.cnt_le ?_ ?_, by decide, hset, h.cnt_le, hrange⟩
  · rw [Property.Bounded, hrange]
    apply hqb
  · intro q' hq'
    rw [hrange]
    exact ⟨h.bounded q' (by simp [hq']), hsep.2.1.2.2 q'.range (List.mem_map_of_mem hq')⟩

theorem adds_between (h : Place rgn new A [] [] B) (hcnt : rgn.cnt ≠ 0)
    (hlt : rgn.cnt < maxLmbRegions) :
  Adds rgn new A B new.range
  := by
  have hl : rgn.Lists (A ++ B) := by simpa using h.lists
  rw [Adds, h.addRegion_between hcnt, if_neg (by omega)]
  refine ⟨0, _, new, rfl, by decide, ?_, ?_, rfl⟩
  · apply hl.insertRegion (Nat.pos_of_ne_zero hcnt)
    · intro p hp
      have hbefore := h.before p hp
      simp only [Property.range] at hbefore
      apply BitVec.le_def.mpr (by omega)
    · intro p hp
      have hafter := h.after p hp
      simp only [Property.range] at hafter
      apply BitVec.lt_def.mpr (by omega)
  · show rgn.cnt + 1 ≤ _
    omega

/-- The new entry is in the table, joined with those it touches, or the table was full. -/
theorem adds_or_full {l r : Option ℕ} (h : Place rgn new A L R B) (hcnt : rgn.cnt ≠ 0)
    (hL : L.map Property.range = Intervals.endsAt new.range.1 l)
    (hR : R.map Property.range = Intervals.startsAt new.range.2 r) :
  rgn.addRegion new.base new.size = some (-1, rgn)
    ∨ Adds rgn new A B (l.getD new.range.1, r.getD new.range.2)
  := by
  cases l with
  | some a =>
    obtain ⟨p, rfl, hp⟩ := List.map_eq_singleton_iff.mp hL
    have hadds := h.adds_up (by rw [hp]) hR
    rw [hp] at hadds
    apply Or.inr hadds
  | none =>
    obtain rfl := List.map_eq_nil_iff.mp hL
    cases r with
    | some b =>
      obtain ⟨q, rfl, hq⟩ := List.map_eq_singleton_iff.mp hR
      have hadds := h.adds_down (by rw [hq])
      rw [hq] at hadds
      apply Or.inr hadds
    | none =>
      obtain rfl := List.map_eq_nil_iff.mp hR
      rcases Nat.lt_or_ge rgn.cnt maxLmbRegions with hlt | hge
      · apply Or.inr (h.adds_between hcnt hlt)
      · left
        rw [h.addRegion_between hcnt, if_pos hge]

end Place

theorem Inv.of_lists (h : rgn.Lists ℓ) (hcnt : rgn.cnt ≤ maxLmbRegions)
    (hb : ∀ p ∈ ℓ, p.Bounded) (hs : Intervals.Separated (ℓ.map Property.range)) :
  rgn.Inv
  := by
  refine ⟨hcnt, ?_, .inr ?_⟩
  · rw [h.entries_eq]
    apply hb
  · rw [ranges, h.entries_eq]
    apply hs

theorem Dummy.covered (h : rgn.Dummy) :
  rgn.covered = ∅
  := by
  simp [Region.covered, ranges, entries, h.1, Memory.read, Property.range, h.2]

/-- The first entry of a table takes the place of the one `lmb_init` makes. -/
theorem Dummy.addRegion (h : rgn.Dummy) (new : Property) :
  rgn.addRegion new.base new.size = some (0, rgn.set 0 new) ∧ (rgn.set 0 new).Lists [new]
  := by
  constructor
  · exact if_pos h
  · exact ⟨h.1, by simp [Region.set], trivial⟩

/-- **`lmb_add_region` adds a range.**  It fails only with the table as it was. -/
theorem Inv.addRegion (h : rgn.Inv) (hcnt : rgn.cnt ≠ 0) (hb : new.Bounded)
    (hne : new.range.1 < new.range.2)
    (hdisj : Disjoint (Set.Ico new.range.1 new.range.2) rgn.covered) :
  ∃ c rgn', rgn.addRegion new.base new.size = some (c, rgn') ∧ rgn'.Inv ∧ rgn'.cnt ≠ 0
    ∧ (c < 0 ∧ rgn' = rgn
      ∨ 0 ≤ c ∧ rgn'.covered = rgn.covered ∪ Set.Ico new.range.1 new.range.2)
  := by
  rcases h.separated with hdummy | hsep
  · obtain ⟨hadd, hl⟩ := hdummy.addRegion new
    refine ⟨0, _, hadd, Inv.of_lists hl h.cnt_le (by simpa using hb) ?_, hcnt, .inr ⟨le_refl 0, ?_⟩⟩
    · apply Intervals.separated_singleton hne
    · rw [hdummy.covered, Region.covered, ranges, hl.entries_eq]
      simp
  · obtain ⟨A', l, r, B', hsplit, hA, hB⟩ := hsep.exists_place hne hdisj
    obtain ⟨AL, RB, hAB, hAL, hRB⟩ := List.map_eq_append_iff.mp hsplit
    obtain ⟨A, L, rfl, rfl, hL⟩ := List.map_eq_append_iff.mp hAL
    obtain ⟨R, B, rfl, hR, rfl⟩ := List.map_eq_append_iff.mp hRB
    have hl := rgn.lists_entries
    have hbounded := h.bounded
    have hsep' := hsep
    rw [ranges, hAB] at hsep'
    rw [hAB] at hl hbounded
    have hplace : Place rgn new A L R B := by
      refine ⟨hl, h.cnt_le, hbounded, hsep', hb, hne, ?_, ?_⟩
      · intro p hp
        apply hA _ (List.mem_map_of_mem hp)
      · intro p hp
        apply hB _ (List.mem_map_of_mem hp)
    rcases hplace.adds_or_full hcnt hL hR with hfull | ⟨c, rgn', p, hadd, hc, hl', hcnt', hp⟩
    · exact ⟨-1, rgn, hfull, h, hcnt, .inl ⟨by decide, rfl⟩⟩
    · rw [hsplit] at hsep
      have hjoin := hsep.join hne hA hB
      have hcover := hsep.cover_join hne
      have hranges : (A ++ p :: B).map Property.range
          = A.map Property.range ++ (l.getD new.range.1, r.getD new.range.2) :: B.map Property.range := by
        simp [hp]
      refine ⟨c, rgn', hadd, Inv.of_lists hl' hcnt' ?_ ?_, ?_, .inr ⟨hc, ?_⟩⟩
      · have hpb : p.Bounded := by
          rw [Property.Bounded, hp]
          cases r with
          | none => apply hb
          | some b =>
            obtain ⟨q, rfl, hq⟩ := List.map_eq_singleton_iff.mp hR
            have hqb : q.range.2 < 2 ^ 32 := hbounded q (by simp)
            rw [hq] at hqb
            apply hqb
        intro q hq
        rcases List.mem_append.mp hq with hq | hq
        · apply hbounded q (by simp [hq])
        · rcases List.mem_cons.mp hq with rfl | hq
          · apply hpb
          · apply hbounded q (by simp [hq])
      · rw [hranges]
        apply hjoin
      · rw [hl'.1]
        simp
      · rw [Region.covered, ranges, hl'.entries_eq, hranges, hcover, Region.covered, hsplit]

/-- The same for a base and a size. -/
theorem Inv.addRange (h : rgn.Inv) (hcnt : rgn.cnt ≠ 0) (hlt : base.toNat + size.toNat < 2 ^ 32)
    (hpos : 0 < size.toNat)
    (hdisj : Disjoint (Set.Ico base.toNat (base.toNat + size.toNat)) rgn.covered) :
  ∃ c rgn', rgn.addRegion base size = some (c, rgn') ∧ rgn'.Inv ∧ rgn'.cnt ≠ 0
    ∧ (c < 0 ∧ rgn' = rgn
      ∨ 0 ≤ c ∧ rgn'.covered = rgn.covered ∪ Set.Ico base.toNat (base.toNat + size.toNat))
  := by
  have hb : (Property.mk base size).Bounded := hlt
  have hne : (Property.mk base size).range.1 < (Property.mk base size).range.2 :=
    Nat.lt_add_of_pos_right hpos
  apply h.addRegion hcnt hb hne hdisj

end Region

end Lmb
