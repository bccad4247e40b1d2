import UBoot.Lib.Intervals
import UBoot.Lib.Memory

/-!
# Tables of logical memory blocks

`lib/lmb.c` keeps the memory of the board, and what is reserved of it, in two tables of at
most eight entries, sorted by their base.  A table is an array with a count: removing an
entry only lowers the count, so the array keeps what was there, and the code does read it.
An empty table is a table with one entry of size zero, the one `lmb_init` makes; a table
whose last entry was freed has no entry at all.

The functions return `none` where the code would leave the array.
-/

namespace Lmb

/-- `struct lmb_property`. -/
structure Property where
  base : Word
  size : Word
deriving DecidableEq

/-- `struct lmb_region`, the table; its field `size` is only printed. -/
structure Region where
  cnt : ℕ
  region : ℕ → Property

/-- `MAX_LMB_REGIONS`; the array has one entry more. -/
def maxLmbRegions : ℕ := 8

/-- Are the two ranges not disjoint? -/
def addrsOverlap (base1 size1 base2 size2 : Word) : Bool :=
  base1 < base2 + size2 && base2 < base1 + size1

/-- `1` when the second range begins where the first one ends, `-1` when it ends where the
first one begins. -/
def addrsAdjacent (base1 size1 base2 size2 : Word) : ℤ :=
  if base2 = base1 + size1 then 1
  else if base1 = base2 + size2 then -1
  else 0

namespace Region

/-- The table with another entry at the index `i`. -/
def set (rgn : Region) (i : ℕ) (p : Property) : Region :=
  { rgn with region := Function.update rgn.region i p }

/-- `lmb_addrs_adjacent` of two entries. -/
def regionsAdjacent (rgn : Region) (r1 r2 : ℕ) : ℤ :=
  addrsAdjacent (rgn.region r1).base (rgn.region r1).size (rgn.region r2).base (rgn.region r2).size

/-- The loop of `lmb_remove_region`, over `n` entries from `i` on. -/
def removeLoop (region : ℕ → Property) : ℕ → ℕ → ℕ → Property
  | _, 0 => region
  | i, n + 1 => removeLoop (Function.update region i (region (i + 1))) (i + 1) n

/-- `lmb_remove_region`.  With no entry in the table the bound `cnt - 1` of its loop wraps. -/
def removeRegion (rgn : Region) (r : ℕ) : Option Region :=
  if rgn.cnt = 0 ∨ maxLmbRegions + 1 < rgn.cnt then none
  else some ⟨rgn.cnt - 1, removeLoop rgn.region r (rgn.cnt - 1 - r)⟩

/-- `lmb_coalesce_regions`. -/
def coalesceRegions (rgn : Region) (r1 r2 : ℕ) : Option Region :=
  let p := rgn.region r1
  (rgn.set r1 { p with size := p.size + (rgn.region r2).size }).removeRegion r2

/-- How the loop of `lmb_add_region` over the entries ends: the entry is there already, or
it was left at the index `i` after `coalesced` entries were extended. -/
inductive Scan where
  | already
  | left (rgn : Region) (i : ℕ) (coalesced : ℕ)

/-- The loop, with `n` entries to go from `i` on. -/
def scanLoop (rgn : Region) (base size : Word) : ℕ → ℕ → Scan
  | i, 0 => .left rgn i 0
  | i, n + 1 =>
    let p := rgn.region i
    if p.base = base ∧ p.size = size then .already
    else if 0 < addrsAdjacent base size p.base p.size then
      .left (rgn.set i ⟨p.base - size, p.size + size⟩) i 1
    else if addrsAdjacent base size p.base p.size < 0 then
      .left (rgn.set i { p with size := p.size + size }) i 1
    else scanLoop rgn base size (i + 1) n

/-- The loop that moves the entries behind the new one up, from the entry `n - 1` down. -/
def insertLoop (base size : Word) : ℕ → (ℕ → Property) → ℕ → Property
  | 0, region => region
  | n + 1, region =>
    if base < (region n).base then
      insertLoop base size n (Function.update region (n + 1) (region n))
    else Function.update region (n + 1) ⟨base, size⟩

/-- The new entry in its place of the sorted table. -/
def insertRegion (rgn : Region) (base size : Word) : Region :=
  let region := insertLoop base size rgn.cnt rgn.region
  { cnt := rgn.cnt + 1
    region :=
      if base < (region 0).base then Function.update region 0 ⟨base, size⟩ else region }

/-- The rest of `lmb_add_region` after its first loop.  The bound `cnt - 1` is unsigned. -/
def finishAdd (rgn : Region) (base size : Word) (i coalesced : ℕ) : Option (ℤ × Region) := do
  let (rgn, coalesced) ←
    if i < (rgn.cnt + (2 ^ 32 - 1)) % 2 ^ 32 ∧ rgn.regionsAdjacent i (i + 1) ≠ 0 then
      (rgn.coalesceRegions i (i + 1)).map fun rgn' => (rgn', coalesced + 1)
    else some (rgn, coalesced)
  if coalesced ≠ 0 then return (coalesced, rgn)
  if maxLmbRegions ≤ rgn.cnt then return (-1, rgn)
  return (0, rgn.insertRegion base size)

/-- What follows the first loop of `lmb_add_region`. -/
def Scan.finish (rgn : Region) (base size : Word) : Scan → Option (ℤ × Region)
  | .already => some (0, rgn)
  | .left rgn i coalesced => rgn.finishAdd base size i coalesced

/-- `lmb_add_region`: the value it returns, and the table. -/
def addRegion (rgn : Region) (base size : Word) : Option (ℤ × Region) :=
  if rgn.cnt = 1 ∧ (rgn.region 0).size = 0 then some (0, rgn.set 0 ⟨base, size⟩)
  else (scanLoop rgn base size 0 rgn.cnt).finish rgn base size

/-- The first loop of `lmb_free`, with `n` entries to go from `i` on: the entry that
contains the range from `base` to `endAddr`, or the count. -/
def findRegion (rgn : Region) (base endAddr : Word) : ℕ → ℕ → ℕ
  | i, 0 => i
  | i, n + 1 =>
    let p := rgn.region i
    if p.base ≤ base ∧ endAddr ≤ p.base + p.size then i
    else findRegion rgn base endAddr (i + 1) n

/-- `lmb_free` on the reserved table. -/
def free (rgn : Region) (base size : Word) : Option (ℤ × Region) :=
  let endAddr := base + size
  let i := rgn.findRegion base endAddr 0 rgn.cnt
  if i = rgn.cnt then some (-1, rgn)
  else
    let p := rgn.region i
    let rgnbegin := p.base
    let rgnend := rgnbegin + p.size
    if rgnbegin = base ∧ rgnend = endAddr then (rgn.removeRegion i).map fun rgn' => (0, rgn')
    else if rgnbegin = base then some (0, rgn.set i ⟨endAddr, p.size - size⟩)
    else if rgnend = endAddr then some (0, rgn.set i { p with size := p.size - size })
    else (rgn.set i { p with size := base - p.base }).addRegion endAddr (rgnend - endAddr)

/-- The loop of `lmb_overlaps_region`, with `n` entries to go from `i` on. -/
def overlapsLoop (rgn : Region) (base size : Word) : ℕ → ℕ → Option ℕ
  | _, 0 => none
  | i, n + 1 =>
    let p := rgn.region i
    if addrsOverlap base size p.base p.size then some i
    else overlapsLoop rgn base size (i + 1) n

/-- `lmb_overlaps_region`, with `none` for `-1`. -/
def overlapsRegion (rgn : Region) (base size : Word) : Option ℕ :=
  overlapsLoop rgn base size 0 rgn.cnt

/-! ### Tables as lists -/

/-- The entries of the table are `ℓ`. -/
def Lists (rgn : Region) (ℓ : List Property) : Prop :=
  rgn.cnt = ℓ.length ∧ Memory.Holds rgn.region 0 ℓ

/-- The entries of the table. -/
def entries (rgn : Region) : List Property := Memory.read rgn.region 0 rgn.cnt

theorem lists_entries (rgn : Region) :
  rgn.Lists rgn.entries
  := ⟨by simp [entries], Memory.holds_read _ _ _⟩

variable {rgn : Region} {base size : Word} {ℓ ℓ₁ ℓ₂ : List Property} {p q : Property}

theorem Lists.entries_eq (h : rgn.Lists ℓ) :
  rgn.entries = ℓ
  := by
  rw [entries, h.1]
  apply h.2.read_eq

/-- The entry behind the first part of the table. -/
theorem Lists.region_length (h : rgn.Lists (ℓ₁ ++ p :: ℓ₂)) :
  rgn.region ℓ₁.length = p
  := by
  have h₂ := (Memory.holds_append.mp h.2).2
  rw [zero_add] at h₂
  apply h₂.1

theorem Lists.set (h : rgn.Lists (ℓ₁ ++ p :: ℓ₂)) (q : Property) :
  (rgn.set ℓ₁.length q).Lists (ℓ₁ ++ q :: ℓ₂)
  := by
  refine ⟨by simpa [Region.set] using h.1, ?_⟩
  have h' := Memory.holds_append.mp h.2
  rw [zero_add] at h'
  apply Memory.holds_append.mpr
  rw [zero_add]
  refine ⟨?_, Function.update_self .., ?_⟩
  · apply h'.1.congr
    intro j _ hj
    apply Function.update_of_ne (by omega)
  · apply h'.2.2.congr
    intro j hj _
    apply Function.update_of_ne (by omega)

theorem removeLoop_of_lt (region : ℕ → Property) {i j : ℕ} (n : ℕ) (hj : j < i) :
  removeLoop region i n j = region j
  := by
  induction n generalizing region i with
  | zero => rfl
  | succ n ih => rw [removeLoop, ih _ (by omega), Function.update_of_ne (by omega)]

theorem holds_removeLoop {region : ℕ → Property} {i : ℕ} (h : Memory.Holds region i (p :: ℓ)) :
  Memory.Holds (removeLoop region i ℓ.length) i ℓ
  := by
  induction ℓ generalizing region i p with
  | nil => apply Memory.holds_nil
  | cons q ℓ ih =>
    rw [List.length_cons, removeLoop]
    constructor
    · rw [removeLoop_of_lt _ _ (by omega), Function.update_self, h.2.1]
    · apply ih
      apply h.2.congr
      intro j hj _
      apply Function.update_of_ne (by omega)

theorem Lists.removeRegion (h : rgn.Lists (ℓ₁ ++ p :: ℓ₂)) (hcnt : rgn.cnt ≤ maxLmbRegions) :
  ∃ rgn', rgn.removeRegion ℓ₁.length = some rgn' ∧ rgn'.Lists (ℓ₁ ++ ℓ₂)
  := by
  have hlen : rgn.cnt = ℓ₁.length + (ℓ₂.length + 1) := by simpa using h.1
  refine ⟨_, if_neg (by omega), ?_, ?_⟩
  · rw [List.length_append]
    show rgn.cnt - 1 = _
    omega
  · have h' := Memory.holds_append.mp h.2
    rw [zero_add] at h'
    apply Memory.holds_append.mpr
    rw [zero_add, show rgn.cnt - 1 - ℓ₁.length = ℓ₂.length by omega]
    constructor
    · apply h'.1.congr
      intro j _ hj
      apply removeLoop_of_lt _ _ (by omega)
    · apply holds_removeLoop h'.2

/-- Two entries become one, of the first one's base. -/
theorem Lists.coalesceRegions (h : rgn.Lists (ℓ₁ ++ p :: q :: ℓ₂)) (hcnt : rgn.cnt ≤ maxLmbRegions) :
  ∃ rgn', rgn.coalesceRegions ℓ₁.length (ℓ₁.length + 1) = some rgn'
    ∧ rgn'.Lists (ℓ₁ ++ ⟨p.base, p.size + q.size⟩ :: ℓ₂)
  := by
  have hq : rgn.region (ℓ₁.length + 1) = q := by
    have h' : rgn.Lists ((ℓ₁ ++ [p]) ++ q :: ℓ₂) := by simpa using h
    simpa using h'.region_length
  have hset := h.set ⟨p.base, p.size + q.size⟩
  have hset' : (rgn.set ℓ₁.length ⟨p.base, p.size + q.size⟩).Lists
      ((ℓ₁ ++ [⟨p.base, p.size + q.size⟩]) ++ q :: ℓ₂) := by simpa using hset
  obtain ⟨rgn', hrgn', hℓ⟩ := hset'.removeRegion hcnt
  refine ⟨rgn', ?_, by simpa using hℓ⟩
  rw [Region.coalesceRegions, h.region_length, hq]
  simpa using hrgn'

/-- What the loop leaves, when `k` entries stay below the new one: the place of the new
entry is filled, unless it is the first one. -/
theorem insertLoop_eq {region : ℕ → Property} {k n : ℕ} (hk : k ≤ n)
    (hlow : ∀ j < k, (region j).base ≤ base) (hhigh : ∀ j, k ≤ j → j < n → base < (region j).base) :
  insertLoop base size n region = fun j =>
    if j < k ∨ n < j then region j
    else if j = k then (if k = 0 then region 0 else ⟨base, size⟩)
    else region (j - 1)
  := by
  induction n generalizing region with
  | zero =>
    obtain rfl : k = 0 := by omega
    ext1 j
    rcases Nat.eq_zero_or_pos j with rfl | hj
    · simp [insertLoop]
    · simp [insertLoop, hj]
  | succ n ih =>
    rcases Nat.lt_or_ge n k with hn | hn
    · -- the entry in front of the new one: the loop stops here
      obtain rfl : k = n + 1 := by omega
      have hbase : ¬ base < (region n).base := BitVec.not_lt.mpr (hlow n (by omega))
      rw [insertLoop, if_neg hbase]
      ext1 j
      rcases Nat.lt_trichotomy j (n + 1) with hj | rfl | hj
      · rw [Function.update_of_ne (by omega), if_pos (by omega)]
      · simp
      · rw [Function.update_of_ne (by omega), if_pos (by omega)]
    · rw [insertLoop, if_pos (hhigh n hn (by omega)), ih hn]
      · ext1 j
        rcases Nat.lt_trichotomy j (n + 1) with hj | rfl | hj
        · by_cases hjk : j < k
          · rw [if_pos (by omega), if_pos (by omega), Function.update_of_ne (by omega)]
          · have hn₁ : ¬ (j < k ∨ n < j) := by omega
            have hn₂ : ¬ (j < k ∨ n + 1 < j) := by omega
            rw [if_neg hn₁, if_neg hn₂, Function.update_of_ne (by omega),
              Function.update_of_ne (by omega)]
        · rw [if_pos (by omega), if_neg (by omega), if_neg (by omega), Function.update_self]
          rfl
        · rw [if_pos (by omega), if_pos (by omega), Function.update_of_ne (by omega)]
      · intro j hj
        rw [Function.update_of_ne (by omega)]
        apply hlow j hj
      · intro j hkj hj
        rw [Function.update_of_ne (by omega)]
        apply hhigh j hkj (by omega)

/-- The array after `insertRegion`, when `k` entries stay below the new one. -/
theorem insertRegion_region {j k : ℕ} (hcnt : 0 < rgn.cnt) (hk : k ≤ rgn.cnt) (hj : j ≤ rgn.cnt)
    (hlow : ∀ j < k, (rgn.region j).base ≤ base)
    (hhigh : ∀ j, k ≤ j → j < rgn.cnt → base < (rgn.region j).base) :
  (rgn.insertRegion base size).region j
    = if j < k then rgn.region j else if j = k then ⟨base, size⟩ else rgn.region (j - 1)
  := by
  have hnot : ¬ rgn.cnt < j := by omega
  simp only [insertRegion, insertLoop_eq hk hlow hhigh]
  rcases Nat.eq_zero_or_pos k with rfl | hk0
  · have h0 : base < (rgn.region 0).base := hhigh 0 (le_refl 0) hcnt
    rcases Nat.eq_zero_or_pos j with rfl | hj0
    · simp [h0]
    · simp [h0, hnot, Nat.pos_iff_ne_zero.mp hj0]
  · have h0 : ¬ base < (rgn.region 0).base := BitVec.not_lt.mpr (hlow 0 hk0)
    simp [h0, hk0, hnot, Nat.pos_iff_ne_zero.mp hk0]

/-- `insertRegion` puts the new entry between those below it and those above it. -/
theorem Lists.insertRegion (h : rgn.Lists (ℓ₁ ++ ℓ₂)) (hcnt : 0 < rgn.cnt)
    (hlow : ∀ p ∈ ℓ₁, p.base ≤ base) (hhigh : ∀ p ∈ ℓ₂, base < p.base) :
  (rgn.insertRegion base size).Lists (ℓ₁ ++ ⟨base, size⟩ :: ℓ₂)
  := by
  have hlen : rgn.cnt = ℓ₁.length + ℓ₂.length := by simpa using h.1
  obtain ⟨h₁, h₂⟩ := Memory.holds_append.mp h.2
  simp only [Memory.holds_iff_getElem, zero_add] at h₁ h₂
  have hlow' : ∀ j < ℓ₁.length, (rgn.region j).base ≤ base := by
    intro j hj
    rw [h₁ j hj]
    apply hlow _ (List.getElem_mem hj)
  have hhigh' : ∀ j, ℓ₁.length ≤ j → j < rgn.cnt → base < (rgn.region j).base := by
    intro j hj hj'
    have hj₂ : j - ℓ₁.length < ℓ₂.length := by omega
    rw [show j = ℓ₁.length + (j - ℓ₁.length) by omega, h₂ _ hj₂]
    apply hhigh _ (List.getElem_mem hj₂)
  have hregion : ∀ j ≤ rgn.cnt, (rgn.insertRegion base size).region j
      = if j < ℓ₁.length then rgn.region j
        else if j = ℓ₁.length then ⟨base, size⟩ else rgn.region (j - 1) := by
    intro j hj
    apply insertRegion_region hcnt (by omega) hj hlow' hhigh'
  refine ⟨?_, Memory.holds_append.mpr ⟨?_, ?_, ?_⟩⟩
  · simp only [Region.insertRegion, List.length_append, List.length_cons]
    omega
  · rw [Memory.holds_iff_getElem]
    intro i hi
    rw [zero_add, hregion i (by omega), if_pos hi, h₁ i hi]
  · rw [zero_add, hregion _ (by omega)]
    simp
  · rw [Memory.holds_iff_getElem]
    intro i hi
    rw [zero_add, hregion _ (by omega), if_neg (by omega), if_neg (by omega),
      show ℓ₁.length + 1 + i - 1 = ℓ₁.length + i by omega, h₂ i hi]

end Region

end Lmb
