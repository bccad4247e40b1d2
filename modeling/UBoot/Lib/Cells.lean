import Mathlib.Tactic.Ring
import UBoot.Lib.Memory

/-!
# The cells of a flash

Erasing sets all bits of a range, and programming only clears bits.  Loops over the blocks of a
range skip the bad ones; what they take is told by the number of good blocks in front.
-/

namespace Cells

open Memory

/-- The cells with a range erased. -/
def erased (cells : ℕ → Byte) (p n : ℕ) : ℕ → Byte :=
  fun q => if p ≤ q ∧ q < p + n then 0xff else cells q

/-- The cells with bytes programmed: bits are only cleared. -/
def programmed (cells : ℕ → Byte) (p : ℕ) (data : List Byte) : ℕ → Byte :=
  store cells p ((read cells p data.length).zipWith (· &&& ·) data)

/-- The cells `p`, …, `p + n - 1` with other contents. -/
def overwritten (cells : ℕ → Byte) (p n : ℕ) (contents : ℕ → Byte) : ℕ → Byte :=
  fun q => if p ≤ q ∧ q < p + n then contents q else cells q

/-- All bits of a range are set. -/
def Blank (cells : ℕ → Byte) (p n : ℕ) : Prop := ∀ q, p ≤ q → q < p + n → cells q = 0xff

variable {cells contents : ℕ → Byte} {p q n : ℕ} {data : List Byte}

theorem overwritten_of_not (h : q < p ∨ p + n ≤ q) :
  overwritten cells p n contents q = cells q
  := by
  rw [overwritten, if_neg (by omega)]

theorem overwritten_self (cells : ℕ → Byte) (p n : ℕ) :
  overwritten cells p n cells = cells
  := by
  funext q
  rw [overwritten, ite_self]

theorem blank_erased (cells : ℕ → Byte) (p n : ℕ) :
  Blank (erased cells p n) p n
  := fun _ hq hq' => if_pos ⟨hq, hq'⟩

theorem length_zipWith_read (cells : ℕ → Byte) (p : ℕ) (data : List Byte) :
  ((read cells p data.length).zipWith (· &&& ·) data).length = data.length
  := by rw [List.length_zipWith, length_read, Nat.min_self]

/-- Programming changes nothing outside its range. -/
theorem programmed_of_not (h : q < p ∨ p + data.length ≤ q) :
  programmed cells p data q = cells q
  := by
  obtain hlt | hle := h
  · exact store_of_lt _ hlt
  · apply store_of_le
    rwa [length_zipWith_read]

/-- A range with all bits set takes any data. -/
theorem programmed_of_blank (h : Blank cells p data.length) :
  programmed cells p data = store cells p data
  := by
  have hand : (read cells p data.length).zipWith (· &&& ·) data = data := by
    apply List.ext_getElem
    · apply length_zipWith_read
    · intro i _ hi
      rw [List.getElem_zipWith, getElem_read, h _ (by omega) (by omega)]
      exact UInt8.neg_one_and
  rw [programmed, hand]

/-- A range that is erased takes any data. -/
theorem programmed_erased (cells : ℕ → Byte) (p : ℕ) (data : List Byte) :
  programmed (erased cells p data.length) p data = store cells p data
  := by
  rw [programmed_of_blank (blank_erased cells p data.length)]
  funext q
  by_cases hq : p ≤ q ∧ q < p + data.length
  · obtain ⟨i, rfl⟩ := Nat.exists_eq_add_of_le hq.1
    have hi : i < data.length := by omega
    rw [store_add _ p hi, store_add _ p hi]
  · obtain hlt | hle := Nat.lt_or_ge q p
    · rw [store_of_lt _ hlt, store_of_lt _ hlt, erased, if_neg hq]
    · rw [store_of_le _ (by omega), store_of_le _ (by omega), erased, if_neg hq]

/-! ### The good blocks of a range -/

/-- The block with the number `k` from an offset on is before the end, and it is good. -/
def good (size : ℕ) (isBad : ℕ → Bool) (stop offset k : ℕ) : Bool :=
  offset + k * size < stop && !isBad (offset + k * size)

/-- How many of the `n` blocks from an offset on are good ones before the end. -/
def goodBlocks (size : ℕ) (isBad : ℕ → Bool) (stop offset n : ℕ) : ℕ :=
  (List.range n).countP (good size isBad stop offset)

/-- The block with the number `k` is one of those that make up `total` bytes, when each good one
takes `len` of them and `amount` bytes are in the blocks before the offset. -/
structure Taken (size : ℕ) (isBad : ℕ → Bool) (stop len total offset amount k : ℕ) : Prop where
  good : good size isBad stop offset k = true
  lt : amount + goodBlocks size isBad stop offset k * len < total

variable {size stop len total offset amount k : ℕ} {isBad : ℕ → Bool}

theorem good_succ (size : ℕ) (isBad : ℕ → Bool) (stop offset k : ℕ) :
  good size isBad stop offset (k + 1) = good size isBad stop (offset + size) k
  := by
  have hnext : offset + (k + 1) * size = offset + size + k * size := by ring
  rw [good, good, hnext]

/-- The first block, and those behind it. -/
theorem goodBlocks_succ (size : ℕ) (isBad : ℕ → Bool) (stop offset n : ℕ) :
  goodBlocks size isBad stop offset (n + 1)
    = goodBlocks size isBad stop (offset + size) n
      + if good size isBad stop offset 0 then 1 else 0
  := by
  have hshift : good size isBad stop offset ∘ Nat.succ = good size isBad stop (offset + size) :=
    funext fun k => good_succ size isBad stop offset k
  rw [goodBlocks, List.range_succ_eq_map, List.countP_cons, List.countP_map, hshift]
  rfl

theorem goodBlocks_of_isBad (hbad : isBad offset = true) (n : ℕ) :
  goodBlocks size isBad stop offset (n + 1) = goodBlocks size isBad stop (offset + size) n
  := by
  have hgood : good size isBad stop offset 0 = false := by
    rw [good, Nat.zero_mul, Nat.add_zero, hbad, Bool.not_true, Bool.and_false]
  rw [goodBlocks_succ, hgood]
  rfl

theorem goodBlocks_of_good (hlt : offset < stop) (hbad : ¬ isBad offset = true) (n : ℕ) :
  goodBlocks size isBad stop offset (n + 1) = goodBlocks size isBad stop (offset + size) n + 1
  := by
  have hgood : good size isBad stop offset 0 = true := by
    rw [good, Nat.zero_mul, Nat.add_zero, eq_false_of_ne_true hbad, decide_eq_true hlt]
    rfl
  rw [goodBlocks_succ, hgood, if_pos rfl]

theorem taken_zero (hlt : offset < stop) (hbad : ¬ isBad offset = true) (hamount : amount < total) :
  Taken size isBad stop len total offset amount 0
  := by
  constructor
  · rw [good, Nat.zero_mul, Nat.add_zero, eq_false_of_ne_true hbad, decide_eq_true hlt]
    rfl
  · rw [goodBlocks, List.range_zero, List.countP_nil, Nat.zero_mul, Nat.add_zero]
    exact hamount

/-- Behind a bad block the same blocks are taken. -/
theorem taken_succ_of_isBad (hbad : isBad offset = true) :
  Taken size isBad stop len total offset amount (k + 1)
    ↔ Taken size isBad stop len total (offset + size) amount k
  := by
  constructor
  · rintro ⟨hgood, hlt⟩
    rw [good_succ] at hgood
    rw [goodBlocks_of_isBad hbad] at hlt
    exact ⟨hgood, hlt⟩
  · rintro ⟨hgood, hlt⟩
    constructor
    · rwa [good_succ]
    · rwa [goodBlocks_of_isBad hbad]

/-- Behind a good block it has taken its bytes. -/
theorem taken_succ_of_good (hlt : offset < stop) (hbad : ¬ isBad offset = true) :
  Taken size isBad stop len total offset amount (k + 1)
    ↔ Taken size isBad stop len total (offset + size) (amount + len) k
  := by
  have hcount : amount + goodBlocks size isBad stop offset (k + 1) * len
      = amount + len + goodBlocks size isBad stop (offset + size) k * len := by
    rw [goodBlocks_of_good hlt hbad]
    ring
  constructor
  · rintro ⟨hgood, hlt'⟩
    rw [good_succ] at hgood
    rw [hcount] at hlt'
    exact ⟨hgood, hlt'⟩
  · rintro ⟨hgood, hlt'⟩
    constructor
    · rwa [good_succ]
    · rwa [hcount]

/-- A bad block is not taken. -/
theorem not_taken_zero (hbad : isBad offset = true) :
  ¬ Taken size isBad stop len total offset amount 0
  := by
  intro h
  have hgood := h.good
  rw [good, Nat.zero_mul, Nat.add_zero, hbad, Bool.not_true, Bool.and_false] at hgood
  cases hgood

theorem add_succ_mul (a k b : ℕ) :
  a + (k + 1) * b = a + b + k * b
  := by ring

/-- What holds of the blocks that are taken, by their addresses and the bytes before them: behind a
bad block, it holds of the same blocks, -/
theorem forall_taken_of_isBad (P : ℕ → ℕ → Prop) (hbad : isBad offset = true) :
  (∀ k, Taken size isBad stop len total offset amount k →
      P (offset + k * size) (amount + goodBlocks size isBad stop offset k * len))
    ↔ ∀ k, Taken size isBad stop len total (offset + size) amount k →
      P (offset + size + k * size)
        (amount + goodBlocks size isBad stop (offset + size) k * len)
  := by
  constructor
  · intro h k hk
    rw [← add_succ_mul, ← goodBlocks_of_isBad hbad]
    exact h (k + 1) ((taken_succ_of_isBad hbad).mpr hk)
  · intro h k hk
    cases k with
    | zero => exact absurd hk (not_taken_zero hbad)
    | succ k =>
      rw [add_succ_mul, goodBlocks_of_isBad hbad]
      exact h k ((taken_succ_of_isBad hbad).mp hk)

/-- and at a good block, of this one and of those behind it. -/
theorem forall_taken_of_good (P : ℕ → ℕ → Prop) (hlt : offset < stop)
    (hbad : ¬ isBad offset = true) (hamount : amount < total) :
  (∀ k, Taken size isBad stop len total offset amount k →
      P (offset + k * size) (amount + goodBlocks size isBad stop offset k * len))
    ↔ P offset amount ∧ ∀ k, Taken size isBad stop len total (offset + size) (amount + len) k →
      P (offset + size + k * size)
        (amount + len + goodBlocks size isBad stop (offset + size) k * len)
  := by
  have hzero : amount + goodBlocks size isBad stop offset 0 * len = amount := by
    rw [goodBlocks, List.range_zero, List.countP_nil, Nat.zero_mul, Nat.add_zero]
  have hsucc (k : ℕ) : amount + goodBlocks size isBad stop offset (k + 1) * len
      = amount + len + goodBlocks size isBad stop (offset + size) k * len := by
    rw [goodBlocks_of_good hlt hbad, add_succ_mul]
  constructor
  · intro h
    constructor
    · have hfirst := h 0 (taken_zero hlt hbad hamount)
      rwa [Nat.zero_mul, Nat.add_zero, hzero] at hfirst
    · intro k hk
      rw [← add_succ_mul, ← hsucc]
      exact h (k + 1) ((taken_succ_of_good hlt hbad).mpr hk)
  · rintro ⟨hfirst, hrest⟩ k hk
    cases k with
    | zero => rwa [Nat.zero_mul, Nat.add_zero, hzero]
    | succ k =>
      rw [add_succ_mul, hsucc]
      exact hrest k ((taken_succ_of_good hlt hbad).mp hk)

end Cells
