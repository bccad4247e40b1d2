import Mathlib.Data.List.GetD
import UBoot.Lib.Memory

/-!
# The 32-bit address space

A memory with 32-bit addresses assigns a value to every word.  Addresses wrap around:
`copy m p ℓ` is `m` with the cells from `p` on overwritten by `ℓ`, and `Contains m p ℓ` says
that the cells from `p` on contain `ℓ`.  Pieces that are stored one behind the other are
`storesAt offset pieces`.
-/

/-- A half word in memory, its most significant byte first. -/
def halfBytes (n : ℕ) : List Byte := [UInt8.ofNat (n >>> 8), UInt8.ofNat n]

/-- The half word that the bytes start with, `ntohs`. -/
def bytesHalf : List Byte → ℕ
  | hi :: lo :: _ => 256 * hi.toNat + lo.toNat
  | _ => 0

theorem bytesHalf_halfBytes {n : ℕ} (h : n < 2 ^ 16) (rest : List Byte) :
  bytesHalf (halfBytes n ++ rest) = n
  := by
  simp only [halfBytes, List.cons_append, bytesHalf, UInt8.toNat_ofNat', Nat.shiftRight_eq_div_pow]
  omega

theorem bytesHalf_lt (bytes : List Byte) :
  bytesHalf bytes < 2 ^ 16
  := by
  unfold bytesHalf
  split
  case h_1 hi lo _ =>
    have := hi.toNat_lt
    have := lo.toNat_lt
    omega
  case h_2 => decide

/-- Only the first two bytes count. -/
theorem bytesHalf_take {n : ℕ} (h : 2 ≤ n) (bytes : List Byte) :
  bytesHalf (bytes.take n) = bytesHalf bytes
  := by
  obtain ⟨n, rfl⟩ := Nat.exists_eq_add_of_le' h
  match bytes with
  | [] => rfl
  | [_] => rfl
  | _ :: _ :: _ => rfl

theorem bytesHalf_read {m : ℕ → Byte} {p : ℕ} {bytes : List Byte} (h : Memory.Holds m p bytes)
    (hlen : 2 ≤ bytes.length) :
  bytesHalf (Memory.read m p 2) = bytesHalf bytes
  := by
  rw [h.read_take hlen, bytesHalf_take le_rfl]

theorem halfBytes_bytesHalf {bytes : List Byte} (h : 2 ≤ bytes.length) :
  halfBytes (bytesHalf bytes) = bytes.take 2
  := by
  match bytes, h with
  | hi :: lo :: _, _ =>
    have hhi := hi.toNat_lt
    have hlo := lo.toNat_lt
    simp only [halfBytes, bytesHalf, List.take_succ_cons, List.take_zero, List.cons.injEq,
      ← UInt8.toNat_inj, UInt8.toNat_ofNat', Nat.shiftRight_eq_div_pow, and_true]
    omega

theorem length_halfBytes (n : ℕ) :
  (halfBytes n).length = 2
  := rfl

theorem halfBytes_injective {m n : ℕ} (hm : m < 2 ^ 16) (hn : n < 2 ^ 16)
    (h : halfBytes m = halfBytes n) :
  m = n
  := by
  rw [← bytesHalf_halfBytes hm [], ← bytesHalf_halfBytes hn [], h]

namespace AddressSpace

variable {α : Type*}

/-- The memory `m` with the cells from `p` on overwritten by `ℓ`. -/
def copy (m : Word → α) (p : Word) (ℓ : List α) : Word → α :=
  fun a => ℓ.getD (a - p).toNat (m a)

/-- The cells of `m` from `p` on contain `ℓ`. -/
def Contains (m : Word → α) (p : Word) (ℓ : List α) : Prop :=
  ∀ i (h : i < ℓ.length), m (p + BitVec.ofNat 32 i) = ℓ[i]

variable {m : Word → α} {p : Word} {ℓ ℓ' : List α}

theorem contains_nil (m : Word → α) (p : Word) :
  Contains m p []
  := by
  intro i h
  cases h

/-- Copying what is there already changes nothing. -/
theorem Contains.copy_eq (h : Contains m p ℓ) :
  copy m p ℓ = m
  := by
  funext a
  unfold copy
  by_cases hi : (a - p).toNat < ℓ.length
  · rw [List.getD_eq_getElem _ _ hi, ← h _ hi, BitVec.ofNat_toNat, BitVec.setWidth_eq]
    congr 1
    grind
  · rw [List.getD_eq_default _ _ (Nat.le_of_not_lt hi)]

/-- The distance of two cells of one range. -/
theorem toNat_sub_of_le {i j : ℕ} (hij : i ≤ j) (hj : j < 2 ^ 32) (p : Word) :
  (p + BitVec.ofNat 32 j - (p + BitVec.ofNat 32 i)).toNat = j - i
  := by
  have hsub : p + BitVec.ofNat 32 j - (p + BitVec.ofNat 32 i) = BitVec.ofNat 32 (j - i) := by
    rw [← BitVec.ofNat_sub_ofNat_of_le _ _ (by omega) hij]
    grind
  rw [hsub, BitVec.toNat_ofNat, Nat.mod_eq_of_lt (by omega)]

/-- What is written behind `ℓ` is there, and `ℓ` stays. -/
theorem Contains.copy_append (h : Contains m p ℓ) (ℓ' : List α)
    (hlen : ℓ.length + ℓ'.length < 2 ^ 32) :
  Contains (copy m (p + BitVec.ofNat 32 ℓ.length) ℓ') p (ℓ ++ ℓ')
  := by
  intro i hi
  rw [List.length_append] at hi
  unfold copy
  by_cases hlt : i < ℓ.length
  · -- the distance wraps around, to something behind the end of `ℓ'`
    have hdist : (p + BitVec.ofNat 32 i - (p + BitVec.ofNat 32 ℓ.length)).toNat
        = 2 ^ 32 - (ℓ.length - i) := by
      have hneg : p + BitVec.ofNat 32 i - (p + BitVec.ofNat 32 ℓ.length)
          = - BitVec.ofNat 32 (ℓ.length - i) := by
        rw [← BitVec.ofNat_sub_ofNat_of_le _ _ (by omega) hlt.le]
        grind
      rw [hneg, BitVec.toNat_neg, BitVec.toNat_ofNat, Nat.mod_eq_of_lt (by omega : _ < 2 ^ 32)]
      omega
    rw [List.getElem_append_left hlt, ← h i hlt, List.getD_eq_default]
    rw [hdist]
    omega
  · rw [List.getElem_append_right (Nat.le_of_not_lt hlt), toNat_sub_of_le (by omega) (by omega)]
    rw [List.getD_eq_getElem _ _ (by omega)]

theorem Contains.of_append (h : Contains m p (ℓ ++ ℓ')) :
  Contains m p ℓ
  := by
  intro i hi
  have hget := h i (by rw [List.length_append]; omega)
  rw [hget, List.getElem_append_left hi]

/-- A part of a range. -/
theorem Contains.drop (h : Contains m p (ℓ ++ ℓ')) :
  Contains m (p + BitVec.ofNat 32 ℓ.length) ℓ'
  := by
  intro i hi
  have hget := h (ℓ.length + i) (by rw [List.length_append]; omega)
  rw [List.getElem_append_right (by omega)] at hget
  rw [BitVec.add_assoc, ← BitVec.ofNat_add, hget]
  congr 1
  omega

/-- The `n` cells from `p` on. -/
def read (m : Word → α) (p : Word) (n : ℕ) : List α :=
  (List.range n).map fun i => m (p + BitVec.ofNat 32 i)

@[simp]
theorem length_read (m : Word → α) (p : Word) (n : ℕ) :
  (read m p n).length = n
  := by
  rw [read, List.length_map, List.length_range]

theorem Contains.read_drop (h : Contains m p ℓ) {i n : ℕ} (hi : i + n ≤ ℓ.length) :
  read m (p + BitVec.ofNat 32 i) n = (ℓ.drop i).take n
  := by
  apply List.ext_getElem
  · rw [length_read, List.length_take, List.length_drop]
    omega
  · intro j hj hj'
    rw [length_read] at hj
    simp only [read, List.getElem_map, List.getElem_range, List.getElem_take, List.getElem_drop]
    rw [BitVec.add_assoc, ← BitVec.ofNat_add, h (i + j) (by omega)]

theorem Contains.read_eq (h : Contains m p ℓ) :
  read m p ℓ.length = ℓ
  := by
  have hread := h.read_drop (i := 0) (n := ℓ.length) (by omega)
  rwa [BitVec.add_zero, List.drop_zero, List.take_length] at hread

/-- The word at `p`, its most significant byte first. -/
def readWord (m : Word → Byte) (p : Word) : Word := bytesWord (read m p 4)

theorem Contains.readWord_eq {m : Word → Byte} {w : Word} (h : Contains m p (wordBytes w)) :
  readWord m p = w
  := by
  have hread : read m p 4 = wordBytes w := h.read_eq
  rw [readWord, hread, bytesWord_wordBytes]

/-- Pieces that are stored one behind the other. -/
def storesAt : ℕ → List (List α) → List (Word × List α)
  | _, [] => []
  | offset, piece :: pieces =>
    (BitVec.ofNat 32 offset, piece) :: storesAt (offset + piece.length) pieces

theorem storesAt_append (offset : ℕ) (pieces : List (List α)) (piece : List α) :
  storesAt offset (pieces ++ [piece])
    = storesAt offset pieces ++ [(BitVec.ofNat 32 (offset + pieces.flatten.length), piece)]
  := by
  induction pieces generalizing offset with
  | nil => rfl
  | cons x pieces ih =>
    rw [List.cons_append, storesAt, storesAt, ih, List.flatten_cons, List.length_append,
      List.cons_append, Nat.add_assoc]

end AddressSpace
