import Mathlib.Tactic

/-!
# Flat memories

A flat memory assigns a value to every address.  `Holds m p ℓ` says that the cells
of `m` from `p` on contain the list `ℓ`, `read m p n` is the list of the `n` cells
from `p` on, and `store m p ℓ` is `m` with the cells from `p` on overwritten by `ℓ`.
-/

/-- The bytes of a C program, `unsigned char`. -/
abbrev Byte := UInt8

/-- Its 32-bit words, `unsigned long` and `uint32_t`. -/
abbrev Word := BitVec 32

/-- The bytes of a string literal, without its NUL. -/
def ascii (s : String) : List Byte := s.toList.map fun c => UInt8.ofNat c.toNat

/-- A word in memory, its most significant byte first. -/
def wordBytes (w : Word) : List Byte :=
  [UInt8.ofNat (w.toNat >>> 24), UInt8.ofNat (w.toNat >>> 16), UInt8.ofNat (w.toNat >>> 8),
    UInt8.ofNat w.toNat]

/-- The word with the given bytes. -/
def bytesWord (b : List Byte) : Word :=
  BitVec.ofNat 32 (b.foldl (fun n x => 256 * n + x.toNat) 0)

theorem bytesWord_wordBytes (w : Word) :
  bytesWord (wordBytes w) = w
  := by
  have hw := w.isLt
  apply BitVec.eq_of_toNat_eq
  simp only [bytesWord, wordBytes, List.foldl_cons, List.foldl_nil, UInt8.toNat_ofNat',
    Nat.shiftRight_eq_div_pow, BitVec.toNat_ofNat]
  omega

theorem wordBytes_bytesWord {b : List Byte} (h : b.length = 4) :
  wordBytes (bytesWord b) = b
  := by
  match b, h with
  | [b3, b2, b1, b0], _ =>
    have h3 := b3.toNat_lt
    have h2 := b2.toNat_lt
    have h1 := b1.toNat_lt
    have h0 := b0.toNat_lt
    simp only [wordBytes, bytesWord, List.foldl_cons, List.foldl_nil, BitVec.toNat_ofNat,
      Nat.shiftRight_eq_div_pow, List.cons.injEq, ← UInt8.toNat_inj, UInt8.toNat_ofNat', and_true]
    omega

namespace Memory

variable {α : Type*}

/-- The cells of `m` from `p` on contain `ℓ`. -/
def Holds (m : ℕ → α) : ℕ → List α → Prop
  | _, [] => True
  | p, x :: ℓ => m p = x ∧ Holds m (p + 1) ℓ

/-- The `n` cells of `m` from `p` on. -/
def read (m : ℕ → α) : ℕ → ℕ → List α
  | _, 0 => []
  | p, n + 1 => m p :: read m (p + 1) n

/-- The memory `m` with the cells from `p` on overwritten by `ℓ`. -/
def store (m : ℕ → α) : ℕ → List α → ℕ → α
  | _, [] => m
  | p, x :: ℓ => store (Function.update m p x) (p + 1) ℓ

@[simp]
theorem holds_nil (m : ℕ → α) (p : ℕ) :
  Holds m p []
  := trivial

@[simp]
theorem holds_cons {m : ℕ → α} {p : ℕ} {x : α} {ℓ : List α} :
  Holds m p (x :: ℓ) ↔ m p = x ∧ Holds m (p + 1) ℓ
  := Iff.rfl

theorem holds_append {m : ℕ → α} {p : ℕ} {ℓ₁ ℓ₂ : List α} :
  Holds m p (ℓ₁ ++ ℓ₂) ↔ Holds m p ℓ₁ ∧ Holds m (p + ℓ₁.length) ℓ₂
  := by
  induction ℓ₁ generalizing p with
  | nil => simp
  | cons x ℓ₁ ih =>
    simp only [List.cons_append, holds_cons, ih, List.length_cons, and_assoc]
    rw [show p + 1 + ℓ₁.length = p + (ℓ₁.length + 1) by omega]

/-- `Holds m p ℓ` in terms of the single cells. -/
theorem Holds.drop {m : ℕ → α} {p : ℕ} {ℓ : List α} (h : Holds m p ℓ) (n : ℕ) :
  Holds m (p + n) (ℓ.drop n)
  := by
  induction n generalizing p ℓ with
  | zero => exact h
  | succ n ih =>
    cases ℓ with
    | nil => exact trivial
    | cons x ℓ =>
      rw [Nat.add_comm n 1, ← Nat.add_assoc, Nat.add_comm 1 n]
      apply ih h.2

theorem holds_iff_getElem {m : ℕ → α} {p : ℕ} {ℓ : List α} :
  Holds m p ℓ ↔ ∀ i (h : i < ℓ.length), m (p + i) = ℓ[i]
  := by
  induction ℓ generalizing p with
  | nil => simp
  | cons x ℓ ih =>
    rw [holds_cons, ih]
    constructor
    · rintro ⟨h0, h⟩ i hi
      cases i with
      | zero => exact h0
      | succ i =>
        rw [show p + (i + 1) = p + 1 + i by omega, List.getElem_cons_succ]
        apply h
    · intro h
      constructor
      · exact h 0 (Nat.succ_pos _)
      · intro i hi
        have hs := h (i + 1) (by simpa using hi)
        rw [show p + (i + 1) = p + 1 + i by omega, List.getElem_cons_succ] at hs
        apply hs

/-- Memories that agree on the cells of `ℓ` hold `ℓ` there together. -/
theorem Holds.congr {m m' : ℕ → α} {p : ℕ} {ℓ : List α} (hm : Holds m p ℓ)
    (h : ∀ q, p ≤ q → q < p + ℓ.length → m' q = m q) :
  Holds m' p ℓ
  := by
  rw [holds_iff_getElem] at hm ⊢
  intro i hi
  rw [h (p + i) (by omega) (by omega)]
  apply hm

theorem holds_read (m : ℕ → α) (p n : ℕ) :
  Holds m p (read m p n)
  := by
  induction n generalizing p with
  | zero => apply holds_nil
  | succ n ih => exact ⟨rfl, ih (p + 1)⟩

@[simp]
theorem length_read (m : ℕ → α) (p n : ℕ) :
  (read m p n).length = n
  := by
  induction n generalizing p with
  | zero => rfl
  | succ n ih => exact congrArg Nat.succ (ih (p + 1))

theorem getElem_read (m : ℕ → α) (p n i : ℕ) (h : i < (read m p n).length) :
  (read m p n)[i] = m (p + i)
  := (holds_iff_getElem.mp (holds_read m p n) i h).symm

theorem read_congr {m m' : ℕ → α} {p n : ℕ} (h : ∀ q, p ≤ q → q < p + n → m q = m' q) :
  read m p n = read m' p n
  := by
  apply List.ext_getElem
  · simp
  · intro i hi _
    rw [getElem_read, getElem_read]
    rw [length_read] at hi
    apply h (p + i) (by omega) (by omega)

theorem Holds.read_eq {m : ℕ → α} {p : ℕ} {ℓ : List α} (h : Holds m p ℓ) :
  read m p ℓ.length = ℓ
  := by
  apply List.ext_getElem
  · simp
  · intro i hi hi'
    rw [getElem_read, holds_iff_getElem.mp h i hi']

theorem Holds.read_take {m : ℕ → α} {p n : ℕ} {ℓ : List α} (h : Holds m p ℓ) (hn : n ≤ ℓ.length) :
  read m p n = ℓ.take n
  := by
  apply List.ext_getElem
  · rw [length_read, List.length_take, Nat.min_eq_left hn]
  · intro i hi hi'
    rw [length_read] at hi
    rw [getElem_read, holds_iff_getElem.mp h i (by omega), List.getElem_take]

theorem read_add (m : ℕ → α) (p a b : ℕ) :
  read m p (a + b) = read m p a ++ read m (p + a) b
  := by
  induction a generalizing p with
  | zero => simp [read]
  | succ a ih =>
    rw [show a + 1 + b = a + b + 1 by omega, read, read, List.cons_append, ih,
      show p + 1 + a = p + (a + 1) by omega]

theorem take_read (m : ℕ → α) (p : ℕ) {k n : ℕ} (h : k ≤ n) :
  (read m p n).take k = read m p k
  := by
  symm
  apply (holds_read m p n).read_take
  rwa [length_read]

theorem drop_read (m : ℕ → α) (p : ℕ) {k n : ℕ} (h : k ≤ n) :
  (read m p n).drop k = read m (p + k) (n - k)
  := by
  obtain ⟨d, rfl⟩ := Nat.exists_eq_add_of_le h
  rw [read_add, List.drop_left' (length_read ..), Nat.add_sub_cancel_left]

/-- A part of what was read. -/
theorem take_drop_read (m : ℕ → α) {p n a k : ℕ} (h : a + k ≤ n) :
  ((read m p n).drop a).take k = read m (p + a) k
  := by
  rw [drop_read m p (by omega), take_read m (p + a) (by omega)]

/-- What is read up to the end of a text. -/
theorem Holds.takeWhile_read {m : ℕ → α} {p n : ℕ} {ℓ : List α} {x : α} {P : α → Bool}
    (h : Holds m p (ℓ ++ [x])) (hℓ : ∀ y ∈ ℓ, P y = true) (hx : P x = false)
    (hn : ℓ.length < n) :
  (read m p n).takeWhile P = ℓ
  := by
  have hread := h.read_eq
  have hsplit : n = (ℓ ++ [x]).length + (n - (ℓ ++ [x]).length) := by
    rw [List.length_append, List.length_singleton]
    omega
  rw [hsplit, read_add, hread, List.append_assoc, List.takeWhile_append_of_pos hℓ,
    List.singleton_append, List.takeWhile_cons_of_neg, List.append_nil]
  rw [hx]
  exact Bool.false_ne_true

theorem store_of_lt {m : ℕ → α} {p q : ℕ} (ℓ : List α) (h : q < p) :
  store m p ℓ q = m q
  := by
  induction ℓ generalizing m p with
  | nil => rfl
  | cons x ℓ ih =>
    exact (ih (Nat.lt_succ_of_lt h)).trans (Function.update_of_ne (Nat.ne_of_lt h) _ _)

theorem store_of_le {m : ℕ → α} {p q : ℕ} (ℓ : List α) (h : p + ℓ.length ≤ q) :
  store m p ℓ q = m q
  := by
  induction ℓ generalizing m p with
  | nil => rfl
  | cons x ℓ ih =>
    rw [List.length_cons] at h
    exact (ih (by omega)).trans (Function.update_of_ne (by omega) _ _)

theorem store_append (m : ℕ → α) (p : ℕ) (ℓ₁ ℓ₂ : List α) :
  store m p (ℓ₁ ++ ℓ₂) = store (store m p ℓ₁) (p + ℓ₁.length) ℓ₂
  := by
  induction ℓ₁ generalizing m p with
  | nil => rfl
  | cons x ℓ₁ ih =>
    refine (ih _ _).trans ?_
    rw [List.length_cons, show p + 1 + ℓ₁.length = p + (ℓ₁.length + 1) by omega]
    rfl

theorem holds_store (m : ℕ → α) (p : ℕ) (ℓ : List α) :
  Holds (store m p ℓ) p ℓ
  := by
  induction ℓ generalizing m p with
  | nil => apply holds_nil
  | cons x ℓ ih =>
    constructor
    · exact (store_of_lt _ (Nat.lt_succ_self p)).trans (Function.update_self ..)
    · apply ih

/-- What was stored is found again. -/
theorem read_store (m : ℕ → α) (p : ℕ) (ℓ : List α) :
  read (store m p ℓ) p ℓ.length = ℓ
  := (holds_store m p ℓ).read_eq

theorem store_add (m : ℕ → α) (p : ℕ) {ℓ : List α} {i : ℕ} (h : i < ℓ.length) :
  store m p ℓ (p + i) = ℓ[i]
  := holds_iff_getElem.mp (holds_store m p ℓ) i h

theorem store_zero_of_lt (m : ℕ → α) {ℓ : List α} {i : ℕ} (h : i < ℓ.length) :
  store m 0 ℓ i = ℓ[i]
  := by
  have hadd := store_add m 0 h
  rwa [Nat.zero_add] at hadd

/-- What is there may be stored again. -/
theorem store_read (m : ℕ → α) (p n : ℕ) :
  store m p (read m p n) = m
  := by
  induction n generalizing p with
  | zero => rfl
  | succ n ih =>
    rw [read, store, Function.update_eq_self, ih]

/-- A segment that does not meet the overwritten cells keeps its contents. -/
theorem Holds.store {m : ℕ → α} {p q : ℕ} {ℓ : List α} (hm : Holds m p ℓ) (ℓ' : List α)
    (h : p + ℓ.length ≤ q ∨ q + ℓ'.length ≤ p) :
  Holds (store m q ℓ') p ℓ
  := by
  apply hm.congr
  intro r hpr hr
  obtain h | h := h
  · apply store_of_lt
    omega
  · apply store_of_le
    omega

/-- A segment is extended by what is stored behind it. -/
theorem Holds.store_append {m : ℕ → α} {p q : ℕ} {ℓ : List α} (hm : Holds m p ℓ) (ℓ' : List α)
    (h : q = p + ℓ.length) :
  Holds (Memory.store m q ℓ') p (ℓ ++ ℓ')
  := by
  subst h
  rw [holds_append]
  constructor
  · apply hm.store
    left
    rfl
  · apply holds_store

theorem Holds.update {m : ℕ → α} {p q : ℕ} {ℓ : List α} (hm : Holds m p ℓ) (x : α)
    (h : p + ℓ.length ≤ q ∨ q < p) :
  Holds (Function.update m q x) p ℓ
  := hm.store [x] h

end Memory
