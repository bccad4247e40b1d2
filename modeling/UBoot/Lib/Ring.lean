import Mathlib.Tactic

/-!
# Rings

The cells of a memory below `cap` in a ring: behind the last one comes the first one.
`Holds m cap p ℓ` says that the cells from `p` on contain the list `ℓ`.
-/

namespace Ring

variable {α : Type*} {m : ℕ → α} {cap p n : ℕ} {ℓ : List α}

/-- The cell behind a cell. -/
def next (cap p : ℕ) : ℕ := if p + 1 = cap then 0 else p + 1

/-- The cells from `p` on contain `ℓ`. -/
def Holds (m : ℕ → α) (cap : ℕ) : ℕ → List α → Prop
  | _, [] => True
  | p, x :: ℓ => m p = x ∧ Holds m cap (next cap p) ℓ

theorem next_lt (hp : p < cap) :
  next cap p < cap
  := by
  rw [next]
  split
  · exact Nat.zero_lt_of_lt hp
  · omega

theorem next_eq_mod (hp : p < cap) :
  next cap p = (p + 1) % cap
  := by
  rw [next]
  split
  case isTrue heq => rw [heq, Nat.mod_self]
  case isFalse hne =>
    symm
    apply Nat.mod_eq_of_lt
    omega

theorem next_add_mod (hp : p < cap) (n : ℕ) :
  (next cap p + n) % cap = (p + (n + 1)) % cap
  := by
  rw [next_eq_mod hp, Nat.mod_add_mod]
  congr 1
  omega

theorem holds_append (hp : p < cap) {ℓ ℓ' : List α} :
  Holds m cap p (ℓ ++ ℓ') ↔ Holds m cap p ℓ ∧ Holds m cap ((p + ℓ.length) % cap) ℓ'
  := by
  induction ℓ generalizing p with
  | nil =>
    rw [List.nil_append, List.length_nil, Nat.add_zero, Nat.mod_eq_of_lt hp]
    exact (and_iff_right trivial).symm
  | cons x ℓ ih =>
    rw [List.cons_append, Holds, Holds, ih (next_lt hp), next_add_mod hp, and_assoc,
      List.length_cons]

/-- A cell is not met again in less than one turn. -/
theorem ne_add_mod (hp : p < cap) (hpos : 0 < n) (hn : n < cap) :
  p ≠ (p + n) % cap
  := by
  intro heq
  have hdvd : cap ∣ n := by
    have hmod : p ≡ p + n [MOD cap] := by
      rw [Nat.ModEq, Nat.mod_eq_of_lt hp]
      exact heq
    have hsub := (Nat.modEq_iff_dvd' (Nat.le_add_right p n)).mp hmod
    rwa [Nat.add_sub_cancel_left] at hsub
  exact Nat.not_dvd_of_pos_of_lt hpos hn hdvd

/-- The cell behind a list that does not fill the ring may be written. -/
theorem Holds.update (h : Holds m cap p ℓ) (hp : p < cap) (hlength : ℓ.length < cap) (x : α) :
  Holds (Function.update m ((p + ℓ.length) % cap) x) cap p ℓ
  := by
  induction ℓ generalizing p with
  | nil => trivial
  | cons y ℓ ih =>
    rw [List.length_cons] at hlength ⊢
    constructor
    · rw [Function.update_of_ne (ne_add_mod hp (Nat.succ_pos _) hlength)]
      exact h.1
    · rw [← next_add_mod hp]
      apply ih h.2 (next_lt hp)
      omega

/-- A list is extended by what is written behind it. -/
theorem Holds.snoc (h : Holds m cap p ℓ) (hp : p < cap) (hlength : ℓ.length < cap) (x : α) :
  Holds (Function.update m ((p + ℓ.length) % cap) x) cap p (ℓ ++ [x])
  := by
  rw [holds_append hp]
  refine ⟨h.update hp hlength x, ?_, trivial⟩
  rw [Function.update_self]

theorem mod_succ (hp : p < cap) :
  (p + cap) % cap = p
  := by rw [Nat.add_mod_right, Nat.mod_eq_of_lt hp]

end Ring
