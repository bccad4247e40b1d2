import Mathlib.Tactic

/-!
# Aligned blocks

A range of `n` numbers from `p` on is covered by blocks, each with a power of two as its size and
with a beginning that is a multiple of its size.  The greedy cover takes, again and again, the first
of the sizes `2 ^ k`, with `k` from a list, that fits.
-/

namespace Blocks

variable {ks l l' : List ℕ} {p n k m : ℕ}

/-- The first size that fits at `p`, with `n` numbers to go. -/
def fit (ks : List ℕ) (p n : ℕ) : Option ℕ := ks.find? fun k => 2 ^ k ∣ p ∧ 2 ^ k ≤ n

/-- The sizes of the greedy cover. -/
inductive Cover (ks : List ℕ) : ℕ → ℕ → List ℕ → Prop
  | nil (p : ℕ) : Cover ks p 0 []
  | cons {p n k : ℕ} {l : List ℕ} (hn : n ≠ 0) (hk : fit ks p n = some k)
    (hl : Cover ks (p + 2 ^ k) (n - 2 ^ k) l) : Cover ks p n (k :: l)

theorem fit_some (h : fit ks p n = some k) :
  k ∈ ks ∧ 2 ^ k ∣ p ∧ 2 ^ k ≤ n
  := ⟨List.mem_of_find?_eq_some h, by simpa using List.find?_some h⟩

theorem fit_ne_none (hm : m ∈ ks) (hp : 2 ^ m ∣ p) (hn : 2 ^ m ≤ n) :
  ∃ k, fit ks p n = some k
  := by
  apply Option.isSome_iff_exists.mp
  rw [fit, List.find?_isSome]
  exact ⟨m, hm, by simp [hp, hn]⟩

theorem Cover.eq_nil (h : Cover ks p 0 l) :
  l = []
  := by
  cases h with
  | nil => rfl
  | cons hn => exact absurd rfl hn

/-- The cover of a range that is not empty begins with the size that fits. -/
theorem Cover.exists_cons (h : Cover ks p n l) (hn : n ≠ 0) :
  ∃ k l', l = k :: l' ∧ fit ks p n = some k ∧ Cover ks (p + 2 ^ k) (n - 2 ^ k) l'
  := by
  cases h with
  | nil => exact absurd rfl hn
  | cons _ hk hl => exact ⟨_, _, rfl, hk, hl⟩

/-- There is one greedy cover at most. -/
theorem Cover.unique (h : Cover ks p n l) (h' : Cover ks p n l') :
  l = l'
  := by
  induction h generalizing l' with
  | nil => exact h'.eq_nil.symm
  | cons hn hk _ ih =>
    obtain ⟨k', l'', rfl, hk', hl'⟩ := h'.exists_cons hn
    obtain rfl := Option.some.inj (hk.symm.trans hk')
    rw [ih hl']

/-- With sizes that are multiples of the smallest one, a range is covered if its ends are multiples
of that one, and only then. -/
theorem exists_cover_iff (hm : m ∈ ks) (hks : ∀ k ∈ ks, m ≤ k) (hn : n ≠ 0) :
  (∃ l, Cover ks p n l) ↔ 2 ^ m ∣ p ∧ 2 ^ m ∣ n
  := by
  constructor
  · rintro ⟨l, hl⟩
    induction hl with
    | nil => exact absurd rfl hn
    | @cons p n k l _ hk _ ih =>
      obtain ⟨hmem, hp, hle⟩ := fit_some hk
      have hdvd : 2 ^ m ∣ 2 ^ k := Nat.pow_dvd_pow 2 (hks k hmem)
      refine ⟨hdvd.trans hp, ?_⟩
      by_cases hrest : n - 2 ^ k = 0
      · rwa [show n = 2 ^ k by omega]
      · have hsub := (ih hrest).2
        rwa [Nat.dvd_sub_iff_left hle hdvd] at hsub
  · rintro ⟨hp, hdvd⟩
    clear hn
    induction n using Nat.strong_induction_on generalizing p with
    | _ n ih =>
      by_cases hn : n = 0
      · subst hn
        exact ⟨[], .nil p⟩
      · obtain ⟨k, hk⟩ := fit_ne_none hm hp (Nat.le_of_dvd (by omega) hdvd)
        obtain ⟨hmem, -, hle⟩ := fit_some hk
        have hblock : 2 ^ m ∣ 2 ^ k := Nat.pow_dvd_pow 2 (hks k hmem)
        have hpos : 0 < 2 ^ k := Nat.two_pow_pos k
        obtain ⟨l, hl⟩ := ih (n - 2 ^ k) (by omega) (hp.add hblock) (Nat.dvd_sub hdvd hblock)
        exact ⟨k :: l, .cons hn hk hl⟩

end Blocks
