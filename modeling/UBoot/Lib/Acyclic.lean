import Mathlib.Data.BitVec
import Mathlib.Data.Fintype.Card
import Mathlib.Tactic

/-!
# Cycles

A relation says which calls a call makes.  If there are finitely many states, then the calls are
nested no deeper than some number if and only if no state that is reached comes again.
-/

namespace Acyclic

open Relation

variable {σ : Type*} {r : σ → σ → Prop}

/-- No state that is reached comes again. -/
def From (r : σ → σ → Prop) (s : σ) : Prop := ∀ t, ReflTransGen r s t → ¬ TransGen r t t

/-- The calls from a state are nested less than `n` deep. -/
def Within (r : σ → σ → Prop) : ℕ → σ → Prop
  | 0, _ => False
  | n + 1, s => ∀ t, r s t → Within r n t

theorem Within.mono {m n : ℕ} (hmn : m ≤ n) {s : σ} (h : Within r m s) :
  Within r n s
  := by
  induction m generalizing n s with
  | zero => cases h
  | succ m ih =>
    cases n with
    | zero => cases hmn
    | succ n =>
      intro t ht
      apply ih (Nat.le_of_succ_le_succ hmn) (h t ht)

/-- What is called from a call is nested less deep. -/
theorem Within.of_transGen {n : ℕ} {s t : σ} (h : Within r (n + 1) s) (hst : TransGen r s t) :
  Within r n t
  := by
  induction hst with
  | single ht => apply h _ ht
  | tail _ ht ih =>
    cases n with
    | zero => cases ih
    | succ n => apply (ih _ ht).mono (Nat.le_succ n)

theorem Within.not_transGen {n : ℕ} {s : σ} (h : Within r n s) :
  ¬ TransGen r s s
  := by
  intro hcycle
  induction n with
  | zero => apply h
  | succ n ih => apply ih (h.of_transGen hcycle)

theorem Within.acyclic {n : ℕ} {s : σ} (h : Within r n s) :
  From r s
  := by
  intro t ht
  induction ht using ReflTransGen.head_induction_on generalizing n with
  | refl => apply h.not_transGen
  | head hu _ ih =>
    cases n with
    | zero => cases h
    | succ n => apply ih (h _ hu)

/-- There is a bound for all calls that a call makes. -/
theorem within_succ_of_forall [Finite σ] {s : σ} (h : ∀ t, r s t → ∃ n, Within r n t) :
  ∃ n, Within r n s
  := by
  have hbound : ∀ t, ∃ n, r s t → Within r n t := by
    intro t
    by_cases ht : r s t
    · obtain ⟨n, hn⟩ := h t ht
      exact ⟨n, fun _ => hn⟩
    · exact ⟨0, fun hst => absurd hst ht⟩
  choose f hf using hbound
  obtain ⟨n, hn⟩ := (Set.finite_range f).bddAbove
  use n + 1
  intro t ht
  apply (hf t ht).mono (hn (Set.mem_range_self t))

/-- **Calls on finitely many states** are nested no deeper than some number if and only if there is
no cycle. -/
theorem exists_within_iff [Finite σ] {s : σ} :
  (∃ n, Within r n s) ↔ From r s
  := by
  constructor
  · rintro ⟨n, hn⟩
    apply hn.acyclic
  · intro h
    let reached := {t // ReflTransGen r s t}
    let called : reached → reached → Prop := fun t u => TransGen r u.1 t.1
    have htrans : IsTrans reached called := ⟨fun _ _ _ htu huv => huv.trans htu⟩
    have hirrefl : Std.Irrefl called := ⟨fun t => h t.1 t.2⟩
    have hall : ∀ t : reached, ∃ n, Within r n t.1 := by
      intro t
      induction t using (Finite.wellFounded_of_trans_of_irrefl called).induction with
      | h t ih =>
        apply within_succ_of_forall
        intro u hu
        apply ih ⟨u, t.2.tail hu⟩ (.single hu)
    exact hall ⟨s, .refl⟩

instance finiteBitVec {w : ℕ} : Finite (BitVec w) := Finite.of_equiv _ BitVec.equivFin.symm.toEquiv

end Acyclic
