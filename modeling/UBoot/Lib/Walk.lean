import Mathlib.Computability.StateTransition
import Mathlib.Tactic

/-!
# Walks

A walk is a loop whose body is a partial function `next : σ → Option σ`: it goes on in the state
`next s`, and it ends in `s` if there is none.  `run next n s` is where it ends within `n` steps,
and `StateTransition.Reaches next s t` says that it comes through `t`.
-/

namespace Walk

open StateTransition Relation

variable {σ : Type*} {next : σ → Option σ}

/-- The state in which a walk ends that makes less than `n` steps. -/
def run (next : σ → Option σ) : ℕ → σ → Option σ
  | 0, _ => none
  | n + 1, s =>
    match next s with
    | none => some s
    | some t => run next n t

/-- A walk ends. -/
def Ends (next : σ → Option σ) (s : σ) : Prop := ∃ n, (run next n s).isSome

/-- **The invariant rule.** -/
theorem reaches_invariant {I : σ → Prop} (hstep : ∀ t u, I t → next t = some u → I u) {s t : σ}
    (hs : I s) (h : Reaches next s t) :
  I t
  := by
  induction h with
  | refl => exact hs
  | tail _ hu ih => exact hstep _ _ ih hu

/-- What holds in every state of a walk holds in the first one and in all behind the first step. -/
theorem forall_reaches_iff {P : σ → Prop} {s : σ} :
  (∀ t, Reaches next s t → P t) ↔ P s ∧ ∀ u, next s = some u → ∀ t, Reaches next u t → P t
  := by
  constructor
  · intro h
    exact ⟨h s ReflTransGen.refl, fun u hu t ht => h t (ReflTransGen.head hu ht)⟩
  · rintro ⟨hs, hnext⟩ t ht
    obtain rfl | ⟨u, hu, hut⟩ := ReflTransGen.cases_head ht
    · exact hs
    · exact hnext u hu t hut

/-- **The measure rule.**  A walk ends if a measure falls with every step. -/
theorem isSome_run_of_measure (μ : σ → ℕ) {I : σ → Prop}
    (hstep : ∀ t u, I t → next t = some u → I u ∧ μ u < μ t) {n : ℕ} {s : σ} (hs : I s)
    (hn : μ s < n) :
  (run next n s).isSome
  := by
  induction n generalizing s with
  | zero => cases hn
  | succ n ih =>
    rw [run]
    cases hnext : next s with
    | none => rfl
    | some t =>
      obtain ⟨ht, hlt⟩ := hstep s t hs hnext
      apply ih ht
      omega

theorem ends_of_measure (μ : σ → ℕ) {I : σ → Prop}
    (hstep : ∀ t u, I t → next t = some u → I u ∧ μ u < μ t) {s : σ} (hs : I s) :
  Ends next s
  := ⟨μ s + 1, isSome_run_of_measure μ hstep hs (Nat.lt_succ_self _)⟩

theorem run_mono {m n : ℕ} (hmn : m ≤ n) {s t : σ} (h : run next m s = some t) :
  run next n s = some t
  := by
  induction m generalizing n s with
  | zero => cases h
  | succ m ih =>
    obtain ⟨n, rfl⟩ := Nat.exists_eq_add_of_le' hmn
    rw [← Nat.add_assoc, run]
    rw [run] at h
    cases hnext : next s with
    | none => simpa only [hnext] using h
    | some u =>
      rw [hnext] at h
      apply ih (by omega) h

/-- A walk ends in a state that it comes through and that has no next one. -/
theorem reaches_of_run {n : ℕ} {s t : σ} (h : run next n s = some t) :
  Reaches next s t ∧ next t = none
  := by
  induction n generalizing s with
  | zero => cases h
  | succ n ih =>
    rw [run] at h
    cases hnext : next s with
    | none =>
      rw [hnext] at h
      obtain rfl := Option.some.inj h
      exact ⟨ReflTransGen.refl, hnext⟩
    | some u =>
      rw [hnext] at h
      obtain ⟨hreaches, hnone⟩ := ih h
      exact ⟨ReflTransGen.head hnext hreaches, hnone⟩

theorem exists_run {s t : σ} (h : Reaches next s t) (ht : next t = none) :
  ∃ n, run next n s = some t
  := by
  induction h using ReflTransGen.head_induction_on with
  | refl =>
    use 1
    rw [run, ht]
  | head hu _ ih =>
    obtain ⟨n, hn⟩ := ih
    use n + 1
    rwa [run, Option.mem_def.mp hu]

/-- A walk ends in one state only. -/
theorem run_unique {m n : ℕ} {s t u : σ} (ht : run next m s = some t) (hu : run next n s = some u) :
  t = u
  := by
  have hmax := run_mono (Nat.le_max_left m n) ht
  rw [run_mono (Nat.le_max_right m n) hu] at hmax
  exact (Option.some.inj hmax).symm

/-- A walk does not end if its steps stay among states that have a step. -/
theorem not_ends_of_forall {I : σ → Prop} (hstep : ∀ t, I t → ∃ u, next t = some u ∧ I u) {s : σ}
    (hs : I s) :
  ¬ Ends next s
  := by
  rintro ⟨n, hn⟩
  induction n generalizing s with
  | zero => cases hn
  | succ n ih =>
    obtain ⟨t, hnext, ht⟩ := hstep s hs
    rw [run, hnext] at hn
    apply ih ht hn

/-- A step that changes nothing is made forever. -/
theorem not_ends_of_fixed {s : σ} (h : next s = some s) :
  ¬ Ends next s
  := by
  apply not_ends_of_forall (I := (· = s)) _ rfl
  rintro t rfl
  exact ⟨t, h, rfl⟩

end Walk
