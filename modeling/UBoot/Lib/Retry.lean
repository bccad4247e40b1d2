import Mathlib.Tactic

/-!
# Retries

An attempt is made again and again until it ends the whole: `step s a` is what follows the attempt
`a` in the state `s`.  Retries come to an end if `left` decreases with each of them.
-/

namespace Retry

variable {σ α β : Type*}

/-- What follows an attempt. -/
inductive Next (σ β : Type*) where
  | stop (b : β)
  | retry (s : σ)

/-- An attempt that is followed by another one has not met a condition on which it stops. -/
theorem retry_of_ite_stop {c : Prop} [Decidable c] {b : β} {next : Next σ β} {s : σ}
    (h : (if c then .stop b else next) = .retry s) :
  next = .retry s
  := by
  by_cases hc : c
  · rw [if_pos hc] at h
    cases h
  · rwa [if_neg hc] at h

/-- On a condition, there is another attempt for as long as a second condition is met. -/
theorem retry_of_ite_retry {c d : Prop} [Decidable c] [Decidable d] {t : σ} {b : β}
    {next : Next σ β} {s : σ}
    (h : (if c then if d then .retry t else .stop b else next) = .retry s) :
  d ∧ t = s ∨ next = .retry s
  := by
  by_cases hc : c
  · rw [if_pos hc] at h
    by_cases hd : d
    · rw [if_pos hd] at h
      exact Or.inl ⟨hd, Next.retry.inj h⟩
    · rw [if_neg hd] at h
      cases h
  · rw [if_neg hc] at h
    exact Or.inr h

/-- The attempts from the attempt `k` on: what is returned, and the attempts that were made. -/
def run (step : σ → α → Next σ β) (left : σ → ℕ)
    (hleft : ∀ s a s', step s a = .retry s' → left s' < left s) (dev : ℕ → α) (k : ℕ) (s : σ) :
    β × List α :=
  match _hs : step s (dev k) with
  | .stop b => (b, [dev k])
  | .retry s' =>
    let r := run step left hleft dev (k + 1) s'
    (r.1, dev k :: r.2)
  termination_by left s
  decreasing_by exact hleft s (dev k) s' _hs

section Run

variable {step : σ → α → Next σ β} {left : σ → ℕ}
  {hleft : ∀ s a s', step s a = .retry s' → left s' < left s} {dev : ℕ → α}

theorem run_of_stop {k : ℕ} {s : σ} {b : β} (h : step s (dev k) = .stop b) :
  run step left hleft dev k s = (b, [dev k])
  := by
  rw [run]
  split
  case h_1 b' hstop =>
    rw [h] at hstop
    cases hstop
    rfl
  case h_2 s' hretry =>
    rw [h] at hretry
    cases hretry

theorem run_of_retry {k : ℕ} {s s' : σ} (h : step s (dev k) = .retry s') :
  run step left hleft dev k s
    = ((run step left hleft dev (k + 1) s').1, dev k :: (run step left hleft dev (k + 1) s').2)
  := by
  rw [run]
  split
  case h_1 b hstop =>
    rw [h] at hstop
    cases hstop
  case h_2 t hretry =>
    rw [h] at hretry
    cases hretry
    rfl

/-- What holds of an attempt that ends the whole, and is preserved by a retry, holds of a run. -/
theorem run_induction (P : σ → β × List α → Prop)
    (hstop : ∀ s a b, step s a = .stop b → P s (b, [a]))
    (hretry : ∀ s a s' r, step s a = .retry s' → P s' r → P s (r.1, a :: r.2)) (k : ℕ) (s : σ) :
  P s (run step left hleft dev k s)
  := by
  induction hn : left s using Nat.strong_induction_on generalizing k s with
  | _ n ih =>
    subst hn
    cases hs : step s (dev k) with
    | stop b =>
      rw [run_of_stop hs]
      exact hstop s (dev k) b hs
    | retry s' =>
      rw [run_of_retry hs]
      exact hretry s (dev k) s' _ hs (ih (left s') (hleft s (dev k) s' hs) (k + 1) s' rfl)

/-- There are no more retries than `left` allows. -/
theorem length_run_le (k : ℕ) (s : σ) :
  (run step left hleft dev k s).2.length ≤ left s + 1
  := by
  apply run_induction (fun s r => r.2.length ≤ left s + 1)
  · intro s a b _
    exact Nat.succ_le_succ (Nat.zero_le _)
  · intro s a s' r hs hr
    exact Nat.succ_le_succ (hr.trans (hleft s a s' hs))

end Run

end Retry
