import Mathlib.Tactic

/-!
# Runs

A machine is a partial step function `step : σ → α → Option σ`; its labels `α` are the
requests it serves together with everything its environment decides.  `exec step s as` is
the state the labels `as` lead to, and `Along step P s as` says that each of them meets
the condition `P` in the state it is served in.
-/

namespace Run

variable {σ α : Type*} {step : σ → α → Option σ} {P : σ → α → Prop} {I : σ → Prop}

/-- The state after the labels `as`. -/
def exec (step : σ → α → Option σ) : σ → List α → Option σ
  | s, [] => some s
  | s, a :: as => (step s a).bind fun s' => exec step s' as

/-- Every label of the run meets `P` in the state it is served in. -/
def Along (step : σ → α → Option σ) (P : σ → α → Prop) : σ → List α → Prop
  | _, [] => True
  | s, a :: as => P s a ∧ ∀ s' ∈ step s a, Along step P s' as

instance decidableAlong [∀ s a, Decidable (P s a)] :
    (s : σ) → (as : List α) → Decidable (Along step P s as)
  | _, [] => .isTrue trivial
  | s, a :: as =>
    match hs : step s a with
    | none => decidable_of_iff (P s a) (by simp [Along, hs])
    | some s' =>
      have := decidableAlong s' as
      decidable_of_iff (P s a ∧ Along step P s' as) (by simp [Along, hs])

theorem exec_append (s : σ) (as bs : List α) :
  exec step s (as ++ bs) = (exec step s as).bind fun s' => exec step s' bs
  := by
  induction as generalizing s with
  | nil => rfl
  | cons a as ih =>
    rw [List.cons_append, exec, exec, Option.bind_assoc]
    congr 1
    funext s'
    apply ih

theorem Along.cons {s s' : σ} {a : α} {as : List α} (ha : P s a) (hs : step s a = some s')
    (h : Along step P s' as) :
  Along step P s (a :: as)
  := by
  refine ⟨ha, ?_⟩
  intro t ht
  rw [hs, Option.mem_some_iff] at ht
  rw [← ht]
  apply h

/-- The first part of a run meets what the whole run meets. -/
theorem Along.of_append {s : σ} {as bs : List α} (h : Along step P s (as ++ bs)) :
  Along step P s as
  := by
  induction as generalizing s with
  | nil => trivial
  | cons a as ih => exact ⟨h.1, fun s' hs' => ih (h.2 s' hs')⟩

theorem Along.and {Q : σ → α → Prop} {s : σ} {as : List α} (hP : Along step P s as)
    (hQ : Along step Q s as) :
  Along step (fun s a => P s a ∧ Q s a) s as
  := by
  induction as generalizing s with
  | nil => trivial
  | cons a as ih => exact ⟨⟨hP.1, hQ.1⟩, fun s' hs' => ih (hP.2 s' hs') (hQ.2 s' hs')⟩

/-- The last label of a run meets what the whole run meets. -/
theorem Along.last {s s' : σ} {a : α} {as : List α} (h : Along step P s (as ++ [a]))
    (hrun : exec step s as = some s') :
  P s' a
  := by
  induction as generalizing s with
  | nil =>
    obtain rfl := Option.some.inj hrun
    exact h.1
  | cons b as ih =>
    obtain ⟨s₁, hs₁, hrun⟩ := Option.bind_eq_some_iff.mp hrun
    apply ih (h.2 s₁ hs₁) hrun

theorem along_true (s : σ) (as : List α) :
  Along step (fun _ _ => True) s as
  := by
  induction as generalizing s with
  | nil => trivial
  | cons a as ih => exact ⟨trivial, fun s' _ => ih s'⟩

/-- **The invariant rule.**  When every step that meets `P` in a state of `I` ends in a
state of `I`, a run that meets `P` along its way ends in one. -/
theorem exec_invariant (hstep : ∀ s a, I s → P s a → ∃ s', step s a = some s' ∧ I s')
    {s : σ} {as : List α} (hs : I s) (h : Along step P s as) :
  ∃ s', exec step s as = some s' ∧ I s'
  := by
  induction as generalizing s with
  | nil => exact ⟨s, rfl, hs⟩
  | cons a as ih =>
    obtain ⟨s₁, hs₁, hI⟩ := hstep s a hs h.1
    obtain ⟨s', hs', hI'⟩ := ih hI (h.2 s₁ hs₁)
    refine ⟨s', ?_, hI'⟩
    rw [exec, hs₁, Option.bind_some, hs']

/-- The invariant rule for what the labels of a run meet. -/
theorem along_invariant {Q : σ → α → Prop}
    (hstep : ∀ s a, I s → P s a → Q s a ∧ ∀ s' ∈ step s a, I s') {s : σ} {as : List α}
    (hs : I s) (h : Along step P s as) :
  Along step Q s as
  := by
  induction as generalizing s with
  | nil => trivial
  | cons a as ih =>
    obtain ⟨hQ, hI⟩ := hstep s a hs h.1
    exact ⟨hQ, fun s' hs' => ih (hI s' hs') (h.2 s' hs')⟩

/-- The invariant rule for what is known of a state and of the labels that led to it. -/
theorem exec_history {J : List α → σ → Prop}
    (hstep : ∀ as s a, J as s → P s a → ∃ s', step s a = some s' ∧ J (as ++ [a]) s')
    {s : σ} {as : List α} (hs : J [] s) (h : Along step P s as) :
  ∃ s', exec step s as = some s' ∧ J as s'
  := by
  have hgeneral : ∀ (as bs : List α) (s : σ), J bs s → Along step P s as →
      ∃ s', exec step s as = some s' ∧ J (bs ++ as) s' := by
    intro as
    induction as with
    | nil =>
      intro bs s hJ _
      exact ⟨s, rfl, by rwa [List.append_nil]⟩
    | cons a as ih =>
      intro bs s hJ halong
      obtain ⟨s₁, hs₁, hJ₁⟩ := hstep bs s a hJ halong.1
      obtain ⟨s', hs', hJ'⟩ := ih (bs ++ [a]) s₁ hJ₁ (halong.2 s₁ hs₁)
      refine ⟨s', ?_, ?_⟩
      · rw [exec, hs₁, Option.bind_some, hs']
      · rwa [List.append_assoc] at hJ'
  apply hgeneral as [] s hs h

/-- The invariant rule for steps without a condition. -/
theorem exec_preserves (hstep : ∀ s a, I s → ∃ s', step s a = some s' ∧ I s') {s : σ} (hs : I s)
    (as : List α) :
  ∃ s', exec step s as = some s' ∧ I s'
  := exec_invariant (fun s a hI _ => hstep s a hI) hs (along_true s as)

/-- The invariant rule for the runs that are made, when a step may also be refused. -/
theorem exec_invariant_of_some (hstep : ∀ s a s', I s → P s a → step s a = some s' → I s')
    {s s' : σ} {as : List α} (hs : I s) (h : Along step P s as) (hrun : exec step s as = some s') :
  I s'
  := by
  induction as generalizing s with
  | nil =>
    obtain rfl := Option.some.inj hrun
    apply hs
  | cons a as ih =>
    obtain ⟨s₁, hs₁, hrun⟩ := Option.bind_eq_some_iff.mp hrun
    apply ih (hstep s a s₁ hs h.1 hs₁) (h.2 s₁ hs₁) hrun

/-- **The simulation rule.**  A machine follows another one whose steps meet `P`. -/
theorem exec_simulation {τ : Type*} {step' : τ → α → Option τ} {R : σ → τ → Prop}
    (hstep : ∀ s t a s', R s t → P s a → step s a = some s' → ∃ t', step' t a = some t' ∧ R s' t')
    {s s' : σ} {t : τ} {as : List α} (hR : R s t) (h : Along step P s as)
    (hrun : exec step s as = some s') :
  ∃ t', exec step' t as = some t' ∧ R s' t'
  := by
  induction as generalizing s t with
  | nil =>
    obtain rfl := Option.some.inj hrun
    exact ⟨t, rfl, hR⟩
  | cons a as ih =>
    obtain ⟨s₁, hs₁, hrun⟩ := Option.bind_eq_some_iff.mp hrun
    obtain ⟨t₁, ht₁, hR₁⟩ := hstep s t a s₁ hR h.1 hs₁
    obtain ⟨t', ht', hR'⟩ := ih hR₁ (h.2 s₁ hs₁) hrun
    refine ⟨t', ?_, hR'⟩
    rw [exec, ht₁, Option.bind_some, ht']

/-- A run meets `P` if every label does, after the part of the run before it. -/
theorem along_of_forall {s : σ} {as : List α}
    (h : ∀ bs a cs s', as = bs ++ a :: cs → exec step s bs = some s' → P s' a) :
  Along step P s as
  := by
  induction as generalizing s with
  | nil => trivial
  | cons a as ih =>
    refine ⟨h [] a as s rfl rfl, ?_⟩
    intro s₁ hs₁
    apply ih
    intro bs b cs s' has hrun
    apply h (a :: bs) b cs s'
    · rw [has, List.cons_append]
    · rw [exec, Option.mem_def.mp hs₁, Option.bind_some, hrun]

end Run
