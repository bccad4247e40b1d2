import Mathlib.Tactic

/-!
# Programs that fail

A program has a state.  It ends with a result, or it fails, or it is still running when its rounds
are used up.  `Meets x s good Q` says that the program `x`, started in the state `s`, ends with a
result and in a state that meet the condition `Q`, or else it fails, and then not everything was
`good`.
-/

namespace Fallible

/-- Why a program has no result. -/
inductive Stop where
  | failed
  | running

/-- Programs that may fail. -/
abbrev ProgM (σ α : Type) := StateT σ (Except (Stop × σ)) α

variable {σ α β : Type}

/-- The program fails. -/
def fail : ProgM σ α := fun s => .error (.failed, s)

/-- The program is still running. -/
def outOfRounds : ProgM σ α := fun s => .error (.running, s)

/-- A part of a program that gives a result, or fails and leaves a state. -/
def attempt (f : σ → Except σ (α × σ)) : ProgM σ α :=
  fun s => (f s).mapError fun t => (.failed, t)

theorem bind_of_ok {x : ProgM σ α} {f : α → ProgM σ β} {s t : σ} {a : α} (h : x s = .ok (a, t)) :
  (x >>= f) s = f a t
  := by
  have hbind : (x >>= f) s = (x s).bind fun r => f r.1 r.2 := rfl
  rw [hbind, h]
  rfl

theorem bind_of_error {x : ProgM σ α} (f : α → ProgM σ β) {s : σ} {e : Stop × σ}
    (h : x s = .error e) :
  (x >>= f) s = .error e
  := by
  have hbind : (x >>= f) s = (x s).bind fun r => f r.1 r.2 := rfl
  rw [hbind, h]
  rfl

/-- What a program comes to. -/
def Meets (x : ProgM σ α) (s : σ) (good : Prop) (Q : α → σ → Prop) : Prop :=
  (∃ a t, x s = .ok (a, t) ∧ Q a t) ∨ ∃ t, x s = .error (.failed, t) ∧ ¬ good

variable {good good' : Prop} {Q Q' : α → σ → Prop} {R : β → σ → Prop} {x : ProgM σ α} {s t : σ}
  {a : α}

theorem meets_pure (h : Q a s) :
  Meets (pure a) s good Q
  := .inl ⟨a, s, rfl, h⟩

theorem meets_fail (h : ¬ good) :
  Meets (fail : ProgM σ α) s good Q
  := .inr ⟨s, rfl, h⟩

theorem meets_attempt {f : σ → Except σ (α × σ)}
    (hok : ∀ r, f s = .ok r → Q r.1 r.2) (herror : ∀ t, f s = .error t → ¬ good) :
  Meets (attempt f) s good Q
  := by
  have hrun : attempt f s = (f s).mapError fun t => (.failed, t) := rfl
  cases hf : f s with
  | ok r =>
    left
    use r.1, r.2
    rw [hrun, hf]
    exact ⟨rfl, hok r hf⟩
  | error t =>
    right
    use t
    rw [hrun, hf]
    exact ⟨rfl, herror t hf⟩

/-- The rule of consequence. -/
theorem Meets.mono (h : Meets x s good Q) (hgood : good' → good) (hQ : ∀ a t, Q a t → Q' a t) :
  Meets x s good' Q'
  := by
  obtain ⟨a, t, hx, ht⟩ | ⟨t, hx, hbad⟩ := h
  · exact .inl ⟨a, t, hx, hQ a t ht⟩
  · exact .inr ⟨t, hx, fun hgood' => hbad (hgood hgood')⟩

/-- One program after another. -/
theorem Meets.bind {f : α → ProgM σ β} (hx : Meets x s good Q)
    (hf : ∀ a t, Q a t → Meets (f a) t good R) :
  Meets (x >>= f) s good R
  := by
  obtain ⟨a, t, hok, ht⟩ | ⟨t, herror, hbad⟩ := hx
  · rw [Meets, bind_of_ok hok]
    exact hf a t ht
  · right
    exact ⟨t, bind_of_error f herror, hbad⟩

/-- A program that has a result. -/
theorem Meets.of_ok (h : Meets x s good Q) (hx : x s = .ok (a, t)) :
  Q a t
  := by
  obtain ⟨a', t', hok, ht⟩ | ⟨t', herror, _⟩ := h
  · rw [hx] at hok
    cases hok
    exact ht
  · rw [hx] at herror
    cases herror

/-- A program has a result if everything is good. -/
theorem Meets.exists_ok (h : Meets x s good Q) (hgood : good) :
  ∃ a t, x s = .ok (a, t) ∧ Q a t
  := by
  obtain h | ⟨_, _, hbad⟩ := h
  · exact h
  · exact absurd hgood hbad

end Fallible
