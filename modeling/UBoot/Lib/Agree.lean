import Mathlib.Tactic

/-!
# Programs that fail as they should

`Agree spec prog R` compares a program that may fail with a specification that says when it does:
the program fails exactly when the specification is `none`, and otherwise their results are related
by `R`.
-/

variable {α β γ δ ε : Type*}

/-- The program fails where the specification does, and the results are related. -/
def Agree (spec : Option α) (prog : Except ε β) (R : α → β → Prop) : Prop :=
  match spec, prog with
  | none, .error _ => True
  | some a, .ok b => R a b
  | _, _ => False

namespace Agree

variable {spec : Option α} {prog : Except ε β} {R : α → β → Prop}

theorem mono (h : Agree spec prog R) {Q : α → β → Prop} (hRQ : ∀ a b, R a b → Q a b) :
  Agree spec prog Q
  := by
  cases spec <;> cases prog
  · trivial
  · exact h
  · exact h
  · exact hRQ _ _ h

theorem bind (h : Agree spec prog R) {f : α → Option γ} {g : β → Except ε δ} {Q : γ → δ → Prop}
    (hfg : ∀ a b, R a b → Agree (f a) (g b) Q) :
  Agree (spec.bind f) (prog.bind g) Q
  := by
  cases spec <;> cases prog
  · trivial
  · exact h.elim
  · exact h.elim
  · exact hfg _ _ h

theorem map (h : Agree spec prog R) {f : α → γ} {g : β → δ} {Q : γ → δ → Prop}
    (hfg : ∀ a b, R a b → Q (f a) (g b)) :
  Agree (spec.map f) (prog.map g) Q
  := by
  cases spec <;> cases prog
  · trivial
  · exact h.elim
  · exact h.elim
  · exact hfg _ _ h

/-- The program succeeds with a property when the specification has a result for which it does. -/
theorem exists_ok_iff (h : Agree spec prog R) {P : α → Prop} {Q : β → Prop}
    (hPQ : ∀ a b, R a b → (Q b ↔ P a)) :
  (∃ b, prog = .ok b ∧ Q b) ↔ ∃ a, spec = some a ∧ P a
  := by
  cases spec <;> cases prog
  · simp
  · exact h.elim
  · exact h.elim
  · simpa using hPQ _ _ h

end Agree
