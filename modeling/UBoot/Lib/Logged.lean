import Mathlib.Data.List.Basic

/-!
# Programs with a log

A program asks its environment, which may answer differently every time, and everything that
happens is logged.  `Logs x Q` says that the result of a program and what it logs meet the
condition `Q`; `Gives x a` says that the result does not depend on what was logged before.
-/

namespace Logged

variable {ε α β : Type}

/-- Programs that log events. -/
abbrev LogM (ε α : Type) := StateM (List ε) α

/-- The environment is asked.  Its answer may depend on everything before. -/
def ask (answer : List ε → α) (event : α → ε) : LogM ε α :=
  fun log => (answer log, log ++ [event (answer log)])

/-- An event is logged. -/
def note (e : ε) : LogM ε Unit := fun log => ((), log ++ [e])

/-- The events that a program logs. -/
def events (x : LogM ε α) : List ε := (x []).2

/-! ### What is logged -/

/-- The result and the new events meet a condition. -/
structure Logs (x : LogM ε α) (Q : α → List ε → Prop) : Prop where
  run : ∀ log, ∃ new, (x log).2 = log ++ new ∧ Q (x log).1 new

variable {Q : α → List ε → Prop} {R : β → List ε → Prop}

theorem Logs.mono {Q' : α → List ε → Prop} {x : LogM ε α} (h : Logs x Q)
    (hmono : ∀ a new, Q a new → Q' a new) :
  Logs x Q'
  := by
  constructor
  intro log
  obtain ⟨new, hnew, hQ⟩ := h.run log
  exact ⟨new, hnew, hmono _ _ hQ⟩

theorem logs_pure {a : α} (h : Q a []) :
  Logs (pure a) Q
  := ⟨fun log => ⟨[], (List.append_nil log).symm, h⟩⟩

theorem logs_ask {answer : List ε → α} {event : α → ε} (h : ∀ a, Q a [event a]) :
  Logs (ask answer event) Q
  := ⟨fun _ => ⟨_, rfl, h _⟩⟩

theorem logs_note {Q : Unit → List ε → Prop} {e : ε} (h : Q () [e]) :
  Logs (note e) Q
  := ⟨fun _ => ⟨_, rfl, h⟩⟩

/-- The second program goes on with the log of the first one. -/
theorem Logs.bind {x : LogM ε α} {f : α → LogM ε β} (hx : Logs x Q)
    (hf : ∀ a new, Q a new → Logs (f a) fun b new' => R b (new ++ new')) :
  Logs (x >>= f) R
  := by
  constructor
  intro log
  obtain ⟨new, hnew, hQ⟩ := hx.run log
  obtain ⟨new', hnew', hR⟩ := (hf _ _ hQ).run (log ++ new)
  have hrun : (x >>= f) log = f (x log).1 (log ++ new) := by
    rw [← hnew]
    rfl
  use new ++ new'
  rw [hrun, hnew', List.append_assoc]
  exact ⟨rfl, hR⟩

/-- An event is logged in front of what follows. -/
theorem Logs.note_bind {e : ε} {f : Unit → LogM ε β}
    (h : Logs (f ()) fun b new => R b (e :: new)) :
  Logs (note e >>= f) R
  := by
  apply Logs.bind (Q := fun _ new => new = [e]) (logs_note rfl)
  rintro _ _ rfl
  exact h

theorem Logs.ite {c : Prop} [Decidable c] {x y : LogM ε α} (hx : c → Logs x Q)
    (hy : ¬ c → Logs y Q) :
  Logs (if c then x else y) Q
  := by
  split
  case isTrue h => exact hx h
  case isFalse h => exact hy h

/-- What a program logs when nothing is logged before. -/
theorem Logs.events {x : LogM ε α} (h : Logs x Q) :
  Q (x []).1 (events x)
  := by
  obtain ⟨new, hnew, hQ⟩ := h.run []
  rw [Logged.events, hnew]
  exact hQ

/-! ### Environments that do not change -/

/-- The result does not depend on what was logged before. -/
structure Gives (x : LogM ε α) (a : α) : Prop where
  run : ∀ log, (x log).1 = a

theorem gives_pure (a : α) :
  Gives (pure a : LogM ε α) a
  := ⟨fun _ => rfl⟩

theorem gives_ask (a : α) (event : α → ε) :
  Gives (ask (fun _ => a) event) a
  := ⟨fun _ => rfl⟩

theorem gives_note (e : ε) :
  Gives (note e) ()
  := ⟨fun _ => rfl⟩

theorem Gives.bind {x : LogM ε α} {f : α → LogM ε β} {a : α} {b : β} (hx : Gives x a)
    (hf : Gives (f a) b) :
  Gives (x >>= f) b
  := by
  constructor
  intro log
  have hrun : (x >>= f) log = f (x log).1 (x log).2 := rfl
  rw [hrun, hx.run]
  apply hf.run

end Logged
