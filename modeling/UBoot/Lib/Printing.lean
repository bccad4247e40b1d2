import UBoot.Lib.Fallible
import UBoot.Lib.Memory
import UBoot.Lib.Pieces

/-!
# Printing into a buffer

A program prints pieces, one behind the other.  Before it prints a piece, it looks whether the piece
fits in the space that is left, and it fails if it does not.  `Prints x ps` says that the pieces of
the program `x` are `ps`; `run_eq` says what is printed of them.
-/

namespace Printing

open Fallible Memory Pieces

/-- A place in the buffer, the space that is left, and the stores so far: a program may be wrong
about the space. -/
structure Printer (β : Type) where
  p : ℕ
  maxlen : ℕ
  stores : List (ℕ × List β)

variable {β : Type}

/-- Programs that print. -/
abbrev PrintM (β α : Type) := ProgM (Printer β) α

/-- Something is stored at `p`. -/
def Printer.put (s : Printer β) (chunk : List β) : Printer β where
  p := s.p + chunk.length
  maxlen := s.maxlen
  stores := s.stores ++ [(s.p, chunk)]

/-- A piece of length `len` is stored in chunks, if there is space for it. -/
def piece (len : ℕ) (chunks : List (List β)) : PrintM β Unit := fun s =>
  if len > s.maxlen then .error (.failed, s)
  else .ok ((), { chunks.foldl Printer.put s with maxlen := s.maxlen - len })

/-- A program that prints under a condition only. -/
def printIf (c : Prop) [Decidable c] (x : PrintM β Unit) : PrintM β Unit :=
  if c then x else pure ()

/-- The stores of consecutive chunks. -/
def layout : ℕ → List (List β) → List (ℕ × List β)
  | _, [] => []
  | p, chunk :: chunks => (p, chunk) :: layout (p + chunk.length) chunks

/-- After consecutive chunks. -/
def Printer.printed (s : Printer β) (chunks : List (List β)) : Printer β where
  p := s.p + chunks.flatten.length
  maxlen := s.maxlen - chunks.flatten.length
  stores := s.stores ++ layout s.p chunks

/-- The buffer after stores. -/
def stored (m : ℕ → β) (stores : List (ℕ × List β)) : ℕ → β :=
  stores.foldl (fun m st => store m st.1 st.2) m

/-! ### Consecutive chunks -/

theorem layout_append (p : ℕ) (chunks chunks' : List (List β)) :
  layout p (chunks ++ chunks') = layout p chunks ++ layout (p + chunks.flatten.length) chunks'
  := by
  induction chunks generalizing p with
  | nil => rfl
  | cons chunk chunks ih =>
    rw [List.cons_append, layout, layout, ih, List.flatten_cons, List.length_append, Nat.add_assoc,
      List.cons_append]

/-- No store goes beyond the end of the chunks. -/
theorem le_of_mem_layout {p : ℕ} {chunks : List (List β)} {st : ℕ × List β}
    (h : st ∈ layout p chunks) :
  st.1 + st.2.length ≤ p + chunks.flatten.length
  := by
  induction chunks generalizing p with
  | nil => cases h
  | cons chunk chunks ih =>
    rw [List.flatten_cons, List.length_append]
    obtain rfl | h := List.mem_cons.mp h
    · exact Nat.add_le_add_left (Nat.le_add_right _ _) p
    · have hle := ih h
      omega

/-- One store reaches the end of the chunks. -/
theorem exists_mem_layout (p : ℕ) {chunks : List (List β)} (h : chunks ≠ []) :
  ∃ st ∈ layout p chunks, st.1 + st.2.length = p + chunks.flatten.length
  := by
  induction chunks generalizing p with
  | nil => exact absurd rfl h
  | cons chunk chunks ih =>
    rw [layout, List.flatten_cons, List.length_append]
    by_cases hnil : chunks = []
    · subst hnil
      exact ⟨_, List.mem_cons_self, rfl⟩
    · obtain ⟨st, hmem, hst⟩ := ih (p + chunk.length) hnil
      exact ⟨st, List.mem_cons_of_mem _ hmem, by omega⟩

/-- The chunks end in a store each, and together they are one store. -/
theorem stored_layout (m : ℕ → β) (p : ℕ) (chunks : List (List β)) :
  stored m (layout p chunks) = store m p chunks.flatten
  := by
  induction chunks generalizing m p with
  | nil => rfl
  | cons chunk chunks ih =>
    rw [List.flatten_cons, store_append, ← ih]
    rfl

theorem stored_append (m : ℕ → β) (stores stores' : List (ℕ × List β)) :
  stored m (stores ++ stores') = stored (stored m stores) stores'
  := List.foldl_append

theorem foldl_put (s : Printer β) (chunks : List (List β)) :
  chunks.foldl Printer.put s
    = { p := s.p + chunks.flatten.length, maxlen := s.maxlen,
        stores := s.stores ++ layout s.p chunks }
  := by
  induction chunks generalizing s with
  | nil =>
    rw [layout, List.append_nil]
    rfl
  | cons chunk chunks ih =>
    rw [List.foldl_cons, ih, layout, List.flatten_cons, List.length_append, Printer.put,
      ← Nat.add_assoc, List.append_assoc]
    rfl

@[simp]
theorem Printer.printed_nil (s : Printer β) :
  s.printed [] = s
  := by
  rw [printed, layout, List.append_nil]
  rfl

theorem Printer.printed_append (s : Printer β) (chunks chunks' : List (List β)) :
  s.printed (chunks ++ chunks') = (s.printed chunks).printed chunks'
  := by
  simp only [printed, layout_append, List.flatten_append, List.length_append, List.append_assoc,
    Nat.add_assoc, Nat.sub_sub]

/-! ### Programs that print -/

/-- The pieces are printed while there is space. -/
def run : List (List (List β)) → Printer β → Except (Stop × Printer β) (Unit × Printer β)
  | [], s => .ok ((), s)
  | chunks :: ps, s =>
    if chunks.flatten.length > s.maxlen then .error (.failed, s) else run ps (s.printed chunks)

/-- The pieces of a program. -/
structure Prints (x : PrintM β Unit) (ps : List (List (List β))) : Prop where
  run_eq : ∀ s, x s = run ps s

theorem prints_pure :
  Prints (pure () : PrintM β Unit) []
  := ⟨fun _ => rfl⟩

theorem prints_piece {len : ℕ} {chunks : List (List β)} (h : len = chunks.flatten.length) :
  Prints (piece len chunks) [chunks]
  := by
  subst h
  constructor
  intro s
  rw [piece, run, foldl_put]
  rfl

theorem run_append (ps qs : List (List (List β))) (s : Printer β) :
  run (ps ++ qs) s = (run ps s).bind fun r => run qs r.2
  := by
  induction ps generalizing s with
  | nil => rfl
  | cons chunks ps ih =>
    rw [List.cons_append, run, run, ih]
    split <;> rfl

theorem Prints.bind {x : PrintM β Unit} {f : Unit → PrintM β Unit} {ps qs : List (List (List β))}
    (hx : Prints x ps) (hf : Prints (f ()) qs) :
  Prints (x >>= f) (ps ++ qs)
  := by
  constructor
  intro s
  have hbind : (x >>= f) s = (x s).bind fun r => f r.1 r.2 := rfl
  rw [hbind, hx.run_eq, run_append]
  congr 1
  funext r
  apply hf.run_eq

theorem Prints.printIf {c : Prop} [Decidable c] {x : PrintM β Unit} {ps : List (List (List β))}
    (hx : Prints x ps) :
  Prints (printIf c x) (if c then ps else [])
  := by
  rw [Printing.printIf]
  split
  · exact hx
  · exact prints_pure

/-- The lengths of the pieces. -/
def lengths (ps : List (List (List β))) : List ℕ := ps.map fun chunks => chunks.flatten.length

/-- What is printed: all pieces, or the first ones, up to the one that does not fit. -/
theorem run_eq_ite (ps : List (List (List β))) (s : Printer β) :
  run ps s = if (lengths ps).sum ≤ s.maxlen then .ok ((), s.printed ps.flatten)
    else .error (.failed, s.printed (ps.take (fitting s.maxlen (lengths ps))).flatten)
  := by
  induction ps generalizing s with
  | nil =>
    rw [List.flatten_nil, Printer.printed_nil]
    rfl
  | cons chunks ps ih =>
    have hsum : (lengths (chunks :: ps)).sum = chunks.flatten.length + (lengths ps).sum := rfl
    have hfitting : fitting s.maxlen (lengths (chunks :: ps))
        = if chunks.flatten.length > s.maxlen then 0
          else fitting (s.maxlen - chunks.flatten.length) (lengths ps) + 1 := rfl
    have hmaxlen : (s.printed chunks).maxlen = s.maxlen - chunks.flatten.length := rfl
    rw [run, hsum, hfitting]
    by_cases h : chunks.flatten.length > s.maxlen
    · rw [if_pos h, if_pos h, if_neg (by omega), List.take_zero, List.flatten_nil,
        Printer.printed_nil]
    · have hiff : (lengths ps).sum ≤ (s.printed chunks).maxlen
          ↔ chunks.flatten.length + (lengths ps).sum ≤ s.maxlen := by
        omega
      rw [if_neg h, if_neg h, ih, List.take_succ_cons, List.flatten_cons, List.flatten_cons,
        Printer.printed_append, Printer.printed_append, if_congr hiff rfl rfl, hmaxlen]

end Printing
