import Mathlib.Data.List.Infix
import Mathlib.Tactic

/-!
# Occurrences

`find needle s` is where a list first occurs in another one.  A block is a list that ends with its
first occurrence of the needle: who looks for one occurrence after the other cuts off blocks.
-/

namespace Occurrence

variable {α : Type*} {needle : List α}

/-- The offset of the first occurrence. -/
def find [DecidableEq α] (needle : List α) : List α → Option ℕ
  | [] => if needle = [] then some 0 else none
  | x :: s => if needle <+: x :: s then some 0 else (find needle s).map (· + 1)

/-- A list that ends with its first occurrence of the needle. -/
def Block (needle b : List α) : Prop := needle <:+ b ∧ ¬ needle <:+: b.dropLast

/-- What is cut off last, if the needle follows another occurrence of itself. -/
theorem block_self (hn : needle ≠ []) :
  Block needle needle
  := by
  refine ⟨List.suffix_refl _, ?_⟩
  intro h
  have hle := h.length_le
  have hpos := List.length_pos_iff.mpr hn
  rw [List.length_dropLast] at hle
  omega

theorem find_eq_none_iff [DecidableEq α] {s : List α} :
  find needle s = none ↔ ¬ needle <:+: s
  := by
  induction s with
  | nil => simp [find]
  | cons x s ih =>
    rw [find, List.infix_cons_iff]
    split_ifs with h
    · simp [h]
    · simp [h, ih]

/-- A needle in front of a list that has one behind it begins before the end of the other. -/
theorem infix_dropLast {u after : List α} {x : α}
    (h : needle <+: x :: u ++ needle ++ after) :
  needle <:+: (x :: u ++ needle).dropLast
  := by
  apply List.IsPrefix.isInfix
  apply List.prefix_of_prefix_length_le h
  · apply (List.dropLast_prefix _).trans (List.prefix_append _ _)
  · simp

/-- The needle is found at the end of a block. -/
theorem find_block [DecidableEq α] {u : List α} (h : Block needle (u ++ needle)) (after : List α) :
  find needle (u ++ needle ++ after) = some u.length
  := by
  induction u with
  | nil =>
    rw [List.nil_append]
    cases hs : needle ++ after with
    | nil => simp [find, (List.append_eq_nil_iff.mp hs).1]
    | cons x s => rw [find, if_pos (hs ▸ List.prefix_append _ _), List.length_nil]
  | cons x u ih =>
    have htail : Block needle (u ++ needle) := by
      refine ⟨List.suffix_append _ _, ?_⟩
      intro hinfix
      apply h.2
      cases hs : u ++ needle with
      | nil =>
        rw [(List.append_eq_nil_iff.mp hs).2]
        apply List.nil_infix
      | cons y s =>
        rw [hs] at hinfix
        rw [List.cons_append, hs, List.dropLast_cons_cons]
        apply List.infix_cons hinfix
    rw [List.cons_append, List.cons_append, find, if_neg, ih htail]
    · rfl
    · intro hpre
      apply h.2 (infix_dropLast hpre)

/-- Where there is an occurrence, there is a first one. -/
theorem exists_block {s : List α} (hn : needle ≠ []) (h : needle <:+: s) :
  ∃ u after, s = u ++ needle ++ after ∧ Block needle (u ++ needle)
  := by
  induction s with
  | nil => exact absurd (List.eq_nil_of_infix_nil h) hn
  | cons x s ih =>
    by_cases hpre : needle <+: x :: s
    · obtain ⟨after, hafter⟩ := hpre
      exact ⟨[], after, hafter.symm, block_self hn⟩
    · obtain ⟨u, after, rfl, hblock⟩ := ih ((List.infix_cons_iff.mp h).resolve_left hpre)
      refine ⟨x :: u, after, rfl, List.suffix_append _ _, ?_⟩
      have hne : u ++ needle ≠ [] := by simp [hn]
      intro hinfix
      rw [List.cons_append, List.dropLast_cons_of_ne_nil hne, List.infix_cons_iff] at hinfix
      obtain hfirst | hlater := hinfix
      · apply hpre
        apply hfirst.trans
        rw [List.cons_prefix_cons]
        exact ⟨rfl, (List.dropLast_prefix _).trans (List.prefix_append _ _)⟩
      · apply hblock.2 hlater

/-- The needle does not go beyond an element that it does not contain. -/
theorem find_skip [DecidableEq α] {rest : List α} {c : α} (hn : needle ≠ []) (hc : c ∉ needle)
    (h : ¬ needle <:+: rest) (s : List α) :
  find needle (rest ++ c :: s) = (find needle s).map (· + (rest.length + 1))
  := by
  induction rest with
  | nil =>
    rw [List.nil_append, find, if_neg]
    · rfl
    · intro hpre
      cases needle with
      | nil => apply hn rfl
      | cons x needle =>
        rw [List.cons_prefix_cons] at hpre
        apply hc
        rw [hpre.1]
        apply List.mem_cons_self
  | cons x rest ih =>
    rw [List.cons_append, find, if_neg, ih]
    · rw [Option.map_map]
      rfl
    · intro hinfix
      apply h (List.infix_cons hinfix)
    · intro hpre
      rw [← List.cons_append] at hpre
      by_cases hle : needle.length ≤ (x :: rest).length
      · apply h
        apply List.IsPrefix.isInfix
        apply List.prefix_of_prefix_length_le hpre (List.prefix_append _ _) hle
      · have hlong : x :: rest ++ [c] <+: needle := by
          rw [List.append_cons (x :: rest)] at hpre
          apply List.prefix_of_prefix_length_le (List.prefix_append _ _) hpre
          rw [List.length_append, List.length_singleton]
          omega
        apply hc
        apply hlong.subset
        simp

end Occurrence
