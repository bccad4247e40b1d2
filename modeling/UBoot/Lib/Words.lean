import Mathlib.Tactic

/-!
# Words

The words of a text are the longest parts of it that have no separator, in their order.  A text
that is cut at a separator has the words of its two sides.
-/

namespace Words

variable {α : Type*} {sep : α → Bool} {text : List α}

/-- The words of a text. -/
def words (sep : α → Bool) (text : List α) : List (List α) :=
  (text.splitOnP sep).filter fun w => !w.isEmpty

@[simp]
theorem words_nil (sep : α → Bool) :
  words sep [] = []
  := rfl

theorem words_append_cons (before after : List α) {x : α} (hx : sep x) :
  words sep (before ++ x :: after) = words sep before ++ words sep after
  := by
  rw [words, List.splitOnP_append_cons before after hx, List.filter_append]
  rfl

theorem words_append_of_forall {blanks : List α} (h : ∀ x ∈ blanks, sep x) (after : List α) :
  words sep (blanks ++ after) = words sep after
  := by
  induction blanks with
  | nil => rfl
  | cons x blanks ih =>
    obtain ⟨hx, hblanks⟩ := List.forall_mem_cons.mp h
    rw [List.cons_append, ← List.nil_append (x :: (blanks ++ after)), words_append_cons _ _ hx,
      words_nil, List.nil_append, ih hblanks]

theorem words_of_forall (h : ∀ x ∈ text, sep x) :
  words sep text = []
  := by
  rw [← List.append_nil text, words_append_of_forall h, words_nil]

/-- A list without separators is one word. -/
theorem words_of_word {w : List α} (hw : w ≠ []) (hsep : ∀ x ∈ w, sep x = false) :
  words sep w = [w]
  := by
  rw [words, List.splitOnP_eq_singleton hsep, List.filter_singleton,
    List.isEmpty_eq_false_iff.mpr hw]
  rfl

theorem length_le_of_mem_splitOnP {w : List α} (h : w ∈ text.splitOnP sep) :
  w.length ≤ text.length
  := by
  induction text generalizing w with
  | nil =>
    rw [List.splitOnP_nil, List.mem_singleton] at h
    rw [h]
  | cons x text ih =>
    rw [List.splitOnP_cons_eq_if_modifyHead] at h
    obtain ⟨v, vs, hsplit⟩ := List.exists_cons_of_ne_nil (List.splitOnP_ne_nil sep text)
    rw [hsplit] at h ih
    rw [List.length_cons]
    split_ifs at h
    · obtain rfl | hmem := List.mem_cons.mp h
      · exact Nat.zero_le _
      · exact (ih hmem).trans (Nat.le_succ _)
    · obtain rfl | hmem := List.mem_cons.mp h
      · exact Nat.succ_le_succ (ih List.mem_cons_self)
      · exact (ih (List.mem_cons_of_mem v hmem)).trans (Nat.le_succ _)

theorem length_le_of_mem_words {w : List α} (h : w ∈ words sep text) :
  w.length ≤ text.length
  := length_le_of_mem_splitOnP (List.mem_of_mem_filter h)

/-- A text that begins with `n` characters of a word has a word of at least this length. -/
theorem exists_long_word {n : ℕ} (hpos : 0 < n) (hn : n ≤ text.length)
    (h : ∀ x ∈ text.take n, sep x = false) :
  ∃ w ∈ words sep text, n ≤ w.length
  := by
  set w := text.takeWhile fun x => !sep x with hw
  have hlong : n ≤ w.length := by
    have hwhile : w = text.take n ++ (text.drop n).takeWhile fun x => !sep x := by
      rw [hw]
      nth_rewrite 1 [← List.take_append_drop n text]
      apply List.takeWhile_append_of_pos
      intro x hx
      rw [h x hx]
      rfl
    rw [hwhile, List.length_append, List.length_take]
    omega
  have hword : words sep w = [w] := by
    apply words_of_word (List.ne_nil_of_length_pos (hpos.trans_le hlong))
    intro x hx
    simpa only [Bool.not_eq_true'] using List.all_eq_true.mp List.all_takeWhile x hx
  refine ⟨w, ?_, hlong⟩
  rw [← List.takeWhile_append_dropWhile (p := fun x => !sep x) (l := text), ← hw]
  cases hafter : text.dropWhile fun x => !sep x with
  | nil =>
    rw [List.append_nil, hword]
    exact List.mem_singleton_self w
  | cons x after =>
    have hx := List.head?_dropWhile_not (fun x => !sep x) text
    simp only [hafter, List.head?_cons, Bool.not_eq_false'] at hx
    rw [words_append_cons _ _ hx, hword]
    exact List.mem_append_left _ (List.mem_singleton_self w)

end Words
