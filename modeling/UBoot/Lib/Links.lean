import Mathlib.Data.List.Basic
import Mathlib.Data.List.Nodup
import Mathlib.Logic.Function.Basic

/-!
# Doubly linked lists

A list whose nodes know the node behind them and the node in front of them.  One value, `nil`,
stands for no node.  It may be a node all the same, and the lemmas say where this does no harm.
-/

namespace Links

variable {α : Type*}

/-- The nodes are linked to each other, the first one to `p` in front of it and the last one to
`n` behind it. -/
def Seg (next prev : α → α) : α → List α → α → Prop
  | _, [], _ => True
  | p, a :: as, n => next a = as.headD n ∧ prev a = p ∧ Seg next prev a as n

variable {next next' prev prev' : α → α} {p p' n n' nil : α} {as bs : List α}

theorem headD_append :
  (as ++ bs).headD n = as.headD (bs.headD n)
  := by
  cases as with
  | nil => rfl
  | cons a as => rfl

theorem getLastD_append :
  (as ++ bs).getLastD p = bs.getLastD (as.getLastD p)
  := by
  induction as generalizing p with
  | nil => rfl
  | cons a as ih => rw [List.cons_append, List.getLastD_cons, List.getLastD_cons, ih]

theorem seg_append :
  Seg next prev p (as ++ bs) n
    ↔ Seg next prev p as (bs.headD n) ∧ Seg next prev (as.getLastD p) bs n
  := by
  induction as generalizing p with
  | nil => simp [Seg]
  | cons a as ih => simp only [List.cons_append, Seg, headD_append, ih, List.getLastD_cons, and_assoc]

theorem Seg.congr (h : Seg next prev p as n) (hnext : ∀ a ∈ as, next' a = next a)
    (hprev : ∀ a ∈ as, prev' a = prev a) :
  Seg next' prev' p as n
  := by
  induction as generalizing p with
  | nil => trivial
  | cons a as ih =>
    obtain ⟨ha, hp, has⟩ := h
    refine ⟨?_, ?_, ?_⟩
    · rw [hnext a List.mem_cons_self, ha]
    · rw [hprev a List.mem_cons_self, hp]
    · apply ih has
      · exact fun b hb => hnext b (List.mem_cons_of_mem a hb)
      · exact fun b hb => hprev b (List.mem_cons_of_mem a hb)

variable [DecidableEq α]

/-- A link of the node `a` is set to `b`, if `a` is one. -/
def link (nil : α) (f : α → α) (a b : α) : α → α :=
  if a = nil then f else Function.update f a b

theorem link_nil (f : α → α) (b : α) :
  link nil f nil b = f
  := if_pos rfl

theorem link_of_ne {f : α → α} {a b c : α} (h : c ≠ a) :
  link nil f a b c = f c
  := by
  unfold link
  split
  · rfl
  · rw [Function.update_of_ne h]

theorem link_congr {f g : α → α} {a b c : α} (h : f c = g c) :
  link nil f a b c = link nil g a b c
  := by
  unfold link
  split
  · exact h
  · simp only [Function.update_apply, h]

/-- The last node is linked to something else behind it. -/
theorem Seg.setNext (h : Seg next prev p as n) (hnodup : as.Nodup)
    (hlast : as ≠ [] → as.getLastD nil ≠ nil) :
  Seg (link nil next (as.getLastD nil) n') prev p as n'
  := by
  rcases List.eq_nil_or_concat' as with rfl | ⟨as, a, rfl⟩
  · trivial
  · have ha : (as ++ [a]).getLastD nil = a := by rw [getLastD_append]; rfl
    have hne : a ≠ nil := by
      rw [← ha]
      apply hlast
      simp
    have hnot : ∀ b ∈ as, b ≠ a := by
      rw [List.nodup_append'] at hnodup
      rintro b hb rfl
      exact hnodup.2.2 hb List.mem_cons_self
    rw [ha]
    rw [seg_append] at h ⊢
    obtain ⟨has, -, hprev, -⟩ := h
    refine ⟨?_, ?_, hprev, trivial⟩
    · apply has.congr
      · intro b hb
        apply link_of_ne (hnot b hb)
      · exact fun _ _ => rfl
    · rw [link, if_neg hne, Function.update_self]
      rfl

/-- The first node is linked to something else in front of it. -/
theorem Seg.setPrev (h : Seg next prev p as n) (hnodup : as.Nodup)
    (hhead : as ≠ [] → as.headD nil ≠ nil) :
  Seg next (link nil prev (as.headD nil) p') p' as n
  := by
  cases as with
  | nil => trivial
  | cons a as =>
    have hne : a ≠ nil := hhead (List.cons_ne_nil a as)
    obtain ⟨hnext, -, has⟩ := h
    refine ⟨hnext, ?_, ?_⟩
    · rw [List.headD_cons, link, if_neg hne, Function.update_self]
    · apply has.congr
      · exact fun _ _ => rfl
      · intro b hb
        apply link_of_ne
        rintro rfl
        exact (List.nodup_cons.mp hnodup).1 hb

/-- The nodes between two segments are replaced, and the segments are linked to the new ones. -/
theorem Seg.splice {mid ms : List α} (h : Seg next prev nil (as ++ mid ++ bs) nil)
    (hnodup : (as ++ bs).Nodup) (hlast : as ≠ [] → as.getLastD nil ≠ nil)
    (hhead : bs ≠ [] → bs.headD nil ≠ nil)
    (hnext : ∀ a ∈ as ++ bs,
      next' a = link nil next (as.getLastD nil) (ms.headD (bs.headD nil)) a)
    (hprev : ∀ a ∈ as ++ bs,
      prev' a = link nil prev (bs.headD nil) (ms.getLastD (as.getLastD nil)) a)
    (hms : Seg next' prev' (as.getLastD nil) ms (bs.headD nil)) :
  Seg next' prev' nil (as ++ ms ++ bs) nil
  := by
  rw [seg_append, seg_append, getLastD_append] at h ⊢
  rw [List.nodup_append'] at hnodup
  obtain ⟨hnodupas, hnodupbs, hdisjoint⟩ := hnodup
  refine ⟨⟨?_, hms⟩, ?_⟩
  · apply (h.1.1.setNext hnodupas hlast).congr
    · intro a ha
      apply hnext
      exact List.mem_append_left bs ha
    · intro a ha
      rw [hprev a (List.mem_append_left bs ha)]
      cases bs with
      | nil => rw [List.headD_nil, link_nil]
      | cons b bs =>
        apply link_of_ne
        rintro rfl
        exact hdisjoint ha List.mem_cons_self
  · apply (h.2.setPrev hnodupbs hhead).congr
    · intro b hb
      rw [hnext b (List.mem_append_right as hb)]
      rcases List.eq_nil_or_concat' as with rfl | ⟨as, a, rfl⟩
      · rw [List.getLastD_nil, link_nil]
      · apply link_of_ne
        rintro rfl
        apply hdisjoint _ hb
        rw [getLastD_append]
        simp
    · intro b hb
      rw [hprev b (List.mem_append_right as hb)]

end Links
