import UBoot.Net.HoleList

/-!
# Datagrams and what is missing of them

A datagram arrives in pieces.  What is missing of it is at any time a list of holes with
something between any two of them, and a piece that arrives is taken out of one of them.
-/

namespace Defrag

/-! ### Datagrams -/

/-- A datagram in two or more pieces, of which only the last one may have a length that is no
multiple of 8. -/
structure Datagram where
  frags : List (List Byte)
  two_le : 2 ≤ frags.length
  ne_nil : ∀ x ∈ frags, x ≠ []
  dvd : ∀ x ∈ frags.dropLast, 8 ∣ x.length
  length_le : frags.flatten.length ≤ ipMaxudp

namespace Datagram

/-- All bytes. -/
def bytes (d : Datagram) : List Byte := d.frags.flatten

/-- The number of pieces. -/
def count (d : Datagram) : ℕ := d.frags.length

/-- One of the pieces. -/
def frag (d : Datagram) (i : ℕ) : List Byte := d.frags.getD i []

/-- Where a piece starts. -/
def off (d : Datagram) (i : ℕ) : ℕ := (d.frags.take i).flatten.length

variable (d : Datagram) {i j : ℕ}

theorem off_zero :
  d.off 0 = 0
  := rfl

theorem off_count :
  d.off d.count = d.bytes.length
  := by
  rw [off, count, List.take_length, bytes]

theorem off_succ (h : i < d.count) :
  d.off (i + 1) = d.off i + (d.frag i).length
  := by
  rw [off, off, frag, List.getD_eq_getElem _ _ h, List.take_succ_eq_append_getElem h]
  simp

theorem frag_pos (h : i < d.count) :
  0 < (d.frag i).length
  := by
  rw [frag, List.getD_eq_getElem _ _ h, List.length_pos_iff]
  apply d.ne_nil
  apply List.getElem_mem

theorem dvd_frag (h : i + 1 < d.count) :
  8 ∣ (d.frag i).length
  := by
  unfold count at h
  rw [frag, List.getD_eq_getElem _ _ (by omega)]
  apply d.dvd
  apply List.mem_iff_getElem.mpr
  exact ⟨i, by rw [List.length_dropLast]; omega, List.getElem_dropLast _⟩

theorem dvd_off (h : i < d.count) :
  8 ∣ d.off i
  := by
  induction i with
  | zero => exact Nat.dvd_zero 8
  | succ i ih =>
    rw [d.off_succ (by omega)]
    apply Nat.dvd_add
    · apply ih
      omega
    · apply d.dvd_frag h

/-- The pieces are one behind the other. -/
theorem off_add_le (h : i < j) (hj : j ≤ d.count) :
  d.off i + (d.frag i).length ≤ d.off j
  := by
  induction j with
  | zero => omega
  | succ j ih =>
    rcases Nat.lt_succ_iff_lt_or_eq.mp h with hij | rfl
    · have hle := ih hij (by omega)
      rw [d.off_succ (by omega)]
      omega
    · rw [d.off_succ (by omega)]

theorem off_lt (h : i < j) (hj : j ≤ d.count) :
  d.off i < d.off j
  := by
  have hpos := d.frag_pos (i := i) (by omega)
  have hle := d.off_add_le h hj
  omega

theorem lt_of_off_lt (h : d.off i < d.off j) (hi : i ≤ d.count) :
  i < j
  := by
  by_contra hge
  rcases Nat.eq_or_lt_of_le (Nat.le_of_not_lt hge) with heq | hlt
  · rw [heq] at h
    omega
  · have := d.off_lt hlt hi
    omega

theorem off_inj (hi : i < d.count) (hj : j < d.count) :
  d.off i = d.off j ↔ i = j
  := by
  constructor
  · intro hoff
    rcases Nat.lt_trichotomy i j with hlt | heq | hlt
    · have := d.off_lt hlt hj.le
      omega
    · exact heq
    · have := d.off_lt hlt hi.le
      omega
  · rintro rfl
    rfl

theorem off_le (h : i < d.count) :
  d.off i + (d.frag i).length ≤ ipMaxudp
  := by
  apply (d.off_add_le h (Nat.le_refl _)).trans
  rw [d.off_count]
  apply d.length_le

/-- A descriptor at the start of a piece is not in another piece. -/
theorem off_disjoint (hne : i ≠ j) (hi : i < d.count) (hj : j < d.count) :
  d.off i + 8 ≤ d.off j ∨ d.off j + (d.frag j).length ≤ d.off i
  := by
  rcases Nat.lt_or_gt_of_ne hne with hlt | hlt
  · left
    have hle := d.off_add_le hlt hj.le
    have hpos := d.frag_pos hi
    obtain ⟨n, hn⟩ := d.dvd_frag (i := i) (by omega)
    omega
  · right
    apply d.off_add_le hlt hi.le

end Datagram

/-- What is in memory piece by piece is there as a whole. -/
theorem holds_flatten {m : ℕ → Byte} {p : ℕ} {frags : List (List Byte)}
    (h : ∀ i < frags.length, Memory.Holds m (p + (frags.take i).flatten.length) (frags.getD i [])) :
  Memory.Holds m p frags.flatten
  := by
  induction frags generalizing p with
  | nil => exact Memory.holds_nil m p
  | cons x frags ih =>
    rw [List.flatten_cons, Memory.holds_append]
    refine ⟨h 0 (Nat.zero_lt_succ _), ?_⟩
    apply ih
    intro i hi
    have hsucc := h (i + 1) (Nat.succ_lt_succ hi)
    rw [List.take_succ_cons, List.flatten_cons, List.length_append, ← Nat.add_assoc] at hsucc
    exact hsucc

/-! ### Holes -/

/-- What is missing when the pieces `js` are there: holes that start and end with pieces. -/
structure Holes (d : Datagram) (js : List ℕ) (hs : List Hole) : Prop where
  sorted : hs.Pairwise fun a b => a.last < 8 * b.first
  start : ∀ h ∈ hs, ∃ i < d.count, d.off i = 8 * h.first
  stop : ∀ h ∈ hs, h.last = 0xffff ∨ ∃ i < d.count, d.off i = h.last
  lt : ∀ h ∈ hs, 8 * h.first < h.last
  missing : ∀ i < d.count, i ∉ js ↔ ∃ h ∈ hs, 8 * h.first ≤ d.off i ∧ d.off i < h.last

/-- What remains of a hole in front of a piece. -/
def front (d : Datagram) (j : ℕ) (h : Hole) : List Hole :=
  if 8 * h.first < d.off j then [⟨h.first, d.off j⟩] else []

/-- What remains of a hole behind a piece. -/
def back (d : Datagram) (j : ℕ) (h : Hole) : List Hole :=
  if j + 1 < d.count ∧ d.off (j + 1) < h.last then [⟨d.off (j + 1) / 8, h.last⟩] else []

variable {d : Datagram} {js : List ℕ} {j : ℕ} {hs pre post : List Hole} {h : Hole}

theorem mem_front {x : Hole} :
  x ∈ front d j h ↔ 8 * h.first < d.off j ∧ x = ⟨h.first, d.off j⟩
  := by
  unfold front
  split
  case isTrue hlt => simp [hlt]
  case isFalse hge => simp [hge]

theorem mem_back {x : Hole} :
  x ∈ back d j h
    ↔ (j + 1 < d.count ∧ d.off (j + 1) < h.last) ∧ x = ⟨d.off (j + 1) / 8, h.last⟩
  := by
  unfold back
  split
  case isTrue hlt => simp [hlt]
  case isFalse hge => simp [hge]

theorem eight_mul_off_div (d : Datagram) {i : ℕ} (hi : i < d.count) :
  8 * (d.off i / 8) = d.off i
  := Nat.mul_div_cancel' (d.dvd_off hi)

theorem Holes.cut_sorted (hholes : Holes d js (pre ++ h :: post))
    (hfirst : 8 * h.first ≤ d.off j) (hlast : d.off j < h.last) :
  (pre ++ (front d j h ++ back d j h) ++ post).Pairwise fun a b => a.last < 8 * b.first
  := by
  obtain ⟨hpre, ⟨hh, hpost⟩, hbetween⟩ :=
    List.pairwise_append.mp hholes.sorted |>.imp_right (And.imp_left List.pairwise_cons.mp)
  -- what is put in place of the hole is inside of it
  have hinside : ∀ x ∈ front d j h ++ back d j h,
      8 * h.first ≤ 8 * x.first ∧ x.last ≤ h.last := by
    intro x hx
    rcases List.mem_append.mp hx with hx | hx
    · obtain ⟨-, rfl⟩ := mem_front.mp hx
      exact ⟨Nat.le_refl _, hlast.le⟩
    · obtain ⟨⟨hsucc, -⟩, rfl⟩ := mem_back.mp hx
      have hoff := d.off_lt (Nat.lt_add_one j) hsucc.le
      simp only [eight_mul_off_div d hsucc]
      exact ⟨by omega, Nat.le_refl _⟩
  have hmid : (front d j h ++ back d j h).Pairwise fun a b => a.last < 8 * b.first := by
    rw [List.pairwise_append]
    refine ⟨?_, ?_, ?_⟩
    · unfold front
      split
      · exact List.pairwise_singleton _ _
      · exact List.Pairwise.nil
    · unfold back
      split
      · exact List.pairwise_singleton _ _
      · exact List.Pairwise.nil
    · intro x hx y hy
      obtain ⟨-, rfl⟩ := mem_front.mp hx
      obtain ⟨⟨hsucc, -⟩, rfl⟩ := mem_back.mp hy
      simp only [eight_mul_off_div d hsucc]
      apply d.off_lt (Nat.lt_add_one j) hsucc.le
  rw [List.pairwise_append, List.pairwise_append]
  refine ⟨⟨hpre, hmid, ?_⟩, hpost, ?_⟩
  · intro a ha x hx
    apply (hbetween a ha h List.mem_cons_self).trans_le (hinside x hx).1
  · intro a ha b hb
    rcases List.mem_append.mp ha with ha | ha
    · apply hbetween a ha b (List.mem_cons_of_mem h hb)
    · apply (hinside a ha).2.trans_lt (hh b hb)

theorem Holes.cut_missing (hholes : Holes d js (pre ++ h :: post)) (hj : j < d.count)
    (hfirst : 8 * h.first ≤ d.off j) (hlast : d.off j < h.last) {i : ℕ} (hi : i < d.count) :
  i ∉ j :: js
    ↔ ∃ x ∈ pre ++ (front d j h ++ back d j h) ++ post, 8 * x.first ≤ d.off i ∧ d.off i < x.last
  := by
  obtain ⟨-, ⟨hh, -⟩, hbetween⟩ :=
    List.pairwise_append.mp hholes.sorted |>.imp_right (And.imp_left List.pairwise_cons.mp)
  have hh_mem : h ∈ pre ++ h :: post := by simp
  rw [List.mem_cons, not_or, hholes.missing i hi]
  constructor
  · rintro ⟨hne, x, hx, hx₁, hx₂⟩
    rcases List.mem_append.mp hx with hx | hx
    · exact ⟨x, by simp [hx], hx₁, hx₂⟩
    rcases List.mem_cons.mp hx with rfl | hx
    · rcases Nat.lt_or_gt_of_ne hne with hlt | hlt
      · have hoff := d.off_lt hlt hj.le
        refine ⟨⟨x.first, d.off j⟩, ?_, hx₁, hoff⟩
        have hx : (⟨x.first, d.off j⟩ : Hole) ∈ front d j x :=
          mem_front.mpr ⟨hx₁.trans_lt hoff, rfl⟩
        simp [hx]
      · have hsucc : j + 1 < d.count := by omega
        have hoff : d.off (j + 1) ≤ d.off i := by
          rcases Nat.eq_or_lt_of_le (Nat.succ_le_of_lt hlt) with heq | hlt
          · rw [← heq]
          · apply (d.off_lt hlt hi.le).le
        refine ⟨⟨d.off (j + 1) / 8, x.last⟩, ?_, ?_, hx₂⟩
        · have hx : (⟨d.off (j + 1) / 8, x.last⟩ : Hole) ∈ back d j x :=
            mem_back.mpr ⟨⟨hsucc, hoff.trans_lt hx₂⟩, rfl⟩
          simp [hx]
        · simp only [eight_mul_off_div d hsucc]
          exact hoff
    · exact ⟨x, by simp [hx], hx₁, hx₂⟩
  · rintro ⟨x, hx, hx₁, hx₂⟩
    rcases List.mem_append.mp hx with hx | hx
    · rcases List.mem_append.mp hx with hx | hx
      · have hlt := hbetween x hx h List.mem_cons_self
        refine ⟨?_, x, by simp [hx], hx₁, hx₂⟩
        rw [← d.off_inj hi hj]
        omega
      rcases List.mem_append.mp hx with hx | hx
      · obtain ⟨-, rfl⟩ := mem_front.mp hx
        simp only at hx₁ hx₂
        refine ⟨?_, h, hh_mem, hx₁, hx₂.trans hlast⟩
        rw [← d.off_inj hi hj]
        omega
      · obtain ⟨⟨hsucc, -⟩, rfl⟩ := mem_back.mp hx
        simp only [eight_mul_off_div d hsucc] at hx₁ hx₂
        have hoff := d.off_lt (Nat.lt_add_one j) hsucc.le
        refine ⟨?_, h, hh_mem, by omega, hx₂⟩
        rw [← d.off_inj hi hj]
        omega
    · have hlt := hh x hx
      refine ⟨?_, x, by simp [hx], hx₁, hx₂⟩
      rw [← d.off_inj hi hj]
      omega

/-- A piece that was missing is taken out of its hole. -/
theorem Holes.cut (hholes : Holes d js (pre ++ h :: post)) (hj : j < d.count)
    (hfirst : 8 * h.first ≤ d.off j) (hlast : d.off j < h.last) :
  Holes d (j :: js) (pre ++ (front d j h ++ back d j h) ++ post)
  := by
  have hmem : ∀ x ∈ pre ++ (front d j h ++ back d j h) ++ post,
      x ∈ pre ++ h :: post ∨ 8 * h.first < d.off j ∧ x = ⟨h.first, d.off j⟩
        ∨ (j + 1 < d.count ∧ d.off (j + 1) < h.last) ∧ x = ⟨d.off (j + 1) / 8, h.last⟩ := by
    intro x hx
    simp only [List.mem_append, mem_front, mem_back, List.mem_cons] at hx ⊢
    tauto
  have hh_mem : h ∈ pre ++ h :: post := by simp
  refine ⟨hholes.cut_sorted hfirst hlast, ?_, ?_, ?_,
    fun i hi => hholes.cut_missing hj hfirst hlast hi⟩
  · intro x hx
    rcases hmem x hx with hx | ⟨-, rfl⟩ | ⟨⟨hsucc, -⟩, rfl⟩
    · apply hholes.start x hx
    · apply hholes.start h hh_mem
    · exact ⟨j + 1, hsucc, (eight_mul_off_div d hsucc).symm⟩
  · intro x hx
    rcases hmem x hx with hx | ⟨-, rfl⟩ | ⟨-, rfl⟩
    · apply hholes.stop x hx
    · exact .inr ⟨j, hj, rfl⟩
    · apply hholes.stop h hh_mem
  · intro x hx
    rcases hmem x hx with hx | ⟨hlt, rfl⟩ | ⟨⟨hsucc, hlt⟩, rfl⟩
    · apply hholes.lt x hx
    · exact hlt
    · simp only [eight_mul_off_div d hsucc]
      exact hlt

/-- The first piece of a hole is missing. -/
theorem Holes.start_missing (hholes : Holes d js hs) (hh : h ∈ hs) :
  ∃ i < d.count, i ∉ js ∧ d.off i = 8 * h.first
  := by
  obtain ⟨i, hi, hoff⟩ := hholes.start h hh
  refine ⟨i, hi, ?_, hoff⟩
  rw [hholes.missing i hi]
  refine ⟨h, hh, hoff.ge, ?_⟩
  rw [hoff]
  apply hholes.lt h hh

theorem Holes.ordered (hholes : Holes d js hs) :
  Ordered hs
  where
  sorted := by
    unfold indices
    rw [List.pairwise_map]
    apply hholes.sorted.imp_of_mem
    intro a b ha _ hab
    have hlt := hholes.lt a ha
    omega
  lt := by
    intro i hi
    obtain ⟨h, hh, rfl⟩ := List.mem_map.mp hi
    obtain ⟨j, hj, hoff⟩ := hholes.start h hh
    have hle := d.off_le hj
    unfold ipMaxudp ipPktsize at hle
    omega

/-- All pieces are there. -/
def Complete (d : Datagram) (js : List ℕ) : Prop := ∀ i < d.count, i ∈ js

instance (d : Datagram) (js : List ℕ) : Decidable (Complete d js) :=
  inferInstanceAs (Decidable (∀ i < d.count, i ∈ js))

/-- Nothing is missing if and only if there is no hole. -/
theorem Holes.complete_iff (hholes : Holes d js hs) :
  Complete d js ↔ hs = []
  := by
  constructor
  · intro hcomplete
    rw [List.eq_nil_iff_forall_not_mem]
    intro h hh
    obtain ⟨i, hi, hmissing, -⟩ := hholes.start_missing hh
    apply hmissing (hcomplete i hi)
  · rintro rfl i hi
    by_contra hmissing
    obtain ⟨h, hh, -⟩ := (hholes.missing i hi).mp hmissing
    cases hh

end Defrag
