import UBoot.Net.Defrag

/-!
# The list of holes in the buffer

What the code does to its list of holes, as what it does to a list.  The index 0 stands for the
hole at the start of the buffer and for no hole; where a link to the hole in front of another one
is followed, that must not be the hole at the start.
-/

namespace Defrag

/-- A hole, from the index `first` of its descriptor up to the byte `last`. -/
structure Hole where
  first : ℕ
  last : ℕ

/-- The indices of some holes. -/
def indices (hs : List Hole) : List ℕ := hs.map Hole.first

/-- The holes in the buffer. -/
structure Linked (s : State) (hs : List Hole) : Prop where
  first : s.firstHole = (indices hs).headD 0
  links : Links.Seg (get s.pktBuff · .nextHole) (get s.pktBuff · .prevHole) 0 (indices hs) 0
  last : ∀ h ∈ hs, get s.pktBuff h.first .lastByte = h.last

/-- The holes are one behind the other, and their indices fit. -/
structure Ordered (hs : List Hole) : Prop where
  sorted : (indices hs).Pairwise (· < ·)
  lt : ∀ i ∈ indices hs, i < 2 ^ 16

/-- Two buffers are the same, except in the descriptors of some holes. -/
def SameOutside (is : List ℕ) (m m' : ℕ → Byte) : Prop :=
  ∀ q, (∀ i ∈ is, q < payload i ∨ payload i + 8 ≤ q) → m' q = m q

section

variable {is : List ℕ} {m m' m'' : ℕ → Byte} {i j : ℕ}

theorem SameOutside.refl (is : List ℕ) (m : ℕ → Byte) :
  SameOutside is m m
  := fun _ _ => rfl

theorem SameOutside.trans (h : SameOutside is m m') (h' : SameOutside is m' m'') :
  SameOutside is m m''
  := fun q hq => (h' q hq).trans (h q hq)

theorem SameOutside.mono {is' : List ℕ} (h : SameOutside is m m') (his : is ⊆ is') :
  SameOutside is' m m'
  := fun q hq => h q fun i hi => hq i (his hi)

theorem SameOutside.store {p : ℕ} {ℓ : List Byte} (h : SameOutside is m m') (hi : i ∈ is)
    (hp : payload i ≤ p) (hℓ : p + ℓ.length ≤ payload i + 8) :
  SameOutside is m (Memory.store m' p ℓ)
  := by
  intro q hq
  rw [← h q hq]
  rcases hq i hi with hlt | hle
  · apply Memory.store_of_lt
    omega
  · apply Memory.store_of_le
    omega

theorem SameOutside.set (h : SameOutside is m m') (hi : i ∈ is) (f : Field) (v : ℕ) :
  SameOutside is m (Defrag.set m' i f v)
  := by
  have hf := offset_le f
  apply h.store hi
  · omega
  · rw [length_halfBytes]
    omega

theorem SameOutside.copyHole (h : SameOutside is m m') (hj : j ∈ is) :
  SameOutside is m (Defrag.copyHole m' i j)
  := by
  apply h.store hj
  · exact Nat.le_refl _
  · rw [Memory.length_read]

end

variable {s : State} {pre post hs : List Hole} {h : Hole}

theorem indices_append (as bs : List Hole) :
  indices (as ++ bs) = indices as ++ indices bs
  := List.map_append

theorem indices_cons (a : Hole) (as : List Hole) :
  indices (a :: as) = a.first :: indices as
  := rfl

theorem indices_eq_nil :
  indices hs = [] ↔ hs = []
  := List.map_eq_nil_iff

/-! ### Where a hole is in the list -/

namespace Ordered

theorem first_lt (hord : Ordered (pre ++ h :: post)) :
  h.first < 2 ^ 16
  := by
  apply hord.lt
  simp [indices_append, indices_cons]

theorem pre_lt (hord : Ordered (pre ++ h :: post)) {i : ℕ} (hi : i ∈ indices pre) :
  i < h.first
  := by
  have hsorted := hord.sorted
  rw [indices_append, indices_cons, List.pairwise_append] at hsorted
  apply hsorted.2.2 i hi
  exact List.mem_cons_self

theorem lt_post (hord : Ordered (pre ++ h :: post)) {i : ℕ} (hi : i ∈ indices post) :
  h.first < i
  := by
  have hsorted := hord.sorted
  rw [indices_append, indices_cons, List.pairwise_append, List.pairwise_cons] at hsorted
  apply hsorted.2.1.1 i hi

theorem pre_lt_post (hord : Ordered (pre ++ h :: post)) {i j : ℕ} (hi : i ∈ indices pre)
    (hj : j ∈ indices post) :
  i < j
  := (hord.pre_lt hi).trans (hord.lt_post hj)

theorem nodup (hord : Ordered (pre ++ h :: post)) :
  (indices pre ++ indices post).Nodup
  := by
  have hsorted := hord.sorted
  rw [indices_append, indices_cons, List.pairwise_append, List.pairwise_cons] at hsorted
  rw [List.nodup_append']
  refine ⟨?_, ?_, ?_⟩
  · apply hsorted.1.imp
    exact fun hlt => hlt.ne
  · apply hsorted.2.1.2.imp
    exact fun hlt => hlt.ne
  · intro i hi hj
    have := hord.pre_lt_post hi hj
    omega

/-- The index behind a hole is 0 only if there is none. -/
theorem next_eq_zero (hord : Ordered (pre ++ h :: post)) :
  (indices post).headD 0 = 0 ↔ post = []
  := by
  cases post with
  | nil => simp [indices]
  | cons a post =>
    have hlt := hord.lt_post (i := a.first) List.mem_cons_self
    simp only [indices_cons, List.headD_cons, reduceCtorEq, iff_false]
    omega

theorem next_lt (hord : Ordered (pre ++ h :: post)) :
  (indices post).headD 0 < 2 ^ 16
  := by
  cases post with
  | nil => exact Nat.two_pow_pos 16
  | cons a post =>
    apply hord.lt
    simp [indices_append, indices_cons]

theorem prev_lt (hord : Ordered (pre ++ h :: post)) :
  (indices pre).getLastD 0 < 2 ^ 16
  := by
  rcases List.eq_nil_or_concat' pre with rfl | ⟨pre, a, rfl⟩
  · exact Nat.two_pow_pos 16
  · have hlast : (indices (pre ++ [a])).getLastD 0 = a.first := by
      rw [indices_append, Links.getLastD_append]
      rfl
    rw [hlast]
    apply hord.lt
    simp [indices_append, indices_cons]

/-- A hole is not linked like the one behind another one, if it is in front of that. -/
theorem link_next (hord : Ordered (pre ++ h :: post)) {i : ℕ} (hi : i ≤ h.first) (f : ℕ → ℕ)
    (v : ℕ) :
  Links.link 0 f ((indices post).headD 0) v i = f i
  := by
  cases post with
  | nil => exact congrFun (Links.link_nil f v) i
  | cons a post =>
    apply Links.link_of_ne
    have hlt := hord.lt_post (i := a.first) List.mem_cons_self
    rw [indices_cons, List.headD_cons]
    omega

theorem tail_ne {hs : List Hole} (hord : Ordered hs) :
  ∀ i ∈ (indices hs).tail, i ≠ 0
  := by
  cases hs with
  | nil => nofun
  | cons h hs =>
    intro i hi
    have hlt := (List.pairwise_cons.mp hord.sorted).1 i hi
    omega

theorem length_le {hs : List Hole} (hord : Ordered hs) :
  (indices hs).length ≤ 2 ^ 16
  := by
  have hnodup : (indices hs).Nodup := hord.sorted.imp fun hlt => hlt.ne
  rw [← List.toFinset_card_of_nodup hnodup]
  apply (Finset.card_le_card (t := Finset.range (2 ^ 16)) ?_).trans_eq (Finset.card_range _)
  intro i hi
  rw [Finset.mem_range]
  apply hord.lt
  exact List.mem_toFinset.mp hi

end Ordered

namespace Linked

theorem split (hlinked : Linked s (pre ++ h :: post)) :
  Links.Seg (get s.pktBuff · .nextHole) (get s.pktBuff · .prevHole) 0 (indices pre) h.first
    ∧ get s.pktBuff h.first .nextHole = (indices post).headD 0
    ∧ get s.pktBuff h.first .prevHole = (indices pre).getLastD 0
    ∧ Links.Seg (get s.pktBuff · .nextHole) (get s.pktBuff · .prevHole) h.first (indices post) 0
  := by
  have hlinks := hlinked.links
  rw [indices_append, indices_cons, Links.seg_append] at hlinks
  exact hlinks

/-- Another end of a hole. -/
theorem setLast (hlinked : Linked s (pre ++ h :: post)) (hord : Ordered (pre ++ h :: post))
    {v : ℕ} (hv : v < 2 ^ 16) :
  Linked (shortenHole s h.first v) (pre ++ ⟨h.first, v⟩ :: post)
  where
  first := by
    rw [shortenHole, hlinked.first, indices_append, indices_append]
    rfl
  links := by
    have hlinks := hlinked.links
    rw [indices_append] at hlinks ⊢
    apply hlinks.congr
    · intro i _
      apply get_set_of_ne
      simp
    · intro i _
      apply get_set_of_ne
      simp
  last := by
    intro x hx
    have hget : ∀ i, i ≠ h.first → get (shortenHole s h.first v).pktBuff i .lastByte
        = get s.pktBuff i .lastByte := by
      intro i hi
      apply get_set_of_ne
      exact .inl hi
    rcases List.mem_append.mp hx with hx | hx
    · have hlt := hord.pre_lt (List.mem_map_of_mem (f := Hole.first) hx)
      rw [hget _ hlt.ne, hlinked.last x (by simp [hx])]
    rcases List.mem_cons.mp hx with rfl | hx
    · apply get_set_self _ _ _ hv
    · have hlt := hord.lt_post (List.mem_map_of_mem (f := Hole.first) hx)
      rw [hget _ hlt.ne', hlinked.last x (by simp [hx])]

end Linked

/-! ### Following a link -/

/-- A member of a hole is set, if the index stands for one. -/
def setLink (m : ℕ → Byte) (i : ℕ) (f : Field) (v : ℕ) : ℕ → Byte :=
  if i = 0 then m else set m i f v

section

variable {m m' : ℕ → Byte} {i j v : ℕ} {f f' : Field}

theorem setLink_zero (m : ℕ → Byte) (f : Field) (v : ℕ) :
  setLink m 0 f v = m
  := if_pos rfl

theorem nextHole_ne_prevHole :
  Field.nextHole ≠ Field.prevHole
  := by decide

theorem setLink_of_ne (m : ℕ → Byte) (f : Field) (v : ℕ) (h : i ≠ 0) :
  setLink m i f v = set m i f v
  := if_neg h

theorem get_setLink_self (hv : v < 2 ^ 16) :
  get (setLink m i f v) j f = Links.link 0 (get m · f) i v j
  := by
  unfold setLink Links.link
  split
  · rfl
  · by_cases hj : j = i
    · rw [hj, get_set_self m i f hv, Function.update_self]
    · rw [get_set_of_ne v (.inl hj), Function.update_of_ne hj]

theorem get_setLink_of_ne (h : f' ≠ f) :
  get (setLink m i f v) j f' = get m j f'
  := by
  unfold setLink
  split
  · rfl
  · apply get_set_of_ne v (.inr h)

theorem SameOutside.setLink {is : List ℕ} (h : SameOutside is m m') (hi : i ≠ 0 → i ∈ is)
    (f : Field) (v : ℕ) :
  SameOutside is m (Defrag.setLink m' i f v)
  := by
  unfold Defrag.setLink
  split
  · exact h
  case isFalse hne => apply h.set (hi hne)

end

theorem headD_mem {is : List ℕ} (h : is.headD 0 ≠ 0) :
  is.headD 0 ∈ is
  := by
  cases is with
  | nil => apply absurd rfl h
  | cons i is => exact List.mem_cons_self

theorem getLastD_mem {is : List ℕ} (h : is.getLastD 0 ≠ 0) :
  is.getLastD 0 ∈ is
  := by
  rcases List.eq_nil_or_concat' is with rfl | ⟨is, i, rfl⟩
  · apply absurd rfl h
  · rw [Links.getLastD_append]
    simp

theorem next_mem (pre : List Hole) (h : Hole) (hne : (indices post).headD 0 ≠ 0) :
  (indices post).headD 0 ∈ indices (pre ++ h :: post)
  := by
  rw [indices_append, indices_cons]
  exact List.mem_append_right _ (List.mem_cons_of_mem _ (headD_mem hne))

theorem prev_mem (h : Hole) (post : List Hole) (hne : (indices pre).getLastD 0 ≠ 0) :
  (indices pre).getLastD 0 ∈ indices (pre ++ h :: post)
  := by
  rw [indices_append]
  exact List.mem_append_left _ (getLastD_mem hne)

/-! ### Removing a hole -/

theorem removeHole_eq (s : State) (h : ℕ)
    (hne : ¬ (get s.pktBuff h .prevHole = 0 ∧ get s.pktBuff h .nextHole = 0)) :
  removeHole s h
    = ({ s with
          firstHole :=
            if get s.pktBuff h .prevHole = 0 then get s.pktBuff h .nextHole else s.firstHole
          pktBuff :=
            setLink
              (setLink s.pktBuff (get s.pktBuff h .nextHole) .prevHole (get s.pktBuff h .prevHole))
              (get s.pktBuff h .prevHole) .nextHole (get s.pktBuff h .nextHole) },
        false)
  := by
  have hn := get_lt s.pktBuff h .nextHole
  have hp := get_lt s.pktBuff h .prevHole
  unfold removeHole setLink
  simp only [if_neg hne]
  by_cases hprev : get s.pktBuff h .prevHole = 0
  · have hnext : get s.pktBuff h .nextHole ≠ 0 := fun hnext => hne ⟨hprev, hnext⟩
    simp only [hprev, if_true, if_neg hnext]
  by_cases hnext : get s.pktBuff h .nextHole = 0
  · simp only [hnext, if_true, if_neg hprev]
  · simp only [if_neg hprev, if_neg hnext]
    -- the links are read again
    have hprev' : get (set s.pktBuff (get s.pktBuff h .nextHole) .prevHole
        (get s.pktBuff h .prevHole)) h .prevHole = get s.pktBuff h .prevHole := by
      by_cases hself : h = get s.pktBuff h .nextHole
      · rw [← hself, get_set_self _ _ _ hp]
      · apply get_set_of_ne
        exact .inl hself
    rw [hprev', get_set_of_ne _ (.inr nextHole_ne_prevHole)]

theorem moveHole_eq (s : State) {h newh : ℕ} (hne : get s.pktBuff h .nextHole ≠ newh) :
  moveHole s h newh
    = { s with
        firstHole := if get s.pktBuff h .prevHole = 0 then newh else s.firstHole
        pktBuff :=
          setLink
            (setLink (copyHole s.pktBuff h newh) (get s.pktBuff h .nextHole) .prevHole newh)
            (get s.pktBuff h .prevHole) .nextHole newh }
  := by
  have hlinks : (if get s.pktBuff h .nextHole ≠ 0
        then set (copyHole s.pktBuff h newh) (get s.pktBuff h .nextHole) .prevHole newh
        else copyHole s.pktBuff h newh)
      = setLink (copyHole s.pktBuff h newh) (get s.pktBuff h .nextHole) .prevHole newh := by
    rw [setLink, ite_not]
  have hprev : get (setLink (copyHole s.pktBuff h newh) (get s.pktBuff h .nextHole) .prevHole newh)
      newh .prevHole = get s.pktBuff h .prevHole := by
    unfold setLink
    split
    · rw [get_copyHole_self]
    · rw [get_set_of_ne _ (.inl hne.symm), get_copyHole_self]
  unfold moveHole
  simp only [get_copyHole_self, hlinks, hprev]
  by_cases hzero : get s.pktBuff h .prevHole = 0
  · simp only [hzero, ne_eq, not_true, if_false, if_true]
    rw [setLink_zero]
  · simp only [hzero, ne_eq, not_false_iff, if_false, if_true]
    rw [setLink_of_ne _ _ _ hzero]

/-- The buffer of `splitHole` before the hole behind is linked. -/
def splitMem (m : ℕ → Byte) (h newh start : ℕ) : ℕ → Byte :=
  set (set (set (copyHole m h newh) h .lastByte start) h .nextHole newh) newh .prevHole h

section

variable (m : ℕ → Byte) {i h newh start : ℕ}

theorem get_splitMem_of_ne (f : Field) (hi : i ≠ h) (hi' : i ≠ newh) :
  get (splitMem m h newh start) i f = get m i f
  := by
  unfold splitMem
  rw [get_set_of_ne _ (.inl hi'), get_set_of_ne _ (.inl hi), get_set_of_ne _ (.inl hi),
    get_copyHole_of_ne _ hi']

theorem get_splitMem_old (hne : h ≠ newh) (hstart : start < 2 ^ 16) (hnew : newh < 2 ^ 16) :
  get (splitMem m h newh start) h .lastByte = start
    ∧ get (splitMem m h newh start) h .nextHole = newh
    ∧ get (splitMem m h newh start) h .prevHole = get m h .prevHole
  := by
  unfold splitMem
  refine ⟨?_, ?_, ?_⟩
  · rw [get_set_of_ne _ (.inl hne), get_set_of_ne _ (.inr (by decide)), get_set_self _ _ _ hstart]
  · rw [get_set_of_ne _ (.inl hne), get_set_self _ _ _ hnew]
  · rw [get_set_of_ne _ (.inl hne), get_set_of_ne _ (.inr (by decide)),
      get_set_of_ne _ (.inr (by decide)), get_copyHole_of_ne _ hne]

theorem get_splitMem_new (start : ℕ) (hne : h ≠ newh) (hh : h < 2 ^ 16) :
  get (splitMem m h newh start) newh .lastByte = get m h .lastByte
    ∧ get (splitMem m h newh start) newh .nextHole = get m h .nextHole
    ∧ get (splitMem m h newh start) newh .prevHole = h
  := by
  unfold splitMem
  refine ⟨?_, ?_, ?_⟩
  · rw [get_set_of_ne _ (.inr (by decide)), get_set_of_ne _ (.inl hne.symm),
      get_set_of_ne _ (.inl hne.symm), get_copyHole_self]
  · rw [get_set_of_ne _ (.inr (by decide)), get_set_of_ne _ (.inl hne.symm),
      get_set_of_ne _ (.inl hne.symm), get_copyHole_self]
  · rw [get_set_self _ _ _ hh]

end

theorem splitHole_eq (s : State) {h newh start : ℕ} (hne : h ≠ newh) (hh : h < 2 ^ 16) :
  splitHole s h newh start
    = { s with
        pktBuff :=
          setLink (splitMem s.pktBuff h newh start) (get s.pktBuff h .nextHole) .prevHole newh }
  := by
  have hnext := (get_splitMem_new s.pktBuff start hne hh).2.1
  unfold splitHole setLink
  rw [← ite_not, ← hnext]
  rfl

section

variable (hlinked : Linked s (pre ++ h :: post)) (hord : Ordered (pre ++ h :: post))
  (hprev : pre ≠ [] → (indices pre).getLastD 0 ≠ 0)

include hlinked hord hprev

/-- Other holes in place of one, linked to what is in front of it and to what is behind it. -/
theorem Linked.replace {s' : State} {ms : List Hole}
    (hfirst : s'.firstHole
      = if (indices pre).getLastD 0 = 0 then (indices ms).headD ((indices post).headD 0)
        else s.firstHole)
    (hms : Links.Seg (get s'.pktBuff · .nextHole) (get s'.pktBuff · .prevHole)
      ((indices pre).getLastD 0) (indices ms) ((indices post).headD 0))
    (hmslast : ∀ x ∈ ms, get s'.pktBuff x.first .lastByte = x.last)
    (hnext : ∀ i ∈ indices pre ++ indices post, get s'.pktBuff i .nextHole
      = Links.link 0 (get s.pktBuff · .nextHole) ((indices pre).getLastD 0)
        ((indices ms).headD ((indices post).headD 0)) i)
    (hprev' : ∀ i ∈ indices pre ++ indices post, get s'.pktBuff i .prevHole
      = Links.link 0 (get s.pktBuff · .prevHole) ((indices post).headD 0)
        ((indices ms).getLastD ((indices pre).getLastD 0)) i)
    (hlast : ∀ i ∈ indices pre ++ indices post,
      get s'.pktBuff i .lastByte = get s.pktBuff i .lastByte) :
  Linked s' (pre ++ ms ++ post)
  where
  first := by
    rw [hfirst, indices_append, indices_append, Links.headD_append, Links.headD_append]
    cases pre with
    | nil => rfl
    | cons a pre =>
      rw [if_neg (hprev (List.cons_ne_nil a pre)), hlinked.first, indices_append, indices_cons]
      rfl
  links := by
    have hlinks := hlinked.links
    have hindices : indices (pre ++ h :: post) = indices pre ++ [h.first] ++ indices post := by
      simp [indices_append, indices_cons]
    rw [hindices] at hlinks
    rw [indices_append, indices_append]
    apply hlinks.splice hord.nodup
    · intro hne
      apply hprev
      rintro rfl
      apply hne rfl
    · intro hne hzero
      rw [hord.next_eq_zero] at hzero
      rw [hzero] at hne
      apply hne rfl
    · exact hnext
    · exact hprev'
    · exact hms
  last := by
    intro x hx
    have hindex : ∀ hs : List Hole, x ∈ hs → x.first ∈ indices hs :=
      fun hs hx => List.mem_map_of_mem hx
    rcases List.mem_append.mp hx with hx | hx
    · rcases List.mem_append.mp hx with hx | hx
      · rw [hlast _ (List.mem_append_left _ (hindex _ hx)), hlinked.last x (by simp [hx])]
      · apply hmslast x hx
    · rw [hlast _ (List.mem_append_right _ (hindex _ hx)), hlinked.last x (by simp [hx])]

/-- A hole is gone. -/
theorem linked_removeHole (hne : pre ++ post ≠ []) :
  (removeHole s h.first).2 = false
    ∧ (removeHole s h.first).1.totalLen = s.totalLen
    ∧ Linked (removeHole s h.first).1 (pre ++ post)
    ∧ SameOutside (indices (pre ++ h :: post)) s.pktBuff (removeHole s h.first).1.pktBuff
  := by
  obtain ⟨-, hn, hp, -⟩ := hlinked.split
  have hnonzero : ¬ (get s.pktBuff h.first .prevHole = 0
      ∧ get s.pktBuff h.first .nextHole = 0) := by
    rw [hn, hp, hord.next_eq_zero]
    rintro ⟨hzero, rfl⟩
    rw [List.append_nil] at hne
    apply hprev hne hzero
  rw [removeHole_eq s h.first hnonzero, hn, hp]
  refine ⟨rfl, rfl, ?_, ?_⟩
  · have hnil : pre ++ post = pre ++ [] ++ post := by rw [List.append_nil]
    rw [hnil]
    apply hlinked.replace hord hprev
    · rfl
    · trivial
    · nofun
    · intro i _
      rw [get_setLink_self hord.next_lt]
      simp only [get_setLink_of_ne nextHole_ne_prevHole]
      rfl
    · intro i _
      rw [get_setLink_of_ne (by decide), get_setLink_self hord.prev_lt]
      rfl
    · intro i _
      rw [get_setLink_of_ne (by decide), get_setLink_of_ne (by decide)]
  · apply SameOutside.setLink
    · apply (SameOutside.refl _ _).setLink
      apply next_mem
    · apply prev_mem

/-! ### Moving and splitting a hole -/

/-- A hole starts further behind. -/
theorem linked_moveHole {newh : ℕ} (hlt : newh < 2 ^ 16)
    (hnew : newh ∉ indices (pre ++ h :: post)) (hzero : newh ≠ 0) :
  (moveHole s h.first newh).totalLen = s.totalLen
    ∧ Linked (moveHole s h.first newh) (pre ++ [⟨newh, h.last⟩] ++ post)
    ∧ SameOutside (newh :: indices (pre ++ h :: post)) s.pktBuff
      (moveHole s h.first newh).pktBuff
  := by
  obtain ⟨-, hn, hp, -⟩ := hlinked.split
  have hnext : (indices post).headD 0 ≠ newh := by
    rintro rfl
    apply hnew
    apply next_mem _ _ hzero
  rw [moveHole_eq, hn, hp]
  · refine ⟨rfl, ?_, ?_⟩
    · have hother : ∀ i ∈ indices pre ++ indices post, i ≠ newh := by
        rintro i hi rfl
        apply hnew
        simp only [indices_append, indices_cons, List.mem_append, List.mem_cons] at hi ⊢
        tauto
      have hprev_ne : newh ≠ (indices pre).getLastD 0 := by
        rintro rfl
        apply hnew
        apply prev_mem _ _ hzero
      apply hlinked.replace hord hprev
      · rfl
      · refine ⟨?_, ?_, trivial⟩
        · dsimp only
          rw [get_setLink_self hlt, Links.link_of_ne hprev_ne, get_setLink_of_ne (by decide),
            get_copyHole_self, hn]
          rfl
        · dsimp only
          rw [get_setLink_of_ne (by decide), get_setLink_self hlt, Links.link_of_ne hnext.symm,
            get_copyHole_self, hp]
      · rintro x hx
        obtain rfl := List.mem_singleton.mp hx
        simp only
        rw [get_setLink_of_ne (by decide), get_setLink_of_ne (by decide), get_copyHole_self,
          hlinked.last h (by simp)]
      · intro i hi
        rw [get_setLink_self hlt]
        apply Links.link_congr
        rw [get_setLink_of_ne (by decide), get_copyHole_of_ne _ (hother i hi)]
      · intro i hi
        rw [get_setLink_of_ne (by decide), get_setLink_self hlt]
        apply Links.link_congr
        rw [get_copyHole_of_ne _ (hother i hi)]
      · intro i hi
        rw [get_setLink_of_ne (by decide), get_setLink_of_ne (by decide),
          get_copyHole_of_ne _ (hother i hi)]
    · apply SameOutside.setLink
      · apply SameOutside.setLink
        · apply (SameOutside.refl _ _).copyHole
          exact List.mem_cons_self
        · intro hne
          exact List.mem_cons_of_mem _ (next_mem pre h hne)
      · intro hne
        exact List.mem_cons_of_mem _ (prev_mem h post hne)
  · rw [hn]
    exact hnext

omit hprev

/-- A hole ends in front of something, and what remains of it is another hole. -/
theorem linked_splitHole {newh start : ℕ} (hlt : newh < 2 ^ 16)
    (hnew : newh ∉ indices (pre ++ h :: post)) (hzero : newh ≠ 0) (hstart : start < 2 ^ 16) :
  (splitHole s h.first newh start).totalLen = s.totalLen
    ∧ Linked (splitHole s h.first newh start)
      (pre ++ [⟨h.first, start⟩, ⟨newh, h.last⟩] ++ post)
    ∧ SameOutside (newh :: indices (pre ++ h :: post)) s.pktBuff
      (splitHole s h.first newh start).pktBuff
  := by
  obtain ⟨hsegpre, hn, hp, hsegpost⟩ := hlinked.split
  have hne : h.first ≠ newh := by
    rintro rfl
    apply hnew
    simp [indices_append, indices_cons]
  have hother : ∀ i ∈ indices pre ++ indices post, i ≠ h.first ∧ i ≠ newh := by
    intro i hi
    constructor
    · rcases List.mem_append.mp hi with hi | hi
      · exact (hord.pre_lt hi).ne
      · exact (hord.lt_post hi).ne'
    · rintro rfl
      apply hnew
      simp only [indices_append, indices_cons, List.mem_append, List.mem_cons] at hi ⊢
      tauto
  have hnext : newh ≠ (indices post).headD 0 := by
    rintro rfl
    apply hnew
    apply next_mem _ _ hzero
  obtain ⟨hlast₁, hnext₁, hprev₁⟩ := get_splitMem_old s.pktBuff hne hstart hlt
  obtain ⟨hlast₂, hnext₂, hprev₂⟩ := get_splitMem_new s.pktBuff start hne hord.first_lt
  rw [splitHole_eq s hne hord.first_lt, hn]
  refine ⟨rfl, ⟨?_, ?_, ?_⟩, ?_⟩
  · rw [hlinked.first]
    cases pre with
    | nil => rfl
    | cons a pre => rfl
  · simp only [get_setLink_self hlt, get_setLink_of_ne nextHole_ne_prevHole]
    rw [indices_append, indices_append, Links.seg_append, Links.seg_append]
    refine ⟨⟨?_, ?_, ?_, ?_, ?_, trivial⟩, ?_⟩
    · apply hsegpre.congr
      · intro i hi
        obtain ⟨hi₁, hi₂⟩ := hother i (List.mem_append_left _ hi)
        apply get_splitMem_of_ne _ _ hi₁ hi₂
      · intro i hi
        obtain ⟨hi₁, hi₂⟩ := hother i (List.mem_append_left _ hi)
        rw [hord.link_next (hord.pre_lt hi).le, get_splitMem_of_ne _ _ hi₁ hi₂]
    · exact hnext₁
    · dsimp only
      rw [hord.link_next (Nat.le_refl _), hprev₁, hp]
    · dsimp only
      rw [hnext₂, hn]
      rfl
    · dsimp only
      rw [Links.link_of_ne hnext, hprev₂]
    · rw [Links.getLastD_append]
      have hhead : indices post ≠ [] → (indices post).headD 0 ≠ 0 := by
        intro hne hzero
        rw [hord.next_eq_zero, ← indices_eq_nil] at hzero
        apply hne hzero
      apply (hsegpost.setPrev (List.nodup_append'.mp hord.nodup).2.1 hhead).congr
      · intro i hi
        obtain ⟨hi₁, hi₂⟩ := hother i (List.mem_append_right _ hi)
        apply get_splitMem_of_ne _ _ hi₁ hi₂
      · intro i hi
        obtain ⟨hi₁, hi₂⟩ := hother i (List.mem_append_right _ hi)
        apply Links.link_congr
        apply get_splitMem_of_ne _ _ hi₁ hi₂
  · intro x hx
    dsimp only
    rw [get_setLink_of_ne (by decide)]
    have hmem : ∀ hs : List Hole, x ∈ hs → x.first ∈ indices hs :=
      fun hs hx => List.mem_map_of_mem hx
    have hold : x ∈ pre ++ post → get (splitMem s.pktBuff h.first newh start) x.first .lastByte
        = x.last := by
      intro hx
      have hi := hmem _ hx
      rw [indices_append] at hi
      obtain ⟨hi₁, hi₂⟩ := hother x.first hi
      rw [get_splitMem_of_ne _ _ hi₁ hi₂, hlinked.last]
      rcases List.mem_append.mp hx with hx | hx
      · exact List.mem_append_left _ hx
      · exact List.mem_append_right _ (List.mem_cons_of_mem _ hx)
    rcases List.mem_append.mp hx with hx | hx
    · rcases List.mem_append.mp hx with hx | hx
      · apply hold (List.mem_append_left _ hx)
      rcases List.mem_cons.mp hx with rfl | hx
      · exact hlast₁
      · obtain rfl := List.mem_singleton.mp hx
        rw [hlast₂, hlinked.last h (by simp)]
    · apply hold (List.mem_append_right _ hx)
  · have hmem : h.first ∈ newh :: indices (pre ++ h :: post) := by
      simp [indices_append, indices_cons]
    apply SameOutside.setLink
    · apply SameOutside.set _ List.mem_cons_self
      apply SameOutside.set _ hmem
      apply SameOutside.set _ hmem
      apply (SameOutside.refl _ _).copyHole
      exact List.mem_cons_self
    · intro hne
      exact List.mem_cons_of_mem _ (next_mem pre h hne)

end

theorem removeHole_last (hlinked : Linked s [h]) :
  removeHole s h.first = (s, true)
  := by
  have hlinked' : Linked s ([] ++ h :: []) := hlinked
  obtain ⟨-, hnext, hprev, -⟩ := hlinked'.split
  unfold removeHole
  exact if_pos ⟨hprev, hnext⟩

/-! ### Taking a fragment out of a hole -/

/-- What remains of a hole. -/
def cutAt (h : Hole) (offset8 len : ℕ) : List Hole :=
  (if h.first < offset8 then [⟨h.first, 8 * offset8⟩] else [])
    ++ (if 8 * offset8 + len < h.last then [⟨offset8 + len / 8, h.last⟩] else [])

/-- The four ways to take a fragment out of a hole. -/
theorem fixHoles_spec (offset8 len : ℕ) (hlinked : Linked s (pre ++ h :: post))
    (hord : Ordered (pre ++ h :: post))
    (hprev : offset8 ≤ h.first → pre ≠ [] → (indices pre).getLastD 0 ≠ 0)
    (hstart : 8 * offset8 < 2 ^ 16)
    (hnew : 8 * offset8 + len < h.last → offset8 + len / 8 < 2 ^ 16
      ∧ offset8 + len / 8 ∉ indices (pre ++ h :: post) ∧ offset8 + len / 8 ≠ 0) :
  (pre ++ cutAt h offset8 len ++ post = [] ∧ fixHoles s h.first offset8 len = (s, true))
    ∨ (pre ++ cutAt h offset8 len ++ post ≠ []
      ∧ (fixHoles s h.first offset8 len).2 = false
      ∧ (fixHoles s h.first offset8 len).1.totalLen = s.totalLen
      ∧ Linked (fixHoles s h.first offset8 len).1 (pre ++ cutAt h offset8 len ++ post)
      ∧ SameOutside (indices (pre ++ h :: post) ++ indices (cutAt h offset8 len)) s.pktBuff
        (fixHoles s h.first offset8 len).1.pktBuff)
  := by
  have hnewh : ((offset8 : ℤ) + (len : ℤ).tdiv 8).toNat = offset8 + len / 8 := by
    rw [Int.tdiv_eq_ediv_of_nonneg (by omega)]
    omega
  have hlast : get s.pktBuff h.first .lastByte = h.last := hlinked.last h (by simp)
  have hle : ((get s.pktBuff h.first .lastByte : ℤ) ≤ ((8 * offset8 : ℕ) : ℤ) + (len : ℤ))
      ↔ ¬ 8 * offset8 + len < h.last := by
    rw [hlast]
    omega
  unfold fixHoles
  simp only [hle, hnewh]
  by_cases hright : 8 * offset8 + len < h.last
  · obtain ⟨hlt, hmem, hzero⟩ := hnew hright
    right
    by_cases hleft : h.first < offset8
    · have hcut : cutAt h offset8 len = [⟨h.first, 8 * offset8⟩, ⟨offset8 + len / 8, h.last⟩] := by
        simp [cutAt, hleft, hright]
      obtain ⟨htotal, hlinked', hsame⟩ := linked_splitHole hlinked hord hlt hmem hzero hstart
      rw [hcut, if_neg (by omega), if_neg (by omega), if_neg (by omega)]
      refine ⟨by simp, rfl, htotal, hlinked', hsame.mono ?_⟩
      intro i hi
      rcases List.mem_cons.mp hi with rfl | hi
      · exact List.mem_append_right _ (List.mem_cons_of_mem _ List.mem_cons_self)
      · exact List.mem_append_left _ hi
    · have hle' : offset8 ≤ h.first := Nat.not_lt.mp hleft
      have hcut : cutAt h offset8 len = [⟨offset8 + len / 8, h.last⟩] := by
        simp [cutAt, hleft, hright]
      obtain ⟨htotal, hlinked', hsame⟩ := linked_moveHole hlinked hord (hprev hle') hlt hmem hzero
      rw [hcut, if_neg (by omega), if_neg (by omega), if_pos (by omega)]
      refine ⟨by simp, rfl, htotal, hlinked', hsame.mono ?_⟩
      intro i hi
      rcases List.mem_cons.mp hi with rfl | hi
      · exact List.mem_append_right _ List.mem_cons_self
      · exact List.mem_append_left _ hi
  · by_cases hleft : h.first < offset8
    · have hcut : cutAt h offset8 len = [⟨h.first, 8 * offset8⟩] := by
        simp [cutAt, hleft, hright]
      rw [hcut, if_neg (by omega), if_pos (by omega), List.append_assoc]
      refine .inr ⟨by simp, rfl, rfl, hlinked.setLast hord hstart, ?_⟩
      have hmem : h.first ∈ indices (pre ++ h :: post) ++ indices [⟨h.first, 8 * offset8⟩] := by
        simp [indices_append, indices_cons]
      exact (SameOutside.refl _ _).set hmem .lastByte (8 * offset8)
    · have hle' : offset8 ≤ h.first := Nat.not_lt.mp hleft
      have hcut : cutAt h offset8 len = [] := by
        simp [cutAt, hleft, hright]
      rw [hcut, if_pos (by omega), List.append_nil]
      by_cases hne : pre ++ post = []
      · left
        refine ⟨hne, ?_⟩
        obtain ⟨rfl, rfl⟩ := List.append_eq_nil_iff.mp hne
        apply removeHole_last hlinked
      · right
        obtain ⟨hdone, htotal, hlinked', hsame⟩ := linked_removeHole hlinked hord (hprev hle') hne
        refine ⟨hne, hdone, htotal, hlinked', hsame.mono ?_⟩
        exact List.subset_append_left _ _

/-- Data that is in no descriptor does not touch the list. -/
theorem Linked.store {p : ℕ} {ℓ : List Byte} (hlinked : Linked s hs)
    (hp : ∀ i ∈ indices hs, payload i + 8 ≤ p ∨ p + ℓ.length ≤ payload i) :
  Linked { s with pktBuff := Memory.store s.pktBuff p ℓ } hs
  := by
  have hget : ∀ i ∈ indices hs, ∀ f, get (Memory.store s.pktBuff p ℓ) i f = get s.pktBuff i f := by
    intro i hi f
    have hf := offset_le f
    apply half_store_of_disjoint
    have := hp i hi
    omega
  refine ⟨hlinked.first, ?_, ?_⟩
  · apply hlinked.links.congr
    · exact fun i hi => hget i hi .nextHole
    · exact fun i hi => hget i hi .prevHole
  · intro h hh
    dsimp only
    rw [hget h.first (List.mem_map_of_mem hh), hlinked.last h hh]

/-! ### Finding a hole -/

/-- The first hole that does not end before `start`. -/
theorem findHole_eq {m : ℕ → Byte} {start fuel p n : ℕ} {as bs : List ℕ} {a : ℕ}
    (hseg : Links.Seg (get m · .nextHole) (get m · .prevHole) p (as ++ a :: bs) n)
    (hbefore : ∀ b ∈ as, get m b .lastByte < start) (ha : start ≤ get m a .lastByte)
    (hne : ∀ b ∈ (as ++ a :: bs).tail, b ≠ 0) (hfuel : as.length < fuel) :
  findHole m start fuel ((as ++ a :: bs).headD 0) = some (some a)
  := by
  induction as generalizing fuel p with
  | nil =>
    obtain ⟨fuel, rfl⟩ := Nat.exists_eq_add_one_of_ne_zero hfuel.ne'
    rw [List.nil_append, List.headD_cons, findHole, if_neg (by omega)]
  | cons b as ih =>
    rw [List.length_cons] at hfuel
    obtain ⟨fuel, rfl⟩ := Nat.exists_eq_add_one_of_ne_zero (Nat.ne_of_gt (Nat.zero_lt_of_lt hfuel))
    obtain ⟨hnext, -, hseg⟩ := hseg
    replace hnext : get m b .nextHole = (as ++ a :: bs).headD n := hnext
    have hhead : ∀ n, (as ++ a :: bs).headD n = (as ++ a :: bs).headD 0 := by
      intro n
      cases as with
      | nil => rfl
      | cons c as => rfl
    have hzero : (as ++ a :: bs).headD 0 ≠ 0 := by
      apply hne
      cases as with
      | nil => exact List.mem_cons_self
      | cons c as => exact List.mem_cons_self
    rw [hhead] at hnext
    rw [List.cons_append, List.headD_cons, findHole, if_pos (hbefore b List.mem_cons_self),
      hnext, if_neg hzero]
    apply ih hseg
    · exact fun c hc => hbefore c (List.mem_cons_of_mem b hc)
    · exact fun c hc => hne c (List.mem_of_mem_tail hc)
    · omega

/-- No hole reaches that far. -/
theorem findHole_none {m : ℕ → Byte} {start fuel p : ℕ} {as : List ℕ}
    (hseg : Links.Seg (get m · .nextHole) (get m · .prevHole) p as 0)
    (hbefore : ∀ b ∈ as, get m b .lastByte < start) (hne : ∀ b ∈ as.tail, b ≠ 0)
    (has : as ≠ []) (hfuel : as.length ≤ fuel) :
  findHole m start fuel (as.headD 0) = some none
  := by
  induction as generalizing fuel p with
  | nil => apply absurd rfl has
  | cons b as ih =>
    rw [List.length_cons] at hfuel
    obtain ⟨fuel, rfl⟩ := Nat.exists_eq_add_one_of_ne_zero (Nat.ne_of_gt (Nat.zero_lt_of_lt hfuel))
    obtain ⟨hnext, -, hseg⟩ := hseg
    replace hnext : get m b .nextHole = as.headD 0 := hnext
    rw [List.headD_cons, findHole, if_pos (hbefore b List.mem_cons_self), hnext]
    cases as with
    | nil => rw [List.headD_nil, if_pos rfl]
    | cons c as =>
      rw [List.headD_cons, if_neg (hne c List.mem_cons_self)]
      apply ih hseg
      · exact fun c hc => hbefore c (List.mem_cons_of_mem b hc)
      · exact fun c hc => hne c (List.mem_of_mem_tail hc)
      · exact List.cons_ne_nil c as
      · omega

/-- The hole that a call looks at. -/
theorem Linked.findHole_eq (hlinked : Linked s (pre ++ h :: post))
    (hord : Ordered (pre ++ h :: post)) {start : ℕ} (hpre : ∀ x ∈ pre, x.last < start)
    (hh : start ≤ h.last) :
  findHole s.pktBuff start (2 ^ 16 + 1) s.firstHole = some (some h.first)
  := by
  have hlinks := hlinked.links
  have htail := hord.tail_ne
  have hlength := hord.length_le
  rw [hlinked.first]
  rw [indices_append, indices_cons] at hlinks htail hlength ⊢
  apply Defrag.findHole_eq hlinks
  · intro i hi
    obtain ⟨x, hx, rfl⟩ := List.mem_map.mp hi
    rw [hlinked.last x (by simp [hx])]
    apply hpre x hx
  · rw [hlinked.last h (by simp)]
    exact hh
  · exact htail
  · rw [List.length_append] at hlength
    omega

theorem Linked.findHole_none (hlinked : Linked s hs) (hord : Ordered hs) {start : ℕ} (hne : hs ≠ [])
    (hall : ∀ x ∈ hs, x.last < start) :
  findHole s.pktBuff start (2 ^ 16 + 1) s.firstHole = some none
  := by
  rw [hlinked.first]
  apply Defrag.findHole_none hlinked.links
  · intro i hi
    obtain ⟨x, hx, rfl⟩ := List.mem_map.mp hi
    rw [hlinked.last x hx]
    apply hall x hx
  · exact hord.tail_ne
  · intro hnil
    rw [indices_eq_nil] at hnil
    apply hne hnil
  · exact hord.length_le.trans (Nat.le_succ _)

end Defrag
