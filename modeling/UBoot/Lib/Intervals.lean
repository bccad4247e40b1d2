import Mathlib.Tactic
import Mathlib.Order.CompletePartialOrder
import Mathlib.Order.Interval.Set.LinearOrder

/-!
# Separated lists of intervals

A finite union of half-open intervals, kept as a list of its components from left to
right: no component is empty, and each ends before the next one begins.  `cover ℓ` is the
union.  An interval that is disjoint from the cover has its place between two components
(`Separated.exists_split`), where it can be inserted (`Separated.insert`).
-/

namespace Intervals

variable {α : Type*} [LinearOrder α] {ℓ ℓ₁ ℓ₂ : List (α × α)} {lo hi : α} {p : α × α}

/-- The components are not empty, and each ends before the next one begins. -/
structure Separated (ℓ : List (α × α)) : Prop where
  nonempty : ∀ p ∈ ℓ, p.1 < p.2
  pairwise : ℓ.Pairwise fun p q => p.2 < q.1

/-- The union of the intervals. -/
def cover (ℓ : List (α × α)) : Set α := {a | ∃ p ∈ ℓ, a ∈ Set.Ico p.1 p.2}

@[simp]
theorem cover_nil :
  cover ([] : List (α × α)) = ∅
  := by
  simp [cover]

@[simp]
theorem cover_cons :
  cover (p :: ℓ) = Set.Ico p.1 p.2 ∪ cover ℓ
  := by
  ext a
  simp [cover]

@[simp]
theorem cover_append :
  cover (ℓ₁ ++ ℓ₂) = cover ℓ₁ ∪ cover ℓ₂
  := by
  ext a
  simp only [cover, List.mem_append, Set.mem_ofPred_eq, Set.mem_union, or_and_right, exists_or]

theorem Ico_subset_cover (h : p ∈ ℓ) :
  Set.Ico p.1 p.2 ⊆ cover ℓ
  := fun _ ha => ⟨p, h, ha⟩

theorem separated_nil :
  Separated ([] : List (α × α))
  := ⟨by simp, List.Pairwise.nil⟩

theorem separated_singleton (h : lo < hi) :
  Separated [(lo, hi)]
  := ⟨by simpa using h, List.pairwise_singleton _ _⟩

theorem separated_append :
  Separated (ℓ₁ ++ ℓ₂)
    ↔ Separated ℓ₁ ∧ Separated ℓ₂ ∧ ∀ p ∈ ℓ₁, ∀ q ∈ ℓ₂, p.2 < q.1
  := by
  constructor
  · intro ⟨hne, hpw⟩
    rw [List.pairwise_append] at hpw
    simp only [List.mem_append] at hne
    exact ⟨⟨fun p hp => hne p (.inl hp), hpw.1⟩, ⟨fun p hp => hne p (.inr hp), hpw.2.1⟩, hpw.2.2⟩
  · intro ⟨h₁, h₂, h⟩
    constructor
    · intro p hp
      rcases List.mem_append.mp hp with hp | hp
      · apply h₁.nonempty p hp
      · apply h₂.nonempty p hp
    · apply List.pairwise_append.mpr ⟨h₁.pairwise, h₂.pairwise, h⟩

theorem separated_cons :
  Separated (p :: ℓ) ↔ p.1 < p.2 ∧ Separated ℓ ∧ ∀ q ∈ ℓ, p.2 < q.1
  := by
  rw [← List.singleton_append, separated_append]
  simp only [List.mem_singleton, forall_eq]
  constructor
  · intro ⟨hp, hℓ, h⟩
    exact ⟨hp.nonempty p (by simp), hℓ, h⟩
  · intro ⟨hp, hℓ, h⟩
    exact ⟨separated_singleton hp, hℓ, h⟩

/-- Every component but one. -/
theorem Separated.erase (h : Separated (ℓ₁ ++ p :: ℓ₂)) :
  Separated (ℓ₁ ++ ℓ₂)
  := by
  rw [separated_append, separated_cons] at h
  rw [separated_append]
  exact ⟨h.1, h.2.1.2.1, fun q hq r hr => h.2.2 q hq r (List.mem_cons_of_mem p hr)⟩

/-- An interval between two parts that it does not touch. -/
theorem Separated.insert (h : Separated (ℓ₁ ++ ℓ₂)) (hlt : lo < hi) (h₁ : ∀ p ∈ ℓ₁, p.2 < lo)
    (h₂ : ∀ p ∈ ℓ₂, hi < p.1) :
  Separated (ℓ₁ ++ (lo, hi) :: ℓ₂)
  := by
  rw [separated_append] at h
  rw [separated_append, separated_cons]
  refine ⟨h.1, ⟨hlt, h.2.1, h₂⟩, ?_⟩
  intro p hp q hq
  rcases List.mem_cons.mp hq with rfl | hq
  · apply h₁ p hp
  · apply h.2.2 p hp q hq

/-- The place of an interval that is disjoint from all components. -/
theorem Separated.exists_split (h : Separated ℓ) (hlt : lo < hi)
    (hdisj : Disjoint (Set.Ico lo hi) (cover ℓ)) :
  ∃ ℓ₁ ℓ₂, ℓ = ℓ₁ ++ ℓ₂ ∧ (∀ p ∈ ℓ₁, p.2 ≤ lo) ∧ ∀ p ∈ ℓ₂, hi ≤ p.1
  := by
  induction ℓ with
  | nil => exact ⟨[], [], rfl, by simp, by simp⟩
  | cons p ℓ ih =>
    rw [cover_cons, Set.disjoint_union_right] at hdisj
    rw [separated_cons] at h
    rcases le_or_gt p.2 lo with hp | hp
    · obtain ⟨ℓ₁, ℓ₂, rfl, h₁, h₂⟩ := ih h.2.1 hdisj.2
      refine ⟨p :: ℓ₁, ℓ₂, rfl, ?_, h₂⟩
      intro q hq
      rcases List.mem_cons.mp hq with rfl | hq
      · apply hp
      · apply h₁ q hq
    · -- the first component ends behind `lo`, so it begins behind `hi`
      have hp' : hi ≤ p.1 := by
        by_contra hcon
        apply Set.disjoint_left.mp hdisj.1 (Set.mem_Ico.mpr ⟨le_max_left lo p.1, _⟩)
          (Set.mem_Ico.mpr ⟨le_max_right lo p.1, _⟩)
        · apply max_lt hlt (not_le.mp hcon)
        · apply max_lt hp h.1
      refine ⟨[], p :: ℓ, rfl, by simp, ?_⟩
      intro q hq
      rcases List.mem_cons.mp hq with rfl | hq
      · apply hp'
      · apply le_of_lt (lt_of_le_of_lt hp' (lt_trans h.1 (h.2.2 q hq)))

/-! ### Adding an interval -/

/-- The component that ends at `lo`, if there is one. -/
def endsAt (lo : α) : Option α → List (α × α)
  | none => []
  | some a => [(a, lo)]

/-- The component that begins at `hi`, if there is one. -/
def startsAt (hi : α) : Option α → List (α × α)
  | none => []
  | some b => [(hi, b)]

theorem Separated.exists_endsAt (h : Separated ℓ) (hle : ∀ p ∈ ℓ, p.2 ≤ lo) :
  ∃ ℓ₁ L, ℓ = ℓ₁ ++ endsAt lo L ∧ ∀ p ∈ ℓ₁, p.2 < lo
  := by
  induction ℓ using List.reverseRecOn with
  | nil => exact ⟨[], none, rfl, by simp⟩
  | append_singleton ℓ p _ =>
    rw [separated_append, separated_cons] at h
    have hℓ : ∀ q ∈ ℓ, q.2 < p.2 := fun q hq => lt_trans (h.2.2 q hq p (by simp)) h.2.1.1
    have hp : p.2 ≤ lo := hle p (by simp)
    rcases hp.lt_or_eq with hlt | rfl
    · refine ⟨ℓ ++ [p], none, by simp [endsAt], ?_⟩
      intro q hq
      rcases List.mem_append.mp hq with hq | hq
      · apply lt_trans (hℓ q hq) hlt
      · rw [List.mem_singleton.mp hq]
        apply hlt
    · exact ⟨ℓ, some p.1, rfl, hℓ⟩

theorem Separated.exists_startsAt (h : Separated ℓ) (hle : ∀ p ∈ ℓ, hi ≤ p.1) :
  ∃ R ℓ₂, ℓ = startsAt hi R ++ ℓ₂ ∧ ∀ p ∈ ℓ₂, hi < p.1
  := by
  cases ℓ with
  | nil => exact ⟨none, [], rfl, by simp⟩
  | cons p ℓ =>
    rw [separated_cons] at h
    have hℓ : ∀ q ∈ ℓ, p.1 < q.1 := fun q hq => lt_trans h.1 (h.2.2 q hq)
    have hp : hi ≤ p.1 := hle p (by simp)
    rcases hp.lt_or_eq with hlt | rfl
    · refine ⟨none, p :: ℓ, rfl, ?_⟩
      intro q hq
      rcases List.mem_cons.mp hq with rfl | hq
      · apply hlt
      · apply lt_trans hlt (hℓ q hq)
    · exact ⟨some p.2, ℓ, rfl, hℓ⟩

/-- The place of an interval that is disjoint from all components: at most one of them ends
where it begins, and at most one begins where it ends. -/
theorem Separated.exists_place (h : Separated ℓ) (hlt : lo < hi)
    (hdisj : Disjoint (Set.Ico lo hi) (cover ℓ)) :
  ∃ ℓ₁ L R ℓ₂, ℓ = ℓ₁ ++ endsAt lo L ++ (startsAt hi R ++ ℓ₂)
    ∧ (∀ p ∈ ℓ₁, p.2 < lo) ∧ ∀ p ∈ ℓ₂, hi < p.1
  := by
  obtain ⟨ℓ₁, ℓ₂, rfl, h₁, h₂⟩ := h.exists_split hlt hdisj
  rw [separated_append] at h
  obtain ⟨ℓ₁, L, rfl, hL⟩ := h.1.exists_endsAt h₁
  obtain ⟨R, ℓ₂, rfl, hR⟩ := h.2.1.exists_startsAt h₂
  exact ⟨ℓ₁, L, R, ℓ₂, rfl, hL, hR⟩

/-- Adding the interval joins it with the components that it touches. -/
theorem Separated.join {L R : Option α}
    (h : Separated (ℓ₁ ++ endsAt lo L ++ (startsAt hi R ++ ℓ₂))) (hlt : lo < hi)
    (h₁ : ∀ p ∈ ℓ₁, p.2 < lo) (h₂ : ∀ p ∈ ℓ₂, hi < p.1) :
  Separated (ℓ₁ ++ (L.getD lo, R.getD hi) :: ℓ₂)
  := by
  rw [separated_append, separated_append, separated_append] at h
  obtain ⟨⟨hℓ₁, hL, h₁L⟩, ⟨hR, hℓ₂, hR₂⟩, h₁₂⟩ := h
  have hl : L.getD lo ≤ lo ∧ ∀ p ∈ ℓ₁, p.2 < L.getD lo := by
    cases L with
    | none => exact ⟨le_refl lo, h₁⟩
    | some a =>
      have ha : (a, lo) ∈ endsAt lo (some a) := by simp [endsAt]
      exact ⟨(hL.nonempty _ ha).le, fun p hp => h₁L p hp _ ha⟩
  have hr : hi ≤ R.getD hi ∧ ∀ p ∈ ℓ₂, R.getD hi < p.1 := by
    cases R with
    | none => exact ⟨le_refl hi, h₂⟩
    | some b =>
      have hb : (hi, b) ∈ startsAt hi (some b) := by simp [startsAt]
      exact ⟨(hR.nonempty _ hb).le, fun p hp => hR₂ _ hb p hp⟩
  apply Separated.insert
  · rw [separated_append]
    exact ⟨hℓ₁, hℓ₂, fun p hp q hq => h₁₂ p (by simp [hp]) q (by simp [hq])⟩
  · apply lt_of_le_of_lt hl.1 (lt_of_lt_of_le hlt hr.1)
  · apply hl.2
  · apply hr.2

theorem Separated.cover_join {L R : Option α}
    (h : Separated (ℓ₁ ++ endsAt lo L ++ (startsAt hi R ++ ℓ₂))) (hlt : lo < hi) :
  cover (ℓ₁ ++ (L.getD lo, R.getD hi) :: ℓ₂)
    = cover (ℓ₁ ++ endsAt lo L ++ (startsAt hi R ++ ℓ₂)) ∪ Set.Ico lo hi
  := by
  rw [separated_append, separated_append, separated_append] at h
  have hL : Set.Ico (L.getD lo) hi = cover (endsAt lo L) ∪ Set.Ico lo hi := by
    cases L with
    | none => simp [endsAt]
    | some a =>
      have ha : a < lo := h.1.2.1.nonempty (a, lo) (by simp [endsAt])
      simp only [Option.getD_some, endsAt, cover_cons, cover_nil, Set.union_empty]
      rw [Set.Ico_union_Ico_eq_Ico ha.le hlt.le]
  have hl : L.getD lo ≤ hi := by
    cases L with
    | none => apply hlt.le
    | some a => apply (lt_trans (h.1.2.1.nonempty (a, lo) (by simp [endsAt])) hlt).le
  have hR : Set.Ico (L.getD lo) (R.getD hi) = Set.Ico (L.getD lo) hi ∪ cover (startsAt hi R) := by
    cases R with
    | none => simp [startsAt]
    | some b =>
      have hb : hi < b := h.2.1.1.nonempty (hi, b) (by simp [startsAt])
      simp only [Option.getD_some, startsAt, cover_cons, cover_nil, Set.union_empty]
      rw [Set.Ico_union_Ico_eq_Ico hl hb.le]
  simp only [cover_append, cover_cons, hR, hL]
  ext a
  simp only [Set.mem_union]
  tauto

/-! ### Removing an interval -/

/-- A part of a component in its place. -/
theorem Separated.shrink (h : Separated (ℓ₁ ++ p :: ℓ₂)) (hlt : lo < hi) (hlo : p.1 ≤ lo)
    (hhi : hi ≤ p.2) :
  Separated (ℓ₁ ++ (lo, hi) :: ℓ₂)
  := by
  have h' := h
  rw [separated_append, separated_cons] at h'
  apply h.erase.insert hlt
  · intro q hq
    apply lt_of_lt_of_le (h'.2.2 q hq p (by simp)) hlo
  · intro q hq
    apply lt_of_le_of_lt hhi (h'.2.1.2.2 q hq)

/-- Two components have no element in common. -/
theorem Separated.disjoint (h : Separated (ℓ₁ ++ p :: ℓ₂)) :
  Disjoint (Set.Ico p.1 p.2) (cover (ℓ₁ ++ ℓ₂))
  := by
  rw [separated_append, separated_cons] at h
  rw [Set.disjoint_left]
  rintro a ha ⟨q, hq, haq⟩
  rw [Set.mem_Ico] at ha haq
  rcases List.mem_append.mp hq with hq | hq
  · have := h.2.2 q hq p (by simp)
    apply absurd (lt_trans haq.2 this) (not_lt.mpr ha.1)
  · have := h.2.1.2.2 q hq
    apply absurd (lt_trans ha.2 this) (not_lt.mpr haq.1)

/-- The end of a component does not meet the rest, with the component cut off before it. -/
theorem Separated.disjoint_upper (h : Separated (ℓ₁ ++ p :: ℓ₂)) (hlo : p.1 ≤ lo) (hle : lo ≤ hi) :
  Disjoint (Set.Ico hi p.2) (cover (ℓ₁ ++ (p.1, lo) :: ℓ₂))
  := by
  have hdisj := h.disjoint
  rw [cover_append, Set.disjoint_union_right] at hdisj
  have hsub : Set.Ico hi p.2 ⊆ Set.Ico p.1 p.2 := Set.Ico_subset_Ico_left (le_trans hlo hle)
  rw [cover_append, cover_cons, Set.disjoint_union_right, Set.disjoint_union_right]
  refine ⟨hdisj.1.mono_left hsub, ?_, hdisj.2.mono_left hsub⟩
  rw [Set.disjoint_left]
  intro a ha ha'
  apply absurd (lt_of_lt_of_le ha'.2 hle) (not_lt.mpr ha.1)

/-- Removing a part of one component leaves what is on either side of it. -/
theorem Separated.cover_sdiff (h : Separated (ℓ₁ ++ p :: ℓ₂)) (hlo : p.1 ≤ lo) (hhi : hi ≤ p.2)
    (hle : lo ≤ hi) :
  cover (ℓ₁ ++ p :: ℓ₂) \ Set.Ico lo hi
    = cover ℓ₁ ∪ (Set.Ico p.1 lo ∪ (Set.Ico hi p.2 ∪ cover ℓ₂))
  := by
  have hdisj := Set.disjoint_left.mp h.disjoint
  simp only [cover_append, Set.mem_union] at hdisj
  have hp : Set.Ico p.1 p.2 = Set.Ico p.1 lo ∪ (Set.Ico lo hi ∪ Set.Ico hi p.2) := by
    rw [Set.Ico_union_Ico_eq_Ico hle hhi, Set.Ico_union_Ico_eq_Ico hlo (le_trans hle hhi)]
  ext a
  have ha := hdisj (a := a)
  have hmid : a ∈ Set.Ico lo hi → a ∉ Set.Ico p.1 lo ∧ a ∉ Set.Ico hi p.2 := by
    intro hmem
    exact ⟨fun hl => absurd hl.2 (not_lt.mpr hmem.1), fun hr => absurd hmem.2 (not_lt.mpr hr.1)⟩
  simp only [cover_append, cover_cons, Set.mem_sdiff, Set.mem_union]
  rw [hp] at ha ⊢
  simp only [Set.mem_union] at ha ⊢
  tauto

end Intervals
