import UBoot.Lib.Memory

/-!
# Moves that reset the watchdog

`memmove_wd` of `common/image.c`, with `CONFIG_WATCHDOG`: a block is moved in chunks, from the first
one on.  If the block is moved up by less than its length, then a chunk is written over bytes that
have still to be moved.
-/

namespace Image

/-- `memmove`. -/
def memmove (m : ℕ → Byte) (dst src len : ℕ) : ℕ → Byte :=
  Memory.store m dst (Memory.read m src len)

/-- The loop of `memmove_wd`. -/
def moveChunks (chunksz : ℕ) (hpos : 0 < chunksz) (m : ℕ → Byte) (dst src len : ℕ) : ℕ → Byte :=
  if len = 0 then m
  else
    let tail := if chunksz < len then chunksz else len
    moveChunks chunksz hpos (memmove m dst src tail) (dst + tail) (src + tail) (len - tail)
termination_by len
decreasing_by
  split
  · omega
  · omega

/-- `memmove_wd`. -/
def memmoveWd (m : ℕ → Byte) (dst src len chunksz : ℕ) (hpos : 0 < chunksz) : ℕ → Byte :=
  if dst = src then m else moveChunks chunksz hpos m dst src len

/-- A byte was written over with an earlier chunk before it is moved. -/
def Overwritten (dst src chunksz i : ℕ) : Prop :=
  dst ≤ src + i ∧ (src + i - dst) / chunksz < i / chunksz

instance (dst src chunksz i : ℕ) : Decidable (Overwritten dst src chunksz i) :=
  inferInstanceAs (Decidable (_ ∧ _))

/-- The condition: bytes that are written over before they are moved are written over with what
they were. -/
def Undisturbed (m : ℕ → Byte) (dst src len chunksz : ℕ) : Prop :=
  ∀ i < len, Overwritten dst src chunksz i → m (src + i) = m (src + (src + i - dst))

variable {m r : ℕ → Byte} {dst src len chunksz a i : ℕ}

theorem memmove_add (h : i < len) :
  memmove m dst src len (dst + i) = m (src + i)
  := by
  rw [memmove, Memory.store_add m dst (by rwa [Memory.length_read]), Memory.getElem_read]

theorem memmove_of_outside (h : a < dst ∨ dst + len ≤ a) :
  memmove m dst src len a = m a
  := by
  obtain h | h := h
  · apply Memory.store_of_lt _ h
  · apply Memory.store_of_le
    rwa [Memory.length_read]

/-! ### What the loop leaves -/

/-- Memory `r` is `m` after a move in chunks: a byte that was written over before it is moved is
moved as it is then. -/
structure Moved (m r : ℕ → Byte) (dst src len chunksz : ℕ) : Prop where
  inside : ∀ i < len,
    r (dst + i) = if Overwritten dst src chunksz i then r (src + i) else m (src + i)
  outside : ∀ a, a < dst ∨ dst + len ≤ a → r a = m a

/-- Nothing is written over within the first chunk. -/
theorem not_overwritten_of_lt (h : i < chunksz) :
  ¬ Overwritten dst src chunksz i
  := by
  rintro ⟨_, hlt⟩
  rw [Nat.div_eq_of_lt h] at hlt
  cases hlt

/-- The last chunk. -/
theorem moved_memmove (h : len ≤ chunksz) :
  Moved m (memmove m dst src len) dst src len chunksz
  := by
  constructor
  · intro i hi
    rw [if_neg (not_overwritten_of_lt (Nat.lt_of_lt_of_le hi h))]
    apply memmove_add hi
  · intro a ha
    apply memmove_of_outside ha

theorem overwritten_add (hpos : 0 < chunksz) :
  Overwritten (dst + chunksz) (src + chunksz) chunksz i
    ↔ Overwritten dst src chunksz (i + chunksz) ∧ dst + chunksz ≤ src + (i + chunksz)
  := by
  rw [Overwritten, Overwritten, Nat.add_div_right _ hpos]
  have hsub : src + chunksz + i - (dst + chunksz) = src + i - dst := by omega
  rw [hsub]
  constructor
  · rintro ⟨hle, hlt⟩
    have hshift : src + (i + chunksz) - dst = src + i - dst + chunksz := by omega
    refine ⟨⟨by omega, ?_⟩, by omega⟩
    rw [hshift, Nat.add_div_right _ hpos]
    exact Nat.succ_lt_succ hlt
  · rintro ⟨⟨_, hlt⟩, hle⟩
    have hshift : src + (i + chunksz) - dst = src + i - dst + chunksz := by omega
    rw [hshift, Nat.add_div_right _ hpos] at hlt
    exact ⟨by omega, Nat.lt_of_succ_lt_succ hlt⟩

/-- One chunk, and then the others. -/
theorem Moved.chunk (hpos : 0 < chunksz) (hlen : chunksz < len)
    (h : Moved (memmove m dst src chunksz) r (dst + chunksz) (src + chunksz) (len - chunksz)
      chunksz) :
  Moved m r dst src len chunksz
  := by
  have hfirst : ∀ j < chunksz, r (dst + j) = m (src + j) := by
    intro j hj
    rw [h.outside _ (.inl (by omega)), memmove_add hj]
  constructor
  · intro i hi
    by_cases hlt : i < chunksz
    · rw [if_neg (not_overwritten_of_lt hlt), hfirst i hlt]
    · obtain ⟨j, rfl⟩ := Nat.exists_eq_add_of_le' (Nat.le_of_not_lt hlt)
      have hinside := h.inside j (by omega)
      have hto : dst + chunksz + j = dst + (j + chunksz) := by omega
      have hsrc : src + chunksz + j = src + (j + chunksz) := by omega
      rw [hto, hsrc] at hinside
      rw [hinside]
      by_cases hover : Overwritten dst src chunksz (j + chunksz)
      · rw [if_pos hover]
        by_cases hle : dst + chunksz ≤ src + (j + chunksz)
        · rw [if_pos ((overwritten_add hpos).mpr ⟨hover, hle⟩)]
        · -- The byte is in the first chunk that was written.
          rw [if_neg fun hover' => hle ((overwritten_add hpos).mp hover').2]
          obtain ⟨k, hk⟩ := Nat.exists_eq_add_of_le hover.1
          rw [hk, memmove_add (by omega), hfirst k (by omega)]
      · rw [if_neg hover, if_neg fun hover' => hover ((overwritten_add hpos).mp hover').1]
        apply memmove_of_outside
        by_cases hle : dst ≤ src + (j + chunksz)
        · right
          by_contra hgt
          apply hover
          refine ⟨hle, ?_⟩
          rw [Nat.div_eq_of_lt (by omega), Nat.add_div_right _ hpos]
          exact Nat.succ_pos _
        · exact .inl (by omega)
  · intro a ha
    rw [h.outside a (by omega)]
    apply memmove_of_outside
    omega

/-- **The loop** moves the chunks one after the other. -/
theorem moved_moveChunks (hpos : 0 < chunksz) (m : ℕ → Byte) (dst src len : ℕ) :
  Moved m (moveChunks chunksz hpos m dst src len) dst src len chunksz
  := by
  induction len using Nat.strong_induction_on generalizing m dst src with
  | h len ih =>
    rw [moveChunks]
    split
    case isTrue hzero =>
      subst hzero
      exact ⟨nofun, fun _ _ => rfl⟩
    case isFalse hzero =>
      dsimp only
      split
      case isTrue hlen =>
        apply Moved.chunk hpos hlen
        apply ih
        omega
      case isFalse hlen =>
        rw [Nat.sub_self, moveChunks, if_pos rfl]
        apply moved_memmove (Nat.le_of_not_lt hlen)

/-- The byte is where an earlier one is moved. -/
theorem Overwritten.exists_lt (h : Overwritten dst src chunksz i) :
  ∃ k < i, src + i = dst + k
  := by
  obtain ⟨k, hk⟩ := Nat.exists_eq_add_of_le h.1
  refine ⟨k, ?_, hk⟩
  have hdiv := h.2
  rw [hk, Nat.add_sub_cancel_left] at hdiv
  apply Nat.lt_of_not_le
  intro hle
  exact Nat.not_lt.mpr (Nat.div_le_div_right hle) hdiv

/-- The bytes are right if what is written over stays the same. -/
theorem Moved.eq_iff (h : Moved m r dst src len chunksz) :
  r = memmove m dst src len ↔ Undisturbed m dst src len chunksz
  := by
  constructor
  · rintro rfl i hi hover
    have hinside := h.inside i hi
    rw [if_pos hover, memmove_add hi] at hinside
    obtain ⟨k, hlt, hk⟩ := hover.exists_lt
    rw [hinside, hk, memmove_add (by omega), Nat.add_sub_cancel_left]
  · intro hkeep
    have hbytes : ∀ i < len, r (dst + i) = m (src + i) := by
      intro i
      induction i using Nat.strong_induction_on with
      | h i ih =>
        intro hi
        rw [h.inside i hi]
        split
        case isTrue hover =>
          have hsame := hkeep i hi hover
          obtain ⟨k, hlt, hk⟩ := hover.exists_lt
          rw [hsame, hk, Nat.add_sub_cancel_left]
          apply ih k hlt (by omega)
        case isFalse hover => rfl
    funext a
    by_cases hin : a < dst ∨ dst + len ≤ a
    · rw [h.outside a hin, memmove_of_outside hin]
    · obtain ⟨i, rfl⟩ := Nat.exists_eq_add_of_le (Nat.le_of_not_lt fun hlt => hin (.inl hlt))
      rw [hbytes i (by omega), memmove_add (by omega)]

theorem not_overwritten_self :
  ¬ Overwritten src src chunksz i
  := by
  rintro ⟨_, hlt⟩
  rw [Nat.add_sub_cancel_left] at hlt
  exact Nat.lt_irrefl _ hlt

/-- **The result is that of one move** if and only if no byte changes before it is moved. -/
theorem memmoveWd_eq_iff (m : ℕ → Byte) (dst src len : ℕ) (hpos : 0 < chunksz) :
  memmoveWd m dst src len chunksz hpos = memmove m dst src len
    ↔ Undisturbed m dst src len chunksz
  := by
  rw [memmoveWd]
  split
  case isTrue hsame =>
    subst hsame
    apply Moved.eq_iff
    constructor
    · intro i _
      rw [if_neg not_overwritten_self]
    · exact fun _ _ => rfl
  case isFalse hne =>
    apply (moved_moveChunks hpos m dst src len).eq_iff

theorem memmoveWd_eq_iff_down :
  memmoveWd (fun a => UInt8.ofNat a) 10 12 8 3 (by decide)
    = memmove (fun a => UInt8.ofNat a) 10 12 8
  := by
  apply (memmoveWd_eq_iff _ 10 12 8 (by decide)).mpr
  rintro i _ ⟨_, hlt⟩
  exact absurd hlt (Nat.not_lt.mpr (Nat.div_le_div_right (by omega)))

/-- A block that is moved up by less than its length, and not in one chunk. -/
theorem not_memmoveWd_up :
  ¬ ∀ (m : ℕ → Byte) (dst src len chunksz : ℕ) (hpos : 0 < chunksz),
    memmoveWd m dst src len chunksz hpos = memmove m dst src len
  := by
  intro hall
  have heq := hall (fun a => if a = 0x110000 then 1 else 0) 0x100001 0x100000 0x10001 0x10000
    (by decide)
  rw [memmoveWd, if_neg (by decide)] at heq
  have hkeep := (moved_moveChunks (by decide) _ _ _ _).eq_iff.mp heq 0x10000 (by decide)
    (by decide)
  exact absurd hkeep (by decide)

/-- **For every memory**: the block is moved down, out of itself, or in one chunk. -/
theorem undisturbed_forall_iff (hpos : 0 < chunksz) :
  (∀ m, Undisturbed m dst src len chunksz) ↔ dst ≤ src ∨ src + len ≤ dst ∨ len ≤ chunksz
  := by
  constructor
  · intro hall
    by_contra hnot
    simp only [not_or, not_le] at hnot
    obtain ⟨hup, hoverlap, hlen⟩ := hnot
    have hover : Overwritten dst src chunksz (max chunksz (dst - src)) := by
      obtain hle | hle := Nat.le_total chunksz (dst - src)
      · rw [Nat.max_eq_right hle]
        refine ⟨by omega, ?_⟩
        rw [Nat.add_sub_cancel' hup.le, Nat.sub_self, Nat.zero_div]
        exact Nat.div_pos hle hpos
      · rw [Nat.max_eq_left hle]
        refine ⟨by omega, ?_⟩
        rw [Nat.div_self hpos, Nat.div_eq_of_lt (by omega)]
        exact Nat.one_pos
    have hkeep := hall (fun a => if a = src + max chunksz (dst - src) then 1 else 0) _ (by omega)
      hover
    dsimp only at hkeep
    rw [if_pos rfl, if_neg (by omega)] at hkeep
    exact absurd hkeep (by decide)
  · rintro (hdown | hout | hone) m i hi hover
    · obtain ⟨k, hlt, hk⟩ := hover.exists_lt
      omega
    · obtain ⟨k, hlt, hk⟩ := hover.exists_lt
      omega
    · exact absurd hover (not_overwritten_of_lt (Nat.lt_of_lt_of_le hi hone))

end Image
