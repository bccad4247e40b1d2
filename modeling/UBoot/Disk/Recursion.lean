import UBoot.Disk.Numbering
import UBoot.Lib.Acyclic

/-!
# Chains of tables that do not end

The listing and the lookup follow the extended partitions wherever they lead.  They come to an end
if and only if that is never back to a table from which they came.
-/

namespace PartDos

/-! ### Links -/

/-- From a table to those that `print_partition_extended` goes on with.  A table is known by its
sector and by what its extended partitions are relative to. -/
def PrintLink (d : BlockDev) (s t : Word × Word) : Prop :=
  ∃ buffer, d.blockRead s.1 = some buffer ∧ hasMagic buffer ∧ ¬ isPbr buffer
    ∧ ∃ pt ∈ table buffer, isExtended pt.sysInd
      ∧ t = (tableSector pt s.2, nextRelative s.1 pt s.2)

/-- From a table to the one that `get_partition_info_extended` goes on with: that of the first
extended partition, also if the sector looks like a boot record. -/
def LookupLink (d : BlockDev) (s t : Word × Word) : Prop :=
  ∃ buffer, d.blockRead s.1 = some buffer ∧ hasMagic buffer
    ∧ ∃ pt, (table buffer).find? (isExtended ·.sysInd) = some pt
      ∧ t = (tableSector pt s.2, nextRelative s.1 pt s.2)

/-- The listing and every lookup end, with calls that are nested no deeper than some number. -/
def Ends (d : BlockDev) : Prop :=
  ∃ depth, (printPartDos d depth).isSome ∧ ∀ part, (getPartitionInfoDos d part depth).isSome

/-- The condition: the extended partitions do not lead back to a table. -/
def NoCycle (d : BlockDev) : Prop :=
  Acyclic.From (PrintLink d) (0, 0) ∧ Acyclic.From (LookupLink d) (0, 0)

/-! ### The listing -/

section Listing

variable {d : BlockDev} {sector relative : Word} {n : ℤ} {fuel : ℕ}

theorem isSome_mapM_iff {α β : Type*} {f : α → Option β} {xs : List α} :
  (xs.mapM f).isSome ↔ ∀ x ∈ xs, (f x).isSome
  := by
  induction xs with
  | nil => exact iff_of_true rfl nofun
  | cons x xs ih =>
    rw [List.mapM_cons, List.forall_mem_cons, ← ih]
    cases f x with
    | none => exact iff_of_false nofun fun h => absurd h.1 nofun
    | some y =>
      cases xs.mapM f with
      | none => exact iff_of_false nofun fun h => absurd h.2 nofun
      | some ys => exact iff_of_true rfl ⟨rfl, rfl⟩

/-- The listing goes as deep as the links. -/
theorem isSome_print_iff :
  (printPartitionExtended d fuel sector relative n).isSome
    ↔ Acyclic.Within (PrintLink d) fuel (sector, relative)
  := by
  induction fuel generalizing sector relative n with
  | zero => exact iff_of_false Bool.false_ne_true id
  | succ fuel ih =>
    rw [printPartitionExtended, Acyclic.Within]
    cases hread : d.blockRead sector with
    | none =>
      apply iff_of_true rfl
      rintro t ⟨buffer, hbuffer, _⟩
      exact absurd (hread.symm.trans hbuffer) (Option.some_ne_none buffer).symm
    | some buffer =>
      have hlink : ∀ t, PrintLink d (sector, relative) t ↔ hasMagic buffer ∧ ¬ isPbr buffer
          ∧ ∃ pt ∈ table buffer, isExtended pt.sysInd
            ∧ t = (tableSector pt relative, nextRelative sector pt relative) := by
        intro t
        constructor
        · rintro ⟨buffer', hbuffer, h⟩
          obtain rfl := Option.some.inj (hread.symm.trans hbuffer)
          exact h
        · exact fun h => ⟨buffer, hread, h⟩
      simp only [hlink]
      by_cases hmagic : hasMagic buffer
      case neg =>
        rw [if_pos hmagic]
        exact iff_of_true rfl fun t ht => absurd ht.1 hmagic
      by_cases hpbr : isPbr buffer
      case pos =>
        rw [if_neg (not_not.mpr hmagic), if_pos hpbr]
        exact iff_of_true rfl fun t ht => absurd hpbr ht.2.1
      rw [if_neg (not_not.mpr hmagic), if_neg hpbr]
      have hreturn : ∀ {x : Option (List (List Line))} {f : List (List Line) → List Line},
          (x >>= fun lines => pure (f lines)).isSome ↔ x.isSome := by
        intro x f
        cases x with
        | none => rfl
        | some lines => rfl
      rw [hreturn, isSome_mapM_iff]
      constructor
      · rintro h _ ⟨_, _, pt, hpt, hext, rfl⟩
        apply ih.mp (h pt (List.mem_filter.mpr ⟨hpt, hext⟩))
      · intro h pt hpt
        obtain ⟨hmem, hext⟩ := List.mem_filter.mp hpt
        apply ih.mpr (h _ ⟨hmagic, hpbr, pt, hmem, hext, rfl⟩)

end Listing

/-! ### The lookup -/

section Lookup

variable {d : BlockDev} {sector relative : Word} {n which : ℤ} {fuel : ℕ}

/-- The number 0 is not found. -/
theorem findPartition_zero {pts : List DosPartition} (hn : 0 < n) :
  findPartition d sector 0 n pts = none
  := by
  induction pts generalizing n with
  | nil => rfl
  | cons pt pts ih =>
    rw [findPartition, if_neg fun h => hn.ne' h.2]
    apply ih (hn.trans_le (le_nextNum sector n pt))

/-- A lookup does not go deeper than the links. -/
theorem isSome_lookup_of_within (h : Acyclic.Within (LookupLink d) fuel (sector, relative)) :
  (getPartitionInfoExtended d which fuel sector relative n).isSome
  := by
  induction fuel generalizing sector relative n with
  | zero => cases h
  | succ fuel ih =>
    rw [getPartitionInfoExtended]
    cases hread : d.blockRead sector with
    | none => rfl
    | some buffer =>
      dsimp only
      by_cases hmagic : hasMagic buffer
      case neg =>
        rw [if_pos hmagic]
        rfl
      rw [if_neg (not_not.mpr hmagic)]
      cases hfind : findPartition d sector which n (table buffer) with
      | some info => rfl
      | none =>
        cases hext : (table buffer).find? (isExtended ·.sysInd) with
        | none => rfl
        | some pt => apply ih (h _ ⟨buffer, hread, hmagic, pt, hext, rfl⟩)

/-- The lookup of the number 0 goes as deep as the links. -/
theorem within_of_isSome_lookup (hn : 0 < n)
    (h : (getPartitionInfoExtended d 0 fuel sector relative n).isSome) :
  Acyclic.Within (LookupLink d) fuel (sector, relative)
  := by
  induction fuel generalizing sector relative n with
  | zero => cases h
  | succ fuel ih =>
    rintro _ ⟨buffer, hread, hmagic, pt, hext, rfl⟩
    rw [getPartitionInfoExtended, hread] at h
    dsimp only at h
    rw [if_neg (not_not.mpr hmagic), findPartition_zero hn, hext] at h
    apply ih _ h
    apply hn.trans_le (le_numAfter sector n _)

end Lookup

theorem noCycle_of_ends {d : BlockDev} (h : Ends d) :
  NoCycle d
  := by
  rw [NoCycle, ← Acyclic.exists_within_iff, ← Acyclic.exists_within_iff]
  obtain ⟨depth, hprint, hlookup⟩ := h
  exact ⟨⟨depth, isSome_print_iff.mp hprint⟩,
    ⟨depth, within_of_isSome_lookup Int.one_pos (hlookup 0)⟩⟩

/-- **The listing and the lookups end** if and only if the extended partitions do not lead back to a
table. -/
theorem ends_iff_noCycle (d : BlockDev) :
  Ends d ↔ NoCycle d
  := by
  constructor
  · apply noCycle_of_ends
  · rw [NoCycle, ← Acyclic.exists_within_iff, ← Acyclic.exists_within_iff]
    rintro ⟨⟨m, hprint⟩, ⟨n, hlookup⟩⟩
    use max m n
    constructor
    · apply isSome_print_iff.mpr (hprint.mono (Nat.le_max_left m n))
    · intro part
      apply isSome_lookup_of_within (hlookup.mono (Nat.le_max_right m n))

/-- A disk whose extended partition is at its beginning. -/
def loopDisk : BlockDev where
  ifType := .ide
  dev := 0
  lba := 1
  blockRead _ := some fun i =>
    if i = dosPartTblOffset + 4 then 0x05
    else if i = dosPartMagicOffset then 0x55
    else if i = dosPartMagicOffset + 1 then 0xaa
    else 0

/-- The table leads to itself. -/
theorem printLink_loopDisk :
  PrintLink loopDisk (0, 0) (0, 0)
  := ⟨_, rfl, by decide, by decide, partition _ 0, List.mem_cons_self, by decide, by decide⟩

theorem not_ends_loopDisk :
  ¬ ∀ d, Ends d
  := by
  intro h
  obtain ⟨hprint, _⟩ := noCycle_of_ends (h loopDisk)
  apply hprint (0, 0) .refl (.single printLink_loopDisk)

end PartDos
