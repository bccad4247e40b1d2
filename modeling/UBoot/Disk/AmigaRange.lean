import UBoot.Disk.AmigaList

/-!
# The ranges of Amiga partitions

`get_partition_info_amiga` counts down along the list.  It finds the partitions from 1 to their
number, and no others, but reports each of them one block too small.
-/

namespace PartAmiga

open Boota

/-! ### The list -/

/-- The good partition blocks of a list, which ends at its end mark or at a block that is not a
partition block. -/
inductive Partitions (d : Disk) (buffer : ℕ → Byte) : Word → List (ℕ → Byte) → Prop where
  | stop {n : Word} (hstop : n = noBlock ∨ ∀ image, imageAt d buffer n = some image →
      blockId image ≠ amigaIdPart) : Partitions d buffer n []
  | next {n : Word} {image : ℕ → Byte} {ps : List (ℕ → Byte)} (hblock : n ≠ noBlock)
      (hgood : GoodAt d amigaIdPart buffer n image) (hfits : Fits image)
      (hrest : Partitions d buffer (nextBlock image) ps) : Partitions d buffer n (image :: ps)

/-- The member of a list that is left after a countdown. -/
def nth (ps : List (ℕ → Byte)) (partnum : ℤ) : Option (ℕ → Byte) :=
  if 0 ≤ partnum then ps[partnum.toNat]? else none

@[simp] theorem nth_nil (partnum : ℤ) :
  nth [] partnum = none
  := ite_self none

@[simp] theorem nth_zero (p : ℕ → Byte) (ps : List (ℕ → Byte)) :
  nth (p :: ps) 0 = some p
  := rfl

theorem nth_cons {partnum : ℤ} (p : ℕ → Byte) (ps : List (ℕ → Byte)) (h : partnum ≠ 0) :
  nth (p :: ps) partnum = nth ps (partnum - 1)
  := by
  obtain hneg | hpos := lt_or_gt_of_ne h
  · have hneg' : partnum - 1 < 0 := Int.sub_one_lt_of_le hneg.le
    rw [nth, nth, if_neg (not_le.mpr hneg), if_neg (not_le.mpr hneg')]
  · have hle : 0 ≤ partnum - 1 := Int.le_sub_one_of_lt hpos
    have htoNat : partnum.toNat = (partnum - 1).toNat + 1 := by omega
    rw [nth, nth, if_pos hpos.le, if_pos hle, htoNat, List.getElem?_cons_succ]

theorem isSome_nth {ps : List (ℕ → Byte)} {partnum : ℤ} :
  (nth ps partnum).isSome ↔ 0 ≤ partnum ∧ partnum < ps.length
  := by
  rw [nth]
  split
  case isTrue h =>
    rw [isSome_getElem?]
    omega
  case isFalse h => exact iff_of_false nofun fun hin => h hin.1

/-! ### The partition that is found -/

section Found

variable {d : Disk} {limit : ℕ} {buffer buf rdb : ℕ → Byte} {n : Word} {ps : List (ℕ → Byte)}
  {partnum p : ℤ}

/-- The countdown stops at the partition of that number. -/
theorem follow_countdown (h : Partitions d buffer n ps) (hlike : Alike d buf buffer) :
  ∃ fuel r, follow d countdown fuel n buf partnum = some (.ok r)
    ∧ r.1.getRight? = nth ps partnum
  := by
  induction h generalizing buf partnum with
  | @stop n hstop =>
    obtain rfl | hblock := eq_or_ne n noBlock
    · exact ⟨1, _, follow_noBlock buf partnum, (nth_nil partnum).symm⟩
    have hother := hstop.resolve_left hblock
    rw [← imageAt_of_alike hlike] at hother
    cases himage : imageAt d buf n with
    | none =>
      exact ⟨2, _, (follow_ends hblock (visit_none himage)).trans (follow_noBlock buf partnum),
        (nth_nil partnum).symm⟩
    | some image =>
      have hvisit := visit_other himage (hother image himage)
      exact ⟨2, _, (follow_ends hblock hvisit).trans (follow_noBlock image partnum),
        (nth_nil partnum).symm⟩
  | @next n image ps hblock hgood hfits _ ih =>
    obtain ⟨himage, hid, hsum⟩ := hgood
    have halike := alike_imageAt himage
    rw [← imageAt_of_alike hlike] at himage
    have hvisit := visit_good himage hid hfits hsum
    by_cases hzero : partnum = 0
    · subst hzero
      exact ⟨1, _, follow_inr hblock hvisit (if_pos rfl), rfl⟩
    · obtain ⟨fuel, r, hr, hfound⟩ := @ih image (partnum - 1) halike
      use fuel + 1, r, (follow_inl hblock hvisit (if_neg hzero)).trans hr
      rw [hfound, nth_cons image ps hzero]

/-- **What is reported** for a number is the partition of that number, or that there is none. -/
theorem getPartitionInfoAmiga_spec (hrdb : FirstGood d amigaIdRdisk buffer 0 limit rdb)
    (hscan : ScanFits d amigaIdRdisk buffer 0 limit)
    (hps : Partitions d buffer (partitionList rdb) ps) :
  ∃ fuel, getPartitionInfoAmiga d limit buffer p fuel
    = some (.ok ((nth ps (p - 1)).map (partitionInfo rdb)))
  := by
  obtain ⟨found, buf, hrdisk, hlike, hfound⟩ :=
    (@scan_spec _ _ buffer _ _ _ (fun _ _ => rfl)).2 hscan
  obtain rfl := (hfound rdb).mpr hrdb
  obtain ⟨fuel, r, hr, hnth⟩ := @follow_countdown _ _ _ _ _ (p - 1) hps hlike
  use fuel
  rw [getPartitionInfoAmiga, findPartition, getRdisk, hrdisk]
  dsimp only
  rw [hr, ← hnth]
  change some (Except.ok ((r.1.getRight?.map _).map _)) = _
  rw [Option.map_map]
  rfl

end Found

/-! ### Sizes -/

/-- The number of blocks from the first cylinder to the last one. -/
def Geometry.blocks (g : Geometry) : Word :=
  (g.highCyl - g.lowCyl + 1) * g.blockPerTrack * g.surfaces

theorem Geometry.size_ne_blocks (g : Geometry) :
  g.size ≠ g.blocks
  := by
  intro h
  have hone : (1 : Word) = 0 := by
    calc (1 : Word) = g.blocks - g.size := by
          rw [Geometry.size, Geometry.blocks]
          ring
      _ = 0 := sub_eq_zero.mpr h.symm
  exact absurd hone (by decide)

/-- Between partitions on consecutive cylinders a block is left out. -/
theorem Geometry.start_add_size {g g' : Geometry} (hcyl : g'.lowCyl = g.highCyl + 1)
    (htrack : g'.blockPerTrack = g.blockPerTrack) (hsurfaces : g'.surfaces = g.surfaces) :
  g.start + g.size + 1 = g'.start
  := by
  rw [Geometry.start, Geometry.start, Geometry.size, hcyl, htrack, hsurfaces]
  ring

/-- The function succeeds for exactly the numbers of the partitions, and reports their ranges. -/
def Reports (d : Disk) (limit : ℕ) (buffer : ℕ → Byte) (ps : List (ℕ → Byte)) (p : ℤ) : Prop :=
  ∃ fuel r, getPartitionInfoAmiga d limit buffer p fuel = some (.ok r)
    ∧ (r.isSome ↔ 1 ≤ p ∧ p ≤ ps.length)
    ∧ ∀ info, r = some info → ∃ image, nth ps (p - 1) = some image
      ∧ info.start = (geometry image).start ∧ info.size = (geometry image).blocks

section Ranges

variable {d : Disk} {limit : ℕ} {buffer rdb : ℕ → Byte} {ps : List (ℕ → Byte)} {p : ℤ}

theorem follow_succ {σ ρ : Type} {onGood : σ → (ℕ → Byte) → σ ⊕ ρ} {fuel : ℕ} {block : Word}
    {buf : ℕ → Byte} {s : σ} {r : Except Fault ((σ ⊕ ρ) × (ℕ → Byte))}
    (h : follow d onGood fuel block buf s = some r) :
  follow d onGood (fuel + 1) block buf s = some r
  := by
  induction fuel generalizing block buf s with
  | zero => cases h
  | succ fuel ih =>
    rw [follow] at h ⊢
    split at h
    · rwa [if_pos ‹_›]
    rw [if_neg ‹_›]
    cases hvisit : visit d block buf with
    | error e =>
      rw [hvisit] at h
      exact h
    | ok v =>
      rw [hvisit] at h
      cases v with
      | ends b => exact ih h
      | bad b => exact ih h
      | good b =>
        dsimp only at h ⊢
        cases hs : onGood s b with
        | inl s' =>
          rw [hs] at h
          exact ih h
        | inr r =>
          rw [hs] at h
          exact h

/-- More fuel does not change what is returned. -/
theorem getPartitionInfoAmiga_mono {m n : ℕ} (hmn : m ≤ n) {r : Except Fault (Option PartitionInfo)}
    (h : getPartitionInfoAmiga d limit buffer p m = some r) :
  getPartitionInfoAmiga d limit buffer p n = some r
  := by
  induction hmn with
  | refl => exact h
  | step _ ih =>
    rw [getPartitionInfoAmiga, findPartition] at ih ⊢
    cases hrdisk : getRdisk d limit buffer with
    | error e =>
      rw [hrdisk] at ih
      exact ih
    | ok found =>
      rw [hrdisk] at ih
      obtain ⟨rdb, buf⟩ := found
      cases rdb with
      | none => exact ih
      | some rdb =>
        dsimp only at ih ⊢
        rw [Option.map_map, Option.map_eq_some_iff] at ih ⊢
        obtain ⟨q, hq, hr⟩ := ih
        exact ⟨q, follow_succ hq, hr⟩

/-- What the function returns is what it returns with any fuel that is enough. -/
theorem getPartitionInfoAmiga_unique {m n : ℕ} {r r' : Except Fault (Option PartitionInfo)}
    (h : getPartitionInfoAmiga d limit buffer p m = some r)
    (h' : getPartitionInfoAmiga d limit buffer p n = some r') :
  r = r'
  := by
  apply Option.some.inj
  rw [← getPartitionInfoAmiga_mono (Nat.le_max_left m n) h,
    ← getPartitionInfoAmiga_mono (Nat.le_max_right m n) h']

theorem isSome_nth_pred :
  (nth ps (p - 1)).isSome ↔ 1 ≤ p ∧ p ≤ ps.length
  := by
  rw [isSome_nth]
  omega

/-- The size that is reported for a partition is not its size. -/
theorem not_of_reports (hrdb : FirstGood d amigaIdRdisk buffer 0 limit rdb)
    (hscan : ScanFits d amigaIdRdisk buffer 0 limit)
    (hps : Partitions d buffer (partitionList rdb) ps) (h : Reports d limit buffer ps p) :
  ¬ (1 ≤ p ∧ p ≤ ps.length)
  := by
  intro hp
  obtain ⟨fuel, hspec⟩ := @getPartitionInfoAmiga_spec _ _ _ _ _ p hrdb hscan hps
  obtain ⟨fuel', r, hr, _, hrange⟩ := h
  obtain rfl := Except.ok.inj (getPartitionInfoAmiga_unique hr hspec)
  obtain ⟨image, himage⟩ := Option.isSome_iff_exists.mp (isSome_nth_pred.mpr hp)
  obtain ⟨image', himage', _, hsize⟩ := hrange (partitionInfo rdb image) (by rw [himage]; rfl)
  obtain rfl := Option.some.inj (himage.symm.trans himage')
  exact (geometry image).size_ne_blocks hsize

/-- **The range** of no partition is reported, while all other numbers are refused, as they should
be. -/
theorem reports_iff_outside (hrdb : FirstGood d amigaIdRdisk buffer 0 limit rdb)
    (hps : Partitions d buffer (partitionList rdb) ps) :
  Reports d limit buffer ps p
    ↔ ScanFits d amigaIdRdisk buffer 0 limit ∧ ¬ (1 ≤ p ∧ p ≤ ps.length)
  := by
  constructor
  · intro h
    by_cases hscan : ScanFits d amigaIdRdisk buffer 0 limit
    · exact ⟨hscan, not_of_reports hrdb hscan hps h⟩
    · obtain ⟨fuel, r, hr, _⟩ := h
      rw [getPartitionInfoAmiga, findPartition, getRdisk,
        (scan_spec (fun _ _ => rfl)).1 hscan] at hr
      cases hr
  · rintro ⟨hscan, hp⟩
    obtain ⟨fuel, hspec⟩ := @getPartitionInfoAmiga_spec _ _ _ _ _ p hrdb hscan hps
    have hnone : nth ps (p - 1) = none := by
      rwa [← isSome_nth_pred, Option.not_isSome_iff_eq_none] at hp
    rw [hnone] at hspec
    exact ⟨fuel, none, hspec, iff_of_false Bool.false_ne_true hp,
      fun _ hinfo => absurd hinfo (Option.not_mem_none _)⟩

end Ranges

/-! ### A disk with a partition -/

/-- A partition from cylinder 2 to cylinder 4, of 2 surfaces with 8 blocks on each track. -/
def onePartition : List Word :=
  [amigaIdPart, 64, 0xafbead5d, 0, noBlock] ++ List.replicate 30 0 ++ [2, 0, 8, 0, 0, 0, 2, 4]

/-- A disk with that partition. -/
def oneDisk : Disk :=
  diskOf [[amigaIdRdisk, 8, 0xadbbaaac, 0, 512, 0, 0, 1], onePartition]

/-- The rigid disk block is good. -/
theorem goodAt_oneDisk :
  GoodAt oneDisk amigaIdRdisk (fun _ => 0) 0
    (Memory.store (fun _ => 0) 0 (sector [amigaIdRdisk, 8, 0xadbbaaac, 0, 512, 0, 0, 1]))
  := by
  refine ⟨rfl, long_sector _ _ (by decide), ?_⟩
  rw [checksum_sector (n := 8) _ rfl (by decide)]
  decide

/-- The rigid disk block. -/
theorem firstGood_oneDisk :
  FirstGood oneDisk amigaIdRdisk (fun _ => 0) 0 amigaBlockLimit
    (Memory.store (fun _ => 0) 0 (sector [amigaIdRdisk, 8, 0xadbbaaac, 0, 512, 0, 0, 1]))
  := ⟨0, Nat.succ_pos 15, goodAt_oneDisk, fun _ hj => absurd hj (Nat.not_lt_zero _)⟩

/-- The list. -/
theorem partitions_oneDisk :
  Partitions oneDisk (fun _ => 0)
    (partitionList
      (Memory.store (fun _ => 0) 0 (sector [amigaIdRdisk, 8, 0xadbbaaac, 0, 512, 0, 0, 1])))
    [Memory.store (fun _ => 0) 0 (sector onePartition)]
  := by
  have hlist : partitionList (Memory.store (fun _ => 0) 0
      (sector [amigaIdRdisk, 8, 0xadbbaaac, 0, 512, 0, 0, 1])) = 1 :=
    long_sector _ _ (by decide)
  have hnext : nextBlock (Memory.store (fun _ => 0) 0 (sector onePartition)) = noBlock :=
    long_sector _ _ (by decide)
  have hgood : GoodAt oneDisk amigaIdPart (fun _ => 0) 1
      (Memory.store (fun _ => 0) 0 (sector onePartition)) := by
    refine ⟨rfl, long_sector _ _ (by decide), ?_⟩
    rw [checksum_sector (n := 64) _ rfl (by decide)]
    decide +kernel
  have hfits : Fits (Memory.store (fun _ => 0) 0 (sector onePartition)) := by
    unfold Fits summedLongs
    rw [long_sector _ _ (by decide)]
    decide
  rw [hlist]
  apply Partitions.next (by decide) hgood hfits
  exact .stop (.inl hnext)

theorem scanFits_oneDisk :
  ScanFits oneDisk amigaIdRdisk (fun _ => 0) 0 amigaBlockLimit
  := by
  rw [amigaBlockLimit, scanFits_succ]
  refine ⟨?_, fun hbad => absurd goodAt_oneDisk (hbad _)⟩
  intro image himage _
  rw [← Option.some.inj (goodAt_oneDisk.1.symm.trans himage)]
  unfold Fits summedLongs
  rw [long_sector _ _ (by decide)]
  decide

/-- The numbers 0 and 2 are refused. -/
theorem reports_oneDisk :
  Reports oneDisk amigaBlockLimit (fun _ => 0)
      [Memory.store (fun _ => 0) 0 (sector onePartition)] 0
    ∧ Reports oneDisk amigaBlockLimit (fun _ => 0)
      [Memory.store (fun _ => 0) 0 (sector onePartition)] 2
  := ⟨(reports_iff_outside firstGood_oneDisk partitions_oneDisk).mpr
      ⟨scanFits_oneDisk, by decide⟩,
    (reports_iff_outside firstGood_oneDisk partitions_oneDisk).mpr
      ⟨scanFits_oneDisk, by decide⟩⟩

theorem not_reports_oneDisk :
  ¬ ∀ (d : Disk) (limit : ℕ) (buffer rdb : ℕ → Byte) (ps : List (ℕ → Byte)) (p : ℤ),
    FirstGood d amigaIdRdisk buffer 0 limit rdb → ScanFits d amigaIdRdisk buffer 0 limit →
    Partitions d buffer (partitionList rdb) ps → Reports d limit buffer ps p
  := by
  intro h
  apply not_of_reports firstGood_oneDisk scanFits_oneDisk partitions_oneDisk
    (h _ _ _ _ _ 1 firstGood_oneDisk scanFits_oneDisk partitions_oneDisk)
  decide

end PartAmiga
