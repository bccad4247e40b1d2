import UBoot.Disk.PartAmiga
import UBoot.Lib.Acyclic
import UBoot.Lib.Tables

/-!
# Lists of partitions that do not end

The list of partition blocks is followed wherever it leads, and a block with a wrong checksum is
read again and again.  The functions come to an end, and sum up what is in the block buffer only, if
and only if the list is in order.
-/

namespace PartAmiga

open Boota Relation

/-! ### The condition -/

/-- The block buffer after a block was read. -/
def imageAt (d : Disk) (buffer : ℕ → Byte) (n : Word) : Option (ℕ → Byte) :=
  (d.read n).map fun block => Memory.store buffer 0 block

/-- From a partition block to the one that is read next. -/
def PartLink (d : Disk) (buffer : ℕ → Byte) (n m : Word) : Prop :=
  n ≠ noBlock ∧ ∃ image, imageAt d buffer n = some image ∧ blockId image = amigaIdPart
    ∧ m = if checksum image = 0 then nextBlock image else n

/-- If there is a block with the `id`, then what it wants to be summed is in the buffer. -/
def FitsAt (d : Disk) (id : Word) (buffer : ℕ → Byte) (n : Word) : Prop :=
  ∀ image, imageAt d buffer n = some image → blockId image = id → Fits image

/-- There is a good block with the `id`. -/
def GoodAt (d : Disk) (id : Word) (buffer : ℕ → Byte) (n : Word) (image : ℕ → Byte) : Prop :=
  imageAt d buffer n = some image ∧ blockId image = id ∧ checksum image = 0

/-- The blocks with the `id` fit up to the first good one, of `n` blocks from `i` on. -/
def ScanFits (d : Disk) (id : Word) (buffer : ℕ → Byte) (i n : ℕ) : Prop :=
  ∀ k < n, (∀ j < k, ∀ image, ¬ GoodAt d id buffer (BitVec.ofNat 32 (i + j)) image) →
    FitsAt d id buffer (BitVec.ofNat 32 (i + k))

/-- The first good block with the `id`, of `n` blocks from `i` on. -/
def FirstGood (d : Disk) (id : Word) (buffer : ℕ → Byte) (i n : ℕ) (image : ℕ → Byte) : Prop :=
  ∃ k < n, GoodAt d id buffer (BitVec.ofNat 32 (i + k)) image
    ∧ ∀ j < k, ∀ image, ¬ GoodAt d id buffer (BitVec.ofNat 32 (i + j)) image

/-- The partition blocks that are reached fit. -/
def FitsFrom (d : Disk) (buffer : ℕ → Byte) (n : Word) : Prop :=
  ∀ m, ReflTransGen (PartLink d buffer) n m → m ≠ noBlock → FitsAt d amigaIdPart buffer m

/-- The condition: no block wants more to be summed than there is in the buffer, and the list of
partitions does not come back to a block, as it does for a block whose checksum is wrong. -/
def Orderly (d : Disk) (limit : ℕ) (buffer : ℕ → Byte) : Prop :=
  ScanFits d amigaIdRdisk buffer 0 limit
    ∧ ∀ rdb, FirstGood d amigaIdRdisk buffer 0 limit rdb →
      FitsFrom d buffer (partitionList rdb)
        ∧ Acyclic.From (PartLink d buffer) (partitionList rdb)
        ∧ ScanFits d amigaIdBoot buffer 0 limit

/-- The functions come to an end, for every number of a partition, and no word is read that is not
in the buffer. -/
def Ends (d : Disk) (limit : ℕ) (buffer : ℕ → Byte) : Prop :=
  (∀ partnum, ∃ fuel r, findPartition d limit buffer partnum fuel = some (.ok r))
    ∧ ∃ fuel r, printPartAmiga d limit buffer fuel = some (.ok r)

/-! ### Blocks -/

section Blocks

variable {d : Disk} {buffer buf image : ℕ → Byte} {n id : Word}

theorem imageAt_of_alike (h : Alike d buf buffer) (n : Word) :
  imageAt d buf n = imageAt d buffer n
  := by
  rw [imageAt, imageAt]
  cases hread : d.read n with
  | none => rfl
  | some block => exact congrArg some (h.store_eq (d.length_read n block hread))

theorem alike_imageAt (h : imageAt d buffer n = some image) :
  Alike d image buffer
  := by
  rw [imageAt, Option.map_eq_some_iff] at h
  obtain ⟨block, hread, rfl⟩ := h
  exact Alike.store (fun _ _ => rfl) (d.length_read n block hread)

theorem sumBlock_of_fits (h : Fits buffer) :
  sumBlock buffer = .ok (checksum buffer)
  := if_pos h

theorem sumBlock_of_not_fits (h : ¬ Fits buffer) :
  sumBlock buffer = .error .outside
  := if_neg h

/-- What a visit finds. -/
theorem visit_eq :
  visit d n buf = (imageAt d buf n).elim (.ok (.ends buf)) fun image =>
    if blockId image = amigaIdPart then
      sumBlock image >>= fun sum => if sum = 0 then .ok (.good image) else .ok (.bad image)
    else .ok (.ends image)
  := by
  rw [visit, imageAt]
  cases d.read n <;> rfl

theorem visit_none (h : imageAt d buf n = none) :
  visit d n buf = .ok (.ends buf)
  := by
  rw [visit_eq, h]
  rfl

theorem visit_other (h : imageAt d buf n = some image) (hid : blockId image ≠ amigaIdPart) :
  visit d n buf = .ok (.ends image)
  := by
  rw [visit_eq, h]
  exact if_neg hid

theorem visit_part (h : imageAt d buf n = some image) (hid : blockId image = amigaIdPart) :
  visit d n buf = sumBlock image >>= fun sum =>
    if sum = 0 then .ok (.good image) else .ok (.bad image)
  := by
  rw [visit_eq, h]
  exact if_pos hid

theorem visit_outside (h : imageAt d buf n = some image) (hid : blockId image = amigaIdPart)
    (hfits : ¬ Fits image) :
  visit d n buf = .error .outside
  := by
  rw [visit_part h hid, sumBlock_of_not_fits hfits]
  rfl

theorem visit_good (h : imageAt d buf n = some image) (hid : blockId image = amigaIdPart)
    (hfits : Fits image) (hsum : checksum image = 0) :
  visit d n buf = .ok (.good image)
  := by
  rw [visit_part h hid, sumBlock_of_fits hfits]
  exact if_pos hsum

theorem visit_bad (h : imageAt d buf n = some image) (hid : blockId image = amigaIdPart)
    (hfits : Fits image) (hsum : checksum image ≠ 0) :
  visit d n buf = .ok (.bad image)
  := by
  rw [visit_part h hid, sumBlock_of_fits hfits]
  exact if_neg hsum

end Blocks

/-! ### The scan -/

section Scan

variable {d : Disk} {buffer buf image : ℕ → Byte} {id : Word} {i n : ℕ}

theorem forall_lt_succ_shift {p : ℕ → Prop} {k : ℕ} :
  (∀ j < k + 1, p j) ↔ p 0 ∧ ∀ j < k, p (j + 1)
  := by
  constructor
  · exact fun h => ⟨h 0 (Nat.succ_pos k), fun j hj => h (j + 1) (Nat.succ_lt_succ hj)⟩
  · rintro ⟨hzero, hsucc⟩ j hj
    cases j with
    | zero => exact hzero
    | succ j => exact hsucc j (Nat.lt_of_succ_lt_succ hj)

theorem scanFits_succ :
  ScanFits d id buffer i (n + 1)
    ↔ FitsAt d id buffer (BitVec.ofNat 32 i)
      ∧ ((∀ image, ¬ GoodAt d id buffer (BitVec.ofNat 32 i) image) →
        ScanFits d id buffer (i + 1) n)
  := by
  have hshift : ∀ k, i + 1 + k = i + (k + 1) := fun k => Nat.succ_add_eq_add_succ i k
  rw [ScanFits, forall_lt_succ_shift]
  simp only [forall_lt_succ_shift, ScanFits, Nat.add_zero, hshift]
  constructor
  · rintro ⟨hzero, hsucc⟩
    exact ⟨hzero (fun _ hj => absurd hj (Nat.not_lt_zero _)),
      fun hbad k hk hbads => hsucc k hk ⟨hbad, hbads⟩⟩
  · rintro ⟨hzero, hsucc⟩
    exact ⟨fun _ => hzero, fun k hk hbads => hsucc hbads.1 k hk hbads.2⟩

theorem firstGood_succ :
  FirstGood d id buffer i (n + 1) image
    ↔ GoodAt d id buffer (BitVec.ofNat 32 i) image
      ∨ (∀ image, ¬ GoodAt d id buffer (BitVec.ofNat 32 i) image)
        ∧ FirstGood d id buffer (i + 1) n image
  := by
  have hshift : ∀ k, i + 1 + k = i + (k + 1) := fun k => Nat.succ_add_eq_add_succ i k
  constructor
  · rintro ⟨k, hk, hgood, hbads⟩
    cases k with
    | zero => exact .inl hgood
    | succ k =>
      rw [forall_lt_succ_shift] at hbads
      refine .inr ⟨hbads.1, k, Nat.lt_of_succ_lt_succ hk, ?_⟩
      simp only [hshift]
      exact ⟨hgood, hbads.2⟩
  · rintro (hgood | ⟨hbad, k, hk, hgood, hbads⟩)
    · exact ⟨0, Nat.succ_pos n, hgood, fun _ hj => absurd hj (Nat.not_lt_zero _)⟩
    · simp only [hshift] at hgood hbads
      refine ⟨k + 1, Nat.succ_lt_succ hk, hgood, ?_⟩
      rw [forall_lt_succ_shift]
      exact ⟨hbad, hbads⟩

/-- A block that is not a good one is passed over. -/
theorem scan_next {b : ℕ → Byte} (hnot : ∀ image, ¬ GoodAt d id buffer (BitVec.ofNat 32 i) image)
    (hstep : scan d id (n + 1) i buf = scan d id n (i + 1) b)
    (ih : (¬ ScanFits d id buffer (i + 1) n → scan d id n (i + 1) b = .error .outside)
      ∧ (ScanFits d id buffer (i + 1) n → ∃ r buf', scan d id n (i + 1) b = .ok (r, buf')
        ∧ Alike d buf' buffer ∧ ∀ image, r = some image ↔ FirstGood d id buffer (i + 1) n image))
    (hfits : FitsAt d id buffer (BitVec.ofNat 32 i)) :
  (¬ ScanFits d id buffer i (n + 1) → scan d id (n + 1) i buf = .error .outside)
    ∧ (ScanFits d id buffer i (n + 1) → ∃ r buf', scan d id (n + 1) i buf = .ok (r, buf')
      ∧ Alike d buf' buffer ∧ ∀ image, r = some image ↔ FirstGood d id buffer i (n + 1) image)
  := by
  simp only [scanFits_succ, firstGood_succ, hstep, hnot, hfits, true_and, false_or,
    not_false_eq_true, implies_true, true_implies]
  exact ih

/-- **The scan** finds the first good block, if no block before it wants too much to be summed. -/
theorem scan_spec (h : Alike d buf buffer) :
  (¬ ScanFits d id buffer i n → scan d id n i buf = .error .outside)
    ∧ (ScanFits d id buffer i n → ∃ r buf', scan d id n i buf = .ok (r, buf')
      ∧ Alike d buf' buffer ∧ ∀ image, r = some image ↔ FirstGood d id buffer i n image)
  := by
  induction n generalizing i buf with
  | zero =>
    have hfits : ScanFits d id buffer i 0 := fun k hk => absurd hk (Nat.not_lt_zero k)
    refine ⟨fun hnot => absurd hfits hnot, fun _ => ⟨none, buf, rfl, h, ?_⟩⟩
    intro image
    apply iff_of_false nofun
    rintro ⟨k, hk, _⟩
    exact absurd hk (Nat.not_lt_zero k)
  | succ n ih =>
    cases hread : d.read (BitVec.ofNat 32 i) with
    | none =>
      have himage : imageAt d buffer (BitVec.ofNat 32 i) = none := by
        rw [imageAt, hread]
        rfl
      apply scan_next _ _ (ih h)
      · intro image hfound
        exact absurd (himage.symm.trans hfound) nofun
      · intro image hgood
        exact absurd (himage.symm.trans hgood.1) nofun
      · rw [scan, hread]
    | some block =>
      have himage : imageAt d buffer (BitVec.ofNat 32 i)
          = some (Memory.store buffer 0 block) := by
        rw [imageAt, hread]
        rfl
      have hstore := h.store_eq (d.length_read _ block hread)
      have hnext := ih (i := i + 1) (alike_imageAt himage)
      have hscan : scan d id (n + 1) i buf
          = if blockId (Memory.store buffer 0 block) = id then do
              let sum ← sumBlock (Memory.store buffer 0 block)
              if sum = 0 then
                .ok (some (Memory.store buffer 0 block), Memory.store buffer 0 block)
              else scan d id n (i + 1) (Memory.store buffer 0 block)
            else scan d id n (i + 1) (Memory.store buffer 0 block) := by
        rw [scan, hread]
        dsimp only
        rw [hstore]
      generalize Memory.store buffer 0 block = image at himage hnext hscan
      have hsame : ∀ image', imageAt d buffer (BitVec.ofNat 32 i) = some image' → image' = image :=
        fun image' himage' => Option.some.inj (himage'.symm.trans himage)
      by_cases hid : blockId image = id
      case neg =>
        rw [if_neg hid] at hscan
        apply scan_next _ hscan hnext
        · intro image' himage' hid'
          rw [hsame image' himage'] at hid'
          exact absurd hid' hid
        · rintro image' ⟨himage', hid', _⟩
          rw [hsame image' himage'] at hid'
          exact hid hid'
      rw [if_pos hid] at hscan
      by_cases hfits : Fits image
      case neg =>
        have hnot : ¬ ScanFits d id buffer i (n + 1) := by
          rw [scanFits_succ]
          exact fun hscan => hfits (hscan.1 image himage hid)
        refine ⟨fun _ => ?_, fun hscan => absurd hscan hnot⟩
        rw [hscan, sumBlock_of_not_fits hfits]
        rfl
      have hfitsAt : FitsAt d id buffer (BitVec.ofNat 32 i) := by
        intro image' himage' _
        rwa [hsame image' himage']
      rw [sumBlock_of_fits hfits] at hscan
      by_cases hsum : checksum image = 0
      · have hgood : GoodAt d id buffer (BitVec.ofNat 32 i) image := ⟨himage, hid, hsum⟩
        have hfirst : ScanFits d id buffer i (n + 1) := by
          rw [scanFits_succ]
          exact ⟨hfitsAt, fun hbad => absurd hgood (hbad image)⟩
        refine ⟨fun hnot => absurd hfirst hnot, fun _ => ⟨some image, image, ?_, ?_, ?_⟩⟩
        · exact hscan.trans (if_pos hsum)
        · apply alike_imageAt himage
        · intro image'
          rw [firstGood_succ]
          constructor
          · rintro ⟨⟩
            exact .inl hgood
          · rintro (hgood' | ⟨hbad, _⟩)
            · rw [hsame image' hgood'.1]
            · exact absurd hgood (hbad image)
      · apply scan_next _ (hscan.trans (if_neg hsum)) hnext hfitsAt
        rintro image' ⟨himage', _, hsum'⟩
        rw [hsame image' himage'] at hsum'
        exact hsum hsum'

end Scan

/-! ### The list -/

section Follow

variable {d : Disk} {buffer buf image : ℕ → Byte} {block n : Word} {σ ρ : Type}
  {onGood : σ → (ℕ → Byte) → σ ⊕ ρ} {s : σ} {fuel : ℕ}

theorem FitsFrom.next {m : Word} (h : FitsFrom d buffer n) (hlink : PartLink d buffer n m) :
  FitsFrom d buffer m
  := fun k hk => h k (.head hlink hk)

theorem FitsFrom.intro (hself : n ≠ noBlock → FitsAt d amigaIdPart buffer n)
    (hnext : ∀ m, PartLink d buffer n m → FitsFrom d buffer m) :
  FitsFrom d buffer n
  := by
  intro m hm
  obtain rfl | ⟨k, hk, hkm⟩ := ReflTransGen.cases_head hm
  · exact hself
  · exact hnext k hk m hkm

theorem follow_noBlock (buf : ℕ → Byte) (s : σ) :
  follow d onGood (fuel + 1) noBlock buf s = some (.ok (.inl s, buf))
  := if_pos rfl

theorem follow_ends {b : ℕ → Byte} (hblock : block ≠ noBlock)
    (h : visit d block buf = .ok (.ends b)) :
  follow d onGood (fuel + 1) block buf s = follow d onGood fuel noBlock b s
  := by
  refine (if_neg hblock).trans ?_
  rw [h]

theorem follow_bad (hblock : block ≠ noBlock) (h : visit d block buf = .ok (.bad image)) :
  follow d onGood (fuel + 1) block buf s = follow d onGood fuel block image s
  := by
  refine (if_neg hblock).trans ?_
  rw [h]

theorem follow_inl {s' : σ} (hblock : block ≠ noBlock)
    (h : visit d block buf = .ok (.good image)) (hs : onGood s image = .inl s') :
  follow d onGood (fuel + 1) block buf s = follow d onGood fuel (nextBlock image) image s'
  := by
  refine (if_neg hblock).trans ?_
  rw [h]
  dsimp only
  rw [hs]

theorem follow_inr {r : ρ} (hblock : block ≠ noBlock)
    (h : visit d block buf = .ok (.good image)) (hs : onGood s image = .inr r) :
  follow d onGood (fuel + 1) block buf s = some (.ok (.inr r, image))
  := by
  refine (if_neg hblock).trans ?_
  rw [h]
  dsimp only
  rw [hs]

theorem follow_error (hblock : block ≠ noBlock) (h : visit d block buf = .error .outside) :
  follow d onGood (fuel + 1) block buf s = some (.error .outside)
  := by
  refine (if_neg hblock).trans ?_
  rw [h]

/-- The loop ends if the links do. -/
theorem follow_of_within {depth : ℕ} (hwithin : Acyclic.Within (PartLink d buffer) depth block)
    (hfits : FitsFrom d buffer block) (h : Alike d buf buffer) :
  ∃ fuel r, follow d onGood fuel block buf s = some (.ok r) ∧ Alike d r.2 buffer
  := by
  induction depth generalizing block buf s with
  | zero => cases hwithin
  | succ depth ih =>
    obtain rfl | hblock := eq_or_ne block noBlock
    · exact ⟨1, _, follow_noBlock buf s, h⟩
    cases himage : imageAt d buffer block with
    | none =>
      rw [← imageAt_of_alike h] at himage
      exact ⟨2, _, (follow_ends hblock (visit_none himage)).trans (follow_noBlock buf s), h⟩
    | some image =>
      have hlike := alike_imageAt himage
      have hvisit := himage
      rw [← imageAt_of_alike h] at hvisit
      by_cases hid : blockId image = amigaIdPart
      case neg =>
        exact ⟨2, _, (follow_ends hblock (visit_other hvisit hid)).trans (follow_noBlock image s),
          hlike⟩
      have hfit := hfits block .refl hblock image himage hid
      by_cases hsum : checksum image = 0
      · have hlink : PartLink d buffer block (nextBlock image) :=
          ⟨hblock, image, himage, hid, (if_pos hsum).symm⟩
        have hgood := visit_good hvisit hid hfit hsum
        cases hs : onGood s image with
        | inl s' =>
          obtain ⟨fuel, r, hr, hend⟩ := ih (s := s') (hwithin _ hlink) (hfits.next hlink) hlike
          exact ⟨fuel + 1, r, (follow_inl hblock hgood hs).trans hr, hend⟩
        | inr r => exact ⟨1, _, follow_inr hblock hgood hs, hlike⟩
      · have hlink : PartLink d buffer block block :=
          ⟨hblock, image, himage, hid, (if_neg hsum).symm⟩
        obtain ⟨fuel, r, hr, hend⟩ := ih (s := s) (hwithin _ hlink) hfits hlike
        exact ⟨fuel + 1, r, (follow_bad hblock (visit_bad hvisit hid hfit hsum)).trans hr, hend⟩

/-- The loop goes as far as the links, if no good block stops it. -/
theorem within_of_follow (hgo : ∀ s image, ∃ s', onGood s image = .inl s')
    (h : Alike d buf buffer) {r : (σ ⊕ ρ) × (ℕ → Byte)}
    (hr : follow d onGood fuel block buf s = some (.ok r)) :
  Acyclic.Within (PartLink d buffer) fuel block ∧ FitsFrom d buffer block
    ∧ Alike d r.2 buffer
  := by
  induction fuel generalizing block buf s with
  | zero => cases hr
  | succ fuel ih =>
    obtain rfl | hblock := eq_or_ne block noBlock
    · rw [follow_noBlock] at hr
      obtain rfl := Except.ok.inj (Option.some.inj hr)
      exact ⟨fun m hm => absurd rfl hm.1,
        .intro (fun hne => absurd rfl hne) fun m hm => absurd rfl hm.1, h⟩
    -- every link of the block is that of the image in the buffer
    have hends : ∀ {b}, visit d block buf = .ok (.ends b) → (∀ m, ¬ PartLink d buffer block m) →
        FitsAt d amigaIdPart buffer block → Alike d b buffer →
        Acyclic.Within (PartLink d buffer) (fuel + 1) block ∧ FitsFrom d buffer block
          ∧ Alike d r.2 buffer := by
      intro b hvisit hnone hfit hb
      rw [follow_ends hblock hvisit] at hr
      exact ⟨fun m hm => absurd hm (hnone m),
        .intro (fun _ => hfit) fun m hm => absurd hm (hnone m), (ih hb hr).2.2⟩
    cases himage : imageAt d buffer block with
    | none =>
      have hvisit := himage
      rw [← imageAt_of_alike h] at hvisit
      apply hends (visit_none hvisit) _ _ h
      · rintro m ⟨_, image, hfound, _⟩
        exact absurd (himage.symm.trans hfound) nofun
      · intro image hfound
        exact absurd (himage.symm.trans hfound) nofun
    | some image =>
      have hlike := alike_imageAt himage
      have hvisit := himage
      rw [← imageAt_of_alike h] at hvisit
      have hsame : ∀ image', imageAt d buffer block = some image' → image' = image :=
        fun image' himage' => Option.some.inj (himage'.symm.trans himage)
      by_cases hid : blockId image = amigaIdPart
      case neg =>
        apply hends (visit_other hvisit hid) _ _ hlike
        · rintro m ⟨_, image', hfound, hid', _⟩
          rw [hsame image' hfound] at hid'
          exact hid hid'
        · intro image' hfound hid'
          rw [hsame image' hfound] at hid'
          exact absurd hid' hid
      by_cases hfit : Fits image
      case neg =>
        rw [follow_error hblock (visit_outside hvisit hid hfit)] at hr
        cases hr
      have hfitsAt : FitsAt d amigaIdPart buffer block := by
        intro image' hfound _
        rwa [hsame image' hfound]
      have hlink : ∀ m, PartLink d buffer block m →
          m = if checksum image = 0 then nextBlock image else block := by
        rintro m ⟨_, image', hfound, _, hm⟩
        rwa [hsame image' hfound] at hm
      by_cases hsum : checksum image = 0
      · obtain ⟨s', hs'⟩ := hgo s image
        rw [follow_inl hblock (visit_good hvisit hid hfit hsum) hs'] at hr
        obtain ⟨hwithin, hfits, hend⟩ := ih hlike hr
        refine ⟨?_, .intro (fun _ => hfitsAt) ?_, hend⟩
        all_goals
          intro m hm
          rw [hlink m hm, if_pos hsum]
          assumption
      · rw [follow_bad hblock (visit_bad hvisit hid hfit hsum)] at hr
        obtain ⟨hwithin, hfits, hend⟩ := ih hlike hr
        refine ⟨?_, hfits, hend⟩
        intro m hm
        rw [hlink m hm, if_neg hsum]
        exact hwithin

end Follow

/-! ### Both functions -/

section Both

variable {d : Disk} {limit : ℕ} {buffer : ℕ → Byte}

theorem ends_of_orderly (h : Orderly d limit buffer) :
  Ends d limit buffer
  := by
  obtain ⟨hscan, hlist⟩ := h
  obtain ⟨r, buf, hrdisk, hlike, hr⟩ := (@scan_spec _ _ buffer _ _ _ (fun _ _ => rfl)).2 hscan
  rw [Ends]
  simp only [findPartition, printPartAmiga, getRdisk, hrdisk]
  cases r with
  | none => exact ⟨fun _ => ⟨0, _, rfl⟩, 0, _, rfl⟩
  | some rdb =>
    obtain ⟨hfits, hacyclic, hboot⟩ := hlist rdb ((hr rdb).mp rfl)
    obtain ⟨depth, hwithin⟩ := Acyclic.exists_within_iff.mpr hacyclic
    constructor
    · intro partnum
      obtain ⟨fuel, p, hp, _⟩ :=
        @follow_of_within _ _ _ _ _ _ countdown partnum _ hwithin hfits hlike
      use fuel
      dsimp only
      rw [hp]
      exact ⟨_, rfl⟩
    · obtain ⟨fuel, p, hp, hend⟩ :=
        @follow_of_within _ _ _ _ _ _ printPartition [] _ hwithin hfits hlike
      obtain ⟨b, buf', hbootcode, _⟩ := (scan_spec hend).2 hboot
      use fuel
      dsimp only
      rw [hp]
      refine ⟨(p.1.getLeft?.getD [], b.isSome), ?_⟩
      change some (getBootcode d limit p.2 >>= fun boot => _) = _
      rw [getBootcode, hbootcode]
      rfl

theorem orderly_of_ends (h : Ends d limit buffer) :
  Orderly d limit buffer
  := by
  obtain ⟨_, fuel, r, hprint⟩ := h
  have hscan : ScanFits d amigaIdRdisk buffer 0 limit := by
    by_contra hnot
    rw [printPartAmiga, getRdisk, (scan_spec (fun _ _ => rfl)).1 hnot] at hprint
    cases hprint
  refine ⟨hscan, ?_⟩
  intro rdb hrdb
  obtain ⟨found, buf, hrdisk, hlike, hfound⟩ :=
    (@scan_spec _ _ buffer _ _ _ (fun _ _ => rfl)).2 hscan
  obtain rfl := (hfound rdb).mpr hrdb
  rw [printPartAmiga, getRdisk, hrdisk] at hprint
  dsimp only at hprint
  rw [Option.map_eq_some_iff] at hprint
  obtain ⟨p, hp, hboot⟩ := hprint
  cases p with
  | error e => cases hboot
  | ok p =>
    obtain ⟨hwithin, hfits, hend⟩ := within_of_follow (fun _ _ => ⟨_, rfl⟩) hlike hp
    refine ⟨hfits, hwithin.acyclic, ?_⟩
    by_contra hnot
    change (getBootcode d limit p.2 >>= fun boot => _) = _ at hboot
    rw [getBootcode, (scan_spec hend).1 hnot] at hboot
    cases hboot

/-- **The functions end**, and stay in the block buffer, if and only if the list is in order. -/
theorem ends_iff_orderly (d : Disk) (limit : ℕ) (buffer : ℕ → Byte) :
  Ends d limit buffer ↔ Orderly d limit buffer
  := ⟨orderly_of_ends, ends_of_orderly⟩

end Both

/-! ### A block that is read again and again -/

/-- A block of 512 bytes that begins with the given long words. -/
def sector (longs : List Word) : List Byte :=
  (List.range 128).flatMap fun i => wordBytes (longs.getD i 0)

theorem length_sector (longs : List Word) :
  (sector longs).length = 512
  := by simp [sector, wordBytes, List.length_flatMap]

/-- The long words of such a block. -/
theorem long_sector (m : ℕ → Byte) (longs : List Word) {i : ℕ} (h : i < 128) :
  long (Memory.store m 0 (sector longs)) i = longs.getD i 0
  := by
  have hsector : sector longs =
      ((List.range 128).map fun i => longs.getD i 0).flatMap wordBytes ++ [] := by
    rw [List.flatMap_map, List.append_nil, sector]
  have hlength : i < ((List.range 128).map fun i => longs.getD i 0).length := by
    rwa [List.length_map, List.length_range]
  rw [hsector, long_store_words m _ [] hlength]
  exact Tables.apply_getD (g := id) (List.map_id _) h 0

/-- The sum of the long words of such a block. -/
theorem checksum_sector (m : ℕ → Byte) {longs : List Word} {n : ℕ}
    (hn : (longs.getD 1 0).toNat = n) (h : n ≤ 128) :
  checksum (Memory.store m 0 (sector longs)) =
    (List.range n).foldl (fun sum i => sum + longs.getD i 0) 0
  := by
  unfold checksum summedLongs
  rw [long_sector m longs (by decide), hn]
  apply List.foldl_ext
  intro sum i hi
  rw [long_sector m longs ((List.mem_range.mp hi).trans_le h)]

/-- A disk whose first blocks begin with the given long words. -/
def diskOf (blocks : List (List Word)) : Disk where
  blksz := 512
  read n := some (sector (blocks.getD n.toNat []))
  length_read := by
    rintro n _ ⟨⟩
    apply length_sector

/-- The checksum of the partition block is wrong. -/
def wrongDisk : Disk :=
  diskOf [[amigaIdRdisk, 8, 0xadbbaaac, 0, 512, 0, 0, 1], [amigaIdPart, 5, 0, 0, noBlock]]

theorem not_ends_wrongDisk :
  ¬ ∀ (d : Disk) (limit : ℕ) (buffer : ℕ → Byte), Ends d limit buffer
  := by
  intro h
  have horderly := orderly_of_ends (h wrongDisk amigaBlockLimit (fun _ => 0))
  obtain ⟨_, hacyclic, _⟩ := horderly.2 _ ⟨0, Nat.succ_pos 15,
    ⟨rfl, by decide +kernel, by decide +kernel⟩, fun _ hj => absurd hj (Nat.not_lt_zero _)⟩
  apply hacyclic 1
  · apply Eq.subst _ ReflTransGen.refl
    decide +kernel
  · apply TransGen.single
    refine ⟨by decide, _, rfl, by decide +kernel, ?_⟩
    decide +kernel

end PartAmiga
