import UBoot.Flash.NandPage

/-!
# Reading a NAND flash

`nand_read` and `nand_do_read_ops` of `drivers/mtd/nand/nand_base.c`, for reads without the spare
area from a chip whose ECC is computed in software.  A page that is read as a whole goes to the
memory of the caller; a part of a page goes through the buffer of the chip, by
`nand_read_subpage` if the pages are large, and otherwise the buffer remembers the page.

What is read is what is seen of the device through its damage (`nandRead_seen`), in every run of
reads, when the bus reads all of the codes.  On a chip with large pages, `-EBADMSG` is returned
exactly if a step that cannot be corrected lies in a page that is read as a whole
(`nandRead_ebadmsg_iff`): in a part of a page it goes unnoticed.
-/

namespace NandRead

open Memory NandEcc NandPage

/-! ### The source -/

/-- A device: the pages are those of the chip. -/
structure Device extends Chip where
  /-- `chip->page_shift`. -/
  pageShift : ℕ
  /-- `mtd->size`. -/
  size : ℕ
  writesize_eq : toChip.writesize = 2 ^ pageShift

/-- `NAND_SUBPAGE_READ`. -/
def Device.subpageRead (D : Device) : Bool := decide (9 < D.pageShift)

theorem Device.writesize_pos (D : Device) :
  0 < D.writesize
  := Nat.mul_pos D.steps_pos (by omega)

/-- The memory of the caller, and what the driver keeps. -/
structure Reader where
  m : ℕ → Byte
  /-- `chip->buffers->databuf`. -/
  databuf : ℕ → Byte
  /-- `chip->pagebuf`, where `none` is -1. -/
  pagebuf : Option ℕ
  stats : EccStats

/-- `EINVAL`. -/
def einval : ℤ := 22

/-- `EUCLEAN`. -/
def euclean : ℤ := 117

variable (D : Device) (pages : ℕ → Page) (scratch : ℕ → Buffers)

/-- A turn of the loop of `nand_do_read_ops`, for `bytes` bytes of a page. -/
def readTurn (realpage col bytes buf : ℕ) (s : Reader) : Reader :=
  if s.pagebuf ≠ some realpage then
    if bytes = D.writesize then
      let r := nandReadPageSwecc D.toChip (pages realpage) (scratch realpage) s.m buf s.stats
      { s with m := r.1, stats := r.2 }
    else if D.subpageRead then
      let r := nandReadSubpage D.toChip (pages realpage) (scratch realpage) col bytes s.databuf 0
        s.stats
      { s with m := store s.m buf (read r.1 col bytes), databuf := r.1, stats := r.2 }
    else
      let r := nandReadPageSwecc D.toChip (pages realpage) (scratch realpage) s.databuf 0 s.stats
      { m := store s.m buf (read r.1 col bytes), databuf := r.1, pagebuf := some realpage,
        stats := r.2 }
  else { s with m := store s.m buf (read s.databuf col bytes) }

/-- The loop of `nand_do_read_ops`. -/
def readLoop (realpage col : ℕ) (_hcol : col < D.writesize) (readlen buf : ℕ) (s : Reader) :
    Reader :=
  let bytes := min (D.writesize - col) readlen
  let s := readTurn D pages scratch realpage col bytes buf s
  if readlen - bytes = 0 then s
  else readLoop (realpage + 1) 0 D.writesize_pos (readlen - bytes) (buf + bytes) s
  termination_by readlen
  decreasing_by
    have hpos := Nat.sub_pos_of_lt _hcol
    omega

/-- `nand_read` of `len` bytes at `offs` to `buf`, and what it returns.  The statistics of
`nand_do_read_ops` are compared with what they were before. -/
def nandRead (offs len buf : ℕ) (s : Reader) : Reader × ℤ :=
  if offs + len > D.size then (s, -einval)
  else if len = 0 then (s, 0)
  else
    let r := readLoop D pages scratch (offs / D.writesize) (offs % D.writesize)
      (Nat.mod_lt _ D.writesize_pos) len buf s
    if r.stats.failed - s.stats.failed ≠ 0 then (r, -ebadmsg)
    else (r, if r.stats.corrected - s.stats.corrected ≠ 0 then -euclean else 0)

/-- A call of `nand_read`, with what is left in the buffers of the chip. -/
structure Request where
  offs : ℕ
  len : ℕ
  buf : ℕ
  scratch : ℕ → Buffers

/-- A run of reads. -/
def reads (requests : List Request) (s : Reader) : Reader :=
  requests.foldl (fun s r => (nandRead D pages r.scratch r.offs r.len r.buf s).1) s

/-! ### What is read -/

section Seen

variable {D pages scratch} {content : ℕ → Byte} {d : ℕ → ℕ → Damage} {s : Reader}

/-- The bytes of a page of the device. -/
def pageOf (D : Device) (content : ℕ → Byte) (p i : ℕ) : Byte := content (p * D.writesize + i)

/-- What is seen of the device at an address. -/
def seen (D : Device) (content : ℕ → Byte) (d : ℕ → ℕ → Damage) (x : ℕ) : Byte :=
  (d (x / D.writesize) (x % D.writesize / 256)).result
    (stepOf (pageOf D content (x / D.writesize)) (x % D.writesize / 256)) (x % D.writesize % 256)

/-- Where a step can be corrected, the device is seen as it was written. -/
theorem seen_eq {x : ℕ} (h : (d (x / D.writesize) (x % D.writesize / 256)).double = false) :
  seen D content d x = content x
  := by
  rw [seen, Damage.result_eq h, stepOf, pageOf, Nat.div_add_mod, Nat.div_add_mod']

theorem seen_page {p i : ℕ} (hi : i < D.writesize) :
  seen D content d (p * D.writesize + i)
    = (d p (i / 256)).result (stepOf (pageOf D content p) (i / 256)) (i % 256)
  := by
  have hdiv : (p * D.writesize + i) / D.writesize = p := by
    rw [Nat.add_comm, Nat.add_mul_div_right _ _ D.writesize_pos, Nat.div_eq_of_lt hi, Nat.zero_add]
  have hmod : (p * D.writesize + i) % D.writesize = i := by
    rw [Nat.add_comm, Nat.add_mul_mod_self_right, Nat.mod_eq_of_lt hi]
  rw [seen, hdiv, hmod]

variable (D pages) in
/-- The device holds the bytes `content`, with damage in its steps. -/
def Stored (content : ℕ → Byte) (d : ℕ → ℕ → Damage) : Prop :=
  ∀ p, Stores D.toChip (pages p) (pageOf D content p) (d p)

variable (D) in
/-- The buffer of the chip has the page that it remembers, and no page is remembered where parts of
pages are read on their own. -/
structure Cached (content : ℕ → Byte) (d : ℕ → ℕ → Damage) (s : Reader) : Prop where
  none : D.subpageRead = true → s.pagebuf = none
  page : ∀ p, s.pagebuf = some p →
    ∀ i < D.writesize, s.databuf i = seen D content d (p * D.writesize + i)

/-- A page that is read as a whole. -/
theorem read_page_seen (h : Stored D pages content d) (p : ℕ) (b : Buffers) (m : ℕ → Byte)
    (buf : ℕ) (stats : EccStats) :
  (∀ i < D.writesize, (nandReadPageSwecc D.toChip (pages p) b m buf stats).1 (buf + i)
      = seen D content d (p * D.writesize + i))
    ∧ ∀ q, q < buf ∨ buf + D.writesize ≤ q →
      (nandReadPageSwecc D.toChip (pages p) b m buf stats).1 q = m q
  := by
  obtain ⟨hframe, hsteps, -⟩ := read_stores (h p) b m buf stats
  refine ⟨fun i hi => ?_, hframe⟩
  have hsize : D.writesize = D.steps * 256 := rfl
  have hstep := hsteps (i / 256) (by omega) (i % 256) (Nat.mod_lt _ (by omega))
  rwa [Nat.add_assoc, Nat.div_add_mod, ← seen_page hi] at hstep

variable (scratch) in
/-- A turn of the loop. -/
theorem readTurn_seen (hcovers : D.subpageRead = true → D.Covers) (h : Stored D pages content d)
    (hs : Cached D content d s)
    (realpage col bytes buf : ℕ) (hpos : 0 < bytes) (hle : col + bytes ≤ D.writesize) :
  (∀ i < bytes, (readTurn D pages scratch realpage col bytes buf s).m (buf + i)
      = seen D content d (realpage * D.writesize + col + i))
    ∧ (∀ q, q < buf ∨ buf + bytes ≤ q →
      (readTurn D pages scratch realpage col bytes buf s).m q = s.m q)
    ∧ Cached D content d (readTurn D pages scratch realpage col bytes buf s)
  := by
  -- what is copied from the buffer of the chip
  have hcopy : ∀ databuf : ℕ → Byte, (∀ i < bytes,
      databuf (col + i) = seen D content d (realpage * D.writesize + col + i)) →
      (∀ i < bytes, store s.m buf (read databuf col bytes) (buf + i)
        = seen D content d (realpage * D.writesize + col + i))
        ∧ ∀ q, q < buf ∨ buf + bytes ≤ q → store s.m buf (read databuf col bytes) q = s.m q := by
    intro databuf hdatabuf
    refine ⟨fun i hi => (store_read_apply _ _ _ _ hi).trans (hdatabuf i hi), fun q hq => ?_⟩
    obtain hq | hq := hq
    · exact store_of_lt _ hq
    · exact store_of_le _ (by rw [length_read]; exact hq)
  rw [readTurn]
  by_cases hpage : s.pagebuf ≠ some realpage
  · rw [if_pos hpage]
    by_cases hwhole : bytes = D.writesize
    · rw [if_pos hwhole]
      obtain ⟨hread, hframe⟩ := read_page_seen h realpage (scratch realpage) s.m buf s.stats
      obtain rfl : col = 0 := by omega
      rw [Nat.add_zero, hwhole]
      exact ⟨hread, hframe, hs.none, hs.page⟩
    · rw [if_neg hwhole]
      by_cases hsubpage : D.subpageRead = true
      · rw [if_pos hsubpage]
        obtain ⟨hread, -, -⟩ := nandReadSubpage_stores (hcovers hsubpage) (h realpage)
          (scratch realpage) s.databuf 0 s.stats hpos hle
        obtain ⟨hmem, hframe⟩ := hcopy _ fun i hi => by
          have hseen := hread (col + i) (by omega) (by omega)
          rw [Nat.zero_add] at hseen
          rw [Nat.add_assoc, seen_page (by omega)]
          exact hseen
        refine ⟨hmem, hframe, hs.none, fun p hp => ?_⟩
        rw [show _ = s.pagebuf from rfl, hs.none hsubpage] at hp
        cases hp
      · rw [if_neg hsubpage]
        obtain ⟨hread, -⟩ := read_page_seen h realpage (scratch realpage) s.databuf 0 s.stats
        simp only [Nat.zero_add] at hread
        obtain ⟨hmem, hframe⟩ := hcopy _ fun i hi => by
          rw [Nat.add_assoc]
          exact hread (col + i) (by omega)
        refine ⟨hmem, hframe, fun htrue => absurd htrue hsubpage, fun p hp i hi => ?_⟩
        obtain rfl := Option.some.inj hp
        exact hread i hi
  · rw [if_neg hpage]
    rw [not_not] at hpage
    obtain ⟨hmem, hframe⟩ := hcopy s.databuf fun i hi => by
      rw [Nat.add_assoc]
      exact hs.page realpage hpage (col + i) (by omega)
    exact ⟨hmem, hframe, hs.none, hs.page⟩

variable (scratch) in
/-- The loop reads the rest of the range. -/
theorem readLoop_seen (hcovers : D.subpageRead = true → D.Covers)
    (h : Stored D pages content d) (hs : Cached D content d s)
    (realpage : ℕ) {col : ℕ} (hcol : col < D.writesize) {readlen : ℕ} (hpos : 0 < readlen)
    (buf : ℕ) :
  (∀ i < readlen, (readLoop D pages scratch realpage col hcol readlen buf s).m (buf + i)
      = seen D content d (realpage * D.writesize + col + i))
    ∧ (∀ q, q < buf ∨ buf + readlen ≤ q →
      (readLoop D pages scratch realpage col hcol readlen buf s).m q = s.m q)
    ∧ Cached D content d (readLoop D pages scratch realpage col hcol readlen buf s)
  := by
  induction readlen using Nat.strong_induction_on generalizing realpage col buf s with
  | h readlen ih =>
    obtain ⟨hread, hframe, hcached⟩ := readTurn_seen scratch hcovers h hs realpage col
      (min (D.writesize - col) readlen) buf (by omega) (by omega)
    rw [readLoop]
    by_cases hdone : readlen - min (D.writesize - col) readlen = 0
    · rw [if_pos hdone]
      have hbytes : min (D.writesize - col) readlen = readlen := by omega
      rw [hbytes] at hread hframe hcached ⊢
      exact ⟨hread, hframe, hcached⟩
    · rw [if_neg hdone]
      have hbytes : min (D.writesize - col) readlen = D.writesize - col := by omega
      rw [hbytes] at hread hframe hcached hdone ⊢
      obtain ⟨hrest, hrestframe, hrestcached⟩ := ih (readlen - (D.writesize - col)) (by omega)
        hcached (realpage + 1) D.writesize_pos (by omega) (buf + (D.writesize - col))
      refine ⟨fun i hi => ?_, fun q hq => ?_, hrestcached⟩
      · by_cases hfirst : i < D.writesize - col
        · rw [hrestframe _ (by omega)]
          exact hread i hfirst
        · have hnext := hrest (i - (D.writesize - col)) (by omega)
          have hmem : buf + (D.writesize - col) + (i - (D.writesize - col)) = buf + i := by omega
          have hcontent : (realpage + 1) * D.writesize + 0 + (i - (D.writesize - col))
              = realpage * D.writesize + col + i := by
            rw [Nat.add_mul, Nat.one_mul]
            omega
          rwa [hmem, hcontent] at hnext
      · rw [hrestframe q (by omega)]
        exact hframe q (by omega)

variable (scratch) in
/-- A read. -/
theorem read_seen (hcovers : D.subpageRead = true → D.Covers) (h : Stored D pages content d)
    (hs : Cached D content d s) {offs len : ℕ} (hle : offs + len ≤ D.size) (buf : ℕ) :
  (∀ i < len, (nandRead D pages scratch offs len buf s).1.m (buf + i)
      = seen D content d (offs + i))
    ∧ (∀ q, q < buf ∨ buf + len ≤ q → (nandRead D pages scratch offs len buf s).1.m q = s.m q)
    ∧ Cached D content d (nandRead D pages scratch offs len buf s).1
  := by
  rw [nandRead, if_neg (by omega)]
  by_cases hzero : len = 0
  · rw [if_pos hzero]
    exact ⟨fun i hi => absurd hi (by omega), fun _ _ => rfl, hs⟩
  rw [if_neg hzero]
  dsimp only
  obtain ⟨hread, hframe, hcached⟩ := readLoop_seen scratch hcovers h hs
    (offs / D.writesize) (Nat.mod_lt offs D.writesize_pos) (Nat.pos_of_ne_zero hzero)
    buf
  rw [Nat.div_add_mod'] at hread
  split_ifs <;> exact ⟨hread, hframe, hcached⟩

theorem cached_nandRead (hcovers : D.subpageRead = true → D.Covers)
    (h : Stored D pages content d) (hs : Cached D content d s) (offs len buf : ℕ) :
  Cached D content d (nandRead D pages scratch offs len buf s).1
  := by
  by_cases hle : offs + len ≤ D.size
  · exact (read_seen scratch hcovers h hs hle buf).2.2
  · rw [nandRead, if_pos (by omega)]
    exact hs

theorem cached_reads (hcovers : D.subpageRead = true → D.Covers)
    (h : Stored D pages content d) (requests : List Request)
    (hs : Cached D content d s) :
  Cached D content d (reads D pages requests s)
  := by
  induction requests generalizing s with
  | nil => exact hs
  | cons r requests ih => exact ih (cached_nandRead hcovers h hs r.offs r.len r.buf)

/-- When nothing is remembered. -/
theorem cached_of_none (hs : s.pagebuf = none) :
  Cached D content d s
  := by
  refine ⟨fun _ => hs, fun p hp => ?_⟩
  rw [hs] at hp
  cases hp

/-- **What is read is what is seen of the device**, after any run of reads, and no other byte of
the memory changes; where parts of pages are read on their own, the bus has to read all of the
codes. -/
theorem nandRead_seen (hcovers : D.subpageRead = true → D.Covers)
    (h : Stored D pages content d) (hs : s.pagebuf = none)
    (requests : List Request) {offs len : ℕ} (hle : offs + len ≤ D.size) (buf : ℕ) :
  (∀ i < len, (nandRead D pages scratch offs len buf (reads D pages requests s)).1.m (buf + i)
      = seen D content d (offs + i))
    ∧ ∀ q, q < buf ∨ buf + len ≤ q →
      (nandRead D pages scratch offs len buf (reads D pages requests s)).1.m q
        = (reads D pages requests s).m q
  := by
  obtain ⟨hread, hframe, -⟩ := read_seen scratch hcovers h
    (cached_reads hcovers h requests (cached_of_none hs)) hle buf
  exact ⟨hread, hframe⟩

end Seen

/-! ### What is returned -/

section Returned

variable {D pages scratch} {content : ℕ → Byte} {d : ℕ → ℕ → Damage} {s : Reader}

variable (D) in
/-- A page lies in a range. -/
def Inside (offs len p : ℕ) : Prop :=
  offs ≤ p * D.writesize ∧ p * D.writesize + D.writesize ≤ offs + len

variable (D) in
/-- A page of the range has a step that cannot be corrected. -/
def Uncorrectable (d : ℕ → ℕ → Damage) (offs len : ℕ) : Prop :=
  ∃ p, Inside D offs len p ∧ ∃ j < D.steps, (d p j).double = true

theorem not_uncorrectable_zero (d : ℕ → ℕ → Damage) (offs : ℕ) :
  ¬ Uncorrectable D d offs 0
  := by
  rintro ⟨p, ⟨hlo, hhi⟩, -⟩
  have hpos := D.writesize_pos
  omega

/-- The page in which a range starts, and the rest of the range. -/
theorem uncorrectable_iff {realpage col len : ℕ} (hcol : col < D.writesize) :
  Uncorrectable D d (realpage * D.writesize + col) len
    ↔ (min (D.writesize - col) len = D.writesize ∧ ∃ j < D.steps, (d realpage j).double = true)
      ∨ Uncorrectable D d ((realpage + 1) * D.writesize) (len - min (D.writesize - col) len)
  := by
  have hsucc : (realpage + 1) * D.writesize = realpage * D.writesize + D.writesize :=
    Nat.succ_mul _ _
  constructor
  · rintro ⟨p, ⟨hlo, hhi⟩, hdouble⟩
    obtain hlt | rfl | hgt := lt_trichotomy p realpage
    · have hmul : (p + 1) * D.writesize ≤ realpage * D.writesize := Nat.mul_le_mul_right _ hlt
      rw [Nat.succ_mul] at hmul
      omega
    · exact Or.inl ⟨by omega, hdouble⟩
    · have hmul : (realpage + 1) * D.writesize ≤ p * D.writesize := Nat.mul_le_mul_right _ hgt
      exact Or.inr ⟨p, ⟨hmul, by omega⟩, hdouble⟩
  · rintro (⟨hwhole, hdouble⟩ | ⟨p, ⟨hlo, hhi⟩, hdouble⟩)
    · exact ⟨realpage, ⟨by omega, by omega⟩, hdouble⟩
    · have hpos := D.writesize_pos
      exact ⟨p, ⟨by omega, by omega⟩, hdouble⟩

theorem doubles_eq_zero {d : ℕ → Damage} {n : ℕ} :
  doubles d n = 0 ↔ ¬ ∃ j < n, (d j).double = true
  := by
  rw [doubles, List.countP_eq_zero]
  constructor
  · rintro hnone ⟨j, hj, hdouble⟩
    exact hnone j (List.mem_range.mpr hj) hdouble
  · intro hnone j hj hdouble
    exact hnone ⟨j, List.mem_range.mp hj, hdouble⟩

theorem doubles_le (d : ℕ → Damage) (n : ℕ) :
  doubles d n ≤ n
  := List.countP_le_length.trans_eq List.length_range

variable (scratch) in
/-- A turn of the loop counts the steps of a whole page only. -/
theorem readTurn_failed (h : Stored D pages content d) (hsubpage : D.subpageRead = true)
    (hs : s.pagebuf = none) (realpage col bytes buf : ℕ) :
  (readTurn D pages scratch realpage col bytes buf s).pagebuf = none
    ∧ (readTurn D pages scratch realpage col bytes buf s).stats.failed = s.stats.failed
      + BitVec.ofNat 32 (if bytes = D.writesize then doubles (d realpage) D.steps else 0)
  := by
  rw [readTurn, if_pos (by rw [hs]; exact nofun)]
  by_cases hwhole : bytes = D.writesize
  · rw [if_pos hwhole, if_pos hwhole]
    obtain ⟨-, -, hstats⟩ := read_stores (h realpage) (scratch realpage) s.m buf s.stats
    refine ⟨hs, ?_⟩
    dsimp only
    rw [hstats, after_count]
  · rw [if_neg hwhole, if_neg hwhole, if_pos hsubpage]
    refine ⟨hs, ?_⟩
    dsimp only
    rw [failed_nandReadSubpage, BitVec.add_zero]

variable (scratch) in
/-- What the loop adds to the failed steps. -/
theorem readLoop_failed (h : Stored D pages content d) (hsubpage : D.subpageRead = true)
    (hs : s.pagebuf = none) (realpage : ℕ) {col : ℕ} (hcol : col < D.writesize) {readlen : ℕ}
    (hpos : 0 < readlen) (buf : ℕ) :
  ∃ k, (readLoop D pages scratch realpage col hcol readlen buf s).stats.failed
        = s.stats.failed + BitVec.ofNat 32 k
      ∧ k ≤ readlen ∧ (k = 0 ↔ ¬ Uncorrectable D d (realpage * D.writesize + col) readlen)
  := by
  induction readlen using Nat.strong_induction_on generalizing realpage col buf s with
  | h readlen ih =>
    obtain ⟨hnone, hfailed⟩ := readTurn_failed scratch h hsubpage hs realpage col
      (min (D.writesize - col) readlen) buf
    have hsize : D.writesize = D.steps * 256 := rfl
    have hdoubles := doubles_le (d realpage) D.steps
    rw [readLoop]
    by_cases hdone : readlen - min (D.writesize - col) readlen = 0
    · rw [if_pos hdone]
      have hbytes : min (D.writesize - col) readlen = readlen := by omega
      rw [hbytes] at hfailed ⊢
      refine ⟨_, hfailed, by split_ifs <;> omega, ?_⟩
      rw [uncorrectable_iff hcol, hbytes, Nat.sub_self]
      by_cases hwhole : readlen = D.writesize
      · rw [if_pos hwhole, doubles_eq_zero, not_or, and_iff_right hwhole,
          and_iff_left (not_uncorrectable_zero d _)]
      · rw [if_neg hwhole, not_or, and_iff_left (not_uncorrectable_zero d _)]
        exact iff_of_true rfl fun hboth => hwhole hboth.1
    · rw [if_neg hdone]
      have hbytes : min (D.writesize - col) readlen = D.writesize - col := by omega
      rw [hbytes] at hfailed hnone hdone ⊢
      obtain ⟨k, hk, hkle, hiff⟩ := ih (readlen - (D.writesize - col)) (by omega) hnone
        (realpage + 1) D.writesize_pos (by omega) (buf + (D.writesize - col))
      refine ⟨_, by rw [hk, hfailed, BitVec.add_assoc, ← BitVec.ofNat_add], ?_, ?_⟩
      · split_ifs <;> omega
      · rw [Nat.add_zero] at hiff
        rw [uncorrectable_iff hcol, hbytes, Nat.add_eq_zero_iff, hiff, not_or]
        refine and_congr_left' ?_
        by_cases hwhole : D.writesize - col = D.writesize
        · rw [if_pos hwhole, doubles_eq_zero, and_iff_right hwhole]
        · rw [if_neg hwhole]
          exact iff_of_true rfl fun hboth => hwhole hboth.1

/-- **A step that cannot be corrected is reported** exactly if its page is read as a whole, on a
chip where parts of pages are read on their own. -/
theorem nandRead_ebadmsg_iff (h : Stored D pages content d) (hsubpage : D.subpageRead = true)
    (hs : s.pagebuf = none) {offs len : ℕ} (hle : offs + len ≤ D.size) (hlen : len < 2 ^ 32)
    (buf : ℕ) :
  (nandRead D pages scratch offs len buf s).2 = -ebadmsg ↔ Uncorrectable D d offs len
  := by
  rw [nandRead, if_neg (by omega)]
  by_cases hzero : len = 0
  · rw [if_pos hzero, hzero]
    exact iff_of_false (by dsimp only; decide) (not_uncorrectable_zero d offs)
  rw [if_neg hzero]
  dsimp only
  obtain ⟨k, hfailed, hkle, hiff⟩ := readLoop_failed scratch h hsubpage hs
    (offs / D.writesize) (Nat.mod_lt offs D.writesize_pos) (Nat.pos_of_ne_zero hzero)
    buf
  rw [Nat.div_add_mod'] at hiff
  have hdiff : (readLoop D pages scratch (offs / D.writesize) (offs % D.writesize)
      (Nat.mod_lt offs D.writesize_pos) len buf s).stats.failed - s.stats.failed
        = BitVec.ofNat 32 k := by
    rw [hfailed, BitVec.add_comm, BitVec.add_sub_cancel]
  have hzeroiff : BitVec.ofNat 32 k = 0 ↔ k = 0 := by
    rw [← BitVec.toNat_inj, BitVec.toNat_ofNat, Nat.mod_eq_of_lt (by omega)]
    rfl
  rw [hdiff]
  by_cases hbad : Uncorrectable D d offs len
  · rw [if_pos (by rw [ne_eq, hzeroiff, hiff, not_not]; exact hbad)]
    exact iff_of_true rfl hbad
  · rw [if_neg (by rw [ne_eq, not_not, hzeroiff, hiff]; exact hbad)]
    refine iff_of_false ?_ hbad
    dsimp only
    split_ifs
    · decide
    · decide

/-- A page on which `bytes` were written, damaged by `d`. -/
def damagedPage (C : Chip) (bytes : ℕ → Byte) (d : ℕ → Damage) : Page where
  data := fun i => onData 0 (d (i / 256)).flips (stepOf bytes (i / 256)) (i % 256)
  oob := placeLoop C
    (fun i => onCode (d (i / 3)).flips (code C.smc (stepOf bytes (i / 3)) 0) (i % 3))
    (fun _ => 0) (3 * C.steps)

theorem stores_damagedPage (C : Chip) (bytes : ℕ → Byte) (d : ℕ → Damage) :
  Stores C (damagedPage C bytes d) bytes d
  := by
  constructor
  · intro j hj i hi
    rw [damagedPage, Nat.zero_add]
    dsimp only
    rw [Nat.mul_add_div (by omega), Nat.div_eq_of_lt hi, Nat.add_zero, Nat.mul_add_mod,
      Nat.mod_eq_of_lt hi]
  · intro j hj c hc
    rw [damagedPage]
    dsimp only
    rw [placeLoop_apply _ _ le_rfl (by omega), Nat.mul_add_div (by omega), Nat.div_eq_of_lt hc,
      Nat.add_zero, Nat.mul_add_mod, Nat.mod_eq_of_lt hc]

/-- A device of 128 MiB with large pages. -/
def largeDevice : Device where
  toChip := largeChip
  pageShift := 11
  size := 134217728
  writesize_eq := by decide

theorem writesize_largeDevice :
  largeDevice.writesize = 2048
  := by decide

theorem covers_largeDevice :
  largeDevice.Covers
  := covers_range' rfl rfl (by decide) (by decide) false true

/-- The first and the last bit of a byte of the first step change. -/
def doubleFirst (p j : ℕ) : Damage :=
  if p = 0 ∧ j = 0 then
    .two (.data (Fin.last 255) (Fin.last 7)) (.data (Fin.last 255) (Fin.rev (Fin.last 7)))
      (by decide) id id
  else .none

/-- The device, on which the byte 7 was written everywhere. -/
def largePages (p : ℕ) : Page := damagedPage largeChip (fun _ => 7) (doubleFirst p)

theorem stored_largePages :
  Stored largeDevice largePages (fun _ => 7) doubleFirst
  := fun _ => stores_damagedPage _ _ _

/-- Buffers, and a reader before the first read. -/
def noBuffers (_ : ℕ) : Buffers := ⟨fun _ => 0, fun _ => 0, fun _ => 0⟩

def noneRead : Reader := ⟨fun _ => 0, fun _ => 0, none, ⟨0, 0⟩⟩

/-- The first page is damaged, but a part of it is read without an error. -/
theorem nandRead_first :
  (nandRead largeDevice largePages noBuffers 0 100 50 noneRead).2 ≠ -ebadmsg
  := by
  intro hret
  have hiff : (nandRead largeDevice largePages noBuffers 0 100 50 noneRead).2 = -ebadmsg
      ↔ Uncorrectable largeDevice doubleFirst 0 100 :=
    nandRead_ebadmsg_iff stored_largePages (by decide) rfl (by decide) (by decide) 50
  obtain ⟨p, ⟨-, hle⟩, -⟩ := hiff.mp hret
  rw [writesize_largeDevice] at hle
  omega

/-- The second page is read as it was written, after a read of the first. -/
theorem nandRead_second :
  (nandRead largeDevice largePages noBuffers 3000 100 50
      (reads largeDevice largePages [⟨0, 2048, 0, noBuffers⟩] noneRead)).1.m (50 + 10) = 7
  := by
  have hread : (nandRead largeDevice largePages noBuffers 3000 100 50
      (reads largeDevice largePages [⟨0, 2048, 0, noBuffers⟩] noneRead)).1.m (50 + 10)
        = seen largeDevice (fun _ => 7) doubleFirst (3000 + 10) :=
    (nandRead_seen (fun _ => covers_largeDevice) stored_largePages rfl
      [⟨0, 2048, 0, noBuffers⟩] (by decide) 50).1 10 (by decide)
  rw [hread, seen, writesize_largeDevice]
  rfl

end Returned

end NandRead
