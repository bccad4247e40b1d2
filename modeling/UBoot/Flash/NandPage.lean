import Mathlib.Data.List.GetD
import UBoot.Flash.NandEcc

/-!
# Pages of a NAND flash

`nand_write_page_swecc`, `nand_read_page_swecc` and `nand_read_subpage` of
`drivers/mtd/nand/nand_base.c`, for a chip whose ECC is computed in software.  A page has its data
and, in its spare area, the code of each of its steps of 256 bytes, at the places that the layout
gives.  What was written is read back if at most one bit of each step and its code has changed
meanwhile, and steps with two changed bits are counted as failed.

A part of a page is read by the same loops from its first step on.  There a step that cannot be
corrected is not counted as failed: its error number is added to the number of corrected bits.
-/

namespace NandPage

open Memory NandEcc

/-! ### The source -/

/-- What is known of a chip after `nand_scan_tail`. -/
structure Chip where
  /-- Whether `CONFIG_MTD_NAND_ECC_SMC` is set. -/
  smc : Bool
  /-- `chip->ecc.steps`. -/
  steps : ℕ
  /-- `chip->ecc.layout->eccpos`. -/
  eccpos : ℕ → ℕ
  /-- Whether `NAND_BUSWIDTH_16` is set. -/
  wide : Bool
  steps_pos : 0 < steps
  eccpos_inj : ∀ i < 3 * steps, ∀ j < 3 * steps, eccpos i = eccpos j → i = j

/-- `mtd->writesize`. -/
def Chip.writesize (C : Chip) : ℕ := C.steps * 256

/-- `nand_oob_8`, `nand_oob_16`, `nand_oob_64` and `nand_oob_128`, by the size of the spare area. -/
def layoutFor : ℕ → List ℕ
  | 8 => [0, 1, 2]
  | 16 => [0, 1, 2, 3, 6, 7]
  | 64 => List.range' 40 24
  | 128 => List.range' 80 48
  | _ => []

/-- A chip with one of these layouts, whose pages have as many steps as there is room for. -/
def Chip.ofLayout (layout : List ℕ) (hnodup : layout.Nodup) (hlen : 3 ≤ layout.length)
    (smc wide : Bool) : Chip where
  smc := smc
  steps := layout.length / 3
  eccpos i := layout.getD i 0
  wide := wide
  steps_pos := Nat.div_pos hlen (by omega)
  eccpos_inj := by
    intro i hi j hj heq
    rw [List.getD_eq_getElem _ _ (by omega), List.getD_eq_getElem _ _ (by omega)] at heq
    exact hnodup.getElem_inj_iff.mp heq

/-- A chip with pages of 512 bytes. -/
def smallChip : Chip := .ofLayout (layoutFor 16) (by decide) (by decide) false false

/-- A chip with pages of 2048 bytes and a bus of 16 bits. -/
def largeChip : Chip := .ofLayout (layoutFor 64) (by decide) (by decide) false true

/-- A page: its data and its spare area. -/
structure Page where
  data : ℕ → Byte
  oob : ℕ → Byte

/-- `mtd->ecc_stats`. -/
structure EccStats where
  corrected : Word
  failed : Word

/-- The buffers of the chip, with whatever is left in them. -/
structure Buffers where
  /-- `chip->buffers->ecccalc`. -/
  ecccalc : ℕ → Byte
  /-- `chip->buffers->ecccode`. -/
  ecccode : ℕ → Byte
  /-- `chip->oob_poi`. -/
  oobPoi : ℕ → Byte

variable (C : Chip)

/-- The loop that calls `chip->ecc.calculate`, for `n` steps from `p` on. -/
def calculateLoop (m : ℕ → Byte) (p : ℕ) (ecccalc : ℕ → Byte) : ℕ → ℕ → Byte
  | 0 => ecccalc
  | n + 1 =>
    store (calculateLoop m p ecccalc n) (3 * n) (nandCalculateEcc C.smc m (p + 256 * n))

/-- The loop that places the code in the spare area. -/
def placeLoop (ecccalc oobPoi : ℕ → Byte) : ℕ → ℕ → Byte
  | 0 => oobPoi
  | i + 1 => Function.update (placeLoop ecccalc oobPoi i) (C.eccpos i) (ecccalc i)

/-- The loop that collects the code from the spare area. -/
def collectLoop (eccpos : ℕ → ℕ) (oobPoi ecccode : ℕ → Byte) : ℕ → ℕ → Byte
  | 0 => ecccode
  | i + 1 => Function.update (collectLoop eccpos oobPoi ecccode i) i (oobPoi (eccpos i))

/-- The loop that calls `chip->ecc.correct`, for `n` steps from `p` on. -/
def correctLoop (count : EccStats → ℤ → EccStats) (p : ℕ) (ecccode ecccalc : ℕ → Byte)
    (m : ℕ → Byte) (stats : EccStats) : ℕ → (ℕ → Byte) × EccStats
  | 0 => (m, stats)
  | n + 1 =>
    let r := correctLoop count p ecccode ecccalc m stats n
    let c := nandCorrectData C.smc r.1 (p + 256 * n) (fun i => ecccode (3 * n + i))
      fun i => ecccalc (3 * n + i)
    (c.1, count r.2 c.2)

/-- What `nand_read_page_swecc` does with what `chip->ecc.correct` returns. -/
def EccStats.count (stats : EccStats) (stat : ℤ) : EccStats :=
  if stat < 0 then { stats with failed := stats.failed + 1 }
  else { stats with corrected := stats.corrected + BitVec.ofInt 32 stat }

/-- What `nand_read_subpage` does with it. -/
def EccStats.countSubpage (stats : EccStats) (stat : ℤ) : EccStats :=
  if stat = -1 then { stats with failed := stats.failed + 1 }
  else { stats with corrected := stats.corrected + BitVec.ofInt 32 stat }

/-- `nand_write_page_swecc` of the data at `buf`: the page that is written. -/
def nandWritePageSwecc (b : Buffers) (m : ℕ → Byte) (buf : ℕ) : Page where
  data := fun i => m (buf + i)
  oob := placeLoop C (calculateLoop C m buf b.ecccalc C.steps) b.oobPoi (3 * C.steps)

/-- `nand_read_page_swecc` to `buf`. -/
def nandReadPageSwecc (page : Page) (b : Buffers) (m : ℕ → Byte) (buf : ℕ) (stats : EccStats) :
    (ℕ → Byte) × EccStats :=
  let m := store m buf (read page.data 0 C.writesize)
  let ecccalc := calculateLoop C m buf b.ecccalc C.steps
  let ecccode := collectLoop C.eccpos page.oob b.ecccode (3 * C.steps)
  correctLoop C EccStats.count buf ecccode ecccalc m stats C.steps

/-- `busw`. -/
def Chip.busw (C : Chip) : ℕ := if C.wide then 2 else 1

/-- What `nand_read_subpage` needs of the spare area, for `n` steps from `start` on, is in one
piece. -/
def Chip.Contiguous (C : Chip) (start n : ℕ) : Prop :=
  ∀ i < 3 * n - 1, C.eccpos (i + start * 3) + 1 = C.eccpos (i + start * 3 + 1)

instance (C : Chip) (start n : ℕ) : Decidable (C.Contiguous start n) :=
  inferInstanceAs (Decidable (∀ i < 3 * n - 1, _))

/-- The spare area after `nand_read_subpage` has read what it needs for `n` steps from `start` on.
`& ~(busw - 1)` rounds down to a multiple of `busw`, and so does `nand_read_buf16` with the
length. -/
def subpageOob (page : Page) (oobPoi : ℕ → Byte) (start n : ℕ) : ℕ → Byte :=
  if C.Contiguous start n then
    let alignedPos := C.eccpos (start * 3) / C.busw * C.busw
    let alignedLen := 3 * n + (if C.eccpos (start * 3) % C.busw ≠ 0 then 1 else 0)
      + if C.eccpos ((start + n) * 3) % C.busw ≠ 0 then 1 else 0
    store oobPoi alignedPos (read page.oob alignedPos (alignedLen / C.busw * C.busw))
  else page.oob

/-- `nand_read_subpage` to `bufpoi`. -/
def nandReadSubpage (page : Page) (b : Buffers) (dataOffs readlen : ℕ) (m : ℕ → Byte)
    (bufpoi : ℕ) (stats : EccStats) : (ℕ → Byte) × EccStats :=
  let startStep := dataOffs / 256
  let endStep := (dataOffs + readlen - 1) / 256
  let numSteps := endStep - startStep + 1
  let dataColAddr := startStep * 256
  let p := bufpoi + dataColAddr
  let m := store m p (read page.data dataColAddr (numSteps * 256))
  let ecccalc := calculateLoop C m p b.ecccalc numSteps
  let oobPoi := subpageOob C page b.oobPoi startStep numSteps
  let ecccode := collectLoop (fun i => C.eccpos (i + startStep * 3)) oobPoi b.ecccode
    (3 * numSteps)
  correctLoop C EccStats.countSubpage p ecccode ecccalc m stats numSteps

/-! ### The loops -/

section Loops

variable {C} {m : ℕ → Byte} {p n : ℕ}

/-- The code of a step depends on the bytes of the step only. -/
theorem code_congr {smc : Bool} {m m' : ℕ → Byte} {p p' : ℕ}
    (h : ∀ i < 256, m (p + i) = m' (p' + i)) :
  code smc m p = code smc m' p'
  := by
  have hbuild : ∀ n ≤ 256, buildUp m p n = buildUp m' p' n := by
    intro n hn
    induction n with
    | zero => rfl
    | succ n ih => rw [buildUp, buildUp, ih (by omega), h n (by omega)]
  funext c
  rw [code, code, nandCalculateEcc, nandCalculateEcc, hbuild 256 le_rfl]

theorem length_nandCalculateEcc (smc : Bool) (m : ℕ → Byte) (p : ℕ) :
  (nandCalculateEcc smc m p).length = 3
  := rfl

theorem calculateLoop_apply (ecccalc : ℕ → Byte) {j c : ℕ} (hj : j < n) (hc : c < 3) :
  calculateLoop C m p ecccalc n (3 * j + c) = code C.smc m (p + 256 * j) c
  := by
  induction n with
  | zero => cases hj
  | succ n ih =>
    rw [calculateLoop]
    obtain rfl | hne := eq_or_ne j n
    · rw [store_add _ _ (by rw [length_nandCalculateEcc]; exact hc), code, List.getD_eq_getElem]
    · rw [store_of_lt _ (by omega)]
      exact ih (by omega)

theorem collectLoop_apply (eccpos : ℕ → ℕ) (oobPoi ecccode : ℕ → Byte) {i : ℕ} (hi : i < n) :
  collectLoop eccpos oobPoi ecccode n i = oobPoi (eccpos i)
  := by
  induction n with
  | zero => cases hi
  | succ n ih =>
    rw [collectLoop]
    obtain rfl | hne := eq_or_ne i n
    · rw [Function.update_self]
    · rw [Function.update_of_ne hne]
      exact ih (by omega)

theorem placeLoop_apply (ecccalc oobPoi : ℕ → Byte) {i : ℕ} (hn : n ≤ 3 * C.steps) (hi : i < n) :
  placeLoop C ecccalc oobPoi n (C.eccpos i) = ecccalc i
  := by
  induction n with
  | zero => cases hi
  | succ n ih =>
    rw [placeLoop]
    obtain rfl | hne := eq_or_ne i n
    · rw [Function.update_self]
    · have hpos : C.eccpos i ≠ C.eccpos n := by
        intro heq
        exact hne (C.eccpos_inj i (by omega) n (by omega) heq)
      rw [Function.update_of_ne hpos]
      exact ih (by omega) (by omega)

end Loops

/-! ### Damage -/

/-- What may happen to a step and its code. -/
inductive Damage where
  /-- No bit changes. -/
  | none
  /-- A bit changes. -/
  | one (f : Flip)
  /-- Two bits change that the code protects. -/
  | two (f g : Flip) (distinct : f ≠ g) (hf : ¬ f.Spare) (hg : ¬ g.Spare)

def Damage.flips : Damage → List Flip
  | .none => []
  | .one f => [f]
  | .two f g _ _ _ => [f, g]

/-- What `nand_correct_data` returns. -/
def Damage.stat : Damage → ℤ
  | .none => 0
  | .one _ => 1
  | .two _ _ _ _ _ => -ebadmsg

/-- The damage is corrected. -/
def Damage.single : Damage → Bool
  | .one _ => true
  | _ => false

/-- The damage is more than the code can correct. -/
def Damage.double : Damage → Bool
  | .two _ _ _ _ _ => true
  | _ => false

/-- What is read of a step that held the bytes `step`. -/
def Damage.result (step : ℕ → Byte) : Damage → ℕ → Byte
  | .two f g _ _ _ => onData 0 [f, g] step
  | _ => step

theorem Damage.result_eq {d : Damage} (h : d.double = false) (step : ℕ → Byte) :
  d.result step = step
  := by
  cases d with
  | none => rfl
  | one f => rfl
  | two f g _ _ _ => cases h

section Damaged

variable {C} {m step readEcc calcEcc : ℕ → Byte} {p n : ℕ} {smc : Bool}

/-- A flip at another address. -/
theorem onData_congr (f : Flip) {m m' : ℕ → Byte} {p p' : ℕ}
    (h : ∀ i < 256, m (p + i) = m' (p' + i)) :
  ∀ i < 256, f.onData p m (p + i) = f.onData p' m' (p' + i)
  := by
  intro i hi
  cases f with
  | data j k =>
    rw [Flip.onData, Flip.onData, flipBit_eq, flipBit_eq]
    dsimp only
    rw [h i hi]
    congr 1
    simp only [Nat.add_left_cancel_iff]
  | code j k => exact h i hi

theorem onData_frame (f : Flip) {q : ℕ} (hq : q < p ∨ p + 256 ≤ q) :
  f.onData p m q = m q
  := by
  cases f with
  | data j k => exact Function.update_of_ne (by omega) _ _
  | code j k => rfl

/-- A damaged step is read. -/
theorem correct_damage (d : Damage) (hdata : ∀ i < 256, m (p + i) = onData 0 d.flips step (0 + i))
    (hcode : ∀ c < 3, readEcc c = onCode d.flips (code smc step 0) c)
    (hcalc : ∀ c < 3, calcEcc c = code smc m p c) :
  (nandCorrectData smc m p readEcc calcEcc).2 = d.stat
    ∧ (∀ i < 256, (nandCorrectData smc m p readEcc calcEcc).1 (p + i) = d.result step i)
    ∧ ∀ q, q < p ∨ p + 256 ≤ q → (nandCorrectData smc m p readEcc calcEcc).1 q = m q
  := by
  have hflips : Syndrome.compare smc (onCode d.flips (code smc step 0))
      (code smc (onData 0 d.flips step) 0) = syndrome smc d.flips := syndrome_of_flips d.flips step
  have hcompare : Syndrome.compare smc readEcc calcEcc = syndrome smc d.flips := by
    rw [← hflips, Syndrome.compare,
      Syndrome.compare, hcode 0 (by omega), hcode 1 (by omega), hcode 2 (by omega),
      hcalc 0 (by omega), hcalc 1 (by omega), hcalc 2 (by omega), code_congr hdata]
  rw [nandCorrectData, hcompare]
  cases d with
  | none =>
    rw [show Damage.none.flips = [] from rfl, correct_nil]
    refine ⟨rfl, fun i hi => (hdata i hi).trans ?_, fun _ _ => rfl⟩
    rw [Nat.zero_add]
    rfl
  | one f =>
    rw [show (Damage.one f).flips = [f] from rfl, correct_one]
    refine ⟨rfl, fun i hi => (onData_congr f hdata i hi).trans ?_, fun q hq => onData_frame f hq⟩
    have hback : f.onData 0 (f.onData 0 step) (0 + i) = step (0 + i) :=
      congrFun (onData_onData f) (0 + i)
    rw [Nat.zero_add] at hback ⊢
    exact hback
  | two f g hne hf hg =>
    rw [show (Damage.two f g hne hf hg).flips = [f, g] from rfl, correct_two hne hf hg]
    refine ⟨rfl, fun i hi => (hdata i hi).trans ?_, fun _ _ => rfl⟩
    rw [Nat.zero_add]
    rfl

/-- The statistics after `n` steps with damage. -/
def EccStats.after (count : EccStats → ℤ → EccStats) (stats : EccStats) (d : ℕ → Damage) :
    ℕ → EccStats
  | 0 => stats
  | n + 1 => count (stats.after count d n) (d n).stat

variable (C m p n) in
/-- The steps are corrected one after the other. -/
theorem correctLoop_spec (count : EccStats → ℤ → EccStats) (stats : EccStats)
    (ecccode ecccalc : ℕ → Byte) (d : ℕ → Damage) (steps : ℕ → ℕ → Byte)
    (hdata : ∀ j < n, ∀ i < 256, m (p + 256 * j + i) = onData 0 (d j).flips (steps j) (0 + i))
    (hcode : ∀ j < n, ∀ c < 3,
      ecccode (3 * j + c) = onCode (d j).flips (code C.smc (steps j) 0) c)
    (hcalc : ∀ j < n, ∀ c < 3, ecccalc (3 * j + c) = code C.smc m (p + 256 * j) c) :
  (∀ q, q < p ∨ p + 256 * n ≤ q → (correctLoop C count p ecccode ecccalc m stats n).1 q = m q)
    ∧ (∀ j < n, ∀ i < 256, (correctLoop C count p ecccode ecccalc m stats n).1 (p + 256 * j + i)
      = (d j).result (steps j) i)
    ∧ (correctLoop C count p ecccode ecccalc m stats n).2 = stats.after count d n
  := by
  induction n with
  | zero => exact ⟨fun _ _ => rfl, fun j hj => absurd hj (Nat.not_lt_zero j), rfl⟩
  | succ n ih =>
    obtain ⟨hframe, hsteps, hstats⟩ := ih (fun j hj => hdata j (by omega))
      (fun j hj => hcode j (by omega)) fun j hj => hcalc j (by omega)
    -- the step that is corrected next is still as it was read
    have hsame : ∀ i < 256, (correctLoop C count p ecccode ecccalc m stats n).1 (p + 256 * n + i)
        = m (p + 256 * n + i) := fun i hi => hframe _ (by omega)
    obtain ⟨hstat, hresult, hrest⟩ := correct_damage (d n)
      (fun i hi => (hsame i hi).trans (hdata n (Nat.lt_succ_self n) i hi))
      (hcode n (Nat.lt_succ_self n))
      fun c hc => (hcalc n (Nat.lt_succ_self n) c hc).trans (by rw [code_congr hsame])
    rw [correctLoop]
    refine ⟨fun q hq => ?_, fun j hj i hi => ?_, ?_⟩
    · exact (hrest q (by omega)).trans (hframe q (by omega))
    · obtain rfl | hne := eq_or_ne j n
      · exact hresult i hi
      · exact (hrest _ (by omega)).trans (hsteps j (by omega) i hi)
    · dsimp only
      rw [hstat, hstats, EccStats.after]

end Damaged

/-! ### Whole pages -/

section Pages

variable {C} {page page' : Page} {bytes : ℕ → Byte} {d : ℕ → Damage}

/-- The bytes of a step. -/
def stepOf (bytes : ℕ → Byte) (j i : ℕ) : Byte := bytes (256 * j + i)

variable (C) in
/-- The damage between the time when a page was written and the time when it is read. -/
structure Damaged (page page' : Page) (d : ℕ → Damage) : Prop where
  data : ∀ j < C.steps, ∀ i < 256,
    page'.data (256 * j + i) = onData 0 (d j).flips (stepOf page.data j) (0 + i)
  code : ∀ j < C.steps, ∀ c < 3, page'.oob (C.eccpos (3 * j + c))
    = onCode (d j).flips (fun c => page.oob (C.eccpos (3 * j + c))) c

variable (C) in
/-- A page on which `bytes` were written, with damage. -/
structure Stores (page : Page) (bytes : ℕ → Byte) (d : ℕ → Damage) : Prop where
  data : ∀ j < C.steps, ∀ i < 256,
    page.data (256 * j + i) = onData 0 (d j).flips (stepOf bytes j) (0 + i)
  code : ∀ j < C.steps, ∀ c < 3, page.oob (C.eccpos (3 * j + c))
    = onCode (d j).flips (code C.smc (stepOf bytes j) 0) c

theorem onCode_congr (flips : List Flip) {ecc ecc' : ℕ → Byte} (h : ∀ c < 3, ecc c = ecc' c) :
  ∀ c < 3, onCode flips ecc c = onCode flips ecc' c
  := by
  induction flips generalizing ecc ecc' with
  | nil => exact h
  | cons f flips ih =>
    apply ih
    intro c hc
    cases f with
    | data j k => exact h c hc
    | code j k =>
      change flipBit ecc j k c = flipBit ecc' j k c
      rw [flipBit_eq, flipBit_eq]
      dsimp only
      rw [h c hc]

theorem Damaged.stores (hdamaged : Damaged C page page' d)
    (hstores : Stores C page bytes fun _ => .none) :
  Stores C page' bytes d
  := by
  constructor
  · intro j hj i hi
    have hstep : stepOf page.data j = fun i => stepOf page.data j i := rfl
    have hsame : ∀ i < 256, stepOf page.data j (0 + i) = stepOf bytes j (0 + i) := by
      intro i hi
      have hi := hstores.data j hj i hi
      rw [Nat.zero_add] at hi ⊢
      exact hi
    have hflips : ∀ (flips : List Flip) (m m' : ℕ → Byte), (∀ i < 256, m (0 + i) = m' (0 + i)) →
        ∀ i < 256, onData 0 flips m (0 + i) = onData 0 flips m' (0 + i) := by
      intro flips
      induction flips with
      | nil => exact fun _ _ h => h
      | cons f flips ih => exact fun m m' h => ih _ _ (onData_congr f h)
    rw [hdamaged.data j hj i hi]
    exact hflips _ _ _ hsame i hi
  · intro j hj c hc
    rw [hdamaged.code j hj c hc]
    exact onCode_congr _ (fun c hc => hstores.code j hj c hc) c hc

/-- What is written is stored. -/
theorem stores_write (b : Buffers) (m : ℕ → Byte) (buf : ℕ) :
  Stores C (nandWritePageSwecc C b m buf) (fun i => m (buf + i)) fun _ => .none
  := by
  constructor
  · intro j hj i hi
    rw [Nat.zero_add]
    rfl
  · intro j hj c hc
    rw [nandWritePageSwecc]
    dsimp only
    rw [placeLoop_apply _ _ le_rfl (by omega), calculateLoop_apply _ hj hc]
    refine congrFun (code_congr fun i _ => ?_) c
    rw [stepOf, Nat.zero_add, Nat.add_assoc]

/-- The part of a page that was read. -/
theorem store_read_apply (m data : ℕ → Byte) (p col : ℕ) {n i : ℕ} (h : i < n) :
  store m p (read data col n) (p + i) = data (col + i)
  := by
  rw [store_add _ _ (by rw [length_read]; exact h), getElem_read]

theorem read_stores (h : Stores C page bytes d) (b : Buffers) (m : ℕ → Byte) (buf : ℕ)
    (stats : EccStats) :
  (∀ q, q < buf ∨ buf + C.writesize ≤ q → (nandReadPageSwecc C page b m buf stats).1 q = m q)
    ∧ (∀ j < C.steps, ∀ i < 256, (nandReadPageSwecc C page b m buf stats).1 (buf + 256 * j + i)
      = (d j).result (stepOf bytes j) i)
    ∧ (nandReadPageSwecc C page b m buf stats).2 = stats.after EccStats.count d C.steps
  := by
  rw [nandReadPageSwecc]
  have hsize : C.writesize = C.steps * 256 := rfl
  obtain ⟨hframe, hsteps, hstats⟩ := correctLoop_spec C
    (store m buf (read page.data 0 C.writesize)) buf C.steps EccStats.count stats
    (collectLoop C.eccpos page.oob b.ecccode (3 * C.steps))
    (calculateLoop C (store m buf (read page.data 0 C.writesize)) buf b.ecccalc C.steps)
    d (stepOf bytes)
    (fun j hj i hi => by
      rw [Nat.add_assoc, store_read_apply _ _ _ _ (by omega), Nat.zero_add]
      exact h.data j hj i hi)
    (fun j hj c hc => by
      rw [collectLoop_apply _ _ _ (by omega)]
      exact h.code j hj c hc)
    fun j hj c hc => calculateLoop_apply _ hj hc
  refine ⟨fun q hq => (hframe q (by omega)).trans ?_, hsteps, hstats⟩
  obtain hq | hq := hq
  · exact store_of_lt _ hq
  · exact store_of_le _ (by rw [length_read]; exact hq)

/-- The steps with a changed bit, and those with two. -/
def singles (d : ℕ → Damage) (n : ℕ) : ℕ := (List.range n).countP fun j => (d j).single

def doubles (d : ℕ → Damage) (n : ℕ) : ℕ := (List.range n).countP fun j => (d j).double

theorem singles_succ (d : ℕ → Damage) (n : ℕ) :
  singles d (n + 1) = singles d n + if (d n).single then 1 else 0
  := by rw [singles, singles, List.range_succ, List.countP_append, List.countP_singleton]

theorem doubles_succ (d : ℕ → Damage) (n : ℕ) :
  doubles d (n + 1) = doubles d n + if (d n).double then 1 else 0
  := by rw [doubles, doubles, List.range_succ, List.countP_append, List.countP_singleton]

/-- Whole pages count the steps of both kinds. -/
theorem after_count (stats : EccStats) (d : ℕ → Damage) (n : ℕ) :
  stats.after EccStats.count d n
    = ⟨stats.corrected + BitVec.ofNat 32 (singles d n),
      stats.failed + BitVec.ofNat 32 (doubles d n)⟩
  := by
  induction n with
  | zero =>
    rw [EccStats.after]
    simp only [singles, doubles, List.range_zero, List.countP_nil, BitVec.add_zero]
  | succ n ih =>
    rw [EccStats.after, ih, singles_succ, doubles_succ, BitVec.ofNat_add, BitVec.ofNat_add,
      ← BitVec.add_assoc, ← BitVec.add_assoc]
    cases d n with
    | none => simp [EccStats.count, Damage.stat, Damage.single, Damage.double]
    | one f => simp [EccStats.count, Damage.stat, Damage.single, Damage.double]
    | two f g hne hf hg =>
      simp [EccStats.count, Damage.stat, Damage.single, Damage.double, ebadmsg]

/-- **A page is read back**: every step with at most one changed bit as it was written, and the
others are counted as failed. -/
theorem nandReadPageSwecc_written (C : Chip) (b b' : Buffers) (m m' : ℕ → Byte) (buf buf' : ℕ)
    (page : Page) (d : ℕ → Damage) (stats : EccStats)
    (h : Damaged C (nandWritePageSwecc C b m buf) page d) :
  (∀ j < C.steps, (d j).double = false → ∀ i < 256,
      (nandReadPageSwecc C page b' m' buf' stats).1 (buf' + (256 * j + i))
        = m (buf + (256 * j + i)))
    ∧ (∀ q, q < buf' ∨ buf' + C.writesize ≤ q →
      (nandReadPageSwecc C page b' m' buf' stats).1 q = m' q)
    ∧ (nandReadPageSwecc C page b' m' buf' stats).2
      = ⟨stats.corrected + BitVec.ofNat 32 (singles d C.steps),
        stats.failed + BitVec.ofNat 32 (doubles d C.steps)⟩
  := by
  obtain ⟨hframe, hsteps, hstats⟩ := read_stores (h.stores (stores_write b m buf)) b' m' buf' stats
  refine ⟨fun j hj hgood i hi => ?_, hframe, hstats.trans (after_count _ _ _)⟩
  rw [← Nat.add_assoc, hsteps j hj i hi, Damage.result_eq hgood]
  rfl

/-- A bit of the first step of a page is flipped. -/
def flipFirst (page : Page) : Page := { page with data := flipBit page.data 0 0 }

theorem damaged_flipFirst (page : Page) :
  Damaged smallChip page (flipFirst page) fun j => if j = 0 then .one (.data 0 0) else .none
  := by
  constructor
  · intro j hj i hi
    by_cases hzero : j = 0
    · subst hzero
      have hstep : stepOf page.data 0 = page.data := by
        funext i
        rw [stepOf, Nat.mul_zero, Nat.zero_add]
      rw [if_pos rfl, Nat.mul_zero, hstep]
      rfl
    · rw [if_neg hzero, Nat.zero_add, flipFirst]
      exact Function.update_of_ne (by omega) _ _
  · intro j hj c hc
    by_cases hzero : j = 0
    · rw [if_pos hzero]
      rfl
    · rw [if_neg hzero]
      rfl

/-- A page with a flipped bit is read back. -/
theorem nandReadPageSwecc_flipFirst :
  (nandReadPageSwecc smallChip
      (flipFirst (nandWritePageSwecc smallChip ⟨fun _ => 0, fun _ => 0, fun _ => 0⟩ (fun _ => 7) 0))
      ⟨fun _ => 0, fun _ => 0, fun _ => 0⟩ (fun _ => 0) 0 ⟨0, 0⟩).2 = ⟨1, 0⟩
  := (nandReadPageSwecc_written smallChip _ ⟨fun _ => 0, fun _ => 0, fun _ => 0⟩ _ (fun _ => 0) 0 0
    _ _ ⟨0, 0⟩ (damaged_flipFirst _)).2.2

end Pages

/-! ### Parts of pages -/

section Subpages

variable {C} {page : Page} {bytes : ℕ → Byte} {d : ℕ → Damage}

variable (C) in
/-- On a bus of 16 bits the last byte of a code is read: one that is at an odd place behind an even
number of bytes is so because the code of the next step begins at an odd place too. -/
def Chip.Covers : Prop :=
  C.wide = true → ∀ start n, start + n ≤ C.steps → C.Contiguous start n →
    (C.eccpos (start * 3) + 3 * n) % 2 = 1 → C.eccpos ((start + n) * 3) % 2 = 1

/-- The code is in one piece that begins and ends at even places, as in `nand_oob_64` and
`nand_oob_128`. -/
theorem covers_range' {first count : ℕ} (hfirst : first % 2 = 0) (hcount : count % 2 = 0)
    (hnodup : (List.range' first count).Nodup) (hlen : 3 ≤ (List.range' first count).length)
    (smc wide : Bool) :
  (Chip.ofLayout (List.range' first count) hnodup hlen smc wide).Covers
  := by
  intro _ start n hle _ hodd
  have heccpos : ∀ i < count, (List.range' first count).getD i 0 = first + i := by
    intro i hi
    rw [List.getD_eq_getElem _ _ (by rw [List.length_range']; exact hi), List.getElem_range',
      Nat.one_mul]
  change start + n ≤ (List.range' first count).length / 3 at hle
  change ((List.range' first count).getD (start * 3) 0 + 3 * n) % 2 = 1 at hodd
  change (List.range' first count).getD ((start + n) * 3) 0 % 2 = 1
  rw [List.length_range'] at hle
  by_cases hlast : (start + n) * 3 < count
  · rw [heccpos _ (by omega)] at hodd
    rw [heccpos _ hlast]
    omega
  · by_cases hn : n = 0
    · subst hn
      simpa using hodd
    · -- the code of the last step ends at an even place
      rw [heccpos _ (by omega)] at hodd
      omega

/-- All that is needed of the spare area is read, whatever is left there. -/
theorem subpageOob_apply (hcovers : C.Covers) (page : Page) (oobPoi : ℕ → Byte) {start n i : ℕ}
    (hle : start + n ≤ C.steps) (hi : i < 3 * n) :
  subpageOob C page oobPoi start n (C.eccpos (i + start * 3)) = page.oob (C.eccpos (i + start * 3))
  := by
  rw [subpageOob]
  by_cases hgaps : C.Contiguous start n
  case neg => rw [if_neg hgaps]
  rw [if_pos hgaps]
  -- without gaps the positions follow each other
  have hpos : C.eccpos (i + start * 3) = C.eccpos (start * 3) + i := by
    induction i with
    | zero => rw [Nat.zero_add, Nat.add_zero]
    | succ i ih =>
      have hnext := hgaps i (by omega)
      rw [Nat.add_right_comm, ← hnext, ih (by omega), Nat.add_assoc]
  have hround := Nat.div_add_mod' (C.eccpos (start * 3)) C.busw
  have hoff : C.eccpos (start * 3) % C.busw + i
      < (3 * n + (if C.eccpos (start * 3) % C.busw ≠ 0 then 1 else 0)
          + if C.eccpos ((start + n) * 3) % C.busw ≠ 0 then 1 else 0) / C.busw * C.busw := by
    rw [Chip.busw]
    cases hwide : C.wide with
    | false =>
      simp only [Bool.false_eq_true, if_false, Nat.mod_one, Nat.div_one, Nat.mul_one]
      omega
    | true =>
      have hodd := hcovers hwide start n hle hgaps
      rw [if_pos rfl]
      split_ifs <;> omega
  obtain ⟨k, hk⟩ : ∃ k, C.eccpos (i + start * 3)
      = C.eccpos (start * 3) / C.busw * C.busw + k := ⟨C.eccpos (start * 3) % C.busw + i, by omega⟩
  rw [hk]
  apply store_read_apply
  omega

/-- **A part of a page is read** like the page, but steps that cannot be corrected are not counted
as failed. -/
theorem nandReadSubpage_stores (hcovers : C.Covers) (h : Stores C page bytes d) (b : Buffers)
    (m : ℕ → Byte) (bufpoi : ℕ) (stats : EccStats) {dataOffs readlen : ℕ} (hlen : 0 < readlen)
    (hle : dataOffs + readlen ≤ C.writesize) :
  (∀ i, dataOffs ≤ i → i < dataOffs + readlen →
      (nandReadSubpage C page b dataOffs readlen m bufpoi stats).1 (bufpoi + i)
        = (d (i / 256)).result (stepOf bytes (i / 256)) (i % 256))
    ∧ (∀ q, q < bufpoi ∨ bufpoi + C.writesize ≤ q →
      (nandReadSubpage C page b dataOffs readlen m bufpoi stats).1 q = m q)
    ∧ (nandReadSubpage C page b dataOffs readlen m bufpoi stats).2
      = stats.after EccStats.countSubpage (fun j => d (dataOffs / 256 + j))
        ((dataOffs + readlen - 1) / 256 - dataOffs / 256 + 1)
  := by
  obtain ⟨start, hstart⟩ : ∃ start, start = dataOffs / 256 := ⟨_, rfl⟩
  obtain ⟨n, hn⟩ : ∃ n, n = (dataOffs + readlen - 1) / 256 - start + 1 := ⟨_, rfl⟩
  have hsize : C.writesize = C.steps * 256 := rfl
  have hend : start + n ≤ C.steps := by omega
  rw [nandReadSubpage, ← hstart, ← hn]
  obtain ⟨hframe, hsteps, hstats⟩ := correctLoop_spec C
    (store m (bufpoi + start * 256) (read page.data (start * 256) (n * 256)))
    (bufpoi + start * 256) n EccStats.countSubpage stats
    (collectLoop (fun i => C.eccpos (i + start * 3))
      (subpageOob C page b.oobPoi start n) b.ecccode (3 * n))
    (calculateLoop C
      (store m (bufpoi + start * 256) (read page.data (start * 256) (n * 256)))
      (bufpoi + start * 256) b.ecccalc n)
    (fun j => d (start + j)) (fun j => stepOf bytes (start + j))
    (fun j hj i hi => by
      rw [Nat.add_assoc, store_read_apply _ _ _ _ (by omega),
        show start * 256 + (256 * j + i) = 256 * (start + j) + i by omega]
      exact h.data (start + j) (by omega) i hi)
    (fun j hj c hc => by
      rw [collectLoop_apply _ _ _ (by omega), subpageOob_apply hcovers page _ hend (by omega),
        show 3 * j + c + start * 3 = 3 * (start + j) + c by omega]
      exact h.code (start + j) (by omega) c hc)
    fun j hj c hc => calculateLoop_apply _ hj hc
  refine ⟨fun i hlo hhi => ?_, fun q hq => (hframe q (by omega)).trans ?_, hstats⟩
  · have hstep := hsteps (i / 256 - start) (by omega) (i % 256) (Nat.mod_lt _ (by omega))
    rw [show start + (i / 256 - start) = i / 256 by omega,
      show bufpoi + start * 256 + 256 * (i / 256 - start) + i % 256 = bufpoi + i by omega] at hstep
    exact hstep
  · obtain hq | hq := hq
    · exact store_of_lt _ (by omega)
    · exact store_of_le _ (by rw [length_read]; omega)

theorem stat_correct_ne (s : Syndrome) (m : ℕ → Byte) (dat : ℕ) :
  (s.correct m dat).2 ≠ -1
  := by
  rw [Syndrome.correct]
  split_ifs
  · exact (by decide : (0 : ℤ) ≠ -1)
  · exact (by decide : (1 : ℤ) ≠ -1)
  · exact (by decide : (1 : ℤ) ≠ -1)
  · exact (by decide : -ebadmsg ≠ -1)

/-- **Nothing is counted as failed** when a part of a page is read, whatever is on the page. -/
theorem failed_nandReadSubpage (page : Page) (b : Buffers) (dataOffs readlen : ℕ) (m : ℕ → Byte)
    (bufpoi : ℕ) (stats : EccStats) :
  (nandReadSubpage C page b dataOffs readlen m bufpoi stats).2.failed = stats.failed
  := by
  have hloop : ∀ (p : ℕ) (ecccode ecccalc m : ℕ → Byte) (n : ℕ),
      (correctLoop C EccStats.countSubpage p ecccode ecccalc m stats n).2.failed
        = stats.failed := by
    intro p ecccode ecccalc m n
    induction n with
    | zero => rfl
    | succ n ih =>
      rw [correctLoop]
      dsimp only
      rw [nandCorrectData, EccStats.countSubpage, if_neg (stat_correct_ne _ _ _)]
      exact ih
  apply hloop

end Subpages

end NandPage
