import UBoot.Lib.Cells
import UBoot.Lib.Run
import UBoot.Env.Redundant

/-!
# The redundant environment in a NAND flash

`saveenv` and `env_relocate_spec` of `common/env_nand.c`.  The copies carry a serial
number of eight bits.  `saveenv` advances the number in RAM before it erases and writes the
other copy, and a failed attempt leaves it advanced, so that the number of the next copy
can be more than one ahead of the current one.  An erase that fails does not fail the attempt:
`nand_erase_opts` reports it on the console only, and the block is written all the same.  A read
that has to correct a bit ends `readenv`.  As long as each copy that is written goes to blocks that
were erased and has a number the comparison takes for the later one, and no boot fails to read it,
the next boot finds the environment saved last (`saveenv_run`).

The device is modelled down to the block: the loops skip bad blocks, and an erase or a write may
fail at any block with arbitrary contents left behind.
-/

namespace Env

namespace Nand

open Memory Cells

/-! ### The device -/

/-- What the board fixes: the blocks of the device and the places of the two copies. -/
structure Geometry where
  /-- The size of an erase block, `nand_info[0].erasesize`. -/
  blocksize : ℕ
  /-- `CONFIG_ENV_SIZE`. -/
  envSize : ℕ
  /-- `CONFIG_ENV_RANGE`. -/
  range : ℕ
  /-- `CONFIG_ENV_OFFSET` and `CONFIG_ENV_OFFSET_REDUND`. -/
  offset : Slot → ℕ
  /-- `nand_block_isbad`. -/
  isBad : ℕ → Bool
  /-- The data of the default environment, filled up with NULs. -/
  defaultEnvironment : List Byte
  blocksize_pos : 0 < blocksize
  aligned : blocksize ∣ range
  disjoint : ∀ t : Slot, offset t + range ≤ offset t.other ∨ offset t.other + range ≤ offset t
  length_default : defaultEnvironment.length + 5 = envSize

variable (G : Geometry)

/-- The bytes written to one block. -/
def Geometry.len : ℕ := min G.blocksize G.envSize

/-- The block with the number `k` of the copy `t` is one of those that the environment takes. -/
def Geometry.Takes (t : Slot) (k : ℕ) : Prop :=
  Taken G.blocksize G.isBad (G.offset t + G.range) G.len G.envSize (G.offset t) 0 k

/-- The loop of `nand_erase_opts`.  When the erase of the block at an address fails, `erase` gives
what the failure leaves in the block; the loop goes on. -/
def eraseLoop (erase : ℕ → Option (ℕ → Byte)) (stop : ℕ) (cells : ℕ → Byte) (addr : ℕ) : ℕ → Byte :=
  if addr < stop then
    if G.isBad addr then eraseLoop erase stop cells (addr + G.blocksize)
    else
      match erase addr with
      | some contents =>
        eraseLoop erase stop (overwritten cells addr G.blocksize contents) (addr + G.blocksize)
      | none => eraseLoop erase stop (erased cells addr G.blocksize) (addr + G.blocksize)
  else cells
  termination_by stop - addr
  decreasing_by
    all_goals
      have := G.blocksize_pos
      omega

/-- `nand_erase_opts`: the value that it returns, and the cells. -/
def nandEraseOpts (erase : ℕ → Option (ℕ → Byte)) (cells : ℕ → Byte) (offset length : ℕ) :
    ℤ × (ℕ → Byte) :=
  let eraseLength := if length < G.blocksize then G.blocksize else length
  (0, eraseLoop G erase (offset + eraseLength) cells offset)

/-- The loop of `writeenv`.  When the write to the block at an offset fails, `fault` gives
what the failure leaves in the block. -/
def writeLoop (fault : ℕ → Option (ℕ → Byte)) (buf : List Byte) (stop : ℕ) (cells : ℕ → Byte)
    (offset amountSaved : ℕ) : Bool × (ℕ → Byte) :=
  if amountSaved < G.envSize ∧ offset < stop then
    if G.isBad offset then writeLoop fault buf stop cells (offset + G.blocksize) amountSaved
    else
      match fault offset with
      | some contents => (false, overwritten cells offset G.len contents)
      | none =>
        writeLoop fault buf stop (programmed cells offset ((buf.drop amountSaved).take G.len))
          (offset + G.blocksize) (amountSaved + G.len)
  else (amountSaved = G.envSize, cells)
  termination_by stop - offset
  decreasing_by
    all_goals
      have := G.blocksize_pos
      omega

/-- `writeenv`, and whether it succeeds. -/
def writeenv (fault : ℕ → Option (ℕ → Byte)) (cells : ℕ → Byte) (t : Slot) (buf : List Byte) :
    Bool × (ℕ → Byte) :=
  writeLoop G fault buf (G.offset t + G.range) cells (G.offset t) 0

/-- No read finds a bit flip. -/
def noFlips : ℕ → Bool := fun _ => false

/-- The loop of `readenv`, with the bytes loaded so far.  In a block of `flips` the read finds a bit
flip: `nand_read` delivers the bytes, corrected, and returns `-EUCLEAN`. -/
def readLoop (flips : ℕ → Bool) (cells : ℕ → Byte) (stop offset : ℕ) (loaded : List Byte) :
    Bool × List Byte :=
  if loaded.length < G.envSize ∧ offset < stop then
    if G.isBad offset then readLoop flips cells stop (offset + G.blocksize) loaded
    else if flips offset then (false, loaded ++ read cells offset G.len)
    else readLoop flips cells stop (offset + G.blocksize) (loaded ++ read cells offset G.len)
  else (loaded.length = G.envSize, loaded)
  termination_by stop - offset
  decreasing_by
    all_goals
      have := G.blocksize_pos
      omega

/-- `readenv`: whether it succeeds, and the bytes that it has put into the buffer. -/
def readenv (flips : ℕ → Bool) (cells : ℕ → Byte) (t : Slot) : Bool × List Byte :=
  readLoop G flips cells (G.offset t + G.range) (G.offset t) []

/-- The copy at `t`, which is read when there are no bit flips. -/
def stored (cells : ℕ → Byte) (t : Slot) : Option Copy :=
  let r := readenv G noFlips cells t
  if r.1 then some (Copy.ofBytes r.2) else none

variable {G}

theorem not_noFlips (offset : ℕ) : ¬ noFlips offset = true := Bool.false_ne_true

theorem Geometry.len_le : G.len ≤ G.blocksize := Nat.min_le_left _ _

/-- A whole block lies before the end of the range. -/
theorem add_blocksize_le {stop offset : ℕ} (hdvd : G.blocksize ∣ stop - offset)
    (hlt : offset < stop) :
  offset + G.blocksize ≤ stop ∧ G.blocksize ∣ stop - (offset + G.blocksize)
  := by
  have hle := Nat.le_of_dvd (by omega) hdvd
  refine ⟨by omega, ?_⟩
  rw [← Nat.sub_sub]
  exact Nat.dvd_sub hdvd (Nat.dvd_refl _)

/-- `nand_erase_opts` changes nothing outside the range. -/
theorem eraseLoop_frame (erase : ℕ → Option (ℕ → Byte)) {stop : ℕ} (cells : ℕ → Byte) (addr : ℕ)
    (hdvd : G.blocksize ∣ stop - addr) {q : ℕ} (hq : q < addr ∨ stop ≤ q) :
  eraseLoop G erase stop cells addr q = cells q
  := by
  fun_induction eraseLoop G erase stop cells addr with
  | case1 cells addr hlt hbad ih =>
    obtain ⟨hle, hdvd'⟩ := add_blocksize_le hdvd hlt
    exact ih hdvd' (by omega)
  | case2 cells addr hlt hbad contents herase ih =>
    obtain ⟨hle, hdvd'⟩ := add_blocksize_le hdvd hlt
    rw [ih hdvd' (by omega)]
    exact overwritten_of_not (by omega)
  | case3 cells addr hlt hbad herase ih =>
    obtain ⟨hle, hdvd'⟩ := add_blocksize_le hdvd hlt
    rw [ih hdvd' (by omega)]
    exact if_neg (by omega)
  | case4 cells addr hstop => rfl

/-- A good block whose erase does not fail is erased. -/
theorem blank_eraseLoop (erase : ℕ → Option (ℕ → Byte)) {stop : ℕ} (cells : ℕ → Byte) (addr : ℕ)
    (hdvd : G.blocksize ∣ stop - addr) {k : ℕ}
    (hgood : good G.blocksize G.isBad stop addr k = true)
    (herase : erase (addr + k * G.blocksize) = none) :
  Blank (eraseLoop G erase stop cells addr) (addr + k * G.blocksize) G.blocksize
  := by
  fun_induction eraseLoop G erase stop cells addr generalizing k with
  | case1 cells addr hlt hbad ih =>
    cases k with
    | zero =>
      rw [good, Nat.zero_mul, Nat.add_zero, hbad, Bool.not_true, Bool.and_false] at hgood
      cases hgood
    | succ k =>
      rw [good_succ] at hgood
      rw [add_succ_mul] at herase ⊢
      exact ih (add_blocksize_le hdvd hlt).2 hgood herase
  | case2 cells addr hlt hbad contents hfail ih =>
    cases k with
    | zero =>
      rw [Nat.zero_mul, Nat.add_zero, hfail] at herase
      cases herase
    | succ k =>
      rw [good_succ] at hgood
      rw [add_succ_mul] at herase ⊢
      exact ih (add_blocksize_le hdvd hlt).2 hgood herase
  | case3 cells addr hlt hbad hok ih =>
    cases k with
    | zero =>
      intro q hq hq'
      rw [Nat.zero_mul, Nat.add_zero] at hq hq'
      rw [eraseLoop_frame erase _ _ (add_blocksize_le hdvd hlt).2 (.inl hq')]
      exact blank_erased cells addr G.blocksize q hq hq'
    | succ k =>
      rw [good_succ] at hgood
      rw [add_succ_mul] at herase ⊢
      exact ih (add_blocksize_le hdvd hlt).2 hgood herase
  | case4 cells addr hstop =>
    rw [good, Bool.and_eq_true, decide_eq_true_eq] at hgood
    omega

/-- `writeenv` changes nothing outside the range. -/
theorem writeLoop_frame (fault : ℕ → Option (ℕ → Byte)) (buf : List Byte) {stop : ℕ}
    (cells : ℕ → Byte) (offset amountSaved : ℕ) (hdvd : G.blocksize ∣ stop - offset) {q : ℕ}
    (hq : q < offset ∨ stop ≤ q) :
  (writeLoop G fault buf stop cells offset amountSaved).2 q = cells q
  := by
  fun_induction writeLoop G fault buf stop cells offset amountSaved with
  | case1 cells offset amountSaved hlt hbad ih =>
    obtain ⟨hle, hdvd'⟩ := add_blocksize_le hdvd hlt.2
    exact ih hdvd' (by omega)
  | case2 cells offset amountSaved hlt hbad contents hfault =>
    obtain ⟨hle, -⟩ := add_blocksize_le hdvd hlt.2
    have hlen := G.len_le
    exact overwritten_of_not (by omega)
  | case3 cells offset amountSaved hlt hbad hfault ih =>
    obtain ⟨hle, hdvd'⟩ := add_blocksize_le hdvd hlt.2
    have hlen := G.len_le
    rw [ih hdvd' (by omega)]
    apply programmed_of_not
    rw [List.length_take]
    omega
  | case4 cells offset amountSaved hstop => rfl

section ReadLoop

variable {flips : ℕ → Bool} {cells : ℕ → Byte} {stop offset : ℕ} {loaded : List Byte}

theorem readLoop_of_isBad (hlt : loaded.length < G.envSize ∧ offset < stop)
    (hbad : G.isBad offset = true) :
  readLoop G flips cells stop offset loaded
    = readLoop G flips cells stop (offset + G.blocksize) loaded
  := by rw [readLoop, if_pos hlt, if_pos hbad]

theorem readLoop_of_flip (hlt : loaded.length < G.envSize ∧ offset < stop)
    (hbad : ¬ G.isBad offset = true) (hflip : flips offset = true) :
  readLoop G flips cells stop offset loaded = (false, loaded ++ read cells offset G.len)
  := by rw [readLoop, if_pos hlt, if_neg hbad, if_pos hflip]

theorem readLoop_of_read (hlt : loaded.length < G.envSize ∧ offset < stop)
    (hbad : ¬ G.isBad offset = true) (hflip : ¬ flips offset = true) :
  readLoop G flips cells stop offset loaded
    = readLoop G flips cells stop (offset + G.blocksize) (loaded ++ read cells offset G.len)
  := by rw [readLoop, if_pos hlt, if_neg hbad, if_neg hflip]

theorem readLoop_of_stop (hstop : ¬ (loaded.length < G.envSize ∧ offset < stop)) :
  readLoop G flips cells stop offset loaded = (decide (loaded.length = G.envSize), loaded)
  := by rw [readLoop, if_neg hstop]

end ReadLoop

theorem readLoop_congr {cells cells' : ℕ → Byte} (flips : ℕ → Bool) {stop offset : ℕ}
    (loaded : List Byte) (hdvd : G.blocksize ∣ stop - offset)
    (h : ∀ q, offset ≤ q → q < stop → cells' q = cells q) :
  readLoop G flips cells' stop offset loaded = readLoop G flips cells stop offset loaded
  := by
  have hread {offset : ℕ} (hdvd : G.blocksize ∣ stop - offset) (hlt : offset < stop)
      (h : ∀ q, offset ≤ q → q < stop → cells' q = cells q) :
      read cells' offset G.len = read cells offset G.len := by
    obtain ⟨hle, -⟩ := add_blocksize_le hdvd hlt
    have hlen := G.len_le
    apply read_congr
    intro q hq hq'
    exact h q hq (by omega)
  fun_induction readLoop G flips cells stop offset loaded with
  | case1 offset loaded hlt hbad ih =>
    obtain ⟨-, hdvd'⟩ := add_blocksize_le hdvd hlt.2
    rw [readLoop_of_isBad hlt hbad]
    exact ih hdvd' fun q hq => h q (by omega)
  | case2 offset loaded hlt hbad hflip =>
    rw [readLoop_of_flip hlt hbad hflip, hread hdvd hlt.2 h]
  | case3 offset loaded hlt hbad hflip ih =>
    obtain ⟨-, hdvd'⟩ := add_blocksize_le hdvd hlt.2
    rw [readLoop_of_read hlt hbad hflip, hread hdvd hlt.2 h]
    exact ih hdvd' fun q hq => h q (by omega)
  | case4 offset loaded hstop => rw [readLoop_of_stop hstop]

theorem writeLoop_amountSaved_le (fault : ℕ → Option (ℕ → Byte)) (buf : List Byte) {stop : ℕ}
    (cells : ℕ → Byte) (offset amountSaved : ℕ)
    (h : (writeLoop G fault buf stop cells offset amountSaved).1 = true) :
  amountSaved ≤ G.envSize
  := by
  fun_induction writeLoop G fault buf stop cells offset amountSaved with
  | case1 cells offset amountSaved hlt hbad ih => exact Nat.le_of_lt hlt.1
  | case2 cells offset amountSaved hlt hbad contents hfault => exact Nat.le_of_lt hlt.1
  | case3 cells offset amountSaved hlt hbad hfault ih => exact Nat.le_of_lt hlt.1
  | case4 cells offset amountSaved hstop =>
    have := of_decide_eq_true h
    omega

/-- What a successful loop has written to erased blocks is what the loop of `readenv` loads. -/
theorem readLoop_writeLoop (fault : ℕ → Option (ℕ → Byte)) (buf : List Byte) {stop : ℕ}
    (cells : ℕ → Byte) (offset amountSaved : ℕ) (hbuf : buf.length = G.envSize)
    (hdvd : G.blocksize ∣ stop - offset)
    (hblank : ∀ k, Taken G.blocksize G.isBad stop G.len G.envSize offset amountSaved k →
      Blank cells (offset + k * G.blocksize) G.len)
    (h : (writeLoop G fault buf stop cells offset amountSaved).1 = true) :
  readLoop G noFlips (writeLoop G fault buf stop cells offset amountSaved).2 stop offset
    (buf.take amountSaved) = (true, buf)
  := by
  have hle := writeLoop_amountSaved_le fault buf cells offset amountSaved h
  fun_induction writeLoop G fault buf stop cells offset amountSaved with
  | case1 cells offset amountSaved hlt hbad ih =>
    obtain ⟨-, hdvd'⟩ := add_blocksize_le hdvd hlt.2
    rw [forall_taken_of_isBad (fun a _ => Blank cells a G.len) hbad] at hblank
    rw [readLoop_of_isBad (by rw [List.length_take]; omega) hbad]
    exact ih hdvd' hblank h hle
  | case2 cells offset amountSaved hlt hbad contents hfault => simp at h
  | case3 cells offset amountSaved hlt hbad hfault ih =>
    obtain ⟨-, hdvd'⟩ := add_blocksize_le hdvd hlt.2
    have hsaved := writeLoop_amountSaved_le fault buf _ _ _ h
    have hlen := G.len_le
    have hchunk : ((buf.drop amountSaved).take G.len).length = G.len := by
      rw [List.length_take, List.length_drop]
      omega
    rw [forall_taken_of_good (fun a _ => Blank cells a G.len) hlt.2 hbad hlt.1] at hblank
    have hfirst : Blank cells offset ((buf.drop amountSaved).take G.len).length := by
      rw [hchunk]
      exact hblank.1
    -- the rest of the loop writes behind this block
    have hread : read (writeLoop G fault buf stop
        (programmed cells offset ((buf.drop amountSaved).take G.len)) (offset + G.blocksize)
        (amountSaved + G.len)).2 offset G.len = (buf.drop amountSaved).take G.len := by
      have hstore := read_store cells offset ((buf.drop amountSaved).take G.len)
      rw [hchunk] at hstore
      apply Eq.trans _ hstore
      apply read_congr
      intro q _ hq
      rw [writeLoop_frame fault buf _ _ _ hdvd' (by omega), programmed_of_blank hfirst]
    rw [readLoop_of_read (by rw [List.length_take]; omega) hbad (not_noFlips offset), hread,
      ← List.take_add]
    refine ih hdvd' (fun k hk => ?_) h hsaved
    intro q hq hq'
    rw [programmed_of_not (by omega)]
    exact hblank.2 k hk q hq hq'
  | case4 cells offset amountSaved hstop =>
    have heq := of_decide_eq_true h
    rw [readLoop_of_stop (by rw [List.length_take]; omega), List.take_of_length_le (by omega),
      decide_eq_true hbuf]

/-- Changes outside the range of a copy leave the copy alone. -/
theorem stored_congr {cells cells' : ℕ → Byte} {t : Slot}
    (h : ∀ q, G.offset t ≤ q → q < G.offset t + G.range → cells' q = cells q) :
  stored G cells' t = stored G cells t
  := by
  have hdvd : G.blocksize ∣ G.offset t + G.range - G.offset t := by
    rw [Nat.add_sub_cancel_left]
    exact G.aligned
  have hread : readenv G noFlips cells' t = readenv G noFlips cells t :=
    readLoop_congr noFlips [] hdvd h
  rw [stored, stored, hread]

/-- What `writeenv` has written to erased blocks is what is stored. -/
theorem stored_writeenv {fault : ℕ → Option (ℕ → Byte)} {cells : ℕ → Byte} {t : Slot} {e : Copy}
    (hlen : e.data.length + 5 = G.envSize)
    (hblank : ∀ k, G.Takes t k → Blank cells (G.offset t + k * G.blocksize) G.len)
    (h : (writeenv G fault cells t e.bytes).1 = true) :
  stored G (writeenv G fault cells t e.bytes).2 t = some e
  := by
  have hdvd : G.blocksize ∣ G.offset t + G.range - G.offset t := by
    rw [Nat.add_sub_cancel_left]
    exact G.aligned
  have hbuf : e.bytes.length = G.envSize := by rw [e.length_bytes, hlen]
  have hread := readLoop_writeLoop fault e.bytes cells (G.offset t) 0 hbuf hdvd hblank h
  rw [List.take_zero] at hread
  rw [stored, readenv, writeenv, hread]
  simp only [if_true, e.ofBytes_bytes]

theorem writeenv_frame (fault : ℕ → Option (ℕ → Byte)) (cells : ℕ → Byte) (t : Slot)
    (buf : List Byte) {q : ℕ} (hq : q < G.offset t ∨ G.offset t + G.range ≤ q) :
  (writeenv G fault cells t buf).2 q = cells q
  := by
  apply writeLoop_frame fault buf _ _ _ _ hq
  rw [Nat.add_sub_cancel_left]
  exact G.aligned

theorem stored_eq_some_iff {cells : ℕ → Byte} {t : Slot} {e : Copy} :
  stored G cells t = some e
    ↔ (readenv G noFlips cells t).1 = true ∧ Copy.ofBytes (readenv G noFlips cells t).2 = e
  := by simp only [stored, Option.ite_none_right_eq_some, Option.some.injEq]

section Reading

variable {flips : ℕ → Bool} {cells : ℕ → Byte} {stop offset : ℕ} {loaded : List Byte} {t : Slot}

/-- A loop that succeeds has loaded the whole environment. -/
theorem length_readLoop (h : (readLoop G flips cells stop offset loaded).1 = true) :
  (readLoop G flips cells stop offset loaded).2.length = G.envSize
  := by
  fun_induction readLoop G flips cells stop offset loaded with
  | case1 offset loaded hlt hbad ih => exact ih h
  | case2 offset loaded hlt hbad hflip => cases h
  | case3 offset loaded hlt hbad hflip ih => exact ih h
  | case4 offset loaded hstop => exact of_decide_eq_true h

/-- What is loaded as a whole is what is loaded without bit flips. -/
theorem readLoop_of_length
    (h : (readLoop G flips cells stop offset loaded).2.length = G.envSize) :
  readLoop G noFlips cells stop offset loaded
    = (true, (readLoop G flips cells stop offset loaded).2)
  := by
  fun_induction readLoop G flips cells stop offset loaded with
  | case1 offset loaded hlt hbad ih =>
    rw [readLoop_of_isBad hlt hbad]
    exact ih h
  | case2 offset loaded hlt hbad hflip =>
    -- the read with the flip was the last one
    have hstop : ¬ ((loaded ++ read cells offset G.len).length < G.envSize
        ∧ offset + G.blocksize < stop) := by
      rw [h]
      omega
    rw [readLoop_of_read hlt hbad (not_noFlips offset), readLoop_of_stop hstop, decide_eq_true h]
  | case3 offset loaded hlt hbad hflip ih =>
    rw [readLoop_of_read hlt hbad (not_noFlips offset)]
    exact ih h
  | case4 offset loaded hstop => rw [readLoop_of_stop hstop, decide_eq_true h]

/-- Where no block is taken, nothing is loaded. -/
theorem readLoop_of_not_taken
    (h : ∀ k, ¬ Taken G.blocksize G.isBad stop G.len G.envSize offset loaded.length k) :
  (readLoop G flips cells stop offset loaded).2 = loaded
  := by
  fun_induction readLoop G flips cells stop offset loaded with
  | case1 offset loaded hlt hbad ih =>
    exact ih fun k hk => h (k + 1) ((taken_succ_of_isBad hbad).mpr hk)
  | case2 offset loaded hlt hbad hflip => exact absurd (taken_zero hlt.2 hbad hlt.1) (h 0)
  | case3 offset loaded hlt hbad hflip ih => exact absurd (taken_zero hlt.2 hbad hlt.1) (h 0)
  | case4 offset loaded hstop => rfl

/-- A bit flip in the last of the blocks that are taken does no harm. -/
theorem readLoop_of_last
    (h : ∀ k, Taken G.blocksize G.isBad stop G.len G.envSize offset loaded.length k →
      flips (offset + k * G.blocksize) = true →
        ∀ k', k < k' →
          ¬ Taken G.blocksize G.isBad stop G.len G.envSize offset loaded.length k') :
  (readLoop G flips cells stop offset loaded).2 = (readLoop G noFlips cells stop offset loaded).2
  := by
  fun_induction readLoop G flips cells stop offset loaded with
  | case1 offset loaded hlt hbad ih =>
    rw [readLoop_of_isBad hlt hbad]
    apply ih
    intro k hk hflip k' hlt hk'
    rw [← taken_succ_of_isBad hbad] at hk hk'
    rw [← add_succ_mul] at hflip
    exact h _ hk hflip _ (Nat.succ_lt_succ hlt) hk'
  | case2 offset loaded hlt hbad hflip =>
    rw [readLoop_of_read hlt hbad (not_noFlips offset)]
    symm
    apply readLoop_of_not_taken
    intro k hk
    rw [List.length_append, length_read, ← taken_succ_of_good hlt.2 hbad] at hk
    refine h 0 (taken_zero hlt.2 hbad hlt.1) ?_ _ (Nat.succ_pos k) hk
    rwa [Nat.zero_mul, Nat.add_zero]
  | case3 offset loaded hlt hbad hflip ih =>
    rw [readLoop_of_read hlt hbad (not_noFlips offset)]
    rw [List.length_append, length_read] at ih
    apply ih
    intro k hk hflip k' hlt' hk'
    rw [← taken_succ_of_good hlt.2 hbad] at hk hk'
    rw [← add_succ_mul] at hflip
    exact h _ hk hflip _ (Nat.succ_lt_succ hlt') hk'
  | case4 offset loaded hstop => rw [readLoop_of_stop hstop]

variable (G) in
/-- A block of the copy `t` with a bit flip is the last one that the environment takes: when
`readenv` returns there, it has read the whole copy. -/
def Whole (flips : ℕ → Bool) (t : Slot) : Prop :=
  ∀ k, G.Takes t k → flips (G.offset t + k * G.blocksize) = true → ∀ k', k < k' → ¬ G.Takes t k'

variable (G) in
/-- The buffer for the copy `t`, which `malloc` gave with the contents `heap`, after `readenv`. -/
def tmpEnv (flips : ℕ → Bool) (cells : ℕ → Byte) (heap : Slot → ℕ → Byte) (t : Slot) : Copy :=
  Copy.ofBytes (read (store (heap t) 0 (readenv G flips cells t).2) 0 G.envSize)

variable {heap : Slot → ℕ → Byte}

theorem length_data_of_stored {e : Copy} (h : stored G cells t = some e) :
  e.data.length + 5 = G.envSize
  := by
  obtain ⟨hok, rfl⟩ := stored_eq_some_iff.mp h
  have hdef := G.length_default
  have hlen := length_readLoop hok
  simp only [Copy.ofBytes, List.length_drop, readenv]
  omega

theorem tmpEnv_of_length (h : (readenv G flips cells t).2.length = G.envSize) :
  tmpEnv G flips cells heap t = Copy.ofBytes (readenv G flips cells t).2
  := by rw [tmpEnv, ← h, read_store]

/-- A copy that is loaded as a whole is the one that is stored. -/
theorem stored_of_length (heap : Slot → ℕ → Byte)
    (h : (readenv G flips cells t).2.length = G.envSize) :
  stored G cells t = some (tmpEnv G flips cells heap t)
  := by
  have hloop : readenv G noFlips cells t = (true, (readenv G flips cells t).2) :=
    readLoop_of_length h
  rw [stored_eq_some_iff, tmpEnv_of_length h, hloop]
  exact ⟨rfl, rfl⟩

/-- A copy that is stored is loaded when no bit flip does harm. -/
theorem Whole.tmpEnv_eq (h : Whole G flips t) {e : Copy} (he : stored G cells t = some e) :
  tmpEnv G flips cells heap t = e
  := by
  obtain ⟨hok, rfl⟩ := stored_eq_some_iff.mp he
  have hloop : (readenv G flips cells t).2 = (readenv G noFlips cells t).2 := readLoop_of_last h
  have hlen : (readenv G flips cells t).2.length = G.envSize := by
    rw [hloop]
    exact length_readLoop hok
  rw [tmpEnv_of_length hlen, hloop]

end Reading

/-! ### Saving and booting -/

/-- The device, the global data, the environment in RAM, and what a reader of the history
knows: the data of the last environment whose `saveenv` has reported success. -/
structure State where
  cells : ℕ → Byte
  envValid : Slot
  env : Copy
  saved : Option (List Byte)

variable (G) in
/-- What happens to the environment.  A reset in the middle of `saveenv` is a failed
attempt, with the contents the device is left with, and a reset after it. -/
inductive Event where
  /-- An edit in RAM, which renews the checksum. -/
  | edit (data : List Byte) (h : data.length + 5 = G.envSize)
  /-- A call of `saveenv`: what a failing erase and what a failing write leave in the block at an
  offset. -/
  | save (erase fault : ℕ → Option (ℕ → Byte))
  /-- A reset: what is in the two buffers that the next boot allocates, or `none` when there is no
  memory for them, and the blocks in which its reads find a bit flip. -/
  | reset (heap : Option (Slot → ℕ → Byte)) (flips : ℕ → Bool)

/-- The environment that `saveenv` writes. -/
def State.nextEnv (s : State) : Copy := { s.env with flags := s.env.flags + 1 }

variable (G) in
/-- The cells after the erase of the copy `t`. -/
def erasedCopy (erase : ℕ → Option (ℕ → Byte)) (cells : ℕ → Byte) (t : Slot) : ℕ → Byte :=
  (nandEraseOpts G erase cells (G.offset t) G.range).2

variable (G) in
/-- `saveenv`, and whether it reports success. -/
def saveenv (erase fault : ℕ → Option (ℕ → Byte)) (s : State) : Bool × State :=
  let env := s.nextEnv
  if G.range < G.envSize then (false, { s with env := env })
  else
    let target := s.envValid.other
    let r := nandEraseOpts G erase s.cells (G.offset target) G.range
    if r.1 ≠ 0 then (false, { s with env := env, cells := r.2 })
    else
      let w := writeenv G fault r.2 target env.bytes
      if w.1 then
        (true, { cells := w.2, envValid := target, env := env, saved := some env.data })
      else (false, { s with env := env, cells := w.2 })

/-- The choice between two good copies by their serial numbers. -/
def chooseByFlags (flags₁ flags₂ : Byte) : Slot :=
  if flags₁ = 255 ∧ flags₂ = 0 then .second
  else if flags₂ = 255 ∧ flags₁ = 0 then .first
  else if flags₁ > flags₂ then .first
  else if flags₂ > flags₁ then .second
  else .first

variable (G) in
/-- What `use_default` leaves. -/
def useDefault : Copy := ⟨Crc32.crc32 0 G.defaultEnvironment, 0xff, G.defaultEnvironment⟩

variable (G) in
/-- `env_relocate_spec`: the copy that is used and the environment in RAM. -/
def envRelocateSpec (flips : ℕ → Bool) (cells : ℕ → Byte) :
    Option (Slot → ℕ → Byte) → Slot × Copy
  | none => (.first, useDefault G)
  | some heap =>
    let tmpEnv1 := tmpEnv G flips cells heap .first
    let tmpEnv2 := tmpEnv G flips cells heap .second
    if ¬ tmpEnv1.CrcOk ∧ ¬ tmpEnv2.CrcOk then (.first, useDefault G)
    else if tmpEnv1.CrcOk ∧ ¬ tmpEnv2.CrcOk then (.first, tmpEnv1)
    else if ¬ tmpEnv1.CrcOk ∧ tmpEnv2.CrcOk then (.second, tmpEnv2)
    else
      match chooseByFlags tmpEnv1.flags tmpEnv2.flags with
      | .first => (.first, tmpEnv1)
      | .second => (.second, tmpEnv2)

variable (G) in
/-- One event. -/
def step (s : State) : Event G → Option State
  | .edit data _ => some { s with env := s.env.edit data }
  | .save erase fault => some (saveenv G erase fault s).2
  | .reset heap flips =>
    let r := envRelocateSpec G flips s.cells heap
    some { s with envValid := r.1, env := r.2 }

/-- The number `new` of the copy `t` is taken to be later than the number `old` of the
other. -/
def Later (t : Slot) (new old : Byte) : Prop :=
  (new = 0 ∧ old = 255) ∨ (old < new ∧ ¬ (old = 0 ∧ new = 255)) ∨ (new = old ∧ t = .first)

instance (t : Slot) (new old : Byte) : Decidable (Later t new old) :=
  inferInstanceAs (Decidable (_ ∨ _))

theorem chooseByFlags_eq_first {a b : Byte} :
  chooseByFlags a b = .first ↔ Later .first a b
  := by
  unfold chooseByFlags Later
  grind

theorem chooseByFlags_eq_second {a b : Byte} :
  chooseByFlags a b = .second ↔ Later .second b a
  := by
  unfold chooseByFlags Later
  grind

variable (G) in
/-- The copy `t` is good, and the other is bad or has an earlier number. -/
def Latest (flips : ℕ → Bool) (cells : ℕ → Byte) (heap : Slot → ℕ → Byte) (t : Slot) : Prop :=
  (tmpEnv G flips cells heap t).CrcOk
    ∧ ((tmpEnv G flips cells heap t.other).CrcOk →
      Later t (tmpEnv G flips cells heap t).flags (tmpEnv G flips cells heap t.other).flags)

variable {flips : ℕ → Bool} {cells : ℕ → Byte} {heap : Slot → ℕ → Byte}

theorem Latest.envRelocateSpec_eq {t : Slot}
    (h : Latest G flips cells heap t) :
  envRelocateSpec G flips cells (some heap) = (t, tmpEnv G flips cells heap t)
  := by
  obtain ⟨hok, hlater⟩ := h
  cases t with
  | first =>
    simp only [Slot.other] at hlater
    by_cases hother : (tmpEnv G flips cells heap .second).CrcOk
    · simp [envRelocateSpec, hok, hother, chooseByFlags_eq_first.mpr (hlater hother)]
    · simp [envRelocateSpec, hok, hother]
  | second =>
    simp only [Slot.other] at hlater
    by_cases hother : (tmpEnv G flips cells heap .first).CrcOk
    · simp [envRelocateSpec, hok, hother, chooseByFlags_eq_second.mpr (hlater hother)]
    · simp [envRelocateSpec, hok, hother]

theorem exists_latest {t : Slot}
    (hok : (tmpEnv G flips cells heap t).CrcOk) :
  ∃ t, Latest G flips cells heap t
  := by
  by_cases h₁ : (tmpEnv G flips cells heap .first).CrcOk
  · by_cases h₂ : (tmpEnv G flips cells heap .second).CrcOk
    · cases hchoose : chooseByFlags (tmpEnv G flips cells heap .first).flags
          (tmpEnv G flips cells heap .second).flags with
      | first => exact ⟨.first, h₁, fun _ => chooseByFlags_eq_first.mp hchoose⟩
      | second => exact ⟨.second, h₂, fun _ => chooseByFlags_eq_second.mp hchoose⟩
    · exact ⟨.first, h₁, fun h => absurd h h₂⟩
  · cases t with
    | first => contradiction
    | second => exact ⟨.second, hok, fun h => absurd h h₁⟩

theorem envRelocateSpec_default (h : ∀ t, ¬ (tmpEnv G flips cells heap t).CrcOk) :
  envRelocateSpec G flips cells (some heap) = (.first, useDefault G)
  := by
  simp [envRelocateSpec, h]

/-! ### One call of `saveenv` -/

variable {s : State} {erase fault : ℕ → Option (ℕ → Byte)}

variable (G) in
/-- The attempt reports success: no write of a block fails. -/
def Accepted (s : State) (erase fault : ℕ → Option (ℕ → Byte)) : Prop :=
  G.envSize ≤ G.range
    ∧ (writeenv G fault (erasedCopy G erase s.cells s.envValid.other) s.envValid.other
        s.nextEnv.bytes).1 = true

variable (G) in
/-- The erase of each block that the environment takes succeeds. -/
def BlocksErased (s : State) (erase : ℕ → Option (ℕ → Byte)) : Prop :=
  ∀ k, G.Takes s.envValid.other k → erase (G.offset s.envValid.other + k * G.blocksize) = none

/-- A range with room for the environment has room for a block. -/
theorem erasedCopy_eq (hrange : G.envSize ≤ G.range) (erase : ℕ → Option (ℕ → Byte))
    (cells : ℕ → Byte) (t : Slot) :
  erasedCopy G erase cells t = eraseLoop G erase (G.offset t + G.range) cells (G.offset t)
  := by
  have hdef := G.length_default
  have hle := Nat.le_of_dvd (by omega) G.aligned
  rw [erasedCopy, nandEraseOpts, if_neg (Nat.not_lt.mpr hle)]

theorem erasedCopy_frame (hrange : G.envSize ≤ G.range) (erase : ℕ → Option (ℕ → Byte))
    (cells : ℕ → Byte) (t : Slot) {q : ℕ} (hq : q < G.offset t ∨ G.offset t + G.range ≤ q) :
  erasedCopy G erase cells t q = cells q
  := by
  rw [erasedCopy_eq hrange]
  apply eraseLoop_frame erase cells _ _ hq
  rw [Nat.add_sub_cancel_left]
  exact G.aligned

theorem BlocksErased.blank (h : BlocksErased G s erase) (hrange : G.envSize ≤ G.range) {k : ℕ}
    (hk : G.Takes s.envValid.other k) :
  Blank (erasedCopy G erase s.cells s.envValid.other)
    (G.offset s.envValid.other + k * G.blocksize) G.len
  := by
  have hdvd : G.blocksize ∣ G.offset s.envValid.other + G.range - G.offset s.envValid.other := by
    rw [Nat.add_sub_cancel_left]
    exact G.aligned
  have hlen := G.len_le
  intro q hq hq'
  rw [erasedCopy_eq hrange]
  exact blank_eraseLoop erase s.cells _ hdvd hk.good (h k hk) q hq (by omega)

/-- The current copy is out of reach of a call. -/
theorem stored_current {cells cells' : ℕ → Byte} {t : Slot}
    (h : ∀ q, q < G.offset t.other ∨ G.offset t.other + G.range ≤ q → cells' q = cells q) :
  stored G cells' t = stored G cells t
  := by
  have hdisj := G.disjoint t
  apply stored_congr
  intro q hq hq'
  apply h
  omega

theorem saveenv_eq (hrange : G.envSize ≤ G.range) :
  saveenv G erase fault s
    = let w := writeenv G fault (erasedCopy G erase s.cells s.envValid.other) s.envValid.other
        s.nextEnv.bytes
      if w.1 then
        (true, { cells := w.2, envValid := s.envValid.other, env := s.nextEnv,
                 saved := some s.nextEnv.data })
      else (false, { s with env := s.nextEnv, cells := w.2 })
  := by
  have hret : ¬ (nandEraseOpts G erase s.cells (G.offset s.envValid.other) G.range).1 ≠ 0 :=
    not_not_intro rfl
  simp only [saveenv, if_neg (Nat.not_lt.mpr hrange), if_neg hret]
  rfl

/-- An attempt leaves the current copy alone. -/
theorem stored_attempt (hrange : G.envSize ≤ G.range) (s : State)
    (erase fault : ℕ → Option (ℕ → Byte)) :
  stored G (writeenv G fault (erasedCopy G erase s.cells s.envValid.other) s.envValid.other
      s.nextEnv.bytes).2 s.envValid
    = stored G s.cells s.envValid
  := by
  apply stored_current
  intro q hq
  rw [writeenv_frame fault _ _ _ hq, erasedCopy_frame hrange _ _ _ hq]

theorem saveenv_accepted (hlen : s.env.data.length + 5 = G.envSize)
    (h : Accepted G s erase fault) (herased : BlocksErased G s erase) :
  ∃ cells, saveenv G erase fault s
      = (true, ⟨cells, s.envValid.other, s.nextEnv, some s.env.data⟩)
    ∧ stored G cells s.envValid.other = some s.nextEnv
    ∧ stored G cells s.envValid = stored G s.cells s.envValid
  := by
  obtain ⟨hrange, hwrite⟩ := h
  refine ⟨(writeenv G fault (erasedCopy G erase s.cells s.envValid.other) s.envValid.other
    s.nextEnv.bytes).2, ?_, ?_, stored_attempt hrange s erase fault⟩
  · simp only [saveenv_eq hrange, hwrite, if_true]
    rfl
  · exact stored_writeenv hlen (fun k hk => herased.blank hrange hk) hwrite

theorem saveenv_failed (h : ¬ Accepted G s erase fault) :
  ∃ cells, saveenv G erase fault s = (false, { s with env := s.nextEnv, cells := cells })
    ∧ stored G cells s.envValid = stored G s.cells s.envValid
  := by
  by_cases hrange : G.range < G.envSize
  · exact ⟨s.cells, by simp [saveenv, hrange], rfl⟩
  · rw [Nat.not_lt] at hrange
    have hwrite : ¬ (writeenv G fault (erasedCopy G erase s.cells s.envValid.other)
        s.envValid.other s.nextEnv.bytes).1 = true := fun hwrite => h ⟨hrange, hwrite⟩
    refine ⟨_, ?_, stored_attempt hrange s erase fault⟩
    simp only [saveenv_eq hrange, if_neg hwrite]

/-! ### Runs -/

variable (G) in
/-- The buffers that `readenv` could not fill fail their check. -/
def UnreadBad (flips : ℕ → Bool) (cells : ℕ → Byte) (heap : Slot → ℕ → Byte) : Prop :=
  ∀ t, (readenv G flips cells t).2.length ≠ G.envSize → ¬ (tmpEnv G flips cells heap t).CrcOk

variable (G) in
/-- What is assumed of the device: after a failed attempt a good copy in the range that was
to be written is the one that was there before, and a buffer that could not be read fails
its check. -/
def Assumed (s : State) : Event G → Prop
  | .edit _ _ => True
  | .save erase fault =>
    ¬ Accepted G s erase fault →
      ∀ e, stored G (saveenv G erase fault s).2.cells s.envValid.other = some e → e.CrcOk →
        stored G s.cells s.envValid.other = some e
  | .reset heap flips => ∀ buffers ∈ heap, UnreadBad G flips s.cells buffers

variable (G) in
/-- When an attempt reports success, each block that it has written was erased, and the number that
it has written is taken to be later than that of the current copy.  When an environment has been
saved, a boot has memory for its buffers, and no bit flip keeps it from reading that copy. -/
def Meets (s : State) : Event G → Prop
  | .edit _ _ => True
  | .save erase fault =>
    Accepted G s erase fault →
      BlocksErased G s erase
        ∧ ∀ e, stored G s.cells s.envValid = some e → e.CrcOk →
          Later s.envValid.other (s.env.flags + 1) e.flags
  | .reset heap flips => s.saved ≠ none → heap.isSome ∧ Whole G flips s.envValid

variable (G) in
/-- The environment saved last stands in the current copy, which the next boot will use;
when nothing has been saved, both copies are bad. -/
structure Inv (s : State) : Prop where
  length : s.env.data.length + 5 = G.envSize
  crcOk : s.env.CrcOk
  found : ∀ d, s.saved = some d → ∃ e, stored G s.cells s.envValid = some e ∧ e.CrcOk
    ∧ e.data = d ∧ ∀ e', stored G s.cells s.envValid.other = some e' → e'.CrcOk →
      Later s.envValid e.flags e'.flags
  bad : s.saved = none → ∀ t e, stored G s.cells t = some e → ¬ e.CrcOk

theorem Inv.save (h : Inv G s) (hassumed : Assumed G s (.save erase fault))
    (hmeets : Meets G s (.save erase fault)) :
  Inv G (saveenv G erase fault s).2
  := by
  by_cases hacc : Accepted G s erase fault
  · obtain ⟨herased, hlater⟩ := hmeets hacc
    obtain ⟨cells, heq, hnew, hcur⟩ := saveenv_accepted h.length hacc herased
    rw [heq]
    refine ⟨h.length, (Copy.crcOk_flags _).mpr h.crcOk, ?_, by simp⟩
    rintro d hd
    refine ⟨s.nextEnv, hnew, (Copy.crcOk_flags _).mpr h.crcOk, Option.some.inj hd, ?_⟩
    rw [Slot.other_other, hcur]
    exact hlater
  · have htorn := hassumed hacc
    obtain ⟨cells, heq, hcur⟩ := saveenv_failed hacc
    rw [heq] at htorn ⊢
    refine ⟨h.length, (Copy.crcOk_flags _).mpr h.crcOk, ?_, ?_⟩
    · intro d hd
      obtain ⟨e, he, hok, hdata, hother⟩ := h.found d hd
      refine ⟨e, by rw [hcur, he], hok, hdata, ?_⟩
      intro e' he' hok'
      exact hother e' (htorn e' he' hok') hok'
    · intro hnone t e he hok
      by_cases ht : t = s.envValid
      · subst ht
        exact h.bad hnone s.envValid e (hcur.symm.trans he) hok
      · obtain rfl : t = s.envValid.other := Slot.eq_other_of_ne ht
        exact h.bad hnone s.envValid.other e (htorn e he hok) hok

theorem UnreadBad.stored_eq (h : UnreadBad G flips cells heap) {t : Slot}
    (hok : (tmpEnv G flips cells heap t).CrcOk) :
  stored G cells t = some (tmpEnv G flips cells heap t)
  := by
  apply stored_of_length heap
  by_contra hlen
  exact h t hlen hok

/-- The environment saved last is found at the next boot. -/
theorem Inv.envRelocateSpec_eq (h : Inv G s) (hheap : UnreadBad G flips s.cells heap)
    (hwhole : Whole G flips s.envValid) {d : List Byte} (hd : s.saved = some d) :
  ∃ e, envRelocateSpec G flips s.cells (some heap) = (s.envValid, e)
    ∧ stored G s.cells s.envValid = some e ∧ e.CrcOk ∧ e.data = d
  := by
  obtain ⟨e, he, hok, hdata, hother⟩ := h.found d hd
  have htmp : tmpEnv G flips s.cells heap s.envValid = e := hwhole.tmpEnv_eq he
  have hlatest : Latest G flips s.cells heap s.envValid := by
    rw [Latest, htmp]
    exact ⟨hok, fun hok' => hother _ (hheap.stored_eq hok') hok'⟩
  exact ⟨e, by rw [hlatest.envRelocateSpec_eq, htmp], he, hok, hdata⟩

theorem Inv.useDefault (h : Inv G s) (hsaved : s.saved = none) :
  Inv G { s with envValid := .first, env := useDefault G }
  := ⟨G.length_default, rfl, by simp [hsaved], h.bad⟩

theorem Inv.reset (h : Inv G s) {heap : Option (Slot → ℕ → Byte)}
    (hassumed : Assumed G s (.reset heap flips)) (hmeets : Meets G s (.reset heap flips)) :
  Inv G { s with
    envValid := (envRelocateSpec G flips s.cells heap).1
    env := (envRelocateSpec G flips s.cells heap).2 }
  := by
  obtain hsaved | ⟨d, hsaved⟩ := Option.eq_none_or_eq_some s.saved
  · cases heap with
    | none => exact h.useDefault hsaved
    | some heap =>
      have hdefault : envRelocateSpec G flips s.cells (some heap)
          = (.first, Nand.useDefault G) := by
        apply envRelocateSpec_default
        intro t hok
        exact h.bad hsaved t _ ((hassumed heap rfl).stored_eq hok) hok
      rw [hdefault]
      exact h.useDefault hsaved
  · obtain ⟨hsome, hwhole⟩ := hmeets (by rw [hsaved]; exact Option.some_ne_none d)
    obtain ⟨heap, rfl⟩ := Option.isSome_iff_exists.mp hsome
    obtain ⟨e, heq, he, hok, hdata⟩ := h.envRelocateSpec_eq (hassumed heap rfl) hwhole hsaved
    rw [heq]
    exact ⟨length_data_of_stored he, hok, h.found, h.bad⟩

variable (G) in
/-- The state after a boot from the device `cells`. -/
def boot (flips : ℕ → Bool) (cells : ℕ → Byte) (heap : Slot → ℕ → Byte) : State where
  cells := cells
  envValid := (envRelocateSpec G flips cells (some heap)).1
  env := (envRelocateSpec G flips cells (some heap)).2
  saved :=
    if (tmpEnv G flips cells heap .first).CrcOk ∨ (tmpEnv G flips cells heap .second).CrcOk then
      some (envRelocateSpec G flips cells (some heap)).2.data
    else none

theorem inv_boot (hheap : UnreadBad G flips cells heap) (hwhole : ∀ t, Whole G flips t) :
  Inv G (boot G flips cells heap)
  := by
  by_cases hsome : ∃ t, (tmpEnv G flips cells heap t).CrcOk
  · obtain ⟨t, hok⟩ := hsome
    have hsaved : (tmpEnv G flips cells heap .first).CrcOk
        ∨ (tmpEnv G flips cells heap .second).CrcOk := by
      cases t with
      | first => exact .inl hok
      | second => exact .inr hok
    obtain ⟨t, ht⟩ := exists_latest hok
    have hstored := hheap.stored_eq ht.1
    simp only [boot, if_pos hsaved, ht.envRelocateSpec_eq]
    refine ⟨length_data_of_stored hstored, ht.1, ?_, by simp⟩
    rintro d hd
    refine ⟨_, hstored, ht.1, Option.some.inj hd, ?_⟩
    intro e' he' hok'
    have hlater := ht.2
    rw [(hwhole t.other).tmpEnv_eq he'] at hlater
    exact hlater hok'
  · have hbad : ∀ t, ¬ (tmpEnv G flips cells heap t).CrcOk := fun t hok => hsome ⟨t, hok⟩
    have hsaved : ¬ ((tmpEnv G flips cells heap .first).CrcOk
        ∨ (tmpEnv G flips cells heap .second).CrcOk) := not_or.mpr ⟨hbad _, hbad _⟩
    simp only [boot, if_neg hsaved, envRelocateSpec_default hbad]
    refine ⟨G.length_default, rfl, by simp, ?_⟩
    intro _ t e he hok
    apply hbad t
    rwa [(hwhole t).tmpEnv_eq he]

/-- **The environment saved last survives.**  In every sequence of edits, attempts to save
in which the erase or the write of any block may fail, and resets, in which each attempt that
reports success has written erased blocks and a number that is later than that of the current
copy, and each boot can read that copy, the next boot that can read it uses the environment of
the last `saveenv` that has reported success. -/
theorem saveenv_run (G : Geometry) (flips : ℕ → Bool) (cells : ℕ → Byte) (heap : Slot → ℕ → Byte)
    (events : List (Event G)) (hheap : UnreadBad G flips cells heap)
    (hwhole : ∀ t, Whole G flips t)
    (hevents : Run.Along (step G) (fun s a => Assumed G s a ∧ Meets G s a)
      (boot G flips cells heap) events) :
  ∃ s, Run.exec (step G) (boot G flips cells heap) events = some s
    ∧ ∀ d, s.saved = some d → ∀ heap' flips', UnreadBad G flips' s.cells heap' →
      Whole G flips' s.envValid →
        (envRelocateSpec G flips' s.cells (some heap')).2.data = d
  := by
  have hstep : ∀ s a, Inv G s → Assumed G s a ∧ Meets G s a →
      ∃ s', step G s a = some s' ∧ Inv G s' := by
    rintro s (⟨data, hdata⟩ | ⟨erase, fault⟩ | ⟨heap, flips⟩) hinv ⟨hassumed, hmeets⟩
    · exact ⟨_, rfl, hdata, Copy.crcOk_edit _ _, hinv.found, hinv.bad⟩
    · exact ⟨_, rfl, hinv.save hassumed hmeets⟩
    · exact ⟨_, rfl, hinv.reset hassumed hmeets⟩
  obtain ⟨s, hs, hinv⟩ := Run.exec_invariant hstep (inv_boot hheap hwhole) hevents
  refine ⟨s, hs, ?_⟩
  intro d hd heap' flips' hheap' hwhole'
  obtain ⟨e, heq, -, -, hdata⟩ := hinv.envRelocateSpec_eq hheap' hwhole' hd
  rw [heq, hdata]

/-! ### A device with one block for each copy -/

/-- The geometry of the Sam460ex, `include/configs/Sam460ex.h`, with blocks of `n` bytes. -/
def oneBlock (n : ℕ) (hn : 5 ≤ n) : Geometry where
  blocksize := n
  envSize := n
  range := n
  offset
    | .first => 2 * n
    | .second => 3 * n
  isBad _ := false
  defaultEnvironment := List.replicate (n - 5) 0
  blocksize_pos := by omega
  aligned := Nat.dvd_refl n
  disjoint := by
    rintro (_ | _)
    · left
      simp only [Slot.other]
      omega
    · right
      simp only [Slot.other]
      omega
  length_default := by
    rw [List.length_replicate]
    omega

variable {n : ℕ} {hn : 5 ≤ n}

theorem len_oneBlock : (oneBlock n hn).len = n := Nat.min_self n

theorem writeenv_oneBlock (cells : ℕ → Byte) (t : Slot) {buf : List Byte} (hbuf : buf.length = n) :
  writeenv (oneBlock n hn) (fun _ => none) cells t buf
    = (true, programmed cells ((oneBlock n hn).offset t) buf)
  := by
  have hlt : 0 < (oneBlock n hn).envSize ∧ (oneBlock n hn).offset t
      < (oneBlock n hn).offset t + (oneBlock n hn).range := by
    simp only [oneBlock]
    omega
  have hstop : ¬ (0 + n < (oneBlock n hn).envSize ∧ (oneBlock n hn).offset t
      + (oneBlock n hn).blocksize < (oneBlock n hn).offset t + (oneBlock n hn).range) := by
    simp only [oneBlock]
    omega
  have htake : (buf.drop 0).take n = buf := by rw [List.drop_zero, ← hbuf, List.take_length]
  have hall : 0 + n = (oneBlock n hn).envSize := Nat.zero_add n
  rw [writeenv, writeLoop, if_pos hlt, if_neg (by simp [oneBlock])]
  simp only [len_oneBlock]
  rw [htake, writeLoop, if_neg hstop, decide_eq_true hall]

theorem writeenv_oneBlock_fault (cells contents : ℕ → Byte) (t : Slot) (buf : List Byte) :
  writeenv (oneBlock n hn) (fun _ => some contents) cells t buf
    = (false, overwritten cells ((oneBlock n hn).offset t) n contents)
  := by
  have hlt : 0 < (oneBlock n hn).envSize ∧ (oneBlock n hn).offset t
      < (oneBlock n hn).offset t + (oneBlock n hn).range := by
    simp only [oneBlock]
    omega
  rw [writeenv, writeLoop, if_pos hlt, if_neg (by simp [oneBlock])]
  simp only [len_oneBlock]

theorem erasedCopy_oneBlock_fault (cells : ℕ → Byte) (t : Slot) :
  erasedCopy (oneBlock n hn) (fun _ => some cells) cells t = cells
  := by
  have hlt : (oneBlock n hn).offset t < (oneBlock n hn).offset t + n := by omega
  have hstop : ¬ (oneBlock n hn).offset t + (oneBlock n hn).blocksize
      < (oneBlock n hn).offset t + n := Nat.lt_irrefl _
  rw [erasedCopy_eq (Nat.le_refl n)]
  show eraseLoop (oneBlock n hn) (fun _ => some cells) ((oneBlock n hn).offset t + n) cells _ = _
  rw [eraseLoop, if_pos hlt, if_neg (by simp [oneBlock])]
  simp only [overwritten_self]
  rw [eraseLoop, if_neg hstop]

theorem loaded_oneBlock (flips : ℕ → Bool) (cells : ℕ → Byte) (t : Slot) :
  (readenv (oneBlock n hn) flips cells t).2 = read cells ((oneBlock n hn).offset t) n
  := by
  have hlt : ([] : List Byte).length < (oneBlock n hn).envSize ∧ (oneBlock n hn).offset t
      < (oneBlock n hn).offset t + (oneBlock n hn).range := by
    simp only [oneBlock, List.length_nil]
    omega
  have hstop : ¬ ((read cells ((oneBlock n hn).offset t) n).length < (oneBlock n hn).envSize
      ∧ (oneBlock n hn).offset t + (oneBlock n hn).blocksize
        < (oneBlock n hn).offset t + (oneBlock n hn).range) := by
    simp only [oneBlock]
    omega
  have hgood : ¬ (oneBlock n hn).isBad ((oneBlock n hn).offset t) = true := Bool.false_ne_true
  rw [readenv]
  by_cases hflip : flips ((oneBlock n hn).offset t) = true
  · rw [readLoop_of_flip hlt hgood hflip, len_oneBlock, List.nil_append]
  · rw [readLoop_of_read hlt hgood hflip, len_oneBlock, List.nil_append, readLoop_of_stop hstop]

theorem length_loaded_oneBlock (flips : ℕ → Bool) (cells : ℕ → Byte) (t : Slot) :
  (readenv (oneBlock n hn) flips cells t).2.length = (oneBlock n hn).envSize
  := by
  rw [loaded_oneBlock]
  exact length_read _ _ _

theorem tmpEnv_oneBlock :
  tmpEnv (oneBlock n hn) flips cells heap t
    = Copy.ofBytes (read cells ((oneBlock n hn).offset t) n)
  := by rw [tmpEnv_of_length (length_loaded_oneBlock flips cells t), loaded_oneBlock]

theorem stored_oneBlock (cells : ℕ → Byte) (t : Slot) :
  stored (oneBlock n hn) cells t
    = some (Copy.ofBytes (read cells ((oneBlock n hn).offset t) n))
  := by
  rw [stored_of_length (fun _ _ => 0) (length_loaded_oneBlock noFlips cells t), tmpEnv_oneBlock]

theorem unreadBad_oneBlock (flips : ℕ → Bool) (cells : ℕ → Byte) (heap : Slot → ℕ → Byte) :
  UnreadBad (oneBlock n hn) flips cells heap
  := fun t h => absurd (length_loaded_oneBlock flips cells t) h

/-- Behind the only block nothing is read. -/
theorem whole_oneBlock (flips : ℕ → Bool) (t : Slot) :
  Whole (oneBlock n hn) flips t
  := by
  intro k _ _ k' hlt hk'
  have hgood := hk'.good
  rw [good, Bool.and_eq_true, decide_eq_true_eq] at hgood
  have hblock : k' * n < n := by
    have hstop := hgood.1
    simp only [oneBlock] at hstop
    omega
  have hle : 1 * n ≤ k' * n := Nat.mul_le_mul_right n (by omega)
  omega

/-- A good copy with the number `flags`, whose data are `n - 5` times the byte `b`. -/
def uniform (n : ℕ) (flags b : Byte) : Copy := Copy.edit ⟨0, flags, []⟩ (List.replicate (n - 5) b)

theorem length_uniform (hn : 5 ≤ n) (flags b : Byte) :
  (uniform n flags b).data.length + 5 = n
  := by
  rw [uniform, Copy.edit, List.length_replicate]
  omega

theorem length_bytes_uniform (hn : 5 ≤ n) (flags b : Byte) :
  (uniform n flags b).bytes.length = n
  := by rw [Copy.length_bytes, length_uniform hn]

/-- A device with the numbers 254 and 253. -/
def device (n : ℕ) : ℕ → Byte :=
  store (store (fun _ => 0xff) (2 * n) (uniform n 254 97).bytes) (3 * n) (uniform n 253 98).bytes

theorem stored_device_first :
  stored (oneBlock n hn) (device n) .first = some (uniform n 254 97)
  := by
  have hlen := length_bytes_uniform hn 254 97
  have hread : read (device n) (2 * n) n = (uniform n 254 97).bytes := by
    have hstore := read_store (fun _ => 0xff) (2 * n) (uniform n 254 97).bytes
    rw [hlen] at hstore
    apply Eq.trans _ hstore
    apply read_congr
    intro q _ hq
    exact store_of_lt _ (by omega)
  rw [stored_oneBlock]
  show some (Copy.ofBytes (read (device n) (2 * n) n)) = _
  rw [hread, Copy.ofBytes_bytes]

theorem stored_device_second :
  stored (oneBlock n hn) (device n) .second = some (uniform n 253 98)
  := by
  have hlen := length_bytes_uniform hn 253 98
  have hread : read (device n) (3 * n) n = (uniform n 253 98).bytes := by
    have hstore := read_store (store (fun _ => 0xff) (2 * n) (uniform n 254 97).bytes) (3 * n)
      (uniform n 253 98).bytes
    rwa [hlen] at hstore
  rw [stored_oneBlock]
  show some (Copy.ofBytes (read (device n) (3 * n) n)) = _
  rw [hread, Copy.ofBytes_bytes]

/-- The boot from the device uses the first copy. -/
theorem boot_device (flips : ℕ → Bool) (heap : Slot → ℕ → Byte) :
  boot (oneBlock n hn) flips (device n) heap
    = ⟨device n, .first, uniform n 254 97, some (List.replicate (n - 5) 97)⟩
  := by
  have h₁ : tmpEnv (oneBlock n hn) flips (device n) heap .first = uniform n 254 97 :=
    (whole_oneBlock flips .first).tmpEnv_eq stored_device_first
  have h₂ : tmpEnv (oneBlock n hn) flips (device n) heap .second = uniform n 253 98 :=
    (whole_oneBlock flips .second).tmpEnv_eq stored_device_second
  have hlatest : Latest (oneBlock n hn) flips (device n) heap .first := by
    refine ⟨by rw [h₁]; exact Copy.crcOk_edit _ _, fun _ => ?_⟩
    rw [h₁, Slot.other, h₂]
    exact .inr (.inl ⟨by simp [uniform, Copy.edit], by simp [uniform, Copy.edit]⟩)
  rw [boot, if_pos (.inl hlatest.1), hlatest.envRelocateSpec_eq, h₁]
  rfl

theorem accepted_oneBlock {s : State} (hlen : s.env.data.length + 5 = n)
    (erase : ℕ → Option (ℕ → Byte)) :
  Accepted (oneBlock n hn) s erase (fun _ => none)
  := by
  have hbytes : s.nextEnv.bytes.length = n := by rw [Copy.length_bytes, State.nextEnv, hlen]
  exact ⟨Nat.le_refl n, by rw [writeenv_oneBlock _ _ hbytes]⟩

variable (n hn) in
/-- The data are changed and saved. -/
def editAndSave (erase : ℕ → Option (ℕ → Byte)) : List (Event (oneBlock n hn)) :=
  [.edit (List.replicate (n - 5) 99) (length_uniform hn 0 99), .save erase fun _ => none]

variable (n hn) in
/-- The data are changed and saved, and every read of the next boot finds a bit flip. -/
def saveAndReset : List (Event (oneBlock n hn)) :=
  editAndSave n hn (fun _ => none) ++ [.reset (some fun _ _ => 0) fun _ => true]

theorem along_saveAndReset (flips : ℕ → Bool) (heap : Slot → ℕ → Byte) :
  Run.Along (step (oneBlock n hn))
    (fun s a => Assumed (oneBlock n hn) s a ∧ Meets (oneBlock n hn) s a)
    (boot (oneBlock n hn) flips (device n) heap) (saveAndReset n hn)
  := by
  rw [boot_device]
  refine ⟨⟨trivial, trivial⟩, ?_⟩
  rintro s ⟨⟩
  refine ⟨⟨fun hnot => ?_, fun _ => ⟨fun _ _ => rfl, ?_⟩⟩, fun s _ => ⟨⟨?_, ?_⟩, ?_⟩⟩
  · exact absurd (accepted_oneBlock (length_uniform hn 254 99) _) hnot
  · intro e he _
    rw [stored_device_first] at he
    obtain rfl := Option.some.inj he
    have hlater : Later .second 255 254 := by decide
    exact hlater
  · exact fun buffers _ => unreadBad_oneBlock _ _ buffers
  · exact fun _ => ⟨rfl, whole_oneBlock _ _⟩
  · exact fun _ _ => trivial

/-- The NAND of the Sam460ex. -/
def sam460exNand : Geometry := oneBlock 131072 (by decide)

/-- Buffers of zeros. -/
def zeroHeap : Slot → ℕ → Byte := fun _ _ => 0

theorem saveenv_run_sam460ex :
  ∃ s, Run.exec (step sam460exNand) (boot sam460exNand noFlips (device 131072) zeroHeap)
      (saveAndReset 131072 (by decide)) = some s
    ∧ ∀ d, s.saved = some d → ∀ heap' flips', UnreadBad sam460exNand flips' s.cells heap' →
      Whole sam460exNand flips' s.envValid →
        (envRelocateSpec sam460exNand flips' s.cells (some heap')).2.data = d
  := saveenv_run sam460exNand noFlips (device 131072) zeroHeap (saveAndReset 131072 (by decide))
    (unreadBad_oneBlock _ _ zeroHeap) (whole_oneBlock _) (along_saveAndReset noFlips zeroHeap)

/-- Of two numbers, one is later than the other. -/
theorem Later.total {t : Slot} {a b : Byte} (h : ¬ Later t.other a b) :
  Later t b a
  := by
  cases t <;> simp only [Later, Slot.other] at * <;> grind

/-- After an attempt that reports success, with a number that is not later, the next boot
uses the old environment. -/
theorem saveenv_not_later (hlen : s.env.data.length + 5 = G.envSize)
    (hacc : Accepted G s erase fault) (herased : BlocksErased G s erase) {e : Copy}
    (he : stored G s.cells s.envValid = some e) (hok : e.CrcOk)
    (hnot : ¬ Later s.envValid.other (s.env.flags + 1) e.flags) (hwhole : ∀ t, Whole G flips t)
    (heap : Slot → ℕ → Byte) :
  envRelocateSpec G flips (saveenv G erase fault s).2.cells (some heap) = (s.envValid, e)
  := by
  obtain ⟨cells, heq, hnew, hcur⟩ := saveenv_accepted hlen hacc herased
  have htmp : tmpEnv G flips cells heap s.envValid = e :=
    (hwhole s.envValid).tmpEnv_eq (hcur.trans he)
  have htmp' : tmpEnv G flips cells heap s.envValid.other = s.nextEnv :=
    (hwhole s.envValid.other).tmpEnv_eq hnew
  have hlatest : Latest G flips cells heap s.envValid := by
    rw [Latest, htmp, htmp']
    exact ⟨hok, fun _ => Later.total hnot⟩
  rw [heq, hlatest.envRelocateSpec_eq, htmp]

/-- Behind a bit flip with a block of the copy left, less than the environment has been loaded. -/
theorem length_readLoop_lt {stop offset : ℕ} {loaded : List Byte} {k k' : ℕ}
    (hk : Taken G.blocksize G.isBad stop G.len G.envSize offset loaded.length k)
    (hflip : flips (offset + k * G.blocksize) = true) (hlt : k < k')
    (hk' : Taken G.blocksize G.isBad stop G.len G.envSize offset loaded.length k') :
  (readLoop G flips cells stop offset loaded).2.length < G.envSize
  := by
  fun_induction readLoop G flips cells stop offset loaded generalizing k k' with
  | case1 offset loaded hin hbad ih =>
    cases k with
    | zero => exact absurd hk (not_taken_zero hbad)
    | succ k =>
      obtain ⟨k', rfl⟩ := Nat.exists_eq_succ_of_ne_zero (Nat.ne_of_gt (Nat.zero_lt_of_lt hlt))
      rw [taken_succ_of_isBad hbad] at hk hk'
      rw [add_succ_mul] at hflip
      exact ih hk hflip (Nat.lt_of_succ_lt_succ hlt) hk'
  | case2 offset loaded hin hbad hflip' =>
    obtain ⟨k', rfl⟩ := Nat.exists_eq_succ_of_ne_zero (Nat.ne_of_gt (Nat.zero_lt_of_lt hlt))
    have hmore := ((taken_succ_of_good hin.2 hbad).mp hk').lt
    rw [List.length_append, length_read]
    omega
  | case3 offset loaded hin hbad hflip' ih =>
    cases k with
    | zero =>
      rw [Nat.zero_mul, Nat.add_zero] at hflip
      exact absurd hflip hflip'
    | succ k =>
      obtain ⟨k', rfl⟩ := Nat.exists_eq_succ_of_ne_zero (Nat.ne_of_gt (Nat.zero_lt_of_lt hlt))
      rw [taken_succ_of_good hin.2 hbad] at hk hk'
      rw [add_succ_mul] at hflip
      rw [List.length_append, length_read] at ih
      exact ih hk hflip (Nat.lt_of_succ_lt_succ hlt) hk'
  | case4 offset loaded hstop =>
    have hgood := hk.good
    have hmore := hk.lt
    rw [good, Bool.and_eq_true, decide_eq_true_eq] at hgood
    omega

/-- A copy in which a bit flip does harm is not used at the next boot. -/
theorem envRelocateSpec_of_not_whole {t : Slot} (h : ¬ Whole G flips t)
    (hheap : UnreadBad G flips cells heap) :
  envRelocateSpec G flips cells (some heap) = (.first, useDefault G)
    ∨ envRelocateSpec G flips cells (some heap) = (t.other, tmpEnv G flips cells heap t.other)
  := by
  have hbad : ¬ (tmpEnv G flips cells heap t).CrcOk := by
    simp only [Whole, not_forall, not_not] at h
    obtain ⟨k, hk, hflip, k', hlt, hk'⟩ := h
    exact hheap t (Nat.ne_of_lt (length_readLoop_lt hk hflip hlt hk'))
  by_cases hother : (tmpEnv G flips cells heap t.other).CrcOk
  · have hlatest : Latest G flips cells heap t.other := by
      refine ⟨hother, fun hok => ?_⟩
      rw [Slot.other_other] at hok
      exact absurd hok hbad
    exact .inr hlatest.envRelocateSpec_eq
  · left
    apply envRelocateSpec_default
    intro t'
    by_cases ht : t' = t
    · rwa [ht]
    · rwa [Slot.eq_other_of_ne ht]

/-! ### A write that fails -/

/-- What a write that fails leaves in the second block: the checksum is wrong. -/
def torn (n : ℕ) : Copy := { uniform n 255 97 with crc := (uniform n 255 97).crc + 1 }

variable (n hn) in
/-- A write that fails comes first. -/
def failFirst : List (Event (oneBlock n hn)) :=
  .save (fun _ => none) (fun _ => some (store (fun _ => 0) (3 * n) (torn n).bytes))
    :: editAndSave n hn fun _ => none

theorem not_crcOk_torn : ¬ (torn n).CrcOk := by
  have hok : (uniform n 255 97).CrcOk := Copy.crcOk_edit _ _
  intro h
  have heq : (uniform n 255 97).crc = (uniform n 255 97).crc + 1 := hok.symm.trans h
  have hone := congrArg BitVec.toNat heq
  have hlt := (uniform n 255 97).crc.isLt
  rw [BitVec.toNat_add] at hone
  have h1 : (1 : Word).toNat = 1 := rfl
  omega

/-- After the write has failed the number in RAM has changed, and the second copy is bad. -/
theorem step_failedWrite (hn : 5 ≤ n) :
  ∃ cells, step (oneBlock n hn)
        ⟨device n, .first, uniform n 254 97, some (List.replicate (n - 5) 97)⟩
        (.save (fun _ => none) fun _ => some (store (fun _ => 0) (3 * n) (torn n).bytes))
      = some ⟨cells, .first, uniform n 255 97, some (List.replicate (n - 5) 97)⟩
    ∧ stored (oneBlock n hn) cells .first = some (uniform n 254 97)
    ∧ stored (oneBlock n hn) cells .second = some (torn n)
  := by
  have hcur := stored_attempt (G := oneBlock n hn) (Nat.le_refl n)
    ⟨device n, .first, uniform n 254 97, some (List.replicate (n - 5) 97)⟩ (fun _ => none)
    fun _ => some (store (fun _ => 0) (3 * n) (torn n).bytes)
  rw [writeenv_oneBlock_fault] at hcur
  refine ⟨_, ?_, hcur.trans stored_device_first, ?_⟩
  · simp only [step, saveenv_eq (G := oneBlock n hn) (Nat.le_refl n), writeenv_oneBlock_fault]
    rfl
  · have hlen : (torn n).bytes.length = n := by
      rw [Copy.length_bytes]
      exact length_uniform hn 255 97
    have hread (cells : ℕ → Byte) :
        read (overwritten cells (3 * n) n (store (fun _ => 0) (3 * n) (torn n).bytes)) (3 * n) n
          = (torn n).bytes := by
      have hstore := read_store (fun _ => 0) (3 * n) (torn n).bytes
      rw [hlen] at hstore
      apply Eq.trans _ hstore
      apply read_congr
      intro q hq hq'
      exact if_pos ⟨hq, hq'⟩
    rw [stored_oneBlock]
    show some (Copy.ofBytes (read (overwritten _ (3 * n) n _) (3 * n) n)) = _
    rw [hread, Copy.ofBytes_bytes]

theorem failFirst_loses (hn : 5 ≤ n) (flips : ℕ → Bool) (heap : Slot → ℕ → Byte) :
  Run.Along (step (oneBlock n hn)) (Assumed (oneBlock n hn))
      (boot (oneBlock n hn) flips (device n) heap) (failFirst n hn)
    ∧ ∃ s, Run.exec (step (oneBlock n hn)) (boot (oneBlock n hn) flips (device n) heap)
          (failFirst n hn) = some s
      ∧ s.saved = some (List.replicate (n - 5) 99)
      ∧ ∀ heap' flips', (envRelocateSpec (oneBlock n hn) flips' s.cells (some heap')).2.data
          = List.replicate (n - 5) 97
  := by
  obtain ⟨cells, hstep, hfirst, hsecond⟩ := step_failedWrite hn
  have hacc : Accepted (oneBlock n hn)
      ⟨cells, .first, uniform n 255 99, some (List.replicate (n - 5) 97)⟩ (fun _ => none)
      fun _ => none := accepted_oneBlock (length_uniform hn 255 99) _
  rw [boot_device]
  constructor
  · refine ⟨?_, ?_⟩
    · intro _ e he hok
      have hcells := congrArg State.cells (Option.some.inj hstep)
      have he' : stored (oneBlock n hn) cells .second = some e := by
        rw [hcells] at he
        exact he
      obtain rfl := Option.some.inj (hsecond.symm.trans he')
      exact absurd hok not_crcOk_torn
    · intro s hs
      obtain rfl := Option.some.inj (hstep.symm.trans hs)
      refine ⟨trivial, ?_⟩
      rintro s ⟨⟩
      exact ⟨fun hnot => absurd hacc hnot, fun _ _ => trivial⟩
  · refine ⟨(saveenv (oneBlock n hn) (fun _ => none) (fun _ => none)
      ⟨cells, .first, uniform n 255 99, some (List.replicate (n - 5) 97)⟩).2, ?_, ?_, ?_⟩
    · rw [failFirst, Run.exec, hstep]
      rfl
    · obtain ⟨cells', heq, -⟩ := saveenv_accepted (length_uniform hn 255 99) hacc fun _ _ => rfl
      rw [heq]
      rfl
    · intro heap' flips'
      have hnot : ¬ Later .second (255 + 1) 254 := by decide
      have hboot := saveenv_not_later (length_uniform hn 255 99) hacc (fun _ _ => rfl) hfirst
        (Copy.crcOk_edit _ _) hnot (whole_oneBlock flips') heap'
      rw [hboot]
      rfl

/-- One write that fails before the number wraps around: the save after it reports success,
and the next boot uses the environment before it. -/
theorem failed_attempt_loses_save :
  Run.Along (step sam460exNand) (Assumed sam460exNand)
      (boot sam460exNand noFlips (device 131072) zeroHeap) (failFirst 131072 (by decide))
    ∧ ∃ s, Run.exec (step sam460exNand)
          (boot sam460exNand noFlips (device 131072) zeroHeap)
          (failFirst 131072 (by decide)) = some s
      ∧ s.saved = some (List.replicate 131067 99)
      ∧ ∀ heap' flips', (envRelocateSpec sam460exNand flips' s.cells (some heap')).2.data
          ≠ List.replicate 131067 99
  := by
  obtain ⟨hassumed, s, hrun, hsaved, hboot⟩ :=
    failFirst_loses (n := 131072) (by decide) noFlips zeroHeap
  refine ⟨hassumed, s, hrun, hsaved, ?_⟩
  intro heap' flips' heq
  have hdata := (hboot heap' flips').symm.trans heq
  exact absurd (List.replicate_inj.mp hdata).2 (by decide)

/-! ### An erase that fails -/

/-- The data of the environment that the boot uses are those of a copy, or the default ones. -/
theorem data_envRelocateSpec (flips : ℕ → Bool) (cells : ℕ → Byte) (heap : Slot → ℕ → Byte) :
  (envRelocateSpec G flips cells (some heap)).2.data = G.defaultEnvironment
    ∨ ∃ t, (envRelocateSpec G flips cells (some heap)).2.data
      = (tmpEnv G flips cells heap t).data
  := by
  simp only [envRelocateSpec]
  split_ifs
  · exact .inl rfl
  · exact .inr ⟨.first, rfl⟩
  · exact .inr ⟨.second, rfl⟩
  · split
    · exact .inr ⟨.first, rfl⟩
    · exact .inr ⟨.second, rfl⟩

/-- The data of a copy that is programmed over another one. -/
theorem data_programmed (hn : 5 ≤ n) (e : Copy) (he : e.data = List.replicate (n - 5) 99) :
  ∃ e', stored (oneBlock n hn)
      (programmed (device n) ((oneBlock n hn).offset .second) e.bytes) .second = some e'
    ∧ e'.data = List.replicate (n - 5) 98
  := by
  have hlen : e.bytes.length = n := by
    rw [Copy.length_bytes, he, List.length_replicate]
    omega
  have hold : read (device n) (3 * n) n = (uniform n 253 98).bytes := by
    have hstore := read_store (store (fun _ => 0xff) (2 * n) (uniform n 254 97).bytes) (3 * n)
      (uniform n 253 98).bytes
    rwa [length_bytes_uniform hn] at hstore
  have hread : read (programmed (device n) (3 * n) e.bytes) (3 * n) n
      = (uniform n 253 98).bytes.zipWith (· &&& ·) e.bytes := by
    have hstore := read_store (device n) (3 * n)
      ((read (device n) (3 * n) e.bytes.length).zipWith (· &&& ·) e.bytes)
    rw [length_zipWith_read, hlen, hold] at hstore
    rw [programmed, hlen, hold]
    exact hstore
  refine ⟨_, stored_oneBlock _ _, ?_⟩
  show (Copy.ofBytes (read (programmed (device n) (3 * n) e.bytes) (3 * n) n)).data = _
  rw [hread]
  show ((uniform n 253 98).bytes.zipWith (· &&& ·) e.bytes).drop 5 = _
  have hdrop (e : Copy) : e.bytes.drop 5 = e.data := rfl
  rw [List.drop_zipWith, hdrop, hdrop, he]
  show (List.replicate (n - 5) (98 : Byte)).zipWith (· &&& ·) (List.replicate (n - 5) 99) = _
  rw [List.zipWith_replicate, Nat.min_self]
  rfl

/-- The state after the boot and the edit. -/
def edited (n : ℕ) : State :=
  ⟨device n, .first, uniform n 254 99, some (List.replicate (n - 5) 97)⟩

theorem failErase_loses (hn : 5 ≤ n) (flips : ℕ → Bool) (heap : Slot → ℕ → Byte) :
  Run.Along (step (oneBlock n hn)) (Assumed (oneBlock n hn))
      (boot (oneBlock n hn) flips (device n) heap) (editAndSave n hn fun _ => some (device n))
    ∧ ∃ s, Run.exec (step (oneBlock n hn)) (boot (oneBlock n hn) flips (device n) heap)
          (editAndSave n hn fun _ => some (device n)) = some s
      ∧ s.saved = some (List.replicate (n - 5) 99)
      ∧ ∀ heap' flips', ∃ b ∈ [0, 97, 98],
        (envRelocateSpec (oneBlock n hn) flips' s.cells (some heap')).2.data
          = List.replicate (n - 5) b
  := by
  have hacc : Accepted (oneBlock n hn) (edited n) (fun _ => some (device n)) fun _ => none :=
    accepted_oneBlock (length_uniform hn 254 99) _
  rw [boot_device]
  constructor
  · refine ⟨trivial, ?_⟩
    rintro s ⟨⟩
    exact ⟨fun hnot => absurd hacc hnot, fun _ _ => trivial⟩
  · have hbytes : (edited n).nextEnv.bytes.length = n := by
      rw [Copy.length_bytes]
      exact length_uniform hn 254 99
    have hcur := stored_attempt (G := oneBlock n hn) (Nat.le_refl n) (edited n)
      (fun _ => some (device n)) fun _ => none
    have herase : erasedCopy (oneBlock n hn) (fun _ => some (device n)) (edited n).cells
        (edited n).envValid.other = device n := erasedCopy_oneBlock_fault _ _
    rw [herase, writeenv_oneBlock _ _ hbytes] at hcur
    have hfirst : stored (oneBlock n hn) (programmed (device n) ((oneBlock n hn).offset .second)
        (edited n).nextEnv.bytes) .first = some (uniform n 254 97) :=
      hcur.trans stored_device_first
    obtain ⟨e, hsecond, hdata⟩ := data_programmed hn (edited n).nextEnv rfl
    refine ⟨(saveenv (oneBlock n hn) (fun _ => some (device n)) (fun _ => none) (edited n)).2, rfl,
      ?_⟩
    rw [saveenv_eq (G := oneBlock n hn) (Nat.le_refl n), herase]
    simp only [writeenv_oneBlock _ _ hbytes, if_true]
    refine ⟨rfl, fun heap' flips' => ?_⟩
    rcases data_envRelocateSpec (G := oneBlock n hn) flips' (programmed (device n)
      ((oneBlock n hn).offset .second) (edited n).nextEnv.bytes) heap' with h | ⟨t, h⟩
    · exact ⟨0, by simp, h⟩
    · cases t with
      | first =>
        refine ⟨97, by simp, h.trans ?_⟩
        rw [(whole_oneBlock flips' .first).tmpEnv_eq hfirst]
        rfl
      | second =>
        refine ⟨98, by simp, h.trans ?_⟩
        rw [(whole_oneBlock flips' .second).tmpEnv_eq hsecond]
        exact hdata

/-- The erase of the block fails, and leaves what was there; the attempt reports success, and the
next boot does not find its environment. -/
theorem failed_erase_loses_save :
  Run.Along (step sam460exNand) (Assumed sam460exNand)
      (boot sam460exNand noFlips (device 131072) zeroHeap)
      (editAndSave 131072 (by decide) fun _ => some (device 131072))
    ∧ ∃ s, Run.exec (step sam460exNand)
          (boot sam460exNand noFlips (device 131072) zeroHeap)
          (editAndSave 131072 (by decide) fun _ => some (device 131072)) = some s
      ∧ s.saved = some (List.replicate 131067 99)
      ∧ ∀ heap' flips', (envRelocateSpec sam460exNand flips' s.cells (some heap')).2.data
          ≠ List.replicate 131067 99
  := by
  obtain ⟨hassumed, s, hrun, hsaved, hboot⟩ :=
    failErase_loses (n := 131072) (by decide) noFlips zeroHeap
  refine ⟨hassumed, s, hrun, hsaved, ?_⟩
  intro heap' flips' heq
  obtain ⟨b, hb, hdata⟩ := hboot heap' flips'
  have hbyte := (List.replicate_inj.mp (hdata.symm.trans heq)).2.resolve_left (by decide)
  subst hbyte
  exact absurd hb (by decide)

end Nand

end Env
