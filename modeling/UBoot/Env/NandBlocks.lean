import UBoot.Env.Nand

/-!
# The blocks of an environment in a NAND flash

`writeenv` and `readenv` of `common/env_nand.c` over any device.  The two loops skip the same bad
blocks, whether the environment takes several blocks or a part of one, so that what was written to
erased blocks is read back, unless a block needs a correction: `nand_read` then returns -EUCLEAN
with the right bytes, and `readenv` gives up.
-/

namespace Env

namespace Blocks

open Memory Cells

variable {σ : Type}

/-- `nand_info[0]`.  The results of `nand_write` and `nand_read` are the value that is returned,
what `*len` is then or the bytes that are read, and the device. -/
structure Device (σ : Type) where
  erasesize : ℕ
  blockIsbad : ℕ → Bool
  nandWrite : ℕ → List Byte → σ → ℤ × ℕ × σ
  nandRead : ℕ → ℕ → σ → ℤ × List Byte
  erasesize_pos : 0 < erasesize

/-- `-EUCLEAN`. -/
def euclean : ℤ := -117

/-- The bytes can be read, if need be with bit flips that are corrected. -/
def Device.Delivers (D : Device σ) (s : σ) (p : ℕ) (ℓ : List Byte) : Prop :=
  (D.nandRead p ℓ.length s).2 = ℓ
    ∧ ((D.nandRead p ℓ.length s).1 = 0 ∨ (D.nandRead p ℓ.length s).1 = euclean)

/-- What is promised of a device in which `IsErased` tells which bytes are erased: the bytes of a
write to erased ones that succeeds can be read until there is a write over them. -/
structure Device.Sound (D : Device σ) (IsErased : σ → ℕ → ℕ → Prop) : Prop where
  written : ∀ p ℓ s, (D.nandWrite p ℓ s).1 = 0 → (D.nandWrite p ℓ s).2.1 = ℓ.length
  delivers : ∀ p ℓ s, IsErased s p ℓ.length → (D.nandWrite p ℓ s).1 = 0 →
    D.Delivers (D.nandWrite p ℓ s).2.2 p ℓ
  keeps : ∀ p ℓ s q ℓ', (D.nandWrite p ℓ s).1 = 0 → q + ℓ'.length ≤ p ∨ p + ℓ.length ≤ q →
    D.Delivers s q ℓ' → D.Delivers (D.nandWrite p ℓ s).2.2 q ℓ'
  isErased : ∀ p ℓ s q n, (D.nandWrite p ℓ s).1 = 0 → q + n ≤ p ∨ p + ℓ.length ≤ q →
    IsErased s q n → IsErased (D.nandWrite p ℓ s).2.2 q n
  loaded : ∀ p n s, (D.nandRead p n s).1 = 0 → (D.nandRead p n s).2.length = n

/-- The loop of `writeenv`, for an environment of `envSize` bytes in `buf`. -/
def writeLoop (D : Device σ) (envSize stop : ℕ) (buf : ℕ → Byte) (s : σ)
    (offset amountSaved len : ℕ) : ℕ × σ :=
  if amountSaved < envSize ∧ offset < stop then
    if D.blockIsbad offset then
      writeLoop D envSize stop buf s (offset + D.erasesize) amountSaved len
    else
      let r := D.nandWrite offset (read buf amountSaved len) s
      if r.1 ≠ 0 then (1, r.2.2)
      else
        writeLoop D envSize stop buf r.2.2 (offset + D.erasesize) (amountSaved + r.2.1) r.2.1
  else if amountSaved ≠ envSize then (1, s)
  else (0, s)
  termination_by stop - offset
  decreasing_by
    all_goals
      have := D.erasesize_pos
      omega

/-- `writeenv`. -/
def writeenv (D : Device σ) (envSize range offset : ℕ) (buf : ℕ → Byte) (s : σ) : ℕ × σ :=
  writeLoop D envSize (offset + range) buf s offset 0 (min D.erasesize envSize)

/-- The loop of `readenv`, with what is in the memory from `buf` on. -/
def readLoop (D : Device σ) (envSize stop : ℕ) (s : σ) (buf : ℕ → Byte)
    (offset amountLoaded len : ℕ) : ℕ × (ℕ → Byte) :=
  if amountLoaded < envSize ∧ offset < stop then
    if D.blockIsbad offset then
      readLoop D envSize stop s buf (offset + D.erasesize) amountLoaded len
    else
      let r := D.nandRead offset len s
      if r.1 ≠ 0 then (1, store buf amountLoaded r.2)
      else
        readLoop D envSize stop s (store buf amountLoaded r.2) (offset + D.erasesize)
          (amountLoaded + r.2.length) r.2.length
  else if amountLoaded ≠ envSize then (1, buf)
  else (0, buf)
  termination_by stop - offset
  decreasing_by
    all_goals
      have := D.erasesize_pos
      omega

/-- `readenv`. -/
def readenv (D : Device σ) (envSize range offset : ℕ) (s : σ) (buf : ℕ → Byte) :
    ℕ × (ℕ → Byte) :=
  readLoop D envSize (offset + range) s buf offset 0 (min D.erasesize envSize)

/-- The block with the number `k` from the offset on is one that the environment takes. -/
def Device.Takes (D : Device σ) (envSize range offset k : ℕ) : Prop :=
  Taken D.erasesize D.blockIsbad (offset + range) (min D.erasesize envSize) envSize offset 0 k

/-- What could be read can still be read, with other bit flips. -/
def Device.Keeps (D : Device σ) (s s' : σ) : Prop := ∀ p ℓ, D.Delivers s p ℓ → D.Delivers s' p ℓ

variable {D : Device σ} {IsErased : σ → ℕ → ℕ → Prop}
  {envSize stop range offset amountSaved amountLoaded len n : ℕ} {buf buf' : ℕ → Byte} {s s' : σ}

/-! ### A write and a read -/

/-- A loop that succeeds leaves the bytes before its blocks. -/
theorem delivers_writeLoop (hD : D.Sound IsErased) (hlen : len ≤ D.erasesize) {q : ℕ}
    {ℓ : List Byte} (hq : q + ℓ.length ≤ offset)
    (h : (writeLoop D envSize stop buf s offset amountSaved len).1 = 0) (hs : D.Delivers s q ℓ) :
  D.Delivers (writeLoop D envSize stop buf s offset amountSaved len).2 q ℓ
  := by
  fun_induction writeLoop D envSize stop buf s offset amountSaved len with
  | case1 s offset amountSaved len hlt hbad ih => exact ih hlen (by omega) h hs
  | case2 s offset amountSaved len hlt hbad r hfail => cases h
  | case3 s offset amountSaved len hlt hbad r hok ih =>
    have hret := not_not.mp hok
    have hr := (hD.written _ _ _ hret).trans (length_read _ _ _)
    exact ih (hr.trans_le hlen) (by omega) h (hD.keeps _ _ _ _ _ hret (.inl hq) hs)
  | case4 s offset amountSaved len hstop hne => cases h
  | case5 s offset amountSaved len hstop heq => exact hs

/-- A loop that succeeds leaves its piece of the environment in each block that it takes. -/
theorem delivers_of_taken (hD : D.Sound IsErased) (hlen : len ≤ D.erasesize)
    (herased : ∀ k, Taken D.erasesize D.blockIsbad stop len envSize offset amountSaved k →
      IsErased s (offset + k * D.erasesize) len)
    (h : (writeLoop D envSize stop buf s offset amountSaved len).1 = 0) :
  ∀ k, Taken D.erasesize D.blockIsbad stop len envSize offset amountSaved k →
    D.Delivers (writeLoop D envSize stop buf s offset amountSaved len).2
      (offset + k * D.erasesize)
      (read buf (amountSaved + goodBlocks D.erasesize D.blockIsbad stop offset k * len) len)
  := by
  fun_induction writeLoop D envSize stop buf s offset amountSaved len with
  | case1 s offset amountSaved len hlt hbad ih =>
    rw [forall_taken_of_isBad (fun a n => D.Delivers _ a (read buf n len)) hbad]
    rw [forall_taken_of_isBad (fun a _ => IsErased s a len) hbad] at herased
    exact ih hlen herased h
  | case2 s offset amountSaved len hlt hbad r hfail => cases h
  | case3 s offset amountSaved len hlt hbad r hok ih =>
    have hret := not_not.mp hok
    have hr : r.2.1 = len := (hD.written _ _ _ hret).trans (length_read _ _ _)
    rw [hr] at ih h ⊢
    rw [forall_taken_of_good (fun a _ => IsErased s a len) hlt.2 hbad hlt.1] at herased
    rw [forall_taken_of_good (fun a n => D.Delivers _ a (read buf n len)) hlt.2 hbad hlt.1]
    constructor
    · apply delivers_writeLoop hD hlen _ h
      · exact hD.delivers _ _ _ (by rw [length_read]; exact herased.1) hret
      · rw [length_read]
        exact Nat.add_le_add_left hlen _
    · refine ih hlen (fun k hk => ?_) h
      apply hD.isErased _ _ _ _ _ hret
      · right
        rw [length_read]
        omega
      · exact herased.2 k hk
  | case4 s offset amountSaved len hstop hne => cases h
  | case5 s offset amountSaved len hstop heq =>
    intro k hk
    have hgood := hk.good
    have hlt := hk.lt
    rw [good, Bool.and_eq_true, decide_eq_true_eq] at hgood
    exact absurd ⟨by omega, by omega⟩ hstop

theorem amountSaved_le_of_writeLoop
    (h : (writeLoop D envSize stop buf s offset amountSaved len).1 = 0) :
  amountSaved ≤ envSize
  := by
  rw [writeLoop] at h
  by_cases hlt : amountSaved < envSize
  · exact Nat.le_of_lt hlt
  · rw [if_neg fun hboth => hlt hboth.1] at h
    by_contra hgt
    rw [if_pos (Nat.ne_of_gt (Nat.lt_of_not_le hgt))] at h
    cases h

/-- The pieces that the one loop has written are those that the other one reads, unless there is
a correction to report. -/
theorem readLoop_eq_iff (hD : D.Sound IsErased)
    (h : (writeLoop D envSize stop buf s offset amountSaved len).1 = 0)
    (hdelivers : ∀ k, Taken D.erasesize D.blockIsbad stop len envSize offset amountSaved k →
      D.Delivers s' (offset + k * D.erasesize)
        (read buf (amountSaved + goodBlocks D.erasesize D.blockIsbad stop offset k * len) len)) :
  ∀ buf', readLoop D envSize stop s' buf' offset amountSaved len
      = (0, store buf' amountSaved (read buf amountSaved (envSize - amountSaved)))
    ↔ ∀ k, Taken D.erasesize D.blockIsbad stop len envSize offset amountSaved k →
      (D.nandRead (offset + k * D.erasesize) len s').1 ≠ euclean
  := by
  fun_induction writeLoop D envSize stop buf s offset amountSaved len with
  | case1 s offset amountSaved len hlt hbad ih =>
    intro buf'
    rw [forall_taken_of_isBad (fun a n => D.Delivers s' a (read buf n len)) hbad] at hdelivers
    rw [readLoop, if_pos hlt, if_pos hbad, ih h hdelivers buf',
      forall_taken_of_isBad (fun a _ => (D.nandRead a len s').1 ≠ euclean) hbad]
  | case2 s offset amountSaved len hlt hbad r hfail => cases h
  | case3 s offset amountSaved len hlt hbad r hok ih =>
    intro buf'
    have hr : r.2.1 = len := (hD.written _ _ _ (not_not.mp hok)).trans (length_read _ _ _)
    rw [hr] at ih h
    rw [forall_taken_of_good (fun a n => D.Delivers s' a (read buf n len)) hlt.2 hbad hlt.1,
      Device.Delivers, length_read] at hdelivers
    obtain ⟨⟨hread, hret⟩, hdelivers⟩ := hdelivers
    rw [readLoop, if_pos hlt, if_neg hbad,
      forall_taken_of_good (fun a _ => (D.nandRead a len s').1 ≠ euclean) hlt.2 hbad hlt.1]
    rcases hret with hret | hret
    · have hle := amountSaved_le_of_writeLoop h
      have hsplit : envSize - amountSaved = len + (envSize - (amountSaved + len)) := by omega
      have hnot : ¬ (D.nandRead offset len s').1 ≠ 0 := not_not_intro hret
      have hclean : (D.nandRead offset len s').1 ≠ euclean := by
        rw [hret]
        decide
      simp only [if_neg hnot, hread, length_read]
      rw [hsplit, read_add, store_append, length_read, ih h hdelivers, and_iff_right hclean]
    · have hne : (D.nandRead offset len s').1 ≠ 0 := by
        rw [hret]
        decide
      simp only [if_pos hne]
      refine iff_of_false (fun heq => ?_) fun hall => hall.1 hret
      exact absurd (congrArg Prod.fst heq) Nat.one_ne_zero
  | case4 s offset amountSaved len hstop hne => cases h
  | case5 s offset amountSaved len hstop heq =>
    intro buf'
    rw [readLoop, if_neg hstop, if_neg heq, not_not.mp heq, Nat.sub_self]
    refine iff_of_true rfl fun k hk => ?_
    have hlt := hk.lt
    omega

/-! ### When there is no room -/

/-- A loop that succeeds has filled as many good blocks as the environment takes. -/
theorem exists_of_writeLoop (hD : D.Sound IsErased)
    (h : (writeLoop D envSize stop buf s offset amountSaved len).1 = 0) :
  ∀ n, stop ≤ offset + n → ∃ k ≤ goodBlocks D.erasesize D.blockIsbad stop offset n,
    amountSaved + k * len = envSize
  := by
  fun_induction writeLoop D envSize stop buf s offset amountSaved len with
  | case1 s offset amountSaved len hlt hbad ih =>
    intro n hn
    have hpos := D.erasesize_pos
    obtain ⟨n, rfl⟩ := Nat.exists_eq_add_one_of_ne_zero (n := n) (by omega)
    rw [goodBlocks_of_isBad hbad]
    exact ih h n (by omega)
  | case2 s offset amountSaved len hlt hbad r hfail => cases h
  | case3 s offset amountSaved len hlt hbad r hok ih =>
    have hr := (hD.written _ _ _ (not_not.mp hok)).trans (length_read _ _ _)
    rw [hr] at ih h
    intro n hn
    have hpos := D.erasesize_pos
    obtain ⟨n, rfl⟩ := Nat.exists_eq_add_one_of_ne_zero (n := n) (by omega)
    obtain ⟨k, hk, heq⟩ := ih h n (by omega)
    rw [goodBlocks_of_good hlt.2 hbad]
    exact ⟨k + 1, Nat.succ_le_succ hk, by rw [← heq]; ring⟩
  | case4 s offset amountSaved len hstop hne => cases h
  | case5 s offset amountSaved len hstop heq =>
    intro n _
    exact ⟨0, Nat.zero_le _, by rw [Nat.zero_mul, Nat.add_zero, not_not.mp heq]⟩

theorem exists_of_readLoop (hD : D.Sound IsErased)
    (h : (readLoop D envSize stop s buf offset amountLoaded len).1 = 0) :
  ∀ n, stop ≤ offset + n → ∃ k ≤ goodBlocks D.erasesize D.blockIsbad stop offset n,
    amountLoaded + k * len = envSize
  := by
  fun_induction readLoop D envSize stop s buf offset amountLoaded len with
  | case1 buf offset amountLoaded len hlt hbad ih =>
    intro n hn
    have hpos := D.erasesize_pos
    obtain ⟨n, rfl⟩ := Nat.exists_eq_add_one_of_ne_zero (n := n) (by omega)
    rw [goodBlocks_of_isBad hbad]
    exact ih h n (by omega)
  | case2 buf offset amountLoaded len hlt hbad r hfail => cases h
  | case3 buf offset amountLoaded len hlt hbad r hok ih =>
    have hr := hD.loaded _ _ _ (not_not.mp hok)
    rw [hr] at ih h
    intro n hn
    have hpos := D.erasesize_pos
    obtain ⟨n, rfl⟩ := Nat.exists_eq_add_one_of_ne_zero (n := n) (by omega)
    obtain ⟨k, hk, heq⟩ := ih h n (by omega)
    rw [goodBlocks_of_good hlt.2 hbad]
    exact ⟨k + 1, Nat.succ_le_succ hk, by rw [← heq]; ring⟩
  | case4 buf offset amountLoaded len hstop hne => cases h
  | case5 buf offset amountLoaded len hstop heq =>
    intro n _
    exact ⟨0, Nat.zero_le _, by rw [Nat.zero_mul, Nat.add_zero, not_not.mp heq]⟩

/-- The loops return 0 or 1. -/
theorem writeLoop_zero_or_one (D : Device σ) (envSize stop : ℕ) (buf : ℕ → Byte) (s : σ)
    (offset amountSaved len : ℕ) :
  (writeLoop D envSize stop buf s offset amountSaved len).1 = 0
    ∨ (writeLoop D envSize stop buf s offset amountSaved len).1 = 1
  := by
  fun_induction writeLoop D envSize stop buf s offset amountSaved len with
  | case1 s offset amountSaved len hlt hbad ih => exact ih
  | case2 s offset amountSaved len hlt hbad r hfail => exact .inr rfl
  | case3 s offset amountSaved len hlt hbad r hok ih => exact ih
  | case4 s offset amountSaved len hstop hne => exact .inr rfl
  | case5 s offset amountSaved len hstop heq => exact .inl rfl

/-- An error, and be it that a bit flip was corrected, ends the loop. -/
theorem readLoop_of_fail (hlt : amountLoaded < envSize ∧ offset < stop)
    (hbad : ¬ D.blockIsbad offset = true) (hret : (D.nandRead offset len s).1 ≠ 0) :
  (readLoop D envSize stop s buf offset amountLoaded len).1 = 1
  := by
  rw [readLoop, if_pos hlt, if_neg hbad]
  simp only [if_pos hret]

theorem readLoop_zero_or_one (D : Device σ) (envSize stop : ℕ) (s : σ) (buf : ℕ → Byte)
    (offset amountLoaded len : ℕ) :
  (readLoop D envSize stop s buf offset amountLoaded len).1 = 0
    ∨ (readLoop D envSize stop s buf offset amountLoaded len).1 = 1
  := by
  fun_induction readLoop D envSize stop s buf offset amountLoaded len with
  | case1 buf offset amountLoaded len hlt hbad ih => exact ih
  | case2 buf offset amountLoaded len hlt hbad r hfail => exact .inr rfl
  | case3 buf offset amountLoaded len hlt hbad r hok ih => exact ih
  | case4 buf offset amountLoaded len hstop hne => exact .inr rfl
  | case5 buf offset amountLoaded len hstop heq => exact .inl rfl

/-- As many good blocks as there are do not make up the environment. -/
theorem not_exists_of_few (hfew : n * len < envSize) :
  ¬ ∃ k ≤ n, 0 + k * len = envSize
  := by
  rintro ⟨k, hk, heq⟩
  have hle := Nat.mul_le_mul_right len hk
  omega

/-- **What `writeenv` has written, `readenv` loads** when no block that the environment takes needs
a correction, exactly the bytes of the environment; and only then.  Both refuse if there are too few
good blocks in the range. -/
theorem readenv_writeenv_iff (hD : D.Sound IsErased) (envSize range offset : ℕ) :
  (∀ buf buf' s s',
      (∀ k, D.Takes envSize range offset k →
        IsErased s (offset + k * D.erasesize) (min D.erasesize envSize)) →
      (writeenv D envSize range offset buf s).1 = 0 →
      D.Keeps (writeenv D envSize range offset buf s).2 s' →
      (readenv D envSize range offset s' buf' = (0, store buf' 0 (read buf 0 envSize))
        ↔ ∀ k, D.Takes envSize range offset k →
          (D.nandRead (offset + k * D.erasesize) (min D.erasesize envSize) s').1 ≠ euclean))
    ∧ (goodBlocks D.erasesize D.blockIsbad (offset + range) offset range * min D.erasesize envSize
        < envSize →
      ∀ buf s, (writeenv D envSize range offset buf s).1 = 1
        ∧ (readenv D envSize range offset s buf).1 = 1)
  := by
  constructor
  · intro buf buf' s s' herased h hkeeps
    apply readLoop_eq_iff hD h
    intro k hk
    exact hkeeps _ _ (delivers_of_taken hD (Nat.min_le_left _ _) herased h k hk)
  · intro hfew buf s
    have hnone := not_exists_of_few hfew
    constructor
    · apply (writeLoop_zero_or_one _ _ _ _ _ _ _ _).resolve_left
      exact fun h => hnone (exists_of_writeLoop hD h _ le_rfl)
    · apply (readLoop_zero_or_one _ _ _ _ _ _ _ _).resolve_left
      exact fun h => hnone (exists_of_readLoop hD h _ le_rfl)

/-! ### The device of the redundant environment -/

/-- The device on which the redundant environment is; `flips` tells where a read finds bit flips
that it can correct. -/
def device (G : Nand.Geometry) (fault : ℕ → Option (ℕ → Byte)) (flips : ℕ → Bool) :
    Device (ℕ → Byte) where
  erasesize := G.blocksize
  blockIsbad := G.isBad
  nandWrite p ℓ cells :=
    (fault p).elim (0, ℓ.length, programmed cells p ℓ)
      fun contents => (-5, 0, overwritten cells p ℓ.length contents)
  nandRead p n cells := (if flips p then euclean else 0, read cells p n)
  erasesize_pos := G.blocksize_pos

variable {G : Nand.Geometry} {fault : ℕ → Option (ℕ → Byte)} {flips : ℕ → Bool} {p : ℕ}
  {ℓ : List Byte} {cells contents : ℕ → Byte}

theorem nandWrite_of_none (h : fault p = none) :
  (device G fault flips).nandWrite p ℓ cells = (0, ℓ.length, programmed cells p ℓ)
  := by
  dsimp only [device]
  rw [h]
  rfl

theorem nandWrite_of_some (h : fault p = some contents) :
  (device G fault flips).nandWrite p ℓ cells = (-5, 0, overwritten cells p ℓ.length contents)
  := by
  dsimp only [device]
  rw [h]
  rfl

theorem nandWrite_of_ok (h : ((device G fault flips).nandWrite p ℓ cells).1 = 0) :
  (device G fault flips).nandWrite p ℓ cells = (0, ℓ.length, programmed cells p ℓ)
  := by
  cases hfault : fault p with
  | none => exact nandWrite_of_none hfault
  | some contents =>
    rw [nandWrite_of_some hfault] at h
    exact absurd h (Int.negSucc_ne_zero 4)

theorem delivers_iff :
  (device G fault flips).Delivers cells p ℓ ↔ read cells p ℓ.length = ℓ
  := by
  refine ⟨fun h => h.1, fun h => ⟨h, ?_⟩⟩
  dsimp only [device]
  split_ifs
  · exact .inr rfl
  · exact .inl rfl

theorem sound_device (G : Nand.Geometry) (fault : ℕ → Option (ℕ → Byte)) (flips : ℕ → Bool) :
  (device G fault flips).Sound Blank
  := by
  constructor
  · intro p ℓ cells h
    rw [nandWrite_of_ok h]
  · intro p ℓ cells hblank h
    rw [nandWrite_of_ok h, programmed_of_blank hblank, delivers_iff]
    exact read_store cells p ℓ
  · intro p ℓ cells q ℓ' h hapart hdelivers
    rw [delivers_iff] at hdelivers
    rw [nandWrite_of_ok h, delivers_iff]
    apply Eq.trans _ hdelivers
    apply read_congr
    intro a ha ha'
    exact programmed_of_not (by omega)
  · intro p ℓ cells q n h hapart hblank a ha ha'
    rw [nandWrite_of_ok h]
    exact (programmed_of_not (by omega)).trans (hblank a ha ha')
  · exact fun p n cells _ => length_read cells p n

theorem writeLoop_of_isbad (hlt : amountSaved < envSize ∧ offset < stop)
    (hbad : D.blockIsbad offset = true) :
  writeLoop D envSize stop buf s offset amountSaved len
    = writeLoop D envSize stop buf s (offset + D.erasesize) amountSaved len
  := by
  rw [writeLoop, if_pos hlt, if_pos hbad]

theorem writeLoop_of_fail {ret : ℤ} {s' : σ} (hlt : amountSaved < envSize ∧ offset < stop)
    (hbad : ¬ D.blockIsbad offset = true)
    (hwrite : D.nandWrite offset (read buf amountSaved len) s = (ret, n, s')) (hret : ret ≠ 0) :
  writeLoop D envSize stop buf s offset amountSaved len = (1, s')
  := by
  rw [writeLoop, if_pos hlt, if_neg hbad, hwrite]
  exact if_pos hret

theorem writeLoop_of_write {s' : σ} (hlt : amountSaved < envSize ∧ offset < stop)
    (hbad : ¬ D.blockIsbad offset = true)
    (hwrite : D.nandWrite offset (read buf amountSaved len) s = (0, n, s')) :
  writeLoop D envSize stop buf s offset amountSaved len
    = writeLoop D envSize stop buf s' (offset + D.erasesize) (amountSaved + n) n
  := by
  rw [writeLoop, if_pos hlt, if_neg hbad, hwrite]
  exact if_neg (not_not_intro rfl)

/-- A piece is left if something is left. -/
theorem len_le_of_dvd (hdvd : G.len ∣ G.envSize - amountSaved) (hlt : amountSaved < G.envSize) :
  amountSaved + G.len ≤ G.envSize ∧ G.len ∣ G.envSize - (amountSaved + G.len)
  := by
  have hle := Nat.le_of_dvd (Nat.sub_pos_of_lt hlt) hdvd
  refine ⟨by omega, ?_⟩
  rw [← Nat.sub_sub]
  exact Nat.dvd_sub hdvd (Nat.dvd_refl _)

/-- The loop of the redundant environment, if the environment fills its blocks. -/
theorem writeLoop_device (fault : ℕ → Option (ℕ → Byte)) (buf cells : ℕ → Byte)
    (stop offset amountSaved : ℕ) (hdvd : G.len ∣ G.envSize - amountSaved) :
  ((writeLoop (device G fault flips) G.envSize stop buf cells offset amountSaved G.len).1 = 0
      ↔ (Nand.writeLoop G fault (read buf 0 G.envSize) stop cells offset amountSaved).1 = true)
    ∧ (writeLoop (device G fault flips) G.envSize stop buf cells offset amountSaved G.len).2
      = (Nand.writeLoop G fault (read buf 0 G.envSize) stop cells offset amountSaved).2
  := by
  generalize hlist : read buf 0 G.envSize = list
  fun_induction Nand.writeLoop G fault list stop cells offset amountSaved with
  | case1 cells offset amountSaved hlt hbad ih =>
    have hbad' : (device G fault flips).blockIsbad offset = true := hbad
    rw [writeLoop_of_isbad hlt hbad']
    exact ih hdvd
  | case2 cells offset amountSaved hlt hbad contents hfault =>
    have hwrite : (device G fault flips).nandWrite offset (read buf amountSaved G.len) cells
        = (-5, 0, overwritten cells offset (read buf amountSaved G.len).length contents) :=
      nandWrite_of_some hfault
    rw [writeLoop_of_fail hlt hbad hwrite (by decide), length_read]
    exact ⟨iff_of_false Nat.one_ne_zero Bool.false_ne_true, rfl⟩
  | case3 cells offset amountSaved hlt hbad hfault ih =>
    have hwrite : (device G fault flips).nandWrite offset (read buf amountSaved G.len) cells
        = (0, (read buf amountSaved G.len).length,
          programmed cells offset (read buf amountSaved G.len)) := nandWrite_of_none hfault
    obtain ⟨hle, hdvd'⟩ := len_le_of_dvd hdvd hlt.1
    rw [writeLoop_of_write hlt hbad hwrite, length_read]
    rw [← hlist, take_drop_read _ hle, Nat.zero_add] at ih ⊢
    exact ih hdvd'
  | case4 cells offset amountSaved hstop =>
    rw [writeLoop, if_neg hstop]
    by_cases heq : amountSaved = G.envSize
    · rw [if_neg (not_not_intro heq)]
      exact ⟨iff_of_true rfl (decide_eq_true heq), rfl⟩
    · rw [if_pos heq]
      refine ⟨iff_of_false Nat.one_ne_zero ?_, rfl⟩
      exact fun h => heq (of_decide_eq_true h)

theorem nandRead_of_flip (h : flips p = true) {n : ℕ} :
  (device G fault flips).nandRead p n cells = (euclean, read cells p n)
  := by
  dsimp only [device]
  rw [if_pos h]

theorem nandRead_of_not_flip (h : ¬ flips p = true) {n : ℕ} :
  (device G fault flips).nandRead p n cells = (0, read cells p n)
  := by
  dsimp only [device]
  rw [if_neg h]

/-- The buffer, with what has been loaded at its start. -/
theorem readLoop_device (fault : ℕ → Option (ℕ → Byte)) (buf cells : ℕ → Byte)
    (stop offset : ℕ) (loaded : List Byte) :
  ((readLoop (device G fault flips) G.envSize stop cells (store buf 0 loaded) offset
        loaded.length G.len).1 = 0
      ↔ (Nand.readLoop G flips cells stop offset loaded).1 = true)
    ∧ (readLoop (device G fault flips) G.envSize stop cells (store buf 0 loaded) offset
        loaded.length G.len).2
      = store buf 0 (Nand.readLoop G flips cells stop offset loaded).2
  := by
  have hstore (offset : ℕ) (loaded : List Byte) :
      store (store buf 0 loaded) loaded.length (read cells offset G.len)
        = store buf 0 (loaded ++ read cells offset G.len) := by
    rw [store_append, Nat.zero_add]
  fun_induction Nand.readLoop G flips cells stop offset loaded with
  | case1 offset loaded hlt hbad ih =>
    have hbad' : (device G fault flips).blockIsbad offset = true := hbad
    rw [readLoop, if_pos hlt, if_pos hbad']
    exact ih
  | case2 offset loaded hlt hbad hflip =>
    have hbad' : ¬ (device G fault flips).blockIsbad offset = true := hbad
    have hret : (euclean, read cells offset G.len).1 ≠ 0 := Int.negSucc_ne_zero 116
    rw [readLoop, if_pos hlt, if_neg hbad', nandRead_of_flip hflip]
    dsimp only
    rw [if_pos hret, hstore]
    exact ⟨iff_of_false Nat.one_ne_zero Bool.false_ne_true, rfl⟩
  | case3 offset loaded hlt hbad hflip ih =>
    have hbad' : ¬ (device G fault flips).blockIsbad offset = true := hbad
    rw [List.length_append, length_read] at ih
    rw [readLoop, if_pos hlt, if_neg hbad', nandRead_of_not_flip hflip]
    dsimp only
    rw [if_neg (not_not_intro rfl), length_read, hstore]
    exact ih
  | case4 offset loaded hstop =>
    rw [readLoop, if_neg hstop]
    by_cases heq : loaded.length = G.envSize
    · rw [if_neg (not_not_intro heq)]
      exact ⟨iff_of_true rfl (decide_eq_true heq), rfl⟩
    · rw [if_pos heq]
      refine ⟨iff_of_false Nat.one_ne_zero ?_, rfl⟩
      exact fun h => heq (of_decide_eq_true h)

/-- The redundant environment is written and read by these functions. -/
theorem writeenv_device (fault : ℕ → Option (ℕ → Byte)) (buf cells : ℕ → Byte) (t : Slot)
    (hdvd : G.len ∣ G.envSize) :
  ((writeenv (device G fault flips) G.envSize G.range (G.offset t) buf cells).1 = 0
      ↔ (Nand.writeenv G fault cells t (read buf 0 G.envSize)).1 = true)
    ∧ (writeenv (device G fault flips) G.envSize G.range (G.offset t) buf cells).2
      = (Nand.writeenv G fault cells t (read buf 0 G.envSize)).2
  := writeLoop_device fault buf cells _ _ 0 hdvd

theorem readenv_device (fault : ℕ → Option (ℕ → Byte)) (buf cells : ℕ → Byte) (t : Slot) :
  ((readenv (device G fault flips) G.envSize G.range (G.offset t) cells buf).1 = 0
      ↔ (Nand.readenv G flips cells t).1 = true)
    ∧ (readenv (device G fault flips) G.envSize G.range (G.offset t) cells buf).2
      = store buf 0 (Nand.readenv G flips cells t).2
  := readLoop_device fault buf cells (G.offset t + G.range) (G.offset t) []

/-! ### A range with a bad block, and a bit flip -/

/-- Blocks of four bytes for an environment of eight; the second of them is bad. -/
def fourBlocks : Nand.Geometry where
  blocksize := 4
  envSize := 8
  range := 16
  offset
    | .first => 0
    | .second => 16
  isBad p := p == 4
  defaultEnvironment := [0, 0, 0]
  blocksize_pos := by decide
  aligned := by decide
  disjoint := by
    rintro (_ | _)
    · exact .inl (by decide)
    · exact .inr (by decide)
  length_default := rfl

/-- The environment is in the first and in the third block, and it is found there; the bit flip in
the fourth one does not matter. -/
theorem readenv_writeenv_fourBlocks :
  readenv (device fourBlocks (fun _ => none) fun p => p == 12) 8 16 0
      (writeenv (device fourBlocks (fun _ => none) fun p => p == 12) 8 16 0
        (fun i => UInt8.ofNat i) fun _ => 0xff).2 (fun _ => 0)
    = (0, store (fun _ => 0) 0 [0, 1, 2, 3, 4, 5, 6, 7])
  := by
  have hwrite : (writeenv (device fourBlocks (fun _ => none) fun p => p == 12) 8 16 0
      (fun i => UInt8.ofNat i) fun _ => 0xff).1 = 0 := by
    rw [writeenv, writeLoop_of_write (by decide) (by decide) (nandWrite_of_none rfl),
      writeLoop_of_isbad (by decide) (by decide),
      writeLoop_of_write (by decide) (by decide) (nandWrite_of_none rfl), writeLoop,
      if_neg (by decide)]
    rfl
  refine ((readenv_writeenv_iff (sound_device fourBlocks _ _) 8 16 0).1 _ _ _ _ ?_ hwrite
    fun _ _ h => h).mpr ?_
  · exact fun _ _ _ _ _ => rfl
  · intro k hk hflip
    -- the fourth block is behind the two that the environment takes
    have hret : (if (0 + k * 4 == 12) = true then euclean else 0) = euclean := hflip
    have hfour : (0 + k * 4 == 12) = true := by
      by_contra hno
      rw [if_neg hno] at hret
      exact absurd hret (by decide)
    obtain rfl : k = 3 := by
      have heq := eq_of_beq hfour
      omega
    exact absurd hk.lt (by decide)

/-- A bit flip in the one block of the environment is corrected, and `readenv` fails. -/
theorem not_readenv_sam460ex :
  (writeenv (device Nand.sam460exNand (fun _ => none) fun p => p == 262144) 131072 131072 262144
      (fun i => UInt8.ofNat i) fun _ => 0xff).1 = 0
    ∧ ∀ buf', (readenv (device Nand.sam460exNand (fun _ => none) fun p => p == 262144) 131072
      131072 262144 (writeenv (device Nand.sam460exNand (fun _ => none) fun p => p == 262144)
        131072 131072 262144 (fun i => UInt8.ofNat i) fun _ => 0xff).2 buf').1 = 1
  := by
  constructor
  · have hok : (Nand.writeenv Nand.sam460exNand (fun _ => none) (fun _ => 0xff) .first
        (read (fun i => UInt8.ofNat i) 0 131072)).1 = true :=
      congrArg Prod.fst (Nand.writeenv_oneBlock _ _ (length_read _ _ _))
    exact (writeenv_device (fun _ => none) _ _ .first (Nat.dvd_refl 131072)).1.mpr hok
  · intro buf'
    apply readLoop_of_fail (by decide) Bool.false_ne_true
    exact Int.negSucc_ne_zero 116

end Blocks

end Env
