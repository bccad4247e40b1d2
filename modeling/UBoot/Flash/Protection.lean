import UBoot.Flash.Write

/-!
# Protected sectors

When `flash_write` keeps to its range, to the banks and to the sectors that are not protected, and
reports what it should (`flashWrite_correct_iff`).  It does not when the range wraps around, when it
runs over a gap between two banks, and when the only protected sector it meets is the last one of
a bank at the top of the address space.
-/

namespace Flash

variable {f : Banks} {info : Info} {addr cnt src a e : Word} {i : ℕ}

/-! ### Addresses -/

/-- The address `a` is one of the `cnt` addresses from `addr` on. -/
def InRange (addr cnt a : Word) : Prop := a - addr < cnt

/-- The address is in the bank. -/
def Info.Has (info : Info) (a : Word) : Prop := info.lo ≤ a.toNat ∧ a.toNat < info.hi

/-- The address is in a known bank. -/
def InFlash (f : Banks) (a : Word) : Prop := ∃ info ∈ f.info, info.Has a

/-- The address is in a sector whose protect flag is set. -/
def ProtectedAt (f : Banks) (a : Word) : Prop :=
  ∃ info ∈ f.info, ∃ i < info.sectorCount, info.protectOf i = true
    ∧ (info.startOf i).toNat ≤ a.toNat ∧ a.toNat < info.sectorEnd i

instance (addr cnt a : Word) : Decidable (InRange addr cnt a) :=
  inferInstanceAs (Decidable (_ < _))

instance (info : Info) (a : Word) : Decidable (info.Has a) :=
  inferInstanceAs (Decidable (_ ∧ _))

instance (f : Banks) (a : Word) : Decidable (InFlash f a) :=
  inferInstanceAs (Decidable (∃ info ∈ f.info, info.Has a))

instance (f : Banks) (a : Word) : Decidable (ProtectedAt f a) :=
  inferInstanceAs (Decidable (∃ info ∈ f.info, ∃ i < info.sectorCount, info.protectOf i = true
    ∧ (info.startOf i).toNat ≤ a.toNat ∧ a.toNat < info.sectorEnd i))

/-! ### What is promised -/

/-- The calls hand over the `n` bytes at `src` for `addr`, one piece after the other. -/
def Handed : List Call → Word → Word → ℕ → Prop
  | [], _, _, n => n = 0
  | c :: calls, src, addr, n =>
    c.src = src ∧ c.addr = addr ∧ c.len.toNat ≤ n
      ∧ Handed calls (src + c.len) (addr + c.len) (n - c.len.toNat)

/-- Only bytes of the range are programmed, all of them in known banks and in sectors that are not
protected; a protected sector is reported when both ends are in flash; and success is reported only
after all bytes were handed over in order. -/
structure Correct (f : Banks) (src addr cnt : Word) (r : Result) : Prop where
  programmed : ∀ c ∈ r.calls, ∀ a, InRange c.addr c.len a →
    InRange addr cnt a ∧ InFlash f a ∧ ¬ ProtectedAt f a
  isProtected : InFlash f addr → InFlash f (addr + cnt - 1) →
    (∃ a, InRange addr cnt a ∧ ProtectedAt f a) → r.ret = errProtected
  ok : r.ret = errOk → Handed r.calls src addr cnt.toNat

/-- A protected sector that reaches from below the last address to above the first one, and does
not end at the top of the address space. -/
def Seen (f : Banks) (addr e : Word) : Prop :=
  ∃ info ∈ f.info, ∃ i < info.sectorCount, info.protectOf i = true
    ∧ (info.startOf i).toNat ≤ e.toNat ∧ addr.toNat < info.sectorEnd i
    ∧ info.sectorEnd i < 2 ^ 32

/-- The range is empty, one of its ends is not in flash, it meets a protected sector below the top
of the address space, or it does not wrap and lies in banks and unprotected sectors as a whole. -/
def Good (f : Banks) (addr cnt : Word) : Prop :=
  cnt = 0 ∨ ¬ InFlash f addr ∨ ¬ InFlash f (addr + cnt - 1) ∨ Seen f addr (addr + cnt - 1)
    ∨ addr.toNat + cnt.toNat ≤ 2 ^ 32
      ∧ ∀ a, InRange addr cnt a → InFlash f a ∧ ¬ ProtectedAt f a

/-! ### Banks and sectors -/

theorem Info.toNat_end (info : Info) :
  (info.startOf 0 + info.size).toNat = info.hi % 2 ^ 32
  := by
  rw [BitVec.toNat_add, hi, lo]

namespace Info.Valid

variable (h : info.Valid)

include h

theorem sectorCount_pos :
  0 < info.sectorCount
  := List.length_pos_iff.mpr h.nonempty

theorem lo_lt_hi :
  info.lo < info.hi
  := h.inside 0 h.sectorCount_pos

theorem startOf_lt {j : ℕ} (hij : i < j) (hj : j < info.sectorCount) :
  (info.startOf i).toNat < (info.startOf j).toNat
  := by
  have hlt := List.pairwise_iff_getElem.mp h.sorted i j (hij.trans hj) hj hij
  simp only [startOf, List.getD_eq_getElem?_getD]
  rw [List.getElem?_eq_getElem (hij.trans hj), List.getElem?_eq_getElem hj, Option.getD_some,
    Option.getD_some]
  exact BitVec.lt_def.mp hlt

theorem lo_le_startOf (hi : i < info.sectorCount) :
  info.lo ≤ (info.startOf i).toNat
  := by
  obtain rfl | hpos := Nat.eq_zero_or_pos i
  · exact le_rfl
  · exact (h.startOf_lt hpos hi).le

theorem sectorEnd_le (hi : i < info.sectorCount) :
  info.sectorEnd i ≤ info.hi
  := by
  rw [sectorEnd]
  split_ifs with hlast
  · exact le_rfl
  · exact (h.inside _ (by omega)).le

/-- The comparisons of `addr2info`. -/
theorem found_iff :
  (info.flashId ≠ flashUnknown ∧ a ≥ info.startOf 0 ∧ a ≤ info.startOf 0 + info.size - 1)
    ↔ info.Has a
  := by
  have hlt := h.lo_lt_hi
  have htop := h.top
  have hend := info.toNat_end
  simp only [ne_eq, h.known, not_false_iff, true_and, ge_iff_le, BitVec.le_def, Has, lo]
  have hone : (1 : Word).toNat = 1 := rfl
  rw [BitVec.toNat_sub, hend, hone]
  simp only [lo] at hlt
  omega

/-- The test for a protected sector: it misses the sector that ends at the top. -/
theorem sectorHit_iff (hi : i < info.sectorCount) :
  sectorHit info addr e i = true
    ↔ info.protectOf i = true ∧ (info.startOf i).toNat ≤ e.toNat
      ∧ addr.toNat < info.sectorEnd i ∧ info.sectorEnd i < 2 ^ 32
  := by
  have hend : (if i = info.sectorCount - 1 then info.startOf 0 + info.size
      else info.startOf (i + 1)).toNat = info.sectorEnd i % 2 ^ 32 := by
    rw [sectorEnd]
    by_cases hlast : i + 1 = info.sectorCount
    · rw [if_pos (by omega), if_pos hlast, info.toNat_end]
    · rw [if_neg (by omega), if_neg hlast, Nat.mod_eq_of_lt (info.startOf (i + 1)).isLt]
  have hle : info.sectorEnd i ≤ 2 ^ 32 := (h.sectorEnd_le hi).trans h.top
  have hbelow : addr.toNat < info.sectorEnd i % 2 ^ 32
      ↔ addr.toNat < info.sectorEnd i ∧ info.sectorEnd i < 2 ^ 32 := by
    have := addr.isLt
    omega
  simp only [sectorHit, ge_iff_le, Bool.and_eq_true, decide_eq_true_eq, BitVec.le_def,
    BitVec.lt_def, hend, hbelow]
  tauto

end Info.Valid

theorem addr2info_some {k : ℕ} (h : addr2info f a = some k) :
  ∃ info, f.info[k]? = some info ∧ info.Has a
  := by
  obtain ⟨hk, hfound, -⟩ := List.findIdx?_eq_some_iff_getElem.mp h
  refine ⟨f.info[k], List.getElem?_eq_getElem hk, ?_⟩
  rw [decide_eq_true_eq] at hfound
  exact (f.valid _ (List.getElem_mem hk)).found_iff.mp hfound

theorem inFlash_iff :
  InFlash f a ↔ ∃ k, addr2info f a = some k
  := by
  constructor
  · rintro ⟨info, hinfo, hhas⟩
    rw [← Option.isSome_iff_exists, addr2info, List.findIdx?_isSome, List.any_eq_true]
    refine ⟨info, hinfo, ?_⟩
    rw [decide_eq_true_eq]
    exact (f.valid info hinfo).found_iff.mpr hhas
  · rintro ⟨k, hk⟩
    obtain ⟨info, hinfo, hhas⟩ := addr2info_some hk
    exact ⟨info, List.mem_of_getElem? hinfo, hhas⟩

/-- Banks further on in the table are higher. -/
theorem Banks.hi_le {j k : ℕ} {b c : Info} (hj : f.info[j]? = some b) (hk : f.info[k]? = some c)
    (hjk : j < k) :
  b.hi ≤ c.lo
  := by
  obtain ⟨hj', rfl⟩ := List.getElem?_eq_some_iff.mp hj
  obtain ⟨hk', rfl⟩ := List.getElem?_eq_some_iff.mp hk
  exact List.pairwise_iff_getElem.mp f.sorted j k hj' hk' hjk

/-- A bank that reaches from below `e` to above `addr` is between the banks of the two. -/
theorem mem_slice {first last : ℕ} (hfirst : addr2info f addr = some first)
    (hlast : addr2info f e = some last) {b : Info} (hb : b ∈ f.info) (hlo : b.lo ≤ e.toNat)
    (hhi : addr.toNat < b.hi) :
  b ∈ (f.info.take (last + 1)).drop first
  := by
  obtain ⟨b₁, hb₁, hhas₁⟩ := addr2info_some hfirst
  obtain ⟨b₂, hb₂, hhas₂⟩ := addr2info_some hlast
  obtain ⟨j, hj⟩ := List.mem_iff_getElem?.mp hb
  have hfj : first ≤ j := by
    by_contra hlt
    have := f.hi_le hj hb₁ (by omega)
    have := hhas₁.1
    omega
  have hjl : j ≤ last := by
    by_contra hlt
    have := f.hi_le hb₂ hj (by omega)
    have := hhas₂.2
    omega
  apply List.mem_of_getElem? (i := j - first)
  rw [List.getElem?_drop, List.getElem?_take, if_pos (by omega), ← hj]
  congr 1
  omega

/-- The first loop sees the protected sectors below the top. -/
theorem isProtected_iff {first last : ℕ} (hfirst : addr2info f addr = some first)
    (hlast : addr2info f e = some last) :
  isProtected ((f.info.take (last + 1)).drop first) addr e = true ↔ Seen f addr e
  := by
  simp only [isProtected, List.any_eq_true, List.mem_range]
  constructor
  · rintro ⟨b, hb, i, hi, hhit⟩
    have hb' : b ∈ f.info := List.mem_of_mem_take (List.mem_of_mem_drop hb)
    exact ⟨b, hb', i, hi, ((f.valid b hb').sectorHit_iff hi).mp hhit⟩
  · rintro ⟨b, hb, i, hi, hhit⟩
    have hvalid := f.valid b hb
    refine ⟨b, ?_, i, hi, (hvalid.sectorHit_iff hi).mpr hhit⟩
    apply mem_slice hfirst hlast hb
    · exact (hvalid.lo_le_startOf hi).trans hhit.2.1
    · exact hhit.2.2.1.trans_le (hvalid.sectorEnd_le hi)

/-! ### The second loop -/

/-- A driver that never fails. -/
def alwaysOk (_ : Call) : ℤ := 0

theorem writeLoop_alwaysOk (banks : List Info) (src addr cnt : Word) :
  (writeLoop alwaysOk banks src addr cnt).ret = errOk
  := by
  induction banks generalizing src addr cnt with
  | nil => rfl
  | cons b banks ih =>
    rw [writeLoop]
    split_ifs
    · rfl
    · apply ih

/-- The piece of a range that lies in its first bank. -/
theorem toNat_piece (cnt : Word) (h : info.Valid) (haddr : info.Has addr) :
  (if info.startOf 0 + info.size - addr > cnt then cnt
    else info.startOf 0 + info.size - addr).toNat = min (info.hi - addr.toNat) cnt.toNat
  := by
  have hend := info.toNat_end
  have hlen : (info.startOf 0 + info.size - addr).toNat = info.hi - addr.toNat := by
    have htop := h.top
    have hlo := haddr.1
    have hhi := haddr.2
    have hsize := info.size.isLt
    rw [BitVec.toNat_sub, hend]
    simp only [Info.hi] at htop hhi ⊢
    omega
  rw [apply_ite BitVec.toNat, hlen]
  simp only [gt_iff_lt, BitVec.lt_def, hlen]
  split_ifs <;> omega

/-- The banks `banks` hold the whole range, and the first of them its start. -/
structure Covers (banks : List Info) (addr cnt : Word) : Prop where
  valid : ∀ b ∈ banks, b.Valid
  sorted : banks.Pairwise fun a b => a.hi ≤ b.lo
  noWrap : addr.toNat + cnt.toNat ≤ 2 ^ 32
  head : cnt ≠ 0 → ∃ b ∈ banks.head?, b.Has addr
  covered : ∀ n, addr.toNat ≤ n → n < addr.toNat + cnt.toNat → ∃ b ∈ banks, b.lo ≤ n ∧ n < b.hi

/-- The rest of the range behind the first bank. -/
theorem Covers.tail {b : Info} {banks : List Info} {len : Word} (h : Covers (b :: banks) addr cnt)
    (hcnt : cnt ≠ 0) (hlen : len.toNat = min (b.hi - addr.toNat) cnt.toNat) :
  Covers banks (addr + len) (cnt - len) ∧ (cnt - len).toNat = cnt.toNat - len.toNat
    ∧ (addr.toNat + len.toNat < 2 ^ 32 → (addr + len).toNat = addr.toNat + len.toNat)
  := by
  obtain ⟨b', hb', hhas⟩ := h.head hcnt
  obtain rfl := Option.some.inj hb'
  have hwrap := h.noWrap
  have hsub : (cnt - len).toNat = cnt.toNat - len.toNat := by
    rw [BitVec.toNat_sub_of_le]
    rw [BitVec.le_def]
    omega
  have hadd (hlt : addr.toNat + len.toNat < 2 ^ 32) :
      (addr + len).toNat = addr.toNat + len.toNat := by
    rw [BitVec.toNat_add, Nat.mod_eq_of_lt hlt]
  have hsorted := List.pairwise_cons.mp h.sorted
  have hvalid (c : Info) (hc : c ∈ banks) : c.Valid := h.valid c (List.mem_cons_of_mem b hc)
  have hrest (n : ℕ) (hn : b.hi ≤ n) (hn' : n < addr.toNat + cnt.toNat) :
      ∃ c ∈ banks, c.lo ≤ n ∧ n < c.hi := by
    have := hhas.1
    have := hhas.2
    obtain ⟨c, hc, hlo, hhi⟩ := h.covered n (by omega) hn'
    obtain rfl | hc := List.mem_cons.mp hc
    · omega
    · exact ⟨c, hc, hlo, hhi⟩
  refine ⟨?_, hsub, hadd⟩
  by_cases hdone : (cnt - len).toNat = 0
  · -- the first bank holds the whole range
    have hzero : cnt - len = 0 := BitVec.eq_of_toNat_eq hdone
    refine ⟨hvalid, hsorted.2, ?_, fun hne => absurd hzero hne, ?_⟩
    · have := (addr + len).isLt
      omega
    · intro n _ _
      omega
  · have hlen' : len.toNat = b.hi - addr.toNat := by omega
    have hhas₁ := hhas.1
    have hhas₂ := hhas.2
    have hadd' := hadd (by omega)
    refine ⟨hvalid, hsorted.2, by omega, ?_, ?_⟩
    · -- the next address is the start of the next bank
      intro _
      obtain ⟨c, hc, hlo, hhi⟩ := hrest b.hi le_rfl (by omega)
      cases banks with
      | nil => simp at hc
      | cons d banks =>
        have hd := hsorted.1 d List.mem_cons_self
        have hdc : c = d := by
          obtain rfl | hc' := List.mem_cons.mp hc
          · rfl
          · have := (List.pairwise_cons.mp hsorted.2).1 c hc'
            have := (hvalid d List.mem_cons_self).lo_lt_hi
            omega
        subst hdc
        refine ⟨c, rfl, ?_, ?_⟩ <;> omega
    · intro n hn hn'
      apply hrest n <;> omega

/-- The pieces lie in the range, and are handed over one after the other. -/
theorem writeLoop_spec (writeBuff : Call → ℤ) (src : Word) {banks : List Info}
    (h : Covers banks addr cnt) :
  (∀ c ∈ (writeLoop writeBuff banks src addr cnt).calls, ∀ a, InRange c.addr c.len a →
      InRange addr cnt a)
    ∧ ((writeLoop writeBuff banks src addr cnt).ret = errOk →
      Handed (writeLoop writeBuff banks src addr cnt).calls src addr cnt.toNat)
  := by
  induction banks generalizing src addr cnt with
  | nil =>
    refine ⟨by simp [writeLoop], ?_⟩
    intro _
    by_contra hcnt
    obtain ⟨b, hb, -⟩ := h.head (by rintro rfl; exact hcnt rfl)
    simp at hb
  | cons b banks ih =>
    rw [writeLoop]
    by_cases hcnt : cnt = 0
    · rw [if_pos hcnt]
      subst hcnt
      exact ⟨by simp, fun _ => rfl⟩
    · obtain ⟨b', hb', hhas⟩ := h.head hcnt
      obtain rfl := Option.some.inj hb'
      have hpiece := toNat_piece cnt (h.valid b List.mem_cons_self) hhas
      simp only [if_neg hcnt]
      set len := if b.startOf 0 + b.size - addr > cnt then cnt else b.startOf 0 + b.size - addr
      obtain ⟨htail, hsub, hadd⟩ := h.tail hcnt hpiece
      have hle : len ≤ cnt := by
        rw [BitVec.le_def]
        omega
      have hfirst (a : Word) (ha : InRange addr len a) : InRange addr cnt a := by
        rw [InRange, BitVec.lt_def] at ha ⊢
        exact ha.trans_le (BitVec.le_def.mp hle)
      split_ifs with hcall
      · refine ⟨?_, fun hret => absurd hret hcall⟩
        intro c hc
        obtain rfl := List.mem_singleton.mp hc
        exact hfirst
      · obtain ⟨hrange, hhanded⟩ := ih (src + len) htail
        refine ⟨?_, ?_⟩
        · intro c hc a ha
          obtain rfl | hc := List.mem_cons.mp hc
          · exact hfirst a ha
          · have hin := hrange c hc a ha
            rw [InRange, BitVec.lt_def] at hin ⊢
            rw [hsub] at hin
            have heq : a - addr = a - (addr + len) + len := by
              bv_omega
            rw [heq, BitVec.toNat_add]
            have := Nat.mod_le ((a - (addr + len)).toNat + len.toNat) (2 ^ 32)
            omega
        · intro hret
          refine ⟨rfl, rfl, BitVec.le_def.mp hle, ?_⟩
          rw [← hsub]
          exact hhanded hret

/-! ### The whole call -/

theorem inRange_iff (hwrap : addr.toNat + cnt.toNat ≤ 2 ^ 32) :
  InRange addr cnt a ↔ addr.toNat ≤ a.toNat ∧ a.toNat < addr.toNat + cnt.toNat
  := by
  have ha := a.isLt
  rw [InRange, BitVec.lt_def, BitVec.toNat_sub]
  omega

theorem toNat_last (addr : Word) (hcnt : cnt ≠ 0) :
  (addr + cnt - 1).toNat = (addr.toNat + cnt.toNat - 1) % 2 ^ 32
  := by
  have hpos : cnt.toNat ≠ 0 := fun h => hcnt (BitVec.eq_of_toNat_eq h)
  have hone : (1 : Word).toNat = 1 := rfl
  rw [BitVec.toNat_sub, BitVec.toNat_add, hone]
  omega

theorem flashWrite_eq (writeBuff : Call → ℤ) {first last : ℕ} (hcnt : cnt ≠ 0)
    (hfirst : addr2info f addr = some first) (hlast : addr2info f (addr + cnt - 1) = some last) :
  flashWrite f writeBuff src addr cnt
    = if isProtected ((f.info.take (last + 1)).drop first) addr (addr + cnt - 1) then
        ⟨errProtected, []⟩
      else writeLoop writeBuff ((f.info.take (last + 1)).drop first) src addr cnt
  := by
  simp only [flashWrite, if_neg hcnt, hfirst, hlast]

theorem flashWrite_inval (writeBuff : Call → ℤ) (hcnt : cnt ≠ 0)
    (h : ¬ InFlash f addr ∨ ¬ InFlash f (addr + cnt - 1)) :
  flashWrite f writeBuff src addr cnt = ⟨errInval, []⟩
  := by
  simp only [flashWrite, if_neg hcnt]
  split
  · rename_i first last hfirst hlast
    obtain h | h := h
    · exact absurd (inFlash_iff.mpr ⟨first, hfirst⟩) h
    · exact absurd (inFlash_iff.mpr ⟨last, hlast⟩) h
  · rfl

/-- The banks from the first to the last address hold the range when there is no gap in it. -/
theorem covers_slice {first last : ℕ} (hcnt : cnt ≠ 0) (hfirst : addr2info f addr = some first)
    (hlast : addr2info f (addr + cnt - 1) = some last)
    (hwrap : addr.toNat + cnt.toNat ≤ 2 ^ 32) (hrange : ∀ a, InRange addr cnt a → InFlash f a) :
  Covers ((f.info.take (last + 1)).drop first) addr cnt
  := by
  have hpos : cnt.toNat ≠ 0 := fun h => hcnt (BitVec.eq_of_toNat_eq h)
  have hend := toNat_last addr hcnt
  obtain ⟨b₁, hb₁, hhas₁⟩ := addr2info_some hfirst
  obtain ⟨b₂, hb₂, hhas₂⟩ := addr2info_some hlast
  have hle : first ≤ last := by
    by_contra hlt
    have := f.hi_le hb₂ hb₁ (by omega)
    have := hhas₁.1
    have := hhas₂.2
    omega
  refine ⟨?_, ?_, hwrap, ?_, ?_⟩
  · intro b hb
    exact f.valid b (List.mem_of_mem_take (List.mem_of_mem_drop hb))
  · exact List.Pairwise.sublist ((List.drop_sublist _ _).trans (List.take_sublist _ _)) f.sorted
  · intro _
    refine ⟨b₁, ?_, hhas₁⟩
    rw [List.head?_drop, List.getElem?_take, if_pos (by omega)]
    exact hb₁
  · intro n hn hn'
    have hnat : (BitVec.ofNat 32 n).toNat = n := by
      rw [BitVec.toNat_ofNat, Nat.mod_eq_of_lt (by omega)]
    obtain ⟨b, hb, hlo, hhi⟩ := hrange (BitVec.ofNat 32 n) ((inRange_iff hwrap).mpr (by omega))
    rw [hnat] at hlo hhi
    refine ⟨b, mem_slice hfirst hlast hb ?_ ?_, hlo, hhi⟩ <;> omega

theorem Good.correct (h : Good f addr cnt) (writeBuff : Call → ℤ) (src : Word) :
  Correct f src addr cnt (flashWrite f writeBuff src addr cnt)
  := by
  by_cases hcnt : cnt = 0
  · have heq : flashWrite f writeBuff src addr cnt = ⟨errOk, []⟩ := by
      simp only [flashWrite, if_pos hcnt]
    rw [heq, hcnt]
    refine ⟨by simp, ?_, fun _ => rfl⟩
    rintro - - ⟨a, ha, -⟩
    exact absurd ha (by simp [InRange])
  by_cases hinval : ¬ InFlash f addr ∨ ¬ InFlash f (addr + cnt - 1)
  · rw [flashWrite_inval writeBuff hcnt hinval]
    refine ⟨by simp, ?_, ?_⟩
    · intro h₁ h₂
      obtain hinval | hinval := hinval
      · exact absurd h₁ hinval
      · exact absurd h₂ hinval
    · intro hret
      exact absurd hret (by decide)
  obtain ⟨hin₁, hin₂⟩ := not_or.mp hinval
  rw [not_not] at hin₁ hin₂
  obtain ⟨first, hfirst⟩ := inFlash_iff.mp hin₁
  obtain ⟨last, hlast⟩ := inFlash_iff.mp hin₂
  rw [flashWrite_eq writeBuff hcnt hfirst hlast]
  split_ifs with hprot
  · exact ⟨by simp, fun _ _ _ => rfl, fun hret => absurd hret (by decide)⟩
  · rw [isProtected_iff hfirst hlast] at hprot
    obtain ⟨hwrap, hrange⟩ : addr.toNat + cnt.toNat ≤ 2 ^ 32
        ∧ ∀ a, InRange addr cnt a → InFlash f a ∧ ¬ ProtectedAt f a := by
      simpa only [Good, hcnt, hin₁, hin₂, hprot, not_true, false_or] using h
    have hcovers := covers_slice hcnt hfirst hlast hwrap fun a ha => (hrange a ha).1
    obtain ⟨hcalls, hok⟩ := writeLoop_spec writeBuff src hcovers
    refine ⟨?_, ?_, hok⟩
    · intro c hc a ha
      have hin := hcalls c hc a ha
      exact ⟨hin, hrange a hin⟩
    · rintro - - ⟨a, ha, hprot'⟩
      exact absurd hprot' (hrange a ha).2

/-- Every byte of the range is in one of the pieces. -/
theorem Handed.exists_call {calls : List Call} {n : ℕ} (h : Handed calls src addr n)
    (ha : (a - addr).toNat < n) :
  ∃ c ∈ calls, InRange c.addr c.len a
  := by
  induction calls generalizing src addr n with
  | nil =>
    rw [Handed] at h
    omega
  | cons c calls ih =>
    obtain ⟨-, rfl, hlen, hrest⟩ := h
    by_cases hlt : (a - c.addr).toNat < c.len.toNat
    · exact ⟨c, List.mem_cons_self, BitVec.lt_def.mpr hlt⟩
    · have hsub : (a - (c.addr + c.len)).toNat = (a - c.addr).toNat - c.len.toNat := by
        bv_omega
      obtain ⟨c', hc', hin⟩ := ih hrest (by omega)
      exact ⟨c', List.mem_cons_of_mem c hc', hin⟩

/-- A range that wraps around is not written as a whole. -/
theorem not_handed_of_wrap {first last : ℕ} (hcnt : cnt ≠ 0)
    (hfirst : addr2info f addr = some first) (hlast : addr2info f (addr + cnt - 1) = some last)
    (hwrap : 2 ^ 32 < addr.toNat + cnt.toNat) :
  ¬ Handed (writeLoop alwaysOk ((f.info.take (last + 1)).drop first) src addr cnt).calls src addr
    cnt.toNat
  := by
  have hpos : cnt.toNat ≠ 0 := fun h => hcnt (BitVec.eq_of_toNat_eq h)
  have hend := toNat_last addr hcnt
  have haddr := addr.isLt
  have hcnt' := cnt.isLt
  obtain ⟨b₁, hb₁, hhas₁⟩ := addr2info_some hfirst
  obtain ⟨b₂, hb₂, hhas₂⟩ := addr2info_some hlast
  have hle : last ≤ first := by
    by_contra hlt
    have := f.hi_le hb₁ hb₂ (by omega)
    have := hhas₁.2
    have := hhas₂.1
    omega
  obtain hlt | rfl := hle.lt_or_eq
  · have hnil : (f.info.take (last + 1)).drop first = [] := by
      rw [List.drop_eq_nil_iff, List.length_take]
      omega
    rw [hnil]
    exact hpos
  · have hsingle : (f.info.take (last + 1)).drop last = [b₁] := by
      obtain ⟨hlen, heq⟩ := List.getElem?_eq_some_iff.mp hb₁
      rw [List.take_succ_eq_append_getElem hlen, List.drop_append_of_le_length (by simp; omega),
        List.drop_of_length_le (by simp), heq]
      rfl
    have hvalid := f.valid b₁ (List.mem_of_getElem? hb₁)
    have hpiece := toNat_piece cnt hvalid hhas₁
    have htop := hvalid.top
    rw [hsingle, writeLoop]
    simp only [if_neg hcnt]
    set len := if b₁.startOf 0 + b₁.size - addr > cnt then cnt else b₁.startOf 0 + b₁.size - addr
    rw [if_neg (by simp [alwaysOk])]
    rintro ⟨-, -, -, hrest⟩
    simp only [writeLoop, Handed] at hrest
    omega

/-- `flash_write` does what it promises, whatever the driver returns, exactly for the good
ranges. -/
theorem correct_iff_good :
  (∀ writeBuff, Correct f src addr cnt (flashWrite f writeBuff src addr cnt)) ↔ Good f addr cnt
  := by
  refine ⟨?_, fun h writeBuff => h.correct writeBuff src⟩
  intro hall
  have hcorrect := hall alwaysOk
  by_contra hbad
  simp only [Good, not_or, not_not, not_and] at hbad
  obtain ⟨hcnt, hin₁, hin₂, hseen, hrange⟩ := hbad
  obtain ⟨first, hfirst⟩ := inFlash_iff.mp hin₁
  obtain ⟨last, hlast⟩ := inFlash_iff.mp hin₂
  rw [← isProtected_iff hfirst hlast] at hseen
  rw [flashWrite_eq alwaysOk hcnt hfirst hlast, if_neg hseen] at hcorrect
  have hret := writeLoop_alwaysOk ((f.info.take (last + 1)).drop first) src addr cnt
  have hhanded := hcorrect.ok hret
  by_cases hwrap : addr.toNat + cnt.toNat ≤ 2 ^ 32
  · have hnot := hrange hwrap
    push Not at hnot
    obtain ⟨a, ha, hprot⟩ := hnot
    obtain ⟨c, hc, hin⟩ := hhanded.exists_call (BitVec.lt_def.mp ha)
    obtain ⟨-, hflash, hunprot⟩ := hcorrect.programmed c hc a hin
    exact hunprot (hprot hflash)
  · exact not_handed_of_wrap hcnt hfirst hlast (by omega) hhanded

/-- For every table of banks and every protection set up by calls of `flash_protect`:
`flash_write` keeps to its range, to the banks and to the unprotected sectors, and reports what it
should, exactly for the good ranges. -/
theorem flashWrite_correct_iff (f : Banks) (protects : List Protect) (src addr cnt : Word) :
  (∀ writeBuff, Correct (protects.foldl Banks.protect f) src addr cnt
      (flashWrite (protects.foldl Banks.protect f) writeBuff src addr cnt))
    ↔ Good (protects.foldl Banks.protect f) addr cnt
  := correct_iff_good

/-- Two banks of two sectors each, with a gap between them, the second one at the top of the
address space. -/
def twoBanks : Banks where
  info := [
    ⟨0x100000, 1, [0xFE000000, 0xFE080000], [false, false]⟩,
    ⟨0x100000, 1, [0xFFF00000, 0xFFF80000], [false, false]⟩]
  valid := by decide +kernel
  sorted := by decide +kernel

/-- The last sector is protected. -/
def protectLast : Protect := ⟨.set, 0xFFF80000, 0xFFFFFFFF, 1⟩

/-- The protected sector at the top is programmed; so is the gap between the banks; and a range that
wraps from the last bank to the first is reported as written, with nothing handed over. -/
theorem flashWrite_incorrect :
  ¬ Correct (twoBanks.protect protectLast) 0 0xFFFC0000 4
      (flashWrite (twoBanks.protect protectLast) alwaysOk 0 0xFFFC0000 4)
    ∧ ¬ Correct twoBanks 0 0xFE0FFFFC 0x1E00008
      (flashWrite twoBanks alwaysOk 0 0xFE0FFFFC 0x1E00008)
    ∧ ¬ Correct twoBanks 0 0xFFFFFFFC 0xFE000008
      (flashWrite twoBanks alwaysOk 0 0xFFFFFFFC 0xFE000008)
  := by
  refine ⟨?_, ?_, ?_⟩
  · intro h
    have hret : (flashWrite (twoBanks.protect protectLast) alwaysOk 0 0xFFFC0000 4).ret
        ≠ errProtected := by
      decide +kernel
    generalize flashWrite (twoBanks.protect protectLast) alwaysOk 0 0xFFFC0000 4 = r at h hret
    apply hret
    apply h.isProtected (by decide +kernel) (by decide +kernel)
    exact ⟨0xFFFC0000, by decide +kernel, by decide +kernel⟩
  · intro h
    have hcalls : (flashWrite twoBanks alwaysOk 0 0xFE0FFFFC 0x1E00008).calls.map
        (fun c => (c.addr, c.len)) = [(0xFE0FFFFC, 4), (0xFE100000, 0x1E00004)] := by
      decide +kernel
    generalize flashWrite twoBanks alwaysOk 0 0xFE0FFFFC 0x1E00008 = r at h hcalls
    have hmem : ((0xFE100000, 0x1E00004) : Word × Word) ∈ r.calls.map fun c => (c.addr, c.len) := by
      rw [hcalls]
      exact List.mem_cons_of_mem _ List.mem_cons_self
    obtain ⟨c, hc, hcall⟩ := List.mem_map.mp hmem
    rw [Prod.mk.injEq] at hcall
    have hin : InRange c.addr c.len 0xFE100000 := by
      rw [hcall.1, hcall.2]
      decide +kernel
    exact absurd (h.programmed c hc 0xFE100000 hin).2.1 (by decide +kernel)
  · intro h
    have hcalls : (flashWrite twoBanks alwaysOk 0 0xFFFFFFFC 0xFE000008).calls.length = 0 := by
      decide +kernel
    have hret : (flashWrite twoBanks alwaysOk 0 0xFFFFFFFC 0xFE000008).ret = errOk := by
      decide +kernel
    generalize flashWrite twoBanks alwaysOk 0 0xFFFFFFFC 0xFE000008 = r at h hcalls hret
    have hok := h.ok hret
    rw [List.length_eq_zero_iff.mp hcalls, Handed] at hok
    exact absurd hok (by decide +kernel)

end Flash
