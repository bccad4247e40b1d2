import UBoot.Lib.Align
import UBoot.Lib.Blocks

/-!
# The TLB of the 440

`program_tlb` and `remove_tlb` of `cpu/ppc4xx/tlb.c`.  A region is mapped by entries of eight page
sizes, from the largest one down, for as long as something is left of the region: when no page fits,
or no entry is free, an error is printed and the loop goes on.

What an entry translates is described apart from how the code writes and reads its words.  The
processor compares the bits of the page number that the page size leaves, and U-Boot has a single
address space, so that the bit `TS` makes no difference.
-/

namespace Tlb

/-! ### The functions -/

/-- The words of an entry, as `mttlb1`, `mttlb2` and `mttlb3` write them. -/
structure Entry where
  word0 : Word
  word1 : Word
  word2 : Word

/-- `PPC4XX_TLB_SIZE`. -/
def tlbSize : ℕ := 64

/-- The entries. -/
abbrev Entries := Fin tlbSize → Entry

/-- `TLB_WORD0_EPN_MASK` and `TLB_WORD1_RPN_MASK`. -/
def pageMask : Word := 0xfffffc00

/-- `TLB_WORD0_V_MASK` and `TLB_WORD0_V_ENABLE`. -/
def vMask : Word := 0x200

/-- `TLB_WORD0_SIZE_MASK`. -/
def sizeMask : Word := 0xf0

/-- `TLB_WORD1_ERPN_MASK`. -/
def erpnMask : Word := 0xf

/-- The attributes that are enabled in `tlb_word2_value`; the value of the disabled ones is 0. -/
def accessBits : Word := 0x20 ||| 0x10 ||| 0x8 ||| 0x4 ||| 0x2 ||| 0x1

/-- A page size: `TLB_*_ALIGN_MASK`, `TLB_*_SIZE` and `TLB_WORD0_SIZE_*`. -/
structure Page where
  alignMask : BitVec 64
  size : Word
  sizeValue : Word

def page256MB : Page := ⟨0xFF0000000, 0x10000000, 0x90⟩
def page16MB : Page := ⟨0xFFF000000, 0x01000000, 0x70⟩
def page1MB : Page := ⟨0xFFFF00000, 0x00100000, 0x50⟩
def page256KB : Page := ⟨0xFFFFC0000, 0x00040000, 0x40⟩
def page64KB : Page := ⟨0xFFFFF0000, 0x00010000, 0x30⟩
def page16KB : Page := ⟨0xFFFFFC000, 0x00004000, 0x20⟩
def page4KB : Page := ⟨0xFFFFFF000, 0x00001000, 0x10⟩
def page1KB : Page := ⟨0xFFFFFFC00, 0x00000400, 0x00⟩

/-- The branches of `program_tlb_addr` in their order. -/
def pages : List Page :=
  [page256MB, page16MB, page1MB, page256KB, page64KB, page16KB, page4KB, page1KB]

/-- The entry that `add_tlb_entry` writes. -/
def newEntry (physAddr : BitVec 64) (virtAddr sizeValue iValue : Word) : Entry where
  word0 := virtAddr &&& pageMask ||| vMask ||| 0 ||| sizeValue
  word1 := physAddr.setWidth 32 &&& pageMask ||| (physAddr >>> 32).setWidth 32 &&& erpnMask
  word2 := iValue ||| accessBits

/-- The first entry that is not used. -/
def firstFree (tlb : Entries) : Option (Fin tlbSize) :=
  (List.finRange tlbSize).find? fun i => (tlb i).word0 &&& vMask = 0

/-- `add_tlb_entry`; `none` for `-1`. -/
def addTlbEntry (physAddr : BitVec 64) (virtAddr sizeValue iValue : Word) (tlb : Entries) :
    Option Entries :=
  (firstFree tlb).map fun i =>
    Function.update tlb i (newEntry physAddr virtAddr sizeValue iValue)

/-- What `program_tlb_addr` prints: "no TLB size exists for the base address", or "no TLB entries
available for the base addr". -/
inductive Message
  | noSize (physAddr : BitVec 64)
  | noEntries (physAddr : BitVec 64)

/-- The variables of the loop of `program_tlb_addr`, the TLB and what is printed. -/
structure State where
  physAddr : BitVec 64
  virtAddr : Word
  memSize : Word
  tlb : Entries
  printed : List Message

/-- The first branch whose condition holds. -/
def State.page (s : State) : Option Page :=
  pages.find? fun page => s.physAddr &&& page.alignMask = s.physAddr ∧ page.size ≤ s.memSize

/-- The body of the loop. -/
def body (iValue : Word) (s : State) : State :=
  match s.page with
  | some page =>
    match addTlbEntry s.physAddr s.virtAddr page.sizeValue iValue s.tlb with
    | some tlb =>
      { physAddr := s.physAddr + page.size.setWidth 64
        virtAddr := s.virtAddr + page.size
        memSize := s.memSize - page.size
        tlb := tlb
        printed := s.printed }
    | none => { s with printed := s.printed ++ [.noEntries s.physAddr] }
  | none => { s with printed := s.printed ++ [.noSize s.physAddr] }

/-- An iteration of `while (mem_size != 0)`. -/
def step (iValue : Word) (s : State) : State := if s.memSize = 0 then s else body iValue s

/-- The beginning of `program_tlb`. -/
def start (physAddr : BitVec 64) (virtAddr size : Word) (tlb : Entries) : State :=
  ⟨physAddr, virtAddr, size, tlb, []⟩

/-- The `switch` of `remove_tlb`, which leaves `tlb_size` as it was for any other value. -/
def pageSize (word0 tlbSize : Word) : Word :=
  ((pages.find? fun page => word0 &&& sizeMask = page.sizeValue).map Page.size).getD tlbSize

/-- One entry in the loop of `remove_tlb`, with the variable `tlb_size`. -/
def removeOne (vaddr size : Word) (s : Entries × Word) (i : Fin tlbSize) : Entries × Word :=
  let word0 := (s.1 i).word0
  let tlbVaddr := word0 &&& pageMask
  if word0 &&& vMask = vMask ∧ tlbVaddr ≥ vaddr then
    let tlbSize := pageSize word0 s.2
    (if tlbVaddr + tlbSize - 1 ≤ vaddr + size - 1 then
      Function.update s.1 i { s.1 i with word0 := 0 }
    else s.1, tlbSize)
  else s

/-- `remove_tlb`. -/
def removeTlb (vaddr size : Word) (tlb : Entries) : Entries :=
  ((List.finRange tlbSize).foldl (removeOne vaddr size) (tlb, 0)).1

/-! ### What an entry translates -/

/-- The page sizes are `2 ^ k` for these `k`. -/
def shifts : List ℕ := [28, 24, 20, 18, 16, 14, 12, 10]

/-- The value of the field `SIZE` for a page of `2 ^ k` bytes, `4 ^ SIZE` KB. -/
def sizeCode (k : ℕ) : Word := BitVec.ofNat 32 ((k - 10) / 2 * 16)

namespace Entry

variable (e : Entry)

def Valid : Prop := e.word0 &&& vMask = vMask

instance : Decidable e.Valid :=
  inferInstanceAs (Decidable (_ = _))

/-- The page has `2 ^ k` bytes; a value of `SIZE` that is not supported has no page. -/
def shift : Option ℕ := shifts.find? fun k => e.word0 &&& sizeMask = sizeCode k

/-- The effective page number, as an address. -/
def epn : ℕ := (e.word0 &&& pageMask).toNat

/-- The extended real page number and the real page number, as an address. -/
def rpn : ℕ := (e.word1 &&& erpnMask).toNat * 2 ^ 32 + (e.word1 &&& pageMask).toNat

/-- The physical address of a virtual one, if the entry is valid and has it in its page. -/
def translate (va : ℕ) : Option ℕ :=
  if e.Valid then
    e.shift.bind fun k =>
      if e.epn / 2 ^ k = va / 2 ^ k then some (e.rpn / 2 ^ k * 2 ^ k + va % 2 ^ k) else none
  else none

/-- A valid entry maps the `2 ^ k` addresses from `v` on to those from `p` on. -/
structure Maps (v p k : ℕ) : Prop where
  valid : e.Valid
  shift_eq : e.shift = some k
  epn_eq : e.epn = v
  rpn_eq : e.rpn = p
  dvd_virt : 2 ^ k ∣ v
  dvd_phys : 2 ^ k ∣ p

end Entry

/-- The number of entries that are not valid. -/
def free (tlb : Entries) : ℕ := (Finset.univ.filter fun i => ¬ (tlb i).Valid).card

variable {k p v : ℕ} {e : Entry} {tlb : Entries} {i : Fin tlbSize}

/-! ### The page sizes -/

/-- The page of `2 ^ k` bytes. -/
def page (k : ℕ) : Page where
  alignMask := BitVec.ofNat 64 (2 ^ k * (2 ^ (36 - k) - 1))
  size := BitVec.ofNat 32 (2 ^ k)
  sizeValue := sizeCode k

theorem pages_eq :
  pages = shifts.map page
  := rfl

theorem le_of_mem_shifts (hk : k ∈ shifts) :
  10 ≤ k ∧ k ≤ 28
  := by
  revert k
  decide

/-- The condition of a branch. -/
theorem align_iff (hk : k ∈ shifts) (a : BitVec 64) :
  a &&& (page k).alignMask = a ↔ 2 ^ k ∣ a.toNat ∧ a.toNat < 2 ^ 36
  := by
  obtain ⟨-, hle⟩ := le_of_mem_shifts hk
  have hpow : 2 ^ k * 2 ^ (36 - k) = 2 ^ 36 := by
    rw [← Nat.pow_add]
    congr 1
    omega
  have hmask : 2 ^ k * (2 ^ (36 - k) - 1) < 2 ^ 64 := by
    rw [Nat.mul_sub_one, hpow]
    exact Nat.lt_of_le_of_lt (Nat.sub_le _ _) (by decide)
  rw [← BitVec.toNat_inj, BitVec.toNat_and, page, BitVec.toNat_ofNat, Nat.mod_eq_of_lt hmask,
    Align.and_block]
  constructor
  · intro h
    constructor
    · exact Dvd.intro _ h
    · rw [← h, ← hpow]
      exact (Nat.mul_lt_mul_left (Nat.two_pow_pos k)).mpr (Nat.mod_lt _ (Nat.two_pow_pos _))
  · rintro ⟨hdvd, hlt⟩
    rw [← hpow] at hlt
    rw [Nat.mod_eq_of_lt ((Nat.div_lt_iff_lt_mul (Nat.two_pow_pos k)).mpr (by rwa [Nat.mul_comm])),
      Nat.mul_div_cancel' hdvd]

theorem toNat_size (hk : k ∈ shifts) :
  (page k).size.toNat = 2 ^ k
  := by
  obtain ⟨-, hle⟩ := le_of_mem_shifts hk
  rw [page, BitVec.toNat_ofNat, Nat.mod_eq_of_lt]
  exact Nat.pow_lt_pow_right (by decide) (by omega)

/-- The branch that is taken is that of the first size that fits. -/
theorem page_eq (s : State) :
  s.page = if s.physAddr.toNat < 2 ^ 36 then
      (Blocks.fit shifts s.physAddr.toNat s.memSize.toNat).map page
    else none
  := by
  have hcond : ∀ k ∈ shifts,
      decide (s.physAddr &&& (page k).alignMask = s.physAddr ∧ (page k).size ≤ s.memSize)
        = decide (s.physAddr.toNat < 2 ^ 36
          ∧ 2 ^ k ∣ s.physAddr.toNat ∧ 2 ^ k ≤ s.memSize.toNat) := by
    intro k hk
    apply decide_eq_decide.mpr
    rw [align_iff hk, BitVec.le_def, toNat_size hk]
    tauto
  rw [State.page, pages_eq, List.find?_map]
  simp only [Function.comp_def]
  rw [List.find?_congr hcond]
  by_cases hlt : s.physAddr.toNat < 2 ^ 36
  · simp only [hlt, true_and, if_true, Blocks.fit]
  · simp only [hlt, false_and, decide_false, if_false]
    rfl

/-! ### Entries that are not valid -/

theorem Entry.not_valid_iff :
  ¬ e.Valid ↔ e.word0 &&& vMask = 0
  := by
  have hbit : (e.word0 &&& vMask).toNat = 2 ^ 9 * (e.word0.toNat / 2 ^ 9 % 2 ^ 1) := by
    rw [BitVec.toNat_and, ← Align.and_block]
    rfl
  have hv : vMask.toNat = 2 ^ 9 := rfl
  have hzero : (0 : Word).toNat = 0 := rfl
  rw [Entry.Valid, ← BitVec.toNat_inj, ← BitVec.toNat_inj, hbit, hv, hzero]
  omega

/-- The first free entry is not valid. -/
theorem not_valid_of_firstFree (h : firstFree tlb = some i) :
  ¬ (tlb i).Valid
  := by
  rw [Entry.not_valid_iff]
  simpa using List.find?_some h

/-- No entry is free if none is found. -/
theorem firstFree_eq_none :
  firstFree tlb = none ↔ free tlb = 0
  := by
  rw [firstFree, List.find?_eq_none, free, Finset.card_eq_zero, Finset.filter_eq_empty_iff]
  simp only [List.mem_finRange, decide_eq_true_eq, true_imp_iff, Finset.mem_univ,
    Entry.not_valid_iff]

/-- One of the free entries is used. -/
theorem free_update (hi : ¬ (tlb i).Valid) (he : e.Valid) :
  free tlb = free (Function.update tlb i e) + 1
  := by
  have herase : (Finset.univ.filter fun j => ¬ (Function.update tlb i e j).Valid)
      = (Finset.univ.filter fun j => ¬ (tlb j).Valid).erase i := by
    ext j
    by_cases hj : j = i
    · subst hj
      simp [he]
    · simp [hj]
  rw [free, free, herase, Finset.card_erase_add_one]
  simpa using hi

/-! ### The entry of a page -/

/-- The codes of the sizes are different from each other, -/
theorem find_sizeCode :
  ∀ k ∈ shifts, shifts.find? (fun j => sizeCode k = sizeCode j) = some k
  := by
  decide

/-- and have no bits outside their field. -/
theorem sizeCode_and :
  ∀ k ∈ shifts, sizeCode k &&& vMask = 0 ∧ sizeCode k &&& pageMask = 0
    ∧ sizeCode k &&& sizeMask = sizeCode k
  := by
  decide

theorem toNat_and_pageMask (a : Word) :
  (a &&& pageMask).toNat = 2 ^ 10 * (a.toNat / 2 ^ 10)
  := by
  have hmask : pageMask.toNat = 2 ^ 10 * (2 ^ 22 - 1) := rfl
  have hlt := a.isLt
  rw [BitVec.toNat_and, hmask, Align.and_block, Nat.mod_eq_of_lt (by omega)]

theorem and_pageMask (a : Word) (h : 2 ^ 10 ∣ a.toNat) :
  a &&& pageMask = a
  := by
  rw [← BitVec.toNat_inj, toNat_and_pageMask, Nat.mul_div_cancel' h]

/-- What `add_tlb_entry` writes is valid. -/
theorem valid_newEntry (physAddr : BitVec 64) (virtAddr iValue : Word) (hk : k ∈ shifts) :
  (newEntry physAddr virtAddr (page k).sizeValue iValue).Valid
  := by
  have hpage : virtAddr &&& pageMask &&& vMask = 0 := by
    rw [BitVec.and_assoc]
    exact BitVec.and_zero
  have hcode : (page k).sizeValue &&& vMask = 0 := (sizeCode_and k hk).1
  rw [Entry.Valid, newEntry, BitVec.and_or_distrib_right, BitVec.and_or_distrib_right,
    BitVec.and_or_distrib_right, hpage, hcode]
  rfl

/-- The entry that `add_tlb_entry` writes maps the page. -/
theorem maps_newEntry {physAddr : BitVec 64} {virtAddr : Word} (iValue : Word) (hk : k ∈ shifts)
    (hvirt : 2 ^ k ∣ virtAddr.toNat) (hphys : 2 ^ k ∣ physAddr.toNat)
    (hlt : physAddr.toNat < 2 ^ 36) :
  (newEntry physAddr virtAddr (page k).sizeValue iValue).Maps virtAddr.toNat physAddr.toNat k
  := by
  have hdvd : 2 ^ 10 ∣ 2 ^ k := Nat.pow_dvd_pow 2 (le_of_mem_shifts hk).1
  obtain ⟨-, hcodePage, hcodeSize⟩ := sizeCode_and k hk
  have hpage := and_pageMask virtAddr (hdvd.trans hvirt)
  have hword0 : (newEntry physAddr virtAddr (page k).sizeValue iValue).word0
      = virtAddr ||| vMask ||| sizeCode k := by
    rw [newEntry, hpage]
    exact congrArg (· ||| sizeCode k) BitVec.or_zero
  have hs : virtAddr &&& sizeMask = 0 := by
    rw [← hpage, BitVec.and_assoc]
    exact BitVec.and_zero
  have hshift : (newEntry physAddr virtAddr (page k).sizeValue iValue).word0 &&& sizeMask
      = sizeCode k := by
    rw [hword0, BitVec.and_or_distrib_right, BitVec.and_or_distrib_right, hs, hcodeSize]
    exact BitVec.zero_or
  have hlow : 2 ^ 10 ∣ (physAddr.setWidth 32).toNat := by
    rw [BitVec.toNat_setWidth]
    exact (Nat.dvd_mod_iff (by decide)).mpr (hdvd.trans hphys)
  have hword1 : (newEntry physAddr virtAddr (page k).sizeValue iValue).word1
      = physAddr.setWidth 32 ||| (physAddr >>> 32).setWidth 32 &&& erpnMask := by
    rw [newEntry, and_pageMask _ hlow]
  refine ⟨valid_newEntry _ _ _ hk, ?_, ?_, ?_, hvirt, hphys⟩
  · rw [Entry.shift, hshift]
    exact find_sizeCode k hk
  · rw [Entry.epn, hword0, BitVec.and_or_distrib_right, BitVec.and_or_distrib_right, hpage,
      hcodePage]
    exact congrArg BitVec.toNat (BitVec.or_zero.trans BitVec.or_zero)
  · have hhigh : ((physAddr >>> 32).setWidth 32).toNat = physAddr.toNat / 2 ^ 32 := by
      rw [BitVec.toNat_setWidth, BitVec.toNat_ushiftRight, Nat.shiftRight_eq_div_pow]
      omega
    have herpn : (physAddr >>> 32).setWidth 32 &&& erpnMask = (physAddr >>> 32).setWidth 32 := by
      have hmask : erpnMask.toNat = 2 ^ 0 * (2 ^ 4 - 1) := rfl
      rw [← BitVec.toNat_inj, BitVec.toNat_and, hhigh, hmask, Align.and_block]
      omega
    have hhighPage : (physAddr >>> 32).setWidth 32 &&& pageMask = 0 := by
      rw [← herpn, BitVec.and_assoc]
      exact BitVec.and_zero
    have hlowErpn : physAddr.setWidth 32 &&& erpnMask = 0 := by
      rw [← and_pageMask _ hlow, BitVec.and_assoc]
      exact BitVec.and_zero
    have herpnWord : (newEntry physAddr virtAddr (page k).sizeValue iValue).word1 &&& erpnMask
        = (physAddr >>> 32).setWidth 32 := by
      rw [hword1, herpn, BitVec.and_or_distrib_right, hlowErpn, herpn]
      exact BitVec.zero_or
    have hpageWord : (newEntry physAddr virtAddr (page k).sizeValue iValue).word1 &&& pageMask
        = physAddr.setWidth 32 := by
      rw [hword1, herpn, BitVec.and_or_distrib_right, and_pageMask _ hlow, hhighPage]
      exact BitVec.or_zero
    rw [Entry.rpn, herpnWord, hpageWord, hhigh, BitVec.toNat_setWidth]
    omega

/-- An entry translates the addresses of its page, in their order. -/
theorem Entry.Maps.translate_eq (h : e.Maps v p k) (va : ℕ) :
  e.translate va = if v ≤ va ∧ va < v + 2 ^ k then some (p + (va - v)) else none
  := by
  have hpos : 0 < 2 ^ k := Nat.two_pow_pos k
  obtain ⟨a, ha⟩ := h.dvd_virt
  have hiff : v / 2 ^ k = va / 2 ^ k ↔ v ≤ va ∧ va < v + 2 ^ k := by
    rw [ha, Nat.mul_div_cancel_left a hpos, eq_comm, Nat.div_eq_iff hpos, Nat.mul_comm a]
    omega
  rw [Entry.translate, if_pos h.valid, h.shift_eq, Option.bind_some, h.epn_eq, h.rpn_eq,
    Nat.div_mul_cancel h.dvd_phys]
  simp only [hiff]
  by_cases hva : v ≤ va ∧ va < v + 2 ^ k
  · have hmod : va % 2 ^ k = va - v := by
      rw [← Nat.sub_add_cancel hva.1, ha, Nat.add_mul_mod_self_left, Nat.mod_eq_of_lt (by omega)]
      omega
    rw [if_pos hva, if_pos hva, hmod]
  · rw [if_neg hva, if_neg hva]

end Tlb
