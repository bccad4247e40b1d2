import UBoot.Lib.Memory

/-!
# The sector of an address

`find_sector` of `drivers/mtd/cfi_flash.c` searches the sector table of a bank from the sector that
the call before it has found.  That one may be of another bank with more sectors.  Then the search
begins behind the table, in entries of `start` which the bank does not use, and it stays there if
one of them is not above the address.
-/

namespace FindSector

/-- `flash_info_t`: the whole array `start`, of which the bank has the first `sectorCount` entries
in ascending order.  What the other entries hold is not known. -/
structure Bank where
  start : ℕ → Word
  sectorCount : ℕ
  pos : 0 < sectorCount
  sorted : ∀ i j, i < j → j < sectorCount → start i < start j

namespace Bank

variable (bank : Bank) (addr : Word)

/-! ### The function -/

/-- The first loop, with `n` sectors behind `sector` up to the last one. -/
def forward : ℕ → ℕ → ℕ
  | 0, sector => sector
  | n + 1, sector => if bank.start sector < addr then forward n (sector + 1) else sector

/-- The second loop. -/
def backward : ℕ → ℕ
  | 0 => 0
  | sector + 1 => if bank.start (sector + 1) > addr then backward sector else sector + 1

/-- `find_sector`; the sector that it returns is also the next `saved_sector`. -/
def findSector (savedSector : ℕ) : ℕ :=
  bank.backward addr (bank.forward addr (bank.sectorCount - 1 - savedSector) savedSector)

/-! ### What is promised -/

/-- The sector contains the address: the next one, if there is one, begins above it. -/
structure Contains (s : ℕ) : Prop where
  lt : s < bank.sectorCount
  start_le : bank.start s ≤ addr
  lt_start : ∀ i, s < i → i < bank.sectorCount → addr < bank.start i

/-- Up to the saved sector, the entries that the bank does not use are above the address.  There are
none of them if the saved sector is one of the bank. -/
def Fits (savedSector : ℕ) : Prop :=
  ∀ i, bank.sectorCount ≤ i → i ≤ savedSector → addr < bank.start i

variable {bank addr}

/-- No address is in two sectors, whatever was found before. -/
theorem Contains.unique {s s' : ℕ} (h : bank.Contains addr s) (h' : bank.Contains addr s') :
  s = s'
  := by
  rcases Nat.lt_trichotomy s s' with hlt | rfl | hlt
  · exact absurd h'.start_le (BitVec.not_le.mpr (h.lt_start s' hlt h'.lt))
  · rfl
  · exact absurd h.start_le (BitVec.not_le.mpr (h'.lt_start s hlt h.lt))

/-! ### The loops -/

/-- The first loop stops at the last sector, or at one that begins at the address or above. -/
theorem forward_spec (bank : Bank) (addr : Word) (n sector : ℕ) :
  sector ≤ bank.forward addr n sector ∧ bank.forward addr n sector ≤ sector + n
    ∧ (bank.forward addr n sector = sector + n
      ∨ addr ≤ bank.start (bank.forward addr n sector))
  := by
  induction n generalizing sector with
  | zero => exact ⟨le_rfl, le_rfl, .inl rfl⟩
  | succ n ih =>
    rw [forward]
    split
    case isTrue =>
      obtain ⟨hle, hle', hend⟩ := ih (sector + 1)
      rw [Nat.add_right_comm sector 1 n] at hle' hend
      exact ⟨by omega, hle', hend⟩
    case isFalse hstart =>
      exact ⟨le_rfl, Nat.le_add_right _ _, .inr (BitVec.not_lt.mp hstart)⟩

/-- The second loop stops at the first entry downwards that is not above the address. -/
theorem backward_spec (h : bank.start 0 ≤ addr) (sector : ℕ) :
  bank.backward addr sector ≤ sector ∧ bank.start (bank.backward addr sector) ≤ addr
    ∧ ∀ i, bank.backward addr sector < i → i ≤ sector → addr < bank.start i
  := by
  induction sector with
  | zero =>
    refine ⟨le_rfl, h, ?_⟩
    intro i hlt hle
    exact absurd hlt (Nat.not_lt.mpr hle)
  | succ sector ih =>
    obtain ⟨hle, hstart, habove⟩ := ih
    rw [backward]
    split
    case isTrue hgt =>
      refine ⟨by omega, hstart, ?_⟩
      intro i hlt hi
      rcases Nat.le_succ_iff.mp hi with hi | rfl
      · apply habove i hlt hi
      · exact hgt
    case isFalse hgt =>
      refine ⟨le_rfl, BitVec.not_lt.mp hgt, ?_⟩
      intro i hlt hi
      omega

/-- The search of an address in the bank is right exactly when the saved sector fits. -/
theorem contains_findSector (h : bank.start 0 ≤ addr) (savedSector : ℕ) :
  bank.Contains addr (bank.findSector addr savedSector) ↔ bank.Fits addr savedSector
  := by
  have hpos := bank.pos
  obtain ⟨hlow, hhigh, hend⟩ :=
    forward_spec bank addr (bank.sectorCount - 1 - savedSector) savedSector
  obtain ⟨hle, hstart, habove⟩ :=
    backward_spec h (bank.forward addr (bank.sectorCount - 1 - savedSector) savedSector)
  rw [findSector]
  generalize bank.forward addr (bank.sectorCount - 1 - savedSector) savedSector = sector at *
  constructor
  · intro hc i hi hsaved
    apply habove i (Nat.lt_of_lt_of_le hc.lt hi) (hsaved.trans hlow)
  · intro hfits
    have hlt : bank.backward addr sector < bank.sectorCount := by
      by_contra hge
      have hge := Nat.not_lt.mp hge
      have hsaved : bank.backward addr sector ≤ savedSector := by omega
      exact absurd hstart (BitVec.not_le.mpr (hfits _ hge hsaved))
    refine ⟨hlt, hstart, ?_⟩
    intro i hi hcount
    rcases Nat.lt_or_ge sector i with hsector | hsector
    · -- The first loop has stopped before the last sector.
      have haddr : addr ≤ bank.start sector := by
        rcases hend with hend | hend
        · omega
        · exact hend
      have hlt' := bank.sorted sector i hsector hcount
      rw [BitVec.le_def] at haddr
      rw [BitVec.lt_def] at hlt' ⊢
      omega
    · apply habove i hi hsector

end Bank

/-! ### Runs -/

/-- A call for an address that is inside the bank. -/
structure Call where
  bank : Bank
  addr : Word
  inside : bank.start 0 ≤ addr

/-- The calls one after the other, each with the sector that is saved when it begins. -/
def trace : ℕ → List Call → List (ℕ × Call)
  | _, [] => []
  | savedSector, c :: calls =>
    (savedSector, c) :: trace (c.bank.findSector c.addr savedSector) calls

/-- The call returns the sector that contains the address, and there is no other. -/
def Right (p : ℕ × Call) : Prop :=
  ∀ s, p.2.bank.Contains p.2.addr s ↔ s = p.2.bank.findSector p.2.addr p.1

theorem right_findSector (p : ℕ × Call) :
  Right p ↔ p.2.bank.Fits p.2.addr p.1
  := by
  rw [← Bank.contains_findSector p.2.inside]
  constructor
  · intro h
    exact (h _).mpr rfl
  · intro h s
    constructor
    · intro hs
      exact hs.unique h
    · rintro rfl
      exact h

/-- With banks of as many sectors each, and with a single bank, every call is right. -/
theorem right_of_sectorCount_eq {n savedSector : ℕ} {calls : List Call} (hsaved : savedSector < n)
    (h : ∀ c ∈ calls, c.bank.sectorCount = n) :
  ∀ p ∈ trace savedSector calls, Right p
  := by
  induction calls generalizing savedSector with
  | nil => exact List.forall_mem_nil _
  | cons c calls ih =>
    obtain ⟨hc, hcalls⟩ := List.forall_mem_cons.mp h
    have hfits : c.bank.Fits c.addr savedSector := by
      intro i hi hle
      omega
    have hlt := ((Bank.contains_findSector c.inside savedSector).mpr hfits).lt
    rw [hc] at hlt
    exact List.forall_mem_cons.mpr ⟨(right_findSector (savedSector, c)).mpr hfits, ih hlt hcalls⟩

/--
**Every call returns the sector of its address** if and only if, whenever a call begins with a
sector that its bank does not have, the unused entries of the bank up to that one are above the
address.
-/
theorem findSector_run_iff (calls : List Call) :
  (∀ p ∈ trace 0 calls, Right p) ↔ ∀ p ∈ trace 0 calls, p.2.bank.Fits p.2.addr p.1
  := by
  constructor
  · intro h p hp
    exact (right_findSector p).mp (h p hp)
  · intro h p hp
    exact (right_findSector p).mpr (h p hp)

/-- A bank of four sectors of 64 KiB. -/
def fourSectors : Bank where
  start i := BitVec.ofNat 32 (0xff000000 + 0x10000 * i)
  sectorCount := 4
  pos := Nat.succ_pos 3
  sorted := by
    intro i j hij hj
    simp only [BitVec.lt_def, BitVec.toNat_ofNat]
    omega

/-- A bank that is a single sector. -/
def oneSector : Bank where
  start i := if i = 0 then 0xfe000000 else 0
  sectorCount := 1
  pos := by decide
  sorted := by
    intro i j hij hj
    omega

/-- A search in the last of the four sectors, -/
def searchFour : Call := ⟨fourSectors, 0xff030000, by decide⟩

/-- and one in the other bank. -/
def searchOne : Call := ⟨oneSector, 0xfe000010, by decide⟩

/-- After the search in the bank of four sectors, the search in the other bank begins, and ends,
behind the table. -/
theorem findSector_run_breaks :
  ¬ (∀ p ∈ trace 0 [searchFour, searchOne], Right p)
    ∧ trace 0 [searchFour, searchOne] = [(0, searchFour), (3, searchOne)]
    ∧ oneSector.findSector 0xfe000010 3 = 3 ∧ oneSector.sectorCount = 1
  := by
  refine ⟨?_, rfl, rfl, rfl⟩
  intro h
  have hright : Right (3, searchOne) := h _ (List.mem_cons_of_mem _ (List.mem_singleton.mpr rfl))
  exact absurd ((right_findSector _).mp hright 1 le_rfl (by decide)) (by decide)

end FindSector
