import UBoot.Lib.Memory

/-!
# Writing to flash

`common/flash.c`: the flash is a table of banks, and a bank a table of sectors with their
protection.  A bank may end at the top of the address space, where the end of its last sector wraps
to 0.  The driver's `write_buff` is a parameter; what is handed to it is recorded.
-/

namespace Flash

/-- `FLASH_UNKNOWN`. -/
def flashUnknown : Word := 0xFFFF

/-- `ERR_OK`. -/
def errOk : ℤ := 0

/-- `ERR_PROTECTED`. -/
def errProtected : ℤ := 4

/-- `ERR_INVAL`. -/
def errInval : ℤ := 8

/-- `flash_info_t`: the bank has a sector for each entry of `start`. -/
structure Info where
  size : Word
  flashId : Word
  start : List Word
  protect : List Bool
  deriving DecidableEq

namespace Info

/-- `start[i]`. -/
def startOf (info : Info) (i : ℕ) : Word := info.start.getD i 0

/-- `sector_count`. -/
def sectorCount (info : Info) : ℕ := info.start.length

/-- `protect[i]`. -/
def protectOf (info : Info) (i : ℕ) : Bool := info.protect.getD i false

/-- The first address of the bank. -/
def lo (info : Info) : ℕ := (info.startOf 0).toNat

/-- The address behind the bank. -/
def hi (info : Info) : ℕ := info.lo + info.size.toNat

/-- The address behind a sector. -/
def sectorEnd (info : Info) (i : ℕ) : ℕ :=
  if i + 1 = info.sectorCount then info.hi else (info.startOf (i + 1)).toNat

/-- A bank that was found: its sectors are in ascending order and it ends inside the address space,
or exactly at its top. -/
structure Valid (info : Info) : Prop where
  known : info.flashId ≠ flashUnknown
  nonempty : info.start ≠ []
  count : info.sectorCount < 2 ^ 15
  sorted : info.start.Pairwise (· < ·)
  inside : ∀ i < info.sectorCount, (info.startOf i).toNat < info.hi
  top : info.hi ≤ 2 ^ 32
  protect_length : info.protect.length = info.sectorCount

instance (info : Info) : Decidable info.Valid :=
  decidable_of_iff (info.flashId ≠ flashUnknown ∧ info.start ≠ [] ∧ info.sectorCount < 2 ^ 15
      ∧ info.start.Pairwise (· < ·)
      ∧ (∀ i < info.sectorCount, (info.startOf i).toNat < info.hi) ∧ info.hi ≤ 2 ^ 32
      ∧ info.protect.length = info.sectorCount)
    ⟨fun ⟨h₁, h₂, h₃, h₄, h₅, h₆, h₇⟩ => ⟨h₁, h₂, h₃, h₄, h₅, h₆, h₇⟩,
      fun ⟨h₁, h₂, h₃, h₄, h₅, h₆, h₇⟩ => ⟨h₁, h₂, h₃, h₄, h₅, h₆, h₇⟩⟩

end Info

/-- `flash_info`: the banks are valid, disjoint and in ascending order. -/
structure Banks where
  info : List Info
  valid : ∀ b ∈ info, b.Valid
  sorted : info.Pairwise fun a b => a.hi ≤ b.lo

/-! ### Protection -/

/-- `FLAG_PROTECT_SET` and `FLAG_PROTECT_CLEAR`. -/
inductive Flag where
  | set
  | clear
  deriving DecidableEq

/-- `flash_protect`. -/
def flashProtect (flag : Flag) (fromAddr toAddr : Word) (info : Info) : Info :=
  let bEnd := info.startOf 0 + info.size - 1
  let sEnd := info.sectorCount - 1
  if info.sectorCount = 0 ∨ info.size = 0 ∨ toAddr < fromAddr then info
  else if info.flashId = flashUnknown ∨ toAddr < info.startOf 0 ∨ fromAddr > bEnd then info
  else
    { info with
      protect := info.protect.mapIdx fun i p =>
        let endAddr := if i = sEnd then bEnd else info.startOf (i + 1) - 1
        if fromAddr ≤ endAddr ∧ toAddr ≥ info.startOf i then
          match flag with
          | .clear => false
          | .set => true
        else p }

theorem flashProtect_valid (flag : Flag) (fromAddr toAddr : Word) {info : Info} (h : info.Valid) :
  (flashProtect flag fromAddr toAddr info).Valid
    ∧ (flashProtect flag fromAddr toAddr info).lo = info.lo
    ∧ (flashProtect flag fromAddr toAddr info).hi = info.hi
  := by
  simp only [flashProtect]
  split_ifs
  · exact ⟨h, rfl, rfl⟩
  · exact ⟨h, rfl, rfl⟩
  · refine ⟨⟨h.known, h.nonempty, h.count, h.sorted, h.inside, h.top, ?_⟩, rfl, rfl⟩
    rw [List.length_mapIdx]
    exact h.protect_length

/-- A call of `flash_protect` for one bank of the table. -/
structure Protect where
  flag : Flag
  fromAddr : Word
  toAddr : Word
  bank : ℕ

/-- The table after a call of `flash_protect`. -/
def Banks.protect (f : Banks) (c : Protect) : Banks where
  info := f.info.modify c.bank (flashProtect c.flag c.fromAddr c.toAddr)
  valid := by
    intro b hb
    obtain ⟨i, hi, rfl⟩ := List.mem_iff_getElem.mp hb
    rw [List.getElem_modify]
    split_ifs
    · exact (flashProtect_valid _ _ _ (f.valid _ (List.getElem_mem _))).1
    · exact f.valid _ (List.getElem_mem _)
  sorted := by
    have hmap : (f.info.modify c.bank (flashProtect c.flag c.fromAddr c.toAddr)).map
        (fun b => (b.lo, b.hi)) = f.info.map fun b => (b.lo, b.hi) := by
      apply List.ext_getElem (by simp)
      intro i h₁ h₂
      simp only [List.getElem_map, List.getElem_modify]
      split_ifs
      · have hvalid := f.valid (f.info.get ⟨i, by simpa using h₂⟩) (List.get_mem _ _)
        obtain ⟨-, hlo, hhi⟩ := flashProtect_valid c.flag c.fromAddr c.toAddr hvalid
        simp only [List.get_eq_getElem] at hlo hhi
        rw [hlo, hhi]
      · rfl
    have hsorted := f.sorted
    have hiff (l : List Info) : (l.map fun b => (b.lo, b.hi)).Pairwise (fun a b => a.2 ≤ b.1)
        ↔ l.Pairwise fun a b => a.hi ≤ b.lo := List.pairwise_map
    rw [← hiff] at hsorted ⊢
    rw [hmap]
    exact hsorted

/-! ### Writing -/

/-- `addr2info`. -/
def addr2info (f : Banks) (addr : Word) : Option ℕ :=
  f.info.findIdx? fun info =>
    info.flashId ≠ flashUnknown ∧ addr ≥ info.startOf 0 ∧ addr ≤ info.startOf 0 + info.size - 1

/-- What is handed to `write_buff`. -/
structure Call where
  info : Info
  src : Word
  addr : Word
  len : Word

/-- The return code, and the calls of `write_buff`. -/
structure Result where
  ret : ℤ
  calls : List Call

/-- The test for a protected sector in the first loop. -/
def sectorHit (info : Info) (addr endAddr : Word) (i : ℕ) : Bool :=
  let bEnd := info.startOf 0 + info.size
  let sEnd := info.sectorCount - 1
  let eAddr := if i = sEnd then bEnd else info.startOf (i + 1)
  endAddr ≥ info.startOf i && addr < eAddr && info.protectOf i

/-- The first loop, over the banks from `info_first` to `info_last`. -/
def isProtected (banks : List Info) (addr endAddr : Word) : Bool :=
  banks.any fun info => (List.range info.sectorCount).any fun i => sectorHit info addr endAddr i

/-- The second loop. -/
def writeLoop (writeBuff : Call → ℤ) : List Info → Word → Word → Word → Result
  | [], _, _, _ => ⟨errOk, []⟩
  | info :: banks, src, addr, cnt =>
    if cnt = 0 then ⟨errOk, []⟩
    else
      let len := info.startOf 0 + info.size - addr
      let len := if len > cnt then cnt else len
      let call := ⟨info, src, addr, len⟩
      if writeBuff call ≠ 0 then ⟨writeBuff call, [call]⟩
      else
        let r := writeLoop writeBuff banks (src + len) (addr + len) (cnt - len)
        ⟨r.ret, call :: r.calls⟩

/-- `flash_write`. -/
def flashWrite (f : Banks) (writeBuff : Call → ℤ) (src addr cnt : Word) : Result :=
  let endAddr := addr + cnt - 1
  if cnt = 0 then ⟨errOk, []⟩
  else
    match addr2info f addr, addr2info f endAddr with
    | some first, some last =>
      let banks := (f.info.take (last + 1)).drop first
      if isProtected banks addr endAddr then ⟨errProtected, []⟩
      else writeLoop writeBuff banks src addr cnt
    | _, _ => ⟨errInval, []⟩

end Flash
