import UBoot.Lib.Memory

/-!
# Addresses on the bus

`pci_hose_phys_to_bus` and `pci_hose_bus_to_phys` of `drivers/pci/pci.c` look for a region of the
host in which an address is.  The end of a region is computed with the width of an address on the
bus: it is 0 for a region that ends at the top of the bus, in which no address is ever found.
-/

namespace Pci

namespace Translate

/-- The widths of `phys_addr_t` and `pci_addr_t` in a build: `CONFIG_PHYS_64BIT` is only there with
`CONFIG_SYS_PCI_64BIT`. -/
structure Widths where
  phys : ℕ
  bus : ℕ
  le : phys ≤ bus

/-- `struct pci_region`. -/
structure Region (w : Widths) where
  busStart : BitVec w.bus
  physStart : BitVec w.phys
  size : BitVec w.bus
  flags : Word

/-- `PCI_REGION_MEM`. -/
def regionMem : Word := 0

/-- `PCI_REGION_TYPE`. -/
def regionType : Word := 1

/-- `PCI_REGION_SYS_MEMORY`. -/
def regionSysMemory : Word := 0x100

variable {w : Widths}

/-- An address on the bus is found in a region. -/
def Region.finds (res : Region w) (busAddr : BitVec w.bus) : Prop :=
  res.busStart ≤ busAddr ∧ busAddr < res.busStart + res.size

instance (res : Region w) (busAddr : BitVec w.bus) : Decidable (res.finds busAddr) :=
  inferInstanceAs (Decidable (_ ∧ _))

/-- The address on the bus, if the physical one is in the region. -/
def Region.toBus (res : Region w) (physAddr : BitVec w.phys) : BitVec w.bus :=
  (physAddr - res.physStart).setWidth w.bus + res.busStart

/-- The physical address, if the one on the bus is in the region. -/
def Region.toPhys (res : Region w) (busAddr : BitVec w.bus) : BitVec w.phys :=
  (busAddr - res.busStart).setWidth w.phys + res.physStart

/-- `__pci_hose_phys_to_bus`. -/
def physToBusPass (physAddr : BitVec w.phys) (flags skipMask : Word) :
    List (Region w) → Option (BitVec w.bus)
  | [] => none
  | res :: regions =>
    if (res.flags ^^^ flags) &&& regionType ≠ 0 then physToBusPass physAddr flags skipMask regions
    else if res.flags &&& skipMask ≠ 0 then physToBusPass physAddr flags skipMask regions
    else if res.finds (res.toBus physAddr) then some (res.toBus physAddr)
    else physToBusPass physAddr flags skipMask regions

/-- `pci_hose_phys_to_bus`; the address is invalid if there is no result. -/
def hosePhysToBus (regions : List (Region w)) (physAddr : BitVec w.phys) (flags : Word) :
    Option (BitVec w.bus) :=
  if flags &&& regionMem = regionMem then
    (physToBusPass physAddr flags regionSysMemory regions).or
      (physToBusPass physAddr flags 0 regions)
  else physToBusPass physAddr flags 0 regions

/-- `__pci_hose_bus_to_phys`. -/
def busToPhysPass (busAddr : BitVec w.bus) (flags skipMask : Word) :
    List (Region w) → Option (BitVec w.phys)
  | [] => none
  | res :: regions =>
    if (res.flags ^^^ flags) &&& regionType ≠ 0 then busToPhysPass busAddr flags skipMask regions
    else if res.flags &&& skipMask ≠ 0 then busToPhysPass busAddr flags skipMask regions
    else if res.finds busAddr then some (res.toPhys busAddr)
    else busToPhysPass busAddr flags skipMask regions

/-- `pci_hose_bus_to_phys`; the address is invalid if there is no result. -/
def hoseBusToPhys (regions : List (Region w)) (busAddr : BitVec w.bus) (flags : Word) :
    Option (BitVec w.phys) :=
  if flags &&& regionMem = regionMem then
    (busToPhysPass busAddr flags regionSysMemory regions).or
      (busToPhysPass busAddr flags 0 regions)
  else busToPhysPass busAddr flags 0 regions

/-! ### What regions are -/

/-- A region is of the type that the flags ask for. -/
def Region.Fits (res : Region w) (flags : Word) : Prop :=
  (res.flags ^^^ flags) &&& regionType = 0

/-- A physical address is in a region. -/
def Region.InPhys (res : Region w) (a : BitVec w.phys) : Prop :=
  res.physStart.toNat ≤ a.toNat ∧ a.toNat < res.physStart.toNat + res.size.toNat

/-- An address on the bus is in a region. -/
def Region.InBus (res : Region w) (b : BitVec w.bus) : Prop :=
  res.busStart.toNat ≤ b.toNat ∧ b.toNat < res.busStart.toNat + res.size.toNat

/-- A region does not wrap, though it may end at the top. -/
structure Region.Fine (res : Region w) : Prop where
  phys : res.physStart.toNat + res.size.toNat ≤ 2 ^ w.phys
  bus : res.busStart.toNat + res.size.toNat ≤ 2 ^ w.bus

/-- Two regions of one type have no address in common. -/
def Region.Apart (res res' : Region w) : Prop :=
  ∀ flags, res.Fits flags → res'.Fits flags →
    (∀ a, ¬ (res.InPhys a ∧ res'.InPhys a)) ∧ ∀ b, ¬ (res.InBus b ∧ res'.InBus b)

/-- The regions of a controller. -/
structure LaidOut (regions : List (Region w)) : Prop where
  fine : ∀ res ∈ regions, res.Fine
  apart : regions.Pairwise Region.Apart

/-- Addresses in a region are translated there and back, a region of system memory comes after the
others, and other addresses are invalid. -/
structure Translates (regions : List (Region w)) : Prop where
  there : ∀ res ∈ regions, ∀ flags a, res.Fits flags → res.InPhys a →
    ∃ b, hosePhysToBus regions a flags = some b ∧ hoseBusToPhys regions b flags = some a
  back : ∀ res ∈ regions, ∀ flags b, res.Fits flags → res.InBus b →
    ∃ a, hoseBusToPhys regions b flags = some a ∧ hosePhysToBus regions a flags = some b
  prefers : ∀ res ∈ regions, ∀ flags a, res.Fits flags → res.flags &&& regionSysMemory = 0 →
    res.InPhys a → ∃ res' ∈ regions, res'.Fits flags ∧ res'.flags &&& regionSysMemory = 0
      ∧ res'.InPhys a ∧ hosePhysToBus regions a flags = some (res'.toBus a)
  invalidPhys : ∀ flags a, (∀ res ∈ regions, res.Fits flags → ¬ res.InPhys a) →
    hosePhysToBus regions a flags = none
  invalidBus : ∀ flags b, (∀ res ∈ regions, res.Fits flags → ¬ res.InBus b) →
    hoseBusToPhys regions b flags = none

/-- A region with addresses ends at the top of the bus. -/
def Region.AtTop (res : Region w) : Prop :=
  res.size ≠ 0 ∧ res.busStart.toNat + res.size.toNat = 2 ^ w.bus

variable {res : Region w} {regions : List (Region w)} {a : BitVec w.phys} {b : BitVec w.bus}
  {flags : Word}

/-! ### One region -/

/-- How far behind the start of a region an address is. -/
theorem toNat_sub_physStart (h : res.physStart.toNat ≤ a.toNat) :
  (a - res.physStart).toNat = a.toNat - res.physStart.toNat
  := BitVec.toNat_sub_of_le h

theorem toNat_toBus :
  (res.toBus a).toNat = ((a - res.physStart).toNat + res.busStart.toNat) % 2 ^ w.bus
  := by
  have hlt : (a - res.physStart).toNat < 2 ^ w.bus :=
    Nat.lt_of_lt_of_le (a - res.physStart).isLt (Nat.pow_le_pow_right (by decide) w.le)
  rw [Region.toBus, BitVec.toNat_add, BitVec.toNat_setWidth, Nat.mod_eq_of_lt hlt]

/-- A region finds the addresses that are in it, unless it is at the top. -/
theorem finds_iff (hfine : res.Fine) (htop : ¬ res.AtTop) :
  res.finds b ↔ res.InBus b
  := by
  rw [Region.finds, Region.InBus, BitVec.le_def, BitVec.lt_def, BitVec.toNat_add]
  by_cases hzero : res.size = 0
  · have hsize : res.size.toNat = 0 := by
      rw [hzero]
      rfl
    rw [hsize, Nat.add_zero, Nat.mod_eq_of_lt res.busStart.isLt]
  · have hne : res.busStart.toNat + res.size.toNat ≠ 2 ^ w.bus := fun heq => htop ⟨hzero, heq⟩
    rw [Nat.mod_eq_of_lt (Nat.lt_of_le_of_ne hfine.bus hne)]

/-- A region at the top finds nothing. -/
theorem not_finds_of_atTop (htop : res.AtTop) :
  ¬ res.finds b
  := by
  rintro ⟨_, hlt⟩
  rw [BitVec.lt_def, BitVec.toNat_add, htop.2, Nat.mod_self] at hlt
  exact Nat.not_lt_zero _ hlt

/-- An address is in a region if its place on the bus is. -/
theorem inBus_toBus (hfine : res.Fine) :
  res.InBus (res.toBus a) ↔ res.InPhys a
  := by
  have hphys := hfine.phys
  have hbus := hfine.bus
  have ha := a.isLt
  have hpow : 2 ^ w.phys ≤ 2 ^ w.bus := Nat.pow_le_pow_right (by decide) w.le
  have hsub := (a - res.physStart).isLt
  rw [Region.InBus, Region.InPhys, toNat_toBus]
  by_cases hle : res.physStart.toNat ≤ a.toNat
  · rw [toNat_sub_physStart hle] at hsub ⊢
    by_cases hwrap : a.toNat - res.physStart.toNat + res.busStart.toNat < 2 ^ w.bus
    · rw [Nat.mod_eq_of_lt hwrap]
      omega
    · rw [Nat.mod_eq_sub_mod (Nat.le_of_not_lt hwrap), Nat.mod_eq_of_lt (by omega)]
      omega
  · have hbelow : (a - res.physStart).toNat = 2 ^ w.phys - res.physStart.toNat + a.toNat := by
      rw [BitVec.toNat_sub, Nat.mod_eq_of_lt (by omega)]
    rw [hbelow] at hsub ⊢
    by_cases hwrap : 2 ^ w.phys - res.physStart.toNat + a.toNat + res.busStart.toNat < 2 ^ w.bus
    · rw [Nat.mod_eq_of_lt hwrap]
      omega
    · rw [Nat.mod_eq_sub_mod (Nat.le_of_not_lt hwrap), Nat.mod_eq_of_lt (by omega)]
      omega

/-- From the bus, a physical address comes back. -/
theorem toPhys_toBus (res : Region w) (a : BitVec w.phys) :
  res.toPhys (res.toBus a) = a
  := by
  have hsub : res.toBus a - res.busStart = (a - res.physStart).setWidth w.bus :=
    BitVec.add_sub_cancel _ _
  have hwidth : ((a - res.physStart).setWidth w.bus).setWidth w.phys = a - res.physStart := by
    apply BitVec.eq_of_toNat_eq
    rw [BitVec.toNat_setWidth, BitVec.toNat_setWidth, Nat.mod_eq_of_lt
      (Nat.lt_of_lt_of_le (a - res.physStart).isLt (Nat.pow_le_pow_right (by decide) w.le)),
      Nat.mod_eq_of_lt (a - res.physStart).isLt]
  rw [Region.toPhys, hsub, hwidth, BitVec.sub_add_cancel]

/-- From the processor, an address of the region comes back. -/
theorem toBus_toPhys (hfine : res.Fine) (hb : res.InBus b) :
  res.toBus (res.toPhys b) = b
  := by
  have hsub : res.toPhys b - res.physStart = (b - res.busStart).setWidth w.phys :=
    BitVec.add_sub_cancel _ _
  have hwidth : ((b - res.busStart).setWidth w.phys).setWidth w.bus = b - res.busStart := by
    have hphys := hfine.phys
    have hlt : (b - res.busStart).toNat < 2 ^ w.phys := by
      rw [BitVec.toNat_sub_of_le hb.1]
      have hin := hb.2
      omega
    apply BitVec.eq_of_toNat_eq
    rw [BitVec.toNat_setWidth, BitVec.toNat_setWidth, Nat.mod_eq_of_lt hlt,
      Nat.mod_eq_of_lt (b - res.busStart).isLt]
  rw [Region.toBus, hsub, hwidth, BitVec.sub_add_cancel]

/-! ### The search -/

section Search

variable {β : Type} {P : Region w → Prop} [DecidablePred P] {f : Region w → β} {skipMask : Word}
  {b' : β}

instance (res : Region w) (flags : Word) : Decidable (res.Fits flags) :=
  inferInstanceAs (Decidable (_ = _))

/-- The first region of a type, but for those that are skipped, with a property. -/
def pick (P : Region w → Prop) [DecidablePred P] (f : Region w → β) (flags skipMask : Word)
    (regions : List (Region w)) : Option β :=
  regions.findSome? fun res =>
    if res.Fits flags ∧ res.flags &&& skipMask = 0 ∧ P res then some (f res) else none

/-- Both passes. -/
def look (P : Region w → Prop) [DecidablePred P] (f : Region w → β) (flags : Word)
    (regions : List (Region w)) : Option β :=
  (pick P f flags regionSysMemory regions).or (pick P f flags 0 regions)

theorem pick_cons (res : Region w) (regions : List (Region w)) :
  pick P f flags skipMask (res :: regions)
    = if res.Fits flags ∧ res.flags &&& skipMask = 0 ∧ P res then some (f res)
      else pick P f flags skipMask regions
  := by
  rw [pick, List.findSome?_cons]
  by_cases h : res.Fits flags ∧ res.flags &&& skipMask = 0 ∧ P res
  · rw [if_pos h, if_pos h]
  · rw [if_neg h, if_neg h]
    rfl

/-- A region of another type is passed over, and so is one that is skipped. -/
theorem ite_pass {γ : Type*} (res : Region w) (flags skipMask : Word) (found rest : γ) :
  (if (res.flags ^^^ flags) &&& regionType ≠ 0 then rest
    else if res.flags &&& skipMask ≠ 0 then rest
    else if P res then found
    else rest)
    = if res.Fits flags ∧ res.flags &&& skipMask = 0 ∧ P res then found else rest
  := by
  by_cases htype : (res.flags ^^^ flags) &&& regionType = 0
  · rw [if_neg (not_not_intro htype)]
    by_cases hskip : res.flags &&& skipMask = 0
    · rw [if_neg (not_not_intro hskip)]
      by_cases hP : P res
      · rw [if_pos hP, if_pos ⟨htype, hskip, hP⟩]
      · rw [if_neg hP, if_neg fun h => hP h.2.2]
    · rw [if_pos hskip, if_neg fun h => hskip h.2.1]
  · rw [if_pos htype, if_neg fun h => htype h.1]

theorem physToBusPass_eq (a : BitVec w.phys) (flags skipMask : Word)
    (regions : List (Region w)) :
  physToBusPass a flags skipMask regions
    = pick (fun res => res.finds (res.toBus a)) (fun res => res.toBus a) flags skipMask regions
  := by
  induction regions with
  | nil => rfl
  | cons res regions ih =>
    rw [physToBusPass, ih, pick_cons]
    exact ite_pass (P := fun res => res.finds (res.toBus a)) res flags skipMask _ _

theorem busToPhysPass_eq (b : BitVec w.bus) (flags skipMask : Word)
    (regions : List (Region w)) :
  busToPhysPass b flags skipMask regions
    = pick (fun res => res.finds b) (fun res => res.toPhys b) flags skipMask regions
  := by
  induction regions with
  | nil => rfl
  | cons res regions ih =>
    rw [busToPhysPass, ih, pick_cons]
    exact ite_pass (P := fun res => res.finds b) res flags skipMask _ _

/-- `PCI_REGION_MEM` is 0, so that there are always two passes. -/
theorem hosePhysToBus_eq (regions : List (Region w)) (a : BitVec w.phys) (flags : Word) :
  hosePhysToBus regions a flags
    = look (fun res => res.finds (res.toBus a)) (fun res => res.toBus a) flags regions
  := by
  have hmem : flags &&& regionMem = regionMem := BitVec.and_zero
  rw [hosePhysToBus, if_pos hmem, physToBusPass_eq, physToBusPass_eq]
  rfl

theorem hoseBusToPhys_eq (regions : List (Region w)) (b : BitVec w.bus) (flags : Word) :
  hoseBusToPhys regions b flags
    = look (fun res => res.finds b) (fun res => res.toPhys b) flags regions
  := by
  have hmem : flags &&& regionMem = regionMem := BitVec.and_zero
  rw [hoseBusToPhys, if_pos hmem, busToPhysPass_eq, busToPhysPass_eq]
  rfl

theorem pick_eq_none (h : ∀ res ∈ regions, res.Fits flags → ¬ P res) :
  pick P f flags skipMask regions = none
  := by
  rw [pick, List.findSome?_eq_none_iff]
  intro res hres
  rw [if_neg]
  rintro ⟨hfits, _, hP⟩
  exact h res hres hfits hP

theorem look_eq_none (h : ∀ res ∈ regions, res.Fits flags → ¬ P res) :
  look P f flags regions = none
  := by
  rw [look, pick_eq_none h, pick_eq_none h]
  rfl

theorem pick_eq_some (hres : res ∈ regions) (hfits : res.Fits flags)
    (hskip : res.flags &&& skipMask = 0) (hP : P res)
    (hunique : ∀ res' ∈ regions, res'.Fits flags → P res' → res' = res) :
  pick P f flags skipMask regions = some (f res)
  := by
  induction regions with
  | nil => exact absurd hres List.not_mem_nil
  | cons res' regions ih =>
    rw [pick_cons]
    by_cases hhead : res'.Fits flags ∧ res'.flags &&& skipMask = 0 ∧ P res'
    · rw [if_pos hhead, hunique res' List.mem_cons_self hhead.1 hhead.2.2]
    · rw [if_neg hhead]
      obtain rfl | hres := List.mem_cons.mp hres
      · exact absurd ⟨hfits, hskip, hP⟩ hhead
      · exact ih hres fun r hr => hunique r (List.mem_cons_of_mem _ hr)

/-- The only region with the property is found, if need be in the second pass. -/
theorem look_eq_some (hres : res ∈ regions) (hfits : res.Fits flags) (hP : P res)
    (hunique : ∀ res' ∈ regions, res'.Fits flags → P res' → res' = res) :
  look P f flags regions = some (f res)
  := by
  rw [look]
  have hsecond : pick P f flags 0 regions = some (f res) :=
    pick_eq_some hres hfits BitVec.and_zero hP hunique
  by_cases hsys : res.flags &&& regionSysMemory = 0
  · rw [pick_eq_some hres hfits hsys hP hunique]
    rfl
  · have hfirst : pick P f flags regionSysMemory regions = none := by
      rw [pick, List.findSome?_eq_none_iff]
      intro res' hres'
      rw [if_neg]
      rintro ⟨hfits', hsys', hP'⟩
      rw [hunique res' hres' hfits' hP'] at hsys'
      exact hsys hsys'
    rw [hfirst, hsecond]
    rfl

theorem exists_of_pick (hsome : pick P f flags skipMask regions = some b') :
  ∃ res ∈ regions, res.Fits flags ∧ res.flags &&& skipMask = 0 ∧ P res ∧ f res = b'
  := by
  rw [pick] at hsome
  obtain ⟨res, hres, hfound⟩ := List.exists_of_findSome?_eq_some hsome
  split_ifs at hfound with hcond
  · exact ⟨res, hres, hcond.1, hcond.2.1, hcond.2.2, Option.some.inj hfound⟩

theorem pick_ne_none (hres : res ∈ regions) (hfits : res.Fits flags)
    (hskip : res.flags &&& skipMask = 0) (hP : P res) :
  pick P f flags skipMask regions ≠ none
  := by
  rw [pick, Ne, List.findSome?_eq_none_iff]
  intro hnone
  have hhere := hnone res hres
  rw [if_pos ⟨hfits, hskip, hP⟩] at hhere
  cases hhere

/-- The first pass decides if it finds a region that is not of system memory. -/
theorem look_prefers (hres : res ∈ regions) (hfits : res.Fits flags)
    (hsys : res.flags &&& regionSysMemory = 0) (hP : P res) :
  ∃ res' ∈ regions, res'.Fits flags ∧ res'.flags &&& regionSysMemory = 0 ∧ P res'
    ∧ look P f flags regions = some (f res')
  := by
  obtain ⟨b', hb'⟩ := Option.ne_none_iff_exists'.mp (pick_ne_none (f := f) hres hfits hsys hP)
  obtain ⟨res', hres', hfits', hsys', hP', rfl⟩ := exists_of_pick hb'
  refine ⟨res', hres', hfits', hsys', hP', ?_⟩
  rw [look, hb']
  rfl

end Search

/-! ### The regions of a controller -/

instance apart_symm : Std.Symm (@Region.Apart w) where
  symm _ _ h flags hfits hfits' := by
    obtain ⟨hphys, hbus⟩ := h flags hfits' hfits
    exact ⟨fun a ha => hphys a ha.symm, fun b hb => hbus b hb.symm⟩

/-- A physical address is in one region of a type. -/
theorem LaidOut.eq_of_inPhys (h : LaidOut regions) {res res' : Region w} (hres : res ∈ regions)
    (hres' : res' ∈ regions) (hfits : res.Fits flags) (hfits' : res'.Fits flags)
    (ha : res.InPhys a) (ha' : res'.InPhys a) :
  res' = res
  := by
  by_contra hne
  exact (h.apart.forall hres' hres hne flags hfits' hfits).1 a ⟨ha', ha⟩

/-- An address on the bus is in one region of a type. -/
theorem LaidOut.eq_of_inBus (h : LaidOut regions) {res res' : Region w} (hres : res ∈ regions)
    (hres' : res' ∈ regions) (hfits : res.Fits flags) (hfits' : res'.Fits flags)
    (hb : res.InBus b) (hb' : res'.InBus b) :
  res' = res
  := by
  by_contra hne
  exact (h.apart.forall hres' hres hne flags hfits' hfits).2 b ⟨hb', hb⟩

/-- What a region finds is in it. -/
theorem inBus_of_finds (hfine : res.Fine) (h : res.finds b) :
  res.InBus b
  := by
  by_cases htop : res.AtTop
  · exact absurd h (not_finds_of_atTop htop)
  · exact (finds_iff hfine htop).mp h

/-- Regions that are not of system memory are preferred, also to regions that overlap them. -/
theorem hosePhysToBus_prefers (hfine : ∀ res ∈ regions, res.Fine) (hres : res ∈ regions)
    (htop : ¬ res.AtTop) (hfits : res.Fits flags) (hsys : res.flags &&& regionSysMemory = 0)
    (ha : res.InPhys a) :
  ∃ res' ∈ regions, res'.Fits flags ∧ res'.flags &&& regionSysMemory = 0 ∧ res'.InPhys a
    ∧ hosePhysToBus regions a flags = some (res'.toBus a)
  := by
  have hfinds : res.finds (res.toBus a) :=
    (finds_iff (hfine res hres) htop).mpr ((inBus_toBus (hfine res hres)).mpr ha)
  rw [hosePhysToBus_eq]
  obtain ⟨res', hres', hfits', hsys', hfinds', hlook⟩ :=
    look_prefers (P := fun res => res.finds (res.toBus a)) hres hfits hsys hfinds
  have hin := (inBus_toBus (hfine res' hres')).mp (inBus_of_finds (hfine res' hres') hfinds')
  exact ⟨res', hres', hfits', hsys', hin, hlook⟩

theorem LaidOut.hosePhysToBus_some (h : LaidOut regions) (hres : res ∈ regions)
    (htop : ¬ res.AtTop) (hfits : res.Fits flags) (ha : res.InPhys a) :
  hosePhysToBus regions a flags = some (res.toBus a)
  := by
  rw [hosePhysToBus_eq]
  apply look_eq_some hres hfits
  · exact (finds_iff (h.fine res hres) htop).mpr ((inBus_toBus (h.fine res hres)).mpr ha)
  · intro res' hres' hfits' hfinds
    have hfine := h.fine res' hres'
    exact h.eq_of_inPhys hres hres' hfits hfits' ha
      ((inBus_toBus hfine).mp (inBus_of_finds hfine hfinds))

theorem LaidOut.hoseBusToPhys_some (h : LaidOut regions) (hres : res ∈ regions)
    (htop : ¬ res.AtTop) (hfits : res.Fits flags) (hb : res.InBus b) :
  hoseBusToPhys regions b flags = some (res.toPhys b)
  := by
  rw [hoseBusToPhys_eq]
  apply look_eq_some hres hfits
  · exact (finds_iff (h.fine res hres) htop).mpr hb
  · intro res' hres' hfits' hfinds
    exact h.eq_of_inBus hres hres' hfits hfits' hb (inBus_of_finds (h.fine res' hres') hfinds)

/-- An address that is only in regions at the top is not found. -/
theorem LaidOut.hosePhysToBus_none (h : LaidOut regions)
    (hout : ∀ res ∈ regions, res.Fits flags → ¬ res.AtTop → ¬ res.InPhys a) :
  hosePhysToBus regions a flags = none
  := by
  rw [hosePhysToBus_eq]
  apply look_eq_none
  intro res hres hfits hfinds
  have hfine := h.fine res hres
  apply hout res hres hfits
  · exact fun htop => not_finds_of_atTop htop hfinds
  · exact (inBus_toBus hfine).mp (inBus_of_finds hfine hfinds)

theorem LaidOut.hoseBusToPhys_none (h : LaidOut regions)
    (hout : ∀ res ∈ regions, res.Fits flags → ¬ res.InBus b) :
  hoseBusToPhys regions b flags = none
  := by
  rw [hoseBusToPhys_eq]
  apply look_eq_none
  intro res hres hfits hfinds
  exact hout res hres hfits (inBus_of_finds (h.fine res hres) hfinds)

/-- The address of a region on the bus is that of its physical address. -/
theorem inPhys_toPhys (hfine : res.Fine) (hb : res.InBus b) :
  res.InPhys (res.toPhys b)
  := by
  rw [← inBus_toBus hfine, toBus_toPhys hfine hb]
  exact hb

/-- **Addresses are translated** if and only if no region ends at the top of the bus. -/
theorem translates_iff (h : LaidOut regions) :
  Translates regions ↔ ∀ res ∈ regions, ¬ res.AtTop
  := by
  constructor
  · intro htranslates res hres htop
    have hfine := h.fine res hres
    have hpos : 0 < res.size.toNat :=
      Nat.pos_of_ne_zero fun hzero => htop.1 (BitVec.eq_of_toNat_eq hzero)
    have hself : res.Fits res.flags := by
      rw [Region.Fits, BitVec.xor_self, BitVec.zero_and]
      rfl
    have hin : res.InPhys res.physStart := ⟨le_rfl, by omega⟩
    obtain ⟨b, hb, _⟩ := htranslates.there res hres res.flags res.physStart hself hin
    have hnone : hosePhysToBus regions res.physStart res.flags = none := by
      apply h.hosePhysToBus_none
      intro res' hres' hfits' htop' hin'
      rw [h.eq_of_inPhys hres hres' hself hfits' hin hin'] at htop'
      exact htop' htop
    rw [hnone] at hb
    cases hb
  · intro htop
    constructor
    · intro res hres flags a hfits ha
      have hfine := h.fine res hres
      refine ⟨_, h.hosePhysToBus_some hres (htop res hres) hfits ha, ?_⟩
      rw [h.hoseBusToPhys_some hres (htop res hres) hfits ((inBus_toBus hfine).mpr ha),
        toPhys_toBus]
    · intro res hres flags b hfits hb
      have hfine := h.fine res hres
      refine ⟨_, h.hoseBusToPhys_some hres (htop res hres) hfits hb, ?_⟩
      rw [h.hosePhysToBus_some hres (htop res hres) hfits (inPhys_toPhys hfine hb),
        toBus_toPhys hfine hb]
    · intro res hres flags a hfits hsys ha
      exact hosePhysToBus_prefers h.fine hres (htop res hres) hfits hsys ha
    · intro flags a hout
      apply h.hosePhysToBus_none
      exact fun res hres hfits _ => hout res hres hfits
    · intro flags b hout
      apply h.hoseBusToPhys_none
      exact hout

/-- A bridge with a window of memory, and the memory of the board. -/
def bridge : List (Region ⟨32, 64, by decide⟩) :=
  [⟨0x80000000, 0xd0000000, 0x10000000, regionMem⟩, ⟨0, 0, 0x40000000, regionSysMemory⟩]

theorem laidOut_bridge :
  LaidOut bridge
  := by
  constructor
  · intro res hres
    fin_cases hres <;> exact ⟨by decide, by decide⟩
  · apply List.pairwise_pair.mpr
    intro flags _ _
    constructor
    · intro a ⟨⟨hwindow, _⟩, ⟨_, hmemory⟩⟩
      have hapart : 0 + 0x40000000 ≤ 0xd0000000 := by decide
      exact absurd (hapart.trans hwindow) (Nat.not_le_of_lt hmemory)
    · intro b ⟨⟨hwindow, _⟩, ⟨_, hmemory⟩⟩
      have hapart : 0 + 0x40000000 ≤ 0x80000000 := by decide
      exact absurd (hapart.trans hwindow) (Nat.not_le_of_lt hmemory)

theorem translates_iff_bridge :
  Translates bridge
  := (translates_iff laidOut_bridge).mpr <| by
    intro res hres
    fin_cases hres <;> exact fun htop => absurd htop.2 (by decide)

/-- A region of the last quarter of a bus of 32 bits. -/
def topRegion : Region ⟨32, 32, by decide⟩ := ⟨0xc0000000, 0xc0000000, 0x40000000, regionMem⟩

/-- A region that ends at the top is laid out, but its addresses are not translated. -/
theorem not_translates_top :
  LaidOut [topRegion] ∧ ¬ Translates [topRegion]
  := by
  constructor
  · constructor
    · intro res hres
      rw [List.mem_singleton.mp hres]
      exact ⟨by decide, by decide⟩
    · exact List.pairwise_singleton _ _
  · intro h
    obtain ⟨b, hb, _⟩ := h.there topRegion List.mem_cons_self 0 0xd0000000 (by decide)
      ⟨by decide, by decide⟩
    have hnone : hosePhysToBus [topRegion] 0xd0000000 0 = none := by decide
    rw [hnone] at hb
    cases hb

end Translate

end Pci
