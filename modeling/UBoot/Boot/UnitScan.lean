import UBoot.Lib.ExecList
import UBoot.Lib.Align

/-!
# The scan for units

`board/ACube/common/sys_dep.c`: from the names of boot sources a list of handles is made, one for
each present device, and the caller goes from one to the next.  The list is linked in memory, with
sentinels.
-/

namespace UnitScan

open ExecList

/-- `enum bustype`. -/
inductive BusType where
  | viaAta
  | scsi
  | usb
  | net
  | floppy
  | silParallel
  | silSerial
  | sil4Serial
  | sata2460
  | none
  deriving DecidableEq

/-- `DEV_TYPE_HARDDISK`. -/
def devTypeHarddisk : Byte := 0x00

/-- `DEV_TYPE_CDROM`. -/
def devTypeCdrom : Byte := 0x05

/-- `DEV_TYPE_NETBOOT`. -/
def devTypeNetboot : Byte := 0x81

/-- `block_dev_desc_t`. -/
structure BlockDevDesc where
  dev : ℤ
  type : Byte
  blksz : Word
  deriving DecidableEq

/-- `struct dev_access_entry`. -/
structure DevAccessEntry where
  identifier : List Byte
  requestType : Byte
  maxUnitnum : ℕ
  bustype : BusType

/-- `devices_access_table`.  `USB_MAX_STOR_DEV` is the one of `include/usb.h`. -/
def devicesAccessTable : List DevAccessEntry :=
  [⟨ascii "net", devTypeNetboot, 1, .net⟩,
    ⟨ascii "ucdrom", devTypeCdrom, 5, .usb⟩,
    ⟨ascii "usb", devTypeHarddisk, 5, .usb⟩,
    ⟨ascii "ssii", devTypeHarddisk, 2, .silSerial⟩,
    ⟨ascii "ssiicdrom", devTypeCdrom, 2, .silSerial⟩,
    ⟨ascii "s4sii", devTypeHarddisk, 4, .sil4Serial⟩,
    ⟨ascii "s4siicdrom", devTypeCdrom, 4, .sil4Serial⟩,
    ⟨ascii "psii", devTypeHarddisk, 4, .silParallel⟩,
    ⟨ascii "psiicdrom", devTypeCdrom, 4, .silParallel⟩,
    ⟨ascii "sata2-460", devTypeHarddisk, 1, .sata2460⟩]

/-- `find_dae`. -/
def findDae (s : List Byte) : Option DevAccessEntry :=
  devicesAccessTable.find? fun current => current.identifier = s

/-! ### Handles -/

/-- `struct uboot_scan_handle`, but for its link. -/
structure Handle where
  bustype : BusType
  alreadyScanned : Bool
  device : BlockDevDesc
  deriving DecidableEq

/-- `sizeof(struct uboot_scan_handle)`. -/
def sizeofHandle : ℕ := 120

/-- The handle for the network. -/
def netHandle : Handle where
  bustype := .net
  alreadyScanned := false
  device := { dev := 0, type := devTypeNetboot, blksz := 1500 }

/-- The handle for a device. -/
def deviceHandle (bustype : BusType) (device : BlockDevDesc) : Handle where
  bustype := bustype
  alreadyScanned := false
  device := device

/-- What is outside of the scan: the functions `dae_get_dev`, what `malloc` returns one time after
the other, and where `dev_list` is. -/
structure System where
  getDev : BusType → ℕ → Option BlockDevDesc
  malloc : ℕ → Word
  devList : Word

/-- `uboot_4aligned_malloc`, for what `malloc` returned. -/
def aligned (temp : Word) : Word := (temp + 3) &&& ~~~3

/-- The address of a handle. -/
def System.node (sys : System) (i : ℕ) : Word := aligned (sys.malloc i)

/-- The links, the handles, how many of them were allocated, `curr_disk`, and the block size of the
caller. -/
structure State where
  link : Word → Word
  handle : Word → Handle
  allocated : ℕ
  currDisk : Word
  blocksize : Word

/-! ### The functions -/

/-- A handle is allocated and put behind the others. -/
def addHandle (sys : System) (s : State) (h : Handle) : State :=
  { s with
    link := addTail s.link sys.devList (sys.node s.allocated)
    handle := Function.update s.handle (sys.node s.allocated) h
    allocated := s.allocated + 1 }

/-- A unit of a boot source. -/
def scanUnit (sys : System) (dae : DevAccessEntry) (s : State) (currUnit : ℕ) : State :=
  if dae.bustype = .net then addHandle sys s netHandle
  else
    match sys.getDev dae.bustype currUnit with
    | none => s
    | some newdev =>
      if newdev.blksz ≠ 0 ∧ newdev.type = dae.requestType then
        addHandle sys s (deviceHandle dae.bustype newdev)
      else s

/-- The units of a boot source. -/
def scanSource (sys : System) (s : State) (opt : List Byte) : State :=
  match findDae opt with
  | none => s
  | some dae => (List.range dae.maxUnitnum).foldl (scanUnit sys dae) s

/-- `start_unit_scan`. -/
def startUnitScan (sys : System) (scanList : Option (List (List Byte))) (s : State) :
    Word × State :=
  match scanList with
  | none => (0, s)
  | some names =>
    let s := { s with link := newList s.link sys.devList, allocated := 0 }
    let s := names.foldl (scanSource sys) s
    let s := { s with currDisk := s.link sys.devList }
    let blksz := (s.handle s.currDisk).device.blksz
    (s.currDisk, if blksz ≠ 0 then { s with blocksize := blksz } else s)

/-- `next_unit_scan`. -/
def nextUnitScan (h : Word) (s : State) : Word × State :=
  let next := s.link h
  let s := { s with
    handle := Function.update s.handle h { s.handle h with alreadyScanned := true } }
  if s.link next ≠ 0 then
    (next, { s with blocksize := (s.handle next).device.blksz, currDisk := next })
  else (0, s)

/-- What the loop of `do_boota` comes to: a handle at an address, and the block size. -/
structure Visit where
  scanner : Word
  handle : Handle
  blocksize : Word

/-- The loop of `do_boota`, for at most `fuel` rounds. -/
def visits : ℕ → Word × State → Option (List Visit)
  | 0, _ => none
  | fuel + 1, (scanner, s) =>
    if scanner = 0 then some []
    else (visits fuel (nextUnitScan scanner s)).map (⟨scanner, s.handle scanner, s.blocksize⟩ :: ·)

/-! ### What is to be visited -/

/-- The handle of a unit, if there is such a device. -/
def unitHandle (sys : System) (dae : DevAccessEntry) (currUnit : ℕ) : Option Handle :=
  if dae.bustype = .net then some netHandle
  else ((sys.getDev dae.bustype currUnit).filter fun newdev =>
    newdev.blksz ≠ 0 ∧ newdev.type = dae.requestType).map (deviceHandle dae.bustype)

/-- How many units the driver of a bus has: `USB_MAX_STOR_DEV` of `common/usb_storage.c` is not
that of `include/usb.h`. -/
def driverUnits : BusType → ℕ
  | .usb => 8
  | .net => 1
  | .silSerial => 2
  | .sil4Serial => 4
  | .silParallel => 4
  | .sata2460 => 1
  | _ => 0

/-- The devices that a boot source stands for, of the first units. -/
def sourceHandles (sys : System) (units : DevAccessEntry → ℕ) (opt : List Byte) : List Handle :=
  (findDae opt).elim [] fun dae => (List.range (units dae)).filterMap (unitHandle sys dae)

/-- The present devices, in the order of the scan list and of the unit numbers. -/
def present (sys : System) (scanList : Option (List (List Byte))) : List Handle :=
  scanList.elim [] fun names => names.flatMap (sourceHandles sys fun dae => driverUnits dae.bustype)

/-- Those of them that have a unit number of the table. -/
def scanned (sys : System) (scanList : Option (List (List Byte))) : List Handle :=
  scanList.elim [] fun names => names.flatMap (sourceHandles sys DevAccessEntry.maxUnitnum)

/-- The present devices are visited, each with its block size and by the handle that was allocated
for it, and nothing else. -/
def Enumerates (sys : System) (scanList : Option (List (List Byte))) (s : State) : Prop :=
  ∃ fuel vs, visits fuel (startUnitScan sys scanList s) = some vs
    ∧ vs.map (fun v => (v.handle, v.blocksize))
      = (present sys scanList).map (fun h => (h, h.device.blksz))
    ∧ ∀ v ∈ vs, ∃ i < (startUnitScan sys scanList s).2.allocated, v.scanner = sys.node i

/-- No unit of a boot source is behind those of the table. -/
def SourceInTable (sys : System) (opt : List Byte) : Prop :=
  ∀ dae ∈ findDae opt, ∀ u < driverUnits dae.bustype,
    dae.maxUnitnum ≤ u → unitHandle sys dae u = none

/-- No device of the scan list has a unit number behind those of the table. -/
def InTable (sys : System) (scanList : Option (List (List Byte))) : Prop :=
  ∀ names ∈ scanList, ∀ opt ∈ names, SourceInTable sys opt

/-- `malloc` works `n` times: the blocks do not lie over each other, nor over the header of the
list. -/
structure System.Sound (sys : System) (n : ℕ) : Prop where
  malloc_pos : ∀ i < n, 0 < (sys.malloc i).toNat
  malloc_lt : ∀ i < n, (sys.malloc i).toNat + (sizeofHandle + 4) < 2 ^ 32
  malloc_disjoint : ∀ j < n, ∀ i < j,
    (sys.malloc i).toNat + (sizeofHandle + 4) ≤ (sys.malloc j).toNat
      ∨ (sys.malloc j).toNat + (sizeofHandle + 4) ≤ (sys.malloc i).toNat
  devList_lt : sys.devList.toNat + 12 < 2 ^ 32
  devList_disjoint : ∀ i < n,
    (sys.malloc i).toNat + (sizeofHandle + 4) ≤ sys.devList.toNat
      ∨ sys.devList.toNat + 12 ≤ (sys.malloc i).toNat

/-! ### Addresses -/

section Addresses

variable {sys : System} {n i j : ℕ}

/-- A handle is in the block that was allocated for it. -/
theorem System.Sound.node_bounds (h : sys.Sound n) (hi : i < n) :
  (sys.malloc i).toNat ≤ (sys.node i).toNat ∧ (sys.node i).toNat ≤ (sys.malloc i).toNat + 3
  := by
  have hlt := h.malloc_lt i hi
  rw [sizeofHandle] at hlt
  have haligned : (sys.node i).toNat = ((sys.malloc i).toNat + 3) / 4 * 4 :=
    @Align.toNat_add_and_not 2 (by decide) (sys.malloc i) (by omega)
  omega

theorem System.Sound.node_ne_zero (h : sys.Sound n) (hi : i < n) :
  sys.node i ≠ 0
  := by
  have hpos := h.malloc_pos i hi
  have hle := (h.node_bounds hi).1
  intro hzero
  rw [hzero] at hle
  exact absurd (hpos.trans_le hle) (lt_irrefl 0)

theorem System.Sound.tailCell_ne_zero (h : sys.Sound n) :
  tailCell sys.devList ≠ 0
  := by
  have hlt := h.devList_lt
  rw [tailCell]
  bv_omega

/-- A handle is apart from those before it, and from the header. -/
theorem System.Sound.apart (h : sys.Sound n) (hj : j < n) {ns : List Word}
    (hns : ∀ x ∈ ns, ∃ i < j, x = sys.node i) :
  Apart sys.devList ns (sys.node j)
  := by
  have hbounds := h.node_bounds hj
  have hlt := h.malloc_lt j hj
  have hlist := h.devList_lt
  have hheader := h.devList_disjoint j hj
  rw [sizeofHandle] at hlt hheader
  refine ⟨?_, ?_, ?_⟩
  · intro x hx
    obtain rfl | hx := List.mem_cons.mp hx
    · rw [predCell]
      bv_omega
    · obtain ⟨i, hi, rfl⟩ := hns x hx
      have hbounds' := h.node_bounds (hi.trans hj)
      have hlt' := h.malloc_lt i (hi.trans hj)
      have hblocks := h.malloc_disjoint j hj i hi
      rw [sizeofHandle] at hlt' hblocks
      rw [predCell]
      bv_omega
  · rw [tailCell, predCell]
    bv_omega
  · rw [tailPredCell, predCell]
    bv_omega

end Addresses

/-! ### The list of handles -/

/-- The invariant: the list has the given nodes, with the given handles. -/
structure Holds (sys : System) (nodes : List (Word × Handle)) (s : State) : Prop where
  list : IsList s.link sys.devList (nodes.map Prod.fst)
  separate : Separate sys.devList (nodes.map Prod.fst)
  stored : ∀ p ∈ nodes, s.handle p.1 = p.2
  old : ∀ p ∈ nodes, ∃ i < nodes.length, p.1 = sys.node i
  allocated : s.allocated = nodes.length

/-- A part of the scan adds nodes with the given handles, if there is memory for them. -/
def Adds (sys : System) (n : ℕ) (f : State → State) (hs : List Handle) : Prop :=
  ∀ nodes s, Holds sys nodes s → nodes.length + hs.length ≤ n →
    ∃ nodes', Holds sys (nodes ++ nodes') (f s) ∧ nodes'.map Prod.snd = hs

section Adds

variable {sys : System} {n : ℕ}

theorem Adds.nil : Adds sys n id []
  := by
  intro nodes s h _
  use []
  rw [List.append_nil]
  exact ⟨h, rfl⟩

theorem Adds.comp {f g : State → State} {hs hs' : List Handle} (hf : Adds sys n f hs)
    (hg : Adds sys n g hs') :
  Adds sys n (g ∘ f) (hs ++ hs')
  := by
  intro nodes s h hn
  rw [List.length_append, ← Nat.add_assoc] at hn
  obtain ⟨nodes', h', rfl⟩ := hf nodes s h (Nat.le_of_add_right_le hn)
  rw [List.length_map, ← List.length_append] at hn
  obtain ⟨nodes'', h'', rfl⟩ := hg _ _ h' hn
  use nodes' ++ nodes''
  rw [← List.append_assoc, List.map_append]
  exact ⟨h'', rfl⟩

/-- **The loop rule.** -/
theorem Adds.foldl {α : Type} {step : State → α → State} {hs : α → List Handle}
    (h : ∀ a, Adds sys n (fun s => step s a) (hs a)) (l : List α) :
  Adds sys n (fun s => l.foldl step s) (l.flatMap hs)
  := by
  induction l with
  | nil => exact Adds.nil
  | cons a l ih => exact (h a).comp ih

/-- A handle is added. -/
theorem adds_addHandle (hsound : sys.Sound n) (x : Handle) :
  Adds sys n (fun s => addHandle sys s x) [x]
  := by
  intro nodes s h hn
  have hlt : nodes.length < n := hn
  have hold : ∀ a ∈ nodes.map Prod.fst, ∃ i < nodes.length, a = sys.node i := by
    intro a ha
    obtain ⟨p, hp, rfl⟩ := List.mem_map.mp ha
    apply h.old p hp
  have hapart := hsound.apart hlt hold
  refine ⟨[(sys.node nodes.length, x)], ?_, rfl⟩
  dsimp only [addHandle]
  rw [h.allocated]
  constructor
  · rw [List.map_append]
    apply h.list.addTail h.separate hapart
  · rw [List.map_append]
    apply h.separate.concat hapart
  · intro p hp
    obtain hp | hp := List.mem_append.mp hp
    · have hne := (hapart.nodes p.1 (List.mem_cons_of_mem _ (List.mem_map_of_mem hp))).1
      exact (Function.update_of_ne hne _ _).trans (h.stored p hp)
    · rw [List.mem_singleton.mp hp]
      apply Function.update_self
  · intro p hp
    rw [List.length_append]
    obtain hp | hp := List.mem_append.mp hp
    · obtain ⟨i, hi, hpi⟩ := h.old p hp
      exact ⟨i, Nat.lt_succ_of_lt hi, hpi⟩
    · rw [List.mem_singleton.mp hp]
      exact ⟨nodes.length, Nat.lt_succ_self _, rfl⟩
  · rw [List.length_append]
    rfl

theorem adds_scanUnit (hsound : sys.Sound n) (dae : DevAccessEntry) (u : ℕ) :
  Adds sys n (fun s => scanUnit sys dae s u) (unitHandle sys dae u).toList
  := by
  simp only [scanUnit, unitHandle]
  by_cases hnet : dae.bustype = .net
  · simp only [if_pos hnet]
    apply adds_addHandle hsound
  simp only [if_neg hnet]
  cases sys.getDev dae.bustype u with
  | none => exact Adds.nil
  | some newdev =>
    dsimp only
    by_cases hpresent : newdev.blksz ≠ 0 ∧ newdev.type = dae.requestType
    · simp only [if_pos hpresent, Option.filter_some, decide_eq_true hpresent]
      apply adds_addHandle hsound
    · simp only [if_neg hpresent, Option.filter_some, decide_eq_false hpresent]
      exact Adds.nil

theorem adds_scanSource (hsound : sys.Sound n) (opt : List Byte) :
  Adds sys n (fun s => scanSource sys s opt) (sourceHandles sys DevAccessEntry.maxUnitnum opt)
  := by
  simp only [scanSource, sourceHandles]
  cases findDae opt with
  | none => exact Adds.nil
  | some dae =>
    dsimp only [Option.elim]
    rw [List.filterMap_eq_flatMap_toList]
    apply Adds.foldl (adds_scanUnit hsound dae)

end Adds

/-! ### The walk over the list -/

section Walk

variable {sys : System} {scanList : Option (List (List Byte))} {names : List (List Byte)}
  {s : State} {a : Word} {x : Handle} {rest : List (Word × Handle)}

/-- The scan goes on with the next node. -/
theorem nextUnitScan_spec {n : Word} (hnext : s.link a = n) (hmore : s.link n ≠ 0) (hna : n ≠ a) :
  ∃ t, nextUnitScan a s = (n, t) ∧ t.link = s.link ∧ (∀ b ≠ a, t.handle b = s.handle b)
    ∧ t.blocksize = (s.handle n).device.blksz
  := by
  rw [nextUnitScan, hnext]
  dsimp only
  rw [if_pos hmore]
  refine ⟨_, rfl, rfl, fun b hb => Function.update_of_ne hb _ _, ?_⟩
  dsimp only
  rw [Function.update_of_ne hna]

/-- From a node on, the others are visited. -/
theorem visits_of_linked (hlinked : Linked s.link a (rest.map Prod.fst) (tailCell sys.devList))
    (htail : s.link (tailCell sys.devList) = 0) (hne : tailCell sys.devList ≠ 0) (ha : a ≠ 0)
    (hpos : ∀ p ∈ rest, p.1 ≠ 0) (hnodup : (a :: rest.map Prod.fst).Nodup)
    (hstored : ∀ p ∈ rest, s.handle p.1 = p.2) :
  visits (rest.length + 2) (a, s)
    = some (⟨a, s.handle a, s.blocksize⟩ :: rest.map fun p => ⟨p.1, p.2, p.2.device.blksz⟩)
  := by
  induction rest generalizing a s with
  | nil =>
    have hnext : s.link a = tailCell sys.devList := hlinked
    have hend : (nextUnitScan a s).1 = 0 := by
      rw [nextUnitScan, hnext, if_neg (not_not.mpr htail)]
    rw [visits, if_neg ha, visits, if_pos hend]
    rfl
  | cons p rest ih =>
    obtain ⟨n, x⟩ := p
    obtain ⟨hnext, hrest⟩ := hlinked
    have hmore : s.link n ≠ 0 := by
      cases rest with
      | nil => exact fun hzero => hne (hrest.symm.trans hzero)
      | cons q rest =>
        intro hzero
        apply hpos q (List.mem_cons_of_mem _ List.mem_cons_self)
        exact hrest.1.symm.trans hzero
    have hna : n ≠ a := by
      rintro rfl
      exact (List.nodup_cons.mp hnodup).1 List.mem_cons_self
    have hx : s.handle n = x := hstored (n, x) List.mem_cons_self
    obtain ⟨t, ht, hlink, hhandle, hblocksize⟩ := nextUnitScan_spec hnext hmore hna
    have hsame : ∀ p ∈ rest, t.handle p.1 = p.2 := by
      intro p hp
      have hpa : p.1 ≠ a := by
        rintro rfl
        exact (List.nodup_cons.mp hnodup).1 (List.mem_map_of_mem (List.mem_cons_of_mem _ hp))
      rw [hhandle p.1 hpa]
      apply hstored p (List.mem_cons_of_mem _ hp)
    rw [← hlink] at hrest htail
    have hvisits := ih hrest htail (hpos (n, x) List.mem_cons_self)
      (fun p hp => hpos p (List.mem_cons_of_mem _ hp)) (List.nodup_cons.mp hnodup).2 hsame
    rw [visits, if_neg ha, ht, List.length_cons, hvisits, hhandle n hna, hblocksize, hx]
    rfl

/-- Two runs of the loop that end come to the same. -/
theorem visits_unique {fuel fuel' : ℕ} {p : Word × State} {vs vs' : List Visit}
    (h : visits fuel p = some vs) (h' : visits fuel' p = some vs') :
  vs = vs'
  := by
  induction fuel generalizing fuel' p vs vs' with
  | zero => cases h
  | succ fuel ih =>
    cases fuel' with
    | zero => cases h'
    | succ fuel' =>
      obtain ⟨scanner, s⟩ := p
      rw [visits] at h h'
      split_ifs at h h' with hend
      · exact Option.some.inj (h.symm.trans h')
      · obtain ⟨rest, hrest, rfl⟩ := Option.map_eq_some_iff.mp h
        obtain ⟨rest', hrest', rfl⟩ := Option.map_eq_some_iff.mp h'
        rw [ih hrest hrest']

theorem blksz_ne_zero_of_mem_scanned (h : x ∈ scanned sys scanList) :
  x.device.blksz ≠ 0
  := by
  cases scanList with
  | none => exact absurd h List.not_mem_nil
  | some names =>
    obtain ⟨opt, _, hopt⟩ := List.mem_flatMap.mp h
    rw [sourceHandles] at hopt
    cases hdae : findDae opt with
    | none =>
      rw [hdae] at hopt
      exact absurd hopt List.not_mem_nil
    | some dae =>
      rw [hdae] at hopt
      obtain ⟨u, _, hu⟩ := List.mem_filterMap.mp hopt
      rw [unitHandle] at hu
      split at hu
      · obtain rfl := Option.some.inj hu
        decide
      · obtain ⟨newdev, hnewdev, rfl⟩ := Option.map_eq_some_iff.mp hu
        have hpresent := (Option.filter_eq_some_iff.mp hnewdev).2
        exact (of_decide_eq_true hpresent).1

/-- What the scan makes of the names is a list of the devices of the table. -/
theorem holds_scanSources (hsound : sys.Sound (scanned sys (some names)).length) (s : State) :
  ∃ nodes, Holds sys nodes
      (names.foldl (scanSource sys) { s with link := newList s.link sys.devList, allocated := 0 })
    ∧ nodes.map Prod.snd = scanned sys (some names)
  := by
  have hempty : Holds sys []
      { s with link := newList s.link sys.devList, allocated := 0 } :=
    ⟨isList_newList s.link sys.devList, Separate.nil, nofun, nofun, rfl⟩
  apply Adds.foldl (adds_scanSource hsound) names [] _ hempty
  rw [List.length_nil, Nat.zero_add]
  rfl

/-- Without a device, the scan begins with the end of the list, which is no handle. -/
theorem not_enumerates_of_empty (hsound : sys.Sound (scanned sys (some names)).length)
    (hnone : scanned sys (some names) = []) :
  ¬ Enumerates sys (some names) s
  := by
  obtain ⟨nodes, hholds, hnodes⟩ := holds_scanSources hsound s
  rw [hnone, List.map_eq_nil_iff] at hnodes
  subst hnodes
  have hallocated : (startUnitScan sys (some names) s).2.allocated = 0 := by
    rw [startUnitScan]
    dsimp only
    split_ifs <;> exact hholds.allocated
  have hstart : (startUnitScan sys (some names) s).1 ≠ 0 := by
    have hhead := hholds.list.linked
    change _ = tailCell sys.devList at hhead
    rw [startUnitScan]
    dsimp only
    rw [hhead]
    apply hsound.tailCell_ne_zero
  rintro ⟨fuel, vs, hvisits, -, hvs⟩
  rw [hallocated] at hvs
  cases fuel with
  | zero => cases hvisits
  | succ fuel =>
    rw [visits, if_neg hstart, Option.map_eq_some_iff] at hvisits
    obtain ⟨rest, _, rfl⟩ := hvisits
    obtain ⟨i, hi, -⟩ := hvs _ List.mem_cons_self
    exact absurd hi (Nat.not_lt_zero i)

/-- The devices of the table are visited. -/
theorem visits_scanned (hsound : sys.Sound (scanned sys (some names)).length)
    (hsome : scanned sys (some names) ≠ []) :
  ∃ fuel vs, visits fuel (startUnitScan sys (some names) s) = some vs
    ∧ vs.map (fun v => (v.handle, v.blocksize))
      = (scanned sys (some names)).map (fun h => (h, h.device.blksz))
    ∧ ∀ v ∈ vs, ∃ i < (startUnitScan sys (some names) s).2.allocated, v.scanner = sys.node i
  := by
  obtain ⟨nodes, hholds, hnodes⟩ := holds_scanSources hsound s
  generalize hscanned : names.foldl (scanSource sys)
    { s with link := newList s.link sys.devList, allocated := 0 } = t at hholds
  cases nodes with
  | nil => exact absurd hnodes.symm hsome
  | cons p rest =>
    obtain ⟨a, x⟩ := p
    have hx : t.handle a = x := hholds.stored (a, x) List.mem_cons_self
    have hblksz : x.device.blksz ≠ 0 := by
      apply blksz_ne_zero_of_mem_scanned
      rw [← hnodes]
      exact List.mem_cons_self
    have hlength : (scanned sys (some names)).length = rest.length + 1 := by
      rw [← hnodes, List.length_map, List.length_cons]
    have hpos : ∀ p ∈ (a, x) :: rest, p.1 ≠ 0 := by
      intro p hp
      obtain ⟨i, hi, hpi⟩ := hholds.old p hp
      rw [hpi]
      apply hsound.node_ne_zero
      rw [hlength]
      apply hi
    obtain ⟨hhead, hlinked⟩ := hholds.list.linked
    have hstart : startUnitScan sys (some names) s
        = (a, { t with currDisk := a, blocksize := x.device.blksz }) := by
      rw [startUnitScan]
      dsimp only
      rw [hscanned, hhead, hx, if_pos hblksz]
    have hvisits := @visits_of_linked sys { t with currDisk := a, blocksize := x.device.blksz } a
      rest hlinked hholds.list.tail hsound.tailCell_ne_zero (hpos _ List.mem_cons_self)
      (fun p hp => hpos p (List.mem_cons_of_mem _ hp))
      (List.nodup_cons.mp hholds.separate.nodup).2
      fun p hp => hholds.stored p (List.mem_cons_of_mem _ hp)
    rw [hstart]
    refine ⟨rest.length + 2, _, hvisits, ?_, ?_⟩
    · rw [← hnodes, List.map_cons, List.map_cons, List.map_map, List.map_cons, List.map_map]
      dsimp only
      rw [hx]
      rfl
    · intro v hv
      dsimp only
      rw [hholds.allocated]
      obtain rfl | hv := List.mem_cons.mp hv
      · exact hholds.old (a, x) List.mem_cons_self
      · obtain ⟨p, hp, rfl⟩ := List.mem_map.mp hv
        exact hholds.old p (List.mem_cons_of_mem _ hp)

end Walk

/-! ### The units of the table -/

section Units

variable {sys : System}

/-- The table has no more units than the drivers. -/
theorem maxUnitnum_le {opt : List Byte} {dae : DevAccessEntry} (h : findDae opt = some dae) :
  dae.maxUnitnum ≤ driverUnits dae.bustype
  := by
  have hall : ∀ dae ∈ devicesAccessTable, dae.maxUnitnum ≤ driverUnits dae.bustype := by decide
  exact hall dae (List.mem_of_find?_eq_some h)

/-- The devices of the table come first. -/
theorem sourceHandles_prefix (sys : System) (opt : List Byte) :
  ∃ rest, sourceHandles sys (fun dae => driverUnits dae.bustype) opt
      = sourceHandles sys DevAccessEntry.maxUnitnum opt ++ rest
    ∧ (rest = [] ↔ SourceInTable sys opt)
  := by
  rw [sourceHandles, sourceHandles, SourceInTable]
  cases hdae : findDae opt with
  | none => exact ⟨[], rfl, iff_of_true rfl nofun⟩
  | some dae =>
    obtain ⟨k, hk⟩ := Nat.le.dest (maxUnitnum_le hdae)
    refine ⟨((List.range k).map (dae.maxUnitnum + ·)).filterMap (unitHandle sys dae), ?_, ?_⟩
    · dsimp only [Option.elim]
      rw [← hk, List.range_add, List.filterMap_append]
    · rw [List.filterMap_eq_nil_iff]
      constructor
      · intro hnone dae' hdae' u hu hle
        obtain rfl := Option.some.inj hdae'
        obtain ⟨j, rfl⟩ := Nat.le.dest hle
        refine hnone _ (List.mem_map_of_mem (List.mem_range.mpr ?_))
        omega
      · intro hnone u hu
        obtain ⟨j, hj, rfl⟩ := List.mem_map.mp hu
        rw [List.mem_range] at hj
        exact hnone dae rfl _ (by omega) (by omega)

/-- The scan misses devices if there are some behind the table. -/
theorem inTable_of_length (names : List (List Byte)) :
  (scanned sys (some names)).length ≤ (present sys (some names)).length
    ∧ ((scanned sys (some names)).length = (present sys (some names)).length →
      ∀ opt ∈ names, SourceInTable sys opt)
  := by
  induction names with
  | nil => exact ⟨le_rfl, fun _ => nofun⟩
  | cons opt names ih =>
    obtain ⟨hle, heq⟩ := ih
    obtain ⟨rest, hrest, hnone⟩ := sourceHandles_prefix sys opt
    have hscanned : scanned sys (some (opt :: names))
        = sourceHandles sys DevAccessEntry.maxUnitnum opt ++ scanned sys (some names) :=
      List.flatMap_cons
    have hpresent : present sys (some (opt :: names))
        = sourceHandles sys DevAccessEntry.maxUnitnum opt ++ rest ++ present sys (some names) := by
      rw [← hrest]
      exact List.flatMap_cons
    rw [hscanned, hpresent, List.length_append, List.length_append, List.length_append]
    refine ⟨by omega, fun hlength opt' hopt' => ?_⟩
    obtain rfl | hopt' := List.mem_cons.mp hopt'
    · exact hnone.mp (List.eq_nil_of_length_eq_zero (by omega))
    · exact heq (by omega) opt' hopt'

/-- Otherwise it misses none. -/
theorem scanned_eq_present (names : List (List Byte))
    (h : ∀ opt ∈ names, SourceInTable sys opt) :
  scanned sys (some names) = present sys (some names)
  := by
  apply List.flatMap_congr
  intro opt hopt
  obtain ⟨rest, hrest, hnone⟩ := sourceHandles_prefix sys opt
  rw [hrest, hnone.mpr (h opt hopt), List.append_nil]

theorem inTable_iff (names : List (List Byte)) :
  InTable sys (some names) ↔ ∀ opt ∈ names, SourceInTable sys opt
  := by
  constructor
  · intro h opt hopt
    exact h names rfl opt hopt
  · intro h names' hnames'
    obtain rfl := Option.some.inj hnames'
    exact h

/-- **The present devices** are visited if and only if there is no list of names, or there is such
a device and none of them is behind the units of the table. -/
theorem enumerates_iff_present (sys : System) (scanList : Option (List (List Byte))) (s : State)
    (hsound : sys.Sound (scanned sys scanList).length) :
  Enumerates sys scanList s
    ↔ scanList = none ∨ present sys scanList ≠ [] ∧ InTable sys scanList
  := by
  cases scanList with
  | none => exact iff_of_true ⟨1, [], rfl, rfl, nofun⟩ (.inl rfl)
  | some names =>
    rw [inTable_iff]
    constructor
    · intro h
      right
      have hsome : scanned sys (some names) ≠ [] := fun hnone =>
        not_enumerates_of_empty hsound hnone h
      obtain ⟨fuel, vs, hvisits, hmap, -⟩ := h
      obtain ⟨fuel', vs', hvisits', hmap', -⟩ := visits_scanned (s := s) hsound hsome
      obtain rfl := visits_unique hvisits hvisits'
      have hlength : (scanned sys (some names)).length = (present sys (some names)).length := by
        have hlists := congrArg List.length (hmap'.symm.trans hmap)
        rwa [List.length_map, List.length_map] at hlists
      refine ⟨?_, (inTable_of_length names).2 hlength⟩
      rintro hnil
      rw [hnil] at hlength
      exact hsome (List.eq_nil_of_length_eq_zero hlength)
    · rintro (hnone | ⟨hsome, hin⟩)
      · cases hnone
      · have heq := scanned_eq_present names hin
        rw [← heq] at hsome
        obtain ⟨fuel, vs, hvisits, hmap, hvs⟩ := visits_scanned (s := s) hsound hsome
        exact ⟨fuel, vs, hvisits, by rw [hmap, heq], hvs⟩

end Units

/-! ### One source -/

/-- A system with the given USB disks. -/
def usbDisks (disk : ℕ → Option BlockDevDesc) : System where
  getDev bustype currUnit := if bustype = .usb then disk currUnit else none
  malloc i := BitVec.ofNat 32 (0x10000 + 128 * i)
  devList := 0x8000

/-- The memory before the scan. -/
def initialState : State where
  link _ := 0
  handle _ := netHandle
  allocated := 0
  currDisk := 0
  blocksize := 0

theorem sound_usbDisks (disk : ℕ → Option BlockDevDesc) {n : ℕ} (hn : n ≤ 1000) :
  (usbDisks disk).Sound n
  := by
  have hmalloc : ∀ i < n, ((usbDisks disk).malloc i).toNat = 0x10000 + 128 * i := by
    intro i hi
    apply Nat.mod_eq_of_lt
    omega
  have hlist : (usbDisks disk).devList.toNat = 0x8000 := rfl
  constructor
  · intro i hi
    rw [hmalloc i hi]
    apply Nat.add_pos_left (by decide)
  · intro i hi
    rw [hmalloc i hi, sizeofHandle]
    omega
  · intro j hj i hij
    rw [hmalloc i (hij.trans hj), hmalloc j hj, sizeofHandle]
    omega
  · rw [hlist]
    decide
  · intro i hi
    rw [hmalloc i hi, hlist]
    omega

/-- The second unit is the only one that there is. -/
theorem enumerates_usb :
  Enumerates (usbDisks fun u => if u = 1 then some ⟨1, devTypeHarddisk, 512⟩ else none)
    (some [ascii "usb"]) initialState
  := by
  apply (enumerates_iff_present _ (some [ascii "usb"]) initialState (sound_usbDisks _ _)).mpr
  · right
    refine ⟨by decide +kernel, ?_⟩
    rw [inTable_iff]
    intro opt hopt dae hdae u _ hle
    obtain rfl := List.mem_singleton.mp hopt
    have husb : findDae (ascii "usb") = some ⟨ascii "usb", devTypeHarddisk, 5, .usb⟩ := rfl
    obtain rfl := Option.some.inj (husb.symm.trans hdae)
    have hne : u ≠ 1 := by
      rintro rfl
      exact absurd hle (by decide)
    rw [unitHandle, if_neg (by decide), usbDisks]
    dsimp only
    rw [if_pos rfl, if_neg hne]
    rfl
  · decide +kernel

theorem not_enumerates_usb :
  ¬ ∀ (sys : System) (scanList : Option (List (List Byte))) (s : State),
    sys.Sound (scanned sys scanList).length → Enumerates sys scanList s
  := by
  intro h
  have hnone : scanned (usbDisks fun _ => none) (some [ascii "usb"]) = [] := by decide +kernel
  have hsound : (usbDisks fun _ => none).Sound
      (scanned (usbDisks fun _ => none) (some [ascii "usb"])).length := by
    rw [hnone]
    apply sound_usbDisks _ (Nat.zero_le 1000)
  exact not_enumerates_of_empty hsound hnone (h _ _ initialState hsound)

end UnitScan
