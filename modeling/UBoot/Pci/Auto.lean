import UBoot.Lib.Memory

/-!
# Scanning the PCI buses

`pci_hose_scan` of `drivers/pci/pci.c` walks through the functions of a bus and, at a bridge,
through the bus behind it.  On the way `drivers/pci/pci_auto.c` numbers the buses, gives an
address to every base address register and opens a window in every bridge for what lies behind
it.  The addresses are taken from the bottom of the regions of the host, which only ever rises.

The scan is modelled over the tree of functions that are there, and it leaves a log of what it
writes.  A function is named by its path, the numbers of the functions that lead to it.  An
access to the bus that has just been numbered reaches the functions behind its bridge.
-/

namespace Pci

/-- `pci_addr_t`, with `CONFIG_SYS_PCI_64BIT`. -/
abbrev PciAddr := BitVec 64

/-! ### Regions -/

/-- What a region of the host is for. -/
inductive Space where
  | mem
  | prefetch
  | io
  deriving DecidableEq

/-- `struct pci_region`; the addresses below `busLower` are taken. -/
structure Region where
  busStart : PciAddr
  size : PciAddr
  busLower : PciAddr

/-- The regions in use: `pci_mem`, `pci_prefetch` and `pci_io`. -/
abbrev Regions := Space → Option Region

/-- The first multiple of `size` that is not below `addr`, if there is one. -/
def roundUp (addr size : PciAddr) : PciAddr := ((addr - 1) ||| (size - 1)) + 1

namespace Region

/-- `pciauto_region_init`. -/
def init (res : Region) : Region :=
  { res with busLower := if res.busStart ≠ 0 then res.busStart else 0x1000 }

/-- `pciauto_region_align`. -/
def align (res : Region) (size : PciAddr) : Region :=
  { res with busLower := roundUp res.busLower size }

/-- `pciauto_region_allocate`: the address, and the region without it. -/
def allocate (res : Region) (size : PciAddr) : Option (PciAddr × Region) :=
  let addr := roundUp res.busLower size
  if addr - res.busStart + size > res.size then none
  else some (addr, { res with busLower := addr + size })

end Region

/-- The choice of `pciauto_config_init`: of the regions of one kind the first of the largest. -/
def configInit (regions : List (Space × Region)) : Regions :=
  fun s => (regions.foldl (fun found r =>
    if r.1 = s ∧ (∀ res ∈ found, res.size < r.2.size) then some r.2 else found) none).map Region.init

/-! ### Functions -/

/-- A base address register, with the number of address bits it leaves out. -/
inductive Bar where
  | unused
  | io (k : ℕ) (wide : Bool)
  | mem32 (k : ℕ) (prefetchable : Bool)
  | mem64 (k : ℕ) (prefetchable : Bool)

namespace Bar

/-- The sizes that a register can ask for. -/
def Valid : Bar → Prop
  | unused => True
  | io k wide => 2 ≤ k ∧ k < if wide then 32 else 16
  | mem32 k _ => 4 ≤ k ∧ k < 32
  | mem64 k _ => 4 ≤ k ∧ k < 64

/-- `PCI_BASE_ADDRESS_MEM_PREFETCH`. -/
def prefetchBit (prefetchable : Bool) : Word := if prefetchable then 8 else 0

/-- What can be read after all ones have been written. -/
def responses : Bar → List Word
  | unused => [0]
  | io k wide => [BitVec.ofNat 32 ((if wide then 2 ^ 32 else 2 ^ 16) - 2 ^ k) ||| 1]
  | mem32 k prefetchable => [BitVec.ofNat 32 (2 ^ 32 - 2 ^ k) ||| prefetchBit prefetchable]
  | mem64 k prefetchable =>
    [BitVec.ofNat 32 (2 ^ 64 - 2 ^ k) ||| 4 ||| prefetchBit prefetchable,
      BitVec.ofNat 32 ((2 ^ 64 - 2 ^ k) / 2 ^ 32)]

end Bar

/-- `PCI_CLASS_BRIDGE_PCI`. -/
def classBridgePci : ℕ := 0x0604

/-- `PCI_CLASS_BRIDGE_CARDBUS`. -/
def classBridgeCardbus : ℕ := 0x0607

/-- `PCI_CLASS_STORAGE_IDE`. -/
def classStorageIde : ℕ := 0x0101

/-- `PCIAUTO_IDE_MODE_MASK`. -/
def ideModeMask : Byte := 5

/-- The configuration space of a function, as far as it is read. -/
structure Function where
  headerType : Byte
  classDevice : ℕ
  classProg : Byte
  command : Word
  bars : List Bar
  bars_valid : ∀ bar ∈ bars, bar.Valid
  bars_length : (bars.flatMap Bar.responses).length ≤ if classDevice = classBridgePci then 2 else 6

namespace Function

def multi (f : Function) : Bool := f.headerType &&& 0x80 ≠ 0

/-- The responses of the base address registers. -/
def registers (f : Function) : List Word := f.bars.flatMap Bar.responses

/-- The branch of `pciauto_config_device` that is taken. -/
inductive Kind where
  | bridge
  | cardbus
  | legacyIde
  | other
  deriving DecidableEq

def kind (f : Function) : Kind :=
  if f.classDevice = classBridgePci then .bridge
  else if f.classDevice = classBridgeCardbus then .cardbus
  else if f.classDevice = classStorageIde ∧ f.classProg &&& ideModeMask = 0 then .legacyIde
  else .other

end Function

/--
The functions of a bus in the order of their numbers, each with the bus behind it; where nothing
answers there is a gap.  Only a bridge has a bus behind it, what stands there for another function
is of no account.
-/
inductive Bus where
  | nil
  | gap (rest : Bus)
  | function (f : Function) (behind rest : Bus)

/-- The way from the root to a function. -/
abbrev Path := List ℕ

/-! ### The log -/

/-- What is written, and where. -/
inductive Event where
  /-- The scan has found a function. -/
  | found (q : Path)
  /-- A register has been taken for a base address of the given size, and has got an address. -/
  | assigned (q : Path) (bar : ℕ) (s : Space) (size value : PciAddr)
  /-- There is no address for such a register, which is left with all ones. -/
  | failed (q : Path) (bar : ℕ) (s : Space)
  | command (q : Path) (value : Word)
  /-- The primary and the secondary bus of a bridge; the subordinate bus is set to `0xff`. -/
  | busNumbers (q : Path) (primary secondary : Byte)
  | subordinate (q : Path) (bus : Byte)
  /-- A bus number is left to a CardBus bridge. -/
  | reserved (q : Path) (bus : ℕ)
  /-- The base register of a window, and the one with its upper half. -/
  | windowBase (q : Path) (s : Space) (reg upper : BitVec 16)
  /-- The limit register of a window, and the one with its upper half. -/
  | windowLimit (q : Path) (s : Space) (reg upper : BitVec 16)

/-! ### Base address registers -/

/-- `PCI_COMMAND_IO`. -/
def commandIo : Word := 1

/-- `PCI_COMMAND_MEMORY`. -/
def commandMemory : Word := 2

/-- `PCI_COMMAND_MASTER`. -/
def commandMaster : Word := 4

/-- A response of a register in I/O space. -/
def isIo (response : Word) : Prop := response &&& 1 ≠ 0

instance (response : Word) : Decidable (isIo response) :=
  inferInstanceAs (Decidable (_ ≠ _))

/-- A response of the lower half of a 64-bit register. -/
def isMem64 (response : Word) : Bool := ¬ isIo response ∧ response &&& 6 = 4

/-- `bar_size`. -/
def barSize (response upper : Word) : PciAddr :=
  if isIo response then
    (~~~(response.setWidth 64 &&& ~~~3) &&& 0xffff) + 1
  else if isMem64 response then
    ~~~((upper.setWidth 64 <<< 32 ||| response.setWidth 64) &&& ~~~0xf) + 1
  else
    ((~~~(response.setWidth 64 &&& ~~~0xf) + 1).setWidth 32).setWidth 64

/-- The kind of `bar_res`. -/
def barSpace (regions : Regions) (response : Word) : Space :=
  if isIo response then .io
  else if (regions .prefetch).isSome ∧ response &&& 8 ≠ 0 then .prefetch
  else .mem

def Regions.set (regions : Regions) (s : Space) (res : Region) : Regions :=
  fun s' => if s' = s then some res else regions s'

/-- What the regions and the log are after a few writes. -/
structure Outcome where
  regions : Regions
  command : Word
  log : List Event

/--
The loop of `pciauto_setup_device` over the registers from number `bar` on; the next one is
skipped if it is the upper half of one that has got an address.
-/
def setupBars (q : Path) : List Word → ℕ → Bool → Regions → Word → Outcome
  | [], _, _, regions, cmdstat => ⟨regions, cmdstat, []⟩
  | _ :: rest, bar, true, regions, cmdstat => setupBars q rest (bar + 1) false regions cmdstat
  | response :: rest, bar, false, regions, cmdstat =>
    if response = 0 then setupBars q rest (bar + 1) false regions cmdstat
    else
      let s := barSpace regions response
      let size := barSize response (rest.headD 0)
      match (regions s).bind (·.allocate size) with
      | some (addr, res) =>
        let value := if isMem64 response then addr else (addr.setWidth 32).setWidth 64
        let enable := if isIo response then commandIo else commandMemory
        let out := setupBars q rest (bar + 1) (isMem64 response) (regions.set s res)
          (cmdstat ||| enable)
        { out with log := .assigned q bar s size value :: out.log }
      | none =>
        let out := setupBars q rest (bar + 1) false regions cmdstat
        { out with log := .failed q bar s :: out.log }

/-- `pciauto_setup_device`. -/
def setupDevice (q : Path) (f : Function) (barsNum : ℕ) (regions : Regions) : Outcome :=
  let cmdstat := f.command &&& ~~~(commandIo ||| commandMemory) ||| commandMaster
  let out := setupBars q (f.registers.take barsNum) 0 false regions cmdstat
  { out with log := out.log ++ [.command q out.command] }

/-! ### Bridges -/

/-- The granularity of the windows. -/
def granule : Space → PciAddr
  | .io => 0x1000
  | _ => 0x100000

/-- The values for the base registers of a window that starts at `lower`. -/
def baseRegs (s : Space) (lower : PciAddr) : BitVec 16 × BitVec 16 :=
  if s = .io then
    (((lower &&& 0xf000) >>> 8).setWidth 16, ((lower &&& 0xffff0000) >>> 16).setWidth 16)
  else
    (((lower &&& 0xfff00000) >>> 16).setWidth 16, 0)

/-- The values for the limit registers of a window that ends before `lower`. -/
def limitRegs (s : Space) (lower : PciAddr) : BitVec 16 × BitVec 16 :=
  if s = .io then
    ((((lower - 1) &&& 0xf000) >>> 8).setWidth 16,
      (((lower - 1) &&& 0xffff0000) >>> 16).setWidth 16)
  else
    (((lower - 1) >>> 16).setWidth 16, 0)

/-- The windows, in the order in which they are set up. -/
def windows : List Space := [.mem, .prefetch, .io]

/-- The bit of the command register that lets a window through. -/
def windowEnable (s : Space) : Word := if s = .io then commandIo else commandMemory

/-- Each region is rounded to the granularity of its window. -/
def Regions.align (regions : Regions) : Regions :=
  fun s => (regions s).map (·.align (granule s))

/--
What `pciauto_prescan_setup_bridge` writes for one window, with the regions rounded.  Without a
region for prefetchable memory that window is closed at once.
-/
def openWindow (q : Path) (regions : Regions) (s : Space) : List Event :=
  match regions s with
  | some res => [.windowBase q s (baseRegs s res.busLower).1 (baseRegs s res.busLower).2]
  | none => if s = .prefetch then [.windowBase q s 0x1000 0, .windowLimit q s 0 0] else []

/-- What `pciauto_postscan_setup_bridge` writes for one window, with the regions rounded. -/
def closeWindow (q : Path) (regions : Regions) (s : Space) : List Event :=
  match regions s with
  | some res => [.windowLimit q s (limitRegs s res.busLower).1 (limitRegs s res.busLower).2]
  | none => []

/-- `struct pci_controller`. -/
structure Hose where
  firstBusno : ℕ
  currentBusno : ℕ
  regions : Regions

/-- `pciauto_prescan_setup_bridge`; the command register is read back. -/
def prescanSetupBridge (q : Path) (bus subBus : ℕ) (cmdstat : Word) (hose : Hose) :
    Hose × List Event :=
  let regions := hose.regions.align
  let cmdstat := windows.foldl (fun cmdstat s =>
    if (regions s).isSome then cmdstat ||| windowEnable s else cmdstat) cmdstat
  ({ hose with regions := regions },
    .busNumbers q (UInt8.ofNat (bus - hose.firstBusno)) (UInt8.ofNat (subBus - hose.firstBusno))
      :: windows.flatMap (openWindow q regions) ++ [.command q (cmdstat ||| commandMaster)])

/-- `pciauto_postscan_setup_bridge`. -/
def postscanSetupBridge (q : Path) (subBus : ℕ) (hose : Hose) : Hose × List Event :=
  let regions := hose.regions.align
  ({ hose with regions := regions },
    .subordinate q (UInt8.ofNat (subBus - hose.firstBusno))
      :: windows.flatMap (closeWindow q regions))

/-! ### The scan -/

/-- What is returned by a scan, and what it leaves. -/
structure Scanned where
  subBus : ℕ
  hose : Hose
  log : List Event

/-- `pciauto_config_device`; `scan` is the scan of the bus behind a bridge. -/
def configDevice (q : Path) (f : Function) (bus : ℕ) (scan : ℕ → Hose → Scanned) (hose : Hose) :
    Scanned :=
  match f.kind with
  | .bridge =>
    let busno := hose.currentBusno + 1
    let out := setupDevice q f 2 hose.regions
    let pre := prescanSetupBridge q bus busno out.command
      { hose with currentBusno := busno, regions := out.regions }
    let leg := scan busno pre.1
    let post := postscanSetupBridge q (max leg.subBus bus) leg.hose
    ⟨post.1.currentBusno, post.1, out.log ++ pre.2 ++ leg.log ++ post.2⟩
  | .legacyIde => ⟨bus, hose, []⟩
  | .cardbus =>
    let out := setupDevice q f 0 hose.regions
    let busno := hose.currentBusno + 1
    ⟨bus, { hose with currentBusno := busno, regions := out.regions },
      out.log ++ [.reserved q busno]⟩
  | .other =>
    let out := setupDevice q f 6 hose.regions
    ⟨bus, { hose with regions := out.regions }, out.log⟩

/-- `pci_skip_dev`; the host bridge is skipped unless `pciconfighost` is set. -/
def skipDev (configHost : Bool) (hose : Hose) (bus devfn : ℕ) : Bool :=
  bus = hose.firstBusno ∧ devfn = 0 ∧ ¬ configHost

/--
`pci_hose_scan_bus`, from the function with number `devfn` on.  The loop runs while the number
is below that of the last function of the last device.
-/
def scanBus (configHost : Bool) :
    Bus → Path → (bus devfn : ℕ) → (foundMulti : Bool) → (subBus : ℕ) → Hose → Scanned
  | .nil, _, _, _, _, subBus, hose => ⟨subBus, hose, []⟩
  | .gap rest, path, bus, devfn, foundMulti, subBus, hose =>
    if 255 ≤ devfn then ⟨subBus, hose, []⟩
    else scanBus configHost rest path bus (devfn + 1) foundMulti subBus hose
  | .function f behind rest, path, bus, devfn, foundMulti, subBus, hose =>
    if 255 ≤ devfn then ⟨subBus, hose, []⟩
    else if skipDev configHost hose bus devfn ∨ devfn % 8 ≠ 0 ∧ ¬ foundMulti then
      scanBus configHost rest path bus (devfn + 1) foundMulti subBus hose
    else
      let q := path ++ [devfn]
      let foundMulti := if devfn % 8 = 0 then f.multi else foundMulti
      let dev := configDevice q f bus
        (fun busno hose => scanBus configHost behind q busno 0 false busno hose) hose
      let next := scanBus configHost rest path bus (devfn + 1) foundMulti (max subBus dev.subBus)
        dev.hose
      { next with log := .found q :: dev.log ++ next.log }

/-- The controller at the start of the scan, which begins with bus `currentBusno`. -/
def Hose.start (hose : Hose) (regions : List (Space × Region)) : Hose :=
  { hose with
    currentBusno := max hose.firstBusno hose.currentBusno
    regions := configInit regions }

/-- `pci_hose_scan`. -/
def hoseScan (configHost : Bool) (root : Bus) (hose : Hose) (regions : List (Space × Region)) :
    Scanned :=
  let hose := hose.start regions
  scanBus configHost root [] hose.currentBusno 0 false hose.currentBusno hose

end Pci
