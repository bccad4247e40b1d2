import Mathlib.Tactic

/-!
# USB enumeration

`usb_init` of `common/usb.c` enters the devices of every controller in the table `usb_dev`: a hub
is asked for the state of its ports, a device behind a port is entered and asked for its
descriptors, and if it is a hub, its ports come next, before the other ports of the first one.  A
device that fails is taken out again.

What the devices answer is a tree: for each port, the answers to one or two calls of
`usb_hub_port_connect_change`, and the ports behind it if there is a hub.  Pointers into `usb_dev`
are indices.
-/

namespace Usb

/-- `USB_MAX_DEVICE`. -/
def maxDevice : ℕ := 32

/-- `USB_MAXCHILDREN`. -/
def maxChildren : ℕ := 8

/-- `USB_MAX_HUB`. -/
def maxHub : ℕ := 16

/-! ### The answers -/

/-- How `usb_hub_configure` gets on: no hub descriptor, no hub status, or the ports are scanned. -/
inductive Setup where
  | noDescriptor
  | noStatus
  | scanned
  deriving DecidableEq

/--
How `usb_new_device` gets on: it fails before the device has its address back, it fails later, or it
succeeds.
-/
inductive Result where
  | unaddressed
  | failed
  | device
  | hub (setup : Setup)
  deriving DecidableEq

/-- What `usb_hub_port_connect_change` is told: by `usb_get_port_status`, the bits of the status,
by `hub_port_reset`, and by the device. -/
structure Plug where
  status : Bool
  connection : Bool
  enable : Bool
  reset : Bool
  result : Result
  deriving DecidableEq

/-- The ports of a hub.  `change` is for a port with a connection change, `enableChange` for one that
the hub has disabled; `behind` and `behind'` are the ports of the hub that is found there. -/
inductive Ports where
  | nil
  | port (change : Option Plug) (behind : Ports) (enableChange : Option Plug) (behind' : Ports)
      (rest : Ports)

/-- `bNbrPorts`. -/
def Ports.length : Ports → ℕ
  | .nil => 0
  | .port _ _ _ _ rest => rest.length + 1

/-- A controller: whether `usb_lowlevel_init` works, and the root hub. -/
structure Controller where
  lowlevel : Bool
  root : Result
  ports : Ports

/-! ### The table -/

/-- `struct usb_device`. -/
structure Device where
  devnum : ℤ
  maxchild : ℕ
  children : ℕ → Option ℕ
  parent : Option ℕ
  portnr : ℕ

/-- `usb_dev`, `dev_index` and `usb_hub_index`. -/
structure State where
  devs : ℕ → Device
  devIndex : ℕ
  hubIndex : ℕ

/-- What goes wrong: a null pointer is followed, or `children` is used outside of its bounds. -/
inductive Fault where
  | null
  | outside
  deriving DecidableEq

/-- An entry that is not in use. -/
def unknown : Device := ⟨-1, 0, fun _ => none, none, 0⟩

/-- An entry is changed. -/
def State.modify (s : State) (k : ℕ) (f : Device → Device) : State :=
  { s with devs := Function.update s.devs k (f (s.devs k)) }

/-- `usb_alloc_new_device`; `none` is a null pointer. -/
def allocNewDevice (s : State) : Option State :=
  if s.devIndex = maxDevice then none
  else
    some { s.modify s.devIndex (fun dev => { dev with
      devnum := (s.devIndex : ℤ) + 1, maxchild := 0, children := fun _ => none, parent := none }) with
      devIndex := s.devIndex + 1 }

/-- `usb_free_device`. -/
def freeDevice (s : State) : State :=
  { s.modify (s.devIndex - 1) (fun _ => unknown) with devIndex := s.devIndex - 1 }

/-- `usb_hub_configure`, with what is done for the ports. -/
def hubConfigure (setup : Setup) (nports : ℕ) (scan : ℕ → State → Except Fault State) (k : ℕ)
    (s : State) : Except Fault State :=
  if maxHub ≤ s.hubIndex then .ok s
  else
    let s := { s with hubIndex := s.hubIndex + 1 }
    match setup with
    | .noDescriptor => .ok s
    | .noStatus => .ok (s.modify k fun dev => { dev with maxchild := nports })
    | .scanned => scan k (s.modify k fun dev => { dev with maxchild := nports })

/-- `usb_new_device`: whether it fails, and what it leaves. -/
def newDevice (r : Result) (nports : ℕ) (scan : ℕ → State → Except Fault State) (k : ℕ)
    (s : State) : Except Fault (Bool × State) :=
  match r with
  | .unaddressed => .ok (true, s.modify k fun dev => { dev with devnum := 0 })
  | .failed => .ok (true, s)
  | .device => .ok (false, s)
  | .hub setup => (hubConfigure setup nports scan k s).map fun s => (false, s)

/-- The entry `k` becomes the child of a hub at a port. -/
def link (s : State) (hub port k : ℕ) : State :=
  (s.modify hub fun dev => { dev with children := Function.update dev.children port (some k) }).modify
    k fun dev => { dev with parent := some hub, portnr := port + 1 }

/-- There is no child at the port any more. -/
def unlink (s : State) (hub port : ℕ) : State :=
  s.modify hub fun dev => { dev with children := Function.update dev.children port none }

/-- `usb_hub_port_connect_change`. -/
def portConnectChange (plug : Plug) (nports : ℕ) (scan : ℕ → State → Except Fault State)
    (hub port : ℕ) (s : State) : Except Fault State :=
  if plug.status = false then .ok s
  else if plug.connection = false ∧ plug.enable = false then .ok s
  else if maxChildren ≤ port then .error .outside
  else if ((s.devs hub).children port).isSome ∧ plug.connection = false then .ok s
  else if plug.reset = false then .ok s
  else
    match allocNewDevice s with
    | none => .error .null
    | some s' =>
      (newDevice plug.result nports scan s.devIndex (link s' hub port s.devIndex)).map
        fun (err, s) => if err then unlink (freeDevice s) hub port else s

/-- What the loop of `usb_hub_configure` does for a connection change. -/
def connectionChange (change : Option Plug) (nports : ℕ) (scan : ℕ → State → Except Fault State)
    (hub port : ℕ) (s : State) : Except Fault State :=
  match change with
  | none => .ok s
  | some plug => portConnectChange plug nports scan hub port s

/-- What it does for a port with a device that the hub has disabled. -/
def enablingChange (change : Option Plug) (nports : ℕ) (scan : ℕ → State → Except Fault State)
    (hub port : ℕ) (s : State) : Except Fault State :=
  match change with
  | none => .ok s
  | some plug =>
    if maxChildren ≤ port then .error .outside
    else if ((s.devs hub).children port).isSome then portConnectChange plug nports scan hub port s
    else .ok s

/-- The loop of `usb_hub_configure` over the ports, from `port` on. -/
def scanPorts : Ports → ℕ → ℕ → State → Except Fault State
  | .nil, _, _, s => .ok s
  | .port change behind enableChange behind' rest, hub, port, s =>
    (connectionChange change behind.length (fun k => scanPorts behind k 0) hub port s).bind fun s =>
    (enablingChange enableChange behind'.length (fun k => scanPorts behind' k 0) hub port s).bind
      fun s => scanPorts rest hub (port + 1) s

/-- The round of `usb_init` for a controller. -/
def initController (c : Controller) (s : State) : Except Fault State :=
  if c.lowlevel = false then .ok s
  else
    match allocNewDevice s with
    | none => .ok s
    | some s' =>
      -- a root hub that fails stays in the table
      (newDevice c.root c.ports.length (fun k => scanPorts c.ports k 0) s.devIndex s').map Prod.snd

/-- The loop of `usb_init`. -/
def initLoop : List Controller → State → Except Fault State
  | [], s => .ok s
  | c :: cs, s => (initController c s).bind (initLoop cs)

/-- `usb_init`. -/
def init (cs : List Controller) : Except Fault State := initLoop cs ⟨fun _ => unknown, 0, 0⟩

/-! ### What is expected -/

/-- The table after the enumeration. -/
structure Enumerated (s : State) : Prop where
  devIndex : s.devIndex ≤ maxDevice
  addresses : ∀ j < s.devIndex, ∀ k < s.devIndex, (s.devs j).devnum = (s.devs k).devnum → j = k
  children : ∀ hub port k, (s.devs hub).children port = some k →
    port < maxChildren ∧ k < s.devIndex ∧ (s.devs k).parent = some hub ∧ (s.devs k).portnr = port + 1

/-- The enumeration ends, with such a table. -/
def Enumerates (cs : List Controller) : Prop := ∃ s, init cs = .ok s ∧ Enumerated s

/-! ### The room that is needed -/

/-- How many entries and how many hubs are in use. -/
structure Count where
  devs : ℕ
  hubs : ℕ
  deriving DecidableEq

/-- A hub is entered. -/
def Setup.fits (setup : Setup) (behind : Count → Option Count) (c : Count) : Option Count :=
  if maxHub ≤ c.hubs then some c
  else
    match setup with
    | .scanned => behind { c with hubs := c.hubs + 1 }
    | _ => some { c with hubs := c.hubs + 1 }

/-- A device is entered in a free entry: whether it stays there, and what is in use then. -/
def Result.fits (r : Result) (behind : Count → Option Count) (c : Count) : Option (Bool × Count) :=
  match r with
  | .unaddressed => some (false, c)
  | .failed => some (false, c)
  | .device => some (true, { c with devs := c.devs + 1 })
  | .hub setup => (setup.fits behind { c with devs := c.devs + 1 }).map fun c => (true, c)

/--
A call for a port, with or without a child there: there is a slot for the port if it is looked at,
and a free entry for a new device.
-/
def Plug.fits (plug : Plug) (behind : Count → Option Count) (port : ℕ) (child : Bool) (c : Count) :
    Option (Bool × Count) :=
  if plug.status = false then some (child, c)
  else if plug.connection = false ∧ plug.enable = false then some (child, c)
  else if maxChildren ≤ port then none
  else if child ∧ plug.connection = false then some (child, c)
  else if plug.reset = false then some (child, c)
  else if maxDevice ≤ c.devs then none
  else plug.result.fits behind c

/-- A connection change. -/
def fitsConnection (change : Option Plug) (behind : Count → Option Count) (port : ℕ) (c : Count) :
    Option (Bool × Count) :=
  match change with
  | none => some (false, c)
  | some plug => plug.fits behind port false c

/-- A port that the hub has disabled. -/
def fitsEnabling (change : Option Plug) (behind : Count → Option Count) (port : ℕ) (child : Bool)
    (c : Count) : Option (Bool × Count) :=
  match change with
  | none => some (child, c)
  | some plug =>
    if maxChildren ≤ port then none
    else if child then plug.fits behind port child c
    else some (child, c)

/-- The ports from `i` on. -/
def Ports.fits : Ports → ℕ → Count → Option Count
  | .nil, _, c => some c
  | .port change behind enableChange behind' rest, i, c =>
    (fitsConnection change (behind.fits 0) i c).bind fun (child, c) =>
    (fitsEnabling enableChange (behind'.fits 0) i child c).bind fun (_, c) =>
    rest.fits (i + 1) c

/-- A controller, with the number of root hubs that have failed without an address. -/
def Controller.fits (ctrl : Controller) (c : Count) (zeros : ℕ) : Option (Count × ℕ) :=
  if ctrl.lowlevel = false ∨ c.devs = maxDevice then some (c, zeros)
  else
    match ctrl.root with
    | .unaddressed => some ({ c with devs := c.devs + 1 }, zeros + 1)
    | .failed => some ({ c with devs := c.devs + 1 }, zeros)
    | .device => some ({ c with devs := c.devs + 1 }, zeros)
    | .hub setup => (setup.fits (ctrl.ports.fits 0) { c with devs := c.devs + 1 }).map
      fun c => (c, zeros)

/-- All controllers. -/
def fitsAll : List Controller → Count → ℕ → Option ℕ
  | [], _, zeros => some zeros
  | ctrl :: cs, c, zeros => (ctrl.fits c zeros).bind fun (c, zeros) => fitsAll cs c zeros

end Usb
