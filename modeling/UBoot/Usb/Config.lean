import UBoot.Lib.Memory

/-!
# USB configurations

`usb_parse_config` of `common/usb.c` walks over the descriptors of a configuration and enters
interfaces and endpoints in the arrays of `dev->config`; `usb_set_maxpacket` goes through them
again, as far as the device says that there are some.  Both are run on checked arrays: a program
has no result if it reads the buffer behind `wTotalLength`, or if an index is behind the end of an
array.

The descriptors are also grouped apart from these programs, every interface with its endpoints.
The programs have a result if and only if the counts of the groups and those that the device
reports fit into the arrays.
-/

namespace UsbConfig

/-! ### The data -/

def usbBufsiz : ℕ := 512
def usbMaxinterfaces : ℕ := 8
def usbMaxendpoints : ℕ := 16

def usbDtConfig : Byte := 0x02
def usbDtInterface : Byte := 0x04
def usbDtEndpoint : Byte := 0x05
def usbDtSsEndpointComp : Byte := 0x30

def usbDtConfigSize : ℕ := 9
def usbDtInterfaceSize : ℕ := 9
def usbDtEndpointSize : ℕ := 7
def usbDtSsEpCompSize : ℕ := 6

/-- `struct usb_interface`; descriptors are their bytes. -/
structure Interface where
  desc : List Byte
  noOfEp : ℕ
  numAltsetting : ℕ
  epDesc : ℕ → List Byte
  ssEpCompDesc : ℕ → List Byte

def Interface.bInterfaceNumber (f : Interface) : Byte := f.desc.getD 2 0

def Interface.bNumEndpoints (f : Interface) : Byte := f.desc.getD 4 0

/-- `struct usb_config`. -/
structure Config where
  desc : List Byte
  noOfIf : ℕ
  ifDesc : ℕ → Interface

def Config.bNumInterfaces (c : Config) : Byte := c.desc.getD 4 0

/-- The fields of `struct usb_device` that are set. -/
structure Device where
  epmaxpacketin : ℕ → ℕ
  epmaxpacketout : ℕ → ℕ
  configno : ℤ
  config : Config

/-- An array is accessed at an index. -/
def check (i n : ℕ) : Option Unit := if i < n then some () else none

/-! ### The buffer -/

/-- The answer of a device to a request: a result, and what it puts into the buffer. -/
structure Answer where
  result : ℤ
  bytes : List Byte

/-- The length of a configuration, with the byte order of the processor. -/
def wTotalLength (m : ℕ → Byte) : ℕ := 256 * (m 2).toNat + (m 3).toNat

/-- `usb_get_descriptor`: not more bytes than asked for are put into the buffer. -/
def usbGetDescriptor (m : ℕ → Byte) (size : ℕ) (answer : Answer) : ℤ × (ℕ → Byte) :=
  (answer.result, Memory.store m 0 (answer.bytes.take size))

/-- Gets a configuration; the length is validated and gets the byte order of the processor. -/
def usbGetConfigurationNo (m : ℕ → Byte) (first second : Answer) : ℤ × (ℕ → Byte) :=
  let r := usbGetDescriptor m 9 first
  if r.1 < 9 then (-1, r.2)
  else
    let length := (r.2 2).toNat + 256 * (r.2 3).toNat
    if length > usbBufsiz then (-1, r.2)
    else
      let r := usbGetDescriptor r.2 length second
      (r.1, Memory.store r.2 2 [UInt8.ofNat (length / 256), UInt8.ofNat length])

/-- A length with the byte order of the processor. -/
theorem wTotalLength_store (m : ℕ → Byte) {length : ℕ} (h : length < 2 ^ 16) :
  wTotalLength (Memory.store m 2 [UInt8.ofNat (length / 256), UInt8.ofNat length]) = length
  := by
  have hhi : Memory.store m 2 [UInt8.ofNat (length / 256), UInt8.ofNat length] 2 =
      UInt8.ofNat (length / 256) := rfl
  have hlo : Memory.store m 2 [UInt8.ofNat (length / 256), UInt8.ofNat length] 3 =
      UInt8.ofNat length := rfl
  rw [wTotalLength, hhi, hlo, UInt8.toNat_ofNat', UInt8.toNat_ofNat']
  omega

/-- The length of a configuration that was fetched is validated. -/
theorem wTotalLength_le (m : ℕ → Byte) (first second : Answer)
    (h : 0 ≤ (usbGetConfigurationNo m first second).1) :
  wTotalLength (usbGetConfigurationNo m first second).2 ≤ usbBufsiz
  := by
  have hbufsiz : usbBufsiz = 512 := rfl
  unfold usbGetConfigurationNo at h ⊢
  dsimp only at h ⊢
  split_ifs at h ⊢ with hshort hlong
  · exact absurd h (Int.not_le.mpr (by decide : (-1 : ℤ) < 0))
  · exact absurd h (Int.not_le.mpr (by decide : (-1 : ℤ) < 0))
  · rw [wTotalLength_store _ (by omega)]
    exact Nat.le_of_not_lt hlong

section Source

variable (m : ℕ → Byte)

/-- A byte of the buffer is read. -/
def get (total i : ℕ) : Option Byte := if i < total then some (m i) else none

/-- A descriptor is copied from the buffer. -/
def getBytes (total i n : ℕ) : Option (List Byte) :=
  if i + n ≤ total then some (Memory.read m i n) else none

/-! ### The functions -/

/-- The variables of the walk; `none` is -1. -/
structure Walk where
  index : ℕ
  ifno : Option ℕ
  epno : Option ℕ
  currIfNum : Option Byte
  config : Config

/-- An interface is changed in its place. -/
def Config.setIf (c : Config) (i : ℕ) (f : Interface) : Config :=
  { c with ifDesc := Function.update c.ifDesc i f }

/-- A descriptor of an interface.  The walk goes on, or ends when there are too many. -/
def parseInterface (total : ℕ) (w : Walk) : Option (Bool × Walk) := do
  let bLength ← get m total w.index
  if bLength.toNat ≠ usbDtInterfaceSize then pure (true, w)
  else if w.index + usbDtInterfaceSize > total then pure (true, w)
  else do
    let bInterfaceNumber ← get m total (w.index + 2)
    if w.currIfNum ≠ some bInterfaceNumber then
      let ifno := w.config.noOfIf
      if ifno ≥ usbMaxinterfaces then pure (false, { w with ifno := some ifno })
      else do
        check ifno usbMaxinterfaces
        let desc ← getBytes m total w.index usbDtInterfaceSize
        let ifDesc := { w.config.ifDesc ifno with
          desc := desc
          noOfEp := 0
          numAltsetting := 1 }
        pure (true, { w with
          ifno := some ifno
          currIfNum := some ifDesc.bInterfaceNumber
          config := { w.config.setIf ifno ifDesc with noOfIf := w.config.noOfIf + 1 } })
    else
      w.ifno.elim (pure (true, w)) fun ifno => do
        check ifno usbMaxinterfaces
        let ifDesc := w.config.ifDesc ifno
        pure (true, { w with
          config := w.config.setIf ifno
            { ifDesc with numAltsetting := (ifDesc.numAltsetting + 1) % 256 } })

/-- A descriptor with `wMaxPacketSize` in the byte order of the processor. -/
def swapMaxPacketSize (desc : List Byte) : List Byte :=
  (desc.set 4 (desc.getD 5 0)).set 5 (desc.getD 4 0)

/-- A descriptor of an endpoint. -/
def parseEndpoint (total : ℕ) (w : Walk) : Option (Bool × Walk) := do
  let bLength ← get m total w.index
  if bLength.toNat ≠ usbDtEndpointSize then pure (true, w)
  else if w.index + usbDtEndpointSize > total then pure (true, w)
  else
    w.ifno.elim (pure (true, w)) fun ifno => do
      check ifno usbMaxinterfaces
      let ifDesc := w.config.ifDesc ifno
      let epno := ifDesc.noOfEp
      if epno > usbMaxendpoints then pure (false, { w with epno := some epno })
      else do
        check epno usbMaxendpoints
        let desc ← getBytes m total w.index usbDtEndpointSize
        pure (true, { w with
          epno := some epno
          config := w.config.setIf ifno { ifDesc with
            noOfEp := (ifDesc.noOfEp + 1) % 256
            epDesc := Function.update ifDesc.epDesc epno (swapMaxPacketSize desc) } })

/-- A companion descriptor, of the endpoint that was found last. -/
def parseEpComp (total : ℕ) (w : Walk) : Option (Bool × Walk) := do
  let bLength ← get m total w.index
  if bLength.toNat ≠ usbDtSsEpCompSize then pure (true, w)
  else if w.index + usbDtSsEpCompSize > total then pure (true, w)
  else
    w.ifno.elim (pure (true, w)) fun ifno =>
      w.epno.elim (pure (true, w)) fun epno => do
        check ifno usbMaxinterfaces
        check epno usbMaxendpoints
        let desc ← getBytes m total w.index usbDtSsEpCompSize
        let ifDesc := w.config.ifDesc ifno
        pure (true, { w with
          config := w.config.setIf ifno
            { ifDesc with ssEpCompDesc := Function.update ifDesc.ssEpCompDesc epno desc } })

/-- The body of the loop. -/
def describe (total : ℕ) (w : Walk) : Option (Bool × Walk) := do
  let bDescriptorType ← get m total (w.index + 1)
  if bDescriptorType = usbDtInterface then parseInterface m total w
  else if bDescriptorType = usbDtEndpoint then parseEndpoint m total w
  else if bDescriptorType = usbDtSsEndpointComp then parseEpComp m total w
  else pure (true, w)

/-- The loop over the descriptors.  It ends, as no descriptor has the length 0. -/
def parseLoop (total : ℕ) (w : Walk) : Option Walk :=
  if _h : w.index + 1 < total ∧ (m w.index).toNat ≠ 0 then
    (describe m total w).bind fun r =>
      if r.1 then parseLoop total { r.2 with index := w.index + (m w.index).toNat }
      else some r.2
  else some w
  termination_by total - w.index
  decreasing_by
    omega

/-- Parses the configuration in the buffer. -/
def usbParseConfig (dev : Device) (cfgno : ℤ) : Option (ℤ × Device) := do
  let total := wTotalLength m
  let dev := { dev with configno := cfgno }
  let bDescriptorType ← get m total 1
  if bDescriptorType ≠ usbDtConfig then pure (-1, dev)
  else do
    let bLength ← get m total 0
    if bLength.toNat ≠ usbDtConfigSize then pure (-1, dev)
    else do
      let desc ← getBytes m total 0 usbDtConfigSize
      let config := { dev.config with desc := desc, noOfIf := 0 }
      let w ← parseLoop m total ⟨bLength.toNat, none, none, none, config⟩
      pure (1, { dev with config := w.config })

end Source

/-- The maximum packet size of an endpoint; the number of the endpoint is below 16. -/
def usbSetMaxpacketEp (dev : Device) (i ii : ℕ) : Option Device := do
  check i usbMaxinterfaces
  check ii usbMaxendpoints
  let ep := (dev.config.ifDesc i).epDesc ii
  let bEndpointAddress := ep.getD 2 0
  let b := (bEndpointAddress &&& 0x0f).toNat
  let size := 256 * (ep.getD 4 0).toNat + (ep.getD 5 0).toNat
  if ep.getD 3 0 &&& 0x03 = 0 then
    pure { dev with
      epmaxpacketout := Function.update dev.epmaxpacketout b size
      epmaxpacketin := Function.update dev.epmaxpacketin b size }
  else if bEndpointAddress &&& 0x80 = 0 then
    if size > dev.epmaxpacketout b then
      pure { dev with epmaxpacketout := Function.update dev.epmaxpacketout b size }
    else pure dev
  else if size > dev.epmaxpacketin b then
    pure { dev with epmaxpacketin := Function.update dev.epmaxpacketin b size }
  else pure dev

/-- The endpoints of an interface, as many as its descriptor says. -/
def setMaxpacketIf (dev : Device) (i : ℕ) : Option Device := do
  check i usbMaxinterfaces
  (List.range (dev.config.ifDesc i).bNumEndpoints.toNat).foldlM
    (fun dev ii => usbSetMaxpacketEp dev i ii) dev

/-- The interfaces, as many as the descriptor of the configuration says. -/
def usbSetMaxpacket (dev : Device) : Option Device :=
  (List.range dev.config.bNumInterfaces.toNat).foldlM setMaxpacketIf dev

/-- What `usb_new_device` does with a configuration in the buffer. -/
def configure (m : ℕ → Byte) (dev : Device) (cfgno : ℤ) : Option Device := do
  let r ← usbParseConfig m dev cfgno
  usbSetMaxpacket r.2

/-! ### The groups -/

section Groups

variable (m : ℕ → Byte) (total : ℕ)

/-- Where the descriptors begin, from one of them on. -/
def offsets (i : ℕ) : List ℕ :=
  if _h : i + 1 < total ∧ (m i).toNat ≠ 0 then i :: offsets (i + (m i).toNat) else []
  termination_by total - i

/-- A descriptor of an interface, inside the configuration. -/
def IsInterface (i : ℕ) : Prop :=
  m (i + 1) = usbDtInterface ∧ (m i).toNat = usbDtInterfaceSize ∧ i + usbDtInterfaceSize ≤ total

instance decidableIsInterface (i : ℕ) : Decidable (IsInterface m total i) :=
  inferInstanceAs (Decidable (_ ∧ _))

/-- A descriptor of an endpoint, inside the configuration. -/
def IsEndpoint (i : ℕ) : Prop :=
  m (i + 1) = usbDtEndpoint ∧ (m i).toNat = usbDtEndpointSize ∧ i + usbDtEndpointSize ≤ total

instance decidableIsEndpoint (i : ℕ) : Decidable (IsEndpoint m total i) :=
  inferInstanceAs (Decidable (_ ∧ _))

/-- A descriptor of an interface that is no alternate setting of the interface before. -/
def IsNew (curr : Option Byte) (i : ℕ) : Prop :=
  IsInterface m total i ∧ curr ≠ some (m (i + 2))

instance decidableIsNew (curr : Option Byte) (i : ℕ) : Decidable (IsNew m total curr i) :=
  inferInstanceAs (Decidable (_ ∧ _))

/-- The descriptors in groups: how many endpoints come before the next new interface, and the new
interfaces, each with the number of its endpoints. -/
def groups (curr : Option Byte) : List ℕ → ℕ × List (ℕ × ℕ)
  | [] => (0, [])
  | i :: is =>
    if IsNew m total curr i then
      let g := groups (some (m (i + 2))) is
      (0, (i, g.1) :: g.2)
    else
      let g := groups curr is
      (if IsEndpoint m total i then g.1 + 1 else g.1, g.2)

end Groups

/-- The interfaces of the configuration in the buffer that have a place in the array. -/
def interfaces (m : ℕ → Byte) : List (ℕ × ℕ) :=
  (groups m (wTotalLength m) none (offsets m (wTotalLength m) usbDtConfigSize)).2.take
    usbMaxinterfaces

/-- How many endpoints the interface `i` says that it has: the one in the buffer, or the one that
was in the array before. -/
def numEndpoints (m : ℕ → Byte) (c : Config) (fs : List (ℕ × ℕ)) (i : ℕ) : ℕ :=
  fs[i]?.elim (c.ifDesc i).bNumEndpoints.toNat fun f => (m (f.1 + 4)).toNat

/-- The counts that the device reports fit into the arrays. -/
def Fits (count : ℕ) (numEndpoints : ℕ → ℕ) : Prop :=
  count ≤ usbMaxinterfaces ∧ ∀ i < count, numEndpoints i ≤ usbMaxendpoints

/-- The condition under which all is inside its bounds. -/
def Safe (m : ℕ → Byte) (c : Config) : Prop :=
  if m 1 = usbDtConfig ∧ (m 0).toNat = usbDtConfigSize then
    usbDtConfigSize ≤ wTotalLength m
      ∧ (∀ f ∈ interfaces m, f.2 ≤ usbMaxendpoints)
      ∧ Fits (m 4).toNat (numEndpoints m c (interfaces m))
  else 2 ≤ wTotalLength m ∧ Fits c.bNumInterfaces.toNat (numEndpoints m c [])

/-! ### The counts that the device reports -/

/-- A loop over a list has a result if every pass has one, when that does not depend on the passes
before. -/
theorem isSome_foldlM {σ α : Type} {f : σ → α → Option σ} {I : σ → Prop} {P : α → Prop}
    (hsome : ∀ s a, I s → ((f s a).isSome ↔ P a)) (hkeep : ∀ s a t, I s → f s a = some t → I t)
    (ℓ : List α) {s : σ} (hs : I s) :
  (ℓ.foldlM f s).isSome ↔ ∀ a ∈ ℓ, P a
  := by
  induction ℓ generalizing s with
  | nil => simp
  | cons a ℓ ih =>
      rw [List.foldlM_cons, List.forall_mem_cons, ← hsome s a hs]
      cases hf : f s a with
      | none => simp
      | some t =>
          have hnext := ih (hkeep s a t hs hf)
          change (ℓ.foldlM f t).isSome ↔ _
          rw [hnext]
          simp

/-- The state of a loop keeps what every pass keeps. -/
theorem foldlM_keeps {σ α : Type} {f : σ → α → Option σ} {I : σ → Prop}
    (hkeep : ∀ s a t, I s → f s a = some t → I t) (ℓ : List α) {s t : σ} (hs : I s)
    (h : ℓ.foldlM f s = some t) :
  I t
  := by
  induction ℓ generalizing s with
  | nil =>
      obtain rfl := Option.some.inj h
      exact hs
  | cons a ℓ ih =>
      rw [List.foldlM_cons] at h
      obtain ⟨s', hs', h⟩ := Option.bind_eq_some_iff.mp h
      exact ih (hkeep s a s' hs hs') h

theorem check_of_lt {i n : ℕ} (h : i < n) :
  check i n = some ()
  := if_pos h

theorem check_of_not_lt {i n : ℕ} (h : ¬ i < n) :
  check i n = none
  := if_neg h

/-- The maximum packet size of an endpoint can be set if the endpoint is in the arrays. -/
theorem usbSetMaxpacketEp_isSome (dev : Device) (i ii : ℕ) :
  (usbSetMaxpacketEp dev i ii).isSome ↔ i < usbMaxinterfaces ∧ ii < usbMaxendpoints
  := by
  unfold usbSetMaxpacketEp
  by_cases hi : i < usbMaxinterfaces
  case neg =>
    rw [check_of_not_lt hi]
    exact ⟨nofun, fun h => absurd h.1 hi⟩
  case pos =>
    by_cases hii : ii < usbMaxendpoints
    case neg =>
      rw [check_of_lt hi, check_of_not_lt hii]
      exact ⟨nofun, fun h => absurd h.2 hii⟩
    case pos =>
      rw [check_of_lt hi, check_of_lt hii]
      apply iff_of_true _ ⟨hi, hii⟩
      dsimp only [Option.bind_eq_bind, Option.bind_some]
      split_ifs <;> rfl

theorem usbSetMaxpacketEp_config {dev dev' : Device} {i ii : ℕ}
    (h : usbSetMaxpacketEp dev i ii = some dev') :
  dev'.config = dev.config
  := by
  unfold usbSetMaxpacketEp at h
  obtain ⟨_, -, h⟩ := Option.bind_eq_some_iff.mp h
  obtain ⟨_, -, h⟩ := Option.bind_eq_some_iff.mp h
  dsimp only at h
  split_ifs at h
  all_goals
    obtain rfl := Option.some.inj h
    rfl

theorem forall_range {n : ℕ} {P : ℕ → Prop} :
  (∀ i ∈ List.range n, P i) ↔ ∀ i < n, P i
  := by simp only [List.mem_range]

theorem setMaxpacketIf_isSome (dev : Device) (i : ℕ) :
  (setMaxpacketIf dev i).isSome ↔
    i < usbMaxinterfaces ∧ (dev.config.ifDesc i).bNumEndpoints.toNat ≤ usbMaxendpoints
  := by
  unfold setMaxpacketIf
  by_cases hi : i < usbMaxinterfaces
  case neg =>
    rw [check_of_not_lt hi]
    exact ⟨nofun, fun h => absurd h.1 hi⟩
  case pos =>
    rw [check_of_lt hi]
    change ((List.range _).foldlM (fun dev ii => usbSetMaxpacketEp dev i ii) dev).isSome ↔ _
    rw [isSome_foldlM (I := fun _ => True) (P := fun ii => ii < usbMaxendpoints)
      (fun dev ii _ => (usbSetMaxpacketEp_isSome dev i ii).trans (and_iff_right hi))
      (fun _ _ _ _ _ => trivial) _ trivial, forall_range, and_iff_right hi]
    constructor
    · intro h
      by_contra hlt
      exact absurd (h usbMaxendpoints (Nat.lt_of_not_le hlt)) (Nat.lt_irrefl _)
    · intro hle ii hii
      exact Nat.lt_of_lt_of_le hii hle

theorem setMaxpacketIf_config {dev dev' : Device} {i : ℕ} (h : setMaxpacketIf dev i = some dev') :
  dev'.config = dev.config
  := by
  obtain ⟨_, -, h⟩ := Option.bind_eq_some_iff.mp h
  exact foldlM_keeps (I := fun d => d.config = dev.config)
    (fun _ _ _ hs ht => (usbSetMaxpacketEp_config ht).trans hs) _ rfl h

/-- The maximum packet sizes can be set if the counts that the device reports fit. -/
theorem usbSetMaxpacket_isSome (dev : Device) :
  (usbSetMaxpacket dev).isSome ↔ Fits dev.config.bNumInterfaces.toNat
    fun i => (dev.config.ifDesc i).bNumEndpoints.toNat
  := by
  unfold usbSetMaxpacket
  rw [isSome_foldlM (I := fun d => d.config = dev.config)
    (P := fun i => i < usbMaxinterfaces
      ∧ (dev.config.ifDesc i).bNumEndpoints.toNat ≤ usbMaxendpoints)
    (fun d i hd => by rw [setMaxpacketIf_isSome, hd])
    (fun _ _ _ hs ht => (setMaxpacketIf_config ht).trans hs) _ rfl, forall_range]
  constructor
  · intro h
    constructor
    · by_contra hlt
      exact absurd (h usbMaxinterfaces (Nat.lt_of_not_le hlt)).1 (Nat.lt_irrefl _)
    · intro i hi
      exact (h i hi).2
  · rintro ⟨hle, h⟩ i hi
    exact ⟨Nat.lt_of_lt_of_le hi hle, h i hi⟩

/-! ### One descriptor -/

theorem setIf_self (c : Config) (i : ℕ) (f : Interface) :
  (c.setIf i f).ifDesc i = f
  := Function.update_self ..

theorem setIf_of_ne (c : Config) {i k : ℕ} (f : Interface) (h : k ≠ i) :
  (c.setIf i f).ifDesc k = c.ifDesc k
  := Function.update_of_ne h ..

/-- The descriptors stay when an interface is changed and keeps its descriptor. -/
theorem setIf_desc (c : Config) {i : ℕ} {f : Interface} (h : f.desc = (c.ifDesc i).desc) (k : ℕ) :
  ((c.setIf i f).ifDesc k).desc = (c.ifDesc k).desc
  := by
  by_cases hk : k = i
  case pos => rw [hk, setIf_self, h]
  case neg => rw [setIf_of_ne c f hk]

section Walk

variable {m : ℕ → Byte} {total : ℕ} {w : Walk}

theorem get_of_lt {i : ℕ} (h : i < total) :
  get m total i = some (m i)
  := if_pos h

theorem getBytes_of_le {i n : ℕ} (h : i + n ≤ total) :
  getBytes m total i n = some (Memory.read m i n)
  := if_pos h

/-- How many endpoints the current interface has. -/
def Walk.cur (w : Walk) : ℕ := w.ifno.elim 0 fun k => (w.config.ifDesc k).noOfEp

/-- The indices are inside the arrays, and the last interface is the current one. -/
structure Walk.Valid (w : Walk) : Prop where
  ifno : ∀ k, w.ifno = some k ↔ w.config.noOfIf = k + 1
  noOfIf : w.config.noOfIf ≤ usbMaxinterfaces
  epno : ∀ e, w.epno = some e → e < usbMaxendpoints
  cur : w.cur ≤ usbMaxendpoints

/-- A walk that is at the same interface, with the same counts. -/
structure Walk.Same (w w' : Walk) : Prop where
  ifno : w'.ifno = w.ifno
  currIfNum : w'.currIfNum = w.currIfNum
  desc : w'.config.desc = w.config.desc
  noOfIf : w'.config.noOfIf = w.config.noOfIf
  epno : w'.epno = w.epno
  noOfEp : ∀ k, (w'.config.ifDesc k).noOfEp = (w.config.ifDesc k).noOfEp
  ifDesc : ∀ k, (w'.config.ifDesc k).desc = (w.config.ifDesc k).desc

theorem Walk.Same.refl (w : Walk) :
  w.Same w
  := ⟨rfl, rfl, rfl, rfl, rfl, fun _ => rfl, fun _ => rfl⟩

theorem Walk.Same.cur {w' : Walk} (h : w.Same w') :
  w'.cur = w.cur
  := by
  unfold Walk.cur
  rw [h.ifno]
  cases w.ifno with
  | none => rfl
  | some k => exact h.noOfEp k

theorem Walk.Same.valid {w' : Walk} (h : w.Same w') (hw : w.Valid) :
  w'.Valid
  := by
  constructor
  · rw [h.ifno, h.noOfIf]
    exact hw.ifno
  · rw [h.noOfIf]
    exact hw.noOfIf
  · rw [h.epno]
    exact hw.epno
  · rw [h.cur]
    exact hw.cur

section Describe

variable (hindex : w.index + 1 < total)

include hindex in
theorem describe_eq :
  describe m total w =
    if m (w.index + 1) = usbDtInterface then parseInterface m total w
    else if m (w.index + 1) = usbDtEndpoint then parseEndpoint m total w
    else if m (w.index + 1) = usbDtSsEndpointComp then parseEpComp m total w
    else some (true, w)
  := by
  unfold describe
  rw [get_of_lt hindex]
  rfl

include hindex in
theorem parseInterface_eq :
  parseInterface m total w =
    if (m w.index).toNat ≠ usbDtInterfaceSize then some (true, w)
    else if w.index + usbDtInterfaceSize > total then some (true, w)
    else if w.currIfNum ≠ some (m (w.index + 2)) then
      if w.config.noOfIf ≥ usbMaxinterfaces then
        some (false, { w with ifno := some w.config.noOfIf })
      else some (true, { w with
        ifno := some w.config.noOfIf
        currIfNum := some (m (w.index + 2))
        config := { w.config.setIf w.config.noOfIf { w.config.ifDesc w.config.noOfIf with
          desc := Memory.read m w.index usbDtInterfaceSize
          noOfEp := 0
          numAltsetting := 1 } with noOfIf := w.config.noOfIf + 1 } })
    else
      w.ifno.elim (some (true, w)) fun ifno => (check ifno usbMaxinterfaces).map fun _ =>
        (true, { w with
          config := w.config.setIf ifno { w.config.ifDesc ifno with
            numAltsetting := ((w.config.ifDesc ifno).numAltsetting + 1) % 256 } })
  := by
  unfold parseInterface
  rw [get_of_lt (by omega)]
  dsimp only [Option.bind_eq_bind, Option.bind_some]
  apply ite_congr rfl (fun _ => rfl)
  intro _
  apply ite_congr rfl (fun _ => rfl)
  intro hfits
  have hsize : usbDtInterfaceSize = 9 := rfl
  rw [get_of_lt (by omega), getBytes_of_le (by omega)]
  dsimp only [Option.bind_some]
  apply ite_congr rfl
  · intro _
    apply ite_congr rfl (fun _ => rfl)
    intro hroom
    rw [check_of_lt (Nat.lt_of_not_le hroom)]
    rfl
  · intro _
    cases w.ifno with
    | none => rfl
    | some ifno =>
        change (check ifno usbMaxinterfaces).bind _ = (check ifno usbMaxinterfaces).map _
        cases check ifno usbMaxinterfaces <;> rfl

include hindex in
theorem parseEndpoint_eq (hw : w.Valid) :
  parseEndpoint m total w =
    if (m w.index).toNat ≠ usbDtEndpointSize then some (true, w)
    else if w.index + usbDtEndpointSize > total then some (true, w)
    else
      w.ifno.elim (some (true, w)) fun ifno =>
        if w.cur < usbMaxendpoints then some (true, { w with
          epno := some w.cur
          config := w.config.setIf ifno { w.config.ifDesc ifno with
            noOfEp := w.cur + 1
            epDesc := Function.update (w.config.ifDesc ifno).epDesc w.cur
              (swapMaxPacketSize (Memory.read m w.index usbDtEndpointSize)) } })
        else none
  := by
  have hmax : usbMaxendpoints = 16 := rfl
  have hmax' : usbMaxinterfaces = 8 := rfl
  unfold parseEndpoint
  rw [get_of_lt (by omega)]
  dsimp only [Option.bind_eq_bind, Option.bind_some]
  apply ite_congr rfl (fun _ => rfl)
  intro _
  apply ite_congr rfl (fun _ => rfl)
  intro hfits
  rw [getBytes_of_le (Nat.le_of_not_lt hfits)]
  cases hifno : w.ifno with
  | none => rfl
  | some ifno =>
      have hnum := (hw.ifno ifno).mp hifno
      have hle := hw.noOfIf
      have hlt : ifno < usbMaxinterfaces := by omega
      have hcur : w.cur = (w.config.ifDesc ifno).noOfEp := by
        unfold Walk.cur
        rw [hifno]
        rfl
      have hcur' := hw.cur
      change ((check ifno usbMaxinterfaces).bind fun _ => _) = if _ then _ else _
      rw [check_of_lt hlt, Option.bind_some, ← hcur, if_neg (Nat.not_lt.mpr hcur')]
      by_cases hroom : w.cur < usbMaxendpoints
      case pos =>
        have hmod : (w.cur + 1) % 256 = w.cur + 1 := by omega
        rw [check_of_lt hroom, if_pos hroom, hmod]
        rfl
      case neg =>
        rw [check_of_not_lt hroom, if_neg hroom]
        rfl

include hindex in
/-- A new interface is entered if there is a place for it. -/
theorem describe_new (hw : w.Valid) (h : IsNew m total w.currIfNum w.index)
    (hroom : w.config.noOfIf < usbMaxinterfaces) :
  ∃ w', describe m total w = some (true, w') ∧ w'.Valid ∧ w'.cur = 0
    ∧ w'.ifno = some w.config.noOfIf ∧ w'.currIfNum = some (m (w.index + 2))
    ∧ w'.config.noOfIf = w.config.noOfIf + 1 ∧ w'.config.desc = w.config.desc
    ∧ (w'.config.ifDesc w.config.noOfIf).bNumEndpoints = m (w.index + 4)
    ∧ ∀ k, k ≠ w.config.noOfIf → (w'.config.ifDesc k).desc = (w.config.ifDesc k).desc
  := by
  obtain ⟨⟨htype, hlength, hfits⟩, hcurr⟩ := h
  rw [describe_eq hindex, if_pos htype, parseInterface_eq hindex, if_neg (not_not.mpr hlength),
    if_neg (Nat.not_lt.mpr hfits), if_pos hcurr, if_neg (Nat.not_le.mpr hroom)]
  generalize hf : { w.config.ifDesc w.config.noOfIf with
    desc := Memory.read m w.index usbDtInterfaceSize
    noOfEp := 0
    numAltsetting := 1 } = f
  have hself := setIf_self w.config w.config.noOfIf f
  have hcur : ((w.config.setIf w.config.noOfIf f).ifDesc w.config.noOfIf).noOfEp = 0 := by
    rw [hself, ← hf]
  refine ⟨_, rfl, ⟨?_, hroom, hw.epno, ?_⟩, hcur, rfl, rfl, rfl, rfl, ?_, ?_⟩
  · intro k
    change some w.config.noOfIf = some k ↔ w.config.noOfIf + 1 = k + 1
    rw [Option.some_inj, Nat.add_right_cancel_iff]
  · exact hcur.trans_le (Nat.zero_le _)
  · change ((w.config.setIf w.config.noOfIf f).ifDesc w.config.noOfIf).bNumEndpoints = _
    rw [hself, ← hf]
    rfl
  · intro k hk
    exact congrArg Interface.desc (setIf_of_ne w.config f hk)

include hindex in
/-- The walk ends when there is no place. -/
theorem describe_full (h : IsNew m total w.currIfNum w.index)
    (hfull : ¬ w.config.noOfIf < usbMaxinterfaces) :
  ∃ w', describe m total w = some (false, w') ∧ w'.config = w.config
  := by
  obtain ⟨⟨htype, hlength, hfits⟩, hcurr⟩ := h
  rw [describe_eq hindex, if_pos htype, parseInterface_eq hindex, if_neg (not_not.mpr hlength),
    if_neg (Nat.not_lt.mpr hfits), if_pos hcurr, if_pos (Nat.le_of_not_lt hfull)]
  exact ⟨_, rfl, rfl⟩

/-- There are two kinds of descriptors. -/
theorem endpoint_ne_interface :
  usbDtEndpoint ≠ usbDtInterface
  := by decide

include hindex in
/-- An endpoint is entered behind the last one of the interface. -/
theorem describe_endpoint (hw : w.Valid) (h : IsEndpoint m total w.index) {k : ℕ}
    (hk : w.ifno = some k) (hroom : w.cur < usbMaxendpoints) :
  ∃ w', describe m total w = some (true, w') ∧ w'.Valid ∧ w'.cur = w.cur + 1
    ∧ w'.ifno = some k ∧ w'.currIfNum = w.currIfNum
    ∧ w'.config.noOfIf = w.config.noOfIf ∧ w'.config.desc = w.config.desc
    ∧ ∀ j, (w'.config.ifDesc j).desc = (w.config.ifDesc j).desc
  := by
  obtain ⟨htype, hlength, hfits⟩ := h
  have hnot : m (w.index + 1) ≠ usbDtInterface := by
    rw [htype]
    exact endpoint_ne_interface
  rw [describe_eq hindex, if_neg hnot, if_pos htype, parseEndpoint_eq hindex hw,
    if_neg (not_not.mpr hlength), if_neg (Nat.not_lt.mpr hfits), hk, Option.elim_some,
    if_pos hroom]
  generalize hf : { w.config.ifDesc k with
    noOfEp := w.cur + 1
    epDesc := Function.update (w.config.ifDesc k).epDesc w.cur
      (swapMaxPacketSize (Memory.read m w.index usbDtEndpointSize)) } = f
  have hcur : ((w.config.setIf k f).ifDesc k).noOfEp = w.cur + 1 := by
    rw [setIf_self, ← hf]
  have hifno := hw.ifno
  rw [hk] at hifno
  refine ⟨_, rfl, ⟨hifno, hw.noOfIf, ?_, ?_⟩, hcur, rfl, rfl, rfl, rfl, ?_⟩
  · intro e he
    obtain rfl := Option.some.inj he
    exact hroom
  · exact hcur.trans_le hroom
  · apply setIf_desc
    rw [← hf]

include hindex in
/-- There is no result for an endpoint behind the end of the array. -/
theorem describe_endpoint_full (hw : w.Valid) (h : IsEndpoint m total w.index) {k : ℕ}
    (hk : w.ifno = some k) (hfull : ¬ w.cur < usbMaxendpoints) :
  describe m total w = none
  := by
  obtain ⟨htype, hlength, hfits⟩ := h
  have hnot : m (w.index + 1) ≠ usbDtInterface := by
    rw [htype]
    exact endpoint_ne_interface
  rw [describe_eq hindex, if_neg hnot, if_pos htype, parseEndpoint_eq hindex hw,
    if_neg (not_not.mpr hlength), if_neg (Nat.not_lt.mpr hfits), hk, Option.elim_some,
    if_neg hfull]

theorem Walk.Valid.ifno_lt (hw : w.Valid) {k : ℕ} (hk : w.ifno = some k) :
  k < usbMaxinterfaces
  := Nat.lt_of_lt_of_le (Nat.lt_of_succ_le ((hw.ifno k).mp hk).ge) hw.noOfIf

/-- The interface of a walk is changed, but neither its descriptor nor the number of its
endpoints. -/
theorem same_setIf {k : ℕ} {f : Interface} (hep : f.noOfEp = (w.config.ifDesc k).noOfEp)
    (hdesc : f.desc = (w.config.ifDesc k).desc) :
  w.Same { w with config := w.config.setIf k f }
  := by
  refine ⟨rfl, rfl, rfl, rfl, rfl, ?_, setIf_desc w.config hdesc⟩
  intro j
  change ((w.config.setIf k f).ifDesc j).noOfEp = _
  by_cases hj : j = k
  case pos => rw [hj, setIf_self, hep]
  case neg => rw [setIf_of_ne w.config f hj]

include hindex in
theorem parseInterface_other (hw : w.Valid) (htype : m (w.index + 1) = usbDtInterface)
    (hnew : ¬ IsNew m total w.currIfNum w.index) :
  ∃ w', parseInterface m total w = some (true, w') ∧ w.Same w'
  := by
  rw [parseInterface_eq hindex]
  by_cases hlength : (m w.index).toNat ≠ usbDtInterfaceSize
  case pos =>
    rw [if_pos hlength]
    exact ⟨w, rfl, Walk.Same.refl w⟩
  case neg =>
    rw [if_neg hlength]
    by_cases hfits : w.index + usbDtInterfaceSize > total
    case pos =>
      rw [if_pos hfits]
      exact ⟨w, rfl, Walk.Same.refl w⟩
    case neg =>
      have hcurr : ¬ w.currIfNum ≠ some (m (w.index + 2)) := fun hcurr =>
        hnew ⟨⟨htype, not_not.mp hlength, Nat.le_of_not_lt hfits⟩, hcurr⟩
      rw [if_neg hfits, if_neg hcurr]
      cases hk : w.ifno with
      | none => exact ⟨w, rfl, Walk.Same.refl w⟩
      | some k =>
          rw [Option.elim_some, check_of_lt (hw.ifno_lt hk), ← hk]
          refine ⟨_, rfl, ?_⟩
          apply same_setIf
          · rfl
          · rfl

include hindex in
theorem parseEndpoint_other (hw : w.Valid) (htype : m (w.index + 1) = usbDtEndpoint)
    (hendpoint : IsEndpoint m total w.index → w.ifno = none) :
  ∃ w', parseEndpoint m total w = some (true, w') ∧ w.Same w'
  := by
  rw [parseEndpoint_eq hindex hw]
  by_cases hlength : (m w.index).toNat ≠ usbDtEndpointSize
  case pos =>
    rw [if_pos hlength]
    exact ⟨w, rfl, Walk.Same.refl w⟩
  case neg =>
    rw [if_neg hlength]
    by_cases hfits : w.index + usbDtEndpointSize > total
    case pos =>
      rw [if_pos hfits]
      exact ⟨w, rfl, Walk.Same.refl w⟩
    case neg =>
      rw [if_neg hfits, hendpoint ⟨htype, not_not.mp hlength, Nat.le_of_not_lt hfits⟩]
      exact ⟨w, rfl, Walk.Same.refl w⟩

include hindex in
theorem parseEpComp_other (hw : w.Valid) :
  ∃ w', parseEpComp m total w = some (true, w') ∧ w.Same w'
  := by
  unfold parseEpComp
  rw [get_of_lt (by omega)]
  dsimp only [Option.bind_eq_bind, Option.bind_some]
  by_cases hlength : (m w.index).toNat ≠ usbDtSsEpCompSize
  case pos =>
    rw [if_pos hlength]
    exact ⟨w, rfl, Walk.Same.refl w⟩
  case neg =>
    rw [if_neg hlength]
    by_cases hfits : w.index + usbDtSsEpCompSize > total
    case pos =>
      rw [if_pos hfits]
      exact ⟨w, rfl, Walk.Same.refl w⟩
    case neg =>
      rw [if_neg hfits, getBytes_of_le (Nat.le_of_not_lt hfits)]
      cases hk : w.ifno with
      | none => exact ⟨w, rfl, Walk.Same.refl w⟩
      | some k =>
          cases he : w.epno with
          | none => exact ⟨w, rfl, Walk.Same.refl w⟩
          | some e =>
              rw [Option.elim_some, Option.elim_some, check_of_lt (hw.ifno_lt hk),
                check_of_lt (hw.epno e he), ← hk, ← he]
              refine ⟨_, rfl, ?_⟩
              apply same_setIf
              · rfl
              · rfl

include hindex in
/-- Other descriptors do not change the counts. -/
theorem describe_other (hw : w.Valid) (hnew : ¬ IsNew m total w.currIfNum w.index)
    (hendpoint : IsEndpoint m total w.index → w.ifno = none) :
  ∃ w', describe m total w = some (true, w') ∧ w.Same w'
  := by
  rw [describe_eq hindex]
  split
  case isTrue htype => exact parseInterface_other hindex hw htype hnew
  case isFalse =>
    split
    case isTrue htype => exact parseEndpoint_other hindex hw htype hendpoint
    case isFalse =>
      split
      case isTrue => exact parseEpComp_other hindex hw
      case isFalse => exact ⟨w, rfl, Walk.Same.refl w⟩

end Describe

/-! ### The walk -/

variable (m total) in
/-- The groups of the descriptors that are left. -/
def Walk.rest (w : Walk) : ℕ × List (ℕ × ℕ) := groups m total w.currIfNum (offsets m total w.index)

variable (m total) in
/-- The interfaces that are left and have a place. -/
def Walk.left (w : Walk) : List (ℕ × ℕ) :=
  (w.rest m total).2.take (usbMaxinterfaces - w.config.noOfIf)

variable (m total) in
/-- The endpoints that are left have their places. -/
def Walk.Fine (w : Walk) : Prop :=
  (w.ifno ≠ none → w.cur + (w.rest m total).1 ≤ usbMaxendpoints)
    ∧ ∀ f ∈ w.left m total, f.2 ≤ usbMaxendpoints

/-- The counts of an array whose interfaces from `start` on are replaced by some in the buffer. -/
def numFrom (m : ℕ → Byte) (c : Config) (start : ℕ) (fs : List (ℕ × ℕ)) (i : ℕ) : ℕ :=
  if i < start then (c.ifDesc i).bNumEndpoints.toNat else
    fs[i - start]?.elim (c.ifDesc i).bNumEndpoints.toNat fun f => (m (f.1 + 4)).toNat

variable (m total) in
/-- What the loop does from here on. -/
structure Walk.Spec (w : Walk) : Prop where
  isSome : (parseLoop m total w).isSome ↔ w.Fine m total
  desc : ∀ w', parseLoop m total w = some w' → w'.config.desc = w.config.desc
  count : ∀ w', parseLoop m total w = some w' → ∀ i, (w'.config.ifDesc i).bNumEndpoints.toNat =
    numFrom m w.config w.config.noOfIf (w.left m total) i

theorem parseLoop_of_more (h : w.index + 1 < total ∧ (m w.index).toNat ≠ 0) :
  parseLoop m total w = (describe m total w).bind fun r =>
    if r.1 then parseLoop m total { r.2 with index := w.index + (m w.index).toNat }
    else some r.2
  := by
  rw [parseLoop]
  exact dif_pos h

theorem parseLoop_of_end (h : ¬ (w.index + 1 < total ∧ (m w.index).toNat ≠ 0)) :
  parseLoop m total w = some w
  := by
  rw [parseLoop]
  exact dif_neg h

theorem offsets_of_more {i : ℕ} (h : i + 1 < total ∧ (m i).toNat ≠ 0) :
  offsets m total i = i :: offsets m total (i + (m i).toNat)
  := by
  rw [offsets]
  exact dif_pos h

theorem offsets_of_end {i : ℕ} (h : ¬ (i + 1 < total ∧ (m i).toNat ≠ 0)) :
  offsets m total i = []
  := by
  rw [offsets]
  exact dif_neg h

theorem numFrom_nil (c : Config) (start i : ℕ) :
  numFrom m c start [] i = (c.ifDesc i).bNumEndpoints.toNat
  := ite_self _

/-- The walk ends here. -/
theorem spec_of_end {c : Config} (hresult : ∃ w', parseLoop m total w = some w' ∧ w'.config = c)
    (hc : c = w.config) (hw : w.Valid) (hzero : (w.rest m total).1 = 0)
    (hnil : w.left m total = []) :
  w.Spec m total
  := by
  obtain ⟨w', hw', rfl⟩ := hresult
  constructor
  · rw [hw']
    apply iff_of_true rfl
    constructor
    · intro _
      rw [hzero]
      exact hw.cur
    · rw [hnil]
      intro f hf
      cases hf
  · intro w'' h
    obtain rfl := Option.some.inj (hw'.symm.trans h)
    rw [hc]
  · intro w'' h i
    obtain rfl := Option.some.inj (hw'.symm.trans h)
    rw [hnil, numFrom_nil, hc]

/-- A descriptor is handled, and the walk goes on. -/
theorem spec_of_next {w' : Walk} (hresult : parseLoop m total w = parseLoop m total w')
    (hspec : w'.Spec m total) (hfine : w'.Fine m total ↔ w.Fine m total)
    (hdesc : w'.config.desc = w.config.desc)
    (hcount : ∀ i, numFrom m w'.config w'.config.noOfIf (w'.left m total) i =
      numFrom m w.config w.config.noOfIf (w.left m total) i) :
  w.Spec m total
  := by
  constructor
  · rw [hresult, hspec.isSome, hfine]
  · intro w'' h
    rw [hresult] at h
    rw [hspec.desc w'' h, hdesc]
  · intro w'' h i
    rw [hresult] at h
    rw [hspec.count w'' h, hcount]

theorem bNumEndpoints_congr {f g : Interface} (h : f.desc = g.desc) :
  f.bNumEndpoints = g.bNumEndpoints
  := by
  unfold Interface.bNumEndpoints
  rw [h]

theorem numFrom_congr {c c' : Config} (h : ∀ k, (c'.ifDesc k).desc = (c.ifDesc k).desc)
    (start : ℕ) (fs : List (ℕ × ℕ)) (i : ℕ) :
  numFrom m c' start fs i = numFrom m c start fs i
  := by
  unfold numFrom
  rw [bNumEndpoints_congr (h i)]

/-- An interface that is entered is the first one of those that are replaced. -/
theorem numFrom_cons {c c' : Config} {start p e : ℕ}
    (hnew : (c'.ifDesc start).bNumEndpoints = m (p + 4))
    (h : ∀ k, k ≠ start → (c'.ifDesc k).desc = (c.ifDesc k).desc) (fs : List (ℕ × ℕ)) (i : ℕ) :
  numFrom m c' (start + 1) fs i = numFrom m c start ((p, e) :: fs) i
  := by
  unfold numFrom
  obtain hlt | rfl | hgt := Nat.lt_trichotomy i start
  · rw [if_pos (Nat.lt_succ_of_lt hlt), if_pos hlt, bNumEndpoints_congr (h i hlt.ne)]
  · rw [if_pos (Nat.lt_succ_self i), if_neg (Nat.lt_irrefl i), Nat.sub_self, hnew]
    rfl
  · have hsub : i - start = i - (start + 1) + 1 := by omega
    rw [if_neg (by omega), if_neg (by omega), hsub, List.getElem?_cons_succ,
      bNumEndpoints_congr (h i hgt.ne')]

theorem groups_new {curr : Option Byte} {i : ℕ} {is : List ℕ} (h : IsNew m total curr i) :
  groups m total curr (i :: is) = (0, (i, (groups m total (some (m (i + 2))) is).1)
    :: (groups m total (some (m (i + 2))) is).2)
  := if_pos h

theorem groups_other {curr : Option Byte} {i : ℕ} {is : List ℕ} (h : ¬ IsNew m total curr i) :
  groups m total curr (i :: is) =
    (if IsEndpoint m total i then (groups m total curr is).1 + 1 else (groups m total curr is).1,
      (groups m total curr is).2)
  := if_neg h

theorem spec_end (hw : w.Valid) (hend : ¬ (w.index + 1 < total ∧ (m w.index).toNat ≠ 0)) :
  w.Spec m total
  := by
  apply spec_of_end ⟨w, parseLoop_of_end hend, rfl⟩ rfl hw
  · rw [Walk.rest, offsets_of_end hend]
    rfl
  · rw [Walk.left, Walk.rest, offsets_of_end hend]
    exact List.take_nil

section Next

variable (hmore : w.index + 1 < total ∧ (m w.index).toNat ≠ 0) (hw : w.Valid)
  (hnext : ∀ w' : Walk, w'.Valid → w'.index = w.index + (m w.index).toNat → w'.Spec m total)

include hmore in
theorem rest_eq :
  w.rest m total =
    groups m total w.currIfNum (w.index :: offsets m total (w.index + (m w.index).toNat))
  := by rw [Walk.rest, offsets_of_more hmore]

include hmore hw hnext in
theorem spec_new (hnew : IsNew m total w.currIfNum w.index)
    (hroom : w.config.noOfIf < usbMaxinterfaces) :
  w.Spec m total
  := by
  obtain ⟨w', hw', hvalid, hcur, hifno, hcurr, hnoOfIf, hdesc, hnum, hsame⟩ :=
    describe_new hmore.1 hw hnew hroom
  have hloop := parseLoop_of_more hmore
  rw [hw'] at hloop
  have hrest := rest_eq hmore
  rw [groups_new hnew, ← hcurr] at hrest
  have hleft : w.left m total = (w.index, (Walk.rest m total
      { w' with index := w.index + (m w.index).toNat }).1)
        :: Walk.left m total { w' with index := w.index + (m w.index).toNat } := by
    have hsub : usbMaxinterfaces - w.config.noOfIf =
        usbMaxinterfaces - (w.config.noOfIf + 1) + 1 := by omega
    unfold Walk.left
    rw [hrest, hsub, List.take_succ_cons, hnoOfIf]
    rfl
  have hvalid' : Walk.Valid { w' with index := w.index + (m w.index).toNat } :=
    ⟨hvalid.ifno, hvalid.noOfIf, hvalid.epno, hvalid.cur⟩
  apply spec_of_next hloop (hnext _ hvalid' rfl) _ hdesc
  · intro i
    rw [hleft]
    change numFrom m w'.config w'.config.noOfIf _ i = _
    rw [hnoOfIf]
    exact numFrom_cons hnum hsame _ i
  · have hcur' : Walk.cur { w' with index := w.index + (m w.index).toNat } = 0 := hcur
    have hifno' : w'.ifno ≠ none := by
      rw [hifno]
      exact Option.some_ne_none _
    unfold Walk.Fine
    rw [hleft, List.forall_mem_cons, hcur', Nat.zero_add, forall_prop_of_true hifno', hrest,
      Nat.add_zero]
    exact (and_iff_right fun _ => hw.cur).symm

include hmore hw hnext in
theorem spec_endpoint (hnew : ¬ IsNew m total w.currIfNum w.index)
    (hendpoint : IsEndpoint m total w.index) {k : ℕ} (hk : w.ifno = some k) :
  w.Spec m total
  := by
  have hrest := rest_eq hmore
  rw [groups_other hnew, if_pos hendpoint] at hrest
  have hloop := parseLoop_of_more hmore
  have hifno : w.ifno ≠ none := by
    rw [hk]
    exact Option.some_ne_none _
  by_cases hroom : w.cur < usbMaxendpoints
  case pos =>
    obtain ⟨w', hw', hvalid, hcur, hk', hcurr, hnoOfIf, hdesc, hsame⟩ :=
      describe_endpoint hmore.1 hw hendpoint hk hroom
    rw [hw'] at hloop
    have hvalid' : Walk.Valid { w' with index := w.index + (m w.index).toNat } :=
      ⟨hvalid.ifno, hvalid.noOfIf, hvalid.epno, hvalid.cur⟩
    have hleft : Walk.left m total { w' with index := w.index + (m w.index).toNat } =
        w.left m total := by
      unfold Walk.left
      rw [hrest, ← hnoOfIf, ← hcurr]
      rfl
    apply spec_of_next hloop (hnext _ hvalid' rfl) _ hdesc
    · intro i
      rw [hleft]
      change numFrom m w'.config w'.config.noOfIf _ i = _
      rw [hnoOfIf]
      exact numFrom_congr hsame _ _ i
    · have hcur' : Walk.cur { w' with index := w.index + (m w.index).toNat } = w.cur + 1 := hcur
      have hifno' : w'.ifno ≠ none := by
        rw [hk']
        exact Option.some_ne_none _
      unfold Walk.Fine
      rw [hleft, hcur', forall_prop_of_true hifno', forall_prop_of_true hifno, hrest, ← hcurr,
        Nat.add_right_comm, Nat.add_assoc]
      rfl
  case neg =>
    rw [describe_endpoint_full hmore.1 hw hendpoint hk hroom] at hloop
    constructor
    · rw [hloop]
      apply iff_of_false nofun
      rintro ⟨hfine, -⟩
      have hle := hfine hifno
      rw [hrest] at hle
      exact hroom (Nat.lt_of_lt_of_le (by omega) hle)
    · intro w' h
      rw [hloop] at h
      cases h
    · intro w' h
      rw [hloop] at h
      cases h

include hmore hw hnext in
theorem spec_other (hnew : ¬ IsNew m total w.currIfNum w.index)
    (hendpoint : IsEndpoint m total w.index → w.ifno = none) :
  w.Spec m total
  := by
  obtain ⟨w', hw', hsame⟩ := describe_other hmore.1 hw hnew hendpoint
  have hloop := parseLoop_of_more hmore
  rw [hw'] at hloop
  have hvalid := hsame.valid hw
  have hvalid' : Walk.Valid { w' with index := w.index + (m w.index).toNat } :=
    ⟨hvalid.ifno, hvalid.noOfIf, hvalid.epno, hvalid.cur⟩
  have hrest := rest_eq hmore
  rw [groups_other hnew] at hrest
  have hleft : Walk.left m total { w' with index := w.index + (m w.index).toNat } =
      w.left m total := by
    unfold Walk.left
    rw [hrest, ← hsame.noOfIf, ← hsame.currIfNum]
    rfl
  apply spec_of_next hloop (hnext _ hvalid' rfl) _ hsame.desc
  · intro i
    rw [hleft]
    change numFrom m w'.config w'.config.noOfIf _ i = _
    rw [hsame.noOfIf]
    exact numFrom_congr hsame.ifDesc _ _ i
  · have hcur' : Walk.cur { w' with index := w.index + (m w.index).toNat } = w.cur := hsame.cur
    unfold Walk.Fine
    rw [hleft, hcur']
    apply and_congr_left'
    change (w'.ifno ≠ none → _) ↔ _
    rw [hsame.ifno]
    apply forall_congr'
    intro hifno
    rw [hrest, if_neg (fun h => hifno (hendpoint h)), ← hsame.currIfNum]
    rfl

end Next

/-- The loop has a result if the endpoints have their places, by induction on what is left of the
buffer. -/
theorem parseLoop_spec (n : ℕ) {w : Walk} (hn : total - w.index ≤ n) (hw : w.Valid) :
  w.Spec m total
  := by
  induction n generalizing w with
  | zero => exact spec_end hw (by omega)
  | succ n ih =>
      by_cases hmore : w.index + 1 < total ∧ (m w.index).toNat ≠ 0
      case neg => exact spec_end hw hmore
      case pos =>
        have hnext : ∀ w' : Walk, w'.Valid → w'.index = w.index + (m w.index).toNat →
            w'.Spec m total := by
          intro w' hw' hindex
          exact ih (by omega) hw'
        by_cases hnew : IsNew m total w.currIfNum w.index
        case pos =>
          by_cases hroom : w.config.noOfIf < usbMaxinterfaces
          case pos => exact spec_new hmore hw hnext hnew hroom
          case neg =>
            obtain ⟨w', hw', hconfig⟩ := describe_full hmore.1 hnew hroom
            have hloop := parseLoop_of_more hmore
            rw [hw'] at hloop
            apply spec_of_end ⟨w', hloop, hconfig⟩ rfl hw
            · rw [rest_eq hmore, groups_new hnew]
            · rw [Walk.left, Nat.sub_eq_zero_of_le (Nat.le_of_not_lt hroom), List.take_zero]
        case neg =>
          by_cases hendpoint : IsEndpoint m total w.index ∧ w.ifno ≠ none
          case pos =>
            obtain ⟨k, hk⟩ := Option.ne_none_iff_exists'.mp hendpoint.2
            exact spec_endpoint hmore hw hnext hnew hendpoint.1 hk
          case neg =>
            apply spec_other hmore hw hnext hnew
            intro h
            by_contra hifno
            exact hendpoint ⟨h, hifno⟩

end Walk

/-! ### A configuration -/

variable (m : ℕ → Byte) (dev : Device) (cfgno : ℤ)

/-- The configuration that the walk begins with. -/
def withHeader : Config :=
  { dev.config with desc := Memory.read m 0 usbDtConfigSize, noOfIf := 0 }

/-- The walk begins behind the header. -/
def walkStart : Walk := ⟨usbDtConfigSize, none, none, none, withHeader m dev⟩

theorem valid_walkStart :
  (walkStart m dev).Valid
  := by
  constructor
  · intro k
    exact iff_of_false nofun nofun
  · exact Nat.zero_le _
  · rintro e ⟨⟩
  · exact Nat.zero_le _

theorem usbParseConfig_of_header (hheader : m 1 = usbDtConfig ∧ (m 0).toNat = usbDtConfigSize)
    (htotal : usbDtConfigSize ≤ wTotalLength m) :
  usbParseConfig m dev cfgno = (parseLoop m (wTotalLength m) (walkStart m dev)).map fun w =>
    (1, { dev with configno := cfgno, config := w.config })
  := by
  have hsize : usbDtConfigSize = 9 := rfl
  unfold usbParseConfig
  dsimp only
  rw [get_of_lt (by omega), Option.bind_eq_bind, Option.bind_some, if_neg (not_not.mpr hheader.1),
    get_of_lt (by omega), Option.bind_eq_bind, Option.bind_some, if_neg (not_not.mpr hheader.2),
    getBytes_of_le (by omega), hheader.2]
  change (parseLoop m (wTotalLength m) (walkStart m dev)).bind _ = _
  cases parseLoop m (wTotalLength m) (walkStart m dev) <;> rfl

/-- The header is not read behind the end. -/
theorem usbParseConfig_of_short (hheader : m 1 = usbDtConfig ∧ (m 0).toNat = usbDtConfigSize)
    (htotal : ¬ usbDtConfigSize ≤ wTotalLength m) :
  usbParseConfig m dev cfgno = none
  := by
  unfold usbParseConfig
  dsimp only
  by_cases h1 : 1 < wTotalLength m
  case neg =>
    have hget : get m (wTotalLength m) 1 = none := if_neg h1
    rw [hget]
    rfl
  case pos =>
    have hbytes : getBytes m (wTotalLength m) 0 usbDtConfigSize = none :=
      if_neg (by rwa [Nat.zero_add])
    rw [get_of_lt h1, Option.bind_eq_bind, Option.bind_some, if_neg (not_not.mpr hheader.1),
      get_of_lt (by omega), Option.bind_eq_bind, Option.bind_some, if_neg (not_not.mpr hheader.2),
      hbytes]
    rfl

/-- Without the right header the configuration stays as it was. -/
theorem usbParseConfig_of_no_header
    (hheader : ¬ (m 1 = usbDtConfig ∧ (m 0).toNat = usbDtConfigSize)) :
  usbParseConfig m dev cfgno =
    if 2 ≤ wTotalLength m then some (-1, { dev with configno := cfgno }) else none
  := by
  unfold usbParseConfig
  dsimp only
  by_cases h1 : 2 ≤ wTotalLength m
  case neg =>
    have hget : get m (wTotalLength m) 1 = none := if_neg h1
    rw [hget, if_neg h1]
    rfl
  case pos =>
    rw [get_of_lt h1, if_pos h1, Option.bind_eq_bind, Option.bind_some]
    by_cases htype : m 1 = usbDtConfig
    case neg =>
      rw [if_pos htype]
      rfl
    case pos =>
      rw [if_neg (not_not.mpr htype), get_of_lt (by omega), Option.bind_eq_bind, Option.bind_some,
        if_pos (fun hlength => hheader ⟨htype, hlength⟩)]
      rfl

theorem left_walkStart :
  (walkStart m dev).left m (wTotalLength m) = interfaces m
  := rfl

theorem fine_walkStart :
  (walkStart m dev).Fine m (wTotalLength m) ↔ ∀ f ∈ interfaces m, f.2 ≤ usbMaxendpoints
  := by
  unfold Walk.Fine
  rw [left_walkStart]
  exact and_iff_right fun h => absurd rfl h

theorem numFrom_zero (c : Config) (fs : List (ℕ × ℕ)) :
  numFrom m c 0 fs = numEndpoints m c fs
  := by
  funext i
  exact if_neg (Nat.not_lt_zero i)

/-- Parsing a configuration and setting the maximum packet sizes reads the buffer below
`wTotalLength` only and stays inside the arrays, if and only if the header is complete, no interface
has too many endpoints, and the counts that the device reports fit. -/
theorem configure_isSome_iff :
  (configure m dev cfgno).isSome ↔ Safe m dev.config
  := by
  by_cases hheader : m 1 = usbDtConfig ∧ (m 0).toNat = usbDtConfigSize
  case pos =>
    unfold Safe
    rw [if_pos hheader]
    by_cases htotal : usbDtConfigSize ≤ wTotalLength m
    case neg =>
      unfold configure
      rw [usbParseConfig_of_short m dev cfgno hheader htotal]
      exact iff_of_false nofun fun h => htotal h.1
    case pos =>
      have hspec : (walkStart m dev).Spec m (wTotalLength m) :=
        parseLoop_spec _ (Nat.le_refl _) (valid_walkStart m dev)
      have hfine := hspec.isSome.trans (fine_walkStart m dev)
      unfold configure
      rw [usbParseConfig_of_header m dev cfgno hheader htotal, and_iff_right htotal, ← hfine]
      cases hloop : parseLoop m (wTotalLength m) (walkStart m dev) with
      | none => exact iff_of_false nofun fun h => absurd h.1 nofun
      | some w =>
          have hdesc : w.config.bNumInterfaces = m 4 := congrArg (fun d : List Byte => d.getD 4 0)
            (hspec.desc w hloop)
          have hcount : (fun i => (w.config.ifDesc i).bNumEndpoints.toNat) =
              numEndpoints m dev.config (interfaces m) := by
            funext i
            rw [hspec.count w hloop i, left_walkStart]
            exact congrFun (numFrom_zero m _ _) i
          change (usbSetMaxpacket { dev with configno := cfgno, config := w.config }).isSome ↔ _
          rw [usbSetMaxpacket_isSome, and_iff_right (Option.isSome_some)]
          change Fits w.config.bNumInterfaces.toNat
            (fun i => (w.config.ifDesc i).bNumEndpoints.toNat) ↔ _
          rw [hdesc, hcount]
  case neg =>
    unfold Safe configure
    rw [if_neg hheader, usbParseConfig_of_no_header m dev cfgno hheader]
    by_cases htotal : 2 ≤ wTotalLength m
    case neg =>
      rw [if_neg htotal]
      exact iff_of_false nofun fun h => htotal h.1
    case pos =>
      rw [if_pos htotal, and_iff_right htotal]
      exact usbSetMaxpacket_isSome { dev with configno := cfgno }

/-- The arrays before a configuration is parsed. -/
def clearDevice : Device :=
  ⟨fun _ => 0, fun _ => 0, 0, ⟨[], 0, fun _ => ⟨[], 0, 0, fun _ => [], fun _ => []⟩⟩⟩

/-- A header that reports 255 interfaces, and one whose length is 0. -/
theorem configure_outside :
  configure (fun i => [9, 2, 0, 9, 255].getD i 0) clearDevice 0 = none
    ∧ configure (fun i => [9, 2, 0, 0].getD i 0) clearDevice 0 = none
  := by
  constructor
  · unfold configure
    rw [usbParseConfig_of_header _ _ _ (by decide) (by decide), parseLoop_of_end (by decide)]
    rfl
  · unfold configure
    rw [usbParseConfig_of_short _ _ _ (by decide) (by decide)]
    rfl

end UsbConfig
