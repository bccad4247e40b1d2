import UBoot.Lib.Align
import UBoot.Lib.Pieces
import Mathlib.Data.Nat.Bitwise

/-!
# EHCI transfers

`ehci_submit_async` of `drivers/usb/host/ehci-hcd.c` cuts a transfer into queue element transfer
descriptors (qTDs).  A qTD has five page pointers, only the first of which may point into a page,
and no packet may be cut in two.

The array of descriptors is allocated before the transfer is cut, for an estimate of their number.
The invariant on which the estimate rests concerns the offset in the page at which a qTD begins: if
the buffer is aligned to `PKT_ALIGN`, every qTD but the first one begins at a page
(`length_dataTds_le`).
-/

namespace Ehci

open Pieces

/-- `EHCI_PAGE_SIZE`. -/
def pageSize : ℕ := 4096

/-- `QT_BUFFER_CNT`. -/
def bufferCnt : ℕ := 5

/-- `PKT_ALIGN`. -/
def pktAlign : ℕ := 512

/-! ### The tokens -/

/-- `QT_TOKEN_DT`, the data toggle. -/
def tokenDt (x : ℕ) : ℕ := (x &&& 0x1) <<< 31

/-- `QT_TOKEN_GET_DT`. -/
def tokenGetDt (x : ℕ) : ℕ := x >>> 31 &&& 0x1

/-- `QT_TOKEN_TOTALBYTES`. -/
def tokenTotalbytes (x : ℕ) : ℕ := (x &&& 0x7fff) <<< 16

/-- `QT_TOKEN_GET_TOTALBYTES`. -/
def tokenGetTotalbytes (x : ℕ) : ℕ := x >>> 16 &&& 0x7fff

/-- `QT_TOKEN_IOC`. -/
def tokenIoc (x : ℕ) : ℕ := (x &&& 0x1) <<< 15

/-- `QT_TOKEN_CPAGE`. -/
def tokenCpage (x : ℕ) : ℕ := (x &&& 0x7) <<< 12

/-- `QT_TOKEN_CERR`. -/
def tokenCerr (x : ℕ) : ℕ := (x &&& 0x3) <<< 10

/-- `QT_TOKEN_PID`. -/
def tokenPid (x : ℕ) : ℕ := (x &&& 0x3) <<< 8

/-- `QT_TOKEN_STATUS`. -/
def tokenStatus (x : ℕ) : ℕ := (x &&& 0xff) <<< 0

/-- `QT_TOKEN_PID_OUT`. -/
def pidOut : ℕ := 0x0

/-- `QT_TOKEN_PID_IN`. -/
def pidIn : ℕ := 0x1

/-- `QT_TOKEN_PID_SETUP`. -/
def pidSetup : ℕ := 0x2

/-- `QT_TOKEN_STATUS_ACTIVE`. -/
def statusActive : ℕ := 0x80

/-- The token of an active qTD. -/
def token (dt totalbytes ioc pid : ℕ) : ℕ :=
  tokenDt dt ||| tokenTotalbytes totalbytes ||| tokenIoc ioc ||| tokenCpage 0 ||| tokenCerr 3
    ||| tokenPid pid ||| tokenStatus statusActive

/-- The toggle and the number of bytes are above the rest of the token. -/
theorem token_eq (dt totalbytes ioc pid : ℕ) :
  ∃ rest < 2 ^ 16,
    token dt totalbytes ioc pid = dt % 2 * 2 ^ 31 + (totalbytes % 2 ^ 15 * 2 ^ 16 + rest)
  := by
  have hmask (x k n : ℕ) (h : k + n ≤ 16) : (x &&& (2 ^ k - 1)) <<< n < 2 ^ 16 := by
    rw [Nat.and_two_pow_sub_one_eq_mod, Nat.shiftLeft_eq]
    calc x % 2 ^ k * 2 ^ n < 2 ^ k * 2 ^ n :=
          Nat.mul_lt_mul_of_pos_right (Nat.mod_lt _ (Nat.two_pow_pos k)) (Nat.two_pow_pos n)
      _ = 2 ^ (k + n) := (pow_add 2 k n).symm
      _ ≤ 2 ^ 16 := Nat.pow_le_pow_right (by decide) h
  generalize hrest : tokenIoc ioc ||| (tokenCpage 0 ||| (tokenCerr 3
    ||| (tokenPid pid ||| tokenStatus statusActive))) = rest
  have hlt : rest < 2 ^ 16 := by
    rw [← hrest]
    apply Nat.or_lt_two_pow (hmask ioc 1 15 (by decide))
    apply Nat.or_lt_two_pow (hmask 0 3 12 (by decide))
    apply Nat.or_lt_two_pow (hmask 3 2 10 (by decide))
    apply Nat.or_lt_two_pow (hmask pid 2 8 (by decide))
    apply hmask statusActive 8 0 (by decide)
  have hbytes : tokenTotalbytes totalbytes = (totalbytes % 2 ^ 15) <<< 16 := by
    rw [← Nat.and_two_pow_sub_one_eq_mod]
    rfl
  have hdt : tokenDt dt = (dt % 2) <<< 31 := by
    rw [← pow_one 2, ← Nat.and_two_pow_sub_one_eq_mod]
    rfl
  use rest, hlt
  simp only [token, Nat.or_assoc, hrest, hbytes, hdt]
  have hlow : totalbytes % 2 ^ 15 * 2 ^ 16 + rest < 2 ^ 31 := by omega
  rw [← Nat.shiftLeft_add_eq_or_of_lt hlt, Nat.shiftLeft_eq (totalbytes % 2 ^ 15),
    ← Nat.shiftLeft_add_eq_or_of_lt hlow, Nat.shiftLeft_eq]

@[simp]
theorem tokenGetDt_token (dt totalbytes ioc pid : ℕ) :
  tokenGetDt (token dt totalbytes ioc pid) = dt % 2
  := by
  obtain ⟨rest, hrest, htoken⟩ := token_eq dt totalbytes ioc pid
  rw [tokenGetDt, show 0x1 = 2 ^ 1 - 1 by rfl, Nat.and_two_pow_sub_one_eq_mod,
    Nat.shiftRight_eq_div_pow, htoken]
  omega

theorem tokenGetTotalbytes_token (dt ioc pid : ℕ) {totalbytes : ℕ} (h : totalbytes < 2 ^ 15) :
  tokenGetTotalbytes (token dt totalbytes ioc pid) = totalbytes
  := by
  obtain ⟨rest, hrest, htoken⟩ := token_eq dt totalbytes ioc pid
  rw [tokenGetTotalbytes, show 0x7fff = 2 ^ 15 - 1 by rfl, Nat.and_two_pow_sub_one_eq_mod,
    Nat.shiftRight_eq_div_pow, htoken]
  omega

/-! ### The page pointers -/

/-- `struct qTD`: the token, and the page pointers that are set. -/
structure QTD where
  token : ℕ
  buffer : List Word
  deriving DecidableEq

/-- The bytes that a qTD transfers. -/
def QTD.bytes (q : QTD) : ℕ := tokenGetTotalbytes q.token

/-- The data toggle of a qTD. -/
def QTD.dt (q : QTD) : ℕ := tokenGetDt q.token

/-- The loop of `ehci_td_buffer`, with `left` page pointers left. -/
def tdBufferLoop : ℕ → Word → ℕ → Option (List Word)
  | 0, _, _ => none
  | left + 1, addr, sz =>
    let next := (addr + 4096) &&& ~~~(4096 - 1)
    let delta := (next - addr).toNat
    if delta ≥ sz then some [addr]
    else (tdBufferLoop left next (sz - delta)).map (addr :: ·)

/-- `ehci_td_buffer`. -/
def tdBuffer (buf : Word) (sz : ℕ) : Option (List Word) := tdBufferLoop bufferCnt buf sz

/-- Where the controller finds byte `j`: the first pointer says where in its page the first byte
is. -/
def byteAddress (pages : List Word) (j : ℕ) : ℕ :=
  let offset := (pages.headD 0).toNat % pageSize
  (pages.getD ((offset + j) / pageSize) 0).toNat / pageSize * pageSize + (offset + j) % pageSize

/-- The page pointers are for the bytes from `addr` to `addr + sz`: there are as many as the range
has pages, but one for an empty range. -/
structure Covers (pages : List Word) (addr sz : ℕ) : Prop where
  head : (pages.headD 0).toNat = addr
  length : pages.length = (addr % pageSize + sz - 1) / pageSize + 1
  bytes : ∀ j < sz, byteAddress pages j = addr + j

/-- Page pointers for a range are enough if it ends in one of the next pages. -/
theorem exists_tdBufferLoop {left : ℕ} {addr : Word} {sz : ℕ} (hleft : 0 < left)
    (hfit : addr.toNat % pageSize + sz ≤ left * pageSize) (hwrap : addr.toNat + sz ≤ 2 ^ 32) :
  ∃ pages, tdBufferLoop left addr sz = some pages ∧ Covers pages addr.toNat sz
  := by
  induction left generalizing addr sz with
  | zero => cases hleft
  | succ left ih =>
    have hlt := addr.isLt
    have hnext : ((addr + 4096) &&& ~~~(4096 - 1)).toNat
        = (addr.toNat + 4096) % 2 ^ 32 / 4096 * 4096 := by
      have h := Align.toNat_and_not (by decide : 12 < 32) (addr + 4096)
      rw [BitVec.toNat_add] at h
      exact h
    have hdelta : ((addr + 4096 &&& ~~~(4096 - 1)) - addr).toNat = 4096 - addr.toNat % 4096 := by
      rw [BitVec.toNat_sub, hnext]
      omega
    rw [tdBufferLoop]
    simp only [hdelta]
    simp only [pageSize] at hfit
    split
    case isTrue hle =>
      refine ⟨_, rfl, rfl, ?_, ?_⟩
      · simp only [List.length_singleton, pageSize]
        omega
      · intro j hj
        have hzero : (addr.toNat % 4096 + j) / 4096 = 0 := by omega
        simp only [byteAddress, List.headD_cons, pageSize, hzero, List.getD_cons_zero]
        omega
    case isFalse hlt' =>
      generalize hn : (addr + 4096) &&& ~~~(4096 - 1) = next at hnext
      have hpage : next.toNat = (addr.toNat / 4096 + 1) * 4096 := by
        rw [hnext]
        omega
      have hfit' : next.toNat % pageSize + (sz - (4096 - addr.toNat % 4096))
          ≤ left * pageSize := by
        simp only [pageSize]
        omega
      obtain ⟨pages, hpages, hcovers⟩ := ih (by omega) hfit' (by omega)
      refine ⟨addr :: pages, by rw [hpages, Option.map_some], rfl, ?_, ?_⟩
      · rw [List.length_cons, hcovers.length]
        simp only [pageSize]
        omega
      · intro j hj
        simp only [byteAddress, List.headD_cons, pageSize]
        by_cases hj' : j < 4096 - addr.toNat % 4096
        · have hzero : (addr.toNat % 4096 + j) / 4096 = 0 := by omega
          rw [hzero, List.getD_cons_zero]
          omega
        · have hbytes := hcovers.bytes (j - (4096 - addr.toNat % 4096)) (by omega)
          simp only [byteAddress, hcovers.head, pageSize] at hbytes
          have hindex : (addr.toNat % 4096 + j) / 4096
              = (next.toNat % 4096 + (j - (4096 - addr.toNat % 4096))) / 4096 + 1 := by
            omega
          rw [hindex, List.getD_cons_succ]
          omega

/-! ### The descriptors -/

/-- What is read of the device and the pipe. -/
structure Pipe where
  /-- `dev->toggle[usb_pipeout(pipe)]` -/
  toggles : ℕ
  /-- `usb_pipeendpoint(pipe)` -/
  endpoint : ℕ
  maxpacket : ℕ
  /-- `usb_pipein(pipe)` -/
  pipein : Bool

/-- `usb_gettoggle`. -/
def Pipe.gettoggle (p : Pipe) : ℕ := p.toggles >>> p.endpoint &&& 1

/-- `qtd_count`. -/
def qtdCount (buffer : Word) (length : ℕ) (req : Option Word) : ℕ :=
  let count := if req.isSome then 1 + 1 else 0
  if length > 0 ∨ req.isNone then
    let xfrSz := if buffer.toNat &&& (pktAlign - 1) ≠ 0 then bufferCnt - 1 else bufferCnt
    count + (2 + length / (xfrSz * pageSize))
  else count

/-- What a qTD can take from `bufPtr` on: full pages but for the portion of the first one before
`bufPtr`, and whole packets.  `&= ~(PKT_ALIGN - 1)` is `/ PKT_ALIGN * PKT_ALIGN`. -/
def capacity (bufPtr : Word) : ℕ :=
  (bufferCnt * pageSize - (bufPtr.toNat &&& (pageSize - 1))) / pktAlign * pktAlign

/-- `xfr_bytes`. -/
def xfrBytes (bufPtr : Word) (left : ℕ) : ℕ := min (capacity bufPtr) left

theorem capacity_eq (bufPtr : Word) :
  capacity bufPtr = (20480 - bufPtr.toNat % 4096) / 512 * 512
  := by
  have hmask : bufPtr.toNat &&& (pageSize - 1) = bufPtr.toNat % 4096 :=
    Nat.and_two_pow_sub_one_eq_mod _ 12
  rw [capacity, hmask]
  rfl

/-- The loop over the data. -/
def dataTds (p : Pipe) (ioc : ℕ) (bufPtr : Word) (left toggle : ℕ) : Option (List QTD) :=
  let xfr := xfrBytes bufPtr left
  (tdBuffer bufPtr xfr).bind fun pages =>
    let td : QTD := ⟨token toggle xfr ioc (if p.pipein then pidIn else pidOut), pages⟩
    let toggle := if (xfr / p.maxpacket) &&& 1 ≠ 0 then toggle ^^^ 1 else toggle
    if left - xfr > 0 then
      (dataTds p ioc (bufPtr + BitVec.ofNat 32 xfr) (left - xfr) toggle).map (td :: ·)
    else some [td]
  termination_by left
  decreasing_by
    simp only [xfrBytes, capacity_eq] at *
    omega

/-- The qTD for the setup request at the address `req`, if there is one. -/
def setupTds : Option Word → Option (List QTD)
  | none => some []
  | some req => (tdBuffer req 8).map fun pages => [⟨token 0 8 0 pidSetup, pages⟩]

/-- The qTD for the acknowledgement of a setup request. -/
def ackTds (p : Pipe) : Option Word → List QTD
  | none => []
  | some _ => [⟨token 1 0 1 (if p.pipein then pidOut else pidIn), []⟩]

/-- The toggle of the first data qTD. -/
def initialToggle (p : Pipe) (req : Option Word) : ℕ := if req.isSome then 1 else p.gettoggle

/-- `ehci_submit_async` up to the point where the list is handed over to the controller: the qTDs
in the order of the array, in which each is linked behind the one before it. -/
def submitAsync (p : Pipe) (buffer : Word) (length : ℕ) (req : Option Word) :
    Option (List QTD) := do
  let setup ← setupTds req
  let data ← if length > 0 ∨ req.isNone then
      dataTds p (if req.isNone then 1 else 0) buffer length (initialToggle p req)
    else some []
  return setup ++ data ++ ackTds p req

/-! ### What the data qTDs transfer -/

/-- The packets of a qTD with `bytes` bytes. -/
def packets (maxpacket bytes : ℕ) : ℕ := (bytes + maxpacket - 1) / maxpacket

/-- The qTDs transfer the range from `buffer` to `buffer + length`, one piece behind the other. -/
structure Transfers (maxpacket toggle buffer length : ℕ) (data : List QTD) : Prop where
  total : (data.map QTD.bytes).sum = length
  whole : ∀ i (h : i + 1 < data.length), 0 < data[i].bytes ∧ maxpacket ∣ data[i].bytes
  pages : ∀ i (h : i < data.length),
    Covers data[i].buffer (buffer + offset (data.map QTD.bytes) i) data[i].bytes
  toggles : ∀ i (h : i < data.length),
    data[i].dt = (toggle + offset (data.map fun q => packets maxpacket q.bytes) i) % 2

section Transfers

variable {maxpacket toggle buffer length : ℕ} {td : QTD} {data : List QTD}

theorem transfers_nil :
  Transfers maxpacket toggle buffer 0 []
  := ⟨rfl, fun _ h => absurd h (Nat.not_lt_zero _), fun _ h => absurd h (Nat.not_lt_zero _),
    fun _ h => absurd h (Nat.not_lt_zero _)⟩

theorem transfers_singleton (hbytes : td.bytes = length) (hpages : Covers td.buffer buffer length)
    (hdt : td.dt = toggle % 2) :
  Transfers maxpacket toggle buffer length [td]
  := by
  constructor
  · simpa using hbytes
  · intro i hi
    simp at hi
  · intro i hi
    obtain rfl : i = 0 := by simpa using hi
    simpa [hbytes] using hpages
  · intro i hi
    obtain rfl : i = 0 := by simpa using hi
    simpa using hdt

/-- A qTD is put before others. -/
theorem Transfers.cons {bytes : ℕ} (hbytes : td.bytes = bytes) (hpos : 0 < bytes)
    (hwhole : maxpacket ∣ bytes) (hpages : Covers td.buffer buffer bytes)
    (hdt : td.dt = toggle % 2)
    (h : Transfers maxpacket (toggle + packets maxpacket bytes) (buffer + bytes) length data) :
  Transfers maxpacket toggle buffer (bytes + length) (td :: data)
  := by
  subst hbytes
  constructor
  · rw [List.map_cons, List.sum_cons, h.total]
  · intro i hi
    cases i with
    | zero => exact ⟨hpos, hwhole⟩
    | succ i => exact h.whole i (by simpa using hi)
  · intro i hi
    cases i with
    | zero => simpa using hpages
    | succ i =>
      have hi' := h.pages i (by simpa using hi)
      simpa [Nat.add_assoc] using hi'
  · intro i hi
    cases i with
    | zero => simpa using hdt
    | succ i =>
      have hi' := h.toggles i (by simpa using hi)
      simpa [Nat.add_assoc] using hi'

/-- A toggle matters modulo 2 only. -/
theorem Transfers.congr_toggle {toggle' : ℕ} (h : Transfers maxpacket toggle buffer length data)
    (hmod : toggle % 2 = toggle' % 2) :
  Transfers maxpacket toggle' buffer length data
  := by
  refine ⟨h.total, h.whole, h.pages, ?_⟩
  intro i hi
  rw [h.toggles i hi, Nat.add_mod, hmod, ← Nat.add_mod]

end Transfers

section Data

variable (p : Pipe) (ioc : ℕ) {bufPtr : Word} {left : ℕ}

/-- The page pointers of a qTD are enough for what it takes. -/
theorem exists_tdBuffer (hwrap : bufPtr.toNat + left ≤ 2 ^ 32) :
  ∃ pages, tdBuffer bufPtr (xfrBytes bufPtr left) = some pages
    ∧ Covers pages bufPtr.toNat (xfrBytes bufPtr left)
  := by
  apply exists_tdBufferLoop (by decide)
  · rw [xfrBytes, capacity_eq, pageSize, bufferCnt]
    omega
  · rw [xfrBytes]
    omega

/-- The toggle changes with an odd number of packets. -/
theorem toggle_mod_two (toggle maxpacket : ℕ) {bytes : ℕ} (hpos : 0 < maxpacket)
    (hwhole : maxpacket ∣ bytes) :
  (if (bytes / maxpacket) &&& 1 ≠ 0 then toggle ^^^ 1 else toggle) % 2
    = (toggle + packets maxpacket bytes) % 2
  := by
  have hpackets : packets maxpacket bytes = bytes / maxpacket := by
    obtain ⟨n, rfl⟩ := hwhole
    rw [packets, Nat.mul_div_cancel_left n hpos, Nat.add_sub_assoc hpos, Nat.mul_add_div hpos,
      Nat.div_eq_of_lt (Nat.sub_one_lt hpos.ne'), Nat.add_zero]
  rw [hpackets, Nat.and_one_is_mod]
  split
  case isTrue hodd =>
    rw [Nat.xor_mod_two_eq]
    omega
  case isFalse heven => omega

/-- **The data qTDs.**  The loop has page pointers for all of the data, and cuts them into whole
packets. -/
theorem exists_dataTds (hpos : 0 < p.maxpacket) (hdvd : p.maxpacket ∣ pktAlign) (toggle : ℕ)
    (hwrap : bufPtr.toNat + left ≤ 2 ^ 32) :
  ∃ data, dataTds p ioc bufPtr left toggle = some data
    ∧ Transfers p.maxpacket toggle bufPtr.toNat left data
  := by
  induction left using Nat.strong_induction_on generalizing bufPtr toggle with
  | _ left ih =>
    obtain ⟨pages, hpages, hcovers⟩ := exists_tdBuffer hwrap
    have hcap := capacity_eq bufPtr
    have hbytes (dt pid : ℕ) :
        (QTD.mk (token dt (xfrBytes bufPtr left) ioc pid) pages).bytes = xfrBytes bufPtr left := by
      apply tokenGetTotalbytes_token
      rw [xfrBytes]
      omega
    have hdt (total pid : ℕ) : (QTD.mk (token toggle total ioc pid) pages).dt = toggle % 2 :=
      tokenGetDt_token ..
    rw [dataTds]
    simp only [hpages, Option.bind_some]
    split
    case isTrue hmore =>
      have hxfr : xfrBytes bufPtr left = capacity bufPtr := by
        rw [xfrBytes] at hmore ⊢
        omega
      have hwhole : p.maxpacket ∣ xfrBytes bufPtr left := by
        rw [hxfr]
        exact hdvd.trans (Nat.dvd_mul_left _ _)
      have hptr : (bufPtr + BitVec.ofNat 32 (xfrBytes bufPtr left)).toNat
          = bufPtr.toNat + xfrBytes bufPtr left := by
        rw [BitVec.toNat_add, BitVec.toNat_ofNat]
        omega
      have hwrap' : (bufPtr + BitVec.ofNat 32 (xfrBytes bufPtr left)).toNat
          + (left - xfrBytes bufPtr left) ≤ 2 ^ 32 := by
        omega
      obtain ⟨data, hdata, htransfers⟩ := ih (left - xfrBytes bufPtr left) (by omega)
        (if (xfrBytes bufPtr left / p.maxpacket) &&& 1 ≠ 0 then toggle ^^^ 1 else toggle) hwrap'
      rw [hptr] at htransfers
      refine ⟨_, by rw [hdata, Option.map_some], ?_⟩
      have hcons := Transfers.cons (hbytes _ (if p.pipein then pidIn else pidOut)) (by omega)
        hwhole hcovers (hdt _ _)
        (htransfers.congr_toggle (toggle_mod_two _ _ hpos hwhole))
      rwa [Nat.add_sub_cancel' (by omega)] at hcons
    case isFalse hlast =>
      have hxfr : xfrBytes bufPtr left = left := by
        rw [xfrBytes] at hlast ⊢
        omega
      refine ⟨_, rfl, ?_⟩
      apply transfers_singleton
      · rw [hbytes, hxfr]
      · rwa [hxfr] at hcovers
      · apply hdt

/-- One round of the loop: it is the last one, or the qTD takes what it can. -/
theorem dataTds_cases {toggle : ℕ} {data : List QTD}
    (h : dataTds p ioc bufPtr left toggle = some data) :
  data.length = 1 ∨ capacity bufPtr < left ∧ ∃ toggle' rest,
    dataTds p ioc (bufPtr + BitVec.ofNat 32 (capacity bufPtr)) (left - capacity bufPtr) toggle'
      = some rest ∧ data.length = rest.length + 1
  := by
  rw [dataTds] at h
  obtain ⟨pages, -, h⟩ := Option.bind_eq_some_iff.mp h
  by_cases hmore : left - xfrBytes bufPtr left > 0
  · simp only [if_pos hmore] at h
    obtain ⟨rest, hrest, rfl⟩ := Option.map_eq_some_iff.mp h
    have hxfr : xfrBytes bufPtr left = capacity bufPtr := by
      rw [xfrBytes] at hmore ⊢
      omega
    rw [hxfr] at hmore hrest
    exact .inr ⟨by omega, _, rest, hrest, List.length_cons⟩
  · simp only [if_neg hmore] at h
    obtain rfl := Option.some.inj h
    exact .inl List.length_singleton

/-- If every qTD takes at least `size` bytes, there is at most one more than `size` goes into the
data. -/
theorem length_dataTds_le_of {P : Word → Prop} {size : ℕ} (hsize : 0 < size)
    (hP : ∀ b, P b → size ≤ capacity b ∧ P (b + BitVec.ofNat 32 (capacity b))) {toggle : ℕ}
    {data : List QTD} (hptr : P bufPtr) (h : dataTds p ioc bufPtr left toggle = some data) :
  data.length ≤ left / size + 1
  := by
  induction left using Nat.strong_induction_on generalizing bufPtr toggle data with
  | _ left ih =>
    obtain ⟨hle, hptr'⟩ := hP bufPtr hptr
    obtain hone | ⟨hlt, toggle', rest, hrest, hlength⟩ := dataTds_cases p ioc h
    · rw [hone]
      apply Nat.le_add_left
    · have hle' := ih (left - capacity bufPtr) (by omega) hptr' hrest
      have hdiv : (left - capacity bufPtr) / size + 1 ≤ left / size := by
        rw [← Nat.add_div_right _ hsize]
        apply Nat.div_le_div_right
        omega
      omega

/-- The estimate is enough for the data. -/
theorem length_dataTds_le {toggle : ℕ} {data : List QTD}
    (h : dataTds p ioc bufPtr left toggle = some data) :
  data.length ≤ 2 + left /
    ((if bufPtr.toNat &&& (pktAlign - 1) ≠ 0 then bufferCnt - 1 else bufferCnt) * pageSize)
  := by
  have hmask : bufPtr.toNat &&& (pktAlign - 1) = bufPtr.toNat % 512 :=
    Nat.and_two_pow_sub_one_eq_mod _ 9
  simp only [hmask, bufferCnt, pageSize]
  split
  case isTrue =>
    have hle : data.length ≤ left / 16384 + 1 := by
      apply length_dataTds_le_of p ioc (by decide) (P := fun _ => True) _ trivial h
      intro b _
      rw [capacity_eq]
      exact ⟨by omega, trivial⟩
    omega
  case isFalse haligned =>
    -- behind the first qTD, all begin at a page
    have hpage (b : Word) (hb : b.toNat % 4096 = 0) :
        20480 ≤ capacity b ∧ (b + BitVec.ofNat 32 (capacity b)).toNat % 4096 = 0 := by
      rw [BitVec.toNat_add, BitVec.toNat_ofNat, capacity_eq, hb]
      omega
    have hcap := capacity_eq bufPtr
    obtain hone | ⟨hlt, toggle', rest, hrest, hlength⟩ := dataTds_cases p ioc h
    · omega
    · have hle : rest.length ≤ (left - capacity bufPtr) / 20480 + 1 := by
        apply length_dataTds_le_of p ioc (by decide) hpage _ hrest
        rw [BitVec.toNat_add, BitVec.toNat_ofNat]
        omega
      omega

end Data

/-! ### The whole transfer -/

/-- **Transfers.**  The descriptors that are allocated are enough, no qTD runs out of page
pointers, and the data qTDs transfer the buffer in whole packets with the right toggles. -/
theorem exists_submitAsync (p : Pipe) (buffer : Word) (length : ℕ) (req : Option Word) (k : ℕ)
    (hk : k ≤ 9) (hpacket : p.maxpacket = 2 ^ k) (hwrap : buffer.toNat + length ≤ 2 ^ 32)
    (hreq : ∀ r ∈ req, r.toNat + 8 ≤ 2 ^ 32) :
  ∃ setup data, setupTds req = some setup
    ∧ submitAsync p buffer length req = some (setup ++ data ++ ackTds p req)
    ∧ (setup ++ data ++ ackTds p req).length ≤ qtdCount buffer length req
    ∧ (∀ r ∈ req, ∃ td, setup = [td] ∧ td.bytes = 8 ∧ td.dt = 0 ∧ Covers td.buffer r.toNat 8)
    ∧ Transfers p.maxpacket (initialToggle p req) buffer.toNat length data
  := by
  have hpos : 0 < p.maxpacket := by
    rw [hpacket]
    apply Nat.two_pow_pos
  have hdvd : p.maxpacket ∣ pktAlign := by
    rw [hpacket]
    exact pow_dvd_pow 2 hk
  have hsetup : ∃ setup, setupTds req = some setup
      ∧ setup.length + (ackTds p req).length = (if req.isSome then 1 + 1 else 0)
      ∧ ∀ r ∈ req, ∃ td, setup = [td] ∧ td.bytes = 8 ∧ td.dt = 0
        ∧ Covers td.buffer r.toNat 8 := by
    cases req with
    | none =>
      refine ⟨[], rfl, rfl, ?_⟩
      rintro r ⟨⟩
    | some r =>
      have hfit : r.toNat % pageSize + 8 ≤ bufferCnt * pageSize := by
        rw [bufferCnt, pageSize]
        omega
      obtain ⟨pages, hpages, hcovers⟩ := exists_tdBufferLoop (by decide) hfit (hreq r rfl)
      refine ⟨_, by rw [setupTds, tdBuffer, hpages, Option.map_some], rfl, ?_⟩
      rintro _ ⟨⟩
      exact ⟨_, rfl, tokenGetTotalbytes_token 0 0 pidSetup (by decide), tokenGetDt_token ..,
        hcovers⟩
  obtain ⟨setup, hsome, hcount, hcovers⟩ := hsetup
  by_cases hdata : length > 0 ∨ req.isNone
  · obtain ⟨data, hrun, htransfers⟩ := exists_dataTds p (if req.isNone then 1 else 0) hpos hdvd
      (initialToggle p req) hwrap
    have hlength := length_dataTds_le p _ hrun
    refine ⟨setup, data, hsome, ?_, ?_, hcovers, htransfers⟩
    · simp only [submitAsync, hsome, if_pos hdata, hrun, Option.bind_eq_bind, Option.bind_some]
      rfl
    · simp only [qtdCount, if_pos hdata, List.length_append]
      omega
  · obtain rfl : length = 0 := by omega
    refine ⟨setup, [], hsome, ?_, ?_, hcovers, transfers_nil⟩
    · simp only [submitAsync, hsome, if_neg hdata, Option.bind_eq_bind, Option.bind_some]
      rfl
    · simp only [qtdCount, if_neg hdata, List.length_append, List.length_nil]
      omega

/-- A bulk transfer from an odd address: the first qTD is cut at a packet. -/
theorem exists_submitAsync_bulk :
  (0x1001 : Word).toNat + 40000 ≤ 2 ^ 32 ∧ ∃ setup data, setupTds none = some setup
    ∧ submitAsync ⟨0, 1, 512, true⟩ 0x1001 40000 none
      = some (setup ++ data ++ ackTds ⟨0, 1, 512, true⟩ none)
    ∧ (setup ++ data ++ ackTds ⟨0, 1, 512, true⟩ none).length ≤ qtdCount 0x1001 40000 none
    ∧ (∀ r ∈ (none : Option Word), ∃ td, setup = [td] ∧ td.bytes = 8 ∧ td.dt = 0
      ∧ Covers td.buffer r.toNat 8)
    ∧ Transfers 512 0 0x1001 40000 data
  := by
  refine ⟨by decide, exists_submitAsync ⟨0, 1, 512, true⟩ 0x1001 40000 none 9 le_rfl rfl
    (by decide) ?_⟩
  rintro r ⟨⟩

end Ehci
