import UBoot.Lib.Logged
import UBoot.Lib.Memory

/-!
# USB mass storage transfers

`usb_stor_read` and `usb_stor_write` of `common/usb_storage.c` cut a transfer into READ(10) or
WRITE(10) commands.  A command that fails is followed by a REQUEST SENSE, in the same request
block, and is tried three times.

The transport is what the device makes of a request block; it may answer differently every time.
`Transfers` says what the requests of a transfer are for: they go on at the first block that is not
transferred yet, and what is returned is the number of blocks before it.
-/

namespace UsbStorage

open Logged

/-! ### The requests -/

/-- `ccb`, the request block. -/
structure Ccb where
  lun : ℕ
  cmd : List Byte
  cmdlen : ℕ
  datalen : Word
  pdata : Word
  deriving DecidableEq

/-- A request, and what the transport returns. -/
structure Event where
  srb : Ccb
  result : ℤ
  deriving DecidableEq

/-- What is read of a device: its descriptor, the limit `USB_MAX_XFER_BLK` of the host controller,
and where the buffer for sense data is. -/
structure Disk where
  target : ℕ
  lun : ℕ
  blksz : ℕ
  /-- `CONFIG_USB_EHCI` -/
  ehci : Bool
  senseBuf : Word

/-- The transport, which may depend on all that happened before. -/
abbrev Transport := List Event → Ccb → ℤ

/-- `USB_MAX_XFER_BLK`. -/
def Disk.maxXferBlk (d : Disk) : ℕ := if d.ehci then 65535 else 20

/-- `smallblks`, the blocks of the next command. -/
def Disk.smallblks (d : Disk) (blks : ℕ) : ℕ :=
  if blks > d.maxXferBlk then d.maxXferBlk else blks

theorem Disk.maxXferBlk_pos (d : Disk) :
  0 < d.maxXferBlk
  := by
  rw [maxXferBlk]
  split <;> decide

theorem Disk.smallblks_eq_min (d : Disk) (blks : ℕ) :
  d.smallblks blks = min blks d.maxXferBlk
  := by
  rw [smallblks]
  split <;> omega

/-- `SCSI_REQ_SENSE`. -/
def reqSense : Byte := 0x03

/-- `SCSI_READ10`. -/
def read10 : Byte := 0x28

/-- `SCSI_WRITE10`. -/
def write10 : Byte := 0x2a

/-- `ss->transport(srb, ss)`. -/
def transport (t : Transport) (srb : Ccb) : LogM Event ℤ :=
  ask (fun log => t log srb) fun result => ⟨srb, result⟩

/-- `usb_request_sense`, with the block as it is left behind. -/
def usbRequestSense (t : Transport) (d : Disk) (srb : Ccb) : LogM Event Ccb := do
  let ptr := srb.pdata
  let srb := { srb with
    cmd := [reqSense, UInt8.ofNat (srb.lun <<< 5), 0, 0, 18, 0, 0, 0, 0, 0, 0, 0]
    datalen := 18
    pdata := d.senseBuf
    cmdlen := 12 }
  let _ ← transport t srb
  return { srb with pdata := ptr }

/-- The command of `usb_read_10` and `usb_write_10`. -/
def rw10 (op : Byte) (lun : ℕ) (start : Word) (blocks : ℕ) : List Byte :=
  [op, UInt8.ofNat (lun <<< 5)] ++ wordBytes start
    ++ [0, UInt8.ofNat (blocks >>> 8), UInt8.ofNat blocks, 0, 0, 0]

/-- `usb_read_10` and `usb_write_10`. -/
def usbRw10 (op : Byte) (t : Transport) (srb : Ccb) (start : Word) (blocks : ℕ) :
    LogM Event (Ccb × ℤ) := do
  let srb := { srb with cmd := rw10 op srb.lun start blocks, cmdlen := 12 }
  let result ← transport t srb
  return (srb, result)

/-- From `retry_it` on: whether the command succeeds in the end. -/
def retryIt (op : Byte) (t : Transport) (d : Disk) (start bufAddr : Word) (smallblks : ℕ) :
    ℕ → Ccb → LogM Event (Ccb × Bool)
  | retry, srb => do
    let srb := { srb with
      datalen := BitVec.ofNat 32 (d.blksz * smallblks)
      pdata := bufAddr }
    let (srb, result) ← usbRw10 op t srb start smallblks
    if result ≠ 0 then
      let srb ← usbRequestSense t d srb
      match retry with
      | 0 => return (srb, false)
      | retry + 1 => retryIt op t d start bufAddr smallblks retry srb
    else return (srb, true)

/-- The loop over the chunks: the blocks that are left at its end. -/
def loop (op : Byte) (t : Transport) (d : Disk) (blks : ℕ) (start bufAddr : Word) (srb : Ccb) :
    LogM Event ℕ := do
  let smallblks := d.smallblks blks
  let (srb, ok) ← retryIt op t d start bufAddr smallblks 2 { srb with pdata := bufAddr }
  if ok then
    if blks - smallblks ≠ 0 then
      loop op t d (blks - smallblks) (start + BitVec.ofNat 32 smallblks) (bufAddr + srb.datalen)
        srb
    else return 0
  else return blks
  termination_by blks
  decreasing_by
    have hpos := d.maxXferBlk_pos
    simp only [Disk.smallblks_eq_min, smallblks] at *
    omega

/-- The search for the device with the number `target`: it fails at a gap in the table, and the last
device is taken if no number matches. -/
def usbGetDev (devnum : ℕ → Option ℕ) (target : ℕ) : ℕ → ℕ → Bool
  | 0, _ => true
  | n + 1, i =>
    match devnum i with
    | none => false
    | some num => num = target || usbGetDev devnum target n (i + 1)

/-- `USB_MAX_DEVICE`. -/
def maxDevice : ℕ := 32

/-- A transfer, with `usb_ccb` as it was left by the one before. -/
def transfer (op : Byte) (t : Transport) (d : Disk) (devnum : ℕ → Option ℕ) (srb : Ccb)
    (blknr : Word) (blkcnt : ℕ) (buffer : Word) : LogM Event ℕ :=
  if blkcnt = 0 then return 0
  else if usbGetDev devnum d.target maxDevice 0 then do
    let left ← loop op t d blkcnt blknr buffer { srb with lun := d.lun }
    return blkcnt - left
  else return 0

/-- `usb_stor_read`. -/
def usbStorRead := transfer read10

/-- `usb_stor_write`. -/
def usbStorWrite := transfer write10

/-! ### What they are for -/

/-- The request for the blocks from `start` on, for a buffer at `buf`. -/
def Disk.request (d : Disk) (op : Byte) (start buf : Word) (blocks : ℕ) : Ccb where
  lun := d.lun
  cmd := rw10 op d.lun start blocks
  cmdlen := 12
  datalen := BitVec.ofNat 32 (d.blksz * blocks)
  pdata := buf

/-- The request for sense data. -/
def Disk.senseRequest (d : Disk) : Ccb where
  lun := d.lun
  cmd := [reqSense, UInt8.ofNat (d.lun <<< 5), 0, 0, 18, 0, 0, 0, 0, 0, 0, 0]
  cmdlen := 12
  datalen := 18
  pdata := d.senseBuf

/-- A request is tried until it succeeds, and `retry` times more after it has failed; every failure
is followed by a request for sense data. -/
inductive Tries (d : Disk) (srb : Ccb) : ℕ → List Event → Bool → Prop where
  | good (retry : ℕ) : Tries d srb retry [⟨srb, 0⟩] true
  | bad {result sense : ℤ} (h : result ≠ 0) :
    Tries d srb 0 [⟨srb, result⟩, ⟨d.senseRequest, sense⟩] false
  | again {retry : ℕ} {result sense : ℤ} {events : List Event} {ok : Bool} (h : result ≠ 0)
    (rest : Tries d srb retry events ok) :
    Tries d srb (retry + 1) (⟨srb, result⟩ :: ⟨d.senseRequest, sense⟩ :: events) ok

/-- The requests of a transfer of `blks` blocks, and how many blocks are transferred: the ranges of
the commands follow each other, in the blocks and in the buffer, and the first command that fails in
the end is the last one. -/
inductive Transfers (op : Byte) (d : Disk) : Word → Word → ℕ → List Event → ℕ → Prop where
  | nil (start buf : Word) : Transfers op d start buf 0 [] 0
  | bad {start buf : Word} {blks blocks : ℕ} {events : List Event} (hpos : 0 < blocks)
    (hmax : blocks ≤ d.maxXferBlk) (hle : blocks ≤ blks)
    (tries : Tries d (d.request op start buf blocks) 2 events false) :
    Transfers op d start buf blks events 0
  | good {start buf : Word} {blks blocks done : ℕ} {events rest : List Event} (hpos : 0 < blocks)
    (hmax : blocks ≤ d.maxXferBlk)
    (tries : Tries d (d.request op start buf blocks) 2 events true)
    (transfers : Transfers op d (start + BitVec.ofNat 32 blocks)
      (buf + BitVec.ofNat 32 (d.blksz * blocks)) blks rest done) :
    Transfers op d start buf (blocks + blks) (events ++ rest) (blocks + done)

section Logs

variable {op : Byte} (t : Transport) {d : Disk} {start buf : Word} {srb : Ccb}

theorem logs_usbRw10 (blocks : ℕ) (hlun : srb.lun = d.lun) :
  Logs (usbRw10 op t { srb with
      datalen := BitVec.ofNat 32 (d.blksz * blocks)
      pdata := buf } start blocks)
    fun p events => p.1 = d.request op start buf blocks ∧ events = [⟨p.1, p.2⟩]
  := by
  have hrequest : ({ srb with
      datalen := BitVec.ofNat 32 (d.blksz * blocks)
      pdata := buf
      cmd := rw10 op srb.lun start blocks
      cmdlen := 12 } : Ccb) = d.request op start buf blocks := by
    rw [Disk.request, hlun]
  rw [usbRw10]
  apply Logs.bind (logs_ask fun result => rfl)
  rintro result events rfl
  apply logs_pure
  exact ⟨hrequest, rfl⟩

theorem logs_usbRequestSense (hlun : srb.lun = d.lun) :
  Logs (usbRequestSense t d srb) fun srb' events =>
    srb'.lun = d.lun ∧ ∃ sense, events = [⟨d.senseRequest, sense⟩]
  := by
  rw [usbRequestSense]
  apply Logs.bind (logs_ask fun sense => rfl)
  rintro sense events rfl
  apply logs_pure
  refine ⟨hlun, sense, ?_⟩
  rw [Disk.senseRequest, hlun]
  rfl

/-- A request that has failed and the request for sense data leave the block for the next try. -/
theorem logs_retryIt (blocks retry : ℕ) (hlun : srb.lun = d.lun) :
  Logs (retryIt op t d start buf blocks retry srb) fun p events =>
    p.1.lun = d.lun ∧ (p.2 = true → p.1.datalen = BitVec.ofNat 32 (d.blksz * blocks))
      ∧ Tries d (d.request op start buf blocks) retry events p.2
  := by
  induction retry generalizing srb with
  | zero =>
    rw [retryIt]
    apply Logs.bind (logs_usbRw10 t blocks hlun)
    rintro ⟨srb', result⟩ events ⟨rfl, rfl⟩
    apply Logs.ite
    · intro hbad
      apply Logs.bind (logs_usbRequestSense t rfl)
      rintro srb' events ⟨hlun', sense, rfl⟩
      apply logs_pure
      refine ⟨hlun', ?_, .bad hbad⟩
      rintro ⟨⟩
    · intro hgood
      apply logs_pure
      obtain rfl : result = 0 := not_not.mp hgood
      exact ⟨rfl, fun _ => rfl, .good 0⟩
  | succ retry ih =>
    rw [retryIt]
    apply Logs.bind (logs_usbRw10 t blocks hlun)
    rintro ⟨srb', result⟩ events ⟨rfl, rfl⟩
    apply Logs.ite
    · intro hbad
      apply Logs.bind (logs_usbRequestSense t rfl)
      rintro srb' events ⟨hlun', sense, rfl⟩
      apply (ih hlun').mono
      rintro p rest ⟨hp, hdatalen, htries⟩
      exact ⟨hp, hdatalen, .again hbad htries⟩
    · intro hgood
      apply logs_pure
      obtain rfl : result = 0 := not_not.mp hgood
      exact ⟨rfl, fun _ => rfl, .good _⟩

theorem logs_loop {blks : ℕ} (hpos : 0 < blks) (hlun : srb.lun = d.lun) :
  Logs (loop op t d blks start buf srb) fun left events =>
    left ≤ blks ∧ Transfers op d start buf blks events (blks - left)
  := by
  induction blks using Nat.strong_induction_on generalizing start buf srb with
  | _ blks ih =>
    have hmax := d.maxXferBlk_pos
    have hsmall := d.smallblks_eq_min blks
    rw [loop]
    apply Logs.bind (logs_retryIt t (d.smallblks blks) 2 hlun)
    rintro ⟨srb', ok⟩ events ⟨hlun', hdatalen, htries⟩
    apply Logs.ite
    · rintro rfl
      rw [show srb'.datalen = _ from hdatalen rfl]
      apply Logs.ite
      · intro hmore
        apply (ih _ (by omega) (by omega) hlun').mono
        rintro left rest ⟨hle, htransfers⟩
        refine ⟨by omega, ?_⟩
        have hgood := Transfers.good (by omega) (by omega) htries htransfers
        rwa [show d.smallblks blks + (blks - d.smallblks blks) = blks by omega,
          show d.smallblks blks + (blks - d.smallblks blks - left) = blks - left by omega] at hgood
      · intro hlast
        apply logs_pure
        refine ⟨Nat.zero_le _, ?_⟩
        have hgood := Transfers.good (by omega) (by omega) htries (.nil _ _)
        rwa [Nat.add_zero, show d.smallblks blks = blks by omega] at hgood
    · intro hbad
      obtain rfl : ok = false := Bool.eq_false_of_not_eq_true hbad
      apply logs_pure
      rw [List.append_nil, Nat.sub_self]
      exact ⟨le_rfl, .bad (by omega) (by omega) (by omega) htries⟩

end Logs

section Transfers

variable {op : Byte} {d : Disk} {srb : Ccb} {start buf : Word} {retry blks done : ℕ}
  {events : List Event} {e : Event}

/-- What is tried is the request itself. -/
theorem Tries.srb_eq {ok : Bool} (h : Tries d srb retry events ok) (he : e ∈ events)
    (hsense : e.srb ≠ d.senseRequest) :
  e.srb = srb
  := by
  induction h with
  | good => rw [List.mem_singleton.mp he]
  | bad =>
    obtain rfl | he := List.mem_cons.mp he
    · rfl
    · exact absurd (by rw [List.mem_singleton.mp he]) hsense
  | again _ _ ih =>
    obtain rfl | he := List.mem_cons.mp he
    · rfl
    obtain rfl | he := List.mem_cons.mp he
    · exact absurd rfl hsense
    · apply ih he

/-- A request succeeds in the end if and only if one of the tries does. -/
theorem Tries.ok_iff {ok : Bool} (h : Tries d srb retry events ok) (hsense : srb ≠ d.senseRequest) :
  ok = true ↔ ∃ e ∈ events, e.srb = srb ∧ e.result = 0
  := by
  induction h with
  | good => simp
  | @bad _ sense hresult => simp [hresult, hsense.symm]
  | @again _ _ sense _ _ hresult _ ih => simp [hresult, hsense.symm, ih]

theorem Tries.exists_mem {ok : Bool} (h : Tries d srb retry events ok) :
  ∃ e ∈ events, e.srb = srb
  := by
  cases h with
  | good => exact ⟨_, List.mem_cons_self, rfl⟩
  | bad => exact ⟨_, List.mem_cons_self, rfl⟩
  | again => exact ⟨_, List.mem_cons_self, rfl⟩

theorem start_eq_of_rw10_eq {lun : ℕ} {start' : Word} {n n' : ℕ}
    (h : rw10 op lun start n = rw10 op lun start' n') :
  start = start'
  := by
  have hbytes (w : Word) (k : ℕ) : ((rw10 op lun w k).drop 2).take 4 = wordBytes w := rfl
  rw [← bytesWord_wordBytes start, ← bytesWord_wordBytes start', ← hbytes start n,
    ← hbytes start' n', h]

/-- A command is for blocks of the transfer. -/
theorem Transfers.exists_offset (hop : op ≠ reqSense)
    (h : Transfers op d start buf blks events done) (he : e ∈ events)
    (hcmd : e.srb.cmd.head? = some op) :
  ∃ i < blks, ∃ n, e.srb.cmd = rw10 op d.lun (start + BitVec.ofNat 32 i) n
  := by
  have hsense : e.srb ≠ d.senseRequest := by
    intro heq
    rw [heq] at hcmd
    exact hop (Option.some.inj hcmd).symm
  induction h with
  | nil => cases he
  | @bad start _ _ blocks _ hpos _ hle tries =>
    use 0, by omega, blocks
    rw [tries.srb_eq he hsense, BitVec.add_zero]
    rfl
  | @good start _ _ blocks _ _ _ hpos _ tries _ ih =>
    obtain he | he := List.mem_append.mp he
    · use 0, by omega, blocks
      rw [tries.srb_eq he hsense, BitVec.add_zero]
      rfl
    · obtain ⟨i, hi, n, hn⟩ := ih he
      use blocks + i, by omega, n
      rw [hn, BitVec.ofNat_add, BitVec.add_assoc]

/-- Everything is transferred if and only if every command succeeds in the end. -/
theorem Transfers.eq_iff (hop : op ≠ reqSense) (hblks : blks < 2 ^ 32)
    (h : Transfers op d start buf blks events done) :
  done = blks ↔ ∀ e ∈ events, e.srb.cmd.head? = some op →
    ∃ e' ∈ events, e'.srb = e.srb ∧ e'.result = 0
  := by
  have hrequest (start buf : Word) (n : ℕ) : d.request op start buf n ≠ d.senseRequest := by
    intro heq
    have hhead := congrArg (fun srb => srb.cmd.head?) heq
    exact hop (Option.some.inj hhead)
  induction h with
  | nil => simp
  | @bad start buf blks blocks events hpos _ hle tries =>
    constructor
    · intro hdone
      omega
    · intro hall
      obtain ⟨e, he, hsrb⟩ := tries.exists_mem
      obtain ⟨e', he', hsrb', hgood⟩ := hall e he (by rw [hsrb]; rfl)
      have hok := (tries.ok_iff (hrequest _ _ _)).mpr ⟨e', he', hsrb'.trans hsrb, hgood⟩
      cases hok
  | @good start buf blks blocks done events rest hpos _ tries transfers ih =>
    have hrest := ih (by omega)
    refine Nat.add_left_cancel_iff.trans (hrest.trans ?_)
    constructor
    · intro hrest e he hcmd
      obtain he | he := List.mem_append.mp he
      · have hsrb : e.srb = d.request op start buf blocks := by
          apply tries.srb_eq he
          intro heq
          rw [heq] at hcmd
          exact hop (Option.some.inj hcmd).symm
        obtain ⟨e', he', hsrb', hgood⟩ := (tries.ok_iff (hrequest _ _ _)).mp rfl
        exact ⟨e', List.mem_append_left _ he', hsrb'.trans hsrb.symm, hgood⟩
      · obtain ⟨e', he', hgood⟩ := hrest e he hcmd
        exact ⟨e', List.mem_append_right _ he', hgood⟩
    · intro hall e he hcmd
      obtain ⟨e', he', hsrb, hgood⟩ := hall e (List.mem_append_right _ he) hcmd
      obtain he' | he' := List.mem_append.mp he'
      · -- the ranges of different chunks begin at different blocks
        obtain ⟨i, hi, n, hn⟩ := transfers.exists_offset hop he hcmd
        have hsrb' : e'.srb = d.request op start buf blocks := by
          apply tries.srb_eq he'
          intro heq
          rw [← hsrb, heq] at hcmd
          exact hop (Option.some.inj hcmd).symm
        rw [← hsrb, hsrb'] at hn
        have hstart := start_eq_of_rw10_eq hn
        rw [BitVec.add_assoc, ← BitVec.ofNat_add] at hstart
        have hnat := congrArg BitVec.toNat hstart
        rw [BitVec.toNat_add, BitVec.toNat_ofNat] at hnat
        have hlt := start.isLt
        omega
      · exact ⟨e', he', hsrb, hgood⟩

end Transfers

/-! ### The transfers -/

/-- A program transfers `blkcnt` blocks from `blknr` on. -/
structure Serves (op : Byte) (d : Disk) (blknr : Word) (blkcnt : ℕ) (buffer : Word)
    (p : LogM Event ℕ) : Prop where
  transfers : Transfers op d blknr buffer blkcnt (events p) (p []).1
  complete : (p []).1 = blkcnt ↔ ∀ e ∈ events p, e.srb.cmd.head? = some op →
    ∃ e' ∈ events p, e'.srb = e.srb ∧ e'.result = 0

theorem serves_transfer {op : Byte} (hop : op ≠ reqSense) (t : Transport) (d : Disk)
    {devnum : ℕ → Option ℕ} (hdev : usbGetDev devnum d.target maxDevice 0 = true) (srb : Ccb)
    (blknr : Word) {blkcnt : ℕ} (hblkcnt : blkcnt < 2 ^ 32) (buffer : Word) :
  Serves op d blknr blkcnt buffer (transfer op t d devnum srb blknr blkcnt buffer)
  := by
  have hlogs : Logs (transfer op t d devnum srb blknr blkcnt buffer) fun done events =>
      Transfers op d blknr buffer blkcnt events done := by
    rw [transfer]
    split
    case isTrue hzero =>
      apply logs_pure
      rw [hzero]
      apply Transfers.nil
    case isFalse hpos =>
      apply Logs.bind (logs_loop t (Nat.pos_of_ne_zero hpos) rfl)
      rintro left events ⟨-, htransfers⟩
      apply logs_pure
      rwa [List.append_nil]
  exact ⟨hlogs.events, hlogs.events.eq_iff hop hblkcnt⟩

/-- **Reading and writing.**  The commands cover consecutive ranges, and what is returned is the
number of the leading blocks whose commands succeed. -/
theorem usbStor_serves (t : Transport) (d : Disk) (devnum : ℕ → Option ℕ)
    (hdev : usbGetDev devnum d.target maxDevice 0 = true) (srb : Ccb) (blknr : Word) (blkcnt : ℕ)
    (hblkcnt : blkcnt < 2 ^ 32) (buffer : Word) :
  Serves read10 d blknr blkcnt buffer (usbStorRead t d devnum srb blknr blkcnt buffer)
    ∧ Serves write10 d blknr blkcnt buffer (usbStorWrite t d devnum srb blknr blkcnt buffer)
  := ⟨serves_transfer (by decide) t d hdev srb blknr hblkcnt buffer,
    serves_transfer (by decide) t d hdev srb blknr hblkcnt buffer⟩

/-- A transfer of more than one chunk, of which every other try fails. -/
theorem usbStor_serves_twice :
  Serves read10 ⟨2, 0, 512, true, 0x1000⟩ 7 70000 0x100000
      (usbStorRead (fun log _ => if log.length % 4 = 0 then -1 else 0) ⟨2, 0, 512, true, 0x1000⟩
        (fun i => some (i + 1)) ⟨0, [], 0, 0, 0⟩ 7 70000 0x100000)
    ∧ Serves write10 ⟨2, 0, 512, true, 0x1000⟩ 7 70000 0x100000
      (usbStorWrite (fun log _ => if log.length % 4 = 0 then -1 else 0) ⟨2, 0, 512, true, 0x1000⟩
        (fun i => some (i + 1)) ⟨0, [], 0, 0, 0⟩ 7 70000 0x100000)
  := usbStor_serves _ _ _ (by decide) _ _ _ (by decide) _

end UsbStorage
