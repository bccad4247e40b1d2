import UBoot.Net.Net

/-!
# The DHCP client

`net/bootp.c` with `CONFIG_CMD_DHCP`, and with the options that `amcc-common.h` asks for:
`BootpRequest` starts an attempt, `DhcpHandler` is given the packets, and `BootpTimeout` starts
another attempt.
-/

namespace Bootp

open Net (Mac)

/-- `TIMEOUT_COUNT`. -/
def timeoutCount : ℕ := 5

/-- `PORT_BOOTPS`. -/
def portBootps : ℕ := 67

/-- `PORT_BOOTPC`. -/
def portBootpc : ℕ := 68

/-- `OPT_SIZE`. -/
def optSize : ℕ := 312

/-- `BOOTP_HDR_SIZE`. -/
def bootpHdrSize : ℕ := 548

/-- `CONFIG_DHCP_MIN_EXT_LEN`. -/
def minExtLen : ℕ := 64

/-- `BOOTP_VENDOR_MAGIC`. -/
def bootpVendorMagic : List Byte := [99, 130, 83, 99]

/-- `DHCP_DISCOVER`. -/
def dhcpDiscover : Byte := 1

/-- `DHCP_OFFER`. -/
def dhcpOffer : Byte := 2

/-- `DHCP_REQUEST`. -/
def dhcpRequest : Byte := 3

/-- `DHCP_ACK`. -/
def dhcpAck : Byte := 5

/-- `DHCP_NAK`. -/
def dhcpNak : Byte := 6

/-- `OP_BOOTREQUEST`. -/
def opBootrequest : Byte := 1

/-- `OP_BOOTREPLY`. -/
def opBootreply : Byte := 2

/-- `HWT_ETHER`. -/
def hwtEther : Byte := 1

/-- `HWL_ETHER`. -/
def hwlEther : Byte := 6

/-- `dhcp_state_t`. -/
inductive DhcpState where
  | init
  | initReboot
  | rebooting
  | selecting
  | requesting
  | rebinding
  | bound
  | renewing
deriving DecidableEq

/-- The variables.  The handler is the one of the client as long as `listening` is set. -/
structure Client where
  dhcpState : DhcpState
  bootpID : Word
  bootpTry : ℕ
  listening : Bool
  netOurEther : Mac
  netOurIP : Word
  netServerIP : Word
  netServerEther : Mac
  netOurSubnetMask : Word
  netOurGatewayIP : Word
  netOurDNSIP : Word
  netOurHostName : List Byte
  netOurRootPath : List Byte
  netDHCPServerIP : Word
  dhcpLeasetime : Word
  bootFile : List Byte

/-- What is done besides: the payload of a packet is broadcast to the servers, the file is
loaded, or everything starts again. -/
inductive Action where
  | broadcast (payload : List Byte)
  | load
  | startAgain
deriving DecidableEq

/-- A packet that was received: the memory from the first byte of its payload on, its ports and
its length, and the hardware address that it is from. -/
structure Received where
  mem : ℕ → Byte
  dest : ℕ
  src : ℕ
  len : ℕ
  etSrc : Mac
  len_lt : len < 2 ^ 32

/-! ### `Bootp_t` -/

/-- The word at an offset. -/
def long (mem : ℕ → Byte) (p : ℕ) : Word := bytesWord (Memory.read mem p 4)

/-- `bp_id`. -/
def Received.bpId (p : Received) : Word := long p.mem 4

/-- `bp_yiaddr`. -/
def Received.bpYiaddr (p : Received) : Word := long p.mem 16

/-- Where `bp_file` is. -/
def bpFile : ℕ := 108

/-- Where `bp_vend` is. -/
def bpVend : ℕ := 236

/-- A quotation mark. -/
def quote : Byte := 34

/-- The bytes that `copy_filename` copies. -/
def copyFilename (src : ℕ → Byte) (p size : ℕ) : List Byte :=
  let start := if src p = quote then p + 1 else p
  let size := if src p = quote then size - 1 else size
  (Memory.read src start (size - 1)).takeWhile fun b => b ≠ 0 ∧ b ≠ quote

/-- A packet of the client. -/
def bootpPkt (id : Word) (secs : ℕ) (ether : Mac) (file ext : List Byte) : List Byte :=
  [opBootrequest, hwtEther, hwlEther, 0] ++ wordBytes id ++ halfBytes secs ++ [0, 0]
    ++ List.replicate 16 0 ++ ether.bytes ++ List.replicate 10 0 ++ List.replicate 64 0
    ++ file ++ List.replicate (128 - file.length) 0 ++ ext

/-- The address in an option, unless it is 0. -/
def addressOption (code : Byte) (ip : Word) : List Byte :=
  if ip = 0 then [] else [code, 4] ++ wordBytes ip

/-- `DhcpExtended`. -/
def dhcpExtended (messageType : Byte) (serverID requestedIP : Word) : List Byte :=
  let e := bootpVendorMagic ++ [53, 1, messageType]
    ++ [57, 2, UInt8.ofNat ((576 - 312 + optSize) >>> 8), UInt8.ofNat (576 - 312 + optSize)]
    ++ addressOption 54 serverID ++ addressOption 50 requestedIP ++ [55, 5, 1, 3, 12, 13, 17]
    ++ [255]
  e ++ List.replicate (minExtLen + 1 - e.length) 0

/-! ### Sending -/

/-- `BootpRequest` at the time `t`. -/
def bootpRequest (c : Client) (t : Word) : Client × List Action :=
  let id := bytesWord ((c.netOurEther.bytes).drop 2) + t
  ({ c with dhcpState := .selecting, bootpTry := c.bootpTry + 1, bootpID := id, listening := true },
    [.broadcast (bootpPkt id (t.toNat / 1000) c.netOurEther
      (copyFilename (fun i => c.bootFile.getD i 0) 0 128) (dhcpExtended dhcpDiscover 0 0))])

/-- `BootpTimeout` at the time `t`. -/
def bootpTimeout (c : Client) (t : Word) : Client × List Action :=
  if timeoutCount ≤ c.bootpTry then ({ c with listening := false }, [.startAgain])
  else bootpRequest c t

/-- `DhcpSendRequestPkt` at the time `t`. -/
def dhcpSendRequestPkt (c : Client) (offer : Received) (t : Word) : Action :=
  .broadcast (bootpPkt offer.bpId (t.toNat / 1000) c.netOurEther []
    (dhcpExtended dhcpRequest c.netDHCPServerIP offer.bpYiaddr))

/-! ### Receiving -/

/-- `BootpCheckPkt`: what is wrong with a packet. -/
def bootpCheckPkt (c : Client) (p : Received) : ℤ :=
  if p.dest ≠ portBootpc ∨ p.src ≠ portBootps then -1
  else if p.len < bootpHdrSize - optSize then -2
  else if p.mem 0 ≠ opBootrequest ∧ p.mem 0 ≠ opBootreply ∧ p.mem 0 ≠ dhcpOffer ∧ p.mem 0 ≠ dhcpAck
      ∧ p.mem 0 ≠ dhcpNak then -3
  else if p.mem 1 ≠ hwtEther then -4
  else if p.mem 2 ≠ hwlEther then -5
  else if p.bpId ≠ c.bootpID then -6
  else 0

/-- `BootpCopyNetParams`. -/
def bootpCopyNetParams (c : Client) (p : Received) : Client :=
  let siaddr := long p.mem 20
  { c with
    netOurIP := p.bpYiaddr
    netServerIP := if siaddr ≠ 0 then siaddr else c.netServerIP
    netServerEther := p.etSrc
    bootFile := if p.mem bpFile ≠ 0 then copyFilename p.mem bpFile 128 else c.bootFile }

/-- `truncate_sz`. -/
def truncateSz (maxlen curlen : ℕ) : ℕ := if maxlen ≤ curlen then maxlen - 1 else curlen

/-- What `DhcpOptionsProcess` does with one option. -/
def dhcpOption (c : Client) (mem : ℕ → Byte) (popt : ℕ) : Client × (ℕ → Byte) :=
  let oplen := (mem (popt + 1)).toNat
  match (mem popt).toNat with
  | 1 => ({ c with netOurSubnetMask := long mem (popt + 2) }, mem)
  | 3 => ({ c with netOurGatewayIP := long mem (popt + 2) }, mem)
  | 6 => ({ c with netOurDNSIP := long mem (popt + 2) }, mem)
  | 12 => ({ c with netOurHostName := Memory.read mem (popt + 2) (truncateSz 32 oplen) }, mem)
  | 17 => ({ c with netOurRootPath := Memory.read mem (popt + 2) (truncateSz 64 oplen) }, mem)
  | 51 => ({ c with dhcpLeasetime := long mem (popt + 2) }, mem)
  | 54 => ({ c with netDHCPServerIP := long mem (popt + 2) }, mem)
  | 67 =>
    let size := truncateSz 128 oplen
    if mem bpFile = 0 ∧ 0 < size then
      (c, Memory.store mem bpFile (Memory.read mem (popt + 2) size ++ [0]))
    else (c, mem)
  | _ => (c, mem)

/-- The loop of `DhcpOptionsProcess`.  Every option has two bytes at least, so that the fuel is
enough when it is the number of bytes. -/
def dhcpOptionsLoop (stop : ℕ) : ℕ → ℕ → Client → (ℕ → Byte) → Client × (ℕ → Byte)
  | 0, _, c, mem => (c, mem)
  | fuel + 1, popt, c, mem =>
    if popt < stop ∧ mem popt ≠ 0xff then
      let oplen := (mem (popt + 1)).toNat
      let r := dhcpOption c mem popt
      dhcpOptionsLoop stop fuel (popt + oplen + 2) r.1 r.2
    else (c, mem)

/-- `DhcpOptionsProcess`, if there are options. -/
def dhcpOptionsProcess (c : Client) (p : Received) : Client × Received :=
  if Memory.read p.mem bpVend 4 = bootpVendorMagic then
    let r := dhcpOptionsLoop (bpVend + 4 + bootpHdrSize) bootpHdrSize (bpVend + 4) c p.mem
    (r.1, { p with mem := r.2 })
  else (c, p)

/-- The loop of `DhcpMessageType`.  A scan that takes more steps than there are addresses does
not end. -/
def messageTypeLoop (mem : ℕ → Byte) : ℕ → ℕ → Option (Option Byte)
  | 0, _ => none
  | fuel + 1, popt =>
    if mem popt = 0xff then some none
    else if mem popt = 53 then some (some (mem (popt + 2)))
    else messageTypeLoop mem fuel (popt + (mem (popt + 1)).toNat + 2)

/-- `DhcpMessageType`: the type of the message, if there is one.  There is no result if the
function does not return. -/
def dhcpMessageType (mem : ℕ → Byte) : Option (Option Byte) :=
  if Memory.read mem bpVend 4 ≠ bootpVendorMagic then some none
  else messageTypeLoop mem (2 ^ 32) (bpVend + 4)

/-- `DhcpHandler` at the time `t`.  There is no result if the function does not return. -/
def dhcpHandler (c : Client) (p : Received) (t : Word) : Option (Client × List Action) :=
  if bootpCheckPkt c p ≠ 0 then some (c, [])
  else
    match c.dhcpState with
    | .selecting =>
      let r := dhcpOptionsProcess { c with dhcpState := .requesting } p
      some (r.1, [dhcpSendRequestPkt r.1 r.2 t])
    | .requesting =>
      match dhcpMessageType p.mem with
      | none => none
      | some messageType =>
        if messageType = some dhcpAck then
          let r := dhcpOptionsProcess c p
          -- from here on the packets and the timer are those of what loads the file
          some ({ bootpCopyNetParams r.1 r.2 with dhcpState := .bound, listening := false }, [.load])
        else some (c, [])
    | _ => some (c, [])

/-! ### Runs -/

/-- What happens next: a packet is received, or the time is up. -/
inductive Event where
  | receive (p : Received) (t : Word)
  | timeout (t : Word)

/-- What the client does. -/
def react (c : Client) : Event → Option (Client × List Action)
  | .receive p t => if c.listening then dhcpHandler c p t else some (c, [])
  | .timeout t => some (if c.listening then bootpTimeout c t else (c, []))

/-- The state after an event. -/
def next (c : Client) (e : Event) : Option Client := (react c e).map Prod.fst

end Bootp
