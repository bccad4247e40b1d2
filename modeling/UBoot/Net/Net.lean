import UBoot.Lib.AddressSpace

/-!
# Sending and receiving frames

The parts of `net/net.c` that put frames together and take them apart: `NetSendUDPPacket` with
the packet that waits for an address, `ArpRequest`, `ArpTimeoutCheck`, and `NetReceive`, as they
are configured for the board: with `ping`, without CDP, the network console, multicast, the
checksum of UDP and the reassembly of fragments.

A hardware address lives in a variable, of which the code keeps a pointer; `α` is the type of
these variables.
-/

namespace Net

/-- `ETHER_HDR_SIZE`. -/
def etherHdrSize : ℕ := 14

/-- `E802_HDR_SIZE`. -/
def e802HdrSize : ℕ := 22

/-- `VLAN_ETHER_HDR_SIZE`. -/
def vlanEtherHdrSize : ℕ := 18

/-- `PROT_IP`. -/
def protIp : ℕ := 0x0800

/-- `PROT_ARP`. -/
def protArp : ℕ := 0x0806

/-- `PROT_RARP`. -/
def protRarp : ℕ := 0x8035

/-- `PROT_VLAN`. -/
def protVlan : ℕ := 0x8100

/-- `IPPROTO_ICMP`. -/
def ipprotoIcmp : Byte := 1

/-- `IPPROTO_UDP`. -/
def ipprotoUdp : Byte := 17

/-- `IP_HDR_SIZE_NO_UDP`. -/
def ipHdrSizeNoUdp : ℕ := 20

/-- `IP_HDR_SIZE`. -/
def ipHdrSize : ℕ := 28

/-- `ARP_HDR_SIZE`. -/
def arpHdrSize : ℕ := 28

/-- `ARPOP_REQUEST`. -/
def arpopRequest : ℕ := 1

/-- `ARPOP_REPLY`. -/
def arpopReply : ℕ := 2

/-- `RARPOP_REPLY`. -/
def rarpopReply : ℕ := 4

/-- `ICMP_ECHO_REPLY`. -/
def icmpEchoReply : Byte := 0

/-- `ICMP_ECHO_REQUEST`. -/
def icmpEchoRequest : Byte := 8

/-- `VLAN_NONE`. -/
def vlanNone : ℕ := 4095

/-- `VLAN_IDMASK`. -/
def vlanIdmask : ℕ := 0x0fff

/-- `ARP_TIMEOUT`. -/
def arpTimeout : ℕ := 5000

/-- `ARP_TIMEOUT_COUNT`. -/
def arpTimeoutCount : ℕ := 5

/-- A hardware address. -/
abbrev Mac := Fin 6 → Byte

/-- Its bytes. -/
def Mac.bytes (a : Mac) : List Byte := List.ofFn a

/-- `NetBcastAddr`. -/
def netBcastAddr : Mac := fun _ => 0xff

/-- `NetEtherNullAddr`. -/
def netEtherNullAddr : Mac := fun _ => 0

/-- The variables of `net/net.c`. -/
structure Globals (α : Type) where
  netOurEther : Mac
  netOurIP : Word
  netServerIP : Word
  netOurSubnetMask : Word
  netOurGatewayIP : Word
  netOurVLAN : ℕ
  netOurNativeVLAN : ℕ
  netIPID : ℕ
  netTxPacket : ℕ → Byte
  mac : α → Mac
  netServerEther : α
  netArpWaitPacketIP : Word
  netArpWaitReplyIP : Word
  netArpWaitPacketMAC : Option α
  netArpWaitTxPacket : ℕ → Byte
  netArpWaitTxPacketSize : ℕ
  netArpWaitTimerStart : Word
  netArpWaitTry : ℕ

/-- What a function does besides: it sends a frame, hands the payload of a UDP packet to the
packet handler, calls the handler with zeros, or starts again. -/
inductive Action where
  | ethSend (frame : List Byte)
  | udp (pkt dest src len : ℕ)
  | wake (pkt : Option ℕ)
  | startAgain
deriving DecidableEq

variable {α : Type} [DecidableEq α]

/-- The variables, and what was done besides. -/
abbrev Reaction (α : Type) := Globals α × List Action

/-! ### Headers -/

/-- A VLAN id, where `-1` stands for none. -/
def vlanId (vlan : ℕ) : ℕ := if vlan = 0xffff then vlanNone else vlan

/-- The header that `NetSetEther` writes. -/
def netSetEther (g : Globals α) (addr : Mac) (prot : ℕ) : List Byte :=
  let myvlanid := vlanId g.netOurVLAN
  if myvlanid &&& vlanIdmask = vlanNone then addr.bytes ++ g.netOurEther.bytes ++ halfBytes prot
  else
    addr.bytes ++ g.netOurEther.bytes ++ halfBytes protVlan ++ halfBytes (myvlanid &&& vlanIdmask)
      ++ halfBytes prot

/-- `NetEthHdrSize`. -/
def netEthHdrSize (g : Globals α) : ℕ :=
  if vlanId g.netOurVLAN &&& vlanIdmask = vlanNone then etherHdrSize else vlanEtherHdrSize

/-- The half words of some bytes, without an odd one. -/
def halves : List Byte → List ℕ
  | hi :: lo :: bytes => (256 * hi.toNat + lo.toNat) :: halves bytes
  | _ => []

/-- `NetCksum`. -/
def netCksum (bytes : List Byte) : ℕ :=
  let xsum := (halves bytes).sum
  let xsum := (xsum &&& 0xffff) + (xsum >>> 16)
  let xsum := (xsum &&& 0xffff) + (xsum >>> 16)
  xsum &&& 0xffff

/-- `NetCksumOk`. -/
def netCksumOk (bytes : List Byte) : Bool := (netCksum bytes + 1) &&& 0xfffe = 0

/-- The header that `NetSetIP` writes, with the checksum `sum`. -/
def ipHeader (g : Globals α) (dest : Word) (len sum : ℕ) : List Byte :=
  [0x45, 0] ++ halfBytes (ipHdrSize + len) ++ halfBytes g.netIPID ++ halfBytes 0x4000
    ++ [255, ipprotoUdp] ++ halfBytes sum ++ wordBytes g.netOurIP ++ wordBytes dest

/-- The headers that `NetSetIP` writes. -/
def netSetIP (g : Globals α) (dest : Word) (dport sport len : ℕ) : List Byte :=
  ipHeader g dest len (0xffff - netCksum (ipHeader g dest len 0))
    ++ halfBytes sport ++ halfBytes dport ++ halfBytes (8 + len) ++ halfBytes 0

/-- `NetSetEther` and `NetSetIP` on a buffer; an odd packet is followed by a zero. -/
def setHeaders (g : Globals α) (m : ℕ → Byte) (addr : Mac) (dest : Word)
    (dport sport len : ℕ) : ℕ → Byte :=
  let hdr := netSetEther g addr protIp
  let m := Memory.store m 0 hdr
  let m := if len % 2 = 1 then Memory.store m (hdr.length + ipHdrSize + len) [0] else m
  Memory.store m hdr.length (netSetIP g dest dport sport len)

/-! ### Sending -/

/-- `ArpRequest`. -/
def arpRequest (g : Globals α) : Reaction α :=
  let reply :=
    if g.netArpWaitPacketIP &&& g.netOurSubnetMask ≠ g.netOurIP &&& g.netOurSubnetMask then
      if g.netOurGatewayIP = 0 then g.netArpWaitPacketIP else g.netOurGatewayIP
    else g.netArpWaitPacketIP
  let frame := netSetEther g netBcastAddr protArp ++ halfBytes 1 ++ halfBytes protIp ++ [6, 4]
    ++ halfBytes arpopRequest ++ g.netOurEther.bytes ++ wordBytes g.netOurIP
    ++ netEtherNullAddr.bytes ++ wordBytes reply
  ({ g with netArpWaitReplyIP := reply, netTxPacket := Memory.store g.netTxPacket 0 frame },
    [.ethSend frame])

/-- `ArpTimeoutCheck` at the time `t`. -/
def arpTimeoutCheck (g : Globals α) (t : Word) : Reaction α :=
  if g.netArpWaitPacketIP = 0 then (g, [])
  else if (t - g.netArpWaitTimerStart).toNat > arpTimeout then
    let g := { g with netArpWaitTry := g.netArpWaitTry + 1 }
    if g.netArpWaitTry ≥ arpTimeoutCount then ({ g with netArpWaitTry := 0 }, [.startAgain])
    else arpRequest { g with netArpWaitTimerStart := t }
  else (g, [])

/-- `NetSendUDPPacket` at the time `t`; the payload is in `NetTxPacket`, behind the headers. -/
def netSendUDPPacket (g : Globals α) (ether : α) (dest : Word) (dport sport len : ℕ) (t : Word) :
    Reaction α :=
  let dest := if dest = 0 then 0xffffffff else dest
  let addr := if dest = 0xffffffff then netBcastAddr else g.mac ether
  if addr = netEtherNullAddr then
    let hdr := (netSetEther g addr protIp).length
    let m := setHeaders g g.netArpWaitTxPacket addr dest dport sport len
    let m := Memory.store m (hdr + ipHdrSize) (Memory.read g.netTxPacket (hdr + ipHdrSize) len)
    arpRequest { g with
      netArpWaitPacketIP := dest
      netArpWaitPacketMAC := some ether
      netIPID := g.netIPID + 1
      netArpWaitTxPacket := m
      netArpWaitTxPacketSize := hdr + ipHdrSize + len
      netArpWaitTry := 1
      netArpWaitTimerStart := t }
  else
    let m := setHeaders g g.netTxPacket addr dest dport sport len
    ({ g with netIPID := g.netIPID + 1, netTxPacket := m },
      [.ethSend (Memory.read m 0 ((netSetEther g addr protIp).length + ipHdrSize + len))])

/-! ### Receiving -/

/-- A frame that was received: the memory from its first byte on, and its length. -/
structure Frame where
  mem : List Byte
  len : ℕ
  len_le : len ≤ mem.length
  len_lt : len < 2 ^ 31

namespace Frame

/-- The half word at an offset. -/
def half (f : Frame) (p : ℕ) : ℕ := bytesHalf (f.mem.drop p)

/-- The byte at an offset. -/
def byte (f : Frame) (p : ℕ) : Byte := f.mem.getD p 0

/-- Some bytes at an offset. -/
def bytes (f : Frame) (p n : ℕ) : List Byte := (f.mem.drop p).take n

/-- The hardware address at an offset. -/
def mac (f : Frame) (p : ℕ) : Mac := fun i => f.byte (p + i)

/-- The word at an offset. -/
def word (f : Frame) (p : ℕ) : Word := bytesWord (f.bytes p 4)

end Frame

/-- Some bytes with others written over them. -/
def overwrite (bytes : List Byte) (p : ℕ) (new : List Byte) : List Byte :=
  bytes.take p ++ new ++ bytes.drop (p + new.length)

/-- The protocol of a frame, where its packet is, and the length of the packet. -/
structure Packet where
  prot : ℕ
  ip : ℕ
  len : ℤ

/-- A packet of a VLAN, unless it is not ours. -/
def vlanAccept (g : Globals α) (vlanid : ℕ) (p : Packet) : Option Packet :=
  let myvlanid := vlanId g.netOurVLAN &&& vlanIdmask
  let vlanid := if vlanid = vlanNone then vlanId g.netOurNativeVLAN &&& vlanIdmask else vlanid
  if myvlanid ≠ vlanNone ∧ vlanid ≠ myvlanid then none else some p

/-- The framing of a frame. -/
def framing (g : Globals α) (f : Frame) : Option Packet :=
  if f.len < etherHdrSize then none
  else if f.half 12 < 1514 then vlanAccept g vlanNone ⟨f.half 20, e802HdrSize, f.len - e802HdrSize⟩
  else if f.half 12 ≠ protVlan then
    vlanAccept g vlanNone ⟨f.half 12, etherHdrSize, f.len - etherHdrSize⟩
  else if f.len < vlanEtherHdrSize then none
  else if g.netOurVLAN &&& vlanIdmask = vlanNone then none
  else
    vlanAccept g (f.half 14 &&& vlanIdmask)
      ⟨f.half 16, vlanEtherHdrSize, f.len - vlanEtherHdrSize⟩

/-- The answer to an ARP request, made in place. -/
def arpAnswer (g : Globals α) (f : Frame) (arp : ℕ) : List Byte :=
  let hdr := netSetEther g (f.mac 6) protArp
  let m := overwrite f.mem 0 hdr
  let m := overwrite m (arp + 6) (halfBytes arpopReply)
  let m := overwrite m (arp + 18) ((m.drop (arp + 8)).take 6)
  let m := overwrite m (arp + 24) ((m.drop (arp + 14)).take 4)
  let m := overwrite m (arp + 8) g.netOurEther.bytes
  let m := overwrite m (arp + 14) (wordBytes g.netOurIP)
  m.take (hdr.length + arpHdrSize)

/-- The reply to our ARP request. -/
def arpReply (g : Globals α) (f : Frame) (arp : ℕ) : Reaction α :=
  match g.netArpWaitPacketMAC with
  | none => (g, [])
  | some ether =>
    if g.netArpWaitPacketIP = 0 then (g, [])
    else if f.word (arp + 14) = g.netArpWaitReplyIP then
      let addr := f.mac (arp + 8)
      let m := Memory.store g.netArpWaitTxPacket 0 addr.bytes
      ({ g with
          mac := Function.update g.mac ether addr
          netArpWaitTxPacket := m
          netArpWaitPacketIP := 0
          netArpWaitTxPacketSize := 0
          netArpWaitPacketMAC := none },
        [.ethSend (Memory.read m 0 g.netArpWaitTxPacketSize)])
    else (g, [])

/-- An ARP packet. -/
def receiveArp (g : Globals α) (f : Frame) (p : Packet) : Reaction α :=
  if p.len < arpHdrSize then (g, [])
  else if f.half p.ip ≠ 1 then (g, [])
  else if f.half (p.ip + 2) ≠ protIp then (g, [])
  else if f.byte (p.ip + 4) ≠ 6 then (g, [])
  else if f.byte (p.ip + 5) ≠ 4 then (g, [])
  else if g.netOurIP = 0 then (g, [])
  else if f.word (p.ip + 24) ≠ g.netOurIP then (g, [])
  else if f.half (p.ip + 6) = arpopRequest then (g, [.ethSend (arpAnswer g f p.ip)])
  else if f.half (p.ip + 6) = arpopReply then arpReply g f p.ip
  else (g, [])

/-- A RARP packet. -/
def receiveRarp (g : Globals α) (f : Frame) (p : Packet) : Reaction α :=
  if p.len < arpHdrSize then (g, [])
  else if f.half (p.ip + 6) ≠ rarpopReply ∨ f.half p.ip ≠ 1 ∨ f.half (p.ip + 2) ≠ protIp
      ∨ f.byte (p.ip + 4) ≠ 6 ∨ f.byte (p.ip + 5) ≠ 4 then (g, [])
  else
    ({ g with
        netOurIP := f.word (p.ip + 24)
        netServerIP := if g.netServerIP = 0 then f.word (p.ip + 14) else g.netServerIP
        mac := Function.update g.mac g.netServerEther (f.mac (p.ip + 8)) },
      [.wake none])

/-- The answer to an echo request, made in place; `len` is the length of the IP packet.  For a
length below 20, of no packet that has a header, the unsigned `len - IP_HDR_SIZE_NO_UDP` of the
source wraps around where it is 0 here. -/
def echoAnswer (g : Globals α) (f : Frame) (ip len : ℕ) : List Byte :=
  let m := overwrite f.mem 0 (f.mac 6).bytes
  let m := overwrite m 6 g.netOurEther.bytes
  let m := overwrite m (ip + 10) (halfBytes 0)
  let m := overwrite m (ip + 6) (halfBytes 0)
  let m := overwrite m (ip + 16) ((m.drop (ip + 12)).take 4)
  let m := overwrite m (ip + 12) (wordBytes g.netOurIP)
  let m := overwrite m (ip + 10)
    (halfBytes (0xffff - netCksum ((m.drop ip).take ipHdrSizeNoUdp)))
  let m := overwrite m (ip + 20) [icmpEchoReply]
  let m := overwrite m (ip + 22) (halfBytes 0)
  let m := overwrite m (ip + 22)
    (halfBytes (0xffff - netCksum ((m.drop (ip + 20)).take (len - ipHdrSizeNoUdp))))
  m.take (etherHdrSize + len)

/-- An ICMP packet. -/
def receiveIcmp (g : Globals α) (f : Frame) (ip len : ℕ) : List Action :=
  if f.byte (ip + 20) = icmpEchoReply then [.wake (some ip)]
  else if f.byte (ip + 20) = icmpEchoRequest then [.ethSend (echoAnswer g f ip len)]
  else []

/-- An IP packet.  The first comparison is one of unsigned numbers. -/
def receiveIp (g : Globals α) (f : Frame) (p : Packet) : List Action :=
  if p.len % 2 ^ 32 < ipHdrSize then []
  else if p.len < f.half (p.ip + 2) then []
  else if f.byte p.ip &&& 0xf0 ≠ 0x40 then []
  else if f.byte p.ip &&& 0x0f > 5 then []
  else if ¬ netCksumOk (f.bytes p.ip ipHdrSizeNoUdp) then []
  else if g.netOurIP ≠ 0 ∧ f.word (p.ip + 16) ≠ g.netOurIP ∧ f.word (p.ip + 16) ≠ 0xffffffff then []
  else if f.half (p.ip + 6) &&& 0x3fff ≠ 0 then []
  else if f.byte (p.ip + 9) = ipprotoIcmp then receiveIcmp g f p.ip (f.half (p.ip + 2))
  else if f.byte (p.ip + 9) ≠ ipprotoUdp then []
  else
    [.udp (p.ip + ipHdrSize) (f.half (p.ip + 22)) (f.half (p.ip + 20))
      ((f.half (p.ip + 24) + (2 ^ 32 - 8)) % 2 ^ 32)]

/-- `NetReceive`. -/
def netReceive (g : Globals α) (f : Frame) : Reaction α :=
  match framing g f with
  | none => (g, [])
  | some p =>
    if p.prot = protArp then receiveArp g f p
    else if p.prot = protRarp then receiveRarp g f p
    else if p.prot = protIp then (g, receiveIp g f p)
    else (g, [])

end Net
