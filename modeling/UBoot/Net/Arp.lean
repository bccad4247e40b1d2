import UBoot.Lib.Run
import UBoot.Net.Payload

/-!
# Resolving addresses

A packet for a host whose hardware address is not known waits until the host, or the gateway,
has replied to an ARP request.  There is one place for a packet to wait in, and what is known of
it is spread over several variables; the theorem says what they amount to: at most one packet
waits, the last one that was put there, and it leaves once, when the reply comes that it waits
for.
-/

namespace Net

variable {α : Type}

/-! ### Runs -/

/-- A packet that was put in the place to wait in. -/
structure Queued (α : Type) where
  serial : ℕ
  ether : α
  dest : Word
  dport : ℕ
  sport : ℕ
  payload : List Byte
  id : ℕ

/-- The frame of a packet that is sent to a hardware address. -/
def Queued.frame (g : Globals α) (q : Queued α) (addr : Mac) : List Byte :=
  netSetEther g addr protIp
    ++ (netSetIP { g with netIPID := q.id } q.dest q.dport q.sport q.payload.length ++ q.payload)

/-- A frame that was sent from the place to wait in, what had been put there, and the frame
that it was sent for. -/
structure Sent (α : Type) where
  queued : Option (Queued α)
  reply : Frame
  frame : List Byte

/-- The variables, what was put in the place to wait in and was not sent since, the number of
packets that were put there, and what was sent from there. -/
structure System (α : Type) where
  net : Globals α
  queued : Option (Queued α)
  count : ℕ
  log : List (Sent α)

/-- The protocol of a frame. -/
def Frame.prot (f : Frame) : ℕ :=
  if f.half 12 < 1514 then f.half 20
  else if f.half 12 ≠ protVlan then f.half 12
  else f.half 16

/-- What happens next: a call of `NetSendUDPPacket` with its payload, a call of
`ArpTimeoutCheck`, a frame other than one of RARP, or that a hardware address is forgotten. -/
inductive Event (α : Type) where
  | send (ether : α) (dest : Word) (dport sport : ℕ) (payload : List Byte) (t : Word)
  | timeout (t : Word)
  | receive (f : Frame) (h : f.prot ≠ protRarp)
  | forget (ether : α)

/-- The address is not known, and the packet is no broadcast. -/
def Unresolved (g : Globals α) (ether : α) (dest : Word) : Prop :=
  dest ≠ 0 ∧ dest ≠ 0xffffffff ∧ g.mac ether = netEtherNullAddr

instance (g : Globals α) (ether : α) (dest : Word) : Decidable (Unresolved g ether dest) :=
  inferInstanceAs (Decidable (_ ∧ _))

/-- The frame is a reply. -/
def Frame.IsReply (f : Frame) : Prop := f.prot = protArp ∧ f.half (f.ip + 6) = arpopReply

instance (f : Frame) : Decidable f.IsReply := inferInstanceAs (Decidable (_ ∧ _))

/-- The hardware address of the sender of an ARP packet. -/
def Frame.senderEther (f : Frame) : Mac := f.mac (f.ip + 8)

/-- The address of the sender of an ARP packet. -/
def Frame.senderIP (f : Frame) : Word := f.word (f.ip + 14)

/-- The caller of `NetSendUDPPacket` puts the payload behind the headers. -/
def putPayload (g : Globals α) (payload : List Byte) : Globals α :=
  { g with netTxPacket := Memory.store g.netTxPacket (netEthHdrSize g + ipHdrSize) payload }

/-- What an event makes the code do. -/
def react [DecidableEq α] (g : Globals α) : Event α → Reaction α
  | .send ether dest dport sport payload t =>
    netSendUDPPacket (putPayload g payload) ether dest dport sport payload.length t
  | .timeout t => arpTimeoutCheck g t
  | .receive f _ => netReceive g f
  | .forget ether => ({ g with mac := Function.update g.mac ether netEtherNullAddr }, [])

/-- The frames that were sent. -/
def sentFrames (actions : List Action) : List (List Byte) :=
  actions.filterMap fun
    | .ethSend frame => some frame
    | _ => none

/-- One event, and what is remembered of it. -/
def System.step [DecidableEq α] (s : System α) (e : Event α) : System α :=
  let r := react s.net e
  match e with
  | .send ether dest dport sport payload _ =>
    if Unresolved s.net ether dest then
      { s with
        net := r.1
        queued := some ⟨s.count, ether, dest, dport, sport, payload, s.net.netIPID⟩
        count := s.count + 1 }
    else { s with net := r.1 }
  | .receive f _ =>
    if f.IsReply ∧ sentFrames r.2 ≠ [] then
      { s with
        net := r.1
        queued := none
        log := s.log ++ (sentFrames r.2).map fun frame => ⟨s.queued, f, frame⟩ }
    else { s with net := r.1 }
  | _ => { s with net := r.1 }

/-- What `NetLoop` sets at its start. -/
def netLoopStart (g : Globals α) : Globals α :=
  { g with
    netArpWaitPacketMAC := none
    netArpWaitPacketIP := 0
    netArpWaitReplyIP := 0
    netArpWaitTxPacketSize := 0 }

/-- The start of a run. -/
def System.start (g : Globals α) : System α := ⟨netLoopStart g, none, 0, []⟩

/-- The state after some events. -/
def System.run [DecidableEq α] (g : Globals α) (es : List (Event α)) : System α :=
  es.foldl System.step (.start g)

/-- The address to ask for: the destination when it is on our subnet or there is no gateway,
and otherwise the gateway. -/
def askedFor (g : Globals α) (dest : Word) : Word :=
  if dest &&& g.netOurSubnetMask = g.netOurIP &&& g.netOurSubnetMask ∨ g.netOurGatewayIP = 0 then dest
  else g.netOurGatewayIP

/-! ### Headers -/

/-- What is the same in all headers of one kind. -/
def etherTail (g : Globals α) (prot : ℕ) : List Byte :=
  if vlanId g.netOurVLAN &&& vlanIdmask = vlanNone then g.netOurEther.bytes ++ halfBytes prot
  else
    g.netOurEther.bytes ++ halfBytes protVlan
      ++ halfBytes (vlanId g.netOurVLAN &&& vlanIdmask) ++ halfBytes prot

theorem netSetEther_eq (g : Globals α) (addr : Mac) (prot : ℕ) :
  netSetEther g addr prot = addr.bytes ++ etherTail g prot
  := by
  unfold netSetEther etherTail
  simp only
  split
  · rw [List.append_assoc]
  · simp only [List.append_assoc]

theorem length_netSetEther (g : Globals α) (addr : Mac) (prot : ℕ) :
  (netSetEther g addr prot).length = netEthHdrSize g
  := by
  unfold netSetEther netEthHdrSize
  simp only
  split
  · simp [Mac.bytes, halfBytes, etherHdrSize]
  · simp [Mac.bytes, halfBytes, vlanEtherHdrSize]

theorem length_netSetIP (g : Globals α) (dest : Word) (dport sport len : ℕ) :
  (netSetIP g dest dport sport len).length = ipHdrSize
  := by
  simp [netSetIP, ipHeader, halfBytes, wordBytes, ipHdrSize]

/-- The parts of the configuration that frames are made from are the same. -/
structure SameConfig (g g' : Globals α) : Prop where
  netOurEther : g'.netOurEther = g.netOurEther
  netOurIP : g'.netOurIP = g.netOurIP
  netOurSubnetMask : g'.netOurSubnetMask = g.netOurSubnetMask
  netOurGatewayIP : g'.netOurGatewayIP = g.netOurGatewayIP
  netOurVLAN : g'.netOurVLAN = g.netOurVLAN

variable {g₀ g g' : Globals α} {q : Queued α} {f : Frame}

theorem SameConfig.frame (h : SameConfig g g') (q : Queued α) (addr : Mac) :
  q.frame g' addr = q.frame g addr
  := by
  simp only [Queued.frame, netSetEther, netSetIP, ipHeader, h.netOurEther, h.netOurIP, h.netOurVLAN]

theorem SameConfig.askedFor (h : SameConfig g g') (dest : Word) :
  askedFor g' dest = askedFor g dest
  := by
  simp only [Net.askedFor, h.netOurIP, h.netOurSubnetMask, h.netOurGatewayIP]

/-! ### The packet that waits -/

/-- The packet `q` waits for the reply. -/
structure Waits (g₀ : Globals α) (q : Queued α) (g : Globals α) : Prop where
  dest_ne : q.dest ≠ 0
  packetIP : g.netArpWaitPacketIP = q.dest
  packetMAC : g.netArpWaitPacketMAC = some q.ether
  replyIP : g.netArpWaitReplyIP = askedFor g₀ q.dest
  size : g.netArpWaitTxPacketSize = (q.frame g₀ netEtherNullAddr).length
  holds : Memory.Holds g.netArpWaitTxPacket 0 (q.frame g₀ netEtherNullAddr)

theorem arpRequest_eq (g : Globals α) :
  (arpRequest g).1
    = { g with
        netArpWaitReplyIP := askedFor g g.netArpWaitPacketIP
        netTxPacket := (arpRequest g).1.netTxPacket }
  := by
  unfold arpRequest askedFor
  simp only [ne_eq, ite_not]
  by_cases hnet : g.netArpWaitPacketIP &&& g.netOurSubnetMask = g.netOurIP &&& g.netOurSubnetMask
  · simp [hnet]
  · simp [hnet]

theorem arpRequest_snd (h : SameConfig g g') (hip : g'.netArpWaitPacketIP = g.netArpWaitPacketIP) :
  (arpRequest g').2 = (arpRequest g).2
  := by
  simp only [arpRequest, netSetEther, h.netOurEther, h.netOurIP, h.netOurSubnetMask,
    h.netOurGatewayIP, h.netOurVLAN, hip]

/-- The headers and the payload, one after the other. -/
theorem holds_setHeaders (g : Globals α) (m : ℕ → Byte) (addr : Mac) (dest : Word)
    (dport sport : ℕ) (payload : List Byte) :
  Memory.Holds
    (Memory.store (setHeaders g m addr dest dport sport payload.length)
      (netEthHdrSize g + ipHdrSize) payload) 0
    (netSetEther g addr protIp
      ++ (netSetIP g dest dport sport payload.length ++ payload))
  := by
  have hether := length_netSetEther g addr protIp
  have hip := length_netSetIP g dest dport sport payload.length
  rw [Memory.holds_append, Memory.holds_append, Nat.zero_add, hether, hip]
  unfold setHeaders
  simp only [hether]
  refine ⟨?_, ?_, Memory.holds_store _ _ _⟩
  · apply Memory.Holds.store _ _ (.inl (by omega))
    apply Memory.Holds.store _ _ (.inl (by omega))
    split
    · apply Memory.Holds.store _ _ (.inl (by omega))
      apply Memory.holds_store
    · apply Memory.holds_store
  · apply Memory.Holds.store _ _ (.inl (by omega))
    apply Memory.holds_store

/-- A packet for an unknown address waits. -/
theorem waits_send {ether : α} {dest : Word} {dport sport : ℕ} {payload : List Byte} {t : Word}
    (hconfig : SameConfig g₀ g) (h : Unresolved g ether dest) (serial : ℕ) :
  Waits g₀ ⟨serial, ether, dest, dport, sport, payload, g.netIPID⟩
    (netSendUDPPacket (putPayload g payload) ether dest dport sport payload.length t).1
  := by
  obtain ⟨hzero, hbcast, hnull⟩ := h
  have hhdr : netEthHdrSize (putPayload g payload) = netEthHdrSize g := rfl
  have hread : Memory.read (putPayload g payload).netTxPacket (netEthHdrSize g + ipHdrSize)
      payload.length = payload := by
    apply Memory.Holds.read_eq
    apply Memory.holds_store
  have hholds := holds_setHeaders (putPayload g payload) g.netArpWaitTxPacket netEtherNullAddr dest
    dport sport payload
  have hmac : (putPayload g payload).mac ether = netEtherNullAddr := hnull
  unfold netSendUDPPacket
  simp only [if_neg hzero, if_neg hbcast, hmac, if_true, length_netSetEther, hhdr, hread]
  rw [arpRequest_eq]
  refine ⟨hzero, rfl, rfl, ?_, ?_, ?_⟩
  · apply hconfig.askedFor
  · rw [← hconfig.frame, Queued.frame, List.length_append, List.length_append, length_netSetEther,
      length_netSetIP, Nat.add_assoc]
  · rw [← hconfig.frame]
    apply hholds

/-- The place to wait in and what is known of addresses are left alone. -/
structure Untouched (g g' : Globals α) : Prop where
  config : SameConfig g g'
  mac : g'.mac = g.mac
  packetIP : g'.netArpWaitPacketIP = g.netArpWaitPacketIP
  packetMAC : g'.netArpWaitPacketMAC = g.netArpWaitPacketMAC
  size : g'.netArpWaitTxPacketSize = g.netArpWaitTxPacketSize
  txPacket : g'.netArpWaitTxPacket = g.netArpWaitTxPacket
  replyIP : g'.netArpWaitReplyIP = g.netArpWaitReplyIP
    ∨ g'.netArpWaitReplyIP = askedFor g g.netArpWaitPacketIP

theorem Untouched.refl (g : Globals α) :
  Untouched g g
  := ⟨⟨rfl, rfl, rfl, rfl, rfl⟩, rfl, rfl, rfl, rfl, rfl, .inl rfl⟩

theorem SameConfig.trans {g₁ g₂ g₃ : Globals α} (h : SameConfig g₁ g₂) (h' : SameConfig g₂ g₃) :
  SameConfig g₁ g₃
  where
  netOurEther := h'.netOurEther.trans h.netOurEther
  netOurIP := h'.netOurIP.trans h.netOurIP
  netOurSubnetMask := h'.netOurSubnetMask.trans h.netOurSubnetMask
  netOurGatewayIP := h'.netOurGatewayIP.trans h.netOurGatewayIP
  netOurVLAN := h'.netOurVLAN.trans h.netOurVLAN

theorem Waits.untouched (h : Waits g₀ q g) (hconfig : SameConfig g₀ g) (hg' : Untouched g g') :
  Waits g₀ q g'
  where
  dest_ne := h.dest_ne
  packetIP := hg'.packetIP.trans h.packetIP
  packetMAC := hg'.packetMAC.trans h.packetMAC
  replyIP := by
    rcases hg'.replyIP with hreply | hreply
    · rw [hreply, h.replyIP]
    · rw [hreply, h.packetIP, hconfig.askedFor]
  size := hg'.size.trans h.size
  holds := by
    rw [hg'.txPacket]
    apply h.holds

theorem untouched_timeout (g : Globals α) (t : Word) :
  Untouched g (arpTimeoutCheck g t).1
  := by
  unfold arpTimeoutCheck
  split
  · apply Untouched.refl
  split
  · simp only
    split
    · exact ⟨⟨rfl, rfl, rfl, rfl, rfl⟩, rfl, rfl, rfl, rfl, rfl, .inl rfl⟩
    · rw [arpRequest_eq]
      exact ⟨⟨rfl, rfl, rfl, rfl, rfl⟩, rfl, rfl, rfl, rfl, rfl, .inr rfl⟩
  · apply Untouched.refl

/-- A packet for a known address, or for all, is sent at once. -/
theorem untouched_send {ether : α} {dest : Word} (h : ¬ Unresolved g ether dest)
    (dport sport : ℕ) (payload : List Byte) (t : Word) :
  Untouched g
    (netSendUDPPacket (putPayload g payload) ether dest dport sport payload.length t).1
  := by
  have hne : (if (if dest = 0 then 0xffffffff else dest) = 0xffffffff then netBcastAddr
      else (putPayload g payload).mac ether) ≠ netEtherNullAddr := by
    intro hnull
    have hbcast : netBcastAddr ≠ netEtherNullAddr := by decide
    by_cases hzero : dest = 0
    · rw [if_pos hzero, if_pos rfl] at hnull
      apply hbcast hnull
    · rw [if_neg hzero] at hnull
      by_cases hall : dest = 0xffffffff
      · rw [if_pos hall] at hnull
        apply hbcast hnull
      · rw [if_neg hall] at hnull
        apply h ⟨hzero, hall, hnull⟩
  unfold netSendUDPPacket
  simp only [if_neg hne]
  exact ⟨⟨rfl, rfl, rfl, rfl, rfl⟩, rfl, rfl, rfl, rfl, rfl, .inl rfl⟩

/-- A packet for an unknown address changes no address. -/
theorem send_unresolved {ether : α} {dest : Word} (h : Unresolved g ether dest)
    (dport sport : ℕ) (payload : List Byte) (t : Word) :
  SameConfig g
    (netSendUDPPacket (putPayload g payload) ether dest dport sport payload.length t).1
  := by
  obtain ⟨hzero, hbcast, hnull⟩ := h
  have hmac : (putPayload g payload).mac ether = netEtherNullAddr := hnull
  unfold netSendUDPPacket
  simp only [if_neg hzero, if_neg hbcast, hmac, if_true]
  rw [arpRequest_eq]
  exact ⟨rfl, rfl, rfl, rfl, rfl⟩

/-- Sending does not look at what is in the place to wait in. -/
theorem netSendUDPPacket_snd (m : ℕ → Byte) (ether : α) (dest : Word) (dport sport len : ℕ)
    (t : Word) :
  (netSendUDPPacket { g with netArpWaitTxPacket := m } ether dest dport sport len t).2
    = (netSendUDPPacket g ether dest dport sport len t).2
  := by
  unfold netSendUDPPacket
  simp only
  generalize (if dest = 0 then 0xffffffff else dest) = dest
  generalize (if dest = 0xffffffff then netBcastAddr else g.mac ether) = addr
  split
  · apply arpRequest_snd
    · exact ⟨rfl, rfl, rfl, rfl, rfl⟩
    · rfl
  · rfl

/-! ### Frames -/

theorem framing_prot {p : Packet} (h : framing g f = some p) :
  p.prot = f.prot
  := by
  unfold Frame.prot
  rcases framing_cases h with ⟨hlt, rfl⟩ | ⟨hge, hne, rfl⟩ | ⟨heq, rfl⟩
  · rw [if_pos hlt]
  · rw [if_neg hge, if_pos hne]
  · rw [heq]
    rfl

section

variable [DecidableEq α]

/-- A reply that is for us is looked at; other frames change nothing. -/
theorem receiveArp_cases (p : Packet) :
  (receiveArp g f p).1 = g
      ∧ (f.half (p.ip + 6) = arpopReply → sentFrames (receiveArp g f p).2 = [])
    ∨ f.half (p.ip + 6) = arpopReply ∧ receiveArp g f p = arpReply g f p.ip
  := by
  have hskip : ∀ (c : Prop) [Decidable c] (r : Reaction α),
      (r.1 = g ∧ (f.half (p.ip + 6) = arpopReply → sentFrames r.2 = [])
        ∨ f.half (p.ip + 6) = arpopReply ∧ r = arpReply g f p.ip) →
      ((if c then (g, []) else r).1 = g
          ∧ (f.half (p.ip + 6) = arpopReply → sentFrames (if c then (g, []) else r).2 = [])
        ∨ f.half (p.ip + 6) = arpopReply ∧ (if c then (g, []) else r) = arpReply g f p.ip) := by
    intro c _ r hr
    split
    · exact .inl ⟨rfl, fun _ => rfl⟩
    · apply hr
  unfold receiveArp
  iterate 7 apply hskip
  split
  case isTrue hrequest =>
    refine .inl ⟨rfl, ?_⟩
    rw [hrequest]
    intro hne
    cases hne
  case isFalse =>
    split
    case isTrue hreply => exact .inr ⟨hreply, rfl⟩
    case isFalse => exact .inl ⟨rfl, fun _ => rfl⟩

theorem netReceive_cases (h : f.prot ≠ protRarp) :
  (netReceive g f).1 = g ∧ (f.IsReply → sentFrames (netReceive g f).2 = [])
    ∨ f.IsReply ∧ netReceive g f = arpReply g f f.ip
  := by
  unfold netReceive
  split
  · exact .inl ⟨rfl, fun _ => rfl⟩
  case h_2 p hframing =>
    have hprot := framing_prot hframing
    have hip := framing_ip hframing
    split
    case isTrue harp =>
      rcases receiveArp_cases (g := g) (f := f) p with ⟨hg, hsent⟩ | ⟨hreply, heq⟩
      · refine .inl ⟨hg, ?_⟩
        intro hreply
        apply hsent
        rw [hip]
        apply hreply.2
      · rw [hip] at hreply heq
        exact .inr ⟨⟨hprot.symm.trans harp, hreply⟩, heq⟩
    case isFalse harp =>
      have hno : ¬ f.IsReply := fun hreply => harp (hprot.trans hreply.1)
      split
      case isTrue hrarp => apply absurd (hprot.symm.trans hrarp) h
      case isFalse =>
        split
        · exact .inl ⟨rfl, fun hreply => absurd hreply hno⟩
        · exact .inl ⟨rfl, fun hreply => absurd hreply hno⟩

theorem arpReply_of_none (ip : ℕ)
    (h : g.netArpWaitPacketIP = 0 ∨ g.netArpWaitPacketMAC = none) :
  arpReply g f ip = (g, [])
  := by
  unfold arpReply
  split
  · rfl
  case h_2 ether hether =>
    rcases h with h | h
    · rw [if_pos h]
    · rw [hether] at h
      cases h

/-- The reply that the packet waits for, and no other one. -/
theorem Waits.arpReply (h : Waits g₀ q g) (ip : ℕ) :
  f.word (ip + 14) ≠ askedFor g₀ q.dest ∧ Net.arpReply g f ip = (g, [])
    ∨ f.word (ip + 14) = askedFor g₀ q.dest
      ∧ (Net.arpReply g f ip).2 = [.ethSend (q.frame g₀ (f.mac (ip + 8)))]
      ∧ (Net.arpReply g f ip).1
        = { g with
            mac := Function.update g.mac q.ether (f.mac (ip + 8))
            netArpWaitTxPacket := Memory.store g.netArpWaitTxPacket 0 (f.mac (ip + 8)).bytes
            netArpWaitPacketIP := 0
            netArpWaitTxPacketSize := 0
            netArpWaitPacketMAC := none }
  := by
  have hzero : g.netArpWaitPacketIP ≠ 0 := by
    rw [h.packetIP]
    apply h.dest_ne
  unfold Net.arpReply
  simp only [h.packetMAC, if_neg hzero, h.replyIP]
  by_cases heq : f.word (ip + 14) = askedFor g₀ q.dest
  · right
    simp only [if_pos heq]
    refine ⟨heq, ?_, trivial⟩
    -- the address goes over the zeros in front of the packet
    have hlength : ∀ addr, (q.frame g₀ addr).length = (q.frame g₀ netEtherNullAddr).length := by
      intro addr
      simp only [Queued.frame, List.length_append, length_netSetEther]
    have hbytes : ∀ addr : Mac, addr.bytes.length = 6 := by
      intro addr
      simp [Mac.bytes]
    have hholds := h.holds
    rw [Queued.frame, netSetEther_eq, List.append_assoc, Memory.holds_append, hbytes] at hholds
    have hframe : Memory.Holds (Memory.store g.netArpWaitTxPacket 0 (f.mac (ip + 8)).bytes) 0
        (q.frame g₀ (f.mac (ip + 8))) := by
      rw [Queued.frame, netSetEther_eq, List.append_assoc, Memory.holds_append, hbytes]
      refine ⟨Memory.holds_store _ _ _, ?_⟩
      apply hholds.2.store
      right
      rw [hbytes]
    rw [h.size, ← hlength (f.mac (ip + 8)), hframe.read_eq]
  · left
    refine ⟨heq, ?_⟩
    simp only [if_neg heq]

end

/-! ### The invariant -/

/-- What was sent is what had waited, for the reply that it waited for. -/
def Answered (g₀ : Globals α) (x : Sent α) (q : Queued α) : Prop :=
  x.queued = some q ∧ x.reply.IsReply ∧ x.reply.senderIP = askedFor g₀ q.dest
    ∧ x.frame = q.frame g₀ x.reply.senderEther

/-- The invariant of the runs. -/
structure Inv (g₀ : Globals α) (s : System α) : Prop where
  config : SameConfig g₀ s.net
  idle : s.queued = none → s.net.netArpWaitPacketIP = 0 ∨ s.net.netArpWaitPacketMAC = none
  waits : ∀ q, s.queued = some q → Waits g₀ q s.net ∧ q.serial < s.count
  answered : ∀ x ∈ s.log, ∃ q, Answered g₀ x q ∧ q.serial < s.count
    ∧ ∀ q', s.queued = some q' → q.serial ≠ q'.serial
  nodup : (s.log.map fun x => x.queued.map Queued.serial).Nodup

theorem inv_start (g : Globals α) :
  Inv g (.start g)
  where
  config := ⟨rfl, rfl, rfl, rfl, rfl⟩
  idle := fun _ => .inl rfl
  waits := nofun
  answered := nofun
  nodup := List.nodup_nil

theorem Inv.untouched {s : System α} (h : Inv g₀ s) (hg' : Untouched s.net g') :
  Inv g₀ { s with net := g' }
  where
  config := h.config.trans hg'.config
  idle := by
    intro hnone
    rw [hg'.packetIP, hg'.packetMAC]
    apply h.idle hnone
  waits := by
    intro q hq
    exact ⟨(h.waits q hq).1.untouched h.config hg', (h.waits q hq).2⟩
  answered := h.answered
  nodup := h.nodup

/-- Forgetting an address does not touch the packet that waits. -/
theorem Inv.forget {s : System α} (h : Inv g₀ s) (mac : α → Mac) :
  Inv g₀ { s with net := { s.net with mac := mac } }
  where
  config := { h.config with }
  idle := h.idle
  waits := by
    intro q hq
    exact ⟨{ (h.waits q hq).1 with }, (h.waits q hq).2⟩
  answered := h.answered
  nodup := h.nodup

theorem Inv.queue {s : System α} {q : Queued α} (h : Inv g₀ s) (hconfig : SameConfig g₀ g')
    (hwaits : Waits g₀ q g') (hserial : q.serial = s.count) :
  Inv g₀ { s with net := g', queued := some q, count := s.count + 1 }
  where
  config := hconfig
  idle := nofun
  waits := by
    intro q' hq'
    obtain rfl := Option.some.inj hq'
    exact ⟨hwaits, by rw [hserial]; exact Nat.lt_succ_self _⟩
  answered := by
    intro x hx
    obtain ⟨q', hq', hlt, -⟩ := h.answered x hx
    refine ⟨q', hq', Nat.lt_succ_of_lt hlt, ?_⟩
    intro q'' hq''
    obtain rfl := Option.some.inj hq''
    rw [hserial]
    apply hlt.ne
  nodup := h.nodup

/-- The packet that waits is sent, and nothing waits any more. -/
theorem Inv.answer {s : System α} {q : Queued α} {x : Sent α} (h : Inv g₀ s)
    (hq : s.queued = some q) (hconfig : SameConfig g₀ g') (hidle : g'.netArpWaitPacketIP = 0)
    (hx : Answered g₀ x q) :
  Inv g₀ { s with net := g', queued := none, log := s.log ++ [x] }
  where
  config := hconfig
  idle := fun _ => .inl hidle
  waits := nofun
  answered := by
    intro y hy
    rcases List.mem_append.mp hy with hy | hy
    · obtain ⟨q', hq', hlt, -⟩ := h.answered y hy
      exact ⟨q', hq', hlt, nofun⟩
    · obtain rfl := List.mem_singleton.mp hy
      exact ⟨q, hx, (h.waits q hq).2, nofun⟩
  nodup := by
    rw [List.map_append, List.nodup_append']
    refine ⟨h.nodup, List.nodup_singleton _, ?_⟩
    intro serial hmem hsingle
    obtain ⟨y, hy, hserial⟩ := List.mem_map.mp hmem
    obtain ⟨q', hq', -, hne⟩ := h.answered y hy
    rw [List.map_singleton, List.mem_singleton] at hsingle
    rw [hsingle, hq'.1, hx.1] at hserial
    apply hne q hq (Option.some.inj hserial)

variable [DecidableEq α]

/-- What a received frame does: nothing to the packet that waits, or it sends it. -/
theorem Inv.receive {s : System α} (h : Inv g₀ s) (hprot : f.prot ≠ protRarp) :
  (netReceive s.net f).1 = s.net ∧ (f.IsReply → sentFrames (netReceive s.net f).2 = [])
    ∨ ∃ q, s.queued = some q ∧ f.IsReply ∧ f.senderIP = askedFor g₀ q.dest
      ∧ (netReceive s.net f).2 = [.ethSend (q.frame g₀ f.senderEther)]
      ∧ (netReceive s.net f).1.mac = Function.update s.net.mac q.ether f.senderEther
      ∧ SameConfig s.net (netReceive s.net f).1 ∧ (netReceive s.net f).1.netArpWaitPacketIP = 0
  := by
  rcases netReceive_cases (g := s.net) hprot with hsame | ⟨hreply, heq⟩
  · exact .inl hsame
  · rw [heq]
    cases hq : s.queued with
    | none =>
      rw [arpReply_of_none f.ip (h.idle hq)]
      exact .inl ⟨rfl, fun _ => rfl⟩
    | some q =>
      rcases (h.waits q hq).1.arpReply (f := f) f.ip with ⟨-, hnone⟩ | ⟨hip, hsent, hnet⟩
      · rw [hnone]
        exact .inl ⟨rfl, fun _ => rfl⟩
      · refine .inr ⟨q, rfl, hreply, hip, hsent, ?_, ?_, ?_⟩
        · rw [hnet]
          rfl
        · rw [hnet]
          exact ⟨rfl, rfl, rfl, rfl, rfl⟩
        · rw [hnet]

/-- **One event.** -/
theorem Inv.step {s : System α} (h : Inv g₀ s) (e : Event α) :
  Inv g₀ (s.step e)
  := by
  cases e with
  | send ether dest dport sport payload t =>
    simp only [System.step]
    split
    case isTrue hun =>
      exact h.queue (h.config.trans (send_unresolved hun dport sport payload t))
        (waits_send h.config hun s.count) rfl
    case isFalse hres => apply h.untouched (untouched_send hres dport sport payload t)
  | timeout t => apply h.untouched (untouched_timeout s.net t)
  | forget ether => apply h.forget
  | receive f hprot =>
    have hreact : react s.net (.receive f hprot) = netReceive s.net f := rfl
    have hreceive := h.receive hprot
    simp only [System.step]
    split
    case isTrue hcond =>
      rcases hreceive with ⟨-, hnone⟩ | ⟨q, hq, hreply, hip, hsent, -, hconfig, hidle⟩
      · apply absurd (hnone hcond.1) hcond.2
      · have hframes : sentFrames (netReceive s.net f).2 = [q.frame g₀ f.senderEther] := by
          rw [hsent]
          rfl
        rw [hreact, hframes]
        apply h.answer hq (h.config.trans hconfig) hidle
        exact ⟨hq, hreply, hip, rfl⟩
    case isFalse hcond =>
      rcases hreceive with ⟨hnet, -⟩ | ⟨q, -, hreply, -, hsent, -, -, -⟩
      · rw [hreact, hnet]
        apply h
      · apply absurd _ hcond
        refine ⟨hreply, ?_⟩
        rw [hreact, hsent]
        exact List.cons_ne_nil _ _

theorem inv_run (g : Globals α) (es : List (Event α)) :
  Inv g (.run g es)
  := by
  have hfold : ∀ (es : List (Event α)) (s : System α), Inv g s → Inv g (es.foldl System.step s) := by
    intro es
    induction es with
    | nil => exact fun s hs => hs
    | cons e es ih => exact fun s hs => ih (s.step e) (hs.step e)
  apply hfold es _ (inv_start g)

/-! ### The other events -/

theorem receiveArp_of_ne_reply (m : ℕ → Byte) {p : Packet} (h : f.half (p.ip + 6) ≠ arpopReply) :
  (receiveArp { g with netArpWaitTxPacket := m } f p).2 = (receiveArp g f p).2
  := by
  have hskip : ∀ (c : Prop) [Decidable c] (r r' : Reaction α), r'.2 = r.2 →
      (if c then ({ g with netArpWaitTxPacket := m }, []) else r').2
        = (if c then (g, []) else r).2 := by
    intro c _ r r' hr
    split
    · rfl
    · apply hr
  unfold receiveArp
  iterate 7 apply hskip
  split
  · rfl
  · rfl

theorem netReceive_of_not_isReply (m : ℕ → Byte) (h : ¬ f.IsReply) :
  (netReceive { g with netArpWaitTxPacket := m } f).2 = (netReceive g f).2
  := by
  have hframing : framing { g with netArpWaitTxPacket := m } f = framing g f := rfl
  unfold netReceive
  rw [hframing]
  split
  · rfl
  case h_2 p hp =>
    split
    case isTrue harp =>
      apply receiveArp_of_ne_reply
      intro hreply
      rw [framing_ip hp] at hreply
      exact h ⟨(framing_prot hp).symm.trans harp, hreply⟩
    case isFalse =>
      split
      · unfold receiveRarp
        split
        · rfl
        split
        · rfl
        · rfl
      · split
        · rfl
        · rfl

/-- Nothing but a reply sends what is in the place to wait in. -/
theorem react_of_not_isReply (g : Globals α) (m : ℕ → Byte) (e : Event α)
    (h : ∀ f hprot, e = .receive f hprot → ¬ f.IsReply) :
  (react { g with netArpWaitTxPacket := m } e).2 = (react g e).2
  := by
  cases e with
  | send ether dest dport sport payload t =>
    apply netSendUDPPacket_snd (g := putPayload g payload)
  | timeout t =>
    unfold react arpTimeoutCheck
    simp only
    split
    · rfl
    split
    · split
      · rfl
      · rfl
    · rfl
  | forget ether => rfl
  | receive f hprot =>
    apply netReceive_of_not_isReply
    apply h f hprot rfl

/-- **Resolving addresses.**  In every run, a packet that waits is sent at most once, with the
hardware address in a reply from the address that was asked for; no other frame changes what is
known of hardware addresses, and no other event sends it. -/
theorem arp_sound (g : Globals α) (es : List (Event α)) :
  (∀ x ∈ (System.run g es).log, ∃ q, x.queued = some q ∧ x.reply.IsReply
      ∧ x.reply.senderIP = askedFor g q.dest ∧ x.frame = q.frame g x.reply.senderEther)
    ∧ ((System.run g es).log.map fun x => x.queued.map Queued.serial).Nodup
    ∧ (∀ f (hprot : f.prot ≠ protRarp),
      (react (System.run g es).net (.receive f hprot)).1.mac = (System.run g es).net.mac
        ∨ ∃ q, (System.run g es).queued = some q ∧ f.IsReply ∧ f.senderIP = askedFor g q.dest
          ∧ (react (System.run g es).net (.receive f hprot)).1.mac
            = Function.update (System.run g es).net.mac q.ether f.senderEther)
    ∧ ∀ e m, (∀ f hprot, e = .receive f hprot → ¬ f.IsReply) →
      (react { (System.run g es).net with netArpWaitTxPacket := m } e).2
        = (react (System.run g es).net e).2
  := by
  have hinv := inv_run g es
  refine ⟨?_, hinv.nodup, ?_, fun e m he => react_of_not_isReply _ m e he⟩
  · intro x hx
    obtain ⟨q, hq, -, -⟩ := hinv.answered x hx
    exact ⟨q, hq⟩
  · intro f hprot
    rcases hinv.receive hprot with ⟨hnet, -⟩ | ⟨q, hq, hreply, hip, -, hmac, -⟩
    · left
      rw [react, hnet]
    · exact .inr ⟨q, hq, hreply, hip, hmac⟩

end Net
