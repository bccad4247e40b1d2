import UBoot.Net.Net
import UBoot.Net.Tftp

/-!
# What the packet handler gets

`NetReceive` compares the length of the frame with the length of the IP packet in it, but it does
not look at the length of the UDP packet, which is what it hands to the packet handler.
-/

namespace Net

variable {α : Type} {g : Globals α} {f : Frame} {pkt dest src len : ℕ}

/-- Where the packet of a frame is. -/
def Frame.ip (f : Frame) : ℕ :=
  if f.half 12 < 1514 then e802HdrSize
  else if f.half 12 ≠ protVlan then etherHdrSize
  else vlanEtherHdrSize

/-- The length in the header of the UDP packet. -/
def Frame.udpLen (f : Frame) : ℕ := f.half (f.ip + 24)

/-- The UDP packet is not shorter than its header, and ends in the frame. -/
def Frame.UdpFits (f : Frame) : Prop := 8 ≤ f.udpLen ∧ f.ip + ipHdrSizeNoUdp + f.udpLen ≤ f.len

/-- The bytes were received. -/
def Frame.Inside (f : Frame) (pkt len : ℕ) : Prop := pkt + len ≤ f.len

/-- Two frames with the same bytes, whatever is behind them in memory. -/
def Frame.SameBytes (f f' : Frame) : Prop := f'.mem.take f.len = f.mem.take f.len

/-- What `TftpHandler` stores does not depend on the memory behind the frame. -/
def StoresReceived (f : Frame) (pkt dest src len : ℕ) : Prop :=
  ∀ (c : Tftp.Client) (f' : Frame), f.SameBytes f' →
    (Tftp.tftpHandler c (f'.mem.drop pkt) dest src len).1.mem
      = (Tftp.tftpHandler c (f.mem.drop pkt) dest src len).1.mem

/-! ### The packet -/

theorem vlanAccept_some {vlanid : ℕ} {p q : Packet} (h : vlanAccept g vlanid p = some q) :
  q = p
  := by
  simp only [vlanAccept, Option.ite_none_left_eq_some, Option.some.injEq] at h
  exact h.2.symm

/-- The packet of a frame with each of the three headers. -/
theorem framing_cases {p : Packet} (h : framing g f = some p) :
  (f.half 12 < 1514 ∧ p = ⟨f.half 20, e802HdrSize, f.len - e802HdrSize⟩)
    ∨ (¬ f.half 12 < 1514 ∧ f.half 12 ≠ protVlan ∧ p = ⟨f.half 12, etherHdrSize, f.len - etherHdrSize⟩)
    ∨ (f.half 12 = protVlan ∧ p = ⟨f.half 16, vlanEtherHdrSize, f.len - vlanEtherHdrSize⟩)
  := by
  unfold framing at h
  split at h
  · cases h
  split at h
  case isTrue hlt => exact .inl ⟨hlt, vlanAccept_some h⟩
  case isFalse hge =>
    split at h
    case isTrue hne => exact .inr (.inl ⟨hge, hne, vlanAccept_some h⟩)
    case isFalse heq =>
      split at h
      · cases h
      split at h
      · cases h
      · exact .inr (.inr ⟨not_not.mp heq, vlanAccept_some h⟩)

theorem framing_ip {p : Packet} (h : framing g f = some p) :
  p.ip = f.ip
  := by
  unfold Frame.ip
  rcases framing_cases h with ⟨hlt, rfl⟩ | ⟨hge, hne, rfl⟩ | ⟨heq, rfl⟩
  · rw [if_pos hlt]
  · rw [if_neg hge, if_pos hne]
  · rw [heq]
    rfl

theorem framing_len {p : Packet} (h : framing g f = some p) :
  p.len = f.len - p.ip
  := by
  rcases framing_cases h with ⟨-, rfl⟩ | ⟨-, -, rfl⟩ | ⟨-, rfl⟩
  · rfl
  · rfl
  · rfl

/-- What is done is done behind the test. -/
theorem mem_of_mem_ite_nil {q : Prop} [Decidable q] {a : Action} {as : List Action}
    (h : a ∈ if q then [] else as) :
  a ∈ as
  := by
  split at h
  · cases h
  · apply h

theorem notMem_ite_nil {q : Prop} [Decidable q] {a : Action} {r : Reaction α} (h : a ∉ r.2) :
  a ∉ (if q then (g, []) else r).2
  := by
  split
  · exact List.not_mem_nil
  · apply h

theorem notMem_receiveIcmp (ip n : ℕ) :
  .udp pkt dest src len ∉ receiveIcmp g f ip n
  := by
  unfold receiveIcmp
  split
  · simp
  · split
    · simp
    · simp

/-- The payload that is handed on. -/
theorem receiveIp_udp {p : Packet} (h : .udp pkt dest src len ∈ receiveIp g f p) :
  pkt = p.ip + ipHdrSize ∧ len = (f.half (p.ip + 24) + (2 ^ 32 - 8)) % 2 ^ 32
  := by
  unfold receiveIp at h
  iterate 7 replace h := mem_of_mem_ite_nil h
  split at h
  · apply absurd h (notMem_receiveIcmp _ _)
  · cases List.mem_singleton.mp (mem_of_mem_ite_nil h)
    exact ⟨rfl, rfl⟩

section
variable [DecidableEq α]

theorem notMem_receiveArp (p : Packet) :
  .udp pkt dest src len ∉ (receiveArp g f p).2
  := by
  unfold receiveArp
  iterate 7 apply notMem_ite_nil
  split
  · simp
  split
  · unfold arpReply
    split
    · exact List.not_mem_nil
    · apply notMem_ite_nil
      split
      · simp
      · exact List.not_mem_nil
  · exact List.not_mem_nil

theorem notMem_receiveRarp (p : Packet) :
  .udp pkt dest src len ∉ (receiveRarp g f p).2
  := by
  unfold receiveRarp
  iterate 2 apply notMem_ite_nil
  simp

/-- What `NetReceive` hands to the packet handler is what the UDP header says. -/
theorem netReceive_udp (h : .udp pkt dest src len ∈ (netReceive g f).2) :
  pkt = f.ip + ipHdrSize ∧ len = (f.udpLen + (2 ^ 32 - 8)) % 2 ^ 32
  := by
  unfold netReceive at h
  split at h
  · cases h
  case h_2 p hframing =>
    split at h
    · apply absurd h (notMem_receiveArp p)
    split at h
    · apply absurd h (notMem_receiveRarp p)
    split at h
    · have hudp := receiveIp_udp h
      rw [framing_ip hframing] at hudp
      apply hudp
    · cases h

end

/-- The payload ends in the frame when the packet does. -/
theorem inside_iff (hpkt : pkt = f.ip + ipHdrSize)
    (hlen : len = (f.udpLen + (2 ^ 32 - 8)) % 2 ^ 32) :
  f.Inside pkt len ↔ f.UdpFits
  := by
  have hudp : f.udpLen < 2 ^ 16 := bytesHalf_lt _
  have hframe := f.len_lt
  unfold Frame.Inside Frame.UdpFits
  rw [hpkt, hlen]
  simp only [ipHdrSize, ipHdrSizeNoUdp]
  omega

/-! ### What is stored -/

/-- A block depends on the bytes of its packet only. -/
theorem handleData_congr (c : Tftp.Client) {pkt pkt' : List Byte} {src len : ℕ}
    (h : pkt'.take len = pkt.take len) :
  Tftp.handleData c pkt' src len = Tftp.handleData c pkt src len
  := by
  unfold Tftp.handleData
  split
  · rfl
  case isFalse hlen =>
    have hnumber : bytesHalf pkt' = bytesHalf pkt := by
      rw [← bytesHalf_take (Nat.le_of_not_lt hlen), h, bytesHalf_take (Nat.le_of_not_lt hlen)]
    have hdata : (pkt'.drop 2).take (len - 2) = (pkt.drop 2).take (len - 2) := by
      rw [← List.drop_take, ← List.drop_take, h]
    have haccept : ∀ c, Tftp.acceptBlock c pkt' (len - 2) = Tftp.acceptBlock c pkt (len - 2) := by
      intro c
      simp only [Tftp.acceptBlock, Tftp.storeBlock, hdata]
    simp only [hnumber, haccept]

/-- What is stored depends on the bytes of the packet only. -/
theorem tftpHandler_mem_congr (c : Tftp.Client) {pkt pkt' : List Byte} {dest src len : ℕ}
    (h : pkt'.take len = pkt.take len) :
  (Tftp.tftpHandler c pkt' dest src len).1.mem = (Tftp.tftpHandler c pkt dest src len).1.mem
  := by
  unfold Tftp.tftpHandler
  split
  · rfl
  split
  · rfl
  split
  · rfl
  case isFalse hlen =>
    have hop : bytesHalf pkt' = bytesHalf pkt := by
      rw [← bytesHalf_take (Nat.le_of_not_lt hlen), h, bytesHalf_take (Nat.le_of_not_lt hlen)]
    have hdrop : (pkt'.drop 2).take (len - 2) = (pkt.drop 2).take (len - 2) := by
      rw [← List.drop_take, ← List.drop_take, h]
    rw [hop]
    split
    · rfl
    split
    · rw [handleData_congr c hdrop]
    split
    · have herror : ∀ p, (Tftp.handleError c p).1.mem = c.mem := by
        intro p
        unfold Tftp.handleError
        split
        · rfl
        · rfl
      rw [herror, herror]
    · rfl

theorem storesReceived_of_inside (h : f.Inside pkt len) :
  StoresReceived f pkt dest src len
  := by
  intro c f' hsame
  apply tftpHandler_mem_congr
  have htake : ∀ m : List Byte, (m.drop pkt).take len = ((m.take f.len).drop pkt).take len := by
    intro m
    rw [List.drop_take, List.take_take, Nat.min_eq_left]
    unfold Frame.Inside at h
    omega
  rw [htake, hsame, ← htake]

/-- **What the packet handler gets.**  A UDP payload that `NetReceive` hands on was received, and
the blocks that `TftpHandler` stores of it were, exactly when the length in the UDP header is
that of a packet in the frame. -/
theorem netReceive_udp_iff [DecidableEq α] (g : Globals α) (f : Frame) {pkt dest src len : ℕ}
    (h : .udp pkt dest src len ∈ (netReceive g f).2) :
  f.Inside pkt len ∧ StoresReceived f pkt dest src len ↔ f.UdpFits
  := by
  obtain ⟨hpkt, hlen⟩ := netReceive_udp h
  rw [← inside_iff hpkt hlen]
  constructor
  · intro hreceived
    apply hreceived.1
  · intro hinside
    exact ⟨hinside, storesReceived_of_inside hinside⟩

/-- A board with the address 10.0.0.2. -/
def board : Globals Unit where
  netOurEther := ![0, 1, 2, 3, 4, 5]
  netOurIP := 0x0a000002
  netServerIP := 0x0a000001
  netOurSubnetMask := 0
  netOurGatewayIP := 0
  netOurVLAN := 0xffff
  netOurNativeVLAN := 0xffff
  netIPID := 0
  netTxPacket := fun _ => 0
  mac := fun _ => netEtherNullAddr
  netServerEther := ()
  netArpWaitPacketIP := 0
  netArpWaitReplyIP := 0
  netArpWaitPacketMAC := none
  netArpWaitTxPacket := fun _ => 0
  netArpWaitTxPacketSize := 0
  netArpWaitTimerStart := 0
  netArpWaitTry := 0

/-- A frame of 46 bytes with a UDP packet for the board, and the length `n` in its header. -/
def udpFrame (n : ℕ) : Frame where
  mem := [0, 1, 2, 3, 4, 5] ++ [6, 7, 8, 9, 10, 11] ++ halfBytes protIp
    ++ [0x45, 0, 0, 32, 0, 1, 0, 0, 64, 17, 0x66, 0xca, 10, 0, 0, 1, 10, 0, 0, 2]
    ++ halfBytes 69 ++ halfBytes 1030 ++ halfBytes n ++ halfBytes 0 ++ [0, 3, 0, 1]
  len := 46
  len_le := by simp [halfBytes]
  len_lt := by decide

theorem netReceive_udp_fits :
  .udp 42 1030 69 4 ∈ (netReceive board (udpFrame 12)).2
    ∧ (udpFrame 12).Inside 42 4 ∧ StoresReceived (udpFrame 12) 42 1030 69 4
  := by
  have hudp : .udp 42 1030 69 4 ∈ (netReceive board (udpFrame 12)).2 := by decide +kernel
  have hfits : (udpFrame 12).UdpFits := by
    unfold Frame.UdpFits
    decide +kernel
  exact ⟨hudp, (netReceive_udp_iff board (udpFrame 12) hudp).mpr hfits⟩

/-- A packet that says to be longer than the frame, and one that says to be shorter than its
header. -/
theorem netReceive_udp_outside :
  (.udp 42 1030 69 65527 ∈ (netReceive board (udpFrame 65535)).2
      ∧ ¬ (udpFrame 65535).Inside 42 65527)
    ∧ .udp 42 1030 69 (2 ^ 32 - 8) ∈ (netReceive board (udpFrame 0)).2
      ∧ ¬ (udpFrame 0).Inside 42 (2 ^ 32 - 8)
  := by
  unfold Frame.Inside
  decide +kernel

end Net
