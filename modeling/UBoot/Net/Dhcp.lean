import UBoot.Lib.Run
import UBoot.Net.Bootp

/-!
# What makes the DHCP client go on

The client asks for an address when it has an offer, and takes the address when the server
acknowledges it.  The theorem says so for every run, as long as nothing but an offer arrives
while offers are awaited, and as long as the options of a packet can be read as the code reads
them.
-/

namespace Bootp

/-! ### Messages -/

/-- The data of the first option of a code, where a zero is an option of one byte. -/
def findOption (code : Byte) : ℕ → List Byte → Option (List Byte)
  | 0, _ => none
  | _ + 1, [] => none
  | _ + 1, [_] => none
  | fuel + 1, b :: len :: data =>
    if b = 0 then findOption code fuel (len :: data)
    else if b = 0xff then none
    else if b = code then some (data.take len.toNat)
    else findOption code fuel (data.drop len.toNat)

/-- An option of a message. -/
def messageOption (code : Byte) (bytes : List Byte) : Option (List Byte) :=
  if (bytes.drop bpVend).take 4 = bootpVendorMagic then
    findOption code bytes.length (bytes.drop (bpVend + 4))
  else none

/-- The type of a message. -/
def messageType (bytes : List Byte) : Option Byte := (messageOption 53 bytes).bind List.head?

/-- The bytes that were received. -/
def Received.bytes (p : Received) : List Byte := Memory.read p.mem 0 p.len

/-- The options reach the type of the message, or their end, without a zero between them. -/
def plainOptions : ℕ → List Byte → Bool
  | 0, _ => false
  | _ + 1, [] => false
  | _ + 1, [b] => b = 0xff
  | fuel + 1, b :: len :: data =>
    if b = 0 then false
    else if b = 0xff then true
    else if b = 53 then len ≠ 0 ∧ data ≠ []
    else plainOptions fuel (data.drop len.toNat)

/-- The code can read the options of the packet. -/
def Received.Plain (p : Received) : Prop :=
  bpVend + 4 ≤ p.len
    ∧ ((p.bytes.drop bpVend).take 4 = bootpVendorMagic →
      plainOptions p.len (p.bytes.drop (bpVend + 4)) = true)

instance (p : Received) : Decidable p.Plain := inferInstanceAs (Decidable (_ ∧ (_ → _)))

variable {mem : ℕ → Byte} {p : Received} {c : Client}

/-- The scan finds the type of the message. -/
theorem messageTypeLoop_eq {n fuel popt : ℕ} {bytes : List Byte}
    (hholds : Memory.Holds mem popt bytes) (hplain : plainOptions n bytes = true)
    (hfuel : n ≤ fuel) :
  messageTypeLoop mem fuel popt = some ((findOption 53 n bytes).bind List.head?)
  := by
  induction n generalizing fuel popt bytes with
  | zero => cases hplain
  | succ n ih =>
    obtain ⟨fuel, rfl⟩ := Nat.exists_eq_add_one_of_ne_zero (Nat.ne_of_gt (Nat.zero_lt_of_lt hfuel))
    match bytes with
    | [] => cases hplain
    | [b] =>
      have hend : b = 0xff := of_decide_eq_true hplain
      rw [messageTypeLoop, findOption, hholds.1, if_pos hend]
      rfl
    | b :: len :: data =>
      obtain ⟨hb, hlen, hdata⟩ := hholds
      rw [plainOptions] at hplain
      by_cases hzero : b = 0
      · rw [if_pos hzero] at hplain
        cases hplain
      rw [if_neg hzero] at hplain
      rw [messageTypeLoop, findOption, hb, if_neg hzero]
      by_cases hend : b = 0xff
      · rw [if_pos hend, if_pos hend]
        rfl
      rw [if_neg hend] at hplain ⊢
      rw [if_neg hend]
      by_cases htype : b = 53
      · rw [if_pos htype, decide_eq_true_iff] at hplain
        rw [if_pos htype, if_pos htype]
        obtain ⟨hlen, hne⟩ := hplain
        cases data with
        | nil => apply absurd rfl hne
        | cons t data =>
          have hpos : len.toNat ≠ 0 := by
            intro hzero
            apply hlen
            exact UInt8.toNat_inj.mp hzero
          obtain ⟨k, hk⟩ := Nat.exists_eq_add_one_of_ne_zero hpos
          rw [hk, List.take_succ_cons, hdata.1]
          rfl
      · rw [if_neg htype] at hplain
        rw [if_neg htype, if_neg htype, hlen, Nat.add_right_comm]
        apply ih _ hplain (Nat.le_of_succ_le_succ hfuel)
        apply hdata.drop

theorem drop_bytes {n : ℕ} (h : n ≤ p.len) :
  p.bytes.drop n = Memory.read p.mem n (p.len - n)
  := by
  have hread := Memory.read_add p.mem 0 n (p.len - n)
  rw [Nat.add_sub_cancel' h, Nat.zero_add] at hread
  rw [Received.bytes, hread, List.drop_left' (Memory.length_read p.mem 0 n)]

theorem holds_drop_bytes (p : Received) (n : ℕ) :
  Memory.Holds p.mem n (p.bytes.drop n)
  := by
  have hholds := (Memory.holds_read p.mem 0 p.len).drop n
  rwa [Nat.zero_add] at hholds

theorem dhcpMessageType_eq (hplain : p.Plain) :
  dhcpMessageType p.mem = some (messageType p.bytes)
  := by
  obtain ⟨hlen, hoptions⟩ := hplain
  have hmagic : (p.bytes.drop bpVend).take 4 = Memory.read p.mem bpVend 4 := by
    have hread := Memory.read_add p.mem bpVend 4 (p.len - bpVend - 4)
    rw [Nat.add_sub_cancel' (by omega)] at hread
    rw [drop_bytes (by omega), hread, List.take_left' (Memory.length_read p.mem bpVend 4)]
  have hbytes : p.bytes.length = p.len := Memory.length_read p.mem 0 p.len
  rw [hmagic] at hoptions
  unfold dhcpMessageType messageType messageOption
  rw [hmagic, ite_not, hbytes]
  split
  case isTrue h =>
    apply messageTypeLoop_eq (holds_drop_bytes p (bpVend + 4)) (hoptions h) p.len_lt.le
  case isFalse h => rfl

/-! ### Options -/

/-- What the options of a packet do not touch. -/
structure SameLease (c c' : Client) : Prop where
  dhcpState : c'.dhcpState = c.dhcpState
  bootpID : c'.bootpID = c.bootpID
  listening : c'.listening = c.listening
  netOurIP : c'.netOurIP = c.netOurIP

theorem SameLease.refl (c : Client) :
  SameLease c c
  := ⟨rfl, rfl, rfl, rfl⟩

theorem SameLease.trans {c c' c'' : Client} (h : SameLease c c') (h' : SameLease c' c'') :
  SameLease c c''
  where
  dhcpState := h'.dhcpState.trans h.dhcpState
  bootpID := h'.bootpID.trans h.bootpID
  listening := h'.listening.trans h.listening
  netOurIP := h'.netOurIP.trans h.netOurIP

theorem dhcpOption_frame (c : Client) (mem : ℕ → Byte) (popt : ℕ) :
  SameLease c (dhcpOption c mem popt).1 ∧ ∀ q < bpFile, (dhcpOption c mem popt).2 q = mem q
  := by
  unfold dhcpOption
  simp only
  split
  case h_8 =>
    split
    · refine ⟨SameLease.refl c, ?_⟩
      intro q hq
      apply Memory.store_of_lt _ hq
    · exact ⟨SameLease.refl c, fun _ _ => rfl⟩
  all_goals exact ⟨⟨rfl, rfl, rfl, rfl⟩, fun _ _ => rfl⟩

theorem dhcpOptionsLoop_frame (stop fuel popt : ℕ) (c : Client) (mem : ℕ → Byte) :
  SameLease c (dhcpOptionsLoop stop fuel popt c mem).1
    ∧ ∀ q < bpFile, (dhcpOptionsLoop stop fuel popt c mem).2 q = mem q
  := by
  induction fuel generalizing popt c mem with
  | zero => exact ⟨SameLease.refl c, fun _ _ => rfl⟩
  | succ fuel ih =>
    rw [dhcpOptionsLoop]
    split
    · obtain ⟨hc, hmem⟩ := dhcpOption_frame c mem popt
      obtain ⟨hc', hmem'⟩ := ih (popt + (mem (popt + 1)).toNat + 2) (dhcpOption c mem popt).1
        (dhcpOption c mem popt).2
      refine ⟨hc.trans hc', ?_⟩
      intro q hq
      exact (hmem' q hq).trans (hmem q hq)
    · exact ⟨SameLease.refl c, fun _ _ => rfl⟩

theorem dhcpOptionsProcess_frame (c : Client) (p : Received) :
  SameLease c (dhcpOptionsProcess c p).1
    ∧ (dhcpOptionsProcess c p).2.bpId = p.bpId
    ∧ (dhcpOptionsProcess c p).2.bpYiaddr = p.bpYiaddr
  := by
  unfold dhcpOptionsProcess
  split
  · obtain ⟨hc, hmem⟩ := dhcpOptionsLoop_frame (bpVend + 4 + bootpHdrSize) bootpHdrSize (bpVend + 4) c
      p.mem
    have hlong : ∀ q, q + 4 ≤ bpFile → long (dhcpOptionsLoop (bpVend + 4 + bootpHdrSize)
        bootpHdrSize (bpVend + 4) c p.mem).2 q = long p.mem q := by
      intro q hq
      unfold long
      congr 1
      apply Memory.read_congr
      intro i _ hi
      apply hmem
      omega
    refine ⟨hc, ?_, ?_⟩
    · apply hlong
      decide
    · apply hlong
      decide
  · exact ⟨SameLease.refl c, rfl, rfl⟩

/-! ### The packets of the client -/

theorem findOption_self {code : Byte} {n : ℕ} {data rest : List Byte} {len : Byte}
    (hzero : code ≠ 0) (hend : code ≠ 0xff) (hlen : data.length = len.toNat) :
  findOption code (n + 1) (code :: len :: (data ++ rest)) = some data
  := by
  rw [findOption, if_neg hzero, if_neg hend, if_pos rfl, List.take_left' hlen]

theorem findOption_skip {code b : Byte} {n : ℕ} {data rest : List Byte} {len : Byte}
    (hzero : b ≠ 0) (hend : b ≠ 0xff) (hne : b ≠ code) (hlen : data.length = len.toNat) :
  findOption code (n + 1) (b :: len :: (data ++ rest)) = findOption code n rest
  := by
  rw [findOption, if_neg hzero, if_neg hend, if_neg hne, List.drop_left' hlen]

theorem messageOption_bootpPkt (code : Byte) (id : Word) (secs : ℕ) (ether : Net.Mac)
    {file ext : List Byte} (hfile : file.length ≤ 128) (rest : List Byte)
    (hext : ext = bootpVendorMagic ++ rest) :
  messageOption code (bootpPkt id secs ether file ext)
    = findOption code (bpVend + 4 + rest.length) rest
  := by
  have hhdr : ∃ hdr : List Byte, hdr.length = bpVend ∧ bootpPkt id secs ether file ext = hdr ++ ext := by
    refine ⟨_, ?_, rfl⟩
    simp only [List.length_append, List.length_cons, List.length_nil, List.length_replicate,
      Net.Mac.bytes, List.length_ofFn, wordBytes, halfBytes]
    unfold bpVend
    omega
  obtain ⟨hdr, hlen, hpkt⟩ := hhdr
  have hmagic : bootpVendorMagic.length = 4 := rfl
  rw [hpkt, messageOption, List.drop_left' hlen, hext, List.take_left' hmagic, if_pos rfl,
    ← List.append_assoc, List.drop_left' (by rw [List.length_append, hlen, hmagic]),
    List.length_append, List.length_append, hlen, hmagic]

/-- The options of the client, without what makes them long enough. -/
theorem dhcpExtended_eq (mt : Byte) (sid rip : Word) :
  ∃ pad, dhcpExtended mt sid rip = bootpVendorMagic ++ (53 :: 1 :: ([mt] ++ (57 :: 2 :: ([2, 64]
    ++ (addressOption 54 sid ++ (addressOption 50 rip
      ++ (55 :: 5 :: ([1, 3, 12, 13, 17] ++ 255 :: pad))))))))
  := by
  unfold dhcpExtended
  simp only [List.append_assoc]
  exact ⟨_, rfl⟩

theorem messageType_bootpPkt (mt : Byte) (sid rip id : Word) (secs : ℕ) (ether : Net.Mac)
    {file : List Byte} (hfile : file.length ≤ 128) :
  messageType (bootpPkt id secs ether file (dhcpExtended mt sid rip)) = some mt
  := by
  obtain ⟨pad, hext⟩ := dhcpExtended_eq mt sid rip
  rw [messageType, messageOption_bootpPkt 53 id secs ether hfile _ hext, List.length_cons,
    ← Nat.add_assoc, findOption_self (by decide) (by decide) rfl]
  rfl

theorem findOption_addressOption {code code' : Byte} (n : ℕ) (ip : Word) (rest : List Byte)
    (hzero : code' ≠ 0) (hend : code' ≠ 0xff) (hne : code' ≠ code) :
  ∃ k, n ≤ k ∧ findOption code (n + 1) (addressOption code' ip ++ rest) = findOption code k rest
  := by
  unfold addressOption
  split
  · exact ⟨n + 1, Nat.le_succ n, rfl⟩
  · refine ⟨n, Nat.le_refl n, ?_⟩
    apply findOption_skip hzero hend hne
    rfl

/-- The address that the client asks for. -/
theorem requestedIP_bootpPkt (mt : Byte) (sid rip id : Word) (secs : ℕ) (ether : Net.Mac)
    {file : List Byte} (hfile : file.length ≤ 128) :
  messageOption 50 (bootpPkt id secs ether file (dhcpExtended mt sid rip))
    = if rip = 0 then none else some (wordBytes rip)
  := by
  obtain ⟨pad, hext⟩ := dhcpExtended_eq mt sid rip
  rw [messageOption_bootpPkt 50 id secs ether hfile _ hext]
  generalize hn : bpVend + 4 + _ = n
  have hle : 6 ≤ n := by
    unfold bpVend at hn
    omega
  obtain ⟨n, rfl⟩ := Nat.exists_eq_add_of_le' hle
  rw [findOption_skip (by decide) (by decide) (by decide) rfl,
    findOption_skip (by decide) (by decide) (by decide) rfl]
  have hne : (54 : Byte) ≠ 50 := by decide
  obtain ⟨k, hk, hskip⟩ := findOption_addressOption (n + 3) sid
    (addressOption 50 rip ++ (55 :: 5 :: ([1, 3, 12, 13, 17] ++ 255 :: pad))) (by decide) (by decide)
    hne
  rw [hskip]
  obtain ⟨k, rfl⟩ := Nat.exists_eq_add_of_le' hk
  unfold addressOption
  split
  · rw [List.nil_append, ← Nat.add_assoc,
      findOption_skip (by decide) (by decide) (by decide) rfl]
    cases pad with
    | nil => rfl
    | cons b pad => rfl
  · apply findOption_self (by decide) (by decide) rfl

theorem length_copyFilename_le (src : ℕ → Byte) (p size : ℕ) :
  (copyFilename src p size).length ≤ size
  := by
  unfold copyFilename
  apply (List.takeWhile_sublist _).length_le.trans
  rw [Memory.length_read]
  split
  · omega
  · omega

/-! ### One event -/

/-- The packet is for the client, and of its attempt. -/
theorem bootpCheckPkt_eq_zero (h : bootpCheckPkt c p = 0) :
  p.dest = portBootpc ∧ p.src = portBootps ∧ p.bpId = c.bootpID
  := by
  unfold bootpCheckPkt at h
  split at h
  · cases h
  case isFalse hports =>
    rw [not_or, not_not, not_not] at hports
    split at h
    · cases h
    split at h
    · cases h
    split at h
    · cases h
    split at h
    · cases h
    split at h
    · cases h
    case isFalse hid => exact ⟨hports.1, hports.2, not_not.mp hid⟩

/-- A packet that the client answers with a request. -/
def Requests (c : Client) (p : Received) (t : Word) (r : Client × List Action) : Prop :=
  c.dhcpState = .selecting ∧ bootpCheckPkt c p = 0
    ∧ SameLease { c with dhcpState := .requesting } r.1
    ∧ ∃ sid ether, r.2 = [.broadcast (bootpPkt p.bpId (t.toNat / 1000) ether []
      (dhcpExtended dhcpRequest sid p.bpYiaddr))]

/-- A packet that gives the client its address. -/
def Binds (c : Client) (p : Received) (r : Client × List Action) : Prop :=
  c.dhcpState = .requesting ∧ bootpCheckPkt c p = 0 ∧ dhcpMessageType p.mem = some (some dhcpAck)
    ∧ r.1.dhcpState = .bound ∧ r.2 = [.load]

/-- Everything that a packet can do. -/
theorem dhcpHandler_cases {r : Client × List Action} {t : Word} (h : dhcpHandler c p t = some r) :
  r = (c, []) ∨ Requests c p t r ∨ Binds c p r
  := by
  unfold dhcpHandler at h
  split at h
  · exact .inl (Option.some.inj h).symm
  case isFalse hcheck =>
    rw [not_not] at hcheck
    split at h
    case h_1 hstate =>
      obtain rfl := Option.some.inj h
      obtain ⟨hc, hid, hip⟩ := dhcpOptionsProcess_frame { c with dhcpState := .requesting } p
      have hsend : ∀ c', dhcpSendRequestPkt c'
          (dhcpOptionsProcess { c with dhcpState := .requesting } p).2 t
          = .broadcast (bootpPkt p.bpId (t.toNat / 1000) c'.netOurEther []
            (dhcpExtended dhcpRequest c'.netDHCPServerIP p.bpYiaddr)) := by
        intro c'
        rw [dhcpSendRequestPkt, hid, hip]
      exact .inr (.inl ⟨hstate, hcheck, hc, _, _, congrArg (fun a => [a]) (hsend _)⟩)
    case h_2 hstate =>
      split at h
      · cases h
      case h_2 messageType hmt =>
        split at h
        case isTrue hack =>
          obtain rfl := Option.some.inj h
          rw [hack] at hmt
          exact .inr (.inr ⟨hstate, hcheck, hmt, rfl, rfl⟩)
        case isFalse => exact .inl (Option.some.inj h).symm
    case h_3 => exact .inl (Option.some.inj h).symm

/-- Every packet that gets through is an offer while offers are awaited, and has options that the
code can read while it waits for the server. -/
def Meets (c : Client) : Event → Prop
  | .receive p _ => c.listening = true → bootpCheckPkt c p = 0 →
    (c.dhcpState = .selecting → messageType p.bytes = some dhcpOffer)
      ∧ (c.dhcpState = .requesting → p.Plain)
  | .timeout _ => True

/-- The handler returns. -/
theorem react_isSome (e : Event) (hmeets : Meets c e) :
  ∃ r, react c e = some r
  := by
  cases e with
  | timeout t => exact ⟨_, rfl⟩
  | receive p t =>
    rw [react]
    split
    case isFalse => exact ⟨_, rfl⟩
    case isTrue hlisten =>
      unfold dhcpHandler
      split
      · exact ⟨_, rfl⟩
      case isFalse hcheck =>
        rw [not_not] at hcheck
        split
        · exact ⟨_, rfl⟩
        case h_2 hstate =>
          rw [dhcpMessageType_eq ((hmeets hlisten hcheck).2 hstate)]
          dsimp only
          split
          · exact ⟨_, rfl⟩
          · exact ⟨_, rfl⟩
        · exact ⟨_, rfl⟩

/-- Everything that an event can do: nothing, a new attempt, the end of all attempts, a request
for an offer, and the address for an acknowledgement. -/
theorem react_cases {e : Event} {r : Client × List Action} (hmeets : Meets c e)
    (h : react c e = some r) :
  (r = (c, []) ∧ (c.listening = true → ∃ p t, e = .receive p t))
    ∨ (∃ t, e = .timeout t ∧ (r = bootpRequest c t ∨ r = ({ c with listening := false }, [.startAgain])))
    ∨ (∃ p t, e = .receive p t ∧ Requests c p t r ∧ messageType p.bytes = some dhcpOffer)
    ∨ (∃ p t, e = .receive p t ∧ c.listening = true ∧ Binds c p r
      ∧ messageType p.bytes = some dhcpAck)
  := by
  cases e with
  | timeout t =>
    rw [react] at h
    obtain rfl := Option.some.inj h
    split
    · right
      left
      refine ⟨t, rfl, ?_⟩
      unfold bootpTimeout
      split
      · exact .inr rfl
      · exact .inl rfl
    case isFalse hlisten => exact .inl ⟨rfl, fun hl => absurd hl hlisten⟩
  | receive p t =>
    rw [react] at h
    split at h
    case isFalse => exact .inl ⟨(Option.some.inj h).symm, fun _ => ⟨p, t, rfl⟩⟩
    case isTrue hlisten =>
      rcases dhcpHandler_cases h with hnone | hrequest | hbind
      · exact .inl ⟨hnone, fun _ => ⟨p, t, rfl⟩⟩
      · have hoffer := (hmeets hlisten hrequest.2.1).1 hrequest.1
        exact .inr (.inr (.inl ⟨p, t, rfl, hrequest, hoffer⟩))
      · have hplain := (hmeets hlisten hbind.2.1).2 hbind.1
        have hack := hbind.2.2.1
        rw [dhcpMessageType_eq hplain] at hack
        exact .inr (.inr (.inr ⟨p, t, rfl, hlisten, hbind, Option.some.inj hack⟩))

/-! ### Runs -/

/-- The offer that was asked for came in this attempt: it has the transaction id, and there was
no timeout since. -/
def InAttempt (es : List Event) (c : Client) : Prop :=
  ∃ es₁ q t es₂, es = es₁ ++ .receive q t :: es₂ ∧ (∀ e ∈ es₂, ∃ p t, e = .receive p t)
    ∧ messageType q.bytes = some dhcpOffer ∧ q.bpId = c.bootpID

/-- What the client does when `e` happens after `BootpRequest` and the events `es`: the request
answers an offer, the address comes from an acknowledgement, and no other packet does anything. -/
def Sound (c₀ : Client) (t₀ : Word) (es : List Event) (e : Event) : Prop :=
  ∃ c r, Run.exec next (bootpRequest c₀ t₀).1 es = some c ∧ react c e = some r
    ∧ (c.dhcpState ≠ .requesting → r.1.dhcpState = .requesting →
      ∃ p t, e = .receive p t ∧ messageType p.bytes = some dhcpOffer ∧ p.bpId = c.bootpID)
    ∧ (∀ payload, .broadcast payload ∈ r.2 → messageType payload = some dhcpRequest →
      ∃ p t, e = .receive p t ∧ messageType p.bytes = some dhcpOffer ∧ p.bpId = c.bootpID
        ∧ r.1.dhcpState = .requesting
        ∧ messageOption 50 payload = if p.bpYiaddr = 0 then none else some (wordBytes p.bpYiaddr))
    ∧ (c.dhcpState ≠ .bound ∧ r.1.dhcpState = .bound ∨ r.1.netOurIP ≠ c.netOurIP →
      ∃ p t, e = .receive p t ∧ messageType p.bytes = some dhcpAck ∧ p.bpId = c.bootpID
        ∧ c.dhcpState = .requesting ∧ InAttempt es c)
    ∧ (∀ p t, e = .receive p t →
      p.dest ≠ portBootpc ∨ p.src ≠ portBootps ∨ p.bpId ≠ c.bootpID
        ∨ ¬ (c.dhcpState = .selecting ∧ messageType p.bytes = some dhcpOffer)
          ∧ ¬ (c.dhcpState = .requesting ∧ messageType p.bytes = some dhcpAck) →
      r = (c, []))

/-- The invariant: what is requested was offered in this attempt. -/
def Inv (es : List Event) (c : Client) : Prop :=
  c.listening = true → c.dhcpState = .requesting → InAttempt es c

theorem InAttempt.receive {es : List Event} (h : InAttempt es c) (p : Received) (t : Word) :
  InAttempt (es ++ [.receive p t]) c
  := by
  obtain ⟨es₁, q, t', es₂, rfl, hes₂, hq⟩ := h
  refine ⟨es₁, q, t', es₂ ++ [.receive p t], by simp, ?_, hq⟩
  intro e he
  rcases List.mem_append.mp he with he | he
  · apply hes₂ e he
  · exact ⟨p, t, List.mem_singleton.mp he⟩

theorem Inv.step {es : List Event} {e : Event} {r : Client × List Action} (hinv : Inv es c)
    (hmeets : Meets c e) (h : react c e = some r) :
  Inv (es ++ [e]) r.1
  := by
  intro hlisten hstate
  rcases react_cases hmeets h with ⟨rfl, hreceive⟩ | ⟨t, rfl, rfl | rfl⟩
      | ⟨p, t, rfl, hrequest, hoffer⟩ | ⟨p, t, rfl, -, hbind, -⟩
  · obtain ⟨p, t, rfl⟩ := hreceive hlisten
    apply (hinv hlisten hstate).receive
  · cases hstate
  · cases hlisten
  · obtain ⟨-, hcheck, hsame, -⟩ := hrequest
    refine ⟨es, p, t, [], rfl, nofun, hoffer, ?_⟩
    rw [hsame.bootpID]
    apply (bootpCheckPkt_eq_zero hcheck).2.2
  · rw [hbind.2.2.2.1] at hstate
    cases hstate

/-- The state after some events, all of which meet the condition. -/
theorem exec_inv (c₀ : Client) (t₀ : Word) (es : List Event)
    (hmeets : Run.Along next Meets (bootpRequest c₀ t₀).1 es) :
  ∃ c, Run.exec next (bootpRequest c₀ t₀).1 es = some c ∧ Inv es c
  := by
  apply Run.exec_history _ _ hmeets
  · intro es c e hinv hmeets
    obtain ⟨r, hr⟩ := react_isSome e hmeets
    refine ⟨r.1, ?_, hinv.step hmeets hr⟩
    rw [next, hr]
    rfl
  · intro _ hstate
    cases hstate

theorem bootpRequest_discover {t : Word} {payload : List Byte}
    (h : .broadcast payload ∈ (bootpRequest c t).2) :
  messageType payload = some dhcpDiscover
  := by
  obtain rfl : payload = _ := Action.broadcast.inj (List.mem_singleton.mp h)
  apply messageType_bootpPkt
  apply length_copyFilename_le

/-- A packet that does nothing of what it could do is one of another kind. -/
theorem eq_of_other_kind {r : Client × List Action} {t : Word} (hmeets : Meets c (.receive p t))
    (h : react c (.receive p t) = some r)
    (hother : p.dest ≠ portBootpc ∨ p.src ≠ portBootps ∨ p.bpId ≠ c.bootpID
      ∨ ¬ (c.dhcpState = .selecting ∧ messageType p.bytes = some dhcpOffer)
        ∧ ¬ (c.dhcpState = .requesting ∧ messageType p.bytes = some dhcpAck)) :
  r = (c, [])
  := by
  have hno : ∀ q t', Event.receive p t = .receive q t' → bootpCheckPkt c q = 0 →
      ¬ (c.dhcpState = .selecting ∧ messageType q.bytes = some dhcpOffer
        ∨ c.dhcpState = .requesting ∧ messageType q.bytes = some dhcpAck) := by
    rintro q t' heq hcheck
    cases heq
    obtain ⟨hdest, hsrc, hid⟩ := bootpCheckPkt_eq_zero hcheck
    rcases hother with hne | hne | hne | ⟨hselect, hrequest⟩
    · apply absurd hdest hne
    · apply absurd hsrc hne
    · apply absurd hid hne
    · exact fun hor => hor.elim hselect hrequest
  rcases react_cases hmeets h with ⟨rfl, -⟩ | ⟨t, hevent, -⟩ | ⟨q, t', hevent, hrequest, hoffer⟩
      | ⟨q, t', hevent, -, hbind, hack⟩
  · rfl
  · cases hevent
  · apply absurd _ (hno q t' hevent hrequest.2.1)
    exact .inl ⟨hrequest.1, hoffer⟩
  · apply absurd _ (hno q t' hevent hbind.2.1)
    exact .inr ⟨hbind.1, hack⟩

/-- **The DHCP client.**  In every run whose packets meet the condition, a request answers an
offer of the current attempt and asks for its address, the address comes from an acknowledgement
of the server that was asked in this attempt, and no other packet changes anything. -/
theorem dhcp_sound (c₀ : Client) (t₀ : Word) (es : List Event) (e : Event)
    (hmeets : Run.Along next Meets (bootpRequest c₀ t₀).1 (es ++ [e])) :
  Sound c₀ t₀ es e
  := by
  obtain ⟨c, hc, hinv⟩ := exec_inv c₀ t₀ es hmeets.of_append
  have hlast := hmeets.last hc
  obtain ⟨r, hr⟩ := react_isSome e hlast
  have hcases := react_cases hlast hr
  refine ⟨c, r, hc, hr, ?_, ?_, ?_, ?_⟩
  · intro hne hstate
    rcases hcases with ⟨rfl, -⟩ | ⟨t, rfl, rfl | rfl⟩ | ⟨p, t, rfl, hrequest, hoffer⟩
        | ⟨p, t, rfl, -, hbind, -⟩
    · apply absurd hstate hne
    · cases hstate
    · apply absurd hstate hne
    · exact ⟨p, t, rfl, hoffer, (bootpCheckPkt_eq_zero hrequest.2.1).2.2⟩
    · rw [hbind.2.2.2.1] at hstate
      cases hstate
  · intro payload hmem htype
    rcases hcases with ⟨rfl, -⟩ | ⟨t, rfl, rfl | rfl⟩ | ⟨p, t, rfl, hrequest, hoffer⟩
        | ⟨p, t, rfl, -, hbind, -⟩
    · cases hmem
    · rw [bootpRequest_discover hmem] at htype
      cases htype
    · cases List.mem_singleton.mp hmem
    · obtain ⟨-, hcheck, hsame, sid, ether, hsent⟩ := hrequest
      rw [hsent] at hmem
      obtain rfl : payload = _ := Action.broadcast.inj (List.mem_singleton.mp hmem)
      refine ⟨p, t, rfl, hoffer, (bootpCheckPkt_eq_zero hcheck).2.2, hsame.dhcpState, ?_⟩
      apply requestedIP_bootpPkt
      exact Nat.zero_le _
    · rw [hbind.2.2.2.2] at hmem
      cases List.mem_singleton.mp hmem
  · intro hchange
    rcases hcases with ⟨rfl, -⟩ | ⟨t, rfl, rfl | rfl⟩ | ⟨p, t, rfl, hrequest, hoffer⟩
        | ⟨p, t, rfl, hlisten, hbind, hack⟩
    · rcases hchange with ⟨hne, heq⟩ | hne
      · apply absurd heq hne
      · apply absurd rfl hne
    · rcases hchange with ⟨-, heq⟩ | hne
      · cases heq
      · apply absurd rfl hne
    · rcases hchange with ⟨hne, heq⟩ | hne
      · apply absurd heq hne
      · apply absurd rfl hne
    · obtain ⟨-, -, hsame, -⟩ := hrequest
      rcases hchange with ⟨-, heq⟩ | hne
      · rw [hsame.dhcpState] at heq
        cases heq
      · apply absurd hsame.netOurIP hne
    · exact ⟨p, t, rfl, hack, (bootpCheckPkt_eq_zero hbind.2.1).2.2, hbind.1, hinv hlisten hbind.1⟩
  · rintro p t rfl hother
    apply eq_of_other_kind hlast hr hother

instance : (c : Client) → (e : Event) → Decidable (Meets c e)
  | _, .receive _ _ => inferInstanceAs (Decidable (_ → _ → _ ∧ _))
  | _, .timeout _ => .isTrue trivial

/-- A client that has no address. -/
def newClient : Client where
  dhcpState := .init
  bootpID := 0
  bootpTry := 0
  listening := false
  netOurEther := fun _ => 0
  netOurIP := 0
  netServerIP := 0
  netServerEther := fun _ => 0
  netOurSubnetMask := 0
  netOurGatewayIP := 0
  netOurDNSIP := 0
  netOurHostName := []
  netOurRootPath := []
  netDHCPServerIP := 0
  dhcpLeasetime := 0
  bootFile := []

/-- A message of a server with nothing but its type in the options. -/
def serverPkt (mt : Byte) (id yiaddr : Word) : Received where
  mem := Memory.store (Memory.store (Memory.store (fun _ => 0) 0
    ([opBootreply, hwtEther, hwlEther, 0] ++ wordBytes id)) 16 (wordBytes yiaddr)) bpVend
      (bootpVendorMagic ++ [53, 1, mt, 0xff])
  dest := portBootpc
  src := portBootps
  len := bpVend + 8
  etSrc := fun _ => 0
  len_lt := by decide

/-- An offer and its acknowledgement. -/
theorem dhcp_sound_ack :
  Sound newClient 5 [.receive (serverPkt dhcpOffer 5 7) 6] (.receive (serverPkt dhcpAck 5 7) 7)
  := by
  apply dhcp_sound newClient 5 [.receive (serverPkt dhcpOffer 5 7) 6]
    (.receive (serverPkt dhcpAck 5 7) 7)
  decide +kernel

/-- A refusal is answered like an offer. -/
theorem dhcp_request_for_nak :
  ¬ ∀ (c : Client) (t : Word) (es : List Event) (e : Event), Sound c t es e
  := by
  intro h
  obtain ⟨c, r, hc, hr, hrequest, -⟩ := h newClient 5 [] (.receive (serverPkt dhcpNak 5 0) 6)
  obtain rfl := Option.some.inj hc
  have hstate : (react (bootpRequest newClient 5).1 (.receive (serverPkt dhcpNak 5 0) 6)).map
      (fun r => r.1.dhcpState) = some .requesting := by decide +kernel
  rw [hr] at hstate
  obtain ⟨p, t, hevent, hoffer, -⟩ := hrequest (by decide) (Option.some.inj hstate)
  cases hevent
  revert hoffer
  decide +kernel

end Bootp
