import UBoot.Lib.AddressSpace
import UBoot.Lib.Walk

/-!
# CDP packets

`CDPHandler` of `net/net.c` checks the header of a packet and its checksum and then takes one TLV
after the other: a type, a length that includes both, and the data.
-/

namespace Cdp

open StateTransition

/-- `CDP_SNAP_hdr`. -/
def cdpSnapHdr : List Byte := [0xAA, 0xAA, 0x03, 0x00, 0x00, 0x0C, 0x20, 0x00]

/-- `CDP_NATIVE_VLAN_TLV`. -/
def nativeVlanTlv : ℕ := 0x000a

/-- `CDP_APPLIANCE_VLAN_TLV`. -/
def applianceVlanTlv : ℕ := 0x000e

/-- The half word at an offset. -/
def half (mem : ℕ → Byte) (p : ℕ) : ℕ := bytesHalf (Memory.read mem p 2)

/-! ### The checksum -/

/-- The upper half of the sum is added to the lower one. -/
def foldCarry (result : Word) : Word := (result &&& 0xffff#32) + (result >>> 16)

/-- The loop that folds until nothing is left to fold. -/
def foldCarries : ℕ → Word → Word
  | 0, result => result
  | fuel + 1, result =>
    if result >>> 16 ≠ 0#32 then foldCarries fuel (foldCarry result) else result

/-- The loop that adds the half words. -/
def addHalves (mem : ℕ → Byte) : ℕ → ℕ → Word → Word
  | 0, _, result => result
  | n + 1, buff, result =>
    let result := result + BitVec.ofNat 32 (half mem buff)
    addHalves mem n (buff + 2) (if result &&& 0x80000000#32 ≠ 0#32 then foldCarry result else result)

/-- `CDP_compute_csum`; `odd` says whether the address of `buff` is odd. -/
def cdpComputeCsum (mem : ℕ → Byte) (odd : Bool) (buff len : ℕ) : BitVec 16 :=
  let swap (result : Word) : Word := ((result >>> 8) &&& 0xff#32) ||| ((result &&& 0xff#32) <<< 8)
  let sum (buff len : ℕ) (result : Word) : Word :=
    let result := addHalves mem (len / 2) buff result
    foldCarries 2 <|
      if len % 2 = 1 then
        -- the last byte is a signed character
        let leftover := ((mem (buff + (len - 1))).toBitVec.signExtend 16).setWidth 32
        (result &&& 0xffff0000#32) ||| ((result + leftover) &&& 0x0000ffff#32)
      else result
  let result : Word :=
    if len = 0 then 0
    else if odd then
      swap (sum (buff + 1) (len - 1) ((mem buff).toBitVec.setWidth 32 <<< 8))
    else sum buff len 0
  ~~~ (foldCarry (foldCarry (foldCarry result))).setWidth 16

/-- Two steps are enough for the loop that folds. -/
theorem foldCarries_shiftRight (result : Word) :
  foldCarries 2 result >>> 16 = 0#32
  := by
  have hfold : ∀ r : Word, (foldCarry r).toNat = r.toNat % 2 ^ 16 + r.toNat / 2 ^ 16 := by
    intro r
    have hr := r.isLt
    rw [foldCarry, BitVec.toNat_add, BitVec.toNat_and, BitVec.toNat_ushiftRight,
      Nat.shiftRight_eq_div_pow, show (0xffff#32).toNat = 2 ^ 16 - 1 from rfl,
      Nat.and_two_pow_sub_one_eq_mod]
    omega
  have hzero : ∀ r : Word, r >>> 16 = 0#32 ↔ r.toNat < 2 ^ 16 := by
    intro r
    rw [← BitVec.toNat_inj, BitVec.toNat_ushiftRight, Nat.shiftRight_eq_div_pow]
    exact Nat.div_eq_zero_iff.trans (by simp)
  have h := result.isLt
  have h1 := hfold result
  have h2 := hfold (foldCarry result)
  rw [hzero]
  simp only [foldCarries, ne_eq, hzero, ite_not]
  split
  case isTrue hlt => exact hlt
  case isFalse hlt =>
    split
    case isTrue hlt' => exact hlt'
    case isFalse hlt' => omega

/-! ### The handler -/

/-- Where the loop is: what is left of the packet, and the numbers found so far. -/
structure State where
  pkt : ℕ
  len : ℕ
  vlan : BitVec 16
  nvlan : BitVec 16
deriving DecidableEq

/-- What is done to a TLV: how many bytes are taken, which addresses are read, and how the loop
goes on if the packet is not too short. -/
structure Iteration where
  taken : ℕ
  reads : List ℕ
  next : Option State
deriving DecidableEq

/-- The loop over the entries of an appliance TLV that leaves the number of the VLAN, if the TLV is
not too short, and the addresses that are read.  The number is that of the entry with the type
`CONFIG_CDP_APPLIANCE_VLAN_TYPE`, or of any entry if there is no such type. -/
def applianceLoop (vlanType : Option Byte) (mem : ℕ → Byte) :
    ℕ → ℕ → BitVec 16 → Option (BitVec 16) × List ℕ
  | 0, _, vlan => (some vlan, [])
  | 1, _, _ => (none, [])
  | 2, _, _ => (none, [])
  | tlen + 3, t, vlan =>
    let mine : Bool := vlanType.all (mem t == ·)
    let vlan := if mine then BitVec.ofNat 16 (half mem (t + 1)) else vlan
    let r := applianceLoop vlanType mem tlen (t + 3) vlan
    (r.1, t :: (if mine then [t + 1, t + 2] else []) ++ r.2)

/-- `type` of the TLV. -/
def State.type (mem : ℕ → Byte) (s : State) : ℕ := half mem s.pkt

/-- `tlen` of the TLV. -/
def State.tlen (mem : ℕ → Byte) (s : State) : ℕ := half mem (s.pkt + 2)

/-- `tlen` without the header; it is an unsigned short. -/
def State.size (mem : ℕ → Byte) (s : State) : ℕ := (s.tlen mem + 2 ^ 16 - 4) % 2 ^ 16

/-- The addresses of the header of the TLV. -/
def State.header (s : State) : List ℕ := [s.pkt, s.pkt + 1, s.pkt + 2, s.pkt + 3]

/-- The TLV is taken.  The types that are left out here are those for which nothing is done. -/
def takeTlv (vlanType : Option Byte) (mem : ℕ → Byte) (s : State) : Iteration :=
  let ss := s.pkt + 4
  let u := { s with pkt := s.pkt + s.tlen mem, len := s.len - s.tlen mem }
  if s.type mem = nativeVlanTlv then
    ⟨s.tlen mem, s.header ++ [ss, ss + 1], some { u with nvlan := BitVec.ofNat 16 (half mem ss) }⟩
  else if s.type mem = applianceVlanTlv then
    let r := applianceLoop vlanType mem (s.size mem) ss s.vlan
    ⟨s.tlen mem, s.header ++ r.2, r.1.map fun vlan => { u with vlan := vlan }⟩
  else ⟨s.tlen mem, s.header, some u⟩

/-- The body of the loop of `CDPHandler`. -/
def tlv (vlanType : Option Byte) (mem : ℕ → Byte) (s : State) : Iteration :=
  if s.len < 4 then ⟨0, [], none⟩
  else if s.len < s.tlen mem then ⟨0, s.header, none⟩
  else takeTlv vlanType mem s

/-- The loop goes on. -/
def next (vlanType : Option Byte) (mem : ℕ → Byte) (s : State) : Option State :=
  if s.len = 0 then none else (tlv vlanType mem s).next

/-- The start of `CDPHandler`: the addresses that are read, and where the loop begins if the packet
is one. -/
def start (mem : ℕ → Byte) (odd : Bool) (len : ℕ) : List ℕ × Option State :=
  if len < cdpSnapHdr.length + 4 then ([], none)
  else if Memory.read mem 0 cdpSnapHdr.length ≠ cdpSnapHdr then (List.range 8, none)
  else if mem 8 < 2 then (List.range 9, none)
  else if mem 9 = 0 then (List.range 10, none)
  else
    let size := (len - cdpSnapHdr.length) % 2 ^ 16
    (List.range 10 ++ List.range' 8 size,
      if cdpComputeCsum mem odd 8 size ≠ 0 then none else some ⟨12, len - 12, 0xffff, 0xffff⟩)

/-- `CDPHandler` on a packet of `len` bytes: `CDPApplianceVLAN` and `CDPNativeVLAN`, if they are
set.  There is no result if the loop makes `fuel` steps. -/
def cdpHandler (vlanType : Option Byte) (mem : ℕ → Byte) (odd : Bool) (len fuel : ℕ) :
    Option (Option (BitVec 16 × BitVec 16)) :=
  match (start mem odd len).2 with
  | none => some none
  | some s =>
    (Walk.run (next vlanType mem) fuel s).map fun t =>
      if t.len = 0 then some (t.vlan, t.nvlan) else none

/-! ### What a packet may do -/

/-- The loop comes through a state. -/
def ComesThrough (vlanType : Option Byte) (mem : ℕ → Byte) (odd : Bool) (len : ℕ) (s : State) :
    Prop :=
  ∃ s₀ ∈ (start mem odd len).2, Reaches (next vlanType mem) s₀ s

/-- The handler returns, it takes no TLV that is shorter than the header of one, and it reads the
packet only. -/
structure Safe (vlanType : Option Byte) (mem : ℕ → Byte) (odd : Bool) (len : ℕ) : Prop where
  returns : ∃ fuel, (cdpHandler vlanType mem odd len fuel).isSome
  consumes : ∀ s, ComesThrough vlanType mem odd len s → s.len ≠ 0 →
    (tlv vlanType mem s).taken = 0 ∧ (tlv vlanType mem s).next = none
      ∨ 4 ≤ (tlv vlanType mem s).taken
  reads_start : ∀ a ∈ (start mem odd len).1, a < len
  reads : ∀ s, ComesThrough vlanType mem odd len s → s.len ≠ 0 →
    ∀ a ∈ (tlv vlanType mem s).reads, a < len

/-- A TLV. -/
structure Tlv where
  type : ℕ
  data : List Byte
  type_lt : type < 2 ^ 16
  length_lt : data.length + 4 < 2 ^ 16

/-- A TLV in the packet. -/
def Tlv.bytes (t : Tlv) : List Byte := halfBytes t.type ++ halfBytes (t.data.length + 4) ++ t.data

/-- Several TLVs. -/
def encode (ts : List Tlv) : List Byte := ts.flatMap Tlv.bytes

/-- The loop goes on after the TLV: the entries of an appliance TLV have three bytes each. -/
def Tlv.Passed (t : Tlv) : Prop := t.type = applianceVlanTlv → 3 ∣ t.data.length

/-- The bytes begin with a TLV whose length is less than that of its header, or with a native VLAN
TLV without the number of the VLAN, which would be after the packet. -/
def Bad (bytes : List Byte) : Prop :=
  4 ≤ bytes.length
  ∧ (bytesHalf (bytes.drop 2) < 4
    ∨ bytesHalf bytes = nativeVlanTlv ∧ bytesHalf (bytes.drop 2) ≤ bytes.length ∧ bytes.length < 6)

/-! ### One TLV -/

theorem half_eq {mem : ℕ → Byte} {p : ℕ} {bytes : List Byte} (h : Memory.Holds mem p bytes)
    (hlen : 2 ≤ bytes.length) :
  half mem p = bytesHalf bytes
  := bytesHalf_read h hlen

/-- Entries of three bytes each are not too short. -/
theorem applianceLoop_isSome (vlanType : Option Byte) (mem : ℕ → Byte) (tlen t : ℕ)
    (vlan : BitVec 16) :
  (applianceLoop vlanType mem tlen t vlan).1.isSome ↔ 3 ∣ tlen
  := by
  induction tlen, t, vlan using applianceLoop.induct vlanType mem with
  | case1 => simp [applianceLoop]
  | case2 => simp [applianceLoop]
  | case3 => simp [applianceLoop]
  | case4 tlen t vlan mine vlan' ih =>
    rw [applianceLoop]
    exact ih.trans (Nat.dvd_add_self_right).symm

/-- No other bytes are read than those of the entries. -/
theorem applianceLoop_reads (vlanType : Option Byte) (mem : ℕ → Byte) (tlen t : ℕ)
    (vlan : BitVec 16) :
  ∀ a ∈ (applianceLoop vlanType mem tlen t vlan).2, a < t + tlen
  := by
  induction tlen, t, vlan using applianceLoop.induct vlanType mem with
  | case1 => simp [applianceLoop]
  | case2 => simp [applianceLoop]
  | case3 => simp [applianceLoop]
  | case4 tlen t vlan mine vlan' ih =>
    intro a ha
    rw [applianceLoop] at ha
    rcases List.mem_append.mp ha with ha | ha
    · have hle : a ≤ t + 2 := by
        rcases List.mem_cons.mp ha with rfl | ha
        · omega
        · split at ha
          · simp at ha
            omega
          · cases ha
      omega
    · have := ih a ha
      omega

section Iteration

variable {vlanType : Option Byte} {mem : ℕ → Byte} {s : State}

/-- The TLV is there. -/
def State.Full (mem : ℕ → Byte) (s : State) : Prop := 4 ≤ s.len ∧ s.tlen mem ≤ s.len

theorem tlv_of_full (h : s.Full mem) :
  tlv vlanType mem s = takeTlv vlanType mem s
  := by
  rw [tlv, if_neg (not_lt.mpr h.1), if_neg (not_lt.mpr h.2)]

theorem tlv_of_not_full (vlanType : Option Byte) (h : ¬ s.Full mem) :
  (tlv vlanType mem s).taken = 0 ∧ (tlv vlanType mem s).next = none
  ∧ ∀ a ∈ (tlv vlanType mem s).reads, 4 ≤ s.len ∧ a ∈ s.header
  := by
  rw [tlv]
  split
  case isTrue => exact ⟨rfl, rfl, fun a ha => absurd ha List.not_mem_nil⟩
  case isFalse h4 =>
    have hlt : s.len < s.tlen mem := by
      by_contra hle
      exact h ⟨not_lt.mp h4, not_lt.mp hle⟩
    rw [if_pos hlt]
    exact ⟨rfl, rfl, fun a ha => ⟨not_lt.mp h4, ha⟩⟩

theorem taken_takeTlv (vlanType : Option Byte) (mem : ℕ → Byte) (s : State) :
  (takeTlv vlanType mem s).taken = s.tlen mem
  := by
  unfold takeTlv
  dsimp only
  split
  · rfl
  · split
    · rfl
    · rfl

/-- Where the loop is after the TLV. -/
theorem next_takeTlv {u : State} (h : (takeTlv vlanType mem s).next = some u) :
  u.pkt = s.pkt + s.tlen mem ∧ u.len = s.len - s.tlen mem
  := by
  unfold takeTlv at h
  dsimp only at h
  split at h
  · obtain rfl := Option.some.inj h
    exact ⟨rfl, rfl⟩
  · split at h
    · dsimp only at h
      obtain ⟨vlan, -, rfl⟩ := Option.map_eq_some_iff.mp h
      exact ⟨rfl, rfl⟩
    · obtain rfl := Option.some.inj h
      exact ⟨rfl, rfl⟩

theorem isSome_next_takeTlv :
  (takeTlv vlanType mem s).next.isSome ↔ (s.type mem = applianceVlanTlv → 3 ∣ s.size mem)
  := by
  unfold takeTlv
  dsimp only
  split
  case isTrue hn =>
    constructor
    · intro _ ha
      exact absurd (hn.symm.trans ha) (by decide)
    · intro _
      rfl
  case isFalse =>
    split
    case isTrue ha =>
      rw [Option.isSome_map, applianceLoop_isSome]
      exact ⟨fun h _ => h, fun h => h ha⟩
    case isFalse ha => exact ⟨fun _ ha' => absurd ha' ha, fun _ => rfl⟩

/-- Where the handler reads. -/
theorem reads_takeTlv {a : ℕ} (h : a ∈ (takeTlv vlanType mem s).reads) :
  a ∈ s.header ∨ s.type mem = nativeVlanTlv ∧ a < s.pkt + 6 ∨ a < s.pkt + 4 + s.size mem
  := by
  unfold takeTlv at h
  dsimp only at h
  split at h
  case isTrue hn =>
    rcases List.mem_append.mp h with h | h
    · exact Or.inl h
    · refine Or.inr (Or.inl ⟨hn, ?_⟩)
      simp at h
      omega
  case isFalse =>
    split at h
    case isTrue =>
      rcases List.mem_append.mp h with h | h
      · exact Or.inl h
      · exact Or.inr (Or.inr (applianceLoop_reads _ _ _ _ _ a h))
    case isFalse => exact Or.inl h

/-- The number of the native VLAN is read. -/
theorem mem_reads_of_native (h : s.type mem = nativeVlanTlv) :
  s.pkt + 5 ∈ (takeTlv vlanType mem s).reads
  := by
  rw [takeTlv]
  dsimp only
  rw [if_pos h]
  simp

end Iteration

/-! ### The TLVs of a packet -/

/-- A TLV that is there is one with a length of 4 at least. -/
theorem exists_tlv {bytes : List Byte} {n : ℕ} (hn : bytesHalf (bytes.drop 2) = n) (h4 : 4 ≤ n)
    (hle : n ≤ bytes.length) :
  ∃ t : Tlv, ∃ rest, bytes = t.bytes ++ rest ∧ t.type = bytesHalf bytes ∧ t.data.length + 4 = n
  := by
  have hdata : ((bytes.drop 4).take (n - 4)).length + 4 = n := by
    rw [List.length_take, List.length_drop]
    omega
  have hlt : ((bytes.drop 4).take (n - 4)).length + 4 < 2 ^ 16 := by
    rw [hdata, ← hn]
    apply bytesHalf_lt
  refine ⟨⟨bytesHalf bytes, (bytes.drop 4).take (n - 4), bytesHalf_lt _, hlt⟩, bytes.drop n, ?_, rfl,
    hdata⟩
  have htype : halfBytes (bytesHalf bytes) = bytes.take 2 := halfBytes_bytesHalf (by omega)
  have hlen : halfBytes n = (bytes.drop 2).take 2 := by
    rw [← hn]
    apply halfBytes_bytesHalf
    rw [List.length_drop]
    omega
  have hrest : (bytes.drop 4).take (n - 4) ++ bytes.drop n = bytes.drop 4 := by
    conv_rhs => rw [← List.take_append_drop (n - 4) (bytes.drop 4)]
    rw [List.drop_drop, Nat.add_sub_cancel' h4]
  calc
    bytes = bytes.take 2 ++ ((bytes.drop 2).take 2 ++ bytes.drop 4) := by
      rw [← List.drop_drop (i := 2) (j := 2), List.take_append_drop, List.take_append_drop]
    _ = halfBytes (bytesHalf bytes) ++ halfBytes (((bytes.drop 4).take (n - 4)).length + 4)
        ++ (bytes.drop 4).take (n - 4) ++ bytes.drop n := by
      rw [hdata, htype, hlen, List.append_assoc, List.append_assoc, hrest]

@[simp]
theorem encode_cons (t : Tlv) (ts : List Tlv) :
  encode (t :: ts) = t.bytes ++ encode ts
  := List.flatMap_cons

theorem Tlv.length_bytes (t : Tlv) :
  t.bytes.length = t.data.length + 4
  := by
  rw [Tlv.bytes, List.length_append, List.length_append, length_halfBytes, length_halfBytes,
    Nat.add_comm]

/-- What is left of the packet. -/
structure State.Left (mem : ℕ → Byte) (s : State) (rest : List Byte) : Prop where
  holds : Memory.Holds mem s.pkt rest
  len : s.len = rest.length

namespace State.Left

variable {vlanType : Option Byte} {mem : ℕ → Byte} {s : State} {rest : List Byte}

theorem type_eq (h : s.Left mem rest) (hlen : 2 ≤ rest.length) :
  s.type mem = bytesHalf rest
  := half_eq h.holds hlen

theorem tlen_eq (h : s.Left mem rest) (hlen : 4 ≤ rest.length) :
  s.tlen mem = bytesHalf (rest.drop 2)
  := half_eq (h.holds.drop 2) (by rw [List.length_drop]; omega)

theorem of_tlv {t : Tlv} (h : s.Left mem (t.bytes ++ rest)) :
  s.type mem = t.type ∧ s.tlen mem = t.bytes.length ∧ s.size mem = t.data.length ∧ s.Full mem
  := by
  have hlen := h.len
  have hbytes := t.length_bytes
  rw [List.length_append] at hlen
  have htype : s.type mem = t.type := by
    rw [h.type_eq (by rw [List.length_append]; omega), Tlv.bytes, List.append_assoc,
      List.append_assoc, bytesHalf_halfBytes t.type_lt]
  have htlen : s.tlen mem = t.bytes.length := by
    rw [h.tlen_eq (by rw [List.length_append]; omega), hbytes]
    exact bytesHalf_halfBytes t.length_lt _
  have hsize : s.size mem = t.data.length := by
    have := t.length_lt
    rw [State.size]
    omega
  exact ⟨htype, htlen, hsize, by omega, by omega⟩

/-- A TLV is passed. -/
theorem next_tlv (vlanType : Option Byte) {t : Tlv} (h : s.Left mem (t.bytes ++ rest)) (ht : t.Passed) :
  ∃ u, next vlanType mem s = some u ∧ u.Left mem rest
  := by
  obtain ⟨htype, htlen, hsize, hfull⟩ := h.of_tlv
  have hsome : (takeTlv vlanType mem s).next.isSome := by
    rw [isSome_next_takeTlv, htype, hsize]
    exact ht
  obtain ⟨u, hu⟩ := Option.isSome_iff_exists.mp hsome
  obtain ⟨hpkt, hlen⟩ := next_takeTlv hu
  refine ⟨u, ?_, ?_, ?_⟩
  · have := hfull.1
    rw [next, if_neg (by omega), tlv_of_full hfull, hu]
  · rw [hpkt, htlen]
    exact (Memory.holds_append.mp h.holds).2
  · rw [hlen, htlen, h.len, List.length_append, Nat.add_sub_cancel_left]

/-- The loop comes to what is after some TLVs. -/
theorem reaches (vlanType : Option Byte) {ts : List Tlv} (h : s.Left mem (encode ts ++ rest)) (hts : ∀ t ∈ ts, t.Passed) :
  ∃ u, Reaches (next vlanType mem) s u ∧ u.Left mem rest
  := by
  induction ts generalizing s with
  | nil => exact ⟨s, Relation.ReflTransGen.refl, h⟩
  | cons t ts ih =>
    rw [encode_cons, List.append_assoc] at h
    obtain ⟨v, hv, hleft⟩ := h.next_tlv vlanType (hts t List.mem_cons_self)
    obtain ⟨u, hu, hleft⟩ := ih hleft fun t' ht' => hts t' (List.mem_cons_of_mem t ht')
    exact ⟨u, Relation.ReflTransGen.head hv hu, hleft⟩

/-- If what is left is not bad, the loop only passes TLVs. -/
theorem tlv_of_next (h : s.Left mem rest) (hbad : ¬ Bad rest) {u : State}
    (hnext : next vlanType mem s = some u) :
  ∃ t : Tlv, ∃ rest', rest = t.bytes ++ rest' ∧ t.Passed ∧ u.Left mem rest'
  := by
  have hfull : s.Full mem := by
    by_contra hfull
    rw [next, (tlv_of_not_full vlanType hfull).2.1, ite_self] at hnext
    cases hnext
  obtain ⟨h4, hle⟩ := hfull
  have hlen := h.len
  have htlen := h.tlen_eq (by omega)
  have h4' : 4 ≤ s.tlen mem := by
    by_contra hlt
    exact hbad ⟨by omega, Or.inl (by omega)⟩
  obtain ⟨t, rest', rfl, htype, hdata⟩ := exists_tlv htlen.symm h4' (by omega)
  have hpassed : t.Passed := by
    rw [next, if_neg (by omega), tlv_of_full ⟨h4, hle⟩] at hnext
    have hsome := isSome_next_takeTlv.mp (Option.isSome_iff_exists.mpr ⟨u, hnext⟩)
    obtain ⟨htype', -, hsize, -⟩ := h.of_tlv
    rwa [htype', hsize] at hsome
  obtain ⟨u', hu', hleft⟩ := h.next_tlv vlanType hpassed
  obtain rfl : u' = u := Option.some.inj (hu'.symm.trans hnext)
  exact ⟨t, rest', rfl, hpassed, hleft⟩

end State.Left

theorem full_of_next {vlanType : Option Byte} {mem : ℕ → Byte} {s u : State}
    (h : next vlanType mem s = some u) :
  s.Full mem ∧ u.pkt + u.len = s.pkt + s.len
  := by
  have hfull : s.Full mem := by
    by_contra hfull
    rw [next, (tlv_of_not_full vlanType hfull).2.1, ite_self] at h
    cases h
  have h4 := hfull.1
  have hle := hfull.2
  rw [next, if_neg (by omega), tlv_of_full hfull] at h
  obtain ⟨hpkt, hlen⟩ := next_takeTlv h
  exact ⟨hfull, by omega⟩

/-! ### The packets that are handled well -/

/-- The header and the checksum are right. -/
structure Header (mem : ℕ → Byte) (odd : Bool) (len : ℕ) : Prop where
  le : 12 ≤ len
  snap : Memory.read mem 0 8 = cdpSnapHdr
  version : ¬ mem 8 < 2
  ttl : mem 9 ≠ 0
  csum : cdpComputeCsum mem odd 8 ((len - 8) % 2 ^ 16) = 0

theorem start_eq_some {mem : ℕ → Byte} {odd : Bool} {len : ℕ} {s : State} :
  (start mem odd len).2 = some s ↔ Header mem odd len ∧ s = ⟨12, len - 12, 0xffff, 0xffff⟩
  := by
  have h12 : cdpSnapHdr.length + 4 = 12 := rfl
  have h8 : cdpSnapHdr.length = 8 := rfl
  constructor
  · intro h
    rw [start, h12, h8] at h
    split at h
    case isTrue => cases h
    case isFalse hle =>
      split at h
      case isTrue => cases h
      case isFalse hsnap =>
        split at h
        case isTrue => cases h
        case isFalse hversion =>
          split at h
          case isTrue => cases h
          case isFalse httl =>
            dsimp only at h
            split at h
            case isTrue => cases h
            case isFalse hcsum =>
              exact ⟨⟨not_lt.mp hle, not_not.mp hsnap, hversion, httl, not_not.mp hcsum⟩,
                (Option.some.inj h).symm⟩
  · rintro ⟨⟨hle, hsnap, hversion, httl, hcsum⟩, rfl⟩
    rw [start, h12, h8, if_neg (not_lt.mpr hle), if_neg (not_not.mpr hsnap), if_neg hversion,
      if_neg httl]
    dsimp only
    rw [if_neg (not_not.mpr hcsum)]

/-- The start reads the packet only. -/
theorem reads_start (mem : ℕ → Byte) (odd : Bool) (len : ℕ) :
  ∀ a ∈ (start mem odd len).1, a < len
  := by
  intro a ha
  rw [start, show cdpSnapHdr.length + 4 = 12 from rfl, show cdpSnapHdr.length = 8 from rfl] at ha
  split at ha
  case isTrue => cases ha
  case isFalse hle =>
    have hrange : ∀ n ≤ 10, a ∈ List.range n → a < len := by
      intro n hn ha
      rw [List.mem_range] at ha
      omega
    split at ha
    · exact hrange 8 (by decide) ha
    · split at ha
      · exact hrange 9 (by decide) ha
      · split at ha
        · exact hrange 10 le_rfl ha
        · rcases List.mem_append.mp ha with ha | ha
          · exact hrange 10 le_rfl ha
          · have hmod := Nat.mod_le (len - 8) (2 ^ 16)
            rw [List.mem_range'_1] at ha
            omega

/-- The TLVs that are passed are not followed by a bad one. -/
def Good (mem : ℕ → Byte) (len : ℕ) : Prop :=
  ∀ ts rest, Memory.read mem 12 (len - 12) = encode ts ++ rest → (∀ t ∈ ts, t.Passed) → ¬ Bad rest

/-- Where the loop is while only TLVs are passed. -/
structure Passing (mem : ℕ → Byte) (len : ℕ) (s : State) : Prop where
  split : ∃ ts rest, Memory.read mem 12 (len - 12) = encode ts ++ rest ∧ (∀ t ∈ ts, t.Passed)
    ∧ s.Left mem rest
  add : s.pkt + s.len = len

theorem Passing.next {vlanType : Option Byte} {mem : ℕ → Byte} {len : ℕ} {s u : State}
    (h : Passing mem len s) (hgood : Good mem len) (hnext : next vlanType mem s = some u) :
  Passing mem len u ∧ u.len < s.len
  := by
  obtain ⟨⟨ts, rest, hsplit, hts, hleft⟩, hadd⟩ := h
  obtain ⟨t, rest', rfl, ht, hleft'⟩ := hleft.tlv_of_next (hgood ts rest hsplit hts) hnext
  refine ⟨⟨⟨ts ++ [t], rest', ?_, ?_, hleft'⟩, ?_⟩, ?_⟩
  · rw [hsplit, encode, encode, List.flatMap_append, List.flatMap_singleton, List.append_assoc]
  · intro t' ht'
    rcases List.mem_append.mp ht' with ht' | ht'
    · exact hts t' ht'
    · rwa [List.mem_singleton.mp ht']
  · rw [(full_of_next hnext).2, hadd]
  · rw [hleft'.len, hleft.len, List.length_append, t.length_bytes]
    omega

theorem Header.passing {mem : ℕ → Byte} {odd : Bool} {len : ℕ} (h : Header mem odd len)
    (vlan nvlan : BitVec 16) :
  Passing mem len ⟨12, len - 12, vlan, nvlan⟩
  := by
  constructor
  · refine ⟨[], Memory.read mem 12 (len - 12), rfl, by simp, ?_, ?_⟩
    · apply Memory.holds_read
    · rw [Memory.length_read]
  · exact Nat.add_sub_cancel' h.le

theorem Passing.tlv {vlanType : Option Byte} {mem : ℕ → Byte} {len : ℕ} {s : State}
    (h : Passing mem len s) (hgood : Good mem len) :
  ((tlv vlanType mem s).taken = 0 ∧ (tlv vlanType mem s).next = none
    ∨ 4 ≤ (tlv vlanType mem s).taken)
  ∧ ∀ a ∈ (tlv vlanType mem s).reads, a < len
  := by
  obtain ⟨⟨ts, rest, hsplit, hts, hleft⟩, hadd⟩ := h
  have hbad := hgood ts rest hsplit hts
  have hlen := hleft.len
  have hheader : ∀ a ∈ s.header, a < s.pkt + 4 := by simp [State.header]
  by_cases hfull : s.Full mem
  · have htlen := hleft.tlen_eq (by have := hfull.1; omega)
    obtain ⟨h4, hle⟩ := hfull
    have h4' : 4 ≤ s.tlen mem := by
      by_contra hlt
      exact hbad ⟨by omega, Or.inl (by omega)⟩
    rw [tlv_of_full ⟨h4, hle⟩, taken_takeTlv]
    refine ⟨Or.inr h4', ?_⟩
    intro a ha
    rcases reads_takeTlv ha with ha | ⟨htype, ha⟩ | ha
    · have := hheader a ha
      omega
    · rw [hleft.type_eq (by omega)] at htype
      by_contra hge
      exact hbad ⟨by omega, Or.inr ⟨htype, by omega, by omega⟩⟩
    · have hsize : s.size mem ≤ s.tlen mem - 4 := by
        rw [State.size]
        omega
      omega
  · obtain ⟨htaken, hnext, hreads⟩ := tlv_of_not_full vlanType hfull
    refine ⟨Or.inl ⟨htaken, hnext⟩, ?_⟩
    intro a ha
    obtain ⟨h4, ha⟩ := hreads a ha
    have := hheader a ha
    omega

/-- A bad TLV that the loop comes to. -/
theorem Safe.good {vlanType : Option Byte} {mem : ℕ → Byte} {odd : Bool} {len : ℕ}
    (h : Safe vlanType mem odd len) (hheader : Header mem odd len) :
  Good mem len
  := by
  rintro ts rest hsplit hts ⟨h4, hbad⟩
  have hstart := start_eq_some.mpr ⟨hheader, rfl⟩
  have hleft : State.Left mem ⟨12, len - 12, 0xffff, 0xffff⟩ (encode ts ++ rest) := by
    constructor
    · rw [← hsplit]
      apply Memory.holds_read
    · rw [← hsplit, Memory.length_read]
  obtain ⟨u, hu, hleft⟩ := hleft.reaches vlanType hts
  have hcomes : ComesThrough vlanType mem odd len u := ⟨_, hstart, hu⟩
  have hadd : u.pkt + u.len = len := by
    apply Walk.reaches_invariant (I := fun u => u.pkt + u.len = len) _ _ hu
    · intro t v ht hv
      rw [(full_of_next hv).2, ht]
    · exact Nat.add_sub_cancel' hheader.le
  have hlen := hleft.len
  have htlen := hleft.tlen_eq h4
  rcases hbad with hlt | ⟨htype, hle, hlt⟩
  · -- less than the header is taken
    have hfull : u.Full mem := ⟨by omega, by omega⟩
    have hconsumes := h.consumes u hcomes (by omega)
    rw [tlv_of_full hfull, taken_takeTlv] at hconsumes
    rcases hconsumes with ⟨hzero, hnone⟩ | hge
    · have hsome : (takeTlv vlanType mem u).next.isSome := by
        rw [isSome_next_takeTlv, State.size, hzero]
        intro _
        decide
      rw [hnone] at hsome
      cases hsome
    · omega
  · -- the number is after the end of the packet
    have hfull : u.Full mem := ⟨by omega, by omega⟩
    have hnative : u.type mem = nativeVlanTlv := by rw [hleft.type_eq (by omega), htype]
    have hreads := h.reads u hcomes (by omega) (u.pkt + 5)
    rw [tlv_of_full hfull] at hreads
    have := hreads (mem_reads_of_native hnative)
    omega

theorem Good.safe (vlanType : Option Byte) {mem : ℕ → Byte} {odd : Bool} {len : ℕ}
    (h : Header mem odd len → Good mem len) :
  Safe vlanType mem odd len
  := by
  have hpassing : ∀ s, ComesThrough vlanType mem odd len s → Good mem len ∧ Passing mem len s := by
    rintro s ⟨s₀, hs₀, hs⟩
    obtain ⟨hheader, rfl⟩ := start_eq_some.mp hs₀
    refine ⟨h hheader, ?_⟩
    apply Walk.reaches_invariant _ (hheader.passing _ _) hs
    intro t u ht hu
    exact (ht.next (h hheader) hu).1
  constructor
  · cases hstart : (start mem odd len).2 with
    | none =>
      use 0
      rw [cdpHandler, hstart]
      rfl
    | some s =>
      obtain ⟨hheader, rfl⟩ := start_eq_some.mp hstart
      have hends : Walk.Ends (next vlanType mem) ⟨12, len - 12, 0xffff, 0xffff⟩ := by
        apply Walk.ends_of_measure (fun s => s.len) (I := Passing mem len) _ (hheader.passing _ _)
        intro t u ht hu
        apply ht.next (h hheader) hu
      obtain ⟨fuel, hfuel⟩ := hends
      use fuel
      simp only [cdpHandler, hstart, Option.isSome_map, hfuel]
  · intro s hs _
    obtain ⟨hgood, hs⟩ := hpassing s hs
    exact (hs.tlv hgood).1
  · apply reads_start
  · intro s hs _
    obtain ⟨hgood, hs⟩ := hpassing s hs
    exact (hs.tlv hgood).2

/-- The handler does what it should if and only if the header or the checksum is not right, or the
TLVs that are passed are not followed by a bad one. -/
theorem cdpHandler_safe_iff (vlanType : Option Byte) (mem : ℕ → Byte) (odd : Bool) (len : ℕ) :
  Safe vlanType mem odd len ↔ (Header mem odd len → Good mem len)
  := by
  constructor
  · intro h hheader
    exact h.good hheader
  · intro h
    exact Good.safe vlanType h

/-- A packet with a TLV of length 0. -/
def stuck : List Byte :=
  cdpSnapHdr ++ [0x02, 0x01, 0xfd, 0xfd] ++ [0x00, 0x01, 0x00, 0x00]

/-- The handler does not return. -/
theorem not_safe_stuck :
  ¬ Safe none (fun i => stuck.getD i 0) false stuck.length
  := by
  intro h
  obtain ⟨fuel, hfuel⟩ := h.returns
  have hstart : (start (fun i => stuck.getD i 0) false stuck.length).2
      = some ⟨12, 4, 0xffff, 0xffff⟩ := by
    decide +kernel
  have hfixed : next none (fun i => stuck.getD i 0) ⟨12, 4, 0xffff, 0xffff⟩
      = some ⟨12, 4, 0xffff, 0xffff⟩ := by
    decide +kernel
  apply Walk.not_ends_of_fixed hfixed
  use fuel
  rwa [cdpHandler, hstart, Option.isSome_map] at hfuel

end Cdp
