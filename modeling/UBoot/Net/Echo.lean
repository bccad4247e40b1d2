import UBoot.Net.Checksum
import UBoot.Net.Payload

/-!
# Answering an echo request

`NetReceive` makes the answer to an ICMP echo request in place and sends it.  The checksum of the
answer is made from whole half words, and the frame that is sent has the length that it would have
behind a plain Ethernet header.  The theorem says on which requests that is right.
-/

namespace Net

variable {α : Type} {g : Globals α} {f : Frame} {p : Packet} {m new : List Byte} {a n q : ℕ}

/-- Some bytes of a buffer. -/
def slice (m : List Byte) (p n : ℕ) : List Byte := (m.drop p).take n

/-- The bytes, and a zero where an odd one needs it. -/
def padded (bytes : List Byte) : List Byte := if bytes.length % 2 = 1 then bytes ++ [0] else bytes

/-- The length in the header of the IP packet. -/
def Frame.ipLen (f : Frame) (p : Packet) : ℕ := f.half (p.ip + 2)

/-- An ICMP echo request that is addressed to us. -/
structure EchoRequest (g : Globals α) (f : Frame) (p : Packet) : Prop where
  framing : framing g f = some p
  ether : f.mac 0 = g.netOurEther
  prot : p.prot = protIp
  fits : f.ipLen p ≤ p.len
  version : f.byte p.ip = 0x45
  unfragmented : f.half (p.ip + 6) &&& 0x3fff = 0
  ipProt : f.byte (p.ip + 9) = ipprotoIcmp
  ipCksum : onesSum (f.bytes p.ip ipHdrSizeNoUdp) = 0xffff
  netOurIP : g.netOurIP ≠ 0
  ipDst : f.word (p.ip + 16) = g.netOurIP
  header : ipHdrSize ≤ f.ipLen p
  type : f.bytes (p.ip + 20) 2 = [icmpEchoRequest, 0]
  cksum : onesSum (padded (f.bytes (p.ip + 20) (f.ipLen p - ipHdrSizeNoUdp))) = 0xffff

/-- The frame `r` is the answer to the request: all of it, with the addresses swapped, right
checksums, and the identifier, the sequence number and the payload of the request. -/
structure EchoReply (g : Globals α) (f : Frame) (p : Packet) (r : List Byte) : Prop where
  length : r.length = p.ip + f.ipLen p
  ether : slice r 0 12 = f.bytes 6 6 ++ g.netOurEther.bytes
  link : slice r 12 (p.ip - 12) = f.bytes 12 (p.ip - 12)
  ipCksum : onesSum (slice r p.ip ipHdrSizeNoUdp) = 0xffff
  ipSrc : slice r (p.ip + 12) 4 = wordBytes g.netOurIP
  ipDst : slice r (p.ip + 16) 4 = f.bytes (p.ip + 12) 4
  type : slice r (p.ip + 20) 2 = [icmpEchoReply, 0]
  cksum : onesSum (padded (slice r (p.ip + 20) (f.ipLen p - ipHdrSizeNoUdp))) = 0xffff
  same : slice r (p.ip + 24) (f.ipLen p - 24) = f.bytes (p.ip + 24) (f.ipLen p - 24)

/-! ### Slices -/

theorem slice_add (m : List Byte) (p a b : ℕ) :
  slice m p (a + b) = slice m p a ++ slice m (p + a) b
  := by
  rw [slice, slice, slice, List.take_add, List.drop_drop]

theorem length_slice (h : a + n ≤ m.length) :
  (slice m a n).length = n
  := by
  rw [slice, List.length_take, List.length_drop]
  omega

theorem slice_take {k : ℕ} (h : a + n ≤ k) :
  slice (m.take k) a n = slice m a n
  := by
  rw [slice, slice, List.drop_take, List.take_take, Nat.min_eq_left (by omega)]

theorem length_overwrite (h : a + new.length ≤ m.length) :
  (overwrite m a new).length = m.length
  := by
  rw [overwrite, List.length_append, List.length_append, List.length_take, List.length_drop]
  omega

/-- What was written is there. -/
theorem slice_overwrite_self (h : a ≤ m.length) (hn : new.length = n) :
  slice (overwrite m a new) a n = new
  := by
  rw [slice, overwrite, List.append_assoc, List.drop_left' (List.length_take_of_le h),
    List.take_left' hn]

/-- Everything else is unchanged. -/
theorem slice_overwrite_of_disjoint (h : a + new.length ≤ m.length)
    (hq : q + n ≤ a ∨ a + new.length ≤ q) :
  slice (overwrite m a new) q n = slice m q n
  := by
  have htake : (m.take a).length = a := List.length_take_of_le (by omega)
  rcases hq with hq | hq
  · rw [slice, slice, overwrite, List.append_assoc, List.drop_append_of_le_length (by omega),
      List.take_append_of_le_length (by rw [List.length_drop]; omega), List.drop_take, List.take_take,
      Nat.min_eq_left (by omega)]
  · have hlength : (m.take a ++ new).length = a + new.length := by
      rw [List.length_append, htake]
    rw [slice, slice, overwrite, List.drop_append, List.drop_drop, hlength,
      List.drop_eq_nil_of_le (by omega), List.nil_append, Nat.add_sub_cancel' hq]

/-! ### The checksum of the answer -/

/-- A sum of all ones stays one exactly when a zero is added. -/
theorem onesSum_append_odd {as : List Byte} {b : Byte} (has : as.length % 2 = 0)
    (hsum : onesSum as = 0xffff) :
  onesSum (as ++ [b, 0]) = 0xffff ↔ b = 0
  := by
  have hb := b.toNat_lt
  have hhalves : halves (as ++ [b, 0]) = halves as ++ [256 * b.toNat] := by
    rw [halves_append has]
    rfl
  have hle := halves_le (as ++ [b, 0])
  have hsum' := (OnesComplement.sum_eq_all_ones (halves_le as) (by decide)).mp hsum
  rw [onesSum, OnesComplement.sum_eq_all_ones hle (by decide), hhalves, List.sum_append,
    List.sum_singleton, ← UInt8.toNat_inj, UInt8.toNat_zero]
  omega

/-- The answer's bytes, with a checksum made from the whole half words, have a right one exactly
when no half word was left out, or when it is zero. -/
theorem onesSum_padded_iff {head rest : List Byte} (hhead : head.length % 2 = 0)
    (h : head.length + rest.length + 2 < 2 ^ 17) :
  onesSum (padded (head ++ halfBytes (0xffff - netCksum (head ++ halfBytes 0 ++ rest)) ++ rest))
      = 0xffff
    ↔ rest.length % 2 = 0 ∨ rest.getLast? = some 0
  := by
  have hlength : ∀ (k : ℕ) (tail : List Byte), (head ++ halfBytes k ++ tail).length
      = head.length + 2 + tail.length := by
    intro k tail
    rw [List.length_append, List.length_append, length_halfBytes]
  by_cases heven : rest.length % 2 = 0
  · rw [padded, if_neg (by rw [hlength]; omega),
      onesSum_complement hhead (by rw [hlength]; omega)]
    simp [heven]
  · obtain ⟨tail, b, rfl⟩ := (List.eq_nil_or_concat' rest).resolve_left fun hnil => by
      rw [hnil] at heven
      exact heven rfl
    rw [List.length_append, List.length_singleton] at heven h
    have hodd : ∀ k, (head ++ halfBytes k ++ tail).length % 2 = 0 := by
      intro k
      rw [hlength]
      omega
    have hcksum : netCksum (head ++ halfBytes 0 ++ (tail ++ [b]))
        = netCksum (head ++ halfBytes 0 ++ tail) := by
      unfold netCksum
      rw [← List.append_assoc, halves_append (hodd 0)]
      simp only [halves, List.append_nil]
    rw [hcksum, padded, ← List.append_assoc, if_pos, List.append_assoc]
    · rw [List.cons_append, List.nil_append, onesSum_append_odd (hodd _)]
      · simp only [List.length_append, List.length_singleton, heven, false_or,
          List.getLast?_append, List.getLast?_singleton, Option.some_or, Option.some.injEq]
      · apply onesSum_complement hhead
        rw [hlength]
        omega
    · rw [List.length_append, List.length_singleton, hlength]
      omega

/-! ### The answer -/

/-- Two buffers are the same outside a range. -/
structure SameOutside (m m' : List Byte) (lo hi : ℕ) : Prop where
  length : m'.length = m.length
  slice : ∀ q n, q + n ≤ lo ∨ hi ≤ q → slice m' q n = slice m q n

theorem SameOutside.refl (m : List Byte) (lo hi : ℕ) :
  SameOutside m m lo hi
  := ⟨rfl, fun _ _ _ => rfl⟩

theorem SameOutside.overwrite {m' : List Byte} {lo hi : ℕ} (h : SameOutside m m' lo hi)
    (hlo : lo ≤ a) (hhi : a + new.length ≤ hi) (hm : hi ≤ m.length) :
  SameOutside m (overwrite m' a new) lo hi
  where
  length := by
    rw [length_overwrite (by rw [h.length]; omega), h.length]
  slice := by
    intro q n hq
    rw [slice_overwrite_of_disjoint (by rw [h.length]; omega) (by omega)]
    apply h.slice q n hq

/-- The addresses in the header of the frame. -/
def echoEther (g : Globals α) (f : Frame) : List Byte :=
  overwrite (overwrite f.mem 0 (f.mac 6).bytes) 6 g.netOurEther.bytes

/-- The header of the IP packet, before its checksum. -/
def echoIpHead (g : Globals α) (m : List Byte) (ip : ℕ) : List Byte :=
  let m := overwrite m (ip + 10) (halfBytes 0)
  let m := overwrite m (ip + 6) (halfBytes 0)
  let m := overwrite m (ip + 16) (slice m (ip + 12) 4)
  overwrite m (ip + 12) (wordBytes g.netOurIP)

/-- The header of the ICMP packet, before its checksum. -/
def echoIcmpHead (m : List Byte) (ip : ℕ) : List Byte :=
  overwrite (overwrite m (ip + 20) [icmpEchoReply]) (ip + 22) (halfBytes 0)

/-- The buffer with a checksum at `a` for the `n` bytes from `q` on. -/
def setCksum (m : List Byte) (a q n : ℕ) : List Byte :=
  overwrite m a (halfBytes (0xffff - netCksum (slice m q n)))

/-- What the answer is cut out of. -/
def echoBuffer (g : Globals α) (f : Frame) (ip len : ℕ) : List Byte :=
  let m := setCksum (echoIpHead g (echoEther g f) ip) (ip + 10) ip ipHdrSizeNoUdp
  setCksum (echoIcmpHead m ip) (ip + 22) (ip + 20) (len - ipHdrSizeNoUdp)

theorem echoAnswer_eq (g : Globals α) (f : Frame) (ip len : ℕ) :
  echoAnswer g f ip len = (echoBuffer g f ip len).take (etherHdrSize + len)
  := rfl

theorem length_macBytes (addr : Mac) :
  addr.bytes.length = 6
  := List.length_ofFn

theorem echoEther_spec (g : Globals α) (hm : 12 ≤ f.mem.length) :
  SameOutside f.mem (echoEther g f) 0 12
    ∧ slice (echoEther g f) 0 12 = (f.mac 6).bytes ++ g.netOurEther.bytes
  := by
  have h₁ : SameOutside f.mem (overwrite f.mem 0 (f.mac 6).bytes) 0 12 := by
    apply (SameOutside.refl f.mem 0 12).overwrite (Nat.zero_le 0)
    · rw [length_macBytes]
      decide
    · apply hm
  refine ⟨?_, ?_⟩
  · apply h₁.overwrite (Nat.zero_le 6)
    · rw [length_macBytes]
    · apply hm
  · rw [show 12 = 6 + 6 from rfl, slice_add]
    rfl

theorem echoIpHead_spec (g : Globals α) (ip : ℕ) (hm : ip + 20 ≤ m.length) :
  SameOutside m (echoIpHead g m ip) (ip + 6) (ip + 20)
    ∧ slice (echoIpHead g m ip) (ip + 10) 2 = halfBytes 0
    ∧ slice (echoIpHead g m ip) (ip + 12) 4 = wordBytes g.netOurIP
    ∧ slice (echoIpHead g m ip) (ip + 16) 4 = slice m (ip + 12) 4
  := by
  have hword : (wordBytes g.netOurIP).length = 4 := rfl
  have h₁ : SameOutside m (overwrite m (ip + 10) (halfBytes 0)) (ip + 6) (ip + 20) := by
    apply (SameOutside.refl m _ _).overwrite
    · omega
    · rw [length_halfBytes]
      omega
    · apply hm
  generalize hm₁ : overwrite m (ip + 10) (halfBytes 0) = m₁ at h₁
  have h₂ : SameOutside m (overwrite m₁ (ip + 6) (halfBytes 0)) (ip + 6) (ip + 20) := by
    apply h₁.overwrite (Nat.le_refl _)
    · rw [length_halfBytes]
      omega
    · apply hm
  generalize hm₂ : overwrite m₁ (ip + 6) (halfBytes 0) = m₂ at h₂
  have hsrc : slice m₂ (ip + 12) 4 = slice m (ip + 12) 4 := by
    rw [← hm₂, slice_overwrite_of_disjoint, ← hm₁, slice_overwrite_of_disjoint]
    · rw [length_halfBytes]
      omega
    · rw [length_halfBytes]
      omega
    · rw [length_halfBytes, h₁.length]
      omega
    · rw [length_halfBytes]
      omega
  have hlen : (slice m₂ (ip + 12) 4).length = 4 := by
    apply length_slice
    rw [h₂.length]
    omega
  have h₃ : SameOutside m (overwrite m₂ (ip + 16) (slice m₂ (ip + 12) 4)) (ip + 6) (ip + 20) := by
    apply h₂.overwrite
    · omega
    · rw [hlen]
    · apply hm
  have hhead : echoIpHead g m ip
      = overwrite (overwrite m₂ (ip + 16) (slice m₂ (ip + 12) 4)) (ip + 12)
        (wordBytes g.netOurIP) := by
    rw [echoIpHead, hm₁, hm₂]
  rw [hhead]
  refine ⟨?_, ?_, ?_, ?_⟩
  · apply h₃.overwrite
    · omega
    · rw [hword]
      omega
    · apply hm
  · rw [slice_overwrite_of_disjoint (by rw [h₃.length, hword]; omega) (by omega),
      slice_overwrite_of_disjoint (by rw [h₂.length, hlen]; omega) (by omega), ← hm₂,
      slice_overwrite_of_disjoint (by rw [h₁.length, length_halfBytes]; omega)
        (by rw [length_halfBytes]; omega), ← hm₁]
    apply slice_overwrite_self _ (length_halfBytes 0)
    omega
  · apply slice_overwrite_self _ hword
    rw [h₃.length]
    omega
  · rw [slice_overwrite_of_disjoint (by rw [h₃.length, hword]; omega) (by rw [hword]; omega), ← hsrc]
    apply slice_overwrite_self _ hlen
    rw [h₂.length]
    omega

theorem setCksum_spec {k : ℕ} (hqa : q ≤ a) (hk : k = a + 2) (hn : k ≤ q + n) (hm : q + n ≤ m.length) :
  SameOutside m (setCksum m a q n) a k
    ∧ slice (setCksum m a q n) q n
      = slice m q (a - q) ++ halfBytes (0xffff - netCksum (slice m q n)) ++ slice m k (q + n - k)
  := by
  obtain ⟨b, rfl⟩ := Nat.exists_eq_add_of_le hqa
  subst hk
  have hsame : SameOutside m (setCksum m (q + b) q n) (q + b) (q + b + 2) := by
    apply (SameOutside.refl m _ _).overwrite (Nat.le_refl _)
    · rw [length_halfBytes]
    · omega
  refine ⟨hsame, ?_⟩
  obtain ⟨c, rfl⟩ : ∃ c, n = b + 2 + c := ⟨n - b - 2, by omega⟩
  rw [slice_add, slice_add, Nat.add_sub_cancel_left, Nat.add_assoc q b 2,
    show q + (b + 2 + c) - (q + (b + 2)) = c by omega]
  congr 1
  · congr 1
    · apply hsame.slice
      left
      exact Nat.le_refl _
    · apply slice_overwrite_self _ (length_halfBytes _)
      omega
  · apply hsame.slice
    right
    rw [Nat.add_assoc]

theorem slice_split {k : ℕ} (hqa : q ≤ a) (hk : k = a + 2) (hn : k ≤ q + n)
    (hzero : slice m a 2 = halfBytes 0) :
  slice m q n = slice m q (a - q) ++ halfBytes 0 ++ slice m k (q + n - k)
  := by
  obtain ⟨b, rfl⟩ := Nat.exists_eq_add_of_le hqa
  subst hk
  obtain ⟨c, rfl⟩ : ∃ c, n = b + 2 + c := ⟨n - b - 2, by omega⟩
  rw [slice_add, slice_add, hzero, Nat.add_sub_cancel_left, Nat.add_assoc q b 2,
    show q + (b + 2 + c) - (q + (b + 2)) = c by omega]

theorem echoIcmpHead_spec (ip : ℕ) (hm : ip + 24 ≤ m.length) :
  SameOutside m (echoIcmpHead m ip) (ip + 20) (ip + 24)
    ∧ slice (echoIcmpHead m ip) (ip + 20) 2 = icmpEchoReply :: slice m (ip + 21) 1
    ∧ slice (echoIcmpHead m ip) (ip + 22) 2 = halfBytes 0
  := by
  have hone : ([icmpEchoReply] : List Byte).length = 1 := rfl
  have h₁ : SameOutside m (overwrite m (ip + 20) [icmpEchoReply]) (ip + 20) (ip + 24) := by
    apply (SameOutside.refl m _ _).overwrite (Nat.le_refl _)
    · rw [hone]
      omega
    · apply hm
  refine ⟨?_, ?_, ?_⟩
  · apply h₁.overwrite
    · omega
    · rw [length_halfBytes]
    · apply hm
  · rw [echoIcmpHead, slice_overwrite_of_disjoint (by rw [h₁.length, length_halfBytes]; omega)
      (by omega), show 2 = 1 + 1 from rfl, slice_add, slice_overwrite_self (by omega) hone,
      slice_overwrite_of_disjoint (by rw [hone]; omega) (by rw [hone]; omega)]
    rfl
  · apply slice_overwrite_self _ (length_halfBytes 0)
    rw [h₁.length]
    omega

section

variable {ip len : ℕ} (hip : 12 ≤ ip) (hlen : 28 ≤ len) (hm : ip + len ≤ f.mem.length)

include hip hlen hm

/-- The parts of the answer that have nothing to do with its last byte. -/
theorem echoBuffer_spec (g : Globals α) (hcode : slice f.mem (ip + 21) 1 = [0]) :
  (echoBuffer g f ip len).length = f.mem.length
    ∧ slice (echoBuffer g f ip len) 0 12 = (f.mac 6).bytes ++ g.netOurEther.bytes
    ∧ slice (echoBuffer g f ip len) 12 (ip - 12) = slice f.mem 12 (ip - 12)
    ∧ onesSum (slice (echoBuffer g f ip len) ip 20) = 0xffff
    ∧ slice (echoBuffer g f ip len) (ip + 12) 4 = wordBytes g.netOurIP
    ∧ slice (echoBuffer g f ip len) (ip + 16) 4 = slice f.mem (ip + 12) 4
    ∧ slice (echoBuffer g f ip len) (ip + 20) 2 = [icmpEchoReply, 0]
    ∧ slice (echoBuffer g f ip len) (ip + 24) (len - 24) = slice f.mem (ip + 24) (len - 24)
    ∧ slice (echoBuffer g f ip len) (ip + 20) (len - 20) = [icmpEchoReply, 0]
      ++ halfBytes (0xffff - netCksum ([icmpEchoReply, 0] ++ halfBytes 0
        ++ slice f.mem (ip + 24) (len - 24))) ++ slice f.mem (ip + 24) (len - 24)
  := by
  obtain ⟨hsame₁, hether⟩ := echoEther_spec (f := f) g (by omega)
  generalize hm₁ : echoEther g f = m₁ at hsame₁ hether
  have hlen₁ := hsame₁.length
  obtain ⟨hsame₂, hzero, hsrc, hdst⟩ := echoIpHead_spec (m := m₁) g ip (by omega)
  generalize hm₂ : echoIpHead g m₁ ip = m₂ at hsame₂ hzero hsrc hdst
  have hlen₂ := hsame₂.length
  obtain ⟨hsame₃, hhdr⟩ := setCksum_spec (m := m₂) (a := ip + 10) (q := ip) (n := 20) (k := ip + 12)
    (by omega) rfl (by omega) (by omega)
  have hhdr₂ := slice_split (m := m₂) (a := ip + 10) (q := ip) (n := 20) (k := ip + 12)
    (by omega) rfl (by omega) hzero
  generalize hm₃ : setCksum m₂ (ip + 10) ip 20 = m₃ at hsame₃ hhdr
  have hlen₃ := hsame₃.length
  obtain ⟨hsame₄, htype, hzero₄⟩ := echoIcmpHead_spec (m := m₃) ip (by omega)
  generalize hm₄ : echoIcmpHead m₃ ip = m₄ at hsame₄ htype hzero₄
  have hlen₄ := hsame₄.length
  obtain ⟨hsame₅, hicmp⟩ := setCksum_spec (m := m₄) (a := ip + 22) (q := ip + 20) (n := len - 20)
    (k := ip + 24) (by omega) rfl (by omega) (by omega)
  have hicmp₄ := slice_split (m := m₄) (a := ip + 22) (q := ip + 20) (n := len - 20) (k := ip + 24)
    (by omega) rfl (by omega) hzero₄
  have hbuffer : echoBuffer g f ip len = setCksum m₄ (ip + 22) (ip + 20) (len - 20) := by
    rw [echoBuffer, hm₁, hm₂]
    simp only [ipHdrSizeNoUdp, hm₃, hm₄]
  rw [← hbuffer] at hsame₅ hicmp
  have hrest : slice m₄ (ip + 24) (len - 24) = slice f.mem (ip + 24) (len - 24) := by
    rw [hsame₄.slice _ _ (by omega), hsame₃.slice _ _ (by omega), hsame₂.slice _ _ (by omega),
      hsame₁.slice _ _ (by omega)]
  have hhead : slice m₄ (ip + 20) 2 = [icmpEchoReply, 0] := by
    rw [htype, hsame₃.slice _ _ (by omega), hsame₂.slice _ _ (by omega),
      hsame₁.slice _ _ (by omega), hcode]
  rw [show ip + 22 - (ip + 20) = 2 by omega, show ip + 20 + (len - 20) - (ip + 24) = len - 24 by omega,
    hrest, hhead] at hicmp hicmp₄
  refine ⟨?_, ?_, ?_, ?_, ?_, ?_, ?_, ?_, ?_⟩
  · rw [hsame₅.length, hlen₄, hlen₃, hlen₂, hlen₁]
  · rw [hsame₅.slice _ _ (by omega), hsame₄.slice _ _ (by omega), hsame₃.slice _ _ (by omega),
      hsame₂.slice _ _ (by omega), hether]
  · rw [hsame₅.slice _ _ (by omega), hsame₄.slice _ _ (by omega), hsame₃.slice _ _ (by omega),
      hsame₂.slice _ _ (by omega), hsame₁.slice _ _ (by omega)]
  · rw [hsame₅.slice _ _ (by omega), hsame₄.slice _ _ (by omega), hhdr, hhdr₂]
    have hpre : (slice m₂ ip (ip + 10 - ip)).length = 10 := by
      rw [length_slice (by omega)]
      omega
    have hpost : (slice m₂ (ip + 12) (ip + 20 - (ip + 12))).length = 8 := by
      rw [length_slice (by omega)]
      omega
    apply onesSum_complement
    · rw [hpre]
    · rw [List.length_append, List.length_append, hpre, hpost, length_halfBytes]
      decide
  · rw [hsame₅.slice _ _ (by omega), hsame₄.slice _ _ (by omega), hsame₃.slice _ _ (by omega), hsrc]
  · rw [hsame₅.slice _ _ (by omega), hsame₄.slice _ _ (by omega), hsame₃.slice _ _ (by omega), hdst,
      hsame₁.slice _ _ (by omega)]
  · rw [hsame₅.slice _ _ (by omega), hhead]
  · rw [hsame₅.slice _ _ (by omega), hrest]
  · rw [hicmp, hicmp₄]

end

/-! ### The request -/

theorem EchoRequest.inside (h : EchoRequest g f p) :
  etherHdrSize ≤ p.ip ∧ p.ip + f.ipLen p ≤ f.mem.length ∧ p.len = f.len - p.ip
  := by
  have hlen := framing_len h.framing
  have hfits := h.fits
  have hle := f.len_le
  refine ⟨?_, ?_, hlen⟩
  · rcases framing_cases h.framing with ⟨-, rfl⟩ | ⟨-, -, rfl⟩ | ⟨-, rfl⟩
    all_goals exact Nat.le_of_ble_eq_true rfl
  · omega

theorem EchoRequest.code (h : EchoRequest g f p) :
  slice f.mem (p.ip + 21) 1 = [0]
  := by
  have htype : slice f.mem (p.ip + 20) (1 + 1) = [icmpEchoRequest] ++ [0] := h.type
  rw [slice_add] at htype
  have hfirst : (slice f.mem (p.ip + 20) 1).length = 1 := by
    obtain ⟨-, hm, -⟩ := h.inside
    have hheader := h.header
    rw [ipHdrSize] at hheader
    apply length_slice
    omega
  apply List.append_inj_right htype hfirst

theorem EchoRequest.requestType (h : EchoRequest g f p) :
  f.byte (p.ip + 20) = icmpEchoRequest
  := by
  have htype : (f.mem.drop (p.ip + 20)).take 2 = [icmpEchoRequest, 0] := h.type
  have hget := congrArg (·.getD 0 0) htype
  rwa [List.getD_eq_getElem?_getD, List.getElem?_take_of_lt Nat.two_pos, List.getElem?_drop,
    ← List.getD_eq_getElem?_getD] at hget

theorem macBytes_eq {k : ℕ} (h : k + 6 ≤ f.mem.length) :
  (f.mac k).bytes = f.bytes k 6
  := by
  apply List.ext_getElem
  · rw [length_macBytes]
    exact (length_slice h).symm
  · intro i hi hi'
    rw [length_macBytes] at hi
    simp only [Mac.bytes, Frame.mac, Frame.byte, Frame.bytes, List.getElem_ofFn,
      List.getElem_take, List.getElem_drop]
    apply List.getD_eq_getElem

/-- A request is answered. -/
theorem netReceive_echo [DecidableEq α] (h : EchoRequest g f p) :
  netReceive g f = (g, [.ethSend (echoAnswer g f p.ip (f.ipLen p))])
  := by
  obtain ⟨-, hm, hlen⟩ := h.inside
  have hheader := h.header
  have hfits : ¬ p.len < (f.half (p.ip + 2) : ℤ) := not_lt.mpr h.fits
  have hlow : ¬ p.len % 2 ^ 32 < (ipHdrSize : ℤ) := by
    have hfits := h.fits
    have hlt := f.len_lt
    rw [ipHdrSize] at *
    omega
  have hcksum : netCksumOk (f.bytes p.ip ipHdrSizeNoUdp) = true := by
    apply (netCksumOk_eq _).mpr (.inl h.ipCksum)
    apply Nat.lt_of_le_of_lt (List.length_take_le _ _)
    decide
  have hreceive : receiveIp g f p = [.ethSend (echoAnswer g f p.ip (f.ipLen p))] := by
    rw [receiveIp, if_neg hlow, if_neg hfits, h.version,
      if_neg (by decide), if_neg (by decide), if_neg (not_not.mpr hcksum),
      if_neg (fun hdst => hdst.2.1 h.ipDst), if_neg (not_not.mpr h.unfragmented), if_pos h.ipProt,
      receiveIcmp, h.requestType, if_neg (by decide), if_pos rfl]
    rfl
  rw [netReceive, h.framing]
  simp only [h.prot, hreceive]
  rfl

theorem getLast?_rest (hlen : 28 ≤ n) (hodd : n % 2 = 1) {ip : ℕ} (hm : ip + n ≤ f.mem.length) :
  (slice f.mem (ip + 24) (n - 24)).getLast? = some (f.byte (ip + n - 1))
  := by
  rw [List.getLast?_eq_getElem?, length_slice (by omega), slice, List.getElem?_take_of_lt (by omega),
    List.getElem?_drop, Frame.byte, List.getD_eq_getElem?_getD,
    show ip + 24 + (n - 24 - 1) = ip + n - 1 by omega]
  rw [List.getElem?_eq_getElem (by omega)]
  rfl

/-- **When the answer is right.** -/
theorem echoReply_iff (h : EchoRequest g f p) :
  EchoReply g f p (echoAnswer g f p.ip (f.ipLen p))
    ↔ p.ip = etherHdrSize ∧ (f.ipLen p % 2 = 0 ∨ f.byte (p.ip + f.ipLen p - 1) = 0)
  := by
  obtain ⟨hip, hm, -⟩ := h.inside
  have hheader := h.header
  rw [ipHdrSize] at hheader
  rw [etherHdrSize] at hip
  obtain ⟨hlength, hether, hlink, hipCksum, hsrc, hdst, htype, hsame, hicmp⟩ :=
    echoBuffer_spec (Nat.le_trans (by decide) hip) hheader hm g h.code
  have hlt : f.ipLen p < 2 ^ 16 := bytesHalf_lt _
  have hrest : (slice f.mem (p.ip + 24) (f.ipLen p - 24)).length = f.ipLen p - 24 :=
    length_slice (by omega)
  have hparity : onesSum (padded (slice (echoBuffer g f p.ip (f.ipLen p)) (p.ip + 20)
      (f.ipLen p - 20))) = 0xffff
      ↔ f.ipLen p % 2 = 0 ∨ f.byte (p.ip + f.ipLen p - 1) = 0 := by
    rw [hicmp, onesSum_padded_iff rfl (by rw [hrest, List.length_cons, List.length_singleton]; omega),
      hrest]
    rcases Nat.mod_two_eq_zero_or_one (f.ipLen p) with heven | hodd
    · simp only [heven, true_or, iff_true]
      left
      omega
    · rw [getLast?_rest hheader hodd hm, Option.some.injEq, hodd]
      have hne : ¬ (f.ipLen p - 24) % 2 = 0 := by omega
      simp only [hne, false_or, one_ne_zero]
  rw [echoAnswer_eq, ← hparity]
  constructor
  · intro hreply
    have hall := hreply.length
    have hcut := hreply.cksum
    rw [List.length_take, hlength, etherHdrSize] at hall
    have hipEq : p.ip = etherHdrSize := by
      rw [etherHdrSize]
      omega
    refine ⟨hipEq, ?_⟩
    rw [ipHdrSizeNoUdp, slice_take (by omega)] at hcut
    apply hcut
  · rintro ⟨hipEq, hcksum⟩
    constructor
    case length =>
      rw [List.length_take, hlength]
      omega
    case ether =>
      rw [slice_take (by rw [etherHdrSize]; omega), hether, macBytes_eq]
      omega
    case link =>
      rw [slice_take (by omega), hlink]
      rfl
    case ipCksum =>
      rw [ipHdrSizeNoUdp, slice_take (by omega), hipCksum]
    case ipSrc => rw [slice_take (by omega), hsrc]
    case ipDst =>
      rw [slice_take (by omega), hdst]
      rfl
    case type => rw [slice_take (by omega), htype]
    case cksum =>
      rw [ipHdrSizeNoUdp, slice_take (by omega), hcksum]
    case same =>
      rw [slice_take (by omega), hsame]
      rfl

/-- **The answer to an echo request** is right when the request came with a plain Ethernet header
and has an even length, or a zero for its last byte, and only then. -/
theorem netReceive_echo_iff [DecidableEq α] (g : Globals α) (f : Frame) (p : Packet)
    (h : EchoRequest g f p) :
  (∃ r, netReceive g f = (g, [.ethSend r]) ∧ EchoReply g f p r)
    ↔ p.ip = etherHdrSize ∧ (f.ipLen p % 2 = 0 ∨ f.byte (p.ip + f.ipLen p - 1) = 0)
  := by
  rw [← echoReply_iff h, netReceive_echo h]
  constructor
  · rintro ⟨r, hr, hreply⟩
    cases hr
    exact hreply
  · intro hreply
    exact ⟨_, rfl, hreply⟩

/-- The bytes of an echo request for the board. -/
def echoBytes (ipSum icmpSum : ℕ) (payload : List Byte) : List Byte :=
  [0, 1, 2, 3, 4, 5] ++ [6, 7, 8, 9, 10, 11] ++ halfBytes protIp
    ++ [0x45, 0] ++ halfBytes (ipHdrSize + payload.length) ++ [0, 1, 0, 0, 64, 1] ++ halfBytes ipSum
    ++ [10, 0, 0, 1, 10, 0, 0, 2]
    ++ [8, 0] ++ halfBytes icmpSum ++ [0x12, 0x34, 0, 1] ++ payload

theorem echoBytes_length_le (ipSum icmpSum : ℕ) (payload : List Byte) :
  etherHdrSize + ipHdrSize + payload.length ≤ (echoBytes ipSum icmpSum payload).length
  := by
  simp [echoBytes, halfBytes, etherHdrSize, ipHdrSize]
  omega

theorem echoFrame_len_lt {payload : List Byte} (h : payload.length < 2 ^ 16) :
  etherHdrSize + ipHdrSize + payload.length < 2 ^ 31
  := by
  rw [etherHdrSize, ipHdrSize]
  omega

/-- An echo request for the board, in a frame of its length. -/
def echoFrame (ipSum icmpSum : ℕ) (payload : List Byte) (h : payload.length < 2 ^ 16) : Frame where
  mem := echoBytes ipSum icmpSum payload
  len := etherHdrSize + ipHdrSize + payload.length
  len_le := echoBytes_length_le ipSum icmpSum payload
  len_lt := echoFrame_len_lt h

/-- A request with two bytes. -/
def evenEcho : Frame := echoFrame 0x66dc 0xe4c8 [1, 2] (by decide)

/-- A request with three bytes. -/
def oddEcho : Frame := echoFrame 0x66db 0xe1c8 [1, 2, 3] (by decide)

theorem echoRequest_even :
  EchoRequest board evenEcho ⟨protIp, etherHdrSize, 30⟩
  := by
  constructor
  case framing => rfl
  all_goals decide +kernel

theorem echoRequest_odd :
  EchoRequest board oddEcho ⟨protIp, etherHdrSize, 31⟩
  := by
  constructor
  case framing => rfl
  all_goals decide +kernel

theorem netReceive_echo_even :
  ∃ r, netReceive board evenEcho = (board, [.ethSend r])
    ∧ EchoReply board evenEcho ⟨protIp, etherHdrSize, 30⟩ r
  := by
  apply (netReceive_echo_iff board evenEcho ⟨protIp, etherHdrSize, 30⟩ echoRequest_even).mpr
  decide +kernel

/-- The answer to three bytes has a wrong checksum. -/
theorem not_echoReply_odd :
  ¬ ∀ (f : Frame) (p : Packet), EchoRequest board f p →
    ∃ r, netReceive board f = (board, [.ethSend r]) ∧ EchoReply board f p r
  := by
  intro h
  obtain ⟨r, hr, hreply⟩ := h oddEcho ⟨protIp, etherHdrSize, 31⟩ echoRequest_odd
  rw [netReceive_echo echoRequest_odd] at hr
  cases hr
  have hcksum := hreply.cksum
  revert hcksum
  decide +kernel

end Net
