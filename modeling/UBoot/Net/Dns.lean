import UBoot.Lib.AddressSpace
import UBoot.Lib.Walk

/-!
# DNS replies

`DnsHandler` of `net/dns.c` skips the question of a reply and the answers that are CNAME records,
and takes the address from the first A record.  The numbers of a record are put together as if the
machine were a little endian one; `be` says that it is a big endian one.
-/

namespace Dns

open StateTransition

/-- `DNS_A_RECORD`. -/
def dnsARecord : ℕ := 0x01

/-- `DNS_CNAME_RECORD`. -/
def dnsCnameRecord : ℕ := 0x05

/-- The half word at an offset, `ntohs`. -/
def half (mem : ℕ → Byte) (p : ℕ) : ℕ := bytesHalf (Memory.read mem p 2)

/-- `ntohs (p[0] | (p[1] << 8))`. -/
def swapHalf (be : Bool) (bytes : List Byte) : ℕ :=
  bytesHalf (if be then (bytes.take 2).reverse else bytes)

/-- The number that is put together from the bytes at an offset. -/
def swapped (be : Bool) (mem : ℕ → Byte) (p : ℕ) : ℕ := swapHalf be (Memory.read mem p 2)

/-! ### The handler -/

/-- The loop that prints the packet if `DEBUG` is defined; `i` has 16 bits. -/
def debugNext (len i : ℕ) : Option ℕ := if i < len then some ((i + 4) % 2 ^ 16) else none

/-- A loop that advances `p` as long as a condition holds. -/
def skip (cond : ℕ → Prop) [DecidablePred cond] : ℕ → ℕ → ℕ
  | 0, p => p
  | fuel + 1, p => if cond p then skip cond fuel (p + 1) else p

/-- The end of the host name in the question. -/
def skipHost (mem : ℕ → Byte) (e p : ℕ) : ℕ := skip (fun p => p < e ∧ mem p ≠ 0) (e - p) p

/-- The end of the name in an answer. -/
def skipName (mem : ℕ → Byte) (e p : ℕ) : ℕ := skip (fun p => mem p ≠ 0 ∧ p + 12 < e) (e - p) p

/-- Where the loop is after the name of an answer, two bytes before the type. -/
def answer (mem : ℕ → Byte) (e p : ℕ) : ℕ :=
  if mem p ≠ 0xc0 then skipName mem e p - 1 else p

/-- `type`, two bytes after `p`. -/
def type (be : Bool) (mem : ℕ → Byte) (p : ℕ) : ℕ := swapped be mem (p + 2)

/-- `dlen`. -/
def dlen (be : Bool) (mem : ℕ → Byte) (p : ℕ) : ℕ := swapped be mem (p + 10)

/-- The loop over the answers goes on after a CNAME record. -/
def next (be : Bool) (mem : ℕ → Byte) (e p : ℕ) : Option ℕ :=
  let q := answer mem e p
  if p + 12 < e ∧ type be mem q = dnsCnameRecord then some (q + 12 + dlen be mem q) else none

/-- The A record with which the loop ends. -/
def found (be : Bool) (mem : ℕ → Byte) (e p : ℕ) : Option ℕ :=
  let q := answer mem e p
  if p + 12 < e ∧ type be mem q = dnsARecord then some q else none

/-- The start of the handler: the addresses that are read, and where the answers begin if the
question is one for an A record. -/
def start (be : Bool) (mem : ℕ → Byte) (len : ℕ) : List ℕ × Option ℕ :=
  if half mem 4 ≠ 1 then ([4, 5], none)
  else if half mem 6 = 0 then ([4, 5, 6, 7], none)
  else
    let p := skipHost mem len 12
    ([4, 5, 6, 7] ++ List.range' 12 (min len (p + 1) - 12) ++ [p + 1, p + 2],
      if len < p + 5 ∨ swapped be mem (p + 1) ≠ dnsARecord then none else some (p + 5))

/-- `DnsHandler` on a packet of `len` bytes: the address that is printed and kept in the
environment, if there is one.  There is no result if a loop makes `fuel` steps. -/
def dnsHandler (be : Bool) (dnsOurPort dest : ℕ) (mem : ℕ → Byte) (len fuel : ℕ) :
    Option (Option (List Byte)) :=
  if dest ≠ dnsOurPort then some none
  else
    (Walk.run (debugNext len) fuel 0).bind fun _ =>
      match (start be mem len).2 with
      | none => some none
      | some p =>
        (Walk.run (next be mem len) fuel p).map fun p =>
          (found be mem len p).bind fun q =>
            if q + 12 < len ∧ q + 12 + dlen be mem q ≤ len then some (Memory.read mem (q + 12) 4)
            else none

/-- The addresses that are read while the loop is at an answer, and after it. -/
def answerReads (be : Bool) (mem : ℕ → Byte) (e p : ℕ) : List ℕ :=
  let q := answer mem e p
  if p + 12 < e then
    p :: (if mem p ≠ 0xc0 then List.range' p (skipName mem e p + 1 - p) else [])
      ++ [q + 2, q + 3]
      ++ (if type be mem q = dnsCnameRecord then [q + 10, q + 11]
        else if type be mem q = dnsARecord then [q + 10, q + 11, q + 12, q + 13, q + 14, q + 15]
        else [])
  else []

/-! ### What a packet may do -/

/-- The addresses that the handler reads. -/
inductive Reads (be : Bool) (mem : ℕ → Byte) (len : ℕ) : ℕ → Prop where
  | start {a : ℕ} (h : a ∈ (start be mem len).1) : Reads be mem len a
  | answer {p₀ p a : ℕ} (h₀ : p₀ ∈ (Dns.start be mem len).2) (h : Reaches (next be mem len) p₀ p)
    (ha : a ∈ answerReads be mem len p) : Reads be mem len a

/-- The labels of a name. -/
def IsLabels (labels : List (List Byte)) : Prop :=
  ∀ label ∈ labels, label ≠ [] ∧ label.length ≤ 63 ∧ 0 ∉ label

/-- Labels in a packet. -/
def labelBytes (labels : List (List Byte)) : List Byte :=
  labels.flatMap fun label => UInt8.ofNat label.length :: label

/-- A name that ends with the root. -/
def IsHostName (name : List Byte) : Prop := ∃ labels, IsLabels labels ∧ name = labelBytes labels ++ [0]

/-- A name that may end with a pointer to another name. -/
def IsName (name : List Byte) : Prop :=
  IsHostName name
  ∨ ∃ labels, ∃ hi lo : Byte, IsLabels labels ∧ 0xc0 ≤ hi.toNat ∧ name = labelBytes labels ++ [hi, lo]

/-- A half word as `swapped` takes it. -/
def swapBytes (be : Bool) (n : ℕ) : List Byte := if be then (halfBytes n).reverse else halfBytes n

/-- A record. -/
structure Record where
  name : List Byte
  type : ℕ
  cls : ℕ
  ttl : List Byte
  data : List Byte
  type_lt : type < 2 ^ 16
  length_ttl : ttl.length = 4
  length_lt : data.length < 2 ^ 16

/-- A record in a packet, if the numbers that the handler puts together are taken as it does. -/
def Record.bytes (be : Bool) (r : Record) : List Byte :=
  r.name ++ swapBytes be r.type ++ halfBytes r.cls ++ r.ttl ++ swapBytes be r.data.length ++ r.data

/-- Several records. -/
def encode (be : Bool) (rs : List Record) : List Byte := rs.flatMap (Record.bytes be)

/-- The bytes of a transaction id of 1, in the order of the machine. -/
def tid (be : Bool) : List Byte := swapBytes (!be) 1

/-- A reply to the question: CNAME records and an A record with an address. -/
structure Reply (be : Bool) where
  header : List Byte
  host : List Byte
  cnames : List Record
  a : Record
  rest : List Byte
  length_header : header.length = 12
  tid : header.take 2 = tid be
  nqueries : bytesHalf (header.drop 4) = 1
  nanswers : cnames.length < bytesHalf (header.drop 6)
  host_name : IsHostName host
  cname : ∀ r ∈ cnames, IsName r.name ∧ r.type = dnsCnameRecord
  a_name : IsName a.name
  a_type : a.type = dnsARecord
  a_class : a.cls = 1
  length_data : a.data.length = 4

/-- The bytes of a reply; the class of the question is 1. -/
def Reply.bytes {be : Bool} (r : Reply be) : List Byte :=
  r.header ++ r.host ++ halfBytes dnsARecord ++ halfBytes 1 ++ encode false r.cnames
    ++ r.a.bytes false ++ r.rest

/-- The handler returns, it reads the packet only, it takes an address only from a reply, and it
takes the address of a reply. -/
structure Safe (be : Bool) (dnsOurPort dest : ℕ) (mem : ℕ → Byte) (len : ℕ) : Prop where
  returns : ∃ fuel, (dnsHandler be dnsOurPort dest mem len fuel).isSome
  reads : dest = dnsOurPort → Walk.Ends (debugNext len) 0 → ∀ a, Reads be mem len a → a < len
  resolves : ∀ fuel ip, dnsHandler be dnsOurPort dest mem len fuel = some (some ip) →
    ∃ r : Reply be, Memory.read mem 0 len = r.bytes ∧ r.a.data = ip
  skips : dest = dnsOurPort → ∀ r : Reply be, Memory.read mem 0 len = r.bytes →
    ∃ fuel, dnsHandler be dnsOurPort dest mem len fuel = some (some r.a.data)

/-! ### Which packets are handled well -/

/-- A name that is skipped: two bytes if the first one is `0xc0`, else all up to the first 0. -/
def Skipped (name : List Byte) : Prop :=
  (∃ lo, name = [0xc0, lo]) ∨ ∃ bytes, name = bytes ++ [0] ∧ 0 ∉ bytes ∧ name.head? ≠ some 0xc0

/-- A name that is cut, because there is no 0 as long as there are enough bytes after it. -/
def Cut (name : List Byte) : Prop :=
  ∃ bytes b, name = bytes ++ [b] ∧ 0 ∉ bytes ∧ name.head? ≠ some 0xc0

/-- The packet, but for its header, in the way the handler takes it: the name in the question and
its class, CNAME records, and an answer with its type. -/
structure Answers (be : Bool) (bytes : List Byte) where
  host : List Byte
  cls : List Byte
  cnames : List Record
  name : List Byte
  tail : List Byte
  bytes_eq : bytes = host ++ 0 :: (swapBytes be dnsARecord ++ (cls ++ (encode be cnames
    ++ (name ++ (swapBytes be dnsARecord ++ tail)))))
  host_ne : 0 ∉ host
  length_cls : cls.length = 2
  cname : ∀ r ∈ cnames, Skipped r.name ∧ r.type = dnsCnameRecord
  skipped : Skipped name ∧ 9 ≤ tail.length ∨ Cut name ∧ tail.length = 9
  enough : 12 < name.length + 2 + tail.length

/-- The header says that there is a question and that there are answers. -/
def Answered (mem : ℕ → Byte) : Prop := half mem 4 = 1 ∧ half mem 6 ≠ 0

/-- The packet has what the start of the handler reads. -/
structure Begins (mem : ℕ → Byte) (len : ℕ) : Prop where
  nqueries : 6 ≤ len
  nanswers : half mem 4 = 1 → 8 ≤ len
  host : Answered mem → ∃ z, 12 ≤ z ∧ z + 2 < len ∧ mem z = 0

/-- The packets that are handled well. -/
structure Handled (be : Bool) (mem : ℕ → Byte) (len : ℕ) : Prop where
  len_le : len ≤ 65532
  begins : Begins mem len
  answers : Answered mem → ∀ as : Answers be (Memory.read mem 12 (len - 12)),
    12 ≤ as.tail.length
    ∧ (8 + swapHalf be (as.tail.drop 6) ≤ as.tail.length →
      ∃ r : Reply be, Memory.read mem 0 len = r.bytes ∧ r.a.data = (as.tail.drop 8).take 4)
  replies : ∀ r : Reply be, Memory.read mem 0 len = r.bytes →
    be = false ∧ (∀ cname ∈ r.cnames, Skipped cname.name) ∧ Skipped r.a.name

/-! ### Numbers -/

theorem length_swapBytes (be : Bool) (n : ℕ) :
  (swapBytes be n).length = 2
  := by
  cases be
  · rfl
  · rfl

theorem swapHalf_swapBytes {be : Bool} {n : ℕ} (h : n < 2 ^ 16) (rest : List Byte) :
  swapHalf be (swapBytes be n ++ rest) = n
  := by
  cases be
  · exact bytesHalf_halfBytes h rest
  · rw [swapHalf, swapBytes, if_pos rfl, if_pos rfl, List.take_left' (by rfl), List.reverse_reverse]
    have := bytesHalf_halfBytes h []
    rwa [List.append_nil] at this

theorem swapBytes_swapHalf {be : Bool} {bytes : List Byte} (h : 2 ≤ bytes.length) :
  swapBytes be (swapHalf be bytes) = bytes.take 2
  := by
  cases be
  · exact halfBytes_bytesHalf h
  · have hlen : (bytes.take 2).reverse.length = 2 := by
      rw [List.length_reverse, List.length_take, min_eq_left h]
    rw [swapHalf, swapBytes, if_pos rfl, if_pos rfl, halfBytes_bytesHalf (by rw [hlen]),
      List.take_of_length_le hlen.le, List.reverse_reverse]

theorem swapHalf_lt (be : Bool) (bytes : List Byte) :
  swapHalf be bytes < 2 ^ 16
  := bytesHalf_lt _

theorem swapHalf_take {be : Bool} {n : ℕ} (h : 2 ≤ n) (bytes : List Byte) :
  swapHalf be (bytes.take n) = swapHalf be bytes
  := by
  cases be
  · exact bytesHalf_take h bytes
  · rw [swapHalf, swapHalf, if_pos rfl, if_pos rfl, List.take_take, min_eq_left h]

theorem half_eq {mem : ℕ → Byte} {p : ℕ} {bytes : List Byte} (h : Memory.Holds mem p bytes)
    (hlen : 2 ≤ bytes.length) :
  half mem p = bytesHalf bytes
  := bytesHalf_read h hlen

theorem swapped_eq (be : Bool) {mem : ℕ → Byte} {p : ℕ} {bytes : List Byte}
    (h : Memory.Holds mem p bytes) (hlen : 2 ≤ bytes.length) :
  swapped be mem p = swapHalf be bytes
  := by
  rw [swapped, h.read_take hlen, swapHalf_take le_rfl]

/-! ### The loops that skip a name -/

/-- The condition holds up to the end, and no longer. -/
theorem skip_spec (cond : ℕ → Prop) [DecidablePred cond] {fuel p : ℕ} (hfuel : ¬ cond (p + fuel)) :
  p ≤ skip cond fuel p ∧ (∀ i, p ≤ i → i < skip cond fuel p → cond i) ∧ ¬ cond (skip cond fuel p)
  := by
  induction fuel generalizing p with
  | zero => exact ⟨le_rfl, fun i h h' => absurd h' (not_lt.mpr h), hfuel⟩
  | succ fuel ih =>
    rw [skip]
    split
    case isTrue h =>
      obtain ⟨hle, hbefore, hend⟩ := ih (p := p + 1) (by rwa [Nat.add_right_comm])
      refine ⟨by omega, ?_, hend⟩
      intro i hi hi'
      rcases Nat.eq_or_lt_of_le hi with rfl | hi
      · exact h
      · apply hbefore i hi hi'
    case isFalse h => exact ⟨le_rfl, fun i h h' => absurd h' (not_lt.mpr h), h⟩

theorem skipHost_spec (mem : ℕ → Byte) (e p : ℕ) :
  p ≤ skipHost mem e p ∧ (∀ i, p ≤ i → i < skipHost mem e p → i < e ∧ mem i ≠ 0)
  ∧ (e ≤ skipHost mem e p ∨ mem (skipHost mem e p) = 0)
  := by
  obtain ⟨hle, hbefore, hend⟩ := skip_spec (fun p => p < e ∧ mem p ≠ 0)
    (show ¬ (p + (e - p) < e ∧ mem (p + (e - p)) ≠ 0) by omega)
  rw [not_and_or, not_lt, not_not] at hend
  exact ⟨hle, hbefore, hend⟩

theorem skipName_spec (mem : ℕ → Byte) (e p : ℕ) :
  p ≤ skipName mem e p ∧ (∀ i, p ≤ i → i < skipName mem e p → mem i ≠ 0 ∧ i + 12 < e)
  ∧ (mem (skipName mem e p) = 0 ∨ e ≤ skipName mem e p + 12)
  := by
  obtain ⟨hle, hbefore, hend⟩ := skip_spec (fun p => mem p ≠ 0 ∧ p + 12 < e)
    (show ¬ (mem (p + (e - p)) ≠ 0 ∧ p + (e - p) + 12 < e) by omega)
  rw [not_and_or, not_lt, not_not] at hend
  exact ⟨hle, hbefore, hend⟩

/-- What is left of the packet. -/
structure Left (mem : ℕ → Byte) (e p : ℕ) (rest : List Byte) : Prop where
  holds : Memory.Holds mem p rest
  add : p + rest.length = e

theorem Left.append {mem : ℕ → Byte} {e p : ℕ} {bytes rest : List Byte}
    (h : Left mem e p (bytes ++ rest)) :
  Left mem e (p + bytes.length) rest
  := by
  have hadd := h.add
  rw [List.length_append] at hadd
  exact ⟨(Memory.holds_append.mp h.holds).2, by omega⟩

theorem Left.cons {mem : ℕ → Byte} {e p : ℕ} {b : Byte} {rest : List Byte}
    (h : Left mem e p (b :: rest)) :
  Left mem e (p + 1) rest
  := by
  have hadd := h.add
  rw [List.length_cons] at hadd
  exact ⟨h.holds.2, by omega⟩

/-- The name in the question. -/
theorem skipHost_eq {mem : ℕ → Byte} {e p : ℕ} {host rest : List Byte}
    (h : Left mem e p (host ++ 0 :: rest)) (hhost : 0 ∉ host) :
  skipHost mem e p = p + host.length
  := by
  obtain ⟨hle, hbefore, hend⟩ := skipHost_spec mem e p
  obtain ⟨hholds, hzero⟩ := Memory.holds_append.mp h.holds
  have hadd := h.add
  rw [List.length_append, List.length_cons] at hadd
  apply le_antisymm
  · by_contra hlt
    apply (hbefore (p + host.length) (by omega) (by omega)).2 hzero.1
  · by_contra hlt
    obtain ⟨i, hi⟩ := Nat.exists_eq_add_of_le hle
    have hi' : i < host.length := by omega
    rcases hend with hend | hend
    · omega
    · rw [hi, Memory.holds_iff_getElem.mp hholds i hi'] at hend
      apply hhost
      rw [← hend]
      apply List.getElem_mem

/-- The name of an answer that does not begin with `0xc0`. -/
theorem skipName_eq {mem : ℕ → Byte} {e p : ℕ} {bytes rest : List Byte} {b : Byte}
    (h : Left mem e p (bytes ++ b :: rest)) (hbytes : 0 ∉ bytes)
    (hrest : b = 0 ∧ 11 ≤ rest.length ∨ rest.length = 11) :
  skipName mem e p = p + bytes.length
  := by
  obtain ⟨hle, hbefore, hend⟩ := skipName_spec mem e p
  obtain ⟨hholds, hb⟩ := Memory.holds_append.mp h.holds
  have hadd := h.add
  rw [List.length_append, List.length_cons] at hadd
  apply le_antisymm
  · by_contra hlt
    obtain ⟨hne, hlt'⟩ := hbefore (p + bytes.length) (by omega) (by omega)
    rcases hrest with ⟨rfl, -⟩ | hrest
    · exact hne hb.1
    · omega
  · by_contra hlt
    obtain ⟨i, hi⟩ := Nat.exists_eq_add_of_le hle
    have hi' : i < bytes.length := by omega
    rcases hend with hend | hend
    · rw [hi, Memory.holds_iff_getElem.mp hholds i hi'] at hend
      apply hbytes
      rw [← hend]
      apply List.getElem_mem
    · omega

/-- The handler takes `name` for the name of an answer with `left` bytes after it. -/
def Taken (name : List Byte) (left : ℕ) : Prop := Skipped name ∧ 11 ≤ left ∨ Cut name ∧ left = 11

theorem Taken.cases {name : List Byte} {left : ℕ} (h : Taken name left) :
  (∃ lo, name = [0xc0, lo])
  ∨ ∃ bytes b, name = bytes ++ [b] ∧ 0 ∉ bytes ∧ name.head? ≠ some 0xc0
    ∧ (b = 0 ∧ 11 ≤ left ∨ left = 11)
  := by
  rcases h with ⟨hlo | ⟨bytes, hname, hbytes, hhead⟩, hleft⟩ | ⟨⟨bytes, b, hname, hbytes, hhead⟩, hleft⟩
  · exact Or.inl hlo
  · exact Or.inr ⟨bytes, 0, hname, hbytes, hhead, Or.inl ⟨rfl, hleft⟩⟩
  · exact Or.inr ⟨bytes, b, hname, hbytes, hhead, Or.inr hleft⟩

theorem answer_eq {mem : ℕ → Byte} {e p : ℕ} {name rest : List Byte}
    (h : Left mem e p (name ++ rest)) (hp : 0 < p) (hname : Taken name rest.length) :
  answer mem e p + 2 = p + name.length
  := by
  rcases hname.cases with ⟨lo, rfl⟩ | ⟨bytes, b, rfl, hbytes, hhead, hrest⟩
  · rw [answer, if_neg (not_not.mpr h.holds.1)]
    rfl
  · have hne : mem p ≠ 0xc0 := by
      intro heq
      apply hhead
      rw [← heq]
      cases bytes with
      | nil => exact congrArg some h.holds.1.symm
      | cons x bytes => exact congrArg some h.holds.1.symm
    rw [List.append_assoc] at h
    rw [answer, if_pos hne, skipName_eq h hbytes hrest, List.length_append, List.length_singleton]
    omega

/-- The bytes up to the first 0, or as many as there are with 11 bytes after them. -/
theorem exists_cut {bytes : List Byte} (h : 12 ≤ bytes.length) :
  ∃ before b rest, bytes = before ++ b :: rest ∧ 0 ∉ before
    ∧ (b = 0 ∧ 11 ≤ rest.length ∨ rest.length = 11)
  := by
  induction bytes with
  | nil => cases h
  | cons x bytes ih =>
    rw [List.length_cons] at h
    by_cases hx : x = 0
    · exact ⟨[], x, bytes, rfl, List.not_mem_nil, Or.inl ⟨hx, by omega⟩⟩
    · by_cases hlen : bytes.length = 11
      · exact ⟨[], x, bytes, rfl, List.not_mem_nil, Or.inr hlen⟩
      · obtain ⟨before, b, rest, rfl, hbefore, hrest⟩ := ih (by omega)
        refine ⟨x :: before, b, rest, rfl, ?_, hrest⟩
        rw [List.mem_cons, not_or]
        exact ⟨fun h0 => hx h0.symm, hbefore⟩

/-- There is something that the handler takes for the name of an answer. -/
theorem exists_taken {bytes : List Byte} (h : 12 < bytes.length) :
  ∃ name rest, bytes = name ++ rest ∧ Taken name rest.length
  := by
  by_cases hhead : bytes.head? = some 0xc0
  · match bytes, h with
    | x :: y :: bytes, h =>
      obtain rfl : x = 0xc0 := Option.some.inj hhead
      refine ⟨[0xc0, y], bytes, rfl, Or.inl ⟨Or.inl ⟨y, rfl⟩, ?_⟩⟩
      rw [List.length_cons, List.length_cons] at h
      omega
  · obtain ⟨before, b, rest, rfl, hbefore, hrest⟩ := exists_cut h.le
    have hhead' : (before ++ [b]).head? ≠ some 0xc0 := by
      cases before with
      | nil => exact hhead
      | cons x before => exact hhead
    refine ⟨before ++ [b], rest, by simp, ?_⟩
    rcases hrest with ⟨rfl, hrest⟩ | hrest
    · exact Or.inl ⟨Or.inr ⟨before, rfl, hbefore, hhead'⟩, hrest⟩
    · exact Or.inr ⟨⟨before, b, rfl, hbefore, hhead'⟩, hrest⟩

/-! ### One answer -/

/-- An answer that is there, with its type and the length of its data. -/
structure At (be : Bool) (mem : ℕ → Byte) (e p : ℕ) (name : List Byte) (type : ℕ)
    (tail : List Byte) : Prop where
  left : Left mem e p (name ++ (swapBytes be type ++ tail))
  type_lt : type < 2 ^ 16
  taken : Taken name (tail.length + 2)
  pos : 0 < p
  enough : p + 12 < e

namespace At

variable {be : Bool} {mem : ℕ → Byte} {e p ty : ℕ} {name tail : List Byte}

theorem answer_eq (h : At be mem e p name ty tail) :
  answer mem e p + 2 = p + name.length
  := by
  apply Dns.answer_eq h.left h.pos
  rw [List.length_append, length_swapBytes, Nat.add_comm]
  exact h.taken

theorem nine_le (h : At be mem e p name ty tail) :
  9 ≤ tail.length
  := by
  rcases h.taken with ⟨-, hle⟩ | ⟨-, heq⟩
  · omega
  · omega

theorem type_eq (h : At be mem e p name ty tail) :
  type be mem (answer mem e p) = ty
  := by
  rw [type, h.answer_eq, swapped_eq _ h.left.append.holds, swapHalf_swapBytes h.type_lt]
  rw [List.length_append, length_swapBytes]
  omega

/-- What follows the type. -/
theorem left_tail (h : At be mem e p name ty tail) :
  Left mem e (answer mem e p + 4) tail
  := by
  have hleft := h.left.append.append
  rwa [length_swapBytes, ← h.answer_eq] at hleft

theorem dlen_eq (h : At be mem e p name ty tail) :
  dlen be mem (answer mem e p) = swapHalf be (tail.drop 6)
  := by
  have := h.nine_le
  apply swapped_eq _ (h.left_tail.holds.drop 6)
  rw [List.length_drop]
  omega

theorem length_tail (h : At be mem e p name ty tail) :
  answer mem e p + 4 + tail.length = e
  := h.left_tail.add

end At

/-- Wherever there are enough bytes the handler sees an answer. -/
theorem exists_at (be : Bool) {mem : ℕ → Byte} {e p : ℕ} {bytes : List Byte}
    (h : Left mem e p bytes) (hp : 0 < p) (hlt : p + 12 < e) :
  ∃ name ty tail, bytes = name ++ (swapBytes be ty ++ tail) ∧ At be mem e p name ty tail
  := by
  have hadd := h.add
  obtain ⟨name, rest, rfl, htaken⟩ := exists_taken (show 12 < bytes.length by omega)
  have hrest : 2 ≤ rest.length := by
    rcases htaken with ⟨-, hle⟩ | ⟨-, heq⟩
    · omega
    · omega
  have hsplit : rest = swapBytes be (swapHalf be rest) ++ rest.drop 2 := by
    rw [swapBytes_swapHalf hrest, List.take_append_drop]
  refine ⟨name, swapHalf be rest, rest.drop 2, by rw [← hsplit], ?_⟩
  refine ⟨by rwa [← hsplit], swapHalf_lt be rest, ?_, hp, hlt⟩
  rwa [List.length_drop, Nat.sub_add_cancel hrest]

/-! ### CNAME records -/

theorem Record.length_bytes (be : Bool) (r : Record) :
  (r.bytes be).length = r.name.length + 10 + r.data.length
  := by
  simp only [Record.bytes, List.length_append, length_swapBytes, length_halfBytes, r.length_ttl]

/-- What follows the type of a record. -/
def Record.tail (be : Bool) (r : Record) : List Byte :=
  halfBytes r.cls ++ (r.ttl ++ (swapBytes be r.data.length ++ r.data))

theorem Record.bytes_eq (be : Bool) (r : Record) :
  r.bytes be = r.name ++ (swapBytes be r.type ++ r.tail be)
  := by
  simp only [Record.bytes, Record.tail, List.append_assoc]

theorem Record.length_tail (be : Bool) (r : Record) :
  (r.tail be).length = 8 + r.data.length
  := by
  simp only [Record.tail, List.length_append, length_swapBytes, length_halfBytes, r.length_ttl]
  omega

/-- The length of the data of a record. -/
theorem Record.swapHalf_tail (be : Bool) (r : Record) (rest : List Byte) :
  swapHalf be ((r.tail be ++ rest).drop 6) = r.data.length
  := by
  have h6 : (halfBytes r.cls ++ r.ttl).length = 6 := by
    rw [List.length_append, length_halfBytes, r.length_ttl]
  rw [Record.tail, ← List.append_assoc (halfBytes r.cls), List.append_assoc,
    List.drop_left' h6, List.append_assoc, swapHalf_swapBytes r.length_lt]

/-- The data of a record. -/
theorem Record.drop_tail (be : Bool) (r : Record) (rest : List Byte) :
  (r.tail be ++ rest).drop 8 = r.data ++ rest
  := by
  have h8 : (halfBytes r.cls ++ (r.ttl ++ swapBytes be r.data.length)).length = 8 := by
    rw [List.length_append, List.length_append, length_halfBytes, r.length_ttl, length_swapBytes]
  have hsplit : r.tail be ++ rest
      = (halfBytes r.cls ++ (r.ttl ++ swapBytes be r.data.length)) ++ (r.data ++ rest) := by
    simp only [Record.tail, List.append_assoc]
  rw [hsplit, List.drop_left' h8]

theorem Skipped.length_pos {name : List Byte} (h : Skipped name) :
  0 < name.length
  := by
  rcases h with ⟨lo, rfl⟩ | ⟨bytes, rfl, -, -⟩
  · exact Nat.succ_pos _
  · rw [List.length_append, List.length_singleton]
    exact Nat.succ_pos _

/-- The handler sees a record whose name is skipped. -/
theorem Record.at {be : Bool} {mem : ℕ → Byte} {e p : ℕ} {r : Record} {rest : List Byte}
    (h : Left mem e p (r.bytes be ++ rest)) (hp : 0 < p) (hname : Skipped r.name)
    (hrest : 1 < r.data.length + rest.length) :
  At be mem e p r.name r.type (r.tail be ++ rest)
  := by
  have hpos := hname.length_pos
  have hadd := h.add
  rw [List.length_append, r.length_bytes] at hadd
  refine ⟨?_, r.type_lt, Or.inl ⟨hname, ?_⟩, hp, by omega⟩
  · rwa [r.bytes_eq, List.append_assoc, List.append_assoc] at h
  · rw [List.length_append, r.length_tail]
    omega

/-- A CNAME record is passed. -/
theorem next_record {be : Bool} {mem : ℕ → Byte} {e p : ℕ} {r : Record} {rest : List Byte}
    (h : Left mem e p (r.bytes be ++ rest)) (hp : 0 < p)
    (hr : Skipped r.name ∧ r.type = dnsCnameRecord) (hrest : 12 < rest.length) :
  next be mem e p = some (p + (r.bytes be).length)
  := by
  have hat := Record.at h hp hr.1 (by omega)
  have hlen := hat.answer_eq
  rw [next, if_pos ⟨hat.enough, hat.type_eq.trans hr.2⟩, hat.dlen_eq, r.swapHalf_tail,
    r.length_bytes]
  congr 1
  omega

/-- The loop comes to what is after some CNAME records. -/
theorem reaches_of_encode {be : Bool} {mem : ℕ → Byte} {e p : ℕ} {rs : List Record}
    {rest : List Byte} (h : Left mem e p (encode be rs ++ rest)) (hp : 0 < p)
    (hrs : ∀ r ∈ rs, Skipped r.name ∧ r.type = dnsCnameRecord) (hrest : 12 < rest.length) :
  Reaches (next be mem e) p (p + (encode be rs).length)
  := by
  induction rs generalizing p with
  | nil => exact Relation.ReflTransGen.refl
  | cons r rs ih =>
    rw [encode, List.flatMap_cons, ← encode, List.append_assoc] at h
    rw [encode, List.flatMap_cons, ← encode, List.length_append, ← Nat.add_assoc]
    apply Relation.ReflTransGen.head
    · apply next_record h hp (hrs r List.mem_cons_self)
      rw [List.length_append]
      omega
    · apply ih h.append (by omega)
      intro r' hr'
      apply hrs r' (List.mem_cons_of_mem r hr')

theorem split_tail (tail : List Byte) (n : ℕ) :
  tail = tail.take 2 ++ ((tail.drop 2).take 4 ++ ((tail.drop 6).take 2
    ++ ((tail.drop 8).take n ++ tail.drop (8 + n))))
  := by
  rw [← List.drop_drop (i := n) (j := 8), List.take_append_drop,
    show tail.drop 8 = (tail.drop 6).drop 2 by rw [List.drop_drop], List.take_append_drop,
    show tail.drop 6 = (tail.drop 2).drop 4 by rw [List.drop_drop], List.take_append_drop,
    List.take_append_drop]

/-- The handler only passes CNAME records, unless it leaves the packet. -/
theorem At.exists_record {be : Bool} {mem : ℕ → Byte} {e p : ℕ} {name tail : List Byte}
    (h : At be mem e p name dnsCnameRecord tail)
    (hlt : answer mem e p + 12 + dlen be mem (answer mem e p) + 12 < e) :
  ∃ r : Record, ∃ rest, name ++ (swapBytes be dnsCnameRecord ++ tail) = r.bytes be ++ rest
    ∧ Skipped r.name ∧ r.type = dnsCnameRecord
    ∧ answer mem e p + 12 + dlen be mem (answer mem e p) = p + (r.bytes be).length
  := by
  have htail := h.length_tail
  have hanswer := h.answer_eq
  rw [h.dlen_eq] at hlt ⊢
  have hname : Skipped name := by
    rcases h.taken with ⟨hname, -⟩ | ⟨-, hcut⟩
    · exact hname
    · omega
  have httl : ((tail.drop 2).take 4).length = 4 := by
    rw [List.length_take, List.length_drop]
    omega
  have hdata : ((tail.drop 8).take (swapHalf be (tail.drop 6))).length
      = swapHalf be (tail.drop 6) := by
    rw [List.length_take, List.length_drop]
    omega
  refine ⟨⟨name, dnsCnameRecord, bytesHalf tail, (tail.drop 2).take 4,
    (tail.drop 8).take (swapHalf be (tail.drop 6)), by decide, httl, ?_⟩,
    tail.drop (8 + swapHalf be (tail.drop 6)), ?_, hname, rfl, ?_⟩
  · rw [hdata]
    apply swapHalf_lt
  · rw [Record.bytes_eq, Record.tail]
    dsimp only
    rw [hdata, halfBytes_bytesHalf (by omega),
      swapBytes_swapHalf (by rw [List.length_drop]; omega)]
    conv_lhs => rw [split_tail tail (swapHalf be (tail.drop 6))]
    simp only [List.append_assoc]
  · rw [Record.length_bytes]
    dsimp only
    omega

/-! ### The question -/

/-- The loop that prints the packet ends if the length fits `i`. -/
theorem debug_ends_iff (len : ℕ) :
  Walk.Ends (debugNext len) 0 ↔ len ≤ 65532
  := by
  constructor
  · contrapose!
    intro hlen
    apply Walk.not_ends_of_forall (I := fun i => i % 4 = 0 ∧ i < 2 ^ 16) _ ⟨rfl, by decide⟩
    rintro i ⟨hmod, hi⟩
    refine ⟨(i + 4) % 2 ^ 16, ?_, by omega, by omega⟩
    rw [debugNext, if_pos (by omega)]
  · intro hlen
    apply Walk.ends_of_measure (fun i => len - i) (I := fun i => i % 4 = 0) _ rfl
    intro i u hmod hu
    rw [debugNext] at hu
    split at hu
    case isTrue hi =>
      obtain rfl := Option.some.inj hu
      omega
    case isFalse => cases hu

theorem start_of_question {be : Bool} {mem : ℕ → Byte} {len : ℕ} {host cls rest : List Byte}
    (h : Left mem len 12 (host ++ 0 :: (swapBytes be dnsARecord ++ (cls ++ rest))))
    (hanswered : Answered mem) (hhost : 0 ∉ host) (hcls : cls.length = 2) :
  (start be mem len).2 = some (12 + host.length + 5) ∧ Left mem len (12 + host.length + 5) rest
  := by
  have hskip := skipHost_eq h hhost
  have hleft : Left mem len (12 + host.length + 1) (swapBytes be dnsARecord ++ (cls ++ rest)) :=
    h.append.cons
  have htype : swapped be mem (12 + host.length + 1) = dnsARecord := by
    rw [swapped_eq _ hleft.holds, swapHalf_swapBytes (by decide)]
    rw [List.length_append, length_swapBytes]
    omega
  have hrest := hleft.append.append
  rw [length_swapBytes, hcls] at hrest
  have hadd := hrest.add
  refine ⟨?_, hrest⟩
  rw [start, if_neg (not_not.mpr hanswered.1), if_neg hanswered.2]
  dsimp only
  rw [hskip, if_neg]
  rw [not_or, not_not, not_lt]
  exact ⟨by omega, htype⟩

theorem left_read (mem : ℕ → Byte) {p len : ℕ} (h : p ≤ len) :
  Left mem len p (Memory.read mem p (len - p))
  := by
  constructor
  · apply Memory.holds_read
  · rw [Memory.length_read, Nat.add_sub_cancel' h]

theorem question_of_start {be : Bool} {mem : ℕ → Byte} {len p : ℕ}
    (h : (start be mem len).2 = some p) :
  Answered mem ∧ ∃ host cls rest,
    Memory.read mem 12 (len - 12) = host ++ 0 :: (swapBytes be dnsARecord ++ (cls ++ rest))
    ∧ 0 ∉ host ∧ cls.length = 2 ∧ p = 12 + host.length + 5
  := by
  rw [start] at h
  split at h
  case isTrue => cases h
  case isFalse hq =>
    split at h
    case isTrue => cases h
    case isFalse ha =>
      refine ⟨⟨not_not.mp hq, ha⟩, ?_⟩
      dsimp only at h
      split at h
      case isTrue => cases h
      case isFalse htype =>
        rw [not_or, not_lt, not_not] at htype
        obtain ⟨hle, htype⟩ := htype
        obtain ⟨h12, hbefore, hend⟩ := skipHost_spec mem len 12
        have hzero : mem (skipHost mem len 12) = 0 := by
          rcases hend with hend | hend
          · omega
          · exact hend
        obtain ⟨n, hn⟩ := Nat.exists_eq_add_of_le h12
        rw [hn] at h hle hbefore hzero htype
        have hsplit : len - 12 = n + (1 + (2 + (2 + (len - (12 + n + 5))))) := by omega
        refine ⟨Memory.read mem 12 n, Memory.read mem (12 + n + 1 + 2) 2,
          Memory.read mem (12 + n + 5) (len - (12 + n + 5)), ?_, ?_, Memory.length_read _ _ _, ?_⟩
        · rw [hsplit, Memory.read_add, Memory.read_add, Memory.read_add, Memory.read_add,
            ← htype, swapped, swapBytes_swapHalf (by rw [Memory.length_read])]
          simp [Memory.read, hzero]
        · intro hmem
          obtain ⟨i, hi, hi0⟩ := List.getElem_of_mem hmem
          rw [Memory.getElem_read] at hi0
          rw [Memory.length_read] at hi
          exact (hbefore (12 + i) (by omega) (by omega)).2 hi0
        · rw [Memory.length_read]
          exact (Option.some.inj h).symm

theorem reads_start_iff (be : Bool) (mem : ℕ → Byte) (len : ℕ) :
  (∀ a ∈ (start be mem len).1, a < len) ↔ Begins mem len
  := by
  rw [start]
  by_cases hq : half mem 4 = 1
  · rw [if_neg (not_not.mpr hq)]
    by_cases ha : half mem 6 = 0
    · rw [if_pos ha]
      constructor
      · intro h
        have h7 := h 7 (by simp)
        exact ⟨by omega, fun _ => by omega, fun hanswered => absurd ha hanswered.2⟩
      · intro h a ha
        have h8 := h.nanswers hq
        simp at ha
        omega
    · rw [if_neg ha]
      dsimp only
      obtain ⟨h12, hbefore, hend⟩ := skipHost_spec mem len 12
      constructor
      · intro h
        have h7 := h 7 (by simp)
        have hp := h (skipHost mem len 12 + 2) (by simp)
        refine ⟨by omega, fun _ => by omega, fun _ => ⟨skipHost mem len 12, h12, hp, ?_⟩⟩
        rcases hend with hend | hend
        · omega
        · exact hend
      · intro h a hmem
        obtain ⟨z, hz12, hz, hzero⟩ := h.host ⟨hq, ha⟩
        have h8 := h.nanswers hq
        have hle : skipHost mem len 12 ≤ z := by
          by_contra hlt
          exact (hbefore z hz12 (by omega)).2 hzero
        simp only [List.mem_append, List.mem_cons, List.not_mem_nil, or_false,
          List.mem_range'_1] at hmem
        omega
  · rw [if_pos hq]
    constructor
    · intro h
      have h5 := h 5 (by simp)
      exact ⟨by omega, fun hq' => absurd hq' hq, fun hanswered => absurd hanswered.1 hq⟩
    · intro h a ha
      have h6 := h.nqueries
      simp at ha
      omega

/-! ### The answers -/

/-- Where the loop is while it is in the packet. -/
structure Passing (be : Bool) (mem : ℕ → Byte) (len p : ℕ) : Prop where
  split : ∃ host cls rs rest, Memory.read mem 12 (len - 12)
      = host ++ 0 :: (swapBytes be dnsARecord ++ (cls ++ (encode be rs ++ rest)))
    ∧ 0 ∉ host ∧ cls.length = 2 ∧ (∀ r ∈ rs, Skipped r.name ∧ r.type = dnsCnameRecord)
    ∧ Left mem len p rest
  pos : 0 < p

theorem passing_of_start {be : Bool} {mem : ℕ → Byte} {len p : ℕ} (hlen : 12 ≤ len)
    (h : (start be mem len).2 = some p) :
  Answered mem ∧ Passing be mem len p
  := by
  obtain ⟨hanswered, host, cls, rest, hsplit, hhost, hcls, rfl⟩ := question_of_start h
  have hleft := left_read mem hlen
  rw [hsplit] at hleft
  have hrest := (start_of_question hleft hanswered hhost hcls).2
  exact ⟨hanswered, ⟨host, cls, [], rest, hsplit, hhost, hcls, by simp, hrest⟩, by omega⟩

theorem pos_of_next {be : Bool} {mem : ℕ → Byte} {len p u : ℕ}
    (h : next be mem len p = some u) :
  p + 12 < len ∧ type be mem (answer mem len p) = dnsCnameRecord
    ∧ u = answer mem len p + 12 + dlen be mem (answer mem len p)
  := by
  rw [next] at h
  split at h
  case isTrue hcname => exact ⟨hcname.1, hcname.2, (Option.some.inj h).symm⟩
  case isFalse => cases h

theorem Passing.next {be : Bool} {mem : ℕ → Byte} {len p u : ℕ} (h : Passing be mem len p)
    (hnext : next be mem len p = some u) (hu : u + 12 < len) :
  Passing be mem len u
  := by
  obtain ⟨⟨host, cls, rs, rest, hsplit, hhost, hcls, hrs, hleft⟩, hpos⟩ := h
  obtain ⟨hlt, htype, rfl⟩ := pos_of_next hnext
  obtain ⟨name, ty, tail, rfl, hat⟩ := exists_at be hleft hpos hlt
  obtain rfl : ty = dnsCnameRecord := hat.type_eq.symm.trans htype
  obtain ⟨r, rest, hr, hname, hrtype, hlen⟩ := hat.exists_record hu
  refine ⟨⟨host, cls, rs ++ [r], rest, ?_, hhost, hcls, ?_, ?_⟩, by omega⟩
  · rw [hsplit, hr, encode, encode, List.flatMap_append, List.flatMap_singleton, List.append_assoc]
  · intro r' hr'
    rcases List.mem_append.mp hr' with hr' | hr'
    · exact hrs r' hr'
    · rw [List.mem_singleton.mp hr']
      exact ⟨hname, hrtype⟩
  · rw [hlen]
    rw [hr] at hleft
    apply hleft.append

/-- The loop stays in the packet until it ends. -/
theorem passing_of_reaches {be : Bool} {mem : ℕ → Byte} {len p₀ p : ℕ} (hlen : 12 ≤ len)
    (h₀ : (start be mem len).2 = some p₀) (h : Reaches (next be mem len) p₀ p)
    (hp : p + 12 < len) :
  Passing be mem len p
  := by
  have hor : len ≤ p + 12 ∨ Passing be mem len p := by
    apply Walk.reaches_invariant (I := fun p => len ≤ p + 12 ∨ Passing be mem len p) _
      (Or.inr (passing_of_start hlen h₀).2) h
    intro t u ht hu
    rcases ht with ht | ht
    · have := (pos_of_next hu).1
      omega
    · by_cases hlt : u + 12 < len
      · exact Or.inr (ht.next hu hlt)
      · exact Or.inl (not_lt.mp hlt)
  exact hor.resolve_left (not_le.mpr hp)

/-- An A record that the loop comes to. -/
theorem exists_answers {be : Bool} {mem : ℕ → Byte} {len p : ℕ} (h : Passing be mem len p)
    (hlt : p + 12 < len) (htype : type be mem (answer mem len p) = dnsARecord) :
  ∃ as : Answers be (Memory.read mem 12 (len - 12)), At be mem len p as.name dnsARecord as.tail
  := by
  obtain ⟨⟨host, cls, rs, rest, hsplit, hhost, hcls, hrs, hleft⟩, hpos⟩ := h
  obtain ⟨name, ty, tail, rfl, hat⟩ := exists_at be hleft hpos hlt
  obtain rfl : ty = dnsARecord := hat.type_eq.symm.trans htype
  have hadd := hleft.add
  rw [List.length_append, List.length_append, length_swapBytes] at hadd
  refine ⟨⟨host, cls, rs, name, tail, hsplit, hhost, hcls, hrs, ?_, by omega⟩, hat⟩
  rcases hat.taken with ⟨hname, hle⟩ | ⟨hname, hle⟩
  · exact Or.inl ⟨hname, by omega⟩
  · exact Or.inr ⟨hname, by omega⟩

/-- The loop comes to the A record of the packet. -/
theorem Answers.reaches {be : Bool} {mem : ℕ → Byte} {len : ℕ}
    (as : Answers be (Memory.read mem 12 (len - 12))) (hanswered : Answered mem) :
  ∃ p₀ p, (start be mem len).2 = some p₀ ∧ Reaches (Dns.next be mem len) p₀ p
    ∧ At be mem len p as.name dnsARecord as.tail
  := by
  have hlen : 12 ≤ len := by
    by_contra hlt
    have := congrArg List.length as.bytes_eq
    rw [Memory.length_read, List.length_append, List.length_cons] at this
    omega
  have hleft := left_read mem hlen
  rw [as.bytes_eq] at hleft
  obtain ⟨hstart, hrest⟩ := start_of_question hleft hanswered as.host_ne as.length_cls
  have henough := as.enough
  have htail : 12 < (as.name ++ (swapBytes be dnsARecord ++ as.tail)).length := by
    rw [List.length_append, List.length_append, length_swapBytes]
    omega
  refine ⟨_, _, hstart, reaches_of_encode hrest (by omega) as.cname htail, hrest.append, by decide,
    ?_, by omega, ?_⟩
  · rcases as.skipped with ⟨hname, hle⟩ | ⟨hname, hle⟩
    · exact Or.inl ⟨hname, by omega⟩
    · exact Or.inr ⟨hname, by omega⟩
  · have := hrest.append.add
    omega

/-- What is read for an answer is in the packet, but for an address. -/
theorem At.reads_within {be : Bool} {mem : ℕ → Byte} {e p ty : ℕ} {name tail : List Byte}
    (h : At be mem e p name ty tail) (ha : ty = dnsARecord → 12 ≤ tail.length) :
  ∀ a ∈ answerReads be mem e p, a < e
  := by
  have htail := h.length_tail
  have hnine := h.nine_le
  have henough := h.enough
  have hskip : mem p ≠ 0xc0 → skipName mem e p ≤ answer mem e p + 1 := by
    intro hne
    rw [answer, if_pos hne]
    omega
  intro a hmem
  rw [answerReads] at hmem
  rw [if_pos henough, h.type_eq] at hmem
  rcases List.mem_append.mp hmem with hmem | hmem
  · rcases List.mem_append.mp hmem with hmem | hmem
    · rcases List.mem_cons.mp hmem with rfl | hmem
      · omega
      · split at hmem
        case isTrue hne =>
          have hle := hskip hne
          rw [List.mem_range'_1] at hmem
          omega
        case isFalse => cases hmem
    · simp at hmem
      omega
  · split at hmem
    · simp at hmem
      omega
    · split at hmem
      case isTrue hty =>
        have hlen := ha hty
        simp at hmem
        omega
      case isFalse => cases hmem

/-- The address is read. -/
theorem At.mem_reads {be : Bool} {mem : ℕ → Byte} {e p : ℕ} {name tail : List Byte}
    (h : At be mem e p name dnsARecord tail) :
  answer mem e p + 15 ∈ answerReads be mem e p
  := by
  rw [answerReads]
  rw [if_pos h.enough, h.type_eq, if_neg (show dnsARecord ≠ dnsCnameRecord by decide), if_pos rfl]
  simp

/-! ### The result -/

theorem exists_run_next (be : Bool) (mem : ℕ → Byte) (len p : ℕ) (hp : 0 < p) :
  ∃ fuel t, Walk.run (next be mem len) fuel p = some t
  := by
  have hends : Walk.Ends (next be mem len) p := by
    apply Walk.ends_of_measure (fun p => len - p) (I := fun p => 0 < p) _ hp
    intro t u ht hu
    obtain ⟨hlt, -, rfl⟩ := pos_of_next hu
    obtain ⟨hle, -, -⟩ := skipName_spec mem len t
    have hanswer : t - 1 ≤ answer mem len t := by
      rw [answer]
      split
      · omega
      · omega
    omega
  obtain ⟨fuel, hfuel⟩ := hends
  exact ⟨fuel, Option.isSome_iff_exists.mp hfuel⟩

/-- The loop ends at an A record. -/
theorem At.found {be : Bool} {mem : ℕ → Byte} {len p : ℕ} {name tail : List Byte}
    (h : At be mem len p name dnsARecord tail) :
  next be mem len p = none ∧ found be mem len p = some (answer mem len p)
  := by
  constructor
  · rw [next]
    rw [if_neg]
    rintro ⟨-, htype⟩
    rw [h.type_eq] at htype
    cases htype
  · rw [Dns.found]
    rw [if_pos ⟨h.enough, h.type_eq⟩]

theorem At.address {be : Bool} {mem : ℕ → Byte} {len p ty : ℕ} {name tail : List Byte}
    (h : At be mem len p name ty tail) (hlen : 12 ≤ tail.length) :
  Memory.read mem (answer mem len p + 12) 4 = (tail.drop 8).take 4
  := by
  apply (h.left_tail.holds.drop 8).read_take
  rw [List.length_drop]
  omega

/-- Where the handler ends if it does not take the first exits. -/
theorem dnsHandler_of_run {be : Bool} (port : ℕ) {mem : ℕ → Byte} {len p₀ p fuel : ℕ}
    (hlen : len ≤ 65532) (h₀ : (start be mem len).2 = some p₀)
    (hrun : Walk.run (next be mem len) fuel p₀ = some p) :
  ∃ fuel, dnsHandler be port port mem len fuel
    = some ((found be mem len p).bind fun q =>
        if q + 12 < len ∧ q + 12 + dlen be mem q ≤ len then some (Memory.read mem (q + 12) 4)
        else none)
  := by
  obtain ⟨fuel', hfuel'⟩ := (debug_ends_iff len).mpr hlen
  obtain ⟨t, ht⟩ := Option.isSome_iff_exists.mp hfuel'
  use max fuel fuel'
  rw [dnsHandler, if_neg (not_not.mpr rfl), Walk.run_mono (le_max_right fuel fuel') ht,
    Option.bind_some, h₀]
  dsimp only
  rw [Walk.run_mono (le_max_left fuel fuel') hrun, Option.map_some]

theorem At.handler {be : Bool} (port : ℕ) {mem : ℕ → Byte} {len p₀ p : ℕ} {name tail : List Byte}
    (h : At be mem len p name dnsARecord tail) (hlen : len ≤ 65532)
    (h₀ : (start be mem len).2 = some p₀) (hreaches : Reaches (next be mem len) p₀ p)
    (hdata : 12 ≤ tail.length) (hfits : 8 + swapHalf be (tail.drop 6) ≤ tail.length) :
  ∃ fuel, dnsHandler be port port mem len fuel = some (some ((tail.drop 8).take 4))
  := by
  obtain ⟨hnone, hfound⟩ := h.found
  obtain ⟨fuel, hrun⟩ := Walk.exists_run hreaches hnone
  obtain ⟨fuel, hfuel⟩ := dnsHandler_of_run port hlen h₀ hrun
  have htail := h.length_tail
  use fuel
  rw [hfuel, hfound, Option.bind_some, h.dlen_eq, if_pos ⟨by omega, by omega⟩, h.address hdata]

/-- An address is that of an A record to which the loop comes. -/
theorem exists_at_of_handler {be : Bool} {port : ℕ} {mem : ℕ → Byte} {len fuel : ℕ}
    {ip : List Byte} (h : dnsHandler be port port mem len fuel = some (some ip)) :
  ∃ p₀ p, (start be mem len).2 = some p₀ ∧ Reaches (next be mem len) p₀ p ∧ p + 12 < len
    ∧ type be mem (answer mem len p) = dnsARecord
    ∧ answer mem len p + 12 + dlen be mem (answer mem len p) ≤ len
    ∧ ip = Memory.read mem (answer mem len p + 12) 4
  := by
  rw [dnsHandler, if_neg (not_not.mpr rfl)] at h
  obtain ⟨t, -, h⟩ := Option.bind_eq_some_iff.mp h
  cases hstart : (start be mem len).2 with
  | none =>
    rw [hstart] at h
    cases h
  | some p₀ =>
    rw [hstart] at h
    obtain ⟨p, hp, h⟩ := Option.map_eq_some_iff.mp h
    obtain ⟨q, hq, h⟩ := Option.bind_eq_some_iff.mp h
    rw [found] at hq
    split at hq
    case isTrue hfound =>
      obtain rfl := Option.some.inj hq
      split at h
      case isTrue hfits =>
        exact ⟨p₀, p, rfl, (Walk.reaches_of_run hp).1, hfound.1, hfound.2, hfits.2,
          (Option.some.inj h).symm⟩
      case isFalse => cases h
    case isFalse => cases hq

/-! ### Replies -/

theorem not_mem_labelBytes {labels : List (List Byte)} (h : IsLabels labels) :
  0 ∉ labelBytes labels ∧ (labelBytes labels).head? ≠ some 0xc0
  := by
  constructor
  · intro hmem
    obtain ⟨label, hlabel, hmem⟩ := List.mem_flatMap.mp hmem
    obtain ⟨hne, hle, hzero⟩ := h label hlabel
    rcases List.mem_cons.mp hmem with hlen | hmem
    · have hpos := List.length_pos_iff.mpr hne
      have := congrArg UInt8.toNat hlen
      rw [UInt8.toNat_ofNat', Nat.mod_eq_of_lt (by omega)] at this
      exact absurd this (by rw [UInt8.toNat_zero]; omega)
    · exact hzero hmem
  · cases labels with
    | nil => exact nofun
    | cons label labels =>
      obtain ⟨-, hle, -⟩ := h label List.mem_cons_self
      intro hhead
      have := congrArg UInt8.toNat (Option.some.inj hhead)
      rw [UInt8.toNat_ofNat', Nat.mod_eq_of_lt (by omega)] at this
      exact absurd this (by rw [show (0xc0 : Byte).toNat = 192 from rfl]; omega)

theorem IsHostName.skipped {name : List Byte} (h : IsHostName name) :
  Skipped name
  := by
  obtain ⟨labels, hlabels, rfl⟩ := h
  obtain ⟨hzero, hhead⟩ := not_mem_labelBytes hlabels
  refine Or.inr ⟨labelBytes labels, rfl, hzero, ?_⟩
  cases hl : labelBytes labels with
  | nil => decide
  | cons x bytes =>
    rw [hl] at hhead
    exact hhead

/-- A name that is not skipped has no 0. -/
theorem IsName.of_not_skipped {name : List Byte} (h : IsName name) (hs : ¬ Skipped name) :
  0 ∉ name ∧ name.head? ≠ some 0xc0 ∧ name ≠ []
  := by
  rcases h with h | ⟨labels, hi, lo, hlabels, hhi, rfl⟩
  · exact absurd h.skipped hs
  · obtain ⟨hzero, hhead⟩ := not_mem_labelBytes hlabels
    have hhi0 : hi ≠ 0 := by
      rintro rfl
      cases hhi
    have hhead' : (labelBytes labels ++ [hi, lo]).head? ≠ some 0xc0 := by
      cases hl : labelBytes labels with
      | nil =>
        intro hc0
        apply hs
        obtain rfl : hi = 0xc0 := Option.some.inj hc0
        rw [hl]
        exact Or.inl ⟨lo, rfl⟩
      | cons x bytes =>
        rw [hl] at hhead
        exact hhead
    have hlo : lo ≠ 0 := by
      rintro rfl
      apply hs
      refine Or.inr ⟨labelBytes labels ++ [hi], by simp, ?_, hhead'⟩
      simp [hzero, Ne.symm hhi0]
    refine ⟨?_, hhead', by simp⟩
    simp [hzero, Ne.symm hhi0, Ne.symm hlo]

/-- The handler does not see the type of a record whose name is not skipped. -/
theorem type_of_not_skipped {mem : ℕ → Byte} {e p : ℕ} {r : Record} {rest : List Byte}
    (h : Left mem e p (r.bytes false ++ rest)) (hp : 0 < p) (hname : IsName r.name)
    (hs : ¬ Skipped r.name) (htype : 0 < r.type ∧ r.type < 256)
    (hrest : 1 < r.data.length + rest.length) :
  256 ≤ type false mem (answer mem e p)
  := by
  obtain ⟨hzero, hhead, hne⟩ := hname.of_not_skipped hs
  have hhi : UInt8.ofNat (r.type >>> 8) = 0 := by
    rw [Nat.shiftRight_eq_div_pow, Nat.div_eq_of_lt (by omega)]
    rfl
  -- the 0 is the first byte of the type
  have hsplit : r.bytes false ++ rest
      = (r.name ++ [0]) ++ (UInt8.ofNat r.type :: (r.tail false ++ rest)) := by
    rw [r.bytes_eq, swapBytes, if_neg (by decide), halfBytes, hhi]
    simp
  rw [hsplit] at h
  have hskipped : Skipped (r.name ++ [0]) := by
    refine Or.inr ⟨r.name, rfl, hzero, ?_⟩
    rwa [List.head?_append_of_ne_nil _ hne]
  have htaken : Taken (r.name ++ [0]) (UInt8.ofNat r.type :: (r.tail false ++ rest)).length := by
    refine Or.inl ⟨hskipped, ?_⟩
    rw [List.length_cons, List.length_append, r.length_tail]
    omega
  rw [type, answer_eq h hp htaken, swapped_eq _ h.append.holds]
  · have hlo : (UInt8.ofNat r.type).toNat = r.type := by
      rw [UInt8.toNat_ofNat', Nat.mod_eq_of_lt htype.2]
    have htail := r.length_tail false
    cases htail' : r.tail false with
    | nil =>
      rw [htail'] at htail
      cases Nat.add_comm 8 _ ▸ htail
    | cons x bytes =>
      rw [swapHalf, if_neg (by decide), List.cons_append, bytesHalf, hlo]
      omega
  · rw [List.length_cons, List.length_append, r.length_tail]
    omega

/-- The types that the loop sees before the A record are those of CNAME records. -/
theorem type_lt_of_reaches {be : Bool} {mem : ℕ → Byte} {e p p' : ℕ}
    (h : Reaches (next be mem e) p p') (hp' : type be mem (answer mem e p') = dnsARecord) :
  type be mem (answer mem e p) < 256
  := by
  rcases Relation.ReflTransGen.cases_head h with rfl | ⟨u, hu, -⟩
  · rw [hp']
    decide
  · rw [(pos_of_next hu).2.1]
    decide

/-- The names of the records that the loop passes are skipped. -/
theorem skipped_of_reaches {mem : ℕ → Byte} {e p p' : ℕ} {rs : List Record} {a : Record}
    {rest : List Byte} (h : Left mem e p (encode false rs ++ (a.bytes false ++ rest))) (hp : 0 < p)
    (hrs : ∀ r ∈ rs, IsName r.name ∧ r.type = dnsCnameRecord) (ha : IsName a.name)
    (htype : a.type = dnsARecord) (hdata : a.data.length = 4)
    (hreaches : Reaches (next false mem e) p p') (hp' : type false mem (answer mem e p') = dnsARecord) :
  (∀ r ∈ rs, Skipped r.name) ∧ Skipped a.name
  := by
  induction rs generalizing p with
  | nil =>
    refine ⟨by simp, ?_⟩
    by_contra hs
    apply not_le.mpr (type_lt_of_reaches hreaches hp')
    apply type_of_not_skipped h hp ha hs
    · rw [htype]
      decide
    · omega
  | cons r rs ih =>
    have hrest : 12 < (encode false rs ++ (a.bytes false ++ rest)).length := by
      rw [List.length_append, List.length_append, a.length_bytes]
      omega
    rw [encode, List.flatMap_cons, ← encode, List.append_assoc] at h
    obtain ⟨hname, hcname⟩ := hrs r List.mem_cons_self
    have hskipped : Skipped r.name := by
      by_contra hs
      apply not_le.mpr (type_lt_of_reaches hreaches hp')
      apply type_of_not_skipped h hp hname hs
      · rw [hcname]
        decide
      · omega
    have hnext := next_record h hp ⟨hskipped, hcname⟩ hrest
    rcases Relation.ReflTransGen.cases_head hreaches with rfl | ⟨u, hu, hreaches⟩
    · rw [(pos_of_next hnext).2.1] at hp'
      cases hp'
    · obtain rfl := Option.some.inj (hnext.symm.trans hu)
      obtain ⟨hrs', ha'⟩ := ih h.append (by omega)
        (fun r' hr' => hrs r' (List.mem_cons_of_mem r hr')) hreaches
      refine ⟨?_, ha'⟩
      intro r' hr'
      rcases List.mem_cons.mp hr' with rfl | hr'
      · exact hskipped
      · exact hrs' r' hr'

/-- The packet of a reply. -/
theorem Reply.left {be : Bool} {mem : ℕ → Byte} {len : ℕ} {r : Reply be}
    (h : Memory.read mem 0 len = r.bytes) :
  Answered mem ∧ ∃ labels, IsLabels labels
    ∧ Left mem len 12 (labelBytes labels ++ 0 :: (swapBytes false dnsARecord ++ (halfBytes 1
      ++ (encode false r.cnames ++ (r.a.bytes false ++ r.rest)))))
  := by
  obtain ⟨labels, hlabels, hhost⟩ := r.host_name
  have hsplit : r.bytes = r.header ++ (labelBytes labels ++ 0 :: (swapBytes false dnsARecord
      ++ (halfBytes 1 ++ (encode false r.cnames ++ (r.a.bytes false ++ r.rest))))) := by
    rw [Reply.bytes, hhost]
    simp only [List.append_assoc, List.cons_append, List.nil_append]
    rfl
  have hleft : Left mem len 0 (Memory.read mem 0 len) := left_read mem (Nat.zero_le len)
  rw [h, hsplit] at hleft
  have hheader := (Memory.holds_append.mp hleft.holds).1
  have hlen := r.length_header
  have hanswered : Answered mem := by
    have hq := half_eq (hheader.drop 4) (by rw [List.length_drop]; omega)
    have ha := half_eq (hheader.drop 6) (by rw [List.length_drop]; omega)
    rw [Nat.zero_add] at hq ha
    constructor
    · rw [hq, r.nqueries]
    · have := r.nanswers
      omega
  have hrest := hleft.append
  rw [hlen, Nat.zero_add] at hrest
  exact ⟨hanswered, labels, hlabels, hrest⟩

/-- On a big endian machine the type of the question is not seen. -/
theorem Reply.be_eq_false {be : Bool} {mem : ℕ → Byte} {len p : ℕ} {r : Reply be}
    (h : Memory.read mem 0 len = r.bytes) (hstart : (start be mem len).2 = some p) :
  be = false
  := by
  obtain ⟨-, labels, hlabels, hleft⟩ := r.left h
  obtain ⟨-, host, cls, rest, hsplit, hhost, -, -⟩ := question_of_start hstart
  have hadd := hleft.add
  have hleft' : Left mem len 12 _ := left_read mem (by omega)
  rw [hsplit] at hleft'
  have hskip := skipHost_eq hleft (not_mem_labelBytes hlabels).1
  have hskip' := skipHost_eq hleft' hhost
  have hlen : host.length = (labelBytes labels).length := by omega
  have hafter := hleft.append.cons.holds
  have hafter' := hleft'.append.cons.holds
  have htype := swapped_eq be hafter (by rw [List.length_append, length_swapBytes]; omega)
  have htype' := swapped_eq be hafter' (by rw [List.length_append, length_swapBytes]; omega)
  rw [hlen, swapHalf_swapBytes (by decide)] at htype'
  rw [htype] at htype'
  cases be with
  | false => rfl
  | true => cases htype'

theorem Safe.handled {be : Bool} {port : ℕ} {mem : ℕ → Byte} {len : ℕ}
    (h : Safe be port port mem len) :
  Handled be mem len
  := by
  have hends : Walk.Ends (debugNext len) 0 := by
    obtain ⟨fuel, hfuel⟩ := h.returns
    rw [dnsHandler, if_neg (not_not.mpr rfl)] at hfuel
    obtain ⟨result, hresult⟩ := Option.isSome_iff_exists.mp hfuel
    obtain ⟨t, ht, -⟩ := Option.bind_eq_some_iff.mp hresult
    exact ⟨fuel, Option.isSome_iff_exists.mpr ⟨t, ht⟩⟩
  have hlen := (debug_ends_iff len).mp hends
  refine ⟨hlen, ?_, ?_, ?_⟩
  · rw [← reads_start_iff be]
    intro a ha
    apply h.reads rfl hends a (Reads.start ha)
  · intro hanswered as
    obtain ⟨p₀, p, h₀, hreaches, hat⟩ := as.reaches hanswered
    have hread := h.reads rfl hends _ (Reads.answer h₀ hreaches hat.mem_reads)
    have htail := hat.length_tail
    have h12 : 12 ≤ as.tail.length := by omega
    refine ⟨h12, fun hfits => ?_⟩
    obtain ⟨fuel, hfuel⟩ := hat.handler port hlen h₀ hreaches h12 hfits
    apply h.resolves fuel _ hfuel
  · intro r hr
    obtain ⟨fuel, hfuel⟩ := h.skips rfl r hr
    obtain ⟨p₀, p, h₀, hreaches, -, htype, -⟩ := exists_at_of_handler hfuel
    obtain rfl := r.be_eq_false hr h₀
    obtain ⟨hanswered, labels, hlabels, hleft⟩ := r.left hr
    obtain ⟨hstart, hrest⟩ :=
      start_of_question hleft hanswered (not_mem_labelBytes hlabels).1 (length_halfBytes 1)
    obtain rfl := Option.some.inj (hstart.symm.trans h₀)
    exact ⟨rfl, skipped_of_reaches hrest (by omega) r.cname r.a_name r.a_type r.length_data hreaches
      htype⟩

theorem Handled.safe {be : Bool} {port : ℕ} {mem : ℕ → Byte} {len : ℕ} (h : Handled be mem len) :
  Safe be port port mem len
  := by
  have h12 : ∀ p₀, (start be mem len).2 = some p₀ → 12 ≤ len := by
    intro p₀ h₀
    obtain ⟨hanswered, -⟩ := question_of_start h₀
    obtain ⟨z, hz, hlt, -⟩ := h.begins.host hanswered
    omega
  constructor
  · cases hstart : (start be mem len).2 with
    | none =>
      obtain ⟨fuel, hfuel⟩ := (debug_ends_iff len).mpr h.len_le
      obtain ⟨t, ht⟩ := Option.isSome_iff_exists.mp hfuel
      use fuel
      rw [dnsHandler, if_neg (not_not.mpr rfl), ht, Option.bind_some, hstart]
      rfl
    | some p₀ =>
      obtain ⟨-, hpassing⟩ := passing_of_start (h12 p₀ hstart) hstart
      obtain ⟨fuel, t, hrun⟩ := exists_run_next be mem len p₀ hpassing.pos
      obtain ⟨fuel, hfuel⟩ := dnsHandler_of_run port h.len_le hstart hrun
      use fuel
      rw [hfuel]
      rfl
  · rintro - - a (hstart | @⟨p₀, p, _, h₀, hreaches, ha⟩)
    · exact (reads_start_iff be mem len).mpr h.begins a hstart
    · by_cases hlt : p + 12 < len
      · have hpassing := passing_of_reaches (h12 p₀ h₀) h₀ hreaches hlt
        by_cases htype : type be mem (answer mem len p) = dnsARecord
        · obtain ⟨as, hat⟩ := exists_answers hpassing hlt htype
          apply hat.reads_within _ a ha
          intro _
          exact (h.answers (passing_of_start (h12 p₀ h₀) h₀).1 as).1
        · obtain ⟨⟨host, cls, rs, rest, -, -, -, -, hleft⟩, hpos⟩ := hpassing
          obtain ⟨name, ty, tail, -, hat⟩ := exists_at be hleft hpos hlt
          apply hat.reads_within _ a ha
          intro hty
          exact absurd (hat.type_eq.trans hty) htype
      · rw [answerReads, if_neg hlt] at ha
        cases ha
  · intro fuel ip hip
    obtain ⟨p₀, p, h₀, hreaches, hlt, htype, hfits, rfl⟩ := exists_at_of_handler hip
    have hpassing := passing_of_reaches (h12 p₀ h₀) h₀ hreaches hlt
    obtain ⟨as, hat⟩ := exists_answers hpassing hlt htype
    obtain ⟨hle, hreply⟩ := h.answers (passing_of_start (h12 p₀ h₀) h₀).1 as
    have htail := hat.length_tail
    rw [hat.dlen_eq] at hfits
    rw [hat.address hle]
    apply hreply
    omega
  · rintro - r hr
    obtain ⟨rfl, hcnames, ha⟩ := h.replies r hr
    obtain ⟨hanswered, labels, hlabels, hleft⟩ := r.left hr
    obtain ⟨h₀, hrest⟩ :=
      start_of_question hleft hanswered (not_mem_labelBytes hlabels).1 (length_halfBytes 1)
    have hdata := r.length_data
    have hpassed : ∀ cname ∈ r.cnames, Skipped cname.name ∧ cname.type = dnsCnameRecord := by
      intro cname hcname
      exact ⟨hcnames cname hcname, (r.cname cname hcname).2⟩
    have henough : 12 < (r.a.bytes false ++ r.rest).length := by
      rw [List.length_append, r.a.length_bytes]
      omega
    have hreaches := reaches_of_encode hrest (by omega) hpassed henough
    have hat := Record.at hrest.append (by omega) ha (by omega)
    rw [r.a_type] at hat
    have hlen : 12 ≤ (r.a.tail false ++ r.rest).length := by
      rw [List.length_append, r.a.length_tail]
      omega
    obtain ⟨fuel, hfuel⟩ := hat.handler port h.len_le h₀ hreaches hlen (by
      rw [r.a.swapHalf_tail, hdata]
      exact hlen)
    use fuel
    rw [hfuel, r.a.drop_tail, List.take_left' hdata]

/-- The handler does what it should if and only if the packet is for another port or is one that is
handled well. -/
theorem dnsHandler_safe_iff (be : Bool) (dnsOurPort dest : ℕ) (mem : ℕ → Byte) (len : ℕ) :
  Safe be dnsOurPort dest mem len ↔ (dest = dnsOurPort → Handled be mem len)
  := by
  constructor
  · rintro h rfl
    exact h.handled
  · intro h
    by_cases hdest : dest = dnsOurPort
    · subst hdest
      exact (h rfl).safe
    · have hnone : ∀ fuel, dnsHandler be dnsOurPort dest mem len fuel = some none := by
        intro fuel
        rw [dnsHandler, if_pos hdest]
      constructor
      · use 0
        rw [hnone]
        rfl
      · exact fun heq => absurd heq hdest
      · intro fuel ip hip
        rw [hnone] at hip
        cases hip
      · exact fun heq => absurd heq hdest

/-- A reply with the transaction id of a big endian machine: the host `a` is 10.0.0.1. -/
def reply : Reply true where
  header := [0x00, 0x01, 0x81, 0x80, 0x00, 0x01, 0x00, 0x01, 0x00, 0x00, 0x00, 0x00]
  host := [1, 97, 0]
  cnames := []
  a := ⟨[0xc0, 0x0c], dnsARecord, 1, [0, 0, 0, 60], [10, 0, 0, 1], by decide, rfl, by decide⟩
  rest := []
  length_header := rfl
  tid := by decide
  nqueries := by decide
  nanswers := by decide
  host_name := ⟨[[97]], by simp [IsLabels], by decide⟩
  cname := by simp
  a_name := Or.inr ⟨[], 0xc0, 0x0c, by simp [IsLabels], by decide, rfl⟩
  a_type := rfl
  a_class := rfl
  length_data := rfl

/-- A big endian machine does not see the address.  A little endian machine takes it, though the
transaction id is not the one that it sent. -/
theorem not_safe_reply :
  ¬ Safe true 1024 1024 (fun i => reply.bytes.getD i 0) reply.bytes.length
  ∧ ¬ Safe false 1024 1024 (fun i => reply.bytes.getD i 0) reply.bytes.length
  := by
  have hread : Memory.read (fun i => reply.bytes.getD i 0) 0 reply.bytes.length = reply.bytes := by
    decide +kernel
  constructor
  · intro h
    obtain ⟨fuel, hfuel⟩ := h.skips rfl reply hread
    obtain ⟨p₀, p, h₀, -⟩ := exists_at_of_handler hfuel
    exact absurd (reply.be_eq_false hread h₀) (by decide)
  · intro h
    have hip : dnsHandler false 1024 1024 (fun i => reply.bytes.getD i 0) reply.bytes.length 20
        = some (some [10, 0, 0, 1]) := by
      decide +kernel
    obtain ⟨r, hr, -⟩ := h.resolves 20 _ hip
    have htid : r.header.take 2 = reply.bytes.take 2 := by
      rw [← hread, hr]
      simp only [Reply.bytes, List.append_assoc]
      rw [List.take_append_of_le_length (by rw [r.length_header]; decide)]
    rw [r.tid] at htid
    exact absurd htid (by decide +kernel)

end Dns
