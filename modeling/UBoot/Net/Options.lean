import UBoot.Lib.Walk
import UBoot.Net.Dhcp
import UBoot.Net.Vendor

/-!
# The three readers of the vendor area

`DhcpOptionsProcess`, `DhcpMessageType` and `BootpVendorProcess` go through the options of a packet,
each with its own way to find the end.  Here they are walks, with the addresses that they read and
with the places that they take for options, and they are compared with the list of options of
RFC 2132.
-/

namespace Bootp

open StateTransition

/-- Where the options begin. -/
def bpOptions : ℕ := bpVend + 4

/-- The four cells of a word. -/
def longReads (p : ℕ) : List ℕ := List.range' p 4

/-! ### `DhcpOptionsProcess` -/

/-- The loop of `DhcpOptionsProcess`. -/
structure OptionsState where
  popt : ℕ
  client : Client
  mem : ℕ → Byte

/-- The end of the loop. -/
def optionsEnd : ℕ := bpOptions + bootpHdrSize

/-- The loop goes on. -/
def optionsNext (s : OptionsState) : Option OptionsState :=
  if s.popt < optionsEnd ∧ s.mem s.popt ≠ 0xff then
    let oplen := (s.mem (s.popt + 1)).toNat
    let r := dhcpOption s.client s.mem s.popt
    some ⟨s.popt + oplen + 2, r.1, r.2⟩
  else none

/-- The addresses that are read for an option. -/
def dhcpOptionReads (mem : ℕ → Byte) (popt : ℕ) : List ℕ :=
  let oplen := (mem (popt + 1)).toNat
  match mem popt with
  | 1 => longReads (popt + 2)
  | 3 => longReads (popt + 2)
  | 6 => longReads (popt + 2)
  | 12 => List.range' (popt + 2) (truncateSz 32 oplen)
  | 17 => List.range' (popt + 2) (truncateSz 64 oplen)
  | 51 => longReads (popt + 2)
  | 54 => longReads (popt + 2)
  | 67 => bpFile :: if mem bpFile = 0 then List.range' (popt + 2) (truncateSz 128 oplen) else []
  | _ => []

/-- The addresses that are read at an option, or at the end. -/
def optionsReads (s : OptionsState) : List ℕ :=
  if s.popt < optionsEnd then
    s.popt :: if s.mem s.popt ≠ 0xff then (s.popt + 1) :: dhcpOptionReads s.mem s.popt else []
  else []

/-- The walk is the loop. -/
theorem dhcpOptionsLoop_eq {fuel : ℕ} {s t : OptionsState}
    (h : Walk.run optionsNext (fuel + 1) s = some t) :
  dhcpOptionsLoop optionsEnd fuel s.popt s.client s.mem = (t.client, t.mem)
  := by
  induction fuel generalizing s with
  | zero =>
    rw [Walk.run] at h
    cases hnext : optionsNext s with
    | none =>
      rw [hnext] at h
      obtain rfl := Option.some.inj h
      rfl
    | some u =>
      rw [hnext] at h
      cases h
  | succ fuel ih =>
    rw [Walk.run, optionsNext] at h
    rw [dhcpOptionsLoop]
    split
    case isTrue hgoes =>
      rw [if_pos hgoes] at h
      exact ih h
    case isFalse hstops =>
      rw [if_neg hstops] at h
      obtain rfl := Option.some.inj h
      rfl

theorem exists_run_optionsNext (c : Client) (mem : ℕ → Byte) :
  ∃ t, Walk.run optionsNext (bootpHdrSize + 1) ⟨bpOptions, c, mem⟩ = some t
  := by
  have hstep : ∀ s u, True → optionsNext s = some u →
      True ∧ optionsEnd - u.popt < optionsEnd - s.popt := by
    intro s u _ hu
    rw [optionsNext] at hu
    split at hu
    case isFalse => cases hu
    case isTrue hgoes =>
      obtain rfl := Option.some.inj hu
      refine ⟨trivial, ?_⟩
      dsimp only
      omega
  have hrun := Walk.isSome_run_of_measure (fun s : OptionsState => optionsEnd - s.popt) hstep (n := bootpHdrSize + 1)
    (s := ⟨bpOptions, c, mem⟩) trivial (by dsimp only; decide)
  exact Option.isSome_iff_exists.mp hrun

/-- `DhcpOptionsProcess` is the walk to its end. -/
theorem dhcpOptionsProcess_eq (c : Client) {p : Received}
    (h : Memory.read p.mem bpVend 4 = bootpVendorMagic) :
  ∃ t, Reaches optionsNext ⟨bpOptions, c, p.mem⟩ t ∧ optionsNext t = none
    ∧ dhcpOptionsProcess c p = (t.client, { p with mem := t.mem })
  := by
  obtain ⟨t, ht⟩ := exists_run_optionsNext c p.mem
  obtain ⟨hreaches, hnone⟩ := Walk.reaches_of_run ht
  refine ⟨t, hreaches, hnone, ?_⟩
  have hloop := dhcpOptionsLoop_eq ht
  rw [optionsEnd, bpOptions] at hloop
  rw [dhcpOptionsProcess, if_pos h, hloop]

/-! ### `DhcpMessageType` -/

/-- The scan goes on. -/
def messageNext (mem : ℕ → Byte) (popt : ℕ) : Option ℕ :=
  if mem popt = 0xff ∨ mem popt = 53 then none else some (popt + (mem (popt + 1)).toNat + 2)

/-- The addresses that are read at an option. -/
def messageReads (mem : ℕ → Byte) (popt : ℕ) : List ℕ :=
  popt :: if mem popt = 0xff then [] else if mem popt = 53 then [popt + 2] else [popt + 1]

/-- The walk is the loop. -/
theorem messageTypeLoop_eq_run (mem : ℕ → Byte) (fuel popt : ℕ) :
  messageTypeLoop mem fuel popt
    = (Walk.run (messageNext mem) fuel popt).map fun p =>
        if mem p = 0xff then none else some (mem (p + 2))
  := by
  induction fuel generalizing popt with
  | zero => rfl
  | succ fuel ih =>
    rw [messageTypeLoop, Walk.run, messageNext]
    by_cases hend : mem popt = 0xff
    · simp [hend]
    · by_cases htype : mem popt = 53
      · simp [htype]
      · simp [hend, htype, ih]

/-! ### `BootpVendorProcess` -/

/-- The loop of `BootpVendorProcess`. -/
structure VendorState where
  ext : ℕ
  vendor : Vendor

/-- The place after an option. -/
def after (mem : ℕ → Byte) (ext : ℕ) : ℕ := ext + (mem (ext + 1)).toNat + 2

/-- The loop goes on. -/
def vendorNext (mem : ℕ → Byte) (stop : ℕ) (s : VendorState) : Option VendorState :=
  if s.ext < stop ∧ mem s.ext ≠ 0xff then
    if mem s.ext = 0 then some { s with ext := s.ext + 1 }
    else
      some ⟨after mem s.ext,
        if after mem s.ext ≤ stop then bootpVendorFieldProcess s.vendor mem s.ext else s.vendor⟩
  else none

/-- The addresses that are read for an option. -/
def vendorFieldReads (c : Vendor) (mem : ℕ → Byte) (ext : ℕ) : List ℕ :=
  let size := (mem (ext + 1)).toNat
  match mem ext with
  | 1 => if c.netOurSubnetMask = 0 then longReads (ext + 2) else []
  | 3 => if c.netOurGatewayIP = 0 then longReads (ext + 2) else []
  | 6 => if c.netOurDNSIP = 0 then longReads (ext + 2) else []
  | 12 => if c.netOurHostName 0 = 0 then List.range' (ext + 2) (truncateSz 32 size) else []
  | 13 => if size = 2 then List.range' (ext + 2) 2 else if size = 4 then longReads (ext + 2) else []
  | 17 => if c.netOurRootPath 0 = 0 then List.range' (ext + 2) (truncateSz 64 size) else []
  | 40 => if c.netOurNISDomain 0 = 0 then List.range' (ext + 2) (truncateSz 32 size) else []
  | _ => []

/-- The addresses that are read at an option, or at the end. -/
def vendorReads (mem : ℕ → Byte) (stop : ℕ) (s : VendorState) : List ℕ :=
  if s.ext < stop then
    s.ext :: if mem s.ext = 0xff ∨ mem s.ext = 0 then []
      else (s.ext + 1) ::
        if after mem s.ext ≤ stop then vendorFieldReads s.vendor mem s.ext else []
  else []

/-- The walk is the loop. -/
theorem bootpVendorLoop_eq_run {mem : ℕ → Byte} {stop fuel : ℕ} {s t : VendorState}
    (h : Walk.run (vendorNext mem stop) (fuel + 1) s = some t) :
  bootpVendorLoop mem stop fuel s.ext s.vendor = t.vendor
  := by
  induction fuel generalizing s with
  | zero =>
    rw [Walk.run] at h
    cases hnext : vendorNext mem stop s with
    | none =>
      rw [hnext] at h
      obtain rfl := Option.some.inj h
      rfl
    | some u =>
      rw [hnext] at h
      cases h
  | succ fuel ih =>
    rw [Walk.run, vendorNext] at h
    rw [bootpVendorLoop]
    split
    case isTrue hgoes =>
      rw [if_pos hgoes] at h
      split
      case isTrue hpad =>
        rw [if_pos hpad] at h
        exact ih h
      case isFalse hpad =>
        rw [if_neg hpad] at h
        exact ih h
    case isFalse hstops =>
      rw [if_neg hstops] at h
      obtain rfl := Option.some.inj h
      rfl

/-- `BootpVendorProcess` is the walk to its end. -/
theorem bootpVendorProcess_eq (v : Vendor) (mem : ℕ → Byte) (ext size : ℕ) :
  ∃ t, Reaches (vendorNext mem (ext + size)) ⟨ext, v⟩ t ∧ vendorNext mem (ext + size) t = none
    ∧ bootpVendorProcess v mem ext size = t.vendor
  := by
  have hstep : ∀ s u, True → vendorNext mem (ext + size) s = some u →
      True ∧ ext + size - u.ext < ext + size - s.ext := by
    intro s u _ hu
    rw [vendorNext] at hu
    split at hu
    case isFalse => cases hu
    case isTrue hgoes =>
      refine ⟨trivial, ?_⟩
      split at hu
      · obtain rfl := Option.some.inj hu
        dsimp only
        omega
      · obtain rfl := Option.some.inj hu
        dsimp only [after]
        omega
  have hrun := Walk.isSome_run_of_measure (fun s : VendorState => ext + size - s.ext) hstep (n := size + 1)
    (s := ⟨ext, v⟩) trivial (by dsimp only; omega)
  obtain ⟨t, ht⟩ := Option.isSome_iff_exists.mp hrun
  obtain ⟨hreaches, hnone⟩ := Walk.reaches_of_run ht
  exact ⟨t, hreaches, hnone, bootpVendorLoop_eq_run ht⟩

/-! ### The options of a packet -/

/-- The packet has options. -/
def HasOptions (mem : ℕ → Byte) : Prop := Memory.read mem bpVend 4 = bootpVendorMagic

/-- The list of options in a packet of `len` bytes: a padding option has one byte, the end option
ends the list, and so does an option that is not all in the packet. -/
def rfcNext (mem : ℕ → Byte) (len p : ℕ) : Option ℕ :=
  if len ≤ p ∨ mem p = 0xff then none
  else if mem p = 0 then some (p + 1)
  else if after mem p ≤ len then some (after mem p)
  else none

/-- There is an option. -/
def IsOption (mem : ℕ → Byte) (len p : ℕ) : Prop :=
  Reaches (rfcNext mem len) bpOptions p ∧ mem p ≠ 0 ∧ mem p ≠ 0xff ∧ after mem p ≤ len

/-- `DhcpOptionsProcess` takes a place for an option. -/
def OptionsFound (c : Client) (mem : ℕ → Byte) (p : ℕ) : Prop :=
  ∃ s, Reaches optionsNext ⟨bpOptions, c, mem⟩ s ∧ s.popt = p ∧ p < optionsEnd ∧ s.mem p ≠ 0xff

/-- `DhcpMessageType` takes a place for an option. -/
def MessageFound (mem : ℕ → Byte) (p : ℕ) : Prop :=
  Reaches (messageNext mem) bpOptions p ∧ mem p ≠ 0xff

/-- `BootpVendorProcess` takes a place for an option, when it is called as `BootpHandler` does. -/
def VendorFound (v : Vendor) (mem : ℕ → Byte) (len p : ℕ) : Prop :=
  ∃ s, Reaches (vendorNext mem (bpOptions + len)) ⟨bpOptions, v⟩ s ∧ s.ext = p
    ∧ p < bpOptions + len ∧ mem p ≠ 0 ∧ mem p ≠ 0xff ∧ after mem p ≤ bpOptions + len

/-- The three functions read the packet only, and they find the options of the packet; the scan for
the type of the message goes no further than to the first option with the type, and takes it from
the value of this option. -/
structure Interprets (c : Client) (v : Vendor) (mem : ℕ → Byte) (len : ℕ) : Prop where
  magic : ∀ a ∈ longReads bpVend, a < len
  options : HasOptions mem → ∀ p, OptionsFound c mem p ↔ IsOption mem len p
  options_reads : HasOptions mem → ∀ s, Reaches optionsNext ⟨bpOptions, c, mem⟩ s →
    ∀ a ∈ optionsReads s, a < len
  message_returns : HasOptions mem → Walk.Ends (messageNext mem) bpOptions
  message : HasOptions mem → ∀ p, MessageFound mem p ↔
    IsOption mem len p ∧ ∀ q < p, IsOption mem len q → mem q ≠ 53
  message_type : HasOptions mem → ∀ p, MessageFound mem p → mem p = 53 → mem (p + 1) ≠ 0
  message_reads : HasOptions mem → ∀ p, Reaches (messageNext mem) bpOptions p →
    ∀ a ∈ messageReads mem p, a < len
  vendor : HasOptions mem → ∀ p, VendorFound v mem len p ↔ IsOption mem len p
  vendor_reads : HasOptions mem →
    ∀ s, Reaches (vendorNext mem (bpOptions + len)) ⟨bpOptions, v⟩ s →
      ∀ a ∈ vendorReads mem (bpOptions + len) s, a < len

/-- The codes of the options from which four bytes are read, whatever their length. -/
def addressCodes : List Byte := [1, 3, 6, 51, 54]

/-- The bytes begin with an option that is not all in the next `n` bytes. -/
def Overruns (n : ℕ) (bytes : List Byte) : Prop :=
  ∃ code size rest, bytes = code :: size :: rest ∧ code ≠ 0 ∧ code ≠ 255 ∧ n < size.toNat + 2

/-- What follows the options: padding, and the end or an option that is too long. -/
def Ending (n : ℕ) (tail : List Byte) : Prop :=
  ∃ k rest, tail = List.replicate k 0 ++ rest ∧ (rest.head? = some 255 ∨ Overruns (n - k) rest)

/-- The options can be read in all three ways. -/
structure Readable (mem : ℕ → Byte) (len : ℕ) (os : List VendorOption) (tail : List Byte) :
    Prop where
  split : Memory.read mem bpOptions (len - bpOptions) = encode os ++ tail
  starts : ∀ before o rest, os = before ++ o :: rest → (encode before).length < bootpHdrSize
  address : ∀ before o rest, os = before ++ o :: rest → o.code ∈ addressCodes →
    (encode before).length + 6 ≤ (encode os ++ tail).length
  type : ∀ before o rest, os = before ++ o :: rest → (∀ o' ∈ before, o'.code ≠ 53) → o.code = 53 →
    o.value ≠ []
  ending : tail.head? = some 255
    ∨ bootpHdrSize ≤ (encode os).length ∧ (∃ o ∈ os, o.code = 53)
      ∧ Ending (len - (encode os).length) tail

/-! ### Walks along a list of options -/

/-- A walk takes the options one after the other.  `R` is what is known besides of its states. -/
def Follows {σ : Type*} (next : σ → Option σ) (pos : σ → ℕ) (R : σ → Prop) (p : ℕ)
    (os : List VendorOption) : Prop :=
  ∀ before o rest, os = before ++ o :: rest → ∀ s, R s → pos s = p + (encode before).length →
    ∃ u, next s = some u ∧ R u ∧ pos u = p + (encode (before ++ [o])).length

section Follows

variable {σ : Type*} {next : σ → Option σ} {pos : σ → ℕ} {R : σ → Prop} {p : ℕ}
  {os : List VendorOption} {s : σ}

/-- The walk comes to every option of the list, and to its end. -/
theorem Follows.reaches (h : Follows next pos R p os) (hR : R s) (hs : pos s = p)
    {before rest : List VendorOption} (hsplit : os = before ++ rest) :
  ∃ u, Reaches next s u ∧ R u ∧ pos u = p + (encode before).length
  := by
  induction before using List.reverseRecOn generalizing rest with
  | nil => exact ⟨s, Relation.ReflTransGen.refl, hR, by rw [hs]; rfl⟩
  | append_singleton before o ih =>
    rw [List.append_assoc, List.singleton_append] at hsplit
    obtain ⟨t, ht, hRt, hpos⟩ := ih hsplit
    obtain ⟨u, hu, hRu, hpos⟩ := h before o rest hsplit t hRt hpos
    exact ⟨u, ht.tail hu, hRu, hpos⟩

/-- The walk comes to nothing else before the end of the list. -/
theorem Follows.cases (h : Follows next pos R p os) (hR : R s) (hs : pos s = p) {t : σ}
    (ht : Reaches next s t) :
  (∃ before o rest, os = before ++ o :: rest ∧ pos t = p + (encode before).length ∧ R t)
  ∨ ∃ u, R u ∧ pos u = p + (encode os).length ∧ Reaches next u t
  := by
  have hor : (∃ before rest, os = before ++ rest ∧ pos t = p + (encode before).length ∧ R t)
      ∨ ∃ u, R u ∧ pos u = p + (encode os).length ∧ Reaches next u t := by
    induction ht with
    | refl => exact Or.inl ⟨[], os, rfl, by rw [hs]; rfl, hR⟩
    | @tail t u _ hu ih =>
      rcases ih with ⟨before, rest, hsplit, hpos, hRt⟩ | ⟨v, hRv, hpos, hv⟩
      · cases rest with
        | nil =>
          rw [List.append_nil] at hsplit
          rw [← hsplit] at hpos
          exact Or.inr ⟨t, hRt, hpos, Relation.ReflTransGen.single hu⟩
        | cons o rest =>
          obtain ⟨u', hu', hRu, hpos⟩ := h before o rest hsplit t hRt hpos
          obtain rfl : u' = u := Option.some.inj (hu'.symm.trans hu)
          refine Or.inl ⟨before ++ [o], rest, ?_, hpos, hRu⟩
          rw [hsplit, List.append_assoc, List.singleton_append]
      · exact Or.inr ⟨v, hRv, hpos, hv.tail hu⟩
  rcases hor with ⟨before, rest, hsplit, hpos, hRt⟩ | hend
  · cases rest with
    | nil =>
      rw [List.append_nil] at hsplit
      rw [← hsplit] at hpos
      exact Or.inr ⟨t, hRt, hpos, Relation.ReflTransGen.refl⟩
    | cons o rest => exact Or.inl ⟨before, o, rest, hsplit, hpos, hRt⟩
  · exact Or.inr hend

end Follows

/-- The packet has the options of a list. -/
structure Listed (mem : ℕ → Byte) (len : ℕ) (os : List VendorOption) : Prop where
  holds : Memory.Holds mem bpOptions (encode os)
  le : bpOptions + (encode os).length ≤ len

/-- A place of an option in a list. -/
def IsPlace (os : List VendorOption) (o : VendorOption) (p : ℕ) : Prop :=
  ∃ before rest, os = before ++ o :: rest ∧ p = bpOptions + (encode before).length

section Listed

variable {mem : ℕ → Byte} {len p : ℕ} {os : List VendorOption} {o : VendorOption}

theorem encode_singleton (o : VendorOption) :
  encode [o] = o.bytes
  := by
  rw [encode_cons, encode, List.flatMap_nil, List.append_nil]

theorem length_encode_append_singleton (before : List VendorOption) (o : VendorOption) :
  (encode (before ++ [o])).length = (encode before).length + (o.value.length + 2)
  := by
  rw [encode_append, encode_singleton, List.length_append, VendorOption.length_bytes]

/-- The bytes of an option of the list. -/
theorem Listed.at (h : Listed mem len os) {before rest : List VendorOption}
    (hsplit : os = before ++ o :: rest) :
  mem (bpOptions + (encode before).length) = o.code
  ∧ (mem (bpOptions + (encode before).length + 1)).toNat = o.value.length
  ∧ after mem (bpOptions + (encode before).length)
    = bpOptions + (encode (before ++ [o])).length
  ∧ bpOptions + (encode (before ++ [o])).length ≤ len
  := by
  have hholds := h.holds
  have hle := h.le
  have hlen := length_encode_append_singleton before o
  rw [hsplit, ← List.singleton_append, ← List.append_assoc, encode_append, List.length_append]
    at hle
  rw [hsplit, encode_append, Memory.holds_append, encode_cons, Memory.holds_append] at hholds
  obtain ⟨-, ⟨hcode, hsize, -⟩, -⟩ := hholds
  have hn : (mem (bpOptions + (encode before).length + 1)).toNat = o.value.length := by
    rw [hsize, UInt8.toNat_ofNat', Nat.mod_eq_of_lt o.length_lt]
  refine ⟨hcode, hn, ?_, by omega⟩
  rw [after, hn, hlen]
  omega

/-- The list of options of the packet begins with the options. -/
theorem Listed.follows_rfc (h : Listed mem len os) :
  Follows (rfcNext mem len) id (fun _ => True) bpOptions os
  := by
  rintro before o rest hsplit s - hs
  obtain rfl : s = bpOptions + (encode before).length := hs
  obtain ⟨hcode, -, hafter, hle⟩ := h.at hsplit
  have hlen := length_encode_append_singleton before o
  refine ⟨_, ?_, trivial, rfl⟩
  rw [rfcNext, if_neg, hcode, if_neg o.code_ne_pad, hafter, if_pos hle]
  · rw [hcode, not_or]
    exact ⟨by omega, o.code_ne_end⟩

theorem Listed.follows_message (h : Listed mem len os) (htype : ∀ o ∈ os, o.code ≠ 53) :
  Follows (messageNext mem) id (fun _ => True) bpOptions os
  := by
  rintro before o rest hsplit s - hs
  obtain rfl : s = bpOptions + (encode before).length := hs
  obtain ⟨hcode, -, hafter, -⟩ := h.at hsplit
  refine ⟨_, ?_, trivial, rfl⟩
  rw [messageNext, if_neg]
  · exact congrArg some hafter
  · rw [hcode, not_or]
    refine ⟨o.code_ne_end, htype o ?_⟩
    rw [hsplit]
    simp

theorem Listed.follows_vendor (h : Listed mem len os) :
  Follows (vendorNext mem (bpOptions + len)) VendorState.ext (fun _ => True) bpOptions os
  := by
  rintro before o rest hsplit s - hs
  obtain ⟨hcode, -, hafter, hle⟩ := h.at hsplit
  have hlen := length_encode_append_singleton before o
  have hgoes : s.ext < bpOptions + len ∧ mem s.ext ≠ 0xff := by
    rw [hs, hcode]
    exact ⟨by omega, o.code_ne_end⟩
  have hpad : mem s.ext ≠ 0 := by
    rw [hs, hcode]
    exact o.code_ne_pad
  refine ⟨_, by rw [vendorNext, if_pos hgoes, if_neg hpad], trivial, ?_⟩
  rw [hs, hafter]

/-- `DhcpOptionsProcess` writes before the options only. -/
theorem dhcpOption_mem (c : Client) (mem : ℕ → Byte) (popt : ℕ) :
  ∀ q, bpVend ≤ q → (dhcpOption c mem popt).2 q = mem q
  := by
  intro q hq
  unfold dhcpOption
  simp only
  split
  case h_8 =>
    split
    · apply Memory.store_of_le
      have htrunc : truncateSz 128 (mem (popt + 1)).toNat ≤ 127 := by
        unfold truncateSz
        split <;> omega
      rw [List.length_append, Memory.length_read, List.length_singleton]
      unfold bpFile
      unfold bpVend at hq
      omega
    · rfl
  all_goals rfl

/-- The options are still in the memory. -/
def SameOptions (mem : ℕ → Byte) (s : OptionsState) : Prop := ∀ q, bpVend ≤ q → s.mem q = mem q

theorem Listed.follows_options (h : Listed mem len os)
    (hstarts : ∀ before o rest, os = before ++ o :: rest → (encode before).length < bootpHdrSize) :
  Follows optionsNext OptionsState.popt (SameOptions mem) bpOptions os
  := by
  intro before o rest hsplit s hsame hs
  obtain ⟨hcode, -, hafter, -⟩ := h.at hsplit
  have hstart := hstarts before o rest hsplit
  have hvend : bpVend ≤ s.popt := by
    rw [hs, bpOptions]
    omega
  have hgoes : s.popt < optionsEnd ∧ s.mem s.popt ≠ 0xff := by
    rw [hsame _ hvend, hs, hcode, optionsEnd]
    exact ⟨by omega, o.code_ne_end⟩
  refine ⟨_, by rw [optionsNext, if_pos hgoes], ?_, ?_⟩
  · intro q hq
    exact (dhcpOption_mem _ _ _ q hq).trans (hsame q hq)
  · rw [hsame _ (by omega), ← hafter, hs]
    rfl

end Listed

/-! ### The end of the options -/

/-- What follows the options, in the packet: `k` padding options, and the end or an option that is
too long, with its length. -/
structure EndsAt (mem : ℕ → Byte) (len q k : ℕ) : Prop where
  zeros : ∀ j < k, mem (q + j) = 0
  lt : q + k < len
  last : mem (q + k) = 255
    ∨ mem (q + k) ≠ 0 ∧ mem (q + k) ≠ 255 ∧ q + k + 1 < len ∧ bpOptions + len < after mem (q + k)

section Ending

variable {mem : ℕ → Byte} {len q k : ℕ}

/-- There are no more options. -/
theorem EndsAt.rfc (h : EndsAt mem len q k) {t : ℕ} (ht : Reaches (rfcNext mem len) q t) :
  ∃ j ≤ k, t = q + j
  := by
  apply Walk.reaches_invariant (I := fun t => ∃ j ≤ k, t = q + j) _ ⟨0, Nat.zero_le k, rfl⟩ ht
  rintro t u ⟨j, hj, rfl⟩ hu
  rw [rfcNext] at hu
  rcases Nat.lt_or_eq_of_le hj with hj | rfl
  · split at hu
    · cases hu
    · rw [if_pos (h.zeros j hj)] at hu
      exact ⟨j + 1, hj, (Option.some.inj hu).symm⟩
  · have hlt := h.lt
    rcases h.last with hend | ⟨hpad, hend, -, hafter⟩
    · rw [if_pos (Or.inr hend)] at hu
      cases hu
    · rw [if_neg (not_or.mpr ⟨by omega, hend⟩), if_neg hpad, if_neg (by omega)] at hu
      cases hu

theorem EndsAt.not_option (h : EndsAt mem len q k) {j : ℕ} (hj : j ≤ k) :
  ¬ (mem (q + j) ≠ 0 ∧ mem (q + j) ≠ 255 ∧ after mem (q + j) ≤ bpOptions + len)
  := by
  rintro ⟨hpad, hend, hafter⟩
  rcases Nat.lt_or_eq_of_le hj with hj | rfl
  · exact hpad (h.zeros j hj)
  · rcases h.last with hlast | ⟨-, -, -, hlast⟩
    · exact hend hlast
    · omega

theorem EndsAt.vendor (h : EndsAt mem len q k) {s t : VendorState} (hs : s.ext = q)
    (ht : Reaches (vendorNext mem (bpOptions + len)) s t) :
  (∃ j ≤ k, t.ext = q + j) ∨ bpOptions + len < t.ext
  := by
  apply Walk.reaches_invariant
    (I := fun t => (∃ j ≤ k, t.ext = q + j) ∨ bpOptions + len < t.ext) _
    (Or.inl ⟨0, Nat.zero_le k, hs⟩) ht
  rintro t u hor hu
  rw [vendorNext] at hu
  split at hu
  case isFalse => cases hu
  case isTrue hgoes =>
    rcases hor with ⟨j, hj, htq⟩ | hlt
    · rw [htq] at hu hgoes
      rcases Nat.lt_or_eq_of_le hj with hj | rfl
      · rw [if_pos (h.zeros j hj)] at hu
        obtain rfl := Option.some.inj hu
        exact Or.inl ⟨j + 1, hj, rfl⟩
      · rcases h.last with hend | ⟨hpad, -, -, hafter⟩
        · exact absurd hend hgoes.2
        · rw [if_neg hpad] at hu
          obtain rfl := Option.some.inj hu
          exact Or.inr hafter
    · have := hgoes.1
      omega

end Ending

end Bootp
