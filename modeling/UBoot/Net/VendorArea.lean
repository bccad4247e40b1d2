import UBoot.Net.Options

/-!
# Vendor areas that are read alike

The three readers of the vendor area find the options that RFC 2132 has there, and read nothing but
the packet, if and only if the area is `Readable`: options without padding between them, all where
`DhcpOptionsProcess` looks for options, and then the end option.  Only after an option with the type
of the message there may be padding, or an option that is too long, as far back as
`DhcpOptionsProcess` does not look.
-/

namespace Bootp

open StateTransition

/-! ### What is in the packet -/

theorem holds_of_read {mem : ℕ → Byte} {p n : ℕ} {bytes : List Byte}
    (h : Memory.read mem p n = bytes) :
  Memory.Holds mem p bytes
  := by
  rw [← h]
  apply Memory.holds_read

namespace Readable

variable {mem : ℕ → Byte} {len : ℕ} {os : List VendorOption} {tail : List Byte}

theorem length_eq (h : Readable mem len os tail) :
  (encode os).length + tail.length = len - bpOptions
  := by
  have hlen := congrArg List.length h.split
  rw [Memory.length_read, List.length_append] at hlen
  exact hlen.symm

theorem tail_ne_nil (h : Readable mem len os tail) :
  0 < tail.length
  := by
  apply List.length_pos_iff.mpr
  rintro rfl
  rcases h.ending with h | ⟨-, -, k, rest, hnil, h⟩
  · cases h
  · obtain ⟨-, rfl⟩ := List.append_eq_nil_iff.mp hnil.symm
    rcases h with h | ⟨code, size, rest, h, -⟩
    · cases h
    · cases h

theorem listed (h : Readable mem len os tail) :
  Listed mem len os
  := by
  have hlen := h.length_eq
  have hpos := h.tail_ne_nil
  have hholds := holds_of_read h.split
  rw [Memory.holds_append] at hholds
  exact ⟨hholds.1, by omega⟩

theorem holds_tail (h : Readable mem len os tail) :
  Memory.Holds mem (bpOptions + (encode os).length) tail
  := by
  have hholds := holds_of_read h.split
  rw [Memory.holds_append] at hholds
  exact hholds.2

theorem endsAt (h : Readable mem len os tail) :
  ∃ k, EndsAt mem len (bpOptions + (encode os).length) k
  := by
  have hlen := h.length_eq
  have hpos := h.tail_ne_nil
  have hholds := h.holds_tail
  rcases h.ending with hend | ⟨-, -, k, rest, rfl, hrest⟩
  · use 0
    match tail, hend with
    | b :: tail, hend =>
      exact ⟨fun j hj => absurd hj (Nat.not_lt_zero j), by omega,
        Or.inl (hholds.1.trans (Option.some.inj hend))⟩
  · use k
    rw [Memory.holds_append, List.length_replicate] at hholds
    obtain ⟨hzeros, hholds⟩ := hholds
    rw [List.length_append, List.length_replicate] at hlen
    refine ⟨?_, ?_, ?_⟩
    · intro j hj
      rw [Memory.holds_iff_getElem.mp hzeros j (by rwa [List.length_replicate])]
      apply List.getElem_replicate
    · have : 0 < rest.length := by
        apply List.length_pos_iff.mpr
        rintro rfl
        rcases hrest with hrest | ⟨code, size, rest, hrest, -⟩
        · cases hrest
        · cases hrest
      omega
    · rcases hrest with hrest | ⟨code, size, bytes, rfl, hpad, hend, hlt⟩
      · match rest, hrest with
        | b :: rest, hrest => exact Or.inl (hholds.1.trans (Option.some.inj hrest))
      · obtain ⟨hcode, hsize, -⟩ := hholds
        rw [List.length_cons, List.length_cons] at hlen
        refine Or.inr ⟨by rwa [hcode], by rwa [hcode], by omega, ?_⟩
        rw [after, hsize]
        omega

/-- The options of the packet are those of the list. -/
theorem isOption_iff (h : Readable mem len os tail) (p : ℕ) :
  IsOption mem len p ↔ ∃ o, IsPlace os o p
  := by
  have hlisted := h.listed
  constructor
  · rintro ⟨hreaches, hpad, hend, hafter⟩
    rcases hlisted.follows_rfc.cases trivial rfl hreaches with
      ⟨before, o, rest, hsplit, hp, -⟩ | ⟨u, -, hu, ht⟩
    · exact ⟨o, before, rest, hsplit, hp⟩
    · obtain ⟨k, hk⟩ := h.endsAt
      obtain rfl : u = bpOptions + (encode os).length := hu
      obtain ⟨j, hj, rfl⟩ := hk.rfc ht
      exact absurd ⟨hpad, hend, by omega⟩ (hk.not_option hj)
  · rintro ⟨o, before, rest, hsplit, rfl⟩
    obtain ⟨u, hu, -, hpos⟩ := hlisted.follows_rfc.reaches trivial rfl hsplit
    obtain rfl : u = bpOptions + (encode before).length := hpos
    obtain ⟨hcode, -, hafter, hle⟩ := hlisted.at hsplit
    exact ⟨hu, by rw [hcode]; exact o.code_ne_pad, by rw [hcode]; exact o.code_ne_end, by omega⟩

/-- What is read for an option is in its value, but for an address, whose four bytes are in the
packet. -/
theorem value_reads (h : Readable mem len os tail) {before rest : List VendorOption}
    {o : VendorOption} (hsplit : os = before ++ o :: rest) :
  (∀ n ≤ o.value.length, ∀ a ∈ List.range' (bpOptions + (encode before).length + 2) n, a < len)
  ∧ (o.code ∈ addressCodes → ∀ a ∈ longReads (bpOptions + (encode before).length + 2), a < len)
  := by
  have hlen := h.length_eq
  have hle := (h.listed.at hsplit).2.2.2
  have happend := length_encode_append_singleton before o
  constructor
  · intro n hn a ha
    rw [List.mem_range'_1] at ha
    omega
  · intro hcode a ha
    have hsix := h.address before o rest hsplit hcode
    rw [List.length_append] at hsix
    rw [longReads, List.mem_range'_1] at ha
    omega

end Readable

theorem truncateSz_le (maxlen n : ℕ) :
  truncateSz maxlen n ≤ n
  := by
  unfold truncateSz
  split <;> omega

/-- A place in the first cells of a value, or in an address. -/
def InValue (mem : ℕ → Byte) (p a : ℕ) : Prop :=
  (∃ n ≤ (mem (p + 1)).toNat, a ∈ List.range' (p + 2) n)
  ∨ mem p ∈ addressCodes ∧ a ∈ longReads (p + 2)

theorem mem_dhcpOptionReads {mem : ℕ → Byte} {p a : ℕ} (h : a ∈ dhcpOptionReads mem p) :
  a = bpFile ∨ InValue mem p a
  := by
  have htext : ∀ maxlen, a ∈ List.range' (p + 2) (truncateSz maxlen (mem (p + 1)).toNat) →
      InValue mem p a :=
    fun maxlen ha => Or.inl ⟨_, truncateSz_le maxlen _, ha⟩
  unfold dhcpOptionReads at h
  dsimp only at h
  split at h
  case h_4 => exact Or.inr (htext 32 h)
  case h_5 => exact Or.inr (htext 64 h)
  case h_8 =>
    rcases List.mem_cons.mp h with h | h
    · exact Or.inl h
    · split at h
      · exact Or.inr (htext 128 h)
      · cases h
  case h_9 => cases h
  all_goals
    rename_i hcode
    exact Or.inr (Or.inr ⟨by rw [hcode]; decide, h⟩)

theorem mem_vendorFieldReads {c : Vendor} {mem : ℕ → Byte} {p a : ℕ}
    (h : a ∈ vendorFieldReads c mem p) :
  InValue mem p a
  := by
  have htext : ∀ (b : Byte) (maxlen : ℕ),
      (a ∈ if b = 0 then List.range' (p + 2) (truncateSz maxlen (mem (p + 1)).toNat) else []) →
      InValue mem p a := by
    intro b maxlen ha
    split at ha
    · exact Or.inl ⟨_, truncateSz_le maxlen _, ha⟩
    · cases ha
  have haddress : ∀ w : Word, mem p ∈ addressCodes →
      (a ∈ if w = 0 then longReads (p + 2) else []) → InValue mem p a := by
    intro w hcode ha
    split at ha
    · exact Or.inr ⟨hcode, ha⟩
    · cases ha
  unfold vendorFieldReads at h
  dsimp only at h
  split at h
  case h_1 hcode => exact haddress _ (by rw [hcode]; decide) h
  case h_2 hcode => exact haddress _ (by rw [hcode]; decide) h
  case h_3 hcode => exact haddress _ (by rw [hcode]; decide) h
  case h_4 => exact htext _ 32 h
  case h_5 =>
    split at h
    case isTrue h2 => exact Or.inl ⟨2, h2.ge, h⟩
    case isFalse =>
      split at h
      case isTrue h4 => exact Or.inl ⟨4, h4.ge, h⟩
      case isFalse => cases h
  case h_6 => exact htext _ 64 h
  case h_7 => exact htext _ 32 h
  case h_8 => cases h

namespace Readable

variable {mem : ℕ → Byte} {len : ℕ} {os : List VendorOption} {tail : List Byte}

theorem inValue_lt (h : Readable mem len os tail) {before rest : List VendorOption}
    {o : VendorOption} (hsplit : os = before ++ o :: rest) {a : ℕ}
    (ha : InValue mem (bpOptions + (encode before).length) a) :
  a < len
  := by
  obtain ⟨hcode, hsize, -⟩ := h.listed.at hsplit
  obtain ⟨hvalue, haddress⟩ := h.value_reads hsplit
  rcases ha with ⟨n, hn, ha⟩ | ⟨hmem, ha⟩
  · exact hvalue n (by omega) a ha
  · rw [hcode] at hmem
    exact haddress hmem a ha

/-! ### The three walks in such packets -/

/-- `DhcpOptionsProcess` ends after the options. -/
theorem optionsNext_end (h : Readable mem len os tail) {u : OptionsState} (hsame : SameOptions mem u)
    (hu : u.popt = bpOptions + (encode os).length) :
  optionsNext u = none ∧ ∀ a ∈ optionsReads u, a < len
  := by
  have hlen := h.length_eq
  have hpos := h.tail_ne_nil
  rw [optionsNext, optionsReads]
  rcases h.ending with hend | ⟨hle, -, -⟩
  · have h255 : u.mem u.popt = 0xff := by
      rw [hsame _ (by rw [hu, bpOptions]; omega), hu]
      have hholds := h.holds_tail
      cases tail with
      | nil => cases hend
      | cons b tail => exact hholds.1.trans (Option.some.inj hend)
    constructor
    · rw [if_neg (fun hgoes => hgoes.2 h255)]
    · intro a ha
      rw [if_neg (not_not.mpr h255)] at ha
      split at ha
      · rw [List.mem_singleton.mp ha, hu]
        omega
      · cases ha
  · have hge : optionsEnd ≤ u.popt := by
      rw [hu, optionsEnd]
      omega
    rw [if_neg (fun hgoes => absurd hgoes.1 (not_lt.mpr hge)), if_neg (not_lt.mpr hge)]
    exact ⟨rfl, fun a ha => absurd ha List.not_mem_nil⟩

/-- Where `DhcpOptionsProcess` comes to. -/
theorem optionsState_cases (h : Readable mem len os tail) {c : Client} {s : OptionsState}
    (hs : Reaches optionsNext ⟨bpOptions, c, mem⟩ s) :
  SameOptions mem s ∧ ((∃ before o rest, os = before ++ o :: rest
      ∧ s.popt = bpOptions + (encode before).length)
    ∨ optionsNext s = none ∧ ∀ a ∈ optionsReads s, a < len)
  := by
  have hsame : SameOptions mem ⟨bpOptions, c, mem⟩ := fun _ _ => rfl
  rcases (h.listed.follows_options h.starts).cases hsame rfl hs with
    ⟨before, o, rest, hsplit, hpos, hsame⟩ | ⟨u, hsame, hpos, hu⟩
  · exact ⟨hsame, Or.inl ⟨before, o, rest, hsplit, hpos⟩⟩
  · have hend := h.optionsNext_end hsame hpos
    rcases Relation.ReflTransGen.cases_head hu with rfl | ⟨v, hv, -⟩
    · exact ⟨hsame, Or.inr hend⟩
    · rw [hend.1] at hv
      cases hv

theorem optionsFound_iff (h : Readable mem len os tail) (c : Client) (p : ℕ) :
  OptionsFound c mem p ↔ ∃ o, IsPlace os o p
  := by
  constructor
  · rintro ⟨s, hs, rfl, hlt, hne⟩
    obtain ⟨-, ⟨before, o, rest, hsplit, hpos⟩ | ⟨hnone, -⟩⟩ := h.optionsState_cases hs
    · exact ⟨o, before, rest, hsplit, hpos⟩
    · rw [optionsNext, if_pos ⟨hlt, hne⟩] at hnone
      cases hnone
  · rintro ⟨o, before, rest, hsplit, rfl⟩
    have hsame : SameOptions mem ⟨bpOptions, c, mem⟩ := fun _ _ => rfl
    obtain ⟨u, hu, hsame, hpos⟩ := (h.listed.follows_options h.starts).reaches hsame rfl hsplit
    obtain ⟨hcode, -⟩ := h.listed.at hsplit
    have hstart := h.starts before o rest hsplit
    refine ⟨u, hu, hpos, by rw [optionsEnd]; omega, ?_⟩
    rw [hsame _ (by rw [bpOptions]; omega), hcode]
    exact o.code_ne_end

theorem options_reads (h : Readable mem len os tail) {c : Client} {s : OptionsState}
    (hs : Reaches optionsNext ⟨bpOptions, c, mem⟩ s) :
  ∀ a ∈ optionsReads s, a < len
  := by
  obtain ⟨hsame, ⟨before, o, rest, hsplit, hpos⟩ | ⟨-, hreads⟩⟩ := h.optionsState_cases hs
  · have hle := (h.listed.at hsplit).2.2.2
    have happend := length_encode_append_singleton before o
    intro a ha
    rw [optionsReads] at ha
    split at ha
    case isFalse => cases ha
    case isTrue =>
      rcases List.mem_cons.mp ha with rfl | ha
      · omega
      · split at ha
        case isFalse => cases ha
        case isTrue =>
          rcases List.mem_cons.mp ha with rfl | ha
          · omega
          · rcases mem_dhcpOptionReads ha with rfl | ha
            · rw [bpOptions, bpVend] at hle
              rw [bpFile]
              omega
            · apply h.inValue_lt hsplit
              rw [← hpos]
              have hvend : bpVend ≤ s.popt := by
                rw [hpos, bpOptions]
                omega
              rwa [InValue, hsame _ hvend, hsame _ (by omega)] at ha
  · exact hreads

/-- Where `BootpVendorProcess` comes to. -/
theorem vendorState_cases (h : Readable mem len os tail) {v : Vendor} {s : VendorState}
    (hs : Reaches (vendorNext mem (bpOptions + len)) ⟨bpOptions, v⟩ s) :
  (∃ before o rest, os = before ++ o :: rest ∧ s.ext = bpOptions + (encode before).length)
  ∨ ∃ q k, EndsAt mem len q k ∧ ((∃ j ≤ k, s.ext = q + j) ∨ bpOptions + len < s.ext)
  := by
  rcases h.listed.follows_vendor.cases trivial rfl hs with
    ⟨before, o, rest, hsplit, hpos, -⟩ | ⟨u, -, hpos, hu⟩
  · exact Or.inl ⟨before, o, rest, hsplit, hpos⟩
  · obtain ⟨k, hk⟩ := h.endsAt
    exact Or.inr ⟨_, k, hk, hk.vendor hpos hu⟩

theorem vendorFound_iff (h : Readable mem len os tail) (v : Vendor) (p : ℕ) :
  VendorFound v mem len p ↔ ∃ o, IsPlace os o p
  := by
  constructor
  · rintro ⟨s, hs, rfl, hlt, hpad, hend, hafter⟩
    rcases h.vendorState_cases hs with ⟨before, o, rest, hsplit, hpos⟩ | ⟨q, k, hk, hor⟩
    · exact ⟨o, before, rest, hsplit, hpos⟩
    · rcases hor with ⟨j, hj, hpos⟩ | hgt
      · rw [hpos] at hpad hend hafter
        exact absurd ⟨hpad, hend, hafter⟩ (hk.not_option hj)
      · omega
  · rintro ⟨o, before, rest, hsplit, rfl⟩
    obtain ⟨u, hu, -, hpos⟩ := h.listed.follows_vendor.reaches trivial
      (s := ⟨bpOptions, v⟩) rfl hsplit
    obtain ⟨hcode, -, hafter, hle⟩ := h.listed.at hsplit
    have happend := length_encode_append_singleton before o
    exact ⟨u, hu, hpos, by omega, by rw [hcode]; exact o.code_ne_pad,
      by rw [hcode]; exact o.code_ne_end, by omega⟩

theorem vendor_reads (h : Readable mem len os tail) {v : Vendor} {s : VendorState}
    (hs : Reaches (vendorNext mem (bpOptions + len)) ⟨bpOptions, v⟩ s) :
  ∀ a ∈ vendorReads mem (bpOptions + len) s, a < len
  := by
  intro a ha
  rw [vendorReads] at ha
  split at ha
  case isFalse => cases ha
  case isTrue hstop =>
    rcases h.vendorState_cases hs with ⟨before, o, rest, hsplit, hpos⟩ | ⟨q, k, hk, hor⟩
    · have hle := (h.listed.at hsplit).2.2.2
      have happend := length_encode_append_singleton before o
      rcases List.mem_cons.mp ha with rfl | ha
      · omega
      · split at ha
        case isTrue => cases ha
        case isFalse =>
          rcases List.mem_cons.mp ha with rfl | ha
          · omega
          · split at ha
            case isFalse => cases ha
            case isTrue =>
              apply h.inValue_lt hsplit
              rw [← hpos]
              exact mem_vendorFieldReads ha
    · rcases hor with ⟨j, hj, hpos⟩ | hgt
      · have hlt := hk.lt
        rcases List.mem_cons.mp ha with rfl | ha
        · omega
        · split at ha
          case isTrue => cases ha
          case isFalse hne =>
            rw [not_or, hpos] at hne
            have hno : ¬ after mem s.ext ≤ bpOptions + len := by
              intro hafter
              rw [hpos] at hafter
              exact hk.not_option hj ⟨hne.2, hne.1, hafter⟩
            rw [if_neg hno, List.mem_singleton] at ha
            rcases Nat.lt_or_eq_of_le hj with hj | rfl
            · exact absurd (hk.zeros j hj) hne.2
            · rcases hk.last with hlast | ⟨-, -, hlast, -⟩
              · exact absurd hlast hne.1
              · omega
      · omega

/-! ### The scan for the type of the message -/

/-- An option is before another one if its place is. -/
theorem before_iff (h : Readable mem len os tail) {before rest : List VendorOption}
    {o : VendorOption} (hsplit : os = before ++ o :: rest) :
  (∀ q < bpOptions + (encode before).length, IsOption mem len q → mem q ≠ 53)
    ↔ ∀ o' ∈ before, o'.code ≠ 53
  := by
  constructor
  · intro hall o' ho'
    obtain ⟨b, r, rfl⟩ := List.append_of_mem ho'
    have hsplit' : os = b ++ o' :: (r ++ o :: rest) := by
      rw [hsplit, List.append_assoc, List.cons_append]
    have hcode := (h.listed.at hsplit').1
    rw [← hcode]
    apply hall
    · rw [encode_append, encode_cons, List.length_append, List.length_append,
        VendorOption.length_bytes]
      omega
    · exact (h.isOption_iff _).mpr ⟨o', b, _, hsplit', rfl⟩
  · intro hall q hq hoption
    obtain ⟨o', b, r, hsplit', rfl⟩ := (h.isOption_iff q).mp hoption
    rw [(h.listed.at hsplit').1]
    apply hall
    rw [hsplit] at hsplit'
    rcases List.append_eq_append_iff.mp hsplit' with ⟨c, rfl, hc⟩ | ⟨c, rfl, hc⟩
    · rw [encode_append, List.length_append] at hq
      omega
    · cases c with
      | nil =>
        rw [List.append_nil] at hq
        omega
      | cons o'' c =>
        rw [List.cons_append, List.cons.injEq] at hc
        rw [hc.1]
        simp

end Readable

/-- The options of the list that the scan goes through, and where it ends: at the end of all
options, or at the first one with the type. -/
structure Scan (mem : ℕ → Byte) (len : ℕ) (os scanned : List VendorOption) : Prop where
  listed : Listed mem len scanned
  code_ne : ∀ o ∈ scanned, o.code ≠ 53
  lt : bpOptions + (encode scanned).length < len
  ending : mem (bpOptions + (encode scanned).length) = 0xff ∧ scanned = os
    ∨ ∃ o rest, os = scanned ++ o :: rest ∧ o.code = 53

namespace Readable

variable {mem : ℕ → Byte} {len : ℕ} {os : List VendorOption} {tail : List Byte}

theorem exists_scan (h : Readable mem len os tail) :
  ∃ scanned, Scan mem len os scanned
  := by
  have hlen := h.length_eq
  have hpos := h.tail_ne_nil
  cases hfind : os.find? fun o => o.code = 53 with
  | none =>
    have hne : ∀ o ∈ os, o.code ≠ 53 := by simpa using hfind
    have hend : tail.head? = some 255 := by
      rcases h.ending with hend | ⟨-, ⟨o, ho, hcode⟩, -⟩
      · exact hend
      · exact absurd hcode (hne o ho)
    refine ⟨os, h.listed, hne, by omega, Or.inl ⟨?_, rfl⟩⟩
    match tail, hend, h.holds_tail with
    | b :: tail, hend, hholds => exact hholds.1.trans (Option.some.inj hend)
  | some o =>
    obtain ⟨hcode, before, rest, hsplit, hne⟩ := List.find?_eq_some_iff_append.mp hfind
    obtain ⟨-, -, -, hle⟩ := h.listed.at hsplit
    have happend := length_encode_append_singleton before o
    have hholds := h.listed.holds
    rw [hsplit, encode_append, Memory.holds_append] at hholds
    exact ⟨before, ⟨hholds.1, by omega⟩, by simpa using hne, by omega,
      Or.inr ⟨o, rest, hsplit, by simpa using hcode⟩⟩

end Readable

namespace Scan

variable {mem : ℕ → Byte} {len : ℕ} {os scanned : List VendorOption} {tail : List Byte}

theorem next_end (h : Scan mem len os scanned) (hr : Readable mem len os tail) :
  messageNext mem (bpOptions + (encode scanned).length) = none
  := by
  rw [messageNext, if_pos]
  rcases h.ending with ⟨hend, -⟩ | ⟨o, rest, hsplit, hcode⟩
  · exact Or.inl hend
  · rw [(hr.listed.at hsplit).1]
    exact Or.inr hcode

theorem reaches (h : Scan mem len os scanned) {before rest : List VendorOption}
    (hsplit : scanned = before ++ rest) :
  Reaches (messageNext mem) bpOptions (bpOptions + (encode before).length)
  := by
  obtain ⟨u, hu, -, hpos⟩ := (h.listed.follows_message h.code_ne).reaches trivial rfl hsplit
  obtain rfl : u = bpOptions + (encode before).length := hpos
  exact hu

theorem cases (h : Scan mem len os scanned) (hr : Readable mem len os tail) {p : ℕ}
    (hp : Reaches (messageNext mem) bpOptions p) :
  (∃ o, IsPlace scanned o p) ∨ p = bpOptions + (encode scanned).length
  := by
  rcases (h.listed.follows_message h.code_ne).cases trivial rfl hp with
    ⟨before, o, rest, hsplit, hpos, -⟩ | ⟨u, -, hpos, hu⟩
  · exact Or.inl ⟨o, before, rest, hsplit, hpos⟩
  · obtain rfl : u = bpOptions + (encode scanned).length := hpos
    rcases Relation.ReflTransGen.cases_head hu with rfl | ⟨v, hv, -⟩
    · exact Or.inr rfl
    · rw [h.next_end hr] at hv
      cases hv

/-- The options that are scanned are the first ones. -/
theorem exists_eq_append (h : Scan mem len os scanned) :
  ∃ rest, os = scanned ++ rest
  := by
  rcases h.ending with ⟨-, rfl⟩ | ⟨o, rest, hsplit, -⟩
  · exact ⟨[], (List.append_nil _).symm⟩
  · exact ⟨o :: rest, hsplit⟩

theorem messageFound_iff (h : Scan mem len os scanned) (hr : Readable mem len os tail) (p : ℕ) :
  MessageFound mem p ↔ IsOption mem len p ∧ ∀ q < p, IsOption mem len q → mem q ≠ 53
  := by
  constructor
  · rintro ⟨hp, hne⟩
    rcases h.cases hr hp with ⟨o, before, rest, hsplit, rfl⟩ | rfl
    · obtain ⟨rest', hos⟩ := h.exists_eq_append
      rw [hsplit, List.append_assoc, List.cons_append] at hos
      refine ⟨(hr.isOption_iff _).mpr ⟨o, before, _, hos, rfl⟩, (hr.before_iff hos).mpr ?_⟩
      intro o' ho'
      apply h.code_ne
      rw [hsplit]
      exact List.mem_append_left _ ho'
    · rcases h.ending with ⟨hend, -⟩ | ⟨o, rest, hsplit, -⟩
      · exact absurd hend hne
      · exact ⟨(hr.isOption_iff _).mpr ⟨o, scanned, rest, hsplit, rfl⟩,
          (hr.before_iff hsplit).mpr h.code_ne⟩
  · rintro ⟨hoption, hbefore⟩
    obtain ⟨o, before, rest, hsplit, rfl⟩ := (hr.isOption_iff p).mp hoption
    rw [hr.before_iff hsplit] at hbefore
    refine ⟨?_, hoption.2.2.1⟩
    rcases h.ending with ⟨-, hos⟩ | ⟨o', rest', hos, hcode⟩
    · have hscanned : scanned = before ++ o :: rest := by rw [hos, hsplit]
      exact h.reaches hscanned
    · rw [hsplit] at hos
      rcases List.append_eq_append_iff.mp hos with ⟨c, hscanned, -⟩ | ⟨c, hc, ho'⟩
      · exact h.reaches hscanned
      · cases c with
        | nil =>
          rw [List.append_nil] at hc
          have hscanned : scanned = before ++ [] := by rw [hc, List.append_nil]
          exact h.reaches hscanned
        | cons o'' c =>
          rw [List.cons_append, List.cons.injEq] at ho'
          apply absurd hcode
          apply hbefore
          rw [hc, ho'.1]
          simp

theorem message_reads (h : Scan mem len os scanned) (hr : Readable mem len os tail) {p : ℕ}
    (hp : Reaches (messageNext mem) bpOptions p) :
  ∀ a ∈ messageReads mem p, a < len
  := by
  have hlt := h.lt
  intro a ha
  rw [messageReads] at ha
  rcases h.cases hr hp with ⟨o, before, rest, hsplit, rfl⟩ | rfl
  · obtain ⟨hcode, -, -, hle⟩ := h.listed.at hsplit
    have happend := length_encode_append_singleton before o
    have hne : o.code ≠ 53 := by
      apply h.code_ne
      rw [hsplit]
      simp
    rw [hcode, if_neg o.code_ne_end, if_neg hne] at ha
    simp at ha
    omega
  · rcases h.ending with ⟨hend, -⟩ | ⟨o, rest, hsplit, hcode⟩
    · rw [if_pos hend] at ha
      rw [List.mem_singleton.mp ha]
      exact hlt
    · obtain ⟨hmem, -, -, hle⟩ := hr.listed.at hsplit
      have happend := length_encode_append_singleton scanned o
      have hvalue := List.length_pos_iff.mpr (hr.type scanned o rest hsplit h.code_ne hcode)
      rw [hmem, hcode, if_neg (by decide), if_pos rfl] at ha
      simp at ha
      omega

end Scan

/-- The packet is read as it should be. -/
theorem interprets_of_readable (c : Client) (v : Vendor) {mem : ℕ → Byte} {len : ℕ}
    (hlen : bpOptions ≤ len) (h : HasOptions mem → ∃ os tail, Readable mem len os tail) :
  Interprets c v mem len
  := by
  constructor
  · intro a ha
    rw [longReads, List.mem_range'_1] at ha
    rw [bpOptions] at hlen
    omega
  · intro hoptions p
    obtain ⟨os, tail, hr⟩ := h hoptions
    exact (hr.optionsFound_iff c p).trans (hr.isOption_iff p).symm
  · intro hoptions s hs
    obtain ⟨os, tail, hr⟩ := h hoptions
    exact hr.options_reads hs
  · intro hoptions
    obtain ⟨os, tail, hr⟩ := h hoptions
    obtain ⟨scanned, hscan⟩ := hr.exists_scan
    obtain ⟨n, hn⟩ := Walk.exists_run (hscan.reaches (List.append_nil _).symm) (hscan.next_end hr)
    exact ⟨n, Option.isSome_iff_exists.mpr ⟨_, hn⟩⟩
  · intro hoptions p
    obtain ⟨os, tail, hr⟩ := h hoptions
    obtain ⟨scanned, hscan⟩ := hr.exists_scan
    exact hscan.messageFound_iff hr p
  · intro hoptions p hp htype
    obtain ⟨os, tail, hr⟩ := h hoptions
    obtain ⟨scanned, hscan⟩ := hr.exists_scan
    obtain ⟨hoption, hbefore⟩ := (hscan.messageFound_iff hr p).mp hp
    obtain ⟨o, before, rest, hsplit, rfl⟩ := (hr.isOption_iff p).mp hoption
    obtain ⟨hcode, hsize, -⟩ := hr.listed.at hsplit
    have hvalue := hr.type before o rest hsplit ((hr.before_iff hsplit).mp hbefore)
      (hcode.symm.trans htype)
    intro hzero
    apply hvalue
    rw [hzero] at hsize
    exact List.length_eq_zero_iff.mp hsize.symm
  · intro hoptions p hp
    obtain ⟨os, tail, hr⟩ := h hoptions
    obtain ⟨scanned, hscan⟩ := hr.exists_scan
    exact hscan.message_reads hr hp
  · intro hoptions p
    obtain ⟨os, tail, hr⟩ := h hoptions
    exact (hr.vendorFound_iff v p).trans (hr.isOption_iff p).symm
  · intro hoptions s hs
    obtain ⟨os, tail, hr⟩ := h hoptions
    exact hr.vendor_reads hs

/-! ### Packets that are read as they should be -/

/-- The option at a place. -/
theorem exists_option {mem : ℕ → Byte} {p : ℕ} (hpad : mem p ≠ 0) (hend : mem p ≠ 0xff) :
  ∃ o : VendorOption, Memory.Holds mem p o.bytes ∧ o.code = mem p
    ∧ after mem p = p + (o.value.length + 2)
  := by
  refine ⟨⟨mem p, Memory.read mem (p + 2) (mem (p + 1)).toNat, hpad, hend, ?_⟩, ⟨rfl, ?_, ?_⟩, rfl, ?_⟩
  · rw [Memory.length_read]
    apply UInt8.toNat_lt
  · rw [Memory.length_read, UInt8.ofNat_toNat]
  · apply Memory.holds_read
  · rw [Memory.length_read, after, Nat.add_assoc]

theorem dhcpOptionReads_of_address {mem : ℕ → Byte} {p : ℕ} (h : mem p ∈ addressCodes) :
  dhcpOptionReads mem p = longReads (p + 2)
  := by
  unfold dhcpOptionReads
  dsimp only
  generalize mem p = code at h
  simp only [addressCodes, List.mem_cons, List.not_mem_nil, or_false] at h
  rcases h with rfl | rfl | rfl | rfl | rfl <;> rfl

/-- The options that `DhcpOptionsProcess` has passed. -/
structure Passed (mem : ℕ → Byte) (len p : ℕ) (os : List VendorOption) : Prop where
  listed : Listed mem len os
  eq : p = bpOptions + (encode os).length
  starts : ∀ before o rest, os = before ++ o :: rest → (encode before).length < bootpHdrSize
  address : ∀ before o rest, os = before ++ o :: rest → o.code ∈ addressCodes →
    bpOptions + (encode before).length + 6 ≤ len

/-- What is known of the options of a list is known with one more option if it is known of it. -/
theorem forall_append_singleton {os : List VendorOption} {o : VendorOption}
    {P : List VendorOption → VendorOption → Prop}
    (h : ∀ before o' rest, os = before ++ o' :: rest → P before o') (ho : P os o) :
  ∀ before o' rest, os ++ [o] = before ++ o' :: rest → P before o'
  := by
  intro before o' rest hsplit
  cases rest using List.reverseRecOn with
  | nil =>
    obtain ⟨rfl, hlast⟩ := List.append_inj' hsplit rfl
    obtain rfl := List.singleton_inj.mp hlast
    exact ho
  | append_singleton rest last =>
    rw [← List.cons_append, ← List.append_assoc] at hsplit
    obtain ⟨hsplit, -⟩ := List.append_inj' hsplit rfl
    exact h before o' rest hsplit

theorem Interprets.passed {c : Client} {v : Vendor} {mem : ℕ → Byte} {len : ℕ}
    (h : Interprets c v mem len) (hoptions : HasOptions mem) {s : OptionsState}
    (hs : Reaches optionsNext ⟨bpOptions, c, mem⟩ s) :
  SameOptions mem s ∧ ∃ os, Passed mem len s.popt os
  := by
  induction hs with
  | refl =>
    have hmagic := h.magic (bpVend + 3) (by simp [longReads])
    refine ⟨fun _ _ => rfl, [], ⟨trivial, ?_⟩, rfl, by simp, by simp⟩
    rw [encode, List.flatMap_nil, List.length_nil, bpOptions]
    omega
  | @tail s u hs hu ih =>
    obtain ⟨hsame, os, hpassed⟩ := ih
    have heq := hpassed.eq
    have hvend : bpVend ≤ s.popt := by
      rw [heq, bpOptions]
      omega
    rw [Option.mem_def, optionsNext] at hu
    split at hu
    case isFalse => cases hu
    case isTrue hgoes =>
      obtain rfl := Option.some.inj hu
      obtain ⟨-, hpad, hend, hafter⟩ :=
        (h.options hoptions s.popt).mp ⟨s, hs, rfl, hgoes.1, hgoes.2⟩
      obtain ⟨o, hholds, hcode, hlen⟩ := exists_option hpad hend
      have happend := length_encode_append_singleton os o
      have hstart := hgoes.1
      rw [optionsEnd] at hstart
      refine ⟨?_, os ++ [o], ⟨?_, by omega⟩, ?_, ?_, ?_⟩
      · intro q hq
        exact (dhcpOption_mem _ _ _ q hq).trans (hsame q hq)
      · rw [encode_append, Memory.holds_append, encode_singleton, ← heq]
        exact ⟨hpassed.listed.holds, hholds⟩
      · dsimp only
        rw [hsame _ (by omega), happend, ← Nat.add_assoc, ← heq, ← hlen]
        rfl
      · apply forall_append_singleton (P := fun before _ => (encode before).length < bootpHdrSize)
          hpassed.starts
        omega
      · apply forall_append_singleton (P := fun before o' => o'.code ∈ addressCodes →
          bpOptions + (encode before).length + 6 ≤ len) hpassed.address
        intro haddress
        have hreads := h.options_reads hoptions s hs
        rw [optionsReads, if_pos hgoes.1, if_pos hgoes.2, dhcpOptionReads_of_address] at hreads
        · have := hreads (s.popt + 5) (by simp [longReads])
          omega
        · rwa [hsame _ hvend, ← hcode]

/-- `BootpVendorProcess` comes to the end of the packet's options, if it is not where
`DhcpOptionsProcess` looks for options. -/
theorem Interprets.ending {c : Client} {v : Vendor} {mem : ℕ → Byte} {len : ℕ}
    (h : Interprets c v mem len) (hoptions : HasOptions mem) {n x : ℕ} (hn : len - x = n)
    (hx : x ≤ len) (hge : optionsEnd ≤ x) {s : VendorState}
    (hs : Reaches (vendorNext mem (bpOptions + len)) ⟨bpOptions, v⟩ s) (hsx : s.ext = x) :
  Ending (len + bpOptions - x) (Memory.read mem x n)
  := by
  have hpos : 0 < bpOptions := by decide
  induction n generalizing x s with
  | zero =>
    have hread := h.vendor_reads hoptions s hs s.ext
    rw [vendorReads, if_pos (by omega)] at hread
    have := hread List.mem_cons_self
    omega
  | succ n ih =>
    rw [Memory.read]
    by_cases hend : mem x = 0xff
    · exact ⟨0, mem x :: Memory.read mem (x + 1) n, rfl, Or.inl (congrArg some hend)⟩
    · have hgoes : s.ext < bpOptions + len ∧ mem s.ext ≠ 0xff := by
        rw [hsx]
        exact ⟨by omega, hend⟩
      by_cases hpad : mem x = 0
      · have hnext : vendorNext mem (bpOptions + len) s = some { s with ext := s.ext + 1 } := by
          rw [vendorNext, if_pos hgoes, hsx, if_pos hpad]
        obtain ⟨k, rest, hrest, hor⟩ := ih (x := x + 1) (by omega) (by omega) (by omega)
          (hs.tail hnext) (by rw [hsx])
        refine ⟨k + 1, rest, ?_, ?_⟩
        · rw [hrest, hpad, List.replicate_succ, List.cons_append]
        · rwa [show len + bpOptions - x - (k + 1) = len + bpOptions - (x + 1) - k by omega]
      · have hreads := h.vendor_reads hoptions s hs
        rw [vendorReads, if_pos hgoes.1, hsx, if_neg (not_or.mpr ⟨hend, hpad⟩)] at hreads
        have hlt := hreads (x + 1) (by simp)
        have hafter : bpOptions + len < after mem x := by
          by_contra hle
          have hoption := (h.vendor hoptions x).mp
            ⟨s, hs, hsx, by omega, hpad, hend, not_lt.mp hle⟩
          obtain ⟨-, -, -, hstart, -⟩ := (h.options hoptions x).mpr hoption
          omega
        obtain ⟨n, rfl⟩ := Nat.exists_eq_succ_of_ne_zero (show n ≠ 0 by omega)
        rw [Memory.read]
        refine ⟨0, _, rfl, Or.inr ⟨mem x, mem (x + 1), _, rfl, hpad, hend, ?_⟩⟩
        rw [after] at hafter
        omega

theorem Interprets.exists_readable {c : Client} {v : Vendor} {mem : ℕ → Byte} {len : ℕ}
    (h : Interprets c v mem len) (hoptions : HasOptions mem) :
  ∃ os tail, Readable mem len os tail
  := by
  obtain ⟨t, ht⟩ := exists_run_optionsNext c mem
  obtain ⟨hreaches, hnone⟩ := Walk.reaches_of_run ht
  obtain ⟨hsame, os, hpassed⟩ := h.passed hoptions hreaches
  have heq := hpassed.eq
  have hlisted := hpassed.listed
  have hle := hlisted.le
  have hsplit : Memory.read mem bpOptions (len - bpOptions)
      = encode os ++ Memory.read mem t.popt (len - t.popt) := by
    rw [show len - bpOptions = (encode os).length + (len - t.popt) by omega, Memory.read_add,
      hlisted.holds.read_eq, ← heq]
  have hfits : (encode os ++ Memory.read mem t.popt (len - t.popt)).length = len - bpOptions := by
    rw [← hsplit, Memory.length_read]
  refine ⟨os, _, hsplit, hpassed.starts, ?_, ?_, ?_⟩
  · intro before o rest hos hcode
    have := hpassed.address before o rest hos hcode
    omega
  · -- the scan comes to the first option with the type
    intro before o rest hos hbefore hcode hnil
    have hholds := hlisted.holds
    obtain ⟨hmem, hsize, -, hle'⟩ := hlisted.at hos
    have happend := length_encode_append_singleton before o
    rw [hos, encode_append, Memory.holds_append] at hholds
    have hlisted' : Listed mem len before := ⟨hholds.1, by omega⟩
    obtain ⟨u, hu, -, hpos⟩ :=
      (hlisted'.follows_message hbefore).reaches trivial rfl (List.append_nil before).symm
    obtain rfl : u = bpOptions + (encode before).length := hpos
    have htype := hmem.trans hcode
    apply h.message_type hoptions _ ⟨hu, by rw [htype]; decide⟩ htype
    rw [hnil] at hsize
    exact UInt8.toNat_inj.mp hsize
  · by_cases hend : t.popt < len ∧ mem t.popt = 0xff
    · left
      obtain ⟨k, hk⟩ := Nat.exists_eq_succ_of_ne_zero (show len - t.popt ≠ 0 by omega)
      rw [hk, Memory.read, hend.2]
      rfl
    · right
      have hvend : bpVend ≤ t.popt := by
        rw [heq, bpOptions]
        omega
      have hge : optionsEnd ≤ t.popt := by
        by_contra hlt
        have hread := h.options_reads hoptions t hreaches t.popt
        rw [optionsReads, if_pos (not_le.mp hlt)] at hread
        apply hend
        refine ⟨hread List.mem_cons_self, ?_⟩
        by_contra hne
        rw [optionsNext, if_pos ⟨not_le.mp hlt, by rwa [hsame _ hvend]⟩] at hnone
        cases hnone
      refine ⟨?_, ?_, ?_⟩
      · rw [optionsEnd] at hge
        omega
      · by_contra hno
        have hne : ∀ o ∈ os, o.code ≠ 53 := by
          intro o ho hcode
          exact hno ⟨o, ho, hcode⟩
        obtain ⟨u, hu, -, hpos⟩ :=
          (hlisted.follows_message hne).reaches trivial rfl (List.append_nil os).symm
        obtain rfl : u = t.popt := hpos.trans heq.symm
        have hlt := h.message_reads hoptions t.popt hu t.popt List.mem_cons_self
        have hoption := ((h.message hoptions t.popt).mp ⟨hu, fun h255 => hend ⟨hlt, h255⟩⟩).1
        obtain ⟨-, -, -, hstart, -⟩ := (h.options hoptions t.popt).mpr hoption
        omega
      · obtain ⟨u, hu, -, hpos⟩ := hlisted.follows_vendor.reaches trivial
          (s := ⟨bpOptions, v⟩) rfl (List.append_nil os).symm
        have hending := h.ending hoptions rfl (by omega) hge hu (hpos.trans heq.symm)
        rwa [show len - (encode os).length = len + bpOptions - t.popt by omega]

/-- The packet is read as it should be if and only if it has 240 bytes and its options, if there are
any, can be read in all three ways. -/
theorem interprets_iff (c : Client) (v : Vendor) (mem : ℕ → Byte) (len : ℕ) :
  Interprets c v mem len ↔
    240 ≤ len ∧ (HasOptions mem → ∃ os tail, Readable mem len os tail)
  := by
  constructor
  · intro h
    have hmagic := h.magic (bpVend + 3) (by simp [longReads])
    exact ⟨hmagic, h.exists_readable⟩
  · rintro ⟨hlen, h⟩
    exact interprets_of_readable c v hlen h

/-- A padding option before the type of the message. -/
def padded : List Byte :=
  List.replicate bpVend 0 ++ bootpVendorMagic ++ [0, 53, 1, 5, 255]

/-- `DhcpOptionsProcess` takes the padding for an option with a length. -/
theorem not_interprets_padded :
  ¬ Interprets newClient unset (fun i => padded.getD i 0) padded.length
  := by
  intro h
  have hoptions : HasOptions fun i => padded.getD i 0 := by
    unfold HasOptions
    decide +kernel
  have hfound : OptionsFound newClient (fun i => padded.getD i 0) bpOptions :=
    ⟨_, Relation.ReflTransGen.refl, rfl, by decide, by decide +kernel⟩
  exact ((h.options hoptions bpOptions).mp hfound).2.1 (by decide +kernel)

end Bootp
