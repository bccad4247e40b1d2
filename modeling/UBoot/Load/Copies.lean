import UBoot.Load.Serial

/-!
# What a line of an S-record file makes `load_serial` do

`srec_decode` takes the number of data bytes from the count field of the line and subtracts the
address and the checksum from it, without a test that they are counted.  The copies that
`load_serial` makes, and the size that it enters into the environment, are as they should be as
long as no line has such a count, and as long as no line without data lies outside the others.
-/

namespace SRecord

/-- The digits of some bytes, in upper or lower case. -/
inductive HexOf : List Byte → List Byte → Prop
  | nil : HexOf [] []
  | cons {c d : Byte} {i j : ℕ} {digits bytes : List Byte} (hc : hex1Bin c = some i)
    (hd : hex1Bin d = some j) (h : HexOf digits bytes) :
    HexOf (c :: d :: digits) (UInt8.ofNat (i * 16 + j) :: bytes)

/-- The first `S` of the line is followed by the type `v` and the digits of some bytes. -/
def Reads (line : List Byte) (v : Byte) (bytes : List Byte) : Prop :=
  ∃ front digits rest, line = front ++ charS :: v :: (digits ++ rest) ∧ charS ∉ front
    ∧ HexOf digits bytes

/-- The line is a record of data: its count field counts the address, the data and the checksum,
which is the complement of the sum of all bytes before it. -/
structure DataRecord (line : List Byte) (type : ℕ) (count : ℤ) (addr : Word) (data : List Byte) :
    Prop where
  read : ∃ v len n address, recordType v = some (type, len) ∧ address.length = len
    ∧ Reads line v (n :: address ++ data ++ [~~~chksum (n :: address ++ data)])
    ∧ n.toNat = len + data.length + 1 ∧ addr = bytesWord address
  count : count = data.length

/-- What `srec_decode` says about a line with data is so. -/
def DecodesSoundly (line : List Byte) : Prop :=
  ∀ type count addr data, type = 1 ∨ type = 2 ∨ type = 3 →
    srecDecode line = .record type count addr data → DataRecord line type count addr data

/-- The line has the type of a record of data, an address, and a right checksum behind that, but
its count field does not count them. -/
def ShortRecord (line : List Byte) : Prop :=
  ∃ v type len n address, recordType v = some (type, len) ∧ (type = 1 ∨ type = 2 ∨ type = 3)
    ∧ address.length = len ∧ Reads line v (n :: address ++ [~~~chksum (n :: address)])
    ∧ n.toNat < len + 1

/-! ### Digits -/

section

variable {n : ℕ} {as bs input rest : List Byte}

theorem hex2Bin_eq_some {b : Byte} :
  hex2Bin input = some (b, rest)
    ↔ ∃ c d i j, input = c :: d :: rest ∧ hex1Bin c = some i ∧ hex1Bin d = some j
      ∧ b = UInt8.ofNat (i * 16 + j)
  := by
  match input with
  | [] => simp [hex2Bin]
  | [_] => simp [hex2Bin]
  | c :: d :: input =>
    simp only [hex2Bin, Option.bind_eq_bind, Option.bind_eq_some_iff, Option.pure_def,
      Option.some.injEq, Prod.mk.injEq, List.cons.injEq]
    constructor
    · rintro ⟨i, hi, j, hj, hb, rfl⟩
      exact ⟨c, d, i, j, ⟨rfl, rfl, rfl⟩, hi, hj, hb.symm⟩
    · rintro ⟨_, _, i, j, ⟨rfl, rfl, rfl⟩, hi, hj, hb⟩
      exact ⟨i, hi, j, hj, hb.symm, rfl⟩

theorem hexBin_succ :
  hexBin (n + 1) input = some (bs, rest)
    ↔ ∃ b mid bs', hex2Bin input = some (b, mid) ∧ hexBin n mid = some (bs', rest)
      ∧ bs = b :: bs'
  := by
  simp only [hexBin, Option.bind_eq_bind, Option.bind_eq_some_iff, Option.pure_def,
    Option.some.injEq, Prod.mk.injEq, Prod.exists]
  constructor
  · rintro ⟨b, mid, hb, bs', _, hbs, rfl, rfl⟩
    exact ⟨b, mid, bs', hb, hbs, rfl⟩
  · rintro ⟨b, mid, bs', hb, hbs, rfl⟩
    exact ⟨b, mid, hb, bs', rest, hbs, rfl, rfl⟩

theorem length_of_hexBin (h : hexBin n input = some (bs, rest)) :
  bs.length = n
  := by
  induction n generalizing input bs with
  | zero =>
    cases h
    rfl
  | succ n ih =>
    obtain ⟨b, mid, bs', -, hbs, rfl⟩ := hexBin_succ.mp h
    rw [List.length_cons, ih hbs]

/-- Bytes are read one part after the other. -/
theorem hexBin_append :
  hexBin (as ++ bs).length input = some (as ++ bs, rest)
    ↔ ∃ mid, hexBin as.length input = some (as, mid) ∧ hexBin bs.length mid = some (bs, rest)
  := by
  rw [List.length_append]
  induction as generalizing input with
  | nil => simp [hexBin]
  | cons a as ih =>
    rw [List.length_cons, Nat.add_right_comm, List.cons_append, hexBin_succ]
    constructor
    · rintro ⟨b, mid, bs', hb, hbs, heq⟩
      obtain ⟨rfl, rfl⟩ := List.cons.inj heq
      obtain ⟨mid', has, hbs⟩ := ih.mp hbs
      exact ⟨mid', hexBin_succ.mpr ⟨a, mid, as, hb, has, rfl⟩, hbs⟩
    · rintro ⟨mid, has, hbs⟩
      obtain ⟨b, mid', as', hb, has, heq⟩ := hexBin_succ.mp has
      obtain ⟨rfl, rfl⟩ := List.cons.inj heq
      exact ⟨a, mid', as ++ bs, hb, ih.mpr ⟨mid, has, hbs⟩, rfl⟩

theorem hexBin_eq_some :
  hexBin bs.length input = some (bs, rest) ↔ ∃ digits, input = digits ++ rest ∧ HexOf digits bs
  := by
  induction bs generalizing input with
  | nil =>
    simp only [List.length_nil, hexBin, Option.some.injEq, Prod.mk.injEq, true_and]
    constructor
    · rintro rfl
      exact ⟨[], rfl, HexOf.nil⟩
    · rintro ⟨_, rfl, ⟨⟩⟩
      rfl
  | cons b bs ih =>
    rw [List.length_cons, hexBin_succ]
    constructor
    · rintro ⟨b', mid, bs', hb, hbs, heq⟩
      obtain ⟨rfl, rfl⟩ := List.cons.inj heq
      obtain ⟨c, d, i, j, rfl, hc, hd, rfl⟩ := hex2Bin_eq_some.mp hb
      obtain ⟨digits, rfl, hdigits⟩ := ih.mp hbs
      exact ⟨c :: d :: digits, rfl, HexOf.cons hc hd hdigits⟩
    · rintro ⟨_, rfl, hdigits⟩
      cases hdigits with
      | cons hc hd hdigits =>
        refine ⟨_, _, bs, hex2Bin_eq_some.mpr ⟨_, _, _, _, rfl, hc, hd, rfl⟩, ?_, rfl⟩
        apply ih.mpr ⟨_, rfl, hdigits⟩

theorem hexBin_one {b : Byte} :
  hexBin 1 input = some ([b], rest) ↔ hex2Bin input = some (b, rest)
  := by
  rw [hexBin_succ]
  constructor
  · rintro ⟨b', mid, bs', hb, hbs, heq⟩
    cases hbs
    obtain ⟨rfl, -⟩ := List.cons.inj heq
    exact hb
  · intro hb
    exact ⟨b, rest, [], hb, rfl, rfl⟩

end

/-! ### Lines -/

section

variable {line : List Byte}

/-- Where the first `S` is. -/
theorem drop_dropWhile_eq {tail : List Byte} (htail : tail ≠ []) :
  (line.dropWhile (· ≠ charS)).drop 1 = tail
    ↔ ∃ front, line = front ++ charS :: tail ∧ charS ∉ front
  := by
  induction line with
  | nil =>
    simp [htail.symm]
  | cons c line ih =>
    by_cases hc : c = charS
    · subst hc
      simp only [List.dropWhile_cons, ne_eq, not_true_eq_false, decide_false, Bool.false_eq_true,
        if_false, List.drop_succ_cons, List.drop_zero]
      constructor
      · rintro rfl
        exact ⟨[], rfl, List.not_mem_nil⟩
      · rintro ⟨front, heq, hfront⟩
        cases front with
        | nil => exact (List.cons.inj heq).2
        | cons d front =>
          obtain ⟨rfl, -⟩ := List.cons.inj heq
          exact absurd List.mem_cons_self hfront
    · simp only [List.dropWhile_cons, ne_eq, hc, not_false_eq_true, decide_true, if_true]
      rw [ih]
      constructor
      · rintro ⟨front, rfl, hfront⟩
        refine ⟨c :: front, rfl, ?_⟩
        intro hmem
        rcases List.mem_cons.mp hmem with h | h
        · exact hc h.symm
        · exact hfront h
      · rintro ⟨front, heq, hfront⟩
        cases front with
        | nil => exact absurd (List.cons.inj heq).1 hc
        | cons d front =>
          obtain ⟨rfl, rfl⟩ := List.cons.inj heq
          exact ⟨front, rfl, fun h => hfront (List.mem_cons_of_mem _ h)⟩

theorem reads_iff {v : Byte} {bytes : List Byte} :
  Reads line v bytes
    ↔ ∃ input rest, (line.dropWhile (· ≠ charS)).drop 1 = v :: input
      ∧ hexBin bytes.length input = some (bytes, rest)
  := by
  constructor
  · rintro ⟨front, digits, rest, rfl, hfront, hdigits⟩
    refine ⟨digits ++ rest, rest, ?_, hexBin_eq_some.mpr ⟨digits, rfl, hdigits⟩⟩
    apply (drop_dropWhile_eq (List.cons_ne_nil _ _)).mpr
    exact ⟨front, rfl, hfront⟩
  · rintro ⟨input, rest, hline, hhex⟩
    obtain ⟨front, rfl, hfront⟩ := (drop_dropWhile_eq (List.cons_ne_nil _ _)).mp hline
    obtain ⟨digits, rfl, hdigits⟩ := hexBin_eq_some.mp hhex
    exact ⟨front, digits, rest, rfl, hfront, hdigits⟩

theorem decodeData_record {type type' : ℕ} {count count' : ℤ} {head data input : List Byte}
    {addr addr' : Word} :
  decodeData type count head addr input = .record type' count' addr' data
    ↔ type' = type ∧ count' = count ∧ addr' = addr ∧ (data.length : ℤ) = count.toNat
      ∧ ∃ mid rest, hexBin data.length input = some (data, mid)
        ∧ hex2Bin mid = some (~~~chksum (head ++ data), rest)
  := by
  rw [decodeData]
  constructor
  · intro h
    split at h
    · cases h
    rename_i bs mid hdata
    split at h
    · cases h
    rename_i v rest hv
    split at h
    · cases h
    rename_i hcksum
    cases h
    have hlength := length_of_hexBin hdata
    refine ⟨rfl, rfl, rfl, by rw [hlength], mid, rest, by rw [hlength, hdata], ?_⟩
    rw [← not_not.mp hcksum]
    exact hv
  · rintro ⟨rfl, rfl, rfl, hlength, mid, rest, hdata, hv⟩
    rw [← Int.natCast_inj.mp hlength, hdata]
    simp only [hv, ne_eq, not_true_eq_false, if_false]

/-- **What `srec_decode` accepts.** -/
theorem srecDecode_record_iff {type : ℕ} {count : ℤ} {addr : Word} {data : List Byte} :
  srecDecode line = .record type count addr data
    ↔ ∃ v len n address, recordType v = some (type, len) ∧ address.length = len
      ∧ Reads line v (n :: address ++ data ++ [~~~chksum (n :: address ++ data)])
      ∧ count = (if type = 5 then 0 else (n.toNat : ℤ) - (len + 1))
      ∧ (data.length : ℤ) = count.toNat ∧ addr = bytesWord address
  := by
  simp only [reads_iff]
  rw [srecDecode]
  have hsplit : ∀ (n v : Byte) (address input rest : List Byte),
      hexBin (n :: address ++ data ++ [v]).length input = some (n :: address ++ data ++ [v], rest)
        ↔ ∃ mid mid' mid'', hex2Bin input = some (n, mid)
          ∧ hexBin address.length mid = some (address, mid')
          ∧ hexBin data.length mid' = some (data, mid'') ∧ hex2Bin mid'' = some (v, rest) := by
    intro n v address input rest
    rw [show n :: address ++ data ++ [v] = [n] ++ (address ++ (data ++ [v])) by simp]
    simp only [hexBin_append, List.length_singleton, hexBin_one]
    constructor
    · rintro ⟨mid, hn, mid', haddress, mid'', hdata, hv⟩
      exact ⟨mid, mid', mid'', hn, haddress, hdata, hv⟩
    · rintro ⟨mid, mid', mid'', hn, haddress, hdata, hv⟩
      exact ⟨mid, hn, mid', haddress, mid'', hdata, hv⟩
  constructor
  · intro h
    split at h
    · cases h
    rename_i v input hline
    split at h
    · cases h
    rename_i n mid hn
    split at h
    · cases h
    rename_i type' len htype
    simp only at h
    split at h
    · cases h
    rename_i address mid' haddress
    obtain ⟨rfl, rfl, rfl, hlength, mid'', rest, hdata, hv⟩ := decodeData_record.mp h
    have hlen := length_of_hexBin haddress
    refine ⟨v, len, n, address, htype, hlen, ⟨input, rest, hline, ?_⟩, rfl, hlength, rfl⟩
    apply (hsplit _ _ _ _ _).mpr
    exact ⟨mid, mid', mid'', hn, by rw [hlen, haddress], hdata, hv⟩
  · rintro ⟨v, len, n, address, htype, hlen, ⟨input, rest, hline, hhex⟩, rfl, hlength, rfl⟩
    obtain ⟨mid, mid', mid'', hn, haddress, hdata, hv⟩ := (hsplit _ _ _ _ _).mp hhex
    rw [hline]
    simp only [hn, htype, ← hlen, haddress]
    apply decodeData_record.mpr
    rw [← hlen] at hlength
    exact ⟨rfl, rfl, rfl, hlength, mid'', rest, hdata, hv⟩

/-- A line whose count field is too small is decoded with a negative count. -/
theorem ShortRecord.decode (h : ShortRecord line) :
  ∃ type count addr, (type = 1 ∨ type = 2 ∨ type = 3)
    ∧ srecDecode line = .record type count addr [] ∧ count < 0
  := by
  obtain ⟨v, type, len, n, address, htype, hdata, hlen, hreads, hshort⟩ := h
  refine ⟨type, n.toNat - (len + 1), bytesWord address, hdata, ?_, by omega⟩
  apply srecDecode_record_iff.mpr
  refine ⟨v, len, n, address, htype, hlen, ?_, by rw [if_neg (by omega)], ?_, rfl⟩
  · rw [List.append_nil]
    exact hreads
  · rw [List.length_nil, Int.toNat_of_nonpos (by omega)]

/-- **A line with data is decoded soundly** unless its count field is too small. -/
theorem decodesSoundly_iff (line : List Byte) :
  DecodesSoundly line ↔ ¬ ShortRecord line
  := by
  constructor
  · intro hsound hshort
    obtain ⟨type, count, addr, hdata, hrecord, hneg⟩ := hshort.decode
    have hcount := (hsound _ _ _ _ hdata hrecord).count
    rw [List.length_nil] at hcount
    omega
  · intro hnot type count addr data hdata hrecord
    obtain ⟨v, len, n, address, htype, hlen, hreads, hcount, hlength, haddr⟩ :=
      srecDecode_record_iff.mp hrecord
    rw [if_neg (by omega)] at hcount
    rcases Nat.lt_or_ge n.toNat (len + 1) with hlt | hge
    · have hnil : data = [] := by
        apply List.eq_nil_of_length_eq_zero
        omega
      subst hnil
      rw [List.append_nil] at hreads
      exact absurd ⟨v, type, len, n, address, htype, hdata, hlen, hreads, hlt⟩ hnot
    · exact ⟨⟨v, len, n, address, htype, hlen, hreads, by omega, haddr⟩, by omega⟩

end

end SRecord

namespace Serial

open SRecord

/-! ### Copies -/

/-- A call of `memcpy`: the line that it is for, where it copies to and how much, and the data. -/
structure Copy where
  line : List Byte
  addr : Word
  len : ℤ
  data : List Byte

/-- How `load_serial` ends: it waits for input, or copies a length that is none, or it returns,
without success or with an address and after it has entered the size into the environment. -/
inductive Exit where
  | waiting
  | crashed
  | failed
  | loaded (ret filesize : Word)

/-- The last address of the data, as the code computes it. -/
def Copy.last (c : Copy) : Word := c.addr + BitVec.ofInt 32 c.len - 1

/-- The copies for a line, with those of the rest. -/
def traceRecord (offset : Word) (next : Word → Word → List Copy × Exit) (startAddr endAddr : Word)
    (line : List Byte) : List Copy × Exit :=
  match srecDecode line with
  | .error _ => ([], .failed)
  | .empty => next startAddr endAddr
  | .record type count addr data =>
    if type = 1 ∨ type = 2 ∨ type = 3 then
      let c : Copy := ⟨line, addr + offset, count, data⟩
      if count < 0 then ([c], .crashed)
      else
        let r := next (if c.addr < startAddr then c.addr else startAddr)
          (if endAddr < c.last then c.last else endAddr)
        (c :: r.1, r.2)
    else if type = 7 ∨ type = 8 ∨ type = 9 then ([], .loaded addr (endAddr - startAddr + 1))
    else next startAddr endAddr

/-- The loop of `load_serial`. -/
def traceLoop (offset : Word) : ℕ → List Arrival → Word → Word → List Copy × Exit
  | 0, _, _, _ => ([], .waiting)
  | fuel + 1, input, startAddr, endAddr =>
    match readRecord srecMaxreclen [] input with
    | none => ([], .waiting)
    | some (none, _) => ([], .failed)
    | some (some line, input) => traceRecord offset (traceLoop offset fuel input) startAddr endAddr line

/-- The copies that `load_serial` makes, and how it ends. -/
def loadTrace (offset : Word) (input : List Arrival) : List Copy × Exit :=
  traceLoop offset (input.length + 1) input (-1) 0

/-- The memory after some copies. -/
def copied (mem : ℕ → Byte) (cs : List Copy) : ℕ → Byte :=
  cs.foldl (fun m c => Memory.store m c.addr.toNat c.data) mem

/-- What is left when `load_serial` ends. -/
def Exit.result (mem : ℕ → Byte) : Exit → Option Loaded
  | .waiting => none
  | .crashed => none
  | .failed => some ⟨-1, mem, none⟩
  | .loaded ret filesize => some ⟨ret, mem, some filesize⟩

theorem loadLoop_eq_trace (offset : Word) (fuel : ℕ) (input : List Arrival) (mem : ℕ → Byte)
    (startAddr endAddr : Word) :
  loadLoop offset fuel input mem startAddr endAddr
    = (traceLoop offset fuel input startAddr endAddr).2.result
      (copied mem (traceLoop offset fuel input startAddr endAddr).1)
  := by
  induction fuel generalizing input mem startAddr endAddr with
  | zero => rfl
  | succ fuel ih =>
    rw [loadLoop, traceLoop]
    generalize readRecord srecMaxreclen [] input = read
    obtain _ | ⟨_ | line, rest⟩ := read
    · rfl
    · rfl
    · simp only [traceRecord, loadRecord]
      cases srecDecode line with
      | empty => apply ih
      | error code => rfl
      | record type count addr data =>
        dsimp only
        split
        · split
          · rfl
          · apply ih
        split
        · rfl
        · apply ih

/-- **The copies are what `load_serial` does to the memory.** -/
theorem loadSerial_eq_trace (offset : Word) (input : List Arrival) (mem : ℕ → Byte) :
  loadSerial offset input mem
    = (loadTrace offset input).2.result (copied mem (loadTrace offset input).1)
  := loadLoop_eq_trace offset _ input mem (-1) 0

/-- The first and the last address, after some copies. -/
def bounds (startAddr endAddr : Word) (cs : List Copy) : Word × Word :=
  cs.foldl (fun b c => (if c.addr < b.1 then c.addr else b.1, if b.2 < c.last then c.last else b.2))
    (startAddr, endAddr)

/-- The copy was made for a line with data. -/
def Copy.FromLine (c : Copy) : Prop :=
  ∃ type addr, (type = 1 ∨ type = 2 ∨ type = 3)
    ∧ srecDecode c.line = .record type c.len addr c.data

theorem traceLoop_spec {offset : Word} {fuel : ℕ} {input : List Arrival} {startAddr endAddr : Word}
    {cs : List Copy} {e : Exit} (h : traceLoop offset fuel input startAddr endAddr = (cs, e)) :
  (∀ c ∈ cs, c.FromLine)
    ∧ ∀ ret filesize, e = .loaded ret filesize → (∀ c ∈ cs, 0 ≤ c.len)
      ∧ filesize = (bounds startAddr endAddr cs).2 - (bounds startAddr endAddr cs).1 + 1
  := by
  induction fuel generalizing input startAddr endAddr cs with
  | zero =>
    cases h
    exact ⟨by simp, nofun⟩
  | succ fuel ih =>
    rw [traceLoop] at h
    split at h
    · cases h
      exact ⟨by simp, nofun⟩
    · cases h
      exact ⟨by simp, nofun⟩
    rename_i line rest _
    rw [traceRecord] at h
    split at h
    · cases h
      exact ⟨by simp, nofun⟩
    · apply ih h
    rename_i type count addr data hdecode
    split at h
    · rename_i hdata
      dsimp only at h
      split at h
      · cases h
        refine ⟨?_, nofun⟩
        intro c hc
        rw [List.mem_singleton.mp hc]
        exact ⟨type, addr, hdata, hdecode⟩
      · rename_i hcount
        obtain ⟨rfl, rfl⟩ := Prod.mk.inj h
        obtain ⟨hfrom, hloaded⟩ := ih rfl
        constructor
        · intro c hc
          rcases List.mem_cons.mp hc with rfl | hc
          · exact ⟨type, addr, hdata, hdecode⟩
          · apply hfrom c hc
        · intro ret filesize he
          obtain ⟨hlen, hsize⟩ := hloaded ret filesize he
          refine ⟨?_, hsize⟩
          intro c hc
          rcases List.mem_cons.mp hc with rfl | hc
          · exact not_lt.mp hcount
          · apply hlen c hc
    split at h
    · cases h
      refine ⟨by simp, ?_⟩
      intro ret filesize he
      cases he
      exact ⟨by simp, rfl⟩
    · apply ih h

/-! ### The size of the file -/

/-- The addresses that something was copied to. -/
def loadedBytes (cs : List Copy) : Set ℕ :=
  {x | ∃ c ∈ cs, ∃ i : ℕ, (i : ℤ) < c.len ∧ x = (c.addr + BitVec.ofNat 32 i).toNat}

/-- The span from the lowest to the highest loaded byte. -/
def IsSpan (cs : List Copy) (size : Word) : Prop :=
  ∃ lo hi, IsLeast (loadedBytes cs) lo ∧ IsGreatest (loadedBytes cs) hi ∧ size.toNat + lo = hi + 1

/-- Something was loaded, but not up to both ends of the address space nor beyond, and the lines
without data lie between or right behind loaded bytes. -/
structure Spanned (cs : List Copy) : Prop where
  some_data : ∃ c ∈ cs, 0 < c.len
  inside : ∀ c ∈ cs, c.addr.toNat + c.len ≤ 2 ^ 32
  empty : ∀ c ∈ cs, c.len = 0 → c.addr.toNat ≠ 0 ∧ (∃ x ∈ loadedBytes cs, x ≤ c.addr.toNat)
    ∧ ∃ x ∈ loadedBytes cs, c.addr.toNat ≤ x + 1
  not_all : ¬ (0 ∈ loadedBytes cs ∧ 2 ^ 32 - 1 ∈ loadedBytes cs)

section

variable {cs : List Copy} {c : Copy}

theorem bounds_fst (s e : Word) (cs : List Copy) :
  (∀ c ∈ cs, (bounds s e cs).1.toNat ≤ c.addr.toNat) ∧ (bounds s e cs).1.toNat ≤ s.toNat
    ∧ ((bounds s e cs).1 = s ∨ ∃ c ∈ cs, (bounds s e cs).1 = c.addr)
  := by
  induction cs generalizing s e with
  | nil => exact ⟨by simp, Nat.le_refl _, .inl rfl⟩
  | cons c cs ih =>
    have hmin : ∀ s', s' = (if c.addr < s then c.addr else s) →
        s'.toNat ≤ c.addr.toNat ∧ s'.toNat ≤ s.toNat ∧ (s' = s ∨ s' = c.addr) := by
      rintro s' rfl
      split
      case isTrue hlt => exact ⟨Nat.le_refl _, (BitVec.lt_def.mp hlt).le, .inr rfl⟩
      case isFalse hge => exact ⟨not_lt.mp (mt BitVec.lt_def.mpr hge), Nat.le_refl _, .inl rfl⟩
    obtain ⟨hc, hs, heq⟩ := hmin _ rfl
    obtain ⟨hcs, hs', heq'⟩ := ih (if c.addr < s then c.addr else s) (if e < c.last then c.last else e)
    refine ⟨?_, hs'.trans hs, ?_⟩
    · intro c' hc'
      rcases List.mem_cons.mp hc' with rfl | hc'
      · apply hs'.trans hc
      · apply hcs c' hc'
    · rcases heq' with heq' | ⟨c', hc', heq'⟩
      · rcases heq with heq | heq
        · exact .inl (heq'.trans heq)
        · exact .inr ⟨c, List.mem_cons_self, heq'.trans heq⟩
      · exact .inr ⟨c', List.mem_cons_of_mem c hc', heq'⟩

theorem bounds_snd (s e : Word) (cs : List Copy) :
  (∀ c ∈ cs, c.last.toNat ≤ (bounds s e cs).2.toNat) ∧ e.toNat ≤ (bounds s e cs).2.toNat
    ∧ ((bounds s e cs).2 = e ∨ ∃ c ∈ cs, (bounds s e cs).2 = c.last)
  := by
  induction cs generalizing s e with
  | nil => exact ⟨by simp, Nat.le_refl _, .inl rfl⟩
  | cons c cs ih =>
    have hmax : ∀ e', e' = (if e < c.last then c.last else e) →
        c.last.toNat ≤ e'.toNat ∧ e.toNat ≤ e'.toNat ∧ (e' = e ∨ e' = c.last) := by
      rintro e' rfl
      split
      case isTrue hlt => exact ⟨Nat.le_refl _, (BitVec.lt_def.mp hlt).le, .inr rfl⟩
      case isFalse hge => exact ⟨not_lt.mp (mt BitVec.lt_def.mpr hge), Nat.le_refl _, .inl rfl⟩
    obtain ⟨hc, he, heq⟩ := hmax _ rfl
    obtain ⟨hcs, he', heq'⟩ := ih (if c.addr < s then c.addr else s) (if e < c.last then c.last else e)
    refine ⟨?_, he.trans he', ?_⟩
    · intro c' hc'
      rcases List.mem_cons.mp hc' with rfl | hc'
      · apply hc.trans he'
      · apply hcs c' hc'
    · rcases heq' with heq' | ⟨c', hc', heq'⟩
      · rcases heq with heq | heq
        · exact .inl (heq'.trans heq)
        · exact .inr ⟨c, List.mem_cons_self, heq'.trans heq⟩
      · exact .inr ⟨c', List.mem_cons_of_mem c hc', heq'⟩

theorem mem_loadedBytes {i : ℕ} (hc : c ∈ cs) (hi : (i : ℤ) < c.len) (hlt : c.addr.toNat + i < 2 ^ 32) :
  c.addr.toNat + i ∈ loadedBytes cs
  := by
  refine ⟨c, hc, i, hi, ?_⟩
  rw [BitVec.toNat_add, BitVec.toNat_ofNat, Nat.add_mod_mod, Nat.mod_eq_of_lt hlt]

/-- The last address of the data of a line is that before its first one, if there are none. -/
theorem last_toNat (hlen : 0 ≤ c.len) (hinside : c.addr.toNat + c.len ≤ 2 ^ 32) :
  (c.last.toNat : ℤ) = if c.len = 0 ∧ c.addr.toNat = 0 then 2 ^ 32 - 1 else c.addr.toNat + c.len - 1
  := by
  have haddr := c.addr.isLt
  obtain ⟨n, hn⟩ := Int.eq_ofNat_of_zero_le hlen
  rw [Copy.last, hn, show BitVec.ofInt 32 (n : ℤ) = BitVec.ofNat 32 n from BitVec.ofInt_natCast 32 n,
    BitVec.toNat_sub, BitVec.toNat_add, BitVec.toNat_ofNat]
  rw [hn] at hinside
  split
  · rename_i h
    obtain ⟨hzero, haddr⟩ := h
    rw [haddr]
    norm_cast at hzero
    subst hzero
    decide
  · rename_i h
    have hpos : ¬ (n = 0 ∧ c.addr.toNat = 0) := by
      rintro ⟨rfl, h0⟩
      exact h ⟨rfl, h0⟩
    rw [show BitVec.toNat (1 : Word) = 1 from rfl]
    omega

/-- Data that runs over the end of the address space goes to both of its ends. -/
theorem ends_mem_loadedBytes (hc : c ∈ cs) (hout : ¬ c.addr.toNat + c.len ≤ 2 ^ 32) :
  0 ∈ loadedBytes cs ∧ 2 ^ 32 - 1 ∈ loadedBytes cs
  := by
  have haddr := c.addr.isLt
  constructor
  · refine ⟨c, hc, 2 ^ 32 - c.addr.toNat, by omega, ?_⟩
    rw [BitVec.toNat_add, BitVec.toNat_ofNat]
    omega
  · have hmem := mem_loadedBytes (i := 2 ^ 32 - 1 - c.addr.toNat) hc (by omega) (by omega)
    rwa [show c.addr.toNat + (2 ^ 32 - 1 - c.addr.toNat) = 2 ^ 32 - 1 by omega] at hmem

theorem exists_of_mem_loadedBytes (hinside : ∀ c ∈ cs, c.addr.toNat + c.len ≤ 2 ^ 32) {x : ℕ}
    (hx : x ∈ loadedBytes cs) :
  ∃ c ∈ cs, 0 < c.len ∧ c.addr.toNat ≤ x ∧ (x : ℤ) < c.addr.toNat + c.len
  := by
  obtain ⟨c, hc, i, hi, rfl⟩ := hx
  have hle := hinside c hc
  rw [BitVec.toNat_add, BitVec.toNat_ofNat, Nat.add_mod_mod, Nat.mod_eq_of_lt (by omega)]
  exact ⟨c, hc, by omega, by omega, by omega⟩

/-- **The size that is computed** is that of the span exactly when the lines without data are no
reason for it to be another one. -/
theorem isSpan_iff (hlen : ∀ c ∈ cs, 0 ≤ c.len) :
  IsSpan cs ((bounds (-1) 0 cs).2 - (bounds (-1) 0 cs).1 + 1) ↔ Spanned cs
  := by
  obtain ⟨hfst, -, hfst'⟩ := bounds_fst (-1) 0 cs
  obtain ⟨hsnd, -, hsnd'⟩ := bounds_snd (-1) 0 cs
  generalize (bounds (-1) 0 cs).1 = s at hfst hfst'
  generalize (bounds (-1) 0 cs).2 = e at hsnd hsnd'
  have hs := s.isLt
  have he := e.isLt
  have hsize : (e - s + 1).toNat = (e.toNat + 2 ^ 32 - s.toNat + 1) % 2 ^ 32 := by
    rw [BitVec.toNat_add, BitVec.toNat_sub, show BitVec.toNat (1 : Word) = 1 from rfl]
    omega
  rw [IsSpan, hsize]
  constructor
  · rintro ⟨lo, hi, ⟨hlo, hleast⟩, ⟨hhi, hgreatest⟩, hspan⟩
    have hnot : ¬ (0 ∈ loadedBytes cs ∧ 2 ^ 32 - 1 ∈ loadedBytes cs) := by
      rintro ⟨hzero, hmax⟩
      have h₁ := hleast hzero
      have h₂ := hgreatest hmax
      omega
    have hinside : ∀ c ∈ cs, c.addr.toNat + c.len ≤ 2 ^ 32 := by
      intro c hc
      by_contra hout
      exact hnot (ends_mem_loadedBytes hc hout)
    obtain ⟨c₁, hc₁, hpos₁, hle₁, hlt₁⟩ := exists_of_mem_loadedBytes hinside hlo
    obtain ⟨c₂, hc₂, hpos₂, hle₂, hlt₂⟩ := exists_of_mem_loadedBytes hinside hhi
    have hlast₂ := last_toNat (hlen c₂ hc₂) (hinside c₂ hc₂)
    rw [if_neg (by omega)] at hlast₂
    have hin₁ := hinside c₁ hc₁
    have hin₂ := hinside c₂ hc₂
    have hs₁ := hfst c₁ hc₁
    have he₂ := hsnd c₂ hc₂
    have hlohi := hleast hhi
    have heq : s.toNat = lo ∧ e.toNat = hi := by omega
    refine ⟨⟨c₁, hc₁, hpos₁⟩, hinside, ?_, hnot⟩
    intro c hc hzero
    have hlast := last_toNat (hlen c hc) (hinside c hc)
    have hsc := hfst c hc
    have hec := hsnd c hc
    have hne : c.addr.toNat ≠ 0 := by
      intro h0
      rw [if_pos ⟨hzero, h0⟩] at hlast
      apply hnot
      have hlo0 : lo = 0 := by omega
      have hhi1 : hi = 2 ^ 32 - 1 := by omega
      rw [← hlo0, ← hhi1]
      exact ⟨hlo, hhi⟩
    rw [if_neg (by omega), hzero] at hlast
    exact ⟨hne, ⟨lo, hlo, by omega⟩, hi, hhi, by omega⟩
  · rintro ⟨⟨c, hc, hpos⟩, hinside, hempty, hnot⟩
    have hlast : ∀ c ∈ cs, 0 < c.len → (c.last.toNat : ℤ) = c.addr.toNat + c.len - 1 := by
      intro c hc hpos
      rw [last_toNat hpos.le (hinside c hc), if_neg (by omega)]
    have hlower : s.toNat ∈ lowerBounds (loadedBytes cs) := by
      intro x hx
      obtain ⟨c₁, hc₁, -, hle, -⟩ := exists_of_mem_loadedBytes hinside hx
      apply (hfst c₁ hc₁).trans hle
    have hupper : e.toNat ∈ upperBounds (loadedBytes cs) := by
      intro x hx
      obtain ⟨c₁, hc₁, hpos₁, -, hlt⟩ := exists_of_mem_loadedBytes hinside hx
      have hl := hlast c₁ hc₁ hpos₁
      have hle := hsnd c₁ hc₁
      omega
    have hleast : s.toNat ∈ loadedBytes cs := by
      have hs' : ∃ c ∈ cs, s.toNat = c.addr.toNat := by
        rcases hfst' with rfl | ⟨c', hc', rfl⟩
        · have hle := hfst c hc
          have hlt := c.addr.isLt
          exact ⟨c, hc, by change 2 ^ 32 - 1 ≤ _ at hle; change 2 ^ 32 - 1 = _; omega⟩
        · exact ⟨c', hc', rfl⟩
      obtain ⟨c', hc', heq⟩ := hs'
      rcases (hlen c' hc').eq_or_lt with hzero | hpos'
      · obtain ⟨-, ⟨x, hx, hle⟩, -⟩ := hempty c' hc' hzero.symm
        have hge := hlower hx
        rwa [show s.toNat = x by omega]
      · rw [heq]
        apply mem_loadedBytes hc' hpos'
        apply c'.addr.isLt
    have hgreatest : e.toNat ∈ loadedBytes cs := by
      have he' : ∃ c ∈ cs, e.toNat = c.last.toNat := by
        rcases hsnd' with rfl | ⟨c', hc', rfl⟩
        · have hle := hsnd c hc
          exact ⟨c, hc, by change _ ≤ 0 at hle; change 0 = _; omega⟩
        · exact ⟨c', hc', rfl⟩
      obtain ⟨c', hc', heq⟩ := he'
      rcases (hlen c' hc').eq_or_lt with hzero | hpos'
      · obtain ⟨hne, -, ⟨x, hx, hle⟩⟩ := hempty c' hc' hzero.symm
        have hge := hupper hx
        have hl := last_toNat (hlen c' hc') (hinside c' hc')
        rw [if_neg (fun h => hne h.2), ← hzero] at hl
        rwa [show e.toNat = x by omega]
      · have hl := hlast c' hc' hpos'
        have hmem := mem_loadedBytes (i := (c'.len - 1).toNat) hc' (by omega) (by omega)
        rwa [show e.toNat = c'.addr.toNat + (c'.len - 1).toNat by omega]
    refine ⟨s.toNat, e.toNat, ⟨hleast, hlower⟩, ⟨hgreatest, hupper⟩, ?_⟩
    have hle := hlower hgreatest
    have hends : ¬ (s.toNat = 0 ∧ e.toNat = 2 ^ 32 - 1) := by
      rintro ⟨h0, h1⟩
      apply hnot
      rw [← h0, ← h1]
      exact ⟨hleast, hgreatest⟩
    omega

/-! ### Loading -/

/-- `load_serial` copies what was decoded, and the size that it enters is that of the span from
the lowest to the highest byte that it loaded. -/
structure LoadsSoundly (offset : Word) (input : List Arrival) : Prop where
  len : ∀ c ∈ (loadTrace offset input).1, 0 ≤ c.len ∧ c.len = c.data.length
  filesize : ∀ ret filesize, (loadTrace offset input).2 = .loaded ret filesize →
    IsSpan (loadTrace offset input).1 filesize

theorem len_iff (hfrom : c.FromLine) :
  0 ≤ c.len ∧ c.len = c.data.length ↔ ¬ ShortRecord c.line
  := by
  obtain ⟨type, addr, hdata, hdecode⟩ := hfrom
  constructor
  · rintro ⟨hlen, -⟩ hshort
    obtain ⟨type', count', addr', -, hdecode', hneg⟩ := hshort.decode
    rw [hdecode] at hdecode'
    obtain ⟨-, hcount, -, -⟩ := Decoded.record.inj hdecode'
    omega
  · intro hshort
    have hlen := ((decodesSoundly_iff c.line).mpr hshort _ _ _ _ hdata hdecode).count
    exact ⟨by omega, hlen⟩

/-- **Decoding and loading are sound** on every line whose count field is not too small, and on
every input without such a line whose lines without data lie between the others; and only then. -/
theorem srecord_sound_iff (line : List Byte) (offset : Word) (input : List Arrival) :
  (DecodesSoundly line ↔ ¬ ShortRecord line)
    ∧ (LoadsSoundly offset input
      ↔ (∀ c ∈ (loadTrace offset input).1, ¬ ShortRecord c.line)
        ∧ ∀ ret filesize, (loadTrace offset input).2 = .loaded ret filesize →
          Spanned (loadTrace offset input).1)
  := by
  refine ⟨decodesSoundly_iff line, ?_⟩
  obtain ⟨hfrom, hloaded⟩ := traceLoop_spec (Prod.mk.eta (p := loadTrace offset input)).symm
  have hspan : ∀ ret filesize, (loadTrace offset input).2 = .loaded ret filesize →
      (IsSpan (loadTrace offset input).1 filesize ↔ Spanned (loadTrace offset input).1) := by
    intro ret filesize he
    obtain ⟨hlen, rfl⟩ := hloaded ret filesize he
    apply isSpan_iff hlen
  constructor
  · rintro ⟨hlen, hsize⟩
    refine ⟨fun c hc => (len_iff (hfrom c hc)).mp (hlen c hc), ?_⟩
    intro ret filesize he
    apply (hspan ret filesize he).mp (hsize ret filesize he)
  · rintro ⟨hshort, hsize⟩
    refine ⟨fun c hc => (len_iff (hfrom c hc)).mpr (hshort c hc), ?_⟩
    intro ret filesize he
    apply (hspan ret filesize he).mpr (hsize ret filesize he)

/-- A line that counts nothing is taken for three bytes less than none. -/
theorem not_srecord_sound :
  ¬ ((∀ line, DecodesSoundly line) ∧ ∀ offset input, LoadsSoundly offset input)
  := by
  rintro ⟨h, -⟩
  have hdecode : srecDecode (ascii "S1000000FF") = .record 1 (-3) 0 [] := by decide
  have hcount := (h _ _ _ _ _ (.inl rfl) hdecode).count
  cases hcount

end

end Serial
