import UBoot.Load.SRecord

/-!
# Dumping and loading memory as S-records

`save_serial` of `common/cmd_load.c` writes a part of the memory to the console, sixteen bytes
a record, and `load_serial` reads such a file from there.  The console is the serial line,
where the driver may put a carriage return in front of each newline.  The board has no NOR
flash, so data is only copied to memory.
-/

namespace Serial

open SRecord

/-! ### Dumping -/

/-- `SREC3_START`, without its newline. -/
def srec3Start : List Byte := ascii "S0030000FC"

/-- `SREC3_END`, without its newline. -/
def srec3End : List Byte := ascii "S70500000000FA"

/-- `SREC_BYTES_PER_RECORD`. -/
def srecBytesPerRecord : ℕ := 16

/-- The size of the buffer for one record in `save_serial`. -/
def recordSize : ℕ := 2 * srecBytesPerRecord + 16

/-- One record of `save_serial` without its newline, printed with `SREC3_FORMAT`; `data` are
the digits of the `reclen` bytes, and `sum` the sum of the bytes. -/
def formatRecord (address : Word) (data : List Byte) (reclen sum : ℕ) : List Byte :=
  let length := 4 + reclen + 1
  let sum := sum + length % 256 + length / 256 % 256
  let sum := sum + ((wordBytes address).map UInt8.toNat).sum
  [charS, 51] ++ hexByte (UInt8.ofNat length) ++ hexBytes (wordBytes address) ++ data
    ++ hexByte (~~~UInt8.ofNat sum)

/-- The loop of `save_serial` over `count` bytes: the records. -/
def saveLoop (mem : ℕ → Byte) : ℕ → Word → List Byte → ℕ → ℕ → List (List Byte)
  | 0, _, _, _, _ => []
  | count + 1, address, data, reclen, sum =>
    let c := mem (address + BitVec.ofNat 32 reclen).toNat
    let sum := sum + c.toNat
    let data := data ++ hexByte c
    let reclen := reclen + 1
    if reclen = srecBytesPerRecord ∨ count = 0 then
      formatRecord address data reclen sum
        :: saveLoop mem count (address + BitVec.ofNat 32 reclen) [] 0 0
    else saveLoop mem count address data reclen sum

/-- The records that `save_serial` writes. -/
def saveRecords (mem : ℕ → Byte) (address : Word) (count : ℕ) : List (List Byte) :=
  srec3Start :: saveLoop mem count address [] 0 0 ++ [srec3End]

/-- What the driver sends for a record and its newline. -/
def putRecord (cr : Bool) (record : List Byte) : List Byte :=
  record ++ if cr then [13, 10] else [10]

/-- `save_serial`: the characters sent, and the value returned.  After each record the user
may have pressed `^C`. -/
def saveLines (cr : Bool) : List (List Byte) → List Bool → List Byte × ℤ
  | [], _ => ([], 0)
  | record :: records, ctrlc =>
    if ctrlc.headD false then (putRecord cr record, -1)
    else
      let (sent, ret) := saveLines cr records ctrlc.tail
      (putRecord cr record ++ sent, ret)

/-- `save_serial`. -/
def saveSerial (cr : Bool) (ctrlc : List Bool) (mem : ℕ → Byte) (address : Word) (count : ℕ) :
    List Byte × ℤ :=
  saveLines cr (saveRecords mem address count) ctrlc

/-! ### Loading -/

/-- `SREC_MAXRECLEN`. -/
def srecMaxreclen : ℕ := 512 + 4

/-- A character on the line.  It is `early` when it is there already at the poll of the console
that `read_record` makes before it wants the character. -/
structure Arrival where
  char : Byte
  early : Bool
deriving DecidableEq

/-- `ctrlc`: it takes a character that is waiting, and tells whether that was `^C`. -/
def ctrlc : List Arrival → Bool × List Arrival
  | [] => (false, [])
  | c :: input => if c.early then (c.char = 3, input) else (false, c :: input)

/-- `read_record`, with room for `n` characters: the record, or `none` when it was aborted,
and what is left of the input.  It does not return while it waits for a character.  With the
console initialized `gd->jt[XF_getc]` is the `getc` of the device, so that it polls for `^C`
behind every character that it stores. -/
def readRecord : ℕ → List Byte → List Arrival → Option (Option (List Byte) × List Arrival)
  | 0, record, input => some (some record, input)
  | _ + 1, _, [] => none
  | n + 1, record, c :: input =>
    if c.char = 13 ∨ c.char = 10 then some (some record, input)
    else if c.char = 0 ∨ c.char = 3 then some (none, input)
    else
      let (pressed, input) := ctrlc input
      if pressed then some (none, input)
      else readRecord n (record ++ [c.char]) input

/-- A character that is there when the console is polled is lost. -/
example : readRecord 8 [] [⟨83, false⟩, ⟨51, true⟩, ⟨48, false⟩, ⟨10, false⟩]
    = some (some [83, 48], []) := by decide

/-- What `load_serial` leaves: the value it returns, the memory, and the size it enters into
the environment, when it does. -/
structure Loaded where
  ret : Word
  mem : ℕ → Byte
  filesize : Option Word

/-- What `load_serial` does with a record: it goes on with `next`, or returns. -/
def loadRecord (offset : Word) (next : (ℕ → Byte) → Word → Word → Option Loaded) (mem : ℕ → Byte)
    (startAddr endAddr : Word) : Decoded → Option Loaded
  | .error _ => some ⟨-1, mem, none⟩
  | .empty => next mem startAddr endAddr
  | .record type count addr data =>
    if type = 1 ∨ type = 2 ∨ type = 3 then
      let storeAddr := addr + offset
      let last := storeAddr + BitVec.ofInt 32 count - 1
      -- a negative length is not one that `memcpy` can copy
      if count < 0 then none
      else
        next (Memory.store mem storeAddr.toNat data)
          (if storeAddr < startAddr then storeAddr else startAddr)
          (if endAddr < last then last else endAddr)
    else if type = 7 ∨ type = 8 ∨ type = 9 then
      some ⟨addr, mem, some (endAddr - startAddr + 1)⟩
    else next mem startAddr endAddr

/-- The loop of `load_serial`; `none` while it waits for input. -/
def loadLoop (offset : Word) : ℕ → List Arrival → (ℕ → Byte) → Word → Word → Option Loaded
  | 0, _, _, _, _ => none
  | fuel + 1, input, mem, startAddr, endAddr =>
    match readRecord srecMaxreclen [] input with
    | none => none
    | some (none, _) => some ⟨-1, mem, none⟩
    | some (some record, input) =>
      loadRecord offset (loadLoop offset fuel input) mem startAddr endAddr (srecDecode record)

/-- `load_serial`.  Each record that it reads is at least one character of the input. -/
def loadSerial (offset : Word) (input : List Arrival) (mem : ℕ → Byte) : Option Loaded :=
  loadLoop offset (input.length + 1) input mem (-1) 0

/-! ### The records of a dump -/

/-- The characters of the records are digits and letters. -/
def Plain (record : List Byte) : Prop := ∀ c ∈ record, 48 ≤ c

theorem plain_hexByte (b : Byte) :
  Plain (hexByte b)
  := by
  have hdigit : ∀ n < 16, 48 ≤ hexDigit n := by decide
  have hb := b.toNat_lt
  intro c hc
  simp only [hexByte, List.mem_cons, List.not_mem_nil, or_false] at hc
  rcases hc with rfl | rfl
  · apply hdigit _ (by omega)
  · apply hdigit _ (by omega)

theorem plain_hexBytes (bs : List Byte) :
  Plain (hexBytes bs)
  := by
  intro c hc
  obtain ⟨b, -, hcb⟩ := List.mem_flatMap.mp hc
  apply plain_hexByte b c hcb

/-- The record of some bytes. -/
def dataRecord (address : Word) (bs : List Byte) : List Byte :=
  formatRecord address (hexBytes bs) bs.length (bs.map UInt8.toNat).sum

theorem dataRecord_eq (address : Word) {bs : List Byte} (h : bs.length ≤ srecBytesPerRecord) :
  dataRecord address bs
    = charS :: 51 :: (hexBytes (UInt8.ofNat (4 + bs.length + 1) :: wordBytes address ++ bs)
      ++ (hexByte (~~~chksum (UInt8.ofNat (4 + bs.length + 1) :: wordBytes address ++ bs)) ++ []))
  := by
  rw [srecBytesPerRecord] at h
  have hsum : UInt8.ofNat ((bs.map UInt8.toNat).sum + (4 + bs.length + 1) % 256
      + (4 + bs.length + 1) / 256 % 256 + ((wordBytes address).map UInt8.toNat).sum)
      = chksum (UInt8.ofNat (4 + bs.length + 1) :: wordBytes address ++ bs) := by
    rw [chksum_eq_ofNat, List.map_append, List.map_cons, List.sum_append, List.sum_cons,
      UInt8.toNat_ofNat', Nat.div_eq_of_lt (by omega)]
    congr 1
    omega
  rw [dataRecord, formatRecord, hsum]
  simp [hexBytes]

theorem srecDecode_dataRecord (address : Word) {bs : List Byte} (h : bs.length ≤ srecBytesPerRecord) :
  srecDecode (dataRecord address bs) = .record 3 bs.length address bs
  := by
  rw [dataRecord_eq address h]
  rw [srecBytesPerRecord] at h
  rw [srecDecode_record [] (show recordType 51 = some (3, 4) by decide) (by decide) rfl (by omega),
    bytesWord_wordBytes]

theorem plain_dataRecord (address : Word) {bs : List Byte} (h : bs.length ≤ srecBytesPerRecord) :
  Plain (dataRecord address bs)
  := by
  rw [dataRecord_eq address h]
  intro c hc
  simp only [List.mem_cons, List.append_nil, List.mem_append] at hc
  rcases hc with rfl | rfl | hc | hc
  · decide
  · decide
  · apply plain_hexBytes _ c hc
  · apply plain_hexByte _ c hc

theorem length_dataRecord (address : Word) {bs : List Byte} (h : bs.length ≤ srecBytesPerRecord) :
  (dataRecord address bs).length = 14 + 2 * bs.length
  := by
  rw [dataRecord_eq address h]
  simp only [List.length_cons, List.length_append, length_hexBytes, hexByte, wordBytes,
    List.length_nil]
  omega

/-- The records hold the bytes `bs` from the address `a` on. -/
inductive Dumps : List (List Byte) → ℕ → List Byte → Prop
  | nil (a : ℕ) : Dumps [] a []
  | cons {records : List (List Byte)} {address : Word} {bs rest : List Byte}
    (hlen : bs.length ≤ srecBytesPerRecord) (h : Dumps records (address.toNat + bs.length) rest) :
    Dumps (dataRecord address bs :: records) address.toNat (bs ++ rest)

/-- The loop, with the bytes `pre` in the record that it is at. -/
theorem dumps_saveLoop (mem : ℕ → Byte) {address : Word} {pre : List Byte} {count : ℕ}
    (hpre : Memory.Holds mem address.toNat pre) (hlen : pre.length < srecBytesPerRecord)
    (hempty : count = 0 → pre = []) (hwrap : address.toNat + pre.length + count ≤ 2 ^ 32) :
  Dumps (saveLoop mem count address (hexBytes pre) pre.length (pre.map UInt8.toNat).sum)
    address.toNat (pre ++ Memory.read mem (address.toNat + pre.length) count)
  := by
  induction count generalizing address pre with
  | zero =>
    rw [hempty rfl]
    apply Dumps.nil
  | succ count ih =>
    have haddr : (address + BitVec.ofNat 32 pre.length).toNat = address.toNat + pre.length := by
      rw [BitVec.toNat_add, BitVec.toNat_ofNat]
      omega
    rw [saveLoop, haddr, Memory.read]
    generalize hc : mem (address.toNat + pre.length) = c
    have hdata : hexBytes pre ++ hexByte c = hexBytes (pre ++ [c]) := by simp [hexBytes]
    have hsum : (pre.map UInt8.toNat).sum + c.toNat = ((pre ++ [c]).map UInt8.toNat).sum := by simp
    have hlen' : pre.length + 1 = (pre ++ [c]).length := by simp
    have hpre' : Memory.Holds mem address.toNat (pre ++ [c]) :=
      Memory.holds_append.mpr ⟨hpre, hc, trivial⟩
    have hread : pre ++ c :: Memory.read mem (address.toNat + pre.length + 1) count
        = (pre ++ [c]) ++ Memory.read mem (address.toNat + (pre ++ [c]).length) count := by
      simp [Nat.add_assoc]
    simp only [hdata, hsum, hlen', hread]
    generalize pre ++ [c] = pre' at *
    split
    case isTrue hfull =>
      apply Dumps.cons (by omega)
      cases count with
      | zero => apply Dumps.nil
      | succ count =>
        have hnext : (address + BitVec.ofNat 32 pre'.length).toNat
            = address.toNat + pre'.length := by
          rw [BitVec.toNat_add, BitVec.toNat_ofNat]
          omega
        have hrest := @ih (address + BitVec.ofNat 32 pre'.length) [] (Memory.holds_nil _ _)
          (by decide) (by omega) (by rw [hnext, List.length_nil]; omega)
        rw [hnext] at hrest
        apply hrest
    case isFalse hfull =>
      apply ih hpre'
      · omega
      · omega
      · omega

theorem dumps_save (mem : ℕ → Byte) {address : Word} {count : ℕ}
    (hwrap : address.toNat + count ≤ 2 ^ 32) :
  Dumps (saveLoop mem count address [] 0 0) address.toNat (Memory.read mem address.toNat count)
  := dumps_saveLoop mem (Memory.holds_nil _ _) (by decide) (fun _ => rfl) hwrap

/-! ### Reading the records back -/

/-- No poll of `read_record` finds a character: behind one that it stores, the next comes late
enough. -/
def Quiet (input : List Arrival) : Prop :=
  input.IsChain fun c d => c.char = 13 ∨ c.char = 10 ∨ d.early = false

/-- The characters arrive, and no poll finds one. -/
structure Arrives (input : List Arrival) (chars : List Byte) : Prop where
  chars : input.map Arrival.char = chars
  quiet : Quiet input

variable {record rest chars : List Byte} {input : List Arrival} {fuel : ℕ} {cr : Bool}
  (offset : Word) (mem : ℕ → Byte) (startAddr endAddr : Word)

theorem Arrives.cons {c : Byte} (h : Arrives input (c :: chars)) :
  ∃ a input', input = a :: input' ∧ a.char = c ∧ Arrives input' chars
  := by
  obtain ⟨a, input', rfl, hc, hchars⟩ := List.map_eq_cons_iff.mp h.chars
  exact ⟨a, input', rfl, hc, hchars, h.quiet.tail⟩

theorem Arrives.length_eq (h : Arrives input chars) :
  input.length = chars.length
  := by rw [← h.chars, List.length_map]

/-- The poll behind a character that is stored. -/
theorem Quiet.ctrlc_eq {c : Arrival} (h : Quiet (c :: input))
    (hc : ¬ (c.char = 13 ∨ c.char = 10)) :
  ctrlc input = (false, input)
  := by
  cases input with
  | nil => rfl
  | cons d input =>
    have hearly : c.char = 13 ∨ c.char = 10 ∨ d.early = false := (List.isChain_cons_cons.mp h).1
    rw [ctrlc, if_neg]
    rw [or_assoc.symm.mp hearly |>.resolve_left hc]
    simp

theorem readRecord_plain {n : ℕ} {acc : List Byte} {c : Byte} (h : Plain record)
    (hlen : record.length < n) (hc : c = 13 ∨ c = 10)
    (hinput : Arrives input (record ++ c :: rest)) :
  ∃ input', Arrives input' rest
    ∧ readRecord n acc input = some (some (acc ++ record), input')
  := by
  induction record generalizing n acc input with
  | nil =>
    obtain ⟨n, rfl⟩ := Nat.exists_eq_succ_of_ne_zero (Nat.ne_of_gt hlen)
    obtain ⟨a, input, rfl, rfl, hrest⟩ := hinput.cons
    exact ⟨input, hrest, by simp [readRecord, hc]⟩
  | cons d record ih =>
    obtain ⟨n, rfl⟩ := Nat.exists_eq_succ_of_ne_zero (Nat.ne_of_gt (Nat.lt_of_le_of_lt (Nat.zero_le _) hlen))
    obtain ⟨a, input, rfl, rfl, hrest⟩ := hinput.cons
    have hd : (48 : Byte) ≤ a.char := h a.char (by simp)
    have hne : ¬ (a.char = 13 ∨ a.char = 10) ∧ ¬ (a.char = 0 ∨ a.char = 3) := by
      constructor
      · rintro (ha | ha) <;> rw [ha] at hd <;> revert hd <;> decide
      · rintro (ha | ha) <;> rw [ha] at hd <;> revert hd <;> decide
    obtain ⟨input', hinput', hread⟩ := @ih input n (acc ++ [a.char])
      (fun c hc => h c (by simp [hc])) (by simpa using hlen) hrest
    refine ⟨input', hinput', ?_⟩
    rw [readRecord, if_neg hne.1, if_neg hne.2, hinput.quiet.ctrlc_eq hne.1]
    simpa using hread

theorem loadLoop_read {c : Byte} (h : Plain record) (hlen : record.length < srecMaxreclen)
    (hc : c = 13 ∨ c = 10) (hinput : Arrives input (record ++ c :: rest)) :
  ∃ input', Arrives input' rest
    ∧ loadLoop offset (fuel + 1) input mem startAddr endAddr
      = loadRecord offset (loadLoop offset fuel input') mem startAddr endAddr (srecDecode record)
  := by
  obtain ⟨input', hinput', hread⟩ := readRecord_plain h hlen hc hinput
  refine ⟨input', hinput', ?_⟩
  rw [loadLoop, hread]
  rfl

/-- The loop at a line, whichever way it ends. -/
theorem loadLoop_putRecord (h : Plain record) (hlen : record.length < srecMaxreclen)
    (hinput : Arrives input (putRecord cr record ++ rest)) (hfuel : input.length < fuel) :
  ∃ fuel' input', Arrives input' rest ∧ input'.length < fuel'
    ∧ loadLoop offset fuel input mem startAddr endAddr
      = loadRecord offset (loadLoop offset fuel' input') mem startAddr endAddr (srecDecode record)
  := by
  obtain ⟨fuel, rfl⟩ := Nat.exists_eq_succ_of_ne_zero (show fuel ≠ 0 by omega)
  rw [putRecord, List.append_assoc] at hinput
  rw [hinput.length_eq] at hfuel
  cases cr with
  | false =>
    simp only [Bool.false_eq_true, if_false, List.cons_append, List.nil_append, List.length_append,
      List.length_cons] at hinput hfuel
    obtain ⟨input', hinput', hload⟩ := loadLoop_read offset mem startAddr endAddr h hlen (.inr rfl)
      hinput
    exact ⟨fuel, input', hinput', by rw [hinput'.length_eq]; omega, hload⟩
  | true =>
    -- the newline behind the carriage return is an empty record
    simp only [if_true, List.cons_append, List.nil_append, List.length_append,
      List.length_cons] at hinput hfuel
    obtain ⟨fuel, rfl⟩ := Nat.exists_eq_succ_of_ne_zero (show fuel ≠ 0 by omega)
    obtain ⟨input₁, hinput₁, hload₁⟩ := loadLoop_read offset mem startAddr endAddr h hlen (.inl rfl)
      hinput
    obtain ⟨a, input₂, rfl, ha, hinput₂⟩ := hinput₁.cons
    refine ⟨fuel, input₂, hinput₂, by rw [hinput₂.length_eq]; omega, ?_⟩
    rw [hload₁]
    congr 1
    funext mem startAddr endAddr
    simp [loadLoop, readRecord, srecMaxreclen, ha]
    rfl

/-- Loading the records of a dump. -/
theorem loadLoop_dumps {records : List (List Byte)} {a : ℕ} {bs : List Byte}
    (h : Dumps records a bs) (hinput : Arrives input (records.flatMap (putRecord cr) ++ rest))
    (hfuel : input.length < fuel) :
  ∃ fuel' input' startAddr' endAddr', Arrives input' rest ∧ input'.length < fuel'
    ∧ loadLoop 0 fuel input mem startAddr endAddr
      = loadLoop 0 fuel' input' (Memory.store mem a bs) startAddr' endAddr'
  := by
  induction h generalizing fuel input mem startAddr endAddr with
  | nil a => exact ⟨fuel, input, startAddr, endAddr, hinput, hfuel, rfl⟩
  | @cons records address bs rest' hlen h ih =>
    rw [List.flatMap_cons, List.append_assoc] at hinput
    have hlen' := length_dataRecord address hlen
    rw [srecBytesPerRecord] at hlen
    obtain ⟨fuel₁, input₁, hinput₁, hfuel₁, hload⟩ := loadLoop_putRecord 0 mem startAddr endAddr
      (plain_dataRecord address hlen) (by rw [hlen', srecMaxreclen]; omega) hinput hfuel
    rw [hload, srecDecode_dataRecord address hlen]
    simp only [loadRecord, show ¬ ((bs.length : ℤ) < 0) by omega, if_false]
    rw [Memory.store_append, if_pos (by decide), show address + 0 = address from BitVec.add_zero _]
    apply ih _ _ _ hinput₁ hfuel₁

/-! ### Dumping and loading -/

/-- A dump that was not aborted sends all its records. -/
theorem saveLines_of_ret_eq_zero {records : List (List Byte)} {ctrlc : List Bool}
    (h : (saveLines cr records ctrlc).2 = 0) :
  (saveLines cr records ctrlc).1 = records.flatMap (putRecord cr)
  := by
  induction records generalizing ctrlc with
  | nil => rfl
  | cons record records ih =>
    rw [saveLines] at h ⊢
    split at h
    · cases h
    · rename_i hno
      simp only [if_neg hno, List.flatMap_cons] at h ⊢
      rw [ih h]

theorem plain_srec3Start :
  Plain srec3Start
  := by
  unfold Plain
  decide +kernel

theorem plain_srec3End :
  Plain srec3End
  := by
  unfold Plain
  decide +kernel

/-- Loading a whole file. -/
theorem exists_loadSerial {records : List (List Byte)} {a : ℕ} {bs : List Byte}
    (h : Dumps records a bs)
    (hinput : Arrives input ((srec3Start :: records ++ [srec3End]).flatMap (putRecord cr))) :
  ∃ filesize, loadSerial 0 input mem = some ⟨0, Memory.store mem a bs, filesize⟩
  := by
  have hsplit : (srec3Start :: records ++ [srec3End]).flatMap (putRecord cr)
      = putRecord cr srec3Start
        ++ (records.flatMap (putRecord cr) ++ (putRecord cr srec3End ++ [])) := by simp
  have hstart : srecDecode srec3Start = .record 0 0 0 [] := by decide
  have hend : srecDecode srec3End = .record 7 0 0 [] := by decide
  rw [hsplit] at hinput
  obtain ⟨fuel₁, input₁, hinput₁, hfuel₁, hload₁⟩ := loadLoop_putRecord 0 mem (-1) 0
    plain_srec3Start (by decide) hinput (Nat.lt_succ_self input.length)
  obtain ⟨fuel₂, input₂, startAddr, endAddr, hinput₂, hfuel₂, hload₂⟩ :=
    loadLoop_dumps mem (-1) 0 h hinput₁ hfuel₁
  obtain ⟨fuel₃, input₃, -, -, hload₃⟩ := loadLoop_putRecord 0 (Memory.store mem a bs)
    startAddr endAddr plain_srec3End (by decide) hinput₂ hfuel₂
  refine ⟨some (endAddr - startAddr + 1), ?_⟩
  calc loadLoop 0 _ input mem (-1) 0
    _ = loadLoop 0 fuel₁ input₁ mem (-1) 0 := by
      rw [hload₁, hstart]
      rfl
    _ = loadLoop 0 fuel₂ input₂ (Memory.store mem a bs) startAddr endAddr := hload₂
    _ = some ⟨0, Memory.store mem a bs, some (endAddr - startAddr + 1)⟩ := by
      rw [hload₃, hend]
      rfl

/-- The records fit into the buffer, with their newline and their NUL. -/
theorem length_le_recordSize {records : List (List Byte)} {a : ℕ} {bs : List Byte}
    (h : Dumps records a bs) :
  ∀ r ∈ records, r.length + 2 ≤ recordSize
  := by
  induction h with
  | nil => simp
  | @cons records address bs rest hlen h ih =>
    intro r hr
    rcases List.mem_cons.mp hr with rfl | hr
    · rw [length_dataRecord address hlen, recordSize]
      omega
    · apply ih r hr

/-- **Dumping and loading are inverse.**  When what was dumped arrives without a character that
waits at a poll, the memory read back is the memory dumped, and `load_serial` returns the
address of the end record, which is `0`; each record fits into its buffer; and a record that
`BuildSRecord` builds is decoded to its type, to its data and to its address, as far as it fits
into the address field. -/
theorem loadSerial_saveSerial (cr : Bool) (ctrlc : List Bool) (mem mem' : ℕ → Byte)
    (address : Word) (count : ℕ) (input : List Arrival) (hwrap : address.toNat + count ≤ 2 ^ 32)
    (hsave : (saveSerial cr ctrlc mem address count).2 = 0)
    (hinput : Arrives input (saveSerial cr ctrlc mem address count).1) :
  (∃ l, loadSerial 0 input mem' = some l ∧ l.ret = 0
      ∧ l.mem = Memory.store mem' address.toNat (Memory.read mem address.toNat count))
    ∧ (∀ r ∈ saveRecords mem address count, r.length + 2 ≤ recordSize)
    ∧ ∀ sType n addr data, addrLen sType = some n → n + data.length + 1 ≤ 255 →
      srecDecode (buildSRecord sType addr data)
        = .record sType data.length (BitVec.ofNat 32 (addr.toNat % 256 ^ n)) data
  := by
  have hdumps := dumps_save mem hwrap
  refine ⟨?_, ?_, ?_⟩
  · rw [saveSerial] at hsave hinput
    rw [saveLines_of_ret_eq_zero hsave] at hinput
    obtain ⟨filesize, hload⟩ := exists_loadSerial mem' hdumps hinput
    exact ⟨_, hload, rfl, rfl⟩
  · intro r hr
    rw [saveRecords, List.cons_append] at hr
    rcases List.mem_cons.mp hr with rfl | hr
    · decide
    · rcases List.mem_append.mp hr with hr | hr
      · apply length_le_recordSize hdumps r hr
      · rw [List.mem_singleton.mp hr]
        decide
  · intro sType n addr data hn hlen
    apply srecDecode_buildSRecord hn addr data hlen

/-- Characters of records, each behind the poll, but for the letter that begins a record. -/
def spaced (chars : List Byte) : List Arrival := chars.map fun c => ⟨c, c = 83⟩

/-- Twenty bytes at `0x100000`, in two records; the letter that begins a record is there before
the record is wanted. -/
theorem loadSerial_saveSerial_twenty :
  (0x100000 : Word).toNat + 20 ≤ 2 ^ 32
    ∧ (saveSerial true [] (fun a => UInt8.ofNat a) 0x100000 20).2 = 0
    ∧ ∃ l, loadSerial 0
          (spaced (saveSerial true [] (fun a => UInt8.ofNat a) 0x100000 20).1) (fun _ => 0)
        = some l ∧ l.ret = 0
      ∧ l.mem = Memory.store (fun _ => 0) (0x100000 : Word).toNat
        (Memory.read (fun a => UInt8.ofNat a) (0x100000 : Word).toNat 20)
  := ⟨by decide, rfl, (loadSerial_saveSerial true [] (fun a => UInt8.ofNat a) (fun _ => 0) 0x100000 20
    (spaced _) (by decide) rfl ⟨by decide +kernel, by unfold Quiet; decide +kernel⟩).1⟩

/-- The entry is not the start address of the dump, and an address that does not fit into its
field is cut off. -/
theorem entry_ne_start :
  (∃ l, loadSerial 0 (spaced (saveSerial false [] (fun _ => 0xab) 0x100000 1).1) (fun _ => 0)
        = some l
      ∧ l.ret ≠ 0x100000)
    ∧ srecDecode (buildSRecord 1 0x12345 []) ≠ .record 1 0 0x12345 []
  := by
  constructor
  · refine ⟨_, rfl, ?_⟩
    decide
  · decide

end Serial
