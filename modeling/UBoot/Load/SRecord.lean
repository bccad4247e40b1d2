import Mathlib.Data.UInt
import UBoot.Lib.Memory

/-!
# S-records

`srec_decode` of `common/s_record.c` takes one line of an S-record file apart: the type, the
number of bytes that follow, the address, the data and the checksum, each byte in two
hexadecimal digits.  `BuildSRecord` of `tools/img2srec.c` writes such lines.
-/

namespace SRecord

/-- `S`. -/
def charS : Byte := 83

/-! ### Hexadecimal digits -/

/-- The digits `0123456789ABCDEF`. -/
def hexDigit (n : ℕ) : Byte := UInt8.ofNat (if n < 10 then 48 + n else 55 + n)

/-- The two digits of a byte. -/
def hexByte (b : Byte) : List Byte := [hexDigit (b.toNat / 16), hexDigit (b.toNat % 16)]

/-- The digits of some bytes. -/
def hexBytes (bs : List Byte) : List Byte := bs.flatMap hexByte

/-- `hex1_bin`, with `none` for `-1`. -/
def hex1Bin (c : Byte) : Option ℕ :=
  if 48 ≤ c ∧ c ≤ 57 then some (c.toNat - 48)
  else if 97 ≤ c ∧ c ≤ 102 then some (c.toNat + 10 - 97)
  else if 65 ≤ c ∧ c ≤ 70 then some (c.toNat + 10 - 65)
  else none

/-- `hex2_bin`, with what follows the two digits. -/
def hex2Bin : List Byte → Option (Byte × List Byte)
  | c :: d :: input => do
    let i ← hex1Bin c
    let j ← hex1Bin d
    return (UInt8.ofNat (i * 16 + j), input)
  | _ => none

/-- The next `n` bytes of the line, and what follows them. -/
def hexBin : ℕ → List Byte → Option (List Byte × List Byte)
  | 0, input => some ([], input)
  | n + 1, input => do
    let (b, input) ← hex2Bin input
    let (bs, input) ← hexBin n input
    return (b :: bs, input)

/-! ### Decoding -/

/-- The code of a record type, and the number of its address bytes. -/
def recordType (v : Byte) : Option (ℕ × ℕ) :=
  match v.toNat with
  | 48 => some (0, 2)
  | 49 => some (1, 2)
  | 50 => some (2, 3)
  | 51 => some (3, 4)
  | 53 => some (5, 2)
  | 55 => some (7, 4)
  | 56 => some (8, 3)
  | 57 => some (9, 2)
  | _ => none

/-- What `srec_decode` returns, with what it stores. -/
inductive Decoded where
  /-- `SREC_EMPTY` -/
  | empty
  /-- A negative code -/
  | error (code : ℤ)
  /-- The type, the count, the address and the data of a record -/
  | record (type : ℕ) (count : ℤ) (addr : Word) (data : List Byte)
deriving DecidableEq

/-- `SREC_E_BADTYPE`. -/
def eBadtype : ℤ := -1

/-- `SREC_E_NOSREC`. -/
def eNosrec : ℤ := -2

/-- `SREC_E_BADCHKS`. -/
def eBadchks : ℤ := -3

/-- The sum of some bytes, in a byte. -/
def chksum (bs : List Byte) : Byte := bs.sum

/-- The data and the checksum, behind a count and an address. -/
def decodeData (type : ℕ) (count : ℤ) (head : List Byte) (addr : Word) (input : List Byte) :
    Decoded :=
  match hexBin count.toNat input with
  | none => .error eNosrec
  | some (data, input) =>
    match hex2Bin input with
    | none => .error eNosrec
    | some (v, _) =>
      if v ≠ ~~~chksum (head ++ data) then .error eBadchks
      else .record type count addr data

/-- `srec_decode`. -/
def srecDecode (input : List Byte) : Decoded :=
  match (input.dropWhile (· ≠ charS)).drop 1 with
  | [] => .empty
  | v :: input =>
    match hex2Bin input with
    | none => .error eNosrec
    | some (n, input) =>
      match recordType v with
      | none => .error eBadtype
      | some (type, addrLen) =>
        -- a count record has no data
        let count : ℤ := if type = 5 then 0 else n.toNat - (addrLen + 1)
        match hexBin addrLen input with
        | none => .error eNosrec
        | some (address, input) =>
          decodeData type count (n :: address) (bytesWord address) input

/-! ### Building -/

/-- The number of address bytes that `BuildSRecord` writes. -/
def addrLen (sType : ℕ) : Option ℕ :=
  match sType with
  | 0 => some 2
  | 1 => some 2
  | 9 => some 2
  | 2 => some 3
  | 8 => some 3
  | 3 => some 4
  | 7 => some 4
  | _ => none

/-- The low `n` bytes of the address, the most significant one first. -/
def addrBytes (n : ℕ) (addr : Word) : List Byte :=
  (List.range' 1 n).map fun i => UInt8.ofNat (addr.toNat >>> (8 * (n - i)))

/-- `BuildSRecord`: the line without its NUL, or nothing for another type. -/
def buildSRecord (sType : ℕ) (addr : Word) (data : List Byte) : List Byte :=
  match addrLen sType with
  | none => []
  | some n =>
    let fields := UInt8.ofNat (n + data.length + 1) :: addrBytes n addr ++ data
    [charS, UInt8.ofNat (sType + 48)] ++ hexBytes fields ++ hexByte (~~~chksum fields)

/-! ### Decoding what was built -/

theorem hex1Bin_hexDigit {n : ℕ} (h : n < 16) :
  hex1Bin (hexDigit n) = some n
  := by
  interval_cases n <;> decide

theorem hex2Bin_hexByte (b : Byte) (input : List Byte) :
  hex2Bin (hexByte b ++ input) = some (b, input)
  := by
  have hb := b.toNat_lt
  simp only [hexByte, List.cons_append, List.nil_append, hex2Bin,
    hex1Bin_hexDigit (show b.toNat / 16 < 16 by omega),
    hex1Bin_hexDigit (show b.toNat % 16 < 16 by omega), Option.bind_eq_bind, Option.bind_some]
  rw [show b.toNat / 16 * 16 + b.toNat % 16 = b.toNat by omega]
  simp

theorem hexBin_hexBytes (bs input : List Byte) :
  hexBin bs.length (hexBytes bs ++ input) = some (bs, input)
  := by
  induction bs with
  | nil => rfl
  | cons b bs ih =>
    rw [hexBytes] at ih ⊢
    rw [List.flatMap_cons, List.append_assoc, List.length_cons, hexBin, hex2Bin_hexByte]
    simp [ih]

theorem chksum_eq_ofNat (bs : List Byte) :
  chksum bs = UInt8.ofNat (bs.map UInt8.toNat).sum
  := by
  induction bs with
  | nil => rfl
  | cons b bs ih =>
    rw [chksum, List.sum_cons, ← chksum, ih, List.map_cons, List.sum_cons, UInt8.ofNat_add,
      UInt8.ofNat_toNat]

theorem length_hexBytes (bs : List Byte) :
  (hexBytes bs).length = 2 * bs.length
  := by
  induction bs with
  | nil => rfl
  | cons b bs ih =>
    rw [hexBytes] at ih ⊢
    rw [List.flatMap_cons, List.length_append, ih, List.length_cons, hexByte]
    simp only [List.length_cons, List.length_nil]
    omega

theorem decodeData_hexBytes (type : ℕ) (head data rest : List Byte) (addr : Word) :
  decodeData type data.length head addr (hexBytes data ++ (hexByte (~~~chksum (head ++ data)) ++ rest))
    = .record type data.length addr data
  := by
  rw [decodeData, Int.toNat_natCast, hexBin_hexBytes]
  simp only [hex2Bin_hexByte, ne_eq, not_true_eq_false, if_false]

/-- **The decoder inverts the format.**  A type with the digits of the number of bytes that
follow, of an address of the right length, of the data and of the complement of their sum. -/
theorem srecDecode_record {v : Byte} {type len : ℕ} {address data : List Byte} (rest : List Byte)
    (htype : recordType v = some (type, len)) (hcount : type ≠ 5) (haddr : address.length = len)
    (hlen : len + data.length + 1 ≤ 255) :
  srecDecode (charS :: v :: (hexBytes (UInt8.ofNat (len + data.length + 1) :: address ++ data)
      ++ (hexByte (~~~chksum (UInt8.ofNat (len + data.length + 1) :: address ++ data)) ++ rest)))
    = .record type data.length (bytesWord address) data
  := by
  have hn : (UInt8.ofNat (len + data.length + 1)).toNat = len + data.length + 1 := by
    rw [UInt8.toNat_ofNat', Nat.mod_eq_of_lt (by omega)]
  have hdigits : hexBytes (UInt8.ofNat (len + data.length + 1) :: address ++ data)
      = hexByte (UInt8.ofNat (len + data.length + 1)) ++ (hexBytes address ++ hexBytes data) := by
    simp [hexBytes]
  have hdata : ((len + data.length + 1 : ℕ) : ℤ) - (len + 1) = data.length := by
    push_cast
    ring
  rw [hdigits, List.append_assoc, List.append_assoc, srecDecode]
  simp only [List.dropWhile_cons, ne_eq, not_true_eq_false, decide_false, Bool.false_eq_true, if_false,
    List.drop_succ_cons, List.drop_zero, hex2Bin_hexByte, htype, if_neg hcount, ← haddr,
    hexBin_hexBytes]
  rw [haddr, hn, hdata, decodeData_hexBytes]

/-- The address bytes give the address back, as far as they go. -/
theorem bytesWord_addrBytes {n : ℕ} (hn : n = 2 ∨ n = 3 ∨ n = 4) (addr : Word) :
  bytesWord (addrBytes n addr) = BitVec.ofNat 32 (addr.toNat % 256 ^ n)
  := by
  have ha := addr.isLt
  apply BitVec.eq_of_toNat_eq
  rcases hn with rfl | rfl | rfl
  all_goals
    simp only [bytesWord, addrBytes, List.range'_succ, List.range'_zero, List.map_cons, List.map_nil,
      List.foldl_cons, List.foldl_nil, UInt8.toNat_ofNat', Nat.shiftRight_eq_div_pow,
      BitVec.toNat_ofNat]
    omega

theorem recordType_of_addrLen {sType n : ℕ} (h : addrLen sType = some n) :
  recordType (UInt8.ofNat (sType + 48)) = some (sType, n) ∧ sType ≠ 5 ∧ (n = 2 ∨ n = 3 ∨ n = 4)
  := by
  unfold addrLen at h
  split at h
  all_goals
    cases h
    try decide

/-- **The decoder inverts `BuildSRecord`**: the type, the data, and the address, as far as it
fits into the address field. -/
theorem srecDecode_buildSRecord {sType n : ℕ} (hn : addrLen sType = some n) (addr : Word)
    (data : List Byte) (hlen : n + data.length + 1 ≤ 255) :
  srecDecode (buildSRecord sType addr data)
    = .record sType data.length (BitVec.ofNat 32 (addr.toNat % 256 ^ n)) data
  := by
  obtain ⟨htype, hcount, hn'⟩ := recordType_of_addrLen hn
  have haddr : (addrBytes n addr).length = n := by simp [addrBytes]
  rw [buildSRecord, hn, ← bytesWord_addrBytes hn', ← srecDecode_record [] htype hcount haddr hlen]
  simp

end SRecord
