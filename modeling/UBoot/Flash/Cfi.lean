import UBoot.Lib.ByteOrder
import UBoot.Lib.Memory
import UBoot.Lib.Windows

/-!
# Programming CFI flash

`write_buff` of `drivers/mtd/cfi_flash.c` programs a bank word by word, or buffer by buffer with
`CONFIG_SYS_FLASH_USE_BUFFER_WRITE`.  The chip programs what it gets by an AND with what it has, and
is always ready; a word can be programmed if it needs no bit that is 0 to be 1.

The loop that looks whether a buffer can be programmed ends with the first word that can be.
-/

namespace Cfi

open Memory

/-- `ERR_OK`. -/
def errOk : ℕ := 0

/-- `ERR_NOT_ERASED`. -/
def errNotErased : ℕ := 2

/-- `flash_info_t`: the widths of the port and of a chip, and the size of the write buffer, by their
logarithms. -/
structure Info where
  portShift : ℕ
  chipShift : ℕ
  bufShift : ℕ
  portShift_le : portShift ≤ 3
  chipShift_le : chipShift ≤ portShift

namespace Info

/-- `FLASH_CFI_8BIT`, `FLASH_CFI_16BIT`, `FLASH_CFI_32BIT` or `FLASH_CFI_64BIT`. -/
def portwidth (info : Info) : ℕ := 2 ^ info.portShift

def chipwidth (info : Info) : ℕ := 2 ^ info.chipShift

/-- `1 << qry.max_buf_write_size`. -/
def bufferSize (info : Info) : ℕ := 1 <<< info.bufShift

/-- `buffered_size`. -/
def bufferedSize (info : Info) : ℕ := info.portwidth / info.chipwidth * info.bufferSize

theorem portwidth_pos (info : Info) :
  0 < info.portwidth
  := Nat.two_pow_pos info.portShift

theorem bufferedSize_eq (info : Info) :
  info.bufferedSize = 2 ^ (info.portShift - info.chipShift + info.bufShift)
  := by
  rw [bufferedSize, portwidth, chipwidth, bufferSize, Nat.pow_div info.chipShift_le (by decide),
    Nat.one_shiftLeft, Nat.pow_add]

/-- A buffer that is not smaller than the port is a whole number of words. -/
theorem portwidth_dvd (info : Info) (h : info.portwidth ≤ info.bufferedSize) :
  info.portwidth ∣ info.bufferedSize
  := by
  rw [bufferedSize_eq, portwidth] at *
  exact Nat.pow_dvd_pow 2 ((Nat.pow_le_pow_iff_right (by decide)).mp h)

end Info

/-! ### The chip -/

section Source

variable (o : ByteOrder) (info : Info)

/-- `flash_read8`, `flash_read16`, `flash_read32` and `flash_read64`. -/
def flashRead (flash : ℕ → Byte) (p : ℕ) : ℕ := o.value (read flash p info.portwidth)

/-- A word is programmed. -/
def program (flash : ℕ → Byte) (p word : ℕ) : ℕ → Byte :=
  store flash p (o.bytes info.portwidth (flashRead o info flash p &&& word))

/-- The return code, and what is in the flash. -/
structure Result where
  rc : ℕ
  flash : ℕ → Byte

/-- What follows if there is no error. -/
def Result.andThen (r : Result) (k : (ℕ → Byte) → Result) : Result :=
  if r.rc ≠ errOk then r else k r.flash

@[simp]
theorem Result.andThen_ok (m : ℕ → Byte) (k : (ℕ → Byte) → Result) :
  (⟨errOk, m⟩ : Result).andThen k = k m
  := rfl

@[simp]
theorem Result.andThen_notErased (m : ℕ → Byte) (k : (ℕ → Byte) → Result) :
  (⟨errNotErased, m⟩ : Result).andThen k = ⟨errNotErased, m⟩
  := rfl

/-! ### The functions -/

/-- `flash_add_byte`. -/
def flashAddByte (cword : ℕ) (c : Byte) : ℕ :=
  if info.portwidth = 1 then c.toNat else o.shiftIn info.portwidth cword c

/-- The loops that collect the bytes of a word. -/
def addBytes (cword : ℕ) (cs : List Byte) : ℕ := cs.foldl (flashAddByte o info) cword

/-- `flash_write_cfiword`. -/
def flashWriteCfiword (dest cword : ℕ) (flash : ℕ → Byte) : Result :=
  if flashRead o info flash dest &&& cword = cword then ⟨errOk, program o info flash dest cword⟩
  else ⟨errNotErased, flash⟩

/-- The loop of `flash_write_cfibuffer` that looks whether the flash is erased. -/
def bufferFlag (flash : ℕ → Byte) : ℕ → ℕ → List Byte → Bool → Bool
  | 0, _, _, flag => flag
  | cnt + 1, dst2, src, flag =>
    if flag = false then
      let word := o.value (src.take info.portwidth)
      bufferFlag flash cnt (dst2 + info.portwidth) (src.drop info.portwidth)
        (flashRead o info flash dst2 &&& word = word)
    else flag

/-- The loop of `flash_write_cfibuffer` that hands over the words. -/
def bufferWrite : ℕ → ℕ → List Byte → (ℕ → Byte) → ℕ → Byte
  | 0, _, _, flash => flash
  | cnt + 1, dst, src, flash =>
    bufferWrite cnt (dst + info.portwidth) (src.drop info.portwidth)
      (program o info flash dst (o.value (src.take info.portwidth)))

/-- `flash_write_cfibuffer`. -/
def flashWriteCfibuffer (dest : ℕ) (cp : List Byte) (flash : ℕ → Byte) : Result :=
  let cnt := cp.length >>> info.portShift
  if bufferFlag o info flash cnt dest cp false then ⟨errOk, bufferWrite o info cnt dest cp flash⟩
  else ⟨errNotErased, flash⟩

/-- The tail of `write_buff`. -/
def writeTail (wp : ℕ) (src : List Byte) (flash : ℕ → Byte) : Result :=
  if src.length = 0 then ⟨errOk, flash⟩
  else
    flashWriteCfiword o info wp (addBytes o info 0
      (src ++ read flash (wp + src.length) (info.portwidth - src.length))) flash

/-- The aligned part of `write_buff` and its tail. -/
def writeWords (wp : ℕ) (src : List Byte) (flash : ℕ → Byte) : Result :=
  if _h : info.portwidth ≤ src.length then
    (flashWriteCfiword o info wp (addBytes o info 0 (src.take info.portwidth)) flash).andThen
      fun flash => writeWords (wp + info.portwidth) (src.drop info.portwidth) flash
  else writeTail o info wp src flash
  termination_by src.length
  decreasing_by
    have hpos := info.portwidth_pos
    rw [List.length_drop]
    omega

/-- A buffer is handed over if it has a word. -/
theorem le_length_of_ok {dest : ℕ} {cp : List Byte} {flash : ℕ → Byte}
    (h : ¬ (flashWriteCfibuffer o info dest cp flash).rc ≠ errOk) :
  info.portwidth ≤ cp.length
  := by
  by_contra hlt
  have hcnt : cp.length >>> info.portShift = 0 := by
    rw [Nat.shiftRight_eq_div_pow]
    exact Nat.div_eq_of_lt (not_le.mp hlt)
  rw [flashWriteCfibuffer, hcnt] at h
  exact h (show errNotErased ≠ errOk by decide)

/-- The number of bytes up to the end of a buffer. -/
def untilBoundary (wp cnt : ℕ) : ℕ :=
  let i := info.bufferedSize - wp % info.bufferedSize
  if i > cnt then cnt else i

/-- What is left of a number of bytes without those of a word that is not complete. -/
def wholeWords (i : ℕ) : ℕ := i - (i &&& (info.portwidth - 1))

theorem wholeWords_eq (i : ℕ) :
  wholeWords info i = i / info.portwidth * info.portwidth
  := by
  have hmod : i &&& (info.portwidth - 1) = i % info.portwidth :=
    Nat.and_two_pow_sub_one_eq_mod i info.portShift
  have hdiv := Nat.div_add_mod' i info.portwidth
  rw [wholeWords, hmod]
  omega

theorem wholeWords_pos {i : ℕ} (h : info.portwidth ≤ i) :
  0 < wholeWords info i
  := by
  have hpos := info.portwidth_pos
  rw [wholeWords_eq]
  exact Nat.mul_pos (Nat.div_pos h hpos) hpos

/-- The aligned part of `write_buff` with `CONFIG_SYS_FLASH_USE_BUFFER_WRITE`, and its tail. -/
def writeBuffers (wp : ℕ) (src : List Byte) (flash : ℕ → Byte) : Result :=
  if _h : info.portwidth ≤ src.length then
    if info.bufferSize = 1 then
      (flashWriteCfiword o info wp (addBytes o info 0 (src.take info.portwidth)) flash).andThen
        fun flash => writeBuffers (wp + info.portwidth) (src.drop info.portwidth) flash
    else
      let i := untilBoundary info wp src.length
      let r := flashWriteCfibuffer o info wp (src.take i) flash
      if _hr : r.rc ≠ errOk then r
      else writeBuffers (wp + wholeWords info i) (src.drop (wholeWords info i)) r.flash
  else writeTail o info wp src flash
  termination_by src.length
  decreasing_by
    · have hpos := info.portwidth_pos
      rw [List.length_drop]
      omega
    · have hpos := info.portwidth_pos
      have hle : info.portwidth ≤ untilBoundary info wp src.length :=
        (le_length_of_ok o info _hr).trans (List.length_take_le _ _)
      have hwhole := wholeWords_pos info hle
      rw [List.length_drop]
      omega

/-- The aligned part of `write_buff`, with `CONFIG_SYS_FLASH_USE_BUFFER_WRITE` or without it. -/
def writeAligned (buffered : Bool) : ℕ → List Byte → (ℕ → Byte) → Result :=
  if buffered then writeBuffers o info else writeWords o info

/-- The bytes that `write_buff` collects for an unaligned start. -/
def startBytes (wp aln : ℕ) (src : List Byte) (flash : ℕ → Byte) : List Byte :=
  let n := min (info.portwidth - aln) src.length
  read flash wp aln ++ src.take n
    ++ if src.length - n = 0 then read flash (wp + (aln + n)) (info.portwidth - (aln + n)) else []

/-- `write_buff`. -/
def writeBuff (buffered : Bool) (addr : ℕ) (src : List Byte) (flash : ℕ → Byte) : Result :=
  let wp := addr >>> info.portShift <<< info.portShift
  let aln := addr - wp
  if aln ≠ 0 then
    let bytes := startBytes info wp aln src flash
    (flashWriteCfiword o info wp (addBytes o info 0 bytes) flash).andThen
      (writeAligned o info buffered (wp + bytes.length) (src.drop (info.portwidth - aln)))
  else writeAligned o info buffered wp src flash

end Source

/-! ### What can be programmed -/

/-- No bit that is 0 needs to be 1. -/
def Fits (flash : ℕ → Byte) (p : ℕ) (bs : List Byte) : Prop :=
  List.zipWith (· &&& ·) (read flash p bs.length) bs = bs

instance Fits.decidable (flash : ℕ → Byte) (p : ℕ) (bs : List Byte) : Decidable (Fits flash p bs) :=
  instDecidableEqList _ _

section Fits

variable {flash : ℕ → Byte} {p q : ℕ} {bs bs' : List Byte}

theorem fits_nil :
  Fits flash p []
  := rfl

theorem fits_append :
  Fits flash p (bs ++ bs') ↔ Fits flash p bs ∧ Fits flash (p + bs.length) bs'
  := by
  rw [Fits, Fits, Fits, List.length_append, read_add, List.zipWith_append (length_read _ _ _)]
  constructor
  · intro h
    exact List.append_inj h (by simp)
  · rintro ⟨h, h'⟩
    rw [h, h']

/-- What is in the flash can be programmed. -/
theorem fits_read (n : ℕ) :
  Fits flash p (read flash p n)
  := by
  rw [Fits, length_read, List.zipWith_self]
  simp

/-- Bytes are cut in two. -/
theorem fits_cut {n : ℕ} (h : n ≤ bs.length) :
  Fits flash p bs ↔ Fits flash p (bs.take n) ∧ Fits flash (p + n) (bs.drop n)
  := by
  have happ : Fits flash p (bs.take n ++ bs.drop n) ↔ _ := fits_append
  rwa [List.take_append_drop, List.length_take_of_le h] at happ

theorem fits_congr {flash' : ℕ → Byte} (h : ∀ r, p ≤ r → flash' r = flash r) :
  Fits flash' p bs ↔ Fits flash p bs
  := by
  have hread : read flash' p bs.length = read flash p bs.length := by
    apply read_congr
    intro r hr _
    exact h r hr
  rw [Fits, Fits, hread]

theorem fits_store (h : q + bs'.length ≤ p) :
  Fits (store flash q bs') p bs ↔ Fits flash p bs
  := by
  apply fits_congr
  intro r hr
  exact store_of_le bs' (by omega)

/-- Bytes are merged with what is in the flash before and behind them. -/
theorem fits_merged (a k : ℕ) :
  Fits flash p (read flash p a ++ bs ++ read flash (p + (a + bs.length)) k)
    ↔ Fits flash (p + a) bs
  := by
  rw [fits_append, fits_append, List.length_append, length_read]
  constructor
  · intro h
    exact h.1.2
  · intro h
    exact ⟨⟨fits_read a, h⟩, fits_read k⟩

/-- What was behind the bytes is written back. -/
theorem store_read_behind (k : ℕ) :
  store (store flash p bs) (p + bs.length) (read flash (p + bs.length) k) = store flash p bs
  := by
  have hread : read flash (p + bs.length) k = read (store flash p bs) (p + bs.length) k := by
    apply read_congr
    intro q hq _
    exact (store_of_le bs hq).symm
  rw [hread, store_read]

theorem store_merged (a k : ℕ) :
  store flash p (read flash p a ++ bs ++ read flash (p + (a + bs.length)) k)
    = store flash (p + a) bs
  := by
  rw [store_append, store_append, store_read, List.length_append, length_read, ← Nat.add_assoc,
    store_read_behind]

end Fits

/-! ### One word -/

section Word

variable (o : ByteOrder) {info : Info} {flash : ℕ → Byte} {p : ℕ} {bs : List Byte}

theorem value_replicate (n : ℕ) :
  o.value (List.replicate n 0) = 0
  := by
  have hzero : ByteOrder.leValue (List.replicate n 0) = 0 := by
    induction n with
    | zero => rfl
    | succ n ih =>
      rw [List.replicate_succ, ByteOrder.leValue, ih]
      rfl
  cases o with
  | littleEndian => exact hzero
  | bigEndian =>
    rw [ByteOrder.value, List.reverse_replicate]
    exact hzero

/-- The bytes that are added are the bytes of the word. -/
theorem addBytes_eq (h : bs.length = info.portwidth) :
  addBytes o info 0 bs = o.value bs
  := by
  have hpos := info.portwidth_pos
  by_cases hone : info.portwidth = 1
  · rw [hone] at h
    obtain ⟨c, rfl⟩ := List.length_eq_one_iff.mp h
    have hadd : addBytes o info 0 [c] = c.toNat := if_pos hone
    rw [hadd]
    cases o <;> rfl
  · have hadd : flashAddByte o info = o.shiftIn info.portwidth := by
      funext cword c
      exact if_neg hone
    have hfold := ByteOrder.foldl_shiftIn o (List.replicate info.portwidth 0) bs
      (by rw [List.length_replicate]; exact hpos)
    rw [List.length_replicate, value_replicate, h] at hfold
    rw [addBytes, hadd, hfold, List.drop_left' (List.length_replicate)]

/-- The check of a word is a check of its bytes. -/
theorem flashRead_land_eq_iff (h : bs.length = info.portwidth) :
  flashRead o info flash p &&& o.value bs = o.value bs ↔ Fits flash p bs
  := by
  have hlen : (read flash p info.portwidth).length = bs.length := by
    rw [length_read, h]
  rw [flashRead, ByteOrder.value_land o hlen, ByteOrder.value_inj o (by simp [hlen]), Fits, h]

/-- What is programmed is an AND of the bytes. -/
theorem program_eq (h : bs.length = info.portwidth) :
  program o info flash p (o.value bs)
    = store flash p (List.zipWith (· &&& ·) (read flash p bs.length) bs)
  := by
  have hlen : (read flash p info.portwidth).length = bs.length := by
    rw [length_read, h]
  have hzip : (List.zipWith (· &&& ·) (read flash p info.portwidth) bs).length
      = info.portwidth := by
    simp [h]
  have hbytes := ByteOrder.bytes_value o (List.zipWith (· &&& ·) (read flash p info.portwidth) bs)
  rw [hzip] at hbytes
  rw [program, flashRead, ByteOrder.value_land o hlen, hbytes, h]

theorem program_of_fits (h : bs.length = info.portwidth) (hfits : Fits flash p bs) :
  program o info flash p (o.value bs) = store flash p bs
  := by
  rw [program_eq o h, hfits]

theorem flashWriteCfiword_eq (h : bs.length = info.portwidth) :
  flashWriteCfiword o info p (o.value bs) flash
    = if Fits flash p bs then ⟨errOk, store flash p bs⟩ else ⟨errNotErased, flash⟩
  := by
  rw [flashWriteCfiword, if_congr (flashRead_land_eq_iff o h) rfl rfl]
  split
  case isTrue hfits => rw [program_of_fits o h hfits]
  case isFalse => rfl

end Word

/-! ### Without the buffer -/

/-- There is no error exactly if `Q`, and bytes that can be programmed are written. -/
structure Writes (Q : Prop) (r : Result) (flash : ℕ → Byte) (p : ℕ) (bs : List Byte) : Prop where
  ok : Q → r.rc = errOk
  notErased : ¬ Q → r.rc = errNotErased
  flash : Fits flash p bs → r.flash = store flash p bs

section Writes

variable (o : ByteOrder) {info : Info} {flash : ℕ → Byte} {p : ℕ} {bs bs' : List Byte}
  {Q : Prop} {r : Result}

theorem Writes.congr {Q' : Prop} (h : Writes Q r flash p bs) (hiff : Q ↔ Q') :
  Writes Q' r flash p bs
  := by
  rwa [← propext hiff]

theorem Writes.of_fits (h : Fits flash p bs) :
  Writes (Fits flash p bs) ⟨errOk, store flash p bs⟩ flash p bs
  := ⟨fun _ => rfl, fun hnot => absurd h hnot, fun _ => rfl⟩

/-- What is not written was not to be written. -/
theorem Writes.of_not (hrc : r.rc = errNotErased) (hQ : ¬ Q) (h : ¬ Fits flash p bs) :
  Writes Q r flash p bs
  := ⟨fun hq => absurd hq hQ, fun _ => hrc, fun hfits => absurd hfits h⟩

theorem Writes.of_ite (flash : ℕ → Byte) (p : ℕ) (bs : List Byte) :
  Writes (Fits flash p bs)
    (if Fits flash p bs then ⟨errOk, store flash p bs⟩ else ⟨errNotErased, flash⟩) flash p bs
  := by
  split
  case isTrue h => exact Writes.of_fits h
  case isFalse h => exact Writes.of_not rfl h h

/-- Bytes are written, and then those behind them. -/
theorem Writes.andThen {k : (ℕ → Byte) → Result} (hr : Writes (Fits flash p bs) r flash p bs)
    (hk : Fits flash p bs →
      Writes Q (k (store flash p bs)) (store flash p bs) (p + bs.length) bs') :
  Writes (Fits flash p bs ∧ Q) (r.andThen k) flash p (bs ++ bs')
  := by
  by_cases hfits : Fits flash p bs
  · have hrest := hk hfits
    rw [Result.andThen, if_neg (not_not.mpr (hr.ok hfits)), hr.flash hfits]
    constructor
    · intro h
      exact hrest.ok h.2
    · intro h
      exact hrest.notErased fun hQ => h ⟨hfits, hQ⟩
    · intro h
      rw [hrest.flash ((fits_store le_rfl).mpr (fits_append.mp h).2), store_append]
  · have hne : r.rc ≠ errOk := by
      rw [hr.notErased hfits]
      decide
    rw [Result.andThen, if_pos hne]
    exact Writes.of_not (hr.notErased hfits) (fun h => hfits h.1)
      fun h => hfits (fits_append.mp h).1

theorem writes_writeTail (h : bs.length < info.portwidth) :
  Writes (Fits flash p bs) (writeTail o info p bs flash) flash p bs
  := by
  rw [writeTail]
  split
  case isTrue hnil =>
    obtain rfl := List.length_eq_zero_iff.mp hnil
    exact Writes.of_fits fits_nil
  case isFalse =>
    have hword : (bs ++ read flash (p + bs.length) (info.portwidth - bs.length)).length
        = info.portwidth := by
      rw [List.length_append, length_read]
      omega
    have hfits : Fits flash p (bs ++ read flash (p + bs.length) (info.portwidth - bs.length))
        ↔ Fits flash p bs := by
      rw [fits_append]
      exact and_iff_left (fits_read _)
    have hstore : store flash p (bs ++ read flash (p + bs.length) (info.portwidth - bs.length))
        = store flash p bs := by
      rw [store_append, store_read_behind]
    rw [addBytes_eq o hword, flashWriteCfiword_eq o hword, hstore, if_congr hfits rfl rfl]
    apply Writes.of_ite

theorem writes_writeWords :
  Writes (Fits flash p bs) (writeWords o info p bs flash) flash p bs
  := by
  induction hn : bs.length using Nat.strong_induction_on generalizing p bs flash with
  | _ n ih =>
    subst hn
    rw [writeWords]
    split
    case isTrue hle =>
      have hpos := info.portwidth_pos
      have hword : (bs.take info.portwidth).length = info.portwidth := List.length_take_of_le hle
      have hrest : Writes (Fits flash (p + info.portwidth) (bs.drop info.portwidth))
          (writeWords o info (p + info.portwidth) (bs.drop info.portwidth)
            (store flash p (bs.take info.portwidth)))
          (store flash p (bs.take info.portwidth)) (p + (bs.take info.portwidth).length)
          (bs.drop info.portwidth) := by
        rw [hword]
        apply (ih (bs.drop info.portwidth).length (by rw [List.length_drop]; omega) rfl).congr
        exact fits_store (by rw [hword])
      have hwrites := (Writes.of_ite flash p (bs.take info.portwidth)).andThen fun _ => hrest
      rw [List.take_append_drop] at hwrites
      rw [addBytes_eq o hword, flashWriteCfiword_eq o hword]
      exact hwrites.congr (fits_cut hle).symm
    case isFalse hlt => exact writes_writeTail o (not_le.mp hlt)

end Writes

/-! ### One buffer -/

/-- The `j`-th word can be programmed. -/
def WordFits (info : Info) (flash : ℕ → Byte) (p : ℕ) (bs : List Byte) (j : ℕ) : Prop :=
  Fits flash (p + j * info.portwidth) ((bs.drop (j * info.portwidth)).take info.portwidth)

instance WordFits.decidable (info : Info) (flash : ℕ → Byte) (p : ℕ) (bs : List Byte) :
    DecidablePred (WordFits info flash p bs) :=
  fun _ => Fits.decidable _ _ _

section Buffer

variable (o : ByteOrder) {info : Info} {flash : ℕ → Byte} {p : ℕ} {bs : List Byte}

theorem wordFits_add (n j : ℕ) :
  WordFits info flash p bs (n + j)
    ↔ WordFits info flash (p + n * info.portwidth) (bs.drop (n * info.portwidth)) j
  := by
  rw [WordFits, WordFits, List.drop_drop, Nat.add_mul, Nat.add_assoc]

theorem wordFits_take {i j : ℕ} (h : j * info.portwidth + info.portwidth ≤ i) :
  WordFits info flash p (bs.take i) j ↔ WordFits info flash p bs j
  := by
  rw [WordFits, WordFits, List.drop_take, List.take_take, Nat.min_eq_left (by omega)]

/-- Every word of bytes that can be programmed can be programmed. -/
theorem wordFits_of_fits (h : Fits flash p bs) {j : ℕ} (hj : j < bs.length / info.portwidth) :
  WordFits info flash p bs j
  := by
  have hle : (j + 1) * info.portwidth ≤ bs.length :=
    (Nat.le_div_iff_mul_le info.portwidth_pos).mp hj
  rw [Nat.succ_mul] at hle
  have hdrop := ((fits_cut (n := j * info.portwidth) (by omega)).mp h).2
  have htake : Fits flash (p + j * info.portwidth) (bs.drop (j * info.portwidth))
      ↔ WordFits info flash p bs j ∧ _ := fits_cut (by rw [List.length_drop]; omega)
  exact (htake.mp hdrop).1

/-- The loop ends with the first word that can be programmed. -/
theorem bufferFlag_iff {cnt : ℕ} (flag : Bool) (h : cnt * info.portwidth ≤ bs.length) :
  bufferFlag o info flash cnt p bs flag = true
    ↔ flag = true ∨ ∃ j < cnt, WordFits info flash p bs j
  := by
  induction cnt generalizing p bs flag with
  | zero => simp [bufferFlag]
  | succ cnt ih =>
    cases flag with
    | true => simp [bufferFlag]
    | false =>
      rw [Nat.succ_mul] at h
      have hword : (bs.take info.portwidth).length = info.portwidth :=
        List.length_take_of_le (by omega)
      have hfirst : WordFits info flash p bs 0 ↔ Fits flash p (bs.take info.portwidth) := by
        rw [WordFits, Nat.zero_mul, Nat.add_zero, List.drop_zero]
      have hrest : ∀ j, WordFits info flash p bs (j + 1)
          ↔ WordFits info flash (p + info.portwidth) (bs.drop info.portwidth) j := by
        intro j
        rw [Nat.add_comm, wordFits_add, Nat.one_mul]
      rw [bufferFlag, if_pos rfl, ih _ (by rw [List.length_drop]; omega), decide_eq_true_eq,
        flashRead_land_eq_iff o hword, ← hfirst]
      constructor
      · rintro (hzero | ⟨j, hj, hfits⟩)
        · exact Or.inr ⟨0, Nat.succ_pos _, hzero⟩
        · exact Or.inr ⟨j + 1, Nat.succ_lt_succ hj, (hrest j).mpr hfits⟩
      · rintro (⟨⟨⟩⟩ | ⟨j, hj, hfits⟩)
        cases j with
        | zero => exact Or.inl hfits
        | succ j => exact Or.inr ⟨j, Nat.lt_of_succ_lt_succ hj, (hrest j).mp hfits⟩

/-- The words that are handed over are written. -/
theorem bufferWrite_of_fits {cnt : ℕ} (h : cnt * info.portwidth ≤ bs.length)
    (hfits : Fits flash p (bs.take (cnt * info.portwidth))) :
  bufferWrite o info cnt p bs flash = store flash p (bs.take (cnt * info.portwidth))
  := by
  induction cnt generalizing p bs flash with
  | zero => rw [bufferWrite, Nat.zero_mul, List.take_zero, store]
  | succ cnt ih =>
    rw [Nat.succ_mul] at h
    have hword : (bs.take info.portwidth).length = info.portwidth :=
      List.length_take_of_le (by omega)
    have hsplit : bs.take ((cnt + 1) * info.portwidth)
        = bs.take info.portwidth ++ (bs.drop info.portwidth).take (cnt * info.portwidth) := by
      rw [Nat.succ_mul, Nat.add_comm, List.take_add]
    rw [hsplit] at hfits ⊢
    rw [fits_append, hword] at hfits
    rw [bufferWrite, program_of_fits o hword hfits.1, store_append, hword]
    apply ih (by rw [List.length_drop]; omega)
    rw [fits_store (by omega)]
    exact hfits.2

/-- Behind the words that are handed over nothing is programmed. -/
theorem bufferWrite_of_le {cnt q : ℕ} (h : cnt * info.portwidth ≤ bs.length)
    (hq : p + cnt * info.portwidth ≤ q) :
  bufferWrite o info cnt p bs flash q = flash q
  := by
  induction cnt generalizing p bs flash with
  | zero => rfl
  | succ cnt ih =>
    rw [Nat.succ_mul] at h hq
    have hword : (bs.take info.portwidth).length = info.portwidth :=
      List.length_take_of_le (by omega)
    rw [bufferWrite, ih (by rw [List.length_drop]; omega) (by omega), program_eq o hword]
    apply store_of_le
    simp only [List.length_zipWith, length_read, hword, Nat.min_self]
    omega

end Buffer

/-! ### Buffer by buffer -/

/-- In every buffer a word can be programmed, and so can the tail. -/
def BuffersFit (info : Info) (flash : ℕ → Byte) (p : ℕ) (bs : List Byte) : Prop :=
  let k := bs.length / info.portwidth
  ¬ Windows.AllBad (info.bufferedSize / info.portwidth) (p / info.portwidth) k
      (WordFits info flash p bs)
    ∧ Fits flash (p + k * info.portwidth) (bs.drop (k * info.portwidth))

instance BuffersFit.decidable (info : Info) (flash : ℕ → Byte) (p : ℕ) (bs : List Byte) :
    Decidable (BuffersFit info flash p bs) :=
  instDecidableAnd

section Buffers

variable (o : ByteOrder) {info : Info} {flash : ℕ → Byte} {p : ℕ} {bs : List Byte}

/-- The words of the first buffer. -/
def firstWords (info : Info) (p cnt : ℕ) : ℕ :=
  Windows.first (info.bufferedSize / info.portwidth) (p / info.portwidth) (cnt / info.portwidth)

theorem untilBoundary_div (hbuf : info.portwidth ≤ info.bufferedSize) (hp : info.portwidth ∣ p)
    (cnt : ℕ) :
  untilBoundary info p cnt / info.portwidth = firstWords info p cnt
  := by
  obtain ⟨b, hb⟩ := info.portwidth_dvd hbuf
  obtain ⟨a, rfl⟩ := hp
  have hpos := info.portwidth_pos
  have hbound : info.bufferedSize - info.portwidth * a % info.bufferedSize
      = info.portwidth * (b - a % b) := by
    rw [hb, Nat.mul_mod_mul_left, Nat.mul_sub]
  have hmin : untilBoundary info (info.portwidth * a) cnt
      = min (info.portwidth * (b - a % b)) cnt := by
    rw [untilBoundary, hbound]
    simp only [gt_iff_lt]
    split <;> omega
  rw [hmin, firstWords, Windows.first, hb, Nat.mul_div_cancel_left _ hpos,
    Nat.mul_div_cancel_left _ hpos]
  obtain hle | hle := le_total (info.portwidth * (b - a % b)) cnt
  · have hdiv := Nat.div_le_div_right (c := info.portwidth) hle
    rw [Nat.mul_div_cancel_left _ hpos] at hdiv
    rw [Nat.min_eq_left hle, Nat.mul_div_cancel_left _ hpos, Nat.min_eq_left hdiv]
  · have hdiv := Nat.div_le_div_right (c := info.portwidth) hle
    rw [Nat.mul_div_cancel_left _ hpos] at hdiv
    rw [Nat.min_eq_right hle, Nat.min_eq_right hdiv]

theorem untilBoundary_le (cnt : ℕ) :
  untilBoundary info p cnt ≤ cnt
  := by
  rw [untilBoundary]
  simp only [gt_iff_lt]
  split <;> omega

/-- One buffer is written, or it is not erased. -/
theorem writeBuffers_step (flash : ℕ → Byte) (hsize : info.bufferSize ≠ 1)
    (hbuf : info.portwidth ≤ info.bufferedSize) (hp : info.portwidth ∣ p)
    (hle : info.portwidth ≤ bs.length) :
  ∃ m, (∀ q, p + firstWords info p bs.length * info.portwidth ≤ q → m q = flash q)
    ∧ (Fits flash p (bs.take (firstWords info p bs.length * info.portwidth)) →
      m = store flash p (bs.take (firstWords info p bs.length * info.portwidth)))
    ∧ ((∃ j < firstWords info p bs.length, WordFits info flash p bs j) →
      writeBuffers o info p bs flash
        = writeBuffers o info (p + firstWords info p bs.length * info.portwidth)
            (bs.drop (firstWords info p bs.length * info.portwidth)) m)
    ∧ ((¬ ∃ j < firstWords info p bs.length, WordFits info flash p bs j) →
      writeBuffers o info p bs flash = ⟨errNotErased, flash⟩)
  := by
  have hdiv := untilBoundary_div hbuf hp bs.length
  have hwhole : wholeWords info (untilBoundary info p bs.length)
      = firstWords info p bs.length * info.portwidth := by
    rw [wholeWords_eq, hdiv]
  have hmul := Nat.div_mul_le_self (untilBoundary info p bs.length) info.portwidth
  rw [hdiv] at hmul
  have hlen : (bs.take (untilBoundary info p bs.length)).length
      = untilBoundary info p bs.length := List.length_take_of_le (untilBoundary_le _)
  have hcnt : (bs.take (untilBoundary info p bs.length)).length >>> info.portShift
      = firstWords info p bs.length := by
    rw [hlen, Nat.shiftRight_eq_div_pow]
    exact hdiv
  have htake : (bs.take (untilBoundary info p bs.length)).take
      (firstWords info p bs.length * info.portwidth)
        = bs.take (firstWords info p bs.length * info.portwidth) := by
    rw [List.take_take, Nat.min_eq_left hmul]
  have hflag : bufferFlag o info flash (firstWords info p bs.length) p
      (bs.take (untilBoundary info p bs.length)) false = true
        ↔ ∃ j < firstWords info p bs.length, WordFits info flash p bs j := by
    rw [bufferFlag_iff o false (by rw [hlen]; exact hmul)]
    simp only [Bool.false_eq_true, false_or]
    apply exists_congr
    intro j
    apply and_congr_right
    intro hj
    apply wordFits_take
    have hword := Nat.mul_le_mul_right info.portwidth (Nat.succ_le_of_lt hj)
    rw [Nat.succ_mul] at hword
    exact hword.trans hmul
  use bufferWrite o info (firstWords info p bs.length) p
    (bs.take (untilBoundary info p bs.length)) flash
  refine ⟨?_, ?_, ?_, ?_⟩
  · intro q hq
    exact bufferWrite_of_le o (by rw [hlen]; exact hmul) hq
  · intro hfits
    rw [bufferWrite_of_fits o (by rw [hlen]; exact hmul) (by rwa [htake]), htake]
  · intro hfits
    rw [writeBuffers, dif_pos hle, if_neg hsize]
    simp only [flashWriteCfibuffer, hcnt, if_pos (hflag.mpr hfits), hwhole]
    rw [dif_neg (by decide)]
  · intro hbad
    rw [writeBuffers, dif_pos hle, if_neg hsize]
    simp only [flashWriteCfibuffer, hcnt, if_neg (hflag.not.mpr hbad)]
    rw [dif_pos (by decide)]

theorem firstWords_le (cnt : ℕ) :
  firstWords info p cnt ≤ cnt / info.portwidth
  := Windows.first_le

theorem firstWords_mul_le (cnt : ℕ) :
  firstWords info p cnt * info.portwidth ≤ cnt
  := (Nat.mul_le_mul_right _ (firstWords_le cnt)).trans (Nat.div_mul_le_self _ _)

theorem firstWords_pos (hbuf : info.portwidth ≤ info.bufferedSize) {cnt : ℕ}
    (h : info.portwidth ≤ cnt) :
  0 < firstWords info p cnt
  := Windows.first_pos (Nat.div_pos hbuf info.portwidth_pos) (Nat.div_pos h info.portwidth_pos)

theorem buffersFit_congr {m : ℕ → Byte} (h : ∀ q, p ≤ q → m q = flash q) :
  BuffersFit info m p bs ↔ BuffersFit info flash p bs
  := by
  have hword : WordFits info m p bs = WordFits info flash p bs := by
    funext j
    apply propext
    apply fits_congr
    intro r hr
    exact h r (by omega)
  rw [BuffersFit, BuffersFit, hword]
  apply and_congr_right
  intro _
  apply fits_congr
  intro r hr
  exact h r (by omega)

/-- The first buffer, and those behind it. -/
theorem buffersFit_step (flash : ℕ → Byte) (hbuf : info.portwidth ≤ info.bufferedSize)
    (hle : info.portwidth ≤ bs.length) :
  BuffersFit info flash p bs ↔ (∃ j < firstWords info p bs.length, WordFits info flash p bs j)
    ∧ BuffersFit info flash (p + firstWords info p bs.length * info.portwidth)
      (bs.drop (firstWords info p bs.length * info.portwidth))
  := by
  have hpos := info.portwidth_pos
  have hall := Windows.allBad_iff (p / info.portwidth) (WordFits info flash p bs)
    (Nat.div_pos hbuf hpos) (Nat.div_pos hle hpos)
  rw [← firstWords] at hall
  have hn : firstWords info p bs.length ≤ bs.length / info.portwidth := firstWords_le _
  generalize firstWords info p bs.length = n at *
  have hgood : (fun i => WordFits info flash p bs (n + i))
      = WordFits info flash (p + n * info.portwidth) (bs.drop (n * info.portwidth)) := by
    funext i
    exact propext (wordFits_add n i)
  have hstart : (p + n * info.portwidth) / info.portwidth = p / info.portwidth + n :=
    Nat.add_mul_div_right _ _ hpos
  have hcount : (bs.length - n * info.portwidth) / info.portwidth
      = bs.length / info.portwidth - n := by
    rw [Nat.mul_comm, Nat.sub_mul_div]
  have hsum : n * info.portwidth + (bs.length / info.portwidth - n) * info.portwidth
      = bs.length / info.portwidth * info.portwidth := by
    rw [← Nat.add_mul, Nat.add_sub_of_le hn]
  rw [BuffersFit, BuffersFit, hall, hgood, List.length_drop, hstart, hcount, List.drop_drop,
    Nat.add_assoc, hsum, not_or, and_assoc]
  simp only [not_forall, not_not, exists_prop]

theorem buffersFit_of_lt (h : bs.length < info.portwidth) :
  BuffersFit info flash p bs ↔ Fits flash p bs
  := by
  rw [BuffersFit, Nat.div_eq_of_lt h, Nat.zero_mul, Nat.add_zero, List.drop_zero]
  apply and_iff_right
  apply Windows.not_allBad
  intro i hi
  exact absurd hi (Nat.not_lt_zero i)

theorem buffersFit_of_fits (h : Fits flash p bs) :
  BuffersFit info flash p bs
  := by
  constructor
  · apply Windows.not_allBad
    intro i hi
    exact wordFits_of_fits h hi
  · exact ((fits_cut (Nat.div_mul_le_self _ _)).mp h).2

/-- There is no error if in every buffer a word can be programmed. -/
theorem writes_writeBuffers (hsize : info.bufferSize ≠ 1)
    (hbuf : info.portwidth ≤ info.bufferedSize) (hp : info.portwidth ∣ p) :
  Writes (BuffersFit info flash p bs) (writeBuffers o info p bs flash) flash p bs
  := by
  induction hn : bs.length using Nat.strong_induction_on generalizing p bs flash with
  | _ n ih =>
    subst hn
    by_cases hle : info.portwidth ≤ bs.length
    · obtain ⟨m, hm, hstore, hrun, herr⟩ := writeBuffers_step o flash hsize hbuf hp hle
      have hstep := buffersFit_step flash hbuf hle (p := p)
      by_cases hfirst : ∃ j < firstWords info p bs.length, WordFits info flash p bs j
      · have hwidth := info.portwidth_pos
        have hpos := Nat.mul_pos (firstWords_pos (p := p) hbuf hle) hwidth
        have hrest : Writes
            (BuffersFit info m (p + firstWords info p bs.length * info.portwidth)
              (bs.drop (firstWords info p bs.length * info.portwidth)))
            (writeBuffers o info (p + firstWords info p bs.length * info.portwidth)
              (bs.drop (firstWords info p bs.length * info.portwidth)) m)
            m (p + firstWords info p bs.length * info.portwidth)
            (bs.drop (firstWords info p bs.length * info.portwidth)) := by
          apply ih _ _ (hp.add (Nat.dvd_mul_left _ _)) rfl
          rw [List.length_drop]
          omega
        have hiff := (buffersFit_congr hm).trans (hstep.trans (and_iff_right hfirst)).symm
        rw [hrun hfirst]
        constructor
        · intro h
          exact hrest.ok (hiff.mpr h)
        · intro h
          exact hrest.notErased (hiff.not.mpr h)
        · intro hfits
          have hwords : firstWords info p bs.length * info.portwidth ≤ bs.length :=
            firstWords_mul_le _
          have hcut := (fits_cut hwords).mp hfits
          have hlen := List.length_take_of_le hwords
          rw [hrest.flash ((fits_congr hm).mpr hcut.2), hstore hcut.1]
          conv_rhs => rw [← List.take_append_drop
            (firstWords info p bs.length * info.portwidth) bs, store_append, hlen]
      · have hnot : ¬ BuffersFit info flash p bs := fun h => hfirst (hstep.mp h).1
        rw [herr hfirst]
        exact Writes.of_not rfl hnot fun hfits => hnot (buffersFit_of_fits hfits)
    · rw [writeBuffers, dif_neg hle]
      exact (writes_writeTail o (not_le.mp hle)).congr (buffersFit_of_lt (not_le.mp hle)).symm

/-- No buffer is handed over that is smaller than a word. -/
theorem writeBuffers_of_lt (hsize : info.bufferSize ≠ 1) (hbuf : info.bufferedSize < info.portwidth)
    (hle : info.portwidth ≤ bs.length) :
  writeBuffers o info p bs flash = ⟨errNotErased, flash⟩
  := by
  have hlt : untilBoundary info p bs.length < info.portwidth := by
    have hmod := Nat.sub_le info.bufferedSize (p % info.bufferedSize)
    rw [untilBoundary]
    simp only [gt_iff_lt]
    split <;> omega
  have hcnt : (bs.take (untilBoundary info p bs.length)).length >>> info.portShift = 0 := by
    rw [List.length_take_of_le (untilBoundary_le _), Nat.shiftRight_eq_div_pow]
    exact Nat.div_eq_of_lt hlt
  rw [writeBuffers, dif_pos hle, if_neg hsize]
  simp only [flashWriteCfibuffer, hcnt, bufferFlag, Bool.false_eq_true, if_false]
  rw [dif_pos (by decide)]

/-- A buffer of one byte is not used. -/
theorem writeBuffers_of_one (hsize : info.bufferSize = 1) :
  writeBuffers o info p bs flash = writeWords o info p bs flash
  := by
  induction hn : bs.length using Nat.strong_induction_on generalizing p bs flash with
  | _ n ih =>
    subst hn
    rw [writeBuffers, writeWords]
    by_cases hle : info.portwidth ≤ bs.length
    · have hpos := info.portwidth_pos
      rw [dif_pos hle, dif_pos hle, if_pos hsize]
      apply congrArg
      funext m
      exact ih (bs.drop info.portwidth).length (by rw [List.length_drop]; omega) rfl
    · rw [dif_neg hle, dif_neg hle]

end Buffers

/-! ### The unaligned start -/

/-- The number of bytes up to the first word that is written whole. -/
def headLength (info : Info) (addr cnt : ℕ) : ℕ :=
  if addr % info.portwidth = 0 then 0 else min (info.portwidth - addr % info.portwidth) cnt

section Start

variable (o : ByteOrder) {info : Info} (buffered : Bool) (addr : ℕ) (src : List Byte)
  (flash : ℕ → Byte)

theorem writeAligned_nil (p : ℕ) :
  writeAligned o info buffered p [] flash = ⟨errOk, flash⟩
  := by
  have hnot : ¬ info.portwidth ≤ ([] : List Byte).length := not_le.mpr info.portwidth_pos
  cases buffered with
  | false =>
    show writeWords o info p [] flash = _
    rw [writeWords, dif_neg hnot]
    rfl
  | true =>
    show writeBuffers o info p [] flash = _
    rw [writeBuffers, dif_neg hnot]
    rfl

/-- What is in the flash before and behind the bytes is merged with them. -/
theorem startBytes_eq (wp aln : ℕ) :
  startBytes info wp aln src flash
    = read flash wp aln ++ src.take (min (info.portwidth - aln) src.length)
      ++ read flash (wp + (aln + (src.take (min (info.portwidth - aln) src.length)).length))
        (info.portwidth - (aln + min (info.portwidth - aln) src.length))
  := by
  rw [startBytes, List.length_take_of_le (Nat.min_le_right _ _)]
  congr 1
  split
  case isTrue => rfl
  case isFalse hrest =>
    have hfull : info.portwidth - (aln + min (info.portwidth - aln) src.length) = 0 := by omega
    rw [hfull, Memory.read]

theorem length_startBytes (wp : ℕ) {aln : ℕ} (h : aln ≤ info.portwidth) :
  (startBytes info wp aln src flash).length = info.portwidth
  := by
  rw [startBytes_eq, List.length_append, List.length_append, length_read, length_read,
    List.length_take_of_le (Nat.min_le_right _ _)]
  omega

theorem fits_startBytes (wp aln : ℕ) :
  Fits flash wp (startBytes info wp aln src flash)
    ↔ Fits flash (wp + aln) (src.take (min (info.portwidth - aln) src.length))
  := by
  rw [startBytes_eq]
  apply fits_merged

theorem store_startBytes (wp aln : ℕ) :
  store flash wp (startBytes info wp aln src flash)
    = store flash (wp + aln) (src.take (min (info.portwidth - aln) src.length))
  := by
  rw [startBytes_eq]
  apply store_merged

/-- The bytes up to the first whole word are written, and then the others. -/
theorem writeBuff_eq :
  writeBuff o info buffered addr src flash
    = (if Fits flash addr (src.take (headLength info addr src.length))
        then (⟨errOk, store flash addr (src.take (headLength info addr src.length))⟩ : Result)
        else ⟨errNotErased, flash⟩).andThen
      (writeAligned o info buffered (addr + headLength info addr src.length)
        (src.drop (headLength info addr src.length)))
  := by
  have hpos := info.portwidth_pos
  have hwp : addr >>> info.portShift <<< info.portShift
      = addr / info.portwidth * info.portwidth := by
    rw [Nat.shiftRight_eq_div_pow, Nat.shiftLeft_eq]
    rfl
  have hdiv := Nat.div_add_mod' addr info.portwidth
  have haln : addr - addr / info.portwidth * info.portwidth = addr % info.portwidth := by
    omega
  have hmod := Nat.mod_lt addr hpos
  rw [writeBuff]
  simp only [hwp, haln]
  generalize addr / info.portwidth * info.portwidth = wp at *
  by_cases hzero : addr % info.portwidth = 0
  · have hhead : headLength info addr src.length = 0 := if_pos hzero
    have haddr : wp = addr := by omega
    rw [hhead, List.take_zero, List.drop_zero, if_pos fits_nil, if_neg (not_not.mpr hzero), haddr]
    rfl
  · have hhead : headLength info addr src.length
        = min (info.portwidth - addr % info.portwidth) src.length := if_neg hzero
    have hlen := length_startBytes src flash wp hmod.le
    rw [if_pos hzero, addBytes_eq o hlen, flashWriteCfiword_eq o hlen, store_startBytes,
      if_congr (fits_startBytes src flash wp _) rfl rfl, hlen, hdiv, ← hhead]
    apply congrArg
    funext m
    obtain hle | hle := le_total (info.portwidth - addr % info.portwidth) src.length
    · have hnext : wp + info.portwidth = addr + (info.portwidth - addr % info.portwidth) := by
        omega
      rw [hhead, Nat.min_eq_left hle, hnext]
    · rw [hhead, Nat.min_eq_right hle, List.drop_of_length_le hle, List.drop_length,
        writeAligned_nil, writeAligned_nil]

/-- What is left begins with a whole word, or is empty. -/
theorem dvd_add_headLength (h : src.drop (headLength info addr src.length) ≠ []) :
  info.portwidth ∣ addr + headLength info addr src.length
  := by
  have hdiv := Nat.div_add_mod addr info.portwidth
  have hmod := Nat.mod_lt addr info.portwidth_pos
  by_cases hzero : addr % info.portwidth = 0
  · rw [headLength, if_pos hzero, Nat.add_zero]
    exact Nat.dvd_of_mod_eq_zero hzero
  · have hlt : headLength info addr src.length < src.length := by
      by_contra hle
      exact h (List.drop_of_length_le (not_lt.mp hle))
    rw [headLength, if_neg hzero] at *
    have hnext : addr + min (info.portwidth - addr % info.portwidth) src.length
        = info.portwidth * (addr / info.portwidth + 1) := by
      rw [Nat.mul_succ]
      omega
    rw [hnext]
    apply Nat.dvd_mul_right

end Start

/-! ### Both ways to write -/

section Both

variable (o : ByteOrder) (info : Info) (flash : ℕ → Byte) (addr : ℕ) (src : List Byte)

theorem headLength_le (cnt : ℕ) :
  headLength info addr cnt ≤ cnt
  := by
  rw [headLength]
  split <;> omega

/-- The aligned part is written behind the unaligned start. -/
theorem writes_writeBuff (buffered : Bool) {Q : Prop}
    (h : ∀ m, (∀ q, addr + headLength info addr src.length ≤ q → m q = flash q) →
      Writes Q (writeAligned o info buffered (addr + headLength info addr src.length)
        (src.drop (headLength info addr src.length)) m) m
        (addr + headLength info addr src.length) (src.drop (headLength info addr src.length))) :
  Writes (Fits flash addr (src.take (headLength info addr src.length)) ∧ Q)
    (writeBuff o info buffered addr src flash) flash addr src
  := by
  have hlen := List.length_take_of_le (headLength_le info addr src.length)
  have hrest : Writes Q
      (writeAligned o info buffered (addr + headLength info addr src.length)
        (src.drop (headLength info addr src.length))
        (store flash addr (src.take (headLength info addr src.length))))
      (store flash addr (src.take (headLength info addr src.length)))
      (addr + (src.take (headLength info addr src.length)).length)
      (src.drop (headLength info addr src.length)) := by
    rw [hlen]
    apply h
    intro q hq
    exact store_of_le _ (by rwa [hlen])
  have hwrites := (Writes.of_ite flash addr _).andThen fun _ => hrest
  rw [List.take_append_drop] at hwrites
  rwa [writeBuff_eq]

/-- Word by word, there is no error if the bytes can be programmed. -/
theorem writes_words :
  Writes (Fits flash addr src) (writeBuff o info false addr src flash) flash addr src
  := by
  have hwrites := writes_writeBuff o info flash addr src false
    (Q := Fits flash (addr + headLength info addr src.length)
      (src.drop (headLength info addr src.length))) (by
      intro m hm
      exact (writes_writeWords o).congr (fits_congr hm))
  exact hwrites.congr (fits_cut (headLength_le info addr src.length)).symm

/-- With a buffer of one byte the words are written one by one. -/
theorem writes_one (hsize : info.bufferSize = 1) :
  Writes (Fits flash addr src) (writeBuff o info true addr src flash) flash addr src
  := by
  have hsame : writeAligned o info true = writeAligned o info false := by
    funext p bs m
    exact writeBuffers_of_one o hsize
  have hwrites := writes_words o info flash addr src
  rwa [writeBuff_eq, ← hsame, ← writeBuff_eq] at hwrites

/-- Where no word is left behind the unaligned start no buffer is handed over. -/
theorem writes_small (hlt : src.length - headLength info addr src.length < info.portwidth) :
  Writes (Fits flash addr src) (writeBuff o info true addr src flash) flash addr src
  := by
  have hnot : ¬ info.portwidth ≤ (src.drop (headLength info addr src.length)).length := by
    rw [List.length_drop]
    exact not_le.mpr hlt
  have hsame : ∀ p, writeAligned o info true p (src.drop (headLength info addr src.length))
      = writeAligned o info false p (src.drop (headLength info addr src.length)) := by
    intro p
    funext m
    show writeBuffers o info p _ m = writeWords o info p _ m
    rw [writeBuffers, writeWords, dif_neg hnot, dif_neg hnot]
  have hwrites := writes_words o info flash addr src
  rwa [writeBuff_eq, ← hsame, ← writeBuff_eq] at hwrites

theorem rc_of_small (hsize : info.bufferSize ≠ 1) (hbuf : info.bufferedSize < info.portwidth)
    (hle : info.portwidth ≤ src.length - headLength info addr src.length) :
  (writeBuff o info true addr src flash).rc = errNotErased
  := by
  have herr : ∀ p m, writeAligned o info true p (src.drop (headLength info addr src.length)) m
      = ⟨errNotErased, m⟩ := by
    intro p m
    apply writeBuffers_of_lt o hsize hbuf
    rwa [List.length_drop]
  rw [writeBuff_eq]
  split
  case isTrue => rw [Result.andThen_ok, herr]
  case isFalse => rw [Result.andThen_notErased]

/-- Buffer by buffer, there is no error if in every buffer a word can be programmed. -/
theorem writes_buffers (hsize : info.bufferSize ≠ 1) (hbuf : info.portwidth ≤ info.bufferedSize) :
  Writes (Fits flash addr (src.take (headLength info addr src.length))
      ∧ BuffersFit info flash (addr + headLength info addr src.length)
        (src.drop (headLength info addr src.length)))
    (writeBuff o info true addr src flash) flash addr src
  := by
  apply writes_writeBuff
  intro m hm
  by_cases hnil : src.drop (headLength info addr src.length) = []
  · rw [hnil, writeAligned_nil]
    have hfit : BuffersFit info flash (addr + headLength info addr src.length) [] :=
      buffersFit_of_fits fits_nil
    exact ⟨fun _ => rfl, fun hnot => absurd hfit hnot, fun _ => rfl⟩
  · apply Writes.congr _ (buffersFit_congr hm)
    exact writes_writeBuffers o hsize hbuf (dvd_add_headLength addr src hnil)

/-- Both ways to write return the same; if it is no error the bytes are written and nothing else
is, and it is `ERR_NOT_ERASED` if a word needs a bit that is 0 to be 1. -/
structure Agree : Prop where
  rc : (writeBuff o info true addr src flash).rc = (writeBuff o info false addr src flash).rc
  stored : (writeBuff o info true addr src flash).rc = errOk →
    (writeBuff o info true addr src flash).flash = store flash addr src
      ∧ (writeBuff o info false addr src flash).flash = store flash addr src
  notErased : ¬ Fits flash addr src →
    (writeBuff o info true addr src flash).rc = errNotErased
      ∧ (writeBuff o info false addr src flash).rc = errNotErased

theorem agree_iff_of_writes {Q : Prop} (hfits : Fits flash addr src → Q)
    (h : Writes Q (writeBuff o info true addr src flash) flash addr src) :
  Agree o info flash addr src ↔ Fits flash addr src ∨ ¬ Q
  := by
  have hwords := writes_words o info flash addr src
  constructor
  · intro hagree
    by_contra hnot
    obtain ⟨hbad, hQ⟩ := not_or.mp hnot
    have hrc := (hagree.notErased hbad).1
    rw [h.ok (not_not.mp hQ)] at hrc
    exact absurd hrc (by decide)
  · rintro (hall | hQ)
    · constructor
      · rw [h.ok (hfits hall), hwords.ok hall]
      · intro _
        exact ⟨h.flash hall, hwords.flash hall⟩
      · intro hbad
        exact absurd hall hbad
    · have hbad : ¬ Fits flash addr src := fun hall => hQ (hfits hall)
      constructor
      · rw [h.notErased hQ, hwords.notErased hbad]
      · intro hok
        rw [h.notErased hQ] at hok
        exact absurd hok (by decide)
      · intro _
        exact ⟨h.notErased hQ, hwords.notErased hbad⟩

/-- When both ways agree: the buffer has one byte; or it is smaller than the port, and there is no
word to hand over or the bytes cannot be programmed; or the bytes can be programmed; or those of the
unaligned start, all words of some buffer, or the tail cannot be. -/
def Covered : Prop :=
  let n := headLength info addr src.length
  info.bufferSize = 1
    ∨ info.bufferedSize < info.portwidth
      ∧ (src.length - n < info.portwidth ∨ ¬ Fits flash addr src)
    ∨ info.portwidth ≤ info.bufferedSize
      ∧ (Fits flash addr src
        ∨ ¬ (Fits flash addr (src.take n) ∧ BuffersFit info flash (addr + n) (src.drop n)))

/-- A buffer that is not erased is found if none of its words is. -/
theorem agree_iff_covered :
  Agree o info flash addr src ↔ Covered info flash addr src
  := by
  by_cases hsize : info.bufferSize = 1
  · have hagree := agree_iff_of_writes o info flash addr src id
      (writes_one o info flash addr src hsize)
    exact iff_of_true (hagree.mpr (em _)) (Or.inl hsize)
  rw [Covered, or_iff_right hsize]
  by_cases hbuf : info.portwidth ≤ info.bufferedSize
  · have hagree := agree_iff_of_writes o info flash addr src (by
      intro hfits
      have hcut := (fits_cut (headLength_le info addr src.length)).mp hfits
      exact ⟨hcut.1, buffersFit_of_fits hcut.2⟩) (writes_buffers o info flash addr src hsize hbuf)
    rw [hagree, and_iff_right hbuf]
    exact (or_iff_right fun h => absurd hbuf (not_le.mpr h.1)).symm
  · rw [and_iff_right (not_le.mp hbuf)]
    apply Iff.trans _ (or_iff_left fun h => hbuf h.1).symm
    by_cases hlt : src.length - headLength info addr src.length < info.portwidth
    · have hagree := agree_iff_of_writes o info flash addr src id
        (writes_small o info flash addr src hlt)
      exact iff_of_true (hagree.mpr (em _)) (Or.inl hlt)
    · have hrc := rc_of_small o info flash addr src hsize (not_le.mp hbuf) (not_lt.mp hlt)
      have hwords := writes_words o info flash addr src
      rw [or_iff_right hlt]
      constructor
      · intro hagree hfits
        have hsame := hagree.rc
        rw [hrc, hwords.ok hfits] at hsame
        exact absurd hsame (by decide)
      · intro hbad
        constructor
        · rw [hrc, hwords.notErased hbad]
        · intro hok
          rw [hrc] at hok
          exact absurd hok (by decide)
        · intro _
          exact ⟨hrc, hwords.notErased hbad⟩

end Both

/-- A port of 8 bits with a buffer of 4 bytes. -/
def smallInfo : Info := ⟨0, 0, 2, by decide, by decide⟩

/-- The byte at 0 is erased, and the byte at 1 is programmed. -/
def halfErased (q : ℕ) : Byte := if q = 0 then 0xff else 0

/-- The first byte can be programmed, and the second cannot. -/
theorem not_agree_halfErased :
  ¬ Agree .littleEndian smallInfo halfErased 0 [0, 0xff]
  := by
  intro h
  have herr := (h.notErased (by decide)).1
  have hok := (writes_buffers .littleEndian smallInfo halfErased 0 [0, 0xff] (by decide)
    (by decide)).ok (by decide)
  rw [hok] at herr
  exact absurd herr (by decide)

end Cfi
