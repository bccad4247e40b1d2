import UBoot.Image.Mkimage
import UBoot.Lib.Align

/-!
# Reading images

The checks and the getters of `common/image.c` and `include/image.h`, over the memory that the
image is loaded to, and what they make of an image that `mkimage` has written.
-/

namespace Image

open AddressSpace

/-! ### The reader -/

section Reader

variable (m : Word → Byte) (hdr : Word)

/-- The header at `hdr`. -/
def header : Header where
  magic := readWord m hdr
  hcrc := readWord m (hdr + 4)
  time := readWord m (hdr + 8)
  size := readWord m (hdr + 12)
  load := readWord m (hdr + 16)
  ep := readWord m (hdr + 20)
  dcrc := readWord m (hdr + 24)
  os := m (hdr + 28)
  arch := m (hdr + 29)
  type := m (hdr + 30)
  comp := m (hdr + 31)
  name := read m (hdr + 32) ihNmlen
  length_name := length_read _ _ _

/-- `image_get_data`. -/
def imageGetData : Word := hdr + BitVec.ofNat 32 Header.headerSize

/-- `image_check_magic`. -/
def imageCheckMagic : Prop := (header m hdr).magic = ihMagic

/-- `image_check_hcrc`. -/
def imageCheckHcrc : Prop :=
  Crc32.crc32 0 { header m hdr with hcrc := 0 }.bytes = (header m hdr).hcrc

/-- `image_check_dcrc`. -/
def imageCheckDcrc : Prop :=
  Crc32.crc32 0 (read m (imageGetData hdr) (header m hdr).size.toNat) = (header m hdr).dcrc

/-- What is printed of `image_get_name`: the bytes of the field up to the first zero. -/
def imageGetName : List Byte := (header m hdr).name.takeWhile (· ≠ 0)

/-- The loop of `image_multi_count`, for at most `fuel` more slots. -/
def countFrom (size : Word) : ℕ → Word → Option Word
  | 0, _ => none
  | fuel + 1, i => if readWord m (size + 4 * i) = 0 then some i else countFrom size fuel (i + 1)

/--
`image_multi_count`.  After `2 ^ 30` slots the loop is back at the first one, and then it does
not end.
-/
def imageMultiCount : Option Word := countFrom m (imageGetData hdr) (2 ^ 30) 0

/-- The loop of `image_multi_getimg`, over the first `n` slots. -/
def componentOffset (size : Word) : ℕ → Word
  | 0 => 0
  | n + 1 => componentOffset size n + ((readWord m (size + 4 * BitVec.ofNat 32 n) + 3) &&& ~~~3)

/-- `image_multi_getimg`: the address and the length of a component. -/
def imageMultiGetimg (idx : Word) : Option (Word × Word) := do
  let count ← imageMultiCount m hdr
  let size := imageGetData hdr
  let imgData := size + (count + 1) * 4
  if idx < count then
    return (imgData + componentOffset m size idx.toNat, readWord m (size + 4 * idx))
  else
    return (0, 0)

end Reader

variable {m : Word → Byte} {p : Word} {files : List (List Byte)}

/-! ### The header of an image -/

theorem header_eq {h : Header} (hm : Contains m p h.bytes) :
  header m p = h
  := by
  have hlen : h.bytes.length = 64 := h.length_bytes
  have hword (i : ℕ) {w : Word} (hi : i + 4 ≤ 64) (hw : (h.bytes.drop i).take 4 = wordBytes w) :
      readWord m (p + BitVec.ofNat 32 i) = w := by
    rw [readWord, hm.read_drop (by rwa [hlen]), hw, bytesWord_wordBytes]
  have hbyte (i : ℕ) (hi : i < 64) : m (p + BitVec.ofNat 32 i) = h.bytes.get ⟨i, by omega⟩ :=
    hm i _
  have hname : read m (p + BitVec.ofNat 32 32) ihNmlen = h.name := by
    have hdrop : h.bytes.drop 32 = h.name := rfl
    rw [hm.read_drop (by rw [hlen]; decide), hdrop, ← h.length_name, List.take_length]
  apply Header.ext
  · rw [header, ← BitVec.add_zero p]
    apply hword 0 (by decide) rfl
  · apply hword 4 (by decide) rfl
  · apply hword 8 (by decide) rfl
  · apply hword 12 (by decide) rfl
  · apply hword 16 (by decide) rfl
  · apply hword 20 (by decide) rfl
  · apply hword 24 (by decide) rfl
  · apply hbyte 28 (by decide)
  · apply hbyte 29 (by decide)
  · apply hbyte 30 (by decide)
  · apply hbyte 31 (by decide)
  · apply hname

/-! ### The components of an image -/

/-- A slot of the table. -/
theorem readWord_table {ws : List Word} {rest : List Byte}
    (h : Contains m p (ws.flatMap wordBytes ++ rest)) {i : ℕ} (hi : i < ws.length) :
  readWord m (p + 4 * BitVec.ofNat 32 i) = ws[i]
  := by
  induction ws generalizing p i with
  | nil => cases hi
  | cons w ws ih =>
    rw [List.flatMap_cons, List.append_assoc] at h
    cases i with
    | zero =>
      rw [BitVec.mul_zero, BitVec.add_zero]
      apply h.of_append.readWord_eq
    | succ i =>
      have hnext : p + 4 * BitVec.ofNat 32 (i + 1)
          = p + BitVec.ofNat 32 (wordBytes w).length + 4 * BitVec.ofNat 32 i := by
        have hlen : BitVec.ofNat 32 (wordBytes w).length = 4 := rfl
        rw [hlen, BitVec.ofNat_add]
        grind
      rw [hnext]
      apply ih h.drop

theorem length_flatMap_wordBytes (ws : List Word) :
  (ws.flatMap wordBytes).length = 4 * ws.length
  := by
  induction ws with
  | nil => rfl
  | cons w ws ih =>
    have hlen : (wordBytes w).length = 4 := rfl
    rw [List.flatMap_cons, List.length_append, ih, hlen, List.length_cons]
    omega

/-- The loop stops at the first empty slot. -/
theorem countFrom_eq {size : Word} {n i fuel : ℕ} (hi : i ≤ n) (hfuel : n < i + fuel)
    (hne : ∀ j, i ≤ j → j < n → readWord m (size + 4 * BitVec.ofNat 32 j) ≠ 0)
    (hzero : readWord m (size + 4 * BitVec.ofNat 32 n) = 0) :
  countFrom m size fuel (BitVec.ofNat 32 i) = some (BitVec.ofNat 32 n)
  := by
  induction fuel generalizing i with
  | zero => omega
  | succ fuel ih =>
    rw [countFrom]
    rcases Nat.eq_or_lt_of_le hi with rfl | hlt
    · rw [if_pos hzero]
    · have hnext : BitVec.ofNat 32 i + 1 = BitVec.ofNat 32 (i + 1) := (BitVec.ofNat_add i 1).symm
      rw [if_neg (hne i (Nat.le_refl i) hlt), hnext]
      apply ih hlt (by omega)
      intro j hj
      apply hne j (by omega)

/-- Where a component lies among the components. -/
def offset (files : List (List Byte)) (i : ℕ) : ℕ :=
  ((files.take i).map fun data => (data.length + 3) / 4 * 4).sum

theorem contains_layout (h : Contains m p (layout files)) {i : ℕ} (hi : i < files.length) :
  Contains m (p + BitVec.ofNat 32 (offset files i)) files[i]
  := by
  induction files generalizing p i with
  | nil => cases hi
  | cons data files ih =>
    have hfirst : ∃ rest, layout (data :: files) = data ++ rest := by
      cases files with
      | nil => exact ⟨[], (List.append_nil data).symm⟩
      | cons data' files => exact ⟨_, List.append_assoc _ _ _⟩
    cases i with
    | zero =>
      obtain ⟨rest, hrest⟩ := hfirst
      rw [hrest] at h
      have hstart : p + BitVec.ofNat 32 (offset (data :: files) 0) = p := BitVec.add_zero p
      rw [hstart]
      apply h.of_append
    | succ i =>
      cases files with
      | nil => simp at hi
      | cons data' files =>
        have hnext : offset (data :: data' :: files) (i + 1)
            = (data ++ padding data).length + offset (data' :: files) i := by
          rw [length_append_padding]
          rfl
        rw [hnext, BitVec.ofNat_add, ← BitVec.add_assoc]
        apply ih h.drop

theorem offset_succ {i : ℕ} (hi : i < files.length) :
  offset files (i + 1) = offset files i + (files[i].length + 3) / 4 * 4
  := by
  rw [offset, offset, ← List.take_append_getElem hi, List.map_append, List.sum_append]
  rfl

theorem componentOffset_eq {size : Word} {n : ℕ} (hn : n ≤ files.length)
    (hsize : ∀ i (hi : i < files.length),
      readWord m (size + 4 * BitVec.ofNat 32 i) = BitVec.ofNat 32 files[i].length)
    (hlt : ∀ data ∈ files, data.length < 2 ^ 31) :
  componentOffset m size n = BitVec.ofNat 32 (offset files n)
  := by
  induction n with
  | zero => rfl
  | succ n ih =>
    have hdata : files[n].length < 2 ^ 31 := hlt _ (List.getElem_mem hn)
    have htoNat : (BitVec.ofNat 32 files[n].length).toNat = files[n].length :=
      Nat.mod_eq_of_lt (by omega)
    have hround : (BitVec.ofNat 32 files[n].length + 3) &&& ~~~3
        = BitVec.ofNat 32 ((files[n].length + 3) / 4 * 4) := by
      apply BitVec.eq_of_toNat_eq
      rw [BitVec.toNat_ofNat, Nat.mod_eq_of_lt (by omega)]
      have hroom : (BitVec.ofNat 32 files[n].length).toNat + (2 ^ 2 - 1) < 2 ^ 32 := by
        rw [htoNat]
        omega
      have hmask := Align.toNat_add_and_not (by decide) hroom
      rw [htoNat] at hmask
      apply hmask
    rw [componentOffset, ih (by omega), hsize n hn, hround, offset_succ hn, BitVec.ofNat_add]

/-- `strncpy` cuts the string off at the end of the field. -/
theorem takeWhile_strncpy {s : List Byte} (hs : 0 ∉ s) (n : ℕ) :
  (Header.strncpy n s).takeWhile (· ≠ 0) = s.take n
  := by
  have hne : ∀ x ∈ s.take n, decide (x ≠ 0) = true := by
    intro x hx
    rw [decide_eq_true_eq]
    rintro rfl
    apply hs (List.mem_of_mem_take hx)
  rw [Header.strncpy, List.takeWhile_append_of_pos hne]
  simp

/-! ### Round trip -/

section RoundTrip

variable {params : Params} {mtime : Word}

/-- The image that `mkimage` writes. -/
def multiImage (files : List (List Byte)) (params : Params) (mtime : Word) : List Byte :=
  (imageSetHeader .dummy (multiData files) mtime params).bytes ++ multiData files

/-- Where the image is loaded to it has room. -/
structure Loaded (m : Word → Byte) (p : Word) (image : List Byte) : Prop where
  fits : p.toNat + image.length ≤ 2 ^ 32
  contains : Contains m p image

variable (h : Loaded m p (multiImage files params mtime))

include h

theorem Loaded.header_eq :
  header m p = imageSetHeader .dummy (multiData files) mtime params
  := Image.header_eq h.contains.of_append

theorem Loaded.contains_data :
  Contains m (imageGetData p) (multiData files)
  := by
  have hdata := h.contains.drop
  rwa [Header.length_bytes] at hdata

theorem Loaded.length_lt :
  64 + (4 * files.length + 4) + (layout files).length ≤ 2 ^ 32
  := by
  have hfits := h.fits
  have hzero : (wordBytes 0).length = 4 := rfl
  rw [multiImage, multiData, List.length_append, List.length_append, List.length_append,
    Header.length_bytes, length_flatMap_wordBytes, sizes, List.length_map, Header.headerSize,
    hzero] at hfits
  omega

theorem Loaded.checks :
  imageCheckMagic m p ∧ imageCheckHcrc m p ∧ imageCheckDcrc m p
  := by
  refine ⟨?_, ?_, ?_⟩
  · rw [imageCheckMagic, h.header_eq]
    rfl
  · rw [imageCheckHcrc, h.header_eq]
    rfl
  · have hlen : (multiData files).length < 2 ^ 32 := by
      have hfits := h.fits
      rw [multiImage, List.length_append, Header.length_bytes, Header.headerSize] at hfits
      omega
    have hsize : (header m p).size.toNat = (multiData files).length := by
      rw [h.header_eq]
      apply Nat.mod_eq_of_lt hlen
    rw [imageCheckDcrc, hsize, h.contains_data.read_eq, h.header_eq]
    simp only [imageSetHeader, Header.setName, BitVec.toNat_ofNat, Nat.mod_eq_of_lt hlen,
      List.take_length]

theorem Loaded.size_eq {i : ℕ} (hi : i < files.length) :
  readWord m (imageGetData p + 4 * BitVec.ofNat 32 i) = BitVec.ofNat 32 files[i].length
  := by
  have htable := h.contains_data
  rw [multiData] at htable
  rw [readWord_table htable (by rwa [sizes, List.length_map])]
  apply List.getElem_map

theorem Loaded.size_terminator :
  readWord m (imageGetData p + 4 * BitVec.ofNat 32 files.length) = 0
  := by
  have hrest := h.contains_data.drop
  rw [length_flatMap_wordBytes, sizes, List.length_map, BitVec.ofNat_mul] at hrest
  apply hrest.of_append.readWord_eq

theorem Loaded.toNat_ofNat {i : ℕ} (hi : i ≤ files.length) :
  (BitVec.ofNat 32 i).toNat = i
  := by
  have hlen := h.length_lt
  apply Nat.mod_eq_of_lt (by omega)

theorem Loaded.count_eq (hdata : ∀ data ∈ files, data ≠ [] ∧ data.length < 2 ^ 31) :
  imageMultiCount m p = some (BitVec.ofNat 32 files.length)
  := by
  have hlen := h.length_lt
  apply countFrom_eq (Nat.zero_le _) (by omega)
  · intro i _ hi
    obtain ⟨hne, hlt⟩ := hdata _ (List.getElem_mem hi)
    have hpos : 0 < files[i].length := List.length_pos_iff.mpr hne
    rw [h.size_eq hi]
    intro hzero
    have htoNat := congrArg BitVec.toNat hzero
    rw [BitVec.toNat_ofNat, Nat.mod_eq_of_lt (by omega)] at htoNat
    apply absurd htoNat (Nat.ne_of_gt hpos)
  · apply h.size_terminator

theorem Loaded.getimg_eq (hdata : ∀ data ∈ files, data ≠ [] ∧ data.length < 2 ^ 31) {idx : Word}
    (hidx : idx.toNat < files.length) :
  ∃ addr len, imageMultiGetimg m p idx = some (addr, len)
    ∧ read m addr len.toNat = files[idx.toNat]
  := by
  have hlt : files[idx.toNat].length < 2 ^ 31 := (hdata _ (List.getElem_mem hidx)).2
  have hcount : idx < BitVec.ofNat 32 files.length := by
    rw [BitVec.lt_def, h.toNat_ofNat le_rfl]
    apply hidx
  have hoffset := componentOffset_eq hidx.le (fun _ => h.size_eq) fun d hd => (hdata d hd).2
  have hsize := h.size_eq hidx
  rw [BitVec.ofNat_toNat, BitVec.setWidth_eq] at hsize
  have hfiles := h.contains_data.drop.drop
  rw [length_flatMap_wordBytes, sizes, List.length_map] at hfiles
  have hread := (contains_layout hfiles hidx).read_eq
  refine ⟨_, BitVec.ofNat 32 files[idx.toNat].length, ?_,
    by rwa [BitVec.toNat_ofNat, Nat.mod_eq_of_lt (by omega)]⟩
  simp only [imageMultiGetimg, h.count_eq hdata, Option.bind_eq_bind, Option.bind_some,
    if_pos hcount, hoffset, hsize, Option.pure_def, Option.some.injEq, Prod.mk.injEq, and_true]
  have hzero : BitVec.ofNat 32 (wordBytes 0).length = 4 := rfl
  rw [BitVec.ofNat_mul, hzero]
  grind

theorem Loaded.getimg_of_le (hdata : ∀ data ∈ files, data ≠ [] ∧ data.length < 2 ^ 31) {idx : Word}
    (hidx : files.length ≤ idx.toNat) :
  imageMultiGetimg m p idx = some (0, 0)
  := by
  have hnot : ¬ idx < BitVec.ofNat 32 files.length := by
    rw [BitVec.lt_def, h.toNat_ofNat le_rfl, Nat.not_lt]
    apply hidx
  simp only [imageMultiGetimg, h.count_eq hdata, Option.bind_eq_bind, Option.bind_some,
    if_neg hnot, Option.pure_def]

end RoundTrip

/-- What the getters return of the header of an image. -/
structure GettersReturn (m : Word → Byte) (p : Word) (params : Params) (mtime : Word) : Prop where
  time : (header m p).time = mtime
  load : (header m p).load = params.addr
  ep : (header m p).ep = params.ep
  os : (header m p).os = params.os
  arch : (header m p).arch = params.arch
  type : (header m p).type = params.type
  comp : (header m p).comp = params.comp
  name : imageGetName m p = params.imagename.take ihNmlen

theorem Loaded.getters {params : Params} {mtime : Word}
    (h : Loaded m p (multiImage files params mtime)) :
  GettersReturn m p params mtime
  := by
  have hheader := h.header_eq
  constructor
  case name =>
    rw [imageGetName, hheader]
    apply takeWhile_strncpy params.imagename_str
  all_goals rw [hheader]; rfl

/--
The reader finds in an image of several components what `mkimage` was given, but of the name
only what fits the header.
-/
theorem multi_roundTrip {fs : List Byte → Option (List Byte)} {params : Params}
    (htype : params.type = ihTypeMulti ∨ params.type = ihTypeScript)
    (hfiles : params.names.mapM fs = some files) (hne : ∀ data ∈ files, data ≠ [])
    (htotal : (files.map List.length).sum < 2 ^ 31) (mtime : Word) :
  ∃ image, mkimage fs params mtime = some image ∧ ∀ m p, Loaded m p image →
    imageCheckMagic m p ∧ imageCheckHcrc m p ∧ imageCheckDcrc m p
    ∧ (∃ count, imageMultiCount m p = some count ∧ count.toNat = files.length)
    ∧ (∀ idx : Word, ∀ hidx : idx.toNat < files.length,
      ∃ addr len, imageMultiGetimg m p idx = some (addr, len)
        ∧ read m addr len.toNat = files[idx.toNat])
    ∧ (∀ idx : Word, files.length ≤ idx.toNat → imageMultiGetimg m p idx = some (0, 0))
    ∧ GettersReturn m p params mtime
  := by
  have hdata : ∀ data ∈ files, data ≠ [] ∧ data.length < 2 ^ 31 := by
    intro data hmem
    have hle : data.length ≤ (files.map List.length).sum :=
      List.le_sum_of_mem (List.mem_map_of_mem hmem)
    exact ⟨hne data hmem, by omega⟩
  refine ⟨multiImage files params mtime, mkimage_eq mtime htype hfiles hdata, ?_⟩
  intro m p h
  obtain ⟨hmagic, hhcrc, hdcrc⟩ := h.checks
  exact ⟨hmagic, hhcrc, hdcrc, ⟨_, h.count_eq hdata, h.toNat_ofNat le_rfl⟩,
    fun _ => h.getimg_eq hdata, fun _ => h.getimg_of_le hdata, h.getters⟩

/-- Two files. -/
def twoFiles (name : List Byte) : Option (List Byte) :=
  if name = ascii "a" then some [1]
  else if name = ascii "b" then some [2, 3, 4, 5, 6]
  else none

/-- A script of the two files, with the given name. -/
def scriptOf (imagename : String) (h : 0 ∉ ascii imagename) : Params where
  os := 5
  arch := 7
  type := ihTypeScript
  comp := 0
  addr := 0x500000
  entry := none
  datafile := ascii "a:b"
  imagename := ascii imagename
  imagename_str := h

theorem names_twoFiles (imagename : String) (h : 0 ∉ ascii imagename) :
  (scriptOf imagename h).names.mapM twoFiles = some [[1], [2, 3, 4, 5, 6]]
  := by
  have hsplit : ((ascii "a:b").splitOn 0x3A).mapM twoFiles = some [[1], [2, 3, 4, 5, 6]] := by
    decide +kernel
  apply hsplit

theorem multi_roundTrip_two :
  ∃ image, mkimage twoFiles (scriptOf "script" (by decide)) 0 = some image ∧
    ∀ m p, Loaded m p image → imageCheckDcrc m p ∧ imageGetName m p = ascii "script"
      ∧ imageMultiGetimg m p 2 = some (0, 0)
  := by
  obtain ⟨image, himage, hloaded⟩ := multi_roundTrip (.inr rfl)
    (names_twoFiles "script" (by decide)) (by decide) (by decide) 0
  refine ⟨image, himage, ?_⟩
  intro m p h
  obtain ⟨-, -, hdcrc, -, -, hbeyond, hgetters⟩ := hloaded m p h
  exact ⟨hdcrc, hgetters.name, hbeyond 2 (by decide)⟩

/-- A name of 33 bytes loses its last one. -/
theorem multi_roundTrip_long_name :
  ∃ image m p, mkimage twoFiles (scriptOf "a name that is too long by 1 byte" (by decide)) 0
      = some image
    ∧ Loaded m p image ∧ imageGetName m p ≠ ascii "a name that is too long by 1 byte"
  := by
  let params := scriptOf "a name that is too long by 1 byte" (by decide)
  let image := multiImage [[1], [2, 3, 4, 5, 6]] params 0
  have hlen : image.length = 85 := by decide +kernel
  have hloaded : Loaded (copy (fun _ => 0) 0 image) 0 image :=
    ⟨by rw [hlen]; decide, (contains_nil _ 0).copy_append image (by rw [hlen]; decide)⟩
  refine ⟨image, _, _, mkimage_eq 0 (.inr rfl) (names_twoFiles _ _) (by decide), hloaded, ?_⟩
  rw [hloaded.getters.name]
  decide

end Image
