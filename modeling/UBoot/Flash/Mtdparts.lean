import UBoot.Lib.Printing
import UBoot.Net.Tftp

/-!
# The `mtdparts` string

`generate_mtdparts` of `common/cmd_mtdparts.c` prints the partitions of all devices into a buffer.
The space that it counts down does not include the prefix `mtdparts=`, so what it prints may go nine
bytes too far; `generates_iff` says for which lists of devices that matters.
-/

namespace Mtdparts

open Printing Fallible Pieces Memory

/-! ### The lists -/

/-- `struct part_info`: what is printed of a partition. -/
structure PartInfo where
  name : List Byte
  autoName : Bool
  size : Word
  offset : Word
  maskFlags : Word

/-- `struct mtd_device`, with the name of the device, `id->mtd_id`. -/
structure MtdDevice where
  mtdId : List Byte
  numParts : ℕ
  parts : List PartInfo
  numParts_eq : numParts = parts.length

/-! ### The function -/

/-- `SIZE_GB`. -/
def sizeGb : ℕ := 1024 * 1024 * 1024

/-- `SIZE_MB`. -/
def sizeMb : ℕ := 1024 * 1024

/-- `SIZE_KB`. -/
def sizeKb : ℕ := 1024

/-- `memsize_format`. -/
def memsizeFormat (size : Word) : List Byte :=
  if size.toNat % sizeGb = 0 then Tftp.decimal (size.toNat / sizeGb) ++ ascii "g"
  else if size.toNat % sizeMb = 0 then Tftp.decimal (size.toNat / sizeMb) ++ ascii "m"
  else if size.toNat % sizeKb = 0 then Tftp.decimal (size.toNat / sizeKb) ++ ascii "k"
  else Tftp.decimal size.toNat

/-- A partition does not follow the one before. -/
def gap : Option PartInfo → PartInfo → Bool
  | none, part => part.offset ≠ 0
  | some prevPart, part => prevPart.offset + prevPart.size ≠ part.offset

/-- The partition number `partCnt` of a device. -/
def partition (dev : MtdDevice) (prevPart : Option PartInfo) (partCnt : ℕ) (part : PartInfo) :
    PrintM Byte Unit := do
  piece (memsizeFormat part.size).length [memsizeFormat part.size]
  printIf (gap prevPart part)
    (piece ((memsizeFormat part.offset).length + 1) [ascii "@", memsizeFormat part.offset])
  printIf (!part.autoName) (piece (part.name.length + 2) [ascii "(", part.name, ascii ")"])
  printIf (part.maskFlags ≠ 0) (piece 2 [ascii "r", ascii "o"])
  printIf (dev.numParts > partCnt) (piece 1 [ascii ","])

/-- The loop over the partitions of a device. -/
def partitions (dev : MtdDevice) : Option PartInfo → ℕ → List PartInfo → PrintM Byte Unit
  | _, _, [] => pure ()
  | prevPart, partCnt, part :: parts => do
    partition dev prevPart (partCnt + 1) part
    partitions dev (some part) (partCnt + 1) parts

/-- The loop over the devices. -/
def loop : List MtdDevice → PrintM Byte Unit
  | [] => pure ()
  | dev :: devices => do
    piece (dev.mtdId.length + 1) [dev.mtdId, ascii ":"]
    partitions dev none 0 dev.parts
    printIf (!devices.isEmpty) (piece 1 [ascii ";"])
    loop devices

/-- What is returned, the stores into the buffer, and whether `last_parts` is cleared. -/
structure Outcome where
  code : ℕ
  stores : List (ℕ × List Byte)
  cleared : Bool

/-- `generate_mtdparts`. -/
def generateMtdparts (devices : List MtdDevice) (buflen : ℕ) : Outcome :=
  if devices.isEmpty then ⟨0, [(0, [0])], false⟩
  else
    match loop devices ⟨9, buflen - 1, [(0, ascii "mtdparts=" ++ [0])]⟩ with
    | .ok (_, s) => ⟨0, s.stores ++ [(s.p, [0])], false⟩
    | .error (_, s) => ⟨1, s.stores, true⟩

/-! ### What it is for -/

/-- `<part-def>`. -/
def partDef (prevPart : Option PartInfo) (part : PartInfo) : List Byte :=
  memsizeFormat part.size
    ++ (if gap prevPart part then ascii "@" ++ memsizeFormat part.offset else [])
    ++ (if !part.autoName then ascii "(" ++ part.name ++ ascii ")" else [])
    ++ (if part.maskFlags ≠ 0 then ascii "ro" else [])

def partDefs : Option PartInfo → List PartInfo → List (List Byte)
  | _, [] => []
  | prevPart, part :: parts => partDef prevPart part :: partDefs (some part) parts

/-- `<mtd-def>`. -/
def mtdDef (dev : MtdDevice) : List Byte :=
  dev.mtdId ++ ascii ":" ++ (ascii ",").intercalate (partDefs none dev.parts)

/-- The complete string. -/
def mtdparts (devices : List MtdDevice) : List Byte :=
  if devices.isEmpty then [] else ascii "mtdparts=" ++ (ascii ";").intercalate (devices.map mtdDef)

/-- What the caller wants from a buffer of `buflen` bytes. -/
structure Generates (devices : List MtdDevice) (buflen : ℕ) (o : Outcome) : Prop where
  inside : ∀ st ∈ o.stores, st.1 + st.2.length ≤ buflen
  terminated : o.code = 0 → ∀ buf, Holds (stored buf o.stores) 0 (mtdparts devices ++ [0])
  code : o.code = if (mtdparts devices).length + 1 ≤ buflen then 0 else 1

/-! ### The pieces -/

/-- The pieces of a partition. -/
def partitionPieces (dev : MtdDevice) (prevPart : Option PartInfo) (partCnt : ℕ)
    (part : PartInfo) : List (List (List Byte)) :=
  [[memsizeFormat part.size]]
    ++ ((if gap prevPart part then [[ascii "@", memsizeFormat part.offset]] else [])
    ++ ((if !part.autoName then [[ascii "(", part.name, ascii ")"]] else [])
    ++ ((if part.maskFlags ≠ 0 then [[ascii "r", ascii "o"]] else [])
    ++ (if dev.numParts > partCnt then [[ascii ","]] else []))))

def partitionsPieces (dev : MtdDevice) :
    Option PartInfo → ℕ → List PartInfo → List (List (List Byte))
  | _, _, [] => []
  | prevPart, partCnt, part :: parts =>
    partitionPieces dev prevPart (partCnt + 1) part
      ++ partitionsPieces dev (some part) (partCnt + 1) parts

/-- The pieces behind the prefix. -/
def pieces : List MtdDevice → List (List (List Byte))
  | [] => []
  | dev :: devices =>
    [[dev.mtdId, ascii ":"]] ++ (partitionsPieces dev none 0 dev.parts
      ++ ((if !devices.isEmpty then [[ascii ";"]] else []) ++ pieces devices))

theorem prints_partition (dev : MtdDevice) (prevPart : Option PartInfo) (partCnt : ℕ)
    (part : PartInfo) :
  Prints (partition dev prevPart partCnt part) (partitionPieces dev prevPart partCnt part)
  := by
  apply (prints_piece (by simp)).bind
  apply (prints_piece (by simp [ascii])).printIf.bind
  apply (prints_piece (by simp [ascii])).printIf.bind
  apply (prints_piece (by rfl)).printIf.bind
  apply (prints_piece (by rfl)).printIf

theorem prints_partitions (dev : MtdDevice) (prevPart : Option PartInfo) (partCnt : ℕ)
    (parts : List PartInfo) :
  Prints (partitions dev prevPart partCnt parts) (partitionsPieces dev prevPart partCnt parts)
  := by
  induction parts generalizing prevPart partCnt with
  | nil => exact prints_pure
  | cons part parts ih =>
    apply (prints_partition dev prevPart (partCnt + 1) part).bind
    apply ih

theorem prints_loop (devices : List MtdDevice) :
  Prints (loop devices) (pieces devices)
  := by
  induction devices with
  | nil => exact prints_pure
  | cons dev devices ih =>
    apply (prints_piece (by simp [ascii])).bind
    apply (prints_partitions dev none 0 dev.parts).bind
    apply (prints_piece (by rfl)).printIf.bind
    exact ih

/-! ### The complete string -/

theorem intercalate_cons_cons (sep x y : List Byte) (xs : List (List Byte)) :
  sep.intercalate (x :: y :: xs) = x ++ sep ++ sep.intercalate (y :: xs)
  := by
  simp [List.intercalate]

theorem flatten_ite (c : Prop) [Decidable c] (chunks : List (List Byte)) :
  (if c then [chunks] else []).flatten.flatten = if c then chunks.flatten else []
  := by
  split
  · rw [List.flatten_singleton]
  · rfl

/-- The pieces of a partition are its definition, and a comma if another one follows. -/
theorem flatten_partitionPieces (dev : MtdDevice) (prevPart : Option PartInfo) (partCnt : ℕ)
    (part : PartInfo) :
  (partitionPieces dev prevPart partCnt part).flatten.flatten
    = partDef prevPart part ++ if dev.numParts > partCnt then ascii "," else []
  := by
  have hro : ascii "ro" = ascii "r" ++ ascii "o" := rfl
  simp only [partitionPieces, partDef, hro, List.flatten_append, flatten_ite, List.append_assoc,
    List.flatten_cons, List.flatten_nil, List.append_nil]

theorem flatten_partitionsPieces (dev : MtdDevice) (prevPart : Option PartInfo) (partCnt : ℕ)
    (parts : List PartInfo) (h : dev.numParts = partCnt + parts.length) :
  (partitionsPieces dev prevPart partCnt parts).flatten.flatten
    = (ascii ",").intercalate (partDefs prevPart parts)
  := by
  induction parts generalizing prevPart partCnt with
  | nil => rfl
  | cons part parts ih =>
    rw [List.length_cons] at h
    rw [partitionsPieces, List.flatten_append, List.flatten_append, flatten_partitionPieces,
      ih _ _ (by omega)]
    cases parts with
    | nil =>
      rw [if_neg (by simp at h; omega)]
      simp [partDefs, List.intercalate]
    | cons part' parts =>
      rw [List.length_cons] at h
      have hdefs : partDefs prevPart (part :: part' :: parts)
        = partDef prevPart part :: partDef (some part) part' :: partDefs (some part') parts := rfl
      rw [if_pos (by omega), hdefs, intercalate_cons_cons]
      rfl

theorem flatten_pieces (devices : List MtdDevice) :
  (pieces devices).flatten.flatten = (ascii ";").intercalate (devices.map mtdDef)
  := by
  induction devices with
  | nil => rfl
  | cons dev devices ih =>
    have hparts := flatten_partitionsPieces dev none 0 dev.parts
      (by rw [dev.numParts_eq, Nat.zero_add])
    cases devices with
    | nil => simp [pieces, mtdDef, hparts, List.intercalate]
    | cons dev' devices =>
      rw [List.map_cons, List.map_cons, intercalate_cons_cons, ← List.map_cons, ← ih, pieces,
        mtdDef]
      simp [hparts]

/-! ### The buffer -/

section Outcome

variable {devices : List MtdDevice} {buflen : ℕ}

/-- The length of the pieces behind the prefix. -/
def total (devices : List MtdDevice) : ℕ := (lengths (pieces devices)).sum

theorem sum_lengths (ps : List (List (List Byte))) :
  (lengths ps).sum = ps.flatten.flatten.length
  := by
  induction ps with
  | nil => rfl
  | cons chunks ps ih =>
    rw [List.flatten_cons, List.flatten_append, List.length_append, ← ih]
    rfl

theorem length_mtdparts (h : devices.isEmpty = false) :
  (mtdparts devices).length = 9 + total devices
  := by
  rw [mtdparts, h, if_neg Bool.false_ne_true, List.length_append, ← flatten_pieces, total,
    sum_lengths]
  rfl

/-- The state in which the devices are printed. -/
def start (buflen : ℕ) : Printer Byte := ⟨9, buflen - 1, [(0, ascii "mtdparts=" ++ [0])]⟩

theorem generateMtdparts_of_le (hne : devices.isEmpty = false) (h : total devices ≤ buflen - 1) :
  generateMtdparts devices buflen
    = ⟨0, ((start buflen).printed (pieces devices).flatten).stores ++ [(9 + total devices, [0])],
        false⟩
  := by
  have hrun : loop devices (start buflen)
      = .ok ((), (start buflen).printed (pieces devices).flatten) := by
    rw [(prints_loop devices).run_eq, run_eq_ite]
    exact if_pos h
  have hp : ((start buflen).printed (pieces devices).flatten).p = 9 + total devices := by
    rw [total, sum_lengths]
    rfl
  rw [generateMtdparts, hne, if_neg Bool.false_ne_true,
    show Printer.mk _ _ _ = start buflen from rfl, hrun]
  dsimp only
  rw [hp]

/-- The number of the pieces that are printed. -/
def printed (devices : List MtdDevice) (buflen : ℕ) : ℕ :=
  fitting (buflen - 1) (lengths (pieces devices))

theorem generateMtdparts_of_lt (hne : devices.isEmpty = false) (h : buflen - 1 < total devices) :
  generateMtdparts devices buflen
    = ⟨1, ((start buflen).printed ((pieces devices).take (printed devices buflen)).flatten).stores,
        true⟩
  := by
  have hrun : loop devices (start buflen) = .error (.failed,
      (start buflen).printed ((pieces devices).take (printed devices buflen)).flatten) := by
    rw [(prints_loop devices).run_eq, run_eq_ite]
    exact if_neg (not_le.mpr h)
  rw [generateMtdparts, hne, if_neg Bool.false_ne_true,
    show Printer.mk _ _ _ = start buflen from rfl, hrun]

theorem mem_printed (chunks : List (List Byte)) {st : ℕ × List Byte} :
  st ∈ ((start buflen).printed chunks).stores
    ↔ st = (0, ascii "mtdparts=" ++ [0]) ∨ st ∈ layout 9 chunks
  := List.mem_cons

/-- The stores are in the buffer if the end of the chunks is. -/
theorem inside_iff (h : 10 ≤ buflen) (chunks : List (List Byte)) :
  (∀ st ∈ ((start buflen).printed chunks).stores, st.1 + st.2.length ≤ buflen)
    ↔ 9 + chunks.flatten.length ≤ buflen
  := by
  constructor
  · intro hinside
    by_cases hnil : chunks = []
    · rw [hnil, List.flatten_nil, List.length_nil]
      omega
    · obtain ⟨st, hmem, hend⟩ := exists_mem_layout 9 hnil
      rw [← hend]
      exact hinside st ((mem_printed chunks).mpr (.inr hmem))
  · intro hle st hmem
    obtain rfl | hmem := (mem_printed chunks).mp hmem
    · exact h
    · exact (le_of_mem_layout hmem).trans hle

theorem stored_printed (buf : ℕ → Byte) (chunks : List (List Byte)) :
  stored buf (((start buflen).printed chunks).stores ++ [(9 + chunks.flatten.length, [0])])
    = store (store buf 0 (ascii "mtdparts=" ++ [0])) 9 (chunks.flatten ++ [0])
  := by
  rw [store_append, stored_append, Printer.printed, stored_append, stored_layout]
  rfl

/-- The complete string fits. -/
theorem generates_of_le (hne : devices.isEmpty = false)
    (h : (mtdparts devices).length + 1 ≤ buflen) :
  Generates devices buflen (generateMtdparts devices buflen)
  := by
  have hlen := length_mtdparts hne
  have htotal : total devices = (pieces devices).flatten.flatten.length := sum_lengths _
  rw [generateMtdparts_of_le hne (by omega)]
  constructor
  case inside =>
    intro st hmem
    obtain hmem | hmem := List.mem_append.mp hmem
    · exact (inside_iff (by omega) _).mpr (by omega) st hmem
    · rw [List.mem_singleton.mp hmem, List.length_singleton]
      omega
  case terminated =>
    intro _ buf
    rw [htotal, stored_printed, flatten_pieces, mtdparts, hne, if_neg Bool.false_ne_true,
      List.append_assoc]
    have hprefix := (holds_append.mp (holds_store buf 0 (ascii "mtdparts=" ++ [0]))).1
    exact hprefix.store_append _ rfl
  case code => rw [if_pos h]

/-- When does the function do what the caller wants? -/
def Fits (devices : List MtdDevice) (buflen : ℕ) : Prop :=
  (mtdparts devices).length + 1 ≤ buflen
    ∨ buflen + 9 ≤ (mtdparts devices).length
      ∧ ∀ i, 9 + Pieces.offset (lengths (pieces devices)) i < buflen + 9 →
        9 + Pieces.offset (lengths (pieces devices)) i ≤ buflen

/-- The complete string does not fit, and does not fit in what the function takes for the space
either. -/
theorem generates_iff_of_lt (hbuf : 10 ≤ buflen) (hne : devices.isEmpty = false)
    (h : buflen - 1 < total devices) :
  Generates devices buflen (generateMtdparts devices buflen)
    ↔ 9 + Pieces.offset (lengths (pieces devices)) (printed devices buflen) ≤ buflen
  := by
  have hlen := length_mtdparts hne
  have hoffset : Pieces.offset (lengths (pieces devices)) (printed devices buflen)
      = ((pieces devices).take (printed devices buflen)).flatten.flatten.length := by
    rw [← sum_lengths, Pieces.offset, lengths, lengths, List.map_take]
  rw [generateMtdparts_of_lt hne h, hoffset, ← inside_iff hbuf]
  constructor
  · intro hgen
    exact hgen.inside
  · intro hinside
    constructor
    case inside => exact hinside
    case terminated => rintro ⟨⟩
    case code => rw [if_neg (by omega)]

end Outcome

/-- The function does what it is for when the complete string fits with its NUL, or is longer than
what the function takes for the space and no piece of it ends in the nine bytes behind the
buffer. -/
theorem generates_iff (devices : List MtdDevice) (buflen : ℕ) (hbuf : 10 ≤ buflen) :
  Generates devices buflen (generateMtdparts devices buflen) ↔ Fits devices buflen
  := by
  cases hne : devices.isEmpty with
  | true =>
    obtain rfl := List.isEmpty_iff.mp hne
    have hlen : (mtdparts []).length + 1 ≤ buflen := by
      rw [show (mtdparts []).length = 0 from rfl]
      omega
    apply iff_of_true _ (.inl hlen)
    constructor
    case inside =>
      intro st hmem
      rw [List.mem_singleton.mp hmem]
      exact hlen
    case terminated =>
      intro _ buf
      apply holds_store
    case code =>
      rw [if_pos hlen]
      rfl
  | false =>
    have hlen := length_mtdparts hne
    by_cases hle : total devices ≤ buflen - 1
    · by_cases hfits : (mtdparts devices).length + 1 ≤ buflen
      · exact iff_of_true (generates_of_le hne hfits) (.inl hfits)
      · apply iff_of_false
        · intro hgen
          have hcode := hgen.code
          rw [generateMtdparts_of_le hne hle, if_neg hfits] at hcode
          cases hcode
        · rintro (h | ⟨h, -⟩)
          · exact hfits h
          · omega
    · rw [generates_iff_of_lt hbuf hne (by omega)]
      constructor
      · intro hend
        right
        refine ⟨by omega, ?_⟩
        intro i hi
        have hspace : Pieces.offset (lengths (pieces devices)) i ≤ buflen - 1 := by omega
        have hlast := offset_le_offset_fitting hspace
        rw [printed] at hend
        omega
      · rintro (h | ⟨-, h⟩)
        · omega
        · apply h
          have hfitting := offset_fitting_le (buflen - 1) (lengths (pieces devices))
          rw [printed]
          omega

/-- A device with one partition of 128 kilobytes. -/
def oneDevice (name : List Byte) : MtdDevice where
  mtdId := ascii "nor0"
  numParts := 1
  parts := [⟨name, false, 0x20000, 0, 0⟩]
  numParts_eq := rfl

theorem generates_one :
  Generates [oneDevice (ascii "boot")] 512 (generateMtdparts [oneDevice (ascii "boot")] 512)
  := (generates_iff [oneDevice (ascii "boot")] 512 (by decide)).mpr (.inl (by decide +kernel))

/-- The complete string has 512 characters, and its NUL is stored behind the buffer. -/
theorem not_generates_long :
  ¬ Generates [oneDevice (List.replicate 492 97)] 512
    (generateMtdparts [oneDevice (List.replicate 492 97)] 512)
  := by
  have htotal : total [oneDevice (List.replicate 492 97)] = 503 := by decide +kernel
  intro h
  have hinside := h.inside
  rw [generateMtdparts_of_le rfl (by omega), htotal] at hinside
  have hlast := hinside (512, [0]) (List.mem_append_right _ List.mem_cons_self)
  exact absurd hlast (by decide)

end Mtdparts
