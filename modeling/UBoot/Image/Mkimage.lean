import UBoot.Crc32
import UBoot.Lib.AddressSpace

/-!
# Writing images

`tools/mkimage.c` writes a legacy image: a header of 64 bytes and the data.  The data of a
`MULTI` or `SCRIPT` image are a table of the sizes of its components, closed by a zero, and the
components, each but the last padded to a multiple of four bytes.  The header is written last,
over a dummy one, once the checksum of the data is known.
-/

namespace Image

/-! ### The header -/

/-- `IH_MAGIC`. -/
def ihMagic : Word := 0x27051956#32

/-- `IH_NMLEN`. -/
def ihNmlen : ℕ := 32

/-- `IH_TYPE_MULTI`. -/
def ihTypeMulti : Byte := 4

/-- `IH_TYPE_SCRIPT`. -/
def ihTypeScript : Byte := 6

/-- `image_header_t`. -/
@[ext]
structure Header where
  magic : Word
  hcrc : Word
  time : Word
  size : Word
  load : Word
  ep : Word
  dcrc : Word
  os : Byte
  arch : Byte
  type : Byte
  comp : Byte
  name : List Byte
  length_name : name.length = ihNmlen

namespace Header

/-- The header in memory; its words are big endian. -/
def bytes (h : Header) : List Byte :=
  wordBytes h.magic ++ (wordBytes h.hcrc ++ (wordBytes h.time ++ (wordBytes h.size
    ++ (wordBytes h.load ++ (wordBytes h.ep ++ (wordBytes h.dcrc
    ++ ([h.os, h.arch, h.type, h.comp] ++ h.name)))))))

/-- `sizeof(image_header_t)`. -/
def headerSize : ℕ := 64

@[simp]
theorem length_bytes (h : Header) :
  h.bytes.length = headerSize
  := by
  simp only [bytes, List.length_append, h.length_name]
  rfl

/-- The dummy header that is written first. -/
def dummy : Header where
  magic := 0
  hcrc := 0
  time := 0
  size := 0
  load := 0
  ep := 0
  dcrc := 0
  os := 0
  arch := 0
  type := 0
  comp := 0
  name := List.replicate ihNmlen 0
  length_name := List.length_replicate

/-- What `strncpy` makes of a field of `n` bytes. -/
def strncpy (n : ℕ) (s : List Byte) : List Byte :=
  s.take n ++ List.replicate (n - s.length) 0

theorem length_strncpy (n : ℕ) (s : List Byte) :
  (strncpy n s).length = n
  := by
  rw [strncpy, List.length_append, List.length_take, List.length_replicate]
  omega

/-- `image_set_name`. -/
def setName (h : Header) (name : List Byte) : Header :=
  { h with name := strncpy ihNmlen name, length_name := length_strncpy _ _ }

end Header

/-! ### The writer -/

/-- The options of one call, with `-d` and without `-x`. -/
structure Params where
  os : Byte
  arch : Byte
  type : Byte
  comp : Byte
  addr : Word
  /-- The argument of `-e`, if there is one. -/
  entry : Option Word
  datafile : List Byte
  imagename : List Byte
  imagename_str : 0 ∉ imagename

/-- `params.ep`, which is the load address unless `-e` is given. -/
def Params.ep (params : Params) : Word := params.entry.getD params.addr

/-- The names in the argument of `-d`, between its colons. -/
def Params.names (params : Params) : List (List Byte) := params.datafile.splitOn 0x3A

section Writer

-- the files by name; one that is not there cannot be opened
variable (fs : List Byte → Option (List Byte))

/-- The table of sizes, as the first loop of `main` writes it. -/
def writeSizes : List (List Byte) → Option (List Byte)
  | [] => some (wordBytes 0)
  | file :: names => do
    let data ← fs file
    let table ← writeSizes names
    return wordBytes (BitVec.ofNat 32 data.length) ++ table

/-- The zeros behind a component, up to a multiple of four bytes. -/
def padding (data : List Byte) : List Byte :=
  let tail := data.length % 4
  if tail ≠ 0 then List.replicate (4 - tail) 0 else []

/--
`copy_file`.  An empty file cannot be mapped.  The size is an `int`, and nothing is said here
about files it cannot measure.
-/
def copyFile (datafile : List Byte) (pad : Bool) : Option (List Byte) := do
  let data ← fs datafile
  guard (data ≠ [] ∧ data.length < 2 ^ 31)
  return if pad then data ++ padding data else data

/-- The components, as the second loop of `main` writes them. -/
def copyFiles : List (List Byte) → Option (List Byte)
  | [] => some []
  | [file] => copyFile fs file false
  | file :: file' :: names => do
    let data ← copyFile fs file true
    let rest ← copyFiles (file' :: names)
    return data ++ rest

/-- The data of the image. -/
def writeData (params : Params) : Option (List Byte) :=
  if params.type = ihTypeMulti ∨ params.type = ihTypeScript then do
    let table ← writeSizes fs params.names
    let rest ← copyFiles fs params.names
    return table ++ rest
  else
    copyFile fs params.datafile false

/-- `image_set_header` of `tools/default_image.c`; the time is that of the image file. -/
def imageSetHeader (hdr : Header) (data : List Byte) (mtime : Word) (params : Params) : Header :=
  let len := BitVec.ofNat 32 data.length
  let hdr := { hdr with
    magic := ihMagic
    time := mtime
    size := len
    load := params.addr
    ep := params.ep
    dcrc := Crc32.crc32 0 (data.take len.toNat)
    os := params.os
    arch := params.arch
    type := params.type
    comp := params.comp }
  let hdr := hdr.setName params.imagename
  { hdr with hcrc := Crc32.crc32 0 hdr.bytes }

/-- The image file that `mkimage` leaves, if it does not give up. -/
def mkimage (params : Params) (mtime : Word) : Option (List Byte) := do
  let data ← writeData fs params
  return (imageSetHeader .dummy data mtime params).bytes ++ data

end Writer

/-! ### What is written -/

section Written

variable {fs : List Byte → Option (List Byte)} {names files : List (List Byte)}

/-- The sizes of the components. -/
def sizes (files : List (List Byte)) : List Word :=
  files.map fun data => BitVec.ofNat 32 data.length

/-- The components one behind the other, each but the last padded. -/
def layout : List (List Byte) → List Byte
  | [] => []
  | [data] => data
  | data :: data' :: files => data ++ padding data ++ layout (data' :: files)

theorem length_append_padding (data : List Byte) :
  (data ++ padding data).length = (data.length + 3) / 4 * 4
  := by
  rw [List.length_append, padding]
  split_ifs
  · rw [List.length_replicate]
    omega
  · rw [List.length_nil]
    omega

theorem writeSizes_eq (h : names.mapM fs = some files) :
  writeSizes fs names = some ((sizes files).flatMap wordBytes ++ wordBytes 0)
  := by
  induction names generalizing files with
  | nil =>
    rw [List.mapM_nil] at h
    cases h
    rfl
  | cons file names ih =>
    rw [List.mapM_cons] at h
    obtain ⟨data, hdata, h⟩ := Option.bind_eq_some_iff.mp h
    obtain ⟨rest, hrest, h⟩ := Option.bind_eq_some_iff.mp h
    cases h
    rw [writeSizes, hdata, ih hrest]
    simp [sizes]

theorem copyFile_eq {datafile data : List Byte} {pad : Bool} (h : fs datafile = some data)
    (hne : data ≠ []) (hlt : data.length < 2 ^ 31) :
  copyFile fs datafile pad = some (if pad then data ++ padding data else data)
  := by
  have hguard : data ≠ [] ∧ data.length < 2 ^ 31 := ⟨hne, hlt⟩
  rw [copyFile, h]
  simp only [Option.bind_eq_bind, Option.bind_some, guard, if_pos hguard, Option.pure_def]

theorem copyFiles_eq (h : names.mapM fs = some files)
    (hdata : ∀ data ∈ files, data ≠ [] ∧ data.length < 2 ^ 31) :
  copyFiles fs names = some (layout files)
  := by
  induction names generalizing files with
  | nil =>
    rw [List.mapM_nil] at h
    cases h
    rfl
  | cons file names ih =>
    rw [List.mapM_cons] at h
    obtain ⟨data, hfile, h⟩ := Option.bind_eq_some_iff.mp h
    obtain ⟨rest, hrest, h⟩ := Option.bind_eq_some_iff.mp h
    cases h
    obtain ⟨⟨hne, hlt⟩, hdata⟩ := List.forall_mem_cons.mp hdata
    have hnames := ih hrest hdata
    cases names with
    | nil =>
      rw [List.mapM_nil] at hrest
      cases hrest
      rw [copyFiles, copyFile_eq hfile hne hlt]
      rfl
    | cons file' names =>
      rw [List.mapM_cons] at hrest
      obtain ⟨data', hfile', hrest⟩ := Option.bind_eq_some_iff.mp hrest
      obtain ⟨rest', -, hrest⟩ := Option.bind_eq_some_iff.mp hrest
      cases hrest
      rw [copyFiles, copyFile_eq hfile hne hlt, hnames]
      rfl

/-- The data of an image of several components. -/
def multiData (files : List (List Byte)) : List Byte :=
  (sizes files).flatMap wordBytes ++ (wordBytes 0 ++ layout files)

theorem mkimage_eq {params : Params} (mtime : Word)
    (htype : params.type = ihTypeMulti ∨ params.type = ihTypeScript)
    (h : params.names.mapM fs = some files)
    (hdata : ∀ data ∈ files, data ≠ [] ∧ data.length < 2 ^ 31) :
  mkimage fs params mtime
    = some ((imageSetHeader .dummy (multiData files) mtime params).bytes ++ multiData files)
  := by
  have hwrite : writeData fs params = some (multiData files) := by
    rw [writeData, if_pos htype, writeSizes_eq h, copyFiles_eq h hdata]
    simp [multiData]
  rw [mkimage, hwrite]
  rfl

end Written

end Image
