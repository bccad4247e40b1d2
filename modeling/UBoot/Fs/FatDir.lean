import UBoot.Fs.FatContents
import UBoot.Fs.Vfat
import Mathlib.Data.List.GetD
import Mathlib.Data.List.TakeWhile

/-!
# Directories

`get_dentfromdir` looks for a name among the entries of a directory, cluster by cluster.  A long
name is in slots before the entry that it belongs to.  If these are in one cluster, the labels of
volumes do not look like slots, the short names are not cut off at a space, and the chain of
clusters and its end are recognised, then it finds the first entry with the name.
-/

namespace Fat

/-! ### The function -/

/-- The part of a short name before the first space. -/
def unpadded (chars : List Byte) : List Byte := chars.takeWhile (fun c => c ≠ 0 ∧ c ≠ 0x20)

/-- `get_name`. -/
def getName (dirent : List Byte) : List Byte :=
  let base := unpadded (dirent.take 8)
  let ext := unpadded ((dirent.drop 8).take 3)
  plainName (if ext = [] then base else base ++ 0x2e :: ext)

/-- `attr`. -/
def attr (buf : ℕ → Byte) (i : ℕ) : Byte := buf (direntSize * i + 11)

/-- The variables of `get_dentfromdir`: `get_dentfromdir_block` and `get_vfatname_block`. -/
structure Lookup where
  fs : Fsdata
  cluster : ℕ → Byte
  block : ℕ → Byte

/-- What comes of an entry: the next one, the end with `NULL`, or the entry that is looked for. -/
inductive Seen where
  | next
  | null
  | found (dirent : List Byte)
  deriving DecidableEq

/-- An entry that is not passed over is compared with the name. -/
def compare (filename : List Byte) (dols : Bool) (cluster : ℕ → Byte) (i : ℕ)
    (lName : List Byte) : Seen :=
  if slotId cluster i = 0 then .null
  else if dols then .next
  else if filename ≠ getName (direntAt cluster i) ∧ filename ≠ lName then .next
  else .found (direntAt cluster i)

/-- The entry of a long name is copied to the first of the slots. -/
def overwriteSlot (cluster : ℕ → Byte) (i : ℕ) (found : Option (List Byte × List Byte)) :
    ℕ → Byte :=
  match found with
  | none => cluster
  | some (_, dirent) => Memory.store cluster (direntSize * i) dirent

/-- `l_name`. -/
def lName (found : Option (List Byte × List Byte)) : List Byte :=
  match found with
  | none => []
  | some (name, _) => name

/-- What `get_dentfromdir` does with one entry. -/
def lookAt (d : Disk) (curclust : Word) (filename : List Byte) (dols : Bool) (s : Lookup)
    (i : ℕ) : Except Fault (Lookup × Seen) :=
  if slotId s.cluster i = 0xe5 then .ok (s, .next)
  else if attr s.cluster i &&& 0x08 ≠ 0 then
    if attr s.cluster i &&& 0x0f ≠ 0 ∧ lastLongEntry s.cluster i then do
      let v ← getVfatname d s.fs curclust s.cluster s.block i
      let s : Lookup := ⟨v.fs, overwriteSlot s.cluster i v.found, v.block⟩
      if dols then .ok (s, .next)
      else .ok (s, compare filename dols s.cluster i (lName v.found))
    else .ok (s, .next)
  else .ok (s, compare filename dols s.cluster i [])

/-- The next `n` entries of a cluster. -/
def lookThrough (d : Disk) (curclust : Word) (filename : List Byte) (dols : Bool) :
    ℕ → ℕ → Lookup → Except Fault (Lookup × Seen)
  | 0, _, s => .ok (s, .next)
  | n + 1, i, s => do
    let r ← lookAt d curclust filename dols s i
    match r.2 with
    | .next => lookThrough d curclust filename dols n (i + 1) r.1
    | .null => .ok r
    | .found _ => .ok r

/-- `get_dentfromdir`, from a cluster on and for at most `fuel` clusters. -/
def getDentfromdir (d : Disk) (filename : List Byte) (dols : Bool) :
    ℕ → Word → Lookup → Option (Except Fault (Lookup × Option (List Byte)))
  | 0, _, _ => none
  | fuel + 1, curclust, s =>
    let c := getCluster d s.fs curclust s.cluster 0 s.fs.clusterBytes
    if c.2 = false then some (.ok (⟨s.fs, c.1, s.block⟩, none))
    else
      match lookThrough d curclust filename dols s.fs.slots 0 ⟨s.fs, c.1, s.block⟩ with
      | .error e => some (.error e)
      | .ok (s, .null) => some (.ok (s, none))
      | .ok (s, .found dirent) => some (.ok (s, some dirent))
      | .ok (s, .next) =>
        let g := getFatent d s.fs curclust
        let s := { s with fs := g.1 }
        if checkClust g.2 g.1.fatsize then some (.ok (s, none))
        else getDentfromdir d filename dols fuel g.2 s

/-! ### Directories -/

/-- The characters of a slot, with 16 bits. -/
def units (slot : List Byte) : List ℕ :=
  [1, 3, 5, 7, 9, 14, 16, 18, 20, 22, 24, 28, 30].map fun j =>
    (slot.getD j 0).toNat + 256 * (slot.getD (j + 1) 0).toNat

/-- The characters of some slots: those of the last slot come first. -/
def unitsOf (slots : List (List Byte)) : List ℕ := (slots.reverse.map units).flatten

/-- The slots of a long name, or none: they are counted down, the first one is marked, and the name
is not empty and does not end before it. -/
structure LongName where
  slots : List (List Byte)
  length_le : slots.length ≤ 20
  length_slot : ∀ slot ∈ slots, slot.length = direntSize
  attr : ∀ slot ∈ slots, slot.getD 11 0 = 0x0f
  number : ∀ i < slots.length, (slots.getD i []).getD 0 0
    = UInt8.ofNat (slots.length - i + if i = 0 then 0x40 else 0)
  full : ∀ slot ∈ slots.tail, 0 ∉ units slot
  live : slots ≠ [] → (unitsOf slots).head? ≠ some 0
  fits : ((unitsOf slots).takeWhile (· ≠ 0)).length ≤ 255

/-- The characters of a long name. -/
def LongName.name (n : LongName) : List ℕ := (unitsOf n.slots).takeWhile (· ≠ 0)

/-- A part of a short name, filled up with spaces. -/
def padded (n : ℕ) (chars : List Byte) : List Byte :=
  chars ++ List.replicate (n - chars.length) 0x20

/-- An entry of a file or of a directory.  There may be spaces inside of the name. -/
structure Dirent where
  base : List Byte
  ext : List Byte
  rest : List Byte
  base_length : base.length ≤ 8
  base_live : base ≠ [] ∧ base.head? ≠ some 0xe5 ∧ base.head? ≠ some 0x20
  base_chars : ∀ c ∈ base, c ≠ 0
  base_last : base.getLast? ≠ some 0x20
  ext_length : ext.length ≤ 3
  ext_chars : ∀ c ∈ ext, c ≠ 0
  ext_last : ext.getLast? ≠ some 0x20
  rest_length : rest.length = 21
  attr : rest.getD 0 0 &&& 0x08 = 0

/-- The bytes of an entry. -/
def Dirent.bytes (e : Dirent) : List Byte := padded 8 e.base ++ padded 3 e.ext ++ e.rest

/-- The short name in lower case; 5 at the beginning stands for 0xe5. -/
def Dirent.shortName (e : Dirent) : List Byte :=
  let name := if e.ext = [] then e.base else e.base ++ 0x2e :: e.ext
  (if name.head? = some 0x05 then 0xe5 :: name.tail else name).map tolower

/-- A deleted entry or slot. -/
structure Deleted where
  bytes : List Byte
  length : bytes.length = direntSize
  deleted : bytes.getD 0 0 = 0xe5

/-- The label of a volume. -/
structure Label where
  bytes : List Byte
  length : bytes.length = direntSize
  live : bytes.getD 0 0 ≠ 0 ∧ bytes.getD 0 0 ≠ 0xe5
  attr : bytes.getD 11 0 &&& 0x08 ≠ 0 ∧ bytes.getD 11 0 &&& 0x0f ≠ 0x0f

/-- What a directory consists of. -/
inductive Item where
  | deleted (e : Deleted)
  | label (e : Label)
  | file (n : LongName) (e : Dirent)

/-- The entries and slots of an item. -/
def Item.records : Item → List (List Byte)
  | .deleted e => [e.bytes]
  | .label e => [e.bytes]
  | .file n e => n.slots ++ [e.bytes]

/-- The bytes of some items. -/
def bytesOf (items : List Item) : List Byte := (items.map fun item => item.records.flatten).flatten

/-- A character in lower case. -/
def lower (u : ℕ) : ℕ := if 65 ≤ u ∧ u ≤ 90 then u + 32 else u

/-- A file has a long name, which is in lower case. -/
def LongNamed (filename : List Byte) (n : LongName) : Prop :=
  n.slots ≠ [] ∧ filename.map UInt8.toNat = n.name.map lower

instance (filename : List Byte) (n : LongName) : Decidable (LongNamed filename n) :=
  inferInstanceAs (Decidable (_ ∧ _))

/-- A file has a name, which is in lower case. -/
def Named (filename : List Byte) (n : LongName) (e : Dirent) : Prop :=
  filename = e.shortName ∨ LongNamed filename n

instance (filename : List Byte) (n : LongName) (e : Dirent) : Decidable (Named filename n e) :=
  inferInstanceAs (Decidable (_ ∨ _))

/-- The entry of a file with a name. -/
def Item.find (filename : List Byte) : Item → Option (List Byte)
  | .deleted _ => none
  | .label _ => none
  | .file n e => if Named filename n e then some e.bytes else none

/-- The entry of the first file with a name. -/
def find (filename : List Byte) (items : List Item) : Option (List Byte) :=
  items.findSome? (Item.find filename)

/-! ### The condition -/

/-- When there is a space in a short name, `get_name` cuts it off there; it does not matter for a
name that is neither what is left nor the whole, or that is the long one. -/
def Whole (filename : List Byte) (n : LongName) (e : Dirent) : Prop :=
  0x20 ∈ e.base ++ e.ext →
    (filename = getName e.bytes ↔ filename = e.shortName) ∨ LongNamed filename n

/-- What the code takes for what it is: labels that do not look like slots, short names that are not
cut off, and long names of bytes that do not begin with the characters 5 and 0xe5.  An empty name is
taken for that of any file. -/
def Item.Plain (filename : List Byte) : Item → Prop
  | .deleted _ => True
  | .label e => e.bytes.getD 0 0 &&& 0x40 = 0
  | .file n e => filename ≠ [] ∧ Whole filename n e
    ∧ (∀ u ∈ n.name, u < 256) ∧ n.name.head? ≠ some 0x05 ∧ n.name.head? ≠ some 0xe5

/-! ### One item -/

section Record

variable {m : ℕ → Byte} {i : ℕ} {record : List Byte}

theorem getD_of_holds {p j : ℕ} {ℓ : List Byte} (h : Memory.Holds m p ℓ) (hj : j < ℓ.length) :
  m (p + j) = ℓ.getD j 0
  := by rw [Memory.holds_iff_getElem.mp h j hj, List.getD_eq_getElem _ _ hj]

theorem slotId_of_holds (h : Memory.Holds m (direntSize * i) record)
    (hlength : record.length = direntSize) :
  slotId m i = record.getD 0 0
  := by
  rw [slotId, ← Nat.add_zero (direntSize * i)]
  apply getD_of_holds h
  rw [hlength]
  decide

theorem attr_of_holds (h : Memory.Holds m (direntSize * i) record)
    (hlength : record.length = direntSize) :
  attr m i = record.getD 11 0
  := by
  apply getD_of_holds h
  rw [hlength]
  decide

theorem direntAt_of_holds (h : Memory.Holds m (direntSize * i) record)
    (hlength : record.length = direntSize) :
  direntAt m i = record
  := by
  have hread := h.read_eq
  rwa [hlength] at hread

/-- The entries and slots follow one another. -/
theorem holds_flatten {records : List (List Byte)} {p : ℕ}
    (hlength : ∀ record ∈ records, record.length = direntSize)
    (h : Memory.Holds m (direntSize * p) records.flatten) (hi : i < records.length) :
  Memory.Holds m (direntSize * (p + i)) records[i]
  := by
  induction records generalizing p i with
  | nil => exact absurd hi (Nat.not_lt_zero i)
  | cons record records ih =>
    rw [List.flatten_cons, Memory.holds_append, hlength record List.mem_cons_self] at h
    cases i with
    | zero => exact h.1
    | succ i =>
      have hnext := h.2
      rw [← Nat.mul_succ] at hnext
      have hrest := ih (fun r hr => hlength r (List.mem_cons_of_mem _ hr)) hnext
        (Nat.lt_of_succ_lt_succ hi)
      rwa [Nat.succ_add_eq_add_succ] at hrest

/-- The low bytes of the characters. -/
theorem slotChars_of_holds (h : Memory.Holds m (direntSize * i) record)
    (hlength : record.length = direntSize) :
  slotChars m i = (units record).map UInt8.ofNat
  := by
  rw [slotChars, units, List.map_map]
  apply List.map_congr_left
  intro j hj
  have hlt : j < record.length := by
    rw [hlength, direntSize]
    revert j
    decide
  rw [getD_of_holds h hlt, Function.comp_apply, UInt8.ofNat_add, UInt8.ofNat_mul,
    UInt8.ofNat_toNat]
  rw [show UInt8.ofNat 256 = 0 from rfl, UInt8.zero_mul, UInt8.add_zero]

end Record

/-! ### Long names -/

section Long

theorem number_first {n : ℕ} (hn : n ≤ 20) :
  (UInt8.ofNat (n + 0x40) &&& 0xbf).toNat = n ∧ UInt8.ofNat (n + 0x40) &&& 0x40 ≠ 0
    ∧ UInt8.ofNat (n + 0x40) ≠ 0xe5
  := by
  revert n
  decide

theorem number_other {n : ℕ} (hn : n ≤ 20) :
  (UInt8.ofNat n &&& 0xbf).toNat = n ∧ UInt8.ofNat n &&& 0x40 = 0 ∧ UInt8.ofNat n ≠ 0xe5
  := by
  revert n
  decide

/-- Characters of one byte are found up to the end of the name. -/
theorem text_units {us : List ℕ} (h : ∀ u ∈ us.takeWhile (· ≠ 0), u < 256) :
  (text (us.map UInt8.ofNat)).map UInt8.toNat = us.takeWhile (· ≠ 0)
  := by
  induction us with
  | nil => rfl
  | cons u us ih =>
    rw [List.map_cons, text_cons]
    by_cases hzero : u = 0
    · subst hzero
      rfl
    · rw [List.takeWhile_cons, if_pos (decide_eq_true hzero)] at h ⊢
      have hu := h u List.mem_cons_self
      have hne : UInt8.ofNat u ≠ 0 := by
        intro heq
        replace heq := congrArg UInt8.toNat heq
        rw [UInt8.toNat_ofNat', Nat.mod_eq_of_lt hu] at heq
        exact hzero heq
      rw [if_neg hne, List.map_cons, UInt8.toNat_ofNat', Nat.mod_eq_of_lt hu,
        ih fun v hv => h v (List.mem_cons_of_mem _ hv)]

theorem unitsOf_append (slots : List (List Byte)) (slot : List Byte) :
  unitsOf (slots ++ [slot]) = units slot ++ unitsOf slots
  := by rw [unitsOf, List.reverse_append, List.reverse_singleton, List.singleton_append,
    List.map_cons, List.flatten_cons, unitsOf]

variable {cluster : ℕ → Byte} {k : ℕ} (n : LongName)

/-- The slots of a long name are in a cluster. -/
def LongName.In (n : LongName) (cluster : ℕ → Byte) (k : ℕ) : Prop :=
  Memory.Holds cluster (direntSize * k) n.slots.flatten

theorem LongName.holds (h : n.In cluster k) {i : ℕ} (hi : i < n.slots.length) :
  Memory.Holds cluster (direntSize * (k + i)) n.slots[i]
  := holds_flatten n.length_slot h hi

theorem LongName.slotId_eq (h : n.In cluster k) {i : ℕ} (hi : i < n.slots.length) :
  slotId cluster (k + i) = UInt8.ofNat (n.slots.length - i + if i = 0 then 0x40 else 0)
  := by
  have hnumber := n.number i hi
  rw [List.getD_eq_getElem _ _ hi] at hnumber
  rw [slotId_of_holds (n.holds h hi) (n.length_slot _ (List.getElem_mem hi)), hnumber]

theorem LongName.attr_slot (h : n.In cluster k) {i : ℕ} (hi : i < n.slots.length) :
  Fat.attr cluster (k + i) = 0x0f
  := by
  have hslot := List.getElem_mem hi
  rw [attr_of_holds (n.holds h hi) (n.length_slot _ hslot), n.attr _ hslot]

/-- The first slot. -/
theorem LongName.slotId_first (h : n.In cluster k) (hpos : 0 < n.slots.length) :
  slotId cluster k = UInt8.ofNat (n.slots.length + 0x40)
  := n.slotId_eq h hpos

/-- The other slots. -/
theorem LongName.slotId_other (h : n.In cluster k) {i : ℕ} (hi : i < n.slots.length)
    (hpos : 0 < i) :
  slotId cluster (k + i) = UInt8.ofNat (n.slots.length - i)
  := by rw [n.slotId_eq h hi, if_neg hpos.ne', Nat.add_zero]

theorem LongName.slotChars_eq (h : n.In cluster k) {i : ℕ} (hi : i < n.slots.length) :
  slotChars cluster (k + i) = (units n.slots[i]).map UInt8.ofNat
  := slotChars_of_holds (n.holds h hi) (n.length_slot _ (List.getElem_mem hi))

theorem LongName.not_mem_units {i : ℕ} (hi : i < n.slots.length) (hpos : 0 < i) :
  0 ∉ units n.slots[i]
  := by
  apply n.full
  rw [← List.drop_one]
  rw [List.mem_drop_iff_getElem]
  use i - 1, by omega
  congr 1
  omega

/-- The name does not end in a slot that is not the first one. -/
theorem LongName.takeWhile_units {m : ℕ} (hm : m < n.slots.length) (hpos : 0 < m) :
  (units n.slots[m] ++ unitsOf (n.slots.take m)).takeWhile (· ≠ 0)
    = units n.slots[m] ++ (unitsOf (n.slots.take m)).takeWhile (· ≠ 0)
  := by
  apply List.takeWhile_append_of_pos
  intro u hu
  rw [decide_eq_true_iff]
  rintro rfl
  exact n.not_mem_units hm hpos hu

theorem LongName.mem_name {m i : ℕ} (hm : m ≤ n.slots.length) (hi : i < m) (hpos : 0 < i) {u : ℕ}
    (hu : u ∈ units n.slots[i]) :
  u ∈ (unitsOf (n.slots.take m)).takeWhile (· ≠ 0)
  := by
  induction m with
  | zero => exact absurd hi (Nat.not_lt_zero i)
  | succ m ih =>
    rw [List.take_succ_eq_append_getElem hm, unitsOf_append, n.takeWhile_units hm (by omega)]
    obtain rfl | hlt := Nat.eq_or_lt_of_le (Nat.le_of_lt_succ hi)
    · exact List.mem_append_left _ hu
    · exact List.mem_append_right _ (ih (Nat.le_of_succ_le hm) hlt hu)

/-- The text of the first slots. -/
theorem LongName.names_eq (h : n.In cluster k) {m : ℕ} (hm : m ≤ n.slots.length)
    (hbytes : ∀ u ∈ (unitsOf (n.slots.take m)).takeWhile (· ≠ 0), u < 256) :
  (names cluster k m).map UInt8.toNat = (unitsOf (n.slots.take m)).takeWhile (· ≠ 0)
  := by
  induction m with
  | zero => rfl
  | succ m ih =>
    rw [List.take_succ_eq_append_getElem hm, unitsOf_append] at hbytes ⊢
    rw [names, List.map_append, n.slotChars_eq h hm]
    obtain rfl | hpos := Nat.eq_zero_or_pos m
    · rw [List.take_zero, unitsOf, List.reverse_nil, List.map_nil, List.flatten_nil,
        List.append_nil] at hbytes ⊢
      rw [names, List.map_nil, List.append_nil, text_units hbytes]
    · have hself : (units n.slots[m]).takeWhile (· ≠ 0) = units n.slots[m] := by
        rw [List.takeWhile_eq_self_iff]
        intro u hu
        rw [decide_eq_true_iff]
        rintro rfl
        exact n.not_mem_units hm hpos hu
      rw [n.takeWhile_units hm hpos] at hbytes ⊢
      rw [text_units, hself, ih (Nat.le_of_succ_le hm)]
      · intro u hu
        exact hbytes u (List.mem_append_right _ hu)
      · intro u hu
        rw [hself] at hu
        exact hbytes u (List.mem_append_left _ hu)

theorem LongName.countsDown (h : n.In cluster k) (slots : ℕ) :
  CountsDown cluster slots n.slots.length k
  := by
  intro i hi _
  have hle := n.length_le
  rw [sequence]
  obtain rfl | hpos := Nat.eq_zero_or_pos i
  · rw [Nat.add_zero, n.slotId_first h hi, (number_first hle).1, Nat.sub_zero]
  · rw [n.slotId_other h hi hpos, (number_other (by omega)).1]

theorem LongName.sequence_eq (h : n.In cluster k) (hpos : 0 < n.slots.length) :
  sequence cluster k = n.slots.length
  := by rw [sequence, n.slotId_first h hpos, (number_first n.length_le).1]

/-- Only the first slot ends the name. -/
theorem LongName.endsName_first (h : n.In cluster k) (hpos : 0 < n.slots.length) :
  EndsName cluster k
  := by
  right
  rw [lastLongEntry, n.slotId_first h hpos]
  exact (number_first n.length_le).2.1

theorem LongName.not_endsName (h : n.In cluster k) (hbytes : ∀ u ∈ n.name, u < 256) {i : ℕ}
    (hi : i < n.slots.length) (hpos : 0 < i) :
  ¬ EndsName cluster (k + i)
  := by
  rintro (hzero | hlast)
  · rw [n.slotChars_eq h hi, List.mem_map] at hzero
    obtain ⟨u, hu, heq⟩ := hzero
    have hmem := n.mem_name (Nat.le_refl _) hi hpos hu
    rw [List.take_length] at hmem
    replace heq := congrArg UInt8.toNat heq
    rw [UInt8.toNat_ofNat', Nat.mod_eq_of_lt (hbytes u hmem)] at heq
    rw [heq] at hu
    exact n.not_mem_units hi hpos hu
  · have hle := n.length_le
    rw [lastLongEntry, n.slotId_other h hi hpos] at hlast
    exact hlast (number_other (by omega)).2.1

/-- **A long name** that is in one cluster with the entry it belongs to is found. -/
theorem LongName.getVfatname_eq (d : Disk) (curclust : Word) (block : ℕ → Byte) {fs : Fsdata}
    (h : n.In cluster k) (hpos : 0 < n.slots.length) (hlt : k + n.slots.length < fs.slots)
    (hslots : fs.slots ≤ maxSlots) (hbytes : ∀ u ∈ n.name, u < 256) :
  ∃ name, name.map UInt8.toNat = n.name
    ∧ getVfatname d fs curclust cluster block k
      = .ok ⟨fs, block, some (plainName name, direntAt cluster (k + n.slots.length))⟩
  := by
  have hname := n.names_eq h (Nat.le_refl _) (by rwa [List.take_length])
  rw [List.take_length] at hname
  have hlength : (names cluster k n.slots.length).length ≤ 255 := by
    have hfits := n.fits
    rwa [← hname, List.length_map] at hfits
  have hback : goBack cluster (k + n.slots.length) []
      = .ok ([] ++ names cluster k (k + n.slots.length - k)) := by
    apply goBack_of_le (by omega) (by omega) (n.endsName_first h hpos)
    · intro i hlow hhigh
      obtain ⟨j, rfl⟩ := Nat.exists_eq_add_of_lt hlow
      exact n.not_endsName h hbytes (by omega) (Nat.succ_pos j)
    · rwa [List.length_nil, Nat.zero_add, Nat.add_sub_cancel_left]
  rw [List.nil_append, Nat.add_sub_cancel_left] at hback
  have hmin : min (k + n.slots.length) fs.slots = k + n.slots.length := Nat.min_eq_left hlt.le
  use names cluster k n.slots.length, hname
  rw [getVfatname, n.sequence_eq h hpos, countDown_of_countsDown hslots (by omega)
    (n.countsDown h _), hmin]
  change (if fs.slots ≤ k + n.slots.length then _ else _) = _
  rw [if_neg (Nat.not_le_of_lt hlt), vfatnameHere, bind_eq_ok]
  refine ⟨_, hback, ?_⟩
  rw [bind_eq_ok]
  refine ⟨_, if_neg (by omega), rfl⟩

end Long

/-! ### Short names -/

section Short

variable (e : Dirent)

theorem length_padded {n : ℕ} {chars : List Byte} (h : chars.length ≤ n) :
  (padded n chars).length = n
  := by rw [padded, List.length_append, List.length_replicate, Nat.add_sub_cancel' h]

theorem unpadded_padded {n : ℕ} {chars : List Byte} (h : ∀ c ∈ chars, c ≠ 0 ∧ c ≠ 0x20) :
  unpadded (padded n chars) = chars
  := by
  have hchars : ∀ c ∈ chars, decide (c ≠ 0 ∧ c ≠ 0x20) = true := by
    intro c hc
    rw [decide_eq_true_iff]
    exact h c hc
  rw [unpadded, padded, List.takeWhile_append_of_pos hchars]
  cases n - chars.length with
  | zero => rw [List.replicate_zero, List.takeWhile_nil, List.append_nil]
  | succ k => rw [List.replicate_succ, List.takeWhile_cons_of_neg (by decide), List.append_nil]

theorem Dirent.length_bytes :
  e.bytes.length = direntSize
  := by rw [Dirent.bytes, List.length_append, List.length_append, length_padded e.base_length,
    length_padded e.ext_length, e.rest_length, direntSize]

/-- The first character of an entry. -/
theorem Dirent.head_bytes :
  e.bytes.getD 0 0 ≠ 0 ∧ e.bytes.getD 0 0 ≠ 0xe5
  := by
  obtain ⟨hne, hlive⟩ := e.base_live
  have hchars := e.base_chars
  rw [Dirent.bytes, padded]
  cases hbase : e.base with
  | nil => exact absurd hbase hne
  | cons c cs =>
    rw [hbase] at hlive hchars
    constructor
    · exact hchars c List.mem_cons_self
    · exact fun h => hlive.1 (congrArg some h)

theorem Dirent.attr_bytes :
  e.bytes.getD 11 0 &&& 0x08 = 0
  := by
  have hlength : (padded 8 e.base ++ padded 3 e.ext).length = 11 := by
    rw [List.length_append, length_padded e.base_length, length_padded e.ext_length]
  rw [Dirent.bytes, List.getD_append_right _ _ _ _ (by rw [hlength]), hlength]
  exact e.attr

/-- A name that does not begin with the mark of deleted entries. -/
theorem plainName_eq {name : List Byte} (h : name.head? ≠ some 0xe5) :
  plainName name
    = (if name.head? = some 0x05 then 0xe5 :: name.tail else name).map tolower
  := by
  rw [plainName, if_neg h]
  split
  all_goals rfl

/-- `get_name` gives a short name without spaces. -/
theorem Dirent.getName_eq (h : 0x20 ∉ e.base ++ e.ext) :
  getName e.bytes = e.shortName
  := by
  rw [List.mem_append, not_or] at h
  have hbaseChars : ∀ c ∈ e.base, c ≠ 0 ∧ c ≠ 0x20 := by
    rintro c hc
    exact ⟨e.base_chars c hc, fun heq => h.1 (heq ▸ hc)⟩
  have hextChars : ∀ c ∈ e.ext, c ≠ 0 ∧ c ≠ 0x20 := by
    rintro c hc
    exact ⟨e.ext_chars c hc, fun heq => h.2 (heq ▸ hc)⟩
  have hbase : e.bytes.take 8 = padded 8 e.base := by
    rw [Dirent.bytes, List.append_assoc, List.take_left' (length_padded e.base_length)]
  have hext : (e.bytes.drop 8).take 3 = padded 3 e.ext := by
    rw [Dirent.bytes, List.append_assoc, List.drop_left' (length_padded e.base_length),
      List.take_left' (length_padded e.ext_length)]
  obtain ⟨hne, hlive⟩ := e.base_live
  have hhead : (if e.ext = [] then e.base else e.base ++ 0x2e :: e.ext).head? ≠ some 0xe5 := by
    split
    · exact hlive.1
    · cases hcase : e.base with
      | nil => exact absurd hcase hne
      | cons c cs =>
        rw [hcase] at hlive
        exact hlive.1
  rw [getName, hbase, hext, unpadded_padded hbaseChars, unpadded_padded hextChars,
    plainName_eq hhead, Dirent.shortName]

/-- The name that `get_name` gives tells the same as the short name. -/
theorem named_iff {filename : List Byte} {n : LongName} (h : Whole filename n e) :
  Named filename n e ↔ filename = getName e.bytes ∨ LongNamed filename n
  := by
  rw [Named]
  by_cases hspace : 0x20 ∈ e.base ++ e.ext
  · obtain hsame | hlong := h hspace
    · rw [hsame]
    · exact iff_of_true (.inr hlong) (.inr hlong)
  · rw [e.getName_eq hspace]

theorem toNat_tolower (c : Byte) :
  (tolower c).toNat = lower c.toNat
  := by
  rw [tolower, lower]
  by_cases h : 65 ≤ c ∧ c ≤ 90
  · have hlow : 65 ≤ c.toNat := h.1
    have hhigh : c.toNat ≤ 90 := h.2
    rw [if_pos h, if_pos ⟨hlow, hhigh⟩, UInt8.toNat_add, show UInt8.toNat 32 = 32 from rfl]
    omega
  · rw [if_neg h]
    exact (if_neg h).symm

/-- A long name is compared in lower case. -/
theorem eq_plainName_iff {n : LongName} {filename name : List Byte}
    (hname : name.map UInt8.toNat = n.name)
    (hhead : n.name.head? ≠ some 0x05 ∧ n.name.head? ≠ some 0xe5) :
  filename = plainName name ↔ filename.map UInt8.toNat = n.name.map lower
  := by
  have hplain : plainName name = name.map tolower := by
    rw [← hname, List.head?_map] at hhead
    rw [plainName, if_neg, if_neg]
    · intro h
      rw [h] at hhead
      exact hhead.1 rfl
    · intro h
      rw [h] at hhead
      exact hhead.2 rfl
  have hlower : (name.map tolower).map UInt8.toNat = n.name.map lower := by
    rw [← hname, List.map_map, List.map_map]
    apply List.map_congr_left
    intro c _
    apply toNat_tolower
  rw [hplain, ← hlower]
  constructor
  · rintro rfl
    rfl
  · intro h
    exact List.map_injective_iff.mpr (fun _ _ => UInt8.toNat_inj.mp) h

end Short

/-! ### The entries of a cluster -/

section Cluster

variable {d : Disk} {curclust : Word} {filename : List Byte} {s s' : Lookup} {i n : ℕ}

theorem lookThrough_next (h : lookAt d curclust filename false s i = .ok (s', .next)) :
  lookThrough d curclust filename false (n + 1) i s
    = lookThrough d curclust filename false n (i + 1) s'
  := by
  rw [lookThrough, h]
  rfl

theorem lookThrough_found {dirent : List Byte}
    (h : lookAt d curclust filename false s i = .ok (s', .found dirent)) :
  lookThrough d curclust filename false (n + 1) i s = .ok (s', .found dirent)
  := by
  rw [lookThrough, h]
  rfl

theorem lookThrough_null (h : lookAt d curclust filename false s i = .ok (s', .null)) :
  lookThrough d curclust filename false (n + 1) i s = .ok (s', .null)
  := by
  rw [lookThrough, h]
  rfl

/-- Deleted entries are passed over. -/
theorem lookAt_deleted (h : slotId s.cluster i = 0xe5) :
  lookAt d curclust filename false s i = .ok (s, .next)
  := if_pos h

/-- Labels are passed over, and slots but for the first one. -/
theorem lookAt_volume (hlive : slotId s.cluster i ≠ 0xe5) (hattr : attr s.cluster i &&& 0x08 ≠ 0)
    (hlast : ¬ lastLongEntry s.cluster i) :
  lookAt d curclust filename false s i = .ok (s, .next)
  := by
  rw [lookAt, if_neg hlive, if_pos hattr, if_neg]
  exact fun h => hlast h.2

/-- Other entries are compared with the name. -/
theorem lookAt_entry (hlive : slotId s.cluster i ≠ 0xe5) (hattr : attr s.cluster i &&& 0x08 = 0) :
  lookAt d curclust filename false s i = .ok (s, compare filename false s.cluster i [])
  := by rw [lookAt, if_neg hlive, if_neg (not_not.mpr hattr)]

/-- What a comparison with an entry gives. -/
theorem compare_eq {e : Dirent} {cluster : ℕ → Byte} (lName : List Byte)
    (h : Memory.Holds cluster (direntSize * i) e.bytes) :
  compare filename false cluster i lName
    = if filename = getName e.bytes ∨ filename = lName then .found e.bytes else .next
  := by
  rw [compare, slotId_of_holds h e.length_bytes, if_neg e.head_bytes.1, if_neg (by decide),
    direntAt_of_holds h e.length_bytes]
  by_cases hname : filename = getName e.bytes ∨ filename = lName
  · rw [if_pos hname, if_neg]
    rw [not_and_or, not_not, not_not]
    exact hname
  · rw [if_neg hname, if_pos]
    rwa [not_or] at hname

variable (d curclust filename)

/-- The first slot of a long name: the entry is copied to it. -/
theorem lookAt_long {name : LongName} {e : Dirent} (h : name.In s.cluster i)
    (he : Memory.Holds s.cluster (direntSize * (i + name.slots.length)) e.bytes)
    (hpos : 0 < name.slots.length) (hlt : i + name.slots.length < s.fs.slots)
    (hslots : s.fs.slots ≤ maxSlots) (hplain : (Item.file name e).Plain filename) :
  lookAt d curclust filename false s i
    = .ok (⟨s.fs, Memory.store s.cluster (direntSize * i) e.bytes, s.block⟩,
        if Named filename name e then .found e.bytes else .next)
  := by
  obtain ⟨_, hwhole, hbytes, hhead⟩ := hplain
  obtain ⟨text, htext, hget⟩ := name.getVfatname_eq d curclust s.block h hpos hlt hslots
    hbytes
  have hid := name.slotId_first h hpos
  obtain ⟨_, hlast, hlive⟩ := number_first name.length_le
  have hattr : attr s.cluster i = 0x0f := name.attr_slot h hpos
  have hnamed : Named filename name e
      ↔ filename = getName e.bytes ∨ filename = plainName text := by
    rw [named_iff e hwhole, LongNamed, eq_plainName_iff htext hhead,
      and_iff_right (List.ne_nil_of_length_pos hpos)]
  have hslot : lastLongEntry s.cluster i := by rwa [lastLongEntry, hid]
  rw [lookAt, hid, if_neg hlive, hattr, if_pos (by decide), if_pos ⟨by decide, hslot⟩, hget,
    direntAt_of_holds he e.length_bytes]
  change Except.ok (_, compare filename false (Memory.store s.cluster _ e.bytes) i (plainName text))
    = _
  rw [compare_eq _ (Memory.holds_store s.cluster _ e.bytes)]
  congr 2
  by_cases hn : Named filename name e
  · rw [if_pos hn, if_pos (hnamed.mp hn)]
  · rw [if_neg hn, if_neg (hnamed.not.mp hn)]

/-- The other slots are passed over. -/
theorem lookThrough_slots (s : Lookup) {len k : ℕ} (m : ℕ) (hlen : len ≤ 20) (hk : k < len)
    (hid : ∀ j, 0 < j → j < len → slotId s.cluster (i + j) = UInt8.ofNat (len - j))
    (hattr : ∀ j, 0 < j → j < len → attr s.cluster (i + j) = 0x0f) :
  lookThrough d curclust filename false (k + m) (i + (len - k)) s
    = lookThrough d curclust filename false m (i + len) s
  := by
  induction k with
  | zero => rw [Nat.zero_add, Nat.sub_zero]
  | succ k ih =>
    have hle : len - (len - (k + 1)) ≤ 20 := by omega
    obtain ⟨_, hlast, hlive⟩ := number_other hle
    have hskip : lookAt d curclust filename false s (i + (len - (k + 1))) = .ok (s, .next) := by
      apply lookAt_volume
      · rwa [hid _ (by omega) (by omega)]
      · rw [hattr _ (by omega) (by omega)]
        decide
      · rw [lastLongEntry, hid _ (by omega) (by omega), not_not]
        exact hlast
    rw [Nat.succ_add, lookThrough_next hskip, show i + (len - (k + 1)) + 1 = i + (len - k) by omega,
      ih (by omega)]

/-- The entry of a file with a long name, behind its slots. -/
theorem compare_again {name : LongName} {e : Dirent} {cluster : ℕ → Byte}
    (h : Memory.Holds cluster (direntSize * i) e.bytes) (hname : filename ≠ [])
    (hwhole : Whole filename name e) (hnamed : ¬ Named filename name e) :
  compare filename false cluster i [] = .next
  := by
  rw [named_iff e hwhole] at hnamed
  rw [compare_eq [] h, if_neg]
  rintro (hshort | hempty)
  · exact hnamed (.inl hshort)
  · exact hname hempty

theorem length_records (item : Item) :
  ∀ record ∈ item.records, record.length = direntSize
  := by
  intro record hrecord
  cases item with
  | deleted e => rw [List.mem_singleton.mp hrecord, e.length]
  | label e => rw [List.mem_singleton.mp hrecord, e.length]
  | file name e =>
    obtain hslot | hentry := List.mem_append.mp hrecord
    · exact name.length_slot record hslot
    · rw [List.mem_singleton.mp hentry, e.length_bytes]

theorem length_flatten {records : List (List Byte)}
    (h : ∀ record ∈ records, record.length = direntSize) :
  records.flatten.length = direntSize * records.length
  := by
  induction records with
  | nil => rfl
  | cons record records ih =>
    rw [List.flatten_cons, List.length_append, h record List.mem_cons_self,
      ih fun r hr => h r (List.mem_cons_of_mem _ hr), List.length_cons, Nat.mul_succ, Nat.add_comm]

/-- A file that has the name is found. -/
theorem lookThrough_named {name : LongName} {e : Dirent}
    (hplain : (Item.file name e).Plain filename)
    (hin : name.In s.cluster i)
    (he : Memory.Holds s.cluster (direntSize * (i + name.slots.length)) e.bytes)
    (hlt : i + name.slots.length < s.fs.slots) (hslots : s.fs.slots ≤ maxSlots)
    (hnamed : Named filename name e) :
  ∃ s', lookThrough d curclust filename false (n + 1) i s = .ok (s', .found e.bytes)
  := by
  obtain hzero | hpos := Nat.eq_zero_or_pos name.slots.length
  · rw [hzero, Nat.add_zero] at he
    have hshort : filename = getName e.bytes := by
      obtain hshort | ⟨hne, _⟩ := (named_iff e hplain.2.1).mp hnamed
      · exact hshort
      · exact absurd (List.eq_nil_of_length_eq_zero hzero) hne
    use s
    apply lookThrough_found
    rw [lookAt_entry, compare_eq [] he, if_pos (.inl hshort)]
    · rw [slotId_of_holds he e.length_bytes]
      exact e.head_bytes.2
    · rw [attr_of_holds he e.length_bytes, e.attr_bytes]
  · have hlong := lookAt_long d curclust filename hin he hpos hlt hslots hplain
    rw [if_pos hnamed] at hlong
    exact ⟨_, lookThrough_found hlong⟩

/-- The slots and the entry of another file are passed over. -/
theorem lookThrough_other {name : LongName} {e : Dirent}
    (hplain : (Item.file name e).Plain filename)
    (hin : name.In s.cluster i)
    (he : Memory.Holds s.cluster (direntSize * (i + name.slots.length)) e.bytes)
    (hlt : i + name.slots.length < s.fs.slots) (hslots : s.fs.slots ≤ maxSlots)
    (hnamed : ¬ Named filename name e) (m : ℕ) :
  ∃ cluster', (∀ q, direntSize * (i + name.slots.length) ≤ q → cluster' q = s.cluster q)
    ∧ lookThrough d curclust filename false (name.slots.length + 1 + m) i s
      = lookThrough d curclust filename false m (i + (name.slots.length + 1))
          ⟨s.fs, cluster', s.block⟩
  := by
  have hpass : ∀ s' : Lookup,
      Memory.Holds s'.cluster (direntSize * (i + name.slots.length)) e.bytes →
      lookThrough d curclust filename false (m + 1) (i + name.slots.length) s'
        = lookThrough d curclust filename false m (i + (name.slots.length + 1)) s' := by
    intro s' hs'
    have hskip : lookAt d curclust filename false s' (i + name.slots.length)
        = .ok (s', .next) := by
      rw [lookAt_entry, compare_again filename hs' hplain.1 hplain.2.1 hnamed]
      · rw [slotId_of_holds hs' e.length_bytes]
        exact e.head_bytes.2
      · rw [attr_of_holds hs' e.length_bytes, e.attr_bytes]
    rw [lookThrough_next hskip, Nat.add_assoc]
  obtain hzero | hpos := Nat.eq_zero_or_pos name.slots.length
  · use s.cluster, fun _ _ => rfl
    rw [← hpass s he, hzero, Nat.zero_add, Nat.add_comm 1]
    rfl
  · have hlong := lookAt_long d curclust filename hin he hpos hlt hslots hplain
    rw [if_neg hnamed] at hlong
    have hkept : ∀ q, direntSize * (i + 1) ≤ q →
        Memory.store s.cluster (direntSize * i) e.bytes q = s.cluster q := by
      intro q hq
      apply Memory.store_of_le
      rwa [e.length_bytes, ← Nat.mul_succ]
    have hle : direntSize * (i + 1) ≤ direntSize * (i + name.slots.length) :=
      Nat.mul_le_mul_left _ (by omega)
    use Memory.store s.cluster (direntSize * i) e.bytes, fun q hq => hkept q (hle.trans hq)
    have hslot : ∀ j, 0 < j → ∀ q, direntSize * (i + j) ≤ q →
        Memory.store s.cluster (direntSize * i) e.bytes q = s.cluster q := by
      intro j hj q hq
      exact hkept q ((Nat.mul_le_mul_left _ (by omega)).trans hq)
    have hid : ∀ j, 0 < j → j < name.slots.length →
        slotId (Memory.store s.cluster (direntSize * i) e.bytes) (i + j)
          = UInt8.ofNat (name.slots.length - j) := by
      intro j hj hjlt
      rw [slotId, hslot j hj _ (Nat.le_refl _)]
      exact name.slotId_other hin hjlt hj
    have hattr : ∀ j, 0 < j → j < name.slots.length →
        attr (Memory.store s.cluster (direntSize * i) e.bytes) (i + j) = 0x0f := by
      intro j hj hjlt
      rw [attr, hslot j hj _ (Nat.le_add_right ..)]
      exact name.attr_slot hin hjlt
    have hrest := lookThrough_slots d curclust filename
      ⟨s.fs, Memory.store s.cluster (direntSize * i) e.bytes, s.block⟩ (m + 1) name.length_le
      (Nat.sub_lt hpos Nat.one_pos) hid hattr
    rw [show name.slots.length + 1 + m = name.slots.length - 1 + (m + 1) + 1 by omega,
      lookThrough_next hlong]
    rw [show i + (name.slots.length - (name.slots.length - 1)) = i + 1 by omega] at hrest
    rw [hrest]
    apply hpass
    apply he.congr
    intro q hq _
    exact hkept q (hle.trans hq)

/-- **One item.** -/
theorem lookThrough_item {item : Item} (hplain : item.Plain filename)
    (h : Memory.Holds s.cluster (direntSize * i) item.records.flatten)
    (hfits : i + item.records.length ≤ s.fs.slots) (hslots : s.fs.slots ≤ maxSlots) (m : ℕ) :
  (∀ e, item.find filename = some e → ∃ s',
    lookThrough d curclust filename false (item.records.length + m) i s = .ok (s', .found e))
  ∧ (item.find filename = none → ∃ cluster',
    (∀ q, direntSize * (i + item.records.length) ≤ q → cluster' q = s.cluster q)
      ∧ lookThrough d curclust filename false (item.records.length + m) i s
        = lookThrough d curclust filename false m (i + item.records.length)
            ⟨s.fs, cluster', s.block⟩)
  := by
  cases item with
  | deleted e =>
    constructor
    · rintro _ ⟨⟩
    · intro _
      change Memory.Holds s.cluster (direntSize * i) (e.bytes ++ []) at h
      rw [List.append_nil] at h
      have hid := (slotId_of_holds h e.length).trans e.deleted
      use s.cluster, fun _ _ => rfl
      change lookThrough d curclust filename false (1 + m) i s = _
      rw [Nat.add_comm, lookThrough_next (lookAt_deleted hid)]
      rfl
  | label e =>
    constructor
    · rintro _ ⟨⟩
    · intro _
      change Memory.Holds s.cluster (direntSize * i) (e.bytes ++ []) at h
      rw [List.append_nil] at h
      have hskip : lookAt d curclust filename false s i = .ok (s, .next) := by
        apply lookAt_volume
        · rw [slotId_of_holds h e.length]
          exact e.live.2
        · rw [attr_of_holds h e.length]
          exact e.attr.1
        · rw [lastLongEntry, slotId_of_holds h e.length, not_not]
          exact hplain
      use s.cluster, fun _ _ => rfl
      change lookThrough d curclust filename false (1 + m) i s = _
      rw [Nat.add_comm, lookThrough_next hskip]
      rfl
  | file name e =>
    change Memory.Holds s.cluster _ (name.slots ++ [e.bytes]).flatten at h
    change i + (name.slots ++ [e.bytes]).length ≤ s.fs.slots at hfits
    rw [List.flatten_append, List.flatten_singleton, Memory.holds_append,
      length_flatten name.length_slot, ← Nat.mul_add] at h
    rw [List.length_append, List.length_singleton] at hfits
    have hlength : (Item.file name e).records.length = name.slots.length + 1 := List.length_append
    rw [hlength, Item.find]
    by_cases hnamed : Named filename name e
    · rw [if_pos hnamed]
      constructor
      · rintro _ ⟨⟩
        rw [Nat.add_right_comm]
        exact lookThrough_named d curclust filename hplain h.1 h.2 (by omega) hslots hnamed
      · rintro ⟨⟩
    · rw [if_neg hnamed]
      constructor
      · rintro _ ⟨⟩
      · intro _
        obtain ⟨cluster', hsame, hrest⟩ := lookThrough_other d curclust filename hplain h.1
          h.2 (by omega) hslots hnamed m
        refine ⟨cluster', ?_, hrest⟩
        intro q hq
        exact hsame q ((Nat.mul_le_mul_left _ (by omega)).trans hq)

/-- The number of entries and slots of some items. -/
def entries (items : List Item) : ℕ := (items.map fun item => item.records.length).sum

theorem length_bytesOf (items : List Item) :
  (bytesOf items).length = direntSize * entries items
  := by
  induction items with
  | nil => rfl
  | cons item items ih =>
    change (item.records.flatten ++ bytesOf items).length
      = direntSize * (item.records.length + entries items)
    rw [List.length_append, length_flatten (length_records item), ih, Nat.mul_add]

/-- **The items** of a cluster: the first one with the name is found. -/
theorem lookThrough_items {items : List Item} (hplain : ∀ item ∈ items, item.Plain filename)
    (h : Memory.Holds s.cluster (direntSize * i) (bytesOf items))
    (hfits : i + entries items ≤ s.fs.slots) (hslots : s.fs.slots ≤ maxSlots) (m : ℕ) :
  (∀ e, find filename items = some e → ∃ s',
    lookThrough d curclust filename false (entries items + m) i s = .ok (s', .found e))
  ∧ (find filename items = none → ∃ cluster',
    (∀ q, direntSize * (i + entries items) ≤ q → cluster' q = s.cluster q)
      ∧ lookThrough d curclust filename false (entries items + m) i s
        = lookThrough d curclust filename false m (i + entries items) ⟨s.fs, cluster', s.block⟩)
  := by
  induction items generalizing i s with
  | nil =>
    constructor
    · rintro _ ⟨⟩
    · intro _
      use s.cluster, fun _ _ => rfl
      change lookThrough d curclust filename false (0 + m) i s = _
      rw [Nat.zero_add]
      rfl
  | cons item items ih =>
    change Memory.Holds s.cluster _ (item.records.flatten ++ bytesOf items) at h
    change i + (item.records.length + entries items) ≤ s.fs.slots at hfits
    have hcount : entries (item :: items) = item.records.length + entries items := rfl
    rw [Memory.holds_append, length_flatten (length_records item), ← Nat.mul_add] at h
    obtain ⟨hfound, hnone⟩ := lookThrough_item d curclust filename (hplain item List.mem_cons_self)
      h.1 (by omega) hslots (entries items + m)
    rw [hcount, Nat.add_assoc, find, List.findSome?_cons]
    cases hitem : item.find filename with
    | some e =>
      constructor
      · rintro _ ⟨⟩
        exact hfound e hitem
      · rintro ⟨⟩
    | none =>
      obtain ⟨cluster', hsame, hrest⟩ := hnone hitem
      have hholds : Memory.Holds cluster' (direntSize * (i + item.records.length))
          (bytesOf items) := by
        apply h.2.congr
        intro q hq _
        exact hsame q hq
      rw [hrest]
      have hfits' : i + item.records.length + entries items ≤ s.fs.slots := by omega
      obtain ⟨hfound', hnone'⟩ := ih (fun it hit => hplain it (List.mem_cons_of_mem _ hit))
        (s := ⟨s.fs, cluster', s.block⟩) hholds hfits' hslots
      refine ⟨hfound', ?_⟩
      intro hn
      obtain ⟨cluster'', hsame', hrest'⟩ := hnone' hn
      refine ⟨cluster'', ?_, ?_⟩
      · intro q hq
        rw [← Nat.add_assoc] at hq
        have hle := Nat.mul_le_mul_left direntSize
          (Nat.le_add_right (i + item.records.length) (entries items))
        exact (hsame' q hq).trans (hsame q (hle.trans hq))
      · rw [hrest', Nat.add_assoc]

end Cluster

/-! ### The chain of clusters -/

/-- The entries of the table that end a chain. -/
def endOfChain (fatsize x : ℕ) : Prop :=
  (if fatsize = 12 then 0xff8 else if fatsize = 16 then 0xfff8 else 0xffffff8) ≤ x

/-- The entries of the table that are numbers of clusters; a volume with 12 bits has up to 4084
clusters, and one with 16 bits up to 65524. -/
def ClusterNumber (fatsize x : ℕ) : Prop :=
  1 < x ∧ x < if fatsize = 12 then 0xff6 else if fatsize = 16 then 0xfff6 else 0xffffff6

/-- The entry of a cluster. -/
def entryOf (image : Sectors) (fs : Fsdata) (c : Word) : ℕ :=
  decode fs.fatsize (image.table fs) c.toNat

/-- The clusters from one on, up to the end of the chain. -/
inductive Chain (image : Sectors) (fs : Fsdata) : Word → List Word → Prop
  | last {c : Word} (h : endOfChain fs.fatsize (entryOf image fs c)) : Chain image fs c [c]
  | next {c : Word} {cs : List Word} (h : ClusterNumber fs.fatsize (entryOf image fs c))
      (hs : Chain image fs (BitVec.ofNat 32 (entryOf image fs c)) cs) : Chain image fs c (c :: cs)

/-- The bytes of some clusters. -/
def clustersBytes (image : Sectors) (fs : Fsdata) (clusters : List Word) : List Byte :=
  (clusters.map fun c => image.bytes (fs.startsect c) fs.clusterBytes).flatten

/-- A directory: its items fill the clusters of a chain, or are followed by the end marker, behind
which there may be anything. -/
structure Directory (image : Sectors) (fs : Fsdata) (start : Word) where
  clusters : List Word
  items : List Item
  tail : List Byte
  chain : Chain image fs start clusters
  bytes : clustersBytes image fs clusters = bytesOf items ++ tail
  ends : tail = [] ∨ tail.head? = some 0

/-- An entry that leads to another cluster does not use the upper 4 of 32 bits, and is not one of
the six last numbers, which `CHECK_CLUST` takes for the end, except with 12 bits. -/
def Followed (image : Sectors) (fs : Fsdata) (c : Word) : Prop :=
  ClusterNumber fs.fatsize (entryOf image fs c) →
    rawEntry fs.fatsize (image.table fs) c.toNat = entryOf image fs c
      ∧ (fs.fatsize ≠ 12 → entryOf image fs c < if fs.fatsize = 16 then 0xfff0 else 0xffffff0)

/-- The condition: up to the first item that has the name, or all if none has, no item is in two
clusters, all are plain, and the entries that lead on are followed; if none has the name, there is
an end marker that does not look like a label, or the entries do not have 12 bits.  The items in
`full` fill all clusters but the last one that is needed. -/
def Searchable {image : Sectors} {fs : Fsdata} {start : Word} (dir : Directory image fs start)
    (filename : List Byte) : Prop :=
  ∃ (full : List (List Item)) (last others : List Item),
    dir.items = full.flatten ++ last ++ others
    ∧ (∀ g ∈ full, entries g = fs.slots) ∧ entries last ≤ fs.slots
    ∧ (∀ item ∈ full.flatten ++ last, item.Plain filename)
    ∧ (∀ c ∈ dir.clusters.take full.length, Followed image fs c)
    ∧ (find filename (full.flatten ++ last) = none → others = []
      ∧ (dir.tail ≠ [] → entries last < fs.slots ∧ dir.tail.getD 11 0 &&& 0x08 = 0)
      ∧ (dir.tail = [] → fs.fatsize ≠ 12))

section Chain

variable {image : Sectors} {d : Disk} {fs : Fsdata} {filename : List Byte}

theorem checkClust_of_endOfChain {c : Word} (hwidth : fs.fatsize ≠ 12)
    (hfat : fs.fatsize = 12 ∨ fs.fatsize = 16 ∨ fs.fatsize = 32)
    (h : endOfChain fs.fatsize (entryOf image fs c)) :
  checkClust (BitVec.ofNat 32 (rawEntry fs.fatsize (image.table fs) c.toNat)) fs.fatsize
  := by
  have hlt := rawEntry_lt fs.fatsize (image.table fs) c.toNat
  right
  rw [endOfChain, entryOf, decode] at h
  rw [BitVec.le_def, BitVec.toNat_ofNat, Nat.mod_eq_of_lt hlt]
  obtain h16 | h32 := hfat.resolve_left hwidth
  · rw [h16, if_neg (by decide), if_pos rfl, if_neg (by decide)] at h
    rw [h16, if_pos (by decide)]
    exact Nat.le_trans (by decide) h
  · rw [h32, if_neg (by decide), if_neg (by decide), if_pos rfl] at h
    rw [h32, if_neg (by decide)]
    exact Nat.le_trans (by decide) (h.trans (Nat.mod_le _ _))

theorem not_checkClust_of_clusterNumber {x : ℕ} (h : ClusterNumber fs.fatsize x)
    (hlt : fs.fatsize ≠ 12 → x < if fs.fatsize = 16 then 0xfff0 else 0xffffff0)
    (hfat : fs.fatsize = 12 ∨ fs.fatsize = 16 ∨ fs.fatsize = 32) :
  ¬ checkClust (BitVec.ofNat 32 x) fs.fatsize
  := by
  obtain ⟨hlow, hhigh⟩ := h
  rw [checkClust, BitVec.le_def, BitVec.le_def, BitVec.toNat_ofNat]
  obtain h12 | h16 | h32 := hfat
  · rw [h12, if_pos rfl] at hhigh
    rw [h12, if_pos (by decide)]
    change ¬ (_ ≤ 1 ∨ 0xfff0 ≤ _)
    omega
  · replace hlt := hlt (by rw [h16]; decide)
    rw [h16, if_pos rfl] at hlt
    rw [h16, if_pos (by decide)]
    change ¬ (_ ≤ 1 ∨ 0xfff0 ≤ _)
    omega
  · replace hlt := hlt (by rw [h32]; decide)
    rw [h32, if_neg (by decide)] at hlt
    rw [h32, if_neg (by decide)]
    change ¬ (_ ≤ 1 ∨ 0xffffff0 ≤ _)
    omega

/-- The entry that `get_fatent` finds. -/
theorem fatent_rawEntry (hd : d.Serves image) (hempty : fs.fatbufnum = -1)
    (hlength : fs.fatlength ≠ 0) (hfat : fs.fatsize = 12 ∨ fs.fatsize = 16 ∨ fs.fatsize = 32)
    (c : Word) :
  fatent d fs c = BitVec.ofNat 32 (rawEntry fs.fatsize (image.table fs) c.toNat)
  := by
  obtain h12 | h16 | h32 := hfat
  · apply fatent_eq hd _ hempty hlength
    · exact 2048
    · rw [h12]
      rfl
  · apply fatent_eq hd _ hempty hlength
    · exact 1536
    · rw [h16]
      rfl
  · apply fatent_eq hd _ hempty hlength
    · exact 768
    · rw [h32]
      rfl

theorem clusterBytes_eq (fs : Fsdata) :
  fs.clusterBytes = direntSize * fs.slots
  := by
  rw [Fsdata.clusterBytes, Fsdata.slots, direntSize, sectorSize]
  omega

theorem Cached.clusterBytes {fs' : Fsdata} (h : Cached d fs fs') :
  fs'.clusterBytes = fs.clusterBytes
  := by
  rw [h.rest]
  rfl

theorem Cached.slots {fs' : Fsdata} (h : Cached d fs fs') :
  fs'.slots = fs.slots
  := by
  rw [h.rest]
  rfl

/-- The variables after a cluster was read. -/
def Lookup.load (image : Sectors) (c : Word) (s : Lookup) : Lookup :=
  ⟨s.fs, Memory.store s.cluster 0 (image.bytes (s.fs.startsect c) s.fs.clusterBytes), s.block⟩

variable {c : Word} {s s' : Lookup} {fuel : ℕ}

theorem getDentfromdir_of_found (hd : d.Serves image) {dirent : List Byte}
    (h : lookThrough d c filename false s.fs.slots 0 (s.load image c) = .ok (s', .found dirent)) :
  getDentfromdir d filename false (fuel + 1) c s = some (.ok (s', some dirent))
  := by
  rw [getDentfromdir, getCluster_eq hd]
  change (if true = false then _ else _) = _
  rw [if_neg (by decide)]
  rw [Lookup.load] at h
  dsimp only
  rw [h]

theorem getDentfromdir_of_null (hd : d.Serves image)
    (h : lookThrough d c filename false s.fs.slots 0 (s.load image c) = .ok (s', .null)) :
  getDentfromdir d filename false (fuel + 1) c s = some (.ok (s', none))
  := by
  rw [getDentfromdir, getCluster_eq hd]
  change (if true = false then _ else _) = _
  rw [if_neg (by decide)]
  rw [Lookup.load] at h
  dsimp only
  rw [h]

theorem getDentfromdir_of_next (fuel : ℕ) (hd : d.Serves image)
    (h : lookThrough d c filename false s.fs.slots 0 (s.load image c) = .ok (s', .next)) :
  getDentfromdir d filename false (fuel + 1) c s
    = if checkClust (getFatent d s'.fs c).2 (getFatent d s'.fs c).1.fatsize then
        some (.ok ({ s' with fs := (getFatent d s'.fs c).1 }, none))
      else
        getDentfromdir d filename false fuel (getFatent d s'.fs c).2
          { s' with fs := (getFatent d s'.fs c).1 }
  := by
  rw [getDentfromdir, getCluster_eq hd]
  change (if true = false then _ else _) = _
  rw [if_neg (by decide)]
  rw [Lookup.load] at h
  dsimp only
  rw [h]

section Rounds

variable {g : List Item} (hs : Cached d fs s.fs) (hslots : fs.slots ≤ maxSlots)
  (hplain : ∀ item ∈ g, item.Plain filename)

include hs hslots hplain

/-- The items of a cluster are looked through. -/
theorem lookThrough_load {rest : List Byte}
    (hbytes : image.bytes (fs.startsect c) fs.clusterBytes = bytesOf g ++ rest) :
  (∀ e, find filename g = some e → ∃ s',
    lookThrough d c filename false s.fs.slots 0 (s.load image c) = .ok (s', .found e))
  ∧ (find filename g = none → ∃ cluster',
    Memory.Holds cluster' (direntSize * entries g) rest
      ∧ lookThrough d c filename false s.fs.slots 0 (s.load image c)
        = lookThrough d c filename false (fs.slots - entries g) (entries g)
            ⟨s.fs, cluster', s.block⟩)
  := by
  have hload : Memory.Holds (s.load image c).cluster (direntSize * 0) (bytesOf g ++ rest) := by
    rw [← hbytes, Lookup.load, hs.startsect, hs.clusterBytes]
    apply Memory.holds_store
  have hlength := congrArg List.length hbytes
  rw [length_bytes, clusterBytes_eq, List.length_append, length_bytesOf] at hlength
  have hle : entries g ≤ fs.slots := by
    rw [direntSize] at hlength
    omega
  rw [Memory.holds_append, length_bytesOf, Nat.mul_zero, Nat.zero_add] at hload
  have hfits : 0 + entries g ≤ (s.load image c).fs.slots := by
    rw [Nat.zero_add]
    exact hle.trans hs.slots.ge
  obtain ⟨hfound, hnone⟩ := lookThrough_items d c filename hplain hload.1 hfits
    (hs.slots.le.trans hslots) (fs.slots - entries g)
  rw [Nat.add_sub_cancel' hle, ← hs.slots] at hfound hnone
  rw [Nat.zero_add] at hnone
  refine ⟨hfound, ?_⟩
  intro h
  obtain ⟨cluster', hsame, hrest⟩ := hnone h
  refine ⟨cluster', ?_, ?_⟩
  · apply hload.2.congr
    intro q hq _
    exact hsame q hq
  · rw [hrest, hs.slots]
    rfl

/-- The last cluster: the name is found, or there is the end marker. -/
theorem getDentfromdir_last (hd : d.Serves image) {rest : List Byte}
    (hbytes : image.bytes (fs.startsect c) fs.clusterBytes = bytesOf g ++ rest)
    (hlt : entries g < fs.slots)
    (hmarker : find filename g = none → rest.head? = some 0 ∧ rest.getD 11 0 &&& 0x08 = 0) :
  ∃ s', getDentfromdir d filename false (fuel + 1) c s = some (.ok (s', find filename g))
  := by
  obtain ⟨hfound, hnone⟩ := lookThrough_load hs hslots hplain hbytes
  cases hfind : find filename g with
  | some e =>
    obtain ⟨s', hs'⟩ := hfound e hfind
    exact ⟨s', getDentfromdir_of_found hd hs'⟩
  | none =>
    obtain ⟨cluster', hrest, hlook⟩ := hnone hfind
    obtain ⟨hzero, hattr⟩ := hmarker hfind
    have hlength := congrArg List.length hbytes
    rw [length_bytes, clusterBytes_eq, List.length_append, length_bytesOf] at hlength
    have hlong : 11 < rest.length := by
      rw [direntSize] at hlength
      omega
    have hid : slotId cluster' (entries g) = 0 := by
      have hfirst := getD_of_holds hrest (Nat.zero_lt_of_lt hlong)
      rw [List.getD_eq_getElem?_getD, ← List.head?_eq_getElem?, hzero] at hfirst
      exact hfirst
    have hnull : lookAt d c filename false ⟨s.fs, cluster', s.block⟩ (entries g)
        = .ok (⟨s.fs, cluster', s.block⟩, .null) := by
      rw [lookAt_entry, compare, hid, if_pos rfl]
      · rw [hid]
        decide
      · change cluster' (direntSize * entries g + 11) &&& 0x08 = 0
        rw [getD_of_holds hrest hlong, hattr]
    obtain ⟨k, hk⟩ := Nat.exists_eq_add_of_lt hlt
    rw [show fs.slots - entries g = k + 1 by omega, lookThrough_null hnull] at hlook
    exact ⟨_, getDentfromdir_of_null hd hlook⟩

/-- Another cluster. -/
theorem getDentfromdir_full (hd : d.Serves image) (h₀ : Cached d fs fs)
    (hbytes : image.bytes (fs.startsect c) fs.clusterBytes = bytesOf g)
    (hall : entries g = fs.slots) :
  (∀ e, find filename g = some e → ∃ s', ∀ fuel,
    getDentfromdir d filename false (fuel + 1) c s = some (.ok (s', some e)))
  ∧ (find filename g = none → ∃ s', Cached d fs s'.fs
    ∧ ∀ fuel, getDentfromdir d filename false (fuel + 1) c s
      = if checkClust (fatent d fs c) fs.fatsize then some (.ok (s', none))
        else getDentfromdir d filename false fuel (fatent d fs c) s')
  := by
  rw [← List.append_nil (bytesOf g)] at hbytes
  obtain ⟨hfound, hnone⟩ := lookThrough_load hs hslots hplain hbytes
  constructor
  · intro e he
    obtain ⟨s', hs'⟩ := hfound e he
    exact ⟨s', fun _ => getDentfromdir_of_found hd hs'⟩
  · intro h
    obtain ⟨cluster', _, hlook⟩ := hnone h
    rw [hall, Nat.sub_self] at hlook
    have hcached := (hs.getFatent_spec hd c).1
    refine ⟨⟨(getFatent d s.fs c).1, cluster', s.block⟩, hcached, ?_⟩
    intro fuel
    have hnext := getDentfromdir_of_next fuel hd hlook
    dsimp only at hnext
    rwa [hcached.fatsize, hs.entry_eq h₀ hd] at hnext

end Rounds

theorem find_append (g items : List Item) :
  find filename (g ++ items) = (find filename g).or (find filename items)
  := List.findSome?_append

theorem eq_nil_of_bytesOf {items : List Item} (h : bytesOf items = []) :
  items = []
  := by
  cases items with
  | nil => rfl
  | cons item items =>
    have hlength := length_bytesOf (item :: items)
    have hcount : entries (item :: items) = item.records.length + entries items := rfl
    have hpos : 0 < item.records.length := by
      cases item with
      | deleted e => exact Nat.one_pos
      | label e => exact Nat.one_pos
      | file name e =>
        change 0 < (name.slots ++ [e.bytes]).length
        rw [List.length_append, List.length_singleton]
        omega
    rw [h, hcount, List.length_nil, direntSize] at hlength
    omega

/-- The first cluster of a directory, in which there are some items. -/
theorem bytes_of_le {g : List Item} {cs : List Word} {tail : List Byte}
    (h : clustersBytes image fs (c :: cs) = bytesOf g ++ tail) (hle : entries g ≤ fs.slots) :
  ∃ rest, image.bytes (fs.startsect c) fs.clusterBytes = bytesOf g ++ rest
    ∧ rest.length = direntSize * (fs.slots - entries g) ∧ tail = rest ++ clustersBytes image fs cs
  := by
  change image.bytes _ _ ++ clustersBytes image fs cs = _ at h
  obtain ⟨rest, hg, htail⟩ | ⟨rest, hfirst, htail⟩ := List.append_eq_append_iff.mp h
  · have hlength := congrArg List.length hg
    rw [length_bytesOf, List.length_append, length_bytes, clusterBytes_eq, direntSize] at hlength
    obtain rfl : rest = [] := List.eq_nil_of_length_eq_zero (by omega)
    rw [List.append_nil] at hg
    refine ⟨[], by rw [hg, List.append_nil], ?_, htail.symm⟩
    rw [direntSize, List.length_nil]
    omega
  · have hlength := congrArg List.length hfirst
    rw [List.length_append, length_bytesOf, length_bytes, clusterBytes_eq, direntSize] at hlength
    refine ⟨rest, hfirst, ?_, htail⟩
    rw [direntSize]
    omega

/-- The first cluster of a directory that is filled by items. -/
theorem bytes_of_eq {g items : List Item} {cs : List Word} {tail : List Byte}
    (h : clustersBytes image fs (c :: cs) = bytesOf (g ++ items) ++ tail)
    (hall : entries g = fs.slots) :
  image.bytes (fs.startsect c) fs.clusterBytes = bytesOf g
    ∧ clustersBytes image fs cs = bytesOf items ++ tail
  := by
  have hsplit : bytesOf (g ++ items) = bytesOf g ++ bytesOf items := by
    rw [bytesOf, List.map_append, List.flatten_append]
    rfl
  change image.bytes _ _ ++ clustersBytes image fs cs = _ at h
  rw [hsplit, List.append_assoc] at h
  apply List.append_inj h
  rw [length_bytes, clusterBytes_eq, length_bytesOf, hall]

/-- The end of a directory that has no end marker, or the last cluster that is needed. -/
def Ending (fs : Fsdata) (filename : List Byte) (last : List Item) (tail : List Byte) : Prop :=
  find filename last = none → (tail = [] ∨ tail.head? = some 0)
    ∧ (tail ≠ [] → entries last < fs.slots ∧ tail.getD 11 0 &&& 0x08 = 0)
    ∧ (tail = [] → fs.fatsize ≠ 12)

/-- The last cluster that is needed. -/
theorem getDentfromdir_ending (hd : d.Serves image) (hempty : fs.fatbufnum = -1)
    (hlength : fs.fatlength ≠ 0) (hslots : fs.slots ≤ maxSlots) (hpos : 0 < fs.slots)
    (hfat : fs.fatsize = 12 ∨ fs.fatsize = 16 ∨ fs.fatsize = 32) {cs : List Word}
    (hchain : Chain image fs c cs) {last : List Item} {tail : List Byte}
    (hs : Cached d fs s.fs) (hbytes : clustersBytes image fs cs = bytesOf last ++ tail)
    (hle : entries last ≤ fs.slots) (hplain : ∀ item ∈ last, item.Plain filename)
    (hending : Ending fs filename last tail) :
  ∃ s', getDentfromdir d filename false 1 c s = some (.ok (s', find filename last))
  := by
  obtain ⟨cs', rfl⟩ : ∃ cs', cs = c :: cs' := by
    cases hchain with
    | last _ => exact ⟨[], rfl⟩
    | next _ _ => exact ⟨_, rfl⟩
  obtain ⟨rest, hfirst, hrest, htail⟩ := bytes_of_le hbytes hle
  obtain ⟨hfound, _⟩ := lookThrough_load hs hslots hplain hfirst
  cases hfind : find filename last with
  | some e =>
    obtain ⟨s', hs'⟩ := hfound e hfind
    exact ⟨s', getDentfromdir_of_found hd hs'⟩
  | none =>
    obtain ⟨hends, hmarker, hwidth⟩ := hending hfind
    rw [← hfind]
    obtain rfl | hne := eq_or_ne tail []
    · -- the items fill the cluster, and the chain ends with it
      obtain ⟨hnil, hmore⟩ := List.append_eq_nil_iff.mp htail.symm
      rw [hnil, List.length_nil, direntSize] at hrest
      rw [hnil, List.append_nil] at hfirst
      cases hchain with
      | last hend =>
        obtain ⟨_, hnone⟩ := getDentfromdir_full hs hslots hplain hd (cached_of_empty hempty)
          hfirst (by omega)
        obtain ⟨s', _, hs'⟩ := hnone hfind
        use s'
        rw [hs', fatent_rawEntry hd hempty hlength hfat,
          if_pos (checkClust_of_endOfChain (hwidth rfl) hfat hend), hfind]
      | next _ hchain =>
        have hlong := congrArg List.length hmore
        cases hchain
        all_goals
          change (image.bytes _ _ ++ clustersBytes image fs _).length = _ at hlong
          rw [List.length_append, length_bytes, clusterBytes_eq, direntSize,
            List.length_nil] at hlong
          omega
    · obtain ⟨hlt, hattr⟩ := hmarker hne
      have hlong : 11 < rest.length := by
        rw [hrest, direntSize]
        omega
      have hat : ∀ i < rest.length, rest[i]? = tail[i]? := by
        intro i hi
        rw [htail, List.getElem?_append_left hi]
      apply getDentfromdir_last hs hslots hplain hd hfirst hlt
      intro _
      constructor
      · rw [List.head?_eq_getElem?, hat 0 (by omega), ← List.head?_eq_getElem?]
        exact hends.resolve_left hne
      · rw [List.getD_eq_getElem?_getD, hat 11 hlong, ← List.getD_eq_getElem?_getD]
        exact hattr

/-- **The clusters of a directory** are looked through, one after the other. -/
theorem getDentfromdir_chain (hd : d.Serves image) (hempty : fs.fatbufnum = -1)
    (hlength : fs.fatlength ≠ 0) (hslots : fs.slots ≤ maxSlots) (hpos : 0 < fs.slots)
    (hfat : fs.fatsize = 12 ∨ fs.fatsize = 16 ∨ fs.fatsize = 32) {cs : List Word}
    (hchain : Chain image fs c cs) {full : List (List Item)} {last : List Item}
    {tail : List Byte} (hs : Cached d fs s.fs)
    (hbytes : clustersBytes image fs cs = bytesOf (full.flatten ++ last) ++ tail)
    (hfull : ∀ g ∈ full, entries g = fs.slots) (hle : entries last ≤ fs.slots)
    (hplain : ∀ item ∈ full.flatten ++ last, item.Plain filename)
    (hentries : ∀ c ∈ cs.take full.length, Followed image fs c)
    (hending : find filename full.flatten = none → Ending fs filename last tail) :
  ∃ fuel s', getDentfromdir d filename false fuel c s
    = some (.ok (s', find filename (full.flatten ++ last)))
  := by
  have h₀ : Cached d fs fs := cached_of_empty hempty
  induction full generalizing c cs s with
  | nil => exact ⟨1, getDentfromdir_ending hd hempty hlength hslots hpos hfat hchain hs hbytes hle
      hplain (hending rfl)⟩
  | cons g full ih =>
    have hg := hfull g List.mem_cons_self
    have hplaing : ∀ item ∈ g, item.Plain filename := by
      intro item hitem
      apply hplain
      rw [List.flatten_cons, List.append_assoc]
      exact List.mem_append_left _ hitem
    rw [List.flatten_cons, List.append_assoc] at hbytes hplain ⊢
    rw [List.flatten_cons, find_append] at hending
    rw [find_append]
    cases hchain with
    | last hend =>
      obtain ⟨hfirst, hrest⟩ := bytes_of_eq hbytes hg
      obtain ⟨hitems, rfl⟩ := List.append_eq_nil_iff.mp hrest.symm
      obtain ⟨hnilf, rfl⟩ := List.append_eq_nil_iff.mp (eq_nil_of_bytesOf hitems)
      obtain ⟨hfound, hnone⟩ := getDentfromdir_full hs hslots hplaing hd h₀ hfirst hg
      rw [hnilf, List.append_nil]
      rw [hnilf] at hending
      cases hfind : find filename g with
      | some e =>
        obtain ⟨s', hs'⟩ := hfound e hfind
        exact ⟨1, s', hs' 0⟩
      | none =>
        obtain ⟨s', _, hs'⟩ := hnone hfind
        rw [hfind] at hending
        obtain ⟨_, _, hwidth⟩ := hending rfl rfl
        have hnull := hs' 0
        rw [fatent_rawEntry hd hempty hlength hfat,
          if_pos (checkClust_of_endOfChain (hwidth rfl) hfat hend)] at hnull
        exact ⟨1, s', hnull⟩
    | next hcluster hchain =>
      obtain ⟨hfirst, hrest⟩ := bytes_of_eq hbytes hg
      obtain ⟨hfound, hnone⟩ := getDentfromdir_full hs hslots hplaing hd h₀ hfirst hg
      cases hfind : find filename g with
      | some e =>
        obtain ⟨s', hs'⟩ := hfound e hfind
        exact ⟨1, s', hs' 0⟩
      | none =>
        rw [hfind, Option.none_or] at hending
        obtain ⟨s', hcached, hs'⟩ := hnone hfind
        rw [List.length_cons, List.take_succ_cons] at hentries
        obtain ⟨hraw, hlt⟩ := hentries _ List.mem_cons_self hcluster
        have hcheck := not_checkClust_of_clusterNumber hcluster hlt hfat
        obtain ⟨fuel, s'', hs''⟩ := ih hchain hcached hrest
          (fun g hg => hfull g (List.mem_cons_of_mem _ hg))
          (fun item hitem => hplain item (List.mem_append_right _ hitem))
          (fun c hc => hentries c (List.mem_cons_of_mem _ hc)) hending
        use fuel + 1, s''
        rw [hs', fatent_rawEntry hd hempty hlength hfat,
          hraw, if_neg hcheck, hs'']
        rfl

/-- **`get_dentfromdir` finds the first entry with a name**, or none, in every directory and for
every name that meet the condition. -/
theorem getDentfromdir_finds {start : Word} (dir : Directory image fs start)
    (hd : d.Serves image) (hempty : fs.fatbufnum = -1) (hlength : fs.fatlength ≠ 0)
    (hslots : fs.slots ≤ maxSlots) (hpos : 0 < fs.slots)
    (hfat : fs.fatsize = 12 ∨ fs.fatsize = 16 ∨ fs.fatsize = 32) (filename : List Byte)
    {s : Lookup} (hs : Cached d fs s.fs) (hclear : Searchable dir filename) :
  ∃ fuel s', getDentfromdir d filename false fuel start s
    = some (.ok (s', find filename dir.items))
  := by
  obtain ⟨full, last, others, hitems, hfull, hle, hplain, hentries, hnone⟩ := hclear
  have hbytes := dir.bytes
  have hsplit : bytesOf dir.items = bytesOf (full.flatten ++ last) ++ bytesOf others := by
    rw [hitems, bytesOf, List.map_append, List.flatten_append]
    rfl
  rw [hsplit, List.append_assoc] at hbytes
  have hending : find filename full.flatten = none →
      Ending fs filename last (bytesOf others ++ dir.tail) := by
    intro hfull hlast
    obtain ⟨rfl, hmarker, hwidth⟩ := hnone (by rw [find_append, hfull, hlast]; rfl)
    exact ⟨dir.ends, hmarker, hwidth⟩
  obtain ⟨fuel, s', hs'⟩ := getDentfromdir_chain hd hempty hlength hslots hpos hfat dir.chain hs
    hbytes hfull hle hplain hentries hending
  use fuel, s'
  rw [hs', hitems, find_append _ others]
  cases hfind : find filename (full.flatten ++ last) with
  | some e => rfl
  | none =>
    rw [(hnone hfind).1]
    rfl

end Chain

/-! ### A label -/

/-- A volume whose table ends every chain, and with one item in cluster 2. -/
def single (item : Item) : Sectors :=
  fun s i => if s = 97 then (bytesOf [item]).getD i 0 else 0xff

/-- `BOOT` is the label of a volume. -/
def bootLabel : Label where
  bytes := [0x42, 0x4f, 0x4f, 0x54] ++ List.replicate 7 0x20 ++ 0x08 :: List.replicate 20 0
  length := rfl
  live := by decide
  attr := by decide

/-- `A` is a file. -/
def shortFile : Dirent where
  base := [0x41]
  ext := []
  rest := 0x20 :: List.replicate 20 0
  base_length := by decide
  base_live := by decide
  base_chars := by simp
  base_last := by decide
  ext_length := by decide
  ext_chars := nofun
  ext_last := by decide
  rest_length := rfl
  attr := by decide

/-- No slots. -/
def noName : LongName where
  slots := []
  length_le := Nat.zero_le 20
  length_slot := nofun
  attr := nofun
  number := nofun
  full := nofun
  live := nofun
  fits := Nat.zero_le 255

theorem entryOf_single (item : Item) :
  entryOf (single item) fat16 2 = 0xffff
  := by
  have hcell : ∀ i < sectorSize, (single item).table fat16 i = 0xff := by
    intro i hi
    rw [Sectors.table, Sectors.stream, Nat.div_eq_of_lt hi]
    exact if_neg (by decide)
  rw [entryOf, decode, if_neg (by decide), show fat16.fatsize = 16 from rfl, rawEntry_16,
    hcell _ (by decide), hcell _ (by decide)]
  rfl

theorem chain_single (item : Item) :
  Chain (single item) fat16 2 [2]
  := by
  apply Chain.last
  rw [entryOf_single, endOfChain, if_neg (by decide), if_pos (by decide)]
  decide

theorem bytes_label :
  clustersBytes (single (.label bootLabel)) fat16 [2]
    = bytesOf [.label bootLabel] ++ List.replicate 480 0
  := by decide +kernel

theorem bytes_file :
  clustersBytes (single (.file noName shortFile)) fat16 [2]
    = bytesOf [.file noName shortFile] ++ List.replicate 480 0
  := by decide +kernel

/-- A directory with the label. -/
def labelDirectory : Directory (single (.label bootLabel)) fat16 2 where
  clusters := [2]
  items := [.label bootLabel]
  tail := List.replicate 480 0
  chain := chain_single _
  bytes := bytes_label
  ends := .inr rfl

/-- A directory with the file. -/
def fileDirectory : Directory (single (.file noName shortFile)) fat16 2 where
  clusters := [2]
  items := [.file noName shortFile]
  tail := List.replicate 480 0
  chain := chain_single _
  bytes := bytes_file
  ends := .inr rfl

/-- The file is found. -/
theorem getDentfromdir_finds_file :
  ∃ fuel s', getDentfromdir (single (.file noName shortFile)).disk [0x61] false fuel 2
      ⟨fat16, fun _ => 0, fun _ => 0⟩
    = some (.ok (s', find [0x61] fileDirectory.items))
  := by
  apply getDentfromdir_finds fileDirectory (disk_serves _) rfl (by decide) (by decide) (by decide)
    (.inr (.inl rfl)) _ (cached_of_empty rfl)
  refine ⟨[], fileDirectory.items, [], rfl, nofun, by decide, ?_, nofun, ?_⟩
  · intro item hitem
    obtain rfl := List.mem_singleton.mp hitem
    refine ⟨nofun, ?_, nofun, nofun, nofun⟩
    intro hspace
    exact absurd hspace (by decide)
  · intro _
    exact ⟨rfl, fun _ => ⟨by decide, rfl⟩, nofun⟩

/-- The label is taken for a file of that name. -/
theorem lookAt_label :
  ((lookAt (single (.label bootLabel)).disk 2 [0x62, 0x6f, 0x6f, 0x74] false
      (Lookup.load (single (.label bootLabel)) 2 ⟨fat16, fun _ => 0, fun _ => 0⟩) 0).map
        fun r => r.2) = .ok (.found bootLabel.bytes)
  := by decide +kernel

/-- The name of the label. -/
theorem not_getDentfromdir_label :
  ¬ ∀ (image : Sectors) (d : Disk) (fs : Fsdata) (start : Word) (dir : Directory image fs start)
      (filename : List Byte) (s : Lookup), d.Serves image → fs.fatbufnum = -1 →
      fs.fatlength ≠ 0 → fs.slots ≤ maxSlots → 0 < fs.slots →
      (fs.fatsize = 12 ∨ fs.fatsize = 16 ∨ fs.fatsize = 32) → Cached d fs s.fs →
      ∃ fuel s', getDentfromdir d filename false fuel start s
        = some (.ok (s', find filename dir.items))
  := by
  intro h
  obtain ⟨fuel, s', hnone⟩ := h _ _ _ _ labelDirectory [0x62, 0x6f, 0x6f, 0x74]
    ⟨fat16, fun _ => 0, fun _ => 0⟩ (disk_serves _) rfl (by decide) (by decide) (by decide)
    (.inr (.inl rfl)) (cached_of_empty rfl)
  cases hlook : lookAt (single (.label bootLabel)).disk 2 [0x62, 0x6f, 0x6f, 0x74] false
      (Lookup.load (single (.label bootLabel)) 2 ⟨fat16, fun _ => 0, fun _ => 0⟩) 0 with
  | error e =>
    have hlabel := lookAt_label
    rw [hlook] at hlabel
    cases hlabel
  | ok r =>
    have hlabel := lookAt_label
    rw [hlook] at hlabel
    obtain ⟨s, seen⟩ := r
    obtain rfl : seen = .found bootLabel.bytes := Except.ok.inj hlabel
    cases fuel with
    | zero => cases hnone
    | succ fuel =>
      have hfound : getDentfromdir (single (.label bootLabel)).disk [0x62, 0x6f, 0x6f, 0x74] false
          (fuel + 1) 2 ⟨fat16, fun _ => 0, fun _ => 0⟩ = some (.ok (s, some bootLabel.bytes)) := by
        apply getDentfromdir_of_found (disk_serves _)
        rw [show Fsdata.slots _ = 15 + 1 from rfl]
        exact lookThrough_found hlook
      rw [hnone] at hfound
      cases hfound

end Fat
