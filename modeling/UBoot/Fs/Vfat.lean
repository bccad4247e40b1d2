import UBoot.Fs.Fat

/-!
# Long names

`get_vfatname` puts a long name together from the slots before a directory entry.  How many slots
there are is said by the first of them, and the last part of the name is in the one that comes
first.  The theorem says when the slots that are read are in the buffers and the name fits into
`l_name`.
-/

namespace Fat

/-! ### Slots -/

/-- The size of `dir_entry` and of `dir_slot`. -/
def direntSize : ℕ := 32

/-- The slots in a buffer of `MAX_CLUSTSIZE` bytes. -/
def maxSlots : ℕ := 65536 / direntSize

/-- The slots in a cluster. -/
def Fsdata.slots (fs : Fsdata) : ℕ := fs.clustSize.toNat * sectorSize / direntSize

/-- `id`, which is also `name[0]`. -/
def slotId (buf : ℕ → Byte) (i : ℕ) : Byte := buf (direntSize * i)

/-- `id & ~LAST_LONG_ENTRY_MASK`. -/
def sequence (buf : ℕ → Byte) (i : ℕ) : ℕ := (slotId buf i &&& 0xbf).toNat

/-- `id & LAST_LONG_ENTRY_MASK`. -/
def lastLongEntry (buf : ℕ → Byte) (i : ℕ) : Prop := slotId buf i &&& 0x40 ≠ 0

instance (buf : ℕ → Byte) (i : ℕ) : Decidable (lastLongEntry buf i) :=
  inferInstanceAs (Decidable (_ ≠ _))

/-- The low bytes of `name0_4`, `name5_10` and `name11_12`. -/
def slotChars (buf : ℕ → Byte) (i : ℕ) : List Byte :=
  [1, 3, 5, 7, 9, 14, 16, 18, 20, 22, 24, 28, 30].map fun j => buf (direntSize * i + j)

/-- A directory entry. -/
def direntAt (buf : ℕ → Byte) (i : ℕ) : List Byte := Memory.read buf (direntSize * i) direntSize

/-! ### The function -/

/-- What goes wrong: a slot is not in the buffer, or a character behind `l_name`. -/
inductive Fault where
  | slot
  | name
  deriving DecidableEq

/-- A slot is read. -/
def inside (i : ℕ) : Except Fault Unit := if i < maxSlots then .ok () else .error .slot

/-- `slot2str`: the characters of a slot are written to `l_name`, which has `name` up to the
index. -/
def slot2str : List Byte → List Byte → Except Fault (List Byte × Bool)
  | [], name => .ok (name, false)
  | c :: cs, name =>
    if 256 ≤ name.length then .error .name
    else if c = 0 then .ok (name, true)
    else slot2str cs (name ++ [c])

/-- The first loop of `get_vfatname`: the slots are counted down, up to the end of the cluster. -/
def countDown (cluster : ℕ → Byte) (slots : ℕ) : ℕ → ℕ → Except Fault (Option ℕ)
  | 0, slotptr => .ok (some slotptr)
  | counter + 1, slotptr =>
    if slotptr < slots then do
      inside slotptr
      if sequence cluster slotptr ≠ counter + 1 then .ok none
      else countDown cluster slots counter (slotptr + 1)
    else .ok (some slotptr)

/-- The second loop: the first slots of the next cluster, of which at most `n` are in the
buffer. -/
def scan (block : ℕ → Byte) : ℕ → ℕ → Except Fault ℕ
  | 0, _ => .error .slot
  | n + 1, slotptr => if 1 < slotId block slotptr then scan block n (slotptr + 1) else .ok slotptr

/-- The third loop: the names in the next cluster.  It is not looked at where they end. -/
def collect (block : ℕ → Byte) : ℕ → List Byte → Except Fault (List Byte)
  | 0, name => .ok name
  | n + 1, name => do
    inside n
    let r ← slot2str (slotChars block n) name
    collect block n r.1

/-- The fourth loop: the names in this cluster, from the slot before this one back. -/
def goBack (cluster : ℕ → Byte) : ℕ → List Byte → Except Fault (List Byte)
  | 0, _ => .error .slot
  | n + 1, name => do
    inside n
    let r ← slot2str (slotChars cluster n) name
    if r.2 ∨ lastLongEntry cluster n then .ok r.1 else goBack cluster n r.1

/-- `TOLOWER`. -/
def tolower (c : Byte) : Byte := if 65 ≤ c ∧ c ≤ 90 then c + 32 else c

/-- What the first character of a name stands for, and `downcase`. -/
def plainName (name : List Byte) : List Byte :=
  if name.head? = some 0xe5 then []
  else if name.head? = some 0x05 then (0xe5 :: name.tail).map tolower
  else name.map tolower

/-- The end of `l_name`. -/
def terminate (name : List Byte) : Except Fault (List Byte) :=
  if 256 ≤ name.length then .error .name else .ok (plainName name)

/-- The cluster after this one. -/
def following (d : Disk) (fs : Fsdata) (curclust : Word) (block : ℕ → Byte) :
    Fsdata × (ℕ → Byte) × Bool :=
  let g := getFatent d fs curclust
  if checkClust g.2 g.1.fatsize then (g.1, block, false)
  else
    let c := getCluster d g.1 g.2 block 0 (g.1.clustSize.toNat * sectorSize)
    (g.1, c.1, c.2)

/-- What `get_vfatname` leaves, and the name with the directory entry if it returns 0. -/
structure Vfatname where
  fs : Fsdata
  block : ℕ → Byte
  found : Option (List Byte × List Byte)

/-- `get_vfatname` when the directory entry is in this cluster. -/
def vfatnameHere (fs : Fsdata) (cluster block : ℕ → Byte) (slotptr : ℕ) :
    Except Fault Vfatname := do
  let name ← goBack cluster slotptr []
  let name ← terminate name
  .ok ⟨fs, block, some (name, direntAt cluster slotptr)⟩

/-- `get_vfatname` when the slots go on in the next cluster, which is in `block`.  One slot of this
cluster was taken back, and the fourth loop takes back another one. -/
def vfatnameOver (fs : Fsdata) (cluster block : ℕ → Byte) (slotptr : ℕ) :
    Except Fault Vfatname := do
  let slotptr2 ← scan block maxSlots 0
  let name ← collect block (slotptr2 + 1) []
  let name ← goBack cluster (slotptr - 1) name
  let name ← terminate name
  inside (slotptr2 + 1)
  .ok ⟨fs, block, some (name, direntAt block (slotptr2 + 1))⟩

/-- `get_vfatname`, for a slot of a cluster. -/
def getVfatname (d : Disk) (fs : Fsdata) (curclust : Word) (cluster block : ℕ → Byte)
    (retdent : ℕ) : Except Fault Vfatname := do
  match ← countDown cluster fs.slots (sequence cluster retdent) retdent with
  | none => .ok ⟨fs, block, none⟩
  | some slotptr =>
    if fs.slots ≤ slotptr then
      let c := following d fs curclust block
      if c.2.2 = false then .ok ⟨c.1, c.2.1, none⟩
      else vfatnameOver c.1 cluster c.2.1 slotptr
    else vfatnameHere fs cluster block slotptr

/-! ### The text of slots -/

/-- The characters before the end of the name. -/
def text (chars : List Byte) : List Byte := chars.takeWhile (· ≠ 0)

/-- The text of some slots from `j` on, the last one first. -/
def names (buf : ℕ → Byte) (j : ℕ) : ℕ → List Byte
  | 0 => []
  | n + 1 => text (slotChars buf (j + n)) ++ names buf j n

/-- The loops do not look at the slots before this one. -/
def EndsName (buf : ℕ → Byte) (i : ℕ) : Prop := 0 ∈ slotChars buf i ∨ lastLongEntry buf i

/-- Before a slot there is one that ends the name, and with `n` more characters the text of the
slots from there on fits into `l_name`. -/
def NameFits (cluster : ℕ → Byte) (last n : ℕ) : Prop :=
  ∃ j < last, EndsName cluster j ∧ (∀ i, j < i → i < last → ¬ EndsName cluster i)
    ∧ n + (names cluster j (last - j)).length ≤ 255

/-- The slots from here on are counted down, as far as they are in the cluster. -/
def CountsDown (cluster : ℕ → Byte) (slots counter slotptr : ℕ) : Prop :=
  ∀ i < counter, slotptr + i < slots → sequence cluster (slotptr + i) = counter - i

/-- The first slot of a buffer that is not for a long name, or for the first part of one. -/
def IsLast (block : ℕ → Byte) (m : ℕ) : Prop :=
  ¬ 1 < slotId block m ∧ ∀ i < m, 1 < slotId block i

/-- The condition: the slots that are counted down are followed by another one in the cluster, and
the text fits; or they go on in the next cluster, if it can be read, and there is a slot with
another one behind it that ends them. -/
def Sound (d : Disk) (fs : Fsdata) (curclust : Word) (cluster block : ℕ → Byte) (retdent : ℕ) :
    Prop :=
  CountsDown cluster fs.slots (sequence cluster retdent) retdent →
    (retdent + sequence cluster retdent < fs.slots →
      NameFits cluster (retdent + sequence cluster retdent) 0)
    ∧ (fs.slots ≤ retdent + sequence cluster retdent →
      (following d fs curclust block).2.2 = true →
      ∃ m, m + 1 < maxSlots ∧ IsLast (following d fs curclust block).2.1 m
        ∧ NameFits cluster (fs.slots - 1)
          (names (following d fs curclust block).2.1 0 (m + 1)).length)

/-! ### The loops -/

theorem bind_eq_ok {α β : Type} {x : Except Fault α} {f : α → Except Fault β} {b : β} :
  x >>= f = .ok b ↔ ∃ a, x = .ok a ∧ f a = .ok b
  := by
  cases x with
  | error e =>
    constructor
    · rintro ⟨⟩
    · rintro ⟨_, ⟨⟩, _⟩
  | ok a =>
    constructor
    · exact fun h => ⟨a, rfl, h⟩
    · rintro ⟨_, ⟨⟩, h⟩
      exact h

theorem text_cons (c : Byte) (cs : List Byte) :
  text (c :: cs) = if c = 0 then [] else c :: text cs
  := by
  rw [text, List.takeWhile_cons]
  by_cases hc : c = 0
  · rw [if_pos hc, hc]
    rfl
  · rw [if_neg hc, if_pos (decide_eq_true hc)]
    rfl

theorem decide_mem_cons {c : Byte} (cs : List Byte) (hzero : ¬ c = 0) :
  decide (0 ∈ c :: cs) = decide (0 ∈ cs)
  := by rw [decide_eq_decide, List.mem_cons, or_iff_right (Ne.symm hzero)]

/-- What `slot2str` writes. -/
theorem slot2str_eq {chars name : List Byte} {r : List Byte × Bool}
    (h : slot2str chars name = .ok r) :
  r = (name ++ text chars, decide (0 ∈ chars))
  := by
  induction chars generalizing name with
  | nil =>
    obtain rfl := Except.ok.inj h
    rw [text, List.takeWhile_nil, List.append_nil]
    rfl
  | cons c cs ih =>
    rw [slot2str] at h
    rw [text_cons]
    split at h
    · cases h
    split at h
    case isTrue hzero =>
      obtain rfl := Except.ok.inj h
      rw [if_pos hzero, List.append_nil, hzero, decide_eq_true List.mem_cons_self]
    case isFalse hzero =>
      rw [ih h, if_neg hzero, List.append_assoc, List.singleton_append, decide_mem_cons cs hzero]

/-- What fits is written. -/
theorem slot2str_of_le {chars name : List Byte} (h : name.length + (text chars).length ≤ 255) :
  slot2str chars name = .ok (name ++ text chars, decide (0 ∈ chars))
  := by
  induction chars generalizing name with
  | nil =>
    rw [text, List.takeWhile_nil, List.append_nil]
    rfl
  | cons c cs ih =>
    rw [text_cons] at h ⊢
    rw [slot2str, if_neg (by omega)]
    by_cases hzero : c = 0
    · rw [if_pos hzero, if_pos hzero, List.append_nil, hzero, decide_eq_true List.mem_cons_self]
    · rw [if_neg hzero, List.length_cons] at h
      rw [if_neg hzero, if_neg hzero, ih, List.append_assoc, List.singleton_append,
        decide_mem_cons cs hzero]
      rw [List.length_append, List.length_singleton]
      omega

theorem inside_of_lt {i : ℕ} (h : i < maxSlots) :
  inside i = .ok ()
  := if_pos h

theorem inside_iff {i : ℕ} {u : Unit} :
  inside i = .ok u ↔ i < maxSlots
  := by
  rw [inside]
  split
  case isTrue hlt => exact iff_of_true rfl hlt
  case isFalse hge => exact iff_of_false nofun hge

theorem CountsDown.succ {cluster : ℕ → Byte} {slots counter slotptr : ℕ} :
  CountsDown cluster slots (counter + 1) slotptr
    ↔ (slotptr < slots → sequence cluster slotptr = counter + 1)
      ∧ CountsDown cluster slots counter (slotptr + 1)
  := by
  constructor
  · intro h
    constructor
    · exact h 0 (Nat.succ_pos _)
    · intro i hi hlt
      have hnext := h (i + 1) (Nat.succ_lt_succ hi)
      rw [Nat.add_right_comm, Nat.add_assoc] at hlt ⊢
      rw [hnext hlt]
      omega
  · rintro ⟨hfirst, hrest⟩ i hi hlt
    cases i with
    | zero => exact hfirst hlt
    | succ i =>
      have hnext := hrest i (Nat.lt_of_succ_lt_succ hi)
      rw [Nat.add_right_comm, Nat.add_assoc] at hnext
      rw [hnext hlt]
      omega

/-- The first loop ends behind the slots that are counted down. -/
theorem countDown_of_countsDown {cluster : ℕ → Byte} {slots counter slotptr : ℕ}
    (hslots : slots ≤ maxSlots) (hslotptr : slotptr ≤ slots)
    (h : CountsDown cluster slots counter slotptr) :
  countDown cluster slots counter slotptr = .ok (some (min (slotptr + counter) slots))
  := by
  induction counter generalizing slotptr with
  | zero =>
    rw [Nat.add_zero, Nat.min_eq_left hslotptr]
    rfl
  | succ counter ih =>
    obtain ⟨hfirst, hrest⟩ := CountsDown.succ.mp h
    rw [countDown]
    split
    case isTrue hlt =>
      rw [inside_of_lt (hlt.trans_le hslots), hfirst hlt]
      change (if counter + 1 ≠ counter + 1 then _ else _) = _
      rw [if_neg (not_not.mpr rfl), ih hlt hrest, Nat.succ_add_eq_add_succ]
    case isFalse hge => rw [Nat.min_eq_right (by omega), Nat.le_antisymm hslotptr (by omega)]

theorem countDown_of_not_countsDown {cluster : ℕ → Byte} {slots counter slotptr : ℕ}
    (hslots : slots ≤ maxSlots) (h : ¬ CountsDown cluster slots counter slotptr) :
  countDown cluster slots counter slotptr = .ok none
  := by
  induction counter generalizing slotptr with
  | zero => exact absurd (fun i hi => absurd hi (Nat.not_lt_zero i)) h
  | succ counter ih =>
    rw [CountsDown.succ] at h
    have hlt : slotptr < slots := by
      by_contra hge
      apply h
      constructor
      · exact fun hlt => absurd hlt hge
      · intro i _ hlt
        omega
    rw [countDown, if_pos hlt, inside_of_lt (hlt.trans_le hslots)]
    change (if sequence cluster slotptr ≠ counter + 1 then _ else _) = _
    split
    case isTrue => rfl
    case isFalse heq =>
      apply ih
      intro hrest
      exact h ⟨fun _ => not_not.mp heq, hrest⟩

/-- The second loop ends at the first slot that is the last one. -/
theorem scan_eq_iff {block : ℕ → Byte} {n slotptr m : ℕ} :
  scan block n slotptr = .ok m
    ↔ slotptr ≤ m ∧ m < slotptr + n ∧ ¬ 1 < slotId block m
      ∧ ∀ i, slotptr ≤ i → i < m → 1 < slotId block i
  := by
  induction n generalizing slotptr with
  | zero =>
    constructor
    · rintro ⟨⟩
    · rintro ⟨hle, hlt, _⟩
      omega
  | succ n ih =>
    rw [scan]
    split
    case isTrue hmore =>
      rw [ih]
      constructor
      · rintro ⟨hle, hlt, hlast, hbefore⟩
        refine ⟨by omega, by omega, hlast, ?_⟩
        intro i hi him
        obtain rfl | hless := Nat.eq_or_lt_of_le hi
        · exact hmore
        · exact hbefore i hless him
      · rintro ⟨hle, hlt, hlast, hbefore⟩
        have hne : slotptr ≠ m := by
          rintro rfl
          exact hlast hmore
        exact ⟨by omega, by omega, hlast, fun i hi => hbefore i (by omega)⟩
    case isFalse hlast =>
      constructor
      · intro h
        obtain rfl := Except.ok.inj h
        exact ⟨Nat.le_refl _, by omega, hlast, fun i hi him => absurd him (by omega)⟩
      · rintro ⟨hle, _, _, hbefore⟩
        obtain rfl | hless := Nat.eq_or_lt_of_le hle
        · rfl
        · exact absurd (hbefore slotptr (Nat.le_refl _) hless) hlast

/-- What the third loop writes. -/
theorem collect_eq {block : ℕ → Byte} {n : ℕ} {name r : List Byte}
    (h : collect block n name = .ok r) :
  r = name ++ names block 0 n
  := by
  induction n generalizing name with
  | zero =>
    obtain rfl := Except.ok.inj h
    exact (List.append_nil _).symm
  | succ n ih =>
    rw [collect, bind_eq_ok] at h
    obtain ⟨_, _, h⟩ := h
    rw [bind_eq_ok] at h
    obtain ⟨t, hslot, h⟩ := h
    rw [ih h, slot2str_eq hslot, List.append_assoc, names, Nat.zero_add]

theorem collect_of_le {block : ℕ → Byte} {n : ℕ} {name : List Byte} (hn : n ≤ maxSlots)
    (h : name.length + (names block 0 n).length ≤ 255) :
  collect block n name = .ok (name ++ names block 0 n)
  := by
  induction n generalizing name with
  | zero =>
    rw [names, List.append_nil]
    rfl
  | succ n ih =>
    rw [names, Nat.zero_add, List.length_append] at h
    rw [collect, inside_of_lt hn, slot2str_of_le (by omega)]
    change collect block n (name ++ text (slotChars block n)) = _
    rw [ih (Nat.le_of_succ_le hn), List.append_assoc, names, Nat.zero_add]
    rw [List.length_append]
    omega

theorem names_sub (buf : ℕ → Byte) {j n : ℕ} (h : j ≤ n) :
  names buf j (n + 1 - j) = text (slotChars buf n) ++ names buf j (n - j)
  := by rw [Nat.succ_sub h, names, Nat.add_sub_cancel' h]

theorem endsName_iff {buf : ℕ → Byte} {i : ℕ} :
  decide (0 ∈ slotChars buf i) = true ∨ lastLongEntry buf i ↔ EndsName buf i
  := by
  rw [decide_eq_true_iff]
  rfl

/-- What the fourth loop writes. -/
theorem goBack_eq {cluster : ℕ → Byte} {n : ℕ} {name r : List Byte}
    (h : goBack cluster n name = .ok r) :
  ∃ j < n, EndsName cluster j ∧ (∀ i, j < i → i < n → ¬ EndsName cluster i)
    ∧ r = name ++ names cluster j (n - j)
  := by
  induction n generalizing name with
  | zero => cases h
  | succ n ih =>
    rw [goBack, bind_eq_ok] at h
    obtain ⟨_, _, h⟩ := h
    rw [bind_eq_ok] at h
    obtain ⟨t, hslot, h⟩ := h
    rw [slot2str_eq hslot] at h
    split at h
    case isTrue hends =>
      obtain rfl := Except.ok.inj h
      refine ⟨n, Nat.lt_succ_self n, endsName_iff.mp hends, ?_, ?_⟩
      · intro i hlt hle
        omega
      · rw [names_sub cluster (Nat.le_refl n), Nat.sub_self, names, List.append_nil]
    case isFalse hgoes =>
      obtain ⟨j, hj, hends, hbetween, hr⟩ := ih h
      refine ⟨j, hj.trans (Nat.lt_succ_self n), hends, ?_, ?_⟩
      · intro i hlt hle
        obtain rfl | hless := Nat.eq_or_lt_of_le (Nat.le_of_lt_succ hle)
        · exact endsName_iff.not.mp hgoes
        · exact hbetween i hlt hless
      · rw [hr, names_sub cluster hj.le, List.append_assoc]

theorem goBack_of_le {cluster : ℕ → Byte} {n j : ℕ} {name : List Byte} (hn : n ≤ maxSlots)
    (hj : j < n) (hends : EndsName cluster j)
    (hbetween : ∀ i, j < i → i < n → ¬ EndsName cluster i)
    (h : name.length + (names cluster j (n - j)).length ≤ 255) :
  goBack cluster n name = .ok (name ++ names cluster j (n - j))
  := by
  induction n generalizing name with
  | zero => exact absurd hj (Nat.not_lt_zero j)
  | succ n ih =>
    rw [names_sub cluster (Nat.le_of_lt_succ hj), List.length_append] at h
    rw [goBack, inside_of_lt hn, slot2str_of_le (by omega),
      names_sub cluster (Nat.le_of_lt_succ hj)]
    change (if decide (0 ∈ slotChars cluster n) = true ∨ lastLongEntry cluster n then _ else _) = _
    obtain rfl | hless := Nat.eq_or_lt_of_le (Nat.le_of_lt_succ hj)
    · rw [if_pos (endsName_iff.mpr hends), Nat.sub_self, names, List.append_nil]
    · have hgoes := endsName_iff.not.mpr (hbetween n hless (Nat.lt_succ_self n))
      rw [if_neg hgoes, ih (Nat.le_of_succ_le hn) hless, List.append_assoc]
      · intro i hlt hle
        exact hbetween i hlt (hle.trans (Nat.lt_succ_self n))
      · rw [List.length_append]
        omega

/-- The fourth loop stays in the buffer, and the name in `l_name`. -/
theorem fits_iff {cluster : ℕ → Byte} {n : ℕ} {name : List Byte} (hn : n ≤ maxSlots) :
  (∃ r, goBack cluster n name = .ok r ∧ r.length ≤ 255) ↔ NameFits cluster n name.length
  := by
  constructor
  · rintro ⟨r, hr, hlength⟩
    obtain ⟨j, hj, hends, hbetween, rfl⟩ := goBack_eq hr
    rw [List.length_append] at hlength
    exact ⟨j, hj, hends, hbetween, hlength⟩
  · rintro ⟨j, hj, hends, hbetween, hlength⟩
    refine ⟨_, goBack_of_le hn hj hends hbetween hlength, ?_⟩
    rwa [List.length_append]

theorem terminate_iff {name : List Byte} :
  (∃ r, terminate name = .ok r) ↔ name.length ≤ 255
  := by
  rw [terminate]
  split
  · constructor
    · rintro ⟨_, ⟨⟩⟩
    · intro h
      omega
  · exact iff_of_true ⟨_, rfl⟩ (by omega)

/-! ### The function -/

section Function

variable {d : Disk} {fs : Fsdata} {curclust : Word} {cluster block : ℕ → Byte} {retdent : ℕ}

/-- The name is in this cluster. -/
theorem vfatnameHere_iff {slotptr : ℕ} (hslotptr : slotptr ≤ maxSlots) :
  (∃ r, vfatnameHere fs cluster block slotptr = .ok r) ↔ NameFits cluster slotptr 0
  := by
  rw [← List.length_nil, ← fits_iff hslotptr]
  constructor
  · rintro ⟨r, hr⟩
    rw [vfatnameHere, bind_eq_ok] at hr
    obtain ⟨name, hback, hr⟩ := hr
    rw [bind_eq_ok] at hr
    obtain ⟨name', hterminate, _⟩ := hr
    exact ⟨name, hback, terminate_iff.mp ⟨name', hterminate⟩⟩
  · rintro ⟨name, hback, hlength⟩
    obtain ⟨name', hterminate⟩ := terminate_iff.mpr hlength
    use ⟨fs, block, some (name', direntAt cluster slotptr)⟩
    apply bind_eq_ok.mpr
    refine ⟨name, hback, ?_⟩
    apply bind_eq_ok.mpr
    exact ⟨name', hterminate, rfl⟩

/-- The name goes on in the next cluster. -/
theorem vfatnameOver_iff {slotptr : ℕ} (hslotptr : slotptr ≤ maxSlots) :
  (∃ r, vfatnameOver fs cluster block slotptr = .ok r)
    ↔ ∃ m, m + 1 < maxSlots ∧ IsLast block m
      ∧ NameFits cluster (slotptr - 1) (names block 0 (m + 1)).length
  := by
  have hback : slotptr - 1 ≤ maxSlots := (Nat.sub_le _ _).trans hslotptr
  constructor
  · rintro ⟨r, hr⟩
    rw [vfatnameOver, bind_eq_ok] at hr
    obtain ⟨m, hscan, hr⟩ := hr
    rw [bind_eq_ok] at hr
    obtain ⟨name, hcollect, hr⟩ := hr
    rw [bind_eq_ok] at hr
    obtain ⟨name', hgoBack, hr⟩ := hr
    rw [bind_eq_ok] at hr
    obtain ⟨name'', hterminate, hr⟩ := hr
    rw [bind_eq_ok] at hr
    obtain ⟨_, hinside, _⟩ := hr
    obtain ⟨_, _, hlast, hbefore⟩ := scan_eq_iff.mp hscan
    obtain rfl := collect_eq hcollect
    have hfits := (fits_iff hback).mp ⟨name', hgoBack, terminate_iff.mp ⟨name'', hterminate⟩⟩
    refine ⟨m, inside_iff.mp hinside, ⟨hlast, fun i => hbefore i (Nat.zero_le i)⟩, hfits⟩
  · rintro ⟨m, hm, ⟨hlast, hbefore⟩, hfits⟩
    have hscan : scan block maxSlots 0 = .ok m := by
      rw [scan_eq_iff]
      exact ⟨Nat.zero_le m, by omega, hlast, fun i _ => hbefore i⟩
    have hlength : (names block 0 (m + 1)).length ≤ 255 := by
      obtain ⟨j, _, _, _, hle⟩ := hfits
      exact (Nat.le_add_right ..).trans hle
    have hcollect : collect block (m + 1) [] = .ok ([] ++ names block 0 (m + 1)) := by
      apply collect_of_le hm.le
      rwa [List.length_nil, Nat.zero_add]
    obtain ⟨name, hgoBack, hname⟩ := (fits_iff hback).mpr hfits
    obtain ⟨name', hterminate⟩ := terminate_iff.mpr hname
    use ⟨fs, block, some (name', direntAt block (m + 1))⟩
    apply bind_eq_ok.mpr
    refine ⟨m, hscan, ?_⟩
    apply bind_eq_ok.mpr
    refine ⟨_, hcollect, ?_⟩
    apply bind_eq_ok.mpr
    refine ⟨name, hgoBack, ?_⟩
    apply bind_eq_ok.mpr
    refine ⟨name', hterminate, ?_⟩
    rw [inside_of_lt hm]
    rfl

/-- **`get_vfatname` stays in the buffers** and in `l_name` if and only if the condition is met. -/
theorem getVfatname_iff (hcluster : fs.slots ≤ maxSlots) (hretdent : retdent < fs.slots) :
  (∃ r, getVfatname d fs curclust cluster block retdent = .ok r)
    ↔ Sound d fs curclust cluster block retdent
  := by
  rw [Sound, getVfatname]
  by_cases hdown : CountsDown cluster fs.slots (sequence cluster retdent) retdent
  · rw [countDown_of_countsDown hcluster hretdent.le hdown, forall_prop_of_true hdown]
    change (∃ r, (if fs.slots ≤ min (retdent + sequence cluster retdent) fs.slots then _ else _)
      = Except.ok r) ↔ _
    obtain hlt | hge := Nat.lt_or_ge (retdent + sequence cluster retdent) fs.slots
    · rw [Nat.min_eq_left hlt.le, if_neg (Nat.not_le_of_lt hlt), vfatnameHere_iff (by omega)]
      constructor
      · exact fun h => ⟨fun _ => h, fun hle => absurd hlt (Nat.not_lt_of_le hle)⟩
      · exact fun h => h.1 hlt
    · rw [Nat.min_eq_right hge, if_pos (Nat.le_refl _)]
      cases hread : (following d fs curclust block).2.2 with
      | false =>
        rw [if_pos rfl]
        exact iff_of_true ⟨_, rfl⟩ ⟨fun hlt => absurd hge (Nat.not_le_of_lt hlt), fun _ => nofun⟩
      | true =>
        rw [if_neg (by decide), vfatnameOver_iff hcluster]
        constructor
        · exact fun h => ⟨fun hlt => absurd hge (Nat.not_le_of_lt hlt), fun _ _ => h⟩
        · exact fun h => h.2 hge rfl
  · rw [countDown_of_not_countsDown hcluster hdown]
    exact iff_of_true ⟨_, rfl⟩ fun h => absurd h hdown

end Function

/-! ### Twenty slots -/

/-- A volume with clusters of two sectors. -/
def twoSectors : Fsdata := ⟨fun _ => 0, 16, 0, 0, 0, 2, 0, 0⟩

/-- A device that is not there. -/
def noDevice : Disk := ⟨none, 0, fun _ => 0⟩

/-- A cluster that begins with `n` slots for a name, in which every character is `c`. -/
def slotsOf (n : ℕ) (c : Byte) (i : ℕ) : Byte :=
  if i % direntSize = 0 then
    if i = 0 then UInt8.ofNat (n + 0x40) else UInt8.ofNat (n - i / direntSize)
  else if i % direntSize = 11 then 0x0f
  else c

/-- A name in one slot. -/
theorem getVfatname_iff_one :
  (∃ r, getVfatname noDevice twoSectors 2 (slotsOf 1 0x61) (fun _ => 0) 0 = .ok r)
    ↔ Sound noDevice twoSectors 2 (slotsOf 1 0x61) (fun _ => 0) 0
  := getVfatname_iff (by decide) (by decide)

/-- Twenty slots have 260 characters. -/
theorem not_getVfatname_twenty :
  ¬ ∀ (d : Disk) (fs : Fsdata) (curclust : Word) (cluster block : ℕ → Byte) (retdent : ℕ),
    fs.slots ≤ maxSlots → retdent < fs.slots →
    ∃ r, getVfatname d fs curclust cluster block retdent = .ok r
  := by
  intro h
  obtain ⟨r, hr⟩ := h noDevice twoSectors 2 (slotsOf 20 0x61) (fun _ => 0) 0 (by decide) (by decide)
  have hfault : (getVfatname noDevice twoSectors 2 (slotsOf 20 0x61) (fun _ => 0) 0).toBool
      = false := by decide +kernel
  rw [hr] at hfault
  cases hfault

end Fat
