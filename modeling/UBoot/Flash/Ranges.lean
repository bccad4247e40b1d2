import UBoot.Env.Setenv
import UBoot.Flash.Protection

/-!
# Ranges of sectors

`flash_fill_sect_ranges` of `common/cmd_flash.c` takes a range of addresses apart into ranges of
sectors, one for each bank, and `addr_spec` gets the range from the arguments of a command.

What is found in a bank is taken off the range from below.  A range that does not end with a sector
of a bank may lose its end, without an error, and a range that ends at the top of the address space
may go on at its bottom; `fill_exact` is about the other ranges.
-/

namespace Flash

/-! ### The functions -/

namespace Info

/-- `b_end`. -/
def bEnd (info : Info) : Word := info.startOf 0 + info.size - 1

/-- The last address of a sector. -/
def lastOf (info : Info) (sect : ℕ) : Word :=
  if sect = info.sectorCount - 1 then info.bEnd else info.startOf (sect + 1) - 1

/-- The loop over the sectors of a bank: the sector that begins with the range, and the one that
ends with it. -/
def scan (info : Info) (addrFirst addrLast : Word) : ℕ → Option ℕ × Option ℕ
  | 0 => (none, none)
  | sect + 1 =>
    let s := info.scan addrFirst addrLast sect
    if addrFirst > info.lastOf sect then s
    else if addrLast < info.startOf sect then s
    else
      (if addrFirst = info.startOf sect then some sect else s.1,
        if addrLast = info.lastOf sect then some sect else s.2)

/-- The address behind a sector, where the range goes on. -/
def next (info : Info) (sect : ℕ) : Word :=
  if sect = info.sectorCount - 1 then info.bEnd + 1 else info.startOf (sect + 1)

end Info

/-- `s_first` and `s_last` for every bank, `s_count` and the return code. -/
structure Ranges where
  sects : List (Option ℕ × Option ℕ)
  count : ℕ
  rcode : ℕ

/-- The sectors of one more bank. -/
def Ranges.cons (sect : Option ℕ × Option ℕ) (r : Ranges) : Ranges :=
  { r with sects := sect :: r.sects }

/-- No more sectors. -/
def Ranges.stop (banks : List Info) (count rcode : ℕ) : Ranges where
  sects := banks.map fun _ => (none, none)
  count := count
  rcode := rcode

/-- The loop over the banks. -/
def fill (addrLast : Word) : List Info → Word → ℕ → Ranges
  | [], _, count => ⟨[], count, 0⟩
  | info :: banks, addrFirst, count =>
    if addrFirst ≤ addrLast then
      if info.flashId = flashUnknown then (fill addrLast banks addrFirst count).cons (none, none)
      else
        let s := info.scan addrFirst addrLast info.sectorCount
        match s.1 with
        | some first =>
          match s.2 <|> if addrLast > info.bEnd then some (info.sectorCount - 1) else none with
          | none => (Ranges.stop banks count 1).cons s
          | some last =>
            if last < first then (Ranges.stop banks count 1).cons (some first, some last)
            else
              (fill addrLast banks (info.next last) (count + (last - first + 1))).cons
                (some first, some last)
        | none =>
          if addrFirst ≥ info.startOf 0 ∧ addrFirst < info.bEnd then
            (Ranges.stop banks count 1).cons s
          else if s.2.isSome then (Ranges.stop banks count 1).cons s
          else (fill addrLast banks addrFirst count).cons (none, none)
    else Ranges.stop (info :: banks) count 0

/-- `flash_fill_sect_ranges`. -/
def flashFillSectRanges (banks : List Info) (addrFirst addrLast : Word) : Ranges :=
  fill addrLast banks addrFirst 0

/-- The first sector of a bank that has the address. -/
def Info.sectorAt (info : Info) (addr : Word) : Option ℕ :=
  (List.range info.sectorCount).find? fun i => addr ≤ info.lastOf i ∧ addr ≥ info.startOf i

/-- `flash_sect_roundb`, which does not look at `flash_id`. -/
def flashSectRoundb : List Info → Word → Option Word
  | [], _ => none
  | info :: banks, addr =>
    match info.sectorAt addr with
    | some i => some (info.lastOf i)
    | none => flashSectRoundb banks addr

/-- A number of hexadecimal digits and nothing else. -/
def hexArg (arg : List Byte) : Option Word :=
  let r := Env.simpleStrtoul arg 16
  if r.2 = arg ∨ r.2 ≠ [] then none else some (BitVec.ofNat 32 r.1)

/-- `addr_spec`: the first and the last address of the range. -/
def addrSpec (banks : List Info) (arg1 arg2 : List Byte) : Option (Word × Word) := do
  let addrFirst ← hexArg arg1
  if arg2.head? = some 43 then
    let length ← hexArg arg2.tail
    let addrLast ← flashSectRoundb banks (addrFirst + length - 1)
    return (addrFirst, addrLast)
  else
    let addrLast ← hexArg arg2
    return (addrFirst, addrLast)

/-! ### Sectors -/

namespace Info.Valid

variable {info : Info} (h : info.Valid) {i j : ℕ}

include h

theorem toNat_bEnd :
  info.bEnd.toNat + 1 = info.hi
  := by
  have hlt := h.lo_lt_hi
  have htop := h.top
  have hone : (1 : Word).toNat = 1 := rfl
  rw [bEnd, BitVec.toNat_sub, info.toNat_end, hone]
  omega

/-- The last address of a sector is the one before its end. -/
theorem toNat_lastOf (hi : i < info.sectorCount) :
  (info.lastOf i).toNat + 1 = info.sectorEnd i
  := by
  rw [lastOf, sectorEnd]
  by_cases hlast : i + 1 = info.sectorCount
  · rw [if_pos (by omega), if_pos hlast, h.toNat_bEnd]
  · have hpos := h.startOf_lt (Nat.lt_add_one i) (show i + 1 < info.sectorCount by omega)
    have hlt := (info.startOf (i + 1)).isLt
    have hone : (1 : Word).toNat = 1 := rfl
    rw [if_neg (by omega), if_neg hlast, BitVec.toNat_sub, hone]
    omega

theorem toNat_next (hi : i < info.sectorCount) :
  (info.next i).toNat = info.sectorEnd i % 2 ^ 32
  := by
  rw [next, sectorEnd]
  by_cases hlast : i + 1 = info.sectorCount
  · have hone : (1 : Word).toNat = 1 := rfl
    rw [if_pos (by omega), if_pos hlast, BitVec.toNat_add, hone, h.toNat_bEnd]
  · rw [if_neg (by omega), if_neg hlast, Nat.mod_eq_of_lt (info.startOf (i + 1)).isLt]

theorem startOf_le_lastOf (hi : i < info.sectorCount) :
  (info.startOf i).toNat ≤ (info.lastOf i).toNat
  := by
  have hend := h.toNat_lastOf hi
  rw [sectorEnd] at hend
  split at hend
  case isTrue hlast =>
    have hlt := h.inside i hi
    omega
  case isFalse hmore =>
    have hlt := h.startOf_lt (Nat.lt_add_one i) (show i + 1 < info.sectorCount by omega)
    omega

/-- A sector ends before the next one begins. -/
theorem lastOf_lt_startOf (hij : i < j) (hj : j < info.sectorCount) :
  (info.lastOf i).toNat < (info.startOf j).toNat
  := by
  have hend := h.toNat_lastOf (hij.trans hj)
  rw [sectorEnd, if_neg (by omega)] at hend
  obtain rfl | hlt := Nat.eq_or_lt_of_le (show i + 1 ≤ j from hij)
  · omega
  · have hstart := h.startOf_lt hlt hj
    omega

/-- An address is in one sector only. -/
theorem eq_of_mem {x : ℕ} (hi : i < info.sectorCount) (hj : j < info.sectorCount)
    (hxi : (info.startOf i).toNat ≤ x ∧ x ≤ (info.lastOf i).toNat)
    (hxj : (info.startOf j).toNat ≤ x ∧ x ≤ (info.lastOf j).toNat) :
  i = j
  := by
  obtain hlt | rfl | hlt := Nat.lt_trichotomy i j
  · have hstart := h.lastOf_lt_startOf hlt hj
    omega
  · rfl
  · have hstart := h.lastOf_lt_startOf hlt hi
    omega

theorem lo_le_of_mem {x : ℕ} (hi : i < info.sectorCount)
    (hx : (info.startOf i).toNat ≤ x ∧ x ≤ (info.lastOf i).toNat) :
  info.lo ≤ x ∧ x < info.hi
  := by
  have hlo := h.lo_le_startOf hi
  have hend := h.toNat_lastOf hi
  have hhi := h.sectorEnd_le hi
  omega

/-- Consecutive sectors have the addresses from the start of the first one to the end of the last
one. -/
theorem exists_sector_iff {first last x : ℕ} (hle : first ≤ last)
    (hlast : last < info.sectorCount) :
  (∃ i, first ≤ i ∧ i ≤ last ∧ (info.startOf i).toNat ≤ x ∧ x ≤ (info.lastOf i).toNat)
    ↔ (info.startOf first).toNat ≤ x ∧ x ≤ (info.lastOf last).toNat
  := by
  induction last, hle using Nat.le_induction with
  | base =>
    constructor
    · rintro ⟨i, hfirst, hi, hx⟩
      obtain rfl := Nat.le_antisymm hfirst hi
      exact hx
    · intro hx
      exact ⟨first, le_rfl, le_rfl, hx⟩
  | succ last hle ih =>
    have hend : (info.lastOf last).toNat + 1 = (info.startOf (last + 1)).toNat := by
      rw [h.toNat_lastOf (by omega), sectorEnd, if_neg (by omega)]
    have hstart := h.startOf_le_lastOf hlast
    constructor
    · rintro ⟨i, hfirst, hi, hx⟩
      obtain rfl | hi := Nat.eq_or_lt_of_le hi
      · have hfirst := h.startOf_lt (show first < last + 1 by omega) hlast
        omega
      · have hbefore := (ih (by omega)).mp ⟨i, hfirst, by omega, hx⟩
        omega
    · intro hx
      by_cases hlt : x ≤ (info.lastOf last).toNat
      · obtain ⟨i, hfirst, hi, hxi⟩ := (ih (by omega)).mpr ⟨hx.1, hlt⟩
        exact ⟨i, hfirst, by omega, hxi⟩
      · exact ⟨last + 1, by omega, le_rfl, by omega, hx.2⟩

end Info.Valid

/-! ### The loop over the sectors -/

section Scan

variable {info : Info} {addrFirst addrLast : Word}

/-- The number with a property, if only one below `n` has it. -/
def pick (p : ℕ → Prop) [DecidablePred p] : ℕ → Option ℕ
  | 0 => none
  | n + 1 => if p n then some n else pick p n

theorem pick_eq_some_iff {p : ℕ → Prop} [DecidablePred p] {n i : ℕ}
    (huniq : ∀ i j, i < n → j < n → p i → p j → i = j) :
  pick p n = some i ↔ i < n ∧ p i
  := by
  induction n with
  | zero => simp [pick]
  | succ n ih =>
    rw [pick]
    split
    case isTrue hn =>
      rw [Option.some_inj]
      constructor
      · rintro rfl
        exact ⟨Nat.lt_add_one n, hn⟩
      · intro hi
        exact huniq n i (Nat.lt_add_one n) hi.1 hn hi.2
    case isFalse hn =>
      rw [ih fun i j hi hj => huniq i j (by omega) (by omega)]
      constructor
      · intro hi
        exact ⟨by omega, hi.2⟩
      · rintro ⟨hlt, hi⟩
        have hne : i ≠ n := by
          rintro rfl
          exact hn hi
        exact ⟨by omega, hi⟩

/-- A sector that is left out of the comparisons would not pass them. -/
theorem scan_eq (h : info.Valid) (hle : addrFirst ≤ addrLast) {n : ℕ} (hn : n ≤ info.sectorCount) :
  info.scan addrFirst addrLast n
    = (pick (fun sect => addrFirst = info.startOf sect) n,
        pick (fun sect => addrLast = info.lastOf sect) n)
  := by
  induction n with
  | zero => rfl
  | succ sect ih =>
    have hsect := h.startOf_le_lastOf (show sect < info.sectorCount by omega)
    rw [BitVec.le_def] at hle
    rw [Info.scan, ih (by omega), pick, pick]
    dsimp only
    split
    case isTrue hgt =>
      rw [gt_iff_lt, BitVec.lt_def] at hgt
      have hfirst : addrFirst ≠ info.startOf sect := by
        rintro rfl
        omega
      have hlast : addrLast ≠ info.lastOf sect := by
        rintro rfl
        omega
      rw [if_neg hfirst, if_neg hlast]
    split
    case isTrue hlt =>
      rw [BitVec.lt_def] at hlt
      have hfirst : addrFirst ≠ info.startOf sect := by
        rintro rfl
        omega
      have hlast : addrLast ≠ info.lastOf sect := by
        rintro rfl
        omega
      rw [if_neg hfirst, if_neg hlast]
    rfl

theorem scan_first_iff (h : info.Valid) (hle : addrFirst ≤ addrLast) {first : ℕ} :
  (info.scan addrFirst addrLast info.sectorCount).1 = some first
    ↔ first < info.sectorCount ∧ addrFirst = info.startOf first
  := by
  rw [scan_eq h hle le_rfl]
  apply pick_eq_some_iff
  rintro i j hi hj rfl heq
  have hstart := h.startOf_le_lastOf hi
  have hstart' := h.startOf_le_lastOf hj
  rw [heq] at hstart
  exact h.eq_of_mem hi hj ⟨by rw [heq], hstart⟩ ⟨le_rfl, hstart'⟩

theorem scan_last_iff (h : info.Valid) (hle : addrFirst ≤ addrLast) {last : ℕ} :
  (info.scan addrFirst addrLast info.sectorCount).2 = some last
    ↔ last < info.sectorCount ∧ addrLast = info.lastOf last
  := by
  rw [scan_eq h hle le_rfl]
  apply pick_eq_some_iff
  rintro i j hi hj rfl heq
  have hstart := h.startOf_le_lastOf hi
  have hstart' := h.startOf_le_lastOf hj
  rw [← heq] at hstart'
  exact h.eq_of_mem hi hj ⟨hstart, le_rfl⟩ ⟨hstart', by rw [heq]⟩

theorem scan_first_eq_none (h : info.Valid) (hle : addrFirst ≤ addrLast)
    (hne : ∀ i < info.sectorCount, addrFirst ≠ info.startOf i) :
  (info.scan addrFirst addrLast info.sectorCount).1 = none
  := by
  rw [Option.eq_none_iff_forall_not_mem]
  intro i hi
  have hi' := (scan_first_iff h hle).mp hi
  exact hne i hi'.1 hi'.2

theorem scan_last_eq_none (h : info.Valid) (hle : addrFirst ≤ addrLast)
    (hne : ∀ i < info.sectorCount, addrLast ≠ info.lastOf i) :
  (info.scan addrFirst addrLast info.sectorCount).2 = none
  := by
  rw [Option.eq_none_iff_forall_not_mem]
  intro i hi
  have hi' := (scan_last_iff h hle).mp hi
  exact hne i hi'.1 hi'.2

/-- An address behind the bank is not the end of a sector. -/
theorem Info.Valid.ne_lastOf (h : info.Valid) {a : Word} (ha : info.bEnd < a) :
  ∀ i < info.sectorCount, a ≠ info.lastOf i
  := by
  rintro i hi rfl
  have hbEnd := h.toNat_bEnd
  have hlast := h.toNat_lastOf hi
  have hle := h.sectorEnd_le hi
  rw [BitVec.lt_def] at ha
  omega

end Scan

/-! ### What is selected -/

/-- The address is in a sector that is selected. -/
def Selected : List Info → List (Option ℕ × Option ℕ) → ℕ → Prop
  | info :: banks, sect :: sects, x =>
    (∃ first last, sect = (some first, some last) ∧ ∃ i, first ≤ i ∧ i ≤ last
        ∧ (info.startOf i).toNat ≤ x ∧ x ≤ (info.lastOf i).toNat)
      ∨ Selected banks sects x
  | _, _, _ => False

/-- The number of selected sectors of a bank. -/
def sectCount : Option ℕ × Option ℕ → ℕ
  | (some first, some last) => last - first + 1
  | _ => 0

/-- The number of selected sectors. -/
def numSects (sects : List (Option ℕ × Option ℕ)) : ℕ := (sects.map sectCount).sum

theorem numSects_cons (sect : Option ℕ × Option ℕ) (sects : List (Option ℕ × Option ℕ)) :
  numSects (sect :: sects) = sectCount sect + numSects sects
  := rfl

/-- The address is the last one of a sector of a known bank. -/
def SectorEnd (banks : List Info) (a : Word) : Prop :=
  ∃ info ∈ banks, info.flashId ≠ flashUnknown ∧ ∃ i < info.sectorCount, info.lastOf i = a

theorem selected_none_cons (info : Info) (banks : List Info) (last : Option ℕ)
    (sects : List (Option ℕ × Option ℕ)) (x : ℕ) :
  Selected (info :: banks) ((none, last) :: sects) x ↔ Selected banks sects x
  := by
  rw [Selected]
  constructor
  · rintro (⟨first, last, heq, -⟩ | h)
    · cases heq
    · exact h
  · exact .inr

theorem selected_some_cons {info : Info} (h : info.Valid) (banks : List Info) {first last : ℕ}
    (hle : first ≤ last) (hlast : last < info.sectorCount)
    (sects : List (Option ℕ × Option ℕ)) (x : ℕ) :
  Selected (info :: banks) ((some first, some last) :: sects) x
    ↔ ((info.startOf first).toNat ≤ x ∧ x ≤ (info.lastOf last).toNat) ∨ Selected banks sects x
  := by
  rw [Selected, ← h.exists_sector_iff hle hlast]
  constructor
  · rintro (⟨first, last, heq, hx⟩ | hx)
    · cases heq
      exact .inl hx
    · exact .inr hx
  · rintro (hx | hx)
    · exact .inl ⟨first, last, rfl, hx⟩
    · exact .inr hx

theorem not_selected_stop (banks : List Info) (count rcode x : ℕ) :
  ¬ Selected banks (Ranges.stop banks count rcode).sects x
  := by
  induction banks with
  | nil => exact not_false
  | cons info banks ih => exact fun h => ih ((selected_none_cons info banks none _ x).mp h)

theorem numSects_stop (banks : List Info) (count rcode : ℕ) :
  numSects (Ranges.stop banks count rcode).sects = 0
  := by
  induction banks with
  | nil => rfl
  | cons info banks ih =>
    have hcons : numSects (Ranges.stop (info :: banks) count rcode).sects
        = 0 + numSects (Ranges.stop banks count rcode).sects := rfl
    rw [hcons, ih]

/-! ### The loop over the banks -/

section Fill

variable {info : Info} {banks : List Info} {addrFirst addrLast : Word} {count : ℕ}

theorem fill_of_lt (h : addrLast < addrFirst) (banks : List Info) (count : ℕ) :
  fill addrLast banks addrFirst count = Ranges.stop banks count 0
  := by
  cases banks with
  | nil => rfl
  | cons info banks => exact if_neg (BitVec.not_le.mpr h)

theorem fill_of_unknown (h : info.flashId = flashUnknown) (hle : addrFirst ≤ addrLast)
    (banks : List Info) (count : ℕ) :
  fill addrLast (info :: banks) addrFirst count
    = (fill addrLast banks addrFirst count).cons (none, none)
  := (if_pos hle).trans (if_pos h)

/-- The range begins with a sector of the bank, and it ends with one or goes on behind the bank. -/
theorem fill_of_first (h : info.Valid) (hle : addrFirst ≤ addrLast) (banks : List Info) (count : ℕ)
    {first last : ℕ} (hfirst : first < info.sectorCount) (hstart : addrFirst = info.startOf first)
    (hlast : last < info.sectorCount)
    (hend : addrLast = info.lastOf last ∨ last = info.sectorCount - 1 ∧ info.bEnd < addrLast) :
  first ≤ last ∧ fill addrLast (info :: banks) addrFirst count
    = (fill addrLast banks (info.next last) (count + (last - first + 1))).cons
        (some first, some last)
  := by
  have hscan := (scan_first_iff h hle).mpr ⟨hfirst, hstart⟩
  have hscanlast : ((info.scan addrFirst addrLast info.sectorCount).2
      <|> if addrLast > info.bEnd then some (info.sectorCount - 1) else none) = some last := by
    obtain hend | ⟨hlast', hend⟩ := hend
    · rw [(scan_last_iff h hle).mpr ⟨hlast, hend⟩]
      rfl
    · rw [scan_last_eq_none h hle (h.ne_lastOf hend), if_pos hend, hlast']
      rfl
  have horder : first ≤ last := by
    obtain rfl | ⟨rfl, -⟩ := hend
    · by_contra hlt
      have hbefore := h.lastOf_lt_startOf (not_le.mp hlt) hfirst
      rw [hstart, BitVec.le_def] at hle
      omega
    · omega
  refine ⟨horder, ?_⟩
  refine (if_pos hle).trans ((if_neg h.known).trans ?_)
  dsimp only
  rw [hscan]
  dsimp only
  rw [hscanlast]
  dsimp only
  rw [if_neg (not_lt.mpr horder)]

/-- The bank has nothing to do with the ends of the range. -/
theorem fill_of_none (h : info.Valid) (hle : addrFirst ≤ addrLast) (banks : List Info) (count : ℕ)
    (hfirst : ∀ i < info.sectorCount, addrFirst ≠ info.startOf i)
    (hlast : ∀ i < info.sectorCount, addrLast ≠ info.lastOf i)
    (hinside : ¬ (addrFirst ≥ info.startOf 0 ∧ addrFirst < info.bEnd)) :
  fill addrLast (info :: banks) addrFirst count
    = (fill addrLast banks addrFirst count).cons (none, none)
  := by
  refine (if_pos hle).trans ((if_neg h.known).trans ?_)
  dsimp only
  rw [scan_first_eq_none h hle hfirst]
  dsimp only
  rw [if_neg hinside, scan_last_eq_none h hle hlast]
  rfl

/-- What the loop does in a bank if there is no error. -/
theorem fill_cases (h : info.Valid) (hle : addrFirst ≤ addrLast)
    (hok : (fill addrLast (info :: banks) addrFirst count).rcode = 0) :
  (∃ first last, first < info.sectorCount ∧ addrFirst = info.startOf first
      ∧ last < info.sectorCount
      ∧ (addrLast = info.lastOf last ∨ last = info.sectorCount - 1 ∧ info.bEnd < addrLast))
    ∨ (∀ i < info.sectorCount, addrFirst ≠ info.startOf i)
      ∧ (∀ i < info.sectorCount, addrLast ≠ info.lastOf i)
      ∧ ¬ (addrFirst ≥ info.startOf 0 ∧ addrFirst < info.bEnd)
  := by
  rw [fill, if_pos hle, if_neg h.known] at hok
  dsimp only at hok
  cases hfirst : (info.scan addrFirst addrLast info.sectorCount).1 with
  | some first =>
    obtain ⟨hlt, hstart⟩ := (scan_first_iff h hle).mp hfirst
    left
    cases hlast : (info.scan addrFirst addrLast info.sectorCount).2 with
    | some last =>
      obtain ⟨hltlast, hend⟩ := (scan_last_iff h hle).mp hlast
      exact ⟨first, last, hlt, hstart, hltlast, .inl hend⟩
    | none =>
      by_cases hbehind : info.bEnd < addrLast
      · exact ⟨first, _, hlt, hstart, by omega, .inr ⟨rfl, hbehind⟩⟩
      · rw [hfirst] at hok
        dsimp only at hok
        rw [hlast, if_neg hbehind] at hok
        cases hok
  | none =>
    right
    rw [hfirst] at hok
    dsimp only at hok
    by_cases hinside : addrFirst ≥ info.startOf 0 ∧ addrFirst < info.bEnd
    · rw [if_pos hinside] at hok
      cases hok
    · cases hlast : (info.scan addrFirst addrLast info.sectorCount).2 with
      | some last =>
        rw [if_neg hinside, hlast] at hok
        cases hok
      | none =>
        refine ⟨?_, ?_, hinside⟩
        · intro i hi heq
          rw [(scan_first_iff h hle).mpr ⟨hi, heq⟩] at hfirst
          cases hfirst
        · intro i hi heq
          rw [(scan_last_iff h hle).mpr ⟨hi, heq⟩] at hlast
          cases hlast

end Fill

/-! ### No other address is selected -/

section Exact

variable {banks : List Info} {addrFirst addrLast : Word}

/-- The known banks are valid. -/
def AllValid (banks : List Info) : Prop :=
  ∀ info ∈ banks, info.flashId ≠ flashUnknown → info.Valid

theorem AllValid.tail {info : Info} (h : AllValid (info :: banks)) :
  AllValid banks
  := fun b hb => h b (List.mem_cons_of_mem _ hb)

/-- `s_count` is the number of the selected sectors. -/
theorem count_fill (hvalid : AllValid banks) (addrFirst : Word) (count : ℕ)
    (hok : (fill addrLast banks addrFirst count).rcode = 0) :
  (fill addrLast banks addrFirst count).count
    = count + numSects (fill addrLast banks addrFirst count).sects
  := by
  induction banks generalizing addrFirst count with
  | nil => rfl
  | cons info banks ih =>
    by_cases hle : addrFirst ≤ addrLast
    case neg =>
      rw [fill_of_lt (BitVec.not_le.mp hle), numSects_stop]
      rfl
    by_cases hunknown : info.flashId = flashUnknown
    · rw [fill_of_unknown hunknown hle] at hok ⊢
      rw [Ranges.cons, numSects_cons, show sectCount (none, none) = 0 from rfl, Nat.zero_add]
      exact ih hvalid.tail addrFirst count hok
    have h := hvalid info List.mem_cons_self hunknown
    obtain ⟨first, last, hfirst, hstart, hlast, hend⟩ | ⟨hfirst, hlast, hinside⟩ :=
      fill_cases h hle hok
    · obtain ⟨horder, hfill⟩ := fill_of_first h hle banks count hfirst hstart hlast hend
      rw [hfill] at hok ⊢
      have hrest := ih hvalid.tail _ _ hok
      rw [Ranges.cons, numSects_cons, hrest]
      exact Nat.add_assoc _ _ _
    · rw [fill_of_none h hle banks count hfirst hlast hinside] at hok ⊢
      rw [Ranges.cons, numSects_cons, show sectCount (none, none) = 0 from rfl, Nat.zero_add]
      exact ih hvalid.tail addrFirst count hok

/-- Behind the top of the address space, nothing is found. -/
theorem not_selected_zero (hvalid : AllValid banks)
    (hzero : ∀ info ∈ banks, info.flashId ≠ flashUnknown → info.startOf 0 ≠ 0) (count x : ℕ)
    (hok : (fill addrLast banks 0 count).rcode = 0) :
  ¬ Selected banks (fill addrLast banks 0 count).sects x
  := by
  induction banks generalizing count with
  | nil => exact not_false
  | cons info banks ih =>
    have hle : 0 ≤ addrLast := BitVec.le_def.mpr (Nat.zero_le _)
    have htail : ∀ b ∈ banks, b.flashId ≠ flashUnknown → b.startOf 0 ≠ 0 :=
      fun b hb => hzero b (List.mem_cons_of_mem _ hb)
    by_cases hunknown : info.flashId = flashUnknown
    · rw [fill_of_unknown hunknown hle] at hok ⊢
      rw [Ranges.cons, selected_none_cons]
      exact ih hvalid.tail htail count hok
    have h := hvalid info List.mem_cons_self hunknown
    obtain ⟨first, last, hfirst, hstart, hlast, hend⟩ | ⟨hfirst, hlast, hinside⟩ :=
      fill_cases h hle hok
    · have hlo := h.lo_le_startOf hfirst
      rw [← hstart, Info.lo] at hlo
      have hstartOf : info.startOf 0 = 0 := BitVec.eq_of_toNat_eq (Nat.le_zero.mp hlo)
      exact absurd hstartOf (hzero info List.mem_cons_self hunknown)
    · rw [fill_of_none h hle banks count hfirst hlast hinside] at hok ⊢
      rw [Ranges.cons, selected_none_cons]
      exact ih hvalid.tail htail count hok

theorem SectorEnd.tail {info : Info} (h : SectorEnd (info :: banks) addrLast)
    (hne : info.flashId ≠ flashUnknown → ∀ i < info.sectorCount, addrLast ≠ info.lastOf i) :
  SectorEnd banks addrLast
  := by
  obtain ⟨b, hb, hknown, i, hi, heq⟩ := h
  obtain rfl | hb := List.mem_cons.mp hb
  · exact absurd heq.symm (hne hknown i hi)
  · exact ⟨b, hb, hknown, i, hi, heq⟩

theorem selected_fill_iff (hvalid : AllValid banks) (hle : addrFirst ≤ addrLast)
    (hend : SectorEnd banks addrLast)
    (hzero : addrLast = BitVec.allOnes 32 →
      ∀ info ∈ banks, info.flashId ≠ flashUnknown → info.startOf 0 ≠ 0) (count x : ℕ)
    (hok : (fill addrLast banks addrFirst count).rcode = 0) :
  Selected banks (fill addrLast banks addrFirst count).sects x
    ↔ addrFirst.toNat ≤ x ∧ x ≤ addrLast.toNat
  := by
  induction banks generalizing addrFirst count with
  | nil =>
    obtain ⟨b, hb, -⟩ := hend
    cases hb
  | cons info banks ih =>
    have htail (htop : addrLast = BitVec.allOnes 32) :
        ∀ b ∈ banks, b.flashId ≠ flashUnknown → b.startOf 0 ≠ 0 :=
      fun b hb => hzero htop b (List.mem_cons_of_mem _ hb)
    by_cases hunknown : info.flashId = flashUnknown
    · rw [fill_of_unknown hunknown hle] at hok ⊢
      rw [Ranges.cons, selected_none_cons]
      exact ih hvalid.tail hle (hend.tail fun hknown => absurd hunknown hknown) htail count hok
    have h := hvalid info List.mem_cons_self hunknown
    obtain ⟨first, last, hfirst, hstart, hlast, hlastend⟩ | ⟨hfirst, hlast, hinside⟩ :=
      fill_cases h hle hok
    · obtain ⟨horder, hfill⟩ := fill_of_first h hle banks count hfirst hstart hlast hlastend
      have hnext := h.toNat_next hlast
      have hlastOf := h.toNat_lastOf hlast
      rw [hfill] at hok ⊢
      rw [Ranges.cons, selected_some_cons h banks horder hlast, ← hstart]
      obtain hmatch | ⟨rfl, hbehind⟩ := hlastend
      · rw [← hmatch] at hlastOf ⊢
        apply or_iff_left
        by_cases htop : addrLast = BitVec.allOnes 32
        · have hwrap : info.next last = 0 := by
            apply BitVec.eq_of_toNat_eq
            rw [hnext, ← hlastOf, htop]
            rfl
          rw [hwrap] at hok ⊢
          exact not_selected_zero hvalid.tail (htail htop) _ x hok
        · have htoNat : addrLast.toNat ≠ 2 ^ 32 - 1 := fun heq => htop (BitVec.eq_of_toNat_eq heq)
          have hlt := addrLast.isLt
          have hbehind : addrLast < info.next last := by
            rw [BitVec.lt_def, hnext, ← hlastOf, Nat.mod_eq_of_lt (by omega)]
            exact Nat.lt_add_one _
          rw [fill_of_lt hbehind]
          apply not_selected_stop
      · have hhi : info.sectorEnd (info.sectorCount - 1) = info.hi := by
          rw [Info.sectorEnd, if_pos (by omega)]
        have hbEnd := h.toNat_bEnd
        have hinside := h.inside first hfirst
        rw [BitVec.lt_def] at hbehind
        rw [hhi] at hnext hlastOf
        rw [Nat.mod_eq_of_lt (by omega)] at hnext
        have hnextle : info.next (info.sectorCount - 1) ≤ addrLast := by
          rw [BitVec.le_def]
          omega
        have hrest := ih hvalid.tail hnextle (hend.tail fun _ => h.ne_lastOf hbehind) htail _ hok
        rw [hrest, hnext]
        rw [← hstart] at hinside
        omega
    · rw [fill_of_none h hle banks count hfirst hlast hinside] at hok ⊢
      rw [Ranges.cons, selected_none_cons]
      exact ih hvalid.tail hle (hend.tail fun _ => hlast) htail count hok

end Exact

/-! ### Ranges of whole sectors -/

/-- The range from `a` to `b` is a union of consecutive sectors of known banks, which are adjacent
and in ascending order. -/
inductive Whole : List Info → ℕ → ℕ → Prop where
  | last {info : Info} {first last : ℕ} (hknown : info.flashId ≠ flashUnknown) (hle : first ≤ last)
    (hlast : last < info.sectorCount) (banks : List Info) :
    Whole (info :: banks) (info.startOf first).toNat (info.lastOf last).toNat
  | next {info : Info} {banks : List Info} {first b : ℕ} (hknown : info.flashId ≠ flashUnknown)
    (hfirst : first < info.sectorCount) (rest : Whole banks info.hi b) :
    Whole (info :: banks) (info.startOf first).toNat b
  | skip {banks : List Info} {a b : ℕ} (info : Info) (rest : Whole banks a b) :
    Whole (info :: banks) a b

/-- The known banks are disjoint. -/
def Apart (banks : List Info) : Prop :=
  banks.Pairwise fun b c => b.flashId ≠ flashUnknown → c.flashId ≠ flashUnknown →
    b.hi ≤ c.lo ∨ c.hi ≤ b.lo

section Accepted

variable {banks : List Info} {addrFirst addrLast : Word}

theorem Apart.disjoint {b c : Info} (h : Apart banks) (hb : b ∈ banks) (hc : c ∈ banks)
    (hne : b ≠ c) (hbknown : b.flashId ≠ flashUnknown) (hcknown : c.flashId ≠ flashUnknown) :
  b.hi ≤ c.lo ∨ c.hi ≤ b.lo
  := by
  induction banks with
  | nil => cases hb
  | cons info banks ih =>
    obtain rfl | hb' := List.mem_cons.mp hb
    · obtain rfl | hc' := List.mem_cons.mp hc
      · exact absurd rfl hne
      · exact List.rel_of_pairwise_cons h hc' hbknown hcknown
    · obtain rfl | hc' := List.mem_cons.mp hc
      · exact (List.rel_of_pairwise_cons h hb' hcknown hbknown).symm
      · exact ih h.of_cons hb' hc'

theorem Whole.le {a b : ℕ} (h : Whole banks a b) (hvalid : AllValid banks) :
  a ≤ b
  := by
  induction h with
  | @last info first last hknown hle hlast banks =>
    have hinfo := hvalid info List.mem_cons_self hknown
    have hsector := (hinfo.exists_sector_iff hle hlast).mp
      ⟨first, le_rfl, hle, le_rfl, hinfo.startOf_le_lastOf (by omega)⟩
    omega
  | @next info banks first b hknown hfirst rest ih =>
    have hinfo := hvalid info List.mem_cons_self hknown
    have hinside := hinfo.inside first hfirst
    have hle := ih hvalid.tail
    omega
  | skip info rest ih => exact ih hvalid.tail

/-- An address of the range is in a sector that ends in the range. -/
theorem Whole.exists_sector {a b x : ℕ} (h : Whole banks a b) (hvalid : AllValid banks)
    (hax : a ≤ x) (hxb : x ≤ b) :
  ∃ info ∈ banks, info.flashId ≠ flashUnknown ∧ ∃ i < info.sectorCount,
    (info.startOf i).toNat ≤ x ∧ x ≤ (info.lastOf i).toNat ∧ (info.lastOf i).toNat ≤ b
  := by
  induction h with
  | @last info first last hknown hle hlast banks =>
    have hinfo := hvalid info List.mem_cons_self hknown
    obtain ⟨i, -, hi, hx⟩ := (hinfo.exists_sector_iff hle hlast).mpr ⟨hax, hxb⟩
    refine ⟨info, List.mem_cons_self, hknown, i, by omega, hx.1, hx.2, ?_⟩
    obtain rfl | hlt := Nat.eq_or_lt_of_le hi
    · exact le_rfl
    · exact (hinfo.lastOf_lt_startOf hlt hlast).le.trans (hinfo.startOf_le_lastOf hlast)
  | @next info banks first b hknown hfirst rest ih =>
    by_cases hx : x < info.hi
    · have hinfo := hvalid info List.mem_cons_self hknown
      have hpos := hinfo.sectorCount_pos
      have hend := hinfo.toNat_lastOf (show info.sectorCount - 1 < info.sectorCount by omega)
      rw [Info.sectorEnd, if_pos (by omega)] at hend
      have hxend : x ≤ (info.lastOf (info.sectorCount - 1)).toNat := by omega
      have horder : first ≤ info.sectorCount - 1 := by omega
      obtain ⟨i, -, hi, hxi⟩ := (hinfo.exists_sector_iff horder (by omega)).mpr ⟨hax, hxend⟩
      have hlast := hinfo.toNat_lastOf (show i < info.sectorCount by omega)
      have hle := hinfo.sectorEnd_le (show i < info.sectorCount by omega)
      have hrest := rest.le hvalid.tail
      exact ⟨info, List.mem_cons_self, hknown, i, by omega, hxi.1, hxi.2, by omega⟩
    · obtain ⟨b, hb, hsector⟩ := ih hvalid.tail (by omega) hxb
      exact ⟨b, List.mem_cons_of_mem _ hb, hsector⟩
  | skip info rest ih =>
    obtain ⟨b, hb, hsector⟩ := ih hvalid.tail hax hxb
    exact ⟨b, List.mem_cons_of_mem _ hb, hsector⟩

/-- The range begins with a sector. -/
theorem Whole.exists_start {a b : ℕ} (h : Whole banks a b) :
  ∃ info ∈ banks, ∃ i < info.sectorCount, (info.startOf i).toNat = a
  := by
  induction h with
  | @last info first last hknown hle hlast banks =>
    exact ⟨info, List.mem_cons_self, first, by omega, rfl⟩
  | @next info banks first b hknown hfirst rest ih =>
    exact ⟨info, List.mem_cons_self, first, hfirst, rfl⟩
  | skip info rest ih =>
    obtain ⟨info', hinfo', hstart⟩ := ih
    exact ⟨info', List.mem_cons_of_mem _ hinfo', hstart⟩

/-- Both ends of the range are in known banks. -/
theorem Whole.exists_mem {a b x : ℕ} (h : Whole banks a b) (hvalid : AllValid banks)
    (hax : a ≤ x) (hxb : x ≤ b) :
  ∃ info ∈ banks, info.flashId ≠ flashUnknown ∧ info.lo ≤ x ∧ x < info.hi
  := by
  obtain ⟨info, hmem, hknown, i, hi, hstart, hlast, -⟩ := h.exists_sector hvalid hax hxb
  exact ⟨info, hmem, hknown, (hvalid info hmem hknown).lo_le_of_mem hi ⟨hstart, hlast⟩⟩

/-- A bank that has neither end of the range is passed over. -/
theorem fill_of_outside {info : Info} (h : info.Valid) (hle : addrFirst ≤ addrLast)
    (hfirst : ¬ (info.lo ≤ addrFirst.toNat ∧ addrFirst.toNat < info.hi))
    (hlast : ¬ (info.lo ≤ addrLast.toNat ∧ addrLast.toNat < info.hi)) (banks : List Info)
    (count : ℕ) :
  fill addrLast (info :: banks) addrFirst count
    = (fill addrLast banks addrFirst count).cons (none, none)
  := by
  apply fill_of_none h hle
  · rintro i hi rfl
    exact hfirst (h.lo_le_of_mem hi ⟨le_rfl, h.startOf_le_lastOf hi⟩)
  · rintro i hi rfl
    exact hlast (h.lo_le_of_mem hi ⟨h.startOf_le_lastOf hi, le_rfl⟩)
  · rintro ⟨hge, hlt⟩
    have hbEnd := h.toNat_bEnd
    rw [ge_iff_le, BitVec.le_def] at hge
    rw [BitVec.lt_def] at hlt
    exact hfirst ⟨hge, by omega⟩

/-- Nothing goes wrong if the range does not begin inside of a bank, and ends in none. -/
theorem rcode_fill (hvalid : AllValid banks) (hapart : Apart banks)
    (hfirst : ∀ info ∈ banks, info.flashId ≠ flashUnknown →
      info.lo ≤ addrFirst.toNat → addrFirst.toNat < info.hi → info.lo = addrFirst.toNat)
    (hlast : ∀ info ∈ banks, info.flashId ≠ flashUnknown →
      ¬ (info.lo ≤ addrLast.toNat ∧ addrLast.toNat < info.hi)) (count : ℕ) :
  (fill addrLast banks addrFirst count).rcode = 0
  := by
  induction banks generalizing addrFirst count with
  | nil => rfl
  | cons info banks ih =>
    by_cases hle : addrFirst ≤ addrLast
    case neg =>
      rw [fill_of_lt (BitVec.not_le.mp hle)]
      rfl
    have hlast' : ∀ b ∈ banks, b.flashId ≠ flashUnknown →
        ¬ (b.lo ≤ addrLast.toNat ∧ addrLast.toNat < b.hi) :=
      fun b hb => hlast b (List.mem_cons_of_mem _ hb)
    have hfirst' : ∀ b ∈ banks, b.flashId ≠ flashUnknown → b.lo ≤ addrFirst.toNat →
        addrFirst.toNat < b.hi → b.lo = addrFirst.toNat :=
      fun b hb => hfirst b (List.mem_cons_of_mem _ hb)
    by_cases hunknown : info.flashId = flashUnknown
    · rw [fill_of_unknown hunknown hle]
      exact ih hvalid.tail hapart.of_cons hfirst' hlast' count
    have h := hvalid info List.mem_cons_self hunknown
    have hnotlast := hlast info List.mem_cons_self hunknown
    by_cases hin : info.lo ≤ addrFirst.toNat ∧ addrFirst.toNat < info.hi
    · have hlo := hfirst info List.mem_cons_self hunknown hin.1 hin.2
      have hpos := h.sectorCount_pos
      have hbEnd := h.toNat_bEnd
      have hlt := addrLast.isLt
      rw [BitVec.le_def] at hle
      have hbehind : info.bEnd < addrLast := by
        rw [BitVec.lt_def]
        omega
      have hnext := h.toNat_next (show info.sectorCount - 1 < info.sectorCount by omega)
      rw [Info.sectorEnd, if_pos (by omega), Nat.mod_eq_of_lt (by omega)] at hnext
      rw [(fill_of_first h (BitVec.le_def.mpr hle) banks count hpos
        (BitVec.eq_of_toNat_eq hlo.symm) (by omega) (.inr ⟨rfl, hbehind⟩)).2]
      apply ih hvalid.tail hapart.of_cons _ hlast'
      intro b hb hknown hblo hbhi
      rw [hnext] at hblo hbhi ⊢
      have hdisj := List.rel_of_pairwise_cons hapart hb hunknown hknown
      omega
    · rw [fill_of_outside h hle hin hnotlast]
      exact ih hvalid.tail hapart.of_cons hfirst' hlast' count

theorem Whole.accepted {a b : ℕ} (h : Whole banks a b) (hvalid : AllValid banks)
    (hapart : Apart banks) (ha : addrFirst.toNat = a) (hb : addrLast.toNat = b) (count : ℕ) :
  (fill addrLast banks addrFirst count).rcode = 0
    ∧ count < (fill addrLast banks addrFirst count).count
  := by
  induction h generalizing addrFirst count with
  | @last info first last hknown hle hlast banks =>
    have hinfo := hvalid info List.mem_cons_self hknown
    obtain rfl := BitVec.eq_of_toNat_eq ha
    obtain rfl := BitVec.eq_of_toNat_eq hb
    have hrange := (Whole.last hknown hle hlast banks).le hvalid
    have hnext := hinfo.toNat_next hlast
    have hlastOf := hinfo.toNat_lastOf hlast
    obtain ⟨-, hfill⟩ := fill_of_first hinfo (BitVec.le_def.mpr hrange) banks count (by omega) rfl
      hlast (.inl rfl)
    have hok : (fill (info.lastOf last) (info :: banks) (info.startOf first) count).rcode = 0 := by
      rw [hfill]
      by_cases htop : (info.lastOf last).toNat + 1 = 2 ^ 32
      · -- the range goes on at address 0, where no bank has its end
        have hzero : (info.next last).toNat = 0 := by
          rw [hnext, ← hlastOf, htop]
          rfl
        apply rcode_fill hvalid.tail hapart.of_cons
        · intro b _ _ hlo _
          omega
        · intro b hb hbknown hin
          have hdisj := List.rel_of_pairwise_cons hapart hb hknown hbknown
          have hmem := hinfo.lo_le_of_mem hlast ⟨hinfo.startOf_le_lastOf hlast, le_rfl⟩
          omega
      · have hlt := (info.lastOf last).isLt
        have hbehind : info.lastOf last < info.next last := by
          rw [BitVec.lt_def, hnext, ← hlastOf, Nat.mod_eq_of_lt (by omega)]
          exact Nat.lt_add_one _
        rw [fill_of_lt hbehind]
        rfl
    refine ⟨hok, ?_⟩
    rw [hfill] at hok ⊢
    have hcount := count_fill hvalid.tail (info.next last) (count + (last - first + 1)) hok
    rw [Ranges.cons, hcount]
    omega
  | @next info banks first b hknown hfirst rest ih =>
    have hinfo := hvalid info List.mem_cons_self hknown
    have hpos := hinfo.sectorCount_pos
    have hbEnd := hinfo.toNat_bEnd
    have hinside := hinfo.inside first hfirst
    have hrest := rest.le hvalid.tail
    have hlt := addrLast.isLt
    have hle : addrFirst ≤ addrLast := by
      rw [BitVec.le_def]
      omega
    have hbehind : info.bEnd < addrLast := by
      rw [BitVec.lt_def]
      omega
    have hnext := hinfo.toNat_next (show info.sectorCount - 1 < info.sectorCount by omega)
    rw [Info.sectorEnd, if_pos (by omega), Nat.mod_eq_of_lt (by omega)] at hnext
    rw [(fill_of_first hinfo hle banks count hfirst (BitVec.eq_of_toNat_eq ha) (by omega)
      (.inr ⟨rfl, hbehind⟩)).2]
    obtain ⟨hok, hcount⟩ := ih hvalid.tail hapart.of_cons hnext hb
      (count + (info.sectorCount - 1 - first + 1))
    exact ⟨hok, (Nat.lt_add_of_pos_right (Nat.succ_pos _)).trans hcount⟩
  | @skip banks a b info rest ih =>
    have hle : addrFirst ≤ addrLast := by
      rw [BitVec.le_def, ha, hb]
      exact rest.le hvalid.tail
    by_cases hunknown : info.flashId = flashUnknown
    · rw [fill_of_unknown hunknown hle]
      exact ih hvalid.tail hapart.of_cons ha hb count
    have hinfo := hvalid info List.mem_cons_self hunknown
    have houtside {x : ℕ} (hax : a ≤ x) (hxb : x ≤ b) : ¬ (info.lo ≤ x ∧ x < info.hi) := by
      obtain ⟨c, hc, hknown, hmem⟩ := rest.exists_mem hvalid.tail hax hxb
      have hdisj := List.rel_of_pairwise_cons hapart hc hunknown hknown
      omega
    rw [BitVec.le_def] at hle
    rw [fill_of_outside hinfo (BitVec.le_def.mpr hle) (houtside (by omega) (by omega))
      (houtside (by omega) (by omega))]
    exact ih hvalid.tail hapart.of_cons ha hb count

end Accepted

/-! ### The arguments of a command -/

section AddrSpec

variable {banks : List Info} {addr e : Word}

/-- The sector of a bank, known or not, that has the address. -/
theorem flashSectRoundb_some (h : flashSectRoundb banks addr = some e) :
  ∃ info ∈ banks, ∃ i < info.sectorCount,
    info.startOf i ≤ addr ∧ addr ≤ info.lastOf i ∧ info.lastOf i = e
  := by
  induction banks with
  | nil => cases h
  | cons info banks ih =>
    rw [flashSectRoundb] at h
    cases hsector : info.sectorAt addr with
    | some i =>
      rw [hsector] at h
      rw [Info.sectorAt] at hsector
      have hi := List.mem_range.mp (List.mem_of_find?_eq_some hsector)
      have hfound := List.find?_some hsector
      rw [decide_eq_true_eq] at hfound
      exact ⟨info, List.mem_cons_self, i, hi, hfound.2, hfound.1, Option.some_inj.mp h⟩
    | none =>
      rw [hsector] at h
      obtain ⟨b, hb, hfound⟩ := ih h
      exact ⟨b, List.mem_cons_of_mem _ hb, hfound⟩

theorem flashSectRoundb_none (h : flashSectRoundb banks addr = none) :
  ∀ info ∈ banks, ∀ i < info.sectorCount, ¬ (info.startOf i ≤ addr ∧ addr ≤ info.lastOf i)
  := by
  induction banks with
  | nil => nofun
  | cons info banks ih =>
    rw [flashSectRoundb] at h
    cases hsector : info.sectorAt addr with
    | some i =>
      rw [hsector] at h
      cases h
    | none =>
      rw [hsector] at h
      intro b hb i hi hin
      obtain rfl | hb := List.mem_cons.mp hb
      · have hnot := List.find?_eq_none.mp hsector i (List.mem_range.mpr hi)
        exact hnot (decide_eq_true ⟨hin.2, hin.1⟩)
      · exact ih h b hb i hi hin

/-- A range of whole sectors that has the address has the end of its sector too. -/
theorem Whole.lastOf_le {a b : ℕ} (h : Whole banks a b) (hvalid : AllValid banks)
    (hapart : Apart banks) {info : Info} (hinfo : info ∈ banks)
    (hknown : info.flashId ≠ flashUnknown) {i : ℕ} (hi : i < info.sectorCount)
    (hstart : info.startOf i ≤ addr) (hlast : addr ≤ info.lastOf i) (ha : a ≤ addr.toNat)
    (hb : addr.toNat ≤ b) :
  (info.lastOf i).toNat ≤ b
  := by
  obtain ⟨c, hc, hcknown, j, hj, hcstart, hclast, hle⟩ := h.exists_sector hvalid ha hb
  have hvalidinfo := hvalid info hinfo hknown
  have hvalidc := hvalid c hc hcknown
  rw [BitVec.le_def] at hstart hlast
  have hmem := hvalidinfo.lo_le_of_mem hi ⟨hstart, hlast⟩
  have hcmem := hvalidc.lo_le_of_mem hj ⟨hcstart, hclast⟩
  have heq : info = c := by
    by_contra hne
    have hdisj := hapart.disjoint hinfo hc hne hknown hcknown
    omega
  subst heq
  rwa [hvalidinfo.eq_of_mem hi hj ⟨hstart, hlast⟩ ⟨hcstart, hclast⟩]

/-- The form with a length: the start is left as it is, and the last address of the range is moved
to the end of its sector. -/
theorem addrSpec_length {arg1 arg2 : List Byte} {start length : Word}
    (hstart : hexArg arg1 = some start) (hplus : arg2.head? = some 43)
    (hlength : hexArg arg2.tail = some length) :
  addrSpec banks arg1 arg2
    = (flashSectRoundb banks (start + length - 1)).map fun addrLast => (start, addrLast)
  := by
  rw [addrSpec, hstart, Option.bind_eq_bind, Option.bind_some, if_pos hplus, hlength,
    Option.bind_some]
  cases flashSectRoundb banks (start + length - 1) <;> rfl

end AddrSpec

/-- A range that ends with a sector, and does not go on at the bottom of the address space, is
selected as it is if there is no error; there is none for whole sectors of adjacent banks.  A start
with a length gives the smallest end of a sector that is not before the last byte. -/
theorem flash_ranges (banks : List Info) (hvalid : AllValid banks) (hapart : Apart banks) :
  (∀ addrFirst addrLast : Word, addrFirst ≤ addrLast → SectorEnd banks addrLast →
      (addrLast = BitVec.allOnes 32 →
        ∀ info ∈ banks, info.flashId ≠ flashUnknown → info.startOf 0 ≠ 0) →
      (flashFillSectRanges banks addrFirst addrLast).rcode = 0 →
      (∀ x, Selected banks (flashFillSectRanges banks addrFirst addrLast).sects x
          ↔ addrFirst.toNat ≤ x ∧ x ≤ addrLast.toNat)
        ∧ (flashFillSectRanges banks addrFirst addrLast).count
          = numSects (flashFillSectRanges banks addrFirst addrLast).sects)
    ∧ (∀ addrFirst addrLast : Word, Whole banks addrFirst.toNat addrLast.toNat →
      (flashFillSectRanges banks addrFirst addrLast).rcode = 0
        ∧ 0 < (flashFillSectRanges banks addrFirst addrLast).count)
    ∧ ∀ (arg1 arg2 : List Byte) (start length : Word), hexArg arg1 = some start →
      arg2.head? = some 43 → hexArg arg2.tail = some length → 0 < length.toNat →
      start.toNat + length.toNat ≤ 2 ^ 32 →
      (addrSpec banks arg1 arg2 = none → ∀ info ∈ banks, ∀ i < info.sectorCount,
          ¬ (info.startOf i ≤ start + length - 1 ∧ start + length - 1 ≤ info.lastOf i))
        ∧ ∀ first last, addrSpec banks arg1 arg2 = some (first, last) →
          first = start ∧ ∃ info ∈ banks, ∃ i < info.sectorCount,
            info.startOf i ≤ start + length - 1 ∧ start + length - 1 ≤ info.lastOf i
              ∧ last = info.lastOf i
              ∧ (info.flashId ≠ flashUnknown → ∀ a b, Whole banks a b → a ≤ start.toNat →
                start.toNat + length.toNat ≤ b + 1 → last.toNat ≤ b)
  := by
  refine ⟨?_, ?_, ?_⟩
  · intro addrFirst addrLast hle hend hzero hok
    constructor
    · intro x
      exact selected_fill_iff hvalid hle hend hzero 0 x hok
    · have hcount := count_fill hvalid addrFirst 0 hok
      rw [Nat.zero_add] at hcount
      exact hcount
  · intro addrFirst addrLast hwhole
    exact hwhole.accepted hvalid hapart rfl rfl 0
  · intro arg1 arg2 start length hstart hplus hlength hpos hwrap
    have hne : length ≠ 0 := by
      rintro rfl
      exact absurd hpos (Nat.lt_irrefl 0)
    have hlast := toNat_last start hne
    rw [addrSpec_length hstart hplus hlength]
    constructor
    · intro hnone
      exact flashSectRoundb_none (Option.map_eq_none_iff.mp hnone)
    · intro first last hsome
      obtain ⟨e, he, heq⟩ := Option.map_eq_some_iff.mp hsome
      obtain ⟨rfl, rfl⟩ := Prod.mk.inj heq
      obtain ⟨info, hinfo, i, hi, hge, hle, rfl⟩ := flashSectRoundb_some he
      refine ⟨rfl, info, hinfo, i, hi, hge, hle, rfl, ?_⟩
      intro hknown a b hwhole ha hb
      exact hwhole.lastOf_le hvalid hapart hinfo hknown hi hge hle (by omega) (by omega)

/-- A bank of two sectors. -/
def twoSectors : Info where
  size := 0x20000
  flashId := 1
  start := [0xFE000000, 0xFE010000]
  protect := [false, false]

theorem allValid_twoSectors :
  AllValid [twoSectors]
  := by
  intro info hinfo _
  obtain rfl := List.mem_singleton.mp hinfo
  decide

theorem flash_ranges_twoSectors :
  (flashFillSectRanges [twoSectors] 0xFE010000 0xFE01FFFF).count
    = numSects (flashFillSectRanges [twoSectors] 0xFE010000 0xFE01FFFF).sects
  := by
  have hend : SectorEnd [twoSectors] 0xFE01FFFF :=
    ⟨twoSectors, List.mem_singleton_self _, by decide, 1, by decide, by decide⟩
  exact ((flash_ranges [twoSectors] allValid_twoSectors (List.pairwise_singleton _ _)).1
    0xFE010000 0xFE01FFFF (by decide) hend (fun h => absurd h (by decide)) (by decide)).2

/-- One byte inside of a sector: the start is left there. -/
theorem addrSpec_inside :
  addrSpec [twoSectors] (ascii "FE000001") (ascii "+1") = some (0xFE000001, 0xFE00FFFF)
    ∧ ¬ Whole [twoSectors] 0xFE000001 0xFE00FFFF
  := by
  constructor
  · decide +kernel
  · intro h
    obtain ⟨info, hinfo, i, hi, hstart⟩ := h.exists_start
    obtain rfl := List.mem_singleton.mp hinfo
    have hnone : ∀ i < 2, (twoSectors.startOf i).toNat ≠ 0xFE000001 := by decide
    exact hnone i hi hstart

/-- The range ends behind the only bank, and there is no error. -/
theorem not_selected_behind :
  (flashFillSectRanges [twoSectors] 0xFE000000 0xFE02FFFF).rcode = 0
    ∧ 0 < (flashFillSectRanges [twoSectors] 0xFE000000 0xFE02FFFF).count
    ∧ ¬ Selected [twoSectors] (flashFillSectRanges [twoSectors] 0xFE000000 0xFE02FFFF).sects
      0xFE020000
  := by
  have hvalid : twoSectors.Valid := by decide
  have hsects : (flashFillSectRanges [twoSectors] 0xFE000000 0xFE02FFFF).sects
      = [(some 0, some 1)] := by decide
  refine ⟨by decide, by decide, ?_⟩
  rw [hsects, selected_some_cons hvalid [] (by decide) (by decide)]
  rintro (⟨-, hle⟩ | h)
  · exact absurd hle (by decide)
  · exact h

end Flash
