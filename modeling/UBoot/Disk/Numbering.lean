import UBoot.Disk.PartDos

/-!
# The numbers of the partitions

The listing and the lookup number the partitions of a chain of tables in the same way.  The theorem
says that they agree on every partition, as long as its start and its size are less than 2 ^ 31: the
listing prints them as signed numbers.
-/

namespace PartDos

/-! ### Chains of tables -/

/-- The sectors with the tables that are reached from a sector, when each of them has at most one
extended partition. -/
inductive Chain (d : BlockDev) : Word → Word → List (Word × (ℕ → Byte)) → Prop where
  | unreadable {sector relative : Word} (hread : d.blockRead sector = none) :
      Chain d sector relative []
  | noTable {sector relative : Word} {buffer : ℕ → Byte} (hread : d.blockRead sector = some buffer)
      (hmagic : ¬ hasMagic buffer) :
      Chain d sector relative []
  | last {sector relative : Word} {buffer : ℕ → Byte} (hread : d.blockRead sector = some buffer)
      (hmagic : hasMagic buffer) (hext : (table buffer).filter (isExtended ·.sysInd) = []) :
      Chain d sector relative [(sector, buffer)]
  | next {sector relative : Word} {buffer : ℕ → Byte} {pt : DosPartition}
      {tables : List (Word × (ℕ → Byte))} (hread : d.blockRead sector = some buffer)
      (hmagic : hasMagic buffer) (hext : (table buffer).filter (isExtended ·.sysInd) = [pt])
      (hchain : Chain d (tableSector pt relative) (nextRelative sector pt relative) tables) :
      Chain d sector relative ((sector, buffer) :: tables)

/-- The flags of a table are good, and it does not look like a boot record. -/
def Plain (t : Word × (ℕ → Byte)) : Prop :=
  isPbr t.2 = false ∧ ∀ pt ∈ table t.2, pt.bootInd = 0 ∨ pt.bootInd = 0x80

/-- The starts and the sizes of the partitions of a table are less than 2 ^ 31. -/
def Small (t : Word × (ℕ → Byte)) : Prop :=
  ∀ pt ∈ table t.2, pt.sysInd ≠ 0 → ¬ isExtended pt.sysInd →
    (t.1 + pt.start4).toNat < 2 ^ 31 ∧ pt.size4.toNat < 2 ^ 31

/-- A partition that is not extended is printed. -/
def Printed (lines : List Line) (n start size : ℤ) : Prop :=
  ∃ sysInd, ¬ isExtended sysInd ∧ Line.part n start size sysInd ∈ lines

/-- A partition is found. -/
def Found (d : BlockDev) (n start size : ℤ) : Prop :=
  ∃ fuel info, getPartitionInfoDos d n fuel = some (some info)
    ∧ (info.start.toNat : ℤ) = start ∧ (info.size.toNat : ℤ) = size

/-- The numbers in a listing. -/
def printedNumbers (lines : List Line) : List ℤ :=
  lines.filterMap fun
    | .part n _ _ _ => some n
    | _ => none

/-- The listing and the lookup agree, and no number is printed twice. -/
def Agree (d : BlockDev) : Prop :=
  (∃ fuel lines, printPartDos d fuel = some lines
      ∧ (printedNumbers lines).Nodup
      ∧ ∀ n start size, Printed lines n start size ↔ Found d n start size)
    ∧ ∀ n, ∃ fuel, (getPartitionInfoDos d n fuel).isSome

/-! ### Numbers -/

/-- A partition with the sector of its table and its number. -/
structure Entry where
  sector : Word
  num : ℤ
  pt : DosPartition

/-- The numbers of the partitions of a table. -/
def numberTable (sector : Word) : ℤ → List DosPartition → List Entry
  | _, [] => []
  | n, pt :: pts => ⟨sector, n, pt⟩ :: numberTable sector (nextNum sector n pt) pts

/-- The numbers of the partitions of a chain. -/
def number : ℤ → List (Word × (ℕ → Byte)) → List Entry
  | _, [] => []
  | n, (sector, buffer) :: tables =>
    numberTable sector n (table buffer)
      ++ number (numAfter sector n (table buffer)) tables

/-- The line for a partition. -/
def Entry.line (e : Entry) : Option Line :=
  if isListed e.sector e.pt then some (printOnePart e.pt e.sector e.num) else none

/-- What is found for a partition. -/
def Entry.info (d : BlockDev) (e : Entry) : DiskPartition := partitionInfo d e.pt e.sector e.num

/-- The partition that a number stands for. -/
def Entry.isNumber (which : ℤ) (e : Entry) : Bool := isUsable e.pt ∧ e.num = which

variable {d : BlockDev} {sector relative : Word} {tables : List (Word × (ℕ → Byte))}

theorem isNumber_iff {which : ℤ} {e : Entry} :
  Entry.isNumber which e = true ↔ isUsable e.pt = true ∧ e.num = which
  := decide_eq_true_iff

theorem le_nextNum (sector : Word) (n : ℤ) (pt : DosPartition) :
  n ≤ nextNum sector n pt
  := by
  unfold nextNum
  split_ifs
  · omega
  · apply le_refl

theorem le_numAfter (sector : Word) (n : ℤ) (pts : List DosPartition) :
  n ≤ numAfter sector n pts
  := by
  induction pts generalizing n with
  | nil => apply le_refl
  | cons pt pts ih => apply le_trans (le_nextNum sector n pt) (ih _)

/-- The number behind a partition that counts is larger. -/
theorem lt_nextNum {n : ℤ} {pt : DosPartition} (h : counts sector pt) :
  n < nextNum sector n pt
  := by
  rw [nextNum, if_pos h]
  omega

/-- The numbers of a table are between the one before and the one behind it. -/
theorem num_numberTable {n : ℤ} {pts : List DosPartition} {e : Entry}
    (h : e ∈ numberTable sector n pts) :
  n ≤ e.num ∧ nextNum e.sector e.num e.pt ≤ numAfter sector n pts
    ∧ e.sector = sector ∧ e.pt ∈ pts
  := by
  induction pts generalizing n with
  | nil => cases h
  | cons pt pts ih =>
    rcases List.mem_cons.mp h with rfl | h
    · exact ⟨le_refl _, le_numAfter _ _ _, rfl, List.mem_cons_self⟩
    · obtain ⟨hle, hafter, hsector, hmem⟩ := ih h
      exact ⟨le_trans (le_nextNum _ _ _) hle, hafter, hsector, List.mem_cons_of_mem _ hmem⟩

theorem le_num_number {n : ℤ} {e : Entry} (h : e ∈ number n tables) :
  n ≤ e.num
  := by
  induction tables generalizing n with
  | nil => cases h
  | cons t tables ih =>
    rcases List.mem_append.mp h with h | h
    · apply (num_numberTable h).1
    · apply le_trans (le_numAfter _ _ _) (ih h)

/-- The partitions of a chain are the ones of its tables. -/
theorem exists_table_of_mem_number {n : ℤ} {e : Entry} (h : e ∈ number n tables) :
  ∃ t ∈ tables, e.sector = t.1 ∧ e.pt ∈ table t.2
  := by
  induction tables generalizing n with
  | nil => cases h
  | cons t tables ih =>
    rcases List.mem_append.mp h with h | h
    · obtain ⟨-, -, hsector, hmem⟩ := num_numberTable h
      exact ⟨t, List.mem_cons_self, hsector, hmem⟩
    · obtain ⟨t', ht', hrest⟩ := ih h
      exact ⟨t', List.mem_cons_of_mem _ ht', hrest⟩

theorem exists_mem_numberTable {pts : List DosPartition} {pt : DosPartition} (h : pt ∈ pts)
    (n : ℤ) :
  ∃ m, (⟨sector, m, pt⟩ : Entry) ∈ numberTable sector n pts
  := by
  induction pts generalizing n with
  | nil => cases h
  | cons pt' pts ih =>
    rcases List.mem_cons.mp h with rfl | h
    · exact ⟨n, List.mem_cons_self⟩
    · obtain ⟨m, hm⟩ := ih h (nextNum sector n pt')
      exact ⟨m, List.mem_cons_of_mem _ hm⟩

/-- Every partition of a table of the chain has a number. -/
theorem exists_mem_number {t : Word × (ℕ → Byte)} {pt : DosPartition} (ht : t ∈ tables)
    (hpt : pt ∈ table t.2) (n : ℤ) :
  ∃ m, (⟨t.1, m, pt⟩ : Entry) ∈ number n tables
  := by
  induction tables generalizing n with
  | nil => cases ht
  | cons t' tables ih =>
    rcases List.mem_cons.mp ht with rfl | ht
    · obtain ⟨m, hm⟩ := exists_mem_numberTable hpt n
      exact ⟨m, List.mem_append_left _ hm⟩
    · obtain ⟨m, hm⟩ := ih ht (numAfter t'.1 n (table t'.2))
      exact ⟨m, List.mem_append_right _ hm⟩

/-- A partition that counts has a smaller number than the ones behind it. -/
def Before (e e' : Entry) : Prop := counts e.sector e.pt → e.num < e'.num

theorem pairwise_numberTable (sector : Word) (n : ℤ) (pts : List DosPartition) :
  (numberTable sector n pts).Pairwise Before
  := by
  induction pts generalizing n with
  | nil => apply List.Pairwise.nil
  | cons pt pts ih =>
    apply List.Pairwise.cons _ (ih _)
    intro e he hcounts
    apply lt_of_lt_of_le (lt_nextNum hcounts) (num_numberTable he).1

theorem pairwise_number (n : ℤ) (tables : List (Word × (ℕ → Byte))) :
  (number n tables).Pairwise Before
  := by
  induction tables generalizing n with
  | nil => apply List.Pairwise.nil
  | cons t tables ih =>
    apply List.pairwise_append.mpr
    refine ⟨pairwise_numberTable _ _ _, ih _, ?_⟩
    intro e he e' he' hcounts
    obtain ⟨-, hafter, -⟩ := num_numberTable he
    have hle := le_num_number he'
    have hlt := lt_nextNum (n := e.num) hcounts
    omega

/-- Two partitions have different numbers, if both of them count. -/
def Differ (e e' : Entry) : Prop :=
  counts e.sector e.pt → counts e'.sector e'.pt → e.num ≠ e'.num

instance : Std.Symm Differ where
  symm _ _ h hcounts hcounts' := (h hcounts' hcounts).symm

theorem Before.differ {e e' : Entry} (h : Before e e') :
  Differ e e'
  := fun hcounts _ => ne_of_lt (h hcounts)

/-- Partitions that count have numbers of their own. -/
theorem eq_of_num_eq {n : ℤ} {e e' : Entry} (he : e ∈ number n tables) (he' : e' ∈ number n tables)
    (hcounts : counts e.sector e.pt) (hcounts' : counts e'.sector e'.pt) (hnum : e.num = e'.num) :
  e = e'
  := by
  by_contra hne
  have hdiffer := (pairwise_number n tables).imp Before.differ
  apply hdiffer.forall he he' hne hcounts hcounts' hnum

theorem counts_of_isListed {pt : DosPartition} (h : isListed sector pt) :
  counts sector pt
  := by
  unfold isListed at h
  unfold counts
  rw [decide_eq_true_iff] at h ⊢
  rcases h.2 with hzero | hext
  · exact .inl hzero
  · exact .inr ⟨h.1, hext⟩

theorem isUsable_iff {pt : DosPartition} (hboot : pt.bootInd = 0 ∨ pt.bootInd = 0x80) :
  isUsable pt = true ↔ pt.sysInd ≠ 0 ∧ ¬ isExtended pt.sysInd
  := by
  have hflag : pt.bootInd &&& ~~~ 0x80 = 0 := by
    rcases hboot with h | h
    · rw [h]
      decide
    · rw [h]
      decide
  unfold isUsable
  rw [decide_eq_true_iff]
  exact ⟨fun h => h.2, fun h => ⟨hflag, h⟩⟩

/-! ### The listing -/

theorem printTable_eq (sector : Word) (n : ℤ) (pts : List DosPartition) :
  printTable sector n pts = (numberTable sector n pts).filterMap Entry.line
  := by
  induction pts generalizing n with
  | nil => rfl
  | cons pt pts ih =>
    rw [printTable, numberTable, List.filterMap_cons, ih, Entry.line]
    by_cases hlisted : isListed sector pt
    · rw [if_pos hlisted, if_pos hlisted]
      rfl
    · rw [if_neg hlisted, if_neg hlisted]
      rfl

/-- What is printed for a sector with a table. -/
theorem print_table {buffer : ℕ → Byte} (hread : d.blockRead sector = some buffer)
    (hmagic : hasMagic buffer) (hpbr : isPbr buffer = false) (fuel : ℕ) (n : ℤ) :
  printPartitionExtended d (fuel + 1) sector relative n
    = (((table buffer).filter (isExtended ·.sysInd)).mapM fun pt =>
        printPartitionExtended d fuel (tableSector pt relative) (nextRelative sector pt relative)
          (numAfter sector n (table buffer))).map
      fun lines => (numberTable sector n (table buffer)).filterMap Entry.line ++ lines.flatten
  := by
  have hpbr' : ¬ isPbr buffer := by
    rw [hpbr]
    nofun
  rw [printPartitionExtended, hread]
  simp only
  rw [if_neg (not_not.mpr hmagic), if_neg hpbr', printTable_eq, Option.map_eq_bind]
  rfl

/-- A message is no partition. -/
def IsMessage (lines : List Line) : Prop := ∀ n start size sysInd, .part n start size sysInd ∉ lines

/-- What is printed for a chain: its partitions, and maybe a message at its end. -/
theorem print_of_chain (h : Chain d sector relative tables) (hplain : ∀ t ∈ tables, Plain t) :
  ∃ depth messages, IsMessage messages
    ∧ ∀ fuel n, printPartitionExtended d fuel sector relative n
      = if depth ≤ fuel then some ((number n tables).filterMap Entry.line ++ messages) else none
  := by
  induction h with
  | @unreadable sector relative hread =>
    refine ⟨1, [.cantRead sector.toInt], ?_, ?_⟩
    · intro n start size sysInd hmem
      cases List.mem_singleton.mp hmem
    · intro fuel n
      cases fuel with
      | zero => rfl
      | succ fuel =>
        rw [printPartitionExtended, hread, if_pos (Nat.le_add_left 1 fuel)]
        rfl
  | @noTable sector relative buffer hread hmagic =>
    refine ⟨1, [.badSignature (buffer dosPartMagicOffset) (buffer (dosPartMagicOffset + 1))], ?_, ?_⟩
    · intro n start size sysInd hmem
      cases List.mem_singleton.mp hmem
    · intro fuel n
      cases fuel with
      | zero => rfl
      | succ fuel =>
        rw [printPartitionExtended, hread, if_pos (Nat.le_add_left 1 fuel)]
        simp only
        rw [if_pos hmagic]
        rfl
  | @last sector relative buffer hread hmagic hext =>
    obtain ⟨hpbr, -⟩ := hplain _ (List.mem_singleton_self _)
    refine ⟨1, [], nofun, ?_⟩
    intro fuel n
    cases fuel with
    | zero => rfl
    | succ fuel =>
      rw [print_table hread hmagic hpbr, hext, if_pos (Nat.le_add_left 1 fuel), number, number,
        List.append_nil, List.append_nil]
      exact congrArg some (List.append_nil _)
  | @next sector relative buffer pt tables hread hmagic hext hchain ih =>
    obtain ⟨hpbr, -⟩ := hplain _ List.mem_cons_self
    obtain ⟨depth, messages, hmessages, hprint⟩ :=
      ih (fun t ht => hplain t (List.mem_cons_of_mem _ ht))
    refine ⟨depth + 1, messages, hmessages, ?_⟩
    intro fuel n
    cases fuel with
    | zero => rfl
    | succ fuel =>
      rw [print_table hread hmagic hpbr, hext, List.mapM_cons, List.mapM_nil, hprint]
      by_cases hdepth : depth ≤ fuel
      · rw [if_pos hdepth, if_pos (Nat.succ_le_succ hdepth), number, List.filterMap_append,
          List.append_assoc]
        simp
      · rw [if_neg hdepth, if_neg (fun h => hdepth (Nat.le_of_succ_le_succ h))]
        rfl

/-! ### The lookup -/

theorem findPartition_eq (d : BlockDev) (sector : Word) (which n : ℤ) (pts : List DosPartition) :
  findPartition d sector which n pts
    = ((numberTable sector n pts).find? (Entry.isNumber which)).map (Entry.info d)
  := by
  induction pts generalizing n with
  | nil => rfl
  | cons pt pts ih =>
    rw [findPartition, numberTable, List.find?_cons]
    by_cases hnumber : isUsable pt = true ∧ n = which
    · have htrue : Entry.isNumber which ⟨sector, n, pt⟩ = true := decide_eq_true hnumber
      rw [if_pos hnumber, htrue]
      rfl
    · have hfalse : Entry.isNumber which ⟨sector, n, pt⟩ = false := decide_eq_false hnumber
      rw [if_neg hnumber, hfalse, ih]

/-- The result of the lookup in a chain. -/
def lookup (d : BlockDev) (which n : ℤ) (tables : List (Word × (ℕ → Byte))) :
    Option DiskPartition :=
  ((number n tables).find? (Entry.isNumber which)).map (Entry.info d)

/-- What is found in a sector with a table. -/
theorem get_table {buffer : ℕ → Byte} (hread : d.blockRead sector = some buffer)
    (hmagic : hasMagic buffer) (which : ℤ) (fuel : ℕ) (n : ℤ) :
  getPartitionInfoExtended d which (fuel + 1) sector relative n
    = ((numberTable sector n (table buffer)).find? (Entry.isNumber which)).elim
      (((table buffer).find? (isExtended ·.sysInd)).elim (some none) fun pt =>
        getPartitionInfoExtended d which fuel (tableSector pt relative)
          (nextRelative sector pt relative) (numAfter sector n (table buffer)))
      fun e => some (some (e.info d))
  := by
  rw [getPartitionInfoExtended, hread]
  simp only
  rw [if_neg (not_not.mpr hmagic), findPartition_eq]
  cases (numberTable sector n (table buffer)).find? (Entry.isNumber which) with
  | some e => rfl
  | none =>
    cases (table buffer).find? (isExtended ·.sysInd) with
    | none => rfl
    | some pt => rfl

/-- The partitions of the first table come first. -/
theorem lookup_cons (d : BlockDev) (which n : ℤ) (sector : Word) (buffer : ℕ → Byte)
    (tables : List (Word × (ℕ → Byte))) :
  lookup d which n ((sector, buffer) :: tables)
    = ((numberTable sector n (table buffer)).find? (Entry.isNumber which)).elim
      (lookup d which (numAfter sector n (table buffer)) tables) fun e => some (e.info d)
  := by
  unfold lookup
  rw [number, List.find?_append]
  cases (numberTable sector n (table buffer)).find? (Entry.isNumber which) with
  | none => rfl
  | some e => rfl

theorem find_extended {buffer : ℕ → Byte} {pts : List DosPartition}
    (h : (table buffer).filter (isExtended ·.sysInd) = pts) :
  (table buffer).find? (isExtended ·.sysInd) = pts.head?
  := by
  rw [← h, List.head?_filter]

/-- A lookup that needs no other table. -/
theorem get_of_succ {which n : ℤ} {r : Option DiskPartition}
    (h : ∀ fuel, getPartitionInfoExtended d which (fuel + 1) sector relative n = some r) :
  (∃ fuel, getPartitionInfoExtended d which fuel sector relative n = some r)
    ∧ ∀ fuel r', getPartitionInfoExtended d which fuel sector relative n = some r' → r' = r
  := by
  refine ⟨⟨1, h 0⟩, ?_⟩
  intro fuel r' hr
  cases fuel with
  | zero => cases hr
  | succ fuel => exact (Option.some.inj ((h fuel).symm.trans hr)).symm

/-- What is found in a chain. -/
theorem get_of_chain (h : Chain d sector relative tables) (which n : ℤ) :
  (∃ fuel, getPartitionInfoExtended d which fuel sector relative n = some (lookup d which n tables))
    ∧ ∀ fuel r, getPartitionInfoExtended d which fuel sector relative n = some r →
      r = lookup d which n tables
  := by
  induction h generalizing n with
  | @unreadable sector relative hread =>
    have hget : ∀ fuel, getPartitionInfoExtended d which (fuel + 1) sector relative n
        = some none := by
      intro fuel
      rw [getPartitionInfoExtended, hread]
    apply get_of_succ hget
  | @noTable sector relative buffer hread hmagic =>
    have hget : ∀ fuel, getPartitionInfoExtended d which (fuel + 1) sector relative n
        = some none := by
      intro fuel
      rw [getPartitionInfoExtended, hread]
      simp only
      rw [if_pos hmagic]
    apply get_of_succ hget
  | @last sector relative buffer hread hmagic hext =>
    have hget : ∀ fuel, getPartitionInfoExtended d which (fuel + 1) sector relative n
        = some (lookup d which n [(sector, buffer)]) := by
      intro fuel
      rw [get_table hread hmagic, find_extended hext, lookup_cons]
      cases (numberTable sector n (table buffer)).find? (Entry.isNumber which) with
      | none => rfl
      | some e => rfl
    apply get_of_succ hget
  | @next sector relative buffer pt tables hread hmagic hext hchain ih =>
    obtain ⟨⟨fuel, hfuel⟩, huniq⟩ := ih (numAfter sector n (table buffer))
    rw [lookup_cons]
    constructor
    · use fuel + 1
      rw [get_table hread hmagic, find_extended hext, List.head?_cons, Option.elim_some, hfuel]
      cases (numberTable sector n (table buffer)).find? (Entry.isNumber which) with
      | none => rfl
      | some e => rfl
    · intro fuel r hr
      cases fuel with
      | zero => cases hr
      | succ fuel =>
        rw [get_table hread hmagic, find_extended hext, List.head?_cons, Option.elim_some] at hr
        cases hfind : (numberTable sector n (table buffer)).find? (Entry.isNumber which) with
        | none =>
          rw [hfind] at hr
          apply huniq fuel r hr
        | some e =>
          rw [hfind] at hr
          exact (Option.some.inj hr).symm

/-! ### The listing and the lookup -/

/-- A partition that is neither unused nor extended. -/
def Used (pt : DosPartition) : Prop := pt.sysInd ≠ 0 ∧ ¬ isExtended pt.sysInd

theorem Used.counts {pt : DosPartition} (h : Used pt) (sector : Word) :
  counts sector pt
  := by
  unfold PartDos.counts
  rw [decide_eq_true_iff]
  exact .inr h

theorem Used.isListed {pt : DosPartition} (h : Used pt) (sector : Word) :
  isListed sector pt
  := by
  unfold PartDos.isListed
  rw [decide_eq_true_iff]
  exact ⟨h.1, .inr h.2⟩

/-- The partitions that are printed. -/
theorem printed_iff {messages : List Line} (hmessages : IsMessage messages) (m n start size : ℤ) :
  Printed ((number m tables).filterMap Entry.line ++ messages) n start size
    ↔ ∃ e ∈ number m tables, Used e.pt ∧ e.num = n
      ∧ (e.sector + e.pt.start4).toInt = start ∧ e.pt.size4.toInt = size
  := by
  constructor
  · rintro ⟨sysInd, hext, hmem⟩
    rcases List.mem_append.mp hmem with hmem | hmem
    · obtain ⟨e, he, hline⟩ := List.mem_filterMap.mp hmem
      unfold Entry.line at hline
      split_ifs at hline with hlisted
      obtain ⟨rfl, rfl, rfl, rfl⟩ := Line.part.inj (Option.some.inj hline)
      exact ⟨e, he, ⟨(of_decide_eq_true hlisted).1, hext⟩, rfl, rfl, rfl⟩
    · apply absurd hmem (hmessages _ _ _ _)
  · rintro ⟨e, he, hused, rfl, rfl, rfl⟩
    refine ⟨e.pt.sysInd, hused.2, ?_⟩
    apply List.mem_append_left
    apply List.mem_filterMap.mpr
    refine ⟨e, he, ?_⟩
    rw [Entry.line, if_pos (hused.isListed _)]
    rfl

/-- The partition that is found. -/
theorem lookup_eq_some_iff (hplain : ∀ t ∈ tables, Plain t) (m n : ℤ) (info : DiskPartition) :
  lookup d n m tables = some info
    ↔ ∃ e ∈ number m tables, Used e.pt ∧ e.num = n ∧ e.info d = info
  := by
  have husable : ∀ e ∈ number m tables, isUsable e.pt = true ↔ Used e.pt := by
    intro e he
    obtain ⟨t, ht, -, hpt⟩ := exists_table_of_mem_number he
    apply isUsable_iff ((hplain t ht).2 e.pt hpt)
  constructor
  · intro h
    obtain ⟨e, hfind, hinfo⟩ := Option.map_eq_some_iff.mp h
    have hmem := List.mem_of_find?_eq_some hfind
    obtain ⟨husable', hnum⟩ := isNumber_iff.mp (List.find?_some hfind)
    exact ⟨e, hmem, (husable e hmem).mp husable', hnum, hinfo⟩
  · rintro ⟨e, hmem, hused, hnum, rfl⟩
    have hnumber := isNumber_iff.mpr ⟨(husable e hmem).mpr hused, hnum⟩
    cases hfind : (number m tables).find? (Entry.isNumber n) with
    | none => apply absurd hnumber (List.find?_eq_none.mp hfind e hmem)
    | some e' =>
      have hmem' := List.mem_of_find?_eq_some hfind
      obtain ⟨husable', hnum'⟩ := isNumber_iff.mp (List.find?_some hfind)
      have hused' := (husable e' hmem').mp husable'
      -- no other partition has this number
      obtain rfl := eq_of_num_eq hmem hmem' (hused.counts _) (hused'.counts _)
        (hnum.trans hnum'.symm)
      rw [lookup, hfind]
      rfl

/-- The partitions that are found. -/
theorem found_iff (h : Chain d 0 0 tables) (hplain : ∀ t ∈ tables, Plain t) (n start size : ℤ) :
  Found d n start size
    ↔ ∃ e ∈ number 1 tables, Used e.pt ∧ e.num = n
      ∧ ((e.sector + e.pt.start4).toNat : ℤ) = start ∧ (e.pt.size4.toNat : ℤ) = size
  := by
  obtain ⟨⟨fuel, hfuel⟩, huniq⟩ := get_of_chain h n 1
  constructor
  · rintro ⟨fuel', info, hget, rfl, rfl⟩
    obtain ⟨e, he, hused, hnum, rfl⟩ :=
      (lookup_eq_some_iff hplain 1 n info).mp (huniq fuel' _ hget).symm
    exact ⟨e, he, hused, hnum, rfl, rfl⟩
  · rintro ⟨e, he, hused, hnum, rfl, rfl⟩
    have hlookup := (lookup_eq_some_iff hplain 1 n (e.info d)).mpr ⟨e, he, hused, hnum, rfl⟩
    refine ⟨fuel, e.info d, ?_, rfl, rfl⟩
    rw [← hlookup]
    apply hfuel

/-- No number is printed twice. -/
theorem nodup_printedNumbers {messages : List Line} (hmessages : IsMessage messages) (m : ℤ) :
  (printedNumbers ((number m tables).filterMap Entry.line ++ messages)).Nodup
  := by
  have hnone : printedNumbers messages = [] := by
    apply List.filterMap_eq_nil_iff.mpr
    intro line hline
    cases line with
    | part n start size sysInd => apply absurd hline (hmessages n start size sysInd)
    | pbr lba mediaType => rfl
    | badSignature first second => rfl
    | cantRead sector => rfl
  unfold printedNumbers at hnone ⊢
  rw [List.filterMap_append, hnone, List.append_nil, List.filterMap_filterMap]
  apply List.pairwise_filterMap.mpr
  apply (pairwise_number m tables).imp
  intro e e' hbefore n hn n' hn'
  obtain ⟨line, hline, hn⟩ := Option.bind_eq_some_iff.mp hn
  obtain ⟨line', hline', hn'⟩ := Option.bind_eq_some_iff.mp hn'
  unfold Entry.line at hline hline'
  split_ifs at hline hline' with hlisted hlisted'
  obtain rfl := Option.some.inj hline
  obtain rfl := Option.some.inj hline'
  obtain rfl := Option.some.inj hn
  obtain rfl := Option.some.inj hn'
  apply ne_of_lt (hbefore (counts_of_isListed hlisted))

theorem toInt_eq_toNat_iff (w : Word) :
  w.toInt = w.toNat ↔ w.toNat < 2 ^ 31
  := by
  rw [BitVec.toInt_eq_toNat_bmod, Int.bmod_def]
  have := w.isLt
  omega

theorem small_of_agree (h : Chain d 0 0 tables) (hplain : ∀ t ∈ tables, Plain t)
    (hagree : Agree d) :
  ∀ t ∈ tables, Small t
  := by
  obtain ⟨depth, messages, hmessages, hprint⟩ := print_of_chain h hplain
  obtain ⟨⟨fuel, lines, hlines, -, hagree⟩, -⟩ := hagree
  intro t ht pt hpt hzero hext
  have hlines' : lines = (number 1 tables).filterMap Entry.line ++ messages := by
    rw [printPartDos, hprint] at hlines
    split_ifs at hlines
    exact (Option.some.inj hlines).symm
  obtain ⟨n, hn⟩ := exists_mem_number ht hpt 1
  have hused : Used pt := ⟨hzero, hext⟩
  have hprinted : Printed lines n (t.1 + pt.start4).toInt pt.size4.toInt := by
    rw [hlines']
    apply (printed_iff hmessages 1 _ _ _).mpr
    exact ⟨_, hn, hused, rfl, rfl, rfl⟩
  obtain ⟨e, he, hused', hnum, hstart, hsize⟩ :=
    (found_iff h hplain _ _ _).mp ((hagree _ _ _).mp hprinted)
  obtain rfl := eq_of_num_eq he hn (hused'.counts _) (hused.counts _) hnum
  exact ⟨(toInt_eq_toNat_iff _).mp hstart.symm, (toInt_eq_toNat_iff _).mp hsize.symm⟩

theorem agree_of_small (h : Chain d 0 0 tables) (hplain : ∀ t ∈ tables, Plain t)
    (hsmall : ∀ t ∈ tables, Small t) :
  Agree d
  := by
  obtain ⟨depth, messages, hmessages, hprint⟩ := print_of_chain h hplain
  refine ⟨⟨depth, (number 1 tables).filterMap Entry.line ++ messages, ?_,
    nodup_printedNumbers hmessages 1, ?_⟩, ?_⟩
  · rw [printPartDos, hprint, if_pos (le_refl _)]
  · intro n start size
    rw [printed_iff hmessages, found_iff h hplain]
    apply exists_congr
    intro e
    apply and_congr_right
    intro he
    apply and_congr_right
    intro hused
    -- the numbers are small, so it does not matter whether they are signed
    obtain ⟨t, ht, hsector, hpt⟩ := exists_table_of_mem_number he
    obtain ⟨hstart, hsize⟩ := hsmall t ht e.pt hpt hused.1 hused.2
    rw [← hsector] at hstart
    rw [(toInt_eq_toNat_iff _).mpr hstart, (toInt_eq_toNat_iff _).mpr hsize]
  · intro n
    obtain ⟨⟨fuel, hfuel⟩, -⟩ := get_of_chain h n 1
    use fuel
    rw [getPartitionInfoDos, hfuel]
    rfl

/-- **The numbers of the partitions.**  For a chain of tables with good flags and without a boot
record, the listing and the lookup agree if and only if the starts and the sizes are less than
2 ^ 31. -/
theorem agree_iff (d : BlockDev) (tables : List (Word × (ℕ → Byte))) (h : Chain d 0 0 tables)
    (hplain : ∀ t ∈ tables, Plain t) :
  Agree d ↔ ∀ t ∈ tables, Small t
  := ⟨small_of_agree h hplain, agree_of_small h hplain⟩

/-! ### Two disks -/

/-- The little-endian bytes of a number. -/
def leBytes (w : Word) : List Byte := (wordBytes w).reverse

/-- A partition in a table. -/
def partBytes (sysInd : Byte) (start size : Word) : List Byte :=
  [0, 0, 0, 0, sysInd, 0, 0, 0] ++ leBytes start ++ leBytes size

/-- A sector with a table. -/
def tableBuffer (parts : List (List Byte)) : ℕ → Byte :=
  Memory.store (Memory.store (fun _ => 0) dosPartTblOffset parts.flatten) dosPartMagicOffset
    [0x55, 0xaa]

/-- A disk with a partition in the first table, and one in an extended partition. -/
def twoTables : BlockDev where
  ifType := .sata
  dev := 0
  lba := 1000
  blockRead n :=
    if n = 0 then some (tableBuffer [partBytes 0x83 1 9, partBytes 0x5 10 90])
    else if n = 10 then some (tableBuffer [partBytes 0x83 1 89])
    else none

instance (t : Word × (ℕ → Byte)) : Decidable (Plain t) :=
  inferInstanceAs (Decidable (_ ∧ _))

instance (t : Word × (ℕ → Byte)) : Decidable (Small t) :=
  inferInstanceAs (Decidable (∀ pt ∈ table t.2, _))

/-- The listing has the numbers 1 and 5. -/
theorem agree_twoTables :
  Agree twoTables
  := by
  have hchain : Chain twoTables 0 0
      [(0, tableBuffer [partBytes 0x83 1 9, partBytes 0x5 10 90]),
        (10, tableBuffer [partBytes 0x83 1 89])] := by
    have hext : (table (tableBuffer [partBytes 0x83 1 9, partBytes 0x5 10 90])).filter
        (isExtended ·.sysInd) = [⟨0, 0x5, 10, 90⟩] := by decide +kernel
    apply Chain.next rfl (by decide +kernel) hext
    apply Chain.last rfl
    · decide +kernel
    · decide +kernel
  apply (agree_iff twoTables _ hchain (by decide +kernel)).mpr
  decide +kernel

/-- A disk with a partition behind the first tebibyte. -/
def farPartition : BlockDev where
  ifType := .sata
  dev := 0
  lba := 0xffffffff
  blockRead _ := some (tableBuffer [partBytes 0x83 0x80000000 9])

/-- The listing prints a negative start. -/
theorem not_agree_farPartition :
  ¬ ∀ (d : BlockDev) (tables : List (Word × (ℕ → Byte))), Chain d 0 0 tables →
    (∀ t ∈ tables, Plain t) → Agree d
  := by
  intro h
  have hchain : Chain farPartition 0 0 [(0, tableBuffer [partBytes 0x83 0x80000000 9])] := by
    apply Chain.last rfl
    · decide +kernel
    · decide +kernel
  have hplain : ∀ t ∈ [(0, tableBuffer [partBytes 0x83 0x80000000 9])], Plain t := by
    decide +kernel
  have hsmall := small_of_agree hchain hplain (h _ _ hchain hplain)
  revert hsmall
  decide +kernel

end PartDos
