import UBoot.Lib.Memory

/-!
# The history of the command line

`common/main.c` keeps the last lines in a ring of `HIST_MAX` strings.  `hist_add_idx` is where the
next line goes, `hist_max` the largest index in use, and `hist_cur` the line that is shown; the
place of the next line stands for the empty line below the newest one.
-/

namespace Cli

/-- `HIST_MAX`. -/
def histMax : ℕ := 20

/-- The variables of the history. -/
structure Hist where
  max : ℕ
  addIdx : ℕ
  cur : ℤ
  list : ℕ → List Byte

namespace Hist

/-- `hist_init`. -/
def init : Hist := ⟨0, 0, -1, fun _ => []⟩

/-- `cread_add_to_hist`. -/
def add (h : Hist) (line : List Byte) : Hist :=
  let addIdx := if histMax ≤ h.addIdx + 1 then 0 else h.addIdx + 1
  { h with
    list := Function.update h.list h.addIdx line
    addIdx := addIdx
    max := if h.max < addIdx then addIdx else h.max }

/-- `hist_prev`; `none` is `NULL`. -/
def prev (h : Hist) : Option (List Byte) × Hist :=
  if h.cur < 0 then (none, h)
  else
    let cur := if h.cur - 1 < 0 then (h.max : ℤ) else h.cur - 1
    if cur = h.addIdx then (none, h) else (some (h.list cur.toNat), { h with cur := cur })

/-- `hist_next`. -/
def next (h : Hist) : Option (List Byte) × Hist :=
  if h.cur < 0 then (none, h)
  else if h.cur = h.addIdx then (none, h)
  else
    let cur := if (h.max : ℤ) < h.cur + 1 then 0 else h.cur + 1
    (some (if cur = h.addIdx then [] else h.list cur.toNat), { h with cur := cur })

/-- A call of `hist_prev` or `hist_next`. -/
inductive Move where
  | prev
  | next
  deriving DecidableEq

def move (h : Hist) : Move → Option (List Byte) × Hist
  | .prev => h.prev
  | .next => h.next

/-- The results of a sequence of calls, and the state after it. -/
def browse : Hist → List Move → List (Option (List Byte)) × Hist
  | h, [] => ([], h)
  | h, m :: moves =>
    let (ret, h) := h.move m
    let (rets, h) := browse h moves
    (ret :: rets, h)

/-- The history after lines have been added, as `cread_line` leaves it. -/
def after (lines : List (List Byte)) : Hist :=
  let h := lines.foldl add init
  { h with cur := h.addIdx }

/-! ### What the history is for -/

/-- How many lines are kept. -/
def kept (lines : List (List Byte)) : ℕ := min lines.length (histMax - 1)

/-- The line `pos` steps up from the empty line below the newest one. -/
def lineAt (lines : List (List Byte)) : ℕ → List Byte
  | 0 => []
  | pos + 1 => lines.reverse.getD pos []

/-- One step up or down in the lines that are kept. -/
def step (lines : List (List Byte)) (pos : ℕ) : Move → Option (List Byte) × ℕ
  | .prev => if pos < kept lines then (some (lineAt lines (pos + 1)), pos + 1) else (none, pos)
  | .next => if pos = 0 then (none, pos) else (some (lineAt lines (pos - 1)), pos - 1)

def walk (lines : List (List Byte)) : ℕ → List Move → List (Option (List Byte)) × ℕ
  | pos, [] => ([], pos)
  | pos, m :: moves =>
    let (ret, pos) := step lines pos m
    let (rets, pos) := walk lines pos moves
    (ret :: rets, pos)

/-! ### The ring -/

/-- What the ring holds after the lines have been added. -/
structure Holds (lines : List (List Byte)) (h : Hist) : Prop where
  addIdx : h.addIdx = lines.length % histMax
  max : h.max = min lines.length (histMax - 1)
  list : ∀ j < min lines.length histMax,
    h.list ((lines.length - 1 - j) % histMax) = lines.reverse.getD j []

variable {lines : List (List Byte)} {h : Hist} {pos : ℕ}

theorem holds_init :
  Holds [] init
  := ⟨rfl, rfl, by simp⟩

theorem Holds.add (hh : Holds lines h) (line : List Byte) :
  Holds (lines ++ [line]) (h.add line)
  := by
  obtain ⟨hidx, hmax, hlist⟩ := hh
  have h20 : histMax = 20 := rfl
  have hidx' : (h.add line).addIdx = (lines.length + 1) % histMax := by
    rw [h20] at hidx ⊢
    simp only [Hist.add, h20]
    split_ifs <;> omega
  refine ⟨?_, ?_, ?_⟩
  · rw [List.length_append, List.length_singleton]
    exact hidx'
  · have hnew : (h.add line).max
        = if h.max < (h.add line).addIdx then (h.add line).addIdx else h.max := rfl
    rw [h20] at hmax hidx' ⊢
    rw [hnew, hidx', List.length_append, List.length_singleton]
    split_ifs <;> omega
  · intro j hj
    rw [List.length_append, List.length_singleton] at hj ⊢
    rw [List.reverse_append, List.reverse_singleton, List.singleton_append]
    simp only [Hist.add]
    cases j with
    | zero =>
      rw [Nat.add_sub_cancel, Nat.sub_zero, ← hidx, Function.update_self]
      rfl
    | succ j =>
      -- an older line is in another place, as the ring is not yet around
      have hne : (lines.length + 1 - 1 - (j + 1)) % histMax ≠ h.addIdx := by
        rw [hidx, h20]
        omega
      rw [Function.update_of_ne hne, List.getD_cons_succ, ← hlist j (by omega)]
      congr 2
      omega

theorem holds_foldl (lines : List (List Byte)) :
  Holds lines (lines.foldl Hist.add init)
  := by
  induction lines using List.reverseRecOn with
  | nil => exact holds_init
  | append_singleton lines line ih =>
    rw [List.foldl_append]
    exact ih.add line

/-- The history shows the line `pos` steps up. -/
structure At (lines : List (List Byte)) (pos : ℕ) (h : Hist) : Prop where
  holds : Holds lines h
  le : pos ≤ kept lines
  cur : h.cur = ((lines.length - pos) % histMax : ℕ)

theorem at_after (lines : List (List Byte)) :
  At lines 0 (after lines)
  := by
  have hh := holds_foldl lines
  refine ⟨⟨hh.addIdx, hh.max, hh.list⟩, Nat.zero_le _, ?_⟩
  simp only [after, Nat.sub_zero, hh.addIdx]

/-- The indices stay in the ring. -/
theorem At.bounds (hat : At lines pos h) :
  0 ≤ h.cur ∧ h.cur ≤ h.max ∧ h.max < histMax ∧ h.addIdx < histMax
  := by
  obtain ⟨⟨hidx, hmax, -⟩, hle, hcur⟩ := hat
  simp only [kept, histMax] at *
  omega

/-- A line that is kept is where the ring has it. -/
theorem At.list_eq (hat : At lines pos h) {k : ℕ} (hk : k < kept lines) :
  h.list ((lines.length - (k + 1)) % histMax) = lineAt lines (k + 1)
  := by
  have hlist := hat.holds.list k (by simp only [kept, histMax] at *; omega)
  rw [Nat.sub_sub, Nat.add_comm] at hlist
  exact hlist

/-- Nothing is above the last line that is kept. -/
theorem At.prev_top (hat : At lines pos h) (hge : kept lines ≤ pos) :
  h.prev = (none, h)
  := by
  obtain ⟨hidx, hmax, -⟩ := hat.holds
  have hle := hat.le
  have hcur := hat.cur
  have hnew : (if h.cur - 1 < 0 then (h.max : ℤ) else h.cur - 1) = h.addIdx := by
    simp only [kept, histMax] at *
    split_ifs <;> omega
  rw [Hist.prev, if_neg (by omega)]
  simp only [hnew, if_true]

theorem At.prev (hat : At lines pos h) :
  (h.prev).1 = (step lines pos .prev).1 ∧ At lines (step lines pos .prev).2 (h.prev).2
  := by
  obtain ⟨hidx, hmax, -⟩ := hat.holds
  have hle := hat.le
  have hcur := hat.cur
  have hnot : ¬ h.cur < 0 := by omega
  by_cases hlt : pos < kept lines
  · have hnew : (if h.cur - 1 < 0 then (h.max : ℤ) else h.cur - 1)
        = ((lines.length - (pos + 1)) % histMax : ℕ) := by
      simp only [kept, histMax] at *
      split_ifs <;> omega
    have hne : (((lines.length - (pos + 1)) % histMax : ℕ) : ℤ) ≠ h.addIdx := by
      simp only [kept, histMax] at *
      omega
    rw [Hist.prev, if_neg hnot]
    simp only [hnew, if_neg hne, step, if_pos hlt, Int.toNat_natCast]
    exact ⟨congrArg some (hat.list_eq hlt), ⟨hidx, hmax, hat.holds.list⟩, hlt, rfl⟩
  · rw [hat.prev_top (by omega), step, if_neg hlt]
    exact ⟨rfl, hat⟩

theorem At.next (hat : At lines pos h) :
  (h.next).1 = (step lines pos .next).1 ∧ At lines (step lines pos .next).2 (h.next).2
  := by
  obtain ⟨hidx, hmax, -⟩ := hat.holds
  have hle := hat.le
  have hcur := hat.cur
  have hnot : ¬ h.cur < 0 := by omega
  rw [Hist.next, if_neg hnot]
  cases pos with
  | zero =>
    have heq : h.cur = h.addIdx := by rw [hcur, hidx, Nat.sub_zero]
    rw [if_pos heq]
    exact ⟨rfl, hat⟩
  | succ pos =>
    have hne : h.cur ≠ h.addIdx := by
      simp only [kept, histMax] at *
      omega
    have hnew : (if (h.max : ℤ) < h.cur + 1 then 0 else h.cur + 1)
        = ((lines.length - pos) % histMax : ℕ) := by
      simp only [kept, histMax] at *
      split_ifs <;> omega
    rw [if_neg hne]
    simp only [hnew, step, Nat.add_sub_cancel, Nat.succ_ne_zero, if_false, Int.toNat_natCast]
    refine ⟨?_, ⟨hidx, hmax, hat.holds.list⟩, by omega, rfl⟩
    cases pos with
    | zero => rw [if_pos (by rw [hidx, Nat.sub_zero])]; rfl
    | succ pos =>
      have hne' : (((lines.length - (pos + 1)) % histMax : ℕ) : ℤ) ≠ h.addIdx := by
        simp only [kept, histMax] at *
        omega
      rw [if_neg hne', hat.list_eq (by omega)]

/-! ### Sequences of calls -/

/-- The ring is walked through as the list of lines is. -/
theorem At.browse (hat : At lines pos h) (moves : List Move) :
  (h.browse moves).1 = (walk lines pos moves).1
    ∧ At lines (walk lines pos moves).2 (h.browse moves).2
  := by
  induction moves generalizing h pos with
  | nil => exact ⟨rfl, hat⟩
  | cons m moves ih =>
    have hmove : (h.move m).1 = (step lines pos m).1 ∧ At lines (step lines pos m).2 (h.move m).2 := by
      cases m with
      | prev => exact hat.prev
      | next => exact hat.next
    obtain ⟨hrets, hat'⟩ := ih hmove.2
    simp only [Hist.browse, walk]
    exact ⟨by rw [hmove.1, hrets], hat'⟩

theorem walk_prev {k : ℕ} (hk : pos + k ≤ kept lines) :
  walk lines pos (List.replicate k .prev)
    = ((List.range k).map fun i => some (lineAt lines (pos + i + 1)), pos + k)
  := by
  induction k generalizing pos with
  | zero => rfl
  | succ k ih =>
    have hlt : pos < kept lines := by omega
    have ih := @ih (pos + 1) (by omega)
    simp only [List.replicate_succ, walk, step, if_pos hlt, ih, List.range_succ_eq_map,
      List.map_cons, List.map_map]
    congr 1
    · congr 1
      apply List.map_congr_left
      intro i _
      simp only [Function.comp_apply]
      congr 2
      omega
    · omega

theorem walk_next (k : ℕ) :
  walk lines k (List.replicate k .next)
    = ((List.range k).reverse.map fun i => some (lineAt lines i), 0)
  := by
  induction k with
  | zero => rfl
  | succ k ih =>
    simp only [List.replicate_succ, walk, step, Nat.succ_ne_zero, if_false, Nat.add_sub_cancel, ih,
      List.range_succ, List.reverse_append, List.reverse_singleton, List.singleton_append,
      List.map_cons]

/-- What is expected of the history after lines have been added. -/
structure Retraces (lines : List (List Byte)) : Prop where
  /-- The indices stay in the ring, and every call returns what the list of lines says. -/
  browse : ∀ moves, 0 ≤ ((after lines).browse moves).2.cur
    ∧ ((after lines).browse moves).2.cur ≤ ((after lines).browse moves).2.max
    ∧ ((after lines).browse moves).2.max < histMax
    ∧ ((after lines).browse moves).2.addIdx < histMax
    ∧ ((after lines).browse moves).1 = (walk lines 0 moves).1
  /-- The lines come newest first. -/
  up : ∀ k ≤ kept lines, ((after lines).browse (List.replicate k .prev)).1
    = (List.range k).map fun i => some (lineAt lines (i + 1))
  /-- There is nothing above the last of them. -/
  top : ((after lines).browse (List.replicate (kept lines) .prev)).2.prev
    = (none, ((after lines).browse (List.replicate (kept lines) .prev)).2)
  /-- The way back is the same, and ends at the empty line. -/
  down : ∀ k ≤ kept lines,
    (((after lines).browse (List.replicate k .prev)).2.browse (List.replicate k .next)).1
      = (List.range k).reverse.map fun i => some (lineAt lines i)

theorem retraces (lines : List (List Byte)) :
  Retraces lines
  := by
  have hat := at_after lines
  have hup {k : ℕ} (hk : k ≤ kept lines) :
      ((after lines).browse (List.replicate k .prev)).1
          = (List.range k).map (fun i => some (lineAt lines (i + 1)))
        ∧ At lines k ((after lines).browse (List.replicate k .prev)).2 := by
    have hwalk := @walk_prev lines 0 k (by omega)
    simp only [Nat.zero_add] at hwalk
    obtain ⟨hrets, hat'⟩ := hat.browse (List.replicate k .prev)
    rw [hwalk] at hrets hat'
    exact ⟨hrets, hat'⟩
  constructor
  case browse =>
    intro moves
    obtain ⟨hrets, hat'⟩ := hat.browse moves
    obtain ⟨h₁, h₂, h₃, h₄⟩ := hat'.bounds
    exact ⟨h₁, h₂, h₃, h₄, hrets⟩
  case up => exact fun k hk => (hup hk).1
  case top => exact (hup le_rfl).2.prev_top le_rfl
  case down =>
    intro k hk
    obtain ⟨hrets, -⟩ := (hup hk).2.browse (List.replicate k .next)
    rw [hrets, walk_next]

/-- The last nineteen of twenty-one lines come back, newest first. -/
example :
  ((after ((List.range 21).map fun i => [UInt8.ofNat i])).browse
      (List.replicate 20 .prev)).1.getLast? = some none
    ∧ ((after ((List.range 21).map fun i => [UInt8.ofNat i])).browse
      (List.replicate 19 .prev)).1.getLast? = some (some [2])
  := by
  decide +kernel

end Hist

end Cli
