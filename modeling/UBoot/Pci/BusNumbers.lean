import UBoot.Pci.Auto
import Mathlib.Order.Bounds.Basic
import Mathlib.Order.Interval.Set.Defs

/-!
# Bus numbers

Every bridge gets the next bus number before the bus behind it is scanned, and the last one used
on that bus afterwards.  `hoseScan_numbered_iff` says for which trees the numbers are right.
-/

namespace Pci

/-! ### The tree -/

namespace Bus

/-- The functions of the tree below `path`, from number `devfn` on. -/
def functions : Bus → Path → ℕ → List (Path × Function)
  | nil, _, _ => []
  | gap rest, path, devfn => rest.functions path (devfn + 1)
  | function f behind rest, path, devfn =>
    (path ++ [devfn], f) ::
      (if f.kind = .bridge then behind.functions (path ++ [devfn]) 0 else [])
        ++ rest.functions path (devfn + 1)

/--
A bus has 32 devices of eight functions, and a device with other functions than the first says so
in the header of its first function, which is what `multi` is about.
-/
def Allowed : Bus → (devfn : ℕ) → (multi : Bool) → Prop
  | nil, _, _ => True
  | gap rest, devfn, multi => rest.Allowed (devfn + 1) (devfn % 8 ≠ 0 && multi)
  | function f behind rest, devfn, multi =>
    devfn < 256 ∧ (devfn % 8 ≠ 0 → multi)
      ∧ (f.kind = .bridge → behind.Allowed 0 false)
      ∧ rest.Allowed (devfn + 1) (if devfn % 8 = 0 then f.multi else multi)

/-- How many bus numbers the bridges of the tree take. -/
def buses : Bus → ℕ
  | nil => 0
  | gap rest => rest.buses
  | function f behind rest =>
    (match f.kind with
      | .bridge => behind.buses + 1
      | .cardbus => 1
      | _ => 0) + rest.buses

/-- The last bridge of the bus, to another bus or to a card. -/
def lastBridge : Bus → Option Function.Kind
  | nil => none
  | gap rest => rest.lastBridge
  | function f _ rest =>
    rest.lastBridge.or (if f.kind = .bridge ∨ f.kind = .cardbus then some f.kind else none)

/-- The last bridge of a bus behind a bridge is not one to a card. -/
def CardsInside : Bus → Prop
  | nil => True
  | gap rest => rest.CardsInside
  | function f behind rest =>
    (f.kind = .bridge → behind.lastBridge ≠ some .cardbus ∧ behind.CardsInside)
      ∧ rest.CardsInside

end Bus

/-! ### Functions that are found once, and bus numbers that nest -/

/-- The functions that the scan is about: the host bridge itself may be left alone. -/
def present (root : Bus) (skipped : Bool) : List (Path × Function) :=
  (root.functions [] 0).filter fun x => ¬ (skipped ∧ x.1 = [0])

namespace Event

def found? : Event → Option Path
  | found q => some q
  | _ => none

/-- What is written to the subordinate register of a bridge. -/
def subordinate? (q : Path) : Event → Option Byte
  | busNumbers q' _ _ => if q' = q then some 0xff else none
  | subordinate q' bus => if q' = q then some bus else none
  | _ => none

end Event

/-- The registers of a bridge after the scan: primary, secondary and subordinate bus. -/
structure Registers (log : List Event) (q : Path) (primary secondary subordinate : Byte) :
    Prop where
  numbers : .busNumbers q primary secondary ∈ log
  last : (log.filterMap (·.subordinate? q)).getLast? = some subordinate

/-- The numbers of the buses behind a bridge; the registers count from `first`. -/
def busesBehind (first : ℕ) (log : List Event) (q : Path) : Set ℕ :=
  { n | ∃ q', q <+: q' ∧ ((∃ p s, .busNumbers q' p s ∈ log ∧ n = first + s.toNat)
    ∨ .reserved q' n ∈ log) }

/-- The functions are found, and the bridges have the numbers they should have. -/
structure Numbered (functions : List (Path × Function)) (first : ℕ) (log : List Event) : Prop where
  found : ∀ q, (log.filterMap Event.found?).count q = if q ∈ functions.map Prod.fst then 1 else 0
  registers : ∀ x ∈ functions, x.2.kind = .bridge → ∃ p s t, Registers log x.1 p s t
  primary_lt : ∀ q p s t, Registers log q p s t → p < s
  subordinate : ∀ q p s t, Registers log q p s t →
    IsGreatest (busesBehind first log q) (first + t.toNat)
  distinct : ∀ q p s t q' p' t', Registers log q p s t → Registers log q' p' s t' → q = q'
  nested : ∀ q p s t q' p' s' t', Registers log q p s t → Registers log q' p' s' t' → q <+: q' →
    s ≤ s' ∧ t' ≤ t
  disjoint : ∀ q p s t q' p' s' t', Registers log q p s t → Registers log q' p' s' t' →
    ¬ q <+: q' → ¬ q' <+: q → t < s' ∨ t' < s

/-! ### The events of the numbering -/

namespace Event

/-- The events that the numbering is about. -/
def numbering : Event → Bool
  | found _ | busNumbers _ _ _ | subordinate _ _ | reserved _ _ => true
  | _ => false

end Event

/-- The part of a log that the numbering is about. -/
def numberings (log : List Event) : List Event := log.filter Event.numbering

theorem numberings_append (log log' : List Event) :
  numberings (log ++ log') = numberings log ++ numberings log'
  := List.filter_append ..

theorem numberings_cons (e : Event) (log : List Event) :
  numberings (e :: log) = if e.numbering then e :: numberings log else numberings log
  := List.filter_cons

theorem numberings_nil :
  numberings [] = []
  := rfl

theorem numberings_eq_nil {log : List Event} (h : ∀ e ∈ log, e.numbering = false) :
  numberings log = []
  := by
  rw [numberings, List.filter_eq_nil_iff]
  intro e he
  rw [h e he]
  decide

theorem setupBars_numbering (q : Path) (registers : List Word) (bar : ℕ) (skip : Bool)
    (regions : Regions) (cmdstat : Word) :
  ∀ e ∈ (setupBars q registers bar skip regions cmdstat).log, e.numbering = false
  := by
  fun_induction setupBars q registers bar skip regions cmdstat with
  | case1 => exact List.forall_mem_nil _
  | case2 => assumption
  | case3 => assumption
  | case4 => exact List.forall_mem_cons.mpr ⟨rfl, by assumption⟩
  | case5 => exact List.forall_mem_cons.mpr ⟨rfl, by assumption⟩

theorem numberings_setupDevice (q : Path) (f : Function) (barsNum : ℕ) (regions : Regions) :
  numberings (setupDevice q f barsNum regions).log = []
  := by
  apply numberings_eq_nil
  intro e he
  rw [setupDevice, List.mem_append, List.mem_singleton] at he
  rcases he with he | rfl
  · exact setupBars_numbering _ _ _ _ _ _ e he
  · rfl

theorem numberings_openWindows (q : Path) (regions : Regions) :
  numberings (windows.flatMap (openWindow q regions)) = []
  := by
  apply numberings_eq_nil
  intro e he
  obtain ⟨s, -, he⟩ := List.mem_flatMap.mp he
  rw [openWindow] at he
  split at he
  · rw [List.mem_singleton.mp he]
    rfl
  · split_ifs at he
    · rcases List.mem_pair.mp he with rfl | rfl <;> rfl
    · cases he

theorem numberings_closeWindows (q : Path) (regions : Regions) :
  numberings (windows.flatMap (closeWindow q regions)) = []
  := by
  apply numberings_eq_nil
  intro e he
  obtain ⟨s, -, he⟩ := List.mem_flatMap.mp he
  rw [closeWindow] at he
  split at he
  · rw [List.mem_singleton.mp he]
    rfl
  · cases he

theorem numberings_prescan (q : Path) (bus subBus : ℕ) (cmdstat : Word) (hose : Hose) :
  numberings (prescanSetupBridge q bus subBus cmdstat hose).2
    = [.busNumbers q (UInt8.ofNat (bus - hose.firstBusno))
      (UInt8.ofNat (subBus - hose.firstBusno))]
  := by
  rw [prescanSetupBridge, List.cons_append, numberings_cons, numberings_append,
    numberings_openWindows]
  rfl

theorem numberings_postscan (q : Path) (subBus : ℕ) (hose : Hose) :
  numberings (postscanSetupBridge q subBus hose).2
    = [.subordinate q (UInt8.ofNat (subBus - hose.firstBusno))]
  := by
  rw [postscanSetupBridge, numberings_cons, numberings_closeWindows]
  rfl

/-! ### The scan of a tree -/

namespace Bus

/-- What the scan of a bus returns, if the last number used before was `cur`. -/
def reach : Bus → (cur subBus : ℕ) → ℕ
  | nil, _, subBus => subBus
  | gap rest, cur, subBus => rest.reach cur subBus
  | function f behind rest, cur, subBus =>
    match f.kind with
    | .bridge => rest.reach (cur + (behind.buses + 1)) (max subBus (cur + (behind.buses + 1)))
    | .cardbus => rest.reach (cur + 1) subBus
    | _ => rest.reach cur subBus

/-- The numbering, if every function is found; the registers count from `first`. -/
def trace (first : ℕ) : Bus → Path → (bus devfn cur : ℕ) → List Event
  | nil, _, _, _, _ => []
  | gap rest, path, bus, devfn, cur => rest.trace first path bus (devfn + 1) cur
  | function f behind rest, path, bus, devfn, cur =>
    let q := path ++ [devfn]
    match f.kind with
    | .bridge =>
      .found q :: .busNumbers q (UInt8.ofNat (bus - first)) (UInt8.ofNat (cur + 1 - first))
        :: behind.trace first q (cur + 1) 0 (cur + 1)
        ++ .subordinate q (UInt8.ofNat (behind.reach (cur + 1) (cur + 1) - first))
        :: rest.trace first path bus (devfn + 1) (cur + (behind.buses + 1))
    | .cardbus =>
      .found q :: .reserved q (cur + 1) :: rest.trace first path bus (devfn + 1) (cur + 1)
    | _ => .found q :: rest.trace first path bus (devfn + 1) cur

/-- The last function of the last device is not there. -/
def NoLast (t : Bus) (path : Path) (devfn : ℕ) : Prop :=
  ∀ x ∈ t.functions path devfn, x.1.getLast? ≠ some 255

theorem le_reach (t : Bus) (cur subBus : ℕ) :
  subBus ≤ t.reach cur subBus
  := by
  induction t generalizing cur subBus with
  | nil => exact le_rfl
  | gap rest ih => exact ih cur subBus
  | function f behind rest _ ih =>
    rw [reach]
    split
    · exact le_trans (le_max_left _ _) (ih _ _)
    · exact ih _ _
    · exact ih _ _

theorem NoLast.gap {rest : Bus} {path : Path} {devfn : ℕ} (h : (gap rest).NoLast path devfn) :
  rest.NoLast path (devfn + 1)
  := h

theorem NoLast.ne {f : Function} {behind rest : Bus} {path : Path} {devfn : ℕ}
    (h : (function f behind rest).NoLast path devfn) :
  devfn ≠ 255
  := by
  have hlast := h _ List.mem_cons_self
  rw [List.getLast?_concat] at hlast
  exact fun heq => hlast (congrArg some heq)

theorem NoLast.behind {f : Function} {behind rest : Bus} {path : Path} {devfn : ℕ}
    (h : (function f behind rest).NoLast path devfn) (hf : f.kind = .bridge) :
  behind.NoLast (path ++ [devfn]) 0
  := by
  intro x hx
  apply h x
  rw [functions, if_pos hf, List.cons_append]
  apply List.mem_cons_of_mem _ (List.mem_append_left _ hx)

theorem NoLast.rest {f : Function} {behind rest : Bus} {path : Path} {devfn : ℕ}
    (h : (function f behind rest).NoLast path devfn) :
  rest.NoLast path (devfn + 1)
  := by
  intro x hx
  apply h x (List.mem_append_right _ hx)

/-- There is no function behind the last one. -/
theorem Allowed.eq_of_le {t : Bus} {path : Path} {devfn : ℕ} {m : Bool} (h : t.Allowed devfn m)
    (hlast : t.NoLast path devfn) (hdevfn : 255 ≤ devfn) (first bus cur subBus : ℕ) :
  t.buses = 0 ∧ t.reach cur subBus = subBus ∧ t.trace first path bus devfn cur = []
  := by
  induction t generalizing devfn m with
  | nil => exact ⟨rfl, rfl, rfl⟩
  | gap rest ih => exact ih h hlast.gap (by omega)
  | function f behind rest _ _ =>
    have hlt := h.1
    have hne := hlast.ne
    omega

end Bus

section Scan

variable {configHost multi : Bool} {path : Path} {bus devfn subBus : ℕ} {hose : Hose}

/-- What a scan leaves behind that finds every function. -/
structure FindsAll (t : Bus) (path : Path) (bus devfn subBus : ℕ) (hose : Hose) (r : Scanned) :
    Prop where
  subBus : r.subBus = t.reach hose.currentBusno subBus
  firstBusno : r.hose.firstBusno = hose.firstBusno
  currentBusno : r.hose.currentBusno = hose.currentBusno + t.buses
  log : numberings r.log = t.trace hose.firstBusno path bus devfn hose.currentBusno

/-- What `pciauto_config_device` does for the numbering at a function. -/
structure Configures (t : Bus) (f : Function) (q : Path) (bus : ℕ) (hose : Hose) (r : Scanned) :
    Prop where
  subBus : max bus r.subBus = if f.kind = .bridge then hose.currentBusno + (t.buses + 1) else bus
  firstBusno : r.hose.firstBusno = hose.firstBusno
  currentBusno : r.hose.currentBusno = hose.currentBusno
    + match f.kind with
      | .bridge => t.buses + 1
      | .cardbus => 1
      | _ => 0
  log : numberings r.log
    = match f.kind with
      | .bridge => .busNumbers q (UInt8.ofNat (bus - hose.firstBusno))
          (UInt8.ofNat (hose.currentBusno + 1 - hose.firstBusno))
        :: t.trace hose.firstBusno q (hose.currentBusno + 1) 0 (hose.currentBusno + 1)
        ++ [.subordinate q (UInt8.ofNat
          (t.reach (hose.currentBusno + 1) (hose.currentBusno + 1) - hose.firstBusno))]
      | .cardbus => [.reserved q (hose.currentBusno + 1)]
      | _ => []

theorem configDevice_configures {t : Bus} {f : Function} {q : Path}
    {scan : ℕ → Hose → Scanned} (hcur : bus ≤ hose.currentBusno)
    (hscan : f.kind = .bridge → ∀ hose', hose'.firstBusno = hose.firstBusno →
      hose'.currentBusno = hose.currentBusno + 1 →
      FindsAll t q (hose.currentBusno + 1) 0 (hose.currentBusno + 1) hose'
        (scan (hose.currentBusno + 1) hose')) :
  Configures t f q bus hose (configDevice q f bus scan hose)
  := by
  rw [configDevice]
  cases hf : f.kind with
  | bridge =>
    extract_lets busno out pre leg post
    have hleg : FindsAll t q busno 0 busno pre.1 leg := hscan hf pre.1 rfl rfl
    have hreach := t.le_reach busno busno
    have hsub : max leg.subBus bus = t.reach busno busno := by
      have hle : bus < busno := Nat.lt_succ_of_le hcur
      have heq : leg.subBus = t.reach busno busno := hleg.subBus
      omega
    have hcurrent : leg.hose.currentBusno = hose.currentBusno + (t.buses + 1) := by
      have heq : leg.hose.currentBusno = hose.currentBusno + 1 + t.buses := hleg.currentBusno
      omega
    have hfirst : leg.hose.firstBusno = hose.firstBusno := hleg.firstBusno
    have hlog : numberings leg.log = t.trace hose.firstBusno q busno 0 busno := hleg.log
    refine ⟨?_, hfirst, ?_, ?_⟩
    · rw [if_pos hf]
      have heq : post.1.currentBusno = hose.currentBusno + (t.buses + 1) := hcurrent
      simp only [heq]
      omega
    · simp only [hf]
      exact hcurrent
    · have hpre : numberings pre.2 = [.busNumbers q (UInt8.ofNat (bus - hose.firstBusno))
          (UInt8.ofNat (busno - hose.firstBusno))] := numberings_prescan ..
      have hpost : numberings post.2
          = [.subordinate q (UInt8.ofNat (t.reach busno busno - hose.firstBusno))] := by
        rw [numberings_postscan, hsub, hfirst]
      simp only [hf, numberings_append, hpre, hpost, hlog, out, numberings_setupDevice]
      rfl
  | cardbus =>
    refine ⟨by simp [hf], rfl, by simp [hf], ?_⟩
    simp only [hf, numberings_append, numberings_setupDevice, List.nil_append]
    rfl
  | legacyIde => exact ⟨by simp [hf], rfl, by simp [hf], by simp [hf, numberings_nil]⟩
  | other =>
    exact ⟨by simp [hf], rfl, by simp [hf], by simp [hf, numberings_setupDevice]⟩

theorem scanBus_findsAll (t : Bus) {m : Bool} (hallowed : t.Allowed devfn m)
    (hmulti : m = true → multi = true) (hlast : t.NoLast path devfn)
    (hskip : bus = hose.firstBusno → configHost = false → 0 < devfn)
    (hfirst : hose.firstBusno ≤ hose.currentBusno) (hcur : bus ≤ hose.currentBusno)
    (hbus : bus ≤ subBus) :
  FindsAll t path bus devfn subBus hose
    (scanBus configHost t path bus devfn multi subBus hose)
  := by
  induction t generalizing path bus devfn m multi subBus hose with
  | nil => exact ⟨rfl, rfl, rfl, rfl⟩
  | gap rest ih =>
    rw [scanBus]
    split_ifs with hdevfn
    · obtain ⟨hbuses, hreach, htrace⟩ := hallowed.eq_of_le hlast hdevfn hose.firstBusno bus
        hose.currentBusno subBus
      exact ⟨hreach.symm, rfl, by rw [hbuses, Nat.add_zero], htrace.symm⟩
    · have hm : (devfn % 8 ≠ 0 && m) = true → multi = true :=
        fun h => hmulti (Bool.and_elim_right h)
      obtain ⟨h₁, h₂, h₃, h₄⟩ := ih hallowed hm hlast.gap (fun _ _ => Nat.succ_pos _) hfirst hcur
        hbus
      exact ⟨h₁, h₂, h₃, h₄⟩
  | function f behind rest ihb ihr =>
    obtain ⟨hdevfn, hm, hbehind, hrest⟩ := hallowed
    have hne := hlast.ne
    have hvisit : ¬ (skipDev configHost hose bus devfn ∨ devfn % 8 ≠ 0 ∧ ¬ multi) := by
      rintro (hskipped | ⟨hfunc, hnot⟩)
      · simp only [skipDev, decide_eq_true_eq] at hskipped
        obtain ⟨hroot, hzero, hhost⟩ := hskipped
        have := hskip hroot (Bool.eq_false_iff.mpr hhost)
        omega
      · exact hnot (hmulti (hm hfunc))
    have hm' : (if devfn % 8 = 0 then f.multi else m) = true
        → (if devfn % 8 = 0 then f.multi else multi) = true := by
      split_ifs
      · exact id
      · exact hmulti
    rw [scanBus, if_neg (by omega), if_neg hvisit]
    extract_lets q multi' dev next
    have hdev : Configures behind f q bus hose dev := by
      apply configDevice_configures hcur
      intro hkind hose' hfirst' hcur'
      apply ihb (hbehind hkind) (by simp) (hlast.behind hkind)
      · intro hroot
        omega
      all_goals omega
    have hnext : FindsAll rest path bus (devfn + 1) (max subBus dev.subBus) dev.hose next := by
      apply ihr hrest hm' hlast.rest (fun _ _ => Nat.succ_pos _)
      · rw [hdev.firstBusno, hdev.currentBusno]
        omega
      · rw [hdev.currentBusno]
        omega
      · omega
    have hmax := hdev.subBus
    obtain ⟨hsub, hfirst', hcur', hlog⟩ := hnext
    have hfound : numberings (.found q :: dev.log ++ next.log)
        = .found q :: (numberings dev.log ++ numberings next.log) := by
      rw [List.cons_append, numberings_cons, numberings_append]
      rfl
    rw [hdev.firstBusno, hdev.currentBusno] at hlog
    rw [hdev.currentBusno] at hcur' hsub
    refine ⟨?_, hfirst'.trans hdev.firstBusno, ?_, ?_⟩
    · rw [Bus.reach]
      cases hf : f.kind with
      | bridge =>
        simp only [hf, if_true] at hsub hmax
        have heq : max subBus dev.subBus
            = max subBus (hose.currentBusno + (behind.buses + 1)) := by omega
        rwa [heq] at hsub
      | cardbus =>
        simp only [hf, reduceCtorEq, if_false] at hsub hmax
        have heq : max subBus dev.subBus = subBus := by omega
        rwa [heq] at hsub
      | _ =>
        simp only [hf, reduceCtorEq, if_false] at hsub hmax
        have heq : max subBus dev.subBus = subBus := by omega
        rwa [heq] at hsub
    · rw [Bus.buses]
      simp only [hcur']
      omega
    · simp only [hfound, hdev.log, hlog, Bus.trace]
      cases hf : f.kind with
      | bridge => simp [q]
      | cardbus => simp [q]
      | _ => simp [q]

end Scan

/-! ### The ranges of the bridges -/

/-- The numbers of a bridge; `last` is the last number used behind it. -/
structure Range where
  path : Path
  primary : ℕ
  secondary : ℕ
  subordinate : ℕ
  last : ℕ

namespace Bus

def ranges : Bus → Path → (bus devfn cur : ℕ) → List Range
  | nil, _, _, _, _ => []
  | gap rest, path, bus, devfn, cur => rest.ranges path bus (devfn + 1) cur
  | function f behind rest, path, bus, devfn, cur =>
    match f.kind with
    | .bridge =>
      ⟨path ++ [devfn], bus, cur + 1, behind.reach (cur + 1) (cur + 1), cur + (behind.buses + 1)⟩
        :: behind.ranges (path ++ [devfn]) (cur + 1) 0 (cur + 1)
        ++ rest.ranges path bus (devfn + 1) (cur + (behind.buses + 1))
    | .cardbus => rest.ranges path bus (devfn + 1) (cur + 1)
    | _ => rest.ranges path bus (devfn + 1) cur

/-- The bridges to other buses and to cards, with the numbers they take. -/
def numbers : Bus → Path → (devfn cur : ℕ) → List (Path × ℕ)
  | nil, _, _, _ => []
  | gap rest, path, devfn, cur => rest.numbers path (devfn + 1) cur
  | function f behind rest, path, devfn, cur =>
    match f.kind with
    | .bridge =>
      (path ++ [devfn], cur + 1) :: behind.numbers (path ++ [devfn]) 0 (cur + 1)
        ++ rest.numbers path (devfn + 1) (cur + (behind.buses + 1))
    | .cardbus => (path ++ [devfn], cur + 1) :: rest.numbers path (devfn + 1) (cur + 1)
    | _ => rest.numbers path (devfn + 1) cur

variable {t : Bus} {path : Path} {bus devfn cur subBus : ℕ} {r : Range}

theorem reach_le (t : Bus) (h : subBus ≤ cur) :
  t.reach cur subBus ≤ cur + t.buses
  := by
  induction t generalizing cur subBus with
  | nil => exact h
  | gap rest ih => exact ih h
  | function f behind rest _ ih =>
    rw [reach, buses]
    cases f.kind with
    | bridge =>
      have hle := @ih (cur + (behind.buses + 1)) (max subBus (cur + (behind.buses + 1)))
        (by omega)
      simp only
      omega
    | cardbus =>
      have hle := @ih (cur + 1) subBus (by omega)
      simp only
      omega
    | _ =>
      have hle := ih h
      simp only
      omega

/-- The scan returns the last number used unless that went to a card. -/
theorem reach_eq (t : Bus) (h : subBus ≤ cur) :
  (t.lastBridge = none → t.buses = 0 ∧ t.reach cur subBus = subBus)
    ∧ (t.lastBridge = some .bridge → t.reach cur subBus = cur + t.buses)
    ∧ (t.lastBridge = some .cardbus → t.reach cur subBus < cur + t.buses)
  := by
  induction t generalizing cur subBus with
  | nil => simp [lastBridge, buses, reach]
  | gap rest ih => exact ih h
  | function f behind rest _ ih =>
    rw [lastBridge, reach, buses]
    cases hf : f.kind with
    | bridge =>
      obtain ⟨hnone, hbridge, hcard⟩ := @ih (cur + (behind.buses + 1))
        (max subBus (cur + (behind.buses + 1))) (by omega)
      cases hrest : rest.lastBridge with
      | none =>
        obtain ⟨hbuses, hreach⟩ := hnone hrest
        simp [hreach, hbuses]
        omega
      | some k =>
        simp only [Option.some_or, Option.some.injEq, reduceCtorEq, false_implies, true_and]
        refine ⟨?_, ?_⟩
        · rintro rfl
          rw [hbridge hrest]
          omega
        · rintro rfl
          have := hcard hrest
          omega
    | cardbus =>
      obtain ⟨hnone, hbridge, hcard⟩ := @ih (cur + 1) subBus (by omega)
      cases hrest : rest.lastBridge with
      | none =>
        obtain ⟨hbuses, hreach⟩ := hnone hrest
        simp [hreach, hbuses]
        omega
      | some k =>
        simp only [Option.some_or, Option.some.injEq, reduceCtorEq, false_implies, true_and]
        refine ⟨?_, ?_⟩
        · rintro rfl
          rw [hbridge hrest]
          omega
        · rintro rfl
          have := hcard hrest
          omega
    | _ => simpa using ih h

theorem lastBridge_kind {k : Function.Kind} (h : t.lastBridge = some k) :
  k = .bridge ∨ k = .cardbus
  := by
  induction t with
  | nil => simp [lastBridge] at h
  | gap rest ih => exact ih h
  | function f behind rest _ ih =>
    rw [lastBridge, Option.or_eq_some_iff] at h
    rcases h with h | ⟨-, h⟩
    · exact ih h
    · split_ifs at h with hf
      cases h
      exact hf

theorem reach_self_iff (t : Bus) (cur : ℕ) :
  t.reach cur cur = cur + t.buses ↔ t.lastBridge ≠ some .cardbus
  := by
  obtain ⟨hnone, hbridge, hcard⟩ := reach_eq t (le_refl cur)
  cases h : t.lastBridge with
  | none =>
    obtain ⟨hbuses, hreach⟩ := hnone h
    simp [hbuses, hreach]
  | some k =>
    rcases lastBridge_kind h with rfl | rfl
    · simp [hbridge h]
    · have := hcard h
      simp
      omega

/-- A bridge lies below the bus it is on. -/
theorem path_of_mem_ranges (h : r ∈ t.ranges path bus devfn cur) :
  ∃ e q, devfn ≤ e ∧ r.path = path ++ e :: q
  := by
  induction t generalizing path bus devfn cur with
  | nil => cases h
  | gap rest ih =>
    obtain ⟨e, q, he, hq⟩ := ih h
    exact ⟨e, q, by omega, hq⟩
  | function f behind rest ihb ihr =>
    have hrest {c : ℕ} (h : r ∈ rest.ranges path bus (devfn + 1) c) :
        ∃ e q, devfn ≤ e ∧ r.path = path ++ e :: q := by
      obtain ⟨e, q, he, hq⟩ := ihr h
      exact ⟨e, q, by omega, hq⟩
    rw [ranges] at h
    cases hf : f.kind with
    | bridge =>
      simp only [hf, List.cons_append, List.mem_cons, List.mem_append] at h
      rcases h with rfl | h | h
      · exact ⟨devfn, [], le_rfl, rfl⟩
      · obtain ⟨e, q, -, hq⟩ := ihb h
        exact ⟨devfn, e :: q, le_rfl, by rw [hq, List.append_assoc, List.singleton_append]⟩
      · exact hrest h
    | cardbus =>
      simp only [hf] at h
      exact hrest h
    | _ =>
      simp only [hf] at h
      exact hrest h

/-- The numbers of a bridge are among those of the tree. -/
structure Range.Within (r : Range) (bus cur reach : ℕ) : Prop where
  le_primary : bus ≤ r.primary
  primary_lt : r.primary < r.secondary
  lt_secondary : cur < r.secondary
  secondary_le : r.secondary ≤ r.subordinate
  subordinate_le : r.subordinate ≤ r.last
  last_le : r.last ≤ reach

theorem within_of_mem_ranges (hbus : bus ≤ cur) (h : r ∈ t.ranges path bus devfn cur)
    (hsub : subBus ≤ cur) :
  Range.Within r bus cur (t.reach cur subBus)
  := by
  induction t generalizing path bus devfn cur subBus with
  | nil => cases h
  | gap rest ih => exact ih hbus h hsub
  | function f behind rest ihb ihr =>
    rw [ranges] at h
    rw [reach]
    cases hf : f.kind with
    | bridge =>
      have hreach := rest.le_reach (cur + (behind.buses + 1))
        (max subBus (cur + (behind.buses + 1)))
      have hle := behind.reach_le (le_refl (cur + 1))
      have hge := behind.le_reach (cur + 1) (cur + 1)
      simp only [hf, List.cons_append, List.mem_cons, List.mem_append] at h ⊢
      rcases h with rfl | h | h
      · constructor <;> simp only <;> omega
      · obtain ⟨h₀, h₁, h₂, h₃, h₄, h₅⟩ := ihb le_rfl h le_rfl
        constructor <;> omega
      · obtain ⟨h₀, h₁, h₂, h₃, h₄, h₅⟩ :=
          @ihr path bus (devfn + 1) (cur + (behind.buses + 1))
            (max subBus (cur + (behind.buses + 1))) (by omega) h (by omega)
        constructor <;> omega
    | cardbus =>
      simp only [hf] at h
      obtain ⟨h₀, h₁, h₂, h₃, h₄, h₅⟩ := @ihr path bus (devfn + 1) (cur + 1) subBus (by omega) h
        (by omega)
      exact ⟨h₀, h₁, by omega, h₃, h₄, h₅⟩
    | _ =>
      simp only [hf] at h
      exact ihr hbus h hsub

/-- How the ranges of two bridges lie, the first of which is found first. -/
def Range.Before (r r' : Range) : Prop :=
  r.path <+: r'.path ∧ ¬ r'.path <+: r.path ∧ r.secondary < r'.secondary
      ∧ r'.last ≤ r.subordinate
    ∨ ¬ r.path <+: r'.path ∧ ¬ r'.path <+: r.path ∧ r.last < r'.secondary

theorem not_prefix_of_lt {p q q' : Path} {e e' : ℕ} (h : e < e') :
  ¬ p ++ e :: q <+: p ++ e' :: q' ∧ ¬ p ++ e' :: q' <+: p ++ e :: q
  := by
  rw [List.prefix_append_right_inj, List.prefix_append_right_inj, List.cons_prefix_cons,
    List.cons_prefix_cons]
  omega

theorem pairwise_ranges (t : Bus) (path : Path) (devfn : ℕ) (hbus : bus ≤ cur) :
  (t.ranges path bus devfn cur).Pairwise Range.Before
  := by
  induction t generalizing path bus devfn cur with
  | nil => exact .nil
  | gap rest ih => exact ih path (devfn + 1) hbus
  | function f behind rest ihb ihr =>
    rw [ranges]
    cases hf : f.kind with
    | bridge =>
      have hle := behind.reach_le (le_refl (cur + 1))
      -- what is found after the leg of the bridge
      have hrest {q : Path} {r' : Range}
          (h : r' ∈ rest.ranges path bus (devfn + 1) (cur + (behind.buses + 1))) :
          ¬ path ++ devfn :: q <+: r'.path ∧ ¬ r'.path <+: path ++ devfn :: q
            ∧ cur + (behind.buses + 1) < r'.secondary := by
        obtain ⟨e, q', he, hq'⟩ := path_of_mem_ranges h
        obtain ⟨hne, hne'⟩ := @not_prefix_of_lt path q q' devfn e (by omega)
        have hwithin := within_of_mem_ranges (by omega) h (Nat.zero_le _)
        exact ⟨by rwa [hq'], by rwa [hq'], hwithin.lt_secondary⟩
      simp only [List.cons_append, List.pairwise_cons, List.pairwise_append]
      refine ⟨?_, ihb _ _ le_rfl, ihr _ _ (by omega), ?_⟩
      · intro r' hr'
        rcases List.mem_append.mp hr' with h | h
        · obtain ⟨e, q', -, hq'⟩ := path_of_mem_ranges h
          have hwithin := within_of_mem_ranges le_rfl h le_rfl
          have hlonger : ¬ r'.path <+: path ++ [devfn] := by
            intro hle
            have hlen := hle.length_le
            rw [hq'] at hlen
            simp at hlen
          left
          exact ⟨⟨e :: q', hq'.symm⟩, hlonger, hwithin.lt_secondary, hwithin.last_le⟩
        · right
          exact hrest h
      · intro r₁ h₁ r₂ h₂
        obtain ⟨e, q', -, hq'⟩ := path_of_mem_ranges h₁
        have hwithin := within_of_mem_ranges le_rfl h₁ le_rfl
        obtain ⟨hne, hne', hlt⟩ := @hrest (e :: q') r₂ h₂
        rw [List.append_assoc, List.singleton_append] at hq'
        right
        rw [hq']
        exact ⟨hne, hne', by have := hwithin.last_le; omega⟩
    | cardbus => exact ihr _ _ (by omega)
    | _ => exact ihr _ _ hbus

/-- Every number that is used goes to one bridge or card. -/
theorem mem_numbers_iff (t : Bus) (path : Path) (devfn cur n : ℕ) :
  (∃ q, (q, n) ∈ t.numbers path devfn cur) ↔ cur < n ∧ n ≤ cur + t.buses
  := by
  induction t generalizing path devfn cur with
  | nil => simp [numbers, buses]
  | gap rest ih => exact ih path (devfn + 1) cur
  | function f behind rest ihb ihr =>
    rw [numbers, buses]
    cases hf : f.kind with
    | bridge =>
      simp only [List.cons_append, List.mem_cons, List.mem_append, Prod.mk.injEq, exists_or,
        exists_and_right, exists_eq, true_and, ihb, ihr]
      omega
    | cardbus =>
      simp only [List.mem_cons, Prod.mk.injEq, exists_or, exists_and_right, exists_eq, true_and,
        ihr]
      omega
    | _ =>
      simp only [ihr]
      omega

theorem path_of_mem_numbers {x : Path × ℕ} (h : x ∈ t.numbers path devfn cur) :
  ∃ e q, devfn ≤ e ∧ x.1 = path ++ e :: q
  := by
  induction t generalizing path devfn cur with
  | nil => cases h
  | gap rest ih =>
    obtain ⟨e, q, he, hq⟩ := ih h
    exact ⟨e, q, by omega, hq⟩
  | function f behind rest ihb ihr =>
    have hrest {c : ℕ} (h : x ∈ rest.numbers path (devfn + 1) c) :
        ∃ e q, devfn ≤ e ∧ x.1 = path ++ e :: q := by
      obtain ⟨e, q, he, hq⟩ := ihr h
      exact ⟨e, q, by omega, hq⟩
    rw [numbers] at h
    cases hf : f.kind with
    | bridge =>
      simp only [hf, List.cons_append, List.mem_cons, List.mem_append] at h
      rcases h with rfl | h | h
      · exact ⟨devfn, [], le_rfl, rfl⟩
      · obtain ⟨e, q, -, hq⟩ := ihb h
        exact ⟨devfn, e :: q, le_rfl, by rw [hq, List.append_assoc, List.singleton_append]⟩
      · exact hrest h
    | cardbus =>
      simp only [hf, List.mem_cons] at h
      rcases h with rfl | h
      · exact ⟨devfn, [], le_rfl, rfl⟩
      · exact hrest h
    | _ =>
      simp only [hf] at h
      exact hrest h

/-- The numbers behind a bridge are those of its range. -/
theorem behind_iff (h : r ∈ t.ranges path bus devfn cur) (n : ℕ) :
  (∃ q, r.path <+: q ∧ (q, n) ∈ t.numbers path devfn cur) ↔ r.secondary ≤ n ∧ n ≤ r.last
  := by
  induction t generalizing path bus devfn cur with
  | nil => cases h
  | gap rest ih => exact ih h
  | function f behind rest ihb ihr =>
    -- a bridge on the rest of the bus has nothing from here behind it
    have hrest {c : ℕ} (h : r ∈ rest.ranges path bus (devfn + 1) c) (q : Path) :
        ¬ r.path <+: path ++ devfn :: q := by
      obtain ⟨e, q', he, hq'⟩ := path_of_mem_ranges h
      rw [hq']
      exact (not_prefix_of_lt (by omega)).2
    -- and neither has a bridge from here something on the rest of the bus
    have hhere {c : ℕ} {q q' : Path} (h : (q, n) ∈ rest.numbers path (devfn + 1) c) :
        ¬ path ++ devfn :: q' <+: q := by
      obtain ⟨e, q'', he, hq''⟩ := path_of_mem_numbers h
      rw [show q = path ++ e :: q'' from hq'']
      exact (not_prefix_of_lt (by omega)).1
    rw [ranges] at h
    rw [numbers]
    cases hf : f.kind with
    | bridge =>
      simp only [hf, List.cons_append, List.mem_cons, List.mem_append] at h
      simp only [List.cons_append, List.mem_cons, List.mem_append, Prod.mk.injEq]
      rcases h with rfl | h | h
      · have hall := mem_numbers_iff behind (path ++ [devfn]) 0 (cur + 1) n
        simp only
        constructor
        · rintro ⟨q, hq, ⟨rfl, rfl⟩ | hmem | hmem⟩
          · omega
          · have := hall.mp ⟨q, hmem⟩
            omega
          · exact absurd hq (hhere hmem)
        · intro hn
          rcases Nat.eq_or_lt_of_le hn.1 with rfl | hlt
          · exact ⟨_, List.prefix_rfl, .inl ⟨rfl, rfl⟩⟩
          · obtain ⟨q, hmem⟩ := hall.mpr (by omega)
            obtain ⟨e, q', -, hq'⟩ := path_of_mem_numbers hmem
            exact ⟨q, ⟨e :: q', hq'.symm⟩, .inr (.inl hmem)⟩
      · obtain ⟨e, q', -, hq'⟩ := path_of_mem_ranges h
        rw [← ihb h]
        constructor
        · rintro ⟨q, hq, ⟨rfl, rfl⟩ | hmem | hmem⟩
          · have hlen := hq.length_le
            rw [hq'] at hlen
            simp at hlen
          · exact ⟨q, hq, hmem⟩
          · rw [hq', List.append_assoc] at hq
            exact absurd hq (hhere hmem)
        · rintro ⟨q, hq, hmem⟩
          exact ⟨q, hq, .inr (.inl hmem)⟩
      · rw [← ihr h]
        constructor
        · rintro ⟨q, hq, ⟨rfl, rfl⟩ | hmem | hmem⟩
          · exact absurd hq (hrest h [])
          · obtain ⟨e, q', -, hq'⟩ := path_of_mem_numbers hmem
            rw [show q = path ++ [devfn] ++ e :: q' from hq', List.append_assoc] at hq
            exact absurd hq (hrest h _)
          · exact ⟨q, hq, hmem⟩
        · rintro ⟨q, hq, hmem⟩
          exact ⟨q, hq, .inr (.inr hmem)⟩
    | cardbus =>
      simp only [hf] at h
      simp only [List.mem_cons, Prod.mk.injEq]
      rw [← ihr h]
      constructor
      · rintro ⟨q, hq, ⟨rfl, rfl⟩ | hmem⟩
        · exact absurd hq (hrest h [])
        · exact ⟨q, hq, hmem⟩
      · rintro ⟨q, hq, hmem⟩
        exact ⟨q, hq, .inr hmem⟩
    | _ =>
      simp only [hf] at h
      exact ihr h

/-- The subordinate number is the last one used, unless the last one went to a card. -/
theorem cardsInside_iff (t : Bus) (path : Path) (bus devfn cur : ℕ) :
  t.CardsInside ↔ ∀ r ∈ t.ranges path bus devfn cur, r.subordinate = r.last
  := by
  induction t generalizing path bus devfn cur with
  | nil => simp [CardsInside, ranges]
  | gap rest ih => exact ih path bus (devfn + 1) cur
  | function f behind rest ihb ihr =>
    rw [CardsInside, ranges]
    cases hf : f.kind with
    | bridge =>
      have hself := behind.reach_self_iff (cur + 1)
      have heq : cur + 1 + behind.buses = cur + (behind.buses + 1) := by omega
      simp only [true_implies, List.cons_append, List.forall_mem_cons, List.forall_mem_append,
        ← hself, ihb (path ++ [devfn]) (cur + 1) 0 (cur + 1),
        ihr path bus (devfn + 1) (cur + (behind.buses + 1)), heq, and_assoc]
    | cardbus => simpa using ihr path bus (devfn + 1) (cur + 1)
    | _ => simpa using ihr path bus (devfn + 1) cur

/-! ### Reading the log of a scan -/

variable {first : ℕ}

theorem filterMap_found (first : ℕ) (t : Bus) (path : Path) (bus devfn cur : ℕ) :
  (t.trace first path bus devfn cur).filterMap Event.found?
    = (t.functions path devfn).map Prod.fst
  := by
  induction t generalizing path bus devfn cur with
  | nil => rfl
  | gap rest ih => exact ih path bus (devfn + 1) cur
  | function f behind rest ihb ihr =>
    rw [trace, functions]
    cases hf : f.kind with
    | bridge => simp [List.filterMap_cons, Event.found?, ihb, ihr]
    | cardbus => simp [List.filterMap_cons, Event.found?, ihr]
    | _ => simp [Event.found?, ihr]

theorem mem_trace_busNumbers {q : Path} {p s : Byte} :
  .busNumbers q p s ∈ t.trace first path bus devfn cur
    ↔ ∃ r ∈ t.ranges path bus devfn cur, r.path = q ∧ p = UInt8.ofNat (r.primary - first)
      ∧ s = UInt8.ofNat (r.secondary - first)
  := by
  induction t generalizing path bus devfn cur with
  | nil => simp [trace, ranges]
  | gap rest ih => exact ih
  | function f behind rest ihb ihr =>
    rw [trace, ranges]
    cases hf : f.kind with
    | bridge =>
      simp only [List.cons_append, List.mem_cons, List.mem_append, ihb, ihr, reduceCtorEq,
        false_or, Event.busNumbers.injEq, or_and_right, exists_or, exists_eq_left,
        @eq_comm Path q]
    | cardbus => simp [ihr]
    | _ => simp [ihr]

theorem mem_numbers_iff_trace {q : Path} {n : ℕ} :
  (q, n) ∈ t.numbers path devfn cur
    ↔ (∃ r ∈ t.ranges path bus devfn cur, r.path = q ∧ n = r.secondary)
      ∨ .reserved q n ∈ t.trace first path bus devfn cur
  := by
  induction t generalizing path bus devfn cur with
  | nil => simp [numbers, ranges, trace]
  | gap rest ih => exact ih
  | function f behind rest ihb ihr =>
    rw [numbers, ranges, trace]
    cases hf : f.kind with
    | bridge =>
      simp only [List.cons_append, List.mem_cons, List.mem_append, Prod.mk.injEq,
        @ihb (path ++ [devfn]) (cur + 1) 0 (cur + 1),
        @ihr path bus (devfn + 1) (cur + (behind.buses + 1)), reduceCtorEq, false_or,
        or_and_right, exists_or, exists_eq_left, @eq_comm Path q]
      simp only [or_assoc, or_left_comm]
    | cardbus =>
      simp only [List.mem_cons, Prod.mk.injEq, @ihr path bus (devfn + 1) (cur + 1), reduceCtorEq,
        false_or, Event.reserved.injEq]
      rw [or_left_comm]
    | _ => simp [@ihr path bus (devfn + 1) cur]

theorem filterMap_subordinate_eq_nil {q : Path}
    (h : ∀ r ∈ t.ranges path bus devfn cur, r.path ≠ q) :
  (t.trace first path bus devfn cur).filterMap (Event.subordinate? q) = []
  := by
  induction t generalizing path bus devfn cur with
  | nil => rfl
  | gap rest ih => exact ih h
  | function f behind rest ihb ihr =>
    rw [ranges] at h
    rw [trace]
    cases hf : f.kind with
    | bridge =>
      simp only [hf, List.cons_append, List.forall_mem_cons, List.forall_mem_append] at h
      obtain ⟨hne, hbehind, hrest⟩ := h
      simp [List.filterMap_cons, Event.subordinate?, hne, ihb hbehind, ihr hrest]
    | cardbus =>
      simp only [hf] at h
      simp [List.filterMap_cons, Event.subordinate?, ihr h]
    | _ =>
      simp only [hf] at h
      simp [List.filterMap_cons, Event.subordinate?, ihr h]

/-- The subordinate register is written twice. -/
theorem filterMap_subordinate (h : r ∈ t.ranges path bus devfn cur) :
  (t.trace first path bus devfn cur).filterMap (Event.subordinate? r.path)
    = [0xff, UInt8.ofNat (r.subordinate - first)]
  := by
  induction t generalizing path bus devfn cur with
  | nil => cases h
  | gap rest ih => exact ih h
  | function f behind rest ihb ihr =>
    -- no other bridge has this path
    have hrest {c : ℕ} {q : Path} :
        ∀ r ∈ rest.ranges path bus (devfn + 1) c, r.path ≠ path ++ devfn :: q := by
      intro r hr heq
      obtain ⟨e, q', he, hq'⟩ := path_of_mem_ranges hr
      rw [hq'] at heq
      exact (not_prefix_of_lt (show devfn < e by omega)).1 ⟨[], by rw [heq, List.append_nil]⟩
    have hbehind {c : ℕ} :
        ∀ r ∈ behind.ranges (path ++ [devfn]) c 0 c, ∃ e q, r.path = path ++ devfn :: e :: q := by
      intro r hr
      obtain ⟨e, q, -, hq⟩ := path_of_mem_ranges hr
      exact ⟨e, q, by rw [hq, List.append_assoc, List.singleton_append]⟩
    rw [ranges] at h
    rw [trace]
    cases hf : f.kind with
    | bridge =>
      simp only [hf, List.cons_append, List.mem_cons, List.mem_append] at h
      rcases h with rfl | h | h
      · have hleg : ∀ r ∈ behind.ranges (path ++ [devfn]) (cur + 1) 0 (cur + 1),
            r.path ≠ path ++ [devfn] := by
          intro r hr
          obtain ⟨e, q, hq⟩ := hbehind r hr
          simp [hq]
        simp [List.filterMap_cons, Event.subordinate?, filterMap_subordinate_eq_nil hleg,
          filterMap_subordinate_eq_nil hrest]
      · obtain ⟨e, q, hq⟩ := hbehind r h
        have hne : path ++ [devfn] ≠ r.path := by simp [hq]
        have hnil := ihb h
        rw [hq] at hnil hne ⊢
        simp [List.filterMap_cons, Event.subordinate?, hnil, filterMap_subordinate_eq_nil hrest]
      · have hne : path ++ [devfn] ≠ r.path := (hrest r h).symm
        have hleg : ∀ r' ∈ behind.ranges (path ++ [devfn]) (cur + 1) 0 (cur + 1),
            r'.path ≠ r.path := by
          intro r' hr' heq
          obtain ⟨e, q, hq⟩ := hbehind r' hr'
          exact hrest r h (heq ▸ hq)
        simp [List.filterMap_cons, Event.subordinate?, hne, ihr h,
          filterMap_subordinate_eq_nil hleg]
    | cardbus =>
      simp only [hf] at h
      simp [List.filterMap_cons, Event.subordinate?, ihr h]
    | _ =>
      simp only [hf] at h
      simp [List.filterMap_cons, Event.subordinate?, ihr h]

theorem path_of_mem_functions {x : Path × Function} (h : x ∈ t.functions path devfn) :
  ∃ e q, devfn ≤ e ∧ x.1 = path ++ e :: q
  := by
  induction t generalizing path devfn with
  | nil => cases h
  | gap rest ih =>
    obtain ⟨e, q, he, hq⟩ := ih h
    exact ⟨e, q, by omega, hq⟩
  | function f behind rest ihb ihr =>
    rw [functions, List.cons_append, List.mem_cons, List.mem_append] at h
    rcases h with rfl | h | h
    · exact ⟨devfn, [], le_rfl, rfl⟩
    · split_ifs at h
      · obtain ⟨e, q, -, hq⟩ := ihb h
        exact ⟨devfn, e :: q, le_rfl, by rw [hq, List.append_assoc, List.singleton_append]⟩
      · cases h
    · obtain ⟨e, q, he, hq⟩ := ihr h
      exact ⟨e, q, by omega, hq⟩

theorem nodup_functions (t : Bus) (path : Path) (devfn : ℕ) :
  ((t.functions path devfn).map Prod.fst).Nodup
  := by
  induction t generalizing path devfn with
  | nil => exact List.nodup_nil
  | gap rest ih => exact ih path (devfn + 1)
  | function f behind rest ihb ihr =>
    have hrest {q : Path} : path ++ devfn :: q
        ∉ (rest.functions path (devfn + 1)).map Prod.fst := by
      intro hmem
      obtain ⟨x, hx, hq⟩ := List.mem_map.mp hmem
      obtain ⟨e, q', he, hq'⟩ := path_of_mem_functions hx
      rw [hq] at hq'
      exact (not_prefix_of_lt (show devfn < e by omega)).1 ⟨[], by rw [← hq', List.append_nil]⟩
    rw [functions]
    split_ifs with hf
    · rw [List.cons_append, List.map_cons, List.nodup_cons, List.map_append, List.nodup_append']
      refine ⟨?_, ihb _ _, ihr _ _, ?_⟩
      · rw [List.mem_append, not_or]
        refine ⟨?_, hrest⟩
        intro hmem
        obtain ⟨x, hx, hq⟩ := List.mem_map.mp hmem
        obtain ⟨e, q', -, hq'⟩ := path_of_mem_functions hx
        rw [hq] at hq'
        simp at hq'
      · intro q hq hq'
        obtain ⟨x, hx, rfl⟩ := List.mem_map.mp hq
        obtain ⟨e, q', -, heq⟩ := path_of_mem_functions hx
        rw [heq, List.append_assoc] at hq'
        exact hrest hq'
    · rw [List.cons_append, List.nil_append, List.map_cons, List.nodup_cons]
      exact ⟨hrest, ihr _ _⟩

/-- Every bridge has a range. -/
theorem exists_range {x : Path × Function} (h : x ∈ t.functions path devfn)
    (hkind : x.2.kind = .bridge) (bus cur : ℕ) :
  ∃ r ∈ t.ranges path bus devfn cur, r.path = x.1
  := by
  induction t generalizing path bus devfn cur with
  | nil => cases h
  | gap rest ih => exact ih h bus cur
  | function f behind rest ihb ihr =>
    rw [functions, List.cons_append, List.mem_cons, List.mem_append] at h
    rw [ranges]
    rcases h with rfl | h | h
    · simp only [hkind, List.cons_append]
      exact ⟨_, List.mem_cons_self, rfl⟩
    · split_ifs at h with hf
      · obtain ⟨r, hr, hpath⟩ := ihb h (cur + 1) (cur + 1)
        simp only [hf, List.cons_append]
        exact ⟨r, List.mem_cons_of_mem _ (List.mem_append_left _ hr), hpath⟩
      · cases h
    · cases hf : f.kind with
      | bridge =>
        obtain ⟨r, hr, hpath⟩ := ihr h bus (cur + (behind.buses + 1))
        exact ⟨r, List.mem_append_right _ hr, hpath⟩
      | cardbus => exact ihr h bus (cur + 1)
      | _ => exact ihr h bus cur

end Bus

/-! ### The numbers of a tree -/

section Trace

variable {t : Bus} {first bus : ℕ} {q : Path} {p s u : Byte}

theorem toNat_register {n : ℕ} (hfirst : first ≤ n) (hn : n ≤ 255) :
  first + (UInt8.ofNat (n - first)).toNat = n
  := by
  rw [UInt8.toNat_ofNat', Nat.mod_eq_of_lt (by omega)]
  omega

/-- The registers hold the numbers of the ranges. -/
theorem registers_iff (hfirst : first ≤ bus) (hmax : bus + t.buses ≤ 255) :
  Registers (t.trace first [] bus 0 bus) q p s u
    ↔ ∃ r ∈ t.ranges [] bus 0 bus, r.path = q ∧ first + p.toNat = r.primary
      ∧ first + s.toNat = r.secondary ∧ first + u.toNat = r.subordinate
  := by
  have hreach := t.reach_le (le_refl bus)
  have hregister {n : ℕ} {b : Byte} (hn : first ≤ n ∧ n ≤ 255) :
      b = UInt8.ofNat (n - first) ↔ first + b.toNat = n := by
    constructor
    · rintro rfl
      exact toNat_register hn.1 hn.2
    · rintro rfl
      rw [Nat.add_sub_cancel_left, UInt8.ofNat_toNat]
  constructor
  · rintro ⟨hnumbers, hlast⟩
    obtain ⟨r, hr, rfl, hp, hs⟩ := Bus.mem_trace_busNumbers.mp hnumbers
    obtain ⟨h₀, h₁, h₂, h₃, h₄, h₅⟩ := Bus.within_of_mem_ranges le_rfl hr le_rfl
    rw [Bus.filterMap_subordinate hr] at hlast
    have hu : UInt8.ofNat (r.subordinate - first) = u := Option.some.inj hlast
    exact ⟨r, hr, rfl, (hregister (by omega)).mp hp, (hregister (by omega)).mp hs,
      (hregister (by omega)).mp hu.symm⟩
  · rintro ⟨r, hr, rfl, hp, hs, hu⟩
    obtain ⟨h₀, h₁, h₂, h₃, h₄, h₅⟩ := Bus.within_of_mem_ranges le_rfl hr le_rfl
    constructor
    · apply Bus.mem_trace_busNumbers.mpr
      exact ⟨r, hr, rfl, (hregister (by omega)).mpr hp, (hregister (by omega)).mpr hs⟩
    · rw [Bus.filterMap_subordinate hr, (hregister (by omega)).mpr hu]
      rfl

theorem busesBehind_eq (hfirst : first ≤ bus) (hmax : bus + t.buses ≤ 255) {r : Range}
    (hr : r ∈ t.ranges [] bus 0 bus) :
  busesBehind first (t.trace first [] bus 0 bus) r.path = Set.Icc r.secondary r.last
  := by
  have hreach := t.reach_le (le_refl bus)
  ext n
  rw [Set.mem_Icc, ← Bus.behind_iff hr n]
  simp only [busesBehind, Set.mem_ofPred_eq]
  apply exists_congr
  intro q
  apply and_congr_right
  intro _
  rw [@Bus.mem_numbers_iff_trace t [] bus 0 bus first]
  apply or_congr_left
  constructor
  · rintro ⟨p, s, hmem, rfl⟩
    obtain ⟨r', hr', hpath, -, rfl⟩ := Bus.mem_trace_busNumbers.mp hmem
    obtain ⟨h₀, h₁, h₂, h₃, h₄, h₅⟩ := Bus.within_of_mem_ranges le_rfl hr' le_rfl
    exact ⟨r', hr', hpath, toNat_register (by omega) (by omega)⟩
  · rintro ⟨r', hr', hpath, rfl⟩
    obtain ⟨h₀, h₁, h₂, h₃, h₄, h₅⟩ := Bus.within_of_mem_ranges le_rfl hr' le_rfl
    exact ⟨_, _, Bus.mem_trace_busNumbers.mpr ⟨r', hr', hpath, rfl, rfl⟩,
      (toNat_register (by omega) (by omega)).symm⟩

/-- How the ranges of any two bridges lie. -/
theorem before_or_eq (t : Bus) (bus : ℕ) {r r' : Range} (hr : r ∈ t.ranges [] bus 0 bus)
    (hr' : r' ∈ t.ranges [] bus 0 bus) :
  r = r' ∨ Bus.Range.Before r r' ∨ Bus.Range.Before r' r
  := by
  have hpair := t.pairwise_ranges [] 0 (le_refl bus)
  generalize t.ranges [] bus 0 bus = ranges at hr hr' hpair
  induction hpair with
  | nil => cases hr
  | cons hhead _ ih =>
    rcases List.mem_cons.mp hr with rfl | htail <;> rcases List.mem_cons.mp hr' with rfl | htail'
    · exact .inl rfl
    · exact .inr (.inl (hhead _ htail'))
    · exact .inr (.inr (hhead _ htail))
    · exact ih htail htail'

theorem numbered_trace_iff (t : Bus) (hfirst : first ≤ bus) (hmax : bus + t.buses ≤ 255) :
  Numbered (t.functions [] 0) first (t.trace first [] bus 0 bus) ↔ t.CardsInside
  := by
  have hreg {q : Path} {p s u : Byte} :
      Registers (t.trace first [] bus 0 bus) q p s u
        ↔ ∃ r ∈ t.ranges [] bus 0 bus, r.path = q ∧ first + p.toNat = r.primary
          ∧ first + s.toNat = r.secondary ∧ first + u.toNat = r.subordinate :=
    registers_iff hfirst hmax
  have hregister (r : Range) (hr : r ∈ t.ranges [] bus 0 bus) :
      ∃ p s u, Registers (t.trace first [] bus 0 bus) r.path p s u
        ∧ first + u.toNat = r.subordinate := by
    obtain ⟨h₀, h₁, h₂, h₃, h₄, h₅⟩ := Bus.within_of_mem_ranges le_rfl hr le_rfl
    have hreach := t.reach_le (le_refl bus)
    have hu : first + (UInt8.ofNat (r.subordinate - first)).toNat = r.subordinate :=
      toNat_register (by omega) (by omega)
    exact ⟨_, _, _, hreg.mpr ⟨r, hr, rfl, toNat_register (by omega) (by omega),
      toNat_register (by omega) (by omega), hu⟩, hu⟩
  have hgreatest (r : Range) (hr : r ∈ t.ranges [] bus 0 bus) :
      IsGreatest (busesBehind first (t.trace first [] bus 0 bus) r.path) r.last := by
    obtain ⟨h₀, h₁, h₂, h₃, h₄, h₅⟩ := Bus.within_of_mem_ranges le_rfl hr le_rfl
    rw [busesBehind_eq hfirst hmax hr]
    exact isGreatest_Icc (by omega)
  rw [Bus.cardsInside_iff t [] bus 0 bus]
  constructor
  · intro h r hr
    obtain ⟨p, s, u, hregs, hu⟩ := hregister r hr
    have hsub := h.subordinate _ p s u hregs
    rw [← hu]
    exact hsub.unique (hgreatest r hr)
  · intro hlast
    constructor
    · intro q
      rw [Bus.filterMap_found, (t.nodup_functions [] 0).count]
    · intro x hx hkind
      obtain ⟨r, hr, hpath⟩ := Bus.exists_range hx hkind bus bus
      obtain ⟨p, s, u, hregs, -⟩ := hregister r hr
      rw [hpath] at hregs
      exact ⟨p, s, u, hregs⟩
    · intro q p s u hregs
      obtain ⟨r, hr, rfl, hp, hs, hu⟩ := hreg.mp hregs
      have hlt := (Bus.within_of_mem_ranges le_rfl hr (le_refl bus)).primary_lt
      rw [UInt8.lt_iff_toNat_lt]
      omega
    · intro q p s u hregs
      obtain ⟨r, hr, rfl, hp, hs, hu⟩ := hreg.mp hregs
      rw [hu, hlast r hr]
      exact hgreatest r hr
    · intro q p s u q' p' u' hregs hregs'
      obtain ⟨r, hr, rfl, hp, hs, hu⟩ := hreg.mp hregs
      obtain ⟨r', hr', rfl, hp', hs', hu'⟩ := hreg.mp hregs'
      have hin := Bus.within_of_mem_ranges le_rfl hr (le_refl bus)
      have hin' := Bus.within_of_mem_ranges le_rfl hr' (le_refl bus)
      obtain ⟨h₀, h₁, h₂, h₃, h₄, h₅⟩ := hin
      obtain ⟨h₀', h₁', h₂', h₃', h₄', h₅'⟩ := hin'
      rcases before_or_eq t bus hr hr' with rfl | h | h
      · rfl
      · rcases h with ⟨-, -, h, -⟩ | ⟨-, -, h⟩ <;> omega
      · rcases h with ⟨-, -, h, -⟩ | ⟨-, -, h⟩ <;> omega
    · intro q p s u q' p' s' u' hregs hregs' hprefix
      obtain ⟨r, hr, rfl, hp, hs, hu⟩ := hreg.mp hregs
      obtain ⟨r', hr', rfl, hp', hs', hu'⟩ := hreg.mp hregs'
      have hin' := (Bus.within_of_mem_ranges le_rfl hr' (le_refl bus)).subordinate_le
      rw [UInt8.le_iff_toNat_le, UInt8.le_iff_toNat_le]
      rcases before_or_eq t bus hr hr' with rfl | h | h
      · omega
      · rcases h with ⟨-, -, h, h'⟩ | ⟨h, -, -⟩
        · omega
        · exact absurd hprefix h
      · rcases h with ⟨-, h, -, -⟩ | ⟨-, h, -⟩
        · exact absurd hprefix h
        · exact absurd hprefix h
    · intro q p s u q' p' s' u' hregs hregs' hne hne'
      obtain ⟨r, hr, rfl, hp, hs, hu⟩ := hreg.mp hregs
      obtain ⟨r', hr', rfl, hp', hs', hu'⟩ := hreg.mp hregs'
      have hin := (Bus.within_of_mem_ranges le_rfl hr (le_refl bus)).subordinate_le
      have hin' := (Bus.within_of_mem_ranges le_rfl hr' (le_refl bus)).subordinate_le
      rw [UInt8.lt_iff_toNat_lt, UInt8.lt_iff_toNat_lt]
      rcases before_or_eq t bus hr hr' with rfl | h | h
      · exact absurd List.prefix_rfl hne
      · rcases h with ⟨h, -, -, -⟩ | ⟨-, -, h⟩
        · exact absurd h hne
        · omega
      · rcases h with ⟨h, -, -, -⟩ | ⟨-, -, h⟩
        · exact absurd h hne'
        · omega

end Trace

/-! ### The whole scan -/

theorem filterMap_numberings {α : Type} {g : Event → Option α}
    (h : ∀ e, e.numbering = false → g e = none) (log : List Event) :
  (numberings log).filterMap g = log.filterMap g
  := by
  induction log with
  | nil => rfl
  | cons e log ih =>
    rw [numberings_cons]
    split_ifs with he
    · rw [List.filterMap_cons, List.filterMap_cons, ih]
    · rw [ih, List.filterMap_cons, h e (Bool.eq_false_iff.mpr he)]

/-- The property is about the events of the numbering alone. -/
theorem numbered_numberings_iff {functions : List (Path × Function)} {first : ℕ}
    {log : List Event} :
  Numbered functions first (numberings log) ↔ Numbered functions first log
  := by
  have hfound : (numberings log).filterMap Event.found? = log.filterMap Event.found? := by
    apply filterMap_numberings
    intro e he
    cases e <;> first | rfl | cases he
  have hsub (q : Path) : (numberings log).filterMap (Event.subordinate? q)
      = log.filterMap (Event.subordinate? q) := by
    apply filterMap_numberings
    intro e he
    cases e <;> first | rfl | cases he
  have hmem {e : Event} (he : e.numbering = true) : e ∈ numberings log ↔ e ∈ log := by
    rw [numberings, List.mem_filter, he, and_iff_left rfl]
  have hnumbers {q : Path} {p s : Byte} :
      Event.busNumbers q p s ∈ numberings log ↔ Event.busNumbers q p s ∈ log := hmem rfl
  have hreserved {q : Path} {n : ℕ} :
      Event.reserved q n ∈ numberings log ↔ Event.reserved q n ∈ log := hmem rfl
  have hregs (q : Path) (p s u : Byte) :
      Registers (numberings log) q p s u ↔ Registers log q p s u := by
    constructor
    · rintro ⟨h₁, h₂⟩
      exact ⟨hnumbers.mp h₁, by rwa [← hsub]⟩
    · rintro ⟨h₁, h₂⟩
      exact ⟨hnumbers.mpr h₁, by rwa [hsub]⟩
  have hbehind (q : Path) :
      busesBehind first (numberings log) q = busesBehind first log q := by
    simp only [busesBehind, hnumbers, hreserved]
  constructor
  · rintro ⟨h₁, h₂, h₃, h₄, h₅, h₆, h₇⟩
    simp only [hregs, hbehind, hfound] at h₁ h₂ h₃ h₄ h₅ h₆ h₇
    exact ⟨h₁, h₂, h₃, h₄, h₅, h₆, h₇⟩
  · rintro ⟨h₁, h₂, h₃, h₄, h₅, h₆, h₇⟩
    simp only [← hregs, ← hbehind, ← hfound] at h₁ h₂ h₃ h₄ h₅ h₆ h₇
    exact ⟨h₁, h₂, h₃, h₄, h₅, h₆, h₇⟩

theorem mem_numberings_found {q : Path} {log : List Event} :
  .found q ∈ numberings log ↔ .found q ∈ log
  := by
  rw [numberings, List.mem_filter]
  exact and_iff_left rfl

theorem Numbered.found_mem {functions : List (Path × Function)} {first : ℕ} {log : List Event}
    (h : Numbered functions first log) :
  ∀ x ∈ functions, .found x.1 ∈ log
  := by
  intro x hx
  have hcount := h.found x.1
  rw [if_pos (List.mem_map_of_mem hx)] at hcount
  have hmem := List.count_pos_iff.mp (hcount ▸ Nat.one_pos)
  obtain ⟨e, he, heq⟩ := List.mem_filterMap.mp hmem
  cases e <;> cases heq
  exact he

theorem found_of_configDevice {q q' : Path} {f : Function} {bus : ℕ}
    {scan : ℕ → Hose → Scanned} {hose : Hose}
    (h : .found q ∈ (configDevice q' f bus scan hose).log) :
  ∃ busno hose', .found q ∈ (scan busno hose').log
  := by
  rw [← mem_numberings_found, configDevice] at h
  cases hf : f.kind with
  | bridge =>
    simp only [hf, numberings_append, numberings_setupDevice, numberings_prescan,
      numberings_postscan, List.nil_append, List.mem_append, List.mem_cons, reduceCtorEq,
      List.not_mem_nil, false_or, or_false] at h
    exact ⟨_, _, mem_numberings_found.mp h⟩
  | cardbus =>
    simp only [hf, numberings_append, numberings_setupDevice, List.nil_append] at h
    simp [numberings_cons, numberings_nil, Event.numbering] at h
  | legacyIde => simp [hf, numberings_nil] at h
  | other => simp [hf, numberings_setupDevice] at h

section Found

variable {configHost multi : Bool} {path q : Path} {bus devfn subBus : ℕ} {hose : Hose}

/-- The last function of the last device is never found. -/
theorem scanBus_found {t : Bus}
    (h : .found q ∈ (scanBus configHost t path bus devfn multi subBus hose).log) :
  (∃ e q', devfn ≤ e ∧ q = path ++ e :: q') ∧ q.getLast? ≠ some 255
  := by
  induction t generalizing path bus devfn multi subBus hose with
  | nil => cases h
  | gap rest ih =>
    rw [scanBus] at h
    split_ifs at h
    · cases h
    · obtain ⟨⟨e, q', he, hq⟩, hlast⟩ := ih h
      exact ⟨⟨e, q', by omega, hq⟩, hlast⟩
  | function f behind rest ihb ihr =>
    rw [scanBus] at h
    split at h
    · cases h
    split at h
    · obtain ⟨⟨e, q', he, hq⟩, hlast⟩ := ihr h
      exact ⟨⟨e, q', by omega, hq⟩, hlast⟩
    · simp only [List.cons_append, List.mem_cons, List.mem_append, Event.found.injEq] at h
      rcases h with rfl | h | h
      · refine ⟨⟨devfn, [], le_rfl, rfl⟩, ?_⟩
        rw [List.getLast?_concat, Ne, Option.some.injEq]
        omega
      · obtain ⟨busno, hose', hfound⟩ := found_of_configDevice h
        obtain ⟨⟨e, q', -, hq⟩, hlast⟩ := ihb hfound
        exact ⟨⟨devfn, e :: q', le_rfl, by rw [hq, List.append_assoc, List.singleton_append]⟩,
          hlast⟩
      · obtain ⟨⟨e, q', he, hq⟩, hlast⟩ := ihr h
        exact ⟨⟨e, q', by omega, hq⟩, hlast⟩

/-- Nothing is found in the rest of a device whose first function is not found. -/
theorem scanBus_found_of_not_multi {t : Bus} (hpos : 0 < devfn) (hle : devfn ≤ 8)
    (h : .found q ∈ (scanBus configHost t path bus devfn false subBus hose).log) :
  ∃ e q', 8 ≤ e ∧ q = path ++ e :: q'
  := by
  rcases Nat.eq_or_lt_of_le hle with rfl | hlt
  · exact (scanBus_found h).1
  · induction t generalizing devfn subBus hose with
    | nil => cases h
    | gap rest ih =>
      rw [scanBus, if_neg (by omega)] at h
      rcases Nat.eq_or_lt_of_le hlt with heq | hlt
      · rw [show devfn + 1 = 8 from heq] at h
        exact (scanBus_found h).1
      · exact ih (by omega) (by omega) h hlt
    | function f behind rest _ ih =>
      rw [scanBus, if_neg (by omega), if_pos (.inr ⟨by omega, by decide⟩)] at h
      rcases Nat.eq_or_lt_of_le hlt with heq | hlt
      · rw [show devfn + 1 = 8 from heq] at h
        exact (scanBus_found h).1
      · exact ih (by omega) (by omega) h hlt

end Found

/-- Whether a scan that begins with bus `currentBusno` leaves the host bridge alone. -/
def skipsHost (configHost : Bool) (hose : Hose) : Bool :=
  skipDev configHost hose hose.currentBusno 0

/-- The device of the host bridge has no other function, and nothing lies behind it. -/
def HostAlone (root : Bus) : Prop :=
  ∀ x ∈ root.functions [] 0, x.1 = [0] ∨ ∃ e q, 8 ≤ e ∧ x.1 = e :: q

section HoseScan

variable {configHost : Bool} {root : Bus} {hose : Hose} {regions : List (Space × Region)}

theorem noLast_of_found
    (h : ∀ x ∈ present root (skipsHost configHost (hose.start regions)),
      .found x.1 ∈ (hoseScan configHost root hose regions).log) :
  root.NoLast [] 0
  := by
  intro x hx hlast
  have hmem : x ∈ present root (skipsHost configHost (hose.start regions)) := by
    rw [present, List.mem_filter]
    refine ⟨hx, ?_⟩
    rw [decide_eq_true_eq]
    rintro ⟨-, hzero⟩
    rw [hzero] at hlast
    simp at hlast
  exact (scanBus_found (h x hmem)).2 hlast

theorem hostAlone_of_found (hskip : skipsHost configHost (hose.start regions) = true)
    (h : ∀ x ∈ present root (skipsHost configHost (hose.start regions)),
      .found x.1 ∈ (hoseScan configHost root hose regions).log) :
  HostAlone root
  := by
  intro x hx
  by_cases hzero : x.1 = [0]
  · exact .inl hzero
  · right
    have hmem : x ∈ present root (skipsHost configHost (hose.start regions)) := by
      rw [present, List.mem_filter, decide_eq_true_eq]
      exact ⟨hx, fun hx' => hzero hx'.2⟩
    have hfound := h x hmem
    rw [hoseScan] at hfound
    cases root with
    | nil => cases hx
    | gap rest =>
      rw [scanBus, if_neg (by decide)] at hfound
      exact scanBus_found_of_not_multi (by decide) (by decide) hfound
    | function f behind rest =>
      rw [scanBus, if_neg (by decide), if_pos (.inl hskip)] at hfound
      exact scanBus_found_of_not_multi (by decide) (by decide) hfound

theorem Bus.Allowed.of_hostAlone {t : Bus} {devfn : ℕ} {m : Bool} (h : t.Allowed devfn m)
    (hpos : 0 < devfn) (hle : devfn ≤ 8)
    (halone : ∀ x ∈ t.functions [] devfn, ∃ e q, 8 ≤ e ∧ x.1 = e :: q) :
  t.Allowed devfn false
  := by
  induction t generalizing devfn m with
  | nil => trivial
  | gap rest ih =>
    rw [Bus.Allowed, Bool.and_false]
    rcases Nat.eq_or_lt_of_le hle with rfl | hlt
    · exact h
    · exact ih h (by omega) (by omega) halone
  | function f behind rest _ _ =>
    obtain ⟨e, q, he, hq⟩ := halone _ List.mem_cons_self
    obtain rfl : devfn = e := (List.cons.inj hq).1
    obtain rfl : devfn = 8 := by omega
    obtain ⟨hlt, -, hbehind, hrest⟩ := h
    exact ⟨hlt, by simp, hbehind, hrest⟩

theorem Bus.of_functions_eq_nil {t : Bus} {path : Path} {devfn : ℕ}
    (h : t.functions path devfn = []) :
  t.lastBridge = none ∧ t.CardsInside
  := by
  induction t generalizing devfn with
  | nil => exact ⟨rfl, trivial⟩
  | gap rest ih => exact ih h
  | function f behind rest _ _ => cases h

/-- The scan finds every function, except perhaps the host bridge. -/
theorem scanBus_root_findsAll (hallowed : root.Allowed 0 false) (hlast : root.NoLast [] 0)
    (halone : skipsHost configHost hose = true → HostAlone root)
    (hfirst : hose.firstBusno ≤ hose.currentBusno) :
  ∃ t : Bus, FindsAll t [] hose.currentBusno 0 hose.currentBusno hose
      (scanBus configHost root [] hose.currentBusno 0 false hose.currentBusno hose)
    ∧ t.functions [] 0 = present root (skipsHost configHost hose)
    ∧ (t.CardsInside ↔ root.CardsInside) ∧ t.buses ≤ root.buses
  := by
  cases hskip : skipsHost configHost hose with
  | false =>
    refine ⟨root, ?_, by simp [present], Iff.rfl, le_rfl⟩
    apply scanBus_findsAll root hallowed (by simp) hlast _ hfirst le_rfl le_rfl
    intro hroot hhost
    simp [skipsHost, skipDev, hroot, hhost] at hskip
  | true =>
    -- the first number is passed over, and the scan goes on with the next one
    have hnext {rest : Bus} (hallowed : rest.Allowed 1 false) (hlast : rest.NoLast [] 1) :
        FindsAll (.gap rest) [] hose.currentBusno 0 hose.currentBusno hose
          (scanBus configHost rest [] hose.currentBusno 1 false hose.currentBusno hose) := by
      obtain ⟨h₁, h₂, h₃, h₄⟩ := scanBus_findsAll rest hallowed (by simp) hlast
        (fun _ _ => Nat.succ_pos 0) hfirst le_rfl le_rfl
      exact ⟨h₁, h₂, h₃, h₄⟩
    have hkeep (rest : Bus) :
        (rest.functions [] 1).filter (fun x => ¬ (true = true ∧ x.1 = [0]))
          = rest.functions [] 1 := by
      apply List.filter_eq_self.mpr
      intro x hx
      obtain ⟨e, q, he, hq⟩ := Bus.path_of_mem_functions hx
      simp [hq]
      omega
    cases root with
    | nil => exact ⟨.nil, ⟨rfl, rfl, rfl, rfl⟩, rfl, Iff.rfl, le_rfl⟩
    | gap rest =>
      refine ⟨.gap rest, ?_, (hkeep rest).symm, Iff.rfl, le_rfl⟩
      rw [scanBus, if_neg (by decide)]
      exact hnext hallowed hlast.gap
    | function f behind rest =>
      have halone := halone hskip
      have hbehind (hf : f.kind = .bridge) : behind.functions [0] 0 = [] := by
        rw [List.eq_nil_iff_forall_not_mem]
        intro x hx
        obtain ⟨e, q, -, hq⟩ := Bus.path_of_mem_functions hx
        have hmem : x ∈ (Bus.function f behind rest).functions [] 0 := by
          rw [Bus.functions, if_pos hf]
          exact List.mem_cons_of_mem _ (List.mem_append_left _ hx)
        rcases halone x hmem with h | ⟨e', q', he', h⟩
        · simp [hq] at h
        · simp [hq] at h
          omega
      have hrest : ∀ x ∈ rest.functions [] 1, ∃ e q, 8 ≤ e ∧ x.1 = e :: q := by
        intro x hx
        rcases halone x (List.mem_append_right _ hx) with h | h
        · obtain ⟨e, q, he, hq⟩ := Bus.path_of_mem_functions hx
          simp [hq] at h
          omega
        · exact h
      refine ⟨.gap rest, ?_, ?_, ?_, Nat.le_add_left _ _⟩
      · rw [scanBus, if_neg (by decide), if_pos (.inl hskip)]
        exact hnext (hallowed.2.2.2.of_hostAlone (by decide) (by decide) hrest) hlast.rest
      · have hleg : (if f.kind = .bridge then behind.functions ([] ++ [0]) 0 else []) = [] := by
          split_ifs with hf
          · exact hbehind hf
          · rfl
        rw [present, Bus.functions, Bus.functions, hleg, List.cons_append,
          List.filter_cons_of_neg (by simp)]
        exact (hkeep rest).symm
      · rw [Bus.CardsInside, Bus.CardsInside]
        apply Iff.symm
        apply and_iff_right
        intro hf
        obtain ⟨hnone, hcards⟩ := Bus.of_functions_eq_nil (hbehind hf)
        exact ⟨by simp [hnone], hcards⟩

/--
The scan finds every function and numbers every bridge as it should if, and only if, no bus has
a function 7 of device 31, the device of a host bridge that is left alone has nothing else to
find, and no bus behind a bridge ends with a bridge to a card.
-/
theorem hoseScan_numbered_iff (configHost : Bool) (root : Bus) (hose : Hose)
    (regions : List (Space × Region)) (hallowed : root.Allowed 0 false)
    (hmax : (hose.start regions).currentBusno + root.buses ≤ 255) :
  Numbered (present root (skipsHost configHost (hose.start regions))) hose.firstBusno
      (hoseScan configHost root hose regions).log
    ↔ root.NoLast [] 0
      ∧ (skipsHost configHost (hose.start regions) = true → HostAlone root)
      ∧ root.CardsInside
  := by
  have hfirst : (hose.start regions).firstBusno ≤ (hose.start regions).currentBusno :=
    le_max_left _ _
  have hiff (hlast : root.NoLast [] 0)
      (halone : skipsHost configHost (hose.start regions) = true → HostAlone root) :
      Numbered (present root (skipsHost configHost (hose.start regions))) hose.firstBusno
        (hoseScan configHost root hose regions).log ↔ root.CardsInside := by
    obtain ⟨t, hfinds, hpresent, hcards, hbuses⟩ :=
      scanBus_root_findsAll hallowed hlast halone hfirst
    rw [← numbered_numberings_iff, ← hpresent, ← hcards, ← numbered_trace_iff t hfirst (by omega)]
    exact iff_of_eq (congrArg _ hfinds.log)
  constructor
  · intro h
    have hlast := noLast_of_found h.found_mem
    have halone := fun hskip => hostAlone_of_found hskip h.found_mem
    exact ⟨hlast, halone, (hiff hlast halone).mp h⟩
  · rintro ⟨hlast, halone, hcards⟩
    exact (hiff hlast halone).mpr hcards

end HoseScan

/-- A function without base address registers. -/
def plainFunction (headerType : Byte) (classDevice : ℕ) : Function where
  headerType := headerType
  classDevice := classDevice
  classProg := 0
  command := 0
  bars := []
  bars_valid := List.forall_mem_nil _
  bars_length := Nat.zero_le _

/-- Nothing answers at `n` numbers. -/
def gaps : ℕ → Bus → Bus
  | 0, t => t
  | n + 1, t => .gap (gaps n t)

/-- A controller for the buses from 0 on. -/
def hoseZero : Hose := ⟨0, 0, fun _ => none⟩

theorem functions_gaps (n : ℕ) (t : Bus) (path : Path) (devfn : ℕ) :
  (gaps n t).functions path devfn = t.functions path (devfn + n)
  := by
  induction n generalizing devfn with
  | zero => rfl
  | succ n ih =>
    rw [gaps, Bus.functions, ih]
    congr 1
    omega

theorem allowed_gaps_iff (n : ℕ) (t : Bus) (devfn : ℕ) :
  (gaps n t).Allowed devfn false ↔ t.Allowed (devfn + n) false
  := by
  induction n generalizing devfn with
  | zero => rfl
  | succ n ih =>
    rw [gaps, Bus.Allowed, Bool.and_false, ih]
    rw [show devfn + 1 + n = devfn + (n + 1) by omega]

theorem buses_gaps (n : ℕ) (t : Bus) :
  (gaps n t).buses = t.buses
  := by
  induction n with
  | zero => rfl
  | succ n ih => exact ih

theorem cardsInside_gaps_iff (n : ℕ) (t : Bus) :
  (gaps n t).CardsInside ↔ t.CardsInside
  := by
  induction n with
  | zero => rfl
  | succ n ih => exact ih

/-- A bridge with a network card behind it, on the bus of the host. -/
def bridgeTree : Bus :=
  gaps 8 (.function (plainFunction 1 classBridgePci) (.function (plainFunction 0 0x0200) .nil .nil)
    .nil)

theorem hoseScan_numbered_bridgeTree :
  Numbered (present bridgeTree (skipsHost false (hoseZero.start []))) 0
    (hoseScan false bridgeTree hoseZero []).log
  := by
  have hfunctions : (bridgeTree.functions [] 0).map Prod.fst = [[8], [8, 0]] := by decide
  have hpath : ∀ x ∈ bridgeTree.functions [] 0, x.1 = [8] ∨ x.1 = [8, 0] := by
    intro x hx
    have hmem := List.mem_map_of_mem (f := Prod.fst) hx
    rw [hfunctions] at hmem
    simpa using hmem
  apply (hoseScan_numbered_iff false bridgeTree hoseZero [] _ (by decide)).mpr
  · refine ⟨?_, ?_, ?_⟩
    · intro x hx
      rcases hpath x hx with h | h <;> rw [h] <;> decide
    · intro _ x hx
      rcases hpath x hx with h | h
      · exact .inr ⟨8, [], le_rfl, h⟩
      · exact .inr ⟨8, [0], le_rfl, h⟩
    · rw [bridgeTree, cardsInside_gaps_iff]
      simp [Bus.CardsInside, Bus.lastBridge]
      decide
  · rw [bridgeTree, allowed_gaps_iff]
    simp [Bus.Allowed]

/-- The first and the eighth function of the last device. -/
def lastFunction : Bus :=
  gaps 248 (.function (plainFunction 0x80 0x0200) .nil
    (gaps 6 (.function (plainFunction 0x80 0x0200) .nil .nil)))

/-- The last function of the last device is not found. -/
theorem hoseScan_not_numbered_lastFunction :
  lastFunction.Allowed 0 false ∧ (hoseZero.start []).currentBusno + lastFunction.buses ≤ 255
    ∧ ¬ Numbered (present lastFunction (skipsHost false (hoseZero.start []))) 0
      (hoseScan false lastFunction hoseZero []).log
  := by
  refine ⟨?_, ?_, ?_⟩
  · rw [lastFunction, allowed_gaps_iff]
    simp [gaps, Bus.Allowed]
    decide
  · rw [lastFunction, buses_gaps]
    decide
  · intro h
    have hlast := noLast_of_found h.found_mem
    have hmem : ([255], plainFunction 0x80 0x0200) ∈ lastFunction.functions [] 0 := by
      rw [lastFunction, functions_gaps]
      simp [gaps, Bus.functions]
    exact hlast _ hmem rfl

end Pci
