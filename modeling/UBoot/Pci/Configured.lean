import UBoot.Pci.Windows
import Mathlib

/-!
# The scan as a whole

The parts of the scan are put together along the tree of functions: each of them is about the
functions below its own path, so that two parts never write to the same bridge.
-/

namespace Pci

/-! ### Where the events are -/

section Path

variable {configHost multi : Bool} {path q : Path} {bus devfn subBus : ℕ} {hose : Hose} {e : Event}

theorem path_setupBars (q : Path) (registers : List Word) (bar : ℕ) (skip : Bool)
    (regions : Regions) (cmdstat : Word) :
  ∀ e ∈ (setupBars q registers bar skip regions cmdstat).log, e.path = q
  := by
  fun_induction setupBars q registers bar skip regions cmdstat with
  | case1 => exact List.forall_mem_nil _
  | case2 => assumption
  | case3 => assumption
  | case4 => exact List.forall_mem_cons.mpr ⟨rfl, by assumption⟩
  | case5 => exact List.forall_mem_cons.mpr ⟨rfl, by assumption⟩

theorem path_setupDevice {f : Function} {n : ℕ} {regions : Regions}
    (h : e ∈ (setupDevice q f n regions).log) :
  e.path = q
  := by
  rw [setupDevice, List.mem_append, List.mem_singleton] at h
  rcases h with h | rfl
  · exact path_setupBars _ _ _ _ _ _ e h
  · rfl

theorem path_prescan {cmdstat : Word}
    (h : e ∈ (prescanSetupBridge q bus subBus cmdstat hose).2) :
  e.path = q
  := by
  rw [prescanSetupBridge, List.cons_append, List.mem_cons, List.mem_append,
    List.mem_singleton] at h
  rcases h with rfl | h | rfl
  · rfl
  · rcases mem_openWindows h with ⟨s, res, -, rfl⟩ | ⟨-, rfl | rfl⟩ <;> rfl
  · rfl

theorem path_postscan (h : e ∈ (postscanSetupBridge q subBus hose).2) :
  e.path = q
  := by
  rw [postscanSetupBridge, List.mem_cons, mem_closeWindows_iff] at h
  rcases h with rfl | ⟨s, res, -, rfl⟩ <;> rfl

/-- What is written for a function is about it or about what lies behind it. -/
theorem path_configDevice {f : Function} {scan : ℕ → Hose → Scanned}
    (hscan : ∀ busno hose, ∀ e ∈ (scan busno hose).log, ∃ d q', e.path = q ++ d :: q')
    (h : e ∈ (configDevice q f bus scan hose).log) :
  q <+: e.path
  := by
  rw [configDevice] at h
  cases hf : f.kind with
  | bridge =>
    simp only [hf, List.mem_append] at h
    rcases h with ((h | h) | h) | h
    · rw [path_setupDevice h]
    · rw [path_prescan h]
    · obtain ⟨d, q', hq'⟩ := hscan _ _ e h
      rw [hq']
      exact List.prefix_append q _
    · rw [path_postscan h]
  | cardbus =>
    simp only [hf, List.mem_append, List.mem_singleton] at h
    rcases h with h | rfl
    · rw [path_setupDevice h]
    · exact List.prefix_rfl
  | legacyIde =>
    simp only [hf] at h
    cases h
  | other =>
    simp only [hf] at h
    rw [path_setupDevice h]

/-- The scan of a bus is about the functions on it and what lies behind them. -/
theorem path_scanBus {t : Bus}
    (h : e ∈ (scanBus configHost t path bus devfn multi subBus hose).log) :
  ∃ d q', devfn ≤ d ∧ e.path = path ++ d :: q'
  := by
  induction t generalizing path bus devfn multi subBus hose e with
  | nil => cases h
  | gap rest ih =>
    rw [scanBus] at h
    split_ifs at h
    · cases h
    · obtain ⟨d, q', hd, hq'⟩ := ih h
      exact ⟨d, q', by omega, hq'⟩
  | function f behind rest ihb ihr =>
    rw [scanBus] at h
    split at h
    · cases h
    split at h
    · obtain ⟨d, q', hd, hq'⟩ := ihr h
      exact ⟨d, q', by omega, hq'⟩
    · simp only [List.cons_append, List.mem_cons, List.mem_append] at h
      rcases h with rfl | h | h
      · exact ⟨devfn, [], le_rfl, rfl⟩
      · have hbelow (busno : ℕ) (hose : Hose) (e : Event)
            (he : e ∈ (scanBus configHost behind (path ++ [devfn]) busno 0 false busno hose).log) :
            ∃ d q', e.path = path ++ [devfn] ++ d :: q' := by
          obtain ⟨d, q', -, hq'⟩ := ihb he
          exact ⟨d, q', hq'⟩
        obtain ⟨q', hq'⟩ := path_configDevice hbelow h
        refine ⟨devfn, q', le_rfl, ?_⟩
        rw [← hq', List.append_assoc, List.singleton_append]
      · obtain ⟨d, q', hd, hq'⟩ := ihr h
        exact ⟨d, q', by omega, hq'⟩

end Path

/-! ### Windows are there -/

/-- Every bridge below `path` has a window for what lies behind it. -/
def Covered (path : Path) (log : List Event) : Prop :=
  ∀ p ∈ placed log, ∀ q, path <+: q → Behind q p.q → ∃ start stop, Window log q p.s start stop

section Covered

variable {path q : Path} {s : Space} {start stop : ℕ} {log log' : List Event}

theorem Window.mono (h : Window log q s start stop) (hsub : log ⊆ log') :
  Window log' q s start stop
  := by
  obtain ⟨⟨reg, upper, hbase, hstart⟩, ⟨reg', upper', hlimit, hstop⟩⟩ := h
  exact ⟨⟨reg, upper, hsub hbase, hstart⟩, ⟨reg', upper', hsub hlimit, hstop⟩⟩

theorem covered_of_path_eq (h : ∀ e ∈ log, e.path = q) :
  Covered q log
  := by
  intro p hp q' hle hbehind
  obtain ⟨e, he, heq⟩ := exists_of_mem_placed hp
  rw [← heq, h e he] at hbehind
  exact absurd (hbehind.1.eq_of_length_le hle.length_le) hbehind.2

theorem Covered.append (h : Covered path log) (h' : Covered path log') :
  Covered path (log ++ log')
  := by
  intro p hp q hle hbehind
  rw [placed_append, List.mem_append] at hp
  rcases hp with hp | hp
  · obtain ⟨start, stop, hw⟩ := h p hp q hle hbehind
    exact ⟨start, stop, hw.mono (List.subset_append_left log log')⟩
  · obtain ⟨start, stop, hw⟩ := h' p hp q hle hbehind
    exact ⟨start, stop, hw.mono (List.subset_append_right log log')⟩

/-- Two ways that lead to the same function: one leads through the other. -/
theorem eq_or_prefix_of_behind {q q' q'' : Path} {d : ℕ} (hle : q <+: q') (hbehind : Behind q' q'')
    (hq : q'' = q ++ d :: path) :
  q' = q ∨ q ++ [d] <+: q'
  := by
  obtain ⟨r, rfl⟩ := hle
  cases r with
  | nil => exact .inl (List.append_nil q)
  | cons d' r =>
    obtain hle := hbehind.1
    rw [hq, List.prefix_append_right_inj, List.cons_prefix_cons] at hle
    rw [hle.1]
    right
    rw [List.prefix_append_right_inj]
    exact ⟨r, rfl⟩

/-- A bridge has a window for what lies behind it if the bridges behind it have. -/
theorem covered_bridge (hnear : ∀ e ∈ log', e ∈ log ∨ e.path = q) (hsub : log ⊆ log')
    (hbelow : ∀ e ∈ log, ∃ d q', e.path = q ++ d :: q') (hcovered : ∀ d, Covered (q ++ [d]) log)
    (hwindow : ∀ p ∈ placed log, ∃ start stop, Window log' q p.s start stop) :
  Covered q log'
  := by
  intro p hp q' hle hbehind
  obtain ⟨e, he, heq⟩ := List.mem_filterMap.mp hp
  have hpath : e.path = p.q := by
    cases e <;> cases heq
    rfl
  rcases hnear e he with he | he
  · have hp : p ∈ placed log := List.mem_filterMap.mpr ⟨e, he, heq⟩
    obtain ⟨d, r, hr⟩ := hbelow e he
    rcases eq_or_prefix_of_behind hle hbehind (hpath.symm.trans hr) with rfl | hle'
    · exact hwindow p hp
    · obtain ⟨start, stop, hw⟩ := hcovered d p hp q' hle' hbehind
      exact ⟨start, stop, hw.mono hsub⟩
  · rw [← hpath, he] at hbehind
    exact absurd (hbehind.1.eq_of_length_le hle.length_le) hbehind.2

end Covered

/-! ### The run -/

section Run

variable {configHost multi : Bool} {path q : Path} {bus devfn subBus : ℕ} {hose : Hose}
  {f : Function} {functions : List (Path × Function)} {regions regions' : Regions}
  {log : List Event}

/-- A part of the scan that gives out no addresses and opens no windows. -/
theorem good_of_silent (hassigned : ∀ q i s size value, .assigned q i s size value ∉ log)
    (hfailed : ∀ q i s, .failed q i s ∉ log)
    (hbase : ∀ q s reg upper, .windowBase q s reg upper ∉ log) :
  Good functions regions regions log
  := by
  have hwindow {q : Path} {s : Space} {start stop : ℕ} (h : Window log q s start stop) : False := by
    obtain ⟨reg, upper, hmem, -⟩ := h.base
    exact hbase q s reg upper hmem
  have hplaced := placed_eq_nil hassigned
  constructor
  case rises => exact Rises.refl regions
  case assigned => exact fun q i s size value h => absurd h (hassigned q i s size value)
  case failed => exact fun q i s h => absurd h (hfailed q i s)
  case disabled => exact fun q i s c h => absurd h (hfailed q i s)
  case aligned => simp [hplaced]
  case inside => simp [hplaced]
  case between => simp [hplaced]
  case ordered => simp [hplaced]
  case window => exact fun _ _ _ _ h => (hwindow h).elim
  case behind => exact fun _ _ _ _ h => (hwindow h).elim
  case outside => exact fun _ _ _ _ h => (hwindow h).elim

/-- That a function has been found changes nothing. -/
theorem Good.found (h : Good functions regions regions' log) (q : Path) :
  Good functions regions regions' (.found q :: log)
  := by
  have hplaced : placed (.found q :: log) = placed log := List.filterMap_cons_none rfl
  have hmem {e : Event} (he : e ∈ .found q :: log) (hne : e ≠ .found q) : e ∈ log :=
    (List.mem_cons.mp he).resolve_left hne
  have hwindow {q' : Path} {s : Space} {start stop : ℕ}
      (hw : Window (.found q :: log) q' s start stop) : Window log q' s start stop := by
    obtain ⟨⟨reg, upper, hbase, hstart⟩, ⟨reg', upper', hlimit, hstop⟩⟩ := hw
    exact ⟨⟨reg, upper, hmem hbase (by simp), hstart⟩, ⟨reg', upper', hmem hlimit (by simp), hstop⟩⟩
  constructor
  case rises => exact h.rises
  case assigned => exact fun q i s size value he => h.assigned q i s size value (hmem he (by simp))
  case failed => exact fun q i s he => h.failed q i s (hmem he (by simp))
  case disabled =>
    exact fun q i s c he he' => h.disabled q i s c (hmem he (by simp)) (hmem he' (by simp))
  case aligned =>
    rw [hplaced]
    exact h.aligned
  case inside =>
    rw [hplaced]
    exact h.inside
  case between =>
    rw [hplaced]
    exact h.between
  case ordered =>
    rw [hplaced]
    exact h.ordered
  case window => exact fun q s start stop hw => h.window q s start stop (hwindow hw)
  case behind =>
    rw [hplaced]
    exact fun q s start stop hw => h.behind q s start stop (hwindow hw)
  case outside =>
    rw [hplaced]
    exact fun q s start stop hw => h.outside q s start stop (hwindow hw)

theorem setupDevice_zero (q : Path) (f : Function) (regions : Regions) :
  ∃ c, setupDevice q f 0 regions = ⟨regions, c, [.command q c]⟩
  := ⟨_, rfl⟩

/-- The windows of a bridge are opened for every region. -/
theorem exists_windowBase {s : Space} {cmdstat : Word} (hs : hose.regions s ≠ none) :
  ∃ reg upper, .windowBase q s reg upper ∈ (prescanSetupBridge q bus subBus cmdstat hose).2
  := by
  obtain ⟨res, hres⟩ := Option.ne_none_iff_exists'.mp hs
  have hall : s ∈ windows := by cases s <;> decide
  have hopen : openWindow q hose.regions.align s
      = [.windowBase q s (baseRegs s (res.align (granule s)).busLower).1
        (baseRegs s (res.align (granule s)).busLower).2] := by
    rw [openWindow, Regions.align, hres]
    rfl
  refine ⟨(baseRegs s (res.align (granule s)).busLower).1,
    (baseRegs s (res.align (granule s)).busLower).2, ?_⟩
  rw [prescanSetupBridge, List.cons_append]
  apply List.mem_cons_of_mem
  apply List.mem_append_left
  rw [List.mem_flatMap]
  exact ⟨s, hall, hopen ▸ List.mem_singleton_self _⟩

/-- One function, with what lies behind it. -/
theorem configDevice_good {scan : ℕ → Hose → Scanned} {meets : ℕ → Hose → Prop}
    (hstarted : hose.regions.Started) (hmeets : ConfigMeets q f bus scan meets hose)
    (hbelow : ∀ busno hose, ∀ e ∈ (scan busno hose).log, ∃ d q', e.path = q ++ d :: q')
    (hscan : ∀ busno hose, hose.regions.Started → meets busno hose →
      Good functions hose.regions (scan busno hose).hose.regions (scan busno hose).log
        ∧ ∀ d, Covered (q ++ [d]) (scan busno hose).log) :
  Good ((q, f) :: if f.kind = .bridge then functions else []) hose.regions
      (configDevice q f bus scan hose).hose.regions (configDevice q f bus scan hose).log
    ∧ Covered q (configDevice q f bus scan hose).log
  := by
  have hlength := f.bars_length
  rw [ConfigMeets] at hmeets
  rw [configDevice]
  cases hf : f.kind with
  | bridge =>
    simp only [hf] at hmeets
    obtain ⟨hsetup, hopen, hleg, hclose⟩ := hmeets
    have hclass : f.classDevice = classBridgePci := by
      by_contra hne
      rw [Function.kind, if_neg hne] at hf
      split_ifs at hf
    rw [if_pos hclass] at hlength
    have hdone := @setupDevice_done q hose.regions f 2 hsetup hstarted hlength
    simp only [if_true]
    generalize setupDevice q f 2 hose.regions = out at *
    have hstarted₁ := hdone.good.rises.started hstarted
    have hrises₁ := rises_align hstarted₁ fun s res hres =>
      lt_trans (hopen s res hres) (by decide)
    have hstarted₂ := hrises₁.started hstarted₁
    obtain ⟨hgood, hcovered⟩ := hscan _ _ hstarted₂ hleg
    have hstarted₃ := hgood.rises.started hstarted₂
    have hrises₃ := rises_align hstarted₃ fun s res hres =>
      lt_of_le_of_lt (hclose s res hres) (by decide)
    have hopened := @prescan_opened q
      { hose with currentBusno := hose.currentBusno + 1, regions := out.regions } bus
      (hose.currentBusno + 1) out.command hstarted₁ hopen
    have hclosed := @postscan_closed q _
      (max (scan (hose.currentBusno + 1)
        (prescanSetupBridge q bus (hose.currentBusno + 1) out.command
          { hose with currentBusno := hose.currentBusno + 1, regions := out.regions }).1).subBus
        bus) hstarted₃ hclose
    have hbehind := hbelow (hose.currentBusno + 1)
      (prescanSetupBridge q bus (hose.currentBusno + 1) out.command
        { hose with currentBusno := hose.currentBusno + 1, regions := out.regions }).1
    constructor
    · exact BridgeDone.good ⟨hf, hdone, hopened, hgood, hbehind, hclosed, hrises₁, hrises₃⟩
    · apply covered_bridge _ _ hbehind hcovered
      · intro p hp
        -- the region of what lies behind the bridge was there when the windows were opened
        obtain ⟨res, hres, -⟩ := hgood.inside p hp
        have hs : out.regions p.s ≠ none := by
          rw [Ne, ← hrises₁.eq_none_iff]
          exact fun h => Option.some_ne_none res (hres.symm.trans h)
        have hs' := mt (hgood.rises.eq_none_iff p.s).mp (mt (hrises₁.eq_none_iff p.s).mp hs)
        obtain ⟨reg, upper, hbase⟩ := @exists_windowBase q bus (hose.currentBusno + 1)
          { hose with currentBusno := hose.currentBusno + 1, regions := out.regions } p.s
          out.command hs
        obtain ⟨reg', upper', hlimit⟩ := hclosed.exists_limit p.s hs'
        exact ⟨_, _, ⟨reg, upper, by simp [hbase], rfl⟩, ⟨reg', upper', by simp [hlimit], rfl⟩⟩
      · intro e he
        simp only [List.mem_append] at he
        rcases he with ((he | he) | he) | he
        · exact .inr (hdone.path e he)
        · exact .inr (path_prescan he)
        · exact .inl he
        · exact .inr (path_postscan he)
      · intro e he
        simp [he]
  | cardbus =>
    obtain ⟨c, hc⟩ := setupDevice_zero q f hose.regions
    simp only [hc]
    constructor
    · apply good_of_silent <;> simp
    · apply covered_of_path_eq
      intro e he
      simp only [List.cons_append, List.nil_append, List.mem_pair] at he
      rcases he with rfl | rfl <;> rfl
  | legacyIde =>
    exact ⟨good_nil _ _, covered_of_path_eq (List.forall_mem_nil _)⟩
  | other =>
    simp only [hf] at hmeets
    have hclass : f.classDevice ≠ classBridgePci := by
      intro heq
      rw [Function.kind, if_pos heq] at hf
      cases hf
    rw [if_neg hclass] at hlength
    have hdone := @setupDevice_done q hose.regions f 6 hmeets hstarted hlength
    exact ⟨hdone.good, covered_of_path_eq hdone.path⟩

/-- Every step of the scan of a bus does what it should, so the scan does. -/
theorem scanBus_good (t : Bus) (hstarted : hose.regions.Started)
    (hmeets : ScanMeets configHost t path bus devfn multi subBus hose) :
  Good (t.functions path devfn) hose.regions
      (scanBus configHost t path bus devfn multi subBus hose).hose.regions
      (scanBus configHost t path bus devfn multi subBus hose).log
    ∧ ∀ d, Covered (path ++ [d]) (scanBus configHost t path bus devfn multi subBus hose).log
  := by
  have hnil (functions : List (Path × Function)) (regions : Regions) (path : Path) :
      Good functions regions regions [] ∧ ∀ d, Covered (path ++ [d]) [] :=
    ⟨good_nil _ _, fun _ => covered_of_path_eq (List.forall_mem_nil _)⟩
  induction t generalizing path bus devfn multi subBus hose with
  | nil => exact hnil _ _ _
  | gap rest ih =>
    rw [scanBus]
    split_ifs with hlast
    · exact hnil _ _ _
    · exact ih hstarted (hmeets.resolve_left hlast)
  | function f behind rest ihb ihr =>
    rw [ScanMeets] at hmeets
    rw [scanBus]
    by_cases hlast : 255 ≤ devfn
    · rw [if_pos hlast]
      exact hnil _ _ _
    rw [if_neg hlast] at hmeets ⊢
    by_cases hskip : skipDev configHost hose bus devfn ∨ devfn % 8 ≠ 0 ∧ ¬ multi
    · rw [if_pos hskip] at hmeets ⊢
      obtain ⟨hgood, hcovered⟩ := ihr hstarted hmeets
      exact ⟨hgood.mono (List.subset_append_right _ _), hcovered⟩
    · rw [if_neg hskip] at hmeets ⊢
      obtain ⟨hconfig, hrest⟩ := hmeets
      dsimp only at hconfig hrest ⊢
      have hbelow (busno : ℕ) (hose : Hose) (e : Event)
          (he : e ∈ (scanBus configHost behind (path ++ [devfn]) busno 0 false busno hose).log) :
          ∃ d q', e.path = path ++ [devfn] ++ d :: q' := by
        obtain ⟨d, q', -, hq'⟩ := path_scanBus he
        exact ⟨d, q', hq'⟩
      obtain ⟨hdev, hcovered⟩ := configDevice_good hstarted hconfig hbelow
        fun busno hose hstarted hmeets => ihb hstarted hmeets
      have hpath {e : Event} (he : e ∈ (configDevice (path ++ [devfn]) f bus
          (fun busno hose => scanBus configHost behind (path ++ [devfn]) busno 0 false busno hose)
          hose).log) := path_configDevice hbelow he
      generalize configDevice (path ++ [devfn]) f bus
        (fun busno hose => scanBus configHost behind (path ++ [devfn]) busno 0 false busno hose)
        hose = dev at *
      obtain ⟨hnext, hcovered'⟩ := ihr (hdev.rises.started hstarted) hrest
      constructor
      · rw [Bus.functions]
        apply Good.append (hdev.found (path ++ [devfn]) |>.mono (List.subset_append_left _ _))
          (hnext.mono (List.subset_append_right _ _))
        intro e he e' he'
        have hq : path ++ [devfn] <+: e.path := by
          rcases List.mem_cons.mp he with rfl | he
          · exact List.prefix_rfl
          · exact hpath he
        obtain ⟨r, hr⟩ := hq
        obtain ⟨d, q', hd, hq'⟩ := path_scanBus he'
        rw [← hr, hq', List.append_assoc]
        exact Bus.not_prefix_of_lt hd
      · intro d
        apply Covered.append _ (hcovered' d)
        intro p hp q hle hbehind
        rw [placed, List.filterMap_cons_none rfl] at hp
        obtain ⟨e, he, heq⟩ := exists_of_mem_placed hp
        have hq : path ++ [devfn] <+: q := by
          have h := hle.trans hbehind.1
          rw [← heq] at h
          have hd := List.prefix_of_prefix_length_le h (hpath he) (by simp)
          rw [List.prefix_append_right_inj, List.cons_prefix_cons] at hd
          rwa [← hd.1]
        obtain ⟨start, stop, hw⟩ := hcovered p hp q hq hbehind
        exact ⟨start, stop, hw.mono (List.subset_cons_self _ _)⟩

end Run

/-! ### A whole scan -/

/-- The regions are started when the scan begins. -/
theorem started_configInit (regions : List (Space × Region)) :
  (configInit regions).Started
  := by
  intro s res h
  obtain ⟨res', -, rfl⟩ := Option.map_eq_some_iff.mp h
  exact res'.started_init

theorem disjoint_Ico_of_le {a b c d : ℕ} (h : b ≤ c) :
  Disjoint (Set.Ico a b) (Set.Ico c d)
  := by
  rw [Set.Ico_disjoint_Ico]
  exact le_trans (min_le_left b d) (le_trans h (le_max_right a c))

theorem configured_of_good {functions : List (Path × Function)} {regions regions' : Regions}
    {log log' : List Event} (hstarted : regions.Started)
    (h : Good functions regions regions' log) (hle : log' <+: log) :
  Configured regions functions log'
  := by
  have hsub : log' ⊆ log := hle.subset
  have hplaced : (placed log').Sublist (placed log) := hle.sublist.filterMap _
  have hmem := hplaced.subset
  constructor
  case assigned => exact fun q i s size value he => h.assigned q i s size value (hsub he)
  case failed => exact fun q i s he => h.failed q i s (hsub he)
  case disabled => exact fun q i s c he he' => h.disabled q i s c (hsub he) (hsub he')
  case aligned => exact fun p hp => h.aligned p (hmem hp)
  case inside =>
    intro p hp
    obtain ⟨res, hres, hstop⟩ := h.inside p (hmem hp)
    have hlow := (h.between p (hmem hp)).1
    rw [low_eq hres] at hlow
    exact ⟨res, hres, le_trans (hstarted p.s res hres).le hlow, hstop⟩
  case disjoint =>
    apply (h.ordered.sublist hplaced).imp
    intro p p' hordered hs
    exact disjoint_Ico_of_le (hordered hs)
  case behind =>
    intro q s start stop hw p hp hs hbehind
    obtain ⟨hstart, hstop⟩ := h.behind q s start stop (hw.mono hsub) p (hmem hp) hs hbehind
    exact Set.Ico_subset_Ico hstart hstop
  case outside =>
    intro q s start stop hw p hp hs hbehind
    rcases h.outside q s start stop (hw.mono hsub) p (hmem hp) hs hbehind with hle | hle
    · exact disjoint_Ico_of_le hle
    · exact (disjoint_Ico_of_le hle).symm

/-- During and after a scan whose steps meet their conditions the configuration is right. -/
theorem hoseScan_configured (configHost : Bool) (root : Bus) (hose : Hose)
    (regions : List (Space × Region))
    (hmeets : ScanMeets configHost root [] (hose.start regions).currentBusno 0 false
      (hose.start regions).currentBusno (hose.start regions)) :
  (∀ log, log <+: (hoseScan configHost root hose regions).log →
      Configured (configInit regions) (root.functions [] 0) log)
    ∧ ∀ p ∈ placed (hoseScan configHost root hose regions).log, ∀ q ≠ [], Behind q p.q →
      ∃ start stop, Window (hoseScan configHost root hose regions).log q p.s start stop
  := by
  obtain ⟨hgood, hcovered⟩ := scanBus_good root (started_configInit regions) hmeets
  constructor
  · intro log hle
    exact configured_of_good (started_configInit regions) hgood hle
  · intro p hp q hne hbehind
    cases q with
    | nil => exact absurd rfl hne
    | cons d q => exact hcovered d p hp (d :: q) ⟨q, rfl⟩ hbehind

/-- A card with one register for a megabyte of memory. -/
def memoryCard : Function where
  headerType := 0
  classDevice := 0x0200
  classProg := 0
  command := 0
  bars := [.mem32 20 false]
  bars_valid := List.forall_mem_singleton.mpr ⟨by decide, by decide⟩
  bars_length := by decide

/-- The card behind a bridge. -/
def cardTree : Bus :=
  .function (plainFunction 1 classBridgePci) (.function memoryCard .nil .nil) .nil

/-- Half a gigabyte of memory. -/
def cardRegions : List (Space × Region) := [(.mem, ⟨0x80000000, 0x20000000, 0⟩)]

theorem hoseScan_configured_cardTree :
  Configured (configInit cardRegions) (cardTree.functions [] 0)
      (hoseScan true cardTree hoseZero cardRegions).log
    ∧ (placed (hoseScan true cardTree hoseZero cardRegions).log).map (·.value) = [0x80000000]
  := by
  constructor
  · apply (hoseScan_configured true cardTree hoseZero cardRegions (by decide +kernel)).1
    exact List.prefix_rfl
  · decide +kernel

/-- A card with one register of 64 bits for a megabyte of memory. -/
def wideCard : Function where
  headerType := 0
  classDevice := 0x0200
  classProg := 0
  command := 0
  bars := [.mem64 20 false]
  bars_valid := List.forall_mem_singleton.mpr ⟨by decide, by decide⟩
  bars_length := by decide

/-- There is less memory than the card asks for. -/
def smallRegions : List (Space × Region) :=
  [(.mem, ⟨0x80000000, 0x10000, 0⟩), (.io, ⟨0xe8000000, 0x10000, 0⟩)]

/-- The upper half of the register gets addresses of its own, in I/O space. -/
theorem hoseScan_not_configured_wideCard :
  ¬ Configured (configInit smallRegions) (Bus.functions (.function wideCard .nil .nil) [] 0)
    (hoseScan true (.function wideCard .nil .nil) hoseZero smallRegions).log
  := by
  have hlog : (hoseScan true (.function wideCard .nil .nil) hoseZero smallRegions).log
      = [.found [0], .failed [0] 0 .mem, .assigned [0] 1 .io 4 0xe8000000,
        .command [0] (commandMaster ||| commandIo)] := rfl
  intro h
  rw [hlog] at h
  obtain ⟨f, bar, hf, hbar, -⟩ := h.assigned [0] 1 .io 4 0xe8000000 (by simp)
  obtain ⟨-, rfl⟩ := Prod.mk.inj (List.mem_singleton.mp hf)
  have hmem : (1, bar) ∈ [(0, Bar.mem64 20 false)] := hbar
  simp at hmem

end Pci
