import UBoot.Pci.Allocate
import UBoot.Pci.BusNumbers
import Mathlib

/-!
# Addresses and windows

The addresses are given out from below, so that what lies behind a bridge is what has been given
out between opening its windows and closing them.  `hoseScan_configured` says on which scans the
addresses and the windows are right.
-/

namespace Pci

/-! ### What addresses and windows come out right -/

/-- The base address registers of a function, from register number `i` on. -/
def barsFrom : List Bar → ℕ → List (ℕ × Bar)
  | [], _ => []
  | bar :: bars, i => (i, bar) :: barsFrom bars (i + bar.responses.length)

/-- The addresses that a register has got. -/
structure Placed where
  q : Path
  bar : ℕ
  s : Space
  size : ℕ
  value : ℕ

def Event.placed? : Event → Option Placed
  | .assigned q bar s size value => some ⟨q, bar, s, size.toNat, value.toNat⟩
  | _ => none

/-- The registers that have got an address, in their order. -/
def placed (log : List Event) : List Placed := log.filterMap Event.placed?

/-- The first address of a window, as a bridge reads its base registers. -/
def windowStart (s : Space) (reg upper : BitVec 16) : ℕ :=
  if s = .io then upper.toNat * 2 ^ 16 + reg.toNat % 2 ^ 8 / 2 ^ 4 * 2 ^ 12
  else reg.toNat / 2 ^ 4 * 2 ^ 20

/-- The end of a window, as a bridge reads its limit registers. -/
def windowStop (s : Space) (reg upper : BitVec 16) : ℕ :=
  if s = .io then upper.toNat * 2 ^ 16 + (reg.toNat % 2 ^ 8 / 2 ^ 4 + 1) * 2 ^ 12
  else (reg.toNat / 2 ^ 4 + 1) * 2 ^ 20

/-- A window of a bridge, both ends of which have been set. -/
structure Window (log : List Event) (q : Path) (s : Space) (start stop : ℕ) : Prop where
  base : ∃ reg upper, .windowBase q s reg upper ∈ log ∧ start = windowStart s reg upper
  limit : ∃ reg upper, .windowLimit q s reg upper ∈ log ∧ stop = windowStop s reg upper

/-- The function `q'` is on a bus behind the bridge `q`. -/
def Behind (q q' : Path) : Prop := q <+: q' ∧ q ≠ q'

/-- The addresses and the windows are right. -/
structure Configured (host : Regions) (functions : List (Path × Function)) (log : List Event) :
    Prop where
  /-- What gets an address is a base address register, and it is as large as it says. -/
  assigned : ∀ q i s size value, .assigned q i s size value ∈ log →
    ∃ f bar, (q, f) ∈ functions ∧ (i, bar) ∈ barsFrom f.bars 0 ∧ size.toNat = bar.size
      ∧ s = bar.space host
  /-- What does not get an address is a base address register as well. -/
  failed : ∀ q i s, .failed q i s ∈ log →
    ∃ f bar, (q, f) ∈ functions ∧ (i, bar) ∈ barsFrom f.bars 0 ∧ s = bar.space host
  /-- A function with a register that has got no address does not answer there. -/
  disabled : ∀ q i s c, .failed q i s ∈ log → .command q c ∈ log → c &&& windowEnable s = 0
  aligned : ∀ p ∈ placed log, p.size ∣ p.value
  inside : ∀ p ∈ placed log, ∃ res, host p.s = some res ∧ res.busStart.toNat ≤ p.value
    ∧ p.value + p.size ≤ res.stop
  disjoint : (placed log).Pairwise fun p p' => p.s = p'.s →
    Disjoint (Set.Ico p.value (p.value + p.size)) (Set.Ico p'.value (p'.value + p'.size))
  behind : ∀ q s start stop, Window log q s start stop → ∀ p ∈ placed log, p.s = s →
    Behind q p.q → Set.Ico p.value (p.value + p.size) ⊆ Set.Ico start stop
  outside : ∀ q s start stop, Window log q s start stop → ∀ p ∈ placed log, p.s = s →
    ¬ Behind q p.q → Disjoint (Set.Ico p.value (p.value + p.size)) (Set.Ico start stop)

/-! ### When it holds -/

/-- The registers that are in use, each with its number and the regions at its turn. -/
def turns : List Bar → ℕ → Regions → List (ℕ × Bar × Regions)
  | [], _, _ => []
  | .unused :: bars, i, regions => turns bars (i + 1) regions
  | bar :: bars, i, regions =>
    (i, bar, regions) :: turns bars (i + bar.responses.length) (regions.after bar)

/-- What must hold when a function has its turn. -/
structure SetupMeets (f : Function) (regions : Regions) : Prop where
  bars : ∀ x ∈ turns f.bars 0 regions, BarMeets x.2.2 x.2.1
  /-- Of the registers of a space either all have room or none. -/
  space : ∀ x ∈ turns f.bars 0 regions, ∀ y ∈ turns f.bars 0 regions, x.2.1.isIo = y.2.1.isIo →
    HasRoom x.2.2 x.2.1 → HasRoom y.2.2 y.2.1
  /-- A bridge whose own registers have no room has no windows in that space. -/
  bridge : f.kind = .bridge → ∀ x ∈ turns f.bars 0 regions, ¬ HasRoom x.2.2 x.2.1 →
    ∀ s, (s = .io ↔ x.2.1.isIo = true) → regions s = none

/-- What must hold when the windows of a bridge are opened. -/
def OpenMeets (regions : Regions) : Prop :=
  ∀ s res, regions s = some res → res.next (granule s).toNat < 2 ^ 32

/-- What must hold when the windows of a bridge are closed. -/
def CloseMeets (regions : Regions) : Prop :=
  ∀ s res, regions s = some res → res.next (granule s).toNat ≤ 2 ^ 32

/-- What must hold when `pciauto_config_device` is called. -/
def ConfigMeets (q : Path) (f : Function) (bus : ℕ) (scan : ℕ → Hose → Scanned)
    (meets : ℕ → Hose → Prop) (hose : Hose) : Prop :=
  match f.kind with
  | .bridge =>
    let busno := hose.currentBusno + 1
    let out := setupDevice q f 2 hose.regions
    let pre := prescanSetupBridge q bus busno out.command
      { hose with currentBusno := busno, regions := out.regions }
    SetupMeets f hose.regions ∧ OpenMeets out.regions ∧ meets busno pre.1
      ∧ CloseMeets (scan busno pre.1).hose.regions
  | .other => SetupMeets f hose.regions
  | _ => True

/-- Every step of the scan of a bus meets its condition. -/
def ScanMeets (configHost : Bool) :
    Bus → Path → (bus devfn : ℕ) → (foundMulti : Bool) → (subBus : ℕ) → Hose → Prop
  | .nil, _, _, _, _, _, _ => True
  | .gap rest, path, bus, devfn, foundMulti, subBus, hose =>
    255 ≤ devfn ∨ ScanMeets configHost rest path bus (devfn + 1) foundMulti subBus hose
  | .function f behind rest, path, bus, devfn, foundMulti, subBus, hose =>
    if 255 ≤ devfn then True
    else if skipDev configHost hose bus devfn ∨ devfn % 8 ≠ 0 ∧ ¬ foundMulti then
      ScanMeets configHost rest path bus (devfn + 1) foundMulti subBus hose
    else
      let q := path ++ [devfn]
      let scan := fun busno hose => scanBus configHost behind q busno 0 false busno hose
      let dev := configDevice q f bus scan hose
      ConfigMeets q f bus scan
          (fun busno hose => ScanMeets configHost behind q busno 0 false busno hose) hose
        ∧ ScanMeets configHost rest path bus (devfn + 1)
          (if devfn % 8 = 0 then f.multi else foundMulti) (max subBus dev.subBus) dev.hose

/-! ### The condition can be evaluated -/

instance (o : Option Region) (P : Region → Prop) [DecidablePred P] :
    Decidable (∀ res, o = some res → P res) :=
  match o with
  | none => isTrue (by simp)
  | some res => decidable_of_iff (P res) (by simp)

instance (P : Space → Prop) [DecidablePred P] : Decidable (∀ s, P s) :=
  decidable_of_iff (P .mem ∧ P .prefetch ∧ P .io)
    ⟨fun h s => by cases s; exacts [h.1, h.2.1, h.2.2], fun h => ⟨h _, h _, h _⟩⟩

instance (res : Region) (n : ℕ) : Decidable (res.Room n) := inferInstanceAs (Decidable (_ ≤ _))

instance (regions : Regions) (bar : Bar) : Decidable (HasRoom regions bar) :=
  decidable_of_iff ((regions (bar.space regions)).any (·.Room bar.size) = true)
    (by simp [HasRoom, Option.any_eq_true])

instance (bar : Bar) : Decidable bar.Recognised :=
  match bar with
  | .io _ _ => inferInstanceAs (Decidable (_ ≤ _))
  | .unused | .mem32 _ _ | .mem64 _ _ => isTrue trivial

instance (regions : Regions) (bar : Bar) : Decidable (BarMeets regions bar) :=
  decidable_of_iff (bar.Recognised
      ∧ (∀ res, regions (bar.space regions) = some res → res.next bar.size + bar.size < 2 ^ 64)
      ∧ (∀ res, regions (bar.space regions) = some res → res.Room bar.size →
        bar.isMem64 = false → res.next bar.size + bar.size ≤ 2 ^ 32)
      ∧ (bar.isMem64 = true → HasRoom regions bar))
    ⟨fun ⟨h₁, h₂, h₃, h₄⟩ => ⟨h₁, h₂, h₃, h₄⟩, fun ⟨h₁, h₂, h₃, h₄⟩ => ⟨h₁, h₂, h₃, h₄⟩⟩

instance (f : Function) (regions : Regions) : Decidable (SetupMeets f regions) :=
  decidable_of_iff ((∀ x ∈ turns f.bars 0 regions, BarMeets x.2.2 x.2.1)
      ∧ (∀ x ∈ turns f.bars 0 regions, ∀ y ∈ turns f.bars 0 regions, x.2.1.isIo = y.2.1.isIo →
        HasRoom x.2.2 x.2.1 → HasRoom y.2.2 y.2.1)
      ∧ (f.kind = .bridge → ∀ x ∈ turns f.bars 0 regions, ¬ HasRoom x.2.2 x.2.1 →
        ∀ s, (s = .io ↔ x.2.1.isIo = true) → (regions s).isNone))
    ⟨fun ⟨h₁, h₂, h₃⟩ => ⟨h₁, h₂, by simpa using h₃⟩,
      fun ⟨h₁, h₂, h₃⟩ => ⟨h₁, h₂, by simpa using h₃⟩⟩

instance (regions : Regions) : Decidable (OpenMeets regions) :=
  inferInstanceAs (Decidable (∀ s res, regions s = some res → res.next (granule s).toNat < 2 ^ 32))

instance (regions : Regions) : Decidable (CloseMeets regions) :=
  inferInstanceAs (Decidable (∀ s res, regions s = some res → res.next (granule s).toNat ≤ 2 ^ 32))

instance (q : Path) (f : Function) (bus : ℕ) (scan : ℕ → Hose → Scanned)
    (meets : ℕ → Hose → Prop) (hose : Hose) [∀ busno hose, Decidable (meets busno hose)] :
    Decidable (ConfigMeets q f bus scan meets hose) := by
  unfold ConfigMeets
  exact (match f.kind with
  | .bridge => inferInstanceAs (Decidable (_ ∧ _ ∧ _ ∧ _))
  | .other => inferInstanceAs (Decidable (SetupMeets f hose.regions))
  | .legacyIde | .cardbus => isTrue trivial)

instance decidableScanMeets (configHost : Bool) :
    (t : Bus) → (path : Path) → (bus devfn : ℕ) → (foundMulti : Bool) → (subBus : ℕ) →
      (hose : Hose) → Decidable (ScanMeets configHost t path bus devfn foundMulti subBus hose)
  | .nil, _, _, _, _, _, _ => isTrue trivial
  | .gap rest, path, bus, devfn, foundMulti, subBus, hose =>
    have := decidableScanMeets configHost rest path bus (devfn + 1) foundMulti subBus hose
    inferInstanceAs (Decidable (_ ∨ _))
  | .function _ behind rest, path, bus, devfn, _, _, _ =>
    have := decidableScanMeets configHost rest path bus (devfn + 1)
    have := fun busno hose =>
      decidableScanMeets configHost behind (path ++ [devfn]) busno 0 false busno hose
    inferInstanceAs (Decidable (ite _ _ (ite _ _ (_ ∧ _))))

/-! ### Regions that rise -/

/-- Nothing changes but that more addresses are taken. -/
def Rises (regions regions' : Regions) : Prop :=
  ∀ s, regions s = none ∧ regions' s = none
    ∨ ∃ res lower, regions s = some res ∧ regions' s = some { res with busLower := lower }
      ∧ res.busLower.toNat ≤ lower.toNat

/-- The first address of a region that is not taken. -/
def low (regions : Regions) (s : Space) : ℕ := ((regions s).map (·.busLower.toNat)).getD 0

section Rises

variable {regions regions₁ regions₂ : Regions} {s : Space} {res : Region}

theorem low_eq (h : regions s = some res) :
  low regions s = res.busLower.toNat
  := by
  rw [low, h]
  rfl

theorem Rises.refl (regions : Regions) :
  Rises regions regions
  := by
  intro s
  cases h : regions s with
  | none => exact .inl ⟨rfl, rfl⟩
  | some res => exact .inr ⟨res, _, rfl, rfl, le_rfl⟩

theorem Rises.trans (h₁ : Rises regions regions₁) (h₂ : Rises regions₁ regions₂) :
  Rises regions regions₂
  := by
  intro s
  rcases h₁ s with ⟨hs, hs₁⟩ | ⟨res, lower, hs, hs₁, hle₁⟩
  · rcases h₂ s with ⟨-, hs₂⟩ | ⟨res', lower', hs₂, -, -⟩
    · exact .inl ⟨hs, hs₂⟩
    · rw [hs₁] at hs₂
      cases hs₂
  · rcases h₂ s with ⟨hs₂, -⟩ | ⟨res', lower', hs₂, hs₃, hle₂⟩
    · rw [hs₁] at hs₂
      cases hs₂
    · rw [hs₁, Option.some.injEq] at hs₂
      subst hs₂
      exact .inr ⟨res, lower', hs, hs₃, le_trans hle₁ hle₂⟩

theorem Rises.low_le (h : Rises regions regions₁) (s : Space) :
  low regions s ≤ low regions₁ s
  := by
  rcases h s with ⟨hs, hs₁⟩ | ⟨res, lower, hs, hs₁, hle⟩
  · rw [low, low, hs, hs₁]
  · rw [low_eq hs, low_eq hs₁]
    exact hle

theorem Rises.started (h : Rises regions regions₁) (hstarted : regions.Started) :
  regions₁.Started
  := by
  intro s res₁ hres₁
  rcases h s with ⟨-, hs₁⟩ | ⟨res, lower, hs, hs₁, hle⟩
  · rw [hs₁] at hres₁
    cases hres₁
  · rw [hs₁, Option.some.injEq] at hres₁
    subst hres₁
    obtain ⟨hpos, hstart⟩ := hstarted s res hs
    exact ⟨lt_of_lt_of_le hpos hle, le_trans hstart hle⟩

theorem Rises.eq_none_iff (h : Rises regions regions₁) (s : Space) :
  regions₁ s = none ↔ regions s = none
  := by
  rcases h s with ⟨hs, hs₁⟩ | ⟨res, lower, hs, hs₁, -⟩
  · rw [hs, hs₁]
  · rw [hs, hs₁]
    simp

theorem Rises.space (h : Rises regions regions₁) (bar : Bar) :
  bar.space regions₁ = bar.space regions
  := by
  have hsome : (regions₁ .prefetch).isSome = (regions .prefetch).isSome := by
    rcases h .prefetch with ⟨hs, hs₁⟩ | ⟨res, lower, hs, hs₁, -⟩
    · rw [hs, hs₁]
    · rw [hs, hs₁]
      rfl
  rw [Bar.space, Bar.space, hsome]

/-- The end of a region stays where it is. -/
theorem Rises.inside (h : Rises regions regions₁) {n : ℕ}
    (hn : ∃ res, regions₁ s = some res ∧ n ≤ res.stop) :
  ∃ res, regions s = some res ∧ n ≤ res.stop
  := by
  obtain ⟨res₁, hres₁, hstop⟩ := hn
  rcases h s with ⟨-, hs⟩ | ⟨res, lower, hs, hs₁, -⟩
  · rw [hs] at hres₁
    cases hres₁
  · rw [hs₁, Option.some.injEq] at hres₁
    subst hres₁
    exact ⟨res, hs, hstop⟩

theorem rises_set {lower : PciAddr} (hres : regions s = some res)
    (hle : res.busLower.toNat ≤ lower.toNat) :
  Rises regions (regions.set s { res with busLower := lower })
  := by
  intro s'
  rw [Regions.set]
  split_ifs with hs
  · subst hs
    exact .inr ⟨res, lower, hres, rfl, hle⟩
  · exact Rises.refl regions s'

theorem low_set_self (regions : Regions) (s : Space) (res : Region) :
  low (regions.set s res) s = res.busLower.toNat
  := by
  rw [low, Regions.set, if_pos rfl]
  rfl

end Rises

/-! ### What a part of the scan does -/

/-- The function that an event is about. -/
def Event.path : Event → Path
  | .found q | .assigned q _ _ _ _ | .failed q _ _ | .command q _ | .busNumbers q _ _
  | .subordinate q _ | .reserved q _ | .windowBase q _ _ _ | .windowLimit q _ _ _ => q

/-- What holds of the log of a part of the scan, and of the regions before and after it. -/
structure Good (functions : List (Path × Function)) (regions regions' : Regions)
    (log : List Event) : Prop where
  rises : Rises regions regions'
  assigned : ∀ q i s size value, .assigned q i s size value ∈ log →
    ∃ f bar, (q, f) ∈ functions ∧ (i, bar) ∈ barsFrom f.bars 0 ∧ size.toNat = bar.size
      ∧ s = bar.space regions
  failed : ∀ q i s, .failed q i s ∈ log →
    ∃ f bar, (q, f) ∈ functions ∧ (i, bar) ∈ barsFrom f.bars 0 ∧ s = bar.space regions
  disabled : ∀ q i s c, .failed q i s ∈ log → .command q c ∈ log → c &&& windowEnable s = 0
  aligned : ∀ p ∈ placed log, p.size ∣ p.value
  inside : ∀ p ∈ placed log, ∃ res, regions p.s = some res ∧ p.value + p.size ≤ res.stop
  between : ∀ p ∈ placed log, low regions p.s ≤ p.value ∧ p.value + p.size ≤ low regions' p.s
  ordered : (placed log).Pairwise fun p p' => p.s = p'.s → p.value + p.size ≤ p'.value
  window : ∀ q s start stop, Window log q s start stop → regions s ≠ none →
    low regions s ≤ start ∧ stop ≤ low regions' s
  behind : ∀ q s start stop, Window log q s start stop → ∀ p ∈ placed log, p.s = s →
    Behind q p.q → start ≤ p.value ∧ p.value + p.size ≤ stop
  outside : ∀ q s start stop, Window log q s start stop → ∀ p ∈ placed log, p.s = s →
    ¬ Behind q p.q → p.value + p.size ≤ start ∨ stop ≤ p.value

/-- The two logs are about functions neither of which leads to the other. -/
def Apart (log log' : List Event) : Prop :=
  ∀ e ∈ log, ∀ e' ∈ log', ¬ e.path <+: e'.path ∧ ¬ e'.path <+: e.path

section Good

variable {functions functions' : List (Path × Function)} {regions regions₁ regions₂ : Regions}
  {log log' : List Event} {p : Placed} {q : Path} {s : Space} {start stop : ℕ}

theorem placed_append (log log' : List Event) :
  placed (log ++ log') = placed log ++ placed log'
  := List.filterMap_append ..

theorem placed_assigned (q : Path) (i : ℕ) (s : Space) (size value : PciAddr) (log : List Event) :
  placed (.assigned q i s size value :: log)
    = ⟨q, i, s, size.toNat, value.toNat⟩ :: placed log
  := rfl

theorem exists_of_mem_placed (h : p ∈ placed log) :
  ∃ e ∈ log, e.path = p.q
  := by
  obtain ⟨e, he, heq⟩ := List.mem_filterMap.mp h
  cases e <;> cases heq
  exact ⟨_, he, rfl⟩

theorem good_nil (functions : List (Path × Function)) (regions : Regions) :
  Good functions regions regions []
  := by
  have hwindow {q : Path} {s : Space} {start stop : ℕ} (h : Window [] q s start stop) : False := by
    obtain ⟨reg, upper, hmem, -⟩ := h.base
    cases hmem
  exact ⟨Rises.refl regions, by simp, by simp, by simp, by simp [placed], by simp [placed],
    by simp [placed], .nil, fun _ _ _ _ h => (hwindow h).elim, fun _ _ _ _ h => (hwindow h).elim,
    fun _ _ _ _ h => (hwindow h).elim⟩

theorem Good.mono (h : Good functions regions regions₁ log) (hsub : functions ⊆ functions') :
  Good functions' regions regions₁ log
  := by
  refine { h with assigned := ?_, failed := ?_ }
  · intro q i s size value hmem
    obtain ⟨f, bar, hf, hbar⟩ := h.assigned q i s size value hmem
    exact ⟨f, bar, hsub hf, hbar⟩
  · intro q i s hmem
    obtain ⟨f, bar, hf, hbar⟩ := h.failed q i s hmem
    exact ⟨f, bar, hsub hf, hbar⟩

/-- A window of two logs that are apart is a window of one of them. -/
theorem Apart.window (h : Apart log log') (hw : Window (log ++ log') q s start stop) :
  Window log q s start stop ∨ Window log' q s start stop
  := by
  obtain ⟨⟨reg, upper, hbase, hstart⟩, ⟨reg', upper', hlimit, hstop⟩⟩ := hw
  rcases List.mem_append.mp hbase with hb | hb <;> rcases List.mem_append.mp hlimit with hl | hl
  · exact .inl ⟨⟨reg, upper, hb, hstart⟩, ⟨reg', upper', hl, hstop⟩⟩
  · exact absurd List.prefix_rfl (h _ hb _ hl).1
  · exact absurd List.prefix_rfl (h _ hl _ hb).1
  · exact .inr ⟨⟨reg, upper, hb, hstart⟩, ⟨reg', upper', hl, hstop⟩⟩

theorem Window.exists_mem (h : Window log q s start stop) :
  ∃ e ∈ log, e.path = q
  := by
  obtain ⟨reg, upper, hmem, -⟩ := h.base
  exact ⟨_, hmem, rfl⟩

/-- A register that has got an address lies in a region. -/
theorem Good.ne_none (h : Good functions regions regions₁ log) (hp : p ∈ placed log) :
  regions p.s ≠ none
  := by
  obtain ⟨res, hres, -⟩ := h.inside p hp
  rw [hres]
  exact Option.some_ne_none res

/-- A window and a register of logs that are apart are not behind each other. -/
theorem Apart.not_behind (h : Apart log log') :
  (∀ {start stop}, Window log q s start stop → p ∈ placed log' → ¬ Behind q p.q)
    ∧ ∀ {start stop}, Window log' q s start stop → p ∈ placed log → ¬ Behind q p.q
  := by
  constructor
  · intro start stop hw hp hbehind
    obtain ⟨e, he, rfl⟩ := hw.exists_mem
    obtain ⟨e', he', heq⟩ := exists_of_mem_placed hp
    rw [← heq] at hbehind
    exact (h e he e' he').1 hbehind.1
  · intro start stop hw hp hbehind
    obtain ⟨e', he', rfl⟩ := hw.exists_mem
    obtain ⟨e, he, heq⟩ := exists_of_mem_placed hp
    rw [← heq] at hbehind
    exact (h e he e' he').2 hbehind.1

section Append

variable (h₁ : Good functions regions regions₁ log) (h₂ : Good functions regions₁ regions₂ log')
  (hapart : Apart log log')

include h₁ h₂

theorem Good.append_between (hp : p ∈ placed (log ++ log')) :
  low regions p.s ≤ p.value ∧ p.value + p.size ≤ low regions₂ p.s
  := by
  have hle₁ := h₁.rises.low_le p.s
  have hle₂ := h₂.rises.low_le p.s
  rw [placed_append] at hp
  rcases List.mem_append.mp hp with hp | hp
  · have hbetween := h₁.between p hp
    omega
  · have hbetween := h₂.between p hp
    omega

theorem Good.append_ordered :
  (placed (log ++ log')).Pairwise fun p p' => p.s = p'.s → p.value + p.size ≤ p'.value
  := by
  rw [placed_append, List.pairwise_append]
  refine ⟨h₁.ordered, h₂.ordered, ?_⟩
  intro p hp p' hp' hs
  have hbetween := h₁.between p hp
  have hbetween' := h₂.between p' hp'
  rw [hs] at hbetween
  omega

include hapart

theorem Good.append_disabled {i : ℕ} {c : Word} (hfailed : .failed q i s ∈ log ++ log')
    (hcommand : .command q c ∈ log ++ log') :
  c &&& windowEnable s = 0
  := by
  rcases List.mem_append.mp hfailed with hf | hf <;>
    rcases List.mem_append.mp hcommand with hc | hc
  · exact h₁.disabled q i s c hf hc
  · exact absurd List.prefix_rfl (hapart _ hf _ hc).1
  · exact absurd List.prefix_rfl (hapart _ hc _ hf).1
  · exact h₂.disabled q i s c hf hc

theorem Good.append_window (hw : Window (log ++ log') q s start stop) (hs : regions s ≠ none) :
  low regions s ≤ start ∧ stop ≤ low regions₂ s
  := by
  have hle₁ := h₁.rises.low_le s
  have hle₂ := h₂.rises.low_le s
  rcases hapart.window hw with hw | hw
  · have hin := h₁.window q s start stop hw hs
    omega
  · have hin := h₂.window q s start stop hw (by rwa [Ne, h₁.rises.eq_none_iff])
    omega

theorem Good.append_behind (hw : Window (log ++ log') q s start stop)
    (hp : p ∈ placed (log ++ log')) (hs : p.s = s) (hbehind : Behind q p.q) :
  start ≤ p.value ∧ p.value + p.size ≤ stop
  := by
  rw [placed_append] at hp
  rcases hapart.window hw with hw | hw <;> rcases List.mem_append.mp hp with hp | hp
  · exact h₁.behind q s start stop hw p hp hs hbehind
  · exact absurd hbehind (hapart.not_behind.1 hw hp)
  · exact absurd hbehind (hapart.not_behind.2 hw hp)
  · exact h₂.behind q s start stop hw p hp hs hbehind

theorem Good.append_outside (hw : Window (log ++ log') q s start stop)
    (hp : p ∈ placed (log ++ log')) (hs : p.s = s) (hbehind : ¬ Behind q p.q) :
  p.value + p.size ≤ start ∨ stop ≤ p.value
  := by
  rw [placed_append] at hp
  rcases hapart.window hw with hw | hw <;> rcases List.mem_append.mp hp with hp | hp
  · exact h₁.outside q s start stop hw p hp hs hbehind
  · -- the window was closed before the register got its address
    have hsome := h₂.ne_none hp
    rw [hs, Ne, h₁.rises.eq_none_iff] at hsome
    have hwindow := h₁.window q s start stop hw hsome
    have hplaced := h₂.between p hp
    rw [hs] at hplaced
    omega
  · have hsome := h₁.ne_none hp
    rw [hs, Ne, ← h₁.rises.eq_none_iff] at hsome
    have hwindow := h₂.window q s start stop hw hsome
    have hplaced := h₁.between p hp
    rw [hs] at hplaced
    omega
  · exact h₂.outside q s start stop hw p hp hs hbehind

/-- Two parts of the scan that are apart, one after the other. -/
theorem Good.append :
  Good functions regions regions₂ (log ++ log')
  := by
  constructor
  case rises => exact h₁.rises.trans h₂.rises
  case assigned =>
    intro q i s size value hmem
    rcases List.mem_append.mp hmem with hmem | hmem
    · exact h₁.assigned q i s size value hmem
    · obtain ⟨f, bar, hf, hbar, hsize, hs⟩ := h₂.assigned q i s size value hmem
      exact ⟨f, bar, hf, hbar, hsize, hs.trans (h₁.rises.space bar)⟩
  case failed =>
    intro q i s hmem
    rcases List.mem_append.mp hmem with hmem | hmem
    · exact h₁.failed q i s hmem
    · obtain ⟨f, bar, hf, hbar, hs⟩ := h₂.failed q i s hmem
      exact ⟨f, bar, hf, hbar, hs.trans (h₁.rises.space bar)⟩
  case disabled => exact fun _ _ _ _ => h₁.append_disabled h₂ hapart
  case aligned =>
    rw [placed_append]
    exact List.forall_mem_append.mpr ⟨h₁.aligned, h₂.aligned⟩
  case inside =>
    rw [placed_append]
    exact List.forall_mem_append.mpr ⟨h₁.inside, fun p hp => h₁.rises.inside (h₂.inside p hp)⟩
  case between => exact fun _ => h₁.append_between h₂
  case ordered => exact h₁.append_ordered h₂
  case window => exact fun _ _ _ _ => h₁.append_window h₂ hapart
  case behind => exact fun _ _ _ _ hw _ => h₁.append_behind h₂ hapart hw
  case outside => exact fun _ _ _ _ hw _ => h₁.append_outside h₂ hapart hw

end Append

end Good

/-! ### The registers of a function -/

section Setup

variable {q : Path} {bars : List Bar} {i : ℕ} {regions : Regions} {cmdstat : Word}

theorem mem_barsFrom_of_mem_turns {x : ℕ × Bar × Regions} (h : x ∈ turns bars i regions) :
  (x.1, x.2.1) ∈ barsFrom bars i
  := by
  fun_induction turns bars i regions with
  | case1 => cases h
  | case2 _ _ _ ih => exact List.mem_cons_of_mem _ (ih h)
  | case3 bar bars i regions _ ih =>
    rcases List.mem_cons.mp h with rfl | h
    · exact List.mem_cons_self
    · exact List.mem_cons_of_mem _ (ih h)

/-- What the loop over the registers does. -/
structure BarsDone (q : Path) (bars : List Bar) (i : ℕ) (regions : Regions) (cmdstat : Word)
    (out : Outcome) : Prop where
  rises : Rises regions out.regions
  events : ∀ e ∈ out.log, (∃ i s size value, e = .assigned q i s size value)
    ∨ ∃ i s, e = .failed q i s
  assigned : ∀ q' j s size value, .assigned q' j s size value ∈ out.log →
    ∃ bar, (j, bar) ∈ barsFrom bars i ∧ size.toNat = bar.size ∧ s = bar.space regions
  failed : ∀ q' j s, .failed q' j s ∈ out.log →
    ∃ x ∈ turns bars i regions, x.1 = j ∧ ¬ HasRoom x.2.2 x.2.1 ∧ s = x.2.1.space regions
  command : ∀ w, (∀ x ∈ turns bars i regions, HasRoom x.2.2 x.2.1 → x.2.1.enable &&& w = 0) →
    out.command &&& w = cmdstat &&& w
  aligned : ∀ p ∈ placed out.log, p.size ∣ p.value
  inside : ∀ p ∈ placed out.log, ∃ res, regions p.s = some res ∧ p.value + p.size ≤ res.stop
  between : ∀ p ∈ placed out.log,
    low regions p.s ≤ p.value ∧ p.value + p.size ≤ low out.regions p.s
  ordered : (placed out.log).Pairwise fun p p' => p.s = p'.s → p.value + p.size ≤ p'.value

section Bars

variable {bar : Bar} {out : Outcome}

theorem turns_cons (hne : bar ≠ .unused) :
  turns (bar :: bars) i regions
    = (i, bar, regions) :: turns bars (i + bar.responses.length) (regions.after bar)
  := by
  cases bar with
  | unused => exact absurd rfl hne
  | _ => rfl

theorem barsDone_nil (q : Path) (i : ℕ) (regions : Regions) (cmdstat : Word) :
  BarsDone q [] i regions cmdstat ⟨regions, cmdstat, []⟩
  := ⟨Rises.refl regions, by simp, by simp, by simp, fun _ _ => rfl, by simp [placed],
    by simp [placed], by simp [placed], .nil⟩

/-- A register that is not in use. -/
theorem BarsDone.cons_unused (hdone : BarsDone q bars (i + 1) regions cmdstat out) :
  BarsDone q (.unused :: bars) i regions cmdstat out
  := by
  refine { hdone with assigned := ?_ }
  intro q' j s size value hmem
  obtain ⟨bar, hmem', h⟩ := hdone.assigned q' j s size value hmem
  exact ⟨bar, List.mem_cons_of_mem _ hmem', h⟩

/-- A register for which there is no room. -/
theorem BarsDone.cons_failed (hne : bar ≠ .unused) (hroom : ¬ HasRoom regions bar)
    (hafter : regions.after bar = regions)
    (hdone : BarsDone q bars (i + bar.responses.length) regions cmdstat out) :
  BarsDone q (bar :: bars) i regions cmdstat
    { out with log := .failed q i (bar.space regions) :: out.log }
  := by
  have hturns := @turns_cons bars i regions bar hne
  rw [hafter] at hturns
  have hplaced : placed (.failed q i (bar.space regions) :: out.log) = placed out.log :=
    List.filterMap_cons_none rfl
  constructor
  case rises => exact hdone.rises
  case events => exact List.forall_mem_cons.mpr ⟨.inr ⟨_, _, rfl⟩, hdone.events⟩
  case assigned =>
    intro q' j s size value hmem
    rcases List.mem_cons.mp hmem with h | hmem
    · cases h
    · obtain ⟨bar', hmem', h⟩ := hdone.assigned q' j s size value hmem
      exact ⟨bar', List.mem_cons_of_mem _ hmem', h⟩
  case failed =>
    intro q' j s hmem
    rw [hturns]
    rcases List.mem_cons.mp hmem with h | hmem
    · cases h
      exact ⟨_, List.mem_cons_self, rfl, hroom, rfl⟩
    · obtain ⟨x, hx, h⟩ := hdone.failed q' j s hmem
      exact ⟨x, List.mem_cons_of_mem _ hx, h⟩
  case command =>
    intro w hw
    rw [hturns] at hw
    exact hdone.command w (List.forall_mem_cons.mp hw).2
  case aligned =>
    rw [hplaced]
    exact hdone.aligned
  case inside =>
    rw [hplaced]
    exact hdone.inside
  case between =>
    rw [hplaced]
    exact hdone.between
  case ordered =>
    rw [hplaced]
    exact hdone.ordered

/-- The region of a register before and after it has got an address. -/
structure Allocated (bar : Bar) (regions : Regions) (res : Region) (addr : PciAddr) : Prop where
  before : regions (bar.space regions) = some res
  rises : Rises regions (regions.after bar)
  after : low (regions.after bar) (bar.space regions) = res.next bar.size + bar.size
  addr_eq : addr.toNat = res.next bar.size
  low_le : res.busLower.toNat ≤ res.next bar.size
  room : res.Room bar.size

theorem allocated_of_after {res : Region} {addr lower : PciAddr} (hne : bar ≠ .unused)
    (hres : regions (bar.space regions) = some res)
    (hafter : regions.after bar = regions.set (bar.space regions) { res with busLower := lower })
    (haddr : addr.toNat = res.next bar.size) (hlower : lower.toNat = res.next bar.size + bar.size)
    (hroom : res.Room bar.size) :
  Allocated bar regions res addr
  := by
  obtain ⟨k, hk⟩ := exists_size_eq hne
  have hle := res.le_next (hk ▸ Nat.two_pow_pos k : 0 < bar.size)
  refine ⟨hres, ?_, ?_, haddr, hle, hroom⟩
  · rw [hafter]
    apply rises_set hres
    omega
  · rw [hafter, low_set_self]
    exact hlower

/-- A register that gets an address. -/
theorem BarsDone.cons_assigned {res : Region} {addr : PciAddr} (hne : bar ≠ .unused)
    (hvalid : bar.Valid) (halloc : Allocated bar regions res addr)
    (hdone : BarsDone q bars (i + bar.responses.length) (regions.after bar)
      (cmdstat ||| bar.enable) out) :
  BarsDone q (bar :: bars) i regions cmdstat
    { out with
      log := .assigned q i (bar.space regions) (BitVec.ofNat 64 bar.size) addr :: out.log }
  := by
  have hplaced : placed (.assigned q i (bar.space regions) (BitVec.ofNat 64 bar.size) addr
      :: out.log) = ⟨q, i, bar.space regions, bar.size, res.next bar.size⟩ :: placed out.log := by
    rw [placed_assigned, toNat_size hvalid, halloc.addr_eq]
  constructor
  case rises => exact halloc.rises.trans hdone.rises
  case events => exact List.forall_mem_cons.mpr ⟨.inl ⟨_, _, _, _, rfl⟩, hdone.events⟩
  case assigned =>
    intro q' j s size value hmem
    rcases List.mem_cons.mp hmem with h | hmem
    · cases h
      exact ⟨bar, List.mem_cons_self, toNat_size hvalid, rfl⟩
    · obtain ⟨bar', hmem', hsize, hs⟩ := hdone.assigned q' j s size value hmem
      exact ⟨bar', List.mem_cons_of_mem _ hmem', hsize, hs.trans (halloc.rises.space bar')⟩
  case failed =>
    intro q' j s hmem
    rcases List.mem_cons.mp hmem with h | hmem
    · cases h
    · obtain ⟨x, hx, hj, hnot, hs⟩ := hdone.failed q' j s hmem
      rw [turns_cons hne]
      exact ⟨x, List.mem_cons_of_mem _ hx, hj, hnot, hs.trans (halloc.rises.space _)⟩
  case command =>
    intro w hw
    rw [turns_cons hne] at hw
    obtain ⟨hself, hw⟩ := List.forall_mem_cons.mp hw
    rw [hdone.command w hw, BitVec.and_or_distrib_right,
      hself ⟨res, halloc.before, halloc.room⟩]
    exact BitVec.or_zero
  case aligned =>
    rw [hplaced]
    exact List.forall_mem_cons.mpr ⟨res.dvd_next _, hdone.aligned⟩
  case inside =>
    rw [hplaced]
    exact List.forall_mem_cons.mpr ⟨⟨res, halloc.before, halloc.room⟩,
      fun p hp => halloc.rises.inside (hdone.inside p hp)⟩
  case between =>
    rw [hplaced]
    refine List.forall_mem_cons.mpr ⟨?_, ?_⟩
    · have hrest := hdone.rises.low_le (bar.space regions)
      rw [halloc.after] at hrest
      rw [low_eq halloc.before]
      exact ⟨halloc.low_le, hrest⟩
    · intro p hp
      obtain ⟨hge, hle⟩ := hdone.between p hp
      exact ⟨le_trans (halloc.rises.low_le p.s) hge, hle⟩
  case ordered =>
    rw [hplaced]
    refine List.pairwise_cons.mpr ⟨?_, hdone.ordered⟩
    intro p hp hs
    have hbetween := (hdone.between p hp).1
    rw [← hs, halloc.after] at hbetween
    exact hbetween

theorem setupBars_done (hvalid : ∀ bar ∈ bars, bar.Valid)
    (hmeets : ∀ x ∈ turns bars i regions, BarMeets x.2.2 x.2.1) (hstarted : regions.Started) :
  BarsDone q bars i regions cmdstat
    (setupBars q (bars.flatMap Bar.responses) i false regions cmdstat)
  := by
  induction bars generalizing i regions cmdstat with
  | nil =>
    rw [List.flatMap_nil, setupBars]
    apply barsDone_nil
  | cons bar bars ih =>
    obtain ⟨hbar, hbars⟩ := List.forall_mem_cons.mp hvalid
    rw [List.flatMap_cons]
    by_cases hne : bar = .unused
    · subst hne
      exact BarsDone.cons_unused (@ih (i + 1) regions cmdstat hbars hmeets hstarted)
    rw [turns_cons hne] at hmeets
    obtain ⟨hmeet, hmeets⟩ := List.forall_mem_cons.mp hmeets
    by_cases hroom : HasRoom regions bar
    · obtain ⟨res, addr, lower, hres, hafter, haddr, hlower, hstop, heq⟩ :=
        @setupBars_of_room regions bar q (bars.flatMap Bar.responses) i cmdstat hne hbar hmeet
          hstarted hroom
      have halloc := allocated_of_after hne hres hafter haddr hlower hstop
      rw [heq]
      exact BarsDone.cons_assigned hne hbar halloc
        (ih hbars hmeets (halloc.rises.started hstarted))
    · obtain ⟨hafter, heq⟩ :=
        @setupBars_of_not_room regions bar q (bars.flatMap Bar.responses) i cmdstat hne hbar
          hmeet hstarted hroom
      rw [hafter] at hmeets
      rw [heq]
      exact BarsDone.cons_failed hne hroom hafter (ih hbars hmeets hstarted)

end Bars

/-- The bit for a register is the one for the windows of its space. -/
theorem windowEnable_space (regions : Regions) (bar : Bar) :
  windowEnable (bar.space regions) = bar.enable
  := by
  rw [Bar.space, Bar.enable]
  cases bar.isIo with
  | true => rfl
  | false =>
    simp only [Bool.false_eq_true, if_false]
    split_ifs <;> rfl

theorem windowEnable_eq_iff (s : Space) (bar : Bar) :
  windowEnable s = bar.enable ↔ (s = .io ↔ bar.isIo = true)
  := by
  rw [windowEnable, Bar.enable]
  cases s <;> cases bar.isIo <;> decide

theorem enable_and_eq_zero {bar bar' : Bar} (h : bar.isIo ≠ bar'.isIo) :
  bar.enable &&& bar'.enable = 0
  := by
  rw [Bar.enable, Bar.enable]
  cases hio : bar.isIo <;> cases hio' : bar'.isIo
  · exact absurd (hio.trans hio'.symm) h
  · decide
  · decide
  · exact absurd (hio.trans hio'.symm) h

/-- The command register at the start of the loop. -/
theorem cmdstat_and_enable (command : Word) (bar : Bar) :
  (command &&& ~~~(commandIo ||| commandMemory) ||| commandMaster) &&& bar.enable = 0
  := by
  have hmask : ~~~(commandIo ||| commandMemory) &&& bar.enable = 0 := by
    rw [Bar.enable]
    split_ifs <;> decide
  have hmaster : commandMaster &&& bar.enable = 0 := by
    rw [Bar.enable]
    split_ifs <;> decide
  rw [BitVec.and_or_distrib_right, BitVec.and_assoc, hmask, hmaster]
  simp

variable {f : Function} {n : ℕ}

/-- What `pciauto_setup_device` does. -/
structure SetupDone (q : Path) (f : Function) (regions : Regions) (out : Outcome) : Prop where
  good : Good [(q, f)] regions out.regions out.log
  path : ∀ e ∈ out.log, e.path = q
  noWindow : ∀ e ∈ out.log, ∀ q' s reg upper, e ≠ .windowBase q' s reg upper
    ∧ e ≠ .windowLimit q' s reg upper
  disabled : ∀ i s, .failed q i s ∈ out.log → out.command &&& windowEnable s = 0
    ∧ (f.kind = .bridge → ∀ s', windowEnable s' = windowEnable s → regions s' = none)

theorem setupDevice_done (hmeets : SetupMeets f regions) (hstarted : regions.Started)
    (hn : f.registers.length ≤ n) :
  SetupDone q f regions (setupDevice q f n regions)
  := by
  have hdone := @setupBars_done q f.bars 0 regions
    (f.command &&& ~~~(commandIo ||| commandMemory) ||| commandMaster) f.bars_valid hmeets.bars
    hstarted
  rw [setupDevice, List.take_of_length_le hn, Function.registers]
  generalize setupBars q (f.bars.flatMap Bar.responses) 0 false regions
    (f.command &&& ~~~(commandIo ||| commandMemory) ||| commandMaster) = out at hdone
  have hdisabled (q' : Path) (i : ℕ) (s : Space) (h : .failed q' i s ∈ out.log) :
      out.command &&& windowEnable s = 0
        ∧ (f.kind = .bridge → ∀ s', windowEnable s' = windowEnable s → regions s' = none) := by
    obtain ⟨x, hx, -, hnot, rfl⟩ := hdone.failed q' i s h
    rw [windowEnable_space]
    constructor
    · rw [hdone.command, cmdstat_and_enable]
      intro y hy hroom
      apply enable_and_eq_zero
      exact fun hio => hnot (hmeets.space y hy x hx hio hroom)
    · intro hkind s' hs'
      apply hmeets.bridge hkind x hx hnot
      exact (windowEnable_eq_iff s' x.2.1).mp hs'
  have hmem {e : Event} (h : e ∈ out.log ++ [.command q out.command]) :
      (∃ i s size value, e = .assigned q i s size value) ∨ (∃ i s, e = .failed q i s)
        ∨ e = .command q out.command := by
    rcases List.mem_append.mp h with h | h
    · exact (hdone.events e h).imp_right .inl
    · exact .inr (.inr (List.mem_singleton.mp h))
  have hevent {e : Event} (h : e ∈ out.log ++ [.command q out.command])
      (hne : e ≠ .command q out.command) : e ∈ out.log := by
    rcases List.mem_append.mp h with h | h
    · exact h
    · exact absurd (List.mem_singleton.mp h) hne
  have hplaced : placed (out.log ++ [.command q out.command]) = placed out.log := by
    rw [placed_append]
    exact List.append_nil _
  have hwindow (e : Event) (he : e ∈ out.log ++ [.command q out.command]) (q' : Path) (s : Space)
      (reg upper : BitVec 16) :
      e ≠ .windowBase q' s reg upper ∧ e ≠ .windowLimit q' s reg upper := by
    rcases hmem he with ⟨i, s', size, value, rfl⟩ | ⟨i, s', rfl⟩ | rfl <;> simp
  have hnone {q' : Path} {s : Space} {start stop : ℕ}
      (h : Window (out.log ++ [.command q out.command]) q' s start stop) : False := by
    obtain ⟨reg, upper, hbase, -⟩ := h.base
    exact (hwindow _ hbase q' s reg upper).1 rfl
  refine ⟨?_, ?_, hwindow, ?_⟩
  · constructor
    case rises => exact hdone.rises
    case assigned =>
      intro q' i s size value h
      obtain ⟨bar, hbar⟩ := hdone.assigned q' i s size value (hevent h (by simp))
      rcases hmem h with ⟨i, s', size, value, heq⟩ | ⟨i, s', heq⟩ | heq <;> cases heq
      exact ⟨f, bar, List.mem_singleton.mpr rfl, hbar⟩
    case failed =>
      intro q' i s h
      obtain ⟨x, hx, rfl, -, hs⟩ := hdone.failed q' i s (hevent h (by simp))
      rcases hmem h with ⟨i, s', size, value, heq⟩ | ⟨i, s', heq⟩ | heq <;> cases heq
      exact ⟨f, x.2.1, List.mem_singleton.mpr rfl, mem_barsFrom_of_mem_turns hx, hs⟩
    case disabled =>
      intro q' i s c hfailed hcommand
      rcases hmem hcommand with ⟨i, s', size, value, heq⟩ | ⟨i, s', heq⟩ | heq <;> cases heq
      exact (hdisabled _ i s (hevent hfailed (by simp))).1
    case aligned =>
      rw [hplaced]
      exact hdone.aligned
    case inside =>
      rw [hplaced]
      exact hdone.inside
    case between =>
      rw [hplaced]
      exact hdone.between
    case ordered =>
      rw [hplaced]
      exact hdone.ordered
    case window => exact fun _ _ _ _ h => (hnone h).elim
    case behind => exact fun _ _ _ _ h => (hnone h).elim
    case outside => exact fun _ _ _ _ h => (hnone h).elim
  · intro e he
    rcases hmem he with ⟨i, s', size, value, rfl⟩ | ⟨i, s', rfl⟩ | rfl <;> rfl
  · intro i s h
    exact hdisabled q i s (hevent h (by simp))

end Setup

/-! ### Windows -/

section Window

variable {q : Path} {regions : Regions} {s : Space} {res : Region} {lower : PciAddr}

theorem toNat_ioReg (addr : PciAddr) :
  (((addr &&& 0xf000) >>> 8).setWidth 16).toNat = 2 ^ 4 * (addr.toNat / 2 ^ 12 % 2 ^ 4)
  := by
  have hmask : (addr &&& 0xf000).toNat = 2 ^ 12 * (addr.toNat / 2 ^ 12 % 2 ^ 4) := by
    rw [BitVec.toNat_and]
    exact Align.and_block addr.toNat 12 4
  rw [BitVec.toNat_setWidth, BitVec.toNat_ushiftRight, hmask, Nat.shiftRight_eq_div_pow]
  omega

theorem toNat_ioUpperReg (addr : PciAddr) :
  (((addr &&& 0xffff0000) >>> 16).setWidth 16).toNat = addr.toNat / 2 ^ 16 % 2 ^ 16
  := by
  have hmask : (addr &&& 0xffff0000).toNat = 2 ^ 16 * (addr.toNat / 2 ^ 16 % 2 ^ 16) := by
    rw [BitVec.toNat_and]
    exact Align.and_block addr.toNat 16 16
  rw [BitVec.toNat_setWidth, BitVec.toNat_ushiftRight, hmask, Nat.shiftRight_eq_div_pow]
  omega

theorem toNat_memReg (addr : PciAddr) :
  (((addr &&& 0xfff00000) >>> 16).setWidth 16).toNat = 2 ^ 4 * (addr.toNat / 2 ^ 20 % 2 ^ 12)
  := by
  have hmask : (addr &&& 0xfff00000).toNat = 2 ^ 20 * (addr.toNat / 2 ^ 20 % 2 ^ 12) := by
    rw [BitVec.toNat_and]
    exact Align.and_block addr.toNat 20 12
  rw [BitVec.toNat_setWidth, BitVec.toNat_ushiftRight, hmask, Nat.shiftRight_eq_div_pow]
  omega

theorem toNat_granule_io :
  (granule .io).toNat = 2 ^ 12
  := rfl

theorem toNat_granule_of_ne (hs : s ≠ .io) :
  (granule s).toNat = 2 ^ 20
  := by
  cases s with
  | io => exact absurd rfl hs
  | _ => rfl

/-- A bridge reads the base registers as they are meant. -/
theorem windowStart_baseRegs (hdvd : (granule s).toNat ∣ lower.toNat) (hlt : lower.toNat < 2 ^ 32) :
  windowStart s (baseRegs s lower).1 (baseRegs s lower).2 = lower.toNat
  := by
  obtain ⟨m, hm⟩ := hdvd
  rw [windowStart, baseRegs]
  split_ifs with hs
  · subst hs
    rw [toNat_granule_io] at hm
    rw [toNat_ioReg, toNat_ioUpperReg]
    omega
  · rw [toNat_granule_of_ne hs] at hm
    rw [toNat_memReg]
    omega

/-- A bridge reads the limit registers as they are meant. -/
theorem windowStop_limitRegs (hdvd : (granule s).toNat ∣ lower.toNat) (hpos : 0 < lower.toNat)
    (hle : lower.toNat ≤ 2 ^ 32) :
  windowStop s (limitRegs s lower).1 (limitRegs s lower).2 = lower.toNat
  := by
  obtain ⟨m, hm⟩ := hdvd
  have hsub : (lower - 1).toNat = lower.toNat - 1 :=
    BitVec.toNat_sub_of_le (by rw [BitVec.le_def]; exact hpos)
  rw [windowStop, limitRegs]
  split_ifs with hs
  · subst hs
    rw [toNat_granule_io] at hm
    rw [toNat_ioReg, toNat_ioUpperReg, hsub]
    omega
  · rw [toNat_granule_of_ne hs] at hm
    rw [BitVec.toNat_setWidth, BitVec.toNat_ushiftRight, hsub, Nat.shiftRight_eq_div_pow]
    omega

theorem exists_granule_eq (s : Space) :
  ∃ k, (granule s).toNat = 2 ^ k
  := by
  cases s with
  | io => exact ⟨12, rfl⟩
  | _ => exact ⟨20, rfl⟩

/-- Rounding the regions. -/
theorem toNat_align (hstarted : res.Started) (hlt : res.next (granule s).toNat < 2 ^ 64) :
  (res.align (granule s)).busLower.toNat = res.next (granule s).toNat
  := by
  obtain ⟨k, hk⟩ := exists_granule_eq s
  exact Region.toNat_roundUp hstarted hk hlt

theorem rises_align (hstarted : regions.Started)
    (hlt : ∀ s res, regions s = some res → res.next (granule s).toNat < 2 ^ 64) :
  Rises regions regions.align
  := by
  intro s
  rw [Regions.align]
  cases hres : regions s with
  | none => exact .inl ⟨rfl, rfl⟩
  | some res =>
    obtain ⟨k, hk⟩ := exists_granule_eq s
    refine .inr ⟨res, _, rfl, rfl, ?_⟩
    have hround := toNat_align (hstarted s res hres) (hlt s res hres)
    have hle := res.le_next (hk ▸ Nat.two_pow_pos k : 0 < (granule s).toNat)
    exact le_of_le_of_eq hle hround.symm

theorem mem_openWindows {e : Event} (h : e ∈ windows.flatMap (openWindow q regions)) :
  (∃ s res, regions s = some res
      ∧ e = .windowBase q s (baseRegs s res.busLower).1 (baseRegs s res.busLower).2)
    ∨ regions .prefetch = none
      ∧ (e = .windowBase q .prefetch 0x1000 0 ∨ e = .windowLimit q .prefetch 0 0)
  := by
  obtain ⟨s, -, he⟩ := List.mem_flatMap.mp h
  rw [openWindow] at he
  split at he
  case h_1 res hres => exact .inl ⟨s, res, hres, List.mem_singleton.mp he⟩
  case h_2 hnone =>
    split_ifs at he with hs
    · subst hs
      exact .inr ⟨hnone, List.mem_pair.mp he⟩
    · cases he

theorem mem_closeWindows_iff {e : Event} :
  e ∈ windows.flatMap (closeWindow q regions)
    ↔ ∃ s res, regions s = some res
      ∧ e = .windowLimit q s (limitRegs s res.busLower).1 (limitRegs s res.busLower).2
  := by
  have hall (s : Space) : s ∈ windows := by cases s <;> decide
  rw [List.mem_flatMap]
  apply exists_congr
  intro s
  rw [and_iff_right (hall s), closeWindow]
  cases hres : regions s with
  | none => simp
  | some res => simp

/-- The bits that opening the windows sets. -/
theorem foldl_windowEnable_and {cmdstat w : Word}
    (h : ∀ s, (regions s).isSome = true → windowEnable s &&& w = 0) (l : List Space) :
  l.foldl (fun cmdstat s =>
      if (regions s).isSome then cmdstat ||| windowEnable s else cmdstat) cmdstat &&& w
    = cmdstat &&& w
  := by
  induction l generalizing cmdstat with
  | nil => rfl
  | cons s l ih =>
    rw [List.foldl_cons, ih]
    split_ifs with hs
    · rw [BitVec.and_or_distrib_right, h s hs]
      exact BitVec.or_zero
    · rfl

theorem windowEnable_and_eq_zero {s s' : Space} (h : windowEnable s ≠ windowEnable s') :
  windowEnable s &&& windowEnable s' = 0
  := by
  cases s <;> cases s' <;> first | exact absurd rfl h | decide

/-- What opening the windows of a bridge writes. -/
structure Opened (q : Path) (cmdstat : Word) (regions : Regions) (log : List Event) : Prop where
  path : ∀ e ∈ log, e.path = q
  noFailed : ∀ q' i s, .failed q' i s ∉ log
  noAssigned : ∀ q' i s size value, .assigned q' i s size value ∉ log
  base : ∀ q' s reg upper, .windowBase q' s reg upper ∈ log → regions s ≠ none →
    windowStart s reg upper = low regions.align s
  limit : ∀ q' s reg upper, .windowLimit q' s reg upper ∈ log → regions s = none
  command : ∀ q' c s, .command q' c ∈ log →
    (∀ s', windowEnable s' = windowEnable s → regions s' = none) → cmdstat &&& windowEnable s = 0 →
    c &&& windowEnable s = 0

theorem align_eq_some {res' : Region} (h : regions.align s = some res') :
  ∃ res, regions s = some res ∧ res' = res.align (granule s)
  := by
  rw [Regions.align, Option.map_eq_some_iff] at h
  obtain ⟨res, hres, rfl⟩ := h
  exact ⟨res, hres, rfl⟩

theorem prescan_opened {hose : Hose} {bus subBus : ℕ} {cmdstat : Word}
    (hstarted : hose.regions.Started) (hmeets : OpenMeets hose.regions) :
  Opened q cmdstat hose.regions (prescanSetupBridge q bus subBus cmdstat hose).2
  := by
  have hmem {e : Event} (h : e ∈ (prescanSetupBridge q bus subBus cmdstat hose).2) :
      (∃ p s, e = .busNumbers q p s)
        ∨ (∃ s res, hose.regions s = some res ∧ e = .windowBase q s
          (baseRegs s (res.align (granule s)).busLower).1
          (baseRegs s (res.align (granule s)).busLower).2)
        ∨ (hose.regions .prefetch = none
          ∧ (e = .windowBase q .prefetch 0x1000 0 ∨ e = .windowLimit q .prefetch 0 0))
        ∨ e = .command q (windows.foldl (fun cmdstat s =>
          if (hose.regions.align s).isSome then cmdstat ||| windowEnable s else cmdstat) cmdstat
            ||| commandMaster) := by
    rw [prescanSetupBridge, List.cons_append, List.mem_cons, List.mem_append,
      List.mem_singleton] at h
    rcases h with rfl | h | rfl
    · exact .inl ⟨_, _, rfl⟩
    · rcases mem_openWindows h with ⟨s, res', hres', rfl⟩ | ⟨hnone, h⟩
      · obtain ⟨res, hres, rfl⟩ := align_eq_some hres'
        exact .inr (.inl ⟨s, res, hres, rfl⟩)
      · exact .inr (.inr (.inl ⟨by simpa [Regions.align] using hnone, h⟩))
    · exact .inr (.inr (.inr rfl))
  constructor
  case path =>
    intro e he
    rcases hmem he with ⟨p, s, rfl⟩ | ⟨s, res, -, rfl⟩ | ⟨-, rfl | rfl⟩ | rfl <;> rfl
  case noFailed =>
    intro q' i s he
    rcases hmem he with ⟨p, s, h⟩ | ⟨s, res, -, h⟩ | ⟨-, h | h⟩ | h <;> cases h
  case noAssigned =>
    intro q' i s size value he
    rcases hmem he with ⟨p, s, h⟩ | ⟨s, res, -, h⟩ | ⟨-, h | h⟩ | h <;> cases h
  case base =>
    intro q' s reg upper he hne
    rcases hmem he with ⟨p, s, h⟩ | ⟨s, res, hres, h⟩ | ⟨hnone, h | h⟩ | h <;> cases h
    · have hlt := hmeets s res hres
      have hround := toNat_align (hstarted s res hres) (lt_trans hlt (by decide))
      have hlow : low hose.regions.align s = (res.align (granule s)).busLower.toNat := by
        apply low_eq
        rw [Regions.align, hres]
        rfl
      rw [hlow]
      apply windowStart_baseRegs
      · rw [hround]
        exact res.dvd_next _
      · rwa [hround]
    · exact absurd hnone hne
  case limit =>
    intro q' s reg upper he
    rcases hmem he with ⟨p, s, h⟩ | ⟨s, res, hres, h⟩ | ⟨hnone, h | h⟩ | h <;> cases h
    exact hnone
  case command =>
    intro q' c s he hnone hzero
    rcases hmem he with ⟨p, s, h⟩ | ⟨s, res, hres, h⟩ | ⟨-, h | h⟩ | h <;> cases h
    have hmaster : commandMaster &&& windowEnable s = 0 := by cases s <;> decide
    rw [BitVec.and_or_distrib_right, hmaster, foldl_windowEnable_and _ windows, hzero]
    · rfl
    · intro s' hs'
      apply windowEnable_and_eq_zero
      intro heq
      simp [Regions.align, hnone s' heq] at hs'

/-- What closing the windows of a bridge writes. -/
structure Closed (q : Path) (regions : Regions) (log : List Event) : Prop where
  events : ∀ e ∈ log, (∃ bus, e = .subordinate q bus)
    ∨ ∃ s reg upper, e = .windowLimit q s reg upper
  limit : ∀ q' s reg upper, .windowLimit q' s reg upper ∈ log →
    windowStop s reg upper = low regions.align s
  exists_limit : ∀ s, regions s ≠ none → ∃ reg upper, .windowLimit q s reg upper ∈ log

theorem postscan_closed {hose : Hose} {subBus : ℕ} (hstarted : hose.regions.Started)
    (hmeets : CloseMeets hose.regions) :
  Closed q hose.regions (postscanSetupBridge q subBus hose).2
  := by
  have hmem {e : Event} : e ∈ (postscanSetupBridge q subBus hose).2
      ↔ e = .subordinate q (UInt8.ofNat (subBus - hose.firstBusno))
        ∨ ∃ s res, hose.regions.align s = some res
          ∧ e = .windowLimit q s (limitRegs s res.busLower).1 (limitRegs s res.busLower).2 := by
    rw [postscanSetupBridge, List.mem_cons, mem_closeWindows_iff]
  constructor
  case events =>
    intro e he
    rcases hmem.mp he with rfl | ⟨s, res, -, rfl⟩
    · exact .inl ⟨_, rfl⟩
    · exact .inr ⟨s, _, _, rfl⟩
  case limit =>
    intro q' s reg upper he
    rcases hmem.mp he with h | ⟨s, res', hres', h⟩ <;> cases h
    obtain ⟨res, hres, rfl⟩ := align_eq_some hres'
    obtain ⟨k, hk⟩ := exists_granule_eq s
    have hle := hmeets s res hres
    have hround := toNat_align (hstarted s res hres) (lt_of_le_of_lt hle (by decide))
    have hpos := (hstarted s res hres).pos
    have hnext := res.le_next (hk ▸ Nat.two_pow_pos k : 0 < (granule s).toNat)
    rw [low_eq hres']
    apply windowStop_limitRegs
    · rw [hround]
      exact res.dvd_next _
    · omega
    · rwa [hround]
  case exists_limit =>
    intro s hs
    obtain ⟨res, hres⟩ := Option.ne_none_iff_exists'.mp hs
    refine ⟨_, _, hmem.mpr (.inr ⟨s, res.align (granule s), ?_, rfl⟩)⟩
    rw [Regions.align, hres]
    rfl

theorem placed_eq_nil {log : List Event}
    (h : ∀ q' i s size value, .assigned q' i s size value ∉ log) :
  placed log = []
  := by
  rw [List.eq_nil_iff_forall_not_mem]
  intro p hp
  obtain ⟨e, he, heq⟩ := List.mem_filterMap.mp hp
  cases e <;> cases heq
  exact h _ _ _ _ _ he

/-- What is done for a bridge: its own registers, its windows, and what lies behind it. -/
structure BridgeDone (q : Path) (f : Function) (functions : List (Path × Function))
    (regions : Regions) (out : Outcome) (regions₂ : Regions) (log₁ log₂ log₃ : List Event) :
    Prop where
  kind : f.kind = .bridge
  setup : SetupDone q f regions out
  opened : Opened q out.command out.regions log₁
  leg : Good functions out.regions.align regions₂ log₂
  below : ∀ e ∈ log₂, ∃ d q', e.path = q ++ d :: q'
  closed : Closed q regions₂ log₃
  rises₁ : Rises out.regions out.regions.align
  rises₃ : Rises regions₂ regions₂.align

namespace BridgeDone

variable {f : Function} {functions : List (Path × Function)} {out : Outcome}
  {regions₂ : Regions} {log₁ log₂ log₃ : List Event} {q' : Path} {c : Word} {start stop : ℕ}
  {p : Placed} (h : BridgeDone q f functions regions out regions₂ log₁ log₂ log₃)

include h

/-- The regions until the bus behind the bridge is scanned. -/
theorem rises_align :
  Rises regions out.regions.align
  := h.setup.good.rises.trans h.rises₁

theorem placed_eq :
  placed (out.log ++ log₁ ++ log₂ ++ log₃) = placed out.log ++ placed log₂
  := by
  have hnone : placed log₃ = [] := by
    apply placed_eq_nil
    intro q' i s size value he
    rcases h.closed.events _ he with ⟨_, heq⟩ | ⟨_, _, _, heq⟩ <;> cases heq
  rw [placed_append, placed_append, placed_append, placed_eq_nil h.opened.noAssigned, hnone,
    List.append_nil, List.append_nil]

/-- The functions behind the bridge lie below it. -/
theorem not_prefix {e : Event} (he : e ∈ log₂) :
  ¬ e.path <+: q
  := by
  obtain ⟨d, q', hq'⟩ := h.below e he
  intro hle
  have hlen := hle.length_le
  rw [hq', List.length_append, List.length_cons] at hlen
  omega

theorem path_ne {e : Event} (he : e ∈ log₂) (heq : e.path = q) :
  False
  := h.not_prefix he (heq ▸ List.prefix_rfl)

omit h in
theorem mem_cases {e : Event} (he : e ∈ out.log ++ log₁ ++ log₂ ++ log₃) :
  e ∈ out.log ∨ e ∈ log₁ ∨ e ∈ log₂ ∨ e ∈ log₃
  := by
  simpa only [List.mem_append, or_assoc] using he

/-- Registers get addresses on the bridge and behind it. -/
theorem mem_assigned {i : ℕ} {size value : PciAddr}
    (he : .assigned q' i s size value ∈ out.log ++ log₁ ++ log₂ ++ log₃) :
  .assigned q' i s size value ∈ out.log ∨ .assigned q' i s size value ∈ log₂
  := by
  rcases mem_cases he with he | he | he | he
  · exact .inl he
  · exact absurd he (h.opened.noAssigned q' i s size value)
  · exact .inr he
  · rcases h.closed.events _ he with ⟨_, heq⟩ | ⟨_, _, _, heq⟩ <;> cases heq

theorem mem_failed {i : ℕ} (he : .failed q' i s ∈ out.log ++ log₁ ++ log₂ ++ log₃) :
  .failed q' i s ∈ out.log ∨ .failed q' i s ∈ log₂
  := by
  rcases mem_cases he with he | he | he | he
  · exact .inl he
  · exact absurd he (h.opened.noFailed q' i s)
  · exact .inr he
  · rcases h.closed.events _ he with ⟨_, heq⟩ | ⟨_, _, _, heq⟩ <;> cases heq

/-- The command registers are not written when the windows are closed. -/
theorem mem_command (he : .command q' c ∈ out.log ++ log₁ ++ log₂ ++ log₃) :
  .command q' c ∈ out.log ∨ .command q' c ∈ log₁ ∨ .command q' c ∈ log₂
  := by
  rcases mem_cases he with he | he | he | he
  · exact .inl he
  · exact .inr (.inl he)
  · exact .inr (.inr he)
  · rcases h.closed.events _ he with ⟨_, heq⟩ | ⟨_, _, _, heq⟩ <;> cases heq

theorem mem_windowBase {reg upper : BitVec 16}
    (he : .windowBase q' s reg upper ∈ out.log ++ log₁ ++ log₂ ++ log₃) :
  .windowBase q' s reg upper ∈ log₁ ∨ .windowBase q' s reg upper ∈ log₂
  := by
  rcases mem_cases he with he | he | he | he
  · exact absurd rfl (h.setup.noWindow _ he q' s reg upper).1
  · exact .inl he
  · exact .inr he
  · rcases h.closed.events _ he with ⟨_, heq⟩ | ⟨_, _, _, heq⟩ <;> cases heq

theorem mem_windowLimit {reg upper : BitVec 16}
    (he : .windowLimit q' s reg upper ∈ out.log ++ log₁ ++ log₂ ++ log₃) :
  .windowLimit q' s reg upper ∈ log₁ ∨ .windowLimit q' s reg upper ∈ log₂
    ∨ .windowLimit q' s reg upper ∈ log₃
  := by
  rcases mem_cases he with he | he
  · exact absurd rfl (h.setup.noWindow _ he q' s reg upper).2
  · exact he

/-- A window is one of the bridge, or one behind it. -/
theorem window_cases (hw : Window (out.log ++ log₁ ++ log₂ ++ log₃) q' s start stop) :
  q' = q ∧ (out.regions s = none
      ∨ start = low out.regions.align s ∧ stop = low regions₂.align s)
    ∨ Window log₂ q' s start stop
  := by
  obtain ⟨⟨reg, upper, hbase, hstart⟩, ⟨reg', upper', hlimit, hstop⟩⟩ := hw
  rcases h.mem_windowBase hbase with hb | hb
  · have hq' : q' = q := h.opened.path _ hb
    refine .inl ⟨hq', ?_⟩
    rcases h.mem_windowLimit hlimit with hl | hl | hl
    · exact .inl (h.opened.limit q' s reg' upper' hl)
    · exact (h.path_ne hl hq').elim
    · by_cases hs : out.regions s = none
      · exact .inl hs
      · rw [h.opened.base q' s reg upper hb hs] at hstart
        rw [h.closed.limit q' s reg' upper' hl] at hstop
        exact .inr ⟨hstart, hstop⟩
  · rcases h.mem_windowLimit hlimit with hl | hl | hl
    · have hq' : q' = q := h.opened.path _ hl
      exact (h.path_ne hb hq').elim
    · exact .inr ⟨⟨reg, upper, hb, hstart⟩, ⟨reg', upper', hl, hstop⟩⟩
    · rcases h.closed.events _ hl with ⟨_, heq⟩ | ⟨_, _, _, heq⟩ <;> cases heq
      exact (h.path_ne hb rfl).elim

theorem disabled {i : ℕ} (hfailed : .failed q' i s ∈ out.log ++ log₁ ++ log₂ ++ log₃)
    (hcommand : .command q' c ∈ out.log ++ log₁ ++ log₂ ++ log₃) :
  c &&& windowEnable s = 0
  := by
  rcases h.mem_failed hfailed with hf | hf
  · have hq' : q' = q := h.setup.path _ hf
    rcases h.mem_command hcommand with hc | hc | hc
    · exact h.setup.good.disabled q' i s c hf hc
    · subst hq'
      obtain ⟨hzero, hnone⟩ := h.setup.disabled i s hf
      apply h.opened.command q' c s hc _ hzero
      intro s' hs'
      rw [h.setup.good.rises.eq_none_iff]
      exact hnone h.kind s' hs'
    · exact (h.path_ne hc hq').elim
  · rcases h.mem_command hcommand with hc | hc | hc
    · have hq' : q' = q := h.setup.path _ hc
      exact (h.path_ne hf hq').elim
    · have hq' : q' = q := h.opened.path _ hc
      exact (h.path_ne hf hq').elim
    · exact h.leg.disabled q' i s c hf hc

theorem between (hp : p ∈ placed (out.log ++ log₁ ++ log₂ ++ log₃)) :
  low regions p.s ≤ p.value ∧ p.value + p.size ≤ low regions₂.align p.s
  := by
  have h₀ := h.setup.good.rises.low_le p.s
  have h₁ := h.rises₁.low_le p.s
  have h₂ := h.leg.rises.low_le p.s
  have h₃ := h.rises₃.low_le p.s
  rw [h.placed_eq] at hp
  rcases List.mem_append.mp hp with hp | hp
  · have hbetween := h.setup.good.between p hp
    omega
  · have hbetween := h.leg.between p hp
    omega

theorem ordered :
  (placed (out.log ++ log₁ ++ log₂ ++ log₃)).Pairwise
    fun p p' => p.s = p'.s → p.value + p.size ≤ p'.value
  := by
  rw [h.placed_eq, List.pairwise_append]
  refine ⟨h.setup.good.ordered, h.leg.ordered, ?_⟩
  intro p hp p' hp' hs
  have hbetween := h.setup.good.between p hp
  have hbetween' := h.leg.between p' hp'
  have h₁ := h.rises₁.low_le p'.s
  rw [hs] at hbetween
  omega

theorem window (hw : Window (out.log ++ log₁ ++ log₂ ++ log₃) q' s start stop)
    (hs : regions s ≠ none) :
  low regions s ≤ start ∧ stop ≤ low regions₂.align s
  := by
  have h₀ := h.setup.good.rises.low_le s
  have h₁ := h.rises₁.low_le s
  have h₃ := h.rises₃.low_le s
  rcases h.window_cases hw with ⟨-, hnone | ⟨rfl, rfl⟩⟩ | hw
  · exact absurd ((h.setup.good.rises.eq_none_iff s).mp hnone) hs
  · omega
  · have hin := h.leg.window q' s start stop hw (by rwa [Ne, h.rises_align.eq_none_iff])
    omega

theorem behind (hw : Window (out.log ++ log₁ ++ log₂ ++ log₃) q' s start stop)
    (hp : p ∈ placed (out.log ++ log₁ ++ log₂ ++ log₃)) (hs : p.s = s) (hbehind : Behind q' p.q) :
  start ≤ p.value ∧ p.value + p.size ≤ stop
  := by
  have h₃ := h.rises₃.low_le s
  rw [h.placed_eq] at hp
  rcases h.window_cases hw with ⟨rfl, hown⟩ | hw <;> rcases List.mem_append.mp hp with hp | hp
  · obtain ⟨e, he, heq⟩ := exists_of_mem_placed hp
    exact absurd (h.setup.path e he ▸ heq) hbehind.2
  · rcases hown with hnone | ⟨rfl, rfl⟩
    · obtain ⟨res, hres, -⟩ := h.rises₁.inside (h.leg.inside p hp)
      rw [hs, hnone] at hres
      cases hres
    · have hbetween := h.leg.between p hp
      rw [hs] at hbetween
      omega
  · obtain ⟨e, he, heq⟩ := exists_of_mem_placed hp
    obtain ⟨e', he', rfl⟩ := hw.exists_mem
    rw [← heq, h.setup.path e he] at hbehind
    exact absurd hbehind.1 (h.not_prefix he')
  · exact h.leg.behind q' s start stop hw p hp hs hbehind

theorem outside (hw : Window (out.log ++ log₁ ++ log₂ ++ log₃) q' s start stop)
    (hp : p ∈ placed (out.log ++ log₁ ++ log₂ ++ log₃)) (hs : p.s = s)
    (hbehind : ¬ Behind q' p.q) :
  p.value + p.size ≤ start ∨ stop ≤ p.value
  := by
  have h₁ := h.rises₁.low_le s
  rw [h.placed_eq] at hp
  rcases h.window_cases hw with ⟨rfl, hown⟩ | hw <;> rcases List.mem_append.mp hp with hp | hp
  · rcases hown with hnone | ⟨rfl, rfl⟩
    · obtain ⟨res, hres, -⟩ := h.setup.good.inside p hp
      rw [hs, (h.setup.good.rises.eq_none_iff s).mp hnone] at hres
      cases hres
    · have hbetween := h.setup.good.between p hp
      rw [hs] at hbetween
      omega
  · obtain ⟨e, he, heq⟩ := exists_of_mem_placed hp
    obtain ⟨d, q'', hq''⟩ := h.below e he
    rw [← heq, hq''] at hbehind
    exact absurd ⟨List.prefix_append _ _, by simp⟩ hbehind
  · obtain ⟨res, hres, -⟩ := h.setup.good.inside p hp
    have hne : out.regions.align s ≠ none := by
      rw [Ne, h.rises_align.eq_none_iff, ← hs, hres]
      exact Option.some_ne_none res
    have hin := h.leg.window q' s start stop hw hne
    have hbetween := h.setup.good.between p hp
    rw [hs] at hbetween
    omega
  · exact h.leg.outside q' s start stop hw p hp hs hbehind

theorem good :
  Good ((q, f) :: functions) regions regions₂.align (out.log ++ log₁ ++ log₂ ++ log₃)
  := by
  constructor
  case rises => exact h.rises_align.trans (h.leg.rises.trans h.rises₃)
  case assigned =>
    intro q' i s size value he
    rcases h.mem_assigned he with he | he
    · obtain ⟨f', bar, hf', hbar⟩ := h.setup.good.assigned q' i s size value he
      exact ⟨f', bar, List.mem_cons.mpr (.inl (List.mem_singleton.mp hf')), hbar⟩
    · obtain ⟨f', bar, hf', hbar, hsize, hs⟩ := h.leg.assigned q' i s size value he
      exact ⟨f', bar, List.mem_cons_of_mem _ hf', hbar, hsize, hs.trans (h.rises_align.space bar)⟩
  case failed =>
    intro q' i s he
    rcases h.mem_failed he with he | he
    · obtain ⟨f', bar, hf', hbar⟩ := h.setup.good.failed q' i s he
      exact ⟨f', bar, List.mem_cons.mpr (.inl (List.mem_singleton.mp hf')), hbar⟩
    · obtain ⟨f', bar, hf', hbar, hs⟩ := h.leg.failed q' i s he
      exact ⟨f', bar, List.mem_cons_of_mem _ hf', hbar, hs.trans (h.rises_align.space bar)⟩
  case disabled => exact fun _ _ _ _ => h.disabled
  case aligned =>
    rw [h.placed_eq]
    exact List.forall_mem_append.mpr ⟨h.setup.good.aligned, h.leg.aligned⟩
  case inside =>
    rw [h.placed_eq]
    exact List.forall_mem_append.mpr ⟨h.setup.good.inside,
      fun p hp => h.rises_align.inside (h.leg.inside p hp)⟩
  case between => exact fun _ => h.between
  case ordered => exact h.ordered
  case window => exact fun _ _ _ _ => h.window
  case behind => exact fun _ _ _ _ hw _ => h.behind hw
  case outside => exact fun _ _ _ _ hw _ => h.outside hw

end BridgeDone

end Window

end Pci
