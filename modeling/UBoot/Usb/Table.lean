import UBoot.Lib.Agree
import UBoot.Usb.Enumerate

/-!
# The table of USB devices

The enumeration fails exactly when a port without a slot is looked at or a device is entered in a
full table; otherwise the hubs and their children point to each other, and only root hubs that have
failed without an address share one.
-/

namespace Usb

/-! ### The links -/

/-- The pointers are in the table, and point back. -/
structure Linked (s : State) : Prop where
  le : s.devIndex ≤ maxDevice
  children : ∀ hub port k, (s.devs hub).children port = some k →
    hub < s.devIndex ∧ port < maxChildren ∧ k < s.devIndex
      ∧ (s.devs k).parent = some hub ∧ (s.devs k).portnr = port + 1

/-- What the scan of a hub leaves alone, and the addresses of what it enters. -/
structure Frame (hub : ℕ) (s s' : State) : Prop where
  le : s.devIndex ≤ s'.devIndex
  devnum : ∀ k < s.devIndex, (s'.devs k).devnum = (s.devs k).devnum
  children : ∀ k < s.devIndex, k ≠ hub → (s'.devs k).children = (s.devs k).children
  new : ∀ k, s.devIndex ≤ k → k < s'.devIndex → (s'.devs k).devnum = (k : ℤ) + 1

/-- A table in which `c` is in use. -/
structure Uses (c : Count) (s : State) : Prop where
  devs : s.devIndex = c.devs
  hubs : s.hubIndex = c.hubs
  linked : Linked s

variable {s s' s'' : State} {hub port k nports : ℕ} {c : Count}

theorem Frame.refl (hub : ℕ) (s : State) :
  Frame hub s s
  := ⟨le_rfl, fun _ _ => rfl, fun _ _ _ => rfl, fun _ h h' => absurd h' (not_lt.mpr h)⟩

/-- A scan of the same hub, or of one that was not there, does not touch the other entries. -/
theorem Frame.trans (h : Frame hub s s') (h' : Frame k s' s'') (hk : k = hub ∨ s.devIndex ≤ k) :
  Frame hub s s''
  := by
  constructor
  case le => exact h.le.trans h'.le
  case devnum =>
    intro j hj
    rw [h'.devnum j (hj.trans_le h.le), h.devnum j hj]
  case children =>
    intro j hj hne
    rw [h'.children j (hj.trans_le h.le) (by omega), h.children j hj hne]
  case new =>
    intro j hj hj'
    rcases Nat.lt_or_ge j s'.devIndex with hlt | hge
    · rw [h'.devnum j hlt, h.new j hj hlt]
    · exact h'.new j hge hj'

/-- An entry that keeps its links. -/
theorem Linked.modify (h : Linked s) (k : ℕ) {f : Device → Device}
    (hf : ∀ dev, (f dev).children = dev.children ∧ (f dev).parent = dev.parent
      ∧ (f dev).portnr = dev.portnr) :
  Linked (s.modify k f)
  := by
  have hsame (j : ℕ) : ((s.modify k f).devs j).children = (s.devs j).children
      ∧ ((s.modify k f).devs j).parent = (s.devs j).parent
      ∧ ((s.modify k f).devs j).portnr = (s.devs j).portnr := by
    simp only [State.modify, Function.update_apply]
    split_ifs with hj
    · rw [hj]
      exact hf _
    · exact ⟨rfl, rfl, rfl⟩
  refine ⟨h.le, ?_⟩
  intro hub port j hj
  rw [(hsame hub).1] at hj
  rw [(hsame j).2.1, (hsame j).2.2]
  exact h.children hub port j hj

/-! ### A new entry -/

/-- The table after `usb_alloc_new_device`. -/
def allocated (s : State) : State :=
  { s.modify s.devIndex (fun dev => { dev with
    devnum := (s.devIndex : ℤ) + 1, maxchild := 0, children := fun _ => none, parent := none }) with
    devIndex := s.devIndex + 1 }

theorem allocNewDevice_eq (h : Linked s) :
  allocNewDevice s = if maxDevice ≤ s.devIndex then none else some (allocated s)
  := by
  have hle := h.le
  rw [allocNewDevice]
  split_ifs
  · rfl
  · omega
  · omega
  · rfl

theorem devs_allocated_of_ne (hk : k ≠ s.devIndex) :
  (allocated s).devs k = s.devs k
  := Function.update_of_ne hk _ _

theorem devs_allocated_self (s : State) :
  (allocated s).devs s.devIndex = { s.devs s.devIndex with
    devnum := (s.devIndex : ℤ) + 1, maxchild := 0, children := fun _ => none, parent := none }
  := Function.update_self _ _ _

theorem Linked.lt (h : Linked s) (hk : (s.devs hub).children port = some k) :
  hub < s.devIndex
  := (h.children hub port k hk).1

theorem Linked.allocated (h : Linked s) (hroom : s.devIndex < maxDevice) :
  Linked (allocated s)
  := by
  refine ⟨hroom, ?_⟩
  intro hub port k hk
  by_cases hub_eq : hub = s.devIndex
  · rw [hub_eq, devs_allocated_self] at hk
    cases hk
  · rw [devs_allocated_of_ne hub_eq] at hk
    obtain ⟨hhub, hport, hlt, hparent, hportnr⟩ := h.children hub port k hk
    rw [devs_allocated_of_ne hlt.ne]
    exact ⟨hhub.trans (Nat.lt_succ_self _), hport, hlt.trans (Nat.lt_succ_self _), hparent, hportnr⟩

theorem frame_allocated (hub : ℕ) (s : State) :
  Frame hub s (allocated s)
  := by
  refine ⟨Nat.le_succ _, ?_, ?_, ?_⟩
  · intro k hk
    rw [devs_allocated_of_ne hk.ne]
  · intro k hk _
    rw [devs_allocated_of_ne hk.ne]
  · intro k hk hk'
    obtain rfl : k = s.devIndex := le_antisymm (Nat.le_of_lt_succ hk') hk
    rw [devs_allocated_self]

/-! ### A new child -/

/-- The table when the new entry is the child of a hub. -/
def entered (s : State) (hub port : ℕ) : State := link (allocated s) hub port s.devIndex

section

variable (hhub : hub < s.devIndex)

include hhub

theorem devs_entered_self :
  (entered s hub port).devs s.devIndex = { (allocated s).devs s.devIndex with
    parent := some hub, portnr := port + 1 }
  := by
  rw [entered, link, State.modify, State.modify]
  dsimp only
  rw [Function.update_self, Function.update_of_ne hhub.ne']

theorem devs_entered_hub :
  (entered s hub port).devs hub = { s.devs hub with
    children := Function.update (s.devs hub).children port (some s.devIndex) }
  := by
  rw [entered, link, State.modify, State.modify]
  dsimp only
  rw [Function.update_of_ne hhub.ne, Function.update_self, devs_allocated_of_ne hhub.ne]

omit hhub in
theorem devs_entered_of_ne (hk : k ≠ s.devIndex) (hk' : k ≠ hub) :
  (entered s hub port).devs k = s.devs k
  := by
  rw [entered, link, State.modify, State.modify]
  dsimp only
  rw [Function.update_of_ne hk, Function.update_of_ne hk', devs_allocated_of_ne hk]

/-- The other entries keep their parents and addresses. -/
theorem devs_entered_old (hk : k < s.devIndex) :
  ((entered s hub port).devs k).devnum = (s.devs k).devnum
    ∧ ((entered s hub port).devs k).parent = (s.devs k).parent
    ∧ ((entered s hub port).devs k).portnr = (s.devs k).portnr
  := by
  by_cases hk' : k = hub
  · rw [hk', devs_entered_hub hhub]
    exact ⟨rfl, rfl, rfl⟩
  · rw [devs_entered_of_ne hk.ne hk']
    exact ⟨rfl, rfl, rfl⟩

theorem Linked.entered (h : Linked s) (hport : port < maxChildren) (hroom : s.devIndex < maxDevice) :
  Linked (entered s hub port)
  := by
  refine ⟨hroom, ?_⟩
  intro hub' port' k hk
  have hsucc : (Usb.entered s hub port).devIndex = s.devIndex + 1 := rfl
  rw [hsucc]
  by_cases hself : hub' = s.devIndex
  · rw [hself, devs_entered_self hhub, devs_allocated_self] at hk
    cases hk
  · -- the children are those that were there, and the new one
    have hcases : hub' = hub ∧ port' = port ∧ k = s.devIndex
        ∨ (s.devs hub').children port' = some k := by
      by_cases hne : hub' = hub
      · rw [hne, devs_entered_hub hhub] at hk
        dsimp only at hk
        rw [Function.update_apply] at hk
        split_ifs at hk with hp
        · exact .inl ⟨hne, hp, (Option.some.inj hk).symm⟩
        · rw [hne]
          exact .inr hk
      · rw [devs_entered_of_ne hself hne] at hk
        exact .inr hk
    rcases hcases with ⟨rfl, rfl, rfl⟩ | hold
    · rw [devs_entered_self hhub]
      exact ⟨hhub.trans (Nat.lt_succ_self _), hport, Nat.lt_succ_self _, rfl, rfl⟩
    · obtain ⟨hhub', hport', hlt, hparent, hportnr⟩ := h.children hub' port' k hold
      obtain ⟨-, hparent', hportnr'⟩ := @devs_entered_old s hub port k hhub hlt
      rw [hparent', hportnr']
      exact ⟨hhub'.trans (Nat.lt_succ_self _), hport', hlt.trans (Nat.lt_succ_self _), hparent,
        hportnr⟩

theorem frame_entered :
  Frame hub s (entered s hub port)
  := by
  refine ⟨Nat.le_succ _, ?_, ?_, ?_⟩
  · intro k hk
    exact (devs_entered_old hhub hk).1
  · intro k hk hne
    rw [devs_entered_of_ne hk.ne hne]
  · intro k hk hk'
    obtain rfl : k = s.devIndex := le_antisymm (Nat.le_of_lt_succ hk') hk
    rw [devs_entered_self hhub, devs_allocated_self]

end

/-! ### A child that fails -/

/-- The table when the new entry has been freed. -/
def removed (s : State) (hub port : ℕ) : State :=
  { s with
    devs := Function.update
      (Function.update s.devs s.devIndex unknown) hub
      { s.devs hub with children := Function.update (s.devs hub).children port none } }

theorem unlink_freeDevice {t : State} (hhub : hub < s.devIndex) (hdevs : t.devIndex = s.devIndex + 1)
    (hhubs : t.hubIndex = s.hubIndex)
    (ht : ∀ k ≠ s.devIndex, t.devs k = (entered s hub port).devs k) :
  unlink (freeDevice t) hub port = removed s hub port
  := by
  have hindex : t.devIndex - 1 = s.devIndex := by omega
  rw [unlink, freeDevice, State.modify, State.modify, removed, hindex, hhubs]
  congr 1
  funext k
  dsimp only
  rw [Function.update_of_ne hhub.ne, ht hub hhub.ne, devs_entered_hub hhub]
  dsimp only
  rw [Function.update_idem]
  simp only [Function.update_apply]
  split_ifs with hk hk'
  · rfl
  · rfl
  · rw [ht k hk', devs_entered_of_ne hk' hk]

section

variable (hhub : hub < s.devIndex)

include hhub

omit hhub in
theorem devs_removed_old (hk : k < s.devIndex) :
  ((removed s hub port).devs k).devnum = (s.devs k).devnum
    ∧ ((removed s hub port).devs k).parent = (s.devs k).parent
    ∧ ((removed s hub port).devs k).portnr = (s.devs k).portnr
  := by
  simp only [removed, Function.update_apply]
  split_ifs with hk' hk''
  · rw [hk']
    exact ⟨rfl, rfl, rfl⟩
  · omega
  · exact ⟨rfl, rfl, rfl⟩

omit hhub in
theorem devs_removed_of_ne (hk : k ≠ s.devIndex) (hk' : k ≠ hub) :
  (removed s hub port).devs k = s.devs k
  := by
  rw [removed]
  dsimp only
  rw [Function.update_of_ne hk', Function.update_of_ne hk]

omit hhub in
theorem devs_removed_hub :
  ((removed s hub port).devs hub).children = Function.update (s.devs hub).children port none
  := by
  rw [removed]
  dsimp only
  rw [Function.update_self]

theorem Linked.removed (h : Linked s) :
  Linked (removed s hub port)
  := by
  refine ⟨h.le, ?_⟩
  intro hub' port' k hk
  have hold : (s.devs hub').children port' = some k := by
    by_cases hself : hub' = s.devIndex
    · have hunknown : (Usb.removed s hub port).devs s.devIndex = unknown := by
        rw [Usb.removed]
        dsimp only
        rw [Function.update_of_ne hhub.ne', Function.update_self]
      rw [hself, hunknown] at hk
      cases hk
    · by_cases hne : hub' = hub
      · rw [hne, devs_removed_hub, Function.update_apply] at hk
        split_ifs at hk
        rw [hne]
        exact hk
      · rw [devs_removed_of_ne hself hne] at hk
        exact hk
  obtain ⟨hhub', hport', hlt, hparent, hportnr⟩ := h.children hub' port' k hold
  obtain ⟨-, hparent', hportnr'⟩ := @devs_removed_old s hub port k hlt
  rw [hparent', hportnr']
  exact ⟨hhub', hport', hlt, hparent, hportnr⟩

omit hhub in
theorem frame_removed :
  Frame hub s (removed s hub port)
  := by
  refine ⟨le_rfl, ?_, ?_, fun k hk hk' => absurd hk' (not_lt.mpr hk)⟩
  · intro k hk
    exact (devs_removed_old hk).1
  · intro k hk hne
    rw [devs_removed_of_ne hk.ne hne]

end

/-! ### A hub -/

/-- What is known of the scan of a hub with nothing behind its ports yet. -/
def Scans (behind : Count → Option Count) (scan : ℕ → State → Except Fault State) : Prop :=
  ∀ c s k, Uses c s → k < s.devIndex → (∀ p, (s.devs k).children p = none) →
    Agree (behind c) (scan k s) fun c' s' => Uses c' s' ∧ Frame k s s'

variable {behind : Count → Option Count} {scan : ℕ → State → Except Fault State}

theorem frame_modify_maxchild (hub : ℕ) (s : State) (k n : ℕ) :
  Frame hub s (s.modify k fun dev => { dev with maxchild := n })
  := by
  have hsame (j : ℕ) : ((s.modify k fun dev => { dev with maxchild := n }).devs j).children
        = (s.devs j).children
      ∧ ((s.modify k fun dev => { dev with maxchild := n }).devs j).devnum = (s.devs j).devnum := by
    simp only [State.modify, Function.update_apply]
    split_ifs with hj
    · rw [hj]
      exact ⟨rfl, rfl⟩
    · exact ⟨rfl, rfl⟩
  refine ⟨le_rfl, ?_, ?_, fun j hj hj' => absurd hj' (not_lt.mpr hj)⟩
  · intro j _
    exact (hsame j).2
  · intro j _ _
    exact (hsame j).1

theorem agree_hubConfigure (hscan : Scans behind scan) (setup : Setup) (nports : ℕ)
    (h : Uses c s) (hk : k < s.devIndex) (hnone : ∀ p, (s.devs k).children p = none) :
  Agree (setup.fits behind c) (hubConfigure setup nports scan k s)
    fun c' s' => Uses c' s' ∧ Frame k s s'
  := by
  rw [Setup.fits.eq_def, hubConfigure, h.hubs]
  by_cases hfull : maxHub ≤ c.hubs
  · rw [if_pos hfull, if_pos hfull]
    exact ⟨h, Frame.refl k s⟩
  · rw [if_neg hfull, if_neg hfull]
    have hcount : Uses { c with hubs := c.hubs + 1 } { s with hubIndex := c.hubs + 1 } :=
      ⟨h.devs, rfl, h.linked.le, h.linked.children⟩
    have hframe : Frame k s { s with hubIndex := c.hubs + 1 } := by
      have hrefl := Frame.refl k s
      exact ⟨hrefl.le, hrefl.devnum, hrefl.children, hrefl.new⟩
    have hmodify := frame_modify_maxchild k { s with hubIndex := c.hubs + 1 } k nports
    have huses : Uses { c with hubs := c.hubs + 1 }
        (State.modify { s with hubIndex := c.hubs + 1 } k fun dev =>
          { dev with maxchild := nports }) :=
      ⟨hcount.devs, rfl, hcount.linked.modify k fun _ => ⟨rfl, rfl, rfl⟩⟩
    cases setup with
    | noDescriptor => exact ⟨hcount, hframe⟩
    | noStatus => exact ⟨huses, hframe.trans hmodify (.inl rfl)⟩
    | scanned =>
      apply (hscan _ _ k huses hk _).mono
      · rintro c' s' ⟨huses', hframe'⟩
        exact ⟨huses', (hframe.trans hmodify (.inl rfl)).trans hframe' (.inl rfl)⟩
      · intro p
        rw [State.modify]
        dsimp only
        rw [Function.update_self]
        exact hnone p

/-! ### A port -/

/-- What a call for a port leaves; the flag says whether there is a child now. -/
structure Called (hub port : ℕ) (s : State) (r : Bool × Count) (s' : State) : Prop where
  uses : Uses r.2 s'
  frame : Frame hub s s'
  child : ((s'.devs hub).children port).isSome = r.1
  ports : ∀ p ≠ port, (s'.devs hub).children p = (s.devs hub).children p

theorem called_refl (h : Uses c s) (hub port : ℕ) :
  Called hub port s (((s.devs hub).children port).isSome, c) s
  := ⟨h, Frame.refl hub s, rfl, fun _ _ => rfl⟩

theorem called_removed (h : Uses c s) (hhub : hub < s.devIndex) (port : ℕ) :
  Called hub port s (false, c) (removed s hub port)
  := by
  constructor
  case uses => exact ⟨h.devs, h.hubs, h.linked.removed hhub⟩
  case frame => exact frame_removed
  case child =>
    rw [devs_removed_hub, Function.update_self]
    rfl
  case ports =>
    intro p hp
    rw [devs_removed_hub, Function.update_of_ne hp]

/-- A child that stays: the entries behind it come after it. -/
theorem called_entered (hhub : hub < s.devIndex) (huses : Uses c s')
    (hframe : Frame s.devIndex (entered s hub port) s') :
  Called hub port s (true, c) s'
  := by
  have hlt : hub < (entered s hub port).devIndex := hhub.trans (Nat.lt_succ_self _)
  have hchildren : (s'.devs hub).children
      = Function.update (s.devs hub).children port (some s.devIndex) := by
    rw [hframe.children hub hlt hhub.ne, devs_entered_hub hhub]
  constructor
  case uses => exact huses
  case frame => exact (frame_entered hhub).trans hframe (.inr le_rfl)
  case child =>
    rw [hchildren, Function.update_self]
    rfl
  case ports =>
    intro p hp
    rw [hchildren, Function.update_of_ne hp]

theorem agree_newDevice (hscan : Scans behind scan) (r : Result) (nports : ℕ)
    (h : Uses c s) (hhub : hub < s.devIndex) (hport : port < maxChildren)
    (hroom : s.devIndex < maxDevice) :
  Agree (r.fits behind c)
    ((newDevice r nports scan s.devIndex (entered s hub port)).map
      fun (err, s) => if err then unlink (freeDevice s) hub port else s)
    (Called hub port s)
  := by
  have huses : Uses { c with devs := c.devs + 1 } (entered s hub port) :=
    ⟨congrArg (· + 1) h.devs, h.hubs, h.linked.entered hhub hport hroom⟩
  cases r with
  | unaddressed =>
    have heq : unlink (freeDevice ((entered s hub port).modify s.devIndex fun dev =>
        { dev with devnum := 0 })) hub port = removed s hub port := by
      apply unlink_freeDevice hhub
      · rfl
      · rfl
      · intro k hk
        rw [State.modify]
        exact Function.update_of_ne hk _ _
    have hcalled := called_removed h hhub port
    rw [← heq] at hcalled
    exact hcalled
  | failed =>
    have heq : unlink (freeDevice (entered s hub port)) hub port = removed s hub port :=
      unlink_freeDevice hhub rfl rfl fun _ _ => rfl
    have hcalled := called_removed h hhub port
    rw [← heq] at hcalled
    exact hcalled
  | device => exact called_entered hhub huses (Frame.refl _ _)
  | hub setup =>
    rw [Result.fits, newDevice]
    have hnone (p : ℕ) : ((entered s hub port).devs s.devIndex).children p = none := by
      rw [devs_entered_self hhub, devs_allocated_self]
    have hagree := agree_hubConfigure hscan setup nports huses (Nat.lt_succ_self _) hnone
    have hmap (x : Except Fault State) : (x.map fun s => (false, s)).map
        (fun (err, s) => if err then unlink (freeDevice s) hub port else s) = x.map id := by
      cases x <;> rfl
    rw [hmap]
    apply hagree.map
    rintro c' s' ⟨huses', hframe⟩
    exact called_entered hhub huses' hframe

theorem agree_portConnectChange (hscan : Scans behind scan) (plug : Plug) (nports : ℕ)
    (h : Uses c s) (hhub : hub < s.devIndex) {child : Bool}
    (hchild : ((s.devs hub).children port).isSome = child) :
  Agree (plug.fits behind port child c) (portConnectChange plug nports scan hub port s)
    (Called hub port s)
  := by
  have hrefl := called_refl h hub port
  rw [hchild] at hrefl
  rw [Plug.fits, portConnectChange, hchild, allocNewDevice_eq h.linked, ← h.devs]
  split_ifs with h₁ h₂ h₃ h₄ h₅ h₆
  · exact hrefl
  · exact hrefl
  · trivial
  · exact hrefl
  · exact hrefl
  · trivial
  · exact agree_newDevice hscan plug.result nports h hhub (not_le.mp h₃) (not_le.mp h₆)

/-! ### All ports of a hub -/

theorem Called.trans {r r' : Bool × Count} (h : Called hub port s r s') (h' : Called hub port s' r' s'') :
  Called hub port s r' s''
  := by
  refine ⟨h'.uses, h.frame.trans h'.frame (.inl rfl), h'.child, ?_⟩
  intro p hp
  rw [h'.ports p hp, h.ports p hp]

theorem agree_connectionChange (hscan : Scans behind scan) (change : Option Plug) (nports : ℕ)
    (h : Uses c s) (hhub : hub < s.devIndex) (hnone : (s.devs hub).children port = none) :
  Agree (fitsConnection change behind port c)
    (connectionChange change nports scan hub port s) (Called hub port s)
  := by
  have hchild : ((s.devs hub).children port).isSome = false := by
    rw [hnone]
    rfl
  cases change with
  | none =>
    have hrefl := called_refl h hub port
    rw [hchild] at hrefl
    exact hrefl
  | some plug => exact agree_portConnectChange hscan plug nports h hhub hchild

theorem agree_enablingChange (hscan : Scans behind scan) (change : Option Plug) (nports : ℕ)
    (h : Uses c s) (hhub : hub < s.devIndex) {child : Bool}
    (hchild : ((s.devs hub).children port).isSome = child) :
  Agree (fitsEnabling change behind port child c)
    (enablingChange change nports scan hub port s) (Called hub port s)
  := by
  have hrefl := called_refl h hub port
  rw [hchild] at hrefl
  cases change with
  | none => exact hrefl
  | some plug =>
    rw [enablingChange, fitsEnabling, hchild]
    split_ifs
    · trivial
    · exact agree_portConnectChange hscan plug nports h hhub hchild
    · exact hrefl

/-- The loop over the ports, from one on behind which there is nothing yet. -/
theorem agree_scanPorts (ports : Ports) (h : Uses c s) (hhub : hub < s.devIndex)
    (hnone : ∀ p, port ≤ p → (s.devs hub).children p = none) :
  Agree (ports.fits port c) (scanPorts ports hub port s) fun c' s' => Uses c' s' ∧ Frame hub s s'
  := by
  induction ports generalizing hub port s c with
  | nil => exact ⟨h, Frame.refl hub s⟩
  | port change behind enableChange behind' rest ih ih' ihrest =>
    have hscan : Scans (behind.fits 0) fun k => scanPorts behind k 0 :=
      fun c s k h hk hnone => ih h hk fun p _ => hnone p
    have hscan' : Scans (behind'.fits 0) fun k => scanPorts behind' k 0 :=
      fun c s k h hk hnone => ih' h hk fun p _ => hnone p
    rw [Ports.fits, scanPorts]
    apply (agree_connectionChange hscan change _ h hhub (hnone port le_rfl)).bind
    rintro ⟨child, c₁⟩ s₁ h₁
    have hhub₁ : hub < s₁.devIndex := hhub.trans_le h₁.frame.le
    apply (agree_enablingChange hscan' enableChange _ h₁.uses hhub₁ h₁.child).bind
    rintro ⟨child', c₂⟩ s₂ h₂
    have h₂ := h₁.trans h₂
    have hrest := @ihrest s₂ hub (port + 1) c₂ h₂.uses (hhub.trans_le h₂.frame.le) (by
      intro p hp
      rw [h₂.ports p (by omega)]
      exact hnone p (by omega))
    apply hrest.mono
    rintro c₃ s₃ ⟨huses, hframe⟩
    exact ⟨huses, h₂.frame.trans hframe (.inl rfl)⟩

theorem scans_ports (ports : Ports) :
  Scans (ports.fits 0) fun k => scanPorts ports k 0
  := fun _ _ _ h hk hnone => agree_scanPorts ports h hk fun p _ => hnone p

/-! ### The controllers -/

/-- The addresses: those of `zeros` entries are 0. -/
def Addressed (zeros : ℕ) (s : State) : Prop :=
  ∃ unaddressed : Finset ℕ, unaddressed.card = zeros ∧ (∀ k ∈ unaddressed, k < s.devIndex)
    ∧ ∀ k < s.devIndex, (s.devs k).devnum = if k ∈ unaddressed then 0 else (k : ℤ) + 1

theorem Addressed.frame {zeros : ℕ} (h : Addressed zeros s) (hframe : Frame hub s s') :
  Addressed zeros s'
  := by
  obtain ⟨unaddressed, hcard, hmem, hdevnum⟩ := h
  refine ⟨unaddressed, hcard, fun k hk => (hmem k hk).trans_le hframe.le, ?_⟩
  intro k hk
  rcases Nat.lt_or_ge k s.devIndex with hlt | hge
  · rw [hframe.devnum k hlt, hdevnum k hlt]
  · rw [hframe.new k hge hk, if_neg fun hmem' => absurd (hmem k hmem') (not_lt.mpr hge)]

/-- A root hub fails without an address. -/
theorem Addressed.unaddressed {zeros : ℕ} (h : Addressed zeros s) :
  Addressed (zeros + 1) ((allocated s).modify s.devIndex fun dev => { dev with devnum := 0 })
  := by
  obtain ⟨unaddressed, hcard, hmem, hdevnum⟩ := h
  have hnew : s.devIndex ∉ unaddressed := fun hin => lt_irrefl _ (hmem _ hin)
  refine ⟨insert s.devIndex unaddressed, ?_, ?_, ?_⟩
  · rw [Finset.card_insert_of_notMem hnew, hcard]
  · intro k hk
    rcases Finset.mem_insert.mp hk with rfl | hk
    · exact Nat.lt_succ_self _
    · exact (hmem k hk).trans (Nat.lt_succ_self _)
  · intro k hk
    have hk : k < s.devIndex + 1 := hk
    rw [State.modify]
    dsimp only
    by_cases hself : k = s.devIndex
    · rw [hself, Function.update_self, if_pos (Finset.mem_insert_self _ _)]
    · have hlt : k < s.devIndex := by omega
      rw [Function.update_of_ne hself, devs_allocated_of_ne hself, hdevnum k hlt]
      simp only [Finset.mem_insert, hself, false_or]

theorem Addressed.distinct_iff {zeros : ℕ} (h : Addressed zeros s) :
  (∀ j < s.devIndex, ∀ k < s.devIndex, (s.devs j).devnum = (s.devs k).devnum → j = k) ↔ zeros ≤ 1
  := by
  obtain ⟨unaddressed, rfl, hmem, hdevnum⟩ := h
  rw [Finset.card_le_one]
  constructor
  · intro hdistinct j hj k hk
    apply hdistinct j (hmem j hj) k (hmem k hk)
    rw [hdevnum j (hmem j hj), hdevnum k (hmem k hk), if_pos hj, if_pos hk]
  · intro hone j hj k hk heq
    rw [hdevnum j hj, hdevnum k hk] at heq
    split_ifs at heq with hj' hk' hk'
    · exact hone j hj' k hk'
    · omega
    · omega
    · omega

theorem agree_initController (ctrl : Controller) {zeros : ℕ} (h : Uses c s)
    (haddr : Addressed zeros s) :
  Agree (ctrl.fits c zeros) (initController ctrl s)
    fun r s' => Uses r.1 s' ∧ Addressed r.2 s'
  := by
  have hle := h.linked.le
  rw [Controller.fits, initController, allocNewDevice_eq h.linked, ← h.devs]
  by_cases hlow : ctrl.lowlevel = false
  · rw [if_pos (.inl hlow), if_pos hlow]
    exact ⟨h, haddr⟩
  rw [if_neg hlow]
  by_cases hfull : s.devIndex = maxDevice
  · rw [if_pos (.inr hfull), if_pos hfull.ge]
    exact ⟨h, haddr⟩
  rw [if_neg (not_or.mpr ⟨hlow, hfull⟩), if_neg (by omega), h.devs]
  have huses : Uses { c with devs := c.devs + 1 } (allocated s) :=
    ⟨congrArg (· + 1) h.devs, h.hubs, h.linked.allocated (lt_of_le_of_ne hle hfull)⟩
  have haddr' : Addressed zeros (allocated s) := haddr.frame (frame_allocated 0 s)
  rw [← h.devs]
  cases ctrl.root with
  | unaddressed =>
    have hlinked : Linked ((allocated s).modify s.devIndex fun dev => { dev with devnum := 0 }) := by
      apply huses.linked.modify
      exact fun _ => ⟨rfl, rfl, rfl⟩
    exact ⟨⟨rfl, huses.hubs, hlinked⟩, haddr.unaddressed⟩
  | failed => exact ⟨⟨rfl, huses.hubs, huses.linked⟩, haddr'⟩
  | device => exact ⟨⟨rfl, huses.hubs, huses.linked⟩, haddr'⟩
  | hub setup =>
    have hmap (x : Except Fault State) : (x.map fun s => (false, s)).map Prod.snd = x.map id := by
      cases x <;> rfl
    have hnone (p : ℕ) : ((allocated s).devs s.devIndex).children p = none := by
      rw [devs_allocated_self]
    dsimp only
    rw [newDevice, hmap, h.devs]
    rw [h.devs] at hnone
    apply (agree_hubConfigure (scans_ports ctrl.ports) setup _ huses _ hnone).map
    · rintro c' s' ⟨huses', hframe⟩
      exact ⟨huses', haddr'.frame hframe⟩
    · rw [huses.devs]
      exact Nat.lt_succ_self _

theorem agree_initLoop (cs : List Controller) {zeros : ℕ} (h : Uses c s) (haddr : Addressed zeros s) :
  Agree (fitsAll cs c zeros) (initLoop cs s) fun zeros' s' => Linked s' ∧ Addressed zeros' s'
  := by
  induction cs generalizing c s zeros with
  | nil => exact ⟨h.linked, haddr⟩
  | cons ctrl cs ih =>
    rw [fitsAll, initLoop]
    apply (agree_initController ctrl h haddr).bind
    rintro ⟨c', zeros'⟩ s' ⟨huses, haddr'⟩
    exact ih huses haddr'

/-! ### All trees -/

theorem uses_start :
  Uses ⟨0, 0⟩ ⟨fun _ => unknown, 0, 0⟩
  := ⟨rfl, rfl, Nat.zero_le _, nofun⟩

theorem addressed_start :
  Addressed 0 ⟨fun _ => unknown, 0, 0⟩
  := ⟨∅, rfl, nofun, nofun⟩

/--
The enumeration is right when ports without a slot are not looked at, no device is entered in a full
table, and no two root hubs have failed without an address.
-/
theorem enumerates_iff (cs : List Controller) :
  Enumerates cs ↔ ∃ zeros, fitsAll cs ⟨0, 0⟩ 0 = some zeros ∧ zeros ≤ 1
  := by
  apply (agree_initLoop cs uses_start addressed_start).exists_ok_iff
  rintro zeros s ⟨hlinked, haddr⟩
  rw [← haddr.distinct_iff]
  constructor
  · exact fun h => h.addresses
  · intro hdistinct
    refine ⟨hlinked.le, hdistinct, ?_⟩
    intro hub port k hk
    exact (hlinked.children hub port k hk).2

/-- A call that ends with a result. -/
def plugged (result : Result) : Plug := ⟨true, true, false, true, result⟩

/-- As many ports, each with the same behind it. -/
def samePorts (result : Result) (behind : Ports) : ℕ → Ports
  | 0 => .nil
  | n + 1 => .port (some (plugged result)) behind none .nil (samePorts result behind n)

/-- A hub with a device that fails and then is found again, another hub, and a second controller. -/
theorem enumerates_two :
  Enumerates
    [⟨true, .hub .scanned, .port (some (plugged .failed)) .nil (some (plugged .device)) .nil
      (.port (some (plugged .device)) .nil (some (plugged .device)) .nil
        (.port (some (plugged (.hub .scanned))) (samePorts .device .nil 4) none .nil .nil))⟩,
      ⟨true, .unaddressed, .nil⟩]
  := by
  rw [enumerates_iff]
  exact ⟨1, by decide +kernel, le_rfl⟩

theorem not_enumerates_of_error {cs : List Controller} (h : (init cs).isOk = false) :
  ¬ Enumerates cs
  := by
  rintro ⟨s, hs, -⟩
  rw [hs] at h
  cases h

/--
A full table, a hub with nine ports, and two root hubs that do not answer.
-/
theorem not_enumerates_full :
  ¬ Enumerates
      [⟨true, .hub .scanned, samePorts (.hub .scanned) (samePorts .device .nil 8) 4⟩]
    ∧ ¬ Enumerates [⟨true, .hub .scanned, samePorts .device .nil 9⟩]
    ∧ ¬ Enumerates [⟨true, .unaddressed, .nil⟩, ⟨true, .unaddressed, .nil⟩]
  := by
  refine ⟨not_enumerates_of_error (by decide +kernel), not_enumerates_of_error (by decide +kernel), ?_⟩
  rintro ⟨s, hs, henum⟩
  have hzero : ((init [⟨true, .unaddressed, .nil⟩, ⟨true, .unaddressed, .nil⟩]).toOption.map
      fun s => (s.devIndex, (s.devs 0).devnum, (s.devs 1).devnum)) = some (2, 0, 0) := by
    decide +kernel
  rw [hs] at hzero
  have hzero := Option.some.inj hzero
  simp only [Prod.mk.injEq] at hzero
  have heq := henum.addresses 0 (by omega) 1 (by omega) (by omega)
  exact absurd heq (by decide)

end Usb
